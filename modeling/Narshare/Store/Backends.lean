/-
Whatever the index does with a store, the two backends show it the same.

# What is compared

`Agree` lists what the index can ask: clocks, journal suffixes from any
start under any byte limit, possession, watermarks, facts, both lookups,
the Merkle root and children, and what a reader has of a Merkle node
once it has followed the cursors from the start to their end. Lists
whose order a backend does not promise are compared up to order. The two
page a node in different orders, by hash and by path, so pages and
cursors differ; but every complete reading, under whatever limits, has
the same facts (`Reading`, Lib/Paging.lean).

# The argument

Both backends refine one catalog (Refine.lean), and a catalog determines
every answer. `Rep.perm` is the lemma behind all answers that list facts:
the rows either backend selects are the catalog's, each once
(`PgFacts.Holds.selected`), so selections that agree on every fact give
the same facts.

# Rows of 0

A watermark is compared pair by pair with 0 for a missing row, which is
how the index reads it. The rows themselves do differ: advancing to 0
inserts a row in the shared store, and none in the embedded one
(`zero_watermark_shows`).
-/
import Narshare.Lib.System
import Narshare.Store.Lookup
import Narshare.Store.Page
import Narshare.Store.PgPage
import Narshare.Store.Refine

namespace Narshare

variable (cd : Codec)

/-- The facts of the shared store, in key order. -/
def PgFacts.rows (f : PgFacts) : List Attestation := f.attestations.entries.map fact

/-- The two stores show the same. -/
structure Agree (s : Store) (p : Pg) : Prop where
  clock : ∀ o, s.db.clock o = p.clock o
  suffix : ∀ o after maxBytes,
    s.db.journalSuffix cd o after maxBytes = p.journalSuffix cd o after maxBytes
  holdings : ∀ o, (s.db.holdings o).Perm (p.holdings o)
  watermark : ∀ peer o, s.db.watermark peer o = p.watermark peer o
  facts : s.rows.Perm p.facts.rows
  hashPart : ∀ hashPart : Bytes, hashPart.length = 32 →
    (s.db.lookupHashPart hashPart).Perm (p.lookupHashPart hashPart)
  narHash : ∀ narHash, (s.db.lookupNarHash narHash).Perm (p.lookupNarHash narHash)
  root : s.merkleRoot = p.facts.merkleRoot
  children : ∀ node, s.merkleChildren node = p.facts.merkleChildren node
  paging : ∀ node : Bytes, node.length ≤ 2 →
    (∃ read, Reading (s.db.attestationPage cd node) [] read)
      ∧ (∃ read, Reading (fun cursor maxBytes =>
          (p.facts.attestationPage cd node cursor maxBytes).getD ([], none)) [] read)
      ∧ ∀ read read', Reading (s.db.attestationPage cd node) [] read →
        Reading (fun cursor maxBytes =>
          (p.facts.attestationPage cd node cursor maxBytes).getD ([], none)) [] read' →
        read.Perm read'

/-- Both backends under one index; `taken` remembers every fact handed
over. -/
structure Backends where
  rocks : Store := {}
  pg : Pg := {}
  taken : List Attestation := []

namespace Backends

/-- One call, made on both; the order is the shared store's for the
changes of a replacement. -/
def step (b : Backends) (a : RawOp × List HoldOp) : Option Backends :=
  (b.rocks.call cd a.1).bind fun r =>
    (b.pg.call cd a.2 a.1).map fun q => ⟨r.2, q.2, b.taken ++ a.1.attests⟩

/-- The call is one the index makes. -/
def IssuedAt (b : Backends) (a : RawOp × List HoldOp) : Prop :=
  a.1.Issued fun o => (b.rocks.db.clock o).seq

instance (b : Backends) (a : RawOp × List HoldOp) : Decidable (b.IssuedAt a) :=
  inferInstanceAs (Decidable (a.1.Issued fun o => (b.rocks.db.clock o).seq))

end Backends

/-- Both backends from empty, one call after the other. -/
def backendsSystem : System Backends (RawOp × List HoldOp) where
  init b := b = {}
  step b a := b.step cd a

variable {cd}

-- ============================================================ selected facts

section Facts

variable {db : Db} {f : PgFacts} {t : FactTable}

/-- The rows the embedded store selects, each once. -/
theorem Rep.selected (h : Rep cd db t) (asked : Bytes × Attestation → Bool) :
    ((db.att.entries.filter asked).map Prod.snd).Nodup
      ∧ ∀ a, a ∈ (db.att.entries.filter asked).map Prod.snd
        ↔ t.rows.get (pathKeyOf a) = some a
          ∧ asked (Db.attKey (attestationHash cd a) (pathKeyOf a), a) = true := by
  constructor
  · refine List.Nodup.map_on ?_ (db.att.entries_nodup.filter _)
    rintro ⟨k, a⟩ hmem ⟨k', a'⟩ hmem' he
    obtain rfl : a = a' := he
    have hk := ((h.att k a).mp (OrdMap.mem_entries.mp (List.mem_of_mem_filter hmem))).2
    have hk' := ((h.att k' a).mp (OrdMap.mem_entries.mp (List.mem_of_mem_filter hmem'))).2
    rw [hk, hk']
  · intro a
    rw [List.mem_map]
    constructor
    · rintro ⟨⟨k, a'⟩, hmem, he⟩
      obtain rfl : a' = a := he
      obtain ⟨hmem, hasked⟩ := List.mem_filter.mp hmem
      obtain ⟨ha, rfl⟩ := (h.att k a').mp (OrdMap.mem_entries.mp hmem)
      exact ⟨ha, hasked⟩
    · rintro ⟨ha, hasked⟩
      exact ⟨(_, a), List.mem_filter.mpr
        ⟨OrdMap.mem_entries.mpr ((h.att _ a).mpr ⟨ha, rfl⟩), hasked⟩, rfl⟩

/-- The rows the shared store selects, each once. -/
theorem PgFacts.Holds.selected (h : f.Holds cd t) (asked : PgKey × PgRow → Bool) :
    ((f.attestations.entries.filter asked).map PgFacts.fact).Nodup
      ∧ ∀ a, a ∈ (f.attestations.entries.filter asked).map PgFacts.fact
        ↔ t.rows.get (pathKeyOf a) = some a ∧ asked (pgKeyOf a, PgRow.of cd a) = true := by
  constructor
  · refine List.Nodup.map_on ?_ (f.attestations.entries_nodup.filter _)
    rintro ⟨k, r⟩ hmem ⟨k', r'⟩ hmem' he
    obtain ⟨a, -, rfl, rfl⟩ :=
      (h.row k r).mp (OrdMap.mem_entries.mp (List.mem_of_mem_filter hmem))
    obtain ⟨a', -, rfl, rfl⟩ :=
      (h.row k' r').mp (OrdMap.mem_entries.mp (List.mem_of_mem_filter hmem'))
    obtain rfl : a = a' := he
    rfl
  · intro a
    rw [List.mem_map]
    constructor
    · rintro ⟨⟨k, r⟩, hmem, he⟩
      obtain ⟨hmem, hasked⟩ := List.mem_filter.mp hmem
      obtain ⟨a', ha', rfl, rfl⟩ := (h.row k r).mp (OrdMap.mem_entries.mp hmem)
      obtain rfl : a' = a := he
      exact ⟨ha', hasked⟩
    · rintro ⟨ha, hasked⟩
      exact ⟨(_, _), List.mem_filter.mpr
        ⟨OrdMap.mem_entries.mpr ((h.row _ _).mpr ⟨a, ha, rfl, rfl⟩), hasked⟩, rfl⟩

/-- Selections that agree on every fact give the same facts. -/
theorem Rep.perm (h : Rep cd db t) (h' : f.Holds cd t)
    (asked : Bytes × Attestation → Bool) (asked' : PgKey × PgRow → Bool)
    (heq : ∀ a, t.rows.get (pathKeyOf a) = some a →
      asked (Db.attKey (attestationHash cd a) (pathKeyOf a), a)
        = asked' (pgKeyOf a, PgRow.of cd a)) :
    ((db.att.entries.filter asked).map Prod.snd).Perm
      ((f.attestations.entries.filter asked').map PgFacts.fact) := by
  obtain ⟨hnodup, hmem⟩ := h.selected asked
  obtain ⟨hnodup', hmem'⟩ := h'.selected asked'
  rw [List.perm_ext_iff_of_nodup hnodup hnodup']
  intro a
  rw [hmem, hmem']
  exact and_congr_right fun ha => by rw [heq a ha]

end Facts

-- ================================================================= the tree

/-- The path index sums to what the fact table does. -/
theorem Rep.sum_attPath {db : Db} {t : FactTable} (h : Rep cd db t) (n : Node) :
    (db.attPath.sum fun _ d => n.part d)
      = t.rows.sum fun _ a => n.part (attestationHash cd a) := by
  have hpath : db.attPath = t.rows.mapVal (attestationHash cd) := by
    refine OrdMap.ext fun pathKey => ?_
    rw [h.path, OrdMap.get_mapVal]
  rw [hpath, OrdMap.sum_mapVal]

/-- The nodes above a hash, in either numbering. -/
theorem partAt_coarse (i : ℕ) : partAt (1, i) = (Node.coarse i).part := by
  funext h
  have hiff : (1, i) ∈ aggNodes h ↔ (Node.coarse i).covers h = true := by
    rw [aggNodes, Node.covers, beq_iff_eq, List.mem_pair]
    constructor
    · rintro (he | he)
      · cases he
      · exact (Prod.ext_iff.mp he).2.symm
    · rintro rfl
      exact Or.inr rfl
  rw [partAt, Node.part]
  exact if_congr hiff rfl rfl

theorem partAt_leaf {block i : ℕ} (hi : i < 256) :
    partAt (2, block * 256 + i) = (Node.leaf block i).part := by
  funext h
  have hiff : (2, block * 256 + i) ∈ aggNodes h ↔ (Node.leaf block i).covers h = true := by
    rw [aggNodes, Node.covers, Bool.and_eq_true, beq_iff_eq, beq_iff_eq, List.mem_pair]
    constructor
    · rintro (he | he)
      · have := (Prod.ext_iff.mp he).2
        simp only at this
        omega
      · cases he
    · rintro ⟨hb, hs⟩
      refine Or.inl (Prod.ext rfl ?_)
      show block * 256 + i = leafOf h
      omega
  rw [partAt, Node.part]
  exact if_congr hiff rfl rfl

/-- The leaves of a node are the hashes that begin with it. -/
theorem leafRange_iff {node : Bytes} {range : ℕ × ℕ} (h : PgFacts.leafRange node = some range)
    (d : Digest) (pathKey : Bytes) :
    node <+: Db.attKey d pathKey ↔ range.1 ≤ leafOf d ∧ leafOf d < range.2 := by
  obtain ⟨rest, hkey⟩ := attKey_eq d pathKey
  have h₀ := (d.bytes 0).toNat_lt
  have h₁ := (d.bytes 1).toNat_lt
  rw [hkey]
  match node with
  | [] =>
      cases h
      refine iff_of_true List.nil_prefix ⟨Nat.zero_le _, ?_⟩
      show leafOf d < 65536
      unfold leafOf
      omega
  | [c] =>
      cases h
      have hc := c.toNat_lt
      rw [List.cons_prefix_cons, ← UInt8.toNat_inj]
      show _ ↔ c.toNat * 256 ≤ leafOf d ∧ leafOf d < c.toNat * 256 + 256
      unfold leafOf
      constructor
      · rintro ⟨he, -⟩
        omega
      · rintro ⟨hlo, hhi⟩
        exact ⟨by omega, List.nil_prefix⟩
  | [c, c'] =>
      cases h
      have hc := c.toNat_lt
      have hc' := c'.toNat_lt
      rw [List.cons_prefix_cons, List.cons_prefix_cons, ← UInt8.toNat_inj, ← UInt8.toNat_inj]
      show _ ↔ c.toNat * 256 + c'.toNat ≤ leafOf d
        ∧ leafOf d < c.toNat * 256 + c'.toNat + 1
      unfold leafOf
      constructor
      · rintro ⟨he, he', -⟩
        omega
      · rintro ⟨hlo, hhi⟩
        exact ⟨by omega, by omega, List.nil_prefix⟩
  | _ :: _ :: _ :: _ => cases h

-- ================================================================== lookups

section Lookups

variable {db : Db} {p : Pg} {t : FactTable}

/-- The subquery for holders finds those the other backend has. -/
theorem Pg.holdersOf_spec (hheld : ∀ o x, db.isHeld o x = p.asDb.isHeld o x) (h : NarHash) :
    HoldersOf db h (p.holdersOf h.val) where
  sorted := by
    rw [Pg.holdersOf, List.pairwise_map]
    refine (p.holdingRows.sorted.filter _).imp_of_mem fun {a b} ha hb hab => ?_
    have hah : (ofLex a.1).2 = h := Subtype.ext (of_decide_eq_true (List.mem_filter.mp ha).2)
    have hbh : (ofLex b.1).2 = h := Subtype.ext (of_decide_eq_true (List.mem_filter.mp hb).2)
    rcases Prod.Lex.lt_iff.mp hab with hlt | ⟨-, hlt⟩
    · exact hlt
    · rw [hah, hbh] at hlt
      exact absurd hlt (lt_irrefl h)
  mem o := by
    rw [hheld, Pg.holdersOf, List.mem_map]
    show _ ↔ (p.holdingRows.get (toLex (o, h))).isSome = true
    rw [Option.isSome_iff_exists]
    constructor
    · rintro ⟨⟨k, v⟩, hmem, rfl⟩
      obtain ⟨hrow, hh⟩ := List.mem_filter.mp hmem
      obtain rfl : (ofLex k).2 = h := Subtype.ext (of_decide_eq_true hh)
      exact ⟨v, OrdMap.mem_entries.mp hrow⟩
    · rintro ⟨v, hv⟩
      exact ⟨(toLex (o, h), v),
        List.mem_filter.mpr ⟨OrdMap.mem_entries.mpr hv, decide_eq_true rfl⟩, rfl⟩

/-- A lookup of the shared store finds exactly the facts asked for. -/
theorem PgFacts.Holds.foundExactly_lookup (h : p.facts.Holds cd t)
    (hheld : ∀ o x, db.isHeld o x = p.asDb.isHeld o x) {asked : PgKey → Bool}
    {wanted : Attestation → Prop} (hasked : ∀ a, asked (pgKeyOf a) = true ↔ wanted a) :
    FoundExactly db t wanted (p.lookup asked) where
  once := by
    have hnodup := (h.selected fun e => asked e.1).1
    have hmap : (((p.facts.attestations.entries.filter fun e => asked e.1).map fun e =>
        (e.2.attestation (ofLex e.1).2, p.holdersOf (ofLex e.1).2)).map Prod.fst).Nodup := by
      rw [List.map_map]
      exact hnodup
    exact hmap.sublist (List.filter_sublist.map Prod.fst)
  mem a holders := by
    rw [Pg.lookup, List.mem_filter, decide_eq_true_eq, List.mem_map]
    constructor
    · rintro ⟨⟨⟨k, r⟩, hmem, he⟩, hne⟩
      obtain ⟨hmem, hk⟩ := List.mem_filter.mp hmem
      obtain ⟨b, hb, rfl, rfl⟩ := (h.row k r).mp (OrdMap.mem_entries.mp hmem)
      obtain rfl : b = a := (Prod.ext_iff.mp he).1
      obtain rfl : p.holdersOf b.narHash = holders := (Prod.ext_iff.mp he).2
      exact ⟨⟨hb, (hasked b).mp hk⟩, ⟨b.narHash, (t.ok _ _ hb).nar⟩, rfl,
        Pg.holdersOf_spec hheld ⟨b.narHash, (t.ok _ _ hb).nar⟩, hne⟩
    · rintro ⟨⟨ha, hwanted⟩, x, hx, hholders, hne⟩
      refine ⟨⟨(pgKeyOf a, PgRow.of cd a), List.mem_filter.mpr
        ⟨OrdMap.mem_entries.mpr ((h.row _ _).mpr ⟨a, ha, rfl, rfl⟩), (hasked a).mpr hwanted⟩, ?_⟩,
        hne⟩
      have hsame : p.holdersOf a.narHash = holders := by
        rw [← hx]
        exact (Pg.holdersOf_spec hheld x).unique hholders
      exact Prod.ext rfl hsame

/-- What both backends find exactly, they find alike. -/
theorem FoundExactly.perm {wanted : Attestation → Prop}
    {found found' : List (Attestation × List Origin)} (h : FoundExactly db t wanted found)
    (h' : FoundExactly db t wanted found') : found.Perm found' := by
  rw [List.perm_ext_iff_of_nodup (List.Nodup.of_map _ h.once) (List.Nodup.of_map _ h'.once)]
  rintro ⟨a, holders⟩
  rw [h.mem, h'.mem]

end Lookups

-- ================================================================== journals

/-- The shared store's journal query is the other's scan. -/
theorem Pg.journalSuffix_eq (p : Pg) (o : Origin) (after maxBytes : ℕ) :
    p.journalSuffix cd o after maxBytes = p.asDb.journalSuffix cd o after maxBytes := by
  rw [Pg.journalSuffix, Db.journalSuffix, Db.journalFrom_eq_filter, List.map_map,
    OrdMap.seek_eq_filter, List.filter_filter]
  congr 2
  refine List.filter_congr fun e _ => ?_
  rw [Bool.eq_iff_iff, Bool.and_eq_true, decide_eq_true_eq, decide_eq_true_eq,
    decide_eq_true_eq]
  refine and_congr_right fun ho => ?_
  rw [Prod.Lex.le_iff]
  constructor
  · exact fun hlt => Or.inr ⟨ho.symm, hlt⟩
  · rintro (hlt | ⟨-, hle⟩)
    · exact absurd (ho ▸ hlt) (lt_irrefl _)
    · exact hle

theorem Db.nodup_holdings (db : Db) (o : Origin) : (db.holdings o).Nodup := by
  refine List.Nodup.map_on ?_ (db.hold.entries_nodup.filter _)
  rintro ⟨k, u⟩ hmem ⟨k', u'⟩ hmem' he
  have ho := of_decide_eq_true (List.mem_filter.mp hmem).2
  have ho' := of_decide_eq_true (List.mem_filter.mp hmem').2
  obtain rfl : k = k' := Prod.ext (ho.trans ho'.symm) he
  rfl

-- ==================================================================== paging

variable (cd) in
/-- Pages of the embedded store under a node, from its start or from a
cursor within it. -/
theorem Db.serves (db : Db) (node : Bytes) :
    Serves (db.attestationPage cd node) (fun c => (db.rowsFrom node c).map Prod.snd)
      fun c => c = [] ∨ node <+: c where
  last c n hc hnext := by
    have hpage := attestationPage_spec cd db n hc
    rw [hnext] at hpage
    exact hpage.eq_all
  more c k n hc hnext := by
    have hpage := attestationPage_spec cd db n hc
    rw [hnext] at hpage
    obtain ⟨e, he, rfl⟩ := hpage.next_mem
    exact ⟨Or.inr (Db.mem_rowsFrom.mp he).2.1, hpage.ne_nil (List.ne_nil_of_mem he),
      Db.rowsFrom_rest hpage⟩

-- ================================================================= agreement

section Agreement

variable {s : Store} {p : Pg} {l : Catalog} {taken : List Attestation}

/-- Keys of the shared store come back from a cursor. -/
theorem Catalog.Inv.keys (hinv : l.Inv taken) (hp : p.Refines cd l) (k : PgKey) (r : PgRow)
    (h : p.facts.attestations.get k = some r) :
    PgFacts.splitCursor (PgFacts.joinCursor k) = k := by
  obtain ⟨a, ha, rfl, -⟩ := (hp.facts.row k r).mp h
  obtain ⟨hlen, htext⟩ := hinv.hashPart ha
  exact PgFacts.split_join hlen htext

/-- Complete readings of a node hold the same facts. -/
theorem agree_paging (hs : s.Refines cd l) (hp : p.Refines cd l) (hinv : l.Inv taken)
    {node : Bytes} (hnode : node.length ≤ 2) :
    (∃ read, Reading (s.db.attestationPage cd node) [] read)
      ∧ (∃ read, Reading (fun cursor maxBytes =>
          (p.facts.attestationPage cd node cursor maxBytes).getD ([], none)) [] read)
      ∧ ∀ read read', Reading (s.db.attestationPage cd node) [] read →
        Reading (fun cursor maxBytes =>
          (p.facts.attestationPage cd node cursor maxBytes).getD ([], none)) [] read' →
        read.Perm read' := by
  obtain ⟨range, hrange⟩ : ∃ range, PgFacts.leafRange node = some range := by
    match node with
    | [] => exact ⟨_, rfl⟩
    | [_] => exact ⟨_, rfl⟩
    | [_, _] => exact ⟨_, rfl⟩
    | _ :: _ :: _ :: _ => simp at hnode
  have hpages : (fun cursor maxBytes =>
      (p.facts.attestationPage cd node cursor maxBytes).getD ([], none))
      = p.facts.pageFrom cd range := by
    funext cursor maxBytes
    rw [PgFacts.attestationPage, hrange]
    rfl
  have hserves := Db.serves cd s.db node
  have hserves' := PgFacts.serves cd range (hinv.keys hp)
  rw [hpages]
  refine ⟨⟨_, hserves.reading 0 (Or.inl rfl)⟩, ⟨_, hserves'.reading 0 trivial⟩, ?_⟩
  intro read read' hread hread'
  rw [hserves.read_eq (Or.inl rfl) hread, hserves'.read_eq trivial hread']
  refine hs.rep.perm hp.facts _ _ fun a ha => ?_
  rw [Bool.eq_iff_iff, Bool.and_eq_true, decide_eq_true_eq, decide_eq_true_eq,
    List.isPrefixOf_iff_prefix, leafRange_iff hrange]
  -- no key is at or below the start, in either order
  have hstart : ([] : Bytes) < Db.attKey (attestationHash cd a) (pathKeyOf a) := by
    obtain ⟨rest, hkey⟩ := attKey_eq (attestationHash cd a) (pathKeyOf a)
    rw [hkey]
    exact List.nil_lt_cons _ _
  have hstart' : PgFacts.splitCursor [] < pgKeyOf a := by
    have hlen := (hinv.hashPart ha).1
    refine Prod.Lex.toLex_lt_toLex.mpr (Or.inl ?_)
    cases hhp : hashPartOf a.storePath with
    | nil => rw [hhp] at hlen; cases hlen
    | cons c rest => exact List.nil_lt_cons _ _
  constructor
  · rintro ⟨hleaf, -⟩
    exact ⟨hstart', hleaf⟩
  · rintro ⟨-, hleaf⟩
    exact ⟨hleaf, hstart⟩

/-- Two backends that refine one catalog show the same. -/
theorem agree_of_refines (hs : s.Refines cd l) (hp : p.Refines cd l) (hinv : l.Inv taken) :
    Agree cd s p := by
  have hreplica : ∀ o, s.db.replica o = p.asDb.replica o :=
    fun o => (hs.replica o).trans (hp.replica o).symm
  have hheld : ∀ o x, s.db.isHeld o x = p.asDb.isHeld o x :=
    fun o x => congrFun (congrArg Replica.held (hreplica o)) x
  have hcell : ∀ n : Node,
      s.agg.cell n = l.facts.rows.sum fun _ a => n.part (attestationHash cd a) :=
    fun n => (hs.tracks n).trans (hs.rep.sum_attPath n)
  refine ⟨fun o => congrArg Replica.clock (hreplica o), fun o after maxBytes => ?_, fun o => ?_,
    fun peer o => (hs.marks peer o).trans (hp.marks peer o).symm, ?_, fun hashPart hlen => ?_,
    fun narHash => ?_, ?_, fun node => ?_, fun node hnode => agree_paging hs hp hinv hnode⟩
  · rw [Pg.journalSuffix_eq, Db.journalSuffix, Db.journalSuffix,
      Db.journalFrom_congr (congrArg Replica.journal (hreplica o))]
  · show (s.db.holdings o).Perm (p.asDb.holdings o)
    rw [List.perm_ext_iff_of_nodup (s.db.nodup_holdings o) (p.asDb.nodup_holdings o)]
    intro x
    rw [mem_holdings, mem_holdings, hheld]
  · have hperm := hs.rep.perm hp.facts (fun _ => true) (fun _ => true) fun _ _ => rfl
    rw [List.filter_true, List.filter_true] at hperm
    exact hperm
  · refine (hs.rep.foundExactly_hashPart hs.mirrored (fun pk a ha => (hinv.hashPart ha).1)
      hlen).perm (hp.facts.foundExactly_lookup hheld fun a => ?_)
    rw [decide_eq_true_eq]
    rfl
  · refine (hs.rep.foundExactly_narHash hs.mirrored narHash).perm
      (hp.facts.foundExactly_lookup hheld fun a => ?_)
    rw [decide_eq_true_eq]
    rfl
  · exact (hcell .root).trans hp.facts.root.symm
  · rcases node with _ | ⟨c, _ | ⟨d, node⟩⟩
    · show some ((List.range 256).map s.agg.coarse)
        = some ((List.range 256).map fun i => (p.facts.attAgg.get (toLex (1, 0 + i))).getD 0)
      congr 1
      refine List.map_congr_left fun i _ => ?_
      rw [zero_add, hp.facts.tree (1, i), partAt_coarse]
      exact hcell (.coarse i)
    · show some (s.agg.leaves c.toNat) = some ((List.range 256).map fun i =>
        (p.facts.attAgg.get (toLex (2, c.toNat * 256 + i))).getD 0)
      rw [Aggregates.leaves_eq]
      congr 1
      refine List.map_congr_left fun i hi => ?_
      rw [hp.facts.tree (2, c.toNat * 256 + i), partAt_leaf (List.mem_range.mp hi)]
      exact hcell (.leaf c.toNat i)
    · rfl

end Agreement

-- ====================================================================== runs

/-- Along any run of calls of the index both backends refine one
catalog. -/
theorem refines_of_reachIf {b : Backends}
    (h : (backendsSystem cd).ReachIf Backends.IssuedAt b) (hcf : CollisionFree cd b.taken) :
    ∃ l : Catalog, b.rocks.Refines cd l ∧ b.pg.Refines cd l ∧ l.Inv b.taken := by
  refine System.ReachIf.invariant (I := fun b : Backends => CollisionFree cd b.taken →
    ∃ l : Catalog, b.rocks.Refines cd l ∧ b.pg.Refines cd l ∧ l.Inv b.taken)
    (fun b hinit _ => ?_) (fun b a b' _ ih hissued hstep hcf => ?_) h hcf
  · subst hinit
    exact ⟨{}, Store.Refines.empty, Pg.Refines.empty, Catalog.Inv.empty⟩
  · obtain ⟨r, hr, hstep⟩ := Option.bind_eq_some_iff.mp hstep
    obtain ⟨q, hq, rfl⟩ := Option.map_eq_some_iff.mp hstep
    obtain ⟨l, hs, hp, hinv⟩ := ih (hcf.mono fun _ => List.mem_append_left _)
    have hop : a.1.Issued l.seq := by
      have hseq : l.seq = fun o => (b.rocks.db.clock o).seq :=
        funext fun o => (congrArg (fun r : Replica => r.clock.seq) (hs.replica o)).symm
      rw [hseq]
      exact hissued
    exact ⟨(l.step a.1).2, (hs.step hinv hcf hr).2, (hp.step hinv hop hcf hq).2, hinv.step hop⟩

/-- Does a store with these clocks do what the call asks? -/
def RawOp.accepted (clock : Origin → Clock) : RawOp → Bool
  | .applyEvents o expect _ _ _ _ =>
      decide (((clock o).generation, (clock o).seq) = expect)
  | .replaceHoldings o generation seq _ _ => !staleSnapshot (clock o) generation seq
  | _ => true

theorem Store.call_accepted {s s' : Store} {op : RawOp} {answer : Bool}
    (h : s.call cd op = some (answer, s')) : answer = op.accepted s.db.clock := by
  cases op with
  | applyEvents o expect set journal holds attests =>
      have hfst : _ = answer := congrArg Prod.fst (Option.some.inj h)
      rw [← hfst, Store.applyEvents, RawOp.accepted]
      split
      next hne => exact (decide_eq_false hne).symm
      next heq => exact (decide_eq_true (not_not.mp heq)).symm
  | replaceHoldings o generation seq held order =>
      rw [Store.call] at h
      split at h
      next =>
        have hfst : _ = answer := congrArg Prod.fst (Option.some.inj h)
        rw [← hfst, RawOp.accepted]
        cases staleSnapshot (s.db.clock o) generation seq with
        | true => rfl
        | false => rfl
      next => cases h
  | _ => cases h; rfl

theorem Pg.call_accepted {p p' : Pg} {op : RawOp} {order : List HoldOp} {answer : Bool}
    (h : p.call cd order op = some (answer, p')) : answer = op.accepted p.clock := by
  cases op with
  | applyEvents o expect set journal holds attests =>
      have hfst : _ = answer := congrArg Prod.fst (Option.some.inj h)
      rw [← hfst, Pg.applyEvents, Pg.lockClock_fst, RawOp.accepted]
      split
      next hne => exact (decide_eq_false hne).symm
      next heq => exact (decide_eq_true (not_not.mp heq)).symm
  | replaceHoldings o generation seq held order' =>
      rw [Pg.call] at h
      split at h
      next =>
        have hfst : _ = answer := congrArg Prod.fst (Option.some.inj h)
        rw [← hfst, Pg.replaceHoldings, Pg.lockClock_fst, RawOp.accepted]
        cases staleSnapshot (p.clock o) generation seq with
        | true => rfl
        | false => rfl
      next => cases h
  | _ => cases h; rfl

/-- However the index has called its store, the embedded backend and the
shared one refine one catalog, show the same, and accept or refuse the
next call alike. -/
theorem backends_agree (cd : Codec) {b : Backends}
    (h : (backendsSystem cd).ReachIf Backends.IssuedAt b) (hcf : CollisionFree cd b.taken) :
    (∃ l : Catalog, b.rocks.Refines cd l ∧ b.pg.Refines cd l)
      ∧ Agree cd b.rocks b.pg
      ∧ ∀ op order answer answer' s p, b.rocks.call cd op = some (answer, s) →
          b.pg.call cd order op = some (answer', p) → answer = answer' := by
  obtain ⟨l, hs, hp, hinv⟩ := refines_of_reachIf h hcf
  have hagree := agree_of_refines hs hp hinv
  refine ⟨⟨l, hs, hp⟩, hagree, fun op order answer answer' s p hcall hcall' => ?_⟩
  have hclock : b.rocks.db.clock = b.pg.clock := funext hagree.clock
  rw [Store.call_accepted hcall, Pg.call_accepted hcall', hclock]

/-- Two signatures of one fact in a batch, events that add and drop, a
snapshot whose changes the two meet in different orders, a compaction
and a retirement. -/
def Backends.calls : List (RawOp × List HoldOp) :=
  [(.applyEvents (Origin.ofByte 1) (0, 0) (7, 2)
      [(1, ⟨1, some (.have_ (NarHash.ofByte 5).val)⟩),
        (2, ⟨2, some (.drop (NarHash.ofByte 6).val)⟩)]
      [.add (NarHash.ofByte 5), .drop (NarHash.ofByte 6)]
      [signedAgain, signedOnce, signedAgain], []),
    (.applyEvents (Origin.ofByte 1) (7, 1) (7, 1) [] [.drop (NarHash.ofByte 5)] [], []),
    (.replaceHoldings (Origin.ofByte 2) 3 9 [NarHash.ofByte 5, NarHash.ofByte 6]
      [.add (NarHash.ofByte 5), .add (NarHash.ofByte 6)],
      [.add (NarHash.ofByte 6), .add (NarHash.ofByte 5)]),
    (.mergeAttestations [signedOnce, signedOnce], []),
    (.compactJournal (Origin.ofByte 1) 1, []),
    (.advanceWatermark (Origin.ofByte 2) (Origin.ofByte 1) 2, []),
    (.retainOrigins [Origin.ofByte 1], [])]

/-- After these calls the merged fact has the holder that is left, and
the second backend's tree is the first's. -/
theorem backends_agree_merged : ∃ b : Backends,
    b.pg.facts.rows = [{ signedOnce with sigs := [[1], [2]] }]
      ∧ b.rocks.db.clock (Origin.ofByte 1) = ⟨7, 2, 1⟩
      ∧ Agree Codec.plain b.rocks b.pg := by
  have hrun : ((backendsSystem Codec.plain).runIf Backends.IssuedAt {} Backends.calls).map
      (fun b => decide (b.pg.facts.rows = [{ signedOnce with sigs := [[1], [2]] }]
        ∧ b.rocks.db.clock (Origin.ofByte 1) = ⟨7, 2, 1⟩
        ∧ ∀ a ∈ b.taken, a ∈ [signedOnce, signedAgain])) = some true := by decide +kernel
  obtain ⟨b, hb, hdone⟩ := Option.map_eq_some_iff.mp hrun
  obtain ⟨hrows, hclock, htaken⟩ := of_decide_eq_true hdone
  have hreach : (backendsSystem Codec.plain).ReachIf Backends.IssuedAt b :=
    System.ReachIf.runIf (.init rfl) hb
  obtain ⟨-, hagree, -⟩ := backends_agree Codec.plain hreach (collisionFree_signed.mono htaken)
  exact ⟨b, hrows, hclock, hagree⟩

/-- The rows of the watermark tables are not the same: a peer that has
acknowledged nothing has one in the shared store. -/
theorem zero_watermark_shows : ¬ ∀ (cd : Codec) (b : Backends),
    (backendsSystem cd).ReachIf Backends.IssuedAt b → CollisionFree cd b.taken →
    b.rocks.db.watermarks.Perm b.pg.watermarks := by
  intro h
  have hrun : ((backendsSystem Codec.plain).runIf Backends.IssuedAt {}
      [(.advanceWatermark (Origin.ofByte 2) (Origin.ofByte 1) 0, [])]).map
        (fun b => decide (b.taken = [] ∧ b.rocks.db.watermarks = []
          ∧ b.pg.watermarks = [(Origin.ofByte 2, Origin.ofByte 1, 0)])) = some true := by
    decide +kernel
  obtain ⟨b, hb, hdone⟩ := Option.map_eq_some_iff.mp hrun
  obtain ⟨htaken, hrocks, hpg⟩ := of_decide_eq_true hdone
  have hcf : CollisionFree Codec.plain b.taken := by
    rw [htaken]
    rintro a a' - - ⟨⟨c, hc, -⟩, -⟩
    exact absurd hc List.not_mem_nil
  have hperm := h Codec.plain b (System.ReachIf.runIf (.init rfl) hb) hcf
  rw [hrocks, hpg] at hperm
  exact absurd hperm.length_eq (by decide)

end Narshare
