/-
Paging cuts the table into pages, on either backend.

# From the start to the end

A dump begins with the empty cursor, or with `DUMP_RESTART` where all of
the table is read again. Neither is the key of a row: a key of the
embedded store begins with the sixteen bytes of a hash, and in the shared
store a cursor too short for a hash part is read as the start. So what
lies above a first cursor is all that lies under the node, and `Serves`
(Lib/Paging.lean) carries the reading from there to its end.

# What each backend has to keep

Which rows lie under a node is decided by where they are: by the first
bytes of the key in the embedded store, by the leaf column in the other.
Both have to say what the hash of the row says. In the embedded store
this is part of the representation (`Rep`), which every state of its
tasks has. In the shared store it is `PgFacts.Filed`: every row is the
one that is written for its own fact, under that fact's key, and the hash
part in the key is 32 bytes of text, or a cursor made of it would not be
read back. One turn of a merge keeps it, whatever collides.
-/
import Narshare.Store.Backends
import Narshare.Sync.Drift

namespace Narshare

variable (cd : Codec)

-- ============================================================ rows under a node

/-- Does the hash of a fact begin with these bytes? -/
def underNode (node : Bytes) (a : Attestation) : Bool :=
  node.isPrefixOf (attestationHash cd a).toBytes

/-- A cursor that a reading begins with. -/
def FirstCursor (node c : Bytes) : Prop := c = [] ∨ node = [] ∧ c = DUMP_RESTART

variable {cd}

/-- A node is so short that a key begins with it when its hash does. -/
theorem prefix_attKey_iff {node : Bytes} (hnode : node.length ≤ 2) (d : Digest)
    (pathKey : Bytes) : node <+: Db.attKey d pathKey ↔ node <+: d.toBytes := by
  constructor
  · intro h
    refine List.prefix_of_prefix_length_le h (List.prefix_append _ _) ?_
    rw [Digest.length_toBytes]
    omega
  · exact fun h => h.trans (List.prefix_append _ _)

/-- The leaves under a node are those of the hashes that begin with
it. -/
theorem leaf_mem_iff {node : Bytes} {range : ℕ × ℕ} (hnode : node.length ≤ 2)
    (h : PgFacts.leafRange node = some range) (d : Digest) :
    range.1 ≤ leafOf d ∧ leafOf d < range.2 ↔ node <+: d.toBytes := by
  rw [← leafRange_iff h d [], prefix_attKey_iff hnode]

-- =========================================================== the embedded store

namespace Rep

variable {db : Db} {t : FactTable}

/-- Every key is above a first cursor. -/
theorem start_lt (h : Rep cd db t) {node c k : Bytes} {a : Attestation}
    (hc : FirstCursor node c) (ha : db.att.get k = some a) : c < k := by
  obtain ⟨-, rfl⟩ := (h.att k a).mp ha
  rcases hc with rfl | ⟨-, rfl⟩
  · obtain ⟨rest, hkey⟩ := attKey_eq (attestationHash cd a) (pathKeyOf a)
    rw [hkey]
    exact List.nil_lt_cons _ _
  · exact dump_restart_lt _ _

/-- What is above a first cursor is what is under the node. -/
theorem rowsFrom_start (h : Rep cd db t) {node c : Bytes} (hnode : node.length ≤ 2)
    (hc : FirstCursor node c) :
    (db.rowsFrom node c).map Prod.snd
      = (db.att.entries.map Prod.snd).filter (underNode cd node) := by
  rw [List.filter_map]
  unfold Db.rowsFrom
  congr 1
  refine List.filter_congr fun e he => ?_
  have ha := OrdMap.mem_entries.mp he
  have hkey := ((h.att e.1 e.2).mp ha).2
  show _ = node.isPrefixOf (attestationHash cd e.2).toBytes
  rw [Bool.eq_iff_iff, Bool.and_eq_true, decide_eq_true_eq, List.isPrefixOf_iff_prefix,
    List.isPrefixOf_iff_prefix, hkey, prefix_attKey_iff hnode, ← hkey]
  exact and_iff_left (h.start_lt hc ha)

/-- The rows are all different: a row tells its key. -/
theorem nodup_rows (h : Rep cd db t) : (db.att.entries.map Prod.snd).Nodup := by
  have hrows := (h.selected fun _ => true).1
  rwa [List.filter_true] at hrows

/-- Paging the embedded store. -/
theorem partitions (h : Rep cd db t) {node c : Bytes} (hnode : node.length ≤ 2)
    (hc : FirstCursor node c) :
    Partitions (db.attestationPage cd node) c
      ((db.att.entries.map Prod.snd).filter (underNode cd node)) := by
  have hok : c = [] ∨ node <+: c := by
    rcases hc with hc | ⟨rfl, -⟩
    · exact Or.inl hc
    · exact Or.inr List.nil_prefix
  have hleft := h.rowsFrom_start hnode hc
  rw [← hleft]
  refine (Db.serves cd db node).partitions hok ?_
  rw [hleft]
  exact h.nodup_rows.filter _

end Rep

-- ============================================================= the shared store

namespace PgFacts

/-- Every row is where its fact belongs, with that fact's leaf and hash,
and its key can be told apart again. -/
structure Filed (cd : Codec) (f : PgFacts) : Prop where
  key : ∀ (k : PgKey) (r : PgRow), f.attestations.get k = some r → k = pgKeyOf (fact (k, r))
  row : ∀ (k : PgKey) (r : PgRow), f.attestations.get k = some r →
    r = PgRow.of cd (fact (k, r))
  long : ∀ (k : PgKey) (r : PgRow), f.attestations.get k = some r →
    (ofLex k).1.length = 32 ∧ (ofLex k).2.length = 32
  text : ∀ (k : PgKey) (r : PgRow), f.attestations.get k = some r →
    isUtf8 (ofLex k).1 = true

namespace Filed

variable {f : PgFacts}

theorem empty : Filed cd {} where
  key _ _ h := by cases h
  row _ _ h := by cases h
  long _ _ h := by cases h
  text _ _ h := by cases h

/-- Writing a fact's own row under its own key. -/
theorem put (h : f.Filed cd) {a : Attestation} (ha : Admissible a) {row : Attestation}
    (hrow : pgKeyOf row = pgKeyOf a) (agg : OrdMap (ℕ ×ₗ ℕ) Digest) :
    Filed cd ⟨f.attestations.put (pgKeyOf row) (PgRow.of cd row), agg⟩ := by
  have hkeys : ∀ {P : PgKey → PgRow → Prop}, P (pgKeyOf row) (PgRow.of cd row) →
      (∀ k r, f.attestations.get k = some r → P k r) →
      ∀ k r, (f.attestations.put (pgKeyOf row) (PgRow.of cd row)).get k = some r → P k r := by
    intro P hnew hold k r hget
    rw [OrdMap.get_put] at hget
    split at hget
    next hk =>
      cases hget
      rw [hk]
      exact hnew
    next => exact hold k r hget
  have hself : fact (pgKeyOf row, PgRow.of cd row) = row := rfl
  refine ⟨hkeys (congrArg pgKeyOf hself).symm h.key,
    hkeys (congrArg (PgRow.of cd) hself).symm h.row, hkeys ?_ h.long, hkeys ?_ h.text⟩
  · rw [hrow]
    exact ⟨wellFormed_hashPart ha.wellFormed, wellFormed_narHash ha.wellFormed⟩
  · rw [hrow]
    exact isUtf8_hashPartOf ha.path

/-- What a merge puts in a row's place belongs there. -/
theorem pgKeyOf_mergeInto (h : f.Filed cd) {a row : Attestation} (ha : Admissible a)
    (hm : mergeInto ((f.attestations.get (pgKeyOf a)).map fun r => r.attestation a.narHash) a
      = some row) : pgKeyOf row = pgKeyOf a := by
  have hnar := wellFormed_narHash ha.wellFormed
  cases hget : f.attestations.get (pgKeyOf a) with
  | none =>
      rw [hget] at hm
      cases hm
      rfl
  | some r =>
      have hkey : pgKeyOf (r.attestation a.narHash) = pgKeyOf a := (h.key _ r hget).symm
      have hcur : (r.attestation a.narHash).narHash.length = 32 := hnar
      rw [hget, Option.map_some, mergeInto] at hm
      split at hm
      next =>
        cases hm
        have hpath := pathKeyOf_merged hcur hnar (pathKeyOf_of_pgKeyOf hkey)
        have hsame := pathKeyOf_inj (by rw [merged_narHash]; exact hcur) hnar
          (hpath.trans (pathKeyOf_of_pgKeyOf hkey))
        rw [pgKeyOf, pgKeyOf, hsame.1, hsame.2]
      next => cases hm

/-- One fact merged. -/
theorem mergeAtt (h : f.Filed cd) {a : Attestation} (ha : Admissible a) :
    (f.mergeAtt cd a).2.Filed cd := by
  unfold PgFacts.mergeAtt
  simp only
  split
  next => exact h
  next row hm =>
    split
    next => exact h
    next =>
      have hrow := h.pgKeyOf_mergeInto ha hm
      have hkey : toLex (hashPartOf a.storePath, row.narHash) = pgKeyOf row := by
        obtain ⟨hhp, -⟩ := Prod.ext_iff.mp hrow
        have hhp : hashPartOf row.storePath = hashPartOf a.storePath := hhp
        rw [pgKeyOf, hhp]
      simp only
      rw [hkey]
      exact h.put ha hrow _

/-- A batch merged. -/
theorem mergeAll (h : f.Filed cd) {attests : List Attestation}
    (hadm : ∀ a ∈ attests, Admissible a) : (f.mergeAll cd attests).Filed cd := by
  induction attests generalizing f with
  | nil => exact h
  | cons a attests ih =>
      exact ih (h.mergeAtt (hadm a List.mem_cons_self))
        fun b hb => hadm b (List.mem_cons_of_mem a hb)

/-- A cursor made of a row's key is read back as it. -/
theorem split_key (h : f.Filed cd) {k : PgKey} {r : PgRow}
    (hget : f.attestations.get k = some r) : splitCursor (joinCursor k) = k :=
  split_join (h.long k r hget).1 (h.text k r hget)

/-- What is above a first cursor is what is under the node. -/
theorem rowsAbove_start (h : f.Filed cd) {node c : Bytes} {range : ℕ × ℕ}
    (hnode : node.length ≤ 2) (hrange : leafRange node = some range)
    (hc : FirstCursor node c) :
    (f.rowsAbove range (splitCursor c)).map fact = f.rows.filter (underNode cd node) := by
  have hsplit : splitCursor c = toLex ([], []) := by
    rcases hc with rfl | ⟨-, rfl⟩ <;> rfl
  rw [rows, List.filter_map, hsplit]
  unfold rowsAbove
  congr 1
  refine List.filter_congr fun e he => ?_
  have hget := OrdMap.mem_entries.mp he
  have hleaf : e.2.leaf = leafOf (attestationHash cd (fact e)) :=
    congrArg PgRow.leaf (h.row e.1 e.2 hget)
  have hstart : toLex (([] : Bytes), ([] : Bytes)) < e.1 := by
    have hlen := (h.long e.1 e.2 hget).1
    refine Prod.Lex.lt_iff.mpr (Or.inl ?_)
    cases hhp : (ofLex e.1).1 with
    | nil => rw [hhp] at hlen; cases hlen
    | cons x rest => exact List.nil_lt_cons _ _
  show _ = node.isPrefixOf (attestationHash cd (fact e)).toBytes
  rw [Bool.eq_iff_iff, decide_eq_true_eq, List.isPrefixOf_iff_prefix, hleaf,
    leaf_mem_iff hnode hrange]
  exact and_iff_right hstart

/-- The facts are all different: a fact tells its key. -/
theorem nodup_rows (h : f.Filed cd) : f.rows.Nodup := by
  refine List.Nodup.map_on ?_ f.attestations.entries_nodup
  rintro ⟨k, r⟩ hmem ⟨k', r'⟩ hmem' he
  have hget := OrdMap.mem_entries.mp hmem
  have hget' := OrdMap.mem_entries.mp hmem'
  have hk : k = k' := by
    rw [h.key k r hget, h.key k' r' hget', he]
  have hr : r = r' := by
    rw [h.row k r hget, h.row k' r' hget', he]
  rw [hk, hr]

/-- Paging the shared store. -/
theorem partitions (h : f.Filed cd) {node c : Bytes} {range : ℕ × ℕ}
    (hnode : node.length ≤ 2) (hrange : leafRange node = some range)
    (hc : FirstCursor node c) :
    Partitions (f.pageFrom cd range) c (f.rows.filter (underNode cd node)) := by
  have hleft := h.rowsAbove_start hnode hrange hc
  rw [← hleft]
  refine (serves cd range fun k r hget => h.split_key hget).partitions trivial ?_
  rw [hleft]
  exact h.nodup_rows.filter _

end Filed

end PgFacts

namespace Pg

variable {p p' : Pg}

/-- A call merges the facts it hands over, or none. -/
theorem call_facts {order : List HoldOp} {op : RawOp} {answer : Bool}
    (h : p.call cd order op = some (answer, p')) :
    p'.facts = p.facts ∨ p'.facts = p.facts.mergeAll cd op.attests := by
  cases op with
  | applyEvents o expect set journal holds attests =>
      obtain ⟨clocks, htx, -⟩ := p.lockClock_snd o
      rw [call, applyEvents, htx, Option.some.injEq] at h
      simp only at h
      split at h
      next => cases h; exact Or.inl rfl
      next => cases h; exact Or.inr rfl
  | mergeAttestations attests =>
      rw [call, Option.some.injEq] at h
      obtain rfl : _ = p' := congrArg Prod.snd h
      rw [mergeAttestations_snd]
      exact Or.inr rfl
  | setGeneration o generation => cases h; exact Or.inl rfl
  | replaceHoldings o generation seq held order' =>
      rw [call] at h
      split at h
      next =>
        obtain ⟨clocks, htx, -⟩ := p.lockClock_snd o
        rw [replaceHoldings, htx, Option.some.injEq] at h
        simp only at h
        split at h <;> (cases h; exact Or.inl rfl)
      next => cases h
  | compactJournal o floor =>
      obtain ⟨clocks, htx, -⟩ := p.lockClock_snd o
      cases h
      rw [compactJournal, htx]
      simp only
      split <;> exact Or.inl rfl
  | retainOrigins keep =>
      cases h
      left
      have hretire : ∀ (departed : List Origin) (p : Pg),
          (departed.foldl retireOne p).facts = p.facts := by
        intro departed
        induction departed with
        | nil => exact fun _ => rfl
        | cons o departed ih => exact fun p => ih (p.retireOne o)
      exact hretire _ p
  | advanceWatermark peer o seq => cases h; exact Or.inl rfl

end Pg

-- ====================================================================== runs

variable (cd) in
/-- The shared store from empty, one call after the other. -/
def pgSystem : System Pg (RawOp × List HoldOp) where
  init p := p = {}
  step p a := (p.call cd a.2 a.1).map Prod.snd

/-- The facts of a call are such as the index hands over. -/
def Pg.Given (_ : Pg) (a : RawOp × List HoldOp) : Prop := ∀ x ∈ a.1.attests, Admissible x

instance Pg.decidableGiven (p : Pg) (a : RawOp × List HoldOp) : Decidable (p.Given a) :=
  inferInstanceAs (Decidable (∀ x ∈ a.1.attests, Admissible x))

/-- Along any run the rows stay where their facts belong. -/
theorem Pg.filed_of_reachIf {p : Pg} (h : (pgSystem cd).ReachIf Pg.Given p) :
    p.facts.Filed cd := by
  refine System.ReachIf.invariant (I := fun p : Pg => p.facts.Filed cd) (fun p hinit => ?_)
    (fun p a p' _ ih hgiven hstep => ?_) h
  · subst hinit
    exact PgFacts.Filed.empty
  · obtain ⟨⟨answer, q⟩, hcall, rfl⟩ := Option.map_eq_some_iff.mp hstep
    show q.facts.Filed cd
    rcases Pg.call_facts hcall with hsame | hmerged
    · rw [hsame]
      exact ih
    · rw [hmerged]
      exact ih.mergeAll hgiven

/-- Pages read from a first cursor to the end, under whatever limits, cut
the facts under a node into pages: of the embedded store in any state of
its tasks, and of the shared one after any calls. -/
theorem attestation_pages_partition (cd : Codec) {node c : Bytes} (hnode : node.length ≤ 2)
    (hc : FirstCursor node c) :
    (∀ m : Machine, (storeSystem cd).Reach m →
      Partitions (m.store.db.attestationPage cd node) c
        (m.store.rows.filter (underNode cd node)))
      ∧ ∀ p : Pg, (pgSystem cd).ReachIf Pg.Given p →
        ∃ page, (∀ cursor maxBytes,
            p.facts.attestationPage cd node cursor maxBytes = some (page cursor maxBytes))
          ∧ Partitions page c (p.facts.rows.filter (underNode cd node)) := by
  constructor
  · intro m hm
    obtain ⟨t, hinv⟩ := Machine.Inv.reach hm
    exact hinv.rep.partitions hnode hc
  · intro p hp
    obtain ⟨range, hrange⟩ : ∃ range, PgFacts.leafRange node = some range := by
      match node with
      | [] => exact ⟨_, rfl⟩
      | [_] => exact ⟨_, rfl⟩
      | [_, _] => exact ⟨_, rfl⟩
      | _ :: _ :: _ :: _ => simp at hnode
    refine ⟨p.facts.pageFrom cd range, fun cursor maxBytes => ?_,
      (Pg.filed_of_reachIf hp).partitions hnode hrange hc⟩
    rw [PgFacts.attestationPage, hrange]
    rfl

/-- Two facts under the root, read from the restart cursor on by requests
that no row fits. -/
theorem attestation_pages_partition_tiny : ∃ (m : Machine) (p : Pg)
    (page : Bytes → ℕ → List Attestation × Option Bytes),
    Partitions (m.store.db.attestationPage Codec.plain []) DUMP_RESTART
        (m.store.rows.filter (underNode Codec.plain []))
      ∧ Partitions page DUMP_RESTART (p.facts.rows.filter (underNode Codec.plain []))
      ∧ (m.store.rows.filter (underNode Codec.plain [])).length = 2
      ∧ (p.facts.rows.filter (underNode Codec.plain [])).length = 2
      ∧ (readPages (m.store.db.attestationPage Codec.plain []) [0, 0] DUMP_RESTART).map
          (List.map List.length) = some [1, 1] := by
  have hrun : (((storeSystem Codec.plain).run {}
      (mergeTask [.ofBytes 97 5 [[1]], .ofBytes 98 5 [[1]]])).bind fun m =>
    ((pgSystem Codec.plain).runIf Pg.Given {}
      [(.mergeAttestations [.ofBytes 97 5 [[1]], .ofBytes 98 5 [[1]]], [])]).map fun p =>
        (m, p)).map (fun mp =>
      decide ((mp.1.store.rows.filter (underNode Codec.plain [])).length = 2
        ∧ (mp.2.facts.rows.filter (underNode Codec.plain [])).length = 2
        ∧ (readPages (mp.1.store.db.attestationPage Codec.plain []) [0, 0] DUMP_RESTART).map
          (List.map List.length) = some [1, 1])) = some true := by decide +kernel
  obtain ⟨⟨m, p⟩, hmp, hdone⟩ := Option.map_eq_some_iff.mp hrun
  obtain ⟨m', hm, hrest⟩ := Option.bind_eq_some_iff.mp hmp
  obtain ⟨p', hp, he⟩ := Option.map_eq_some_iff.mp hrest
  obtain ⟨rfl, rfl⟩ := Prod.ext_iff.mp he
  obtain ⟨hrows, hrows', hread⟩ := of_decide_eq_true hdone
  obtain ⟨hrocks, hpg⟩ := attestation_pages_partition Codec.plain
    (show ([] : Bytes).length ≤ 2 by decide)
    (show FirstCursor [] DUMP_RESTART from Or.inr ⟨rfl, rfl⟩)
  obtain ⟨page, -, hpage⟩ := hpg p' (System.ReachIf.runIf (.init rfl) hp)
  exact ⟨m', p', page, hrocks m' ((System.Reach.start rfl).run hm), hpage, hrows, hrows', hread⟩

end Narshare
