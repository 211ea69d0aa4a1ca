/-
The two handlers of proxy.rs, and whether what one promises the other
delivers.

# Two choices of a row

A narinfo request names a hash part and is answered from the row of it
that the most peers can serve. The NAR request that follows names a NAR
hash. Its sources are those of every row of the hash; its size is that of
the row with the most holders. But holders are recorded by NAR hash, not
by row: all rows of one hash have the same, and of equals `max_by_key`
takes the last. So the size is that of the row which the store returns
last. RocksDB meets the rows in the order of their hash parts, so there it
is the row with the greatest; PostgreSQL is asked for no order, and may
return them in any (`Lookups.Of`; Backends has that they are the same
rows).

# What follows

Sources there always are, since those of the narinfo's row are among
them. The size is the promised one exactly when the last row records the
same: the index does not compare the sizes that different paths claim for
one hash. Where they all agree the order does not matter.

Time, breakers and the roaming epoch are the same for both requests.
What is streamed is Transfer's subject; the bound below which paths are
served while roaming is computed in floating point and is a number here.
-/
import Narshare.Index.Narinfo
import Narshare.Lib.Paging
import Narshare.Nar.Serve
import Narshare.Store.Join
import Narshare.Store.Lookup

namespace Narshare

-- ================================================================ max_by_key

/-- `Iterator::max_by_key`: of several maxima the last. -/
def maxByKey {α : Type} (key : α → ℕ) (l : List α) : Option α :=
  l.foldl (fun best x =>
    match best with
    | none => some x
    | some b => if key b ≤ key x then some x else some b) none

section MaxByKey

variable {α : Type} {key : α → ℕ}

theorem maxByKey_concat (key : α → ℕ) (l : List α) (x : α) :
    maxByKey key (l ++ [x])
      = match maxByKey key l with
        | none => some x
        | some b => if key b ≤ key x then some x else some b := by
  rw [maxByKey, List.foldl_append]
  rfl

theorem mem_of_maxByKey {l : List α} {b : α} (h : maxByKey key l = some b) : b ∈ l := by
  induction l using List.reverseRecOn generalizing b with
  | nil => cases h
  | append_singleton l x ih =>
      rw [maxByKey_concat] at h
      split at h
      next =>
        cases h
        exact List.mem_append_right _ List.mem_cons_self
      next b' hb' =>
        split at h
        next =>
          cases h
          exact List.mem_append_right _ List.mem_cons_self
        next =>
          cases h
          exact List.mem_append_left _ (ih hb')

/-- Among equals it is the last. -/
theorem maxByKey_const {l : List α} {n : ℕ} (h : ∀ x ∈ l, key x = n) :
    maxByKey key l = l.getLast? := by
  induction l using List.reverseRecOn with
  | nil => rfl
  | append_singleton l x ih =>
      rw [maxByKey_concat, List.getLast?_concat]
      split
      next => rfl
      next b hb =>
        have hb : key b = n := h b (List.mem_append_left _ (mem_of_maxByKey hb))
        have hx : key x = n := h x (List.mem_append_right _ List.mem_cons_self)
        rw [if_pos (hb.trans hx.symm).le]

end MaxByKey

-- ================================================================== the state

/-- `Peer`: what the handlers read of one, with the time its breaker is
open until. -/
structure Peer where
  name : Origin
  tier : ℕ
  openUntil : Option ℕ

/-- `available`. -/
def Peer.available (now : ℕ) (p : Peer) : Bool :=
  p.openUntil.all fun until_ => decide (until_ ≤ now)

/-- `Found`: a row with its holders. -/
structure Found where
  info : Narinfo
  holders : List Origin

/-- What the two lookups of a store find, in the order in which it returns
the rows. -/
structure Lookups where
  hashPart : Bytes → List (Attestation × List Origin)
  narHash : NarHash → List (Attestation × List Origin)

/-- The lookups of RocksDB. -/
def Db.lookups (db : Db) : Lookups := ⟨db.lookupHashPart, db.lookupNarHash⟩

/-- The lookups find the rows of these tables, in whatever order. -/
structure Lookups.Of (l : Lookups) (db : Db) : Prop where
  hashPart : ∀ hashPart : Bytes, hashPart.length = 32 →
    (l.hashPart hashPart).Perm (db.lookupHashPart hashPart)
  narHash : ∀ h, (l.narHash h).Perm (db.lookupNarHash h)

theorem Db.lookups_of (db : Db) : db.lookups.Of db := ⟨fun _ _ => .rfl, fun _ => .rfl⟩

/-- `ProxyState`: the index, the peers and the roaming epoch, at one
moment. -/
structure ProxyState where
  selfName : Origin
  trusted : TrustedKeys
  store : Lookups
  peers : List Peer
  now : ℕ
  minBw : ℕ
  thresholdBytes : ℕ
  roamingUntil : Option ℕ

/-- The path under which a NAR is asked for. -/
def narFile (h : NarHash) : Bytes := nixbase32Encode h.val ++ ascii ".nar"

namespace ProxyState

variable (st : ProxyState)

/-- `Index::lookup_hash_part` and `Index::lookup_nar_hash`, over the rows
that the store found. -/
def believe (rows : List (Attestation × List Origin)) : List Found :=
  (rows.filter fun r => feasible st.trusted r.1).map fun r => ⟨attToRemote r.1, r.2⟩

/-- `idx_of`. -/
def idxOf (name : Origin) : Option ℕ := st.peers.findIdx? fun p => decide (p.name = name)

/-- The tier of a peer by index. -/
def tier (i : ℕ) : ℕ := (st.peers[i]?).elim 0 Peer.tier

/-- `sources_of`. -/
def sourcesOf (found : Found) : List (ℕ × Bytes) :=
  let url := ascii "nar/" ++ narFile found.info.narHash
  let v := (((found.holders.filter fun h => decide (h ≠ st.selfName)).filterMap st.idxOf).filter
    fun i => (st.peers[i]?).any (Peer.available st.now)).map fun i => (i, url)
  match (v.map fun s => st.tier s.1).min? with
  | none => v
  | some minTier => v.filter fun s => decide (st.tier s.1 = minTier)

/-- `refuses_while_roaming`. -/
def refusesWhileRoaming (narSize : ℕ) : Bool :=
  decide (st.minBw ≠ 0) && st.roamingUntil.any (fun until_ => decide (st.now < until_))
    && decide (st.thresholdBytes < narSize)

/-- `get_narinfo`: the hash part that a file name asks for. -/
def hashPartOfFile (file : Bytes) : Option Bytes :=
  let hashPart := file.take (file.length - 8)
  if hashPart ++ ascii ".narinfo" = file ∧ hashPart.length = 32
      ∧ hashPart.all (fun c => c.toChar.isAlphanum) = true then some hashPart
  else none

/-- `get_narinfo`, from the rows found: the one the most peers can
serve. -/
def pickNarinfo (rows : List Found) : Option Narinfo :=
  (maxByKey (fun r => (st.sourcesOf r).length)
    (rows.filter fun r => decide (0 < (st.sourcesOf r).length))).bind fun row =>
      if st.refusesWhileRoaming row.info.narSize then none else some row.info

/-- `get_narinfo`: what is rendered by `rewrite_for_client`; a miss is
none. -/
def getNarinfo (file : Bytes) : Option Narinfo :=
  (hashPartOfFile file).bind fun hashPart =>
    st.pickNarinfo (st.believe (st.store.hashPart hashPart))

/-- The loop of `get_nar` over the rows: a peer is a source once. -/
def unionSources (rows : List Found) : List (ℕ × Bytes) :=
  rows.foldl (fun sources row =>
    (st.sourcesOf row).foldl (fun sources s =>
      if sources.any (fun s' => decide (s'.1 = s.1)) then sources else sources ++ [s]) sources) []

end ProxyState

/-- What `get_nar` answers: the bounds and the row and sources a transfer
is started with. -/
inductive NarResponse
  | miss
  | unsatisfiable (size : ℕ)
  | content (info : Narinfo) (sources : List (ℕ × Bytes)) (start end_ : ℕ)

/-- `get_nar`, once there are a row and sources. -/
def narResponse (info : Narinfo) (sources : List (ℕ × Bytes)) (range : Option (List Char)) :
    NarResponse :=
  match (parseRange range info.narSize).bounds info.narSize with
  | none => .unsatisfiable info.narSize
  | some (start, end_) => .content info sources start end_

namespace ProxyState

variable (st : ProxyState)

/-- `get_nar`, from the rows found. -/
def pickNar (rows : List Found) (range : Option (List Char)) : NarResponse :=
  match maxByKey (fun r => r.holders.length) rows with
  | none => .miss
  | some best =>
      let sources := st.unionSources rows
      if sources = [] then .miss
      else if st.refusesWhileRoaming best.info.narSize then .miss
      else narResponse best.info sources range

/-- `get_nar`. -/
def getNar (file : Bytes) (range : Option (List Char)) : NarResponse :=
  let digits := file.take (file.length - 4)
  if digits ++ ascii ".nar" = file then
    match (nixbase32Decode digits 32).bind NarHash.tryFrom with
    | none => .miss
    | some h => st.pickNar (st.believe (st.store.narHash h)) range
  else .miss

end ProxyState

-- ================================================================ what is claimed

/-- The NAR of this hash is served from some sources, with this total
size. -/
def NarResponse.Serves (r : NarResponse) (h : NarHash) (size : ℕ)
    (range : Option (List Char)) : Prop :=
  ∃ info sources, r = narResponse info sources range ∧ sources ≠ []
    ∧ info.narHash = h ∧ info.narSize = size

/-- A row of the tables for the hash, and one that the index believes. -/
structure ProxyState.Recorded (st : ProxyState) (db : Db) (h : NarHash) (a : Attestation) :
    Prop where
  row : ∃ k, db.att.get k = some a
  nar : a.narHash = h.val
  feasible : feasible st.trusted a = true

/-- The last row that the store returns for the hash, of those believed,
records this size. -/
def ProxyState.LastSays (st : ProxyState) (h : NarHash) (size : ℕ) : Prop :=
  ∀ found ∈ (st.believe (st.store.narHash h)).getLast?, found.info.narSize = size

/-- The row of the hash with the greatest hash part records this size. -/
def ProxyState.GreatestSays (st : ProxyState) (db : Db) (h : NarHash) (size : ℕ) : Prop :=
  ∀ a, st.Recorded db h a →
    (∀ b, st.Recorded db h b → hashPartOf b.storePath ≤ hashPartOf a.storePath) →
    a.narSize = size

-- ================================================================ rows of a hash

section Rows

variable {cd : Codec} {db : Db} {t : FactTable}

/-- A row found by hash part is a row of the fact table with the holders
of its NAR hash. -/
theorem Rep.mem_lookupHashPart (hrep : Rep cd db t) {hashPart : Bytes} {a : Attestation}
    {holders : List Origin} (h : (a, holders) ∈ db.lookupHashPart hashPart) :
    t.rows.get (pathKeyOf a) = some a
      ∧ ∃ h : NarHash, h.val = a.narHash ∧ holders = db.holdersOf h ∧ holders ≠ [] := by
  obtain ⟨hrow, hheld⟩ := mem_lookupAtts.mp h
  obtain ⟨⟨pk, d⟩, he, hat⟩ := List.mem_filterMap.mp hrow
  have hget := (hrep.attAt_path (OrdMap.mem_entries.mp (List.mem_of_mem_filter he))).symm.trans hat
  exact ⟨(t.ok _ _ hget).key ▸ hget, hheld⟩

/-- The rows found by NAR hash are those of the fact table, all with the
same holders. -/
theorem Rep.mem_lookupNarHash (hrep : Rep cd db t) (hm : db.Mirrored) {h : NarHash}
    {a : Attestation} {holders : List Origin} :
    (a, holders) ∈ db.lookupNarHash h ↔
      (t.rows.get (pathKeyOf a) = some a ∧ a.narHash = h.val)
        ∧ holders = db.holdersOf h ∧ holders ≠ [] := by
  rw [(hrep.foundExactly_narHash hm h).mem]
  refine and_congr_right fun ⟨_, hnar⟩ => ?_
  constructor
  · rintro ⟨h', hh', hheld, hne⟩
    obtain rfl : h' = h := Subtype.ext (hh'.trans hnar)
    exact ⟨hheld.unique (holdersOf_spec hm h'), hne⟩
  · rintro ⟨rfl, hne⟩
    exact ⟨h, hnar.symm, holdersOf_spec hm h, hne⟩

/-- They come in the order of their hash parts. -/
theorem Rep.lookupNarHash_sorted (hrep : Rep cd db t) (h : NarHash) :
    (db.lookupNarHash h).Pairwise fun r r' =>
      hashPartOf r.1.storePath < hashPartOf r'.1.storePath := by
  have hrows : ((db.attNar.entries.filter fun e => h.val.isPrefixOf e.1).filterMap
      fun e => db.attAt e.2 (e.1.drop 32 ++ h.val)).Pairwise fun a b =>
        hashPartOf a.storePath < hashPartOf b.storePath := by
    rw [List.pairwise_filterMap]
    refine (db.attNar.sorted.filter _).imp_of_mem fun {e e'} he he' hlt => ?_
    intro a ha b hb
    have hrow : ∀ {e : Bytes × Digest} {a : Attestation},
        e ∈ (db.attNar.entries.filter fun e => h.val.isPrefixOf e.1) →
        db.attAt e.2 (e.1.drop 32 ++ h.val) = some a → e.1 = h.val ++ hashPartOf a.storePath := by
      intro e a he ha
      obtain ⟨hmem, hpre⟩ := List.mem_filter.mp he
      obtain ⟨a', ha', -, hkey, hnar⟩ := hrep.attAt_nar (OrdMap.mem_entries.mp hmem) hpre
      rw [ha] at ha'
      cases ha'
      rw [← hkey, narKey, hnar]
    rw [hrow he ha, hrow he' hb] at hlt
    exact lt_of_append_lt hlt
  rw [Db.lookupNarHash, Db.lookupAtts, List.pairwise_filterMap]
  refine hrows.imp fun {a b} hlt r hr r' hr' => ?_
  have hfst : ∀ {a : Attestation} {r : Attestation × List Origin},
      ((NarHash.tryFrom a.narHash).bind fun h =>
        let holders := db.holdersOf h
        if holders = [] then none else some (a, holders)) = some r → r.1 = a := by
    intro a r hr
    obtain ⟨h', -, hr⟩ := Option.bind_eq_some_iff.mp hr
    simp only at hr
    split at hr
    next => cases hr
    next =>
      cases hr
      rfl
  rw [hfst hr, hfst hr']
  exact hlt

end Rows

-- ================================================================ the sources

namespace ProxyState

variable {st : ProxyState}

/-- Some row with sources is enough. -/
theorem unionSources_ne_nil {rows : List Found} {r : Found} (hr : r ∈ rows)
    (hne : st.sourcesOf r ≠ []) : st.unionSources rows ≠ [] := by
  -- a source is pushed unless its peer is there already, and none is removed
  have hpush : ∀ (new sources : List (ℕ × Bytes)), sources ≠ [] ∨ new ≠ [] →
      new.foldl (fun sources s =>
        if sources.any (fun s' => decide (s'.1 = s.1)) then sources else sources ++ [s])
        sources ≠ [] := by
    intro new
    induction new with
    | nil =>
        intro sources h
        exact h.resolve_right fun hn => hn rfl
    | cons s new ih =>
        intro sources _
        refine ih _ (Or.inl ?_)
        show ite _ sources (sources ++ [s]) ≠ []
        split
        next hany =>
          rintro rfl
          cases hany
        next => exact List.append_ne_nil_of_right_ne_nil _ (List.cons_ne_nil _ _)
  have hrun : ∀ (rows : List Found) (sources : List (ℕ × Bytes)),
      sources ≠ [] ∨ r ∈ rows →
      rows.foldl (fun sources row =>
        (st.sourcesOf row).foldl (fun sources s =>
          if sources.any (fun s' => decide (s'.1 = s.1)) then sources else sources ++ [s])
          sources) sources ≠ [] := by
    intro rows
    induction rows with
    | nil =>
        intro sources h
        exact h.resolve_right List.not_mem_nil
    | cons row rows ih =>
        intro sources h
        refine ih _ ?_
        rcases h with h | h
        · exact Or.inl (hpush _ _ (Or.inl h))
        · rcases List.mem_cons.mp h with rfl | h
          · exact Or.inl (hpush _ _ (Or.inr hne))
          · exact Or.inr h
  exact hrun rows [] (Or.inr hr)

theorem mem_believe {rows : List (Attestation × List Origin)} {found : Found} :
    found ∈ st.believe rows ↔
      ∃ a holders, (a, holders) ∈ rows ∧ feasible st.trusted a = true
        ∧ found = ⟨attToRemote a, holders⟩ := by
  rw [believe, List.mem_map]
  constructor
  · rintro ⟨⟨a, holders⟩, hmem, rfl⟩
    obtain ⟨hmem, hok⟩ := List.mem_filter.mp hmem
    exact ⟨a, holders, hmem, hok, rfl⟩
  · rintro ⟨a, holders, hmem, hok, rfl⟩
    exact ⟨(a, holders), List.mem_filter.mpr ⟨hmem, hok⟩, rfl⟩

/-- What a narinfo answer says about the rows it was picked from. -/
theorem pickNarinfo_spec {rows : List Found} {info : Narinfo}
    (h : st.pickNarinfo rows = some info) :
    ∃ r ∈ rows, r.info = info ∧ st.sourcesOf r ≠ []
      ∧ st.refusesWhileRoaming info.narSize = false := by
  obtain ⟨r, hr, hpick⟩ := Option.bind_eq_some_iff.mp h
  obtain ⟨hmem, hpos⟩ := List.mem_filter.mp (mem_of_maxByKey hr)
  split at hpick
  next => cases hpick
  next hroam =>
    cases hpick
    refine ⟨r, hmem, rfl, ?_, Bool.not_eq_true _ ▸ hroam⟩
    exact List.length_pos_iff.mp (of_decide_eq_true hpos)

end ProxyState

/-- What a file name asks for is as long as a hash part. -/
theorem length_of_hashPartOfFile {file hashPart : Bytes}
    (h : ProxyState.hashPartOfFile file = some hashPart) : hashPart.length = 32 := by
  unfold ProxyState.hashPartOfFile at h
  simp only at h
  split at h
  next hfile =>
    cases h
    exact hfile.2.1
  next => cases h

-- ================================================================ the NAR

theorem attToRemote_narHash {a : Attestation} {h : NarHash} (ha : a.narHash = h.val) :
    (attToRemote a).narHash = h := by
  show (NarHash.tryFrom a.narHash).getD _ = h
  rw [ha, NarHash.tryFrom_val, Option.getD_some]

/-- The path in a narinfo is read back as its hash. -/
theorem ProxyState.getNar_narFile (st : ProxyState) (h : NarHash) (range : Option (List Char)) :
    st.getNar (narFile h) range = st.pickNar (st.believe (st.store.narHash h)) range := by
  have htake : (narFile h).take ((narFile h).length - 4) = nixbase32Encode h.val := by
    rw [narFile, List.length_append]
    exact List.take_left' (Nat.add_sub_cancel _ _).symm
  have hdec : (nixbase32Decode (nixbase32Encode h.val) 32).bind NarHash.tryFrom = some h := by
    have hback := nixbase32Decode_encode h.val
    rw [h.property] at hback
    rw [hback, Option.bind_some, NarHash.tryFrom_val]
  rw [getNar, htake, if_pos (show nixbase32Encode h.val ++ ascii ".nar" = narFile h from rfl),
    hdec]

theorem narResponse_size {info info' : Narinfo} {sources sources' : List (ℕ × Bytes)}
    {range : Option (List Char)}
    (h : narResponse info sources range = narResponse info' sources' range) :
    info.narSize = info'.narSize := by
  unfold narResponse at h
  split at h <;> split at h
  · exact NarResponse.unsatisfiable.inj h
  · cases h
  · cases h
  · cases h
    rfl

/-- From rows of one hash, one of which has sources, the NAR of the last
is served, if it is not refused while roaming. -/
theorem ProxyState.pickNar_serves {st : ProxyState} {rows : List Found} {h : NarHash}
    {best : Found} {holders : List Origin} (hlast : rows.getLast? = some best)
    (hall : ∀ r ∈ rows, r.info.narHash = h ∧ r.holders = holders)
    (hsome : ∃ r ∈ rows, st.sourcesOf r ≠ []) {size : ℕ}
    (hroam : st.refusesWhileRoaming size = false) (range : Option (List Char)) :
    (st.pickNar rows range).Serves h size range ↔ best.info.narSize = size := by
  obtain ⟨r, hr, hne⟩ := hsome
  have hbest : maxByKey (fun r : Found => r.holders.length) rows = some best := by
    rw [← hlast]
    exact maxByKey_const fun r hr => congrArg List.length (hall r hr).2
  have hpick : st.pickNar rows range
      = if st.refusesWhileRoaming best.info.narSize then .miss
        else narResponse best.info (st.unionSources rows) range := by
    rw [pickNar, hbest]
    simp only
    rw [if_neg (unionSources_ne_nil hr hne)]
  rw [hpick]
  constructor
  · rintro ⟨info, sources, heq, -, -, hsize⟩
    split at heq
    next =>
      unfold narResponse at heq
      split at heq <;> cases heq
    next => exact (narResponse_size heq).trans hsize
  · rintro rfl
    rw [hroam]
    refine ⟨best.info, st.unionSources rows, rfl, unionSources_ne_nil hr hne, ?_, rfl⟩
    exact (hall best (List.mem_of_getLast? hlast)).1

-- ================================================================ the last row

/-- What a store finds is recorded. -/
theorem Rep.recorded_of_mem {cd : Codec} {db : Db} {t : FactTable} {st : ProxyState}
    (hrep : Rep cd db t) (hm : db.Mirrored) (hstore : st.store.Of db) {h : NarHash} {r : Found}
    (hr : r ∈ st.believe (st.store.narHash h)) :
    ∃ a, st.Recorded db h a ∧ r = ⟨attToRemote a, db.holdersOf h⟩ := by
  obtain ⟨a, holders, hmem, hok, rfl⟩ := ProxyState.mem_believe.mp hr
  obtain ⟨⟨hrow, hnar⟩, rfl, -⟩ :=
    (hrep.mem_lookupNarHash hm).mp ((hstore.narHash h).mem_iff.mp hmem)
  exact ⟨a, ⟨⟨_, (hrep.att _ a).mpr ⟨hrow, rfl⟩⟩, hnar, hok⟩, rfl⟩

/-- The last row that RocksDB finds for a hash is the recorded one with the
greatest hash part. -/
theorem Rep.greatestSays_iff {cd : Codec} {db : Db} {t : FactTable} {st : ProxyState}
    (hrep : Rep cd db t) (hm : db.Mirrored) (hstore : st.store = db.lookups) {h : NarHash}
    {best : Found} (hlast : (st.believe (st.store.narHash h)).getLast? = some best) (size : ℕ) :
    st.GreatestSays db h size ↔ best.info.narSize = size := by
  rw [hstore, ProxyState.believe, List.getLast?_map, Option.map_eq_some_iff] at hlast
  obtain ⟨⟨a, holders⟩, hlast, rfl⟩ := hlast
  obtain ⟨init, hsplit⟩ := List.getLast?_eq_some_iff.mp hlast
  obtain ⟨hmem, hok⟩ := List.mem_filter.mp (List.mem_of_getLast? hlast)
  obtain ⟨⟨hrow, hnar⟩, rfl, hne⟩ := (hrep.mem_lookupNarHash hm).mp hmem
  have hrec : st.Recorded db h a := ⟨⟨_, (hrep.att _ a).mpr ⟨hrow, rfl⟩⟩, hnar, hok⟩
  have hmax : ∀ b, st.Recorded db h b →
      b = a ∨ hashPartOf b.storePath < hashPartOf a.storePath := by
    rintro b ⟨⟨k, hk⟩, hbnar, hbok⟩
    have hfound : (b, db.holdersOf h) ∈ db.lookupNarHash h :=
      (hrep.mem_lookupNarHash hm).mpr ⟨⟨((hrep.att k b).mp hk).1, hbnar⟩, rfl, hne⟩
    have hin : (b, db.holdersOf h)
        ∈ (db.lookups.narHash h).filter fun r => feasible st.trusted r.1 :=
      List.mem_filter.mpr ⟨hfound, hbok⟩
    have hsorted := (hrep.lookupNarHash_sorted h).filter
      fun r : Attestation × List Origin => feasible st.trusted r.1
    rw [hsplit] at hin
    rw [show (db.lookupNarHash h).filter _ = _ from hsplit] at hsorted
    rcases List.mem_append.mp hin with hin | hin
    · exact Or.inr ((List.pairwise_append.mp hsorted).2.2 _ hin _ List.mem_cons_self)
    · exact Or.inl (congrArg Prod.fst (List.mem_singleton.mp hin))
  constructor
  · intro hgives
    exact hgives a hrec fun b hb => (hmax b hb).elim (fun h => h ▸ le_refl _) le_of_lt
  · rintro rfl b hb hbig
    rcases hmax b hb with rfl | hlt
    · rfl
    · exact absurd (hbig a hrec) (not_le.mpr hlt)

/-- A narinfo answered means a NAR with sources. Its size is the one that
the last of the rows gives which the store returns for the hash, so the NAR
is served with the promised size exactly when that row agrees. On RocksDB
it is the row with the greatest hash part; and it agrees on either if all
the rows recorded for the hash do. -/
theorem promised_nar_served {cd : Codec} {m : Machine} (hm : (storeSystem cd).Reach m)
    {st : ProxyState} (hstore : st.store.Of m.store.db) {file : Bytes} {info : Narinfo}
    (h : st.getNarinfo file = some info) (range : Option (List Char)) :
    ((st.getNar (narFile info.narHash) range).Serves info.narHash info.narSize range
        ↔ st.LastSays info.narHash info.narSize)
      ∧ (st.store = m.store.db.lookups →
          (st.LastSays info.narHash info.narSize
            ↔ st.GreatestSays m.store.db info.narHash info.narSize))
      ∧ ((∀ a, st.Recorded m.store.db info.narHash a → a.narSize = info.narSize) →
          st.LastSays info.narHash info.narSize) := by
  obtain ⟨t, hinv⟩ := Machine.Inv.reach hm
  have hrep := hinv.rep
  have hmirror := hinv.mirrored
  set db := m.store.db with hdb
  obtain ⟨hashPart, hfile, hpick⟩ := Option.bind_eq_some_iff.mp h
  obtain ⟨r, hr, rfl, hsources, hroam⟩ := ProxyState.pickNarinfo_spec hpick
  obtain ⟨a, holders, hmem, hok, rfl⟩ := ProxyState.mem_believe.mp hr
  obtain ⟨hrow, narHash, hnar, rfl, hne⟩ := hrep.mem_lookupHashPart
    ((hstore.hashPart hashPart (length_of_hashPartOfFile hfile)).mem_iff.mp hmem)
  have hremote : (attToRemote a).narHash = narHash := attToRemote_narHash hnar.symm
  rw [hremote]
  -- the narinfo's row is one of those found for its NAR hash
  have hfound : (⟨attToRemote a, db.holdersOf narHash⟩ : Found)
      ∈ st.believe (st.store.narHash narHash) :=
    ProxyState.mem_believe.mpr ⟨a, _, (hstore.narHash narHash).mem_iff.mpr
      ((hrep.mem_lookupNarHash hmirror).mpr ⟨⟨hrow, hnar.symm⟩, rfl, hne⟩), hok, rfl⟩
  have hall : ∀ r ∈ st.believe (st.store.narHash narHash),
      r.info.narHash = narHash ∧ r.holders = db.holdersOf narHash := by
    intro r hr
    obtain ⟨b, hb, rfl⟩ := hrep.recorded_of_mem hmirror hstore hr
    exact ⟨attToRemote_narHash hb.nar, rfl⟩
  obtain ⟨best, hlast⟩ : ∃ best,
      (st.believe (st.store.narHash narHash)).getLast? = some best :=
    ⟨_, List.getLast?_eq_some_getLast (List.ne_nil_of_mem hfound)⟩
  have hgives : ∀ size, st.LastSays narHash size ↔ best.info.narSize = size := by
    intro size
    rw [ProxyState.LastSays, hlast]
    exact ⟨fun h => h best rfl, fun h found hf => Option.some.inj hf ▸ h⟩
  refine ⟨?_, fun hrocks => ?_, fun hagree => ?_⟩
  · rw [ProxyState.getNar_narFile, hgives,
      ProxyState.pickNar_serves hlast hall ⟨_, hfound, hsources⟩ hroam]
  · rw [hgives, hrep.greatestSays_iff hmirror hrocks hlast]
  · obtain ⟨b, hb, rfl⟩ := hrep.recorded_of_mem hmirror hstore (List.mem_of_getLast? hlast)
    exact (hgives _).mpr (hagree b hb)

-- ================================================================ two sizes

/-- The size an answer is about. -/
def NarResponse.size : NarResponse → Option ℕ
  | .miss => none
  | .unsatisfiable size => some size
  | .content info _ _ _ => some info.narSize

theorem NarResponse.Serves.size_eq {r : NarResponse} {h : NarHash} {size : ℕ}
    {range : Option (List Char)} (hs : r.Serves h size range) : r.size = some size := by
  obtain ⟨info, sources, rfl, -, -, rfl⟩ := hs
  unfold narResponse
  split <;> rfl

/-- One NAR under the paths of two bytes, with a size for each; a peer
holds it. -/
def twoPaths (n n' : ℕ) : List Machine.Act :=
  [.call 0 (.mergeAttestations [{ addressed 98 with narSize := n },
      { addressed 99 with narSize := n' }]),
    .read 0, .read 0, .commit 0, .fold 0,
    .call 1 (.replaceHoldings (Origin.ofByte 2) 1 0 [NarHash.ofByte 5]
      [.add (NarHash.ofByte 5)]),
    .write 1]

/-- The proxy of a node with one peer. -/
def ProxyState.withPeer (db : Db) : ProxyState where
  selfName := Origin.ofByte 1
  trusted := .none
  store := db.lookups
  peers := [⟨Origin.ofByte 2, 1, none⟩]
  now := 0
  minBw := 0
  thresholdBytes := 0
  roamingUntil := none

/-- The narinfo of the first path. -/
def firstFile : Bytes := 98 :: List.replicate 31 97 ++ ascii ".narinfo"

/-- Both paths give one size, and the NAR is served with it. -/
theorem promised_nar_served_agreed : ∃ (m : Machine) (info : Narinfo),
    (ProxyState.withPeer m.store.db).getNarinfo firstFile = some info ∧ info.narSize = 7
      ∧ ((ProxyState.withPeer m.store.db).getNar (narFile info.narHash) none).Serves
        info.narHash info.narSize none := by
  have hrun : ((storeSystem Codec.plain).run {} (twoPaths 7 7)).bind (fun m =>
      ((ProxyState.withPeer m.store.db).getNarinfo firstFile).map fun info =>
        decide (info.narSize = 7 ∧ ∀ e ∈ m.store.db.att.entries, e.2.narSize = 7))
      = some true := by decide +kernel
  obtain ⟨m, hrun, hdone⟩ := Option.bind_eq_some_iff.mp hrun
  obtain ⟨info, hinfo, hdone⟩ := Option.map_eq_some_iff.mp hdone
  obtain ⟨hsize, hall⟩ := of_decide_eq_true hdone
  have hm : (storeSystem Codec.plain).Reach m := (System.Reach.start rfl).run hrun
  refine ⟨m, info, hinfo, hsize, ?_⟩
  obtain ⟨hserves, -, hagree⟩ := promised_nar_served hm (Db.lookups_of _) hinfo none
  refine hserves.mpr (hagree fun a ha => ?_)
  obtain ⟨k, hk⟩ := ha.row
  rw [hsize]
  exact hall (k, a) (OrdMap.mem_entries.mpr hk)

/-- The paths give two sizes: the narinfo says the one and the NAR comes
with the other. -/
theorem promised_size_not_served : ¬ ∀ (cd : Codec) (m : Machine), (storeSystem cd).Reach m →
    (∀ a ∈ m.taken, wellFormed a = true) →
    ∀ (st : ProxyState), st.store.Of m.store.db → ∀ (file : Bytes) (info : Narinfo),
      st.getNarinfo file = some info →
        (st.getNar (narFile info.narHash) none).Serves info.narHash info.narSize none := by
  intro hall
  have hrun : ((storeSystem Codec.plain).run {} (twoPaths 7 8)).bind (fun m =>
      ((ProxyState.withPeer m.store.db).getNarinfo firstFile).map fun info =>
        decide ((∀ a ∈ m.taken, wellFormed a = true) ∧ info.narSize = 7
          ∧ ((ProxyState.withPeer m.store.db).getNar (narFile info.narHash) none).size = some 8))
      = some true := by decide +kernel
  obtain ⟨m, hrun, hdone⟩ := Option.bind_eq_some_iff.mp hrun
  obtain ⟨info, hinfo, hdone⟩ := Option.map_eq_some_iff.mp hdone
  obtain ⟨hwf, hsize, hother⟩ := of_decide_eq_true hdone
  have hm : (storeSystem Codec.plain).Reach m := (System.Reach.start rfl).run hrun
  have hserves := (hall Codec.plain m hm hwf _ (Db.lookups_of _) firstFile info hinfo).size_eq
  rw [hother, hsize] at hserves
  cases hserves

end Narshare
