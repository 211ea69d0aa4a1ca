/-
Lookups over an idle store: what `lookup_hash_part` and
`lookup_nar_hash` find is what the fact table and the possession table
say, nothing added and nothing left out.

`FoundExactly` is the specification both meet. It is stated over the
abstract fact table and the per-origin possession predicate, so it says
nothing of indexes; the mirror of the possession table and the
representation of the fact families carry it down to the rows scanned.
-/
import Narshare.Store.Machine

namespace Narshare

variable {cd : Codec}

-- ================================================================ holders

/-- The origins holding a hash, each once, in key order. -/
structure HoldersOf (db : Db) (h : NarHash) (holders : List Origin) : Prop where
  sorted : holders.Pairwise (· < ·)
  mem : ∀ o, o ∈ holders ↔ db.isHeld o h = true

theorem HoldersOf.unique {db : Db} {h : NarHash} {holders holders' : List Origin}
    (hh : HoldersOf db h holders) (hh' : HoldersOf db h holders') : holders = holders' :=
  Ascending.eq_of_mem_iff hh.sorted hh'.sorted fun o => (hh.mem o).trans (hh'.mem o).symm

/-- `holders_of` over mirrored tables. -/
theorem holdersOf_spec {db : Db} (hm : db.Mirrored) (h : NarHash) :
    HoldersOf db h (db.holdersOf h) where
  sorted := by
    rw [Db.holdersOf, List.pairwise_map]
    refine (db.holdby.sorted.filter _).imp_of_mem fun {a b} ha hb hab => ?_
    have hah := of_decide_eq_true (List.mem_filter.mp ha).2
    have hbh := of_decide_eq_true (List.mem_filter.mp hb).2
    rcases Prod.Lex.lt_iff.mp hab with hlt | hlt
    · rw [hah, hbh] at hlt
      exact absurd hlt (lt_irrefl h)
    · exact hlt.2
  mem o := by
    rw [Db.holdersOf, Db.isHeld, ← hm, List.mem_map, Option.isSome_iff_exists]
    constructor
    · rintro ⟨⟨k, v⟩, hmem, rfl⟩
      obtain ⟨hmem, hh⟩ := List.mem_filter.mp hmem
      refine ⟨v, ?_⟩
      rw [← OrdMap.mem_entries, ← of_decide_eq_true hh]
      exact hmem
    · rintro ⟨v, hv⟩
      exact ⟨(toLex (h, o), v),
        List.mem_filter.mpr ⟨OrdMap.mem_entries.mpr hv, decide_eq_true rfl⟩, rfl⟩

-- ============================================================ specification

/-- Exactly the stored facts satisfying `p` that somebody holds, each
once and with exactly its holders. -/
structure FoundExactly (db : Db) (t : FactTable) (p : Attestation → Prop)
    (found : List (Attestation × List Origin)) : Prop where
  once : (found.map Prod.fst).Nodup
  mem : ∀ a holders, (a, holders) ∈ found ↔
    (t.rows.get (pathKeyOf a) = some a ∧ p a)
      ∧ ∃ h : NarHash, h.val = a.narHash ∧ HoldersOf db h holders ∧ holders ≠ []

theorem mem_lookupAtts {db : Db} {rows : List Attestation} {a : Attestation}
    {holders : List Origin} :
    (a, holders) ∈ db.lookupAtts rows ↔
      a ∈ rows ∧ ∃ h : NarHash, h.val = a.narHash
        ∧ holders = db.holdersOf h ∧ holders ≠ [] := by
  rw [Db.lookupAtts, List.mem_filterMap]
  constructor
  · rintro ⟨b, hb, hf⟩
    obtain ⟨h, hh, hf⟩ := Option.bind_eq_some_iff.mp hf
    simp only at hf
    split at hf
    next => cases hf
    next hne =>
      cases hf
      exact ⟨hb, h, (NarHash.tryFrom_eq_some.mp hh).symm, rfl, hne⟩
  · rintro ⟨hb, h, hh, rfl, hne⟩
    refine ⟨a, hb, ?_⟩
    rw [← hh, NarHash.tryFrom_val, Option.bind_some]
    simp only
    rw [if_neg hne]

/-- Attaching holders to exactly the stored facts satisfying `p`. -/
theorem foundExactly_lookupAtts {db : Db} {t : FactTable} {p : Attestation → Prop}
    {rows : List Attestation} (hm : db.Mirrored) (hnd : rows.Nodup)
    (hrows : ∀ a, a ∈ rows ↔ t.rows.get (pathKeyOf a) = some a ∧ p a) :
    FoundExactly db t p (db.lookupAtts rows) where
  once := by
    have hsub : ((db.lookupAtts rows).map Prod.fst).Sublist (rows.map id) := by
      refine map_filterMap_sublist fun a _ e he => ?_
      obtain ⟨h, -, he⟩ := Option.bind_eq_some_iff.mp he
      simp only at he
      split at he
      next => cases he
      next => cases he; rfl
    rw [List.map_id] at hsub
    exact hnd.sublist hsub
  mem a holders := by
    rw [mem_lookupAtts, hrows]
    refine and_congr_right fun _ => exists_congr fun h => and_congr_right fun _ =>
      and_congr_left fun _ => ?_
    exact ⟨fun he => he ▸ holdersOf_spec hm h, fun hh => hh.unique (holdersOf_spec hm h)⟩

-- ============================================================== the indexes

section Index

variable {db : Db} {t : FactTable}

/-- A path-index entry leads to the row of its identity. -/
theorem Rep.attAt_path (h : Rep cd db t) {pk : Bytes} {d : Digest}
    (he : db.attPath.get pk = some d) : db.attAt d pk = t.rows.get pk := by
  have := h.attAt pk
  rwa [he] at this

/-- Scanning the path index from a full hash part finds the facts with
that hash part, once every stored fact has a full one. -/
theorem Rep.foundExactly_hashPart (h : Rep cd db t) (hm : db.Mirrored)
    (hfull : ∀ pk a, t.rows.get pk = some a → (hashPartOf a.storePath).length = 32)
    {hp : Bytes} (hlen : hp.length = 32) :
    FoundExactly db t (fun a => hashPartOf a.storePath = hp) (db.lookupHashPart hp) := by
  refine foundExactly_lookupAtts hm ?_ fun a => ?_
  · rw [List.Nodup, List.pairwise_filterMap]
    refine (db.attPath.sorted.filter _).imp_of_mem fun {e e'} he he' hlt => ?_
    intro a ha b hb hab
    rw [h.attAt_path (OrdMap.mem_entries.mp (List.mem_of_mem_filter he))] at ha
    rw [h.attAt_path (OrdMap.mem_entries.mp (List.mem_of_mem_filter he'))] at hb
    rw [← (t.ok _ _ ha).key, ← (t.ok _ _ hb).key, hab] at hlt
    exact lt_irrefl _ hlt
  · rw [List.mem_filterMap]
    constructor
    · rintro ⟨⟨pk, d⟩, hmem, ha⟩
      obtain ⟨hmem, hpre⟩ := List.mem_filter.mp hmem
      rw [h.attAt_path (OrdMap.mem_entries.mp hmem)] at ha
      have hok := t.ok _ _ ha
      rw [List.isPrefixOf_iff_prefix, ← hok.key] at hpre
      refine ⟨hok.key ▸ ha, ?_⟩
      have hhp := hfull _ _ ha
      exact (List.prefix_of_prefix_length_le (List.prefix_append _ _) hpre
        (hhp.trans hlen.symm).le).eq_of_length (hhp.trans hlen.symm)
    · rintro ⟨ha, rfl⟩
      have hd := h.path (pathKeyOf a)
      rw [ha] at hd
      refine ⟨(pathKeyOf a, attestationHash cd a), List.mem_filter.mpr
        ⟨OrdMap.mem_entries.mpr hd, ?_⟩, (h.attAt_path hd).trans ha⟩
      rw [List.isPrefixOf_iff_prefix]
      exact List.prefix_append _ _

/-- A NAR-index entry leads to the row of its identity. -/
theorem Rep.attAt_nar (h : Rep cd db t) {narHash : NarHash} {k : Bytes} {d : Digest}
    (he : db.attNar.get k = some d) (hpre : narHash.val.isPrefixOf k = true) :
    ∃ a, db.attAt d (k.drop 32 ++ narHash.val) = some a
      ∧ t.rows.get (pathKeyOf a) = some a ∧ narKey a = k ∧ a.narHash = narHash.val := by
  obtain ⟨pk, a, ha, hk, hd⟩ := (h.nar k d).mp he
  have hok := t.ok _ _ ha
  have hnar : a.narHash = narHash.val := by
    rw [List.isPrefixOf_iff_prefix, ← hk] at hpre
    exact (List.prefix_of_prefix_length_le (List.prefix_append _ _) hpre
      (hok.nar.trans narHash.property.symm).le).eq_of_length
        (hok.nar.trans narHash.property.symm)
  have hdrop : k.drop 32 = hashPartOf a.storePath := by
    rw [← hk, narKey, ← hok.nar, List.drop_left]
  have hrow : t.rows.get (pathKeyOf a) = some a := hok.key ▸ ha
  refine ⟨a, ?_, hrow, hk, hnar⟩
  rw [hdrop, ← hnar, ← hd]
  exact (h.att _ a).mpr ⟨hrow, rfl⟩

/-- Scanning the NAR index finds the facts of that hash. -/
theorem Rep.foundExactly_narHash (h : Rep cd db t) (hm : db.Mirrored)
    (narHash : NarHash) :
    FoundExactly db t (fun a => a.narHash = narHash.val) (db.lookupNarHash narHash) := by
  refine foundExactly_lookupAtts hm ?_ fun a => ?_
  · rw [List.Nodup, List.pairwise_filterMap]
    refine (db.attNar.sorted.filter _).imp_of_mem fun {e e'} he he' hlt => ?_
    obtain ⟨hmem, hpre⟩ := List.mem_filter.mp he
    obtain ⟨hmem', hpre'⟩ := List.mem_filter.mp he'
    obtain ⟨a₀, ha₀, -, hk, -⟩ := h.attAt_nar (OrdMap.mem_entries.mp hmem) hpre
    obtain ⟨b₀, hb₀, -, hk', -⟩ := h.attAt_nar (OrdMap.mem_entries.mp hmem') hpre'
    intro a ha b hb hab
    rw [ha₀] at ha
    rw [hb₀] at hb
    cases ha
    cases hb
    rw [← hk, ← hk', hab] at hlt
    exact lt_irrefl _ hlt
  · rw [List.mem_filterMap]
    constructor
    · rintro ⟨⟨k, d⟩, hmem, ha⟩
      obtain ⟨hmem, hpre⟩ := List.mem_filter.mp hmem
      obtain ⟨a₀, ha₀, hrow, -, hnar⟩ := h.attAt_nar (OrdMap.mem_entries.mp hmem) hpre
      rw [ha₀] at ha
      cases ha
      exact ⟨hrow, hnar⟩
    · rintro ⟨ha, hnar⟩
      have hpre : narHash.val.isPrefixOf (narKey a) = true := by
        rw [List.isPrefixOf_iff_prefix, ← hnar]
        exact List.prefix_append _ _
      have hd : db.attNar.get (narKey a) = some (attestationHash cd a) :=
        (h.nar _ _).mpr ⟨pathKeyOf a, a, ha, rfl, rfl⟩
      refine ⟨(narKey a, attestationHash cd a), List.mem_filter.mpr
        ⟨OrdMap.mem_entries.mpr hd, hpre⟩, ?_⟩
      obtain ⟨b, hb, hrow, hk, -⟩ := h.attAt_nar hd hpre
      rw [hb]
      have hpk := (t.ok _ _ hrow).pathKey_of_narKey (t.ok _ _ ha) hk
      rw [hpk, ha] at hrow
      exact hrow.symm

end Index

-- ============================================================ an idle store

/-- Rows put together from well-formed attestations have a full hash
part. -/
theorem hashPart_of_stems {attests : List Attestation} {a : Attestation} (h : Stems attests a)
    (hwf : ∀ b ∈ attests, wellFormed b = true) : (hashPartOf a.storePath).length = 32 := by
  obtain ⟨b, hb, -, hbody⟩ := h.body
  have hpath : b.storePath = a.storePath := congrArg (fun x => (ofLex x).1) hbody
  exact hpath ▸ wellFormed_hashPart (hwf b hb)

/-- The fact index of an idle store: the three families are one table,
every aggregate is the XOR over exactly the rows under its node — which
is what a rebuild would compute — and both lookups are exact. Only the
hash-part lookup needs its callers' promise that attestations are well
formed: without a 32-byte hash part the NAR hash alone is the key. -/
theorem factIndex_of_idle {m : Machine} (h : (storeSystem cd).Reach m)
    (hidle : m.tasks = ∅) :
    ∃ t : FactTable, Rep cd m.store.db t
      ∧ (∀ n : Node, m.store.agg.cell n
          = m.store.db.att.sum fun _ a => n.part (attestationHash cd a))
      ∧ (∀ n : Node, m.store.agg.cell n = (rebuildAggregates m.store.db).cell n)
      ∧ (∀ narHash : NarHash, FoundExactly m.store.db t
          (fun a => a.narHash = narHash.val) (m.store.db.lookupNarHash narHash))
      ∧ ((∀ a ∈ m.taken, wellFormed a = true) →
          ∀ hp : Bytes, hp.length = 32 → FoundExactly m.store.db t
            (fun a => hashPartOf a.storePath = hp) (m.store.db.lookupHashPart hp)) := by
  obtain ⟨t, hinv⟩ := Machine.Inv.reach h
  have htree : ∀ n : Node,
      m.store.agg.cell n = m.store.db.attPath.sum fun _ h => n.part h := fun n => by
    have := hinv.tree n
    rwa [hidle, OrdMap.sum_empty, add_zero] at this
  refine ⟨t, hinv.rep, fun n => ?_, fun n => ?_, fun narHash => ?_, fun hwf hp hlen => ?_⟩
  · rw [htree, hinv.rep.sum_att]
  · rw [htree, Aggregates.tracks_rebuild]
  · exact hinv.rep.foundExactly_narHash hinv.mirrored narHash
  · exact hinv.rep.foundExactly_hashPart hinv.mirrored
      (fun pk a ha => hashPart_of_stems (hinv.stems pk a ha) hwf) hlen

/-- A fact whose path has no hash part, held by its origin. -/
def unnamedMerge : List Machine.Act :=
  [.call 0 (.applyEvents (Origin.ofByte 1) (0, 0) (7, 1)
      [(1, ⟨1, some (.have_ (NarHash.ofByte 5).val)⟩)] [.add (NarHash.ofByte 5)]
      [{ Attestation.ofBytes 98 5 [[1]] with storePath := [0x2F, 97] }]),
    .read 0, .commit 0, .fold 0]

/-- Its key in the path index is the NAR hash alone, and the 32 bytes of
that are found as a hash part. -/
theorem unnamed_found_by_narHash :
    ∃ (m : Machine) (hp : Bytes), (storeSystem Codec.plain).Reach m ∧ m.tasks = ∅ ∧ hp.length = 32
      ∧ ∀ t : FactTable, ¬ FoundExactly m.store.db t (fun a => hashPartOf a.storePath = hp)
        (m.store.db.lookupHashPart hp) := by
  have hrun : ((storeSystem Codec.plain).run {} unnamedMerge).map (fun m =>
      decide (m.tasks = ∅ ∧ ∃ e ∈ m.store.db.lookupHashPart (NarHash.ofByte 5).val,
        hashPartOf e.1.storePath ≠ (NarHash.ofByte 5).val)) = some true := by decide +kernel
  obtain ⟨m, hm, hdone⟩ := Option.map_eq_some_iff.mp hrun
  obtain ⟨hidle, e, he, hne⟩ := of_decide_eq_true hdone
  refine ⟨m, (NarHash.ofByte 5).val, (System.Reach.start rfl).run hm, hidle,
    (NarHash.ofByte 5).property, fun t hfound => ?_⟩
  exact hne ((hfound.mem e.1 e.2).mp he).1.2

/-- Two merges interleaved with each other, a third cut off by a
restart. -/
def interleavedMerges : List Machine.Act :=
  [.call 0 (.applyEvents (Origin.ofByte 1) (0, 0) (7, 1)
      [(1, ⟨1, some (.have_ (NarHash.ofByte 5).val)⟩)] [.add (NarHash.ofByte 5)]
      [.ofBytes 98 5 [[2]], .ofBytes 98 5 [[1]]]),
    .call 1 (.mergeAttestations [.ofBytes 99 6 [[3]]]),
    .read 0, .read 1, .commit 1, .commit 0, .fold 0, .fold 1,
    .call 2 (.mergeAttestations [.ofBytes 98 5 [[3]]]), .read 2, .commit 2, .reopen]

/-- The interleaved run ends idle, and its lookups are exact. -/
theorem factIndex_of_idle_interleaved :
    ∃ m t, (storeSystem Codec.plain).Reach m ∧ Rep Codec.plain m.store.db t
      ∧ m.store.db.att.entries.length = 2
      ∧ FoundExactly m.store.db t (fun a => a.narHash = (NarHash.ofByte 5).val)
          (m.store.db.lookupNarHash (NarHash.ofByte 5))
      ∧ FoundExactly m.store.db t (fun a => hashPartOf a.storePath = 98 :: List.replicate 31 97)
          (m.store.db.lookupHashPart (98 :: List.replicate 31 97)) := by
  have hrun : ((storeSystem Codec.plain).run {} interleavedMerges).map (fun m =>
      decide (m.tasks = ∅ ∧ m.store.db.att.entries.length = 2
        ∧ ∀ a ∈ m.taken, wellFormed a = true)) = some true := by decide +kernel
  obtain ⟨m, hm, hdone⟩ := Option.map_eq_some_iff.mp hrun
  obtain ⟨hidle, hrows, hwf⟩ := of_decide_eq_true hdone
  have hreach : (storeSystem Codec.plain).Reach m := (System.Reach.start rfl).run hm
  obtain ⟨t, hrep, -, -, hnar, hpart⟩ := factIndex_of_idle hreach hidle
  exact ⟨m, t, hreach, hrep, hrows, hnar _, hpart hwf _ (by decide)⟩

end Narshare
