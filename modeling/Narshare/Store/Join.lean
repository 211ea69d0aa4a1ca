/-
Merging is a join, end to end: what a store's fact tables become depends
only on which attestations were merged, never on order, repetition or
batching — so two stores that take in each other's tables agree on
every row and on the Merkle root.

# Refinement

`Rep.mergeAttestations` is the connection: the three column families
after `merge_attestations` represent the abstract table with the batch
absorbed (FactTable.lean), provided no two rows that can arise hash
alike. Absorption is a fold of joins, which Lib/Absorb.lean makes
insensitive to everything but the set of arrivals.
-/
import Narshare.Store.Machine

namespace Narshare

variable {cd : Codec}

-- ============================================================== refinement

/-- A collision-free list stays so when attestations are left out. -/
theorem CollisionFree.mono {attests attests' : List Attestation}
    (h : CollisionFree cd attests') (hsub : ∀ a ∈ attests, a ∈ attests') :
    CollisionFree cd attests :=
  fun a b ha hb hsa hsb => h a b ha hb (hsa.mono hsub) (hsb.mono hsub)

variable {s : Store} {t : FactTable} {given : List Attestation}

/-- A merge with no move writes nothing. -/
theorem Store.mergeAttestations_db (s : Store) (attests : List Attestation) :
    (s.mergeAttestations cd attests).2.db
      = s.db.write (movesBatch cd (Narshare.mergeAtts cd s.db attests)) := by
  rw [Store.mergeAttestations]
  split
  next => rfl
  next hlen =>
    rw [List.length_eq_zero_iff.mp (Nat.eq_zero_of_not_pos hlen)]
    rfl

/-- `merge_attestations` absorbs its batch. -/
theorem Rep.mergeAttestations (h : Rep cd s.db t) (hcf : CollisionFree cd given)
    (ht : ∀ pk a, t.rows.get pk = some a → Stems given a)
    {attests : List Attestation} (hin : ∀ a ∈ attests, Stems given a) :
    Rep cd (s.mergeAttestations cd attests).2.db (t.absorbAll attests) := by
  obtain ⟨hok, hnd⟩ := h.mergeAtts attests
  obtain ⟨t', hrep, hrows⟩ := h.write_moves hok hnd
  have ht' : t' = t.absorbAll attests := by
    apply FactTable.ext_facts
    rw [FactTable.facts_absorbAll, absorb_eq_sup, ← FactTable.facts_empty,
      ← FactTable.facts_absorbAll]
    funext pk
    rw [Pi.sup_apply]
    -- the coalesced batch has at most one row for this identity
    cases hc : (coalesce attests).get pk with
    | none =>
        have hkeep : t'.rows.get pk = t.rows.get pk := by
          rw [hrows, OrdMap.get_setAll_of_forall_ne]
          intro w hw
          obtain ⟨mv, hmv, rfl⟩ := List.mem_map.mp hw
          obtain ⟨e, he, hmv⟩ := List.mem_filterMap.mp hmv
          have hpk := (h.mergeOne (rowOk_of_mem_coalesce he) mv hmv).1
          rintro rfl
          have hget := OrdMap.mem_entries.mp he
          rw [← hpk] at hget
          rw [hget] at hc
          cases hc
        rw [FactTable.facts_eq_bot (t := FactTable.empty.absorbAll attests)
          (coalesce_eq attests ▸ hc), sup_bot_eq, FactTable.facts, hkeep]
        rfl
    | some incoming =>
        have hmem := OrdMap.mem_entries.mpr hc
        have hrow : RowOk pk incoming := rowOk_of_mem_coalesce hmem
        have hbatch : Stems given incoming := FactTable.stems_absorbAll
          (fun pk a ha => by cases ha) hin (coalesce_eq attests ▸ hc)
        have hget : t'.rows.get pk
            = some (FactTable.mergedRow (t.rows.get pk) incoming) := by
          cases hm : Narshare.mergeOne cd s.db pk incoming with
          | some mv =>
              obtain ⟨hpk, -, hmv⟩ := h.mergeOne hrow mv hm
              rw [hrows, ← hmv]
              refine OrdMap.get_setAll_of_mem (by rw [List.map_map]; exact hnd)
                (List.mem_map.mpr ⟨mv, List.mem_filterMap.mpr ⟨_, hmem, hm⟩, ?_⟩)
              rw [hpk]
          | none =>
              have hsame : t'.rows.get pk = t.rows.get pk := by
                rw [hrows, OrdMap.get_setAll_of_forall_ne]
                intro w hw
                obtain ⟨mv, hmv, rfl⟩ := List.mem_map.mp hw
                obtain ⟨e, he, hmv⟩ := List.mem_filterMap.mp hmv
                have hpk := (h.mergeOne (rowOk_of_mem_coalesce he) mv hmv).1
                rintro rfl
                have hge := OrdMap.mem_entries.mp he
                rw [← hpk, hc] at hge
                cases hge
                rw [← hpk, hm] at hmv
                cases hmv
              rw [hsame]
              refine h.mergeOne_none (fun cur hcur hhash => ?_) hm
              have hcok := t.ok _ _ hcur
              exact hcf _ _ hcok.canonical (canonical_merged _ _) (ht _ _ hcur)
                ((ht _ _ hcur).merged hbatch (hcok.narHash_eq hrow)) hhash
        rw [FactTable.facts_eq_coe hget, FactTable.factOf_mergedRow,
          FactTable.facts_eq_coe (t := FactTable.empty.absorbAll attests)
            (coalesce_eq attests ▸ hc)]
        rfl
  rw [Store.mergeAttestations_db, ← ht']
  exact hrep

/-- `merge_attestations` keeps the aggregates exact. -/
theorem Rep.tracks_mergeAttestations (h : Rep cd s.db t) (htr : s.agg.Tracks s.db)
    (attests : List Attestation) :
    (s.mergeAttestations cd attests).2.agg.Tracks (s.mergeAttestations cd attests).2.db := by
  obtain ⟨hok, hnd⟩ := h.mergeAtts attests
  intro n
  rw [Store.mergeAttestations]
  split
  next =>
    refine (Aggregates.cell_xorAll _ _ n).trans ?_
    rw [htr n]
    exact (h.sum_write_moves hok hnd n).symm
  next => exact htr n

-- =========================================================== apply_events

/-- `apply_events` at the clock it expects absorbs its attestations. -/
theorem Rep.applyEvents (h : Rep cd s.db t) (hcf : CollisionFree cd given)
    (ht : ∀ pk a, t.rows.get pk = some a → Stems given a) {attests : List Attestation}
    (hin : ∀ a ∈ attests, Stems given a) (o : Origin) (set : ℕ × ℕ)
    (journal : List (ℕ × Event)) (holds : List HoldOp) :
    Rep cd (s.applyEvents cd o ((s.db.clock o).generation, (s.db.clock o).seq) set journal
      holds attests).2.db (t.absorbAll attests) := by
  have hnf := Batch.noFacts_eventsBatch (s.db.clock o) o set journal holds
  rw [Store.applyEvents, if_neg (not_not.mpr rfl)]
  show Rep cd (s.db.write (_ ++ _)) _
  rw [Db.write_append]
  -- the moves were read before the events went in, but no fact row has changed since
  have hmoves : Narshare.mergeAtts cd s.db attests
      = Narshare.mergeAtts cd (s.db.write (eventsBatch (s.db.clock o) o set journal holds))
          attests := by
    have hatt : (s.db.write (eventsBatch (s.db.clock o) o set journal holds)).att
        = s.db.att := by
      rw [Db.write, hnf.att]
      rfl
    have hpath : (s.db.write (eventsBatch (s.db.clock o) o set journal holds)).attPath
        = s.db.attPath := by
      rw [Db.write, hnf.attPath]
      rfl
    unfold Narshare.mergeAtts Narshare.mergeOne Db.attAt
    rw [hatt, hpath]
  rw [hmoves]
  have hrep := h.write_noFacts hnf
  generalize s.db.write (eventsBatch (s.db.clock o) o set journal holds) = db' at hrep ⊢
  have hmerge := Rep.mergeAttestations (s := ⟨db', s.agg⟩) hrep hcf ht hin
  rw [Store.mergeAttestations_db] at hmerge
  exact hmerge

/-- And keeps the aggregates exact. -/
theorem Rep.tracks_applyEvents (h : Rep cd s.db t) (htr : s.agg.Tracks s.db) (o : Origin)
    (expect set : ℕ × ℕ) (journal : List (ℕ × Event)) (holds : List HoldOp)
    (attests : List Attestation) :
    (s.applyEvents cd o expect set journal holds attests).2.agg.Tracks
      (s.applyEvents cd o expect set journal holds attests).2.db := by
  obtain ⟨hok, hnd⟩ := h.mergeAtts attests
  have hnf := Batch.noFacts_eventsBatch (s.db.clock o) o set journal holds
  rw [Store.applyEvents]
  split
  next => exact htr
  next =>
    intro n
    refine (Aggregates.cell_xorAll _ _ n).trans ?_
    show _ = (s.db.write (_ ++ _)).attPath.sum _
    rw [Db.write_append, (h.write_noFacts hnf).sum_write_moves hok hnd, htr n, Db.write,
      hnf.attPath, OrdMap.setAll_nil]

theorem Db.Mirrored.applyEvents (h : s.db.Mirrored) (o : Origin) (expect set : ℕ × ℕ)
    (journal : List (ℕ × Event)) (holds : List HoldOp) (attests : List Attestation) :
    (s.applyEvents cd o expect set journal holds attests).2.db.Mirrored := by
  rw [Store.applyEvents]
  split
  · exact h
  · show (s.db.write (_ ++ _)).Mirrored
    rw [Db.write_append]
    exact (h.write (Batch.paired_eventsBatch ..)).write (Batch.factsOnly_movesBatch cd _).paired

variable (cd) in
theorem wm_applyEvents (s : Store) (o : Origin) (expect set : ℕ × ℕ)
    (journal : List (ℕ × Event)) (holds : List HoldOp) (attests : List Attestation) :
    (s.applyEvents cd o expect set journal holds attests).2.db.wm = s.db.wm := by
  rw [Store.applyEvents]
  split
  next => rfl
  next =>
    refine wm_writeAll [_] fun b hb => ?_
    rw [List.mem_singleton.mp hb, Batch.append_wm, (Batch.factsOnly_movesBatch cd _).wm]
    rfl

-- ============================================================ many batches

/-- Merge a list of batches, one call each. -/
def Store.mergeBatches (cd : Codec) (s : Store) (batches : List (List Attestation)) :
    Store :=
  batches.foldl (fun s attests => (s.mergeAttestations cd attests).2) s

theorem FactTable.absorbAll_append (t : FactTable) (l l' : List Attestation) :
    t.absorbAll (l ++ l') = (t.absorbAll l).absorbAll l' := List.foldl_append

/-- Batch after batch, the store absorbs everything merged. -/
theorem Rep.mergeBatches (hcf : CollisionFree cd given)
    {batches : List (List Attestation)} (hin : ∀ a ∈ batches.flatten, Stems given a)
    (h : Rep cd s.db t) (htr : s.agg.Tracks s.db)
    (ht : ∀ pk a, t.rows.get pk = some a → Stems given a) :
    Rep cd (s.mergeBatches cd batches).db (t.absorbAll batches.flatten)
      ∧ (s.mergeBatches cd batches).agg.Tracks (s.mergeBatches cd batches).db := by
  induction batches generalizing s t with
  | nil => exact ⟨h, htr⟩
  | cons attests batches ih =>
      rw [List.flatten_cons] at hin ⊢
      have hfst : ∀ a ∈ attests, Stems given a := fun a ha =>
        hin a (List.mem_append_left _ ha)
      rw [FactTable.absorbAll_append]
      exact ih (fun a ha => hin a (List.mem_append_right _ ha))
        (h.mergeAttestations hcf ht hfst) (h.tracks_mergeAttestations htr attests)
        fun pk a ha => FactTable.stems_absorbAll ht hfst ha

/-- Two stores agree on everything reconciliation can see: one table of
facts, row for row in all three families, and every aggregate. -/
structure SameFacts (cd : Codec) (s s' : Store) : Prop where
  table : ∃ t : FactTable, Rep cd s.db t ∧ Rep cd s'.db t
  att : s.db.att = s'.db.att
  attPath : s.db.attPath = s'.db.attPath
  attNar : s.db.attNar = s'.db.attNar
  root : s.merkleRoot = s'.merkleRoot
  children : ∀ node, s.merkleChildren node = s'.merkleChildren node

/-- A table has one representation. -/
theorem Rep.sameRows {db db' : Db} (h : Rep cd db t) (h' : Rep cd db' t) :
    db.att = db'.att ∧ db.attPath = db'.attPath ∧ db.attNar = db'.attNar := by
  refine ⟨OrdMap.ext fun k => Option.ext fun a => ?_, OrdMap.ext fun pk => ?_,
    OrdMap.ext fun k => Option.ext fun d => ?_⟩
  · exact (h.att k a).trans (h'.att k a).symm
  · exact (h.path pk).trans (h'.path pk).symm
  · exact (h.nar k d).trans (h'.nar k d).symm

/-- Representing one table with exact aggregates is agreeing. -/
theorem Rep.sameFacts {s s' : Store} (h : Rep cd s.db t) (h' : Rep cd s'.db t)
    (htr : s.agg.Tracks s.db) (htr' : s'.agg.Tracks s'.db) : SameFacts cd s s' := by
  obtain ⟨hatt, hpath, hnar⟩ := h.sameRows h'
  obtain ⟨hroot, hchildren⟩ := htr.children_eq htr' hpath
  exact ⟨⟨t, h, h'⟩, hatt, hpath, hnar, hroot, hchildren⟩

theorem tracks_empty : Aggregates.new.Tracks {} := fun n => Aggregates.cell_new n

/-- Is the row one the store holds? -/
def Store.holdsRow (s : Store) (a : Attestation) : Prop :=
  ∃ k, s.db.att.get k = some a

/-- Those rows, in key order. -/
def Store.rows (s : Store) : List Attestation := s.db.att.entries.map Prod.snd

theorem Store.mem_rows {s : Store} {a : Attestation} : a ∈ s.rows ↔ s.holdsRow a := by
  constructor
  · intro h
    obtain ⟨e, he, rfl⟩ := List.mem_map.mp h
    exact ⟨e.1, OrdMap.mem_entries.mp he⟩
  · rintro ⟨k, hk⟩
    exact List.mem_map.mpr ⟨(k, a), OrdMap.mem_entries.mpr hk, rfl⟩

theorem Rep.holdsRow_iff (h : Rep cd s.db t) {a : Attestation} :
    s.holdsRow a ↔ t.rows.get (pathKeyOf a) = some a := by
  constructor
  · rintro ⟨k, hk⟩
    exact ((h.att k a).mp hk).1
  · intro ha
    exact ⟨_, (h.att _ a).mpr ⟨ha, rfl⟩⟩

/-- An idle store represents a table with exact aggregates. -/
theorem Machine.idle_rep {m : Machine} (h : (storeSystem cd).Reach m)
    (hidle : m.tasks = ∅) :
    ∃ t, Rep cd m.store.db t ∧ m.store.agg.Tracks m.store.db := by
  obtain ⟨t, hinv⟩ := Machine.Inv.reach h
  refine ⟨t, hinv.rep, fun n => ?_⟩
  have := hinv.tree n
  rwa [hidle, OrdMap.sum_empty, add_zero] at this

-- =================================================================== the join

/-- The fact merge is a join: from empty, only the set of attestations
merged matters; and two idle stores, whatever their histories, agree
once each has merged the other's rows in any batches. -/
theorem merge_is_join (cd : Codec) :
    (∀ batches batches' : List (List Attestation),
      (∀ a, a ∈ batches.flatten ↔ a ∈ batches'.flatten) →
      CollisionFree cd batches.flatten →
      SameFacts cd (Store.mergeBatches cd {} batches) (Store.mergeBatches cd {} batches'))
    ∧ (∀ m m' : Machine, (storeSystem cd).Reach m → m.tasks = ∅ →
      (storeSystem cd).Reach m' → m'.tasks = ∅ →
      ∀ batches batches' : List (List Attestation),
      (∀ a, a ∈ batches.flatten ↔ m.store.holdsRow a) →
      (∀ a, a ∈ batches'.flatten ↔ m'.store.holdsRow a) →
      CollisionFree cd (batches.flatten ++ batches'.flatten) →
      SameFacts cd (m.store.mergeBatches cd batches') (m'.store.mergeBatches cd batches)) := by
  constructor
  · intro batches batches' hmem hcf
    have hrun : ∀ bs : List (List Attestation), (∀ a ∈ bs.flatten, a ∈ batches.flatten) →
        Rep cd (Store.mergeBatches cd {} bs).db (FactTable.empty.absorbAll bs.flatten)
          ∧ (Store.mergeBatches cd {} bs).agg.Tracks (Store.mergeBatches cd {} bs).db :=
      fun bs hbs => Rep.mergeBatches hcf (fun a ha => Stems.of_mem (hbs a ha))
        (Rep.empty cd) tracks_empty fun pk a ha => by cases ha
    obtain ⟨hrep, htr⟩ := hrun batches fun _ h => h
    obtain ⟨hrep', htr'⟩ := hrun batches' fun a => (hmem a).mpr
    have heq : FactTable.empty.absorbAll batches'.flatten
        = FactTable.empty.absorbAll batches.flatten :=
      FactTable.absorbAll_congr _ fun a => (hmem a).symm
    rw [heq] at hrep'
    exact hrep.sameFacts hrep' htr htr'
  · intro m m' hm hidle hm' hidle' batches batches' hrows hrows' hcf
    obtain ⟨t, hrep, htr⟩ := Machine.idle_rep hm hidle
    obtain ⟨t', hrep', htr'⟩ := Machine.idle_rep hm' hidle'
    have hleft : ∀ a ∈ batches.flatten, Stems (batches.flatten ++ batches'.flatten) a :=
      fun a ha => Stems.of_mem (List.mem_append_left _ ha)
    have hright : ∀ a ∈ batches'.flatten, Stems (batches.flatten ++ batches'.flatten) a :=
      fun a ha => Stems.of_mem (List.mem_append_right _ ha)
    have hin : ∀ pk a, t.rows.get pk = some a →
        Stems (batches.flatten ++ batches'.flatten) a := fun pk a ha =>
      hleft a ((hrows a).mpr (hrep.holdsRow_iff.mpr ((t.ok _ _ ha).key ▸ ha)))
    have hin' : ∀ pk a, t'.rows.get pk = some a →
        Stems (batches.flatten ++ batches'.flatten) a := fun pk a ha =>
      hright a ((hrows' a).mpr (hrep'.holdsRow_iff.mpr ((t'.ok _ _ ha).key ▸ ha)))
    obtain ⟨hout, hoTr⟩ := Rep.mergeBatches hcf hright hrep htr hin
    obtain ⟨hout', hoTr'⟩ := Rep.mergeBatches hcf hleft hrep' htr' hin'
    have heq : t'.absorbAll batches.flatten = t.absorbAll batches'.flatten := by
      apply FactTable.ext_facts
      rw [FactTable.facts_absorbAll, FactTable.facts_absorbAll,
        FactTable.absorb_rows (t := t) fun a => (hrows a).trans hrep.holdsRow_iff,
        FactTable.absorb_rows (t := t') fun a => (hrows' a).trans hrep'.holdsRow_iff,
        sup_comm]
    rw [heq] at hout'
    exact hout.sameFacts hout' hoTr hoTr'

/-- A content-addressed attestation of the path of one byte. -/
def addressed (b : UInt8) : Attestation := { Attestation.ofBytes b 5 [] with ca := [1] }

/-- Attestations without signatures are put together from themselves
only. -/
theorem mem_of_stems_unsigned {l : List Attestation} {a : Attestation}
    (hl : ∀ b ∈ l, b.sigs = []) (h : Stems l a) : a ∈ l := by
  obtain ⟨⟨b, hb, hnar, hbody⟩, hsigs⟩ := h
  have hnil : a.sigs = b.sigs := by
    rw [hl b hb]
    refine List.eq_nil_iff_forall_not_mem.mpr fun s hs => ?_
    obtain ⟨d, hd, hsd⟩ := hsigs s hs
    rw [hl d hd] at hsd
    exact List.not_mem_nil hsd
  have hab : a = b := by
    cases a
    cases b
    simp only [bodyOf, EmbeddingLike.apply_eq_iff_eq, Prod.mk.injEq] at hbody hnar hnil
    obtain ⟨hpath, hsize, hrefs, hca⟩ := hbody
    rw [hnil, ← hpath, ← hnar, ← hsize, ← hrefs, ← hca]
  exact hab ▸ hb

/-- So no two rows hash alike unless two of the attestations do. -/
theorem collisionFree_unsigned {l : List Attestation} (hl : ∀ a ∈ l, a.sigs = [])
    (hinj : ∀ a ∈ l, ∀ b ∈ l, attestationHash cd a = attestationHash cd b → a = b) :
    CollisionFree cd l :=
  fun a b _ _ ha hb =>
    hinj a (mem_of_stems_unsigned hl ha) b (mem_of_stems_unsigned hl hb)

/-- One fact under two signatures, learned apart. -/
def signedOnce : Attestation := .ofBytes 98 5 [[1]]

@[inherit_doc signedOnce]
def signedAgain : Attestation := .ofBytes 98 5 [[2]]

/-- The rows the two can make have four signature lists. -/
theorem sigs_of_stems {a : Attestation} (hc : Canonical a)
    (hs : Stems [signedOnce, signedAgain] a) :
    ∃ l ∈ [[], [[1]], [[2]], [[1], [2]]], a = { signedOnce with sigs := l } := by
  have hsigs : ∀ s ∈ a.sigs, s = [1] ∨ s = [2] := by
    intro s hsa
    obtain ⟨c, hc, hsc⟩ := hs.sigs s hsa
    rcases List.mem_pair.mp hc with rfl | rfl
    · exact Or.inl (List.mem_singleton.mp hsc)
    · exact Or.inr (List.mem_singleton.mp hsc)
  have hshape : ∃ l ∈ [[], [[1]], [[2]], [[1], [2]]], a.sigs = (l : List Bytes) := by
    have hpick : ∀ l : List Bytes, Ascending l → (∀ s, s ∈ a.sigs ↔ s ∈ l) → a.sigs = l :=
      fun l hl hmem => hc.eq_of_mem_iff hl hmem
    by_cases h₁ : ([1] : Bytes) ∈ a.sigs <;> by_cases h₂ : ([2] : Bytes) ∈ a.sigs
    · refine ⟨[[1], [2]], by decide, hpick _ (by decide) fun s => ⟨fun h => ?_, fun h => ?_⟩⟩
      · exact List.mem_pair.mpr (hsigs s h)
      · rcases List.mem_pair.mp h with rfl | rfl <;> assumption
    · refine ⟨[[1]], by decide, hpick _ (by decide) fun s => ⟨fun h => ?_, fun h => ?_⟩⟩
      · rcases hsigs s h with rfl | rfl
        · exact List.mem_singleton_self _
        · exact absurd h h₂
      · exact List.mem_singleton.mp h ▸ h₁
    · refine ⟨[[2]], by decide, hpick _ (by decide) fun s => ⟨fun h => ?_, fun h => ?_⟩⟩
      · rcases hsigs s h with rfl | rfl
        · exact absurd h h₁
        · exact List.mem_singleton_self _
      · exact List.mem_singleton.mp h ▸ h₂
    · refine ⟨[], by decide, hpick _ (by decide) fun s => ⟨fun h => ?_, fun h => ?_⟩⟩
      · rcases hsigs s h with rfl | rfl <;> contradiction
      · exact (List.not_mem_nil h).elim
  obtain ⟨l, hl, hal⟩ := hshape
  refine ⟨l, hl, hc.ext (b := { signedOnce with sigs := l }) ?_ ?_ ?_⟩
  · rw [Canonical, ← hal]
    exact hc
  · obtain ⟨b, hb, hnar, -⟩ := hs.body
    rcases List.mem_pair.mp hb with rfl | rfl <;> exact hnar.symm
  · obtain ⟨b, hb, -, hbody⟩ := hs.body
    refine Prod.ext ?_ (congrArg List.toFinset hal)
    rcases List.mem_pair.mp hb with rfl | rfl <;> exact hbody.symm

/-- The two do not collide under the hand-run codec. -/
theorem collisionFree_signed : CollisionFree Codec.plain [signedOnce, signedAgain] := by
  intro a b ha hb hsa hsb hhash
  obtain ⟨l, hl, rfl⟩ := sigs_of_stems ha hsa
  obtain ⟨l', hl', rfl⟩ := sigs_of_stems hb hsb
  have hall : ∀ l ∈ [[], [[1]], [[2]], [[1], [2]]], ∀ l' ∈ [[], [[1]], [[2]], [[1], [2]]],
      attestationHash Codec.plain { signedOnce with sigs := l }
        = attestationHash Codec.plain { signedOnce with sigs := l' } → l = l' := by
    decide +kernel
  rw [hall l hl l' hl' hhash]

/-- Both halves at work: the two attestations merged in one order and
the other, and two stores exchanging them. -/
theorem merge_is_join_signed :
    SameFacts Codec.plain (Store.mergeBatches Codec.plain {} [[signedOnce], [signedAgain]])
        (Store.mergeBatches Codec.plain {} [[signedAgain, signedOnce, signedOnce]])
      ∧ ∃ m m' : Machine, m.store.holdsRow signedOnce ∧ m'.store.holdsRow signedAgain
        ∧ SameFacts Codec.plain (m.store.mergeBatches Codec.plain [[signedAgain]])
            (m'.store.mergeBatches Codec.plain [[signedOnce]]) := by
  obtain ⟨horder, hexchange⟩ := merge_is_join Codec.plain
  refine ⟨horder _ _ (fun a => ?_) collisionFree_signed, ?_⟩
  · simp only [List.flatten_cons, List.flatten_nil, List.append_nil, List.mem_append,
      List.mem_cons, List.not_mem_nil, or_false]
    tauto
  have hone : ∀ a : Attestation, ((storeSystem Codec.plain).run {}
        [.call 0 (.mergeAttestations [a]), .read 0, .commit 0, .fold 0]).map
          (fun m => decide (m.tasks = ∅ ∧ m.store.db.att.entries.map Prod.snd = [a]))
        = some true →
      ∃ m, (storeSystem Codec.plain).Reach m ∧ m.tasks = ∅
        ∧ ∀ b, b ∈ [[a]].flatten ↔ m.store.holdsRow b := by
    intro a hrun
    obtain ⟨m, hm, hdone⟩ := Option.map_eq_some_iff.mp hrun
    obtain ⟨hidle, hrows⟩ := of_decide_eq_true hdone
    refine ⟨m, (System.Reach.start rfl).run hm, hidle, fun b => ?_⟩
    rw [show [[a]].flatten = m.store.db.att.entries.map Prod.snd from hrows.symm,
      List.mem_map]
    constructor
    · rintro ⟨⟨k, c⟩, hmem, rfl⟩
      exact ⟨k, OrdMap.mem_entries.mp hmem⟩
    · rintro ⟨k, hk⟩
      exact ⟨(k, b), OrdMap.mem_entries.mpr hk, rfl⟩
  obtain ⟨m, hm, hidle, hrows⟩ := hone signedOnce (by decide +kernel)
  obtain ⟨m', hm', hidle', hrows'⟩ := hone signedAgain (by decide +kernel)
  exact ⟨m, m', (hrows _).mp (by simp), (hrows' _).mp (by simp),
    hexchange m m' hm hidle hm' hidle' _ _ hrows hrows' collisionFree_signed⟩

end Narshare
