/-
Both backends refine the catalog.

# How a state is read

`Store.Refines s l` and `Pg.Refines p l` read the tables of a backend as
the catalog `l`: clocks, journal and possession as replicas, watermarks
with 0 for a missing row, and the fact tables in the representation of
each (`Rep` with exact aggregates, `PgFacts.Holds`).

The clock, journal and possession tables of the shared store have the
very shape of the embedded one's, less the mirror. `Pg.asDb` says so,
and what is known of reading such tables is used for both.

# One call

`Store.Refines.step` and `Pg.Refines.step` are the two simulations, put
together from one lemma for each call: the backend answers as the catalog
does and ends in a state that reads as the catalog it ends in. Both need that facts do not
collide, because both backends take a row whose hash has not changed for
one that has not changed. Only the shared store needs the invariant of
the catalog: its compaction deletes through the floor, from no tail.
-/
import Narshare.Store.Catalog
import Narshare.Store.Join
import Narshare.Store.Upsert

namespace Narshare

variable (cd : Codec)

-- ==================================================================== calls

/-- A call of the embedded store: what it answers, or `true` where it
answers nothing, and what it leaves. -/
def Store.call (s : Store) : RawOp → Option (Bool × Store)
  | .applyEvents o expect set journal holds attests =>
      some (s.applyEvents cd o expect set journal holds attests)
  | .mergeAttestations attests => some (true, (s.mergeAttestations cd attests).2)
  | .setGeneration o generation => some (true, s.setGeneration o generation)
  | .replaceHoldings o generation seq held order =>
      if order.Perm (replaceOps s.db o held) then
        some (if staleSnapshot (s.db.clock o) generation seq then (false, s)
          else (true, { s with
            db := s.db.writeAll (replaceBatches s.db o generation seq order) }))
      else none
  | .compactJournal o floor => some (true, s.compactJournal o floor)
  | .retainOrigins keep => some (true, s.retainOrigins keep)
  | .advanceWatermark peer o seq => some (true, s.advanceWatermark peer o seq)

/-- The same call of the shared store, whose process has its own order
for the changes of a replacement. -/
def Pg.call (p : Pg) (order : List HoldOp) : RawOp → Option (Bool × Pg)
  | .applyEvents o expect set journal holds attests =>
      some (p.applyEvents cd o expect set journal holds attests)
  | .mergeAttestations attests => some (true, (p.mergeAttestations cd attests).2)
  | .setGeneration o generation => some (true, p.setGeneration o generation)
  | .replaceHoldings o generation seq held _ =>
      if order.Perm (p.replaceOps o held) then some (p.replaceHoldings o generation seq order)
      else none
  | .compactJournal o floor => some (true, p.compactJournal o floor)
  | .retainOrigins keep => some (true, p.retainOrigins keep)
  | .advanceWatermark peer o seq => some (true, p.advanceWatermark peer o seq)

/-- The tables both backends have, as the embedded store's. -/
def Pg.asDb (p : Pg) : Db :=
  { clocks := p.clocks, journal := p.journal, hold := p.holdingRows, wm := p.watermarkRows }

/-- The tables of the embedded store read as a catalog. -/
structure Store.Refines (s : Store) (l : Catalog) : Prop where
  known : ∀ o, (s.db.clocks.get o).isSome = l.known o
  replica : ∀ o, s.db.replica o = l.replica o
  marks : ∀ peer o, s.db.watermark peer o = l.marks peer o
  rep : Rep cd s.db l.facts
  tracks : s.agg.Tracks s.db
  mirrored : s.db.Mirrored

/-- The tables of the shared store read as a catalog. -/
structure Pg.Refines (p : Pg) (l : Catalog) : Prop where
  known : ∀ o, (p.clocks.get o).isSome = l.known o
  replica : ∀ o, p.asDb.replica o = l.replica o
  marks : ∀ peer o, p.watermark peer o = l.marks peer o
  facts : p.facts.Holds cd l.facts

variable {cd}

-- ======================================================= the embedded store

/-- What a table holds and what is about to be merged into it both stem
from everything handed over by then. -/
theorem Catalog.Inv.stems_append {l : Catalog} {taken : List Attestation} (h : l.Inv taken)
    (attests : List Attestation) :
    (∀ pk a, l.facts.rows.get pk = some a → Stems (taken ++ attests) a)
      ∧ ∀ a ∈ attests, Stems (taken ++ attests) a :=
  ⟨fun pk a ha => (h.stems pk a ha).mono fun _ => List.mem_append_left _,
    fun _ ha => .of_mem (List.mem_append_right _ ha)⟩

/-- An origin written is known, and no other becomes so. -/
theorem known_write_single {db : Db} {b : Batch} {o : Origin} {c : Clock}
    (h : b.clocks = [(o, some c)]) (o' : Origin) :
    ((db.write b).clocks.get o').isSome
      = if o' = o then true else (db.clocks.get o').isSome := by
  rw [Db.write, h, OrdMap.setAll_cons, OrdMap.setAll_nil, OrdMap.get_set]
  split <;> rfl

namespace Store.Refines

variable {s : Store} {l : Catalog}

theorem empty : Refines cd {} {} where
  known _ := rfl
  replica _ := rfl
  marks _ _ := rfl
  rep := Rep.empty cd
  tracks := tracks_empty
  mirrored := Db.mirrored_empty

/-- Batches without facts that pair their possession rows keep what is
said of facts and of the mirror. -/
theorem bulk (h : s.Refines cd l) (bs : List Batch) (hnf : ∀ b ∈ bs, b.NoFacts)
    (hp : ∀ b ∈ bs, b.Paired) {l' : Catalog} (hfacts : l'.facts = l.facts)
    (hknown : ∀ o, ((s.db.writeAll bs).clocks.get o).isSome = l'.known o)
    (hreplica : ∀ o, (s.db.writeAll bs).replica o = l'.replica o)
    (hmarks : ∀ peer o, (s.db.writeAll bs).watermark peer o = l'.marks peer o) :
    Refines cd { s with db := s.db.writeAll bs } l' := by
  have hrep : Rep cd (s.db.writeAll bs) l.facts ∧ (s.db.writeAll bs).attPath = s.db.attPath := by
    refine List.foldlRecOn bs Db.write
      (motive := fun db : Db => Rep cd db l.facts ∧ db.attPath = s.db.attPath)
      ⟨h.rep, rfl⟩ fun db hdb b hb => ?_
    refine ⟨hdb.1.write_noFacts (hnf b hb), ?_⟩
    rw [Db.write, (hnf b hb).attPath, OrdMap.setAll_nil]
    exact hdb.2
  refine ⟨hknown, hreplica, hmarks, hfacts ▸ hrep.1, fun n => ?_, h.mirrored.writeAll hp⟩
  refine (h.tracks n).trans ?_
  rw [hrep.2]

/-- An origin's rows written by batches that have a clock for it at their
end. -/
theorem write (h : s.Refines cd l) (bs : List Batch) (hnf : ∀ b ∈ bs, b.NoFacts)
    (hp : ∀ b ∈ bs, b.Paired) (hwm : ∀ b ∈ bs, b.wm = []) {o : Origin} {r : Replica}
    (hknown : ∀ o', ((s.db.writeAll bs).clocks.get o').isSome
      = if o' = o then true else (s.db.clocks.get o').isSome)
    (hreplica : ∀ o', (s.db.writeAll bs).replica o' = if o' = o then r else s.db.replica o') :
    Refines cd { s with db := s.db.writeAll bs } (l.write o r) := by
  refine h.bulk bs hnf hp rfl (fun o' => ?_) (fun o' => ?_) fun peer o' => ?_
  · rw [hknown, Catalog.write_known, h.known]
  · rw [hreplica, Catalog.write_replica, h.replica]
  · unfold Db.watermark
    rw [wm_writeAll bs hwm]
    exact h.marks peer o'

/-- The same of a single batch with one clock, and with nothing of
possession, facts or marks that it would have to answer for. -/
theorem write_one (h : s.Refines cd l) {b : Batch} (hnf : b.NoFacts) (hp : b.Paired)
    (hwm : b.wm = []) {o : Origin} {c : Clock} {r : Replica} (hclocks : b.clocks = [(o, some c)])
    (hreplica : ∀ o', (s.db.write b).replica o' = if o' = o then r else s.db.replica o') :
    Refines cd { s with db := s.db.write b } (l.write o r) :=
  h.write [b] (List.forall_mem_singleton.mpr hnf) (List.forall_mem_singleton.mpr hp)
    (List.forall_mem_singleton.mpr hwm) (known_write_single hclocks) hreplica

/-- An origin's clock is the one of its copy. -/
theorem clock_eq (h : s.Refines cd l) (o : Origin) : s.db.clock o = (l.replica o).clock :=
  congrArg Replica.clock (h.replica o)

section Steps

variable {s' : Store} {answer : Bool}

/-- Events of an origin: refused at another clock, otherwise its rows and the
facts in one batch. -/
theorem step_applyEvents {o : Origin} {expect set : ℕ × ℕ}
    {journal : List (ℕ × Event)} {holds : List HoldOp} {attests : List Attestation}
    {taken : List Attestation} (h : s.Refines cd l) (hinv : l.Inv taken)
    (hcf : CollisionFree cd (taken ++ attests))
    (hs : s.call cd (.applyEvents o expect set journal holds attests) = some (answer, s')) :
    (l.step (.applyEvents o expect set journal holds attests)).1 = answer
      ∧ s'.Refines cd (l.step (.applyEvents o expect set journal holds attests)).2 := by
  obtain ⟨hstems, hin⟩ := hinv.stems_append attests
  rw [Store.call, Option.some.injEq] at hs
  rw [Catalog.step, ← h.clock_eq]
  simp only
  split
  next hne =>
    rw [Store.applyEvents, if_pos hne] at hs
    cases hs
    exact ⟨rfl, h⟩
  next heq =>
    rw [not_not] at heq
    have hok := congrArg Prod.fst hs
    have hs' := congrArg Prod.snd hs
    have hanswer : true = answer := by
      refine Eq.trans ?_ hok
      rw [Store.applyEvents, if_neg (not_not.mpr heq)]
    subst hanswer
    simp only at hs'
    subst hs'
    refine ⟨rfl, ?_, ?_, ?_, ?_, h.rep.tracks_applyEvents h.tracks o expect set journal holds
      attests, h.mirrored.applyEvents o expect set journal holds attests⟩
    · intro o'
      have hb : (eventsBatch (s.db.clock o) o set journal holds
          ++ movesBatch cd (mergeAtts cd s.db attests)).clocks
          = [(o, some ⟨set.1, set.2, (s.db.clock o).tailSeq⟩)] := by
        rw [Batch.append_clocks, (Batch.factsOnly_movesBatch cd _).clocks]
        rfl
      rw [Store.applyEvents, if_neg (not_not.mpr heq)]
      refine (known_write_single hb o').trans ?_
      rw [h.known]
      rfl
    · intro o'
      have hrun := (replica_applyEvents cd (Prod.ext hok rfl :
        s.applyEvents cd o expect set journal holds attests = (true, _)) o').2
      rw [hrun, h.replica, h.replica]
      rfl
    · intro peer o'
      unfold Db.watermark
      rw [wm_applyEvents]
      exact h.marks peer o'
    · subst heq
      exact h.rep.applyEvents hcf hstems hin o set journal holds

/-- Facts alone: a merge is one batch of the fact families. -/
theorem step_mergeAttestations {attests : List Attestation}
    {taken : List Attestation} (h : s.Refines cd l) (hinv : l.Inv taken)
    (hcf : CollisionFree cd (taken ++ attests))
    (hs : s.call cd (.mergeAttestations attests) = some (answer, s')) :
    (l.step (.mergeAttestations attests)).1 = answer
      ∧ s'.Refines cd (l.step (.mergeAttestations attests)).2 := by
  obtain ⟨hstems, hin⟩ := hinv.stems_append attests
  cases hs
  refine ⟨rfl, ?_, fun o' => ?_, ?_, h.rep.mergeAttestations hcf hstems hin,
    h.rep.tracks_mergeAttestations h.tracks attests, ?_⟩
  · intro o'
    rw [Store.mergeAttestations_db, Db.write, (Batch.factsOnly_movesBatch cd _).clocks]
    exact h.known o'
  · exact (replica_mergeAttestations cd s attests o').trans (h.replica o')
  · intro peer o'
    rw [Store.mergeAttestations_db]
    unfold Db.watermark
    rw [Db.write, (Batch.factsOnly_movesBatch cd _).wm]
    exact h.marks peer o'
  · rw [Store.mergeAttestations_db]
    exact h.mirrored.write (Batch.factsOnly_movesBatch cd _).paired

/-- A generation set is one clock row. -/
theorem step_setGeneration {o : Origin} {generation : ℕ} (h : s.Refines cd l)
    (hs : s.call cd (.setGeneration o generation) = some (answer, s')) :
    (l.step (.setGeneration o generation)).1 = answer
      ∧ s'.Refines cd (l.step (.setGeneration o generation)).2 := by
  cases hs
  refine ⟨rfl, ?_⟩
  have hrun := replica_setGeneration s o generation
  rw [h.replica o] at hrun
  exact h.write_one ⟨rfl, rfl, rfl⟩ (.of_nil rfl rfl) rfl rfl hrun

/-- A snapshot: none if it is stale, otherwise the origin's rows anew. -/
theorem step_replaceHoldings {o : Origin} {generation seq : ℕ} {held : List NarHash}
    {order : List HoldOp} (h : s.Refines cd l)
    (hs : s.call cd (.replaceHoldings o generation seq held order) = some (answer, s')) :
    (l.step (.replaceHoldings o generation seq held order)).1 = answer
      ∧ s'.Refines cd (l.step (.replaceHoldings o generation seq held order)).2 := by
  rw [Store.call] at hs
  split at hs
  next hperm =>
    rw [Catalog.step, ← h.clock_eq]
    rw [Option.some.injEq] at hs
    split at hs
    next hstale =>
      cases hs
      rw [if_pos hstale]
      exact ⟨rfl, h⟩
    next hfresh =>
      cases hs
      rw [if_neg hfresh]
      refine ⟨rfl, h.write _ (noFacts_replaceBatches _ o generation seq order)
        (paired_replaceBatches _ o generation seq order)
        (wm_replaceBatches _ o generation seq order) (fun o' => ?_)
        (replica_writeAll_replaceBatches generation seq hperm)⟩
      rw [writeAll_replaceBatches, known_write_single rfl,
        (writeAll_applyHolds_frame s.db o _).1]
  next => cases hs

/-- Compaction up to the tail or below is an empty batch; above it, the new
tail and the rows it passes are one batch. -/
theorem step_compactJournal {o : Origin} {floor : ℕ} (h : s.Refines cd l)
    (hs : s.call cd (.compactJournal o floor) = some (answer, s')) :
    (l.step (.compactJournal o floor)).1 = answer
      ∧ s'.Refines cd (l.step (.compactJournal o floor)).2 := by
  cases hs
  rw [Catalog.step, ← h.clock_eq]
  simp only
  refine ⟨trivial, ?_⟩
  have hrun := replica_compactJournal s o floor
  rw [Store.compactJournal] at hrun ⊢
  by_cases hle : floor ≤ (s.db.clock o).tailSeq
  · have hb : compactBatch s.db o floor = {} := by rw [compactBatch, if_pos hle]
    rw [if_pos hle, hb]
    exact h
  · rw [if_neg hle]
    obtain ⟨journal, hb⟩ : ∃ journal, compactBatch s.db o floor
        = { journal := journal, clocks := [(o, some { s.db.clock o with tailSeq := floor })] } :=
      ⟨_, by rw [compactBatch, if_neg hle]⟩
    rw [hb, h.replica o] at hrun
    rw [hb]
    exact h.write_one ⟨rfl, rfl, rfl⟩ (.of_nil rfl rfl) rfl rfl hrun

/-- Origins that are not kept lose their clock, rows and marks. -/
theorem step_retainOrigins {keep : List Origin} (h : s.Refines cd l)
    (hs : s.call cd (.retainOrigins keep) = some (answer, s')) :
    (l.step (.retainOrigins keep)).1 = answer
      ∧ s'.Refines cd (l.step (.retainOrigins keep)).2 := by
  cases hs
  have hdeparted : ∀ o, o ∈ (s.db.clocks.keys.filter fun o => decide (o ∉ keep))
      ↔ l.known o = true ∧ o ∉ keep := by
    intro o
    rw [List.mem_filter, OrdMap.mem_keys, h.known, decide_eq_true_eq]
  refine ⟨rfl, h.bulk _ (noFacts_retainBatches _ keep) (paired_retainBatches _ keep) rfl
    (fun o => ?_) (fun o => ?_) fun peer o => ?_⟩
  · rw [retainBatches_eq, clocks_retainIn]
    show _ = if l.known o = true ∧ o ∉ keep then false else l.known o
    by_cases hd : l.known o = true ∧ o ∉ keep
    · rw [if_pos ((hdeparted o).mpr hd), if_pos hd]
      rfl
    · rw [if_neg fun hmem => hd ((hdeparted o).mp hmem), if_neg hd]
      exact h.known o
  · rw [retainBatches_eq, replica_writeAll_retainIn]
    show _ = if l.known o = true ∧ o ∉ keep then Replica.blank else l.replica o
    by_cases hd : l.known o = true ∧ o ∉ keep
    · rw [if_pos ((hdeparted o).mpr hd), if_pos hd]
      rfl
    · rw [if_neg fun hmem => hd ((hdeparted o).mp hmem), if_neg hd]
      exact h.replica o
  · unfold Db.watermark
    rw [retainBatches_eq, wm_retainIn]
    show _ = if peer ∈ keep ∧ o ∈ keep then l.marks peer o else 0
    have hgoes : toLex (peer, o) ∈ (s.db.wm.keys.filter fun k =>
          decide ((ofLex k).1 ∉ keep) || decide ((ofLex k).2 ∉ keep))
        ↔ (s.db.wm.get (toLex (peer, o))).isSome = true ∧ ¬ (peer ∈ keep ∧ o ∈ keep) := by
      rw [List.mem_filter, OrdMap.mem_keys, Bool.or_eq_true, decide_eq_true_eq,
        decide_eq_true_eq, not_and_or]
      rfl
    by_cases hk : peer ∈ keep ∧ o ∈ keep
    · rw [if_neg fun hmem => (hgoes.mp hmem).2 hk, if_pos hk]
      exact h.marks peer o
    · rw [if_neg hk]
      cases hget : s.db.wm.get (toLex (peer, o)) with
      | none => split <;> rfl
      | some n =>
          rw [if_pos (hgoes.mpr ⟨by rw [hget]; rfl, hk⟩)]
          rfl

/-- A mark that does not rise is not written, which the maximum of the catalog
says too. -/
theorem step_advanceWatermark {peer o : Origin} {seq : ℕ} (h : s.Refines cd l)
    (hs : s.call cd (.advanceWatermark peer o seq) = some (answer, s')) :
    (l.step (.advanceWatermark peer o seq)).1 = answer
      ∧ s'.Refines cd (l.step (.advanceWatermark peer o seq)).2 := by
  cases hs
  refine ⟨rfl, ?_⟩
  rw [Store.advanceWatermark]
  split
  next hgt =>
    refine h.bulk [_] (List.forall_mem_singleton.mpr ⟨rfl, rfl, rfl⟩)
      (List.forall_mem_singleton.mpr (.of_nil rfl rfl)) rfl h.known h.replica fun peer' o' => ?_
    show ((s.db.wm.set (toLex (peer, o)) (some seq)).get (toLex (peer', o'))).getD 0
      = if peer' = peer ∧ o' = o then max (l.marks peer' o') seq else l.marks peer' o'
    rw [OrdMap.get_set, ← h.marks]
    by_cases hk : peer' = peer ∧ o' = o
    · obtain ⟨rfl, rfl⟩ := hk
      rw [if_pos rfl, if_pos ⟨rfl, rfl⟩]
      exact (max_eq_right (le_of_lt hgt)).symm
    · rw [if_neg fun he => hk (Prod.ext_iff.mp (toLex_inj.mp he)), if_neg hk]
      rfl
  next hle =>
    refine ⟨h.known, h.replica, fun peer' o' => ?_, h.rep, h.tracks, h.mirrored⟩
    show _ = if peer' = peer ∧ o' = o then max (l.marks peer' o') seq else l.marks peer' o'
    rw [h.marks]
    split
    next hk =>
      obtain ⟨rfl, rfl⟩ := hk
      rw [h.marks] at hle
      exact (max_eq_left (not_lt.mp hle)).symm
    next => rfl

end Steps

/-- The embedded store simulates the catalog. -/
theorem step {s' : Store} {taken : List Attestation} {op : RawOp} {answer : Bool}
    (h : s.Refines cd l) (hinv : l.Inv taken) (hcf : CollisionFree cd (taken ++ op.attests))
    (hs : s.call cd op = some (answer, s')) :
    (l.step op).1 = answer ∧ s'.Refines cd (l.step op).2 := by
  cases op with
  | applyEvents o expect set journal holds attests => exact h.step_applyEvents hinv hcf hs
  | mergeAttestations attests => exact h.step_mergeAttestations hinv hcf hs
  | setGeneration o generation => exact h.step_setGeneration hs
  | replaceHoldings o generation seq held order => exact h.step_replaceHoldings hs
  | compactJournal o floor => exact h.step_compactJournal hs
  | retainOrigins keep => exact h.step_retainOrigins hs
  | advanceWatermark peer o seq => exact h.step_advanceWatermark hs

end Store.Refines

-- ========================================================= the shared store

namespace Pg

variable {p : Pg} {o : Origin}

/-- Locking an origin's clock reads it, and one that is not there reads as
zeros. -/
theorem lockClock_fst (p : Pg) (o : Origin) : (p.lockClock o).1 = p.clock o := by
  rw [lockClock, clock]
  cases p.clocks.get o with
  | none => rfl
  | some c => rfl

/-- The lock leaves at most a clock row, and that is overwritten. -/
theorem lockClock_snd (p : Pg) (o : Origin) :
    ∃ clocks, (p.lockClock o).2 = { p with clocks := clocks }
      ∧ ∀ c, clocks.put o c = p.clocks.put o c := by
  rw [lockClock]
  cases p.clocks.get o with
  | none => exact ⟨p.clocks.put o {}, rfl, fun c => OrdMap.set_set _ _ _ _⟩
  | some c => exact ⟨p.clocks, rfl, fun _ => rfl⟩

/-- A merge is no more than its facts. -/
theorem mergeAttestations_snd (p : Pg) (attests : List Attestation) :
    (p.mergeAttestations cd attests).2 = { p with facts := p.facts.mergeAll cd attests } := by
  have hfold : ∀ st : ℕ × PgFacts,
      (attests.foldl (fun (st : ℕ × PgFacts) a =>
        let out := st.2.mergeAtt cd a
        (st.1 + if out.1 then 1 else 0, out.2)) st).2 = st.2.mergeAll cd attests := by
    induction attests with
    | nil => exact fun _ => rfl
    | cons a attests ih => exact fun st => ih _
  rw [mergeAttestations, hfold]

/-- The changes of a replacement are the same differences. -/
theorem replaceOps_eq (p : Pg) (o : Origin) (held : List NarHash) :
    p.replaceOps o held = Narshare.replaceOps p.asDb o held := by
  rw [replaceOps, Narshare.replaceOps]
  congr 2
  refine List.filter_congr fun h _ => ?_
  rw [Bool.eq_iff_iff, decide_eq_true_eq, Bool.not_eq_true']
  have hmem : h ∈ p.holdings o ↔ p.asDb.isHeld o h = true := @mem_holdings p.asDb o h
  rw [hmem, Bool.not_eq_true]

-- ============================================================= rows in a loop

/-- Journal rows inserted one by one. -/
theorem get_journalPuts (o : Origin) (journal : List (ℕ × Event))
    (rows : OrdMap (Origin ×ₗ ℕ) Event) (o' : Origin) (n : ℕ) :
    (journal.foldl (fun rows e => rows.put (toLex (o, e.1)) e.2) rows).get (toLex (o', n))
      = if o' = o then journal.foldl (fun b e => if e.1 = n then some e.2 else b)
          (rows.get (toLex (o', n)))
        else rows.get (toLex (o', n)) := by
  induction journal generalizing rows with
  | nil => exact (ite_self _).symm
  | cons e journal ih =>
      rw [List.foldl_cons, List.foldl_cons, ih, OrdMap.get_put]
      by_cases ho : o' = o
      · subst ho
        rw [if_pos rfl, if_pos rfl]
        congr 1
        by_cases hn : e.1 = n
        · rw [if_pos hn, if_pos (by rw [hn])]
        · rw [if_neg hn, if_neg fun he => hn (Prod.ext_iff.mp (toLex_inj.mp he)).2.symm]
      · rw [if_neg ho, if_neg ho, if_neg fun he => ho (Prod.ext_iff.mp (toLex_inj.mp he)).1]

/-- Possession changes made one by one. -/
theorem isSome_holdPuts (o : Origin) (ops : List HoldOp)
    (rows : OrdMap (Origin ×ₗ NarHash) Unit) (o' : Origin) (x : NarHash) :
    ((ops.foldl (applyHold o) rows).get (toLex (o', x))).isSome
      = if o' = o then possess ops x (rows.get (toLex (o', x))).isSome
        else (rows.get (toLex (o', x))).isSome := by
  induction ops generalizing rows with
  | nil => exact (ite_self _).symm
  | cons op ops ih =>
      rw [List.foldl_cons, possess_cons, ih]
      by_cases ho : o' = o
      · subst ho
        rw [if_pos rfl, if_pos rfl]
        congr 1
        cases op with
        | add h =>
            rw [applyHold, OrdMap.get_put, HoldOp.on]
            by_cases hx : h = x
            · rw [if_pos hx, if_pos (by rw [hx])]
              rfl
            · rw [if_neg hx, if_neg fun he => hx (Prod.ext_iff.mp (toLex_inj.mp he)).2.symm]
        | drop h =>
            rw [applyHold, OrdMap.get_erase, HoldOp.on]
            by_cases hx : h = x
            · rw [if_pos hx, if_pos (by rw [hx])]
              rfl
            · rw [if_neg hx, if_neg fun he => hx (Prod.ext_iff.mp (toLex_inj.mp he)).2.symm]
      · rw [if_neg ho, if_neg ho]
        have hne : toLex (o', x) ≠ toLex (o, x) := fun he =>
          ho (Prod.ext_iff.mp (toLex_inj.mp he)).1
        cases op with
        | add h =>
            rw [applyHold, OrdMap.get_put, if_neg]
            exact fun he => ho (Prod.ext_iff.mp (toLex_inj.mp he)).1
        | drop h =>
            rw [applyHold, OrdMap.get_erase, if_neg]
            exact fun he => ho (Prod.ext_iff.mp (toLex_inj.mp he)).1

/-- Departed origins leave nothing, and nothing else goes. -/
theorem foldl_retireOne (departed : List Origin) (p : Pg) :
    (∀ o, (departed.foldl retireOne p).clocks.get o
        = if o ∈ departed then none else p.clocks.get o)
      ∧ (∀ o, (departed.foldl retireOne p).asDb.replica o
        = if o ∈ departed then Replica.blank else p.asDb.replica o)
      ∧ (departed.foldl retireOne p).facts = p.facts
      ∧ (departed.foldl retireOne p).watermarkRows = p.watermarkRows := by
  induction departed generalizing p with
  | nil => exact ⟨fun _ => rfl, fun _ => rfl, rfl, rfl⟩
  | cons d departed ih =>
      obtain ⟨hclocks, hreplica, hfacts, hmarks⟩ := ih (p.retireOne d)
      have hclock : ∀ o, (p.retireOne d).clocks.get o = if o = d then none else p.clocks.get o :=
        fun o => OrdMap.get_erase _ _ _
      have hone : ∀ o, (p.retireOne d).asDb.replica o
          = if o = d then Replica.blank else p.asDb.replica o := by
        intro o
        have hjournal : ∀ n, (p.retireOne d).journal.get (toLex (o, n))
            = if o = d then none else p.journal.get (toLex (o, n)) := by
          intro n
          refine (OrdMap.get_filter p.journal (fun k => (ofLex k).1 ≠ d) _).trans ?_
          rw [ofLex_toLex]
          by_cases ho : o = d
          · rw [if_pos ho, if_neg (not_not.mpr ho)]
          · rw [if_neg ho, if_pos ho]
        have hheld : ∀ x, ((p.retireOne d).holdingRows.get (toLex (o, x))).isSome
            = if o = d then false else (p.holdingRows.get (toLex (o, x))).isSome := by
          intro x
          have hfold : (p.retireOne d).holdingRows
              = ((p.holdings d).map HoldOp.drop).foldl (applyHold d) p.holdingRows := by
            rw [List.foldl_map]
            rfl
          rw [hfold, isSome_holdPuts]
          by_cases ho : o = d
          · subst ho
            rw [if_pos rfl, if_pos rfl]
            refine possess_eq_false ?_ ?_
            · cases hx : (p.holdingRows.get (toLex (o, x))).isSome with
              | false => exact Or.inl rfl
              | true =>
                  have hmem : x ∈ p.holdings o := (@mem_holdings p.asDb o x).mpr hx
                  exact Or.inr (List.mem_map_of_mem hmem)
            · intro hadd
              obtain ⟨y, -, hy⟩ := List.mem_map.mp hadd
              cases hy
          · rw [if_neg ho, if_neg ho]
        by_cases ho : o = d
        · rw [if_pos ho]
          apply Replica.ext
          · show ((p.retireOne d).clocks.get o).getD {} = _
            rw [hclock, if_pos ho]
            rfl
          · funext n
            exact (hjournal n).trans (if_pos ho)
          · funext x
            exact (hheld x).trans (if_pos ho)
        · rw [if_neg ho]
          apply Replica.ext
          · show ((p.retireOne d).clocks.get o).getD {} = _
            rw [hclock, if_neg ho]
            rfl
          · funext n
            exact (hjournal n).trans (if_neg ho)
          · funext x
            exact (hheld x).trans (if_neg ho)
      refine ⟨fun o => ?_, fun o => ?_, hfacts, hmarks⟩
      · rw [List.foldl_cons, hclocks, hclock]
        by_cases hd : o = d
        · rw [if_pos hd, ite_self, if_pos (List.mem_cons.mpr (Or.inl hd))]
        · rw [if_neg hd]
          simp only [List.mem_cons, hd, false_or]
      · rw [List.foldl_cons, hreplica, hone]
        by_cases hd : o = d
        · rw [if_pos hd, ite_self, if_pos (List.mem_cons.mpr (Or.inl hd))]
        · rw [if_neg hd]
          simp only [List.mem_cons, hd, false_or]

namespace Refines

variable {l : Catalog}

theorem empty : Refines cd {} {} where
  known _ := rfl
  replica _ := rfl
  marks _ _ := rfl
  facts := PgFacts.Holds.empty

/-- An origin's rows written, and facts with them. -/
theorem write (h : p.Refines cd l) {o : Origin} {r : Replica}
    {journal : OrdMap (Origin ×ₗ ℕ) Event} {rows : OrdMap (Origin ×ₗ NarHash) Unit}
    {f : PgFacts} {t : FactTable}
    (hjournal : ∀ o' n, journal.get (toLex (o', n))
      = if o' = o then r.journal n else p.journal.get (toLex (o', n)))
    (hheld : ∀ o' x, (rows.get (toLex (o', x))).isSome
      = if o' = o then r.held x else (p.holdingRows.get (toLex (o', x))).isSome)
    (hfacts : f.Holds cd t) :
    Refines cd { p with
        clocks := p.clocks.put o r.clock, journal := journal, holdingRows := rows, facts := f }
      { l.write o r with facts := t } where
  known o' := by
    show ((p.clocks.put o r.clock).get o').isSome = if o' = o then true else l.known o'
    rw [OrdMap.get_put]
    split
    · rfl
    · exact h.known o'
  replica o' := by
    show _ = if o' = o then r else l.replica o'
    have hclock : ∀ (c : OrdMap Origin Clock), c = p.clocks.put o r.clock →
        (c.get o').getD {} = if o' = o then r.clock else p.clock o' := by
      rintro c rfl
      rw [OrdMap.get_put]
      split
      · rfl
      · rfl
    by_cases ho : o' = o
    · rw [if_pos ho]
      apply Replica.ext
      · exact (hclock _ rfl).trans (if_pos ho)
      · funext n
        exact (hjournal o' n).trans (if_pos ho)
      · funext x
        exact (hheld o' x).trans (if_pos ho)
    · rw [if_neg ho, ← h.replica]
      apply Replica.ext
      · exact (hclock _ rfl).trans (if_neg ho)
      · funext n
        exact (hjournal o' n).trans (if_neg ho)
      · funext x
        exact (hheld o' x).trans (if_neg ho)
  marks := h.marks
  facts := hfacts

/-- An origin's clock is the one of its copy. -/
theorem clock_eq (h : p.Refines cd l) (o : Origin) : p.clock o = (l.replica o).clock :=
  congrArg Replica.clock (h.replica o)

/-- Its journal rows are those of its copy. -/
theorem journal_eq (h : p.Refines cd l) (o : Origin) (n : ℕ) :
    p.journal.get (toLex (o, n)) = (l.replica o).journal n :=
  congrFun (congrArg Replica.journal (h.replica o)) n

/-- It has a possession row for what its copy holds and for nothing else. -/
theorem held_eq (h : p.Refines cd l) (o : Origin) (x : NarHash) :
    (p.holdingRows.get (toLex (o, x))).isSome = (l.replica o).held x :=
  congrFun (congrArg Replica.held (h.replica o)) x

section Steps

variable {p' : Pg} {order : List HoldOp} {answer : Bool}

/-- Events of an origin, under the lock of its clock; a refusal leaves the
locked row, which reads as before. -/
theorem step_applyEvents {o : Origin} {expect set : ℕ × ℕ}
    {journal : List (ℕ × Event)} {holds : List HoldOp} {attests : List Attestation}
    (h : p.Refines cd l)
    (hfacts : (p.facts.mergeAll cd attests).Holds cd (l.facts.absorbAll attests))
    (hs : p.call cd order (.applyEvents o expect set journal holds attests) = some (answer, p')) :
    (l.step (.applyEvents o expect set journal holds attests)).1 = answer
      ∧ p'.Refines cd (l.step (.applyEvents o expect set journal holds attests)).2 := by
  obtain ⟨clocks, htx, hput⟩ := p.lockClock_snd o
  rw [Pg.call, applyEvents, lockClock_fst, htx, Option.some.injEq] at hs
  rw [Catalog.step, ← h.clock_eq]
  simp only at hs ⊢
  split at hs
  next hne =>
    cases hs
    rw [if_pos hne]
    exact ⟨rfl, h⟩
  next heq =>
    cases hs
    rw [if_neg heq, hput, h.clock_eq]
    refine ⟨rfl, h.write (r := (l.replica o).extend set journal holds) (fun o' n => ?_)
      (fun o' x => ?_) hfacts⟩
    · rw [get_journalPuts]
      by_cases ho : o' = o
      · subst ho
        rw [if_pos rfl, if_pos rfl, h.journal_eq]
        rfl
      · rw [if_neg ho, if_neg ho]
    · rw [isSome_holdPuts]
      by_cases ho : o' = o
      · subst ho
        rw [if_pos rfl, if_pos rfl, h.held_eq]
        rfl
      · rw [if_neg ho, if_neg ho]

theorem step_mergeAttestations {attests : List Attestation} (h : p.Refines cd l)
    (hfacts : (p.facts.mergeAll cd attests).Holds cd (l.facts.absorbAll attests))
    (hs : p.call cd order (.mergeAttestations attests) = some (answer, p')) :
    (l.step (.mergeAttestations attests)).1 = answer
      ∧ p'.Refines cd (l.step (.mergeAttestations attests)).2 := by
  rw [Pg.call, Option.some.injEq] at hs
  obtain rfl : true = answer := congrArg Prod.fst hs
  obtain rfl : _ = p' := congrArg Prod.snd hs
  rw [mergeAttestations_snd]
  exact ⟨rfl, h.known, h.replica, h.marks, hfacts⟩

/-- Here a generation is an upsert, and without a row it inserts one of zeros
under that generation. -/
theorem step_setGeneration {o : Origin} {generation : ℕ} (h : p.Refines cd l)
    (hs : p.call cd order (.setGeneration o generation) = some (answer, p')) :
    (l.step (.setGeneration o generation)).1 = answer
      ∧ p'.Refines cd (l.step (.setGeneration o generation)).2 := by
  cases hs
  have hrow : (p.clocks.get o).elim (⟨generation, 0, 0⟩ : Clock)
      (fun c => { c with generation := generation })
      = ((l.replica o).stamp generation).clock := by
    show _ = ({ (l.replica o).clock with generation := generation } : Clock)
    rw [← h.clock_eq, clock]
    cases p.clocks.get o with
    | none => rfl
    | some c => rfl
  refine ⟨rfl, ?_⟩
  rw [setGeneration, hrow]
  refine h.write (r := (l.replica o).stamp generation) (fun o' n => ?_) (fun o' x => ?_) h.facts
  · split
    next ho => rw [ho]; exact h.journal_eq o n
    next => rfl
  · split
    next ho => rw [ho]; exact h.held_eq o x
    next => rfl

/-- A snapshot, under the same lock: the journal goes, and the difference of
the possession sets is written in the order given. -/
theorem step_replaceHoldings {o : Origin} {generation seq : ℕ} {held : List NarHash}
    {order' : List HoldOp} (h : p.Refines cd l)
    (hs : p.call cd order (.replaceHoldings o generation seq held order') = some (answer, p')) :
    (l.step (.replaceHoldings o generation seq held order')).1 = answer
      ∧ p'.Refines cd (l.step (.replaceHoldings o generation seq held order')).2 := by
  rw [Pg.call] at hs
  split at hs
  next hperm =>
    rw [replaceOps_eq] at hperm
    obtain ⟨clocks, htx, hput⟩ := p.lockClock_snd o
    rw [replaceHoldings, lockClock_fst, htx, Option.some.injEq] at hs
    rw [Catalog.step, ← h.clock_eq]
    simp only at hs ⊢
    split at hs
    next hstale =>
      cases hs
      rw [if_pos hstale]
      exact ⟨rfl, h⟩
    next hfresh =>
      cases hs
      rw [if_neg hfresh, hput]
      refine ⟨rfl, h.write (r := .replace generation seq held) (fun o' n => ?_)
        (fun o' x => ?_) h.facts⟩
      · rw [OrdMap.get_filter, ofLex_toLex]
        by_cases ho : o' = o
        · rw [if_pos ho, if_neg (not_not.mpr ho)]
          rfl
        · rw [if_neg ho, if_pos ho]
      · rw [isSome_holdPuts]
        by_cases ho : o' = o
        · subst ho
          rw [if_pos rfl, if_pos rfl]
          exact possess_replaceOps hperm x
        · rw [if_neg ho, if_neg ho]
  next => cases hs

/-- What lies at or below the old tail is gone already, so that deleting up to
the floor is deleting between them. -/
theorem step_compactJournal {o : Origin} {floor : ℕ}
    (h : p.Refines cd l) {taken : List Attestation} (hinv : l.Inv taken)
    (hs : p.call cd order (.compactJournal o floor) = some (answer, p')) :
    (l.step (.compactJournal o floor)).1 = answer
      ∧ p'.Refines cd (l.step (.compactJournal o floor)).2 := by
  obtain ⟨clocks, htx, hput⟩ := p.lockClock_snd o
  cases hs
  rw [compactJournal, lockClock_fst, htx, Catalog.step, ← h.clock_eq]
  simp only
  refine ⟨trivial, ?_⟩
  split
  next => exact h
  next hgt =>
    rw [hput]
    have htrim := (hinv.trimmed o).low
    rw [← h.clock_eq] at htrim
    have hcompact : (l.replica o).compactTo floor
        = { clock := { p.clock o with tailSeq := floor }
            journal := fun n => if (p.clock o).tailSeq < n ∧ n ≤ floor then none
              else (l.replica o).journal n
            held := (l.replica o).held } := by
      rw [h.clock_eq] at hgt ⊢
      exact Replica.compactTo_of_lt (not_le.mp hgt)
    rw [hcompact]
    refine h.write (r := ⟨{ p.clock o with tailSeq := floor }, _, (l.replica o).held⟩)
      (fun o' n => ?_) (fun o' x => ?_) h.facts
    · rw [OrdMap.get_filter, ofLex_toLex]
      by_cases ho : o' = o
      · subst ho
        rw [if_pos rfl]
        simp only
        -- what lies at or below the tail is gone already
        by_cases hn : n ≤ floor
        · rw [if_neg (not_not.mpr ⟨trivial, hn⟩)]
          by_cases hlow : (p.clock o').tailSeq < n
          · rw [if_pos ⟨hlow, hn⟩]
          · rw [if_neg fun hin => hlow hin.1, htrim n (not_lt.mp hlow)]
        · rw [if_pos fun hin => hn hin.2, if_neg fun hin => hn hin.2]
          exact h.journal_eq o' n
      · rw [if_neg ho, if_pos fun hin => ho hin.1]
    · split
      next ho => rw [ho]; exact h.held_eq o x
      next => rfl

/-- The departed are retired one after the other, with each one's rows, and
then the marks of or for one that is not kept. -/
theorem step_retainOrigins {keep : List Origin} (h : p.Refines cd l)
    (hs : p.call cd order (.retainOrigins keep) = some (answer, p')) :
    (l.step (.retainOrigins keep)).1 = answer
      ∧ p'.Refines cd (l.step (.retainOrigins keep)).2 := by
  cases hs
  obtain ⟨hclocks, hreplica, hsame, hmarks⟩ :=
    foldl_retireOne (p.clocks.keys.filter fun o => decide (o ∉ keep)) p
  have hdeparted : ∀ o, o ∈ (p.clocks.keys.filter fun o => decide (o ∉ keep))
      ↔ l.known o = true ∧ o ∉ keep := by
    intro o
    rw [List.mem_filter, OrdMap.mem_keys, h.known, decide_eq_true_eq]
  refine ⟨rfl, fun o => ?_, fun o => ?_, fun peer o => ?_, hsame ▸ h.facts⟩
  · show ((List.foldl retireOne p _).clocks.get o).isSome
      = if l.known o = true ∧ o ∉ keep then false else l.known o
    rw [hclocks]
    by_cases hd : l.known o = true ∧ o ∉ keep
    · rw [if_pos ((hdeparted o).mpr hd), if_pos hd]
      rfl
    · rw [if_neg fun hmem => hd ((hdeparted o).mp hmem), if_neg hd]
      exact h.known o
  · show _ = if l.known o = true ∧ o ∉ keep then Replica.blank else l.replica o
    refine (hreplica o).trans ?_
    by_cases hd : l.known o = true ∧ o ∉ keep
    · rw [if_pos ((hdeparted o).mpr hd), if_pos hd]
    · rw [if_neg fun hmem => hd ((hdeparted o).mp hmem), if_neg hd]
      exact h.replica o
  · show (((List.foldl retireOne p _).watermarkRows.filter _).get (toLex (peer, o))).getD 0
      = if peer ∈ keep ∧ o ∈ keep then l.marks peer o else 0
    rw [hmarks, OrdMap.get_filter, ofLex_toLex]
    by_cases hk : peer ∈ keep ∧ o ∈ keep
    · rw [if_pos hk, if_pos]
      · exact h.marks peer o
      · exact fun hor => hor.elim (fun hn => hn hk.1) fun hn => hn hk.2
    · rw [if_neg hk, if_neg]
      · rfl
      · rw [not_not]
        exact not_and_or.mp hk

/-- A mark is an upsert to the maximum, so there is a row even where the
embedded store writes none. -/
theorem step_advanceWatermark {peer o : Origin} {seq : ℕ} (h : p.Refines cd l)
    (hs : p.call cd order (.advanceWatermark peer o seq) = some (answer, p')) :
    (l.step (.advanceWatermark peer o seq)).1 = answer
      ∧ p'.Refines cd (l.step (.advanceWatermark peer o seq)).2 := by
  cases hs
  refine ⟨rfl, h.known, h.replica, fun peer' o' => ?_, h.facts⟩
  show ((p.watermarkRows.put (toLex (peer, o)) _).get (toLex (peer', o'))).getD 0
    = if peer' = peer ∧ o' = o then max (l.marks peer' o') seq else l.marks peer' o'
  rw [OrdMap.get_put, ← h.marks]
  by_cases hk : peer' = peer ∧ o' = o
  · obtain ⟨rfl, rfl⟩ := hk
    rw [if_pos rfl, if_pos ⟨rfl, rfl⟩, watermark]
    cases p.watermarkRows.get (toLex (peer', o')) with
    | none => exact (Nat.zero_max seq).symm
    | some cur => rfl
  · rw [if_neg fun he => hk (Prod.ext_iff.mp (toLex_inj.mp he)), if_neg hk]
    rfl

end Steps

/-- The shared store simulates the catalog. -/
theorem step {p' : Pg} {taken : List Attestation} {op : RawOp} {order : List HoldOp}
    {answer : Bool} (h : p.Refines cd l) (hinv : l.Inv taken) (hop : op.Issued l.seq)
    (hcf : CollisionFree cd (taken ++ op.attests))
    (hs : p.call cd order op = some (answer, p')) :
    (l.step op).1 = answer ∧ p'.Refines cd (l.step op).2 := by
  have hfacts : (p.facts.mergeAll cd op.attests).Holds cd (l.facts.absorbAll op.attests) := by
    obtain ⟨hstems, hin⟩ := hinv.stems_append op.attests
    exact h.facts.mergeAll hcf hstems fun a ha =>
      ⟨hin a ha, wellFormed_narHash (hop.admissible a ha).wellFormed⟩
  cases op with
  | applyEvents o expect set journal holds attests => exact h.step_applyEvents hfacts hs
  | mergeAttestations attests => exact h.step_mergeAttestations hfacts hs
  | setGeneration o generation => exact h.step_setGeneration hs
  | replaceHoldings o generation seq held order' => exact h.step_replaceHoldings hs
  | compactJournal o floor => exact h.step_compactJournal hinv hs
  | retainOrigins keep => exact h.step_retainOrigins hs
  | advanceWatermark peer o seq => exact h.step_advanceWatermark hs

end Refines

end Pg

end Narshare
