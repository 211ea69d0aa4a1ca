/-
The store as concurrent tasks see it: every operation cut at the points
where another task's operation can come in between.

# Tasks

An operation locks the stripes of its keys, reads, and commits. A task
is such an operation in flight, with the stripes it holds:

- `merging`: facts are being merged — one identity's row is read at a
  time, and the batch grows in memory;
- `folding`: the batch is in the tables, its hashes are not yet in the
  aggregates;
- `writing`: a bulk operation with batches left to commit.

Operations whose batch is computed under one lock and committed at once
are single steps. `reopen` may come at any moment: it is the process
dying and starting again, so every task is gone and the aggregates are
recomputed from the rows.

# The argument

`Inv` keeps a `FactTable` beside the tables. A move computed by one task
stays good while other tasks commit, because their identities lie on
other stripes; the hashes a commit owes the tree are counted in the
tasks still `folding`. With no task in flight nothing is owed, and what
is left is the representation (Facts.lean) with exact aggregates.
-/
import Mathlib.Data.List.FinRange
import Narshare.Lib.System
import Narshare.Store.Facts

namespace Narshare

variable (cd : Codec)

-- ================================================================ the tasks

/-- Where an operation in flight stands. -/
inductive Phase
  | merging (base : Batch) (todo : List (Bytes × Attestation)) (moves : List Move)
  | folding (delta : List Digest)
  | writing (batches : List Batch)
deriving DecidableEq

/-- An operation in flight and the stripes it holds. -/
structure Task where
  stripes : List (Fin 64)
  phase : Phase
deriving DecidableEq

/-- A call of a store operation. The hash sets `replace_holdings` takes
its differences from have no fixed order, so the call carries the order
its operations come out in. -/
inductive Call
  | applyEvents (o : Origin) (expect set : ℕ × ℕ) (journal : List (ℕ × Event))
      (holds : List HoldOp) (attests : List Attestation)
  | mergeAttestations (attests : List Attestation)
  | replaceHoldings (o : Origin) (generation seq : ℕ) (held : List NarHash)
      (ops : List HoldOp)
  | compactJournal (o : Origin) (floor : ℕ)
  | setGeneration (o : Origin) (generation : ℕ)
  | retainOrigins (keep : List Origin)
  | advanceWatermark (peer o : Origin) (seq : ℕ)

/-- The stripes a call locks. -/
def Call.locks : Call → List (Fin 64)
  | applyEvents o _ _ _ _ attests =>
      stripeOf cd o.val :: attests.map fun a => stripeOf cd (pathKeyOf a)
  | mergeAttestations attests => attests.map fun a => stripeOf cd (pathKeyOf a)
  | replaceHoldings o _ _ _ _ => [stripeOf cd o.val]
  | compactJournal o _ => [stripeOf cd o.val]
  | setGeneration o _ => [stripeOf cd o.val]
  | retainOrigins _ => List.finRange 64
  | advanceWatermark peer o _ => [stripeOf cd (peer.val ++ 0 :: o.val)]

/-- The attestations a call hands over. -/
def Call.attests : Call → List Attestation
  | applyEvents _ _ _ _ _ attests => attests
  | mergeAttestations attests => attests
  | _ => []

/-- The store with its operations in flight. `taken` remembers every
attestation ever handed over; no operation reads it. -/
structure Machine where
  store : Store := {}
  tasks : OrdMap ℕ Task := ∅
  taken : List Attestation := []

namespace Machine

/-- No task holds any of the stripes. -/
def free (m : Machine) (stripes : List (Fin 64)) : Bool :=
  m.tasks.entries.all fun e => e.2.stripes.all fun x => decide (x ∉ stripes)

/-- Start a task under the stripes of its call. -/
def spawn (m : Machine) (id : ℕ) (c : Call) (p : Phase) : Machine :=
  { m with tasks := m.tasks.put id ⟨c.locks cd, p⟩, taken := m.taken ++ c.attests }

/-- A call, once its stripes are locked: what it does before any other
task can come in. -/
def enter (m : Machine) (id : ℕ) (c : Call) : Option Machine :=
  let db := m.store.db
  match c with
  | .applyEvents o expect set journal holds attests =>
      let cur := db.clock o
      if (cur.generation, cur.seq) ≠ expect then some m
      else some (m.spawn cd id c
        (.merging (eventsBatch cur o set journal holds) (coalesce attests).entries []))
  | .mergeAttestations attests =>
      some (m.spawn cd id c (.merging {} (coalesce attests).entries []))
  | .replaceHoldings o generation seq held ops =>
      if staleSnapshot (db.clock o) generation seq then some m
      else if ops.Perm (replaceOps db o held) then
        some (m.spawn cd id c (.writing (replaceBatches db o generation seq ops)))
      else none
  | .compactJournal o floor => some { m with store := m.store.compactJournal o floor }
  | .setGeneration o generation =>
      some { m with store := m.store.setGeneration o generation }
  | .retainOrigins keep => some (m.spawn cd id c (.writing (retainBatches db keep)))
  | .advanceWatermark peer o seq =>
      some { m with store := m.store.advanceWatermark peer o seq }

/-- One step of one task, or a call, or a restart of the process. -/
inductive Act
  | call (id : ℕ) (c : Call)
  | read (id : ℕ)
  | commit (id : ℕ)
  | fold (id : ℕ)
  | write (id : ℕ)
  | reopen

/-- The guarded step. -/
def step (m : Machine) : Act → Option Machine
  | .call id c =>
      if (m.tasks.get id).isNone && m.free (c.locks cd) then m.enter cd id c else none
  | .read id =>
      match m.tasks.get id with
      | some ⟨stripes, .merging base (e :: todo) moves⟩ =>
          let mv := mergeOne cd m.store.db e.1 e.2
          some { m with
            tasks := m.tasks.put id ⟨stripes, .merging base todo (moves ++ mv.toList)⟩ }
      | _ => none
  | .commit id =>
      match m.tasks.get id with
      | some ⟨stripes, .merging base [] moves⟩ =>
          some { m with
            store := { m.store with db := m.store.db.write (base ++ movesBatch cd moves) }
            tasks := m.tasks.put id ⟨stripes, .folding (movesDelta cd moves)⟩ }
      | _ => none
  | .fold id =>
      match m.tasks.get id with
      | some ⟨_, .folding delta⟩ =>
          some { m with
            store := { m.store with agg := m.store.agg.xorAll delta }
            tasks := m.tasks.erase id }
      | _ => none
  | .write id =>
      match m.tasks.get id with
      | some ⟨stripes, .writing (b :: bs)⟩ =>
          some { m with
            store := { m.store with db := m.store.db.write b }
            tasks := if bs = [] then m.tasks.erase id
              else m.tasks.put id ⟨stripes, .writing bs⟩ }
      | _ => none
  | .reopen => some { m with store := m.store.reopen, tasks := ∅ }

end Machine

/-- The store's transition system, from an empty database. -/
def storeSystem : System Machine Machine.Act where
  init m := m = {}
  step m a := m.step cd a

-- ============================================================ the invariant

variable {cd}

/-- What a task in flight has to be like, over the current fact table. -/
def Task.Ok (cd : Codec) (t : FactTable) (taken : List Attestation) (u : Task) : Prop :=
  match u.phase with
  | .merging base todo moves =>
      (base.NoFacts ∧ base.Paired)
        ∧ (∀ e ∈ todo, RowOk e.1 e.2 ∧ Stems taken e.2 ∧ stripeOf cd e.1 ∈ u.stripes)
        ∧ (∀ mv ∈ moves, mv.Ok cd t ∧ Stems taken mv.row ∧ stripeOf cd mv.pathKey ∈ u.stripes)
        ∧ (moves.map Move.pathKey ++ todo.map Prod.fst).Nodup
  | .folding _ => True
  | .writing bs => ∀ b ∈ bs, b.NoFacts ∧ b.Paired

/-- What a task owes a node of the tree. -/
def Task.owes (u : Task) (n : Node) : Digest :=
  match u.phase with
  | .folding delta => (delta.map n.part).sum
  | _ => 0

@[simp] theorem Task.owes_merging (stripes : List (Fin 64)) (base : Batch)
    (todo : List (Bytes × Attestation)) (moves : List Move) (n : Node) :
    (⟨stripes, .merging base todo moves⟩ : Task).owes n = 0 := rfl

@[simp] theorem Task.owes_folding (stripes : List (Fin 64)) (delta : List Digest)
    (n : Node) :
    (⟨stripes, .folding delta⟩ : Task).owes n = (delta.map n.part).sum := rfl

@[simp] theorem Task.owes_writing (stripes : List (Fin 64)) (bs : List Batch) (n : Node) :
    (⟨stripes, .writing bs⟩ : Task).owes n = 0 := rfl

/-- The invariant of the store under concurrent tasks. -/
structure Machine.Inv (cd : Codec) (m : Machine) (t : FactTable) : Prop where
  rep : Rep cd m.store.db t
  stems : ∀ pk a, t.rows.get pk = some a → Stems m.taken a
  mirrored : m.store.db.Mirrored
  excl : ∀ i j u v, m.tasks.get i = some u → m.tasks.get j = some v → i ≠ j →
    ∀ x ∈ u.stripes, x ∉ v.stripes
  tasks : ∀ i u, m.tasks.get i = some u → u.Ok cd t m.taken
  tree : ∀ n : Node, m.store.agg.cell n + (m.tasks.sum fun _ u => u.owes n)
    = m.store.db.attPath.sum fun _ h => n.part h

/-- A task stays good while the rows on its own stripes stay put. -/
theorem Task.Ok.of_rows {t t' : FactTable} {taken taken' : List Attestation} {u : Task}
    (h : u.Ok cd t taken) (hsub : ∀ a ∈ taken, a ∈ taken')
    (hrows : ∀ pk, stripeOf cd pk ∈ u.stripes → t'.rows.get pk = t.rows.get pk) :
    u.Ok cd t' taken' := by
  obtain ⟨stripes, phase⟩ := u
  cases phase with
  | merging base todo moves =>
      obtain ⟨hbase, htodo, hmoves, hnd⟩ := h
      refine ⟨hbase, fun e he => ?_, fun mv hmv => ?_, hnd⟩
      · obtain ⟨hrow, hstem, hstripe⟩ := htodo e he
        exact ⟨hrow, hstem.mono hsub, hstripe⟩
      · obtain ⟨hok, hstem, hstripe⟩ := hmoves mv hmv
        exact ⟨⟨hok.row, by rw [hrows _ hstripe]; exact hok.old, hok.moved⟩,
          hstem.mono hsub, hstripe⟩
  | folding delta => trivial
  | writing bs => exact h

/-- Merging starts with good rows on the call's stripes. -/
theorem Call.merging_ok (c : Call) (t : FactTable) (taken : List Attestation)
    {base : Batch} (hb : base.NoFacts)
    (hp : base.Paired)
    (hlocks : ∀ a ∈ c.attests, stripeOf cd (pathKeyOf a) ∈ c.locks cd) :
    (⟨c.locks cd, .merging base (coalesce c.attests).entries []⟩ : Task).Ok cd t
      (taken ++ c.attests) := by
  refine ⟨⟨hb, hp⟩, fun e he => ?_, fun mv hmv => (List.not_mem_nil hmv).elim, ?_⟩
  · have hrow := rowOk_of_mem_coalesce he
    rw [coalesce_eq] at he
    have hstem : Stems c.attests e.2 := FactTable.stems_absorbAll
      (fun pk a ha => by cases ha) (fun a ha => Stems.of_mem ha) (OrdMap.mem_entries.mp he)
    refine ⟨hrow, hstem.mono fun _ => List.mem_append_right _, ?_⟩
    obtain ⟨b, hb, hnar, hbody⟩ := hstem.body
    have hkey : pathKeyOf b = e.1 := by
      rw [← hrow.key, pathKeyOf, pathKeyOf, hnar]
      have hpath : b.storePath = e.2.storePath := congrArg (fun x => (ofLex x).1) hbody
      rw [hpath]
    exact hkey ▸ hlocks b hb
  · exact (coalesce c.attests).keys_nodup

/-- The locked stripes of a call that found them free are no other
task's. -/
theorem Machine.free_iff {m : Machine} {stripes : List (Fin 64)} :
    m.free stripes = true ↔
      ∀ i u, m.tasks.get i = some u → ∀ x ∈ u.stripes, x ∉ stripes := by
  simp only [Machine.free, List.all_eq_true, decide_eq_true_eq]
  constructor
  · intro h i u hu
    exact h (i, u) (OrdMap.mem_entries.mpr hu)
  · rintro h ⟨i, u⟩ hmem
    exact h i u (OrdMap.mem_entries.mp hmem)

namespace Machine.Inv

variable {m : Machine} {t : FactTable}

theorem init : Inv cd {} FactTable.empty where
  rep := Rep.empty cd
  stems _ _ h := by cases h
  mirrored := Db.mirrored_empty
  excl _ _ _ _ h := by cases h
  tasks _ _ h := by cases h
  tree n := (add_zero _).trans (Aggregates.cell_new n)

/-- Starting a task keeps the invariant when the task is good, owes
nothing and holds free stripes. -/
theorem spawn (h : Inv cd m t) {id : ℕ} {c : Call} {p : Phase}
    (hid : m.tasks.get id = none) (hfree : m.free (c.locks cd) = true)
    (hok : (⟨c.locks cd, p⟩ : Task).Ok cd t (m.taken ++ c.attests))
    (howes : ∀ n, (⟨c.locks cd, p⟩ : Task).owes n = 0) :
    Inv cd (m.spawn cd id c p) t where
  rep := h.rep
  stems pk a ha := (h.stems pk a ha).mono fun _ => List.mem_append_left _
  mirrored := h.mirrored
  excl i j u v hu hv hij := by
    have hfree' := free_iff.mp hfree
    simp only [Machine.spawn, OrdMap.get_put] at hu hv
    split at hu
    next hi =>
      cases hu
      rw [if_neg fun hj => hij (hi.trans hj.symm)] at hv
      exact fun x hx hx' => hfree' j v hv x hx' hx
    next hi =>
      split at hv
      next => cases hv; exact hfree' i u hu
      next => exact h.excl i j u v hu hv hij
  tasks i u hu := by
    simp only [Machine.spawn, OrdMap.get_put] at hu
    split at hu
    next => cases hu; exact hok
    next =>
      exact (h.tasks i u hu).of_rows (fun _ => List.mem_append_left _) fun _ _ => rfl
  tree n := by
    have hsum := m.tasks.sum_set (fun _ u => u.owes n) id (some ⟨c.locks cd, p⟩)
    rw [hid] at hsum
    simp only [Option.elim_none, Option.elim_some, howes, add_zero] at hsum
    exact (congrArg (m.store.agg.cell n + ·) hsum).trans (h.tree n)

/-- Replacing the task `id` by one on the same stripes, with a new table
that leaves every other stripe alone. -/
theorem replaceTask (h : Inv cd m t) {id : ℕ} {u : Task} (hu : m.tasks.get id = some u)
    {db : Db} {agg : Aggregates} {t' : FactTable} {o : Option Task}
    (hrep : Rep cd db t') (hmir : db.Mirrored)
    (hstems : ∀ pk a, t'.rows.get pk = some a → Stems m.taken a)
    (hrows : ∀ pk, stripeOf cd pk ∉ u.stripes → t'.rows.get pk = t.rows.get pk)
    (ho : ∀ u', o = some u' → u'.stripes = u.stripes ∧ u'.Ok cd t' m.taken)
    (htree : ∀ n : Node, agg.cell n + (m.tasks.set id o).sum (fun _ u => u.owes n)
      = db.attPath.sum fun _ h => n.part h) :
    Inv cd { m with store := ⟨db, agg⟩, tasks := m.tasks.set id o } t' where
  rep := hrep
  stems := hstems
  mirrored := hmir
  excl i j v w hv hw hij := by
    simp only [OrdMap.get_set] at hv hw
    split at hv
    next hi =>
      rw [if_neg fun hj => hij (hi.trans hj.symm)] at hw
      rw [(ho v hv).1]
      exact h.excl id j u w hu hw (hi ▸ hij)
    next hi =>
      split at hw
      next hj =>
        rw [(ho w hw).1]
        exact h.excl i id v u hv hu (hj ▸ hij)
      next => exact h.excl i j v w hv hw hij
  tasks i v hv := by
    simp only [OrdMap.get_set] at hv
    split at hv
    next => exact (ho v hv).2
    next hi =>
      refine (h.tasks i v hv).of_rows (fun _ h => h) fun pk hpk => hrows pk ?_
      exact h.excl i id v u hv hu hi _ hpk
  tree := htree

/-- A commit with no fact rows keeps the invariant. -/
theorem writeNoFacts (h : Inv cd m t) {b : Batch} (hb : b.NoFacts) (hp : b.Paired) :
    Inv cd { m with store := { m.store with db := m.store.db.write b } } t where
  rep := h.rep.write_noFacts hb
  stems := h.stems
  mirrored := h.mirrored.write hp
  excl := h.excl
  tasks := h.tasks
  tree n := by
    refine (h.tree n).trans ?_
    rw [Db.write, hb.attPath]
    rfl

theorem enter (h : Inv cd m t) {id : ℕ} {c : Call} {m' : Machine}
    (hid : m.tasks.get id = none) (hfree : m.free (c.locks cd) = true)
    (hs : m.enter cd id c = some m') : Inv cd m' t := by
  cases c with
  | applyEvents o expect set journal holds attests =>
      simp only [Machine.enter] at hs
      split at hs
      next => cases hs; exact h
      next =>
        cases hs
        refine h.spawn hid hfree (Call.merging_ok _ t m.taken (Batch.noFacts_eventsBatch ..)
          (Batch.paired_eventsBatch ..) fun a ha => ?_) fun n => rfl
        exact List.mem_cons_of_mem _ (List.mem_map.mpr ⟨a, ha, rfl⟩)
  | mergeAttestations attests =>
      cases hs
      refine h.spawn hid hfree (Call.merging_ok _ t m.taken Batch.noFacts_empty (.of_nil rfl rfl)
        fun a ha => ?_) fun n => rfl
      exact List.mem_map.mpr ⟨a, ha, rfl⟩
  | replaceHoldings o generation seq held ops =>
      simp only [Machine.enter] at hs
      split at hs
      next => cases hs; exact h
      next =>
        split at hs
        next =>
          cases hs
          exact h.spawn hid hfree (fun b hb => ⟨noFacts_replaceBatches _ _ _ _ _ b hb,
            paired_replaceBatches _ _ _ _ _ b hb⟩) fun n => rfl
        next => cases hs
  | compactJournal o floor =>
      cases hs
      refine h.writeNoFacts ?_ ?_
      · simp only [compactBatch]
        split <;> exact ⟨rfl, rfl, rfl⟩
      · simp only [compactBatch]
        split <;> exact .of_nil rfl rfl
  | setGeneration o generation =>
      cases hs
      exact h.writeNoFacts ⟨rfl, rfl, rfl⟩ (.of_nil rfl rfl)
  | retainOrigins keep =>
      cases hs
      exact h.spawn hid hfree (fun b hb => ⟨noFacts_retainBatches _ _ b hb,
        paired_retainBatches _ _ b hb⟩) fun n => rfl
  | advanceWatermark peer o seq =>
      cases hs
      unfold Store.advanceWatermark
      split
      · exact h.writeNoFacts ⟨rfl, rfl, rfl⟩ (.of_nil rfl rfl)
      · exact h

/-- Reading one identity's row: the move computed from it is good. -/
theorem read (h : Inv cd m t) {id : ℕ} {stripes : List (Fin 64)} {base : Batch}
    {e : Bytes × Attestation} {todo : List (Bytes × Attestation)} {moves : List Move}
    (hu : m.tasks.get id = some ⟨stripes, .merging base (e :: todo) moves⟩) :
    Inv cd { m with
      tasks := m.tasks.put id ⟨stripes,
        .merging base todo (moves ++ (mergeOne cd m.store.db e.1 e.2).toList)⟩ } t := by
  obtain ⟨hbase, htodo, hmoves, hnd⟩ := h.tasks id _ hu
  obtain ⟨hrow, hstem, hstripe⟩ := htodo e List.mem_cons_self
  refine h.replaceTask hu h.rep h.mirrored h.stems (fun _ _ => rfl) ?_ fun n => ?_
  · intro u' hu'
    cases hu'
    refine ⟨rfl, hbase, fun e' he' => htodo e' (List.mem_cons_of_mem _ he'), ?_, ?_⟩
    · intro mv hmv
      rcases List.mem_append.mp hmv with hmv | hmv
      · exact hmoves mv hmv
      · obtain ⟨hpk, hok, hmerged⟩ := h.rep.mergeOne hrow mv (Option.mem_toList.mp hmv)
        refine ⟨hok, ?_, hpk ▸ hstripe⟩
        rw [hmerged]
        cases hg : t.rows.get e.1 with
        | none => exact hstem.canonicalize
        | some cur =>
            exact (h.stems _ _ hg).merged hstem ((t.ok _ _ hg).narHash_eq hrow)
    · cases hm : mergeOne cd m.store.db e.1 e.2 with
      | none =>
          rw [Option.toList_none, List.append_nil]
          exact hnd.sublist ((List.sublist_cons_self _ _).append_left _)
      | some mv =>
          have hpk := (h.rep.mergeOne hrow mv hm).1
          rw [Option.toList_some, List.map_append, List.map_cons, List.map_nil, hpk,
            List.append_assoc]
          exact hnd
  · have hsum := m.tasks.sum_set (fun _ u => u.owes n) id
      (some ⟨stripes, .merging base todo (moves ++ (mergeOne cd m.store.db e.1 e.2).toList)⟩)
    rw [hu] at hsum
    simp only [Option.elim_some, Task.owes_merging, add_zero] at hsum
    exact (congrArg (m.store.agg.cell n + ·) hsum).trans (h.tree n)

/-- Committing a merge: the rows are in, and the task owes the tree
their hashes. -/
theorem commit (h : Inv cd m t) {id : ℕ} {stripes : List (Fin 64)} {base : Batch}
    {moves : List Move} (hu : m.tasks.get id = some ⟨stripes, .merging base [] moves⟩) :
    ∃ t', Inv cd { m with
      store := { m.store with db := m.store.db.write (base ++ movesBatch cd moves) }
      tasks := m.tasks.put id ⟨stripes, .folding (movesDelta cd moves)⟩ } t' := by
  obtain ⟨⟨hnf, hp⟩, -, hmoves, hnd⟩ := h.tasks id _ hu
  rw [List.map_nil, List.append_nil] at hnd
  have hbase := h.rep.write_noFacts hnf
  obtain ⟨t', hrep, hrows⟩ := hbase.write_moves (fun mv hmv => (hmoves mv hmv).1) hnd
  refine ⟨t', h.replaceTask hu ?_ ?_ ?_ ?_ ?_ fun n => ?_⟩
  · rw [Db.write_append]
    exact hrep
  · rw [Db.write_append]
    exact (h.mirrored.write hp).write (Batch.factsOnly_movesBatch cd moves).paired
  · intro pk a ha
    rw [hrows] at ha
    by_cases hpk : ∃ mv ∈ moves, mv.pathKey = pk
    · obtain ⟨mv, hmv, rfl⟩ := hpk
      rw [OrdMap.get_setAll_of_mem (by rw [List.map_map]; exact hnd)
        (List.mem_map.mpr ⟨mv, hmv, rfl⟩)] at ha
      cases ha
      exact (hmoves mv hmv).2.1
    · rw [OrdMap.get_setAll_of_forall_ne] at ha
      · exact h.stems pk a ha
      · intro w hw
        obtain ⟨mv, hmv, rfl⟩ := List.mem_map.mp hw
        exact fun he => hpk ⟨mv, hmv, he⟩
  · intro pk hpk
    rw [hrows, OrdMap.get_setAll_of_forall_ne]
    intro w hw
    obtain ⟨mv, hmv, rfl⟩ := List.mem_map.mp hw
    rintro rfl
    exact hpk (hmoves mv hmv).2.2
  · intro u' hu'
    cases hu'
    exact ⟨rfl, trivial⟩
  · have hsum := m.tasks.sum_set (fun _ u => u.owes n) id
      (some ⟨stripes, .folding (movesDelta cd moves)⟩)
    rw [hu] at hsum
    simp only [Option.elim_some, Task.owes_merging, Task.owes_folding, add_zero] at hsum
    have hbaseSum : ((m.store.db.write base).attPath.sum fun _ h => n.part h)
        = m.store.db.attPath.sum fun _ h => n.part h := by
      rw [Db.write, hnf.attPath]
      rfl
    rw [Db.write_append, hbase.sum_write_moves (fun mv hmv => (hmoves mv hmv).1) hnd,
      hbaseSum, ← h.tree n, add_assoc, ← hsum]

/-- Folding pays what the task owes. -/
theorem fold (h : Inv cd m t) {id : ℕ} {stripes : List (Fin 64)} {delta : List Digest}
    (hu : m.tasks.get id = some ⟨stripes, .folding delta⟩) :
    Inv cd { m with
      store := { m.store with agg := m.store.agg.xorAll delta }
      tasks := m.tasks.erase id } t := by
  refine h.replaceTask hu h.rep h.mirrored h.stems (fun _ _ => rfl)
    (fun u' hu' => by cases hu') fun n => ?_
  have hsum := m.tasks.sum_set (fun _ u => u.owes n) id none
  rw [hu] at hsum
  simp only [Option.elim_some, Option.elim_none, Task.owes_folding, add_zero] at hsum
  rw [← h.tree n, ← hsum, Aggregates.cell_xorAll]
  rw [add_assoc, add_comm (delta.map n.part).sum]

/-- Committing one more batch of a bulk operation. -/
theorem write (h : Inv cd m t) {id : ℕ} {stripes : List (Fin 64)} {b : Batch}
    {bs : List Batch} (hu : m.tasks.get id = some ⟨stripes, .writing (b :: bs)⟩) :
    Inv cd { m with
      store := { m.store with db := m.store.db.write b }
      tasks := if bs = [] then m.tasks.erase id
        else m.tasks.put id ⟨stripes, .writing bs⟩ } t := by
  have hbs := h.tasks id _ hu
  obtain ⟨hnf, hp⟩ := hbs b List.mem_cons_self
  have hset : (if bs = [] then m.tasks.erase id else m.tasks.put id ⟨stripes, .writing bs⟩)
      = m.tasks.set id (if bs = [] then none else some ⟨stripes, .writing bs⟩) := by
    split <;> rfl
  rw [hset]
  refine h.replaceTask hu (h.rep.write_noFacts hnf) (h.mirrored.write hp) h.stems
    (fun _ _ => rfl) ?_ fun n => ?_
  · intro u' hu'
    split at hu'
    next => cases hu'
    next =>
      cases hu'
      exact ⟨rfl, fun b' hb' => hbs b' (List.mem_cons_of_mem _ hb')⟩
  · have hsum := m.tasks.sum_set (fun _ u => u.owes n) id
      (if bs = [] then none else some ⟨stripes, .writing bs⟩)
    rw [hu] at hsum
    have howes : (if bs = [] then none else some (⟨stripes, .writing bs⟩ : Task)).elim 0
        (fun u => u.owes n) = 0 := by
      split <;> rfl
    simp only [Option.elim_some, howes, Task.owes_writing, add_zero] at hsum
    rw [hsum]
    refine (h.tree n).trans ?_
    rw [Db.write, hnf.attPath]
    rfl

/-- A restart owes nothing: the tree is recomputed. -/
theorem reopen (h : Inv cd m t) :
    Inv cd { m with store := m.store.reopen, tasks := ∅ } t where
  rep := h.rep
  stems := h.stems
  mirrored := h.mirrored
  excl _ _ _ _ hu := by cases hu
  tasks _ _ hu := by cases hu
  tree n := by
    rw [OrdMap.sum_empty, add_zero]
    exact Aggregates.tracks_rebuild m.store.db n

/-- Every step keeps the invariant. -/
theorem step (h : Inv cd m t) {a : Act} {m' : Machine} (hs : m.step cd a = some m') :
    ∃ t', Inv cd m' t' := by
  cases a with
  | call id c =>
      rw [Machine.step] at hs
      split at hs
      next hguard =>
        rw [Bool.and_eq_true, Option.isNone_iff_eq_none] at hguard
        exact ⟨t, h.enter hguard.1 hguard.2 hs⟩
      next => cases hs
  | read id =>
      simp only [Machine.step] at hs
      split at hs
      next hu => cases hs; exact ⟨t, h.read hu⟩
      next => cases hs
  | commit id =>
      simp only [Machine.step] at hs
      split at hs
      next hu => cases hs; exact h.commit hu
      next => cases hs
  | fold id =>
      simp only [Machine.step] at hs
      split at hs
      next hu => cases hs; exact ⟨t, h.fold hu⟩
      next => cases hs
  | write id =>
      simp only [Machine.step] at hs
      split at hs
      next hu => cases hs; exact ⟨t, h.write hu⟩
      next => cases hs
  | reopen =>
      cases hs
      exact ⟨t, h.reopen⟩

/-- Every reachable state has the invariant. -/
theorem reach (h : (storeSystem cd).Reach m) : ∃ t, Inv cd m t := by
  refine System.Reach.invariant (I := fun m => ∃ t, Inv cd m t) (fun m hi => ?_)
    (fun m a m' _ hinv hs => ?_) h
  · cases hi
    exact ⟨_, init⟩
  · obtain ⟨t, hinv⟩ := hinv
    exact hinv.step hs

end Machine.Inv

end Narshare
