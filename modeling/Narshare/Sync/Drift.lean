/-
The fact dump of a table that is merged into while it is read.

# Rows move

A page is asked for with the cursor the page before returned and holds
the rows above it, in the order of their keys. A key begins with the hash
of its row, and a merge that brings an identity a signature or a greater
body gives its row another hash: the row moves, to anywhere. `Sweep` is a
responder under any interleaving of its store's tasks, and one requester
that reads it from the restart cursor on.

# What is missed

A row above the cursor that moves to below it before it has been read.
It was there when the dump began, and no page will hold it: the rows of a
dump that are known to come late are those inserted behind the cursor,
and this one is not new. `Stays` says that the store does not do this to
a row that is still owed; then nothing is missed, and what was sent for
an identity is at least what it was in the beginning, because facts only
grow (`Machine.Inv.rise`).
-/
import Narshare.Index.Respond
import Narshare.Store.Machine
import Narshare.Store.Page

namespace Narshare

variable (cd : Codec)

-- ================================================================== the dump

/-- Where the row of an identity is. -/
def Db.keyOf (db : Db) (pathKey : Bytes) : Option Bytes :=
  (db.attPath.get pathKey).map fun h => Db.attKey h pathKey

/-- A responder, and the dump that is read from it: the cursor of the
next page, none when it has ended, and what the pages held. `start` is
the database as it was when the dump began. -/
structure Sweep where
  machine : Machine
  cursor : Option Bytes
  sent : List Attestation
  start : Db

namespace Sweep

/-- What can happen. -/
inductive Act
  | store (a : Machine.Act)
  | page (maxBytes : ℕ)

/-- The guarded step. -/
def step (s : Sweep) : Act → Option Sweep
  | .store a => (s.machine.step cd a).map fun m => { s with machine := m }
  | .page maxBytes =>
      s.cursor.map fun c =>
        let pg := s.machine.store.db.attestationPage cd [] c maxBytes
        { s with cursor := pg.2, sent := s.sent ++ pg.1 }

/-- A version of the row's identity that is at least the row has been
sent. -/
def Has (s : Sweep) (a : Attestation) : Prop :=
  ∃ b ∈ s.sent, pathKeyOf b = pathKeyOf a ∧ factOf a ≤ factOf b

instance (s : Sweep) (a : Attestation) : Decidable (s.Has a) := by
  unfold Has
  infer_instance

/-- No row that was there in the beginning and is still owed moves from
above the cursor to it or below. -/
def Stays (s : Sweep) : Act → Prop
  | .store a =>
      ∀ m ∈ s.machine.step cd a, ∀ e ∈ s.start.att.entries, ¬ s.Has e.2 → ∀ c ∈ s.cursor,
        ∀ k ∈ s.machine.store.db.keyOf (pathKeyOf e.2), c < k →
          ∀ k' ∈ m.store.db.keyOf (pathKeyOf e.2), c < k'
  | .page _ => True

instance (s : Sweep) (a : Act) : Decidable (s.Stays cd a) := by
  cases a <;> unfold Stays <;> infer_instance

end Sweep

/-- A dump from the restart cursor on, over any store. -/
def sweepSystem : System Sweep Sweep.Act where
  init s := ∃ m, (storeSystem cd).Reach m ∧ s = ⟨m, some DUMP_RESTART, [], m.store.db⟩
  step s a := s.step cd a

-- ============================================================ facts only grow

variable {cd}

/-- What a task is about to write is at least what is there. -/
def Task.Rises (t : FactTable) (u : Task) : Prop :=
  match u.phase with
  | .merging _ _ moves => ∀ mv ∈ moves, t.facts mv.pathKey ≤ factOf mv.row
  | _ => True

/-- So it is with every task. -/
def Machine.Rising (m : Machine) (t : FactTable) : Prop :=
  ∀ i u, m.tasks.get i = some u → u.Rises t

namespace Machine

variable {m m' : Machine} {t : FactTable}

/-- A call that enters has nothing to write yet. -/
theorem Rising.enter (h : m.Rising t) {id : ℕ} {c : Call} (hs : m.enter cd id c = some m') :
    m'.Rising t := by
  have hspawn : ∀ p : Phase, (⟨c.locks cd, p⟩ : Task).Rises t → (m.spawn cd id c p).Rising t := by
    intro p hp i u hu
    simp only [Machine.spawn, OrdMap.get_put] at hu
    split at hu
    next =>
      cases hu
      exact hp
    next => exact h i u hu
  have hnone : ∀ (base : Batch) (todo : List (Bytes × Attestation)),
      (⟨c.locks cd, .merging base todo []⟩ : Task).Rises t :=
    fun _ _ _ hmv => absurd hmv List.not_mem_nil
  cases c with
  | applyEvents o expect set journal holds attests =>
      simp only [Machine.enter] at hs
      split at hs
      next =>
        cases hs
        exact h
      next =>
        cases hs
        exact hspawn _ (hnone _ _)
  | mergeAttestations attests =>
      cases hs
      exact hspawn _ (hnone _ _)
  | replaceHoldings o generation seq held ops =>
      simp only [Machine.enter] at hs
      split at hs
      next =>
        cases hs
        exact h
      next =>
        split at hs
        next =>
          cases hs
          exact hspawn _ trivial
        next => cases hs
  | compactJournal o floor =>
      cases hs
      exact h
  | setGeneration o generation =>
      cases hs
      exact h
  | retainOrigins keep =>
      cases hs
      exact hspawn _ trivial
  | advanceWatermark peer o seq =>
      cases hs
      exact h

/-- Setting one task. -/
theorem Rising.set (h : m.Rising t) {id : ℕ} {o : Option Task} {s : Store}
    (ho : ∀ u ∈ o, u.Rises t) :
    Machine.Rising { m with store := s, tasks := m.tasks.set id o } t := by
  intro i u hu
  simp only [OrdMap.get_set] at hu
  split at hu
  next => exact ho u hu
  next => exact h i u hu

theorem Rising.read (hinv : Inv cd m t) (h : m.Rising t) {id : ℕ} {stripes : List (Fin 64)}
    {base : Batch} {e : Bytes × Attestation} {todo : List (Bytes × Attestation)}
    {moves : List Move} (hu : m.tasks.get id = some ⟨stripes, .merging base (e :: todo) moves⟩) :
    Machine.Rising { m with
      tasks := m.tasks.put id ⟨stripes,
        .merging base todo (moves ++ (mergeOne cd m.store.db e.1 e.2).toList)⟩ } t := by
  have hrow := ((hinv.tasks id _ hu).2.1 e List.mem_cons_self).1
  refine h.set (o := some _) (s := m.store) fun u hu' => ?_
  cases hu'
  intro mv hmv
  rcases List.mem_append.mp hmv with hmv | hmv
  · exact h id _ hu mv hmv
  · obtain ⟨hpk, -, hmerged⟩ := hinv.rep.mergeOne hrow mv (Option.mem_toList.mp hmv)
    rw [hmerged, FactTable.factOf_mergedRow, hpk]
    exact le_sup_left

/-- A commit replaces rows by greater ones, and by none that another task
is about to write. -/
theorem Rising.commit (hinv : Inv cd m t) (h : m.Rising t) {id : ℕ}
    {stripes : List (Fin 64)} {base : Batch} {moves : List Move}
    (hu : m.tasks.get id = some ⟨stripes, .merging base [] moves⟩) {t' : FactTable}
    (hrep : Rep cd (m.store.db.write (base ++ movesBatch cd moves)) t') :
    t.facts ≤ t'.facts
      ∧ Machine.Rising { m with
        store := { m.store with db := m.store.db.write (base ++ movesBatch cd moves) }
        tasks := m.tasks.put id ⟨stripes, .folding (movesDelta cd moves)⟩ } t' := by
  obtain ⟨⟨hnf, -⟩, -, hmoves, hnd⟩ := hinv.tasks id _ hu
  rw [List.map_nil, List.append_nil] at hnd
  obtain ⟨t'', hrep', hrows⟩ :=
    (hinv.rep.write_noFacts hnf).write_moves (fun mv hmv => (hmoves mv hmv).1) hnd
  rw [← Db.write_append] at hrep'
  obtain rfl : t' = t'' := hrep.unique hrep'
  have hout : ∀ pk, (∀ mv ∈ moves, mv.pathKey ≠ pk) → t'.facts pk = t.facts pk := by
    intro pk hpk
    rw [FactTable.facts, FactTable.facts, hrows, OrdMap.get_setAll_of_forall_ne]
    intro w hw
    obtain ⟨mv, hmv, rfl⟩ := List.mem_map.mp hw
    exact hpk mv hmv
  refine ⟨fun pk => ?_, fun i u hi => ?_⟩
  · by_cases hpk : ∃ mv ∈ moves, mv.pathKey = pk
    · obtain ⟨mv, hmv, rfl⟩ := hpk
      have hget : t'.rows.get mv.pathKey = some mv.row := by
        rw [hrows]
        exact OrdMap.get_setAll_of_mem (by rw [List.map_map]; exact hnd)
          (List.mem_map.mpr ⟨mv, hmv, rfl⟩)
      rw [FactTable.facts_eq_coe hget]
      exact h id _ hu mv hmv
    · exact (hout pk fun mv hmv he => hpk ⟨mv, hmv, he⟩).ge
  · simp only [OrdMap.get_put] at hi
    split at hi
    next =>
      cases hi
      trivial
    next hne =>
      have hrises := h i u hi
      obtain ⟨stripes', phase⟩ := u
      cases phase with
      | merging base' todo' moves' =>
          intro mv' hmv'
          have hstripe := (((hinv.tasks i _ hi).2.2.1) mv' hmv').2.2
          rw [hout mv'.pathKey]
          · exact hrises mv' hmv'
          · -- the two tasks would hold one stripe
            intro mv hmv he
            have hown := (hmoves mv hmv).2.2
            rw [he] at hown
            exact hinv.excl id i _ _ hu hi (Ne.symm hne) _ hown hstripe
      | folding delta => trivial
      | writing bs => trivial

/-- Whatever step the store takes, its facts grow. -/
theorem Inv.rise (hinv : Inv cd m t) (h : m.Rising t) {a : Act} (hs : m.step cd a = some m') :
    ∃ t', Inv cd m' t' ∧ m'.Rising t' ∧ t.facts ≤ t'.facts := by
  cases a with
  | call id c =>
      rw [Machine.step] at hs
      split at hs
      next hguard =>
        rw [Bool.and_eq_true, Option.isNone_iff_eq_none] at hguard
        exact ⟨t, hinv.enter hguard.1 hguard.2 hs, h.enter hs, le_rfl⟩
      next => cases hs
  | read id =>
      simp only [Machine.step] at hs
      split at hs
      next hu =>
        cases hs
        exact ⟨t, hinv.read hu, h.read hinv hu, le_rfl⟩
      next => cases hs
  | commit id =>
      simp only [Machine.step] at hs
      split at hs
      next hu =>
        cases hs
        obtain ⟨t', hinv'⟩ := hinv.commit hu
        obtain ⟨hle, hrising⟩ := h.commit hinv hu hinv'.rep
        exact ⟨t', hinv', hrising, hle⟩
      next => cases hs
  | fold id =>
      simp only [Machine.step] at hs
      split at hs
      next hu =>
        cases hs
        exact ⟨t, hinv.fold hu, h.set (o := none) (fun u hu' => absurd hu' (Option.not_mem_none u)),
          le_rfl⟩
      next => cases hs
  | write id =>
      simp only [Machine.step] at hs
      split at hs
      next stripes b bs hu =>
        cases hs
        refine ⟨t, hinv.write hu, ?_, le_rfl⟩
        have hset : (if bs = [] then m.tasks.erase id
            else m.tasks.put id ⟨stripes, .writing bs⟩)
            = m.tasks.set id (if bs = [] then none else some ⟨stripes, .writing bs⟩) := by
          split <;> rfl
        rw [hset]
        refine h.set fun u hu' => ?_
        split at hu'
        · cases hu'
        · cases hu'
          trivial
      next => cases hs
  | reopen =>
      cases hs
      refine ⟨t, hinv.reopen, fun i u hu => ?_, le_rfl⟩
      cases hu

/-- What a reachable store is like. -/
theorem rising_of_reach (h : (storeSystem cd).Reach m) : ∃ t, Inv cd m t ∧ m.Rising t := by
  refine System.Reach.invariant (I := fun m : Machine => ∃ t, Inv cd m t ∧ m.Rising t)
    (fun m hi => ?_) (fun m a m' _ hinv hs => ?_) h
  · cases hi
    exact ⟨_, Inv.init, fun i u hu => by cases hu⟩
  · obtain ⟨t, hinv, hrising⟩ := hinv
    obtain ⟨t', hinv', hrising', -⟩ := hinv.rise hrising hs
    exact ⟨t', hinv', hrising'⟩

end Machine

-- ================================================================ what is owed

/-- Every row of the beginning has been sent, or is above the cursor and
at least what it was. -/
structure Sweep.Inv (cd : Codec) (s : Sweep) (t : FactTable) : Prop where
  machine : s.machine.Inv cd t
  rising : s.machine.Rising t
  owed : ∀ e ∈ s.start.att.entries, s.Has e.2 ∨ ∃ c ∈ s.cursor, ∃ a,
    t.rows.get (pathKeyOf e.2) = some a ∧ factOf e.2 ≤ factOf a
      ∧ c < Db.attKey (attestationHash cd a) (pathKeyOf e.2)

/-- Every key is above the restart cursor. -/
theorem dump_restart_lt (h : Digest) (pathKey : Bytes) :
    DUMP_RESTART < Db.attKey h pathKey := by
  obtain ⟨x, y, rest, hkey⟩ : ∃ x y rest, Db.attKey h pathKey = x :: y :: rest := by
    have hlen : 2 ≤ (Db.attKey h pathKey).length := by
      rw [Db.attKey, List.length_append, Digest.length_toBytes]
      omega
    rcases hkey : Db.attKey h pathKey with _ | ⟨x, _ | ⟨y, rest⟩⟩
    · rw [hkey] at hlen
      cases hlen
    · rw [hkey, List.length_singleton] at hlen
      omega
    · exact ⟨x, y, rest, rfl⟩
  rw [hkey, DUMP_RESTART, List.cons_lt_cons_iff]
  by_cases hx : x = 0
  · exact Or.inr ⟨hx.symm, List.nil_lt_cons y rest⟩
  · exact Or.inl (UInt8.pos_iff_ne_zero.mpr hx)

theorem Rep.keyOf {db : Db} {t : FactTable} (hrep : Rep cd db t) {pk : Bytes} {a : Attestation}
    (h : t.rows.get pk = some a) : db.keyOf pk = some (Db.attKey (attestationHash cd a) pk) := by
  rw [Db.keyOf, hrep.path, h]
  rfl

namespace Sweep.Inv

variable {s s' : Sweep} {t : FactTable}

theorem init {m : Machine} (h : (storeSystem cd).Reach m) :
    ∃ t, Sweep.Inv cd ⟨m, some DUMP_RESTART, [], m.store.db⟩ t := by
  obtain ⟨t, hinv, hrising⟩ := Machine.rising_of_reach h
  refine ⟨t, hinv, hrising, fun e he => Or.inr ⟨_, rfl, e.2, ?_, le_rfl, dump_restart_lt _ _⟩⟩
  exact ((hinv.rep.att e.1 e.2).mp (OrdMap.mem_entries.mp he)).1

/-- The store moves on: what is owed stays above the cursor and grows. -/
theorem store (h : Sweep.Inv cd s t) {a : Machine.Act} (hok : s.Stays cd (.store a))
    {m : Machine} (hs : s.machine.step cd a = some m) :
    ∃ t', Sweep.Inv cd { s with machine := m } t' := by
  obtain ⟨t', hinv, hrising, hle⟩ := h.machine.rise h.rising hs
  refine ⟨t', hinv, hrising, fun e he => ?_⟩
  by_cases hhas : s.Has e.2
  · exact Or.inl hhas
  obtain ⟨c, hc, b, hb, hfact, hlt⟩ := (h.owed e he).resolve_left hhas
  have hgrow := hle (pathKeyOf e.2)
  rw [FactTable.facts_eq_coe hb] at hgrow
  cases hb' : t'.rows.get (pathKeyOf e.2) with
  | none =>
      rw [FactTable.facts_eq_bot hb'] at hgrow
      exact absurd (le_bot_iff.mp hgrow) WithBot.coe_ne_bot
  | some b' =>
      rw [FactTable.facts_eq_coe hb', WithBot.coe_le_coe] at hgrow
      refine Or.inr ⟨c, hc, b', rfl, hfact.trans hgrow, ?_⟩
      exact hok m hs e he hhas c hc _ (h.machine.rep.keyOf hb) hlt _ (hinv.rep.keyOf hb')

/-- A page: what it does not hold is above the cursor it leaves. -/
theorem page (h : Sweep.Inv cd s t) {c : Bytes} (hc : s.cursor = some c) (maxBytes : ℕ) :
    Sweep.Inv cd { s with
      cursor := (s.machine.store.db.attestationPage cd [] c maxBytes).2
      sent := s.sent ++ (s.machine.store.db.attestationPage cd [] c maxBytes).1 } t := by
  refine ⟨h.machine, h.rising, fun e he => ?_⟩
  have hpage : PageOf (s.machine.store.db.rowsFrom [] c) _ _ :=
    attestationPage_spec cd s.machine.store.db maxBytes (Or.inr (List.nil_prefix (l := c)))
  rcases h.owed e he with ⟨b, hb, hkey, hfact⟩ | ⟨c', hc', a, ha, hfact, hlt⟩
  · exact Or.inl ⟨b, List.mem_append_left _ hb, hkey, hfact⟩
  · obtain rfl : c = c' := Option.some.inj (hc.symm.trans hc')
    have hkey : pathKeyOf a = pathKeyOf e.2 := (t.ok _ _ ha).key
    have hrow : (Db.attKey (attestationHash cd a) (pathKeyOf e.2), a)
        ∈ s.machine.store.db.rowsFrom [] c :=
      Db.mem_rowsFrom.mpr ⟨(h.machine.rep.att _ a).mpr ⟨hkey.symm ▸ ha, by rw [hkey]⟩,
        List.nil_prefix, hlt⟩
    rcases hpage.mem_or_lt (Db.rowsFrom_sorted _ _ _) hrow with hin | ⟨k, hk, hlt'⟩
    · exact Or.inl ⟨a, List.mem_append_right _ hin, hkey, hfact⟩
    · exact Or.inr ⟨k, hk, a, ha, hfact, hlt'⟩

end Sweep.Inv

/-- As long as no row that is owed moves from above the cursor to below
it, a dump that has ended has sent, for every identity that was there
when it began, a version that is at least the one that was there. -/
theorem dump_misses_nothing {s : Sweep} (h : (sweepSystem cd).ReachIf (Sweep.Stays cd) s)
    (hend : s.cursor = none) : ∀ e ∈ s.start.att.entries, s.Has e.2 := by
  obtain ⟨t, hinv⟩ : ∃ t, Sweep.Inv cd s t := by
    refine System.ReachIf.invariant (I := fun s : Sweep => ∃ t, Sweep.Inv cd s t)
      (fun s hi => ?_) (fun s a s' _ hinv hok hs => ?_) h
    · obtain ⟨m, hm, rfl⟩ := hi
      exact Sweep.Inv.init hm
    · obtain ⟨t, hinv⟩ := hinv
      cases a with
      | store a =>
          obtain ⟨m, hm, rfl⟩ := Option.map_eq_some_iff.mp hs
          exact hinv.store hok hm
      | page maxBytes =>
          obtain ⟨c, hc, rfl⟩ := Option.map_eq_some_iff.mp hs
          exact ⟨t, hinv.page hc maxBytes⟩
  intro e he
  refine (hinv.owed e he).resolve_right ?_
  rintro ⟨c, hc, -⟩
  rw [hend] at hc
  cases hc

-- ============================================================ a row that moves

/-- A merge of some attestations, by one task. -/
def mergeTask (attests : List Attestation) : List Machine.Act :=
  .call 0 (.mergeAttestations attests)
    :: List.replicate (coalesce attests).entries.length (.read 0) ++ [.commit 0, .fold 0]

/-- A page that ends after its first row, a merge of the second with
another signature, and the rest of the dump. -/
def resigned (sig : UInt8) : List Sweep.Act :=
  .page 1 :: (mergeTask [.ofBytes 98 5 [[sig]]]).map Sweep.Act.store ++ [.page 1]

/-- The dump of a table of two. -/
def twoRows (sig : UInt8) (ok : Sweep → Sweep.Act → Prop)
    [∀ s a, Decidable (ok s a)] : Option Sweep :=
  ((storeSystem Codec.plain).run {}
      (mergeTask [.ofBytes 97 5 [[1]], .ofBytes 98 5 [[1]]])).bind fun m =>
    (sweepSystem Codec.plain).runIf ok ⟨m, some DUMP_RESTART, [], m.store.db⟩ (resigned sig)

theorem reachIf_of_twoRows {sig : UInt8} {ok : Sweep → Sweep.Act → Prop}
    [∀ s a, Decidable (ok s a)] {s : Sweep} (h : twoRows sig ok = some s) :
    (sweepSystem Codec.plain).ReachIf ok s := by
  obtain ⟨m, hm, hrun⟩ := Option.bind_eq_some_iff.mp h
  have hinit : (sweepSystem Codec.plain).init ⟨m, some DUMP_RESTART, [], m.store.db⟩ :=
    ⟨m, (System.Reach.start rfl).run hm, rfl⟩
  exact (System.ReachIf.init hinit).runIf hrun

/-- The second row moves and stays ahead. -/
theorem dump_misses_nothing_ahead : ∃ s : Sweep, s.start.att.entries.length = 2
    ∧ s.sent.length = 2 ∧ ∀ e ∈ s.start.att.entries, s.Has e.2 := by
  have hrun : (twoRows 120 (Sweep.Stays Codec.plain)).map (fun s =>
      decide (s.cursor = none ∧ s.start.att.entries.length = 2 ∧ s.sent.length = 2))
      = some true := by decide +kernel
  obtain ⟨s, hs, hdone⟩ := Option.map_eq_some_iff.mp hrun
  obtain ⟨hend, hlen, hsent⟩ := of_decide_eq_true hdone
  exact ⟨s, hlen, hsent, dump_misses_nothing (reachIf_of_twoRows hs) hend⟩

/-- The second row moves behind the cursor and is missed. -/
theorem moved_row_missed : ¬ ∀ (cd : Codec) (s : Sweep), (sweepSystem cd).Reach s →
    (∀ a ∈ s.machine.taken, wellFormed a = true) → s.cursor = none →
    ∀ e ∈ s.start.att.entries, s.Has e.2 := by
  intro hall
  have hrun : (twoRows 0 fun _ _ => True).map (fun s =>
      decide ((∀ a ∈ s.machine.taken, wellFormed a = true) ∧ s.cursor = none
        ∧ ∃ e ∈ s.start.att.entries, ¬ s.Has e.2)) = some true := by
    decide +kernel
  obtain ⟨s, hs, hdone⟩ := Option.map_eq_some_iff.mp hrun
  obtain ⟨hwf, hend, e, he, hnot⟩ := of_decide_eq_true hdone
  exact hnot (hall Codec.plain s (reachIf_of_twoRows hs) hwf hend e he)

end Narshare
