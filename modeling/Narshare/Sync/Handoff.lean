/-
No origin is parked with the engine: an engine lease never expires, so
whoever holds one must have a plan for its origin, or a hand-off must be
on its way that will make one or give the lease back.

# The steps

The machine is that of Lease.lean with nothing assumed of the pull
loops: a round may claim, settle or fail at any time and however old it
is, and what it hands over is whatever its peer said. The hand-offs of a
settlement are queued with it.

The engine's plans are its own, so nobody sees one go before the lease
has gone too: dropping a plan and the `unenroll` that follows it at once
are one step (`Leasing.unenrolled`). In between `Leasing.Owed` holds, of
which `Leasing.Backed` is what is left once the debt is paid. The turns of
`drain_applies` stay apart, and what a chunk's apply comes to, or the
clock an `Enroll` is held against, is again anybody's choice.
-/
import Narshare.Sync.Lease

namespace Narshare

-- ================================================================ the steps

namespace Leasing

/-- `unenroll`, when it is what comes next. -/
def unenrolled (m : Leasing) : Leasing :=
  match m.phase with
  | .unenrolling o again =>
      { m with
        leases := Function.update m.leases o none
        phase := if again then .draining o else .idle }
  | _ => m

/-- The step, with its hand-offs and its `unenroll`. -/
def handoffStep (cfg : Config) (m : Leasing) : Act → Option Leasing
  | .tick d => some { m with now := m.now + d }
  | .claim idx now =>
      some { m with leases := (claimOrigins m.leases idx now cfg.originSet).1 }
  | .settle idx adv =>
      let done := settleLeases m.leases idx m.now adv
      some { m with leases := done.1, queue := m.queue ++ done.2 }
  | .release idx => some { m with leases := m.leases.release idx }
  | .send _ => none -- done in `settle`
  | .unenroll => none -- done in the step before
  | a => (m.step cfg a).map unenrolled

/-- Has the engine the origin's lease? -/
def engineHas (m : Leasing) (o : Origin) : Prop :=
  (m.leases o).map Lease.holder = some .engine

/-- Is a hand-off of the origin waiting for the engine? -/
def queued (m : Leasing) (o : Origin) : Prop := ∃ e ∈ m.queue, e.origin = o

/-- Every engine lease has a plan behind it, or a hand-off. -/
def Backed (m : Leasing) : Prop := ∀ o, m.engineHas o → m.live o = true ∨ m.queued o

/-- So has every lease that is not about to be given back. -/
def Owed (m : Leasing) : Prop :=
  ∀ o, m.engineHas o → (m.live o = true ∨ m.queued o) ∨ m.phase.unenrolls = some o

end Leasing

/-- The hand-off between the pull loops and the engine. -/
def handoffSystem (cfg : Config) : System Leasing Leasing.Act where
  init m := m = {}
  step := Leasing.handoffStep cfg

-- ============================================================ plans that stay

/-- A plan stays where it is changed. -/
theorem Catchup.isSome_get_modify (c : Catchup) (o : Origin) (f : OriginPlan → OriginPlan)
    (o' : Origin) :
    ((c.modify o f).origins.get o').isSome = (c.origins.get o').isSome := by
  rw [get_modify]
  split
  next he => rw [Option.isSome_map, he]
  next => rfl

/-- Nothing but `drop_origin` and a refused enrolment takes a plan. -/
theorem Engine.isSome_step {m m' : Engine} {a : Engine.Act} (hs : m.step a = some m')
    {o : Origin} (h : (m.plan.origins.get o).isSome = true) (hdrop : a ≠ .dropOrigin o)
    (hkept : ∀ generation cursor target, a = .enroll o generation cursor target →
      (m.plan.enroll o generation cursor target).1 = true) :
    (m'.plan.origins.get o).isSome = true := by
  cases a with
  | enroll o' generation cursor target =>
      cases hs
      show ((m.plan.enroll o' generation cursor target).2.origins.get o).isSome = true
      rw [Catchup.isSome_enroll]
      split
      next he =>
        subst he
        exact hkept _ _ _ rfl
      next => exact h
  | nextAsk order =>
      simp only [Engine.step] at hs
      split at hs
      next =>
        obtain ⟨⟨ask, c'⟩, hask, rfl⟩ := Option.map_eq_some_iff.mp hs
        obtain ⟨-, p, iv, q, -, -, -, rfl⟩ := Catchup.nextAsk_spec hask
        simp only
        rw [OrdMap.get_put]
        split
        next => rfl
        next => exact h
      next => cases hs
  | unpick i =>
      obtain ⟨t, -, rfl⟩ := Option.map_eq_some_iff.mp hs
      exact (Catchup.isSome_get_modify m.plan.land _ _ o).trans h
  | strike i =>
      obtain ⟨t, -, rfl⟩ := Option.map_eq_some_iff.mp hs
      exact (Catchup.isSome_get_modify m.plan.land _ _ o).trans h
  | complete i events =>
      simp only [Engine.step] at hs
      split at hs
      next => cases hs
      next =>
        obtain ⟨t, -, rfl⟩ := Option.map_eq_some_iff.mp hs
        exact (Catchup.isSome_get_modify m.plan.land _ _ o).trans h
  | takeReady o' =>
      obtain ⟨⟨r, c'⟩, htake, rfl⟩ := Option.map_eq_some_iff.mp hs
      obtain ⟨-, k, -, -, -, -, rfl⟩ := Catchup.takeReady_spec htake
      exact (Catchup.isSome_get_modify ..).trans h
  | applied o' through =>
      cases hs
      exact (Catchup.isSome_get_modify ..).trans h
  | drain o' =>
      obtain ⟨⟨r, c'⟩, htake, rfl⟩ := Option.map_eq_some_iff.mp hs
      obtain ⟨-, k, -, -, -, -, rfl⟩ := Catchup.takeReady_spec htake
      exact ((Catchup.isSome_get_modify ..).trans (Catchup.isSome_get_modify ..)).trans h
  | dropOrigin o' =>
      cases hs
      show ((m.plan.dropOrigin o').origins.get o).isSome = true
      rw [Catchup.get_dropOrigin, if_neg]
      · exact h
      · rintro rfl
        exact hdrop rfl

-- ============================================================ what is handed over

/-- A settlement queues a hand-off for each backlog it gives the
engine. -/
theorem queued_settleLeases (leases : Leases) (idx now : ℕ) {adv : List Advert} {a : Advert}
    (ha : a ∈ adv) (hf : a.freshBacklog = true) :
    ∃ e ∈ (settleLeases leases idx now adv).2, e.origin = a.origin := by
  -- a turn of the loop only adds to what is queued
  have hkeep : ∀ (adv : List Advert) (st : Leases × List Enroll) (e : Enroll), e ∈ st.2 →
      e ∈ (adv.foldl (settleOne now) st).2 := by
    intro adv
    induction adv with
    | nil => exact fun st e he => he
    | cons b adv ih =>
        intro st e he
        refine ih (settleOne now st b) e ?_
        rw [settleOne]
        simp only
        split
        · exact List.mem_append_left _ he
        · exact he
  have key : ∀ (adv : List Advert) (st : Leases × List Enroll), a ∈ adv →
      ∃ e ∈ (adv.foldl (settleOne now) st).2, e.origin = a.origin := by
    intro adv
    induction adv with
    | nil => exact fun st h => absurd h List.not_mem_nil
    | cons b adv ih =>
        intro st h
        rcases List.mem_cons.mp h with rfl | h
        · refine ⟨⟨a.origin, a.generation, a.seq⟩, hkeep adv _ _ ?_, rfl⟩
          rw [settleOne]
          simp only [hf, Bool.true_or, if_true]
          exact List.mem_append_right _ (List.mem_singleton.mpr rfl)
        · exact ih (settleOne now st b) h
  exact key adv _ ha

namespace Leasing

variable {cfg : Config} {m m' : Leasing}

/-- Giving the lease back pays the debt. -/
theorem Owed.backed (h : m.Owed) : m.unenrolled.Backed := by
  intro o ho
  unfold unenrolled at ho ⊢
  split at ho
  next o' again hphase =>
    change (Function.update m.leases o' none o).map Lease.holder = _ at ho
    have hne : o ≠ o' := by
      rintro rfl
      rw [Function.update_self] at ho
      cases ho
    rw [Function.update_of_ne hne] at ho
    rcases h o ho with hb | howed
    · exact hb
    · rw [hphase] at howed
      exact absurd (Option.some.inj howed).symm hne
  next hphase =>
    rcases h o ho with hb | howed
    · exact hb
    · cases hp : m.phase with
      | unenrolling o' again => exact absurd hp (hphase o' again)
      | idle =>
          rw [hp] at howed
          cases howed
      | draining o' =>
          rw [hp] at howed
          cases howed

namespace Backed

/-- `claim_origins` takes no lease for the engine. -/
theorem claim (h : m.Backed) (idx now : ℕ) :
    Backed { m with leases := (claimOrigins m.leases idx now cfg.originSet).1 } := by
  intro o ho
  refine h o ?_
  have hspec := (claimOrigins_spec m.leases idx now cfg.originSet o).1
  show (m.leases o).map Lease.holder = some .engine
  change ((claimOrigins m.leases idx now cfg.originSet).1 o).map Lease.holder = _ at ho
  rw [hspec] at ho
  split at ho
  · cases ho
  · exact ho

/-- Nor does a release. -/
theorem engineHas_of_release {leases : Leases} {idx : ℕ} {o : Origin}
    (ho : (leases.release idx o).map Lease.holder = some .engine) :
    (leases o).map Lease.holder = some .engine := by
  obtain ⟨l, hl, hholder⟩ := Option.map_eq_some_iff.mp ho
  rw [(Option.filter_eq_some_iff.mp hl).1, Option.map_some, hholder]

theorem release (h : m.Backed) (idx : ℕ) : Backed { m with leases := m.leases.release idx } :=
  fun o ho => h o (engineHas_of_release ho)

/-- What a settlement gives the engine it also queues. -/
theorem settle (h : m.Backed) (idx : ℕ) (adv : List Advert) :
    Backed { m with
      leases := (settleLeases m.leases idx m.now adv).1
      queue := m.queue ++ (settleLeases m.leases idx m.now adv).2 } := by
  intro o ho
  change ((settleLeases m.leases idx m.now adv).1 o).map Lease.holder = _ at ho
  rw [settleLeases_spec] at ho
  split at ho
  next hfresh =>
    obtain ⟨a, ha, hf, rfl⟩ := hfresh
    obtain ⟨e, he, ho⟩ := queued_settleLeases m.leases idx m.now ha hf
    exact Or.inr ⟨e, List.mem_append_right _ he, ho⟩
  next =>
    rcases h o (engineHas_of_release ho) with hlive | ⟨e, he, ho⟩
    · exact Or.inl hlive
    · exact Or.inr ⟨e, List.mem_append_left _ he, ho⟩

/-- A step of the planner that neither enrols nor drops. -/
theorem of_step (h : m.Backed) {a : Engine.Act} {engine : Engine} {phase : EnginePhase}
    (hs : m.engine.step a = some engine) (hdrop : ∀ o, a ≠ .dropOrigin o)
    (henroll : ∀ o generation cursor target, a ≠ .enroll o generation cursor target) :
    Backed { m with engine := engine, phase := phase } := by
  intro o ho
  refine (h o ho).imp (fun hlive => ?_) id
  exact Engine.isSome_step hs hlive (hdrop o) fun _ _ _ ha => absurd ha (henroll _ _ _ _)

/-- Dropping a plan leaves a lease owed. -/
theorem of_drop (h : m.Backed) {o : Origin} {again : Bool} {engine : Engine}
    (hs : m.engine.step (.dropOrigin o) = some engine) :
    Owed { m with engine := engine, phase := .unenrolling o again } := by
  intro o' ho'
  by_cases he : o' = o
  · exact Or.inr (congrArg some he.symm)
  · refine Or.inl ((h o' ho').imp (fun hlive => ?_) id)
    refine Engine.isSome_step hs hlive (fun hd => he ?_) fun _ _ _ ha => by cases ha
    cases hd
    rfl

theorem owed (h : m.Backed) : m.Owed := fun o ho => Or.inl (h o ho)

/-- The hand-off at the head of the queue becomes a plan, or meets one,
or the lease goes. -/
theorem recv (h : m.Backed) {generation seq : ℕ}
    (hs : m.step cfg (.recv generation seq) = some m') : m'.Owed := by
  simp only [step] at hs
  split at hs
  next =>
    split at hs
    next => cases hs
    next e queue hqueue =>
      -- the origin handed over is the one whose debt may be due now
      have hrest : ∀ o, m.queued o → o = e.origin ∨ ∃ e' ∈ queue, e'.origin = o := by
        rintro o ⟨e', he', rfl⟩
        rw [hqueue] at he'
        rcases List.mem_cons.mp he' with rfl | he'
        · exact Or.inl rfl
        · exact Or.inr ⟨e', he', rfl⟩
      rw [recvOne] at hs
      split at hs
      next =>
        obtain ⟨engine, hstep, rfl⟩ := Option.map_eq_some_iff.mp hs
        cases hstep
        have hlive : ∀ o, ((m.engine.plan.enroll e.origin e.generation seq e.target).2.origins.get
            o).isSome = if o = e.origin
              then (m.engine.plan.enroll e.origin e.generation seq e.target).1
              else m.live o := Catchup.isSome_enroll _ _ _ _ _
        intro o ho
        by_cases he : o = e.origin
        · cases hkept : (m.engine.plan.enroll e.origin e.generation seq e.target).1 with
          | true =>
              refine Or.inl (Or.inl ?_)
              show ((m.engine.plan.enroll e.origin e.generation seq e.target).2.origins.get
                o).isSome = true
              rw [hlive, if_pos he, hkept]
          | false =>
              refine Or.inr ?_
              simp only [Bool.false_eq_true, if_false]
              exact congrArg some he.symm
        · refine Or.inl ?_
          rcases h o ho with hl | hq
          · refine Or.inl ?_
            show ((m.engine.plan.enroll e.origin e.generation seq e.target).2.origins.get
              o).isSome = true
            rw [hlive, if_neg he, hl]
          · exact Or.inr ((hrest o hq).resolve_left he)
      next =>
        cases hs
        intro o ho
        cases hplan : (m.engine.plan.origins.get e.origin).isNone with
        | true =>
            by_cases he : o = e.origin
            · refine Or.inr ?_
              simp only [if_true]
              exact congrArg some he.symm
            · refine Or.inl ((h o ho).imp id fun hq => (hrest o hq).resolve_left he)
        | false =>
            refine Or.inl ((h o ho).elim Or.inl fun hq => ?_)
            rcases hrest o hq with rfl | hq
            · refine Or.inl ?_
              show (m.engine.plan.origins.get e.origin).isSome = true
              rw [← Option.not_isNone, hplan]
              rfl
            · exact Or.inr hq
  next => cases hs

/-- A reply is buffered, counted as a strike, or the third one. -/
theorem reply (h : m.Backed) {i : ℕ} {events : List Event}
    (hs : m.step cfg (.reply i events) = some m') : m'.Owed := by
  simp only [step] at hs
  split at hs
  next =>
    obtain ⟨t, -, hs⟩ := Option.bind_eq_some_iff.mp hs
    split at hs
    next =>
      obtain ⟨engine, hstep, rfl⟩ := Option.map_eq_some_iff.mp hs
      exact (h.of_step hstep (fun _ ha => by cases ha) fun _ _ _ _ ha => by cases ha).owed
    next =>
      obtain ⟨engine, hstep, hs⟩ := Option.bind_eq_some_iff.mp hs
      have hstruck : Backed { m with engine := engine } :=
        h.of_step hstep (fun _ ha => by cases ha) fun _ _ _ _ ha => by cases ha
      split at hs
      next =>
        cases hs
        exact hstruck.owed
      next =>
        obtain ⟨engine', hdrop, rfl⟩ := Option.map_eq_some_iff.mp hs
        exact hstruck.of_drop hdrop
  next => cases hs

/-- A chunk is applied, or the plan goes; at the end it goes when it is
finished. -/
theorem drain (h : m.Backed) {applies : Bool} (hs : m.step cfg (.drain applies) = some m') :
    m'.Owed := by
  simp only [step] at hs
  split at hs
  next o hphase =>
    rw [drainOne] at hs
    split at hs
    next =>
      split at hs
      next =>
        obtain ⟨engine, hstep, rfl⟩ := Option.map_eq_some_iff.mp hs
        exact (h.of_step hstep (fun _ ha => by cases ha) fun _ _ _ _ ha => by cases ha).owed
      next =>
        obtain ⟨engine, htake, hs⟩ := Option.bind_eq_some_iff.mp hs
        obtain ⟨engine', hdrop, rfl⟩ := Option.map_eq_some_iff.mp hs
        have htaken : Backed { m with engine := engine } :=
          h.of_step htake (fun _ ha => by cases ha) fun _ _ _ _ ha => by cases ha
        exact htaken.of_drop hdrop
    next =>
      split at hs
      next =>
        obtain ⟨engine, hdrop, rfl⟩ := Option.map_eq_some_iff.mp hs
        exact h.of_drop hdrop
      next =>
        cases hs
        exact fun o ho => Or.inl (h o ho)
  next => cases hs

/-- Every step leaves each engine lease backed. -/
theorem step {a : Act} (h : m.Backed) (hs : m.handoffStep cfg a = some m') : m'.Backed := by
  cases a with
  | tick d =>
      cases hs
      exact h
  | claim idx now =>
      cases hs
      exact h.claim idx now
  | settle idx adv =>
      cases hs
      exact h.settle idx adv
  | release idx =>
      cases hs
      exact h.release idx
  | send idx => cases hs
  | unenroll => cases hs
  | recv generation seq =>
      obtain ⟨m₁, hstep, rfl⟩ := Option.map_eq_some_iff.mp hs
      exact (h.recv hstep).backed
  | nextAsk order =>
      obtain ⟨m₁, hstep, rfl⟩ := Option.map_eq_some_iff.mp hs
      simp only [Leasing.step] at hstep
      split at hstep
      next =>
        obtain ⟨engine, hask, rfl⟩ := Option.map_eq_some_iff.mp hstep
        exact (h.of_step hask (fun _ ha => by cases ha)
          fun _ _ _ _ ha => by cases ha).owed.backed
      next => cases hstep
  | unpick i =>
      obtain ⟨m₁, hstep, rfl⟩ := Option.map_eq_some_iff.mp hs
      simp only [Leasing.step] at hstep
      split at hstep
      next =>
        obtain ⟨engine, hask, rfl⟩ := Option.map_eq_some_iff.mp hstep
        exact (h.of_step hask (fun _ ha => by cases ha)
          fun _ _ _ _ ha => by cases ha).owed.backed
      next => cases hstep
  | reply i events =>
      obtain ⟨m₁, hstep, rfl⟩ := Option.map_eq_some_iff.mp hs
      exact (h.reply hstep).backed
  | drain applies =>
      obtain ⟨m₁, hstep, rfl⟩ := Option.map_eq_some_iff.mp hs
      exact (h.drain hstep).backed

end Backed

end Leasing

/-- In every run, whatever the rounds hand over and however the engine's
work goes: an origin leased to the engine has a live plan there, or a
hand-off of it is queued. -/
theorem engine_lease_backed (cfg : Config) (m : Leasing) (h : (handoffSystem cfg).Reach m)
    (o : Origin) (l : Lease) (hl : m.leases o = some l) (hengine : l.holder = .engine) :
    m.live o = true ∨ ∃ e ∈ m.queue, e.origin = o := by
  have hbacked : m.Backed := by
    refine System.Reach.invariant ?_ (fun _ _ _ _ hi hs => hi.step hs) h
    rintro s rfl o ho
    cases ho
  refine hbacked o ?_
  rw [Leasing.engineHas, hl, Option.map_some, hengine]

/-- A backlog handed over by one round and raised by the next, while the
engine has fetched part of it. -/
theorem engine_lease_backed_raised : ∃ m : Leasing,
    m.leases (Origin.ofByte 3) = some ⟨.engine, 0⟩
      ∧ (m.live (Origin.ofByte 3) = true ∨ ∃ e ∈ m.queue, e.origin = Origin.ofByte 3) := by
  have hrun : ((handoffSystem Leasing.threeNodes).run {}
      [.claim 0 0, .settle 0 [⟨Origin.ofByte 3, 1, 10, true⟩], .recv 1 8,
        .nextAsk [Origin.ofByte 3], .tick 7, .claim 1 7,
        .settle 1 [⟨Origin.ofByte 3, 1, 11, false⟩], .reply 0 [⟨9, none⟩], .drain true]).map
        (fun m => decide (m.leases (Origin.ofByte 3) = some ⟨.engine, 0⟩)) = some true := by
    decide +kernel
  obtain ⟨m, hm, hdone⟩ := Option.map_eq_some_iff.mp hrun
  have hlease := of_decide_eq_true hdone
  exact ⟨m, hlease, engine_lease_backed Leasing.threeNodes m ((System.Reach.start rfl).run hm)
    (Origin.ofByte 3) ⟨.engine, 0⟩ hlease rfl⟩

end Narshare
