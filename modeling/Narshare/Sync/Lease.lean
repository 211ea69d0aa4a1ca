/-
Who serves an origin's bodies: the leases of sync.rs, taken and given
back by the pull loops and by the catch-up engine.

# The machine

`Leasing` is the lease map with everything that reads or writes it. The
pull loops' rounds are under way from `claim_origins` to
`settle_leases`, or to the release after an error; what a settled round
hands over waits in its loop's `outbox` and then in the engine's queue.
The engine is one task: it takes an `Enroll` or a reply when it is idle,
and `EnginePhase` says where it stands inside `drain_applies` and before an
`unenroll`, with the other tasks' steps in between. The clock an
`Enroll` is held against is whatever the index says at that moment, so
it comes with the step; the planner is the one of Catchup.lean.

A round is never older than `LEASE_TTL`: `tick` and `claim` are guarded
by it. What a round settles with is whatever the responder said.

# Exclusivity

What keeps servers apart is that the lease map says who they are
(`Agree`): a live plan's origin is leased to the engine, a round's to
its peer since the round began. Four steps can break this. `unenroll`
removes a lease whoever holds it; an `Enroll` starts a plan without
looking for its lease; a settled round hands the engine any origin that
came with events, claimed or not; and a round of exactly `LEASE_TTL` can
be taken over in its last instant. `KeepsLeases` excludes these, and
nothing else. The third does not happen with a responder that runs this
code: it ships no body for a skipped origin (`not_skipped_of_events`).
-/
import Narshare.Index.Rounds
import Narshare.Sync.Catchup

namespace Narshare

-- ============================================================== the leases

/-- `LEASE_TTL`, in nanoseconds. -/
def LEASE_TTL : ℕ := 150 * 10 ^ 9

/-- `Holder`. -/
inductive Holder
  | peer (idx : ℕ)
  | engine
deriving DecidableEq

/-- `Lease`. -/
structure Lease where
  holder : Holder
  at_ : ℕ
deriving DecidableEq

/-- The lease map. -/
abbrev Leases := Origin → Option Lease

/-- `Enroll`. -/
structure Enroll where
  origin : Origin
  generation : ℕ
  target : ℕ

/-- A line of `adv`: an origin's advertised clock, and whether the
responder left it with a real backlog. -/
structure Advert where
  origin : Origin
  generation : ℕ
  seq : ℕ
  freshBacklog : Bool

/-- `claim_origins`, one turn of the loop: the map and the origins to
skip. -/
def claimOne (idx now : ℕ) (st : Leases × List Origin) (o : Origin) :
    Leases × List Origin :=
  match st.1 o with
  | some l =>
      if l.holder = .engine then (st.1, st.2 ++ [o])
      else if l.holder = .peer idx then
        (Function.update st.1 o (some { l with at_ := now }), st.2)
      else if now - l.at_ < LEASE_TTL then (st.1, st.2 ++ [o])
      else (Function.update st.1 o (some ⟨.peer idx, now⟩), st.2)
  | none => (Function.update st.1 o (some ⟨.peer idx, now⟩), st.2)

/-- `claim_origins`. -/
def claimOrigins (leases : Leases) (idx now : ℕ) (have_ : List Origin) :
    Leases × List Origin :=
  have_.foldl (claimOne idx now) (leases, [])

/-- `leases.retain`: everything a peer's loop holds goes. -/
def Leases.release (leases : Leases) (idx : ℕ) : Leases :=
  fun o => (leases o).filter fun l => decide (l.holder ≠ .peer idx)

/-- `settle_leases`, one turn of the loop: the map and the hand-offs. -/
def settleOne (now : ℕ) (st : Leases × List Enroll) (a : Advert) : Leases × List Enroll :=
  let engineHeld := decide ((st.1 a.origin).map Lease.holder = some .engine)
  (if a.freshBacklog then Function.update st.1 a.origin (some ⟨.engine, now⟩) else st.1,
    if a.freshBacklog || engineHeld then st.2 ++ [⟨a.origin, a.generation, a.seq⟩] else st.2)

/-- `settle_leases`, under the lock. -/
def settleLeases (leases : Leases) (idx now : ℕ) (adv : List Advert) :
    Leases × List Enroll :=
  adv.foldl (settleOne now) (leases.release idx, [])

-- ============================================================= the machine

/-- A pull round under way. -/
structure PullRound where
  idx : ℕ
  claimed : List Origin
  at_ : ℕ

/-- Where the engine task stands; `again` is `drain_applies` after a
failed apply, which goes on to look whether the origin is finished. -/
inductive EnginePhase
  | idle
  | draining (o : Origin)
  | unenrolling (o : Origin) (again : Bool)
deriving DecidableEq

/-- The origin whose lease goes next. -/
def EnginePhase.unenrolls : EnginePhase → Option Origin
  | .unenrolling o _ => some o
  | _ => none

/-- The leases and who uses them. -/
structure Leasing where
  now : ℕ := 0
  leases : Leases := fun _ => none
  rounds : List PullRound := []
  outbox : List (ℕ × Enroll) := []
  queue : List Enroll := []
  engine : Engine := {}
  phase : EnginePhase := .idle

namespace Leasing

/-- What can happen. `recv` is given the clock the index has for the
origin, `reply` no events for anything but a good reply, `drain` whether
the chunk applies. -/
inductive Act
  | tick (d : ℕ)
  | claim (idx now : ℕ)
  | settle (idx : ℕ) (adv : List Advert)
  | release (idx : ℕ)
  | send (idx : ℕ)
  | recv (generation seq : ℕ)
  | nextAsk (order : List Origin)
  | unpick (i : ℕ)
  | reply (i : ℕ) (events : List Event)
  | drain (applies : Bool)
  | unenroll

/-- `engine_loop`, the hand-off at the head of the queue. -/
def recvOne (m : Leasing) (e : Enroll) (queue : List Enroll) (generation seq : ℕ) :
    Option Leasing :=
  if generation = e.generation ∧ seq < e.target then
    let kept := (m.engine.plan.enroll e.origin e.generation seq e.target).1
    (m.engine.step (.enroll e.origin e.generation seq e.target)).map fun engine =>
      { m with
        queue := queue
        engine := engine
        phase := if kept then .idle else .unenrolling e.origin false }
  else -- wrong generation, or already caught up
    some { m with
      queue := queue
      phase := if (m.engine.plan.origins.get e.origin).isNone
        then .unenrolling e.origin false else .idle }

/-- `engine_loop`, the answer to the `i`-th ask in flight. -/
def replyOne (m : Leasing) (i : ℕ) (events : List Event) : Option Leasing :=
  m.engine.tickets[i]?.bind fun t =>
    if events ≠ [] then
      (m.engine.step (.complete i events)).map fun engine =>
        { m with engine := engine, phase := .draining t.ask.origin }
    else
      let kept := (m.engine.plan.strike t.ask.origin t.ask.after t.ask.til).1
      (m.engine.step (.strike i)).bind fun engine =>
        if kept then some { m with engine := engine }
        else (engine.step (.dropOrigin t.ask.origin)).map fun engine =>
          { m with engine := engine, phase := .unenrolling t.ask.origin false }

/-- `drain_applies`, one turn of its loop, or what follows it. -/
def drainOne (m : Leasing) (o : Origin) (applies : Bool) : Option Leasing :=
  if (m.engine.plan.takeReady o).isSome then
    if applies then (m.engine.step (.drain o)).map fun engine => { m with engine := engine }
    else
      (m.engine.step (.takeReady o)).bind fun engine =>
        (engine.step (.dropOrigin o)).map fun engine =>
          { m with engine := engine, phase := .unenrolling o true }
  else if m.engine.plan.finished o then
    (m.engine.step (.dropOrigin o)).map fun engine =>
      { m with engine := engine, phase := .unenrolling o false }
  else some { m with phase := .idle }

/-- The round that a peer's loop has under way. -/
def roundOf (m : Leasing) (idx : ℕ) : Option PullRound :=
  m.rounds.find? fun r => decide (r.idx = idx)

/-- The guarded step. -/
def step (cfg : Config) (m : Leasing) : Act → Option Leasing
  | .tick d => -- no round lasts longer
      if ∀ r ∈ m.rounds, m.now + d ≤ r.at_ + LEASE_TTL then some { m with now := m.now + d }
      else none
  | .claim idx now =>
      -- the time was read a moment ago, before the lock
      if now ≤ m.now ∧ m.now ≤ now + LEASE_TTL ∧ (∀ r ∈ m.rounds, r.idx ≠ idx)
          ∧ ∀ e ∈ m.outbox, e.1 ≠ idx then
        let done := claimOrigins m.leases idx now cfg.originSet
        some { m with
          leases := done.1
          rounds := ⟨idx, cfg.originSet.filter fun o => decide (o ∉ done.2), now⟩ :: m.rounds }
      else none
  | .settle idx adv =>
      (m.roundOf idx).map fun _ =>
        let done := settleLeases m.leases idx m.now adv
        { m with
          leases := done.1
          rounds := m.rounds.filter fun r => decide (r.idx ≠ idx)
          outbox := m.outbox ++ done.2.map fun e => (idx, e) }
  | .release idx =>
      some { m with
        leases := m.leases.release idx
        rounds := m.rounds.filter fun r => decide (r.idx ≠ idx) }
  | .send idx =>
      (m.outbox.find? fun e => decide (e.1 = idx)).map fun e =>
        { m with
          outbox := m.outbox.eraseP fun e => decide (e.1 = idx)
          queue := m.queue ++ [e.2] }
  | .recv generation seq =>
      if m.phase = .idle then
        match m.queue with
        | [] => none
        | e :: queue => m.recvOne e queue generation seq
      else none
  | .nextAsk order =>
      if m.phase = .idle then
        (m.engine.step (.nextAsk order)).map fun engine => { m with engine := engine }
      else none
  | .unpick i =>
      if m.phase = .idle then
        (m.engine.step (.unpick i)).map fun engine => { m with engine := engine }
      else none
  | .reply i events => if m.phase = .idle then m.replyOne i events else none
  | .drain applies =>
      match m.phase with
      | .draining o => m.drainOne o applies
      | _ => none
  | .unenroll =>
      match m.phase with
      | .unenrolling o again =>
          some { m with
            leases := Function.update m.leases o none
            phase := if again then .draining o else .idle }
      | _ => none

/-- Does the origin have a live plan? -/
def live (m : Leasing) (o : Origin) : Bool := (m.engine.plan.origins.get o).isSome

/-- Each origin's bodies are served by at most one server. -/
def Exclusive (m : Leasing) : Prop :=
  (∀ o r, m.live o = true → r ∈ m.rounds → o ∉ r.claimed)
    ∧ m.rounds.Pairwise fun r r' => ∀ o ∈ r.claimed, o ∉ r'.claimed

/-- A round is not taken over in its last instant, and hands over only what
it claimed; a plan is started only while the engine has the origin's
lease, and `unenroll` removes no lease of a pull loop. -/
def KeepsLeases (m : Leasing) : Act → Prop
  | .claim _ now => ∀ r ∈ m.rounds, now < r.at_ + LEASE_TTL
  | .settle idx adv => ∀ r ∈ m.roundOf idx, ∀ a ∈ adv,
      a.freshBacklog = true → a.origin ∈ r.claimed
  | .recv generation seq => ∀ e ∈ m.queue.head?,
      generation = e.generation → seq < e.target →
      (m.engine.plan.enroll e.origin e.generation seq e.target).1 = true →
      (m.leases e.origin).map Lease.holder = some .engine
  | .unenroll => ∀ o ∈ m.phase.unenrolls, ∀ l ∈ m.leases o, l.holder = .engine
  | _ => True

instance (m : Leasing) (a : Act) : Decidable (m.KeepsLeases a) := by
  cases a with
  | claim | settle | recv | unenroll =>
      unfold KeepsLeases
      infer_instance
  | _ => exact isTrue trivial

end Leasing

/-- The leases from the start of the process. -/
def leaseSystem (cfg : Config) : System Leasing Leasing.Act where
  init m := m = {}
  step := Leasing.step cfg

-- ================================================ what a responder hands over

/-- A responder ships no events for an origin it was asked to skip. -/
theorem not_skipped_of_events {cd : Codec} {rcfg : Config} {s : Store} {req : SyncRequest}
    {budget : ℕ} {b : RespondBundle} (h : respondBudgeted cd rcfg s req budget = some b)
    {up : OriginUpdate} (hup : up ∈ b.origins) {events : List Event}
    (hbody : up.body = some (.suffix events)) : up.origin ∉ req.skipOrigins := by
  have horigins : b.origins = (rcfg.originSet.foldl (respondOrigin cd s.db req budget)
      {}).origins ∨ b.origins = [] := by
    rw [respondBudgeted] at h
    split at h
    next => cases h; exact Or.inr rfl
    next =>
      split at h
      next =>
        obtain ⟨ans, -, rfl⟩ := Option.map_eq_some_iff.mp h
        exact Or.inr rfl
      next => cases h; exact Or.inl rfl
  rcases horigins with hfold | hnil
  · rw [hfold, foldl_respondOrigin_origins rcfg.nodup_originSet, List.nil_append] at hup
    obtain ⟨o, -, hupd⟩ := List.mem_filterMap.mp hup
    have horigin := origin_of_originUpdate hupd
    subst horigin
    intro hskip
    rw [originUpdate] at hupd
    simp only [decide_eq_true hskip] at hupd
    have hverdict : ∀ full, judge (s.db.clock up.origin) (theirClock req up.origin) true full
        ∈ [.silent, .upToDate, .clockOnly] := by
      intro full
      unfold judge
      simp only [if_true]
      split
      · exact List.mem_cons_self
      split
      · exact List.mem_cons_self
      split
      · exact List.mem_cons_of_mem _ List.mem_cons_self
      · simp
    split at hupd
    next => cases hupd
    next hne =>
      have hb := (congrArg OriginUpdate.body (Option.some.inj hupd)).trans hbody
      rcases List.mem_cons.mp (hverdict _) with hv | hv
      · exact hne hv
      rcases List.mem_cons.mp hv with hv | hv
      · rw [hv] at hb
        cases hb
      · rw [List.mem_singleton.mp hv] at hb
        cases hb
  · rw [hnil] at hup
    cases hup

-- ========================================================= what a step does

/-- Would `claim_origins` take the origin? -/
def claimable (leases : Leases) (idx now : ℕ) (o : Origin) : Bool :=
  match leases o with
  | some l =>
      decide (l.holder ≠ .engine)
        && (decide (l.holder = .peer idx) || decide (LEASE_TTL ≤ now - l.at_))
  | none => true

theorem claimOne_eq (idx now : ℕ) (st : Leases × List Origin) (o : Origin) :
    claimOne idx now st o
      = if claimable st.1 idx now o then
          (Function.update st.1 o (some ⟨.peer idx, now⟩), st.2)
        else (st.1, st.2 ++ [o]) := by
  rw [claimOne, claimable]
  cases st.1 o with
  | none => rfl
  | some l =>
      simp only
      by_cases hengine : l.holder = .engine
      · simp [hengine]
      by_cases hown : l.holder = .peer idx
      · rw [if_neg hengine, if_pos hown]
        simp [hown]
      rw [if_neg hengine, if_neg hown]
      by_cases hfresh : now - l.at_ < LEASE_TTL
      · rw [if_pos hfresh]
        simp [hengine, hown, hfresh]
      · rw [if_neg hfresh]
        simp [hengine, hown, not_lt.mp hfresh]

/-- Taking one origin changes nothing for the others, nor for itself. -/
theorem claimable_update {leases : Leases} {idx now : ℕ} {o : Origin}
    (h : claimable leases idx now o = true) (o' : Origin) :
    claimable (Function.update leases o (some ⟨.peer idx, now⟩)) idx now o'
      = claimable leases idx now o' := by
  by_cases he : o' = o
  · rw [he, h, claimable, Function.update_self]
    simp
  · rw [claimable, Function.update_of_ne he]
    rfl

/-- `claim_origins` takes every origin it can and skips the others. -/
theorem claimOrigins_spec (leases : Leases) (idx now : ℕ) (os : List Origin) (o : Origin) :
    (claimOrigins leases idx now os).1 o
        = (if o ∈ os ∧ claimable leases idx now o = true then some ⟨.peer idx, now⟩
          else leases o)
      ∧ (o ∈ (claimOrigins leases idx now os).2
        ↔ o ∈ os ∧ claimable leases idx now o = false) := by
  have key : ∀ (os : List Origin) (st : Leases × List Origin),
      (os.foldl (claimOne idx now) st).1 o
          = (if o ∈ os ∧ claimable st.1 idx now o = true then some ⟨.peer idx, now⟩
            else st.1 o)
        ∧ (o ∈ (os.foldl (claimOne idx now) st).2
          ↔ o ∈ st.2 ∨ (o ∈ os ∧ claimable st.1 idx now o = false)) := by
    intro os
    induction os with
    | nil => simp
    | cons o' os ih =>
        intro st
        rw [List.foldl_cons, claimOne_eq]
        cases hc : claimable st.1 idx now o' with
        | true =>
            rw [if_pos rfl]
            obtain ⟨hlease, hskip⟩ := ih (Function.update st.1 o' (some ⟨.peer idx, now⟩), st.2)
            rw [hlease, hskip, claimable_update hc]
            by_cases he : o = o'
            · subst he
              simp [hc]
            · simp [he]
        | false =>
            rw [if_neg Bool.false_ne_true]
            obtain ⟨hlease, hskip⟩ := ih (st.1, st.2 ++ [o'])
            rw [hlease, hskip]
            by_cases he : o = o'
            · subst he
              simp [hc]
            · simp [he]
  obtain ⟨hlease, hskip⟩ := key os (leases, [])
  exact ⟨hlease, hskip.trans (by simp)⟩

/-- After a settlement the engine has the backlogs, and the loop
nothing. -/
theorem settleLeases_spec (leases : Leases) (idx now : ℕ) (adv : List Advert) (o : Origin) :
    (settleLeases leases idx now adv).1 o
      = if ∃ a ∈ adv, a.freshBacklog = true ∧ a.origin = o then some ⟨.engine, now⟩
        else leases.release idx o := by
  have key : ∀ (adv : List Advert) (st : Leases × List Enroll),
      (adv.foldl (settleOne now) st).1 o
        = if ∃ a ∈ adv, a.freshBacklog = true ∧ a.origin = o then some ⟨.engine, now⟩
          else st.1 o := by
    intro adv
    induction adv with
    | nil => simp
    | cons a adv ih =>
        intro st
        have hone : (settleOne now st a).1 o
            = if a.freshBacklog = true ∧ a.origin = o then some ⟨.engine, now⟩
              else st.1 o := by
          rw [settleOne]
          cases hf : a.freshBacklog with
          | false => simp
          | true =>
              by_cases he : o = a.origin
              · simp [he]
              · simp [he, Ne.symm he]
        rw [List.foldl_cons, ih, hone]
        by_cases hrest : ∃ a ∈ adv, a.freshBacklog = true ∧ a.origin = o
        · obtain ⟨a', ha', h⟩ := hrest
          rw [if_pos ⟨a', ha', h⟩, if_pos ⟨a', List.mem_cons_of_mem _ ha', h⟩]
        · rw [if_neg hrest]
          by_cases ha : a.freshBacklog = true ∧ a.origin = o
          · rw [if_pos ha, if_pos ⟨a, List.mem_cons_self, ha⟩]
          · rw [if_neg ha, if_neg]
            rintro ⟨a', ha', h⟩
            rcases List.mem_cons.mp ha' with rfl | ha'
            · exact ha h
            · exact hrest ⟨a', ha', h⟩
  exact key adv _

theorem Catchup.isSome_modify {c : Catchup} {o o' : Origin} {f : OriginPlan → OriginPlan}
    (h : ((c.modify o f).origins.get o').isSome = true) :
    (c.origins.get o').isSome = true := by
  rw [get_modify] at h
  split at h
  next he => rwa [Option.isSome_map, ← he] at h
  next => exact h

/-- An enrolment that is kept leaves a plan, one that is not leaves
none. -/
theorem Catchup.isSome_enroll (c : Catchup) (o : Origin) (generation cursor target : ℕ)
    (o' : Origin) : ((c.enroll o generation cursor target).2.origins.get o').isSome
      = if o' = o then (c.enroll o generation cursor target).1
        else (c.origins.get o').isSome := by
  simp only [enroll]
  split
  · rw [get_dropOrigin]
    split <;> rfl
  split
  · rw [get_dropOrigin]
    split <;> rfl
  · simp only
    rw [OrdMap.get_put]
    split <;> rfl

/-- Only an enrolment makes a plan. -/
theorem Engine.isSome_of_step {m m' : Engine} {a : Engine.Act} (hs : m.step a = some m')
    {o : Origin} (h : (m'.plan.origins.get o).isSome = true) :
    (m.plan.origins.get o).isSome = true ∨ ∃ generation cursor target,
      a = .enroll o generation cursor target
        ∧ (m.plan.enroll o generation cursor target).1 = true := by
  cases a with
  | enroll o' generation cursor target =>
      cases hs
      change ((m.plan.enroll o' generation cursor target).2.origins.get o).isSome = true at h
      rw [Catchup.isSome_enroll] at h
      split at h
      next he =>
        subst he
        exact Or.inr ⟨generation, cursor, target, rfl, h⟩
      next => exact Or.inl h
  | nextAsk order =>
      left
      simp only [Engine.step] at hs
      split at hs
      next =>
        obtain ⟨⟨ask, c'⟩, hask, rfl⟩ := Option.map_eq_some_iff.mp hs
        obtain ⟨-, p, iv, q, hp, -, -, rfl⟩ := Catchup.nextAsk_spec hask
        simp only at h
        rw [OrdMap.get_put] at h
        split at h
        next he => rw [he, hp]; rfl
        next => exact h
      next => cases hs
  | unpick i =>
      obtain ⟨t, -, rfl⟩ := Option.map_eq_some_iff.mp hs
      exact Or.inl (Catchup.isSome_modify (c := m.plan.land) h)
  | strike i =>
      obtain ⟨t, -, rfl⟩ := Option.map_eq_some_iff.mp hs
      exact Or.inl (Catchup.isSome_modify (c := m.plan.land) h)
  | complete i events =>
      left
      simp only [Engine.step] at hs
      split at hs
      next => cases hs
      next =>
        obtain ⟨t, -, rfl⟩ := Option.map_eq_some_iff.mp hs
        exact Catchup.isSome_modify (c := m.plan.land) h
  | takeReady o' =>
      left
      obtain ⟨⟨r, c'⟩, htake, rfl⟩ := Option.map_eq_some_iff.mp hs
      obtain ⟨-, k, -, -, -, -, rfl⟩ := Catchup.takeReady_spec htake
      exact Catchup.isSome_modify h
  | applied o' through =>
      cases hs
      exact Or.inl (Catchup.isSome_modify h)
  | drain o' =>
      left
      obtain ⟨⟨r, c'⟩, htake, rfl⟩ := Option.map_eq_some_iff.mp hs
      obtain ⟨-, k, -, -, -, -, rfl⟩ := Catchup.takeReady_spec htake
      exact Catchup.isSome_modify (Catchup.isSome_modify h)
  | dropOrigin o' =>
      left
      cases hs
      change ((m.plan.dropOrigin o').origins.get o).isSome = true at h
      rw [Catchup.get_dropOrigin] at h
      split at h
      · cases h
      · exact h

/-- Dropping an origin leaves it no plan. -/
theorem Engine.isSome_dropOrigin {m m' : Engine} {o : Origin}
    (hs : m.step (.dropOrigin o) = some m') : (m'.plan.origins.get o).isSome = false := by
  cases hs
  show ((m.plan.dropOrigin o).origins.get o).isSome = false
  rw [Catchup.get_dropOrigin, if_pos rfl]
  rfl

-- =========================================================== the lease map is true

namespace Leasing

/-- The lease map says who serves: the engine its plans, a pull loop what
its round claimed. -/
structure Agree (m : Leasing) : Prop where
  plan : ∀ o, m.live o = true → (m.leases o).map Lease.holder = some .engine
  round : ∀ r ∈ m.rounds, ∀ o ∈ r.claimed, m.leases o = some ⟨.peer r.idx, r.at_⟩
  idx : m.rounds.Pairwise fun r r' => r.idx ≠ r'.idx
  dropped : ∀ o ∈ m.phase.unenrolls, m.live o = false

namespace Agree

variable {cfg : Config} {m m' : Leasing}

theorem exclusive (h : m.Agree) : m.Exclusive := by
  constructor
  · intro o r hlive hr hclaimed
    have hengine := h.plan o hlive
    rw [h.round r hr o hclaimed] at hengine
    cases hengine
  · refine h.idx.imp_of_mem fun {r r'} hr hr' hne o ho ho' => hne ?_
    have hlease := h.round r hr o ho
    rw [h.round r' hr' o ho', Option.some.injEq, Lease.mk.injEq, Holder.peer.injEq] at hlease
    exact hlease.1.symm

/-- A step of the engine that leaves the leases alone. -/
theorem engine (h : m.Agree) {engine : Engine} {queue : List Enroll} {phase : EnginePhase}
    (hlive : ∀ o, (engine.plan.origins.get o).isSome = true →
      m.live o = true ∨ (m.leases o).map Lease.holder = some .engine)
    (hphase : ∀ o ∈ phase.unenrolls, (engine.plan.origins.get o).isSome = false) :
    Agree { m with engine := engine, queue := queue, phase := phase } where
  plan o ho := (hlive o ho).elim (h.plan o) id
  round := h.round
  idx := h.idx
  dropped := hphase

/-- `claim_origins` leaves alone what is leased to a round that is not
over, or to the engine. -/
theorem claim (h : m.Agree) {idx now : ℕ} (hs : m.step cfg (.claim idx now) = some m')
    (hok : m.KeepsLeases (.claim idx now)) : m'.Agree := by
  simp only [step] at hs
  split at hs
  next hguard =>
    cases hs
    obtain ⟨-, -, hfree, -⟩ := hguard
    have hspec := claimOrigins_spec m.leases idx now cfg.originSet
    constructor
    · intro o ho
      have hengine := h.plan o ho
      show ((claimOrigins m.leases idx now cfg.originSet).1 o).map Lease.holder = _
      rw [(hspec o).1, if_neg, hengine]
      rintro ⟨-, hclaim⟩
      obtain ⟨l, hl, hholder⟩ := Option.map_eq_some_iff.mp hengine
      simp [claimable, hl, hholder] at hclaim
    · intro r hr o ho
      show (claimOrigins m.leases idx now cfg.originSet).1 o = _
      rw [(hspec o).1]
      rcases List.mem_cons.mp hr with rfl | hr
      · obtain ⟨hin, hskip⟩ := List.mem_filter.mp ho
        rw [decide_eq_true_eq, (hspec o).2, not_and, Bool.not_eq_false] at hskip
        rw [if_pos ⟨hin, hskip hin⟩]
      · have hlease := h.round r hr o ho
        rw [if_neg, hlease]
        rintro ⟨-, hclaim⟩
        have hyoung : now < r.at_ + LEASE_TTL := hok r hr
        simp only [claimable, hlease, ne_eq, reduceCtorEq, not_false_eq_true, decide_true,
          Bool.true_and, Bool.or_eq_true, decide_eq_true_eq, Holder.peer.injEq] at hclaim
        rcases hclaim with hown | hold
        · exact hfree r hr hown
        · have hpos : 0 < LEASE_TTL := by decide
          omega
    · exact List.pairwise_cons.mpr ⟨fun r hr => Ne.symm (hfree r hr), h.idx⟩
    · exact h.dropped
  next => cases hs

/-- Only its own leases go when a loop releases. -/
theorem release (h : m.Agree) (idx : ℕ) :
    Agree { m with
      leases := m.leases.release idx
      rounds := m.rounds.filter fun r => decide (r.idx ≠ idx) } where
  plan o ho := by
    have hengine := h.plan o ho
    obtain ⟨l, hl, hholder⟩ := Option.map_eq_some_iff.mp hengine
    simp [Leases.release, hl, hholder]
  round r hr o ho := by
    obtain ⟨hr, hne⟩ := List.mem_filter.mp hr
    have hne := of_decide_eq_true hne
    simp [Leases.release, h.round r hr o ho, hne]
  idx := h.idx.filter _
  dropped := h.dropped

theorem settle (h : m.Agree) {idx : ℕ} {adv : List Advert}
    (hs : m.step cfg (.settle idx adv) = some m') (hok : m.KeepsLeases (.settle idx adv)) :
    m'.Agree := by
  obtain ⟨r, hfind, rfl⟩ := Option.map_eq_some_iff.mp hs
  have hadv : ∀ a ∈ adv, a.freshBacklog = true → a.origin ∈ r.claimed := hok r hfind
  have hridx : r.idx = idx := of_decide_eq_true (List.find?_some
    (p := fun r : PullRound => decide (r.idx = idx)) hfind)
  have hr := List.mem_of_find?_eq_some hfind
  have hrel := h.release idx
  constructor
  · intro o ho
    show ((settleLeases m.leases idx m.now adv).1 o).map Lease.holder = _
    rw [settleLeases_spec]
    split
    · rfl
    · exact hrel.plan o ho
  · intro r' hr' o ho
    show (settleLeases m.leases idx m.now adv).1 o = _
    rw [settleLeases_spec, if_neg]
    · exact hrel.round r' hr' o ho
    · rintro ⟨a, ha, hfresh, rfl⟩
      obtain ⟨hr', hne⟩ := List.mem_filter.mp hr'
      have hlease := h.round r hr _ (hadv a ha hfresh)
      rw [h.round r' hr' _ ho, Option.some.injEq, Lease.mk.injEq, Holder.peer.injEq] at hlease
      exact of_decide_eq_true hne (hlease.1.trans hridx)
  · exact hrel.idx
  · exact h.dropped

theorem recv (h : m.Agree) {generation seq : ℕ}
    (hs : m.step cfg (.recv generation seq) = some m')
    (hok : m.KeepsLeases (.recv generation seq)) : m'.Agree := by
  simp only [step] at hs
  split at hs
  next =>
    split at hs
    next => cases hs
    next e queue hqueue =>
      have hok : generation = e.generation → seq < e.target →
          (m.engine.plan.enroll e.origin e.generation seq e.target).1 = true →
          (m.leases e.origin).map Lease.holder = some .engine :=
        hok e (by rw [hqueue]; rfl)
      rw [recvOne] at hs
      split at hs
      next hbehind =>
        obtain ⟨engine, hstep, rfl⟩ := Option.map_eq_some_iff.mp hs
        refine h.engine (fun o ho => ?_) fun o ho => ?_
        · rcases Engine.isSome_of_step hstep ho with hold | ⟨_, _, _, ha, hkept⟩
          · exact Or.inl hold
          · cases ha
            exact Or.inr (hok hbehind.1 hbehind.2 hkept)
        · cases hkept : (m.engine.plan.enroll e.origin e.generation seq e.target).1 with
          | true =>
              rw [hkept] at ho
              cases ho
          | false =>
              rw [hkept] at ho
              cases ho
              cases hstep
              show ((m.engine.plan.enroll e.origin e.generation seq e.target).2.origins.get
                e.origin).isSome = false
              rw [Catchup.isSome_enroll, if_pos rfl, hkept]
      next =>
        cases hs
        refine h.engine (fun o ho => Or.inl ho) fun o ho => ?_
        split at ho
        next hnone =>
          cases ho
          rwa [Option.isSome_eq_false_iff]
        next => cases ho
  next => cases hs

/-- A step of the planner that enrols nothing. -/
theorem of_step (h : m.Agree) {a : Engine.Act} {engine : Engine} {phase : EnginePhase}
    (hs : m.engine.step a = some engine)
    (ha : ∀ o generation cursor target, a ≠ .enroll o generation cursor target)
    (hphase : ∀ o ∈ phase.unenrolls, (engine.plan.origins.get o).isSome = false) :
    Agree { m with engine := engine, phase := phase } := by
  show Agree { m with engine := engine, queue := m.queue, phase := phase }
  refine h.engine (fun o ho => ?_) hphase
  rcases Engine.isSome_of_step hs ho with hold | ⟨_, _, _, hen, -⟩
  · exact Or.inl hold
  · exact absurd hen (ha _ _ _ _)

/-- Dropping an origin's plan before its lease. -/
theorem of_drop (h : m.Agree) {o : Origin} {engine : Engine} {again : Bool}
    (hs : m.engine.step (.dropOrigin o) = some engine) :
    Agree { m with engine := engine, phase := .unenrolling o again } := by
  refine h.of_step hs (fun _ _ _ _ => Engine.Act.noConfusion) fun o' ho' => ?_
  cases ho'
  exact Engine.isSome_dropOrigin hs

theorem reply (h : m.Agree) {i : ℕ} {events : List Event}
    (hs : m.step cfg (.reply i events) = some m') : m'.Agree := by
  simp only [step] at hs
  split at hs
  next hidle =>
    obtain ⟨t, -, hs⟩ := Option.bind_eq_some_iff.mp hs
    split at hs
    next =>
      obtain ⟨engine, hstep, rfl⟩ := Option.map_eq_some_iff.mp hs
      exact h.of_step hstep (fun _ _ _ _ => Engine.Act.noConfusion) fun o ho => by cases ho
    next =>
      obtain ⟨engine, hstep, hs⟩ := Option.bind_eq_some_iff.mp hs
      have hstruck : Agree { m with engine := engine } :=
        h.of_step hstep (fun _ _ _ _ => Engine.Act.noConfusion) fun o ho => by
          rw [hidle] at ho
          cases ho
      split at hs
      next =>
        cases hs
        exact hstruck
      next =>
        obtain ⟨engine', hdrop, rfl⟩ := Option.map_eq_some_iff.mp hs
        exact hstruck.of_drop hdrop
  next => cases hs

theorem drain (h : m.Agree) {applies : Bool} (hs : m.step cfg (.drain applies) = some m') :
    m'.Agree := by
  simp only [step] at hs
  split at hs
  next o hphase =>
    have hnone : ∀ o, o ∉ m.phase.unenrolls := by
      intro o ho
      rw [hphase] at ho
      cases ho
    rw [drainOne] at hs
    split at hs
    next =>
      split at hs
      next =>
        obtain ⟨engine, hstep, rfl⟩ := Option.map_eq_some_iff.mp hs
        exact h.of_step hstep (fun _ _ _ _ => Engine.Act.noConfusion) fun o ho =>
          absurd ho (hnone o)
      next =>
        obtain ⟨engine, htake, hs⟩ := Option.bind_eq_some_iff.mp hs
        obtain ⟨engine', hdrop, rfl⟩ := Option.map_eq_some_iff.mp hs
        have htaken : Agree { m with engine := engine } :=
          h.of_step htake (fun _ _ _ _ => Engine.Act.noConfusion) fun o ho =>
            absurd ho (hnone o)
        exact htaken.of_drop hdrop
    next =>
      split at hs
      next =>
        obtain ⟨engine, hdrop, rfl⟩ := Option.map_eq_some_iff.mp hs
        exact h.of_drop hdrop
      next =>
        cases hs
        exact h.engine (fun o ho => Or.inl ho) fun o ho => by cases ho
  next => cases hs

/-- What `unenroll` removes is the engine's, and no plan needs it any
more. -/
theorem unenroll (h : m.Agree) (hs : m.step cfg .unenroll = some m')
    (hok : m.KeepsLeases .unenroll) : m'.Agree := by
  simp only [step] at hs
  split at hs
  next o again hphase =>
    cases hs
    have hgone : m.live o = false := h.dropped o (by rw [hphase]; rfl)
    constructor
    · intro o' ho'
      have hne : o' ≠ o := by
        rintro rfl
        rw [show m.live o' = true from ho'] at hgone
        cases hgone
      show (Function.update m.leases o none o').map Lease.holder = _
      rw [Function.update_of_ne hne]
      exact h.plan o' ho'
    · intro r hr o' ho'
      have hlease := h.round r hr o' ho'
      have hne : o' ≠ o := by
        rintro rfl
        have hengine : Holder.peer r.idx = .engine := hok o' (by rw [hphase]; rfl) _ hlease
        cases hengine
      show Function.update m.leases o none o' = _
      rw [Function.update_of_ne hne]
      exact hlease
    · exact h.idx
    · intro o' ho'
      cases again with
      | true => cases ho'
      | false => cases ho'
  next => cases hs

end Agree

/-- Every step that meets the condition keeps the lease map true. -/
theorem Agree.step {cfg : Config} {m m' : Leasing} {a : Act} (h : m.Agree)
    (hok : m.KeepsLeases a) (hs : m.step cfg a = some m') : m'.Agree := by
  cases a with
  | tick d =>
      simp only [Leasing.step] at hs
      split at hs
      · cases hs
        exact ⟨h.plan, h.round, h.idx, h.dropped⟩
      · cases hs
  | claim idx now => exact h.claim hs hok
  | settle idx adv => exact h.settle hs hok
  | release idx =>
      cases hs
      exact h.release idx
  | send idx =>
      obtain ⟨e, -, rfl⟩ := Option.map_eq_some_iff.mp hs
      exact ⟨h.plan, h.round, h.idx, h.dropped⟩
  | recv generation seq => exact h.recv hs hok
  | nextAsk order =>
      simp only [Leasing.step] at hs
      split at hs
      next hidle =>
        obtain ⟨engine, hstep, rfl⟩ := Option.map_eq_some_iff.mp hs
        exact h.of_step hstep (fun _ _ _ _ => Engine.Act.noConfusion) fun o ho => by
          rw [hidle] at ho
          cases ho
      next => cases hs
  | unpick i =>
      simp only [Leasing.step] at hs
      split at hs
      next hidle =>
        obtain ⟨engine, hstep, rfl⟩ := Option.map_eq_some_iff.mp hs
        exact h.of_step hstep (fun _ _ _ _ => Engine.Act.noConfusion) fun o ho => by
          rw [hidle] at ho
          cases ho
      next => cases hs
  | reply i events => exact h.reply hs
  | drain applies => exact h.drain hs
  | unenroll => exact h.unenroll hs hok

end Leasing

/-- Along every run whose steps keep the leases, no two servers share an
origin. -/
theorem single_flight {cfg : Config} {m : Leasing}
    (h : (leaseSystem cfg).ReachIf Leasing.KeepsLeases m) : m.Exclusive := by
  refine Leasing.Agree.exclusive (System.ReachIf.invariant ?_ ?_ h)
  · rintro s rfl
    refine ⟨fun o ho => ?_, fun r hr => (List.not_mem_nil hr).elim, List.Pairwise.nil,
      fun o ho => ?_⟩
    · cases ho
    · cases ho
  · intro s a s' _ hagree hok hs
    exact hagree.step hok hs

/-- A node with two peers. -/
def Leasing.threeNodes : Config :=
  ⟨Origin.ofByte 1, [Origin.ofByte 2, Origin.ofByte 3]⟩

/-- Two rounds find origin 3 behind: the first hands it to the engine, the
second raises its target. The engine catches up with the first target
and gives the lease back. -/
def Leasing.handedOver : List Leasing.Act :=
  [.claim 0 0, .settle 0 [⟨Origin.ofByte 3, 1, 10, true⟩], .send 0,
    .claim 1 0, .settle 1 [⟨Origin.ofByte 3, 1, 11, false⟩], .send 1,
    .recv 1 9, .nextAsk [Origin.ofByte 3], .reply 0 [⟨10, none⟩], .drain true, .drain true,
    .unenroll]

theorem single_flight_handedOver : ∃ m : Leasing,
    (m.live (Origin.ofByte 3) = true ∧ m.rounds.length = 1) ∧ m.Exclusive := by
  have hrun : ((leaseSystem Leasing.threeNodes).runIf Leasing.KeepsLeases {}
      (Leasing.handedOver.take 7 ++ [.claim 1 0])).map (fun m =>
        (m.live (Origin.ofByte 3), m.rounds.length)) = some (true, 1) := by decide +kernel
  obtain ⟨m, hm, hread⟩ := Option.map_eq_some_iff.mp hrun
  obtain ⟨hlive, hrounds⟩ := Prod.mk.inj hread
  have hstart : (leaseSystem Leasing.threeNodes).ReachIf Leasing.KeepsLeases {} := .init rfl
  exact ⟨m, ⟨hlive, hrounds⟩, single_flight (hstart.runIf hm)⟩

/-- The second round's hand-off is still queued when the lease has gone
and another round has claimed the origin: it starts a plan there. -/
theorem late_enroll_double_serves : ¬ ∀ m,
    (leaseSystem Leasing.threeNodes).Reach m → m.Exclusive := by
  intro hall
  have hrun : ((leaseSystem Leasing.threeNodes).run {}
      (Leasing.handedOver ++ [.claim 0 0, .recv 1 10])).map (fun m =>
        (m.live (Origin.ofByte 3),
          m.rounds.any fun r => decide (Origin.ofByte 3 ∈ r.claimed)))
      = some (true, true) := by decide +kernel
  obtain ⟨m, hm, hread⟩ := Option.map_eq_some_iff.mp hrun
  obtain ⟨hlive, hclaimed⟩ := Prod.mk.inj hread
  obtain ⟨r, hr, hin⟩ := List.any_eq_true.mp hclaimed
  have hreach : (leaseSystem Leasing.threeNodes).Reach m :=
    (System.Reach.start rfl).run hm
  exact (hall m hreach).1 _ r hlive hr (of_decide_eq_true hin)

end Narshare
