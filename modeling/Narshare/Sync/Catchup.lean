/-
The catch-up planner of sync.rs and the engine that drives it.

# The planner

`Catchup` is pure bookkeeping in the source too, so its methods are
transcribed one for one. The hash map of plans is an `OrdMap`; only
`next_ask` iterates over it, and takes the order it happens to meet the
plans in as an argument. The end of a new ask wraps at `2^64`; where the
source saturates, `ℕ` needs no more than truncated subtraction, for
`inflight`.

# The engine

`Engine` adds what the planner does not see: the asks in flight, which
outlive the plan that issued them. A `Ticket` is an ask with the serial
number of that plan, and an answer — `unpick`, `strike` or `complete` —
uses up one ticket, any one, at any time. `replies` and the serial
numbers are ghost state.

# Purity

Plans are keyed by the origin's name alone. `enroll` voids a plan whose
generation has passed and the engine drops replies of a generation other
than their ask's, but `complete` compares neither with the plan it finds,
so a reply that comes late enters whatever plan the origin has by then.
`SameGeneration` excludes that, and then every buffered chunk answers an
ask made under its plan's own generation (`Engine.Pure`).
-/
import Narshare.Index.Apply
import Narshare.Lib.Roster
import Narshare.Lib.System

namespace Narshare

-- ============================================================= the planner

/-- `CHUNK_EVENTS`. -/
def CHUNK_EVENTS : ℕ := 4096

/-- `ENGINE_WINDOW`. -/
def ENGINE_WINDOW : ℕ := 6

/-- `ENGINE_STRIKES`. -/
def ENGINE_STRIKES : ℕ := 3

/-- `OriginPlan`. -/
structure OriginPlan where
  generation : ℕ
  cursor : ℕ
  next : ℕ
  target : ℕ
  buffered : OrdMap ℕ (List Event)
  retry : List (ℕ × ℕ)
  strikes : ℕ

/-- `Catchup`. -/
structure Catchup where
  origins : OrdMap Origin OriginPlan := ∅
  inflight : ℕ := 0

/-- A plan just enrolled. -/
def OriginPlan.fresh (generation cursor : ℕ) : OriginPlan :=
  ⟨generation, cursor, cursor, cursor, ∅, [], 0⟩

/-- The interval a plan would fetch next: a retry, or new ground. Its end
is a `u64` and wraps round. -/
def OriginPlan.pick (p : OriginPlan) : Option ((ℕ × ℕ) × OriginPlan) :=
  match p.retry with
  | iv :: retry => some (iv, { p with retry := retry })
  | [] =>
      if p.next < p.target then
        let til := min ((p.next + CHUNK_EVENTS) % 2 ^ 64) p.target
        some ((p.next, til), { p with next := til })
      else none

/-- What a reply covers through: its last event, or nothing. -/
def OriginPlan.coveredBy (after : ℕ) (events : List Event) : ℕ :=
  match events.getLast? with
  | some e => e.seq
  | none => after

/-- `complete`, on the plan. -/
def OriginPlan.complete (p : OriginPlan) (after til : ℕ)
    (events : List Event) : OriginPlan :=
  { p with
    strikes := 0
    retry :=
      if OriginPlan.coveredBy after events < til then
        p.retry ++ [(OriginPlan.coveredBy after events, til)]
      else p.retry
    buffered := if events ≠ [] then p.buffered.put after events else p.buffered }

namespace Catchup

/-- Change one origin's plan, if it has one. -/
def modify (c : Catchup) (o : Origin) (f : OriginPlan → OriginPlan) : Catchup :=
  match c.origins.get o with
  | some p => { c with origins := c.origins.put o (f p) }
  | none => c

/-- `drop_origin`. -/
def dropOrigin (c : Catchup) (o : Origin) : Catchup :=
  { c with origins := c.origins.erase o }

/-- `enroll`: false when the catch-up was cancelled. -/
def enroll (c : Catchup) (o : Origin) (generation cursor target : ℕ) : Bool × Catchup :=
  let p := (c.origins.get o).getD (OriginPlan.fresh generation cursor)
  if p.generation ≠ generation then (false, c.dropOrigin o)
  else
    let p := { p with target := max p.target target }
    if p.target > p.cursor + JOURNAL_BACKSTOP then (false, c.dropOrigin o)
    else (true, { c with origins := c.origins.put o p })

/-- `next_ask`, the loop: the first plan with something to fetch. -/
def pickFirst (c : Catchup) : List Origin → Option (RangeAsk × Catchup)
  | [] => none
  | o :: order =>
      match c.origins.get o with
      | none => c.pickFirst order
      | some p =>
          match p.pick with
          | none => c.pickFirst order
          | some (iv, p') =>
              some (⟨o, p.generation, iv.1, iv.2⟩,
                { origins := c.origins.put o p', inflight := c.inflight + 1 })

/-- `next_ask`. -/
def nextAsk (c : Catchup) (order : List Origin) : Option (RangeAsk × Catchup) :=
  if c.inflight ≥ ENGINE_WINDOW then none else c.pickFirst order

/-- `inflight.saturating_sub(1)`. -/
def land (c : Catchup) : Catchup := { c with inflight := c.inflight - 1 }

/-- `unpick`. -/
def unpick (c : Catchup) (ask : RangeAsk) : Catchup :=
  c.land.modify ask.origin fun p => { p with retry := (ask.after, ask.til) :: p.retry }

/-- `complete`. -/
def complete (c : Catchup) (o : Origin) (after til : ℕ) (events : List Event) : Catchup :=
  c.land.modify o fun p => p.complete after til events

/-- `strike`: false when the origin goes back to the classic path. -/
def strike (c : Catchup) (o : Origin) (after til : ℕ) : Bool × Catchup :=
  (match c.origins.get o with
    | some p => decide (p.strikes + 1 < ENGINE_STRIKES)
    | none => true,
    c.land.modify o fun p =>
      { p with retry := p.retry ++ [(after, til)], strikes := p.strikes + 1 })

/-- `take_ready`: the chunk at the head of the buffer, when it connects
to the cursor. -/
def takeReady (c : Catchup) (o : Origin) : Option ((ℕ × List Event) × Catchup) :=
  (c.origins.get o).bind fun p =>
    match p.buffered.entries with
    | [] => none
    | (after, events) :: _ =>
        if after > p.cursor then none
        else
          some ((p.generation, events),
            c.modify o fun p => { p with buffered := p.buffered.erase after })

/-- `applied`. -/
def applied (c : Catchup) (o : Origin) (through : ℕ) : Catchup :=
  c.modify o fun p =>
    { p with cursor := max p.cursor through, next := max p.next (max p.cursor through) }

/-- `finished`. -/
def finished (c : Catchup) (o : Origin) : Bool :=
  match c.origins.get o with
  | none => true
  | some p => decide (p.target ≤ p.cursor) && p.buffered.entries.isEmpty && p.retry.isEmpty

end Catchup

-- ============================================================== the engine

/-- An ask in flight, with the serial number of the plan that issued
it. -/
structure Ticket where
  serial : ℕ
  ask : RangeAsk

/-- The planner, the asks in flight, the serial number of each origin's
latest plan, and every reply a peer has given. -/
structure Engine where
  plan : Catchup := {}
  tickets : List Ticket := []
  serial : Origin → ℕ := fun _ => 0
  count : ℕ := 0
  replies : List (RangeAsk × List Event) := []

namespace Engine

/-- The planner's operations; an answer names the ticket it uses up. -/
inductive Act
  | enroll (o : Origin) (generation cursor target : ℕ)
  | nextAsk (order : List Origin)
  | unpick (i : ℕ)
  | strike (i : ℕ)
  | complete (i : ℕ) (events : List Event)
  | takeReady (o : Origin)
  | applied (o : Origin) (through : ℕ)
  | drain (o : Origin)
  | dropOrigin (o : Origin)

/-- The guarded step; `drain` is a turn of `drain_applies`, a chunk taken
and applied. -/
def step (m : Engine) : Act → Option Engine
  | .enroll o generation cursor target =>
      some { m with
        plan := (m.plan.enroll o generation cursor target).2
        serial := if (m.plan.origins.get o).isNone then Function.update m.serial o m.count
          else m.serial
        count := m.count + 1 }
  | .nextAsk order =>
      if order.Perm m.plan.origins.keys then
        (m.plan.nextAsk order).map fun r =>
          { m with plan := r.2, tickets := m.tickets ++ [⟨m.serial r.1.origin, r.1⟩] }
      else none
  | .unpick i =>
      m.tickets[i]?.map fun t =>
        { m with plan := m.plan.unpick t.ask, tickets := m.tickets.eraseIdx i }
  | .strike i =>
      m.tickets[i]?.map fun t =>
        { m with
          plan := (m.plan.strike t.ask.origin t.ask.after t.ask.til).2
          tickets := m.tickets.eraseIdx i }
  | .complete i events =>
      if events = [] then none -- the engine strikes on an empty reply
      else
        m.tickets[i]?.map fun t =>
          { m with
            plan := m.plan.complete t.ask.origin t.ask.after t.ask.til events
            tickets := m.tickets.eraseIdx i
            replies := m.replies ++ [(t.ask, events)] }
  | .takeReady o => (m.plan.takeReady o).map fun r => { m with plan := r.2 }
  | .applied o through => some { m with plan := m.plan.applied o through }
  | .drain o =>
      (m.plan.takeReady o).map fun r =>
        { m with plan := r.2.applied o (OriginPlan.coveredBy 0 r.1.2) }
  | .dropOrigin o => some { m with plan := m.plan.dropOrigin o }

end Engine

/-- The engine, from its start with no plan and nothing in flight. -/
def engineSystem : System Engine Engine.Act where
  init m := m = {}
  step := Engine.step

-- ================================================ what an operation changes

namespace Catchup

variable {c c' : Catchup} {o : Origin}

theorem get_modify (c : Catchup) (o : Origin) (f : OriginPlan → OriginPlan) (o' : Origin) :
    (c.modify o f).origins.get o'
      = if o' = o then (c.origins.get o).map f else c.origins.get o' := by
  unfold modify
  split
  next p hp =>
    rw [hp]
    exact OrdMap.get_put ..
  next hp =>
    split
    next he => rw [he, hp, Option.map_none]
    next => rfl

theorem inflight_modify (c : Catchup) (o : Origin) (f : OriginPlan → OriginPlan) :
    (c.modify o f).inflight = c.inflight := by
  unfold modify
  split <;> rfl

theorem get_dropOrigin (c : Catchup) (o o' : Origin) :
    (c.dropOrigin o).origins.get o' = if o' = o then none else c.origins.get o' :=
  OrdMap.get_erase ..

/-- A plan found after `enroll` was there before, or it is the one
enrolled: the origin's old plan, or a fresh one, under a new target. -/
theorem get_enroll {generation cursor target : ℕ} {o' : Origin} {p : OriginPlan}
    (h : (c.enroll o generation cursor target).2.origins.get o' = some p) :
    (o' ≠ o ∧ c.origins.get o' = some p)
      ∨ o' = o ∧ ∃ q, q = (c.origins.get o).getD (OriginPlan.fresh generation cursor)
        ∧ p = { q with target := max q.target target } := by
  have hdrop : (c.dropOrigin o).origins.get o' = some p →
      o' ≠ o ∧ c.origins.get o' = some p := by
    intro h
    rw [get_dropOrigin] at h
    split at h
    next => cases h
    next hne => exact ⟨hne, h⟩
  simp only [enroll] at h
  split at h
  next => exact Or.inl (hdrop h)
  split at h
  next => exact Or.inl (hdrop h)
  next =>
    simp only at h
    rw [OrdMap.get_put] at h
    split at h
    next he =>
      cases h
      exact Or.inr ⟨he, _, rfl, rfl⟩
    next hne => exact Or.inl ⟨hne, h⟩

theorem inflight_enroll (c : Catchup) (o : Origin) (generation cursor target : ℕ) :
    (c.enroll o generation cursor target).2.inflight = c.inflight := by
  simp only [enroll]
  split
  · rfl
  · split <;> rfl

/-- What `next_ask` does when it finds something: it takes the interval
one plan picks, within the window. -/
theorem nextAsk_spec {order : List Origin} {ask : RangeAsk}
    (h : c.nextAsk order = some (ask, c')) :
    c.inflight < ENGINE_WINDOW ∧ ∃ p iv p', c.origins.get ask.origin = some p
      ∧ p.pick = some (iv, p') ∧ ask = ⟨ask.origin, p.generation, iv.1, iv.2⟩
      ∧ c' = { origins := c.origins.put ask.origin p', inflight := c.inflight + 1 } := by
  rw [nextAsk] at h
  split at h
  next => cases h
  next hwindow =>
    refine ⟨not_le.mp hwindow, ?_⟩
    induction order with
    | nil => cases h
    | cons o order ih =>
        rw [pickFirst] at h
        split at h
        next => exact ih h
        next p hp =>
          split at h
          next => exact ih h
          next iv p' hpick =>
            cases h
            exact ⟨p, iv, p', hp, hpick, rfl, rfl⟩

/-- What `take_ready` does when the head chunk connects: it is the first
of the buffer, starts at or below the cursor, and is gone. -/
theorem takeReady_spec {generation : ℕ} {events : List Event}
    (h : c.takeReady o = some ((generation, events), c')) :
    ∃ p after, c.origins.get o = some p ∧ p.generation = generation
      ∧ p.buffered.get after = some events ∧ after ≤ p.cursor
      ∧ c' = c.modify o fun p => { p with buffered := p.buffered.erase after } := by
  obtain ⟨p, hp, h⟩ := Option.bind_eq_some_iff.mp h
  split at h
  next => cases h
  next after events' rest hentries =>
    split at h
    next => cases h
    next hle =>
      cases h
      refine ⟨p, after, hp, rfl, ?_, not_lt.mp hle, rfl⟩
      rw [← OrdMap.mem_entries, hentries]
      exact List.mem_cons_self

end Catchup

/-- What a plan picks to fetch leaves its generation, cursor and buffer
alone. -/
theorem OriginPlan.pick_spec {p p' : OriginPlan} {iv : ℕ × ℕ}
    (h : p.pick = some (iv, p')) :
    (p.retry = iv :: p'.retry ∧ p' = { p with retry := p'.retry })
      ∨ (p.retry = [] ∧ iv.1 = p.next ∧ p.next < p.target ∧ p' = { p with next := iv.2 }) := by
  rw [pick] at h
  split at h
  next iv' retry hretry =>
    cases h
    exact Or.inl ⟨hretry, rfl⟩
  next hretry =>
    split at h
    next hlt =>
      cases h
      exact Or.inr ⟨hretry, rfl, hlt, rfl⟩
    next => cases h

-- =============================================================== the window

/-- What a step keeps: the planner counts the asks in flight, and there are
no more of them than the window holds. -/
theorem Engine.inflight_step {m m' : Engine} {a : Engine.Act}
    (h : m.plan.inflight = m.tickets.length ∧ m.tickets.length ≤ ENGINE_WINDOW)
    (hs : m.step a = some m') :
    m'.plan.inflight = m'.tickets.length ∧ m'.tickets.length ≤ ENGINE_WINDOW := by
  have hquiet : m'.plan.inflight = m.plan.inflight → m'.tickets = m.tickets →
      m'.plan.inflight = m'.tickets.length ∧ m'.tickets.length ≤ ENGINE_WINDOW := by
    intro hin htickets
    rw [hin, htickets]
    exact h
  have hland : ∀ {i t}, m.tickets[i]? = some t → m'.plan.inflight = m.plan.inflight - 1 →
      m'.tickets = m.tickets.eraseIdx i →
      m'.plan.inflight = m'.tickets.length ∧ m'.tickets.length ≤ ENGINE_WINDOW := by
    intro i t ht hin htickets
    have hlen := length_eraseIdx_add ht
    rw [hin, htickets, h.1]
    omega
  cases a with
  | enroll o generation cursor target =>
      cases hs
      exact hquiet (Catchup.inflight_enroll ..) rfl
  | nextAsk order =>
      simp only [Engine.step] at hs
      split at hs
      next =>
        obtain ⟨⟨ask, c'⟩, hask, rfl⟩ := Option.map_eq_some_iff.mp hs
        obtain ⟨hlt, p, iv, q, -, -, -, rfl⟩ := Catchup.nextAsk_spec hask
        simp only [List.length_append, List.length_singleton]
        omega
      next => cases hs
  | unpick i =>
      obtain ⟨t, ht, rfl⟩ := Option.map_eq_some_iff.mp hs
      exact hland ht (Catchup.inflight_modify ..) rfl
  | strike i =>
      obtain ⟨t, ht, rfl⟩ := Option.map_eq_some_iff.mp hs
      exact hland ht (Catchup.inflight_modify ..) rfl
  | complete i events =>
      simp only [Engine.step] at hs
      split at hs
      next => cases hs
      next =>
        obtain ⟨t, ht, rfl⟩ := Option.map_eq_some_iff.mp hs
        exact hland ht (Catchup.inflight_modify ..) rfl
  | takeReady o =>
      obtain ⟨⟨r, c'⟩, htake, rfl⟩ := Option.map_eq_some_iff.mp hs
      obtain ⟨p, after, -, -, -, -, rfl⟩ := Catchup.takeReady_spec htake
      exact hquiet (Catchup.inflight_modify ..) rfl
  | applied o through =>
      cases hs
      exact hquiet (Catchup.inflight_modify ..) rfl
  | drain o =>
      obtain ⟨⟨r, c'⟩, htake, rfl⟩ := Option.map_eq_some_iff.mp hs
      obtain ⟨p, after, -, -, -, -, rfl⟩ := Catchup.takeReady_spec htake
      exact hquiet ((Catchup.inflight_modify ..).trans (Catchup.inflight_modify ..)) rfl
  | dropOrigin o =>
      cases hs
      exact hquiet rfl rfl

-- ================================================================== purity

/-- Every chunk `c'` has buffered, `c` had buffered already, in a plan of
the same generation. -/
def Catchup.NoNewChunk (c c' : Catchup) : Prop :=
  ∀ o p' after events, c'.origins.get o = some p' → p'.buffered.get after = some events →
    ∃ p, c.origins.get o = some p ∧ p.generation = p'.generation
      ∧ p.buffered.get after = some events

namespace Catchup.NoNewChunk

variable {c c' c'' : Catchup} {o : Origin}

theorem trans (h : NoNewChunk c c') (h' : NoNewChunk c' c'') : NoNewChunk c c'' := by
  intro o p'' after events hp'' hb
  obtain ⟨p', hp', hg', hb'⟩ := h' o p'' after events hp'' hb
  obtain ⟨p, hp, hg, hb''⟩ := h o p' after events hp' hb'
  exact ⟨p, hp, hg.trans hg', hb''⟩

/-- A change of one plan that keeps its generation and buffers nothing
new. -/
theorem of_modify {f : OriginPlan → OriginPlan} (hc : c'.origins = c.origins)
    (hgen : ∀ p, (f p).generation = p.generation)
    (hbuf : ∀ p after events, (f p).buffered.get after = some events →
      p.buffered.get after = some events) : NoNewChunk c (c'.modify o f) := by
  intro o' p' after events hp' hb
  rw [get_modify, hc] at hp'
  split at hp'
  next he =>
    obtain ⟨p, hp, rfl⟩ := Option.map_eq_some_iff.mp hp'
    exact ⟨p, he ▸ hp, (hgen p).symm, hbuf p after events hb⟩
  next => exact ⟨p', hp', rfl, hb⟩

theorem of_enroll (generation cursor target : ℕ) :
    NoNewChunk c (c.enroll o generation cursor target).2 := by
  intro o' p' after events hp' hb
  rcases get_enroll hp' with ⟨-, hp⟩ | ⟨rfl, q, hq, rfl⟩
  · exact ⟨p', hp, rfl, hb⟩
  · cases hget : c.origins.get o' with
    | none =>
        rw [hget] at hq
        rw [hq] at hb
        cases hb
    | some p =>
        rw [hget] at hq
        cases hq
        exact ⟨p, rfl, rfl, hb⟩

theorem of_nextAsk {order : List Origin} {ask : RangeAsk}
    (h : c.nextAsk order = some (ask, c')) : NoNewChunk c c' := by
  obtain ⟨-, p, iv, q, hp, hpick, -, rfl⟩ := nextAsk_spec h
  intro o' p' after events hp' hb
  rw [OrdMap.get_put] at hp'
  split at hp'
  next he =>
    cases hp'
    refine ⟨p, he ▸ hp, ?_⟩
    rcases OriginPlan.pick_spec hpick with ⟨-, hq⟩ | ⟨-, -, -, hq⟩
    · rw [hq] at hb ⊢
      exact ⟨rfl, hb⟩
    · rw [hq] at hb ⊢
      exact ⟨rfl, hb⟩
  next => exact ⟨p', hp', rfl, hb⟩

theorem of_takeReady {r : ℕ × List Event} (h : c.takeReady o = some (r, c')) :
    NoNewChunk c c' := by
  obtain ⟨-, k, -, -, -, -, rfl⟩ := takeReady_spec h
  refine of_modify rfl (fun _ => rfl) fun p after events hb => ?_
  rw [OrdMap.get_erase] at hb
  split at hb
  · cases hb
  · exact hb

theorem of_applied (through : ℕ) : NoNewChunk c (c.applied o through) :=
  of_modify rfl (fun _ => rfl) fun _ _ _ hb => hb

theorem of_dropOrigin : NoNewChunk c (c.dropOrigin o) := by
  intro o' p' after events hp' hb
  rw [get_dropOrigin] at hp'
  split at hp'
  · cases hp'
  · exact ⟨p', hp', rfl, hb⟩

end Catchup.NoNewChunk

/-- What `complete` buffers is the reply, in the plan it finds. -/
theorem Catchup.buffered_complete {c : Catchup} {o o' : Origin} {after til after' : ℕ}
    {events events' : List Event} {p' : OriginPlan}
    (hp' : (c.complete o after til events).origins.get o' = some p')
    (hb : p'.buffered.get after' = some events') :
    ∃ p, c.origins.get o' = some p ∧ p.generation = p'.generation
      ∧ (p.buffered.get after' = some events'
        ∨ (o' = o ∧ after' = after ∧ events' = events)) := by
  simp only [complete] at hp'
  rw [get_modify] at hp'
  split at hp'
  next he =>
    obtain ⟨p, hp, rfl⟩ := Option.map_eq_some_iff.mp hp'
    refine ⟨p, he ▸ hp, rfl, ?_⟩
    simp only [OriginPlan.complete] at hb
    split at hb
    next =>
      rw [OrdMap.get_put] at hb
      split at hb
      next hafter =>
        cases hb
        exact Or.inr ⟨he, hafter, rfl⟩
      next => exact Or.inl hb
    next => exact Or.inl hb
  next => exact ⟨p', hp', rfl, Or.inl hb⟩

namespace Engine

/-- A step buffers nothing new and keeps the replies, or it lands one
reply. -/
theorem step_chunks {m m' : Engine} {a : Act} (hs : m.step a = some m') :
    (m.plan.NoNewChunk m'.plan ∧ m'.replies = m.replies)
      ∨ ∃ i events t, a = .complete i events ∧ events ≠ [] ∧ m.tickets[i]? = some t
        ∧ m'.plan = m.plan.complete t.ask.origin t.ask.after t.ask.til events
        ∧ m'.replies = m.replies ++ [(t.ask, events)] := by
  cases a with
  | enroll o generation cursor target =>
      cases hs
      exact Or.inl ⟨.of_enroll _ _ _, rfl⟩
  | nextAsk order =>
      simp only [step] at hs
      split at hs
      next =>
        obtain ⟨⟨ask, c'⟩, hask, rfl⟩ := Option.map_eq_some_iff.mp hs
        exact Or.inl ⟨.of_nextAsk hask, rfl⟩
      next => cases hs
  | unpick i =>
      obtain ⟨t, -, rfl⟩ := Option.map_eq_some_iff.mp hs
      exact Or.inl ⟨.of_modify rfl (fun _ => rfl) fun _ _ _ h => h, rfl⟩
  | strike i =>
      obtain ⟨t, -, rfl⟩ := Option.map_eq_some_iff.mp hs
      exact Or.inl ⟨.of_modify rfl (fun _ => rfl) fun _ _ _ h => h, rfl⟩
  | complete i events =>
      simp only [step] at hs
      split at hs
      next => cases hs
      next hne =>
        obtain ⟨t, ht, rfl⟩ := Option.map_eq_some_iff.mp hs
        exact Or.inr ⟨i, events, t, rfl, hne, ht, rfl, rfl⟩
  | takeReady o =>
      obtain ⟨⟨r, c'⟩, htake, rfl⟩ := Option.map_eq_some_iff.mp hs
      exact Or.inl ⟨.of_takeReady htake, rfl⟩
  | applied o through =>
      cases hs
      exact Or.inl ⟨.of_applied through, rfl⟩
  | drain o =>
      obtain ⟨⟨r, c'⟩, htake, rfl⟩ := Option.map_eq_some_iff.mp hs
      exact Or.inl ⟨(Catchup.NoNewChunk.of_takeReady htake).trans (.of_applied _), rfl⟩
  | dropOrigin o =>
      cases hs
      exact Or.inl ⟨.of_dropOrigin, rfl⟩

/-- The reply a step lands finds no plan for its origin, or one of the
generation it was asked under. -/
def SameGeneration (m : Engine) : Act → Prop
  | .complete i _ => ∀ t ∈ m.tickets[i]?, ∀ p ∈ m.plan.origins.get t.ask.origin,
      p.generation = t.ask.generation
  | _ => True

instance (m : Engine) (a : Act) : Decidable (m.SameGeneration a) :=
  match a with
  | .complete i _ => inferInstanceAs (Decidable (∀ t ∈ m.tickets[i]?,
      ∀ p ∈ m.plan.origins.get t.ask.origin, p.generation = t.ask.generation))
  | .enroll .. | .nextAsk .. | .unpick .. | .strike .. | .takeReady .. | .applied ..
  | .drain .. | .dropOrigin .. => isTrue trivial

/-- Every buffered chunk is a reply to an ask made for its origin under
its plan's generation, from the place it is buffered at. -/
def Pure (m : Engine) : Prop :=
  ∀ o p, m.plan.origins.get o = some p →
    ∀ after events, p.buffered.get after = some events →
      ∃ ask, (ask, events) ∈ m.replies ∧ ask.origin = o
        ∧ ask.generation = p.generation ∧ ask.after = after

theorem Pure.step {m m' : Engine} {a : Act} (h : m.Pure) (hok : m.SameGeneration a)
    (hs : m.step a = some m') : m'.Pure := by
  intro o p' hp' after events hb
  rcases step_chunks hs with ⟨hold, hrep⟩ | ⟨i, reply, t, rfl, -, ht, hplan, hrep⟩
  · obtain ⟨p, hp, hg, hb'⟩ := hold o p' after events hp' hb
    rw [hrep, ← hg]
    exact h o p hp after events hb'
  · rw [hplan] at hp'
    obtain ⟨p, hp, hg, hfrom⟩ := Catchup.buffered_complete hp' hb
    rw [hrep, ← hg]
    rcases hfrom with hb' | ⟨rfl, rfl, rfl⟩
    · obtain ⟨ask, hmem, hask⟩ := h o p hp after events hb'
      exact ⟨ask, List.mem_append_left _ hmem, hask⟩
    · have hgen : p.generation = t.ask.generation := hok t ht p hp
      exact ⟨t.ask, List.mem_append_right _ List.mem_cons_self, rfl, hgen.symm, rfl⟩

end Engine

/-- Along every run whose replies meet a plan of the generation they were
asked under, if any, every chunk the planner has buffered, and so every
batch it hands out, is a reply to an ask made under the plan's own
generation. -/
theorem catchup_pure : ∀ m, engineSystem.ReachIf Engine.SameGeneration m →
    m.Pure ∧ ∀ o generation events c', m.plan.takeReady o = some ((generation, events), c') →
      ∃ ask, (ask, events) ∈ m.replies ∧ ask.origin = o ∧ ask.generation = generation := by
  intro m h
  have hpure : m.Pure := by
    refine System.ReachIf.invariant ?_ ?_ h
    · rintro s rfl o p hp
      cases hp
    · intro s a s' _ hpure hok hs
      exact hpure.step hok hs
  refine ⟨hpure, fun o generation events c' htake => ?_⟩
  obtain ⟨p, after, hp, hg, hb, -, -⟩ := Catchup.takeReady_spec htake
  obtain ⟨ask, hmem, ho, hgen, -⟩ := hpure o p hp after events hb
  exact ⟨ask, hmem, ho, hgen.trans hg⟩

/-- An origin is enrolled and asked for under generation 1, dropped, and
enrolled again under generation 2. -/
def Engine.reenrolled (answer : List Engine.Act) : List Engine.Act :=
  [.enroll (Origin.ofByte 1) 1 0 1, .nextAsk [Origin.ofByte 1]] ++ answer
    ++ [.dropOrigin (Origin.ofByte 1), .enroll (Origin.ofByte 1) 2 0 1]

theorem catchup_pure_reenrolled : ∃ m : Engine, ∃ c', ∃ ask,
    m.plan.takeReady (Origin.ofByte 1) = some ((2, [⟨1, none⟩]), c')
      ∧ (ask, [⟨1, none⟩]) ∈ m.replies
      ∧ ask.origin = Origin.ofByte 1 ∧ ask.generation = 2 := by
  have hrun : ((engineSystem.runIf Engine.SameGeneration {}
        (Engine.reenrolled [.complete 0 [⟨1, some (.drop [])⟩]]
          ++ [.nextAsk [Origin.ofByte 1], .complete 0 [⟨1, none⟩]])).bind fun m =>
        (m.plan.takeReady (Origin.ofByte 1)).map Prod.fst)
      = some (2, [⟨1, none⟩]) := by decide +kernel
  obtain ⟨m, hm, hread⟩ := Option.bind_eq_some_iff.mp hrun
  obtain ⟨⟨r, c'⟩, htake, hr⟩ := Option.map_eq_some_iff.mp hread
  cases hr
  have hreach : engineSystem.ReachIf Engine.SameGeneration m :=
    System.ReachIf.runIf (System.ReachIf.init rfl) hm
  obtain ⟨ask, hask⟩ := (catchup_pure m hreach).2 (Origin.ofByte 1) 2 [⟨1, none⟩] c' htake
  exact ⟨m, c', ask, htake, hask⟩

/-- A reply to the dropped plan's ask is handed out as a batch of the new
generation. -/
theorem late_reply_mixes : ¬ ∀ m, engineSystem.Reach m →
    ∀ o generation events c', m.plan.takeReady o = some ((generation, events), c') →
      ∃ ask, (ask, events) ∈ m.replies ∧ ask.origin = o ∧ ask.generation = generation := by
  intro hall
  have hrun : ((engineSystem.run {}
        (Engine.reenrolled [] ++ [.complete 0 [⟨1, none⟩]])).bind fun m =>
        (m.plan.takeReady (Origin.ofByte 1)).map fun r =>
          (r.1, m.replies.map fun r => r.1.generation))
      = some ((2, [⟨1, none⟩]), [1]) := by decide +kernel
  obtain ⟨m, hm, hread⟩ := Option.bind_eq_some_iff.mp hrun
  obtain ⟨⟨r, c'⟩, htake, hr⟩ := Option.map_eq_some_iff.mp hread
  obtain ⟨hr, hreplies⟩ := Prod.mk.inj hr
  cases hr
  obtain ⟨ask, hmem, -, hg⟩ := hall m (System.Reach.run (System.Reach.start rfl) hm)
    (Origin.ofByte 1) 2 [⟨1, none⟩] c' htake
  have hin : ask.generation ∈ m.replies.map fun r => r.1.generation :=
    List.mem_map.mpr ⟨_, hmem, rfl⟩
  rw [hreplies, hg] at hin
  exact absurd hin (by decide)

end Narshare
