/-
The catch-up window: how much the engine has fetched, or is fetching, and
not yet applied.

`ENGINE_WINDOW` is meant to bound the asks in flight and, with them, the
memory of the reorder buffers. `next_ask` looks at the asks in flight
alone, though, and a chunk that came out of order is in flight no more:
behind a slow head the buffers take a chunk for every ask that overtakes
it, and the window lets the next one out.

`Engine.occupancy` counts both. Every operation but `next_ask` moves an
ask from the window to a buffer at most, and `next_ask` adds one to the
asks in flight, of which there are fewer than the window holds. So it
stays bounded while the next ask goes out only after the chunks that have
come are drained (`Engine.Drained`): while the replies come in the order
of the ground they cover, or those that come early hold the next ask back.
`engine_loop` waits for neither. It fills the window before it waits, so
that one slot is free when a reply has come, and an ask sent then past a
chunk that does not connect is one too many.
-/
import Narshare.Lib.Roster
import Narshare.Sync.Catchup

namespace Narshare

-- ============================================================== the occupancy

/-- How many chunks a plan has buffered. -/
def OriginPlan.chunks (p : OriginPlan) : ℕ := p.buffered.sum fun _ _ => 1

theorem OriginPlan.chunks_eq_length (p : OriginPlan) :
    p.chunks = p.buffered.entries.length := by
  rw [chunks, OrdMap.sum, List.map_const', List.sum_replicate_nat, Nat.mul_one]

/-- How many all plans have. -/
def Catchup.chunks (c : Catchup) : ℕ := c.origins.sum fun _ p => p.chunks

namespace Engine

/-- The asks in flight and the chunks fetched and still buffered. -/
def occupancy (m : Engine) : ℕ := m.tickets.length + m.plan.chunks

/-- No ask is sent past a chunk that waits: whatever has come has been
drained, or has gone with its plan. -/
def Drained (m : Engine) : Act → Prop
  | .nextAsk _ => ∀ e ∈ m.plan.origins.entries, e.2.buffered.entries = []
  | _ => True

instance (m : Engine) (a : Act) : Decidable (m.Drained a) := by
  cases a with
  | nextAsk order => exact inferInstanceAs (Decidable (∀ e ∈ m.plan.origins.entries, _ = _))
  | _ => exact isTrue trivial

end Engine

-- ============================================================ what it comes to

namespace Catchup

variable {c c' : Catchup} {o : Origin}

/-- One plan put: the count moves by its own chunks. -/
theorem chunks_put (c : Catchup) (o : Origin) (p : OriginPlan) (n : ℕ) :
    (⟨c.origins.put o p, n⟩ : Catchup).chunks + (c.origins.get o).elim 0 OriginPlan.chunks
      = c.chunks + p.chunks :=
  OrdMap.sum_set (fun _ p => OriginPlan.chunks p) c.origins o (some p)

/-- A change that buffers at most `n` more chunks. -/
theorem chunks_modify_le (c : Catchup) (o : Origin) {f : OriginPlan → OriginPlan} {n : ℕ}
    (hf : ∀ p, (f p).chunks ≤ p.chunks + n) : (c.modify o f).chunks ≤ c.chunks + n := by
  unfold modify
  split
  next p hp =>
    have hput := c.chunks_put o (f p) c.inflight
    rw [hp, Option.elim_some] at hput
    have := hf p
    omega
  next => exact Nat.le_add_right _ _

/-- Where there is no plan nothing changes. -/
theorem chunks_dropOrigin_le (c : Catchup) (o : Origin) : (c.dropOrigin o).chunks ≤ c.chunks := by
  have hset : (c.dropOrigin o).chunks + (c.origins.get o).elim 0 OriginPlan.chunks
      = c.chunks + 0 :=
    OrdMap.sum_set (fun _ p => OriginPlan.chunks p) c.origins o none
  omega

theorem chunks_enroll_le (c : Catchup) (o : Origin) (generation cursor target : ℕ) :
    (c.enroll o generation cursor target).2.chunks ≤ c.chunks := by
  simp only [enroll]
  split
  next => exact c.chunks_dropOrigin_le o
  split
  next => exact c.chunks_dropOrigin_le o
  next =>
    have hput := c.chunks_put o
      { (c.origins.get o).getD (OriginPlan.fresh generation cursor) with
        target := max ((c.origins.get o).getD (OriginPlan.fresh generation cursor)).target target }
      c.inflight
    have hsame : OriginPlan.chunks
        { (c.origins.get o).getD (OriginPlan.fresh generation cursor) with
          target := max ((c.origins.get o).getD (OriginPlan.fresh generation cursor)).target
            target }
        = (c.origins.get o).elim 0 OriginPlan.chunks := by
      cases c.origins.get o with
      | none => rfl
      | some p => rfl
    rw [hsame] at hput
    exact (Nat.add_right_cancel hput).le

/-- To fetch is to buffer nothing. -/
theorem chunks_nextAsk {order : List Origin} {ask : RangeAsk}
    (h : c.nextAsk order = some (ask, c')) : c'.chunks = c.chunks := by
  obtain ⟨-, p, iv, q, hp, hpick, -, rfl⟩ := nextAsk_spec h
  have hput := c.chunks_put ask.origin q (c.inflight + 1)
  have hsame : q.chunks = p.chunks := by
    rcases OriginPlan.pick_spec hpick with ⟨-, hq⟩ | ⟨-, -, -, hq⟩
    · rw [hq]
      rfl
    · rw [hq]
      rfl
  rw [hp, Option.elim_some, hsame] at hput
  exact Nat.add_right_cancel hput

/-- A reply buffers one chunk, where there is a plan for it. -/
theorem chunks_complete_le (c : Catchup) (o : Origin) (after til : ℕ) (events : List Event) :
    (c.complete o after til events).chunks ≤ c.chunks + 1 := by
  refine c.land.chunks_modify_le o fun p => ?_
  unfold OriginPlan.chunks OriginPlan.complete
  simp only
  split
  next =>
    have hset := OrdMap.sum_set (fun _ (_ : List Event) => 1) p.buffered after (some events)
    rw [Option.elim_some] at hset
    exact (Nat.le_add_right _ _).trans hset.le
  next => exact Nat.le_succ _

theorem chunks_takeReady_le {r : ℕ × List Event} (h : c.takeReady o = some (r, c')) :
    c'.chunks ≤ c.chunks := by
  obtain ⟨-, k, -, -, -, -, rfl⟩ := takeReady_spec h
  refine c.chunks_modify_le (n := 0) o fun p => ?_
  have hset := OrdMap.sum_set (fun _ (_ : List Event) => 1) p.buffered k none
  rw [Option.elim_none] at hset
  exact (Nat.le_add_right _ _).trans hset.le

/-- Bookkeeping that leaves the buffer alone. -/
theorem chunks_modify_same_le (c : Catchup) (o : Origin) {f : OriginPlan → OriginPlan}
    (hf : ∀ p, (f p).buffered = p.buffered) : (c.modify o f).chunks ≤ c.chunks :=
  c.chunks_modify_le (n := 0) o fun p => (congrArg (fun b => b.sum fun _ _ => 1) (hf p)).le

theorem chunks_applied_le (c : Catchup) (o : Origin) (through : ℕ) :
    (c.applied o through).chunks ≤ c.chunks :=
  c.chunks_modify_same_le o
    (f := fun p => { p with
      cursor := max p.cursor through, next := max p.next (max p.cursor through) }) fun _ => rfl

end Catchup

namespace Engine

variable {m m' : Engine} {a : Act}

/-- To ask buffers nothing. -/
theorem chunks_nextAsk {order : List Origin} (hs : m.step (.nextAsk order) = some m') :
    m'.plan.chunks = m.plan.chunks := by
  simp only [step] at hs
  split at hs
  next =>
    obtain ⟨⟨ask, c'⟩, hask, rfl⟩ := Option.map_eq_some_iff.mp hs
    exact Catchup.chunks_nextAsk hask
  next => cases hs

/-- A step makes the occupancy no greater, or it sends out an ask. -/
theorem occupancy_step (hs : m.step a = some m') :
    m'.occupancy ≤ m.occupancy
      ∨ ∃ order, a = .nextAsk order ∧ m'.plan.chunks = m.plan.chunks := by
  cases a with
  | enroll o generation cursor target =>
      cases hs
      exact Or.inl (Nat.add_le_add_left (Catchup.chunks_enroll_le ..) _)
  | nextAsk order => exact Or.inr ⟨order, rfl, chunks_nextAsk hs⟩
  | unpick i =>
      obtain ⟨t, ht, rfl⟩ := Option.map_eq_some_iff.mp hs
      have hlen := length_eraseIdx_add ht
      have hplan := m.plan.land.chunks_modify_same_le t.ask.origin
        (f := fun p => { p with retry := (t.ask.after, t.ask.til) :: p.retry }) fun _ => rfl
      refine Or.inl (Nat.add_le_add ?_ hplan)
      simp only
      omega
  | strike i =>
      obtain ⟨t, ht, rfl⟩ := Option.map_eq_some_iff.mp hs
      have hlen := length_eraseIdx_add ht
      have hplan := m.plan.land.chunks_modify_same_le t.ask.origin
        (f := fun p => { p with
          retry := p.retry ++ [(t.ask.after, t.ask.til)], strikes := p.strikes + 1 }) fun _ => rfl
      refine Or.inl (Nat.add_le_add ?_ hplan)
      simp only
      omega
  | complete i events =>
      simp only [step] at hs
      split at hs
      next => cases hs
      next =>
        obtain ⟨t, ht, rfl⟩ := Option.map_eq_some_iff.mp hs
        have hlen := length_eraseIdx_add ht
        have hplan := m.plan.chunks_complete_le t.ask.origin t.ask.after t.ask.til events
        -- what leaves the window enters the buffer
        refine Or.inl ?_
        unfold occupancy
        simp only
        omega
  | takeReady o =>
      obtain ⟨⟨r, c'⟩, htake, rfl⟩ := Option.map_eq_some_iff.mp hs
      exact Or.inl (Nat.add_le_add_left (Catchup.chunks_takeReady_le htake) _)
  | applied o through =>
      cases hs
      exact Or.inl (Nat.add_le_add_left (m.plan.chunks_applied_le o through) _)
  | drain o =>
      obtain ⟨⟨r, c'⟩, htake, rfl⟩ := Option.map_eq_some_iff.mp hs
      refine Or.inl (Nat.add_le_add_left ?_ _)
      exact (c'.chunks_applied_le o _).trans (Catchup.chunks_takeReady_le htake)
  | dropOrigin o =>
      cases hs
      exact Or.inl (Nat.add_le_add_left (m.plan.chunks_dropOrigin_le o) _)

/-- Whatever happens, the planner counts the asks in flight, and never lets
out more than the window. -/
theorem inflight_of_reach (h : engineSystem.Reach m) :
    m.plan.inflight = m.tickets.length ∧ m.tickets.length ≤ ENGINE_WINDOW := by
  refine System.Reach.invariant (I := fun m : Engine => m.plan.inflight = m.tickets.length
    ∧ m.tickets.length ≤ ENGINE_WINDOW) ?_ (fun s a s' _ hi hs => inflight_step hi hs) h
  rintro s rfl
  exact ⟨rfl, Nat.zero_le _⟩

/-- No chunk is buffered where every buffer is empty. -/
theorem chunks_eq_zero_iff :
    m.plan.chunks = 0 ↔ ∀ e ∈ m.plan.origins.entries, e.2.buffered.entries = [] := by
  rw [Catchup.chunks, OrdMap.sum, List.sum_eq_zero_iff_forall_eq_nat, List.forall_mem_map]
  refine forall₂_congr fun e _ => ?_
  rw [OriginPlan.chunks_eq_length, List.length_eq_zero_iff]

end Engine

/-- In every run whose replies are drained before the next ask is sent,
the asks in flight and the chunks buffered together never exceed the
window. And where the ask would fill the last slot of the window, as it
does when `engine_loop` sends one after a reply, the bound holds after it
only if no chunk was waiting. -/
theorem window_bounded {m : Engine} (h : engineSystem.ReachIf Engine.Drained m) :
    m.tickets.length + m.plan.chunks ≤ ENGINE_WINDOW
      ∧ ∀ order m', m.step (.nextAsk order) = some m' → m'.tickets.length = ENGINE_WINDOW →
        (m'.tickets.length + m'.plan.chunks ≤ ENGINE_WINDOW ↔ m.Drained (.nextAsk order)) := by
  have hbound : m.occupancy ≤ ENGINE_WINDOW := by
    refine System.ReachIf.invariant (I := fun m : Engine => m.occupancy ≤ ENGINE_WINDOW) ?_ ?_ h
    · rintro s rfl
      exact Nat.zero_le _
    · intro s a s' hs' hi hdrained hs
      rcases Engine.occupancy_step hs with hle | ⟨order, rfl, hchunks⟩
      · exact hle.trans hi
      · rw [Engine.occupancy, hchunks, Engine.chunks_eq_zero_iff.mpr hdrained]
        exact (Engine.inflight_of_reach (hs'.reach.next hs)).2
  refine ⟨hbound, fun order m' hs hfull => ?_⟩
  have hchunks := Engine.chunks_nextAsk hs
  rw [Engine.Drained, ← Engine.chunks_eq_zero_iff, hchunks, hfull]
  omega

/-- The engine fills its window for one origin, and the second ask is
answered first. -/
def Engine.overtaken : List Engine.Act :=
  .enroll (Origin.ofByte 1) 1 0 40000 :: List.replicate 6 (.nextAsk [Origin.ofByte 1])
    ++ [.complete 1 [⟨4097, none⟩]]

/-- One slot less in flight, and the buffered chunk keeps it. -/
theorem window_bounded_overtaken : ∃ m : Engine, m.plan.chunks = 1
    ∧ m.tickets.length + m.plan.chunks ≤ ENGINE_WINDOW := by
  have hrun : ((engineSystem.runIf Engine.Drained {} Engine.overtaken).map fun m =>
      m.plan.chunks) = some 1 := by decide +kernel
  obtain ⟨m, hm, hread⟩ := Option.map_eq_some_iff.mp hrun
  exact ⟨m, hread, (window_bounded ((System.ReachIf.init rfl).runIf hm)).1⟩

/-- The engine asks for the next chunk all the same. -/
theorem overtaken_window_exceeded : ¬ ∀ m, engineSystem.Reach m →
    m.tickets.length + m.plan.chunks ≤ ENGINE_WINDOW := by
  intro hall
  have hrun : ((engineSystem.run {}
      (Engine.overtaken ++ [.nextAsk [Origin.ofByte 1]])).map fun m =>
        (m.tickets.length, m.plan.chunks)) = some (6, 1) := by decide +kernel
  obtain ⟨m, hm, hread⟩ := Option.map_eq_some_iff.mp hrun
  obtain ⟨hflight, hchunks⟩ := Prod.mk.inj hread
  have hle := hall m ((System.Reach.start rfl).run hm)
  rw [hflight, hchunks] at hle
  exact absurd hle (by decide)

end Narshare
