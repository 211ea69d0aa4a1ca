/-
The memory governor: budgets of caches, driven by how short memory is.

# The numbers

`f64` is ℚ here. A signal that cannot be read is `none`, and counts as
calm. What the ramps come to is said in the units of the signals:
`pressed_iff` at which readings the budgets halve, `calm_iff` under which
all of them have to be for the budgets to climb.

# What a run comes to

A budget starts at its cache's ceiling, and so does the cache itself. From
then on each is the fold of `next_budget` over the ticks, and a cache has
always been told what the governor holds (`run_eq`). Halving goes past the
floor it is clamped to, climbing past the ceiling, so a stretch of ticks of
one kind has a closed form: the clamps in the middle of it leave no trace
(`foldl_pressed`, `foldl_calm`).

The log is written at the transitions only. It is the sequence of the
ticks that are pressed or calm with the repetitions taken out, as if a
calm one had come before the first (`log_eq`).
-/
import Mathlib.Data.List.Destutter
import Mathlib.Data.List.Zip
import Mathlib.Tactic.NormNum
import Mathlib.Tactic.Push
import Narshare.Lib.Clamp

namespace Narshare

-- ================================================================== the signals

/-- `SHRINK_AT`. -/
def SHRINK_AT : ℚ := 1 / 2

/-- `HOLD_AT`. -/
def HOLD_AT : ℚ := 1 / 5

/-- `CLIMB_FLOOR`. -/
def CLIMB_FLOOR : ℕ := 2 ^ 20

/-- `ramp`. -/
def ramp (v atZero atOne : ℚ) : ℚ := clamp 0 1 ((v - atZero) / (atOne - atZero))

/-- What `pressure` reads: the stalls of our own cgroup and of the machine
in percent, how full the cgroup is, and how much memory is available. -/
structure Signals where
  ownPsi : Option ℚ := none
  sysPsi : Option ℚ := none
  cgFill : Option ℚ := none
  availFrac : Option ℚ := none
deriving DecidableEq

namespace Signals

/-- `severity`. -/
def severity (s : Signals) : ℚ :=
  let p := 0
  let p := s.ownPsi.elim p fun v => max p (ramp v (1 / 2) 5)
  let p := s.sysPsi.elim p fun v => max p (ramp v 2 20)
  let p := s.cgFill.elim p fun r => max p (ramp r (3 / 4) (19 / 20))
  s.availFrac.elim p fun a => max p (ramp a (1 / 10) (1 / 20))

/-- Some signal has the budgets halve. -/
def Pressed (s : Signals) : Prop :=
  (∃ v ∈ s.ownPsi, 11 / 4 ≤ v) ∨ (∃ v ∈ s.sysPsi, 11 ≤ v) ∨ (∃ r ∈ s.cgFill, 17 / 20 ≤ r)
    ∨ ∃ a ∈ s.availFrac, a ≤ 3 / 40

/-- Every signal lets the budgets climb. -/
def Calm (s : Signals) : Prop :=
  (∀ v ∈ s.ownPsi, v < 7 / 5) ∧ (∀ v ∈ s.sysPsi, v < 28 / 5) ∧ (∀ r ∈ s.cgFill, r < 79 / 100)
    ∧ ∀ a ∈ s.availFrac, 9 / 100 < a

instance (s : Signals) : Decidable s.Pressed := inferInstanceAs (Decidable (_ ∨ _ ∨ _ ∨ _))

instance (s : Signals) : Decidable s.Calm := inferInstanceAs (Decidable (_ ∧ _ ∧ _ ∧ _))

end Signals

-- ================================================================= the governor

/-- `u64::saturating_add`. -/
def saturatingAdd (a b : ℕ) : ℕ := min (a + b) (2 ^ 64 - 1)

/-- `next_budget`. -/
def nextBudget (current ceiling floor : ℕ) (pressure : ℚ) : ℕ :=
  let floor := min floor ceiling
  let next :=
    if SHRINK_AT ≤ pressure then current / 2
    else if HOLD_AT ≤ pressure then current
    else saturatingAdd (saturatingAdd current (current / 4)) CLIMB_FLOOR
  clamp floor ceiling next

/-- `Shrinkable`: the bounds of a cache, which stay as they are. -/
structure Shrinkable where
  ceiling : ℕ
  floor : ℕ
  /-- The ceiling is a `u64`. -/
  word : ceiling < 2 ^ 64

/-- What the governor logs at `info`. -/
inductive MemSaid
  | shrinking
  | eased
deriving DecidableEq

/-- What a tick with these signals is logged as, where it is a transition. -/
def Signals.band (s : Signals) : Option MemSaid :=
  if s.Pressed then some .shrinking else if s.Calm then some .eased else none

/-- The variables of `spawn_governor`. -/
structure MemGovernor where
  budgets : List ℕ
  squeezed : Bool := false
deriving DecidableEq

/-- One turn of its loop: the variables after it, for each cache the
`set_budget` it gets, if any, and the line that is logged, if any. -/
structure MemTurn where
  governor : MemGovernor
  calls : List (Option ℕ)
  said : Option MemSaid
deriving DecidableEq

namespace MemGovernor

/-- `spawn_governor`, before the loop. -/
def new (caches : List Shrinkable) : MemGovernor where
  budgets := caches.map Shrinkable.ceiling

/-- The loop over the caches, one of them: its budget and its `set_budget`. -/
def adjust (pressure : ℚ) (c : Shrinkable) (b : ℕ) : ℕ × Option ℕ :=
  let next := nextBudget b c.ceiling c.floor pressure
  if next ≠ b then (next, some next) else (b, none)

/-- What a tick logs. -/
def logged (squeezed : Bool) (pressure : ℚ) : Option MemSaid :=
  if SHRINK_AT ≤ pressure ∧ squeezed = false then some .shrinking
  else if pressure < HOLD_AT ∧ squeezed = true then some .eased
  else none

/-- `squeezed`, after what a tick logs. -/
def squeezedBy (squeezed : Bool) (said : Option MemSaid) : Bool :=
  said.elim squeezed fun m => decide (m = .shrinking)

/-- One turn of the loop. -/
def tick (caches : List Shrinkable) (g : MemGovernor) (s : Signals) : MemTurn :=
  let said := logged g.squeezed s.severity
  let adjusted := List.zipWith (adjust s.severity) caches g.budgets
  ⟨⟨adjusted.map Prod.fst, squeezedBy g.squeezed said⟩, adjusted.map Prod.snd, said⟩

/-- The loop: what the caches have been told last, and the log. -/
def run (caches : List Shrinkable) (g : MemGovernor) (told : List ℕ) :
    List Signals → List ℕ × List MemSaid
  | [] => (told, [])
  | s :: ticks =>
      let turn := g.tick caches s
      let told := List.zipWith (fun b call => call.getD b) told turn.calls
      let rest := run caches turn.governor told ticks
      (rest.1, turn.said.toList ++ rest.2)

/-- `spawn_governor`, up to some tick. A cache is made at its ceiling. -/
def spawn (caches : List Shrinkable) (ticks : List Signals) : List ℕ × List MemSaid :=
  let told := caches.map Shrinkable.ceiling
  if caches = [] then (told, []) else (new caches).run caches told ticks

end MemGovernor

-- ==================================================================== the ramps

section Ramps

variable {v z o m : ℚ}

/-- Going up, a mark is passed at the same part of the way. -/
theorem le_ramp_iff (h : z < o) (hm : 0 < m) (hm' : m ≤ 1) :
    m ≤ ramp v z o ↔ z + m * (o - z) ≤ v := by
  have hpos : 0 < o - z := sub_pos.mpr h
  rw [ramp, clamp, le_max_iff, le_min_iff, le_div_iff₀ hpos]
  constructor
  · rintro (hle | ⟨hle, -⟩)
    · exact absurd hle (not_le.mpr hm)
    · linarith
  · intro hle
    exact .inr ⟨by linarith, hm'⟩

/-- And going down. -/
theorem le_ramp_iff_of_gt (h : o < z) (hm : 0 < m) (hm' : m ≤ 1) :
    m ≤ ramp v z o ↔ v ≤ z - m * (z - o) := by
  have hneg : o - z < 0 := sub_neg.mpr h
  rw [ramp, clamp, le_max_iff, le_min_iff, le_div_iff_of_neg hneg]
  constructor
  · rintro (hle | ⟨hle, -⟩)
    · exact absurd hle (not_le.mpr hm)
    · linarith
  · intro hle
    exact .inr ⟨by linarith, hm'⟩

end Ramps

namespace Signals

variable {s : Signals} {m : ℚ}

/-- The severity passes a mark when one of the signals does. -/
theorem le_severity_iff (hm : 0 < m) (hm' : m ≤ 1) :
    m ≤ s.severity ↔ (∃ v ∈ s.ownPsi, 1 / 2 + m * (9 / 2) ≤ v) ∨ (∃ v ∈ s.sysPsi, 2 + m * 18 ≤ v)
      ∨ (∃ r ∈ s.cgFill, 3 / 4 + m * (1 / 5) ≤ r)
      ∨ ∃ a ∈ s.availFrac, a ≤ 1 / 10 - m * (1 / 20) := by
  have hup : ∀ {p : ℚ} {x : Option ℚ} {z o : ℚ}, z < o →
      (m ≤ x.elim p (fun v => max p (ramp v z o)) ↔ m ≤ p ∨ ∃ v ∈ x, z + m * (o - z) ≤ v) := by
    intro p x z o h
    cases x with
    | none => simp
    | some v => simp [le_ramp_iff h hm hm']
  have hdown : ∀ {p : ℚ} {x : Option ℚ} {z o : ℚ}, o < z →
      (m ≤ x.elim p (fun v => max p (ramp v z o)) ↔ m ≤ p ∨ ∃ v ∈ x, v ≤ z - m * (z - o)) := by
    intro p x z o h
    cases x with
    | none => simp
    | some v => simp [le_ramp_iff_of_gt h hm hm']
  have hzero : ¬ m ≤ 0 := not_le.mpr hm
  rw [severity, hdown (by norm_num), hup (by norm_num), hup (by norm_num), hup (by norm_num)]
  simp only [hzero, false_or, or_assoc]
  norm_num

theorem pressed_iff : s.Pressed ↔ SHRINK_AT ≤ s.severity := by
  rw [SHRINK_AT, le_severity_iff (by norm_num) (by norm_num), Pressed]
  norm_num

theorem calm_iff : s.Calm ↔ s.severity < HOLD_AT := by
  rw [← not_le, HOLD_AT, le_severity_iff (by norm_num) (by norm_num), Calm]
  push Not
  norm_num

/-- No tick is both. -/
theorem Pressed.not_calm (h : s.Pressed) : ¬ s.Calm := by
  rw [calm_iff, not_lt]
  have hshrink := pressed_iff.mp h
  have hmarks : HOLD_AT ≤ SHRINK_AT := by norm_num [HOLD_AT, SHRINK_AT]
  exact hmarks.trans hshrink

end Signals

-- ================================================================== the budgets

namespace Shrinkable

variable (c : Shrinkable) {b : ℕ} {s : Signals}

/-- The least that a cache is left with. -/
def least : ℕ := min c.floor c.ceiling

/-- A step up, before it is clamped. -/
def climb (b : ℕ) : ℕ := b + b / 4 + CLIMB_FLOOR

/-- The budget at the next tick. -/
def next (b : ℕ) (s : Signals) : ℕ := nextBudget b c.ceiling c.floor s.severity

theorem least_le : c.least ≤ c.ceiling := min_le_right _ _

theorem le_next (b : ℕ) (s : Signals) : c.least ≤ c.next b s := le_clamp _ _ _

theorem next_le (b : ℕ) (s : Signals) : c.next b s ≤ c.ceiling := clamp_le c.least_le _

theorem next_of_pressed (hb : b ≤ c.ceiling) (h : s.Pressed) :
    c.next b s = max c.least (b / 2) := by
  have hle : b / 2 ≤ c.ceiling := (Nat.div_le_self b 2).trans hb
  rw [next, nextBudget]
  simp only [if_pos (Signals.pressed_iff.mp h)]
  rw [clamp, min_eq_left hle, least]

theorem next_of_calm (hb : c.least ≤ b) (h : s.Calm) :
    c.next b s = min c.ceiling (climb b) := by
  have hshrink : ¬ SHRINK_AT ≤ s.severity := fun hle =>
    (Signals.pressed_iff.mpr hle).not_calm h
  have hhold : ¬ HOLD_AT ≤ s.severity := not_le.mpr (Signals.calm_iff.mp h)
  have hword := c.word
  have hleast := c.least_le
  rw [next, nextBudget]
  simp only [if_neg hshrink, if_neg hhold]
  change clamp c.least c.ceiling _ = _
  unfold clamp climb saturatingAdd CLIMB_FLOOR
  omega

theorem next_of_mild (hb : c.least ≤ b) (hb' : b ≤ c.ceiling) (hp : ¬ s.Pressed) (hc : ¬ s.Calm) :
    c.next b s = b := by
  have hhold : HOLD_AT ≤ s.severity := not_lt.mp (mt Signals.calm_iff.mpr hc)
  rw [next, nextBudget]
  simp only [if_neg (mt Signals.pressed_iff.mpr hp), if_pos hhold]
  change clamp c.least c.ceiling b = b
  rw [clamp, min_eq_left hb', max_eq_right hb]

/-- A budget stays within its bounds. -/
theorem foldl_mem (ticks : List Signals) (hb : c.least ≤ b) (hb' : b ≤ c.ceiling) :
    c.least ≤ ticks.foldl c.next b ∧ ticks.foldl c.next b ≤ c.ceiling := by
  induction ticks generalizing b with
  | nil => exact ⟨hb, hb'⟩
  | cons s ticks ih => exact ih (c.le_next b s) (c.next_le b s)

/-- Halved as often as there are ticks, or the least. -/
theorem foldl_pressed {ticks : List Signals} (hb : c.least ≤ b) (hb' : b ≤ c.ceiling)
    (h : ∀ s ∈ ticks, s.Pressed) :
    ticks.foldl c.next b = max c.least (b / 2 ^ ticks.length) := by
  induction ticks generalizing b with
  | nil => simp [hb]
  | cons s ticks ih =>
      have hnext := c.next_of_pressed hb' (h s List.mem_cons_self)
      rw [List.foldl_cons, ih (c.le_next b s) (c.next_le b s)
        fun s' hs' => h s' (List.mem_cons_of_mem s hs'), hnext,
        (Monotone.map_max fun x y hxy => Nat.div_le_div_right hxy :
          (max c.least (b / 2)) / 2 ^ ticks.length = _), ← max_assoc,
        max_eq_left (Nat.div_le_self c.least _), Nat.div_div_eq_div_mul, ← pow_succ',
        List.length_cons]

theorem climb_mono : Monotone climb := by
  intro b b' h
  unfold climb
  omega

theorem add_le_climb (n b : ℕ) : b + n * CLIMB_FLOOR ≤ climb^[n] b := by
  induction n with
  | zero => simp
  | succ n ih =>
      have hstep : climb^[n] b + CLIMB_FLOOR ≤ climb (climb^[n] b) :=
        Nat.add_le_add_right (Nat.le_add_right _ _) CLIMB_FLOOR
      rw [Function.iterate_succ_apply', Nat.succ_mul, ← Nat.add_assoc]
      exact (Nat.add_le_add_right ih CLIMB_FLOOR).trans hstep

/-- Up as many steps as there are ticks, or the ceiling. -/
theorem foldl_calm {ticks : List Signals} (hb : c.least ≤ b) (hb' : b ≤ c.ceiling)
    (h : ∀ s ∈ ticks, s.Calm) :
    ticks.foldl c.next b = min c.ceiling (climb^[ticks.length] b) := by
  induction ticks generalizing b with
  | nil => simp [hb']
  | cons s ticks ih =>
      have hnext := c.next_of_calm hb (h s List.mem_cons_self)
      have hceiling : c.ceiling ≤ climb^[ticks.length] c.ceiling := by
        have := add_le_climb ticks.length c.ceiling
        omega
      rw [List.foldl_cons, ih (c.le_next b s) (c.next_le b s)
        fun s' hs' => h s' (List.mem_cons_of_mem s hs'), hnext,
        (climb_mono.iterate ticks.length).map_min, ← min_assoc, min_eq_left hceiling,
        List.length_cons, Function.iterate_succ_apply]

theorem foldl_mild {ticks : List Signals} (hb : c.least ≤ b) (hb' : b ≤ c.ceiling)
    (h : ∀ s ∈ ticks, ¬ s.Pressed ∧ ¬ s.Calm) : ticks.foldl c.next b = b := by
  induction ticks with
  | nil => rfl
  | cons s ticks ih =>
      obtain ⟨hp, hc⟩ := h s List.mem_cons_self
      rw [List.foldl_cons, c.next_of_mild hb hb' hp hc]
      exact ih fun s' hs' => h s' (List.mem_cons_of_mem s hs')

end Shrinkable

-- ====================================================================== the run

namespace MemGovernor

variable {caches : List Shrinkable}

/-- A budget goes to `next`, and its cache is told when that moves it. -/
theorem adjust_eq (c : Shrinkable) (b : ℕ) (s : Signals) :
    adjust s.severity c b = (c.next b s, if c.next b s ≠ b then some (c.next b s) else none) := by
  change (if c.next b s ≠ b then (c.next b s, some (c.next b s)) else (b, none)) = _
  split
  next => rfl
  next h => rw [not_not.mp h]

theorem governor_tick (f : Shrinkable → ℕ) (squeezed : Bool) (s : Signals) :
    (tick caches ⟨caches.map f, squeezed⟩ s).governor
      = ⟨caches.map fun c => c.next (f c) s, squeezedBy squeezed (logged squeezed s.severity)⟩ := by
  unfold tick
  simp only [List.zipWith_map_right, List.zipWith_self, List.map_map, Function.comp_def, adjust_eq]

theorem calls_tick (f : Shrinkable → ℕ) (squeezed : Bool) (s : Signals) :
    (tick caches ⟨caches.map f, squeezed⟩ s).calls
      = caches.map fun c => if c.next (f c) s ≠ f c then some (c.next (f c) s) else none := by
  unfold tick
  simp only [List.zipWith_map_right, List.zipWith_self, List.map_map, Function.comp_def, adjust_eq]

/-- A run is the fold of its ticks over every cache, and what a cache has
been told is the budget the governor has for it. -/
theorem run_eq (f : Shrinkable → ℕ) (squeezed : Bool) (ticks : List Signals) :
    (run caches ⟨caches.map f, squeezed⟩ (caches.map f) ticks).1
      = caches.map fun c => ticks.foldl c.next (f c) := by
  induction ticks generalizing f squeezed with
  | nil => rfl
  | cons s ticks ih =>
      have htold : List.zipWith (fun b call => call.getD b) (caches.map f)
          (tick caches ⟨caches.map f, squeezed⟩ s).calls
          = caches.map fun c => c.next (f c) s := by
        rw [calls_tick, List.zipWith_map, List.zipWith_self]
        refine List.map_congr_left fun c _ => ?_
        split
        next => rfl
        next h => exact (not_not.mp h).symm
      rw [run]
      simp only [htold, governor_tick]
      exact ih _ _

/-- What was last logged, or `eased` before anything is. -/
def lead (squeezed : Bool) : MemSaid := if squeezed then .shrinking else .eased

/-- A tick is logged when it is not what was last logged. -/
theorem logged_eq (squeezed : Bool) (s : Signals) :
    logged squeezed s.severity = s.band.filter fun m => decide (lead squeezed ≠ m) := by
  unfold logged Signals.band
  simp only [← Signals.pressed_iff, ← Signals.calm_iff]
  by_cases hp : s.Pressed
  · cases squeezed with
    | false => simp [hp, lead, Option.filter_some]
    | true => simp [hp, hp.not_calm, lead, Option.filter_some]
  · by_cases hc : s.Calm
    · cases squeezed with
      | false => simp [hp, hc, lead, Option.filter_some]
      | true => simp [hp, hc, lead, Option.filter_some]
    · simp [hp, hc]

/-- What was last logged is the last tick that was pressed or calm. -/
theorem lead_tick (squeezed : Bool) (s : Signals) :
    lead (squeezedBy squeezed (logged squeezed s.severity)) = s.band.getD (lead squeezed) := by
  rw [logged_eq]
  cases s.band with
  | none => rfl
  | some m =>
      cases m with
      | shrinking =>
          cases squeezed with
          | false => rfl
          | true => rfl
      | eased =>
          cases squeezed with
          | false => rfl
          | true => rfl

/-- The log is the pressed and the calm ticks, the repetitions taken out. -/
theorem log_eq (g : MemGovernor) (told : List ℕ) (ticks : List Signals) :
    lead g.squeezed :: (run caches g told ticks).2
      = (ticks.filterMap Signals.band).destutter' (· ≠ ·) (lead g.squeezed) := by
  induction ticks generalizing g told with
  | nil => rfl
  | cons s ticks ih =>
      have hrest := ih (g.tick caches s).governor
        (List.zipWith (fun b call => call.getD b) told (g.tick caches s).calls)
      have hlead : lead (g.tick caches s).governor.squeezed = s.band.getD (lead g.squeezed) :=
        lead_tick g.squeezed s
      have hlogged : (g.tick caches s).said = s.band.filter fun m => decide (lead g.squeezed ≠ m) :=
        logged_eq g.squeezed s
      rw [run]
      simp only [hlogged]
      cases hband : s.band with
      | none =>
          rw [hband, Option.getD_none] at hlead
          rw [hlead] at hrest
          rw [List.filterMap_cons_none hband]
          exact hrest
      | some m =>
          rw [hband, Option.getD_some] at hlead
          rw [hlead] at hrest
          rw [List.filterMap_cons_some hband]
          by_cases hne : lead g.squeezed = m
          · rw [List.destutter'_cons_neg _ (not_not.mpr hne), hne, ← hrest]
            simp
          · rw [List.destutter'_cons_pos _ hne, ← hrest]
            simp [hne, Option.filter_some]

theorem spawn_eq (i : Fin caches.length) (ticks : List Signals) :
    (spawn caches ticks).1 = caches.map fun c => ticks.foldl c.next c.ceiling := by
  have hne : caches ≠ [] := List.ne_nil_of_length_pos (Nat.zero_lt_of_lt i.isLt)
  unfold spawn
  simp only [if_neg hne]
  exact run_eq Shrinkable.ceiling false ticks

end MemGovernor

/-- What a cache has been told is within its bounds; over ticks that are
all pressed it has been halved at each of them, down to the least, which it
is at after 64; over ticks that are all calm it has climbed at each of
them, up to the ceiling; between the two it stays. The log has every
change between pressed and calm, and nothing else. -/
theorem budgets_exact (caches : List Shrinkable) (i : Fin caches.length)
    (before during : List Signals) :
    ∃ b b', (MemGovernor.spawn caches before).1[(i : ℕ)]? = some b
      ∧ (MemGovernor.spawn caches (before ++ during)).1[(i : ℕ)]? = some b'
      ∧ (caches.get i).least ≤ b' ∧ b' ≤ (caches.get i).ceiling
      ∧ ((∀ s ∈ during, s.Pressed) →
        b' = max (caches.get i).least (b / 2 ^ during.length)
          ∧ (64 ≤ during.length → b' = (caches.get i).least))
      ∧ ((∀ s ∈ during, s.Calm) →
        b' = min (caches.get i).ceiling (Shrinkable.climb^[during.length] b)
          ∧ ((caches.get i).ceiling ≤ b + during.length * CLIMB_FLOOR →
            b' = (caches.get i).ceiling))
      ∧ ((∀ s ∈ during, ¬ s.Pressed ∧ ¬ s.Calm) → b' = b)
      ∧ MemSaid.eased :: (MemGovernor.spawn caches before).2
        = (MemSaid.eased :: before.filterMap Signals.band).destutter (· ≠ ·) := by
  set c := caches.get i with hc
  have hget : caches[(i : ℕ)]? = some c := List.getElem?_eq_getElem i.isLt
  have htold : ∀ ticks, (MemGovernor.spawn caches ticks).1[(i : ℕ)]?
      = some (ticks.foldl c.next c.ceiling) := by
    intro ticks
    rw [MemGovernor.spawn_eq i ticks, List.getElem?_map, hget, Option.map_some]
  obtain ⟨hleast, hceiling⟩ := c.foldl_mem before c.least_le le_rfl
  have hmem := c.foldl_mem during hleast hceiling
  refine ⟨_, _, htold before, htold _, ?_⟩
  rw [List.foldl_append]
  generalize before.foldl c.next c.ceiling = b at *
  refine ⟨hmem.1, hmem.2, fun h => ?_, fun h => ?_, c.foldl_mild hleast hceiling, ?_⟩
  · have heq := c.foldl_pressed hleast hceiling h
    refine ⟨heq, fun hlong => ?_⟩
    have hword : b < 2 ^ during.length :=
      (hceiling.trans_lt c.word).trans_le (Nat.pow_le_pow_right (Nat.zero_lt_two) hlong)
    rw [heq, Nat.div_eq_of_lt hword, Nat.max_zero]
  · have heq := c.foldl_calm hleast hceiling h
    refine ⟨heq, fun hlong => ?_⟩
    have hclimb := Shrinkable.add_le_climb during.length b
    rw [heq, min_eq_left (hlong.trans hclimb)]
  · have hne : caches ≠ [] := List.ne_nil_of_length_pos (Nat.zero_lt_of_lt i.isLt)
    unfold MemGovernor.spawn
    simp only [if_neg hne]
    exact MemGovernor.log_eq (MemGovernor.new caches) _ before

end Narshare
