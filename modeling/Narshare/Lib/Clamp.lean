/-
Numbers kept within bounds, means of them, and numbers rounded.

`clamp lo hi` is the nearest number from `lo` to `hi`. `roundAway` rounds
to the nearest integer, halves away from zero. Both are monotone, and a
monotone function that takes bounds to bounds goes past a clamp
(`map_clamp`); so clamping between integers and then rounding is rounding
and then clamping (`roundAway_clamp`), and what a clamp may swallow is
decided among the integers. A mean does not leave the bounds of what it is
taken of (`mean_le_one`, `blend_le`).
-/
import Mathlib.Algebra.Order.BigOperators.Group.List
import Mathlib.Algebra.Order.Field.Basic
import Mathlib.Algebra.Order.Floor.Ring
import Mathlib.Data.Int.ConditionallyCompleteOrder
import Mathlib.Tactic.Linarith
import Mathlib.Tactic.Ring

namespace Narshare

universe u v

section Clamp

variable {α : Type u} {β : Type v} [LinearOrder α] [LinearOrder β]

/-- The nearest number within the bounds, `clamp`. -/
def clamp (lo hi x : α) : α := max lo (min x hi)

variable {lo hi x y : α}

/-- A clamped value is at the lower bound at least, also where the bounds are
crossed. -/
theorem le_clamp (lo hi x : α) : lo ≤ clamp lo hi x := le_max_left _ _

/-- It is at the upper bound at most where the bounds are in order. -/
theorem clamp_le (h : lo ≤ hi) (x : α) : clamp lo hi x ≤ hi := max_le h (min_le_right _ _)

/-- What is at or above a number of the bounds stays there. -/
theorem le_clamp_of_le (h : y ≤ hi) (hx : y ≤ x) : y ≤ clamp lo hi x :=
  (le_min hx h).trans (le_max_right _ _)

/-- It is below whatever the lower bound and the value are below, crossed
bounds or not. -/
theorem clamp_le_of_le (h : lo ≤ y) (hx : x ≤ y) : clamp lo hi x ≤ y :=
  max_le h ((min_le_left _ _).trans hx)

/-- A monotone function goes past a clamp. -/
theorem map_clamp {f : α → β} (hf : Monotone f) (lo hi x : α) :
    f (clamp lo hi x) = clamp (f lo) (f hi) (f x) := by
  rw [clamp, hf.map_max, hf.map_min, clamp]

/-- A fold of maxima is above where it starts and what it goes over. -/
theorem le_foldl_sup (l : List α) (b : α) :
    b ≤ l.foldl (· ⊔ ·) b ∧ ∀ w ∈ l, w ≤ l.foldl (· ⊔ ·) b := by
  induction l generalizing b with
  | nil => exact ⟨le_rfl, nofun⟩
  | cons x l ih =>
      obtain ⟨hb, hl⟩ := ih (b ⊔ x)
      refine ⟨le_sup_left.trans hb, fun w hw => ?_⟩
      rcases List.mem_cons.mp hw with rfl | hw
      · exact le_sup_right.trans hb
      · exact hl w hw

end Clamp

section Mean

variable {K : Type u} [Field K] [LinearOrder K] [IsStrictOrderedRing K]

/-- A mean of what is one at most is one at most. -/
theorem mean_le_one {l : List K} (h : ∀ w ∈ l, w ≤ 1) : l.sum / (l.length : K) ≤ 1 := by
  refine div_le_one_of_le₀ ?_ (Nat.cast_nonneg _)
  have hsum := List.sum_le_card_nsmul l 1 h
  rwa [nsmul_eq_mul, mul_one] at hsum

/-- Between two numbers, one step of a part of the way, one does not get
past the greater. -/
theorem blend_le {x y c t : K} (hx : x ≤ c) (hy : y ≤ c) (ht : 0 ≤ t ∧ t ≤ 1) :
    (1 - t) * x + t * y ≤ c := by
  have hfirst := mul_le_mul_of_nonneg_left hx (sub_nonneg.mpr ht.2)
  have hsecond := mul_le_mul_of_nonneg_left hy ht.1
  calc (1 - t) * x + t * y ≤ (1 - t) * c + t * c := add_le_add hfirst hsecond
    _ = c := by ring

/-- A blend of two numbers that lie above a bound lies above it. -/
theorem le_blend {x y c t : K} (hx : c ≤ x) (hy : c ≤ y) (ht : 0 ≤ t ∧ t ≤ 1) :
    c ≤ (1 - t) * x + t * y := by
  have hfirst := mul_le_mul_of_nonneg_left hx (sub_nonneg.mpr ht.2)
  have hsecond := mul_le_mul_of_nonneg_left hy ht.1
  calc c = (1 - t) * c + t * c := by ring
    _ ≤ (1 - t) * x + t * y := add_le_add hfirst hsecond

end Mean

section Round

variable {K : Type u} [Field K] [LinearOrder K] [IsStrictOrderedRing K] [FloorRing K]

/-- The nearest integer, halves away from zero: `round`. -/
def roundAway (x : K) : ℤ := if 0 ≤ x then ⌊x + 1 / 2⌋ else ⌈x - 1 / 2⌉

omit [IsStrictOrderedRing K] in
/-- From zero on, rounding half away from zero is rounding half up. -/
theorem roundAway_of_nonneg {x : K} (h : 0 ≤ x) : roundAway x = ⌊x + 1 / 2⌋ := if_pos h

/-- A whole number is rounded to itself. -/
@[simp] theorem roundAway_intCast (n : ℤ) : roundAway (n : K) = n := by
  unfold roundAway
  split
  · rw [Int.floor_eq_iff]
    constructor <;> linarith
  · rw [Int.ceil_eq_iff]
    constructor <;> linarith

@[simp] theorem roundAway_natCast (n : ℕ) : roundAway (n : K) = n := by
  rw [← Int.cast_natCast, roundAway_intCast]

/-- Rounding keeps the order, also through zero, where its two halves meet. -/
theorem roundAway_mono : Monotone (roundAway : K → ℤ) := by
  intro x y h
  unfold roundAway
  split
  next hx =>
    rw [if_pos (hx.trans h)]
    exact Int.floor_mono (by linarith)
  next hx =>
    split
    next hy =>
      have hceil : ⌈x - 1 / 2⌉ ≤ 0 := Int.ceil_le.mpr (by rw [Int.cast_zero]; linarith)
      have hfloor : 0 ≤ ⌊y + 1 / 2⌋ := Int.floor_nonneg.mpr (by linarith)
      exact hceil.trans hfloor
    next => exact Int.ceil_mono (by linarith)

/-- From zero on, one more is rounded to one more. -/
theorem roundAway_add_one {x : K} (h : 0 ≤ x) : roundAway (x + 1) = roundAway x + 1 := by
  rw [roundAway_of_nonneg h, roundAway_of_nonneg (by linarith), add_right_comm,
    Int.floor_add_one]

/-- Down to zero, one less is rounded to one less. -/
theorem roundAway_sub_one {x : K} (h : 1 ≤ x) : roundAway (x - 1) = roundAway x - 1 := by
  have := roundAway_add_one (sub_nonneg.mpr h)
  rw [sub_add_cancel] at this
  omega

/-- Clamping between integers and rounding commute. -/
theorem roundAway_clamp (lo hi : ℤ) (x : K) :
    roundAway (clamp (lo : K) hi x) = clamp lo hi (roundAway x) := by
  rw [map_clamp roundAway_mono, roundAway_intCast, roundAway_intCast]

end Round

end Narshare
