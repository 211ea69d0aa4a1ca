/-
Ranges of numbers, counted place by place.

# Counting

A range is where it starts and how long it is. `cover l x` is how many
ranges of `l` a place `x` lies in. Cutting a range in two, moving one
from a list to another and losing one are then equations between
numbers at every place, and that every place is accounted for exactly
once is one more such equation. Ranges that are nowhere counted twice are
apart from each other (`pairwise_apart`), and ranges in order are so
counted (`cover_le_one`).
-/
import Mathlib.Data.List.Basic
import Mathlib.Data.List.Pairwise
import Mathlib.Algebra.BigOperators.Group.List.Basic
import Mathlib.Algebra.GroupWithZero.Nat
import Mathlib.Algebra.Order.Group.Nat

namespace Narshare

/-- Does `x` lie in the range? -/
def hits (r : ℕ × ℕ) (x : ℕ) : ℕ := if r.1 ≤ x ∧ x < r.1 + r.2 then 1 else 0

/-- How many of the ranges `x` lies in. -/
def cover (l : List (ℕ × ℕ)) (x : ℕ) : ℕ := (l.map fun r => hits r x).sum

/-- Some range holds `x`. -/
def InRange (l : List (ℕ × ℕ)) (x : ℕ) : Prop := ∃ r ∈ l, r.1 ≤ x ∧ x < r.1 + r.2

/-- One range ends before the other begins. -/
def Apart (r r' : ℕ × ℕ) : Prop := r.1 + r.2 ≤ r'.1 ∨ r'.1 + r'.2 ≤ r.1

instance : Std.Symm Apart := ⟨fun _ _ => Or.symm⟩

-- ============================================================== one range

/-- A place is counted by a range exactly when it lies in it. -/
theorem hits_eq_one {r : ℕ × ℕ} {x : ℕ} : hits r x = 1 ↔ r.1 ≤ x ∧ x < r.1 + r.2 := by
  unfold hits
  split
  next h => exact ⟨fun _ => h, fun _ => rfl⟩
  next h => exact ⟨nofun, fun h' => absurd h' h⟩

/-- A place is not counted by a range exactly when it lies before its start or
from its end on. -/
theorem hits_eq_zero {r : ℕ × ℕ} {x : ℕ} : hits r x = 0 ↔ x < r.1 ∨ r.1 + r.2 ≤ x := by
  unfold hits
  split
  next => exact ⟨nofun, fun _ => by omega⟩
  next => exact ⟨fun _ => by omega, fun _ => rfl⟩

/-- One range counts a place once at most. -/
theorem hits_le_one (r : ℕ × ℕ) (x : ℕ) : hits r x ≤ 1 := by
  unfold hits
  split
  · exact le_rfl
  · exact Nat.zero_le 1

/-- Cutting a range in two changes no count: every place of it lies in exactly
one of the parts. -/
theorem hits_split (o a b x : ℕ) : hits (o, a + b) x = hits (o, a) x + hits (o + a, b) x := by
  unfold hits
  simp only
  split_ifs
  all_goals omega

/-- An empty range counts nothing, so it may be dropped from a list or added
to it. -/
@[simp] theorem hits_empty (o x : ℕ) : hits (o, 0) x = 0 :=
  hits_eq_zero.mpr (by simp only; omega)

-- ============================================================ many ranges

@[simp] theorem cover_cons (r : ℕ × ℕ) (l : List (ℕ × ℕ)) (x : ℕ) :
    cover (r :: l) x = hits r x + cover l x := by
  rw [cover, List.map_cons, List.sum_cons, cover]

/-- The count over two lists is the sum of their counts, which is what lets
ranges be moved between lists. -/
@[simp] theorem cover_append (l l' : List (ℕ × ℕ)) (x : ℕ) :
    cover (l ++ l') x = cover l x + cover l' x := by
  rw [cover, List.map_append, List.sum_append, cover, cover]

/-- The count does not see the order of the ranges. -/
theorem cover_perm {l l' : List (ℕ × ℕ)} (h : l.Perm l') (x : ℕ) : cover l x = cover l' x :=
  (h.map _).sum_eq

/-- What one of the ranges counts is counted by the list. -/
theorem hits_le_cover {l : List (ℕ × ℕ)} {r : ℕ × ℕ} (h : r ∈ l) (x : ℕ) :
    hits r x ≤ cover l x := by
  induction l with
  | nil => cases h
  | cons r' l ih =>
      rw [cover_cons]
      rcases List.mem_cons.mp h with rfl | h
      · exact Nat.le_add_right _ _
      · exact (ih h).trans (Nat.le_add_left _ _)

/-- A place is counted exactly when some range holds it; from here on the
numbers speak of the ranges. -/
theorem cover_pos {l : List (ℕ × ℕ)} {x : ℕ} : 0 < cover l x ↔ InRange l x := by
  constructor
  · intro h
    induction l with
    | nil => cases h
    | cons r l ih =>
        rw [cover_cons] at h
        by_cases hr : hits r x = 0
        · obtain ⟨r', hr', hx⟩ := ih (by omega)
          exact ⟨r', List.mem_cons_of_mem _ hr', hx⟩
        · have hone := hits_le_one r x
          exact ⟨r, List.mem_cons_self, hits_eq_one.mp (by omega)⟩
  · rintro ⟨r, hr, hx⟩
    have := hits_le_cover hr x
    rw [hits_eq_one.mpr hx] at this
    exact this

/-- A place that no range holds is not counted, and one that is not counted no
range holds. -/
theorem cover_eq_zero {l : List (ℕ × ℕ)} {x : ℕ} : cover l x = 0 ↔ ¬ InRange l x := by
  rw [← cover_pos, Nat.pos_iff_ne_zero, not_not]

/-- Ranges in order are nowhere counted twice: a place of the first one lies
before all the others. -/
theorem cover_le_one {l : List (ℕ × ℕ)} (h : l.Pairwise fun r r' => r.1 + r.2 ≤ r'.1) (x : ℕ) :
    cover l x ≤ 1 := by
  induction l with
  | nil => exact Nat.zero_le 1
  | cons r l ih =>
      obtain ⟨hr, hl⟩ := List.pairwise_cons.mp h
      rw [cover_cons]
      -- a place of the first range lies before every later one
      by_cases hx : hits r x = 0
      · rw [hx, Nat.zero_add]
        exact ih hl
      · have hone := hits_le_one r x
        have hin := hits_eq_one.mp (show hits r x = 1 by omega)
        have hnone : cover l x = 0 := by
          rw [cover_eq_zero]
          rintro ⟨r', hr', hx'⟩
          have := hr r' hr'
          omega
        omega

/-- Ranges that are nowhere counted twice are apart; a range must not be empty
here, for an empty one counts nothing wherever it lies. -/
theorem pairwise_apart {l : List (ℕ × ℕ)} (hpos : ∀ r ∈ l, 0 < r.2)
    (h : ∀ x, cover l x ≤ 1) : l.Pairwise Apart := by
  induction l with
  | nil => exact List.Pairwise.nil
  | cons r l ih =>
      refine List.pairwise_cons.mpr ⟨fun r' hr' => ?_,
        ih (fun r hr => hpos r (List.mem_cons_of_mem _ hr)) fun x => ?_⟩
      · by_contra hnot
        have hr0 := hpos r List.mem_cons_self
        have hr1 := hpos r' (List.mem_cons_of_mem _ hr')
        rw [Apart, not_or] at hnot
        -- the later start lies in both
        have hx := h (max r.1 r'.1)
        rw [cover_cons, hits_eq_one.mpr ⟨le_max_left _ _, by omega⟩] at hx
        have := hits_le_cover hr' (max r.1 r'.1)
        rw [hits_eq_one.mpr ⟨le_max_right _ _, by omega⟩] at this
        omega
      · have := h x
        rw [cover_cons] at this
        omega

/-- The same for two ranges of the list that differ. -/
theorem apart_of_mem {l : List (ℕ × ℕ)} (hpos : ∀ r ∈ l, 0 < r.2) (h : ∀ x, cover l x ≤ 1)
    {r r' : ℕ × ℕ} (hr : r ∈ l) (hr' : r' ∈ l) (hne : r ≠ r') : Apart r r' :=
  (pairwise_apart hpos h).forall hr hr' hne

end Narshare
