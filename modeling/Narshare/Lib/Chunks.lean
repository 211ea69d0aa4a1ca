/-
A list cut into pieces of a given length, the last possibly shorter:
`slice::chunks`.

`chunksFuel` recurses on a bound for how many pieces may be left, so that
it runs in the kernel; `chunks_of_ne_nil` is the equation one reasons
with, and `chunks_induction` the induction that goes with it.
-/
import Mathlib.Data.List.Basic
import Mathlib.Algebra.Order.Group.Nat

namespace Narshare

universe u

variable {α : Type u}

/-- `slice::chunks`, by recursion on how many may be left. -/
def chunksFuel {α : Type*} (n : ℕ) : ℕ → List α → List (List α)
  | 0, _ => []
  | _ + 1, [] => []
  | fuel + 1, l => l.take n :: chunksFuel n fuel (l.drop n)

/-- `slice::chunks`. -/
def chunks {α : Type*} (n : ℕ) (l : List α) : List (List α) := chunksFuel n l.length l

@[simp] theorem chunks_nil (n : ℕ) : chunks n ([] : List α) = [] := rfl

/-- Any bound that is long enough gives the same pieces. -/
theorem chunksFuel_eq {n : ℕ} (hn : 0 < n) :
    ∀ (fuel : ℕ) (l : List α), l.length ≤ fuel → chunksFuel n fuel l = chunks n l := by
  have key : ∀ (fuel fuel' : ℕ) (l : List α), l.length ≤ fuel → l.length ≤ fuel' →
      chunksFuel n fuel l = chunksFuel n fuel' l := by
    intro fuel
    induction fuel with
    | zero =>
        intro fuel' l hl _
        rw [List.length_eq_zero_iff.mp (Nat.le_zero.mp hl)]
        cases fuel' <;> rfl
    | succ fuel ih =>
        intro fuel' l hl hl'
        cases l with
        | nil => cases fuel' <;> rfl
        | cons x l =>
            cases fuel' with
            | zero => cases hl'
            | succ fuel' =>
                rw [chunksFuel, chunksFuel]
                · congr 1
                  refine ih fuel' _ ?_ ?_
                  · rw [List.length_drop]
                    simp only [List.length_cons] at hl ⊢
                    omega
                  · rw [List.length_drop]
                    simp only [List.length_cons] at hl' ⊢
                    omega
                · exact List.cons_ne_nil _ _
                · exact List.cons_ne_nil _ _
  exact fun fuel l hl => key fuel l.length l hl le_rfl

/-- The first piece, and the pieces of the rest. -/
theorem chunks_of_ne_nil {n : ℕ} (hn : 0 < n) {l : List α} (hl : l ≠ []) :
    chunks n l = l.take n :: chunks n (l.drop n) := by
  cases l with
  | nil => exact absurd rfl hl
  | cons x l =>
      rw [chunks, List.length_cons, chunksFuel, chunksFuel_eq hn]
      · rw [List.length_drop, List.length_cons]
        omega
      · exact List.cons_ne_nil _ _

/-- Induction over the pieces. -/
theorem chunks_induction {n : ℕ} (hn : 0 < n) {P : List α → Prop} (nil : P [])
    (cut : ∀ l, l ≠ [] → P (l.drop n) → P l) (l : List α) : P l := by
  induction hk : l.length using Nat.strong_induction_on generalizing l with
  | _ k ih =>
      by_cases hl : l = []
      · rw [hl]
        exact nil
      · refine cut l hl (ih (l.drop n).length ?_ _ rfl)
        have hpos := List.length_pos_iff.mpr hl
        rw [List.length_drop]
        omega

theorem flatten_chunks {n : ℕ} (hn : 0 < n) (l : List α) : (chunks n l).flatten = l := by
  induction l using chunks_induction hn with
  | nil => rfl
  | cut l hl ih => rw [chunks_of_ne_nil hn hl, List.flatten_cons, ih, List.take_append_drop]

/-- Pieces are no longer than asked for. -/
theorem length_le_of_mem_chunks {n : ℕ} {l c : List α} (h : c ∈ chunks n l) :
    c.length ≤ n := by
  have key : ∀ fuel (l : List α), c ∈ chunksFuel n fuel l → c.length ≤ n := by
    intro fuel
    induction fuel with
    | zero => exact fun _ h => (List.not_mem_nil h).elim
    | succ fuel ih =>
        intro l h
        cases l with
        | nil => exact (List.not_mem_nil h).elim
        | cons x l =>
            rcases List.mem_cons.mp h with rfl | h
            · exact List.length_take_le _ _
            · exact ih _ h
  exact key _ _ h

/-- How many there are. -/
theorem length_chunks {n : ℕ} (hn : 0 < n) (l : List α) :
    (chunks n l).length = (l.length + n - 1) / n := by
  induction l using chunks_induction hn with
  | nil =>
      rw [chunks_nil, List.length_nil, List.length_nil, Nat.zero_add, Nat.div_eq_of_lt (by omega)]
  | cut l hl ih =>
      have hpos := List.length_pos_iff.mpr hl
      rw [chunks_of_ne_nil hn hl, List.length_cons, ih, List.length_drop]
      rcases le_or_gt l.length n with h | h
      · rw [Nat.sub_eq_zero_of_le h, Nat.zero_add, Nat.div_eq_of_lt (by omega),
          show l.length + n - 1 = n + (l.length - 1) by omega, Nat.add_div_left _ hn,
          Nat.div_eq_of_lt (by omega)]
      · rw [show l.length + n - 1 = n + (l.length - n + n - 1) by omega, Nat.add_div_left _ hn]

end Narshare
