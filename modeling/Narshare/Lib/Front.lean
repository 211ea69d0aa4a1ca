/-
The front of a list that was filtered out of a range of numbers.

A caller that keeps the first `k` of what it finds keeps `i` exactly when
fewer than `k` are found below `i` (`take_filter_range`). Where what it
finds stands for a block of items each, an item of block `c` is among the
first `k` when it is among those that the blocks before `c` leave room
for (`mem_take_flatMap_range`).
-/
import Mathlib.Data.List.Basic
import Mathlib.Algebra.BigOperators.Group.List.Basic
import Mathlib.Algebra.GroupWithZero.Nat

namespace Narshare

universe u

variable {α : Type u}

theorem mem_take_append_right {l l' : List α} {k : ℕ} {x : α} (h : x ∉ l) :
    x ∈ (l ++ l').take k ↔ x ∈ l'.take (k - l.length) := by
  rw [List.take_append, List.mem_append]
  exact or_iff_right fun hx => h (List.mem_of_mem_take hx)

theorem mem_take_append_left {l l' : List α} {k : ℕ} {x : α} (h : x ∉ l') :
    x ∈ (l ++ l').take k ↔ x ∈ l.take k := by
  rw [List.take_append, List.mem_append]
  exact or_iff_left fun hx => h (List.mem_of_mem_take hx)

/-- The first `k` found are those with fewer than `k` found below. -/
theorem take_filter_range (p : ℕ → Bool) (n k : ℕ) :
    ((List.range n).filter p).take k
      = (List.range n).filter fun i => p i && decide ((List.range i).countP p < k) := by
  induction n with
  | zero => simp
  | succ n ih =>
      rw [List.range_succ, List.filter_append, List.filter_append, List.take_append, ih,
        ← List.countP_eq_length_filter]
      congr 1
      cases hp : p n with
      | false => simp [hp]
      | true =>
          by_cases hk : (List.range n).countP p < k
          · obtain ⟨d, hd⟩ := Nat.exists_eq_add_of_lt hk
            have hroom : k - (List.range n).countP p = d + 1 := by omega
            simp [hp, hk, hroom]
          · have hroom : k - (List.range n).countP p = 0 := by omega
            simp [hp, hk, hroom]

/-- An item of one block against all blocks. -/
theorem mem_take_flatMap_range {p : ℕ → Bool} {f : ℕ → List α} {n k c : ℕ} {x : α}
    (hc : c < n) (hp : p c = true) (hx : ∀ c' < n, x ∈ f c' → c' = c) :
    x ∈ (((List.range n).filter p).flatMap f).take k
      ↔ x ∈ (f c).take (k - (((List.range c).filter p).map fun c' => (f c').length).sum) := by
  induction n with
  | zero => exact absurd hc (Nat.not_lt_zero c)
  | succ n ih =>
      rw [List.range_succ, List.filter_append, List.flatMap_append]
      rcases Nat.lt_succ_iff_lt_or_eq.mp hc with hlt | rfl
      · rw [mem_take_append_left, ih hlt fun c' hc' => hx c' (Nat.lt_succ_of_lt hc')]
        intro hmem
        obtain ⟨c', hc', hxc⟩ := List.mem_flatMap.mp hmem
        have hn : c' = n := List.mem_singleton.mp (List.mem_filter.mp hc').1
        have := hx c' (by omega) hxc
        omega
      · rw [mem_take_append_right, List.length_flatMap]
        · simp [hp]
        · intro hmem
          obtain ⟨c', hc', hxc⟩ := List.mem_flatMap.mp hmem
          have hn : c' < c := List.mem_range.mp (List.mem_filter.mp hc').1
          have := hx c' (by omega) hxc
          omega

end Narshare
