/-
Drawing one of several by weight.

The weights lie end to end, and `spin` finds the one that a number falls
on: it takes one weight after the other off the number, until nothing is
left of it. So each ticket owns the numbers of an interval as long as its
weight (`spin_of_mem`), which is what makes the weight over the total its
share of the draws. A number past the end of them all falls on none.
-/
import Mathlib.Algebra.Order.BigOperators.Group.List
import Mathlib.Algebra.Order.Group.Defs

namespace Narshare

universe u v

variable {α : Type u} {K : Type v}

/-- The first ticket that the number does not go past. -/
def spin [Sub K] [Zero K] [LE K] [DecidableLE K] : List (α × K) → K → Option α
  | [], _ => none
  | (a, w) :: rest, r => if r - w ≤ 0 then some a else spin rest (r - w)

/-- All the weights of some tickets. -/
def totalWeight [Add K] [Zero K] (tickets : List (α × K)) : K := (tickets.map Prod.snd).sum

section Tickets

variable [AddMonoid K]

theorem totalWeight_nil : totalWeight ([] : List (α × K)) = 0 := rfl

theorem totalWeight_cons (t : α × K) (tickets : List (α × K)) :
    totalWeight (t :: tickets) = t.2 + totalWeight tickets := by
  unfold totalWeight
  rw [List.map_cons, List.sum_cons]

/-- The weight of two lists of tickets is the sum of theirs, so a ticket's
interval begins where those before it end. -/
theorem totalWeight_append (l m : List (α × K)) :
    totalWeight (l ++ m) = totalWeight l + totalWeight m := by
  unfold totalWeight
  rw [List.map_append, List.sum_append]

end Tickets

section Spin

variable [AddCommGroup K] [LinearOrder K] [IsOrderedAddMonoid K]

/-- No weight below zero, no sum below zero. -/
theorem totalWeight_nonneg {tickets : List (α × K)} (h : ∀ t ∈ tickets, 0 ≤ t.2) :
    0 ≤ totalWeight tickets := by
  refine List.sum_nonneg fun w hw => ?_
  obtain ⟨t, ht, rfl⟩ := List.mem_map.mp hw
  exact h t ht

omit [IsOrderedAddMonoid K] in
/-- What it finds is one of the tickets. -/
theorem spin_mem {tickets : List (α × K)} {r : K} {a : α} (h : spin tickets r = some a) :
    a ∈ tickets.map Prod.fst := by
  induction tickets generalizing r with
  | nil => cases h
  | cons t rest ih =>
      rw [List.map_cons]
      rw [spin] at h
      split at h
      · cases h
        exact List.mem_cons_self
      · exact List.mem_cons_of_mem _ (ih h)

/-- A number beyond some tickets falls on what comes after them. -/
theorem spin_append {l : List (α × K)} {r : K} (h : ∀ t ∈ l, 0 ≤ t.2) (hr : totalWeight l < r)
    (m : List (α × K)) : spin (l ++ m) r = spin m (r - totalWeight l) := by
  induction l generalizing r with
  | nil => rw [List.nil_append, totalWeight_nil, sub_zero]
  | cons t l ih =>
      have hl : ∀ t' ∈ l, 0 ≤ t'.2 := fun t' ht' => h t' (List.mem_cons_of_mem _ ht')
      rw [totalWeight_cons] at hr ⊢
      have hpast : totalWeight l < r - t.2 := lt_sub_iff_add_lt'.mpr hr
      have hpos : 0 < r - t.2 := (totalWeight_nonneg hl).trans_lt hpast
      rw [List.cons_append, spin, if_neg (not_le.mpr hpos), ih hl hpast, sub_sub]

/-- Each ticket owns an interval as long as its weight. -/
theorem spin_of_mem {tickets : List (α × K)} {a : α} {w : K} (h : ∀ t ∈ tickets, 0 ≤ t.2)
    (hmem : (a, w) ∈ tickets) :
    ∃ lo, 0 ≤ lo ∧ lo + w ≤ totalWeight tickets
      ∧ ∀ r, lo < r → r ≤ lo + w → spin tickets r = some a := by
  obtain ⟨l, m, rfl⟩ := List.append_of_mem hmem
  have hl : ∀ t ∈ l, 0 ≤ t.2 := fun t ht => h t (List.mem_append_left _ ht)
  have hm : ∀ t ∈ m, 0 ≤ t.2 := fun t ht =>
    h t (List.mem_append_right _ (List.mem_cons_of_mem _ ht))
  refine ⟨totalWeight l, totalWeight_nonneg hl, ?_, ?_⟩
  · rw [totalWeight_append, totalWeight_cons]
    exact add_le_add_right (le_add_of_nonneg_right (totalWeight_nonneg hm)) _
  · intro r hlow hhigh
    have hend : r - totalWeight l - w ≤ 0 := by
      rw [sub_sub]
      exact sub_nonpos.mpr hhigh
    rw [spin_append hl hlow, spin, if_pos hend]

end Spin

end Narshare
