/-
A list of parties, one of which moves.

What is counted or summed over all of them changes by that one's part
(`countP_set`, `sum_map_set`, `sum_map_eraseIdx`), and the others are
there as before (`mem_set_of_ne`).
-/
import Mathlib.Algebra.BigOperators.Group.List.Basic
import Mathlib.Algebra.GroupWithZero.Nat
import Mathlib.Data.Nat.Basic

namespace Narshare

universe u

variable {α : Type u} {l : List α} {i : ℕ} {a b : α}

/-- One of them moves. -/
theorem sum_map_set (f : α → ℕ) (h : l[i]? = some a) (b : α) :
    ((l.set i b).map f).sum + f a = (l.map f).sum + f b := by
  obtain ⟨hlt, rfl⟩ := List.getElem?_eq_some_iff.mp h
  obtain ⟨x, y, hl, -, hset⟩ := @List.exists_of_set α i b l hlt
  rw [hset]
  conv_rhs => rw [hl]
  simp only [List.map_append, List.map_cons, List.sum_append, List.sum_cons]
  omega

/-- One of them leaves. -/
theorem sum_map_eraseIdx (f : α → ℕ) (h : l[i]? = some a) :
    ((l.eraseIdx i).map f).sum + f a = (l.map f).sum := by
  obtain ⟨hlt, rfl⟩ := List.getElem?_eq_some_iff.mp h
  rw [List.eraseIdx_eq_take_drop_succ]
  conv_rhs => rw [← List.take_append_drop i l, List.drop_eq_getElem_cons hlt]
  simp only [List.map_append, List.map_cons, List.sum_append, List.sum_cons]
  omega

/-- One of them moves, and counts or not. -/
theorem countP_set (p : α → Bool) (h : l[i]? = some a) (b : α) :
    (l.set i b).countP p + (p a).toNat = l.countP p + (p b).toNat := by
  obtain ⟨hlt, rfl⟩ := List.getElem?_eq_some_iff.mp h
  obtain ⟨x, y, hl, -, hset⟩ := @List.exists_of_set α i b l hlt
  have hone : ∀ c, List.countP p [c] = (p c).toNat := fun c => by
    cases hc : p c with
    | true => rw [List.countP_singleton, hc]; rfl
    | false => rw [List.countP_singleton, hc]; rfl
  rw [hset]
  conv_rhs => rw [hl]
  rw [List.countP_append, List.countP_append, ← List.singleton_append, List.countP_append,
    hone, ← List.singleton_append, List.countP_append, hone]
  omega

/-- Who is replaced is the only one who goes. -/
theorem mem_set_of_ne {c : α} (hc : l[i]? = some c) (ha : a ∈ l) (hne : a ≠ c) :
    a ∈ l.set i b := by
  obtain ⟨j, hj⟩ := List.mem_iff_getElem?.mp ha
  refine List.mem_iff_getElem?.mpr ⟨j, ?_⟩
  rw [List.getElem?_set_ne fun hij => hne ?_, hj]
  rw [← hij, hc] at hj
  exact (Option.some.inj hj).symm

theorem mem_set_self (hc : l[i]? = some a) : b ∈ l.set i b := by
  obtain ⟨hlt, -⟩ := List.getElem?_eq_some_iff.mp hc
  exact List.mem_set hlt b

/-- Who is taken out is the only one who goes. -/
theorem mem_eraseIdx_or {x y : α} (hy : l[i]? = some y)
    (hx : x ∈ l) : x = y ∨ x ∈ l.eraseIdx i := by
  obtain ⟨j, hj⟩ := List.mem_iff_getElem?.mp hx
  by_cases hji : j = i
  · subst hji
    rw [hj] at hy
    exact .inl (Option.some.inj hy)
  · exact .inr (List.mem_eraseIdx_iff_getElem?.mpr ⟨j, hji, hj⟩)

theorem length_eraseIdx_add (h : l[i]? = some a) :
    (l.eraseIdx i).length + 1 = l.length := by
  have hi := (List.getElem?_eq_some_iff.mp h).1
  rw [List.length_eraseIdx_of_lt hi]
  omega

end Narshare
