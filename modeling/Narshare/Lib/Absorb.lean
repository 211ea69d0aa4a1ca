/-
Absorbing a stream of contributions into a join-semilattice. A store
that starts at `t` and takes in `f a` for each arriving `a` by joining
ends at the join of `t` and everything that arrived (`absorb_le_iff` is
its universal property), so order, repetition and batching cannot
matter: only the SET of arrivals does (`absorb_congr`).
-/
import Mathlib.Order.Lattice
import Mathlib.Order.BoundedOrder.Lattice

namespace Narshare

universe u v

variable {α : Type u} {S : Type v} [SemilatticeSup S]

/-- Take in `f a` for each arriving `a`, in order. -/
def absorb (f : α → S) (t : S) (l : List α) : S :=
  l.foldl (fun s a => s ⊔ f a) t

variable {f : α → S}

@[simp] theorem absorb_nil (t : S) : absorb f t [] = t := rfl

@[simp] theorem absorb_cons (t : S) (a : α) (l : List α) :
    absorb f t (a :: l) = absorb f (t ⊔ f a) l := rfl

theorem absorb_append (t : S) (l l' : List α) :
    absorb f t (l ++ l') = absorb f (absorb f t l) l' :=
  List.foldl_append

/-- The result is below `u` exactly when the start and every arrival
are. -/
theorem absorb_le_iff {t u : S} {l : List α} :
    absorb f t l ≤ u ↔ t ≤ u ∧ ∀ a ∈ l, f a ≤ u := by
  induction l generalizing t with
  | nil => simp
  | cons a l ih =>
      rw [absorb_cons, ih, sup_le_iff, List.forall_mem_cons, and_assoc]

theorem le_absorb (t : S) (l : List α) : t ≤ absorb f t l :=
  (absorb_le_iff.mp le_rfl).1

theorem le_absorb_of_mem {t : S} {l : List α} {a : α} (ha : a ∈ l) :
    f a ≤ absorb f t l :=
  (absorb_le_iff.mp le_rfl).2 a ha

/-- Only the set of arrivals matters. -/
theorem absorb_congr {t : S} {l l' : List α} (h : ∀ a, a ∈ l ↔ a ∈ l') :
    absorb f t l = absorb f t l' := by
  apply le_antisymm
  · exact absorb_le_iff.mpr
      ⟨le_absorb t l', fun a ha => le_absorb_of_mem ((h a).mp ha)⟩
  · exact absorb_le_iff.mpr
      ⟨le_absorb t l, fun a ha => le_absorb_of_mem ((h a).mpr ha)⟩

/-- What is already below the start is taken in without effect. -/
theorem absorb_of_le {t : S} {l : List α} (h : ∀ a ∈ l, f a ≤ t) :
    absorb f t l = t :=
  le_antisymm (absorb_le_iff.mpr ⟨le_rfl, h⟩) (le_absorb t l)

/-- An arrival that is not below the start moves it. -/
theorem absorb_ne_of_mem {t : S} {l : List α} {a : α} (ha : a ∈ l)
    (hn : ¬ f a ≤ t) : absorb f t l ≠ t := by
  intro h
  exact hn (h ▸ le_absorb_of_mem ha)

/-- Taking a stream in is joining with what the stream amounts to. -/
theorem absorb_eq_sup [OrderBot S] (t : S) (l : List α) :
    absorb f t l = t ⊔ absorb f ⊥ l := by
  apply le_antisymm
  · exact absorb_le_iff.mpr
      ⟨le_sup_left, fun a ha => (le_absorb_of_mem ha).trans le_sup_right⟩
  · refine sup_le (le_absorb t l) ?_
    exact absorb_le_iff.mpr ⟨bot_le, fun a ha => le_absorb_of_mem ha⟩

end Narshare
