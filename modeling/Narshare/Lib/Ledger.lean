/-
A ledger: what is still owed, one entry a place or a pair of places, and
how long a run can be that pays something off with each step.

# Entries

A step writes to one entry. `sum_update` and `sum_update₂` say what
becomes of the total then, with the old entry on the other side so that
nothing is subtracted.

# Runs

A step pays one, unless it is charged; a charge may add to what is owed.
Then a run is no longer than what was owed at first and what was charged on
the way (`System.length_le_of_charged`).
-/
import Mathlib.Algebra.Order.BigOperators.Group.Finset
import Narshare.Lib.System

namespace Narshare

universe u v

-- ================================================================== entries

section Entries

variable {ι : Type u} {β : Type v} [DecidableEq ι]

/-- One entry of a table with two indices. -/
def update₂ (f : ι → ι → β) (n p : ι) (x : β) : ι → ι → β :=
  Function.update f n (Function.update (f n) p x)

/-- The entry written is read back. -/
theorem update₂_self (f : ι → ι → β) (n p : ι) (x : β) : update₂ f n p x n p = x := by
  rw [update₂, Function.update_self, Function.update_self]

/-- Every other entry stays. -/
theorem update₂_of_ne (f : ι → ι → β) {n p n' p' : ι} (x : β) (h : ¬ (n' = n ∧ p' = p)) :
    update₂ f n p x n' p' = f n' p' := by
  rw [update₂]
  by_cases hn : n' = n
  · subst hn
    rw [Function.update_self, Function.update_of_ne fun hp => h ⟨rfl, hp⟩]
  · rw [Function.update_of_ne hn]

/-- The entries that agree off one place. -/
theorem sum_add_of_eq_off {s : Finset ι} {g g' : ι → ℕ} {n : ι} (hn : n ∈ s)
    (h : ∀ x, x ≠ n → g' x = g x) : ∑ x ∈ s, g' x + g n = ∑ x ∈ s, g x + g' n := by
  have hoff : ∑ x ∈ s.erase n, g' x = ∑ x ∈ s.erase n, g x :=
    Finset.sum_congr rfl fun x hx => h x (Finset.ne_of_mem_erase hx)
  have hg := Finset.add_sum_erase s g hn
  have hg' := Finset.add_sum_erase s g' hn
  omega

/-- A sum over a table in which one entry has changed, with the old entry on
the other side so that nothing is subtracted. -/
theorem sum_update (w : β → ℕ) (f : ι → β) {s : Finset ι} {n : ι} (hn : n ∈ s) (x : β) :
    ∑ y ∈ s, w (Function.update f n x y) + w (f n) = ∑ y ∈ s, w (f y) + w x := by
  have hsum := sum_add_of_eq_off (s := s) hn
    (show ∀ y, y ≠ n → w (Function.update f n x y) = w (f y) from fun y hy => by
      rw [Function.update_of_ne hy])
  rw [Function.update_self] at hsum
  exact hsum

/-- Also where the place does not count. -/
theorem sum_update_le (w : β → ℕ) (f : ι → β) (s : Finset ι) (n : ι) (x : β) :
    ∑ y ∈ s, w (Function.update f n x y) ≤ ∑ y ∈ s, w (f y) + w x := by
  by_cases hn : n ∈ s
  · have hsum := sum_update w f hn x
    omega
  · refine (Finset.sum_le_sum fun y hy => ?_).trans (Nat.le_add_right _ _)
    rw [Function.update_of_ne fun heq : y = n => hn (heq ▸ hy)]

/-- The same for a table of two indices. -/
theorem sum_update₂ (w : β → ℕ) (f : ι → ι → β) {s : Finset ι} {n p : ι} (hn : n ∈ s)
    (hp : p ∈ s) (x : β) :
    ∑ y ∈ s, ∑ z ∈ s, w (update₂ f n p x y z) + w (f n p)
      = ∑ y ∈ s, ∑ z ∈ s, w (f y z) + w x := by
  have hrow := sum_update w (f n) hp x
  have hsum := sum_add_of_eq_off (s := s) hn
    (show ∀ y, y ≠ n → ∑ z ∈ s, w (update₂ f n p x y z) = ∑ z ∈ s, w (f y z) from fun y hy => by
      rw [update₂, Function.update_of_ne hy])
  simp only [update₂, Function.update_self] at hsum ⊢
  omega

/-- Writing an entry costs its weight at most, whether it is one that is
summed over or not. -/
theorem sum_update₂_le (w : β → ℕ) (f : ι → ι → β) (s : Finset ι) (n p : ι) (x : β) :
    ∑ y ∈ s, ∑ z ∈ s, w (update₂ f n p x y z) ≤ ∑ y ∈ s, ∑ z ∈ s, w (f y z) + w x := by
  by_cases hboth : n ∈ s ∧ p ∈ s
  · have hsum := sum_update₂ w f hboth.1 hboth.2 x
    omega
  · refine (Finset.sum_le_sum fun y hy => Finset.sum_le_sum fun z hz => ?_).trans
      (Nat.le_add_right _ _)
    have hoff : ¬ (y = n ∧ z = p) := fun hsame => hboth ⟨hsame.1 ▸ hy, hsame.2 ▸ hz⟩
    rw [update₂_of_ne f x hoff]

end Entries

-- ================================================================== runs

namespace System

variable {σ : Type u} {α : Type v} (S : System σ α) (charge : σ → α → ℕ)

/-- What is charged along a run. -/
def charges (s : σ) : List α → ℕ
  | [] => 0
  | a :: as => charge s a + (S.step s a).elim 0 fun s' => charges s' as

variable {S charge}

/-- A run pays one with each step, out of what was owed and what has been
charged. -/
theorem length_le_of_charged {I : σ → Prop} {owed : σ → ℕ}
    (hstep : ∀ s a s', I s → S.step s a = some s' → I s' ∧ owed s' + 1 ≤ owed s + charge s a)
    {s s' : σ} {as : List α} (hs : I s) (hrun : S.run s as = some s') :
    as.length + owed s' ≤ owed s + S.charges charge s as := by
  induction as generalizing s with
  | nil =>
      cases hrun
      rw [List.length_nil, charges]
      omega
  | cons a as ih =>
      obtain ⟨s₁, hs₁, hrest⟩ := Option.bind_eq_some_iff.mp hrun
      obtain ⟨hI, hpaid⟩ := hstep s a s₁ hs hs₁
      have hlater := ih hI hrest
      rw [List.length_cons, charges, hs₁, Option.elim_some]
      omega

end System

end Narshare
