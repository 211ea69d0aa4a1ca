/-
Gossip: nodes that hear one another, of a number of items, until there is
nothing left to hear.

# Settling and spreading

What a node has of an item only grows. `hears o n r T` says that after time
`T` node `n` hears of item `o` from node `r`; however long that takes and
whatever happens meanwhile, once nothing changes any more the listener has
what the teller has. Where finitely many values are possible the whole
thing comes to rest (`Gossip.settles`), and at rest whatever a node has of
an item, everyone has who hears of it again and again, be it through
others (`Gossip.spreads`). Each item may take ways of its own.
-/
import Mathlib.Data.Fintype.Pi
import Mathlib.Data.Set.Finite.Lattice
import Mathlib.Logic.Relation
import Mathlib.Order.Preorder.Finite

namespace Narshare

universe u v w

variable {ι : Type u} {κ : Type v} {α : Type w} [PartialOrder α]

/-- What everyone has of every item at every time, and who hears of it from
whom after which time. Only a listener at rest is sure to have it all: what
is told while it still learns may be late or come in pieces. -/
structure Gossip (know : ℕ → ι → κ → α) (hears : κ → ι → ι → ℕ → Prop) : Prop where
  grows : ∀ t, know t ≤ know (t + 1)
  learns : ∀ N, (∀ t ≥ N, know t = know N) →
    ∀ o n r, hears o n r N → know N r o ≤ know N n o

/-- One node hears of an item from another again and again. -/
def Recurs (hears : κ → ι → ι → ℕ → Prop) (o : κ) (n r : ι) : Prop := ∀ T, hears o n r T

/-- What grows among finitely many values comes to rest. -/
theorem exists_rest {x : ℕ → α} (hmono : ∀ t, x t ≤ x (t + 1)) (hfin : (Set.range x).Finite) :
    ∃ N, ∀ t ≥ N, x t = x N := by
  obtain ⟨top, ⟨N, rfl⟩, hmax⟩ := hfin.exists_maximal (Set.range_nonempty x)
  refine ⟨N, fun t ht => ?_⟩
  have hle : x N ≤ x t := monotone_nat_of_le_succ hmono ht
  exact le_antisymm (hmax ⟨t, rfl⟩ hle) hle

namespace Gossip

variable {know : ℕ → ι → κ → α} {hears : κ → ι → ι → ℕ → Prop}

/-- With finitely many nodes, items and values, it comes to rest. -/
theorem settles [Finite ι] [Finite κ] (h : Gossip know hears)
    (hfin : ∀ n o, (Set.range fun t => know t n o).Finite) :
    ∃ N, ∀ t ≥ N, know t = know N := by
  refine exists_rest h.grows ?_
  refine Set.Finite.subset (Set.Finite.pi fun n => Set.Finite.pi fun o => hfin n o) ?_
  rintro f ⟨t, rfl⟩ n - o -
  exact ⟨t, rfl⟩

/-- At rest, what a node has of an item is had by everyone who hears of it. -/
theorem spreads (h : Gossip know hears) {N : ℕ} (hrest : ∀ t ≥ N, know t = know N) {o : κ}
    {n r : ι} (hlinked : Relation.ReflTransGen (Recurs hears o) n r) :
    know N r o ≤ know N n o := by
  induction hlinked with
  | refl => exact le_rfl
  | tail _ hlink ih => exact (h.learns N hrest _ _ _ (hlink N)).trans ih

end Gossip

end Narshare
