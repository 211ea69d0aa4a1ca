/-
A stock of things held for a number of uses.

# Keeping a plan

A plan is a list of turns: something of a size is taken in for so many
uses, or is used. `Keeps budget h ds` says the turns `ds` go through from
what `h` holds: what is taken in is not held already, what is used is
held at that size, no more than `budget` is held before or after any
turn, and nothing is held at the end. It goes along the list, so what is
left of a plan is kept from what is held by then.

That each use finds what an earlier turn took in, and that this was taken
in for as many uses as there are, follows where nothing is taken in twice
(`Keeps.hold_of_use`, `Keeps.uses_of_hold`).
-/
import Narshare.Lib.OrdMap

namespace Narshare

universe u

variable {K : Type u} [LinearOrder K]

/-- A turn of a plan. -/
inductive Deal (K : Type u)
  | pass
  | hold (k : K) (size uses : ℕ)
  | use (k : K) (size : ℕ)

/-- What is held: its size, and how many uses are left. -/
abbrev Stock (K : Type u) [LinearOrder K] := OrdMap K (ℕ × ℕ)

namespace Stock

/-- How much is held. -/
def total (h : Stock K) : ℕ := h.sum fun _ e => e.1

/-- One turn. -/
def deal (h : Stock K) : Deal K → Option (Stock K)
  | .pass => some h
  | .hold k size uses =>
      if 0 < uses ∧ h.get k = none then some (h.put k (size, uses)) else none
  | .use k size =>
      match h.get k with
      | none => none
      | some e =>
          if e.1 = size ∧ 0 < e.2 then
            some (h.set k (if e.2 = 1 then none else some (size, e.2 - 1)))
          else none

end Stock

/-- The turns go through within the budget, and leave nothing held. -/
def Keeps (budget : ℕ) : Stock K → List (Deal K) → Prop
  | h, [] => h.total ≤ budget ∧ h = ∅
  | h, d :: ds => h.total ≤ budget ∧ ∃ h', h.deal d = some h' ∧ Keeps budget h' ds

/-- What a turn takes in. -/
def Deal.held : Deal K → Option K
  | .hold k _ _ => some k
  | _ => none

/-- Is the turn a use of `k`? -/
def Deal.uses (k : K) : Deal K → Bool
  | .use k' _ => decide (k' = k)
  | _ => false

variable {budget : ℕ} {h h' : Stock K} {k : K} {d : Deal K} {ds : List (Deal K)}

theorem Keeps.total_le (hk : Keeps budget h ds) : h.total ≤ budget := by
  cases ds with
  | nil => exact hk.1
  | cons d ds => exact hk.1

namespace Stock

/-- What a turn leaves of a thing: what it took in, one use less, or what
there was. -/
theorem get_deal (hd : h.deal d = some h') (k : K) :
    (∃ size uses, d = .hold k size uses ∧ h.get k = none ∧ h'.get k = some (size, uses))
      ∨ (∃ size uses, d = .use k size ∧ h.get k = some (size, uses + 1)
        ∧ h'.get k = if uses = 0 then none else some (size, uses))
      ∨ (d.held ≠ some k ∧ d.uses k = false ∧ h'.get k = h.get k) := by
  cases d with
  | pass =>
      cases hd
      exact Or.inr (Or.inr ⟨nofun, rfl, rfl⟩)
  | hold k' size uses =>
      rw [deal] at hd
      split at hd
      next hnew =>
        cases hd
        by_cases hkk : k = k'
        · subst hkk
          exact Or.inl ⟨size, uses, rfl, hnew.2, OrdMap.get_put_self _ _ _⟩
        · refine Or.inr (Or.inr ⟨fun he => hkk (Option.some.inj he).symm, rfl, ?_⟩)
          rw [OrdMap.get_put, if_neg hkk]
      next => cases hd
  | use k' size =>
      simp only [deal] at hd
      split at hd
      next => cases hd
      next e hget =>
        split at hd
        next hok =>
          obtain ⟨size', uses⟩ := e
          obtain ⟨hsize, hpos⟩ := hok
          simp only at hsize hpos
          cases hd
          by_cases hkk : k = k'
          · subst hkk
            refine Or.inr (Or.inl ⟨size, uses - 1, rfl, ?_, ?_⟩)
            · rw [hget, hsize, Nat.sub_add_cancel hpos]
            · rw [OrdMap.get_set_self]
              by_cases hone : uses = 1
              · rw [if_pos hone, if_pos (by omega)]
              · rw [if_neg hone, if_neg (by omega)]
          · refine Or.inr (Or.inr ⟨nofun, decide_eq_false (Ne.symm hkk), ?_⟩)
            exact OrdMap.get_set_ne _ _ hkk
        next => cases hd

end Stock

namespace Stock

/-- What a turn does to how much is held. -/
theorem total_deal (hd : h.deal d = some h') :
    match d with
    | .pass => h'.total = h.total
    | .hold _ size _ => h'.total = h.total + size
    | .use k size => h'.total + (if (h'.get k).isSome then 0 else size) = h.total := by
  cases d with
  | pass =>
      cases hd
      rfl
  | hold k size uses =>
      rw [deal] at hd
      split at hd
      next hnew =>
        cases hd
        exact OrdMap.sum_put_of_none _ hnew.2 _
      next => cases hd
  | use k size =>
      simp only [deal] at hd ⊢
      split at hd
      next => cases hd
      next e hget =>
        split at hd
        next hok =>
          obtain ⟨rfl, -⟩ := hok
          cases hd
          have hsum := h.sum_set (fun _ e => e.1) k (if e.2 = 1 then none else some (e.1, e.2 - 1))
          rw [hget, Option.elim_some] at hsum
          rw [OrdMap.get_set_self, total, total]
          by_cases hone : e.2 = 1
          · simp only [if_pos hone, Option.elim_none, Option.isSome_none, Bool.false_eq_true,
              if_false] at hsum ⊢
            omega
          · simp only [if_neg hone, Option.elim_some, Option.isSome_some, if_true] at hsum ⊢
            omega
        next => cases hd

end Stock

/-- A use finds what is held, or what an earlier turn took in, at its
size. -/
theorem Keeps.hold_of_use (hk : Keeps budget h ds) {i size : ℕ}
    (hi : ds[i]? = some (.use k size)) :
    (∃ uses, h.get k = some (size, uses))
      ∨ ∃ j < i, ∃ uses, ds[j]? = some (.hold k size uses) := by
  induction ds generalizing h i with
  | nil => cases hi
  | cons d ds ih =>
      obtain ⟨-, h', hd, hrest⟩ := hk
      cases i with
      | zero =>
          cases hi
          rcases Stock.get_deal hd k with ⟨_, _, he, -⟩ | ⟨_, uses, he, hget, -⟩ | ⟨-, huse, -⟩
          · cases he
          · cases he
            exact Or.inl ⟨uses + 1, hget⟩
          · simp [Deal.uses] at huse
      | succ i =>
          rcases ih hrest hi with ⟨uses, hget'⟩ | ⟨j, hj, uses, hjd⟩
          · rcases Stock.get_deal hd k with ⟨size', uses', rfl, -, hnew⟩
              | ⟨size', uses', -, hold, hnew⟩ | ⟨-, -, hsame⟩
            · rw [hget'] at hnew
              cases hnew
              exact Or.inr ⟨0, Nat.succ_pos i, uses, rfl⟩
            · rw [hget'] at hnew
              split at hnew
              · cases hnew
              · cases hnew
                exact Or.inl ⟨_, hold⟩
            · rw [hsame] at hget'
              exact Or.inl ⟨uses, hget'⟩
          · exact Or.inr ⟨j + 1, Nat.succ_lt_succ hj, uses, hjd⟩

/-- What is not taken in again is used as often as uses of it are left. -/
theorem Keeps.uses_of_get (hk : Keeps budget h ds) (hnot : k ∉ ds.filterMap Deal.held) :
    ds.countP (Deal.uses k) = (h.get k).elim 0 Prod.snd := by
  induction ds generalizing h with
  | nil =>
      rw [hk.2]
      rfl
  | cons d ds ih =>
      obtain ⟨-, h', hd, hrest⟩ := hk
      have hnot' : k ∉ ds.filterMap Deal.held := fun hin => hnot (by
        rw [List.filterMap_cons]
        split
        · exact hin
        · exact List.mem_cons_of_mem _ hin)
      rw [List.countP_cons, ih hrest hnot']
      rcases Stock.get_deal hd k with ⟨size, uses, rfl, -⟩ | ⟨size, uses, rfl, hold, hnew⟩
        | ⟨-, huse, hsame⟩
      · exact absurd (by rw [List.filterMap_cons]; exact List.mem_cons_self) hnot
      · rw [hold, hnew, Deal.uses, decide_eq_true rfl, if_pos rfl]
        split
        next hzero => rw [hzero]; rfl
        next => rfl
      · rw [hsame, huse]
        rfl

/-- What is taken in once is taken in for as many uses as there are. -/
theorem Keeps.uses_of_hold (hk : Keeps budget h ds) (hnone : h.get k = none)
    (hnodup : (ds.filterMap Deal.held).Nodup) {j size uses : ℕ}
    (hj : ds[j]? = some (.hold k size uses)) : ds.countP (Deal.uses k) = uses := by
  induction ds generalizing h j with
  | nil => cases hj
  | cons d ds ih =>
      obtain ⟨-, h', hd, hrest⟩ := hk
      rw [List.countP_cons]
      cases j with
      | zero =>
          cases hj
          rw [List.filterMap_cons] at hnodup
          obtain ⟨hnot, -⟩ := List.nodup_cons.mp hnodup
          rcases Stock.get_deal hd k with ⟨_, _, he, -, hnew⟩ | ⟨_, _, he, -⟩ | ⟨hheld, -⟩
          · cases he
            rw [hrest.uses_of_get hnot, hnew]
            rfl
          · cases he
          · exact absurd rfl hheld
      | succ j =>
          have hin : k ∈ ds.filterMap Deal.held :=
            List.mem_filterMap.mpr ⟨_, List.mem_of_getElem? hj, rfl⟩
          rw [List.filterMap_cons] at hnodup
          rcases Stock.get_deal hd k with ⟨_, _, rfl, -⟩ | ⟨_, _, -, hold, -⟩ | ⟨-, huse, hsame⟩
          · exact absurd hin (List.nodup_cons.mp hnodup).1
          · rw [hnone] at hold
            cases hold
          · rw [huse, ih hrest (hsame.trans hnone) ?_ hj]
            · rfl
            · split at hnodup
              · exact hnodup
              · exact (List.nodup_cons.mp hnodup).2

end Narshare
