/-
The retention planner of dedup.rs.

# Two passes

`identify` numbers the distinct segments in the order they first occur,
and counts and locates their occurrences. `reside` then walks the
occurrences with what is resident so far: a segment that comes again, and
still fits the budget, is retained on its first occurrence for all the
later ones, and freed by the last of them.

# The plan is kept

Read as turns of a stock (`Step.deal`), a plan is kept within the budget
from nothing to nothing (`plan_keeps`). `Residency.Ok` is the invariant
of the walk: what is resident is what the stock holds, each for as many
uses as it has occurrences ahead. That a retained copy is replayed at the
length it was fetched with rests on the caller: one key has one size.
-/
import Narshare.Lib.Stock
import Mathlib.Data.List.Count
import Mathlib.Data.List.Induction

namespace Narshare

namespace Dedup

/-- `Step`. -/
inductive Step
  | fetch (unique retainFor : ℕ)
  | cached (unique : ℕ)
deriving DecidableEq

variable {K : Type}

/-- What pass 1 of `plan` gathers. -/
structure Ids (K : Type) where
  idOf : K → Option ℕ := fun _ => none
  uniqueAt : List ℕ := []
  occurrences : List ℕ := []
  lastPos : List ℕ := []
  sizeOf : List ℕ := []

/-- One turn of pass 1. -/
def Ids.add [DecidableEq K] (ids : Ids K) (p : ℕ) (k : K) (size : ℕ) : Ids K :=
  let nextId := ids.occurrences.length
  let id := (ids.idOf k).getD nextId
  let ids := { ids with idOf := fun k' => if k' = k then some id else ids.idOf k' }
  let ids :=
    if id = nextId then
      { ids with
        occurrences := ids.occurrences ++ [0]
        lastPos := ids.lastPos ++ [0]
        sizeOf := ids.sizeOf ++ [size] }
    else ids
  { ids with
    occurrences := ids.occurrences.modify id (· + 1)
    lastPos := ids.lastPos.set id p
    uniqueAt := ids.uniqueAt ++ [id] }

/-- `plan`, pass 1, over the occurrences with their sizes. -/
def identify [DecidableEq K] (occs : List (K × ℕ)) : Ids K :=
  occs.zipIdx.foldl (fun ids o => ids.add o.2 o.1.1 o.1.2) {}

/-- What pass 2 of `plan` carries. -/
structure Residency where
  resident : List Bool
  seen : List Bool
  residentBytes : ℕ

/-- One turn of pass 2. -/
def Residency.next (ids : Ids K) (budget p u : ℕ) (r : Residency) : Step × Residency :=
  let size := ids.sizeOf.getD u 0
  if r.seen.getD u false = false then
    let r := { r with seen := r.seen.set u true }
    let later := ids.occurrences.getD u 0 - 1
    if later > 0 ∧ r.residentBytes + size ≤ budget then
      (.fetch u later,
        { r with
          resident := r.resident.set u true
          residentBytes := r.residentBytes + size })
    else (.fetch u 0, r)
  else if r.resident.getD u false = true then
    (.cached u,
      if p = ids.lastPos.getD u 0 then
        { r with
          resident := r.resident.set u false
          residentBytes := r.residentBytes - size }
      else r)
  -- a duplicate the budget could not hold
  else (.fetch u 0, r)

/-- `plan`, pass 2. -/
def reside (ids : Ids K) (budget : ℕ) : List ℕ → ℕ → Residency → List Step
  | [], _, _ => []
  | u :: us, p, r =>
      let (step, r) := r.next ids budget p u
      step :: reside ids budget us (p + 1) r

/-- `plan`. -/
def plan [DecidableEq K] (occs : List (K × ℕ)) (budget : ℕ) : List Step :=
  let ids := identify occs
  let n := ids.occurrences.length
  reside ids budget ids.uniqueAt 0 ⟨List.replicate n false, List.replicate n false, 0⟩

-- ================================================================ pass 1

theorem getElem?_concat {l : List ℕ} {a b i : ℕ} :
    (l ++ [a])[i]? = some b ↔ l[i]? = some b ∨ (i = l.length ∧ a = b) := by
  rcases Nat.lt_trichotomy i l.length with hlt | rfl | hgt
  · rw [List.getElem?_append_left hlt]
    exact ⟨Or.inl, fun h => h.elim id fun h => absurd h.1 (Nat.ne_of_lt hlt)⟩
  · rw [List.getElem?_append_right le_rfl, Nat.sub_self, List.getElem?_eq_none le_rfl]
    simp
  · rw [List.getElem?_eq_none (by rw [List.length_append, List.length_singleton]; omega),
      List.getElem?_eq_none hgt.le]
    exact ⟨nofun, fun h => h.elim nofun fun h => absurd h.1 (Nat.ne_of_gt hgt)⟩

/-- The last place `u` occurs at. -/
def LastAt (l : List ℕ) (u p : ℕ) : Prop := l[p]? = some u ∧ ∀ i : ℕ, l[i]? = some u → i ≤ p

theorem LastAt.concat_ne {l : List ℕ} {u v p : ℕ} (h : LastAt l v p) (hne : u ≠ v) :
    LastAt (l ++ [u]) v p := by
  refine ⟨getElem?_concat.mpr (Or.inl h.1), fun i hi => ?_⟩
  rcases getElem?_concat.mp hi with hi | ⟨-, he⟩
  · exact h.2 i hi
  · exact absurd he hne

theorem lastAt_concat (l : List ℕ) (u : ℕ) : LastAt (l ++ [u]) u l.length := by
  refine ⟨getElem?_concat.mpr (Or.inr ⟨rfl, rfl⟩), fun i hi => ?_⟩
  rcases getElem?_concat.mp hi with hi | ⟨he, -⟩
  · exact (List.getElem?_eq_some_iff.mp hi).1.le
  · exact he.le

/-- What pass 1 knows of the occurrences so far. -/
structure Ids.Ok (occs : List (K × ℕ)) (ids : Ids K) : Prop where
  length : ids.uniqueAt.length = occs.length
  lastLen : ids.lastPos.length = ids.occurrences.length
  sizeLen : ids.sizeOf.length = ids.occurrences.length
  idOf : ∀ {k u}, ids.idOf k = some u →
    u < ids.occurrences.length ∧ ∃ s, (k, s) ∈ occs ∧ ids.sizeOf[u]? = some s
  size : ∀ {i : ℕ} {k : K} {s : ℕ}, occs[i]? = some (k, s) →
    ∃ u, ids.uniqueAt[i]? = some u ∧ u < ids.occurrences.length ∧ ids.sizeOf[u]? = some s
  occ : ∀ {u}, u < ids.occurrences.length → ids.occurrences[u]? = some (ids.uniqueAt.count u)
  last : ∀ {u}, u < ids.occurrences.length → ∃ p, ids.lastPos[u]? = some p
    ∧ LastAt ids.uniqueAt u p

theorem Ids.ok_empty : Ids.Ok ([] : List (K × ℕ)) {} :=
  ⟨rfl, rfl, rfl, nofun, fun h => by simp at h, nofun, nofun⟩

/-- Sizes are still found by number when one more occurrence is numbered. -/
theorem Ids.Ok.size_concat {occs : List (K × ℕ)} {ids : Ids K} (h : ids.Ok occs) {k : K}
    {s u n : ℕ} {sizes : List ℕ} (hu : u < n) (hs : sizes[u]? = some s)
    (hle : ids.occurrences.length ≤ n)
    (hold : ∀ v < ids.occurrences.length, sizes[v]? = ids.sizeOf[v]?) {i : ℕ} {k' : K} {s' : ℕ}
    (hi : (occs ++ [(k, s)])[i]? = some (k', s')) :
    ∃ v, (ids.uniqueAt ++ [u])[i]? = some v ∧ v < n ∧ sizes[v]? = some s' := by
  rcases Nat.lt_or_ge i occs.length with hlt | hge
  · rw [List.getElem?_append_left hlt] at hi
    obtain ⟨v, hv, hvlt, hvs⟩ := h.size hi
    exact ⟨v, getElem?_concat.mpr (Or.inl hv), hvlt.trans_le hle, by rw [hold v hvlt, hvs]⟩
  · rw [List.getElem?_append_right hge, List.getElem?_singleton] at hi
    split at hi
    next hz =>
      cases hi
      exact ⟨u, getElem?_concat.mpr (Or.inr ⟨by rw [h.length]; omega, rfl⟩), hu, hs⟩
    next => cases hi

/-- A key that has a number. -/
theorem Ids.add_of_some [DecidableEq K] {ids : Ids K} {k : K} {u : ℕ} (hid : ids.idOf k = some u)
    (hlt : u < ids.occurrences.length) (p size : ℕ) :
    ids.add p k size
      = { ids with
          idOf := fun k' => if k' = k then some u else ids.idOf k'
          occurrences := ids.occurrences.modify u (· + 1)
          lastPos := ids.lastPos.set u p
          uniqueAt := ids.uniqueAt ++ [u] } := by
  simp only [add, hid, Option.getD_some, if_neg (Nat.ne_of_lt hlt)]

/-- A key that gets the next one. -/
theorem Ids.add_of_none [DecidableEq K] {ids : Ids K} {k : K} (hid : ids.idOf k = none)
    (hlast : ids.lastPos.length = ids.occurrences.length) (p size : ℕ) :
    ids.add p k size
      = { idOf := fun k' => if k' = k then some ids.occurrences.length else ids.idOf k'
          occurrences := ids.occurrences ++ [1]
          lastPos := ids.lastPos ++ [p]
          sizeOf := ids.sizeOf ++ [size]
          uniqueAt := ids.uniqueAt ++ [ids.occurrences.length] } := by
  have hocc : (ids.occurrences ++ [0]).modify ids.occurrences.length (· + 1)
      = ids.occurrences ++ [1] := by
    induction ids.occurrences with
    | nil => rfl
    | cons a l ih => rw [List.cons_append, List.length_cons, List.modify_succ_cons, ih]; rfl
  have hpos : (ids.lastPos ++ [0]).set ids.occurrences.length p = ids.lastPos ++ [p] := by
    rw [List.set_append_right _ _ hlast.le, hlast, Nat.sub_self]
    rfl
  simp only [add, hid, Option.getD_none, if_true, hocc, hpos]

theorem Ids.Ok.add_of_some [DecidableEq K] {occs : List (K × ℕ)} {ids : Ids K} (h : ids.Ok occs)
    {k : K} {s u : ℕ} (hsame : ∀ s', (k, s') ∈ occs → s' = s) (hid : ids.idOf k = some u) :
    (ids.add occs.length k s).Ok (occs ++ [(k, s)]) := by
  obtain ⟨hlt, s₀, hmem, hsize⟩ := h.idOf hid
  rw [hsame s₀ hmem] at hsize
  rw [Ids.add_of_some hid hlt]
  constructor
  · simp only [List.length_append, List.length_singleton, h.length]
  · simp only [List.length_set, List.length_modify, h.lastLen]
  · simp only [List.length_modify, h.sizeLen]
  · intro k' v hv
    simp only [List.length_modify] at hv ⊢
    split at hv
    next hkk =>
      cases hv
      exact ⟨hlt, s, by rw [hkk]; exact List.mem_append_right _ List.mem_cons_self, hsize⟩
    next =>
      obtain ⟨hv', s', hs', hsz⟩ := h.idOf hv
      exact ⟨hv', s', List.mem_append_left _ hs', hsz⟩
  · intro i k' s' hi
    simp only [List.length_modify]
    exact h.size_concat hlt hsize le_rfl (fun _ _ => rfl) hi
  · intro v hv
    simp only [List.length_modify] at hv
    rw [List.getElem?_modify, h.occ hv, List.count_append, List.count_singleton]
    by_cases huv : u = v
    · simp [huv]
    · simp [huv]
  · intro v hv
    simp only [List.length_modify] at hv
    by_cases huv : u = v
    · subst huv
      refine ⟨occs.length, List.getElem?_set_self (by rwa [h.lastLen]), ?_⟩
      rw [← h.length]
      exact lastAt_concat _ _
    · obtain ⟨p, hp, hlast⟩ := h.last hv
      exact ⟨p, by rw [List.getElem?_set_ne huv, hp], hlast.concat_ne huv⟩

theorem Ids.Ok.add_of_none [DecidableEq K] {occs : List (K × ℕ)} {ids : Ids K} (h : ids.Ok occs)
    {k : K} (s : ℕ) (hid : ids.idOf k = none) :
    (ids.add occs.length k s).Ok (occs ++ [(k, s)]) := by
  have hlast : ∀ v, v < (ids.occurrences ++ [1]).length →
      v < ids.occurrences.length ∨ v = ids.occurrences.length := by
    intro v hv
    rw [List.length_append, List.length_singleton] at hv
    omega
  have hat : (ids.sizeOf ++ [s])[ids.occurrences.length]? = some s :=
    getElem?_concat.mpr (Or.inr ⟨h.sizeLen.symm, rfl⟩)
  have hold : ∀ v < ids.occurrences.length, (ids.sizeOf ++ [s])[v]? = ids.sizeOf[v]? :=
    fun v hv => List.getElem?_append_left (by rwa [h.sizeLen])
  have hfresh : ids.uniqueAt.count ids.occurrences.length = 0 := by
    rw [List.count_eq_zero]
    intro hin
    obtain ⟨i, hi⟩ := List.mem_iff_getElem?.mp hin
    have hilt := (List.getElem?_eq_some_iff.mp hi).1
    rw [h.length] at hilt
    obtain ⟨v, hv, hvlt, -⟩ := h.size (List.getElem?_eq_getElem hilt)
    rw [hi] at hv
    cases hv
    exact absurd hvlt (lt_irrefl _)
  rw [Ids.add_of_none hid h.lastLen]
  constructor
  · simp only [List.length_append, List.length_singleton, h.length]
  · simp only [List.length_append, List.length_singleton, h.lastLen]
  · simp only [List.length_append, List.length_singleton, h.sizeLen]
  · intro k' v hv
    simp only [List.length_append, List.length_singleton] at hv ⊢
    split at hv
    next hkk =>
      cases hv
      exact ⟨Nat.lt_succ_self _, s, by rw [hkk]; exact List.mem_append_right _ List.mem_cons_self,
        hat⟩
    next =>
      obtain ⟨hv', s', hs', hsz⟩ := h.idOf hv
      exact ⟨Nat.lt_succ_of_lt hv', s', List.mem_append_left _ hs', by rw [hold v hv', hsz]⟩
  · intro i k' s' hi
    simp only [List.length_append, List.length_singleton]
    exact h.size_concat (Nat.lt_succ_self _) hat (Nat.le_succ _) hold hi
  · intro v hv
    rw [List.count_append, List.count_singleton]
    rcases hlast v hv with hlt | rfl
    · rw [List.getElem?_append_left hlt, h.occ hlt]
      simp [Nat.ne_of_gt hlt]
    · rw [List.getElem?_append_right le_rfl, Nat.sub_self, hfresh]
      simp
  · intro v hv
    rcases hlast v hv with hlt | rfl
    · obtain ⟨p, hp, hlastp⟩ := h.last hlt
      exact ⟨p, getElem?_concat.mpr (Or.inl hp), hlastp.concat_ne (Nat.ne_of_gt hlt)⟩
    · refine ⟨occs.length, getElem?_concat.mpr (Or.inr ⟨h.lastLen.symm, rfl⟩), ?_⟩
      rw [← h.length]
      exact lastAt_concat _ _

theorem Ids.Ok.add [DecidableEq K] {occs : List (K × ℕ)} {ids : Ids K} (h : ids.Ok occs) {k : K}
    {s : ℕ} (hsame : ∀ s', (k, s') ∈ occs → s' = s) :
    (ids.add occs.length k s).Ok (occs ++ [(k, s)]) := by
  cases hid : ids.idOf k with
  | some u => exact h.add_of_some hsame hid
  | none => exact h.add_of_none s hid

/-- Pass 1 knows all the occurrences. -/
theorem ok_identify [DecidableEq K] {occs : List (K × ℕ)}
    (hsame : ∀ k s s', (k, s) ∈ occs → (k, s') ∈ occs → s = s') : (identify occs).Ok occs := by
  induction occs using List.reverseRecOn with
  | nil => exact Ids.ok_empty
  | append_singleton occs o ih =>
      have hrest := ih fun k s s' hs hs' =>
        hsame k s s' (List.mem_append_left _ hs) (List.mem_append_left _ hs')
      have heq : identify (occs ++ [o]) = (identify occs).add occs.length o.1 o.2 := by
        rw [identify, List.zipIdx_append, List.foldl_append]
        simp [identify]
      rw [heq]
      exact hrest.add fun s' hs' => hsame o.1 s' o.2 (List.mem_append_left _ hs')
        (List.mem_append_right _ List.mem_cons_self)

-- ================================================================ pass 2

/-- A step as a turn of the stock of what is retained. -/
def Step.deal (size : ℕ) : Step → Deal ℕ
  | .fetch unique retainFor => if retainFor > 0 then .hold unique size retainFor else .pass
  | .cached unique => .use unique size

/-- What pass 2 carries, before the occurrences `us` from place `p` on:
what is resident is what the stock holds, for the occurrences ahead. -/
structure Residency.Ok (ids : Ids K) (budget : ℕ) (us : List ℕ) (p : ℕ) (r : Residency)
    (h : Stock ℕ) : Prop where
  rest : ids.uniqueAt.drop p = us
  seen : ∀ {u}, u < ids.occurrences.length →
    r.seen[u]? = some (decide (u ∈ ids.uniqueAt.take p))
  resident : ∀ {u}, u < ids.occurrences.length → r.resident[u]? = some (h.get u).isSome
  held : ∀ {u e}, h.get u = some e → u < ids.occurrences.length ∧ u ∈ ids.uniqueAt.take p
    ∧ ids.sizeOf[u]? = some e.1 ∧ e.2 = us.count u ∧ 0 < us.count u
  bytes : r.residentBytes = h.total
  le : h.total ≤ budget

section Walk

variable {occs : List (K × ℕ)} {ids : Ids K} {budget p u s : ℕ} {us : List ℕ} {r : Residency}
  {h : Stock ℕ}

/-- What is ahead shrinks to what is ahead of the next occurrence. -/
theorem Residency.Ok.drop_succ (ho : r.Ok ids budget (u :: us) p h) :
    ids.uniqueAt[p]? = some u ∧ ids.uniqueAt.drop (p + 1) = us
      ∧ ids.uniqueAt.take (p + 1) = ids.uniqueAt.take p ++ [u] := by
  have hget : ids.uniqueAt[p]? = some u := by
    rw [← List.head?_drop, ho.rest]
    rfl
  refine ⟨hget, by rw [← List.drop_drop, ho.rest]; rfl, ?_⟩
  rw [List.take_add_one, hget]
  rfl

/-- A retained segment other than the next is retained for what is ahead
of the next. -/
theorem Residency.Ok.held_ne (ho : r.Ok ids budget (u :: us) p h) {v : ℕ} {e : ℕ × ℕ}
    (he : h.get v = some e) (hv : v ≠ u) :
    v < ids.occurrences.length ∧ v ∈ ids.uniqueAt.take (p + 1) ∧ ids.sizeOf[v]? = some e.1
      ∧ e.2 = us.count v ∧ 0 < us.count v := by
  obtain ⟨hlt, hin, hsize, hcount, hpos⟩ := ho.held he
  rw [List.count_cons_of_ne (Ne.symm hv)] at hcount hpos
  rw [ho.drop_succ.2.2]
  exact ⟨hlt, List.mem_append_left _ hin, hsize, hcount, hpos⟩

theorem Residency.Ok.seen_set (ho : r.Ok ids budget (u :: us) p h)
    (hlt : u < ids.occurrences.length) {v : ℕ} (hv : v < ids.occurrences.length) :
    (r.seen.set u true)[v]? = some (decide (v ∈ ids.uniqueAt.take (p + 1))) := by
  rw [ho.drop_succ.2.2]
  by_cases huv : u = v
  · subst huv
    rw [List.getElem?_set_self (List.getElem?_eq_some_iff.mp (ho.seen hlt)).1]
    simp
  · rw [List.getElem?_set_ne huv, ho.seen hv]
    simp [Ne.symm huv]

theorem Residency.Ok.seen_again (ho : r.Ok ids budget (u :: us) p h)
    (hin : u ∈ ids.uniqueAt.take p) {v : ℕ} (hv : v < ids.occurrences.length) :
    r.seen[v]? = some (decide (v ∈ ids.uniqueAt.take (p + 1))) := by
  rw [ho.seen hv, ho.drop_succ.2.2]
  congr 1
  rw [decide_eq_decide, List.mem_append, List.mem_singleton]
  exact ⟨Or.inl, fun h => h.elim id fun h => h ▸ hin⟩

/-- What one turn has to do. -/
def Residency.Follows (ids : Ids K) (budget : ℕ) (us : List ℕ) (p u s : ℕ) (h : Stock ℕ)
    (out : Step × Residency) : Prop :=
  ∃ h', h.deal (out.1.deal s) = some h' ∧ out.2.Ok ids budget us (p + 1) h'
    ∧ ∀ v, (out.1.deal s).held = some v → v = u ∧ u ∉ ids.uniqueAt.take p

/-- An occurrence fetched and not retained. -/
theorem Residency.Ok.follows_pass (ho : r.Ok ids budget (u :: us) p h)
    (hnone : h.get u = none) {seen : List Bool}
    (hseen : ∀ {v}, v < ids.occurrences.length →
      seen[v]? = some (decide (v ∈ ids.uniqueAt.take (p + 1)))) :
    Follows ids budget us p u s h (.fetch u 0, { r with seen := seen }) := by
  refine ⟨h, rfl, ⟨ho.drop_succ.2.1, hseen, ho.resident, fun {v e} he => ?_, ho.bytes, ho.le⟩,
    nofun⟩
  refine ho.held_ne he fun heq => ?_
  rw [heq, hnone] at he
  cases he

/-- A first occurrence retained for all that are ahead. -/
theorem Residency.Ok.follows_hold (ho : r.Ok ids budget (u :: us) p h)
    (hlt : u < ids.occurrences.length) (hsize : ids.sizeOf[u]? = some s)
    (hin : u ∉ ids.uniqueAt.take p) (hnone : h.get u = none) (hpos : us.count u > 0)
    (hfits : r.residentBytes + s ≤ budget) :
    Follows ids budget us p u s h (.fetch u (us.count u),
      { r with
        seen := r.seen.set u true
        resident := r.resident.set u true
        residentBytes := r.residentBytes + s }) := by
  have htotal : Stock.total (h.put u (s, us.count u)) = h.total + s := by
    have := h.sum_set (fun _ e => e.1) u (some (s, us.count u))
    rw [hnone] at this
    exact this
  refine ⟨h.put u (s, us.count u), ?_, ?_, ?_⟩
  · rw [Step.deal, if_pos hpos, Stock.deal, if_pos ⟨hpos, hnone⟩]
  · constructor
    · exact ho.drop_succ.2.1
    · exact ho.seen_set hlt
    · intro v hv
      rw [OrdMap.get_put]
      by_cases huv : v = u
      · subst huv
        rw [if_pos rfl]
        exact List.getElem?_set_self (List.getElem?_eq_some_iff.mp (ho.resident hlt)).1
      · rw [if_neg huv]
        exact (List.getElem?_set_ne (Ne.symm huv)).trans (ho.resident hv)
    · intro v e he
      rw [OrdMap.get_put] at he
      split at he
      next huv =>
        cases he
        subst huv
        refine ⟨hlt, ?_, hsize, rfl, hpos⟩
        rw [ho.drop_succ.2.2]
        exact List.mem_append_right _ List.mem_cons_self
      next huv => exact ho.held_ne he huv
    · rw [htotal, ← ho.bytes]
    · rw [htotal, ← ho.bytes]
      exact hfits
  · intro v hv
    rw [Step.deal, if_pos hpos] at hv
    exact ⟨(Option.some.inj hv).symm, hin⟩

/-- A retained copy replayed, and freed where no occurrence is ahead. -/
theorem Residency.Ok.follows_use (ho : r.Ok ids budget (u :: us) p h)
    (hlt : u < ids.occurrences.length) (hsize : ids.sizeOf[u]? = some s)
    (hin : u ∈ ids.uniqueAt.take p) {e : ℕ × ℕ} (hget : h.get u = some e) :
    Follows ids budget us p u s h (.cached u,
      if us.count u = 0 then
        { r with
          resident := r.resident.set u false
          residentBytes := r.residentBytes - s }
      else r) := by
  obtain ⟨-, -, hes, hec, -⟩ := ho.held hget
  rw [hsize] at hes
  have hes : e.1 = s := (Option.some.inj hes).symm
  rw [List.count_cons_self] at hec
  have hle := ho.le
  have hbytes := ho.bytes
  have htotal := h.sum_set (fun _ e => e.1) u
    (if us.count u = 0 then none else some (s, us.count u))
  rw [hget, Option.elim_some, hes] at htotal
  have hrest : ∀ {v e'}, (h.set u (if us.count u = 0 then none else some (s, us.count u))).get v
      = some e' → v < ids.occurrences.length ∧ v ∈ ids.uniqueAt.take (p + 1)
        ∧ ids.sizeOf[v]? = some e'.1 ∧ e'.2 = us.count v ∧ 0 < us.count v := by
    intro v e' he'
    by_cases huv : v = u
    · subst huv
      rw [OrdMap.get_set_self] at he'
      split at he'
      next => cases he'
      next hzero =>
        cases he'
        refine ⟨hlt, ?_, hsize, rfl, Nat.pos_of_ne_zero hzero⟩
        rw [ho.drop_succ.2.2]
        exact List.mem_append_left _ hin
    · rw [OrdMap.get_set_ne _ _ huv] at he'
      exact ho.held_ne he' huv
  refine ⟨h.set u (if us.count u = 0 then none else some (s, us.count u)), ?_, ?_, nofun⟩
  · rw [Step.deal, Stock.deal]
    simp only [hget]
    rw [if_pos ⟨hes, by omega⟩, hec]
    simp only [Nat.add_eq_right, Nat.add_sub_cancel]
  · by_cases hzero : us.count u = 0
    · simp only [if_pos hzero] at htotal hrest ⊢
      refine ⟨ho.drop_succ.2.1, ho.seen_again hin, fun {v} hv => ?_, hrest, ?_, ?_⟩
      · by_cases huv : u = v
        · subst huv
          rw [OrdMap.get_set_self]
          exact List.getElem?_set_self (List.getElem?_eq_some_iff.mp (ho.resident hlt)).1
        · rw [OrdMap.get_set_ne _ _ (Ne.symm huv)]
          exact (List.getElem?_set_ne huv).trans (ho.resident hv)
      · rw [Stock.total] at hbytes ⊢
        simp only [Option.elim_none, Nat.add_zero] at htotal ⊢
        omega
      · rw [Stock.total] at hle ⊢
        simp only [Option.elim_none, Nat.add_zero] at htotal
        omega
    · simp only [if_neg hzero] at htotal hrest ⊢
      have hsum : Stock.total (h.set u (some (s, us.count u))) = h.total := by
        exact Nat.add_right_cancel htotal
      refine ⟨ho.drop_succ.2.1, ho.seen_again hin, fun {v} hv => ?_, hrest, ?_, ?_⟩
      · rw [ho.resident hv]
        by_cases huv : u = v
        · subst huv
          rw [OrdMap.get_set_self, hget]
          rfl
        · rw [OrdMap.get_set_ne _ _ (Ne.symm huv)]
      · rw [hsum, hbytes]
      · rwa [hsum]

/-- What pass 2 reads of an occurrence. -/
structure Residency.Reads (ids : Ids K) (us : List ℕ) (p u s : ℕ) (r : Residency)
    (h : Stock ℕ) : Prop where
  size : ids.sizeOf.getD u 0 = s
  seen : r.seen.getD u false = decide (u ∈ ids.uniqueAt.take p)
  resident : r.resident.getD u false = (h.get u).isSome
  later : u ∉ ids.uniqueAt.take p → ids.occurrences.getD u 0 - 1 = us.count u

theorem Residency.Ok.reads (hids : ids.Ok occs) (ho : r.Ok ids budget (u :: us) p h)
    (hlt : u < ids.occurrences.length) (hsize : ids.sizeOf[u]? = some s) :
    r.Reads ids us p u s h where
  size := by rw [List.getD_eq_getElem?_getD, hsize, Option.getD_some]
  seen := by rw [List.getD_eq_getElem?_getD, ho.seen hlt, Option.getD_some]
  resident := by rw [List.getD_eq_getElem?_getD, ho.resident hlt, Option.getD_some]
  later hin := by
    rw [List.getD_eq_getElem?_getD, hids.occ hlt, Option.getD_some,
      ← List.take_append_drop p ids.uniqueAt, List.count_append, ho.rest,
      List.count_eq_zero.mpr hin, List.count_cons_self]
    omega

/-- One step keeps the stock, whatever the step is. -/
theorem Residency.Ok.next (hids : ids.Ok occs) (ho : r.Ok ids budget (u :: us) p h)
    (hlt : u < ids.occurrences.length) (hsize : ids.sizeOf[u]? = some s) :
    Follows ids budget us p u s h (r.next ids budget p u) := by
  obtain ⟨hat, hrest, -⟩ := ho.drop_succ
  obtain ⟨hsz, hseen, hres, hlater⟩ := ho.reads hids hlt hsize
  unfold Residency.next
  by_cases hin : u ∈ ids.uniqueAt.take p
  · rw [decide_eq_true hin] at hseen
    cases hget : h.get u with
    | some e =>
        have hlast : p = ids.lastPos.getD u 0 ↔ us.count u = 0 := by
          obtain ⟨q, hq, hqat, hqmax⟩ := hids.last hlt
          rw [List.getD_eq_getElem?_getD, hq, Option.getD_some, List.count_eq_zero]
          constructor
          · intro hpq hin'
            obtain ⟨i, hi⟩ := List.mem_iff_getElem?.mp hin'
            rw [← hrest, List.getElem?_drop] at hi
            have := hqmax _ hi
            omega
          · intro hnot
            by_contra hne
            have hpq := hqmax _ hat
            have hgt : p < q := by omega
            refine hnot (List.mem_iff_getElem?.mpr ⟨q - (p + 1), ?_⟩)
            rw [← hrest, List.getElem?_drop, Nat.add_sub_cancel' hgt, hqat]
        simp only [hseen, hres, hget, hsz, Option.isSome_some, Bool.true_eq_false, if_false,
          if_true, hlast]
        exact ho.follows_use hlt hsize hin hget
    | none =>
        simp only [hseen, hres, hget, Option.isSome_none, Bool.true_eq_false,
          Bool.false_eq_true, if_false]
        exact ho.follows_pass hget (ho.seen_again hin)
  · rw [decide_eq_false hin] at hseen
    have hnone : h.get u = none := by
      cases hget : h.get u with
      | none => rfl
      | some e => exact absurd (ho.held hget).2.1 hin
    simp only [hseen, hlater hin, hsz, if_true]
    split
    next hfits => exact ho.follows_hold hlt hsize hin hnone hfits.1 hfits.2
    next => exact ho.follows_pass hnone (ho.seen_set hlt)

/-- The rest of the walk keeps what it retains. -/
theorem keeps_reside (hids : ids.Ok occs) (ho : r.Ok ids budget us p h) :
    let steps := reside ids budget us p r
    let deals := List.zipWith (fun o step => step.deal o.2) (occs.drop p) steps
    steps.length = us.length ∧ Keeps budget h deals
      ∧ (deals.filterMap Deal.held).Nodup
      ∧ ∀ v ∈ deals.filterMap Deal.held, v ∉ ids.uniqueAt.take p := by
  induction us generalizing p r h with
  | nil =>
      have hempty : h = ∅ := by
        apply OrdMap.ext
        intro u
        cases hget : h.get u with
        | none => rfl
        | some e => exact absurd (ho.held hget).2.2.2.2 (lt_irrefl _)
      rw [reside]
      simp only [List.zipWith_nil_right]
      exact ⟨rfl, ⟨ho.le, hempty⟩, List.nodup_nil, nofun⟩
  | cons u us ih =>
      obtain ⟨hat, -, htake⟩ := ho.drop_succ
      have hplt : p < occs.length := hids.length ▸ (List.getElem?_eq_some_iff.mp hat).1
      obtain ⟨v, hv, hlt, hsize⟩ := hids.size (List.getElem?_eq_getElem hplt)
      rw [hat] at hv
      cases hv
      obtain ⟨h', hdeal, ho', hheld⟩ := ho.next hids hlt hsize
      obtain ⟨hlen, hkeeps, hnodup, hfresh⟩ := ih ho'
      intro steps deals
      have hsteps : steps = (r.next ids budget p u).1
          :: reside ids budget us (p + 1) (r.next ids budget p u).2 := rfl
      have hdeals : deals = (r.next ids budget p u).1.deal occs[p].2
          :: List.zipWith (fun o step => step.deal o.2) (occs.drop (p + 1))
            (reside ids budget us (p + 1) (r.next ids budget p u).2) := by
        show List.zipWith _ (occs.drop p) steps = _
        rw [List.drop_eq_getElem_cons hplt, hsteps, List.zipWith_cons_cons]
      rw [hsteps, hdeals]
      refine ⟨by rw [List.length_cons, hlen, List.length_cons],
        ⟨ho.le, h', hdeal, hkeeps⟩, ?_, ?_⟩
      · rw [List.filterMap_cons]
        split
        next => exact hnodup
        next v hv =>
          refine List.nodup_cons.mpr ⟨fun hin => hfresh v hin ?_, hnodup⟩
          rw [htake, (hheld v hv).1]
          exact List.mem_append_right _ List.mem_cons_self
      · have hrest : ∀ v ∈ (List.zipWith (fun o step => step.deal o.2) (occs.drop (p + 1))
            (reside ids budget us (p + 1) (r.next ids budget p u).2)).filterMap Deal.held,
            v ∉ ids.uniqueAt.take p := fun v hv hin => hfresh v hv (by
          rw [htake]
          exact List.mem_append_left _ hin)
        rw [List.filterMap_cons]
        split
        next => exact hrest
        next v hv =>
          intro w hw
          rcases List.mem_cons.mp hw with rfl | hw
          · rw [(hheld w hv).1]
            exact (hheld w hv).2
          · exact hrest w hw

end Walk

/-- Pass 2 starts with nothing resident. -/
theorem start_ok (ids : Ids K) (budget : ℕ) :
    Residency.Ok ids budget ids.uniqueAt 0
      ⟨List.replicate ids.occurrences.length false,
        List.replicate ids.occurrences.length false, 0⟩ ∅ := by
  have hrep : ∀ {u n : ℕ}, u < n → (List.replicate n false)[u]? = some false := fun hu => by
    rw [List.getElem?_replicate, if_pos hu]
  exact ⟨rfl, fun hu => by simpa using hrep hu, fun hu => hrep hu, nofun, rfl, Nat.zero_le _⟩

/-- A plan is kept within the budget, from nothing to nothing. -/
theorem plan_keeps [DecidableEq K] {occs : List (K × ℕ)} (budget : ℕ)
    (hsame : ∀ k s s', (k, s) ∈ occs → (k, s') ∈ occs → s = s') :
    let steps := plan occs budget
    let deals := List.zipWith (fun o step => step.deal o.2) occs steps
    steps.length = occs.length ∧ Keeps budget ∅ deals ∧ (deals.filterMap Deal.held).Nodup := by
  have hids := ok_identify hsame
  obtain ⟨hlen, hkeeps, hnodup, -⟩ := keeps_reside hids (start_ok (identify occs) budget)
  exact ⟨hlen.trans hids.length, hkeeps, hnodup⟩

end Dedup

end Narshare
