/-
What the retention planner retains: exactly the segments that come again
and fit when they first come.

# Read off the plan alone

`retainedBytes` and the predicates beside it are about the occurrences
and the steps of a plan, place by place, and know nothing of how it is
made: a key is held from its retained fetch to its last occurrence. The
walk of pass 2 (Retention.lean) is followed along the whole plan by
`Walked`: what its stock holds is what is held in this sense. Each step
is decided by that stock (`Residency.Ok.next_step`), so each step is
decided by the plan before it. Sums.lean has the walk whose sums go round.
-/
import Mathlib.Algebra.BigOperators.Group.Finset.Piecewise
import Narshare.Transfer.Retention

namespace Narshare

namespace Dedup

variable {K : Type}

-- ============================================================ the reading

/-- The keys of a list of occurrences. -/
def keys (occs : List (K × ℕ)) : List K := occs.map Prod.fst

/-- Does a step retain what it fetches? -/
def Step.retains : Step → Bool
  | .fetch _ n => decide (0 < n)
  | .cached _ => false

/-- Does place `i` of a plan? -/
def Retained (steps : List Step) (i : ℕ) : Prop :=
  ∃ step, steps[i]? = some step ∧ step.retains = true

variable [DecidableEq K]

/-- What place `i` has retained that is still held before place `p`. -/
def heldFor (occs : List (K × ℕ)) (steps : List Step) (p i : ℕ) : ℕ :=
  match occs[i]?, steps[i]? with
  | some o, some step => if step.retains = true ∧ o.1 ∈ keys (occs.drop p) then o.2 else 0
  | _, _ => 0

/-- The bytes held before place `p`. -/
def retainedBytes (occs : List (K × ℕ)) (steps : List Step) (p : ℕ) : ℕ :=
  ∑ i ∈ Finset.range p, heldFor occs steps p i

/-- What place `p` of a plan should be: `s` bytes of key `k`. -/
structure Exact (occs : List (K × ℕ)) (budget : ℕ) (steps : List Step) (p : ℕ) (k : K)
    (s : ℕ) : Prop where
  cached : (∃ u, steps[p]? = some (.cached u))
    ↔ ∃ i < p, (keys occs)[i]? = some k ∧ k ∉ keys (occs.take i) ∧ Retained steps i
  first : k ∉ keys (occs.take p) →
    ∃ u, steps[p]? = some (.fetch u
      (if 0 < (keys (occs.drop (p + 1))).count k ∧ retainedBytes occs steps p + s ≤ budget
        then (keys (occs.drop (p + 1))).count k else 0))
  again : k ∈ keys (occs.take p) → ¬ Retained steps p

/-- What a plan should be: each place of it, what is held along it, and
what is used of what it retains. -/
structure Greedy (occs : List (K × ℕ)) (budget : ℕ) (steps : List Step) : Prop where
  length : steps.length = occs.length
  each : ∀ p k s, occs[p]? = some (k, s) → Exact occs budget steps p k s
  le : ∀ p, retainedBytes occs steps p ≤ budget
  keeps : Keeps budget ∅ (List.zipWith (fun o step => step.deal o.2) occs steps)

-- ============================================================ keys by number

/-- Pass 1 gives each key one number, and no two keys the same. -/
structure Ids.Named (occs : List (K × ℕ)) (ids : Ids K) : Prop where
  at_ : ∀ (i : ℕ) (k : K) (s : ℕ), occs[i]? = some (k, s) →
    ∃ u, ids.idOf k = some u ∧ ids.uniqueAt[i]? = some u
  inj : ∀ k k' u, ids.idOf k = some u → ids.idOf k' = some u → k = k'

theorem Ids.Named.add {occs : List (K × ℕ)} {ids : Ids K} (h : ids.Named occs)
    (hok : ids.Ok occs) (k : K) (s : ℕ) :
    (ids.add occs.length k s).Named (occs ++ [(k, s)]) := by
  -- the key's number, and what numbering it leaves
  obtain ⟨v, hidOf, hunique, hkeep, hfresh⟩ : ∃ v,
      (∀ k', (ids.add occs.length k s).idOf k' = if k' = k then some v else ids.idOf k')
        ∧ (ids.add occs.length k s).uniqueAt = ids.uniqueAt ++ [v]
        ∧ (∀ u, ids.idOf k = some u → u = v)
        ∧ ∀ k', ids.idOf k' = some v → k' = k := by
    cases hid : ids.idOf k with
    | some u =>
        rw [Ids.add_of_some hid (hok.idOf hid).1]
        exact ⟨u, fun _ => rfl, rfl, fun u' hu' => (Option.some.inj hu').symm,
          fun k' hk' => h.inj k' k u hk' hid⟩
    | none =>
        rw [Ids.add_of_none hid hok.lastLen]
        exact ⟨_, fun _ => rfl, rfl, nofun,
          fun k' hk' => absurd (hok.idOf hk').1 (lt_irrefl _)⟩
  constructor
  · intro i k' s' hi
    rw [hidOf, hunique]
    rcases Nat.lt_or_ge i occs.length with hlt | hge
    · rw [List.getElem?_append_left hlt] at hi
      obtain ⟨u, hu, hat⟩ := h.at_ i k' s' hi
      rw [List.getElem?_append_left (by rwa [hok.length])]
      refine ⟨u, ?_, hat⟩
      split
      next hk =>
        subst hk
        rw [hkeep u hu]
      next => exact hu
    · rw [List.getElem?_append_right hge, List.getElem?_singleton] at hi
      split at hi
      next hz =>
        cases hi
        refine ⟨v, if_pos rfl, ?_⟩
        rw [List.getElem?_append_right (by rw [hok.length]; omega), hok.length, hz]
        rfl
      next => cases hi
  · intro k₁ k₂ u h₁ h₂
    rw [hidOf] at h₁ h₂
    split at h₁
    next he₁ =>
      cases h₁
      split at h₂
      next he₂ => rw [he₁, he₂]
      next => rw [he₁, hfresh k₂ h₂]
    next =>
      split at h₂
      next he₂ =>
        cases h₂
        rw [he₂, hfresh k₁ h₁]
      next => exact h.inj k₁ k₂ u h₁ h₂

theorem named_identify {occs : List (K × ℕ)}
    (hsame : ∀ k s s', (k, s) ∈ occs → (k, s') ∈ occs → s = s') : (identify occs).Named occs := by
  induction occs using List.reverseRecOn with
  | nil => exact ⟨fun i k s hi => by simp at hi, nofun⟩
  | append_singleton occs o ih =>
      have hsame' : ∀ k s s', (k, s) ∈ occs → (k, s') ∈ occs → s = s' := fun k s s' hs hs' =>
        hsame k s s' (List.mem_append_left _ hs) (List.mem_append_left _ hs')
      have heq : identify (occs ++ [o]) = (identify occs).add occs.length o.1 o.2 := by
        rw [identify, List.zipIdx_append, List.foldl_append]
        simp [identify]
      rw [heq]
      exact (ih hsame').add (ok_identify hsame') o.1 o.2

section Named

variable {occs : List (K × ℕ)} {ids : Ids K}

omit [DecidableEq K] in
/-- The numbers are the keys, renamed. -/
theorem Ids.Named.uniqueAt_eq (h : ids.Named occs) (hok : ids.Ok occs) :
    ids.uniqueAt = occs.map fun o => (ids.idOf o.1).getD 0 := by
  refine List.ext_getElem? fun i => ?_
  rw [List.getElem?_map]
  cases hi : occs[i]? with
  | none =>
      rw [List.getElem?_eq_none_iff] at hi
      rw [List.getElem?_eq_none (by rw [hok.length]; exact hi)]
      rfl
  | some o =>
      obtain ⟨u, hu, hat⟩ := h.at_ i o.1 o.2 hi
      rw [hat, Option.map_some, hu]
      rfl

/-- A number occurs as often as its key. -/
theorem Ids.Named.count_map (h : ids.Named occs) {k : K} {u : ℕ} (hu : ids.idOf k = some u)
    {l : List (K × ℕ)} (hl : ∀ o ∈ l, o ∈ occs) :
    (l.map fun o => (ids.idOf o.1).getD 0).count u = (keys l).count k := by
  induction l with
  | nil => rfl
  | cons o l ih =>
      rw [keys, List.map_cons, List.map_cons, List.count_cons, List.count_cons,
        ih fun o' ho' => hl o' (List.mem_cons_of_mem _ ho'), ← keys]
      congr 1
      obtain ⟨i, hi⟩ := List.mem_iff_getElem?.mp (hl o List.mem_cons_self)
      obtain ⟨v, hv, -⟩ := h.at_ i o.1 o.2 hi
      rw [hv, Option.getD_some]
      have hiff : (v == u) = true ↔ (o.1 == k) = true := by
        rw [beq_iff_eq, beq_iff_eq]
        constructor
        · rintro rfl
          exact h.inj _ _ _ hv hu
        · rintro rfl
          rw [hu] at hv
          exact (Option.some.inj hv).symm
      simp only [hiff]

theorem Ids.Named.count_drop (h : ids.Named occs) (hok : ids.Ok occs) {k : K} {u : ℕ}
    (hu : ids.idOf k = some u) (p : ℕ) :
    (ids.uniqueAt.drop p).count u = (keys (occs.drop p)).count k := by
  rw [h.uniqueAt_eq hok, ← List.map_drop]
  exact h.count_map hu fun o ho => List.mem_of_mem_drop ho

theorem Ids.Named.mem_take (h : ids.Named occs) (hok : ids.Ok occs) {k : K} {u : ℕ}
    (hu : ids.idOf k = some u) (p : ℕ) :
    u ∈ ids.uniqueAt.take p ↔ k ∈ keys (occs.take p) := by
  rw [h.uniqueAt_eq hok, ← List.map_take, ← List.count_pos_iff, ← List.count_pos_iff,
    h.count_map hu fun o ho => List.mem_of_mem_take ho]

omit [DecidableEq K] in
/-- Places have one number when they have one key. -/
theorem Ids.Named.at_iff (h : ids.Named occs) {k k' : K} {s u i : ℕ} (hu : ids.idOf k = some u)
    (hi : occs[i]? = some (k', s)) : ids.uniqueAt[i]? = some u ↔ k' = k := by
  obtain ⟨v, hv, hat⟩ := h.at_ i k' s hi
  rw [hat]
  constructor
  · intro he
    cases he
    exact h.inj _ _ _ hv hu
  · rintro rfl
    rw [← hv, hu]

end Named

-- =============================================================== the walk

section Walk

variable {occs : List (K × ℕ)} {ids : Ids K} {steps : List Step} {budget p u s : ℕ} {us : List ℕ}
  {r : Residency} {h h' : Stock ℕ} {k : K} {step : Step}

omit [DecidableEq K] in
/-- What pass 2 makes of an occurrence, by the stock. -/
theorem Residency.Ok.next_step (hids : ids.Ok occs) (ho : r.Ok ids budget (u :: us) p h)
    (hlt : u < ids.occurrences.length) (hsize : ids.sizeOf[u]? = some s) :
    (r.next ids budget p u).1
      = if u ∈ ids.uniqueAt.take p then
          (if (h.get u).isSome then .cached u else .fetch u 0)
        else .fetch u
          (if 0 < us.count u ∧ h.total + s ≤ budget then us.count u else 0) := by
  obtain ⟨hsz, hseen, hres, hlater⟩ := ho.reads hids hlt hsize
  unfold Residency.next
  simp only [hseen, hres, hsz]
  by_cases hin : u ∈ ids.uniqueAt.take p
  · rw [if_pos hin, if_neg (by rw [decide_eq_true hin]; decide)]
    split
    · rfl
    · rfl
  · rw [if_neg hin, if_pos (decide_eq_false hin), hlater hin, ho.bytes]
    split
    · rfl
    · rfl

/-- What the plan before place `p` says of the stock there. -/
structure Walked (occs : List (K × ℕ)) (ids : Ids K) (steps : List Step) (p : ℕ)
    (us : List ℕ) (h : Stock ℕ) : Prop where
  one : ∀ i < p, Retained steps i → ∀ u, ids.uniqueAt[i]? = some u → u ∉ ids.uniqueAt.take i
  got : ∀ u, (h.get u).isSome = true
    ↔ 0 < us.count u ∧ ∃ i < p, ids.uniqueAt[i]? = some u ∧ Retained steps i
  bytes : retainedBytes occs steps p = h.total

/-- What a place has retained is held until its key is gone. -/
theorem heldFor_eq {i : ℕ} {o : K × ℕ} (ho : occs[i]? = some o) (hstep : steps[i]? = some step) :
    heldFor occs steps p i
      = if step.retains = true ∧ o.1 ∈ keys (occs.drop p) then o.2 else 0 := by
  rw [heldFor, ho, hstep]

/-- Two places that retained one number are the same. -/
theorem Walked.eq_of_at (hw : Walked occs ids steps p us h) {i j : ℕ} (hi : i < p) (hj : j < p)
    (hri : Retained steps i) (hrj : Retained steps j) (hui : ids.uniqueAt[i]? = some u)
    (huj : ids.uniqueAt[j]? = some u) : i = j := by
  have hmem : ∀ {a b : ℕ}, a < b → ids.uniqueAt[a]? = some u → u ∈ ids.uniqueAt.take b :=
    fun hab ha => List.mem_iff_getElem?.mpr ⟨_, by rw [List.getElem?_take_of_lt hab, ha]⟩
  rcases Nat.lt_trichotomy i j with hlt | heq | hgt
  · exact absurd (hmem hlt hui) (hw.one j hj hrj u huj)
  · exact heq
  · exact absurd (hmem hgt huj) (hw.one i hi hri u hui)

section Turn

variable (hids : ids.Ok occs) (hnamed : ids.Named occs) (hlen : steps.length = occs.length)
  (hw : Walked occs ids steps p (u :: us) h) (hat : ids.uniqueAt[p]? = some u)
  (hocc : occs[p]? = some (k, s)) (hstep : steps[p]? = some step)
  (hus : ids.uniqueAt.drop (p + 1) = us)

include hnamed hat hocc in
omit [DecidableEq K] in
theorem key_of_at {i : ℕ} {k' : K} {s' : ℕ} (hi : occs[i]? = some (k', s')) :
    ids.uniqueAt[i]? = some u ↔ k' = k := by
  obtain ⟨v, hv, hvat⟩ := hnamed.at_ p k s hocc
  rw [hat] at hvat
  cases hvat
  exact hnamed.at_iff hv hi

include hocc in
omit [DecidableEq K] in
theorem keys_drop : keys (occs.drop p) = k :: keys (occs.drop (p + 1)) := by
  have hlt := (List.getElem?_eq_some_iff.mp hocc).1
  rw [List.drop_eq_getElem_cons hlt, (List.getElem?_eq_some_iff.mp hocc).2]
  rfl

include hlen hocc in
/-- One place on, only what was held of this key can have gone. -/
theorem heldFor_succ {i : ℕ} (hi : i < p)
    (hgone : k ∈ keys (occs.drop (p + 1)) ∨ ∀ s', occs[i]? = some (k, s') → ¬ Retained steps i) :
    heldFor occs steps p i = heldFor occs steps (p + 1) i := by
  have hplt := (List.getElem?_eq_some_iff.mp hocc).1
  obtain ⟨⟨k', s'⟩, hio⟩ : ∃ o, occs[i]? = some o := ⟨_, List.getElem?_eq_getElem (hi.trans hplt)⟩
  have his := List.getElem?_eq_getElem (hlen ▸ hi.trans hplt)
  rw [heldFor_eq hio his, heldFor_eq hio his, keys_drop hocc]
  refine if_congr (and_congr_right fun hret => ?_) rfl rfl
  rw [List.mem_cons]
  constructor
  · rintro (hk | hmem)
    · rcases hgone with hmem | hnot
      · exact hk ▸ hmem
      · subst hk
        exact absurd ⟨_, his, hret⟩ (hnot _ hio)
    · exact hmem
  · exact Or.inr

include hids hnamed hat hocc hus in
/-- The key comes again where its number does. -/
theorem count_ahead : us.count u = (keys (occs.drop (p + 1))).count k := by
  obtain ⟨v, hv, hvat⟩ := hnamed.at_ p k s hocc
  rw [hat] at hvat
  cases hvat
  rw [← hus, hnamed.count_drop hids hv]

include hw hat in
/-- Numbers other than this one keep what they have. -/
theorem Walked.got_ne {v : ℕ} (hv : v ≠ u) (hsame : h'.get v = h.get v) :
    (h'.get v).isSome = true
      ↔ 0 < us.count v ∧ ∃ i < p + 1, ids.uniqueAt[i]? = some v ∧ Retained steps i := by
  rw [hsame, hw.got, List.count_cons_of_ne (Ne.symm hv)]
  refine and_congr_right fun _ => ⟨?_, ?_⟩
  · rintro ⟨i, hi, hrest⟩
    exact ⟨i, hi.trans (Nat.lt_succ_self p), hrest⟩
  · rintro ⟨i, hi, hiv, hret⟩
    refine ⟨i, ?_, hiv, hret⟩
    rcases Nat.lt_succ_iff_lt_or_eq.mp hi with hlt | rfl
    · exact hlt
    · rw [hat] at hiv
      exact absurd (Option.some.inj hiv).symm hv

include hnamed hlen hw hat hocc hstep

/-- A place that fetches and retains nothing. -/
theorem Walked.pass (hpass : step.retains = false) (hnone : h.get u = none) (heq : h' = h) :
    Walked occs ids steps (p + 1) us h' := by
  subst heq
  have hnot : ¬ Retained steps p := by
    rintro ⟨step', hs, hret⟩
    rw [hstep] at hs
    cases hs
    rw [hpass] at hret
    cases hret
  have hbefore : ¬ ∃ i < p, ids.uniqueAt[i]? = some u ∧ Retained steps i := fun hex => by
    have := (hw.got u).mpr ⟨by rw [List.count_cons_self]; exact Nat.succ_pos _, hex⟩
    rw [hnone] at this
    cases this
  refine ⟨fun i hi hret => ?_, fun v => ?_, ?_⟩
  · rcases Nat.lt_succ_iff_lt_or_eq.mp hi with hlt | rfl
    · exact hw.one i hlt hret
    · exact absurd hret hnot
  · by_cases hv : v = u
    · subst hv
      rw [hnone]
      refine ⟨nofun, ?_⟩
      rintro ⟨-, i, hi, hiv, hret⟩
      rcases Nat.lt_succ_iff_lt_or_eq.mp hi with hlt | rfl
      · exact absurd ⟨i, hlt, hiv, hret⟩ hbefore
      · exact absurd hret hnot
    · exact hw.got_ne hat hv rfl
  · rw [retainedBytes, Finset.sum_range_succ, heldFor_eq hocc hstep, hpass,
      if_neg fun hb => Bool.false_ne_true hb.1, Nat.add_zero, ← hw.bytes, retainedBytes]
    refine Finset.sum_congr rfl fun i hi =>
      (heldFor_succ hlen hocc (Finset.mem_range.mp hi) ?_).symm
    refine Or.inr fun s' hi' hret => hbefore ⟨i, Finset.mem_range.mp hi, ?_, hret⟩
    exact (key_of_at hnamed hat hocc hi').mpr rfl

include hids hus in
/-- A first place that retains for the places ahead. -/
theorem Walked.hold {n : ℕ} (hin : u ∉ ids.uniqueAt.take p) (heq : step = .fetch u n)
    (hn : n = us.count u) (hpos : 0 < n) (hdeal : h.deal (step.deal s) = some h') :
    Walked occs ids steps (p + 1) us h' := by
  subst heq
  rw [Step.deal, if_pos hpos] at hdeal
  have hret : Retained steps p := ⟨_, hstep, decide_eq_true hpos⟩
  have htotal := Stock.total_deal hdeal
  have hfirst : ∀ i < p, ids.uniqueAt[i]? ≠ some u := fun i hi hiu =>
    hin (List.mem_iff_getElem?.mpr ⟨i, by rw [List.getElem?_take_of_lt hi, hiu]⟩)
  refine ⟨fun i hi hri => ?_, fun v => ?_, ?_⟩
  · rcases Nat.lt_succ_iff_lt_or_eq.mp hi with hlt | rfl
    · exact hw.one i hlt hri
    · intro v hv
      rw [hat] at hv
      cases hv
      exact hin
  · by_cases hv : v = u
    · subst hv
      rcases Stock.get_deal hdeal v with ⟨_, _, -, -, hnew⟩ | ⟨_, _, hne, -⟩ | ⟨hne, -⟩
      · rw [hnew]
        exact ⟨fun _ => ⟨hn ▸ hpos, p, Nat.lt_succ_self p, hat, hret⟩, fun _ => rfl⟩
      · cases hne
      · exact absurd rfl hne
    · refine hw.got_ne hat hv ?_
      rcases Stock.get_deal hdeal v with ⟨_, _, he, -⟩ | ⟨_, _, he, -⟩ | ⟨-, -, hsame⟩
      · cases he
        exact absurd rfl hv
      · cases he
      · exact hsame
  · have hahead : k ∈ keys (occs.drop (p + 1)) := by
      rw [← List.count_pos_iff, ← count_ahead hids hnamed hat hocc hus, ← hn]
      exact hpos
    rw [retainedBytes, Finset.sum_range_succ, heldFor_eq hocc hstep,
      if_pos ⟨decide_eq_true hpos, hahead⟩, htotal, ← hw.bytes, retainedBytes]
    congr 1
    refine Finset.sum_congr rfl fun i hi =>
      (heldFor_succ hlen hocc (Finset.mem_range.mp hi) ?_).symm
    exact Or.inl hahead

include hids hus in
/-- A retained copy replayed, the last time when the key is not ahead. -/
theorem Walked.use (heq : step = .cached u) (hdeal : h.deal (step.deal s) = some h')
    (hcount : ∀ e, h.get u = some e → e.2 = (u :: us).count u)
    (hsame : ∀ s', (k, s') ∈ occs → s' = s) : Walked occs ids steps (p + 1) us h' := by
  subst heq
  rw [Step.deal] at hdeal
  have htotal := Stock.total_deal hdeal
  have hnot : ¬ Retained steps p := by
    rintro ⟨step', hs, hret⟩
    rw [hstep] at hs
    cases hs
    cases hret
  obtain ⟨hsome, hnew⟩ : (h.get u).isSome = true ∧ ((h'.get u).isSome = true ↔ 0 < us.count u) := by
    rcases Stock.get_deal hdeal u with ⟨_, _, he, -⟩ | ⟨_, n, -, hold, hnew⟩ | ⟨-, hne, -⟩
    · cases he
    · have hn := hcount _ hold
      rw [List.count_cons_self] at hn
      rw [hold, hnew, ← Nat.succ.inj hn]
      refine ⟨rfl, ?_⟩
      split
      next hz => simp [hz]
      next hz => simpa using Nat.pos_of_ne_zero hz
    · simp [Deal.uses] at hne
  obtain ⟨-, i₀, hi₀, hat₀, hret₀⟩ := (hw.got u).mp hsome
  refine ⟨fun i hi hri => ?_, fun v => ?_, ?_⟩
  · rcases Nat.lt_succ_iff_lt_or_eq.mp hi with hlt | rfl
    · exact hw.one i hlt hri
    · exact absurd hri hnot
  · by_cases hv : v = u
    · subst hv
      rw [hnew]
      exact ⟨fun hpos => ⟨hpos, i₀, hi₀.trans (Nat.lt_succ_self p), hat₀, hret₀⟩, And.left⟩
    · refine hw.got_ne hat hv ?_
      rcases Stock.get_deal hdeal v with ⟨_, _, he, -⟩ | ⟨_, _, he, -⟩ | ⟨-, -, hkept⟩
      · cases he
      · cases he
        exact absurd rfl hv
      · exact hkept
  · have hlast : heldFor occs steps (p + 1) p = 0 := by
      rw [heldFor_eq hocc hstep, if_neg fun hb => Bool.false_ne_true hb.1]
    rw [retainedBytes, Finset.sum_range_succ, hlast, Nat.add_zero]
    have hahead := count_ahead hids hnamed hat hocc hus
    by_cases hpos : 0 < us.count u
    · -- held on for what is ahead
      simp only [if_pos (hnew.mpr hpos), Nat.add_zero] at htotal
      rw [htotal, ← hw.bytes, retainedBytes]
      refine Finset.sum_congr rfl fun i hi =>
        (heldFor_succ hlen hocc (Finset.mem_range.mp hi) ?_).symm
      rw [hahead, List.count_pos_iff] at hpos
      exact Or.inl hpos
    · -- freed: the one place that retained this key no longer counts
      simp only [if_neg fun hb => hpos (hnew.mp hb)] at htotal
      have hgone : k ∉ keys (occs.drop (p + 1)) := by
        rwa [hahead, List.count_pos_iff] at hpos
      have hsplit : ∀ i ∈ Finset.range p, heldFor occs steps p i
          = heldFor occs steps (p + 1) i + if i = i₀ then s else 0 := by
        intro i hi
        have hip := Finset.mem_range.mp hi
        by_cases hii : i = i₀
        · subst hii
          obtain ⟨step, hs, hret⟩ := hret₀
          have hplt := (List.getElem?_eq_some_iff.mp hocc).1
          obtain ⟨⟨k', s'⟩, hio⟩ : ∃ o, occs[i]? = some o :=
            ⟨_, List.getElem?_eq_getElem (hip.trans hplt)⟩
          have hk' := (key_of_at hnamed hat hocc hio).mp hat₀
          subst hk'
          rw [heldFor_eq hio hs, heldFor_eq hio hs, keys_drop hocc,
            if_pos ⟨hret, List.mem_cons_self⟩, if_neg fun hb => hgone hb.2, if_pos rfl,
            hsame s' (List.mem_of_getElem? hio), Nat.zero_add]
        · rw [if_neg hii, Nat.add_zero]
          refine heldFor_succ hlen hocc hip (Or.inr fun s' hi' hri => hii ?_)
          exact hw.eq_of_at hip hi₀ hri hret₀ ((key_of_at hnamed hat hocc hi').mpr rfl) hat₀
      have hbytes := hw.bytes
      rw [retainedBytes, Finset.sum_congr rfl hsplit, Finset.sum_add_distrib,
        Finset.sum_ite_eq' (Finset.range p) i₀, if_pos (Finset.mem_range.mpr hi₀)] at hbytes
      omega

end Turn

/-- One place of the walk. -/
theorem Walked.next (hids : ids.Ok occs) (hnamed : ids.Named occs)
    (hsame : ∀ k s s', (k, s) ∈ occs → (k, s') ∈ occs → s = s')
    (hlen : steps.length = occs.length) (hw : Walked occs ids steps p (u :: us) h)
    (ho : r.Ok ids budget (u :: us) p h) (hstep : steps[p]? = some (r.next ids budget p u).1) :
    ∃ h', (r.next ids budget p u).2.Ok ids budget us (p + 1) h'
      ∧ Walked occs ids steps (p + 1) us h' := by
  obtain ⟨hat, hus, -⟩ := ho.drop_succ
  have hplt : p < occs.length := hids.length ▸ (List.getElem?_eq_some_iff.mp hat).1
  obtain ⟨⟨k, s⟩, hocc⟩ : ∃ o, occs[p]? = some o := ⟨_, List.getElem?_eq_getElem hplt⟩
  obtain ⟨v, hv, hlt, hsize⟩ := hids.size hocc
  rw [hat] at hv
  cases hv
  obtain ⟨h', hdeal, ho', -⟩ := ho.next hids hlt hsize
  refine ⟨h', ho', ?_⟩
  have hmem := List.mem_of_getElem? hocc
  have hchoice := ho.next_step hids hlt hsize
  rw [hchoice] at hstep hdeal
  by_cases hin : u ∈ ids.uniqueAt.take p
  · rw [if_pos hin] at hstep hdeal
    cases hget : h.get u with
    | some e =>
        rw [hget] at hstep hdeal
        exact hw.use hids hnamed hlen hat hocc hstep hus rfl hdeal
          (fun e he => (ho.held he).2.2.2.1) fun s' hs' => hsame k s' s hs' hmem
    | none =>
        rw [hget] at hstep hdeal
        cases hdeal
        exact hw.pass hnamed hlen hat hocc hstep rfl hget rfl
  · rw [if_neg hin] at hstep hdeal
    by_cases hfits : 0 < us.count u ∧ h.total + s ≤ budget
    · rw [if_pos hfits] at hstep hdeal
      exact hw.hold hids hnamed hlen hat hocc hstep hus hin rfl rfl hfits.1 hdeal
    · rw [if_neg hfits] at hstep hdeal
      cases hdeal
      refine hw.pass hnamed hlen hat hocc hstep rfl ?_ rfl
      cases hget : h.get u with
      | none => rfl
      | some e => exact absurd (ho.held hget).2.1 hin

/-- Each place of the walk is what it should be. -/
theorem Walked.exact (hids : ids.Ok occs) (hnamed : ids.Named occs)
    (hw : Walked occs ids steps p (u :: us) h) (ho : r.Ok ids budget (u :: us) p h)
    (hstep : steps[p]? = some (r.next ids budget p u).1) (hocc : occs[p]? = some (k, s)) :
    Exact occs budget steps p k s := by
  obtain ⟨hat, hus, -⟩ := ho.drop_succ
  obtain ⟨v, hv, hvat⟩ := hnamed.at_ p k s hocc
  rw [hat] at hvat
  cases hvat
  obtain ⟨v, hvat, hlt, hsize⟩ := hids.size hocc
  rw [hat] at hvat
  cases hvat
  have hmem := hnamed.mem_take hids hv p
  rw [ho.next_step hids hlt hsize] at hstep
  constructor
  · have hget : (∃ u, steps[p]? = some (.cached u)) ↔ (h.get u).isSome = true := by
      rw [hstep]
      split
      next =>
        split
        next hsome => exact ⟨fun _ => hsome, fun _ => ⟨u, rfl⟩⟩
        next hnone => exact ⟨nofun, fun hsome => absurd hsome hnone⟩
      next hin =>
        refine ⟨nofun, fun hsome => ?_⟩
        obtain ⟨e, he⟩ := Option.isSome_iff_exists.mp hsome
        exact absurd (ho.held he).2.1 hin
    rw [hget, hw.got]
    constructor
    · rintro ⟨-, i, hi, hiu, hret⟩
      obtain ⟨o, hio⟩ : ∃ o, occs[i]? = some o :=
        ⟨_, List.getElem?_eq_getElem (hi.trans (List.getElem?_eq_some_iff.mp hocc).1)⟩
      have hk := (hnamed.at_iff hv (show occs[i]? = some (o.1, o.2) from hio)).mp hiu
      refine ⟨i, hi, ?_, ?_, hret⟩
      · rw [keys, List.getElem?_map, hio, ← hk]
        rfl
      · rw [← hnamed.mem_take hids hv i]
        exact hw.one i hi hret u hiu
    · rintro ⟨i, hi, hik, -, hret⟩
      refine ⟨by rw [List.count_cons_self]; exact Nat.succ_pos _, i, hi, ?_, hret⟩
      rw [keys, List.getElem?_map, Option.map_eq_some_iff] at hik
      obtain ⟨o, hio, ho1⟩ := hik
      exact (hnamed.at_iff hv hio).mpr ho1
  · intro hfirst
    rw [← hmem] at hfirst
    rw [if_neg hfirst, count_ahead hids hnamed hat hocc hus, ← hw.bytes] at hstep
    exact ⟨u, hstep⟩
  · intro hagain
    rw [← hmem] at hagain
    rw [if_pos hagain] at hstep
    rintro ⟨step, hs, hret⟩
    rw [hstep] at hs
    cases hs
    split at hret
    · cases hret
    · cases hret

/-- The walk goes one place on. -/
theorem Walked.advance (hids : ids.Ok occs) (hnamed : ids.Named occs)
    (hsame : ∀ k s s', (k, s) ∈ occs → (k, s') ∈ occs → s = s')
    (hlen : steps.length = occs.length) {q : ℕ} (hq : q < ids.uniqueAt.length)
    (hw : Walked occs ids steps q (ids.uniqueAt.drop q) h)
    (ho : Residency.Ok ids budget (ids.uniqueAt.drop q) q r h)
    (hsteps : steps.drop q = reside ids budget (ids.uniqueAt.drop q) q r) :
    steps[q]? = some (r.next ids budget q ids.uniqueAt[q]).1
      ∧ steps.drop (q + 1) = reside ids budget (ids.uniqueAt.drop (q + 1)) (q + 1)
          (r.next ids budget q ids.uniqueAt[q]).2
      ∧ ∃ h', Residency.Ok ids budget (ids.uniqueAt.drop (q + 1)) (q + 1)
            (r.next ids budget q ids.uniqueAt[q]).2 h'
          ∧ Walked occs ids steps (q + 1) (ids.uniqueAt.drop (q + 1)) h' := by
  rw [List.drop_eq_getElem_cons hq] at ho hw hsteps
  have hstep : steps[q]? = some (r.next ids budget q ids.uniqueAt[q]).1 := by
    rw [← List.head?_drop, hsteps]
    rfl
  refine ⟨hstep, ?_, hw.next hids hnamed hsame hlen ho hstep⟩
  rw [← List.drop_drop, hsteps]
  rfl

/-- The walk up to any place. -/
theorem walked_at (hids : ids.Ok occs) (hnamed : ids.Named occs)
    (hsame : ∀ k s s', (k, s) ∈ occs → (k, s') ∈ occs → s = s')
    (hlen : steps.length = occs.length) (ho : r.Ok ids budget ids.uniqueAt 0 ∅)
    (hsteps : steps = reside ids budget ids.uniqueAt 0 r) {q : ℕ} (hq : q ≤ occs.length) :
    ∃ r h, Residency.Ok ids budget (ids.uniqueAt.drop q) q r h
      ∧ Walked occs ids steps q (ids.uniqueAt.drop q) h
      ∧ steps.drop q = reside ids budget (ids.uniqueAt.drop q) q r := by
  induction q with
  | zero => exact ⟨r, ∅, ho, ⟨nofun, by simp, rfl⟩, hsteps⟩
  | succ q ih =>
      obtain ⟨r, h, ho, hw, hrest⟩ := ih (Nat.le_of_succ_le hq)
      have hlt : q < ids.uniqueAt.length := by rw [hids.length]; exact hq
      obtain ⟨-, hrest', h', ho', hw'⟩ := hw.advance hids hnamed hsame hlen hlt ho hrest
      exact ⟨_, h', ho', hw', hrest'⟩

end Walk

/-- A plan retains exactly what fits. -/
theorem greedy_plan {occs : List (K × ℕ)} (budget : ℕ)
    (hsame : ∀ k s s', (k, s) ∈ occs → (k, s') ∈ occs → s = s') :
    Greedy occs budget (plan occs budget) := by
  have hids := ok_identify hsame
  have hnamed := named_identify hsame
  obtain ⟨hlen, hkeeps, -⟩ := plan_keeps budget hsame
  have hwalk := fun q (hq : q ≤ occs.length) =>
    walked_at hids hnamed hsame hlen (start_ok (identify occs) budget) rfl hq
  refine ⟨hlen, fun p k s hocc => ?_, fun p => ?_, hkeeps⟩
  · have hlt := (List.getElem?_eq_some_iff.mp hocc).1
    have hlt' : p < (identify occs).uniqueAt.length := by rwa [hids.length]
    obtain ⟨r, h, ho, hw, hrest⟩ := hwalk p hlt.le
    rw [List.drop_eq_getElem_cons hlt'] at ho hw hrest
    refine hw.exact hids hnamed ho ?_ hocc
    rw [← List.head?_drop, hrest]
    rfl
  · rcases Nat.le_total p occs.length with hp | hp
    · obtain ⟨r, h, ho, hw, -⟩ := hwalk p hp
      rw [hw.bytes]
      exact ho.le
    · -- nothing is ahead of the last place
      have hnil : keys (occs.drop p) = [] := by
        rw [List.drop_eq_nil_of_le hp]
        rfl
      rw [retainedBytes, Finset.sum_eq_zero fun i _ => ?_]
      · exact Nat.zero_le _
      · rw [heldFor, hnil]
        split
        · exact if_neg fun hb => absurd hb.2 List.not_mem_nil
        · rfl

-- ========================================================= no other plan

section Unique

variable {occs : List (K × ℕ)} {steps steps' : List Step} {budget : ℕ}

theorem heldFor_congr {p i : ℕ} (h : Retained steps i ↔ Retained steps' i) :
    heldFor occs steps p i = heldFor occs steps' p i := by
  have hzero : ∀ {l : List Step}, ¬ Retained l i → heldFor occs l p i = 0 := by
    intro l hnot
    rw [heldFor]
    split
    next o step ho hs => exact if_neg fun hb => hnot ⟨step, hs, hb.1⟩
    next => rfl
  by_cases hret : Retained steps i
  · obtain ⟨step, hs, hr⟩ := hret
    obtain ⟨step', hs', hr'⟩ := h.mp ⟨step, hs, hr⟩
    cases hi : occs[i]? with
    | none =>
        rw [heldFor, heldFor, hi]
    | some o => rw [heldFor_eq hi hs, heldFor_eq hi hs', hr, hr']
  · rw [hzero hret, hzero fun hret' => hret (h.mpr hret')]

theorem retainedBytes_congr {p : ℕ} (h : ∀ i < p, (Retained steps i ↔ Retained steps' i)) :
    retainedBytes occs steps p = retainedBytes occs steps' p :=
  Finset.sum_congr rfl fun i hi => heldFor_congr (h i (Finset.mem_range.mp hi))

/-- Does a place that should be what it is retain? -/
theorem Exact.retained_iff {p s : ℕ} {k : K} (h : Exact occs budget steps p k s) :
    Retained steps p ↔ k ∉ keys (occs.take p)
      ∧ 0 < (keys (occs.drop (p + 1))).count k ∧ retainedBytes occs steps p + s ≤ budget := by
  by_cases hfirst : k ∈ keys (occs.take p)
  · exact ⟨fun hret => absurd hret (h.again hfirst), fun hb => absurd hfirst hb.1⟩
  · obtain ⟨u, hu⟩ := h.first hfirst
    constructor
    · rintro ⟨step, hs, hret⟩
      rw [hu] at hs
      cases hs
      refine ⟨hfirst, ?_⟩
      by_contra hnot
      rw [if_neg hnot] at hret
      cases hret
    · rintro ⟨-, hfits⟩
      refine ⟨_, hu, ?_⟩
      rw [if_pos hfits]
      exact decide_eq_true hfits.1

/-- What is retained where is settled by the occurrences and the budget. -/
theorem Greedy.retained_iff (h : Greedy occs budget steps) (h' : Greedy occs budget steps')
    (p : ℕ) : Retained steps p ↔ Retained steps' p := by
  induction p using Nat.strong_induction_on with
  | _ p ih =>
      cases hocc : occs[p]? with
      | none =>
          have hle := List.getElem?_eq_none_iff.mp hocc
          have hnot : ∀ {l : List Step}, l.length = occs.length → ¬ Retained l p := by
            rintro l hl ⟨step, hs, -⟩
            exact absurd (List.getElem?_eq_some_iff.mp hs).1 (by omega)
          exact ⟨fun hret => absurd hret (hnot h.length), fun hret => absurd hret (hnot h'.length)⟩
      | some o =>
          rw [(h.each p o.1 o.2 hocc).retained_iff, (h'.each p o.1 o.2 hocc).retained_iff,
            retainedBytes_congr ih]

end Unique

end Dedup

end Narshare
