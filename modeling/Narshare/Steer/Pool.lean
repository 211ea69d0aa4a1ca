/-
The peer pool: which peer is asked next, by weights that follow what each
has achieved.

# The numbers

Nothing here rests on what the numbers are but that they are an ordered
field, so they are any: ℚ to compute with, ℝ for what `f64` stands for.
`exp` and `powf` are handed in. Of `exp` nothing is used: whatever factor a
weight is multiplied by, `apply` ends in a rescaling that brings it to one
at most and a floor that brings it to `wMin` at least. Of `powf` two things
are (`Powf`), and `Real.rpow` has them.

# What is usable

`Usable` is the invariant. From it every share of a draw is a positive
number over a positive sum, so the branches for a sum that is not positive
are never taken, and the fallback of a draw to the last peer is there for
rounding only: each peer owns an interval of the draws as long as its share,
and `pickAmong` returns it when the generator comes to a number there
(`Usable.drawShare`).

# Hedging

What `hedgeProb` compares is the peer's share with the one it would have at
the floor. At the floor they are one number, so the quotient is one and a
peer that is only ever pinged is insured for certain (`hedgeProb_floor`,
`chance_one`); one whose share is uniform never is, and no number of the
generator is spent on it (`hedgeProb_uniform`, `chance_zero`).
-/
import Mathlib.Analysis.SpecialFunctions.Pow.Real
import Mathlib.Data.List.GetD
import Narshare.Lib.Clamp
import Narshare.Lib.Wheel

namespace Narshare

universe u

variable {K : Type u}

section Constants

variable [Field K]

/-- `ETA`. -/
def defaultEta : K := 7 / 10

/-- `W_MIN`. -/
def wMin : K := 3 / 100

/-- `BEST_DECAY`. -/
def bestDecay : K := 999 / 1000

/-- `AVG_ALPHA`. -/
def avgAlpha : K := 1 / 10

/-- `SHARE`. -/
def defaultShare : K := 5 / 1000

/-- `HEDGE_NU`. -/
def hedgeNu : K := 3

end Constants

/-- An `f64` that was read from somewhere: a number, or an infinity or no
number. -/
inductive F64 (K : Type u)
  | finite (v : K)
  | notFinite

/-- `State`, which a `HostPool` keeps behind a lock. -/
structure HostPool (K : Type u) where
  weight : List K
  bestRate : K
  avgLoss : K
  rng : UInt64
  observations : ℕ
  eta : K
  share : K

-- ============================================================ the generator

/-- `next_u64`: what it gives and what it leaves. -/
def nextU64 (s : UInt64) : UInt64 × UInt64 :=
  let s := s + 0x9E3779B97F4A7C15
  let z := (s ^^^ (s >>> 30)) * 0xBF58476D1CE4E5B9
  let z := (z ^^^ (z >>> 27)) * 0x94D049BB133111EB
  (z ^^^ (z >>> 31), s)

/-- `unit_f64`. -/
def unitF64 [Field K] (x : UInt64) : K := ((x >>> 11).toNat : K) / (2 ^ 53 : ℕ)

-- ================================================================== the pool

section Pool

variable [Field K] [LinearOrder K]

namespace HostPool

/-- `HostPool::new`. -/
def new (n : ℕ) : HostPool K where
  weight := List.replicate (n ⊔ 1) 1
  bestRate := 0
  avgLoss := 0
  rng := 0x9E3779B97F4A7C15
  observations := 0
  eta := defaultEta
  share := defaultShare

/-- The weights of some peers, `none` for a peer that is not there. -/
def weightsOf (s : HostPool K) (allowed : List ℕ) : Option (List K) :=
  allowed.mapM (s.weight[·]?)

/-- `hedge_shares`: the peer's share of the draws, and the one it would
have at the floor. -/
def hedgeShares (s : HostPool K) (allowed : List ℕ) (idx : ℕ) : Option (K × K) := do
  let total := (← s.weightsOf allowed).sum
  if ¬ 0 < total then
    let u := 1 / ((allowed.length ⊔ 1 : ℕ) : K)
    pure (u, u)
  else
    let w := s.weight.getD idx 0
    let others := (total - w) ⊔ 0
    pure (w / total, wMin / (wMin + others))

/-- `chance`, with the pool it leaves. -/
def chance (s : HostPool K) (p : K) : Bool × HostPool K :=
  if p ≤ 0 then (false, s)
  else (decide (unitF64 (nextU64 s.rng).1 < p), { s with rng := (nextU64 s.rng).2 })

/-- Whom a number of the unit interval draws; the last is for a sum that
rounding made too small. -/
def drawAt (allowed : List ℕ) (weights : List K) (u : K) : Option ℕ :=
  (spin (allowed.zip weights) (u * weights.sum)).or allowed.getLast?

/-- `pick_among`, with the pool it leaves, or `none` if it panics. -/
def pickAmong (s : HostPool K) (allowed : List ℕ) : Option (Option ℕ × HostPool K) :=
  if allowed = [] then some (none, s)
  else do
    let weights ← s.weightsOf allowed
    let x := (nextU64 s.rng).1
    let rng := (nextU64 s.rng).2
    if ¬ 0 < weights.sum then pure (allowed[x.toNat % allowed.length]?, { s with rng })
    else pure (drawAt allowed weights (unitF64 x), { s with rng })

/-- The weights over the greatest. -/
def rescale (weight : List K) : List K :=
  let top := weight.foldl (· ⊔ ·) 0
  if 0 < top then weight.map (· / top) else weight.map fun _ => 1

/-- A step to the mean, and no weight below the floor. -/
def drift (share : K) (weight : List K) : List K :=
  let mean := weight.sum / (weight.length : K)
  weight.map fun w => ((1 - share) * w + share * mean) ⊔ wMin

/-- `State::apply`. -/
def apply (exp : K → K) (s : HostPool K) (idx : ℕ) (loss : K) : HostPool K :=
  if s.weight.length ≤ idx then s
  else
    let weight := s.weight.modify idx (· * exp (-s.eta * (loss - s.avgLoss)))
    { s with
      observations := s.observations + 1
      avgLoss := s.avgLoss + avgAlpha * (loss - s.avgLoss)
      weight := drift s.share (rescale weight) }

/-- `record_success`; the time is in nanoseconds. -/
def recordSuccess (exp : K → K) (s : HostPool K) (idx bytes elapsed : ℕ) : HostPool K :=
  let secs : K := elapsed / 10 ^ 9
  if bytes = 0 ∨ secs ≤ 5 / 10000 then s
  else
    let rate := bytes / secs
    let bestRate := (s.bestRate * bestDecay) ⊔ rate
    let loss := if 0 < bestRate then clamp 0 1 (1 - rate / bestRate) else 0
    apply exp { s with bestRate } idx loss

/-- `record_failure`. -/
def recordFailure (exp : K → K) (s : HostPool K) (idx : ℕ) : HostPool K := s.apply exp idx 1

/-- A weight that was read. -/
def adopt : F64 K → K
  | .finite v => clamp wMin 1 v
  | .notFinite => 1

/-- The weights as far as they were read, the rest as they were. -/
def adoptAll : List K → List (F64 K) → List K
  | _ :: weight, v :: weights => adopt v :: adoptAll weight weights
  | weight, _ => weight

/-- `restore`. -/
def restore (s : HostPool K) (weights : List (F64 K)) (bestRate avgLoss : F64 K) : HostPool K :=
  { s with
    weight := adoptAll s.weight weights
    bestRate :=
      match bestRate with
      | .finite v => v ⊔ 0
      | .notFinite => 0
    avgLoss :=
      match avgLoss with
      | .finite v => clamp 0 1 v
      | .notFinite => 0 }

end HostPool

/-- What is told to a pool. -/
inductive PoolCall (K : Type u)
  | recordSuccess (idx bytes elapsed : ℕ)
  | recordFailure (idx : ℕ)
  | restore (weights : List (F64 K)) (bestRate avgLoss : F64 K)

namespace HostPool

def call (exp : K → K) (s : HostPool K) : PoolCall K → HostPool K
  | .recordSuccess idx bytes elapsed => s.recordSuccess exp idx bytes elapsed
  | .recordFailure idx => s.recordFailure exp idx
  | .restore weights bestRate avgLoss => s.restore weights bestRate avgLoss

/-- One call after the other. -/
def run (exp : K → K) (s : HostPool K) (calls : List (PoolCall K)) : HostPool K :=
  calls.foldl (call exp) s

end HostPool

/-- `hedge_prob`. -/
def hedgeProb (powf : K → K → K) (n : ℕ) (share floorShare nu : K) : K :=
  let uniform := 1 / (n : K)
  let num := uniform - share
  if num ≤ 0 then 0
  else
    let denom := uniform - floorShare
    if denom ≤ 0 then 1 else powf (clamp 0 1 (num / denom)) nu

-- ================================================================ the weights

section Weights

variable [IsStrictOrderedRing K]

theorem wMin_pos : (0 : K) < wMin := by
  unfold wMin
  positivity

/-- The floor lies below the greatest weight there is, so the two bounds leave
room. -/
theorem wMin_le_one : (wMin : K) ≤ 1 := by
  unfold wMin
  norm_num

theorem defaultShare_mem : (0 : K) ≤ defaultShare ∧ (defaultShare : K) ≤ 1 := by
  unfold defaultShare
  constructor <;> norm_num

namespace HostPool

omit [IsStrictOrderedRing K] in
/-- Rescaling loses no peer. -/
theorem length_rescale (weight : List K) : (rescale weight).length = weight.length := by
  unfold rescale
  simp only
  split
  · exact List.length_map _
  · exact List.length_map _

/-- Rescaled, no weight is above one, whatever it was: it is divided by the
greatest, or all are one where none is positive. -/
theorem rescale_le_one (weight : List K) : ∀ w ∈ rescale weight, w ≤ 1 := by
  unfold rescale
  simp only
  split
  next htop =>
    intro w hw
    obtain ⟨x, hx, rfl⟩ := List.mem_map.mp hw
    exact div_le_one_of_le₀ ((le_foldl_sup weight 0).2 x hx) htop.le
  next =>
    intro w hw
    obtain ⟨x, -, rfl⟩ := List.mem_map.mp hw
    exact le_rfl

omit [IsStrictOrderedRing K] in
/-- The step to the mean loses no peer. -/
theorem length_drift (share : K) (weight : List K) :
    (drift share weight).length = weight.length := List.length_map _

/-- After the step to the mean a weight is at the floor at least, by the
maximum taken, and at most one, since a blend of two that are is. -/
theorem drift_mem {share : K} {weight : List K} (hshare : 0 ≤ share ∧ share ≤ 1)
    (h : ∀ w ∈ weight, w ≤ 1) : ∀ w ∈ drift share weight, wMin ≤ w ∧ w ≤ 1 := by
  intro w hw
  obtain ⟨x, hx, rfl⟩ := List.mem_map.mp hw
  exact ⟨le_sup_right, sup_le (blend_le (h x hx) (mean_le_one h) hshare) wMin_le_one⟩

/-- Whatever was read, a number, an infinity or no number, the weight adopted
lies within the bounds. -/
theorem adopt_mem (v : F64 K) : wMin ≤ adopt v ∧ adopt v ≤ 1 := by
  cases v with
  | finite v => exact ⟨le_clamp _ _ _, clamp_le wMin_le_one _⟩
  | notFinite => exact ⟨wMin_le_one, le_rfl⟩

omit [IsStrictOrderedRing K] in
theorem length_adoptAll (weight : List K) (weights : List (F64 K)) :
    (adoptAll weight weights).length = weight.length := by
  fun_induction adoptAll weight weights with
  | case1 x weight v weights ih => rw [List.length_cons, ih, List.length_cons]
  | case2 => rfl

/-- So a table read from anywhere, too short or too long, leaves every weight
within the bounds. -/
theorem adoptAll_mem {weight : List K} (h : ∀ w ∈ weight, wMin ≤ w ∧ w ≤ 1)
    (weights : List (F64 K)) : ∀ w ∈ adoptAll weight weights, wMin ≤ w ∧ w ≤ 1 := by
  fun_induction adoptAll weight weights with
  | case1 x weight v weights ih =>
      intro w hw
      rcases List.mem_cons.mp hw with rfl | hw
      · exact adopt_mem v
      · exact ih (fun w hw => h w (List.mem_cons_of_mem _ hw)) w hw
  | case2 => exact h

-- ================================================================ any sequence

/-- What every call keeps. -/
structure Usable (n : ℕ) (s : HostPool K) : Prop where
  length_eq : s.weight.length = n ⊔ 1
  weight : ∀ w ∈ s.weight, wMin ≤ w ∧ w ≤ 1
  loss : 0 ≤ s.avgLoss ∧ s.avgLoss ≤ 1
  share : s.share = defaultShare

variable {n : ℕ} {s : HostPool K}

/-- A new pool has a peer at least, and all weights are one. -/
theorem usable_new (n : ℕ) : Usable n (new n : HostPool K) where
  length_eq := List.length_replicate
  weight := fun w hw => by
    rw [List.eq_of_mem_replicate hw]
    exact ⟨wMin_le_one, le_rfl⟩
  loss := ⟨le_rfl, zero_le_one⟩
  share := rfl

/-- A loss from 0 to 1 keeps the pool usable, whatever `exp` is: of the factor
nothing is known, and the rescaling and the floor undo it. -/
theorem Usable.apply (h : s.Usable n) (exp : K → K) (idx : ℕ) {loss : K}
    (hloss : 0 ≤ loss ∧ loss ≤ 1) : (s.apply exp idx loss).Usable n := by
  have halpha : (0 : K) ≤ avgAlpha ∧ (avgAlpha : K) ≤ 1 := by
    unfold avgAlpha
    constructor <;> norm_num
  have hstep : s.avgLoss + avgAlpha * (loss - s.avgLoss)
      = (1 - avgAlpha) * s.avgLoss + avgAlpha * loss := by ring
  unfold HostPool.apply
  split
  · exact h
  -- the index is a peer's: weight, drift and mean loss one by one
  · refine ⟨?_, ?_, ?_, h.share⟩
    · show (drift _ (rescale _)).length = n ⊔ 1
      rw [length_drift, length_rescale, List.length_modify, h.length_eq]
    · refine drift_mem ?_ (rescale_le_one _)
      rw [h.share]
      exact defaultShare_mem
    · show 0 ≤ s.avgLoss + _ ∧ s.avgLoss + _ ≤ 1
      rw [hstep]
      exact ⟨le_blend h.loss.1 hloss.1 halpha, blend_le h.loss.2 hloss.2 halpha⟩

/-- A success is a loss from 0 to 1, by the clamp, or is not counted at
all. -/
theorem Usable.recordSuccess (h : s.Usable n) (exp : K → K) (idx bytes elapsed : ℕ) :
    (s.recordSuccess exp idx bytes elapsed).Usable n := by
  unfold HostPool.recordSuccess
  simp only
  split
  · exact h
  · have hbest : ∀ bestRate, Usable n { s with bestRate } := fun bestRate =>
      ⟨h.length_eq, h.weight, h.loss, h.share⟩
    refine (hbest _).apply exp idx ?_
    split
    · exact ⟨le_clamp _ _ _, clamp_le zero_le_one _⟩
    · exact ⟨le_rfl, zero_le_one⟩

/-- What is restored goes through the bounds first. -/
theorem Usable.restore (h : s.Usable n) (weights : List (F64 K)) (bestRate avgLoss : F64 K) :
    (s.restore weights bestRate avgLoss).Usable n where
  length_eq := (length_adoptAll _ _).trans h.length_eq
  weight := adoptAll_mem h.weight weights
  loss := by
    cases avgLoss with
    | finite v => exact ⟨le_clamp _ _ _, clamp_le zero_le_one _⟩
    | notFinite => exact ⟨le_rfl, zero_le_one⟩
  share := h.share

theorem Usable.call (h : s.Usable n) (exp : K → K) (c : PoolCall K) :
    (s.call exp c).Usable n := by
  cases c with
  | recordSuccess idx bytes elapsed => exact h.recordSuccess exp idx bytes elapsed
  | recordFailure idx => exact h.apply exp idx ⟨zero_le_one, le_rfl⟩
  | restore weights bestRate avgLoss => exact h.restore weights bestRate avgLoss

/-- Any calls in any order keep the pool usable. -/
theorem Usable.run (h : s.Usable n) (exp : K → K) (calls : List (PoolCall K)) :
    (s.run exp calls).Usable n := by
  induction calls generalizing s with
  | nil => exact h
  | cons c calls ih => exact ih (h.call exp c)

-- ================================================================== the draws

/-- The weight at a place. -/
def weightAt (s : HostPool K) (i : ℕ) : K := s.weight.getD i 0

omit [LinearOrder K] [IsStrictOrderedRing K] in
/-- The weights of peers that are there are all found. -/
theorem weightsOf_eq {allowed : List ℕ} (hvalid : ∀ i ∈ allowed, i < s.weight.length) :
    s.weightsOf allowed = some (allowed.map s.weightAt) := by
  unfold weightsOf
  induction allowed with
  | nil => rfl
  | cons i allowed ih =>
      have hi : s.weight[i]? = some (s.weightAt i) := by
        have hlt := hvalid i List.mem_cons_self
        rw [weightAt, List.getD_eq_getElem _ _ hlt, List.getElem?_eq_getElem hlt]
      rw [List.mapM_cons, hi, ih fun j hj => hvalid j (List.mem_cons_of_mem _ hj)]
      rfl

omit [LinearOrder K] [IsStrictOrderedRing K] in
theorem totalWeight_zip (s : HostPool K) (allowed : List ℕ) :
    totalWeight (allowed.zip (allowed.map s.weightAt)) = (allowed.map s.weightAt).sum := by
  rw [← List.map_prod_left_eq_zip, totalWeight, List.map_map]
  rfl

omit [IsStrictOrderedRing K] in
/-- A peer of the pool has a weight of the floor at least. -/
theorem Usable.le_weightAt (h : s.Usable n) {i : ℕ} (hi : i < s.weight.length) :
    wMin ≤ s.weightAt i := by
  rw [weightAt, List.getD_eq_getElem _ _ hi]
  exact (h.weight _ (List.getElem_mem hi)).1

section Allowed

variable {allowed : List ℕ}

theorem Usable.weight_nonneg (h : s.Usable n) (hvalid : ∀ i ∈ allowed, i < s.weight.length) :
    ∀ w ∈ allowed.map s.weightAt, 0 ≤ w := by
  intro w hw
  obtain ⟨i, hi, rfl⟩ := List.mem_map.mp hw
  exact wMin_pos.le.trans (h.le_weightAt (hvalid i hi))

theorem Usable.weightAt_le_sum (h : s.Usable n) (hvalid : ∀ i ∈ allowed, i < s.weight.length)
    {i : ℕ} (hi : i ∈ allowed) : s.weightAt i ≤ (allowed.map s.weightAt).sum :=
  List.single_le_sum (h.weight_nonneg hvalid) _ (List.mem_map_of_mem hi)

/-- The sum that a draw divides by is positive as soon as one peer is
allowed. -/
theorem Usable.sum_pos (h : s.Usable n) (hvalid : ∀ i ∈ allowed, i < s.weight.length)
    {i : ℕ} (hi : i ∈ allowed) : 0 < (allowed.map s.weightAt).sum :=
  wMin_pos.trans_le ((h.le_weightAt (hvalid i hi)).trans (h.weightAt_le_sum hvalid hi))

/-- A peer's share is its weight over the sum, and at the floor it would be
the floor over the floor and the others. -/
theorem Usable.hedgeShares_eq (h : s.Usable n)
    (hvalid : ∀ i ∈ allowed, i < s.weight.length) {i : ℕ} (hi : i ∈ allowed) :
    s.hedgeShares allowed i
      = some (s.weightAt i / (allowed.map s.weightAt).sum,
          wMin / (wMin + ((allowed.map s.weightAt).sum - s.weightAt i))) := by
  have hothers : 0 ≤ (allowed.map s.weightAt).sum - s.weightAt i :=
    sub_nonneg.mpr (h.weightAt_le_sum hvalid hi)
  rw [hedgeShares, weightsOf_eq hvalid, Option.bind_eq_bind, Option.bind_some,
    if_neg (not_not.mpr (h.sum_pos hvalid hi))]
  show some (_, wMin / (wMin + (((allowed.map s.weightAt).sum - s.weightAt i) ⊔ 0))) = _
  rw [sup_eq_left.mpr hothers]
  rfl

/-- `p` is the peer's part of the draws: an interval of that length of the
unit interval draws it, and `pick_among` returns it whenever the next
number of the generator is in there, and leaves the generator one further. -/
def DrawShare (s : HostPool K) (allowed : List ℕ) (i : ℕ) (p : K) : Prop :=
  ∃ weights lo, s.weightsOf allowed = some weights ∧ 0 ≤ lo ∧ lo + p ≤ 1
    ∧ (∀ u, lo < u → u ≤ lo + p → drawAt allowed weights u = some i)
    ∧ ∀ rng, lo < unitF64 (nextU64 rng).1 → unitF64 (nextU64 rng).1 ≤ lo + p →
        { s with rng }.pickAmong allowed = some (some i, { s with rng := (nextU64 rng).2 })

/-- The generator's next number is drawn at, whatever state it is in. -/
theorem Usable.pickAmong_eq (h : s.Usable n) (hvalid : ∀ i ∈ allowed, i < s.weight.length)
    (hne : allowed ≠ []) (rng : UInt64) :
    { s with rng }.pickAmong allowed
      = some (drawAt allowed (allowed.map s.weightAt) (unitF64 (nextU64 rng).1),
          { s with rng := (nextU64 rng).2 }) := by
  obtain ⟨j, hj⟩ := List.exists_mem_of_ne_nil _ hne
  have hweights : { s with rng }.weightsOf allowed = some (allowed.map s.weightAt) :=
    weightsOf_eq hvalid
  rw [pickAmong, if_neg hne, hweights, Option.bind_eq_bind, Option.bind_some,
    if_neg (not_not.mpr (h.sum_pos hvalid hj))]
  rfl

/-- The peer owns an interval of the draws as long as its share: the one its
weight takes up on the wheel, over the sum. -/
theorem Usable.drawShare (h : s.Usable n) (hvalid : ∀ i ∈ allowed, i < s.weight.length) {i : ℕ}
    (hi : i ∈ allowed) :
    s.DrawShare allowed i (s.weightAt i / (allowed.map s.weightAt).sum) := by
  have hpos := h.sum_pos hvalid hi
  have hnonneg : ∀ t ∈ allowed.zip (allowed.map s.weightAt), 0 ≤ t.2 := fun t ht =>
    h.weight_nonneg hvalid _ (List.of_mem_zip ht).2
  have hmem : (i, s.weightAt i) ∈ allowed.zip (allowed.map s.weightAt) := by
    rw [← List.map_prod_left_eq_zip]
    exact List.mem_map_of_mem hi
  obtain ⟨lo, hlo, hend, hspin⟩ := spin_of_mem hnonneg hmem
  rw [totalWeight_zip] at hend
  have hdraw : ∀ u, lo / (allowed.map s.weightAt).sum < u →
      u ≤ lo / (allowed.map s.weightAt).sum + s.weightAt i / (allowed.map s.weightAt).sum →
      drawAt allowed (allowed.map s.weightAt) u = some i := by
    intro u hlow hhigh
    rw [← add_div] at hhigh
    rw [drawAt, hspin _ ((div_lt_iff₀ hpos).mp hlow) ((le_div_iff₀ hpos).mp hhigh), Option.some_or]
  refine ⟨_, lo / (allowed.map s.weightAt).sum, weightsOf_eq hvalid,
    div_nonneg hlo hpos.le, ?_, hdraw, ?_⟩
  · rw [← add_div]
    exact (div_le_one hpos).mpr hend
  · intro rng hlow hhigh
    rw [h.pickAmong_eq hvalid (List.ne_nil_of_mem hi), hdraw _ hlow hhigh]

omit [IsStrictOrderedRing K] in
/-- Whatever the number, one of the allowed peers is drawn. -/
theorem drawAt_mem (hne : allowed ≠ []) (weights : List K) (u : K) :
    ∃ i ∈ allowed, drawAt allowed weights u = some i := by
  unfold drawAt
  cases hspin : spin (allowed.zip weights) (u * weights.sum) with
  | none =>
      refine ⟨allowed.getLast hne, List.getLast_mem hne, ?_⟩
      rw [Option.none_or, List.getLast?_eq_getLast_of_ne_nil hne]
  | some i =>
      obtain ⟨t, ht, rfl⟩ := List.mem_map.mp (spin_mem hspin)
      exact ⟨t.1, (List.of_mem_zip ht).1, Option.some_or⟩

/-- One of the allowed peers is picked, and the generator goes one further,
whatever state it was in. -/
theorem Usable.pickAmong_mem (h : s.Usable n) (hvalid : ∀ i ∈ allowed, i < s.weight.length)
    (hne : allowed ≠ []) (rng : UInt64) :
    ∃ i ∈ allowed, { s with rng }.pickAmong allowed
      = some (some i, { s with rng := (nextU64 rng).2 }) := by
  obtain ⟨i, hi, hdraw⟩ :=
    drawAt_mem hne (allowed.map s.weightAt) (unitF64 (nextU64 rng).1)
  exact ⟨i, hi, by rw [h.pickAmong_eq hvalid hne, hdraw]⟩

end Allowed

-- =================================================================== hedging

/-- The generator's numbers are from 0 on and below 1: the upper 53 bits over
two to the 53. -/
theorem unitF64_mem (x : UInt64) : (0 : K) ≤ unitF64 x ∧ (unitF64 x : K) < 1 := by
  have hshift : (x >>> 11).toNat < 2 ^ 53 := by
    rw [UInt64.toNat_shiftRight, Nat.shiftRight_eq_div_pow]
    have := x.toNat_lt
    show x.toNat / 2 ^ 11 < 2 ^ 53
    omega
  have hpos : (0 : K) < (2 ^ 53 : ℕ) := Nat.cast_pos.mpr (by decide)
  exact ⟨div_nonneg (Nat.cast_nonneg _) hpos.le, (div_lt_one hpos).mpr (Nat.cast_lt.mpr hshift)⟩

/-- What is certain comes about, since the generator stays below one. -/
theorem chance_one (s : HostPool K) : (s.chance 1).1 = true := by
  unfold chance
  rw [if_neg (not_le.mpr zero_lt_one)]
  exact decide_eq_true (unitF64_mem _).2

omit [IsStrictOrderedRing K] in
/-- For what is impossible no number is drawn, and the pool is left as
it was. -/
theorem chance_zero (s : HostPool K) : s.chance 0 = (false, s) := if_pos le_rfl

end HostPool

/-- What is used of `powf`: from 0 to 1 it stays there, and it leaves 1. -/
structure Powf (powf : K → K → K) : Prop where
  mem : ∀ x nu, 0 ≤ x → x ≤ 1 → 0 ≤ nu → 0 ≤ powf x nu ∧ powf x nu ≤ 1
  one : ∀ nu, powf 1 nu = 1

section Hedge

variable {powf : K → K → K} {n : ℕ} {share floorShare nu : K}

/-- A chance to be hedged is a probability: zero, one, or what `powf` makes of
a number clamped between them. -/
theorem hedgeProb_mem (hpow : Powf powf) (hnu : 0 ≤ nu) :
    0 ≤ hedgeProb powf n share floorShare nu ∧ hedgeProb powf n share floorShare nu ≤ 1 := by
  unfold hedgeProb
  simp only
  split
  · exact ⟨le_rfl, zero_le_one⟩
  · split
    · exact ⟨zero_le_one, le_rfl⟩
    · exact hpow.mem _ _ (le_clamp _ _ _) (clamp_le zero_le_one _) hnu

/-- Nobody is hedged whose share is uniform or better. -/
theorem hedgeProb_uniform (powf : K → K → K) (h : 1 / (n : K) ≤ share) (floorShare nu : K) :
    hedgeProb powf n share floorShare nu = 0 := if_pos (sub_nonpos.mpr h)

/-- At the floor the share is the one of the floor, and the quotient one. -/
theorem hedgeProb_floor (hpow : Powf powf) (h : share < 1 / (n : K)) (nu : K) :
    hedgeProb powf n share share nu = 1 := by
  have hpos : 0 < 1 / (n : K) - share := sub_pos.mpr h
  have hone : clamp (0 : K) 1 1 = 1 :=
    le_antisymm (clamp_le zero_le_one _) (le_clamp_of_le le_rfl le_rfl)
  unfold hedgeProb
  simp only
  rw [if_neg (not_le.mpr hpos), if_neg (not_le.mpr hpos), div_self hpos.ne', hone, hpow.one]

end Hedge

end Weights

/-- After any calls the weights are from the floor to one and the mean loss
from 0 to 1. So of any peers of the pool each has a share of the draws that
is positive, and one of them is picked in whatever state the generator is:
the peer in whose share its next number is. A peer's chance to be hedged is
a probability: nothing if its share is uniform or better, and then no
number is drawn, certain if its weight is the floor and its share is not. -/
theorem pool_stays_usable [IsStrictOrderedRing K] (exp : K → K) (powf : K → K → K)
    (hpow : Powf powf) (n : ℕ) (calls : List (PoolCall K)) :
    let s := (HostPool.new n).run exp calls
    s.weight.length = n ⊔ 1
    ∧ (∀ w ∈ s.weight, wMin ≤ w ∧ w ≤ 1)
    ∧ (0 ≤ s.avgLoss ∧ s.avgLoss ≤ 1)
    ∧ ∀ allowed : List ℕ, allowed ≠ [] → (∀ i ∈ allowed, i < s.weight.length) →
        (∀ rng, ∃ i ∈ allowed, { s with rng }.pickAmong allowed
          = some (some i, { s with rng := (nextU64 rng).2 }))
        ∧ ∀ i ∈ allowed, ∃ share floorShare,
            s.hedgeShares allowed i = some (share, floorShare)
            ∧ 0 < share ∧ s.DrawShare allowed i share
            ∧ ∀ nu, 0 ≤ nu →
                let p := hedgeProb powf allowed.length share floorShare nu
                (0 ≤ p ∧ p ≤ 1)
                ∧ (1 / (allowed.length : K) ≤ share → p = 0 ∧ s.chance p = (false, s))
                ∧ (s.weight[i]? = some wMin → share < 1 / (allowed.length : K) →
                    p = 1 ∧ ∀ rng, ({ s with rng }.chance p).1 = true) := by
  intro s
  have h : s.Usable n := (HostPool.usable_new n).run exp calls
  refine ⟨h.length_eq, h.weight, h.loss, fun allowed hne hvalid =>
    ⟨h.pickAmong_mem hvalid hne, fun i hi => ?_⟩⟩
  have hpos := h.sum_pos hvalid hi
  refine ⟨_, _, h.hedgeShares_eq hvalid hi,
    div_pos (wMin_pos.trans_le (h.le_weightAt (hvalid i hi))) hpos, h.drawShare hvalid hi, ?_⟩
  intro nu hnu p
  refine ⟨hedgeProb_mem hpow hnu, fun hle => ?_, fun hfloor hlt => ?_⟩
  · have hzero : p = 0 := hedgeProb_uniform powf hle _ nu
    exact ⟨hzero, hzero ▸ HostPool.chance_zero s⟩
  · have hw : s.weightAt i = wMin := by
      rw [HostPool.weightAt, List.getD_eq_getElem?_getD, hfloor, Option.getD_some]
    have hone : p = 1 := by
      rw [hw] at hlt
      show hedgeProb powf _ (s.weightAt i / _) _ nu = 1
      rw [hw, add_sub_cancel]
      exact hedgeProb_floor hpow hlt nu
    exact ⟨hone, fun rng => hone ▸ HostPool.chance_one _⟩

end Pool

/-- `Real.rpow` is such a `powf`. -/
theorem powf_rpow : Powf Real.rpow where
  mem := fun _ _ hx hx1 hnu => ⟨Real.rpow_nonneg hx _, Real.rpow_le_one hx hx1 hnu⟩
  one := Real.one_rpow

/-- A cache with a weight that is no number and one that is negative leaves
a peer at the floor, and it is insured for certain. -/
theorem pool_stays_usable_restored :
    let s := (HostPool.new 2).run Real.exp
      [.recordFailure 1, .restore [.notFinite, .finite (-3)] .notFinite (.finite 9)]
    ∃ share floorShare, s.hedgeShares [0, 1] 1 = some (share, floorShare)
      ∧ hedgeProb Real.rpow 2 share floorShare hedgeNu = 1 := by
  intro s
  have hfloor : clamp wMin 1 (-3 : ℝ) = wMin := by
    rw [clamp, min_eq_left (by norm_num)]
    exact max_eq_left (le_trans (by norm_num) wMin_pos.le)
  have hlen : ((HostPool.new 2).recordFailure Real.exp 1).weight.length = 2 :=
    ((HostPool.usable_new 2).apply Real.exp 1 ⟨zero_le_one, le_rfl⟩).length_eq
  have hweight : s.weight = [1, wMin] := by
    obtain ⟨a, b, hab⟩ := List.length_eq_two.mp hlen
    show HostPool.adoptAll ((HostPool.new 2).recordFailure Real.exp 1).weight _ = _
    rw [hab]
    exact congrArg (fun w => [1, w]) hfloor
  obtain ⟨-, -, -, hallowed⟩ := pool_stays_usable Real.exp Real.rpow powf_rpow 2
    [.recordFailure 1, .restore [.notFinite, .finite (-3)] .notFinite (.finite 9)]
  obtain ⟨-, hmember⟩ := hallowed [0, 1] (List.cons_ne_nil _ _) (by
    show ∀ i ∈ [0, 1], i < s.weight.length
    rw [hweight]
    decide)
  obtain ⟨share, floorShare, hshares, -, -, hhedge⟩ := hmember 1 (by decide)
  refine ⟨share, floorShare, hshares, ((hhedge hedgeNu (by unfold hedgeNu; norm_num)).2.2 ?_ ?_).1⟩
  · show s.weight[1]? = _
    rw [hweight]
    rfl
  · have hsum : s.weightsOf [0, 1] = some [1, wMin] := by
      rw [HostPool.weightsOf, hweight]
      rfl
    have hvalue : s.hedgeShares [0, 1] 1 = some (share, floorShare) := hshares
    have hpos : ¬ ¬ (0 : ℝ) < [1, wMin].sum := by
      unfold wMin
      norm_num
    rw [HostPool.hedgeShares, hsum, Option.bind_eq_bind, Option.bind_some, if_neg hpos,
      hweight] at hvalue
    cases hvalue
    show (wMin : ℝ) / [1, wMin].sum < 1 / (2 : ℕ)
    unfold wMin
    norm_num

end Narshare
