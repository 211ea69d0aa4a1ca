/-
The concurrency governor: how many streams a peer gets, found by climbing
on what is measured.

# The numbers

`f64` is ℚ here, so nothing is lost in a product and `0.03` is what it
says. The number of requests of an epoch is a word and its sum may go
round, which changes when a rate counts as pushback but nothing below.

# Why a probe moves

A rung's step is a factor of 1.3, which a small limit's rounding can
swallow, and `observe` then steps by one instead. `probe_up` and
`probe_down` say that this leaves no case out: before the clamp the
rounded limit has moved by one at least, and since the bounds are integers
the clamp takes it no further back than to the bound (`roundAway_clamp`).

# What it is judged by

`streak` is what was measured since the last epoch that was held or backed
off from. `MeasuredBy` says that the governor knows that and no more: the
streak is cut in fives, the last five's median is the baseline, and what
is left over are the samples. An epoch that the consumer held up ends a
streak without being part of one, so nothing of it is ever weighed.
-/
import Mathlib.Data.List.DropRight
import Mathlib.Data.List.Sort
import Mathlib.Data.Rat.Floor
import Mathlib.Tactic.NormNum
import Mathlib.Tactic.Positivity
import Narshare.Lib.Clamp
import Narshare.Lib.Wrap

namespace Narshare

-- ============================================================= the governor

/-- `NOISE`. -/
def noise : ℚ := 3 / 100

/-- `PROBE_EPOCHS`. -/
def probeEpochs : ℕ := 5

/-- `STEP_UP`. -/
def stepUp : ℚ := 13 / 10

/-- `BACKOFF`. -/
def backoff : ℚ := 7 / 10

/-- `ERROR_RATE_BACKOFF`. -/
def errorRateBackoff : ℚ := 1 / 4

/-- `MIN_RATE_ATTEMPTS`. -/
def minRateAttempts : ℕ := 4

inductive Pressure
  | network
  | consumerBound
deriving DecidableEq, Repr

/-- What `observe` is told of an epoch. -/
structure Epoch where
  throughput : ℚ
  pressure : Pressure
  ok : ℕ
  errors : ℕ
deriving DecidableEq, Repr

/-- `Governor`; its `min` and `max` are `least` and `most`. -/
structure Governor where
  limit : ℚ
  least : ℚ
  most : ℚ
  dir : ℚ
  samples : List ℚ
  prev : Option ℚ
deriving DecidableEq, Repr

/-- `median`. -/
def median (v : List ℚ) : ℚ := (v.insertionSort (· ≤ ·)).getD (v.length / 2) 0

namespace Governor

/-- `Governor::new`. -/
def new (start min max : ℕ) : Governor :=
  let least : ℚ := (Nat.max min 1 : ℕ)
  let most : ℚ := (max : ℚ) ⊔ least
  { limit := clamp least most start
    least
    most
    dir := 1
    samples := []
    prev := none }

/-- `limit`, the number of streams. -/
def streams (g : Governor) : ℕ := (roundAway g.limit ⊔ 1).toNat

end Governor

/-- The rate an epoch's failures are judged by. -/
def Epoch.errorRate (e : Epoch) : ℚ :=
  let attempts := wadd 64 e.ok e.errors
  if minRateAttempts ≤ attempts then e.errors / attempts else 0

namespace Governor

/-- Where the next step goes, after a rung's reading. -/
def turn (g : Governor) (reading : ℚ) : ℚ :=
  match g.prev with
  | none => g.dir
  | some prev =>
      let change := if 0 < prev then (reading - prev) / prev else 1
      if change < -noise then -g.dir
      else if |change| ≤ noise then -g.dir
      else g.dir

/-- `f64::signum`. -/
def signum (x : ℚ) : ℚ := if x < 0 then -1 else 1

/-- A step in a direction, before it is clamped. -/
def probe (limit dir : ℚ) : ℚ :=
  let next := limit * if 0 < dir then stepUp else 1 / stepUp
  if roundAway next = roundAway limit then limit + signum dir else next

/-- `observe`, which returns the streams of the governor it leaves. -/
def observe (g : Governor) (e : Epoch) : Governor :=
  if e.pressure = .consumerBound then { g with prev := none, samples := [] }
  else if errorRateBackoff < e.errorRate then
    { g with
      limit := clamp g.least g.most (g.limit * backoff)
      dir := -1
      prev := none
      samples := [] }
  else
    let samples := g.samples ++ [e.throughput]
    if samples.length < probeEpochs then { g with samples }
    else
      let reading := median samples
      let dir := g.turn reading
      { g with
        limit := clamp g.least g.most (probe g.limit dir)
        dir
        samples := []
        prev := some reading }

/-- One epoch after the other. -/
def run (g : Governor) (es : List Epoch) : Governor := es.foldl observe g

end Governor

-- =============================================================== the history

/-- Is the epoch backed off from? -/
def Epoch.BacksOff (e : Epoch) : Prop :=
  e.pressure = .network ∧ errorRateBackoff < e.errorRate

instance Epoch.decidableBacksOff (e : Epoch) : Decidable e.BacksOff :=
  inferInstanceAs (Decidable (_ ∧ _))

/-- Is it a network epoch that is not? -/
def Epoch.clean (e : Epoch) : Bool := decide (e.pressure = .network ∧ ¬ e.BacksOff)

/-- What was measured by the clean epochs that come last in a row. -/
def streak (es : List Epoch) : List ℚ := (es.rtakeWhile Epoch.clean).map Epoch.throughput

/-- A clean epoch makes the streak longer, any other ends it. -/
theorem streak_concat (es : List Epoch) (e : Epoch) :
    streak (es ++ [e]) = if e.clean then streak es ++ [e.throughput] else [] := by
  unfold streak
  rw [List.rtakeWhile_concat]
  split
  · rw [List.map_append, List.map_singleton]
  · rw [List.map_nil]

/-- An epoch is held, backed off from or clean. -/
theorem Epoch.kinds (e : Epoch) : e.pressure = .consumerBound ∨ e.BacksOff ∨ e.clean = true := by
  unfold clean
  by_cases hback : e.BacksOff
  · exact Or.inr (Or.inl hback)
  · cases hp : e.pressure with
    | consumerBound => exact Or.inl rfl
    | network => exact Or.inr (Or.inr (decide_eq_true ⟨rfl, hback⟩))

/-- An epoch that the consumer held back is not clean: what it measured is the
consumer. -/
theorem Epoch.clean_eq_false_of_held {e : Epoch} (h : e.pressure = .consumerBound) :
    e.clean = false := by
  unfold clean
  rw [h]
  rfl

/-- Nor is one that calls for backing off. -/
theorem Epoch.clean_eq_false_of_backsOff {e : Epoch} (h : e.BacksOff) : e.clean = false :=
  decide_eq_false fun hc => hc.2 h

namespace Governor

/-- The governor knows the streak, five by five, and nothing else. -/
def MeasuredBy (g : Governor) (l : List ℚ) : Prop :=
  ∃ rungs : List (List ℚ), l = rungs.flatten ++ g.samples
    ∧ (∀ rung ∈ rungs, rung.length = probeEpochs)
    ∧ g.samples.length < probeEpochs
    ∧ g.prev = rungs.getLast?.map median

-- ================================================================= one epoch

variable {g : Governor} {e : Epoch}

/-- Held back by the consumer, the governor forgets its samples and the level
they were to be compared with. -/
theorem observe_of_held (h : e.pressure = .consumerBound) :
    g.observe e = { g with prev := none, samples := [] } := if_pos h

/-- Under pressure it backs off and forgets what it has measured at the old
level. -/
theorem observe_of_backsOff (h : e.BacksOff) :
    g.observe e =
      { g with
        limit := clamp g.least g.most (g.limit * backoff)
        dir := -1
        prev := none
        samples := [] } := by
  rw [observe, if_neg (by rw [h.1]; nofun), if_pos h.2]

/-- A clean epoch is a sample, and the probe's last sample decides where to
go. -/
theorem observe_of_clean (h : e.clean = true) :
    g.observe e =
      if (g.samples ++ [e.throughput]).length < probeEpochs then
        { g with samples := g.samples ++ [e.throughput] }
      else
        { g with
          limit :=
            clamp g.least g.most (probe g.limit (g.turn (median (g.samples ++ [e.throughput]))))
          dir := g.turn (median (g.samples ++ [e.throughput]))
          samples := []
          prev := some (median (g.samples ++ [e.throughput])) } := by
  obtain ⟨hp, hback⟩ := of_decide_eq_true h
  rw [observe, if_neg (by rw [hp]; nofun), if_neg fun hrate => hback ⟨hp, hrate⟩]

-- =================================================================== probing

/-- A step up rounds up by one at least. -/
theorem probe_up {limit dir : ℚ} (hl : 1 ≤ limit) (hd : 0 < dir) :
    roundAway limit + 1 ≤ roundAway (probe limit dir) := by
  unfold probe
  rw [if_pos hd]
  simp only
  have hle : roundAway limit ≤ roundAway (limit * stepUp) := by
    refine roundAway_mono ?_
    unfold stepUp
    linarith
  split
  next =>
    rw [signum, if_neg hd.le.not_gt, roundAway_add_one (by linarith)]
  next hne => exact lt_of_le_of_ne hle (Ne.symm hne)

/-- A step down rounds down by one at least. -/
theorem probe_down {limit dir : ℚ} (hl : 1 ≤ limit) (hd : dir < 0) :
    roundAway (probe limit dir) ≤ roundAway limit - 1 := by
  unfold probe
  rw [if_neg hd.le.not_gt]
  simp only
  have hle : roundAway (limit * (1 / stepUp)) ≤ roundAway limit := by
    refine roundAway_mono ?_
    unfold stepUp
    linarith
  split
  next =>
    rw [signum, if_pos hd, ← sub_eq_add_neg, roundAway_sub_one hl]
  next hne =>
    have := lt_of_le_of_ne hle hne
    omega

-- ================================================================== the bounds

/-- A governor within its bounds, going up or down. -/
structure Ok (lo hi : ℕ) (g : Governor) : Prop where
  least_eq : g.least = lo
  most_eq : g.most = hi
  lo_le : (lo : ℚ) ≤ g.limit
  le_hi : g.limit ≤ hi
  dir : g.dir = 1 ∨ g.dir = -1

section Bounds

variable {lo hi : ℕ}

/-- A new governor lies within its bounds, wherever it is told to start. -/
theorem ok_new (start : ℕ) (hlo : 1 ≤ lo) (hhi : lo ≤ hi) : (new start lo hi).Ok lo hi := by
  have hleast : ((Nat.max lo 1 : ℕ) : ℚ) = lo := congrArg _ (Nat.max_eq_left hlo)
  have hmost : (hi : ℚ) ⊔ ((Nat.max lo 1 : ℕ) : ℚ) = hi := by
    rw [hleast]
    exact sup_eq_left.mpr (Nat.cast_le.mpr hhi)
  unfold new
  simp only
  rw [hmost, hleast]
  exact ⟨rfl, rfl, le_clamp _ _ _, clamp_le (Nat.cast_le.mpr hhi) _, Or.inl rfl⟩

/-- The streams are the rounded limit. -/
theorem Ok.streams_eq (h : g.Ok lo hi) (hlo : 1 ≤ lo) : (g.streams : ℤ) = roundAway g.limit := by
  have hle : roundAway ((1 : ℕ) : ℚ) ≤ roundAway g.limit :=
    roundAway_mono ((Nat.cast_le.mpr hlo).trans h.lo_le)
  rw [roundAway_natCast, Nat.cast_one] at hle
  rw [streams, sup_eq_left.mpr hle]
  omega

/-- The streams are the limit rounded, and rounding does not leave bounds that
are whole numbers. -/
theorem Ok.streams_mem (h : g.Ok lo hi) (hlo : 1 ≤ lo) : lo ≤ g.streams ∧ g.streams ≤ hi := by
  have hlow := roundAway_mono h.lo_le
  have hhigh := roundAway_mono h.le_hi
  rw [roundAway_natCast, ← h.streams_eq hlo] at hlow hhigh
  omega

/-- The direction is one up or one down. -/
theorem turn_mem (h : g.dir = 1 ∨ g.dir = -1) (reading : ℚ) :
    g.turn reading = 1 ∨ g.turn reading = -1 := by
  have hneg : -g.dir = 1 ∨ -g.dir = -1 := by
    rcases h with h | h <;> rw [h]
    · exact Or.inr rfl
    · exact Or.inl (neg_neg 1)
  unfold turn
  cases g.prev with
  | none => exact h
  | some prev =>
      simp only
      generalize (if 0 < prev then (reading - prev) / prev else 1) = change
      split
      · exact hneg
      · split
        · exact hneg
        · exact h

/-- No epoch takes the limit out of its bounds: every move of it is
clamped. -/
theorem Ok.observe (h : g.Ok lo hi) (hhi : lo ≤ hi) (e : Epoch) : (g.observe e).Ok lo hi := by
  have hclamp : ∀ x, (lo : ℚ) ≤ clamp g.least g.most x ∧ clamp g.least g.most x ≤ hi := by
    rw [h.least_eq, h.most_eq]
    exact fun x => ⟨le_clamp _ _ _, clamp_le (Nat.cast_le.mpr hhi) _⟩
  rcases e.kinds with he | he | he
  · rw [observe_of_held he]
    exact ⟨h.least_eq, h.most_eq, h.lo_le, h.le_hi, h.dir⟩
  · rw [observe_of_backsOff he]
    exact ⟨h.least_eq, h.most_eq, (hclamp _).1, (hclamp _).2, Or.inr rfl⟩
  · rw [observe_of_clean he]
    split
    · exact ⟨h.least_eq, h.most_eq, h.lo_le, h.le_hi, h.dir⟩
    · exact ⟨h.least_eq, h.most_eq, (hclamp _).1, (hclamp _).2, turn_mem h.dir _⟩

/-- Backing off never raises the limit. -/
theorem Ok.backsOff (h : g.Ok lo hi) (hlo : 1 ≤ lo) (hhi : lo ≤ hi) (he : e.BacksOff) :
    (g.observe e).limit ≤ g.limit ∧ (g.observe e).streams ≤ g.streams := by
  have hle : (g.observe e).limit ≤ g.limit := by
    rw [observe_of_backsOff he]
    refine clamp_le_of_le (h.least_eq.trans_le h.lo_le) ?_
    have hpos : (0 : ℚ) ≤ g.limit := (Nat.cast_nonneg lo).trans h.lo_le
    show g.limit * backoff ≤ g.limit
    unfold backoff
    linarith
  refine ⟨hle, ?_⟩
  have hround := roundAway_mono hle
  rw [← h.streams_eq hlo, ← (h.observe hhi e).streams_eq hlo] at hround
  omega

/-- From one governor to the next the rounded limit has moved the way it
goes, unless there was no room. -/
def Moves (lo hi : ℕ) (g g' : Governor) : Prop :=
  (0 < g'.dir ∧ (g.streams = hi ∨ g.streams + 1 ≤ g'.streams))
    ∨ (g'.dir < 0 ∧ (g.streams = lo ∨ g'.streams + 1 ≤ g.streams))

/-- A completed rung moves. -/
theorem Ok.moves (h : g.Ok lo hi) (hlo : 1 ≤ lo) (hhi : lo ≤ hi) (he : e.clean = true)
    (hfull : g.samples.length + 1 = probeEpochs) : Moves lo hi g (g.observe e) := by
  have hok := h.observe hhi e
  have hmem := h.streams_mem hlo
  have hs := h.streams_eq hlo
  have hs' := hok.streams_eq hlo
  have hone : (1 : ℚ) ≤ g.limit := by
    have : ((1 : ℕ) : ℚ) ≤ lo := Nat.cast_le.mpr hlo
    rw [Nat.cast_one] at this
    exact this.trans h.lo_le
  rw [observe_of_clean he, if_neg (by rw [List.length_append, List.length_singleton]; omega)]
    at hs' hok ⊢
  generalize g.turn (median (g.samples ++ [e.throughput])) = dir at hs' hok ⊢
  have hclamp : roundAway (clamp g.least g.most (probe g.limit dir))
      = clamp (lo : ℤ) hi (roundAway (probe g.limit dir)) := by
    rw [h.least_eq, h.most_eq, ← roundAway_clamp, Int.cast_natCast, Int.cast_natCast]
  rw [hclamp] at hs'
  rcases hok.dir with hdir | hdir
  · have hpos : 0 < dir := by
      rw [show dir = 1 from hdir]
      exact one_pos
    have hup := probe_up hone hpos
    refine Or.inl ⟨hpos, ?_⟩
    by_cases heq : g.streams = hi
    · exact Or.inl heq
    · have : (g.streams : ℤ) + 1 ≤ clamp (lo : ℤ) hi (roundAway (probe g.limit dir)) :=
        le_clamp_of_le (by omega) (hs ▸ hup)
      exact Or.inr (by omega)
  · have hneg : dir < 0 := by
      rw [show dir = -1 from hdir]
      exact neg_one_lt_zero
    have hdown := probe_down hone hneg
    refine Or.inr ⟨hneg, ?_⟩
    by_cases heq : g.streams = lo
    · exact Or.inl heq
    · have : clamp (lo : ℤ) hi (roundAway (probe g.limit dir)) ≤ (g.streams : ℤ) - 1 :=
        clamp_le_of_le (by omega) (hs ▸ hdown)
      exact Or.inr (by omega)

end Bounds

-- ================================================================ what it knows

/-- A new governor has measured nothing. -/
theorem measuredBy_new (start min max : ℕ) : (new start min max).MeasuredBy [] :=
  ⟨[], rfl, nofun, Nat.zero_lt_succ 4, rfl⟩

/-- Nothing is known once `prev` and the samples are gone. -/
theorem measuredBy_nil (hs : g.samples = []) (hp : g.prev = none) : g.MeasuredBy [] := by
  refine ⟨[], ?_, nofun, ?_, hp⟩
  · rw [hs]
    rfl
  · rw [hs]
    exact Nat.zero_lt_succ 4

/-- An epoch's reading goes into the samples, and the fifth closes a rung. -/
theorem MeasuredBy.observe_clean {l : List ℚ} (h : g.MeasuredBy l) (he : e.clean = true) :
    (g.observe e).MeasuredBy (l ++ [e.throughput]) := by
  obtain ⟨rungs, hl, hrungs, hlt, hprev⟩ := h
  have hlen : (g.samples ++ [e.throughput]).length = g.samples.length + 1 := by
    rw [List.length_append, List.length_singleton]
  rw [observe_of_clean he]
  split
  next hroom =>
    refine ⟨rungs, ?_, hrungs, hroom, hprev⟩
    rw [hl, List.append_assoc]
  next hfull =>
    refine ⟨rungs ++ [g.samples ++ [e.throughput]], ?_, ?_, Nat.zero_lt_succ 4, ?_⟩
    · rw [hl, List.flatten_append, List.flatten_singleton, List.append_nil, List.append_assoc]
    · intro rung hrung
      rcases List.mem_append.mp hrung with hrung | hrung
      · exact hrungs rung hrung
      · rw [List.mem_singleton.mp hrung]
        omega
    · rw [List.getLast?_concat, Option.map_some]

/-- What has been measured is the streak since, epoch by epoch. -/
theorem MeasuredBy.observe {es : List Epoch} (h : g.MeasuredBy (streak es)) (e : Epoch) :
    (g.observe e).MeasuredBy (streak (es ++ [e])) := by
  rw [streak_concat]
  rcases e.kinds with he | he | he
  · rw [observe_of_held he, e.clean_eq_false_of_held he]
    exact measuredBy_nil rfl rfl
  · rw [observe_of_backsOff he, e.clean_eq_false_of_backsOff he]
    exact measuredBy_nil rfl rfl
  · rw [if_pos he]
    exact h.observe_clean he

/-- The streak's length is told by the samples, five by five. -/
theorem MeasuredBy.length_mod {l : List ℚ} (h : g.MeasuredBy l) :
    l.length % probeEpochs = g.samples.length := by
  obtain ⟨rungs, rfl, hrungs, hlt, -⟩ := h
  have hsum : (rungs.map List.length).sum = rungs.length * probeEpochs := by
    rw [List.sum_eq_card_nsmul _ probeEpochs, List.length_map, nsmul_eq_mul, Nat.cast_id]
    intro n hn
    obtain ⟨rung, hrung, rfl⟩ := List.mem_map.mp hn
    exact hrungs rung hrung
  rw [List.length_append, List.length_flatten, hsum, Nat.mul_add_mod_self_right,
    Nat.mod_eq_of_lt hlt]

-- ====================================================================== a run

theorem run_concat (es : List Epoch) (e : Epoch) : g.run (es ++ [e]) = (g.run es).observe e :=
  List.foldl_concat _ _ _ _

/-- So no epochs take it out. -/
theorem Ok.run {lo hi : ℕ} (h : g.Ok lo hi) (hhi : lo ≤ hi) (es : List Epoch) :
    (g.run es).Ok lo hi := by
  induction es using List.reverseRecOn with
  | nil => exact h
  | append_singleton es e ih =>
      rw [run_concat]
      exact ih.observe hhi e

/-- So of any epochs it holds the samples of their last streak. -/
theorem measuredBy_run (start min max : ℕ) (es : List Epoch) :
    ((new start min max).run es).MeasuredBy (streak es) := by
  induction es using List.reverseRecOn with
  | nil => exact measuredBy_new start min max
  | append_singleton es e ih =>
      rw [run_concat]
      exact ih.observe e

end Governor

/-- The epoch with nothing measured in it, if the consumer held it up. -/
def Epoch.blind (e : Epoch) : Epoch :=
  if e.pressure = .consumerBound then
    { throughput := 0, pressure := .consumerBound, ok := 0, errors := 0 }
  else e

/-- What was measured in an epoch that the consumer held up is not
looked at. -/
theorem Governor.observe_blind (g : Governor) (e : Epoch) : g.observe e.blind = g.observe e := by
  unfold Epoch.blind
  split
  next he => rw [observe_of_held he, observe_of_held rfl]
  next => rfl

theorem Governor.run_blind (g : Governor) (es : List Epoch) :
    g.run (es.map Epoch.blind) = g.run es := by
  unfold run
  rw [List.foldl_map]
  exact congrArg (fun f => es.foldl f g) (funext fun g => funext g.observe_blind)

/-- Whatever is observed, the limit is within its bounds. The fifth clean
epoch in a row moves the rounded limit the way the governor goes, or it is
at that bound already. Backing off never raises the limit, and an epoch
that the consumer held up leaves it alone; it ends the streak, all that the
samples and the baseline are taken from, and what was measured in it has
no effect on any run. -/
theorem governor_in_bounds_and_moves (start min max : ℕ) (hmin : 1 ≤ min) (hmax : min ≤ max)
    (es : List Epoch) :
    let g := (Governor.new start min max).run es
    ((min : ℚ) ≤ g.limit ∧ g.limit ≤ max ∧ min ≤ g.streams ∧ g.streams ≤ max)
    ∧ (∀ e : Epoch, e.clean = true → (streak (es ++ [e])).length % probeEpochs = 0 →
        Governor.Moves min max g (g.observe e))
    ∧ (∀ e : Epoch, e.BacksOff →
        (g.observe e).limit ≤ g.limit ∧ (g.observe e).streams ≤ g.streams)
    ∧ (∀ e : Epoch, e.pressure = .consumerBound →
        (g.observe e).limit = g.limit ∧ (g.observe e).streams = g.streams
          ∧ streak (es ++ [e]) = [])
    ∧ g.MeasuredBy (streak es)
    ∧ (Governor.new start min max).run (es.map Epoch.blind) = g := by
  intro g
  have hok : g.Ok min max := (Governor.ok_new start hmin hmax).run hmax es
  have hknows : g.MeasuredBy (streak es) := Governor.measuredBy_run start min max es
  obtain ⟨hlow, hhigh⟩ := hok.streams_mem hmin
  refine ⟨⟨hok.lo_le, hok.le_hi, hlow, hhigh⟩, ?_, ?_, ?_, hknows, Governor.run_blind _ es⟩
  · intro e he hfifth
    refine hok.moves hmin hmax he ?_
    rw [streak_concat, if_pos he, List.length_append, List.length_singleton] at hfifth
    have hlen := hknows.length_mod
    unfold probeEpochs at hfifth hlen ⊢
    omega
  · intro e he
    exact hok.backsOff hmin hmax he
  · intro e he
    rw [Governor.observe_of_held he, streak_concat, e.clean_eq_false_of_held he]
    exact ⟨rfl, rfl, rfl⟩

/-- Five clean epochs take a peer of one stream to two. -/
theorem governor_in_bounds_and_moves_five :
    let e : Epoch := { throughput := 9, pressure := .network, ok := 32, errors := 0 }
    let g := (Governor.new 1 1 256).run [e, e, e, e]
    Governor.Moves 1 256 g (g.observe e) ∧ g.streams = 1 ∧ (g.observe e).streams = 2 :=
  ⟨(governor_in_bounds_and_moves 1 1 256 (by decide) (by decide) _).2.1 _
      (by decide +kernel) (by decide +kernel),
    by decide +kernel, by decide +kernel⟩

end Narshare
