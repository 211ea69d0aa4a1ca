/-
The loop of fetch.rs's run_transfer: it carves the plan's ranges into
chunks, flies them, buffers what arrives and pumps the emitter.

# The machine

A `Transfer` is the loop's locals. Its steps are a turn of the pump, a
turn of the launch loop, a `Done` received, and giving up; a worker is in
the air (`air`) from its launch until its `Done` is received, so that
every order of completions is a run. What the loop asks of clocks, peers
and slots is any answer: is the retry gate up, how large is a chunk for
whoever leads, how many of primary and partner have a slot.

Two fields are ghosts: `Flight.len`, how much the attempts of a flight ask
for (the source keys flights by their start alone), and `landed`, the
ranges that went into the buffer.

# Flights and their crews

`Crewed`: the attempts a flight names are those in the air for its start,
and all of them ask for the same. With it `step_cases` says once what a
step can do.
-/
import Mathlib.Data.List.Sort
import Narshare.Lib.System
import Narshare.Transfer.Emitter

namespace Narshare

-- ================================================================= the state

/-- `Flight`; `len` is a ghost. -/
structure Flight where
  attempts : List ℕ
  delivered : Bool
  len : ℕ
deriving DecidableEq

/-- A worker whose `Done` is not yet received. -/
structure Attempt where
  id : ℕ
  off : ℕ
  len : ℕ
deriving DecidableEq

/-- How a transfer ends, other than by completing. -/
inductive Abort
  | emit (e : EmitEnd)
  | pump (p : Pump)
  | streak
  | forfeit
deriving DecidableEq

/-- Where `run_transfer` stands. -/
inductive Stage
  | pumping
  | waiting
  | completed
  | aborted (why : Abort)
deriving DecidableEq

/-- The locals of `run_transfer`. `left` is `ranges[range_i..]`; `requeue`
is the heap, lowest first. -/
structure Transfer where
  em : Emitter
  client : Client
  left : List (ℕ × ℕ)
  rangePos : ℕ := 0
  requeue : List (ℕ × ℕ) := []
  inflight : OrdMap ℕ Flight := ∅
  air : List Attempt := []
  nextAttempt : ℕ := 0
  failureStreak : ℕ := 0
  stage : Stage := .pumping
  landed : List (ℕ × ℕ) := []
deriving DecidableEq

/-- `MAX_FAILURE_STREAK`. -/
def MAX_FAILURE_STREAK : ℕ := 30

/-- The order of the heap's entries. -/
def Sooner (r r' : ℕ × ℕ) : Prop := r.1 < r'.1 ∨ (r.1 = r'.1 ∧ r.2 ≤ r'.2)

instance : DecidableRel Sooner := fun _ _ => inferInstanceAs (Decidable (_ ∨ _))

instance : Std.Total Sooner := ⟨fun r r' => by unfold Sooner; omega⟩

instance : IsTrans (ℕ × ℕ) Sooner := ⟨fun _ _ _ h h' => by unfold Sooner at *; omega⟩

/-- Advance the carve cursor past exhausted ranges. -/
def advance : List (ℕ × ℕ) → ℕ → List (ℕ × ℕ) × ℕ
  | [], pos => ([], pos)
  | r :: rs, pos => if pos ≥ r.2 then advance rs 0 else (r :: rs, pos)

/-- What is not yet carved of the ranges that are left. -/
def remaining : List (ℕ × ℕ) → ℕ → List (ℕ × ℕ)
  | [], _ => []
  | r :: rs, pos => (r.1 + pos, r.2 - pos) :: rs

/-- This attempt is retired. -/
def Flight.retire (fl : Flight) (id : ℕ) : Flight :=
  { fl with attempts := fl.attempts.filter (· ≠ id) }

namespace Transfer

-- ================================================================= the steps

/-- `run_transfer`, once the pump has returned, or has taken a turn. -/
def pumped (t : Transfer) (em : Emitter) (c : Client) :
    Option (Except EmitEnd Pump) → Transfer
  | none => { t with em := em, client := c }
  | some (.ok .needData) =>
      { t with
        em := { em with buffered := em.buffered.prune em.emitPos }
        client := c
        stage := .waiting }
  | some (.ok .finished) => { t with em := em, client := c, stage := .completed }
  | some (.ok p) => { t with em := em, client := c, stage := .aborted (.pump p) }
  | some (.error e) => { t with em := em, client := c, stage := .aborted (.emit e) }

/-- The next attempts, of as many as have a slot. -/
def nextIds (t : Transfer) (slots : ℕ) : List ℕ :=
  (List.range slots).map fun i => t.nextAttempt + (i + 1)

/-- Spawn the attempts of `[off, off + len)` that have a slot. -/
def spawn (t : Transfer) (off len slots : ℕ) : Transfer :=
  let fl := (t.inflight.get off).getD ⟨[], false, len⟩
  let ids := t.nextIds slots
  { t with
    inflight := t.inflight.put off { fl with attempts := fl.attempts ++ ids }
    air := t.air ++ ids.map fun id => ⟨id, off, len⟩
    nextAttempt := t.nextAttempt + slots }

/-- One turn of the launch loop. -/
def launch (window : ℕ) (t : Transfer) (gated : Bool) (chunk slots : ℕ) : Transfer :=
  match gated, t.requeue with
  | false, (off, l) :: rest =>
      if off ≥ t.em.emitPos + window ∨ slots = 0 then t
      else if l > chunk * 2 then
        { t with requeue := List.orderedInsert Sooner (off + chunk, l - chunk) rest }.spawn
          off chunk slots
      else { t with requeue := rest }.spawn off l slots
  | _, _ =>
      match advance t.left t.rangePos with
      | ([], pos) => { t with left := [], rangePos := pos }
      | (r :: rs, pos) =>
          if r.1 + pos ≥ t.em.emitPos + window ∨ slots = 0 then
            { t with left := r :: rs, rangePos := pos }
          else
            let l := min chunk (r.2 - pos)
            { t with left := r :: rs, rangePos := pos + l }.spawn (r.1 + pos) l slots

/-- A `Done` is received: of a chunk, or of a failure. -/
def finish (t : Transfer) (w : Attempt) (result : Option Bytes) : Transfer :=
  let fl := (t.inflight.get w.off).map fun fl => fl.retire w.id
  let t := { t with
    air := t.air.filter fun w' => w'.id ≠ w.id
    inflight := t.inflight.set w.off fl }
  let wasDelivered := fl.elim true Flight.delivered
  let twinsLive := fl.elim false fun fl => !fl.attempts.isEmpty
  match result, wasDelivered with
  | some _, true =>
      { t with
        inflight := bif twinsLive then t.inflight else t.inflight.erase w.off
        failureStreak := 0 }
  | some b, false =>
      let inflight := t.inflight.set w.off (fl.map fun fl => { fl with delivered := true })
      { t with
        em := { t.em with buffered := t.em.buffered.put w.off b }
        inflight := bif twinsLive then inflight else inflight.erase w.off
        failureStreak := 0
        stage := .pumping
        landed := (w.off, w.len) :: t.landed }
  | none, _ =>
      -- requeued when the last attempt died with nothing delivered
      { t with
        inflight := bif twinsLive then t.inflight else t.inflight.erase w.off
        requeue :=
          bif !wasDelivered && !twinsLive then
            List.orderedInsert Sooner (w.off, w.len) t.requeue
          else t.requeue
        failureStreak := t.failureStreak + 1
        stage :=
          if t.failureStreak + 1 ≥ MAX_FAILURE_STREAK then .aborted .streak else .waiting }

end Transfer

/-- What can happen next: a turn of the pump, a turn of the launch loop, a
`Done` with or without its chunk, and giving up, for want of progress or
of bandwidth. -/
inductive Tick
  | turn
  | launch (gated : Bool) (chunk slots : ℕ)
  | done (id : ℕ) (result : Option Bytes)
  | giveUp
deriving DecidableEq

/-- `run_transfer`, step by step. Chunks are not empty, have the length
that was asked for, and are hedged once. -/
def Transfer.step (sha256 : Bytes → NarHash) (window : ℕ) (t : Transfer) :
    Tick → Option Transfer
  | .turn =>
      if t.stage = .pumping then
        match t.em.turn sha256 t.client with
        | (r, em, c) => some (t.pumped em c r)
      else none
  | .launch gated chunk slots =>
      if t.stage = .waiting ∧ 0 < chunk ∧ slots ≤ 2 then
        some (t.launch window gated chunk slots)
      else none
  | .done id result =>
      if t.stage = .waiting then
        match t.air.find? fun w => w.id = id with
        | some w => if ∀ b ∈ result, b.length = w.len then some (t.finish w result) else none
        | none => none
      else none
  | .giveUp => if t.stage = .waiting then some { t with stage := .aborted .forfeit } else none

/-- `run_transfer`, with a plan and a client. -/
def Transfer.start (p : Plan) (info : RemoteNarinfo) (start end_ : ℕ) (c : Client) :
    Transfer where
  em := {
    spans := p.spans
    lits := p.lits
    emitPos := start
    end_ := end_
    full := decide (start = 0 ∧ end_ = info.narSize)
    narHash := info.narHash }
  client := c
  left := p.ranges

/-- The runs of `run_transfer` with a plan. -/
def transfer (sha256 : Bytes → NarHash) (window : ℕ) (p : Plan) (info : RemoteNarinfo)
    (start end_ : ℕ) : System Transfer Tick where
  init t := ∃ patience, t = .start p info start end_ { patience := patience }
  step := Transfer.step sha256 window

namespace Transfer

-- ================================================================= the crews

/-- The attempts a flight names are those in the air for it. -/
structure Crewed (t : Transfer) : Prop where
  flight : ∀ {off fl}, t.inflight.get off = some fl → fl.attempts ≠ []
  crew : ∀ {off fl}, t.inflight.get off = some fl →
    ∀ id, id ∈ fl.attempts ↔ ∃ w ∈ t.air, w.id = id ∧ w.off = off
  aboard : ∀ w ∈ t.air, ∃ fl, t.inflight.get w.off = some fl ∧ fl.len = w.len
  distinct : t.air.Pairwise fun w w' => w.id ≠ w'.id
  numbered : ∀ w ∈ t.air, w.id ≤ t.nextAttempt

variable {sha256 : Bytes → NarHash} {window : ℕ} {t t' : Transfer} {w : Attempt} {fl : Flight}

/-- Crews do not depend on the rest. -/
theorem Crewed.congr (h : t.Crewed) (hinflight : t'.inflight = t.inflight) (hair : t'.air = t.air)
    (hnext : t'.nextAttempt = t.nextAttempt) : t'.Crewed := by
  obtain ⟨flight, crew, aboard, distinct, numbered⟩ := h
  exact ⟨hinflight ▸ flight, fun hget => hair ▸ crew (hinflight ▸ hget),
    hair ▸ hinflight ▸ aboard, hair ▸ distinct, hair ▸ hnext ▸ numbered⟩

theorem Crewed.eq_of_id (h : t.Crewed) {w' : Attempt} (hw : w ∈ t.air) (hw' : w' ∈ t.air)
    (hid : w.id = w'.id) : w = w' := by
  by_contra hne
  have : Std.Symm fun w w' : Attempt => w.id ≠ w'.id := ⟨fun _ _ hne => hne.symm⟩
  exact h.distinct.forall hw hw' hne hid

theorem mem_nextIds {id slots : ℕ} :
    id ∈ t.nextIds slots ↔ t.nextAttempt < id ∧ id ≤ t.nextAttempt + slots := by
  rw [nextIds, List.mem_map]
  constructor
  · rintro ⟨i, hi, rfl⟩
    rw [List.mem_range] at hi
    omega
  · rintro ⟨hlo, hhi⟩
    exact ⟨id - t.nextAttempt - 1, List.mem_range.mpr (by omega), by omega⟩

theorem spawn_of_none {off : ℕ} (hnone : t.inflight.get off = none) (len slots : ℕ) :
    t.spawn off len slots = { t with
      inflight := t.inflight.put off ⟨t.nextIds slots, false, len⟩
      air := t.air ++ (t.nextIds slots).map fun id => ⟨id, off, len⟩
      nextAttempt := t.nextAttempt + slots } := by
  rw [spawn, hnone]
  rfl

/-- A flight where none was. -/
theorem Crewed.spawn (h : t.Crewed) {off len slots : ℕ} (hnone : t.inflight.get off = none)
    (hslots : 0 < slots) : (t.spawn off len slots).Crewed := by
  have hoff : ∀ w ∈ t.air, w.off ≠ off := by
    intro w hw heq
    obtain ⟨fl, hget, -⟩ := h.aboard w hw
    rw [heq, hnone] at hget
    cases hget
  rw [spawn_of_none hnone]
  refine ⟨fun {off' fl} hget => ?_, fun {off' fl} hget id => ?_, fun w hw => ?_, ?_, fun w hw => ?_⟩
  · rw [OrdMap.get_put] at hget
    split at hget
    next =>
      cases hget
      exact List.ne_nil_of_mem (mem_nextIds.mpr ⟨Nat.lt_succ_self _, by omega⟩)
    next => exact h.flight hget
  · rw [OrdMap.get_put] at hget
    simp only [List.mem_append, List.mem_map]
    split at hget
    next heq =>
      cases hget
      subst heq
      constructor
      · intro hid
        exact ⟨_, Or.inr ⟨id, hid, rfl⟩, rfl, rfl⟩
      · rintro ⟨w, hw | ⟨id, hid, rfl⟩, rfl, hwoff⟩
        · exact absurd hwoff (hoff w hw)
        · exact hid
    next hne =>
      rw [h.crew hget id]
      constructor
      · rintro ⟨w, hw, hwid⟩
        exact ⟨w, Or.inl hw, hwid⟩
      · rintro ⟨w, hw | ⟨id, -, rfl⟩, hwid, hwoff⟩
        · exact ⟨w, hw, hwid, hwoff⟩
        · exact absurd hwoff.symm hne
  · rcases List.mem_append.mp hw with hw | hw
    · obtain ⟨fl, hget, hlen⟩ := h.aboard w hw
      refine ⟨fl, ?_, hlen⟩
      rw [OrdMap.get_put, if_neg (hoff w hw)]
      exact hget
    · obtain ⟨id, -, rfl⟩ := List.mem_map.mp hw
      exact ⟨_, OrdMap.get_put_self _ _ _, rfl⟩
  · refine List.pairwise_append.mpr ⟨h.distinct, ?_, fun w hw w' hw' => ?_⟩
    · rw [List.pairwise_map, nextIds, List.pairwise_map]
      refine List.pairwise_lt_range.imp fun {i j} hij => ?_
      simp only
      omega
    · obtain ⟨id, hid, rfl⟩ := List.mem_map.mp hw'
      have := h.numbered w hw
      have := (mem_nextIds.mp hid).1
      simp only
      omega
  · rcases List.mem_append.mp hw with hw | hw
    · exact (h.numbered w hw).trans (Nat.le_add_right _ _)
    · obtain ⟨id, hid, rfl⟩ := List.mem_map.mp hw
      exact (mem_nextIds.mp hid).2

/-- What becomes of a flight one of whose attempts is retired. -/
def retired (t : Transfer) (w : Attempt) (fl : Flight) (delivered : Bool) : Transfer :=
  { t with
    air := t.air.filter fun w' => w'.id ≠ w.id
    inflight := t.inflight.set w.off
      (if (fl.retire w.id).attempts = [] then none
        else some { fl.retire w.id with delivered := delivered }) }

theorem Crewed.retired (h : t.Crewed) (hw : w ∈ t.air) (hget : t.inflight.get w.off = some fl)
    (delivered : Bool) : (t.retired w fl delivered).Crewed := by
  -- any other attempt of this flight still names it
  have hothers : ∀ w' ∈ t.air, w'.id ≠ w.id → w'.off = w.off →
      w'.id ∈ (fl.retire w.id).attempts := by
    intro w' hw' hne hoff
    refine List.mem_filter.mpr ⟨(h.crew hget _).mpr ⟨w', hw', rfl, hoff⟩, decide_eq_true hne⟩
  refine ⟨fun {off fl'} hget' => ?_, fun {off fl'} hget' id => ?_, fun w' hw' => ?_,
    h.distinct.sublist List.filter_sublist, fun w' hw' => h.numbered w' (List.mem_filter.mp hw').1⟩
  · rw [Transfer.retired, OrdMap.get_set] at hget'
    split at hget'
    next =>
      split at hget'
      next => cases hget'
      next hne =>
        cases hget'
        exact hne
    next => exact h.flight hget'
  · rw [Transfer.retired, OrdMap.get_set] at hget'
    simp only [Transfer.retired, List.mem_filter, decide_eq_true_eq]
    split at hget'
    next heq =>
      subst heq
      split at hget'
      next => cases hget'
      next =>
        cases hget'
        constructor
        · intro hid
          obtain ⟨hid, hne⟩ := List.mem_filter.mp hid
          obtain ⟨w', hw', rfl, hoff⟩ := (h.crew hget id).mp hid
          exact ⟨w', ⟨hw', of_decide_eq_true hne⟩, rfl, hoff⟩
        · rintro ⟨w', ⟨hw', hne⟩, rfl, hoff⟩
          exact hothers w' hw' hne hoff
    next hne =>
      rw [h.crew hget' id]
      constructor
      · rintro ⟨w', hw', hid, hoff⟩
        refine ⟨w', ⟨hw', fun heq => hne ?_⟩, hid, hoff⟩
        rw [← hoff, h.eq_of_id hw' hw heq]
      · rintro ⟨w', ⟨hw', -⟩, hid, hoff⟩
        exact ⟨w', hw', hid, hoff⟩
  · obtain ⟨hw', hne⟩ := List.mem_filter.mp hw'
    have hne := of_decide_eq_true hne
    obtain ⟨fl', hget', hlen⟩ := h.aboard w' hw'
    rw [Transfer.retired]
    by_cases hoff : w'.off = w.off
    · rw [hoff, hget] at hget'
      cases hget'
      have hmem := hothers w' hw' hne hoff
      refine ⟨{ fl.retire w.id with delivered := delivered }, ?_, hlen⟩
      rw [hoff, OrdMap.get_set_self, if_neg (List.ne_nil_of_mem hmem)]
    · refine ⟨fl', ?_, hlen⟩
      rw [OrdMap.get_set_ne _ _ hoff]
      exact hget'

-- ========================================================= what a step can do

/-- What becomes of a `Done` of a worker whose flight is known. -/
inductive Finished (t : Transfer) (w : Attempt) (fl : Flight) :
    Option Bytes → Transfer → Prop
  | wasted {b : Bytes} : fl.delivered = true →
      Finished t w fl (some b) { t.retired w fl true with failureStreak := 0 }
  | landed {b : Bytes} : fl.delivered = false →
      Finished t w fl (some b) { t.retired w fl true with
        em := { t.em with buffered := t.em.buffered.put w.off b }
        failureStreak := 0
        stage := .pumping
        landed := (w.off, w.len) :: t.landed }
  | requeued {streak : ℕ} {stage : Stage} : fl.delivered = false →
      (fl.retire w.id).attempts = [] → stage = .waiting ∨ stage = .aborted .streak →
      Finished t w fl none { t.retired w fl false with
        requeue := List.orderedInsert Sooner (w.off, w.len) t.requeue
        failureStreak := streak
        stage := stage }
  | failed {streak : ℕ} {stage : Stage} :
      fl.delivered = true ∨ (fl.retire w.id).attempts ≠ [] →
      stage = .waiting ∨ stage = .aborted .streak →
      Finished t w fl none { t.retired w fl fl.delivered with
        failureStreak := streak
        stage := stage }

theorem finished_finish (hget : t.inflight.get w.off = some fl) (result : Option Bytes) :
    t.Finished w fl result (t.finish w result) := by
  have hstage : ∀ n : ℕ, (if n ≥ MAX_FAILURE_STREAK then Stage.aborted .streak else .waiting)
      = .waiting ∨ (if n ≥ MAX_FAILURE_STREAK then Stage.aborted .streak else .waiting)
        = .aborted .streak := by
    intro n
    split
    · exact Or.inr rfl
    · exact Or.inl rfl
  -- the flight is dropped with its last attempt
  have hinflight : ∀ {fl' d}, { fl.retire w.id with delivered := d } = fl' →
      (bif !(fl.retire w.id).attempts.isEmpty then t.inflight.set w.off (some fl')
        else (t.inflight.set w.off (some fl')).erase w.off) = (t.retired w fl d).inflight := by
    rintro fl' d rfl
    rw [retired, OrdMap.erase, OrdMap.set_set]
    cases (fl.retire w.id).attempts with
    | nil => rfl
    | cons id ids => rfl
  have hretire : { fl.retire w.id with delivered := fl.delivered } = fl.retire w.id := rfl
  have hdelivered : (fl.retire w.id).delivered = fl.delivered := rfl
  unfold finish
  rw [hget]
  simp only [Option.map_some, Option.elim_some, OrdMap.set_set, hdelivered]
  cases result with
  | some b =>
      cases hd : fl.delivered with
      | true =>
          rw [hd] at hretire
          simp only [hinflight hretire]
          exact .wasted hd
      | false =>
          simp only [hinflight rfl]
          exact .landed hd
  | none =>
      simp only [hinflight hretire]
      by_cases hlast : fl.delivered = false ∧ (fl.retire w.id).attempts = []
      · obtain ⟨hd, hids⟩ := hlast
        simp only [hd, hids, List.isEmpty_nil, Bool.not_false, Bool.not_true, Bool.and_self,
          cond_true]
        exact .requeued hd hids (hstage _)
      · have hnot : (!fl.delivered && !!(fl.retire w.id).attempts.isEmpty) = false := by
          rw [← Bool.not_eq_true, Bool.and_eq_true, Bool.not_eq_true', Bool.not_not,
            List.isEmpty_iff]
          exact hlast
        simp only [hnot, cond_false]
        refine .failed ?_ (hstage _)
        rw [← Bool.not_eq_false, ← not_and_or]
        exact hlast

/-- What a step does. -/
inductive Stepped (sha256 : Bytes → NarHash) (window : ℕ) (t : Transfer) :
    Tick → Transfer → Prop
  | turned {r : Option (Except EmitEnd Pump)} {em : Emitter} {c : Client} :
      t.stage = .pumping → t.em.Turned sha256 t.client r em c →
      Stepped sha256 window t .turn (t.pumped em c r)
  | skipped {gated : Bool} {chunk slots : ℕ} {left : List (ℕ × ℕ)} {pos : ℕ} :
      t.stage = .waiting → (left, pos) = (t.left, t.rangePos) ∨
        (left, pos) = advance t.left t.rangePos →
      Stepped sha256 window t (.launch gated chunk slots)
        { t with left := left, rangePos := pos }
  | relaunched {chunk slots off l : ℕ} {rest : List (ℕ × ℕ)} :
      t.stage = .waiting → t.requeue = (off, l) :: rest → 0 < slots →
      Stepped sha256 window t (.launch false chunk slots)
        ({ t with requeue := rest }.spawn off l slots)
  | recarved {chunk slots off l : ℕ} {rest : List (ℕ × ℕ)} :
      t.stage = .waiting → t.requeue = (off, l) :: rest → 0 < slots → 0 < chunk →
      chunk * 2 < l →
      Stepped sha256 window t (.launch false chunk slots)
        ({ t with requeue :=
          List.orderedInsert Sooner (off + chunk, l - chunk) rest }.spawn off chunk slots)
  | carved {gated : Bool} {chunk slots pos : ℕ} {r : ℕ × ℕ} {rs : List (ℕ × ℕ)} :
      t.stage = .waiting → advance t.left t.rangePos = (r :: rs, pos) → 0 < slots → 0 < chunk →
      Stepped sha256 window t (.launch gated chunk slots)
        ({ t with left := r :: rs, rangePos := pos + min chunk (r.2 - pos) }.spawn (r.1 + pos)
          (min chunk (r.2 - pos)) slots)
  | finished {result : Option Bytes} {w : Attempt} {fl : Flight} {t' : Transfer} :
      t.stage = .waiting → w ∈ t.air → t.inflight.get w.off = some fl → fl.len = w.len →
      (∀ b ∈ result, b.length = w.len) → t.Finished w fl result t' →
      Stepped sha256 window t (.done w.id result) t'
  | gaveUp : t.stage = .waiting →
      Stepped sha256 window t .giveUp { t with stage := .aborted .forfeit }

theorem stepped_launch {gated : Bool} {chunk slots : ℕ} (hstage : t.stage = .waiting)
    (hchunk : 0 < chunk) :
    Stepped sha256 window t (.launch gated chunk slots) (t.launch window gated chunk slots) := by
  unfold launch
  split
  next off l rest hqueue =>
    split
    next => exact .skipped hstage (Or.inl rfl)
    next hgo =>
      have hslots : 0 < slots := Nat.pos_of_ne_zero fun h => hgo (Or.inr h)
      split
      next hlong => exact .recarved hstage hqueue hslots hchunk hlong
      next => exact .relaunched hstage hqueue hslots
  next =>
    split
    next pos hadv => exact .skipped hstage (Or.inr hadv.symm)
    next r rs pos hadv =>
      split
      next => exact .skipped hstage (Or.inr hadv.symm)
      next hgo =>
        have hslots : 0 < slots := Nat.pos_of_ne_zero fun h => hgo (Or.inr h)
        exact .carved hstage hadv hslots hchunk

/-- All that a step can do. -/
theorem step_cases {k : Tick} (hcrew : t.Crewed) (h : t.step sha256 window k = some t') :
    Stepped sha256 window t k t' := by
  cases k with
  | turn =>
      rw [step] at h
      split at h
      next hstage =>
        cases h
        exact .turned hstage (Emitter.turn_cases rfl)
      next => cases h
  | launch gated chunk slots =>
      rw [step] at h
      split at h
      next hgo =>
        cases h
        exact stepped_launch hgo.1 hgo.2.1
      next => cases h
  | done id result =>
      rw [step] at h
      split at h
      next hstage =>
        split at h
        next w hfind =>
          split at h
          next hlen =>
            cases h
            have hmem := List.mem_of_find?_eq_some hfind
            obtain ⟨fl, hget, hfl⟩ := hcrew.aboard w hmem
            have hid := List.find?_some hfind
            rw [decide_eq_true_eq] at hid
            rw [← hid]
            exact .finished hstage hmem hget hfl hlen (finished_finish hget result)
          next => cases h
        next => cases h
      next => cases h
  | giveUp =>
      rw [step] at h
      split at h
      next hstage =>
        cases h
        exact .gaveUp hstage
      next => cases h

/-- Crews are kept by every step that flies nothing where something
flies. -/
theorem Stepped.crewed {k : Tick} (hs : Stepped sha256 window t k t') (h : t.Crewed)
    (hfree : ∀ off, (∃ l, (off, l) ∈ t.requeue) ∨
      (∃ r rs pos, advance t.left t.rangePos = (r :: rs, pos) ∧ off = r.1 + pos) →
      t.inflight.get off = none) : t'.Crewed := by
  have hspawn : ∀ {t₁ : Transfer} {off len slots : ℕ}, t₁.inflight = t.inflight →
      t₁.air = t.air → t₁.nextAttempt = t.nextAttempt → t.inflight.get off = none → 0 < slots →
      (t₁.spawn off len slots).Crewed := by
    intro t₁ off len slots hinflight hair hnext hnone hslots
    rw [← hinflight] at hnone
    exact (h.congr hinflight hair hnext).spawn hnone hslots
  cases hs with
  | turned hstage hturned =>
      rename_i r em c
      rcases r with _ | (e | (_ | _ | why | _))
      all_goals exact h.congr rfl rfl rfl
  | skipped => exact h.congr rfl rfl rfl
  | relaunched hstage hqueue hslots =>
      have hnone := hfree _ (Or.inl ⟨_, hqueue ▸ List.mem_cons_self⟩)
      exact hspawn rfl rfl rfl hnone hslots
  | recarved hstage hqueue hslots =>
      have hnone := hfree _ (Or.inl ⟨_, hqueue ▸ List.mem_cons_self⟩)
      exact hspawn rfl rfl rfl hnone hslots
  | carved hstage hadv hslots =>
      have hnone := hfree _ (Or.inr ⟨_, _, _, hadv, rfl⟩)
      exact hspawn rfl rfl rfl hnone hslots
  | finished hstage hw hget hlen hresult hfin =>
      cases hfin with
      | wasted => exact (h.retired hw hget true).congr rfl rfl rfl
      | landed => exact (h.retired hw hget true).congr rfl rfl rfl
      | requeued => exact (h.retired hw hget false).congr rfl rfl rfl
      | failed => exact (h.retired hw hget _).congr rfl rfl rfl
  | gaveUp => exact h.congr rfl rfl rfl

end Transfer

end Narshare
