/-
A peer's slots: how many streams go to it at once, over every transfer
that draws on it.

# Under which lock

`PeerLimit` has three locks, and `observe` takes them one after another:
it closes the epoch, asks the governor, stores the answer. Another
completion may come between any two of these. `Slots` has every party:
the workers, each with the slot it holds and how far its `observe` is, and
the transfers' loops, which look for a slot and may go to sleep over it.
A step is what one party does under one lock.

# What is certain

The number in flight is the number of slots held (`Sound.inflight`), so a
release never goes below zero and nothing is left when the workers are
gone. Two epochs that close at about the same time may be stored in the
other order than the governor was asked in, so the limit is not always the
governor's last word, but it is one of its words (`Published`), and all of
them are within the bounds.

# Why no one sleeps for nothing

A loop registers for the wake-up before it looks. What makes room for it
afterwards is a slot's release or a limit that was raised, and in either
case the worker that did it has its notification still before it
(`Sound.starved`).
-/
import Narshare.Lib.Roster
import Narshare.Lib.System
import Narshare.Steer.Governor

namespace Narshare

-- ================================================================== the limit

/-- `EPOCH`, in seconds. -/
def EPOCH : ℚ := 1

/-- `Epoch` of fetch.rs. How long ago it `started` is told where it may
close. -/
structure OpenEpoch where
  bytes : ℕ := 0
  ok : ℕ := 0
  err : ℕ := 0
  blocked : Bool := false
deriving DecidableEq

/-- What the governor is told of it when `secs` have elapsed. -/
def OpenEpoch.measured (e : OpenEpoch) (secs : ℚ) : Epoch where
  throughput := e.bytes / secs
  pressure := if e.blocked ∧ e.bytes = 0 then .consumerBound else .network
  ok := e.ok
  errors := e.err

/-- `PeerLimit`, with its `LimState`. -/
structure PeerLimit where
  inflight : ℕ
  limit : ℕ
  governor : Governor
  epoch : OpenEpoch
deriving DecidableEq

namespace PeerLimit

/-- `PeerLimit::new`. -/
def new (max : ℕ) : PeerLimit :=
  let start := min 2 max
  { inflight := 0
    limit := start
    governor := Governor.new start 1 max
    epoch := {} }

/-- `try_acquire`. -/
def tryAcquire (l : PeerLimit) : Option PeerLimit :=
  if l.inflight < l.limit then some { l with inflight := l.inflight + 1 } else none

/-- `release`; below zero it panics. -/
def release (l : PeerLimit) : Option PeerLimit :=
  if l.inflight = 0 then none else some { l with inflight := l.inflight - 1 }

/-- `note_blocked`. -/
def noteBlocked (l : PeerLimit) : PeerLimit := { l with epoch := { l.epoch with blocked := true } }

/-- `observe`, up to the end of the epoch's lock, `secs` after the epoch
has started. -/
def fold (l : PeerLimit) (ok : Bool) (bytes : ℕ) (secs : ℚ) : PeerLimit × Option Epoch :=
  let e := if ok then { l.epoch with ok := l.epoch.ok + 1, bytes := l.epoch.bytes + bytes }
    else { l.epoch with err := l.epoch.err + 1 }
  if EPOCH ≤ secs then ({ l with epoch := {} }, some (e.measured secs))
  else ({ l with epoch := e }, none)

/-- `observe`, under the governor's lock. -/
def tell (l : PeerLimit) (e : Epoch) : PeerLimit × ℕ :=
  let governor := l.governor.observe e
  ({ l with governor := governor }, governor.streams)

end PeerLimit

-- ================================================================== the parties

/-- A worker that has a slot: it is fetching, has closed an epoch, has
been told a limit, is done with `observe`, or has dropped its slot and not
notified yet. -/
inductive Worker
  | fetching
  | closing (e : Epoch)
  | setting (limit : ℕ)
  | measured
  | released
deriving DecidableEq

/-- The loop of a transfer: it is not after a slot here; it is registered
and launches; it is starved. The second and third may have been notified
since they registered. -/
inductive LoopState
  | away
  | probing (woken : Bool)
  | starved (woken : Bool)
deriving DecidableEq

/-- `notify_waiters`, for one of them. -/
def LoopState.wake : LoopState → LoopState
  | .away => .away
  | .probing _ => .probing true
  | .starved _ => .starved true

/-- A peer's limit and all who use it; `told` keeps what the governor was
told. -/
structure Slots where
  peer : PeerLimit
  workers : List Worker := []
  loops : ℕ → LoopState := fun _ => .away
  told : List Epoch := []

/-- A loop comes round and registers, gets a slot, gets none, or goes on
without looking here; one of them is bound by its window; a worker's chunk
is done, and it goes on from there; another peer's slot is freed. -/
inductive SlotAct
  | register (t : ℕ)
  | acquire (t : ℕ)
  | starve (t : ℕ)
  | leave (t : ℕ)
  | block
  | done (i : ℕ) (ok : Bool) (bytes : ℕ) (secs : ℚ)
  | tell (i : ℕ)
  | store (i : ℕ)
  | release (i : ℕ)
  | notify (i : ℕ)
  | freed
deriving DecidableEq

namespace Slots

/-- All loops are notified. -/
def wakeAll (s : Slots) : Slots := { s with loops := fun t => (s.loops t).wake }

/-- The loop `t` is at `l`. -/
def setLoop (s : Slots) (t : ℕ) (l : LoopState) : Slots :=
  { s with loops := fun t' => if t' = t then l else s.loops t' }

/-- What one party does under one lock. -/
def step (s : Slots) : SlotAct → Option Slots
  | .register t => some (s.setLoop t (.probing false))
  | .acquire t =>
      match s.loops t, s.peer.tryAcquire with
      | .probing _, some peer => some { s with peer := peer, workers := s.workers ++ [.fetching] }
      | _, _ => none
  | .starve t =>
      match s.loops t, s.peer.tryAcquire with
      | .probing woken, none => some (s.setLoop t (.starved woken))
      | _, _ => none
  | .leave t => some (s.setLoop t .away)
  -- `has_idle_capacity` was looked at before, under another lock
  | .block => some { s with peer := s.peer.noteBlocked }
  | .done i ok bytes secs =>
      match s.workers[i]? with
      | some .fetching =>
          match s.peer.fold ok bytes secs with
          | (peer, none) => some { s with peer := peer, workers := s.workers.set i .measured }
          | (peer, some e) => some { s with peer := peer, workers := s.workers.set i (.closing e) }
      | _ => none
  | .tell i =>
      match s.workers[i]? with
      | some (.closing e) =>
          let (peer, limit) := s.peer.tell e
          some { s with
            peer := peer
            workers := s.workers.set i (.setting limit)
            told := s.told ++ [e] }
      | _ => none
  | .store i =>
      match s.workers[i]? with
      | some (.setting limit) =>
          some { s with
            peer := { s.peer with limit := limit }
            workers := s.workers.set i .measured }
      | _ => none
  -- `Slot::drop`; a worker may be aborted while it is fetching
  | .release i =>
      match s.workers[i]?, s.peer.release with
      | some .fetching, some peer =>
          some { s with peer := peer, workers := s.workers.set i .released }
      | some .measured, some peer =>
          some { s with peer := peer, workers := s.workers.set i .released }
      | _, _ => none
  | .notify i =>
      match s.workers[i]? with
      | some .released => some { s.wakeAll with workers := s.workers.eraseIdx i }
      | _ => none
  | .freed => some s.wakeAll

end Slots

/-- A peer's slots, of at most `max`, that no one has yet. -/
def Slots.start (max : ℕ) : Slots := { peer := PeerLimit.new max }

/-- The runs of all who use a peer. -/
def slots (max : ℕ) : System Slots SlotAct where
  init s := s = Slots.start max
  step := Slots.step

-- ============================================================= what is counted

/-- The slots a worker holds. -/
def Worker.slots : Worker → ℕ
  | .released => 0
  | _ => 1

/-- Of an epoch, the chunks that came or did not. -/
def Epoch.count (ok : Bool) (e : Epoch) : ℕ := if ok then e.ok else e.errors

/-- The chunks of an epoch that is closed and not told. -/
def Worker.count (ok : Bool) : Worker → ℕ
  | .closing e => e.count ok
  | _ => 0

def OpenEpoch.count (ok : Bool) (e : OpenEpoch) : ℕ := if ok then e.ok else e.err

/-- A chunk that came, or did not. -/
def SlotAct.counts (ok : Bool) : SlotAct → Bool
  | .done _ ok' _ _ => ok' == ok
  | _ => false

/-- All that came, or did not, wherever it is counted now. -/
def Slots.count (ok : Bool) (s : Slots) : ℕ :=
  (s.told.map (Epoch.count ok)).sum + (s.workers.map (Worker.count ok)).sum
    + s.peer.epoch.count ok

theorem OpenEpoch.count_measured (e : OpenEpoch) (secs : ℚ) (ok : Bool) :
    (e.measured secs).count ok = e.count ok := by
  cases ok with
  | true => rfl
  | false => rfl

/-- A chunk is counted in the open epoch, or in the one that it closes. -/
theorem PeerLimit.count_fold (l : PeerLimit) (ok : Bool) (bytes : ℕ) (secs : ℚ) (ok' : Bool) :
    ((l.fold ok bytes secs).2.map (Epoch.count ok')).getD 0
      + (l.fold ok bytes secs).1.epoch.count ok'
        = l.epoch.count ok' + (ok == ok').toNat := by
  have hempty : OpenEpoch.count ok' {} = 0 := by cases ok' <;> rfl
  unfold fold
  simp only
  split
  next =>
    simp only [Option.map_some, Option.getD_some, OpenEpoch.count_measured, hempty]
    cases ok <;> cases ok' <;> simp [OpenEpoch.count]
  next => cases ok <;> cases ok' <;> simp [OpenEpoch.count]

-- ================================================================= what holds

/-- A limit that the governor has named. -/
def Published (max : ℕ) (told : List Epoch) (n : ℕ) : Prop :=
  ∃ es, es <+: told ∧ n = ((Governor.new (min 2 max) 1 max).run es).streams

theorem Published.mem {max : ℕ} (hmax : 1 ≤ max) {told : List Epoch} {n : ℕ}
    (h : Published max told n) : 1 ≤ n ∧ n ≤ max := by
  obtain ⟨es, -, rfl⟩ := h
  exact ((Governor.ok_new (min 2 max) le_rfl hmax).run hmax es).streams_mem le_rfl

theorem Published.mono {max : ℕ} {told : List Epoch} {n : ℕ} (h : Published max told n)
    (e : Epoch) : Published max (told ++ [e]) n := by
  obtain ⟨es, hpre, rfl⟩ := h
  exact ⟨es, hpre.trans (List.prefix_append _ _), rfl⟩

/-- An epoch measured over long enough, and one that is told as bound by the
consumer has delivered nothing. -/
def Epoch.Measured (e : Epoch) : Prop :=
  ∃ (o : OpenEpoch) (secs : ℚ), EPOCH ≤ secs ∧ e = o.measured secs
    ∧ (e.pressure = .consumerBound → o.bytes = 0)

theorem OpenEpoch.measured_of_le (o : OpenEpoch) {secs : ℚ} (h : EPOCH ≤ secs) :
    (o.measured secs).Measured := by
  refine ⟨o, secs, h, rfl, fun hbound => ?_⟩
  rw [measured] at hbound
  simp only at hbound
  split at hbound
  next hheld => exact hheld.2
  next => cases hbound

namespace Slots

/-- No room since it was looked for, or someone who made some and has yet
to notify. -/
def Awaited (s : Slots) : Prop :=
  s.peer.limit ≤ s.peer.inflight ∨ ∃ w ∈ s.workers, w = .measured ∨ w = .released

/-- What every run keeps. -/
structure Sound (max : ℕ) (s : Slots) : Prop where
  inflight : s.peer.inflight = (s.workers.map Worker.slots).sum
  atMost : s.peer.inflight ≤ max
  governor : s.peer.governor = (Governor.new (min 2 max) 1 max).run s.told
  limit : Published max s.told s.peer.limit
  setting : ∀ n, .setting n ∈ s.workers → Published max s.told n
  measured : ∀ e, e ∈ s.told ∨ .closing e ∈ s.workers → e.Measured
  starved : ∀ t, s.loops t = .starved false → s.Awaited

variable {max : ℕ} {s s' : Slots} {a : SlotAct}

/-- A worker that goes on without having made room. -/
theorem Awaited.set {i : ℕ} {w w' : Worker} {peer : PeerLimit} (h : s.Awaited)
    (hw : s.workers[i]? = some w) (hne : w ≠ .measured ∧ w ≠ .released)
    (hlimit : peer.limit = s.peer.limit) (hinflight : peer.inflight = s.peer.inflight) :
    Awaited { s with peer := peer, workers := s.workers.set i w' } := by
  rcases h with hfull | ⟨v, hv, hpends⟩
  · exact Or.inl (by rw [hlimit, hinflight]; exact hfull)
  · refine Or.inr ⟨v, mem_set_of_ne hw hv ?_, hpends⟩
    rintro rfl
    exact hpends.elim hne.1 hne.2

/-- Folding a chunk in leaves the slots alone, and what it closes was
measured. -/
theorem fold_spec (l : PeerLimit) (ok : Bool) (bytes : ℕ) (secs : ℚ) :
    (l.fold ok bytes secs).1.inflight = l.inflight
      ∧ (l.fold ok bytes secs).1.limit = l.limit
      ∧ (l.fold ok bytes secs).1.governor = l.governor
      ∧ ∀ e, (l.fold ok bytes secs).2 = some e → e.Measured := by
  unfold PeerLimit.fold
  simp only
  split
  next hlong =>
    refine ⟨rfl, rfl, rfl, fun e h => ?_⟩
    cases h
    exact OpenEpoch.measured_of_le _ hlong
  next => exact ⟨rfl, rfl, rfl, fun e h => by cases h⟩

/-- Nothing but the loops has changed, and they only to look or to be
woken. -/
theorem Sound.congr_loops (h : s.Sound max) {loops : ℕ → LoopState}
    (hloops : ∀ t, loops t = .starved false → s.Awaited) :
    Sound max { s with loops := loops } :=
  ⟨h.inflight, h.atMost, h.governor, h.limit, h.setting, h.measured, fun t ht => hloops t ht⟩

theorem Sound.setLoop (h : s.Sound max) {t : ℕ} {l : LoopState}
    (hl : l = .starved false → s.Awaited) : (s.setLoop t l).Sound max := by
  refine h.congr_loops fun t' ht => ?_
  split at ht
  next => exact hl ht
  next => exact h.starved t' ht

theorem wake_ne_starved (l : LoopState) : l.wake ≠ .starved false := by
  cases l with
  | away => exact fun h => by cases h
  | probing _ => exact fun h => by cases h
  | starved _ => exact fun h => by cases h

/-- The workers but one are as they were, and it holds as much. -/
theorem Sound.set (h : s.Sound max) {i : ℕ} {w w' : Worker} {peer : PeerLimit}
    {told : List Epoch} (hw : s.workers[i]? = some w) (hslots : w'.slots = w.slots)
    (hne : w ≠ .measured ∧ w ≠ .released)
    (hpeer : peer.inflight = s.peer.inflight ∧ peer.limit = s.peer.limit)
    (hgovernor : peer.governor = (Governor.new (min 2 max) 1 max).run told)
    (htold : ∀ n, Published max s.told n → Published max told n)
    (hsetting : ∀ n, w' = .setting n → Published max told n)
    (hmeasured : ∀ e, e ∈ told ∨ w' = .closing e → e.Measured) :
    Sound max { s with peer := peer, workers := s.workers.set i w', told := told } := by
  obtain ⟨hinflight, hlimit⟩ := hpeer
  refine ⟨?_, ?_, hgovernor, ?_, fun n hn => ?_, fun e he => ?_, fun t ht => ?_⟩
  · have hsum := sum_map_set Worker.slots hw w'
    show peer.inflight = ((s.workers.set i w').map Worker.slots).sum
    rw [hinflight, h.inflight]
    omega
  · exact hinflight.trans_le h.atMost
  · show Published max told peer.limit
    rw [hlimit]
    exact htold _ h.limit
  · rcases List.mem_or_eq_of_mem_set hn with hn | hn
    · exact htold _ (h.setting n hn)
    · exact hsetting n hn.symm
  · rcases he with he | he
    · exact hmeasured e (Or.inl he)
    · rcases List.mem_or_eq_of_mem_set he with he | he
      · exact h.measured e (Or.inr he)
      · exact hmeasured e (Or.inr he.symm)
  · exact (h.starved t ht).set hw hne hlimit hinflight

theorem Sound.starve (h : s.Sound max) {t : ℕ} (hs : s.step (.starve t) = some s') :
    s'.Sound max := by
  rw [Slots.step] at hs
  split at hs
  next woken hloop hfull =>
    cases hs
    refine h.setLoop fun _ => Or.inl ?_
    rw [PeerLimit.tryAcquire] at hfull
    split at hfull
    next => cases hfull
    next hlt => exact not_lt.mp hlt
  next => cases hs

theorem Sound.acquire (h : s.Sound max) (hmax : 1 ≤ max) {t : ℕ}
    (hs : s.step (.acquire t) = some s') : s'.Sound max := by
  rw [Slots.step] at hs
  split at hs
  next woken peer hloop hroom =>
    cases hs
    rw [PeerLimit.tryAcquire] at hroom
    split at hroom
    next hlt =>
      cases hroom
      refine ⟨?_, ?_, h.governor, h.limit, fun n hn => ?_, fun e he => ?_, fun t ht => ?_⟩
      · show s.peer.inflight + 1 = ((s.workers ++ [Worker.fetching]).map Worker.slots).sum
        rw [List.map_append, List.sum_append, h.inflight]
        rfl
      · exact Nat.succ_le_of_lt (hlt.trans_le (h.limit.mem hmax).2)
      · rcases List.mem_append.mp hn with hn | hn
        · exact h.setting n hn
        · cases List.mem_singleton.mp hn
      · rcases he with he | he
        · exact h.measured e (Or.inl he)
        · rcases List.mem_append.mp he with he | he
          · exact h.measured e (Or.inr he)
          · cases List.mem_singleton.mp he
      · rcases h.starved t ht with hfull | ⟨w, hw, hpends⟩
        · exact absurd hlt (not_lt.mpr hfull)
        · exact Or.inr ⟨w, List.mem_append_left _ hw, hpends⟩
    next => cases hroom
  next => cases hs

/-- A chunk goes into the open epoch, or closes it. -/
theorem Sound.done (h : s.Sound max) {i bytes : ℕ} {ok : Bool} {secs : ℚ}
    (hs : s.step (.done i ok bytes secs) = some s') : s'.Sound max := by
  rw [Slots.step] at hs
  split at hs
  next hw =>
    obtain ⟨hinflight, hlimit, hgovernor, hmeasured⟩ := fold_spec s.peer ok bytes secs
    have hlive : Worker.fetching ≠ .measured ∧ Worker.fetching ≠ .released :=
      ⟨(fun h => by cases h), fun h => by cases h⟩
    split at hs
    next peer hfold =>
      cases hs
      rw [hfold] at hinflight hlimit hgovernor
      refine h.set hw rfl hlive ⟨hinflight, hlimit⟩ (hgovernor.trans h.governor)
        (fun n hn => hn) (fun n h => by cases h) fun e he => ?_
      rcases he with he | he
      · exact h.measured e (Or.inl he)
      · cases he
    next peer e hfold =>
      cases hs
      rw [hfold] at hinflight hlimit hgovernor hmeasured
      refine h.set hw rfl hlive ⟨hinflight, hlimit⟩ (hgovernor.trans h.governor)
        (fun n hn => hn) (fun n h => by cases h) fun e' he => ?_
      rcases he with he | he
      · exact h.measured e' (Or.inl he)
      · cases he
        exact hmeasured e rfl
  next => cases hs

/-- The governor is told, and the worker has the limit to store. -/
theorem Sound.tell (h : s.Sound max) {i : ℕ} (hs : s.step (.tell i) = some s') :
    s'.Sound max := by
  rw [Slots.step] at hs
  split at hs
  next e hw =>
    cases hs
    have hgovernor : s.peer.governor.observe e
        = (Governor.new (min 2 max) 1 max).run (s.told ++ [e]) := by
      rw [Governor.run_concat, ← h.governor]
    refine h.set hw rfl ⟨(fun h => by cases h), fun h => by cases h⟩ ⟨rfl, rfl⟩ hgovernor
      (fun n hn => hn.mono e) (fun n hn => ?_) fun e' he => ?_
    · cases hn
      exact ⟨_, List.prefix_rfl, congrArg Governor.streams hgovernor⟩
    · rcases he with he | he
      · rcases List.mem_append.mp he with he | he
        · exact h.measured e' (Or.inl he)
        · cases List.mem_singleton.mp he
          exact h.measured e (Or.inr (List.mem_of_getElem? hw))
      · cases he
  next => cases hs

/-- The limit stored is one the governor has named, though perhaps not the
last. -/
theorem Sound.store (h : s.Sound max) {i : ℕ} (hs : s.step (.store i) = some s') :
    s'.Sound max := by
  rw [Slots.step] at hs
  split at hs
  next n hw =>
    cases hs
    have hnew := h.setting n (List.mem_of_getElem? hw)
    have hset : Sound max { s with workers := s.workers.set i .measured } :=
      h.set hw rfl ⟨(fun h => by cases h), fun h => by cases h⟩ ⟨rfl, rfl⟩
        h.governor (fun n hn => hn) (fun n h => by cases h) fun e he =>
          h.measured e (he.imp_right fun h => by cases h)
    -- it may have made room, but will notify
    exact ⟨hset.inflight, hset.atMost, hset.governor, hnew, hset.setting, hset.measured,
      fun _ _ => Or.inr ⟨.measured, mem_set_self hw, Or.inl rfl⟩⟩
  next => cases hs

/-- A worker gives its slot back, and has yet to notify. -/
theorem Sound.free (h : s.Sound max) {i : ℕ} {w : Worker} {peer : PeerLimit}
    (hw : s.workers[i]? = some w) (hslots : w.slots = 1) (hrelease : s.peer.release = some peer) :
    Sound max { s with peer := peer, workers := s.workers.set i .released } := by
  rw [PeerLimit.release] at hrelease
  split at hrelease
  next => cases hrelease
  next hpos =>
    cases hrelease
    have hsum := sum_map_set Worker.slots hw .released
    rw [hslots] at hsum
    refine ⟨?_, (Nat.sub_le _ _).trans h.atMost, h.governor, h.limit, fun n hn => ?_,
      fun e he => ?_, fun _ _ => Or.inr ⟨.released, mem_set_self hw, Or.inr rfl⟩⟩
    · show s.peer.inflight - 1 = ((s.workers.set i .released).map Worker.slots).sum
      have hzero : Worker.slots .released = 0 := rfl
      rw [h.inflight]
      omega
    · rcases List.mem_or_eq_of_mem_set hn with hn | hn
      · exact h.setting n hn
      · cases hn
    · rcases he with he | he
      · exact h.measured e (Or.inl he)
      · rcases List.mem_or_eq_of_mem_set he with he | he
        · exact h.measured e (Or.inr he)
        · cases he

theorem Sound.notify (h : s.Sound max) {i : ℕ} (hs : s.step (.notify i) = some s') :
    s'.Sound max := by
  rw [Slots.step] at hs
  split at hs
  next hw =>
    cases hs
    refine ⟨?_, h.atMost, h.governor, h.limit,
      fun n hn => h.setting n (List.mem_of_mem_eraseIdx hn), fun e he =>
        h.measured e (he.imp_right List.mem_of_mem_eraseIdx), fun t ht =>
          absurd ht (wake_ne_starved _)⟩
    show s.peer.inflight = ((s.workers.eraseIdx i).map Worker.slots).sum
    have hsum := sum_map_eraseIdx Worker.slots hw
    have hzero : Worker.slots .released = 0 := rfl
    rw [h.inflight]
    omega
  next => cases hs

theorem Sound.step (h : s.Sound max) (hmax : 1 ≤ max) (hs : s.step a = some s') :
    s'.Sound max := by
  cases a with
  | register t =>
      cases hs
      exact h.setLoop fun h => by cases h
  | acquire t => exact h.acquire hmax hs
  | starve t => exact h.starve hs
  | leave t =>
      cases hs
      exact h.setLoop fun h => by cases h
  | block =>
      cases hs
      exact ⟨h.inflight, h.atMost, h.governor, h.limit, h.setting, h.measured, h.starved⟩
  | done i ok bytes secs => exact h.done hs
  | tell i => exact h.tell hs
  | store i => exact h.store hs
  | release i =>
      rw [Slots.step] at hs
      split at hs
      next peer hw hrelease =>
        cases hs
        exact h.free hw rfl hrelease
      next peer hw hrelease =>
        cases hs
        exact h.free hw rfl hrelease
      next => cases hs
  | notify i => exact h.notify hs
  | freed =>
      cases hs
      exact h.congr_loops fun t ht => absurd ht (wake_ne_starved _)

-- =============================================================== each chunk once

/-- What a worker counts goes with it, and what it leaves stays. -/
theorem count_set {i : ℕ} {w : Worker} (hw : s.workers[i]? = some w) (ok : Bool) (w' : Worker) :
    ((s.workers.set i w').map (Worker.count ok)).sum + w.count ok
      = (s.workers.map (Worker.count ok)).sum + w'.count ok :=
  sum_map_set _ hw w'

theorem count_acquire (ok : Bool) {t : ℕ} (hs : s.step (.acquire t) = some s') :
    s'.count ok = s.count ok := by
  rw [Slots.step] at hs
  split at hs
  next woken peer hloop hroom =>
    cases hs
    rw [PeerLimit.tryAcquire] at hroom
    split at hroom
    next =>
      cases hroom
      simp only [count, List.map_append, List.map_singleton, List.sum_append,
        List.sum_singleton, Worker.count, Nat.add_zero]
    next => cases hroom
  next => cases hs

/-- A chunk that is done is counted: in the open epoch or the one closed. -/
theorem count_done (ok : Bool) {i bytes : ℕ} {ok' : Bool} {secs : ℚ}
    (hs : s.step (.done i ok' bytes secs) = some s') :
    s'.count ok = s.count ok + (ok' == ok).toNat := by
  rw [Slots.step] at hs
  split at hs
  next hw =>
    have hfold := s.peer.count_fold ok' bytes secs ok
    split at hs
    next peer heq =>
      cases hs
      have hsame := count_set hw ok .measured
      rw [heq] at hfold
      simp only [Option.map_none, Option.getD_none, Worker.count] at hfold hsame
      simp only [count]
      omega
    next peer e heq =>
      cases hs
      have hsame := count_set hw ok (.closing e)
      rw [heq] at hfold
      simp only [Option.map_some, Option.getD_some, Worker.count] at hfold hsame
      simp only [count]
      omega
  next => cases hs

/-- An epoch is told, and its worker has it no more. -/
theorem count_tell (ok : Bool) {i : ℕ} (hs : s.step (.tell i) = some s') :
    s'.count ok = s.count ok := by
  rw [Slots.step] at hs
  split at hs
  next e hw =>
    cases hs
    have hsame := count_set hw ok (.setting (s.peer.governor.observe e).streams)
    simp only [Worker.count] at hsame
    simp only [count, List.map_append, List.map_singleton, List.sum_append, List.sum_singleton]
    omega
  next => cases hs

theorem count_store (ok : Bool) {i : ℕ} (hs : s.step (.store i) = some s') :
    s'.count ok = s.count ok := by
  rw [Slots.step] at hs
  split at hs
  next n hw =>
    cases hs
    have hsame := count_set hw ok .measured
    simp only [Worker.count] at hsame
    simp only [count]
    omega
  next => cases hs

theorem count_free (ok : Bool) {i : ℕ} {w : Worker} {peer : PeerLimit}
    (hw : s.workers[i]? = some w) (hzero : w.count ok = 0) (hrelease : s.peer.release = some peer) :
    count ok { s with peer := peer, workers := s.workers.set i .released } = s.count ok := by
  rw [PeerLimit.release] at hrelease
  split at hrelease
  next => cases hrelease
  next =>
    cases hrelease
    have hsame := count_set hw ok .released
    rw [hzero] at hsame
    simp only [Worker.count] at hsame
    simp only [count]
    omega

theorem count_notify (ok : Bool) {i : ℕ} (hs : s.step (.notify i) = some s') :
    s'.count ok = s.count ok := by
  rw [Slots.step] at hs
  split at hs
  next hw =>
    cases hs
    have hsame := sum_map_eraseIdx (Worker.count ok) hw
    simp only [Worker.count] at hsame
    simp only [count, wakeAll]
    omega
  next => cases hs

/-- Each chunk is counted once. -/
theorem count_step (ok : Bool) (hs : s.step a = some s') :
    s'.count ok = s.count ok + (a.counts ok).toNat := by
  cases a with
  | register t =>
      cases hs
      rfl
  | acquire t => exact count_acquire ok hs
  | starve t =>
      rw [Slots.step] at hs
      split at hs
      next =>
        cases hs
        rfl
      next => cases hs
  | leave t =>
      cases hs
      rfl
  | block =>
      cases hs
      cases ok with
      | true => rfl
      | false => rfl
  | done i ok' bytes secs => exact count_done ok hs
  | tell i => exact count_tell ok hs
  | store i => exact count_store ok hs
  | release i =>
      rw [Slots.step] at hs
      split at hs
      next peer hw hrelease =>
        cases hs
        exact count_free ok hw rfl hrelease
      next peer hw hrelease =>
        cases hs
        exact count_free ok hw rfl hrelease
      next => cases hs
  | notify i => exact count_notify ok hs
  | freed =>
      cases hs
      rfl

theorem streams_new {start max : ℕ} (hstart : 1 ≤ start) (hmax : start ≤ max) :
    (Governor.new start 1 max).streams = start := by
  have hpos : 1 ≤ max := hstart.trans hmax
  have hlimit : (Governor.new start 1 max).limit = start := by
    have hone : (1 : ℚ) ≤ start := Nat.one_le_cast.mpr hstart
    have hmost : (1 : ℚ) ≤ max := Nat.one_le_cast.mpr hpos
    have hle : (start : ℚ) ≤ max := Nat.cast_le.mpr hmax
    unfold Governor.new clamp
    simp only [Nat.max_self, Nat.cast_one]
    rw [sup_eq_left.mpr hmost, min_eq_left hle, max_eq_right hone]
  have heq := (Governor.ok_new start le_rfl hpos).streams_eq le_rfl
  rw [hlimit, roundAway_natCast] at heq
  exact Int.ofNat.inj heq

theorem sound_start (hmax : 1 ≤ max) : (start max).Sound max := by
  have hlimit : Published max [] (min 2 max) :=
    ⟨[], List.prefix_rfl, (streams_new (by omega) (min_le_right _ _)).symm⟩
  exact ⟨rfl, Nat.zero_le _, rfl, hlimit, fun n hn => absurd hn List.not_mem_nil,
    fun e he => absurd he (not_or.mpr ⟨List.not_mem_nil, List.not_mem_nil⟩),
    fun t ht => absurd ht fun h => by cases h⟩

theorem sound_of_run (hmax : 1 ≤ max) {as : List SlotAct}
    (hrun : (slots max).run (start max) as = some s) : s.Sound max :=
  ((System.Reach.start rfl).run hrun).invariant (I := fun s => s.Sound max)
    (fun _ hinit => hinit ▸ sound_start hmax) fun _ _ _ _ hold hstep => hold.step hmax hstep

theorem count_run (ok : Bool) {as : List SlotAct} (hrun : (slots max).run s as = some s') :
    s'.count ok = s.count ok + as.countP (SlotAct.counts ok) := by
  induction as generalizing s with
  | nil =>
      cases hrun
      rfl
  | cons a as ih =>
      obtain ⟨s₁, hstep, hrest⟩ := Option.bind_eq_some_iff.mp hrun
      rw [ih hrest, count_step ok hstep, List.countP_cons]
      cases SlotAct.counts ok a with
      | true =>
          simp only [Bool.toNat_true, if_true]
          omega
      | false => rfl

/-- What a worker does next. -/
def next (i : ℕ) : Worker → SlotAct
  | .fetching => .done i true 0 0
  | .closing _ => .tell i
  | .setting _ => .store i
  | .measured => .release i
  | .released => .notify i

/-- A slot that is held can be released. -/
theorem Sound.release (h : s.Sound max) {i : ℕ} {w : Worker} (hw : s.workers[i]? = some w)
    (hslots : w.slots = 1) : s.peer.release = some { s.peer with
      inflight := s.peer.inflight - 1 } := by
  have hsum := sum_map_set Worker.slots hw .released
  have hzero : Worker.slots .released = 0 := rfl
  have hinflight := h.inflight
  exact if_neg (by omega)

/-- Every worker can go on, and one that fetches can be aborted. -/
theorem Sound.goesOn (h : s.Sound max) {i : ℕ} {w : Worker} (hw : s.workers[i]? = some w) :
    (s.step (next i w)).isSome = true
      ∧ (w = .fetching → (s.step (.release i)).isSome = true) := by
  cases w with
  | fetching =>
      refine ⟨?_, fun _ => ?_⟩
      · rw [next, Slots.step, hw]
        rfl
      · rw [Slots.step, hw, h.release hw rfl]
        rfl
  | closing e =>
      refine ⟨?_, fun h => by cases h⟩
      rw [next, Slots.step, hw]
      rfl
  | setting n =>
      refine ⟨?_, fun h => by cases h⟩
      rw [next, Slots.step, hw]
      rfl
  | measured =>
      refine ⟨?_, fun h => by cases h⟩
      rw [next, Slots.step, hw, h.release hw rfl]
      rfl
  | released =>
      refine ⟨?_, fun h => by cases h⟩
      rw [next, Slots.step, hw]
      rfl

/-- Whoever sleeps has someone to wake him. -/
theorem Sound.attended (h : s.Sound max) (hmax : 1 ≤ max) {t : ℕ}
    (ht : s.loops t = .starved false) : s.workers ≠ [] := by
  intro hnil
  rcases h.starved t ht with hfull | ⟨w, hw, -⟩
  · have hinflight := h.inflight
    have hpos := (h.limit.mem hmax).1
    rw [hnil, List.map_nil, List.sum_nil] at hinflight
    omega
  · rw [hnil] at hw
    cases hw

/-- What a run `as` has come to. -/
structure Exact (max : ℕ) (as : List SlotAct) (s : Slots) : Prop where
  inflight : s.peer.inflight = (s.workers.map Worker.slots).sum
  within : s.peer.inflight ≤ max ∧ 1 ≤ s.peer.limit ∧ s.peer.limit ≤ max
  limit : Published max s.told s.peer.limit
  governor : s.peer.governor = (Governor.new (min 2 max) 1 max).run s.told
  counted : ∀ ok, s.count ok = as.countP (SlotAct.counts ok)
  measured : ∀ e ∈ s.told, e.Measured
  goesOn : ∀ i w, s.workers[i]? = some w → (s.step (next i w)).isSome = true
    ∧ (w = .fetching → (s.step (.release i)).isSome = true)
  starved : ∀ t, s.loops t = .starved false → s.Awaited ∧ s.workers ≠ []

end Slots

/-- However the workers, the loops and the locks interleave: never more
than `max` in flight, and what is in flight is held; the governor is told
of every chunk once; and no loop sleeps over a peer that has room, unless
the one who made it is about to wake it. -/
theorem slots_exact {max : ℕ} (hmax : 1 ≤ max) {as : List SlotAct} {s : Slots}
    (hrun : (slots max).run (Slots.start max) as = some s) : s.Exact max as := by
  have hsound := Slots.sound_of_run hmax hrun
  have hzero : ∀ ok, (Slots.start max).count ok = 0 := fun ok => by cases ok <;> rfl
  refine ⟨hsound.inflight, ⟨hsound.atMost, hsound.limit.mem hmax⟩, hsound.limit,
    hsound.governor, fun ok => ?_, fun e he => hsound.measured e (Or.inl he),
    fun i w hw => hsound.goesOn hw, fun t ht => ⟨hsound.starved t ht, hsound.attended hmax ht⟩⟩
  rw [Slots.count_run ok hrun, hzero, Nat.zero_add]

/-- Two slots are taken, another loop sleeps, and the first chunk that is
done closes an epoch, frees its slot and wakes it. -/
theorem slots_exact_woken :
    ∃ as, ∃ s : Slots, s.Exact 4 as ∧ s.loops 1 = .starved true ∧ s.peer.inflight = 1
      ∧ s.told.length = 1 := by
  have hrun : ((slots 4).run (Slots.start 4) [.register 0, .acquire 0, .register 1, .acquire 0,
      .starve 1, .done 0 true 4096 2, .tell 0, .store 0, .release 0, .notify 0]).map
        (fun s => (s.loops 1, s.peer.inflight, s.told.length)) = some (.starved true, 1, 1) := by
    decide +kernel
  obtain ⟨s, hs, hat⟩ := Option.map_eq_some_iff.mp hrun
  rw [Prod.mk.injEq, Prod.mk.injEq] at hat
  exact ⟨_, s, slots_exact (by decide) hs, hat⟩

end Narshare
