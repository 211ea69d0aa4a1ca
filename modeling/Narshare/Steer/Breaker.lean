/-
A peer's circuit breaker: which of the calls that go wrong count, and
when a peer is left alone.

# What counts

Three calls go out to a peer. A chunk counts against it when the
connection is refused, it answers 5xx, the body dies or overruns, or the
deadline comes first; a chunk that is whole counts for it, and everything
else (a 410 for what is gone, a frame that does not decode, a length that
is not the one asked for) does not count at all. A sync round counts
either way. A manifest counts only when the connection is refused.

# What a run comes to

The breaker keeps three numbers, and after any run they say no more than
the peer's own history: the strikes since its last `ok`, when the last of
them was, and how often it opened. `Recalls` is that, kept by every call;
calls to other peers do not touch it. While fewer strikes than the
threshold are in a row the peer is available; from then on each strike,
half-open or not, closes it for the whole cooldown, until an `ok`.
-/
import Narshare.Nar.Request
import Mathlib.Data.List.DropRight

namespace Narshare

-- ================================================================== the breaker

/-- `u32::MAX`. -/
def U32_MAX : ℕ := 2 ^ 32 - 1

/-- `Health` of peers.rs. -/
structure Health where
  strikes : ℕ := 0
  openUntil : Option ℕ := none
  opens : ℕ := 0
deriving DecidableEq

/-- What `record_strike` writes into the log. -/
inductive Said
  | warn
  | debug
deriving DecidableEq

/-- `BreakerStatus`; times are in nanoseconds. -/
structure BreakerStatus where
  strikes : ℕ
  openMsRemaining : Option ℕ
  opensTotal : ℕ
deriving DecidableEq

namespace Health

/-- `available`. -/
def available (h : Health) (now : ℕ) : Bool := h.openUntil.all fun t => decide (t ≤ now)

/-- `record_ok`. -/
def recordOk (h : Health) : Health := { h with strikes := 0, openUntil := none }

/-- `record_strike`, which reads the clock at `check` and again at `now`. -/
def recordStrike (threshold cooldown check now : ℕ) (h : Health) : Health × Option Said :=
  let strikes := min (h.strikes + 1) U32_MAX
  if threshold ≤ strikes then
    ({ strikes
       openUntil := some (now + cooldown)
       opens := if h.available check then h.opens + 1 else h.opens },
      some (if strikes = threshold then .warn else .debug))
  else ({ h with strikes }, none)

/-- `breaker_status`. -/
def breakerStatus (h : Health) (now : ℕ) : BreakerStatus where
  strikes := h.strikes
  openMsRemaining := (h.openUntil.filter fun u => decide (now < u)).map fun u =>
    (u - now) / 1000000
  opensTotal := h.opens

/-- It has a time left exactly while it is not available. -/
theorem isSome_openMsRemaining (h : Health) (now : ℕ) :
    (h.breakerStatus now).openMsRemaining.isSome = true ↔ h.available now = false := by
  unfold breakerStatus available
  cases h.openUntil with
  | none => simp
  | some u =>
      by_cases hlt : now < u
      · simp [Option.filter, hlt]
      · simp [Option.filter, hlt]

end Health

-- ================================================================== the calls

/-- A response, as far as the calls look at it. -/
structure Answered where
  status : ℕ
  encoded : Bool := false
  contentLength : Option ℕ := none
  body : List (Option Bytes) := []
deriving DecidableEq

/-- What `send` comes to: `refused` is an error for which `is_connect`
holds, `failed` any other (also a url that does not join). -/
inductive Sent
  | refused
  | failed
  | answered (resp : Answered)
deriving DecidableEq

/-- How a call counts for the peer. -/
inductive Grade
  | ok
  | strike
deriving DecidableEq

/-- `SYNC_CAP`, `SYNC_RAW_CAP` and `MANIFEST_CAP`. -/
def SYNC_CAP : ℕ := 64 * 2 ^ 20

@[inherit_doc SYNC_CAP]
def SYNC_RAW_CAP : ℕ := 256 * 2 ^ 20

@[inherit_doc SYNC_CAP]
def MANIFEST_CAP : ℕ := 256 * 2 ^ 20

section Calls

/-- `fetch_range`, past the request: what it returns and how the peer is
graded. `decode` is zstd's, of one frame. -/
def fetchRange (decode : Bytes → Option Bytes) (want : ℕ) : Sent → Option Bytes × Option Grade
  | .refused => (none, some .strike)
  | .failed => (none, none)
  | .answered resp =>
      if resp.status = 410 then (none, none)
      else if 500 ≤ resp.status ∧ resp.status < 600 then (none, some .strike)
      else if resp.status ≠ 206 then (none, none)
      else
        let wireCap := if resp.encoded then want + WIRE_SLACK else want
        match readCapped resp.contentLength wireCap resp.body with
        | none => (none, some .strike)
        | some body =>
            match if resp.encoded then decode body else some body with
            | none => (none, none)
            | some bytes =>
                if bytes.length = want then (some bytes, some .ok) else (none, none)

/-- `is_success`. -/
def Answered.success (resp : Answered) : Bool := decide (200 ≤ resp.status ∧ resp.status < 300)

variable {R M : Type}

/-- `sync_pull`; `none` is `SYNC_TIMEOUT`. `parse` is the decoding of the
message. -/
def syncPull (decode : Bytes → Option Bytes) (parse : Bytes → Option R) :
    Option Sent → Option (R × ℕ) × Option Grade
  | some (.answered resp) =>
      let decoded := if resp.success then
          (readCapped resp.contentLength SYNC_CAP resp.body).bind fun body =>
            ((decode body).filter fun raw => decide (raw.length ≤ SYNC_RAW_CAP)).bind fun raw =>
              (parse raw).map fun r => (r, body.length)
        else none
      (decoded, some (if decoded.isSome then .ok else .strike))
  | _ => (none, some .strike)

/-- `fetch_manifest`; `none` is the cap on the whole exchange. `json` is
serde's, `supported` the test on the version. -/
def fetchManifest (json : Bytes → Option M) (supported : M → Bool) :
    Option Sent → Option M × Option Grade
  | some .refused => (none, some .strike)
  | some (.answered resp) =>
      (if resp.success then
          ((readCapped resp.contentLength MANIFEST_CAP resp.body).bind json).filter supported
        else none,
        none)
  | _ => (none, none)

/-- A call that was made and what came of it; a chunk for which `sent` is
`none` met its deadline (`spawn_attempt`). -/
inductive Asked
  | chunk (want : ℕ) (sent : Option Sent)
  | sync (sent : Option Sent)
  | manifest (sent : Option Sent)
deriving DecidableEq

/-- The decoders that the calls rely on. -/
structure Codecs (R M : Type) where
  frame : Bytes → Option Bytes
  response : Bytes → Option R
  json : Bytes → Option M
  supported : M → Bool

/-- How a call is graded. -/
def Asked.grade (c : Codecs R M) : Asked → Option Grade
  | .chunk _ none => some .strike
  | .chunk want (some sent) => (fetchRange c.frame want sent).2
  | .sync sent => (syncPull c.frame c.response sent).2
  | .manifest sent => (fetchManifest c.json c.supported sent).2

end Calls

-- ================================================================== what counts

/-- A 206 counts for the peer when its body unpacks, and against it when
the body is not read to its end. -/
theorem fetchRange_206 (decode : Bytes → Option Bytes) (want : ℕ) {resp : Answered}
    (h : resp.status = 206) :
    fetchRange decode want (.answered resp)
      = match unpack (if resp.encoded then some decode else none) resp.contentLength want
          resp.body with
        | some b => (some b, some .ok)
        | none => (none, if readCapped resp.contentLength
            (if resp.encoded then want + WIRE_SLACK else want) resp.body = none
          then some .strike else none) := by
  have hgone : resp.status ≠ 410 := by omega
  have hserver : ¬ (500 ≤ resp.status ∧ resp.status < 600) := by omega
  unfold fetchRange
  dsimp only
  rw [if_neg hgone, if_neg hserver, if_neg (not_not.mpr h)]
  cases resp.encoded with
  | false =>
      simp only [Bool.false_eq_true, if_false, unpack]
      cases readCapped resp.contentLength want resp.body with
      | none => rfl
      | some body => by_cases hlen : body.length = want <;> simp [Option.filter, hlen]
  | true =>
      simp only [if_true, unpack]
      cases readCapped resp.contentLength (want + WIRE_SLACK) resp.body with
      | none => rfl
      | some body =>
          simp only [Option.bind_some]
          cases decode body with
          | none => rfl
          | some bytes => by_cases hlen : bytes.length = want <;> simp [Option.filter, hlen]

/-- A chunk that is returned is what is unpacked from a 206, and for
nothing else is a peer graded `ok`. -/
theorem fetchRange_ok_iff {decode : Bytes → Option Bytes} {want : ℕ} {sent : Sent} :
    (fetchRange decode want sent).2 = some .ok
      ↔ ∃ resp b, sent = .answered resp ∧ resp.status = 206
          ∧ unpack (if resp.encoded then some decode else none) resp.contentLength want resp.body
            = some b
          ∧ (fetchRange decode want sent).1 = some b := by
  constructor
  · intro h
    cases sent with
    | refused => cases h
    | failed => cases h
    | answered resp =>
        by_cases hstatus : resp.status = 206
        · rw [fetchRange_206 decode want hstatus] at h ⊢
          cases hunpack : unpack (if resp.encoded then some decode else none)
              resp.contentLength want resp.body with
          | none =>
              rw [hunpack] at h
              exact absurd h (by simp [ite_eq_iff])
          | some b => exact ⟨resp, b, rfl, hstatus, hunpack, rfl⟩
        · unfold fetchRange at h
          dsimp only at h
          split at h
          next => cases h
          next =>
            split at h
            next => cases h
            next => cases h
  · rintro ⟨resp, b, rfl, hstatus, hunpack, -⟩
    rw [fetchRange_206 decode want hstatus, hunpack]

-- ================================================================== the peers

/-- `Peers`, with what its calls move. -/
structure Peers where
  list : List Health
  breakerFailures : ℕ
  breakerCooldown : ℕ
deriving DecidableEq

/-- A call as it comes to be graded: the peer's index, and the two readings
of the clock under the lock. -/
structure Outgoing where
  peer : ℕ
  asked : Asked
  check : ℕ
  now : ℕ
deriving DecidableEq

/-- A peer's breaker once a call to it is graded. -/
def Health.graded (threshold cooldown check now : ℕ) (h : Health) :
    Option Grade → Health × Option Said
  | none => (h, none)
  | some .ok => (h.recordOk, none)
  | some .strike => h.recordStrike threshold cooldown check now

namespace Peers

variable {R M : Type}

/-- `Peers::new`, with `n` peers. -/
def new (n breakerFailures breakerCooldown : ℕ) : Peers where
  list := List.replicate n {}
  breakerFailures
  breakerCooldown

/-- One call, with what the log has of it. -/
def call (c : Codecs R M) (ps : Peers) (o : Outgoing) : Peers × List (ℕ × Said) :=
  match ps.list[o.peer]? with
  | none => (ps, [])
  | some h =>
      let graded := h.graded ps.breakerFailures ps.breakerCooldown o.check o.now (o.asked.grade c)
      ({ ps with list := ps.list.set o.peer graded.1 }, graded.2.toList.map fun m => (o.peer, m))

/-- The calls of a run, in the order in which they are graded. -/
def run (c : Codecs R M) (ps : Peers) (calls : List Outgoing) : Peers × List (ℕ × Said) :=
  calls.foldl (fun s o => ((s.1.call c o).1, s.2 ++ (s.1.call c o).2)) (ps, [])

/-- `available`, of a peer by its index. -/
def availableAt (ps : Peers) (now i : ℕ) : Bool := (ps.list[i]?).any fun h => h.available now

/-- `soonest_recovery`, the loop. -/
def soonestFrom (ps : Peers) (now : ℕ) : Option ℕ → List ℕ → Option ℕ
  | soonest, [] => soonest
  | soonest, i :: ids =>
      match (ps.list[i]?).bind Health.openUntil with
      | none => none
      | some t =>
          if t ≤ now then none
          else ps.soonestFrom now (some (soonest.elim t fun s => min s t)) ids

/-- `soonest_recovery`; an index out of range panics. -/
def soonestRecovery (ps : Peers) (ids : List ℕ) (now : ℕ) : Option ℕ :=
  ps.soonestFrom now none ids

end Peers

-- ================================================================== the history

/-- A call that was graded. -/
structure Score where
  grade : Grade
  check : ℕ
  now : ℕ

/-- A peer's own calls. -/
def scores {R M : Type} (c : Codecs R M) (i : ℕ) (calls : List Outgoing) : List Score :=
  calls.filterMap fun o =>
    if o.peer = i then (o.asked.grade c).map fun g => ⟨g, o.check, o.now⟩ else none

/-- The strikes since the last `ok`. -/
def struck (past : List Score) : ℕ :=
  (past.rtakeWhile fun s => decide (s.grade = .strike)).length

/-- The stretches of strikes that reach the threshold. -/
def outages (threshold : ℕ) (past : List Score) : ℕ :=
  (past.splitOnP fun s => decide (s.grade = .ok)).countP fun stretch =>
    decide (threshold ≤ stretch.length)

/-- How often it went well. -/
def oks (past : List Score) : ℕ := past.countP fun s => decide (s.grade = .ok)

/-- The clock does not go back. -/
def Clocked (start : ℕ) (calls : List Outgoing) : Prop :=
  (start :: calls.flatMap fun o => [o.check, o.now]).Pairwise (· ≤ ·)

/-- The last reading. -/
def clock (start : ℕ) (calls : List Outgoing) : ℕ := (calls.getLast?.map Outgoing.now).getD start

section History

variable {past : List Score} {s : Score} {threshold : ℕ}

theorem struck_ok (h : s.grade = .ok) : struck (past ++ [s]) = 0 := by
  rw [struck, List.rtakeWhile_concat_neg _ _ _ (by simp [h])]
  rfl

theorem struck_strike (h : s.grade = .strike) : struck (past ++ [s]) = struck past + 1 := by
  rw [struck, List.rtakeWhile_concat_pos _ _ _ (by simp [h]), List.length_append]
  rfl

theorem oks_ok (h : s.grade = .ok) : oks (past ++ [s]) = oks past + 1 := by
  simp [oks, h]

theorem oks_strike (h : s.grade = .strike) : oks (past ++ [s]) = oks past := by
  simp [oks, h]

/-- The stretches that are over, and the one that is not. -/
theorem splitOnP_open (past : List Score) :
    ∃ closed : List (List Score), ∀ more : List Score, (∀ x ∈ more, x.grade = .strike) →
      (past ++ more).splitOnP (fun s => decide (s.grade = .ok))
        = closed ++ [(past.rtakeWhile fun s => decide (s.grade = .strike)) ++ more] := by
  induction past using List.reverseRecOn with
  | nil =>
      refine ⟨[], fun more hmore => ?_⟩
      rw [List.nil_append, List.rtakeWhile_nil]
      refine List.splitOnP_eq_singleton fun x hx => ?_
      rw [hmore x hx]
      rfl
  | append_singleton past s ih =>
      obtain ⟨closed, hclosed⟩ := ih
      cases hs : s.grade with
      | ok =>
          refine ⟨past.splitOnP fun s => decide (s.grade = .ok), fun more hmore => ?_⟩
          have hmore' : more.splitOnP (fun s => decide (s.grade = .ok)) = [more] := by
            refine List.splitOnP_eq_singleton fun x hx => ?_
            rw [hmore x hx]
            rfl
          rw [List.append_assoc, List.singleton_append,
            List.splitOnP_append_cons _ _ (by simp [hs]), hmore',
            List.rtakeWhile_concat_neg _ _ _ (by simp [hs]), List.nil_append]
      | strike =>
          refine ⟨closed, fun more hmore => ?_⟩
          have hmore' : ∀ x ∈ s :: more, x.grade = .strike := by
            intro x hx
            rcases List.mem_cons.mp hx with rfl | hx
            · exact hs
            · exact hmore x hx
          rw [List.append_assoc, List.singleton_append, hclosed _ hmore',
            List.rtakeWhile_concat_pos _ _ _ (by simp [hs]), List.append_assoc,
            List.singleton_append]

theorem outages_nil (ht : 1 ≤ threshold) : outages threshold [] = 0 := by
  rw [outages, List.splitOnP_nil, List.countP_singleton, List.length_nil,
    if_neg (by simp; omega)]

/-- An `ok` ends the stretch, and the next is empty. -/
theorem outages_ok (ht : 1 ≤ threshold) (h : s.grade = .ok) :
    outages threshold (past ++ [s]) = outages threshold past := by
  rw [outages, List.splitOnP_append_cons past [] (by simp [h]), List.splitOnP_nil,
    List.countP_append, List.countP_singleton, List.length_nil, if_neg (by simp; omega)]
  rfl

/-- A strike makes the stretch long enough exactly when it is the
`threshold`-th. -/
theorem outages_strike (h : s.grade = .strike) :
    outages threshold (past ++ [s])
      = outages threshold past + if struck past + 1 = threshold then 1 else 0 := by
  obtain ⟨closed, hclosed⟩ := splitOnP_open past
  have hbefore := hclosed [] (fun _ hx => by cases hx)
  have hafter := hclosed [s] (fun x hx => by rw [List.mem_singleton.mp hx, h])
  rw [List.append_nil, List.append_nil] at hbefore
  rw [outages, outages, hbefore, hafter, List.countP_append, List.countP_append,
    List.countP_singleton, List.countP_singleton, List.length_append, List.length_singleton]
  show _ + (if decide (threshold ≤ struck past + 1) then 1 else 0)
    = _ + (if decide (threshold ≤ struck past) then 1 else 0) + _
  simp only [decide_eq_true_eq]
  split_ifs <;> omega

end History

-- ================================================================== what is recalled

/-- What a breaker holds of the calls to its peer, when the clock has last
shown `upto` and the log has had `warned` warnings of it. -/
structure Recalls (threshold cooldown start : ℕ) (past : List Score) (h : Health)
    (warned upto : ℕ) : Prop where
  strikes : h.strikes = min (struck past) U32_MAX
  openUntil : h.openUntil
    = if struck past < threshold then none else past.getLast?.map fun s => s.now + cooldown
  warned : threshold < U32_MAX → warned = outages threshold past
  outages : outages threshold past ≤ h.opens
  /-- Each opening is paid for by an `ok` or by a cooldown that is over. -/
  rate : start + h.opens * cooldown ≤ oks past * cooldown + h.openUntil.getD upto
  recent : ∀ t ∈ h.openUntil, t ≤ upto + cooldown

namespace Recalls

variable {threshold cooldown start : ℕ} {past : List Score} {h : Health} {warned upto : ℕ}

/-- Before the first call. -/
theorem init (ht : 1 ≤ threshold) : Recalls threshold cooldown start [] {} 0 start where
  strikes := rfl
  openUntil := by
    split
    next => rfl
    next => rfl
  warned := fun _ => (outages_nil ht).symm
  outages := (outages_nil ht).le
  rate := by simp [oks]
  recent := fun t ht => by cases ht

/-- A reading of the clock alone. -/
theorem tick (hr : Recalls threshold cooldown start past h warned upto) {upto' : ℕ}
    (hle : upto ≤ upto') : Recalls threshold cooldown start past h warned upto' where
  strikes := hr.strikes
  openUntil := hr.openUntil
  warned := hr.warned
  outages := hr.outages
  rate := by
    have hrate := hr.rate
    cases hopen : h.openUntil with
    | none =>
        rw [hopen, Option.getD_none] at hrate
        exact hrate.trans (Nat.add_le_add_left hle _)
    | some t =>
        rw [hopen] at hrate
        exact hrate
  recent := fun t ht => (hr.recent t ht).trans (by omega)

/-- With what is left of the cooldown counted as over. -/
theorem rate_le (hr : Recalls threshold cooldown start past h warned upto) :
    start + h.opens * cooldown ≤ (oks past + 1) * cooldown + upto := by
  have hrate := hr.rate
  rw [Nat.add_mul, Nat.one_mul]
  cases hopen : h.openUntil with
  | none =>
      rw [hopen, Option.getD_none] at hrate
      omega
  | some t =>
      have hrecent := hr.recent t hopen
      rw [hopen, Option.getD_some] at hrate
      omega

theorem ok (ht : 1 ≤ threshold) (hr : Recalls threshold cooldown start past h warned upto)
    {s : Score} (hs : s.grade = .ok) :
    Recalls threshold cooldown start (past ++ [s]) h.recordOk warned upto where
  strikes := by
    rw [struck_ok hs]
    rfl
  openUntil := by
    rw [struck_ok hs, if_pos (by omega)]
    rfl
  warned := fun hu => by rw [outages_ok ht hs, hr.warned hu]
  outages := by
    rw [outages_ok ht hs]
    exact hr.outages
  rate := by
    rw [oks_ok hs]
    exact hr.rate_le
  recent := fun t ht => by cases ht

theorem strike (ht : threshold ≤ U32_MAX)
    (hr : Recalls threshold cooldown start past h warned upto) {s : Score}
    (hs : s.grade = .strike) (hcheck : upto ≤ s.check) (hnow : s.check ≤ s.now) :
    Recalls threshold cooldown start (past ++ [s])
      (h.recordStrike threshold cooldown s.check s.now).1
      (warned + (h.recordStrike threshold cooldown s.check s.now).2.toList.count .warn) s.now := by
  have hstrikes : min (h.strikes + 1) U32_MAX = min (struck past + 1) U32_MAX := by
    rw [hr.strikes]
    omega
  have hrate := hr.rate
  by_cases hlong : threshold ≤ struck past + 1
  · -- it opens, or stays open
    have hrec : h.recordStrike threshold cooldown s.check s.now
        = ({ strikes := min (struck past + 1) U32_MAX
             openUntil := some (s.now + cooldown)
             opens := if h.available s.check then h.opens + 1 else h.opens },
            some (if min (struck past + 1) U32_MAX = threshold then .warn else .debug)) := by
      rw [Health.recordStrike, hstrikes, if_pos (by omega)]
    rw [hrec]
    exact
      { strikes := by rw [struck_strike hs]
        openUntil := by
          show some (s.now + cooldown) = _
          rw [struck_strike hs, if_neg (by omega), List.getLast?_concat]
          rfl
        warned := fun hu => by
          show warned + [if min (struck past + 1) U32_MAX = threshold then Said.warn
            else Said.debug].count .warn = _
          rw [outages_strike hs, hr.warned hu]
          by_cases hnew : struck past + 1 = threshold
          · rw [if_pos hnew, if_pos (by omega)]
            rfl
          · rw [if_neg hnew, if_neg (by omega)]
            rfl
        outages := by
          have hout := hr.outages
          rw [outages_strike hs]
          by_cases hnew : struck past + 1 = threshold
          · -- so far it was closed
            have hclosed : h.openUntil = none := by rw [hr.openUntil, if_pos (by omega)]
            have hav : h.available s.check = true := by rw [Health.available, hclosed]; rfl
            rw [if_pos hnew]
            show _ ≤ if h.available s.check then h.opens + 1 else h.opens
            rw [if_pos hav]
            omega
          · rw [if_neg hnew]
            show _ ≤ if h.available s.check then h.opens + 1 else h.opens
            split <;> omega
        rate := by
          rw [oks_strike hs]
          show start + (if h.available s.check then h.opens + 1 else h.opens) * cooldown
            ≤ oks past * cooldown + (s.now + cooldown)
          cases hopen : h.openUntil with
          | none =>
              rw [hopen, Option.getD_none] at hrate
              split
              next =>
                rw [Nat.add_mul, Nat.one_mul]
                omega
              next => omega
          | some t =>
              have hrecent := hr.recent t hopen
              rw [hopen, Option.getD_some] at hrate
              split
              next hav =>
                have hover : t ≤ s.check := by simpa [Health.available, hopen] using hav
                rw [Nat.add_mul, Nat.one_mul]
                omega
              next => omega
        recent := fun t ht => by
          cases ht
          exact le_rfl }
  · have hrec : h.recordStrike threshold cooldown s.check s.now
        = ({ h with strikes := min (struck past + 1) U32_MAX }, none) := by
      rw [Health.recordStrike, hstrikes, if_neg (by omega)]
    have hkept := hr.tick (hcheck.trans hnow)
    rw [hrec]
    exact
      { strikes := by rw [struck_strike hs]
        openUntil := by
          rw [struck_strike hs, if_pos (by omega)]
          show h.openUntil = none
          rw [hr.openUntil, if_pos (by omega)]
        warned := fun hu => by
          rw [outages_strike hs, if_neg (by omega), hr.warned hu]
          rfl
        outages := by
          rw [outages_strike hs, if_neg (by omega)]
          exact hr.outages
        rate := by
          rw [oks_strike hs]
          exact hkept.rate
        recent := hkept.recent }

/-- However a call is graded. -/
theorem graded (ht : 1 ≤ threshold) (htu : threshold ≤ U32_MAX)
    (hr : Recalls threshold cooldown start past h warned upto) {check now : ℕ}
    (hcheck : upto ≤ check) (hnow : check ≤ now) (g : Option Grade) :
    Recalls threshold cooldown start (past ++ (g.map fun g => ⟨g, check, now⟩).toList)
      (h.graded threshold cooldown check now g).1
      (warned + (h.graded threshold cooldown check now g).2.toList.count .warn) now := by
  have hle : upto ≤ now := hcheck.trans hnow
  cases g with
  | none =>
      rw [Option.map_none, Option.toList_none, List.append_nil]
      exact hr.tick hle
  | some g =>
      cases g with
      | ok => exact (hr.ok ht (s := ⟨.ok, check, now⟩) rfl).tick hle
      | strike => exact hr.strike htu (s := ⟨.strike, check, now⟩) rfl hcheck hnow

/-- The breaker is open for the cooldown after the last strike of a long
enough stretch. -/
theorem available_iff (hr : Recalls threshold cooldown start past h warned upto) (now : ℕ) :
    h.available now ↔ struck past < threshold ∨ ∀ s ∈ past.getLast?, s.now + cooldown ≤ now := by
  rw [Health.available, hr.openUntil]
  split
  next hshort => simp [hshort]
  next hlong =>
    cases past.getLast? with
    | none => simp
    | some s => simp [hlong]

end Recalls

-- ================================================================== over a run

section Run

variable {R M : Type} (c : Codecs R M) {n threshold cooldown start : ℕ}

theorem Clocked.concat {calls : List Outgoing} {o : Outgoing}
    (h : Clocked start (calls ++ [o])) :
    Clocked start calls ∧ clock start calls ≤ o.check ∧ o.check ≤ o.now := by
  rw [Clocked, List.flatMap_append, ← List.cons_append, List.pairwise_append] at h
  obtain ⟨hcalls, htwo, hbefore⟩ := h
  have hmem : clock start calls ∈ start :: calls.flatMap fun o => [o.check, o.now] := by
    rw [clock]
    cases hlast : calls.getLast? with
    | none => exact List.mem_cons_self
    | some l =>
        exact List.mem_cons_of_mem _
          (List.mem_flatMap.mpr ⟨l, List.mem_of_getLast? hlast, by simp⟩)
  exact ⟨hcalls, hbefore _ hmem _ (by simp), by simpa using htwo⟩

/-- One more call is one more score, of its own peer. -/
theorem scores_concat (i : ℕ) (calls : List Outgoing) (o : Outgoing) :
    scores c i (calls ++ [o]) = scores c i calls
      ++ (if o.peer = i then (o.asked.grade c).map fun g => ⟨g, o.check, o.now⟩
          else none).toList := by
  rw [scores, scores, List.filterMap_append]
  by_cases hi : o.peer = i
  · cases hg : o.asked.grade c with
    | none => simp [hi, hg]
    | some g => simp [hi, hg]
  · simp [hi]

/-- What every peer's breaker holds after the calls. -/
structure Scored (n threshold cooldown start : ℕ) (calls : List Outgoing)
    (s : Peers × List (ℕ × Said)) : Prop where
  length : s.1.list.length = n
  breakerFailures : s.1.breakerFailures = threshold
  breakerCooldown : s.1.breakerCooldown = cooldown
  recalls : ∀ i h, s.1.list[i]? = some h →
    Recalls threshold cooldown start (scores c i calls) h (s.2.count (i, .warn))
      (clock start calls)

variable {c}

/-- A call moves its own peer's breaker and no other. -/
theorem Scored.call (ht : 1 ≤ threshold) (htu : threshold ≤ U32_MAX) {calls : List Outgoing}
    {s : Peers × List (ℕ × Said)} (hs : Scored c n threshold cooldown start calls s)
    {o : Outgoing} (hcheck : clock start calls ≤ o.check) (hnow : o.check ≤ o.now) :
    Scored c n threshold cooldown start (calls ++ [o])
      ((s.1.call c o).1, s.2 ++ (s.1.call c o).2) := by
  have hclock : clock start (calls ++ [o]) = o.now := by
    rw [clock, List.getLast?_concat]
    rfl
  have hle : clock start calls ≤ o.now := hcheck.trans hnow
  rw [Peers.call]
  cases hpeer : s.1.list[o.peer]? with
  | none =>
      refine ⟨hs.length, hs.breakerFailures, hs.breakerCooldown, fun i h hi => ?_⟩
      have hne : o.peer ≠ i := fun heq => by rw [heq, hi] at hpeer; cases hpeer
      rw [scores_concat, if_neg hne, Option.toList_none, List.append_nil, List.append_nil, hclock]
      exact (hs.recalls i h hi).tick hle
  | some h₀ =>
      refine ⟨?_, hs.breakerFailures, hs.breakerCooldown, fun i h hi => ?_⟩
      · exact List.length_set.trans hs.length
      · rw [scores_concat, hclock]
        by_cases heq : o.peer = i
        · subst heq
          have hi' : some (h₀.graded s.1.breakerFailures s.1.breakerCooldown o.check o.now
              (o.asked.grade c)).1 = some h := by
            rw [← hi]
            exact (List.getElem?_set_self (List.getElem?_eq_some_iff.mp hpeer).1).symm
          have hkept := (hs.recalls _ _ hpeer).graded ht htu hcheck hnow (o.asked.grade c)
          rw [hs.breakerFailures, hs.breakerCooldown] at hi'
          cases hi'
          rw [if_pos rfl, List.count_append, hs.breakerFailures, hs.breakerCooldown,
            List.count_map_of_injective _ _ (fun _ _ h => (Prod.mk.inj h).2)]
          exact hkept
        · have hi' : s.1.list[i]? = some h := by
            rw [← hi]
            exact (List.getElem?_set_ne heq).symm
          have hcount : ((h₀.graded s.1.breakerFailures s.1.breakerCooldown o.check o.now
              (o.asked.grade c)).2.toList.map fun m => (o.peer, m)).count (i, Said.warn) = 0 := by
            refine List.count_eq_zero.mpr fun hmem => ?_
            obtain ⟨m, -, hm⟩ := List.mem_map.mp hmem
            exact heq (Prod.mk.inj hm).1
          rw [if_neg heq, Option.toList_none, List.append_nil, List.count_append, hcount]
          exact (hs.recalls i h hi').tick hle

theorem scored_run (c : Codecs R M) (n cooldown : ℕ) (ht : 1 ≤ threshold)
    (htu : threshold ≤ U32_MAX) {calls : List Outgoing} (hclock : Clocked start calls) :
    Scored c n threshold cooldown start calls
      ((Peers.new n threshold cooldown).run c calls) := by
  induction calls using List.reverseRecOn with
  | nil =>
      refine ⟨List.length_replicate, rfl, rfl, fun i h hi => ?_⟩
      have hh := List.eq_of_mem_replicate (List.mem_of_getElem? hi)
      subst hh
      exact Recalls.init ht
  | append_singleton calls o ih =>
      obtain ⟨hcalls, hcheck, hnow⟩ := hclock.concat
      rw [Peers.run, List.foldl_concat]
      exact (ih hcalls).call ht htu hcheck hnow

end Run

-- ================================================================== the next one back

namespace Peers

variable {ps : Peers} {now : ℕ}

theorem availableAt_eq {i : ℕ} (hi : i < ps.list.length) (t : ℕ) :
    ps.availableAt t i = ((ps.list[i]?).bind Health.openUntil).all fun u => decide (u ≤ t) := by
  rw [availableAt, List.getElem?_eq_getElem hi]
  rfl

/-- With some open until `soonest` behind it, the loop comes to the least,
unless one that follows is open. -/
theorem soonestFrom_spec {soonest : Option ℕ} {ids : List ℕ} :
    match ps.soonestFrom now soonest ids with
    | none => (soonest = none ∧ ids = [])
        ∨ ∃ i ∈ ids, ((ps.list[i]?).bind Health.openUntil).all fun u => decide (u ≤ now)
    | some t => (soonest = some t ∨ ∃ i ∈ ids, (ps.list[i]?).bind Health.openUntil = some t)
        ∧ (∀ u ∈ soonest, t ≤ u)
        ∧ ∀ i ∈ ids, ∃ u, (ps.list[i]?).bind Health.openUntil = some u ∧ t ≤ u ∧ now < u := by
  induction ids generalizing soonest with
  | nil =>
      cases soonest with
      | none => exact .inl ⟨rfl, rfl⟩
      | some t =>
          exact ⟨.inl rfl, (fun u hu => by cases hu; exact le_rfl), (fun i hi => by cases hi)⟩
  | cons i ids ih =>
      unfold soonestFrom
      cases hopen : (ps.list[i]?).bind Health.openUntil with
      | none => exact .inr ⟨i, List.mem_cons_self, by rw [hopen]; rfl⟩
      | some t =>
          dsimp only
          by_cases hle : t ≤ now
          · rw [if_pos hle]
            exact .inr ⟨i, List.mem_cons_self, by rw [hopen]; exact decide_eq_true hle⟩
          · rw [if_neg hle]
            have hrest := @ih (some (soonest.elim t fun s => min s t))
            cases hfrom : ps.soonestFrom now (some (soonest.elim t fun s => min s t)) ids with
            | none =>
                rw [hfrom] at hrest
                obtain ⟨hnone, -⟩ | ⟨j, hj, hav⟩ := hrest
                · cases hnone
                · exact .inr ⟨j, List.mem_cons_of_mem _ hj, hav⟩
            | some r =>
                rw [hfrom] at hrest
                obtain ⟨hwhence, hleast, hlater⟩ := hrest
                have hr := hleast _ rfl
                have hrt : r ≤ t := by cases soonest <;> simp_all
                refine ⟨?_, ?_, fun j hj => ?_⟩
                · obtain hhere | ⟨j, hj, hjr⟩ := hwhence
                  · cases soonest with
                    | none => exact .inr ⟨i, List.mem_cons_self, hopen.trans hhere⟩
                    | some u =>
                        have hmin : min u t = r := Option.some.inj hhere
                        obtain h | h := min_choice u t
                        · exact .inl (by rw [← hmin, h])
                        · exact .inr ⟨i, List.mem_cons_self, by rw [hopen, ← hmin, h]⟩
                  · exact .inr ⟨j, List.mem_cons_of_mem _ hj, hjr⟩
                · intro u hu
                  cases hu
                  exact hr.trans (min_le_left _ _)
                · obtain rfl | hj := List.mem_cons.mp hj
                  · exact ⟨t, hopen, hrt, Nat.lt_of_not_le hle⟩
                  · exact hlater j hj

/-- Nobody is worth waiting for, or the moment is named at which the first
of them comes back. -/
theorem soonestRecovery_spec {ids : List ℕ} (hids : ∀ i ∈ ids, i < ps.list.length) :
    match ps.soonestRecovery ids now with
    | none => ids = [] ∨ ∃ i ∈ ids, ps.availableAt now i
    | some t => now < t ∧ (∃ i ∈ ids, ps.availableAt t i)
        ∧ ∀ i ∈ ids, ∀ earlier < t, ¬ ps.availableAt earlier i := by
  have hspec := @soonestFrom_spec ps now none ids
  rw [soonestRecovery]
  cases hfrom : ps.soonestFrom now none ids with
  | none =>
      rw [hfrom] at hspec
      obtain ⟨-, hnil⟩ | ⟨i, hi, hav⟩ := hspec
      · exact .inl hnil
      · exact .inr ⟨i, hi, by rw [availableAt_eq (hids i hi)]; exact hav⟩
  | some t =>
      rw [hfrom] at hspec
      obtain ⟨hwhence, -, hlater⟩ := hspec
      obtain hnone | ⟨i, hi, hopen⟩ := hwhence
      · cases hnone
      · refine ⟨?_, ⟨i, hi, ?_⟩, fun j hj earlier hlt => ?_⟩
        · obtain ⟨u, hu, -, hnow⟩ := hlater i hi
          rw [hopen] at hu
          cases hu
          exact hnow
        · rw [availableAt_eq (hids i hi), hopen]
          exact decide_eq_true le_rfl
        · obtain ⟨u, hu, hle, -⟩ := hlater j hj
          rw [availableAt_eq (hids j hj), hu]
          simp only [Option.all_some, decide_eq_true_eq, not_le]
          omega

end Peers

-- ================================================================== what a breaker says

/-- What is certain of every peer's breaker. -/
structure Peers.Exact {R M : Type} (c : Codecs R M) (n threshold cooldown start : ℕ)
    (calls : List Outgoing) (s : Peers × List (ℕ × Said)) : Prop where
  length : s.1.list.length = n
  /-- It is closed to calls for the cooldown after the last strike of a
  stretch that reaches the threshold, and otherwise not. -/
  available : ∀ i < n, ∀ now, s.1.availableAt now i
    ↔ struck (scores c i calls) < threshold
      ∨ ∀ l ∈ (scores c i calls).getLast?, l.now + cooldown ≤ now
  strikes : ∀ i h, s.1.list[i]? = some h → h.strikes = min (struck (scores c i calls)) U32_MAX
  /-- One warning for each stretch. -/
  warned : threshold < U32_MAX →
    ∀ i < n, s.2.count (i, .warn) = outages threshold (scores c i calls)
  opened : ∀ i h, s.1.list[i]? = some h → outages threshold (scores c i calls) ≤ h.opens
  /-- No more openings than `ok`s and cooldowns that are over, and one. -/
  rate : ∀ i h, s.1.list[i]? = some h →
    start + h.opens * cooldown ≤ (oks (scores c i calls) + 1) * cooldown + clock start calls
  /-- The status has a time that remains while it is closed to calls, and
  its strikes and openings. -/
  status : ∀ i h, s.1.list[i]? = some h → ∀ now,
    ((h.breakerStatus now).openMsRemaining.isSome = true ↔ s.1.availableAt now i = false)
      ∧ (h.breakerStatus now).strikes = min (struck (scores c i calls)) U32_MAX
      ∧ outages threshold (scores c i calls) ≤ (h.breakerStatus now).opensTotal
  /-- Of the calls for a chunk, those are `ok` that hand one over, and it is
  what a 206 unpacks to. -/
  chunk : ∀ want sent, Asked.grade c (.chunk want (some sent)) = some .ok
    ↔ ∃ resp b, sent = .answered resp ∧ resp.status = 206
        ∧ unpack (if resp.encoded then some c.frame else none) resp.contentLength want resp.body
          = some b
        ∧ (fetchRange c.frame want sent).1 = some b
  /-- A loop that has nobody to ask wakes when the first comes back. -/
  recovery : ∀ ids : List ℕ, (∀ i ∈ ids, i < n) → ∀ now,
    match s.1.soonestRecovery ids now with
    | none => ids = [] ∨ ∃ i ∈ ids, s.1.availableAt now i
    | some t => now < t ∧ (∃ i ∈ ids, s.1.availableAt t i)
        ∧ ∀ i ∈ ids, ∀ earlier < t, ¬ s.1.availableAt earlier i

/-- Whatever calls are made, to whichever peers and however they go. -/
theorem breaker_exact {R M : Type} (c : Codecs R M) {n threshold cooldown start : ℕ}
    (ht : 1 ≤ threshold) (htu : threshold ≤ U32_MAX) {calls : List Outgoing}
    (hclock : Clocked start calls) :
    Peers.Exact c n threshold cooldown start calls
      ((Peers.new n threshold cooldown).run c calls) := by
  have hs := scored_run c n cooldown ht htu hclock
  have hget : ∀ i < n, ∃ h, ((Peers.new n threshold cooldown).run c calls).1.list[i]? = some h :=
    fun i hi => ⟨_, List.getElem?_eq_getElem (hs.length.symm ▸ hi)⟩
  exact
    { length := hs.length
      available := fun i hi now => by
        obtain ⟨h, hh⟩ := hget i hi
        rw [Peers.availableAt, hh]
        exact (hs.recalls i h hh).available_iff now
      strikes := fun i h hh => (hs.recalls i h hh).strikes
      warned := fun hu i hi => by
        obtain ⟨h, hh⟩ := hget i hi
        exact (hs.recalls i h hh).warned hu
      opened := fun i h hh => (hs.recalls i h hh).outages
      rate := fun i h hh => (hs.recalls i h hh).rate_le
      status := fun i h hh now => by
        rw [Peers.availableAt, hh]
        exact ⟨h.isSome_openMsRemaining now, (hs.recalls i h hh).strikes,
          (hs.recalls i h hh).outages⟩
      chunk := fun want sent => fetchRange_ok_iff
      recovery := fun ids hids now =>
        Peers.soonestRecovery_spec fun i hi => hs.length.symm ▸ hids i hi }

/-- Two peers and a threshold of two: the first answers 503, delivers, then
is refused three times, the last after the cooldown; the second only ever
says that what it is asked for is gone. -/
theorem breaker_exact_refused :
    let c : Codecs Unit Unit := ⟨some, fun _ => some (), fun _ => none, fun _ => true⟩
    let calls : List Outgoing :=
      [⟨0, .chunk 2 (some (.answered ⟨503, false, none, []⟩)), 1, 2⟩,
        ⟨1, .chunk 2 (some (.answered ⟨410, false, none, []⟩)), 3, 3⟩,
        ⟨0, .chunk 2 (some (.answered ⟨206, false, some 2, [some [1], some [2]]⟩)), 4, 4⟩,
        ⟨0, .manifest (some .refused), 5, 6⟩,
        ⟨0, .chunk 2 none, 7, 8⟩,
        ⟨1, .chunk 2 (some (.answered ⟨410, false, none, []⟩)), 9, 9⟩,
        ⟨0, .sync (some .refused), 20, 21⟩]
    let s := (Peers.new 2 2 10).run c calls
    (s.1.availableAt 30 0 = false ∧ s.1.availableAt 31 0 = true ∧ s.1.availableAt 9 1 = true
      ∧ s.2.count (0, .warn) = 1 ∧ s.1.soonestRecovery [0] 25 = some 31)
    ∧ Peers.Exact c 2 2 10 0 calls s :=
  ⟨by decide +kernel, breaker_exact _ (by decide) (by decide) (by
    simp only [Clocked, List.flatMap_cons, List.flatMap_nil]
    decide)⟩

end Narshare
