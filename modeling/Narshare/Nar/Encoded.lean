/-
How serve.rs sends a range as one compressed frame, while it is still
reading it.

# Three hands

`stream_encode` has a loop that feeds pieces, a thread that encodes them,
and a body that either may write to: the thread its output, both an
error. They meet in the channel `feed` and at the join. `Job` is all
three, `EncodeAct` who moves next, and a run is any order of their moves
and of the reads that come back.

# The end of the body

The body ends when both have dropped it. What can then be in it is the
point: an encoder that was fed a part of the range finishes its frame
like any other, and the frame is in order. It must not be taken for the
range. The loop writes its error before it closes `feed`, and the thread
cannot finish before that, so the error is there (`Erred.clean`).

The encoder is any that its decoder inverts (`Lawful`).
-/
import Narshare.Nar.Emit

namespace Narshare

-- ================================================================= the encoder

/-- `zstd::stream`: an encoder that writes to a writer as it goes, and its
decoder. A call says what it writes, and fails without a state. -/
structure Zstd (σ : Type) where
  new : Option σ
  write : σ → Bytes → List Bytes × Option σ
  finish : σ → List Bytes × Bool
  decode : Bytes → Option Bytes

namespace Zstd

variable {σ : Type} (z : Zstd σ)

/-- The encoder has been fed `fed`, and has written `out`. -/
inductive Wrote : σ → List Bytes → Bytes → Prop
  | new {s : σ} : z.new = some s → Wrote s [] []
  | write {s s' : σ} {fed outs : List Bytes} {out b : Bytes} : Wrote s fed out →
      z.write s b = (outs, some s') → Wrote s' (fed ++ [b]) (out ++ outs.flatten)

/-- A finished frame decodes to what was fed. -/
def Lawful : Prop := ∀ {s : σ} {fed outs : List Bytes} {out : Bytes}, z.Wrote s fed out →
  z.finish s = (outs, true) → z.decode (out ++ outs.flatten) = some fed.flatten

end Zstd

-- ================================================================== the writer

/-- `ENCODE_FLUSH_BYTES`. -/
def ENCODE_FLUSH_BYTES : ℕ := 128 * 1024

/-- `ChannelWriter`, with the body it writes to: no one reads it any more
once the client is `gone`. -/
structure ChannelWriter where
  buf : Bytes := []
  body : List (Option Bytes) := []
  gone : Bool := false
deriving DecidableEq

namespace ChannelWriter

/-- `flush_all`; an error is `none`. -/
def flushAll (w : ChannelWriter) : Option ChannelWriter :=
  if w.buf = [] then some w
  else if w.gone then none
  else some { w with buf := [], body := w.body ++ [some w.buf] }

/-- `write`. -/
def write (w : ChannelWriter) (d : Bytes) : Option ChannelWriter :=
  let w := { w with buf := w.buf ++ d }
  if w.buf.length ≥ ENCODE_FLUSH_BYTES then w.flushAll else some w

/-- An error is sent into the body. -/
def fail (w : ChannelWriter) : ChannelWriter :=
  if w.gone then w else { w with body := w.body ++ [none] }

/-- All that was written to it. -/
def written (w : ChannelWriter) : Bytes := (w.body.filterMap id).flatten ++ w.buf

variable {w w' : ChannelWriter}

/-- A flush sends what is buffered and keeps nothing back: what is written is
the same, counted elsewhere. -/
theorem flushAll_spec (h : w.flushAll = some w') :
    w'.written = w.written ∧ w'.buf = [] ∧ (none ∈ w'.body ↔ none ∈ w.body)
      ∧ w'.gone = w.gone := by
  rw [flushAll] at h
  split at h
  next hnil =>
    cases h
    exact ⟨rfl, hnil, Iff.rfl, rfl⟩
  next =>
    split at h
    next => cases h
    next =>
      cases h
      refine ⟨?_, rfl, ?_, rfl⟩
      · simp only [written, List.filterMap_append, List.flatten_append, List.append_nil]
        simp
      · simp

/-- A write adds its bytes to what is written, and flushes before the buffer
is full. -/
theorem write_spec {d : Bytes} (h : w.write d = some w') :
    w'.written = w.written ++ d ∧ w'.buf.length < ENCODE_FLUSH_BYTES
      ∧ (none ∈ w'.body ↔ none ∈ w.body) ∧ w'.gone = w.gone := by
  have hpos : 0 < ENCODE_FLUSH_BYTES := by decide
  have hmore : ({ w with buf := w.buf ++ d } : ChannelWriter).written = w.written ++ d :=
    (List.append_assoc _ _ _).symm
  rw [write] at h
  simp only at h
  split at h
  next =>
    obtain ⟨hwritten, hbuf, hbody, hgone⟩ := flushAll_spec h
    exact ⟨hwritten.trans hmore, by rw [hbuf]; exact hpos, hbody, hgone⟩
  next hlt =>
    cases h
    exact ⟨hmore, not_le.mp hlt, Iff.rfl, rfl⟩

/-- An error is put after what was sent, unless nobody reads the body any
more; the buffer is not sent. -/
theorem fail_spec (w : ChannelWriter) :
    w.fail.written = w.written ∧ w.fail.buf = w.buf ∧ w.fail.gone = w.gone
      ∧ (none ∈ w.body → none ∈ w.fail.body) ∧ (w.gone = false → none ∈ w.fail.body) := by
  rw [fail]
  split
  next hgone => exact ⟨rfl, rfl, rfl, id, fun h => by rw [h] at hgone; cases hgone⟩
  next =>
    refine ⟨?_, rfl, rfl, fun h => List.mem_append_left _ h,
      fun _ => List.mem_append_right _ List.mem_cons_self⟩
    simp [written]

end ChannelWriter

-- ================================================================== the stream

/-- `mpsc::channel::<Bytes>(4)`. -/
def FEED_AHEAD : ℕ := 4

/-- Where the loop of `stream_encode` stands: at its head, awaiting its
first piece, or out of it, with `feed_tx` dropped. -/
inductive LoopStage
  | filling
  | awaiting
  | ended
deriving DecidableEq

/-- Where the encoding thread stands; `closing` once it will be fed no
more, with an error of the encoder if not `ok`. -/
inductive EncStage (σ : Type)
  | fresh
  | working (s : σ)
  | closing (ok : Bool)
  | finished
  | died
deriving DecidableEq

/-- `stream_encode`. -/
structure Job (σ : Type) where
  feeder : Feeder
  feed : List Bytes := []
  loop : LoopStage := .filling
  failed : Bool := false
  enc : EncStage σ := .fresh
  /-- What the encoder is about to write. -/
  outs : List Bytes := []
  out : ChannelWriter := {}
  joined : Bool := false
  /-- The `span` of the `EncStats` it leaves. -/
  stats : Option ℕ := none
deriving DecidableEq

/-- The loop fills its queue, a read comes back, or the first piece is
taken; the thread opens its encoder, feeds it, lets it write, finishes
and returns; the two are joined; the client leaves. -/
inductive EncodeAct
  | fill
  | settle (i : ℕ) (r : Option Bytes)
  | take
  | start
  | encode
  | put
  | finish
  | close
  | join
  | leave
deriving DecidableEq

namespace Job

variable {σ : Type}

/-- The loop is left early, and the reads that are left are aborted. -/
def stop (j : Job σ) : Job σ :=
  { j with feeder := { j.feeder with queue := [] }, loop := .ended, failed := true }

/-- The thread returns an error, and drops `feed_rx`. -/
def die (j : Job σ) : Job σ := { j with feed := [], enc := .died, outs := [] }

/-- `stream_encode`, step by step. -/
def step (z : Zstd σ) (span : ℕ) (j : Job σ) : EncodeAct → Option (Job σ)
  | .fill =>
      if j.loop = .filling then
        let feeder := j.feeder.fill
        some { j with
          feeder := feeder
          loop := if feeder.queue = [] then .ended else .awaiting }
      else none
  | .settle i r =>
      if j.loop = .ended then none
      else (j.feeder.settle i r).map fun feeder => { j with feeder := feeder }
  | .take =>
      if j.loop = .awaiting then
        match j.feeder.queue with
        | ⟨_, some (some b)⟩ :: queue =>
            match j.enc with
            | .died => some j.stop
            | _ =>
                if j.feed.length < FEED_AHEAD then
                  some { j with
                    feeder := { j.feeder with queue := queue }
                    feed := j.feed ++ [b]
                    loop := .filling }
                else none
        -- the error is sent before `feed_tx` is dropped
        | ⟨_, some none⟩ :: _ => some { j.stop with out := j.out.fail }
        | _ => none
      else none
  | .start =>
      match j.enc with
      | .fresh =>
          match z.new with
          | some s => some { j with enc := .working s }
          | none => some j.die
      | _ => none
  | .encode =>
      match j.enc, j.outs, j.feed with
      | .working s, [], b :: feed =>
          match z.write s b with
          | (outs, some s) => some { j with feed := feed, enc := .working s, outs := outs }
          | (outs, none) => some { j with feed := feed, enc := .closing false, outs := outs }
      | _, _, _ => none
  | .put =>
      match j.outs with
      | d :: ds =>
          match j.out.write d with
          | some out => some { j with out := out, outs := ds }
          | none => some j.die
      | [] => none
  | .finish =>
      match j.enc, j.outs, j.feed, j.loop with
      | .working s, [], [], .ended =>
          let (outs, ok) := z.finish s
          some { j with enc := .closing ok, outs := outs }
      | _, _, _, _ => none
  | .close =>
      match j.enc, j.outs with
      | .closing true, [] =>
          match j.out.flushAll with
          | some out => some { j with enc := .finished, out := out }
          | none => some j.die
      | .closing false, [] => some j.die
      | _, _ => none
  | .join =>
      if j.joined then none
      else
        match j.loop, j.enc with
        | .ended, .finished =>
            some { j with joined := true, stats := if j.failed then j.stats else some span }
        | .ended, .died => some { j with joined := true, out := j.out.fail }
        | _, _ => none
  | .leave => if j.out.gone then none else some { j with out := { j.out with gone := true } }

/-- What a step can do. -/
inductive Moves (z : Zstd σ) (span : ℕ) (j : Job σ) : EncodeAct → Job σ → Prop
  | ended : j.loop = .filling → j.feeder.fill.queue = [] →
      Moves z span j .fill { j with feeder := j.feeder.fill, loop := .ended }
  | filled : j.loop = .filling → j.feeder.fill.queue ≠ [] →
      Moves z span j .fill { j with feeder := j.feeder.fill, loop := .awaiting }
  | settled {i : ℕ} {r : Option Bytes} {feeder : Feeder} : j.loop ≠ .ended →
      j.feeder.settle i r = some feeder →
      Moves z span j (.settle i r) { j with feeder := feeder }
  | fed {d : PieceDesc} {b : Bytes} {queue : List Fetched} : j.loop = .awaiting →
      j.feeder.queue = ⟨d, some (some b)⟩ :: queue → j.enc ≠ .died →
      j.feed.length < FEED_AHEAD →
      Moves z span j .take { j with
        feeder := { j.feeder with queue := queue }
        feed := j.feed ++ [b]
        loop := .filling }
  | hungUp : j.loop = .awaiting → j.feeder.queue ≠ [] → j.enc = .died →
      Moves z span j .take j.stop
  | failed : j.loop = .awaiting → j.feeder.queue ≠ [] →
      Moves z span j .take { j.stop with out := j.out.fail }
  | opened {s : σ} : j.enc = .fresh → z.new = some s →
      Moves z span j .start { j with enc := .working s }
  | encoded {s s' : σ} {b : Bytes} {feed outs : List Bytes} : j.enc = .working s →
      j.outs = [] → j.feed = b :: feed → z.write s b = (outs, some s') →
      Moves z span j .encode { j with feed := feed, enc := .working s', outs := outs }
  | refused {s : σ} {b : Bytes} {feed outs : List Bytes} : j.enc = .working s →
      j.outs = [] → j.feed = b :: feed → z.write s b = (outs, none) →
      Moves z span j .encode { j with feed := feed, enc := .closing false, outs := outs }
  | written {d : Bytes} {ds : List Bytes} {out : ChannelWriter} : j.outs = d :: ds →
      j.out.write d = some out → Moves z span j .put { j with out := out, outs := ds }
  | finishing {s : σ} {outs : List Bytes} {ok : Bool} : j.enc = .working s →
      j.outs = [] → j.feed = [] → j.loop = .ended → z.finish s = (outs, ok) →
      Moves z span j .finish { j with enc := .closing ok, outs := outs }
  | closed {out : ChannelWriter} : j.enc = .closing true → j.outs = [] →
      j.out.flushAll = some out → Moves z span j .close { j with enc := .finished, out := out }
  | died {a : EncodeAct} : j.enc = .fresh ∨ j.outs ≠ [] ∨ (∃ ok, j.enc = .closing ok) →
      Moves z span j a j.die
  | joined : j.joined = false → j.loop = .ended → j.enc = .finished →
      Moves z span j .join { j with
        joined := true
        stats := if j.failed then j.stats else some span }
  | broke : j.joined = false → j.loop = .ended → j.enc = .died →
      Moves z span j .join { j with joined := true, out := j.out.fail }
  | left : j.out.gone = false →
      Moves z span j .leave { j with out := { j.out with gone := true } }

variable {z : Zstd σ} {span : ℕ} {j j' : Job σ} {a : EncodeAct}

/-- Every step is one of the moves. They are the branches of the source, with
what each finds on its way, so no proof below takes the step function apart
again. -/
theorem moves_of_step (hs : j.step z span a = some j') : Moves z span j a j' := by
  cases a with
  | fill =>
      rw [step] at hs
      split at hs
      next hloop =>
        cases hs
        by_cases hnil : j.feeder.fill.queue = []
        · simp only [if_pos hnil]
          exact .ended hloop hnil
        · simp only [if_neg hnil]
          exact .filled hloop hnil
      next => cases hs
  | settle i r =>
      rw [step] at hs
      split at hs
      next => cases hs
      next hloop =>
        obtain ⟨feeder, hsettle, rfl⟩ := Option.map_eq_some_iff.mp hs
        exact .settled hloop hsettle
  | take =>
      rw [step] at hs
      split at hs
      next hloop =>
        split at hs
        next d b queue hqueue =>
          split at hs
          next henc =>
            cases hs
            exact .hungUp hloop (by rw [hqueue]; exact List.cons_ne_nil _ _) henc
          next hlive =>
            split at hs
            next hlt =>
              cases hs
              exact .fed hloop hqueue hlive hlt
            next => cases hs
        next d queue hqueue =>
          cases hs
          exact .failed hloop (by rw [hqueue]; exact List.cons_ne_nil _ _)
        next => cases hs
      next => cases hs
  | start =>
      rw [step] at hs
      split at hs
      next henc =>
        split at hs
        next s hnew =>
          cases hs
          exact .opened henc hnew
        next =>
          cases hs
          exact .died (Or.inl henc)
      next => cases hs
  | encode =>
      rw [step] at hs
      split at hs
      next s b feed henc houts hfeed =>
        split at hs
        next outs s' hwrite =>
          cases hs
          exact .encoded henc houts hfeed hwrite
        next outs hwrite =>
          cases hs
          exact .refused henc houts hfeed hwrite
      next => cases hs
  | put =>
      rw [step] at hs
      split at hs
      next d ds houts =>
        split at hs
        next out hwrite =>
          cases hs
          exact .written houts hwrite
        next =>
          cases hs
          exact .died (Or.inr (Or.inl (by rw [houts]; exact List.cons_ne_nil _ _)))
      next => cases hs
  | finish =>
      rw [step] at hs
      split at hs
      next s henc houts hfeed hloop =>
        cases hs
        exact .finishing henc houts hfeed hloop rfl
      next => cases hs
  | close =>
      rw [step] at hs
      split at hs
      next henc houts =>
        split at hs
        next out hflush =>
          cases hs
          exact .closed henc houts hflush
        next =>
          cases hs
          exact .died (Or.inr (Or.inr ⟨_, henc⟩))
      next henc houts =>
        cases hs
        exact .died (Or.inr (Or.inr ⟨_, henc⟩))
      next => cases hs
  | join =>
      rw [step] at hs
      split at hs
      next => cases hs
      next hjoined =>
        have hopen : j.joined = false := eq_false_of_ne_true hjoined
        split at hs
        next hloop henc =>
          cases hs
          exact .joined hopen hloop henc
        next hloop henc =>
          cases hs
          exact .broke hopen hloop henc
        next => cases hs
  | leave =>
      rw [step] at hs
      split at hs
      next => cases hs
      next hgone =>
        cases hs
        exact .left (eq_false_of_ne_true hgone)

-- ============================================================== what each keeps

/-- The thread has not returned. -/
def live : EncStage σ → Bool
  | .finished => false
  | .died => false
  | _ => true

/-- The loop: what it has yet to take is `ds`. -/
structure Loops (root : FileTree) (ds : List PieceDesc) (feeder : Feeder) (loop : LoopStage)
    (failed : Bool) : Prop where
  owes : loop ≠ .ended → feeder.Owes root ds ∧ failed = false
  awaiting : loop = .awaiting → feeder.queue ≠ []
  ended : loop = .ended → feeder.queue = [] ∧ (failed = false → ds = [])

/-- The thread: what it has made of the pieces `given` to it. It finishes
only when the loop has ended. -/
def Carries (z : Zstd σ) (loop : LoopStage) (enc : EncStage σ) (feed outs : List Bytes)
    (out : ChannelWriter) (given : List Bytes) : Prop :=
  match enc with
  | .fresh => feed = given ∧ outs = [] ∧ out.written = []
  | .working s => ∃ fed, fed ++ feed = given ∧ z.Wrote s fed (out.written ++ outs.flatten)
  | .closing true => loop = .ended ∧ z.decode (out.written ++ outs.flatten) = some given.flatten
  | .closing false => True
  | .finished => loop = .ended ∧ outs = [] ∧ out.buf = []
      ∧ z.decode out.written = some given.flatten
  | .died => outs = []

/-- The errors: no end goes without the one it calls for. -/
structure Erred (span : ℕ) (loop : LoopStage) (enc : EncStage σ) (failed joined : Bool)
    (stats : Option ℕ) (out : ChannelWriter) : Prop where
  clean : failed = true → none ∈ out.body ∨ out.gone = true ∨ enc = .died
  together : joined = true → loop = .ended
    ∧ (enc = .finished ∨ (enc = .died ∧ (none ∈ out.body ∨ out.gone = true)))
  measured : ∀ n, stats = some n →
    n = span ∧ joined = true ∧ enc = .finished ∧ failed = false

/-- All three. -/
structure Piped (z : Zstd σ) (root : FileTree) (span : ℕ) (all ds : List PieceDesc)
    (j : Job σ) : Prop where
  loops : Loops root ds j.feeder j.loop j.failed
  carries : ∃ before, all = before ++ ds
    ∧ Carries z j.loop j.enc j.feed j.outs j.out (before.map (PieceDesc.bytes root))
  erred : Erred span j.loop j.enc j.failed j.joined j.stats j.out
  feed : j.feed.length ≤ FEED_AHEAD
  buf : j.out.buf.length < ENCODE_FLUSH_BYTES

variable {root : FileTree} {all ds : List PieceDesc} {feeder : Feeder}
  {loop loop' : LoopStage} {enc enc' : EncStage σ} {failed joined : Bool} {stats : Option ℕ}
  {feed outs given : List Bytes} {out out' : ChannelWriter}

/-- A loop that has stopped owes the thread nothing. -/
theorem Loops.stop (feeder : Feeder) :
    Loops root ds { feeder with queue := [] } .ended true :=
  ⟨fun h => absurd rfl h, (fun h => by cases h), fun _ => ⟨rfl, fun h => by cases h⟩⟩

/-- Before the loop has ended it says nothing of where the loop is. -/
theorem Carries.turn (h : Carries z loop enc feed outs out given) (hloop : loop ≠ .ended) :
    Carries z loop' enc feed outs out given := by
  cases enc with
  | fresh => exact h
  | working s => exact h
  | closing ok =>
      cases ok with
      | true => exact absurd h.1 hloop
      | false => trivial
  | finished => exact absurd h.1 hloop
  | died => exact h

/-- What it was given may still lie in `feed`. -/
theorem Carries.fed (h : Carries z loop enc feed outs out given) (hloop : loop ≠ .ended)
    (hlive : enc ≠ .died) (b : Bytes) :
    Carries z loop' enc (feed ++ [b]) outs out (given ++ [b]) := by
  cases enc with
  | fresh =>
      obtain ⟨rfl, hrest⟩ := h
      exact ⟨rfl, hrest⟩
  | working s =>
      obtain ⟨fed, rfl, hwrote⟩ := h
      exact ⟨fed, (List.append_assoc _ _ _).symm, hwrote⟩
  | closing ok =>
      cases ok with
      | true => exact absurd h.1 hloop
      | false => trivial
  | finished => exact absurd h.1 hloop
  | died => exact absurd rfl hlive

/-- It tells of the body only what was written. -/
theorem Carries.congr_out (h : Carries z loop enc feed outs out given)
    (hwritten : out'.written = out.written) (hbuf : out'.buf = out.buf) :
    Carries z loop enc feed outs out' given := by
  unfold Carries at h ⊢
  rw [hwritten, hbuf]
  exact h

/-- What the thread may die of is not there once it has ended. -/
theorem Carries.live (h : Carries z loop enc feed outs out given)
    (hwhy : enc = .fresh ∨ outs ≠ [] ∨ ∃ ok, enc = .closing ok) :
    live enc = true := by
  cases enc with
  | fresh => rfl
  | working s => rfl
  | closing ok => rfl
  | finished =>
      rcases hwhy with hwhy | hwhy | ⟨ok, hwhy⟩
      · cases hwhy
      · exact absurd h.2.1 hwhy
      · cases hwhy
  | died =>
      rcases hwhy with hwhy | hwhy | ⟨ok, hwhy⟩
      · cases hwhy
      · exact absurd h hwhy
      · cases hwhy

/-- While the loop or the thread goes on they are not joined. -/
theorem Erred.unjoined (h : Erred span loop enc failed joined stats out)
    (hlive : loop ≠ .ended ∨ live enc = true) :
    joined = false ∧ stats = none := by
  have hjoined : joined = false := by
    refine eq_false_of_ne_true fun hjoined => ?_
    obtain ⟨hloop, henc⟩ := h.together hjoined
    rcases hlive with hlive | hlive
    · exact hlive hloop
    · rcases henc with rfl | ⟨rfl, -⟩
      · cases hlive
      · cases hlive
  refine ⟨hjoined, ?_⟩
  cases hstats : stats with
  | none => rfl
  | some n =>
      obtain ⟨-, hjoined', -⟩ := h.measured n hstats
      rw [hjoined] at hjoined'
      cases hjoined'

/-- What one of them does before they are joined. -/
theorem Erred.move (h : Erred span loop enc failed joined stats out)
    (hlive : loop ≠ .ended ∨ live enc = true) {failed' : Bool}
    (hclean : failed' = true → none ∈ out'.body ∨ out'.gone = true ∨ enc' = .died) :
    Erred span loop' enc' failed' joined stats out' := by
  obtain ⟨rfl, rfl⟩ := h.unjoined hlive
  exact ⟨hclean, (fun h => by cases h), fun n h => by cases h⟩

/-- The thread's end is an error only if it died. -/
theorem Erred.clean_of (h : Erred span loop enc failed joined stats out) (hlive : live enc = true)
    (hfailed : failed = true) : none ∈ out.body ∨ out.gone = true ∨ enc' = .died := by
  rcases h.clean hfailed with hsent | hgone | hdied
  · exact Or.inl hsent
  · exact Or.inr (Or.inl hgone)
  · rw [hdied] at hlive
    cases hlive

/-- Of the output it matters only whether it has an error in it and whether
anyone reads it. -/
theorem Erred.congr_out (h : Erred span loop enc failed joined stats out)
    (hbody : none ∈ out'.body ↔ none ∈ out.body) (hgone : out'.gone = out.gone) :
    Erred span loop enc failed joined stats out' :=
  ⟨by rw [hbody, hgone]; exact h.clean, by rw [hbody, hgone]; exact h.together, h.measured⟩

/-- One of its pieces is written. -/
theorem Carries.put {d : Bytes} (h : Carries z loop enc feed (d :: outs) out given)
    (hwritten : out'.written = out.written ++ d) : Carries z loop enc feed outs out' given := by
  have hall : out.written ++ (d :: outs).flatten = out'.written ++ outs.flatten := by
    rw [hwritten, List.append_assoc]
    rfl
  cases enc with
  | fresh => exact absurd h.2.1 (List.cons_ne_nil _ _)
  | working s =>
      obtain ⟨fed, hgiven, hwrote⟩ := h
      exact ⟨fed, hgiven, hall ▸ hwrote⟩
  | closing ok =>
      cases ok with
      | true => exact ⟨h.1, hall ▸ h.2⟩
      | false => trivial
  | finished => exact absurd h.2.1 (List.cons_ne_nil _ _)
  | died => exact absurd h (List.cons_ne_nil _ _)

-- ==================================================================== one step

/-- The steps the thread has left, but for what it writes. -/
def owedBy : EncStage σ → ℕ
  | .fresh => 3
  | .working _ => 2
  | .closing _ => 1
  | .finished => 0
  | .died => 0

/-- The steps that are left at most, but for what the thread writes: a
piece that is taken must also be encoded, so the loop's count double. -/
def owed (ds : List PieceDesc) (j : Job σ) : ℕ :=
  2 * (match j.loop with
    | .filling => j.feeder.work ds + 1
    | .awaiting => j.feeder.work ds
    | .ended => 0)
  + j.feed.length + owedBy j.enc + (!j.joined).toNat + (!j.out.gone).toNat

/-- `put` is the one that is not counted. -/
def price : EncodeAct → ℕ
  | .put => 0
  | _ => 1

/-- No step is worth more than one. -/
theorem price_le (a : EncodeAct) : price a ≤ 1 := by
  cases a with
  | put => exact Nat.zero_le _
  | _ => exact le_rfl

/-- A read that succeeds has read its file. -/
def rightReads (root : FileTree) (j : Job σ) : EncodeAct → Bool
  | .settle i r => j.feeder.rightRead root i r
  | _ => true

/-- A step that keeps the pipe in order and takes its price off what is
left. -/
def Advances (z : Zstd σ) (root : FileTree) (span : ℕ) (all ds : List PieceDesc) (a : EncodeAct)
    (j j' : Job σ) : Prop :=
  ∃ ds', j'.Piped z root span all ds' ∧ owed ds' j' + price a ≤ owed ds j

namespace Piped

/-- The queue is empty even after a refill: there is no piece left. -/
theorem step_ended (h : j.Piped z root span all ds)
    (hloop : j.loop = .filling) (hnil : j.feeder.fill.queue = []) :
    Advances z root span all ds .fill j { j with feeder := j.feeder.fill, loop := .ended } := by
  obtain ⟨before, hall, hcarries⟩ := h.carries
  have hlive : j.loop ≠ .ended := by rw [hloop]; exact fun h => by cases h
  obtain ⟨-, hempty⟩ := (h.loops.owes hlive).1.fill
  refine ⟨ds, ⟨⟨fun h => absurd rfl h, (fun h => by cases h),
      fun _ => ⟨hnil, fun _ => hempty hnil⟩⟩,
    ⟨before, hall, hcarries.turn hlive⟩, h.erred.move (Or.inl hlive) h.erred.clean, h.feed,
    h.buf⟩, ?_⟩
  simp only [owed, hloop, price]
  omega

/-- The queue is filled as far as it goes, and the loop waits for its head. -/
theorem step_filled (h : j.Piped z root span all ds)
    (hloop : j.loop = .filling) (hne : j.feeder.fill.queue ≠ []) :
    Advances z root span all ds .fill j { j with feeder := j.feeder.fill, loop := .awaiting } := by
  obtain ⟨before, hall, hcarries⟩ := h.carries
  have hlive : j.loop ≠ .ended := by rw [hloop]; exact fun h => by cases h
  obtain ⟨howes, hfailed⟩ := h.loops.owes hlive
  refine ⟨ds, ⟨⟨fun _ => ⟨howes.fill.1, hfailed⟩, fun _ => hne, (fun h => by cases h)⟩,
    ⟨before, hall, hcarries.turn hlive⟩, h.erred.move (Or.inl hlive) h.erred.clean, h.feed,
    h.buf⟩, ?_⟩
  have hle := howes.work_fillBy (n := READ_AHEAD - j.feeder.queue.length)
    (by have := howes.ahead; omega)
  simp only [owed, hloop, price, Feeder.fill]
  omega

/-- A read in flight comes to its end, in whatever order they do. -/
theorem step_settled (h : j.Piped z root span all ds)
    {i : ℕ} {r : Option Bytes} {feeder : Feeder} (hlive : j.loop ≠ .ended)
    (hsettle : j.feeder.settle i r = some feeder) (hok : j.feeder.rightRead root i r = true) :
    Advances z root span all ds (.settle i r) j { j with feeder := feeder } := by
  obtain ⟨before, hall, hcarries⟩ := h.carries
  obtain ⟨howes, hfailed⟩ := h.loops.owes hlive
  refine ⟨ds, ⟨⟨fun _ => ⟨howes.settle hsettle hok, hfailed⟩,
    fun hst => Feeder.settle_ne_nil hsettle (h.loops.awaiting hst),
    fun hst => absurd hst hlive⟩,
    ⟨before, hall, hcarries⟩, h.erred, h.feed, h.buf⟩, ?_⟩
  have hless := Feeder.work_settle ds hsettle
  cases hloop : j.loop with
  | ended => exact absurd hloop hlive
  | filling =>
      simp only [owed, hloop, price]
      omega
  | awaiting =>
      simp only [owed, hloop, price]
      omega

/-- A piece goes from the queue to the feed, and is one the thread is given. -/
theorem step_fed (h : j.Piped z root span all ds)
    {d : PieceDesc} {b : Bytes} {queue : List Fetched} (hloop : j.loop = .awaiting)
    (hqueue : j.feeder.queue = ⟨d, some (some b)⟩ :: queue) (hlive : j.enc ≠ .died)
    (hlt : j.feed.length < FEED_AHEAD) :
    Advances z root span all ds .take j { j with
      feeder := { j.feeder with queue := queue }
      feed := j.feed ++ [b]
      loop := .filling } := by
  obtain ⟨before, hall, hcarries⟩ := h.carries
  have hrun : j.loop ≠ .ended := by rw [hloop]; exact fun h => by cases h
  obtain ⟨howes, hfailed⟩ := h.loops.owes hrun
  have hfeeder : j.feeder = ⟨j.feeder.pieces, ⟨d, some (some b)⟩ :: queue⟩ := by
    rw [← hqueue]
  rw [hfeeder] at howes
  obtain ⟨ds', rfl, hrest⟩ := howes.pop
  have hb : b = d.bytes root := howes.right _ List.mem_cons_self b rfl
  refine ⟨ds', ⟨⟨fun _ => ⟨hrest, hfailed⟩, (fun h => by cases h), (fun h => by cases h)⟩,
    ⟨before ++ [d], ?_, ?_⟩, h.erred.move (Or.inl hrun) h.erred.clean, ?_, h.buf⟩, ?_⟩
  · rw [hall, List.append_assoc]
    rfl
  · rw [List.map_append, List.map_singleton, ← hb]
    exact hcarries.fed hrun hlive b
  · rw [List.length_append, List.length_singleton]
    exact hlt
  · have hwork : j.feeder.work (d :: ds')
        = Feeder.work ⟨j.feeder.pieces, queue⟩ ds' + 2 := by
      rw [hfeeder]
      exact Feeder.work_pop ds'
    simp only [owed, hloop, price, List.length_append, List.length_singleton]
    omega

/-- The thread is gone, so the loop ends with pieces left. -/
theorem step_hungUp (h : j.Piped z root span all ds)
    (hloop : j.loop = .awaiting) (hne : j.feeder.queue ≠ []) (henc : j.enc = .died) :
    Advances z root span all ds .take j j.stop := by
  obtain ⟨before, hall, hcarries⟩ := h.carries
  have hrun : j.loop ≠ .ended := by rw [hloop]; exact fun h => by cases h
  refine ⟨ds, ⟨Loops.stop _, ⟨before, hall, hcarries.turn hrun⟩,
    h.erred.move (Or.inl hrun) fun _ => Or.inr (Or.inr henc), h.feed, h.buf⟩, ?_⟩
  have hpos := Feeder.work_pos (h.loops.owes hrun).1 hne
  simp only [owed, stop, hloop, price]
  omega

/-- A read has failed: the body ends in an error, unless nobody reads it. -/
theorem step_failed (h : j.Piped z root span all ds)
    (hloop : j.loop = .awaiting) (hne : j.feeder.queue ≠ []) :
    Advances z root span all ds .take j { j.stop with out := j.out.fail } := by
  obtain ⟨before, hall, hcarries⟩ := h.carries
  have hrun : j.loop ≠ .ended := by rw [hloop]; exact fun h => by cases h
  obtain ⟨hwritten, hbuf, hgone, -, hsent⟩ := ChannelWriter.fail_spec j.out
  refine ⟨ds, ⟨Loops.stop _, ⟨before, hall, (hcarries.turn hrun).congr_out hwritten hbuf⟩,
    h.erred.move (Or.inl hrun) fun _ => ?_, h.feed, ?_⟩, ?_⟩
  · cases hleft : j.out.gone with
    | false => exact Or.inl (hsent hleft)
    | true => exact Or.inr (Or.inl (hgone.trans hleft))
  · show j.out.fail.buf.length < _
    rw [hbuf]
    exact h.buf
  · have hpos := Feeder.work_pos (h.loops.owes hrun).1 hne
    simp only [owed, stop, hloop, price, hgone]
    omega

/-- The encoder is there, and has been given nothing. -/
theorem step_opened (h : j.Piped z root span all ds)
    {s : σ} (henc : j.enc = .fresh) (hnew : z.new = some s) :
    Advances z root span all ds .start j { j with enc := .working s } := by
  obtain ⟨before, hall, hcarries⟩ := h.carries
  unfold Carries at hcarries
  rw [henc] at hcarries
  obtain ⟨hfeed, houts, hwritten⟩ := hcarries
  have hlive : live j.enc = true := by rw [henc]; rfl
  refine ⟨ds, ⟨h.loops, ⟨before, hall, [], hfeed, ?_⟩,
    h.erred.move (Or.inr hlive) (h.erred.clean_of hlive), h.feed, h.buf⟩, ?_⟩
  · show z.Wrote _ [] (j.out.written ++ j.outs.flatten)
    rw [hwritten, houts]
    exact .new hnew
  · simp only [owed, henc, owedBy, price]
    omega

/-- What was given and not fed yet is fed, and what comes of it is to be written. -/
theorem step_encoded (h : j.Piped z root span all ds)
    {s s' : σ} {b : Bytes} {feed outs : List Bytes} (henc : j.enc = .working s)
    (houts : j.outs = []) (hfeed : j.feed = b :: feed) (hwrite : z.write s b = (outs, some s')) :
    Advances z root span all ds .encode j
      { j with feed := feed, enc := .working s', outs := outs } := by
  obtain ⟨before, hall, hcarries⟩ := h.carries
  unfold Carries at hcarries
  rw [henc] at hcarries
  obtain ⟨fed, hgiven, hwrote⟩ := hcarries
  have hlive : live j.enc = true := by rw [henc]; rfl
  rw [houts, List.flatten_nil, List.append_nil] at hwrote
  rw [hfeed] at hgiven
  have hle := h.feed
  rw [hfeed, List.length_cons] at hle
  refine ⟨ds, ⟨h.loops, ⟨before, hall, _, ?_, hwrote.write hwrite⟩,
    h.erred.move (Or.inr hlive) (h.erred.clean_of hlive), Nat.le_of_succ_le hle, h.buf⟩, ?_⟩
  · rw [List.append_assoc]
    exact hgiven
  · simp only [owed, henc, hfeed, owedBy, price, List.length_cons]
    omega

/-- The encoder refuses what it is fed; what it has put out is written all the
same. -/
theorem step_refused (h : j.Piped z root span all ds)
    {s : σ} {b : Bytes} {feed outs : List Bytes} (henc : j.enc = .working s)
    (hfeed : j.feed = b :: feed) :
    Advances z root span all ds .encode j
      { j with feed := feed, enc := .closing false, outs := outs } := by
  obtain ⟨before, hall, -⟩ := h.carries
  have hlive : live j.enc = true := by rw [henc]; rfl
  have hle := h.feed
  rw [hfeed, List.length_cons] at hle
  refine ⟨ds, ⟨h.loops, ⟨before, hall, trivial⟩,
    h.erred.move (Or.inr hlive) (h.erred.clean_of hlive), Nat.le_of_succ_le hle, h.buf⟩, ?_⟩
  simp only [owed, henc, hfeed, owedBy, price, List.length_cons]
  omega

/-- What the encoder has put out goes to the writer, piece by piece. -/
theorem step_written (h : j.Piped z root span all ds)
    {d : Bytes} {ds' : List Bytes} {out : ChannelWriter} (houts : j.outs = d :: ds')
    (hwrite : j.out.write d = some out) :
    Advances z root span all ds .put j { j with out := out, outs := ds' } := by
  obtain ⟨before, hall, hcarries⟩ := h.carries
  obtain ⟨hwritten, hbuf, hbody, hgone⟩ := ChannelWriter.write_spec hwrite
  refine ⟨ds, ⟨h.loops, ⟨before, hall, ?_⟩, h.erred.congr_out hbody hgone, h.feed, hbuf⟩, ?_⟩
  · rw [houts] at hcarries
    exact hcarries.put hwritten
  · simp only [owed, price, hgone]
    omega

/-- With the feed used up and the loop over, all has been fed, and a frame of it
is what the encoder's law makes of the rest. -/
theorem step_finishing (hz : z.Lawful) (h : j.Piped z root span all ds)
    {s : σ} {outs : List Bytes} {ok : Bool} (henc : j.enc = .working s)
    (houts : j.outs = []) (hfeed : j.feed = []) (hloop : j.loop = .ended)
    (hfinish : z.finish s = (outs, ok)) :
    Advances z root span all ds .finish j { j with enc := .closing ok, outs := outs } := by
  obtain ⟨before, hall, hcarries⟩ := h.carries
  unfold Carries at hcarries
  rw [henc] at hcarries
  obtain ⟨fed, hgiven, hwrote⟩ := hcarries
  have hlive : live j.enc = true := by rw [henc]; rfl
  rw [houts, List.flatten_nil, List.append_nil] at hwrote
  rw [hfeed, List.append_nil] at hgiven
  refine ⟨ds, ⟨h.loops, ⟨before, hall, ?_⟩,
    h.erred.move (Or.inr hlive) (h.erred.clean_of hlive), h.feed, h.buf⟩, ?_⟩
  · cases ok with
    | false => trivial
    | true => exact ⟨hloop, hgiven ▸ hz hwrote hfinish⟩
  · simp only [owed, henc, owedBy, price]
    omega

/-- The frame is whole and its end flushed: what was written decodes to what
was given. -/
theorem step_closed (h : j.Piped z root span all ds)
    {out : ChannelWriter} (henc : j.enc = .closing true) (houts : j.outs = [])
    (hflush : j.out.flushAll = some out) :
    Advances z root span all ds .close j { j with enc := .finished, out := out } := by
  obtain ⟨before, hall, hcarries⟩ := h.carries
  unfold Carries at hcarries
  rw [henc] at hcarries
  obtain ⟨hloop, hdecode⟩ := hcarries
  have hlive : live j.enc = true := by rw [henc]; rfl
  obtain ⟨hwritten, hbuf, hbody, hgone⟩ := ChannelWriter.flushAll_spec hflush
  rw [houts, List.flatten_nil, List.append_nil, ← hwritten] at hdecode
  refine ⟨ds, ⟨h.loops, ⟨before, hall, hloop, houts, hbuf, hdecode⟩,
    h.erred.move (Or.inr hlive) fun hfailed => ?_, h.feed, ?_⟩, ?_⟩
  · rw [hbody, hgone]
    exact (h.erred.clean_of hlive hfailed)
  · show List.length _ < _
    rw [hbuf]
    decide
  · simp only [owed, henc, owedBy, price, hgone]
    omega

/-- Whatever the thread dies of, it had a step left, and the feed goes with it. -/
theorem step_died (h : j.Piped z root span all ds)
    {a : EncodeAct} (hwhy : j.enc = .fresh ∨ j.outs ≠ [] ∨ ∃ ok, j.enc = .closing ok) :
    Advances z root span all ds a j j.die := by
  obtain ⟨before, hall, hcarries⟩ := h.carries
  have hlive : live j.enc = true := hcarries.live hwhy
  refine ⟨ds, ⟨h.loops, ⟨before, hall, rfl⟩,
    h.erred.move (Or.inr hlive) fun _ => Or.inr (Or.inr rfl), Nat.zero_le _, h.buf⟩, ?_⟩
  have hpos : 0 < owedBy j.enc := by
    cases henc : j.enc with
    | finished => rw [henc] at hlive; cases hlive
    | died => rw [henc] at hlive; cases hlive
    | fresh => exact Nat.succ_pos 2
    | working s => exact Nat.two_pos
    | closing ok => exact Nat.one_pos
  have hone := price_le a
  have hdied : owedBy (EncStage.died : EncStage σ) = 0 := rfl
  simp only [owed, die, hdied, List.length_nil]
  omega

/-- Both are through, and the measure is taken unless the loop failed. -/
theorem step_joined (h : j.Piped z root span all ds)
    (hopen : j.joined = false) (hloop : j.loop = .ended) (henc : j.enc = .finished) :
    Advances z root span all ds .join j { j with
      joined := true
      stats := if j.failed then j.stats else some span } := by
  obtain ⟨before, hall, hcarries⟩ := h.carries
  refine ⟨ds, ⟨h.loops, ⟨before, hall, hcarries⟩,
    ⟨h.erred.clean, fun _ => ⟨hloop, Or.inl henc⟩, fun n hn => ?_⟩, h.feed, h.buf⟩, ?_⟩
  · simp only at hn
    split at hn
    next =>
      obtain ⟨-, hjoined, -⟩ := h.erred.measured n hn
      rw [hopen] at hjoined
      cases hjoined
    next hfailed =>
      cases hn
      exact ⟨rfl, rfl, henc, eq_false_of_ne_true hfailed⟩
  · simp only [owed, hopen, price, Bool.not_false, Bool.not_true, Bool.toNat_true,
      Bool.toNat_false]
    omega

/-- The thread is gone, so the body gets its error now at the latest. -/
theorem step_broke (h : j.Piped z root span all ds)
    (hopen : j.joined = false) (hloop : j.loop = .ended) (henc : j.enc = .died) :
    Advances z root span all ds .join j { j with joined := true, out := j.out.fail } := by
  obtain ⟨before, hall, hcarries⟩ := h.carries
  obtain ⟨hwritten, hbuf, hgone, hkept, hsent⟩ := ChannelWriter.fail_spec j.out
  have herror : none ∈ j.out.fail.body ∨ j.out.fail.gone = true := by
    cases hleft : j.out.gone with
    | false => exact Or.inl (hsent hleft)
    | true => exact Or.inr (hgone.trans hleft)
  refine ⟨ds, ⟨h.loops, ⟨before, hall, hcarries.congr_out hwritten hbuf⟩,
    ⟨fun _ => Or.inr (Or.inr henc), fun _ => ⟨hloop, Or.inr ⟨henc, herror⟩⟩, fun n hn => ?_⟩,
    h.feed, ?_⟩, ?_⟩
  · obtain ⟨-, hjoined, -⟩ := h.erred.measured n hn
    rw [hopen] at hjoined
    cases hjoined
  · show j.out.fail.buf.length < _
    rw [hbuf]
    exact h.buf
  · simp only [owed, hopen, hgone, price, Bool.not_false, Bool.not_true, Bool.toNat_true,
      Bool.toNat_false]
    omega

/-- The client may go at any time; the next send finds out. -/
theorem step_left (h : j.Piped z root span all ds)
    (hgone : j.out.gone = false) :
    Advances z root span all ds .leave j { j with out := { j.out with gone := true } } := by
  obtain ⟨before, hall, hcarries⟩ := h.carries
  refine ⟨ds, ⟨h.loops, ⟨before, hall, hcarries.congr_out rfl rfl⟩,
    ⟨fun _ => Or.inr (Or.inl rfl), fun hjoined => ?_, h.erred.measured⟩, h.feed, h.buf⟩, ?_⟩
  · obtain ⟨hloop, henc⟩ := h.erred.together hjoined
    exact ⟨hloop, henc.imp_right fun hdied => ⟨hdied.1, Or.inr rfl⟩⟩
  · simp only [owed, hgone, price, Bool.not_false, Bool.not_true, Bool.toNat_true,
      Bool.toNat_false]
    omega

end Piped

/-- Whatever moves, the pipe stays in order and less is left to do. -/
theorem Piped.step (hz : z.Lawful) (h : j.Piped z root span all ds)
    (hok : rightReads root j a = true) (hm : Moves z span j a j') :
    Advances z root span all ds a j j' := by
  cases hm with
  | ended hloop hnil => exact h.step_ended hloop hnil
  | filled hloop hne => exact h.step_filled hloop hne
  | settled hlive hsettle => exact h.step_settled hlive hsettle hok
  | fed hloop hqueue hlive hlt => exact h.step_fed hloop hqueue hlive hlt
  | hungUp hloop hne henc => exact h.step_hungUp hloop hne henc
  | failed hloop hne => exact h.step_failed hloop hne
  | opened henc hnew => exact h.step_opened henc hnew
  | encoded henc houts hfeed hwrite => exact h.step_encoded henc houts hfeed hwrite
  | refused henc houts hfeed hwrite => exact h.step_refused henc hfeed
  | written houts hwrite => exact h.step_written houts hwrite
  | finishing henc houts hfeed hloop hfinish =>
      exact h.step_finishing hz henc houts hfeed hloop hfinish
  | closed henc houts hflush => exact h.step_closed henc houts hflush
  | died hwhy => exact h.step_died hwhy
  | joined hopen hloop henc => exact h.step_joined hopen hloop henc
  | broke hopen hloop henc => exact h.step_broke hopen hloop henc
  | left hgone => exact h.step_left hgone

/-- A thread that has not returned has a step to take, once it is fed or
will be fed no more. -/
theorem enabled_of_live (hlive : live j.enc = true) (hfed : j.feed ≠ [] ∨ j.loop = .ended) :
    ∃ a, a ≠ .leave ∧ rightReads root j a = true ∧ (j.step z span a).isSome = true := by
  cases houts : j.outs with
  | cons d outs =>
      refine ⟨.put, (fun h => by cases h), rfl, ?_⟩
      rw [step, houts]
      cases hwrite : j.out.write d with
      | some out => simp only [hwrite, Option.isSome_some]
      | none => simp only [hwrite, Option.isSome_some]
  | nil =>
      cases henc : j.enc with
      | finished =>
          rw [henc] at hlive
          cases hlive
      | died =>
          rw [henc] at hlive
          cases hlive
      | fresh =>
          refine ⟨.start, (fun h => by cases h), rfl, ?_⟩
          rw [step, henc]
          cases hnew : z.new with
          | some s => rfl
          | none => rfl
      | working s =>
          cases hfeed : j.feed with
          | cons b feed =>
              refine ⟨.encode, (fun h => by cases h), rfl, ?_⟩
              rw [step, henc, houts, hfeed]
              rcases hwrite : z.write s b with ⟨outs, _ | s'⟩
              · simp only [hwrite, Option.isSome_some]
              · simp only [hwrite, Option.isSome_some]
          | nil =>
              have hloop := hfed.resolve_left (not_not.mpr hfeed)
              refine ⟨.finish, (fun h => by cases h), rfl, ?_⟩
              rw [step, henc, houts, hfeed, hloop]
              rfl
      | closing ok =>
          refine ⟨.close, (fun h => by cases h), rfl, ?_⟩
          cases ok with
          | false =>
              rw [step, henc, houts]
              rfl
          | true =>
              rw [step, henc, houts]
              cases hflush : j.out.flushAll with
              | some out => rfl
              | none => rfl

/-- Until they are joined there is a step to take, whether the client
leaves or not. -/
theorem Piped.enabled (h : j.Piped z root span all ds) (hopen : j.joined = false) :
    ∃ a, a ≠ .leave ∧ rightReads root j a = true ∧ (j.step z span a).isSome = true := by
  cases hloop : j.loop with
  | filling =>
      refine ⟨.fill, (fun h => by cases h), rfl, ?_⟩
      rw [Job.step, if_pos hloop]
      rfl
  | ended =>
      cases hlive : live j.enc with
      | true => exact enabled_of_live hlive (Or.inr hloop)
      | false =>
          refine ⟨.join, (fun h => by cases h), rfl, ?_⟩
          rw [Job.step, hopen, hloop, if_neg Bool.false_ne_true]
          cases henc : j.enc with
          | finished => rfl
          | died => rfl
          | _ =>
              rw [henc] at hlive
              cases hlive
  | awaiting =>
      have hrun : j.loop ≠ .ended := by rw [hloop]; exact fun h => by cases h
      cases hqueue : j.feeder.queue with
      | nil => exact absurd hqueue (h.loops.awaiting hloop)
      | cons x queue =>
          obtain ⟨d, r⟩ := x
          rcases r with _ | _ | b
          · have hright : rightReads root j (.settle 0 (some (d.bytes root))) = true := by
              rw [rightReads, Feeder.rightRead, hqueue]
              exact decide_eq_true rfl
            refine ⟨_, (fun h => by cases h), hright, ?_⟩
            rw [Job.step, if_neg hrun, Feeder.settle, hqueue]
            rfl
          · refine ⟨.take, (fun h => by cases h), rfl, ?_⟩
            rw [Job.step, if_pos hloop, hqueue]
            rfl
          · by_cases hfull : live j.enc = true ∧ ¬ j.feed.length < FEED_AHEAD
            · -- it waits for the thread
              refine enabled_of_live hfull.1 (Or.inl fun hnil => hfull.2 ?_)
              rw [hnil]
              decide
            · refine ⟨.take, (fun h => by cases h), rfl, ?_⟩
              rw [Job.step, if_pos hloop, hqueue]
              obtain ⟨before, -, hcarries⟩ := h.carries
              cases henc : j.enc with
              | died => rfl
              | finished =>
                  unfold Carries at hcarries
                  rw [henc] at hcarries
                  exact absurd hcarries.1 hrun
              | _ =>
                  rw [henc] at hfull
                  have hlt := not_not.mp fun hlt => hfull ⟨rfl, hlt⟩
                  simp only [if_pos hlt, Option.isSome_some]

end Job

-- ============================================================= what a run comes to

/-- Without an error among them the chunks are all there is. -/
theorem map_some_filterMap_id {α : Type} {l : List (Option α)} (h : none ∉ l) :
    (l.filterMap id).map some = l := by
  induction l with
  | nil => rfl
  | cons a l ih =>
      cases a with
      | none => exact absurd List.mem_cons_self h
      | some a =>
          show some a :: (l.filterMap id).map some = _
          rw [ih fun hin => h (List.mem_cons_of_mem _ hin)]

/-- The runs of `stream_encode` over a range of a tree's table. -/
def encoding {σ : Type} (z : Zstd σ) (root : FileTree) (start end_ : ℕ) :
    System (Job σ) EncodeAct where
  init j := j = { feeder := { pieces := Pieces.new (SeekTable.build root) start end_ } }
  step := Job.step z (end_ - start)

/-- Where a run has got to: once the two are joined and the client is
there, the body is an error or a frame of the range, and whatever a
fetcher takes of it is an answer; times are kept only of a frame of the
whole range; little is held; and until they are joined there is a step to
take. -/
structure Job.Exact {σ : Type} (z : Zstd σ) (root : FileTree) (start end_ : ℕ) (j : Job σ) :
    Prop where
  body : j.joined = true → j.out.gone = false → none ∈ j.out.body
    ∨ ∃ chunks : List Bytes, j.out.body = chunks.map some
      ∧ z.decode chunks.flatten = some (slice (narOf root) start end_)
  fetched : j.joined = true → j.out.gone = false → ∀ contentLength b,
    unpack (some z.decode) contentLength (end_ - start) j.out.body = some b →
      Answers root start (end_ - start) b
  measured : ∀ n, j.stats = some n → n = end_ - start
    ∧ z.decode j.out.written = some (slice (narOf root) start end_)
  ahead : j.feeder.queue.length ≤ READ_AHEAD ∧ j.feed.length ≤ FEED_AHEAD
    ∧ j.out.buf.length < ENCODE_FLUSH_BYTES
  enabled : j.joined = false → ∃ a, a ≠ .leave ∧ rightReads root j a = true
    ∧ (j.step z (end_ - start) a).isSome = true

namespace Job

variable {σ : Type} {z : Zstd σ} {root : FileTree} {all ds : List PieceDesc} {start end_ : ℕ}
  {j j' : Job σ}

/-- At the beginning all pieces are still to be read and nothing is
written. -/
theorem piped_start (hyields : (Pieces.new (SeekTable.build root) start end_).Yields ds)
    (h : (encoding z root start end_).init j) : j.Piped z root (end_ - start) ds ds := by
  rcases h with rfl
  have howes : Feeder.Owes root ⟨Pieces.new (SeekTable.build root) start end_, []⟩ ds :=
    ⟨⟨ds, hyields, rfl⟩, fun x hx => absurd hx List.not_mem_nil, Nat.zero_le _⟩
  exact ⟨⟨fun _ => ⟨howes, rfl⟩, (fun h => by cases h), (fun h => by cases h)⟩,
    ⟨[], rfl, rfl, rfl, rfl⟩,
    ⟨(fun h => by cases h), (fun h => by cases h), fun n h => by cases h⟩, Nat.zero_le _,
    show 0 < ENCODE_FLUSH_BYTES by decide⟩

/-- In every run whose reads give their files' bytes, the pipe is in order
with some of the pieces left. -/
theorem piped_of_reach (hz : z.Lawful)
    (hyields : (Pieces.new (SeekTable.build root) start end_).Yields ds)
    (h : (encoding z root start end_).ReachIf (fun j a => rightReads root j a = true) j) :
    ∃ ds', j.Piped z root (end_ - start) ds ds' := by
  refine h.invariant (I := fun j => ∃ ds', j.Piped z root (end_ - start) ds ds')
    (fun _ hinit => ⟨ds, piped_start hyields hinit⟩) fun j a j' _ hold hok hstep => ?_
  obtain ⟨left, hold⟩ := hold
  obtain ⟨left', hnew, -⟩ := hold.step hz hok (moves_of_step hstep)
  exact ⟨left', hnew⟩

/-- No run is longer, but for what the thread writes. -/
theorem run_price_le {as : List EncodeAct} (hz : z.Lawful)
    (h : j.Piped z root (end_ - start) all ds)
    (hrun : (encoding z root start end_).runIf (fun j a => rightReads root j a = true) j as
      = some j') : (as.map price).sum ≤ owed ds j := by
  induction as generalizing j ds with
  | nil => exact Nat.zero_le _
  | cons a as ih =>
      rw [System.runIf] at hrun
      split at hrun
      next hok =>
        obtain ⟨j₁, hstep, hrest⟩ := Option.bind_eq_some_iff.mp hrun
        obtain ⟨ds', hnew, hle⟩ := h.step hz hok (moves_of_step hstep)
        have hmore := ih hnew hrest
        rw [List.map_cons, List.sum_cons]
        omega
      next => cases hrun

end Job

/-- However the reads come back, wherever the loop and the thread stand to
each other, and whatever fails: a joined run has sent the range as one
frame, or an error. -/
theorem encoding_exact {σ : Type} {z : Zstd σ} (hz : z.Lawful) {root : FileTree}
    (hroot : root.Distinct) (hsize : (narOf root).length < 2 ^ 64) {start end_ : ℕ}
    (hrange : start < end_) (hend : end_ ≤ (narOf root).length) :
    ∃ ds, (Pieces.new (SeekTable.build root) start end_).Yields ds
      ∧ (∀ j, (encoding z root start end_).ReachIf
          (fun j a => Job.rightReads root j a = true) j → j.Exact z root start end_)
      ∧ ∀ as j', (encoding z root start end_).runIf (fun j a => Job.rightReads root j a = true)
          { feeder := { pieces := Pieces.new (SeekTable.build root) start end_ } } as = some j' →
        (as.map Job.price).sum ≤ 6 * ds.length + 7 := by
  obtain ⟨ds, hyields, hbytes, -⟩ := (SeekTable.covers_build hroot).yields hrange
  rw [List.flatMap_def] at hbytes
  refine ⟨ds, hyields, fun j h => ?_, fun as j' hrun => ?_⟩
  · obtain ⟨ds', hpiped⟩ := Job.piped_of_reach hz hyields h
    -- a frame that was finished without an error is of the whole range
    have hframe : j.loop = .ended → j.enc = .finished → j.failed = false →
        j.out.buf = [] ∧ z.decode j.out.written = some (slice (narOf root) start end_) := by
      intro hloop henc hfailed
      obtain ⟨before, hall, hcarries⟩ := hpiped.carries
      unfold Job.Carries at hcarries
      rw [henc] at hcarries
      obtain ⟨-, -, hbuf, hdecode⟩ := hcarries
      rw [(hpiped.loops.ended hloop).2 hfailed, List.append_nil] at hall
      rw [← hbytes, hall]
      exact ⟨hbuf, hdecode⟩
    have hbody : j.joined = true → j.out.gone = false → none ∈ j.out.body
        ∨ ∃ chunks : List Bytes, j.out.body = chunks.map some
          ∧ z.decode chunks.flatten = some (slice (narOf root) start end_) := by
      intro hjoined hstays
      obtain ⟨hloop, henc | ⟨-, herror | hgone⟩⟩ := hpiped.erred.together hjoined
      · cases hfailed : j.failed with
        | true =>
            rcases hpiped.erred.clean hfailed with herror | hgone | hdied
            · exact Or.inl herror
            · rw [hstays] at hgone
              cases hgone
            · rw [henc] at hdied
              cases hdied
        | false =>
            obtain ⟨hbuf, hdecode⟩ := hframe hloop henc hfailed
            by_cases herror : none ∈ j.out.body
            · exact Or.inl herror
            · rw [ChannelWriter.written, hbuf, List.append_nil] at hdecode
              exact Or.inr ⟨_, (map_some_filterMap_id herror).symm, hdecode⟩
      · exact Or.inl herror
      · rw [hstays] at hgone
        cases hgone
    refine ⟨hbody, fun hjoined hstays contentLength b hb => ?_, fun n hn => ?_,
      ⟨?_, hpiped.feed, hpiped.buf⟩, hpiped.enabled⟩
    · obtain ⟨-, got, hgot, hdecode⟩ := unpack_some hb
      refine (answers_iff hroot hsize (Nat.sub_pos_of_lt hrange) (by omega)).mpr ?_
      rw [Nat.add_sub_cancel' hrange.le]
      rcases hbody hjoined hstays with herror | ⟨chunks, hchunks, hwhole⟩
      · rw [hgot] at herror
        obtain ⟨_, -, hnone⟩ := List.mem_map.mp herror
        cases hnone
      · have hsame : got = chunks :=
          List.map_injective_iff.mpr (Option.some_injective _) (hgot.symm.trans hchunks)
        rw [hsame] at hdecode
        exact Option.some.inj (hdecode.symm.trans hwhole)
    · obtain ⟨rfl, hjoined, henc, hfailed⟩ := hpiped.erred.measured n hn
      exact ⟨rfl, (hframe (hpiped.erred.together hjoined).1 henc hfailed).2⟩
    · by_cases hloop : j.loop = .ended
      · rw [(hpiped.loops.ended hloop).1]
        exact Nat.zero_le _
      · exact (hpiped.loops.owes hloop).1.ahead
  · have hle := Job.run_price_le hz (Job.piped_start hyields rfl) hrun
    have howed : Job.owed ds
        ({ feeder := { pieces := Pieces.new (SeekTable.build root) start end_ } } : Job σ)
          = 6 * ds.length + 7 := by
      show 2 * (2 * ds.length + 0 + (ds.length - 0) + 1) + 0 + 3 + 1 + 1 = _
      omega
    omega

-- ============================================================== frames of raw blocks

/-- The start of a frame: its magic, no optional fields, a window of 2 MiB. -/
def rawHeader : Bytes := [0x28, 0xB5, 0x2F, 0xFD, 0x00, 0x58]

/-- The header of a raw block. -/
def blockHeader (last : Bool) (size : ℕ) : Bytes :=
  let h := last.toNat + 8 * size
  [UInt8.ofNat h, UInt8.ofNat (h / 256), UInt8.ofNat (h / 65536)]

/-- The blocks of a frame, all of them raw; at most `n`. -/
def decodeBlocks : ℕ → Bytes → Option Bytes
  | n + 1, a :: b :: c :: rest =>
      let h := a.toNat + 256 * b.toNat + 65536 * c.toNat
      if h / 2 % 4 ≠ 0 ∨ rest.length < h / 8 then none
      else if h % 2 = 1 then
        if rest.drop (h / 8) = [] then some (rest.take (h / 8)) else none
      else (decodeBlocks n (rest.drop (h / 8))).map fun more => rest.take (h / 8) ++ more
  | _, _ => none

/-- An encoder that makes a raw block of each piece; its state says
whether the frame is begun. -/
def rawZstd : Zstd Bool where
  new := some false
  write begun b :=
    if b.length < 2 ^ 17 then
      ((if begun then [] else [rawHeader]) ++ [blockHeader false b.length, b], some true)
    else ([], none)
  finish begun := ((if begun then [] else [rawHeader]) ++ [blockHeader true 0], true)
  decode b := if b.take 6 = rawHeader then decodeBlocks b.length (b.drop 6) else none

/-- A raw block is read back as its bytes, and the rest after it if it was not
the last. -/
theorem decodeBlocks_block {n : ℕ} {b : Bytes} (hb : b.length < 2 ^ 17) (last : Bool)
    (rest : Bytes) :
    decodeBlocks (n + 1) (blockHeader last b.length ++ (b ++ rest))
      = if last then (if rest = [] then some b else none)
        else (decodeBlocks n rest).map fun more => b ++ more := by
  have hlast := Bool.toNat_le last
  have hvalue : (UInt8.ofNat (last.toNat + 8 * b.length)).toNat
      + 256 * (UInt8.ofNat ((last.toNat + 8 * b.length) / 256)).toNat
      + 65536 * (UInt8.ofNat ((last.toNat + 8 * b.length) / 65536)).toNat
        = last.toNat + 8 * b.length := by
    simp only [UInt8.toNat_ofNat']
    omega
  have hsize : (last.toNat + 8 * b.length) / 8 = b.length := by omega
  have hraw : ¬ ((last.toNat + 8 * b.length) / 2 % 4 ≠ 0
      ∨ (b ++ rest).length < b.length) := by
    rw [List.length_append]
    omega
  show decodeBlocks (n + 1) (_ :: _ :: _ :: (b ++ rest)) = _
  rw [decodeBlocks]
  simp only [hvalue, hsize, if_neg hraw, List.drop_left, List.take_left]
  cases last with
  | true => rw [if_pos (by simp only [Bool.toNat_true]; omega), if_pos rfl]
  | false => rw [if_neg (by simp only [Bool.toNat_false]; omega), if_neg Bool.false_ne_true]

/-- Raw blocks one after the other, with an empty last one, are read back as
what was fed. -/
theorem decodeBlocks_flatMap {fed : List Bytes} (h : ∀ b ∈ fed, b.length < 2 ^ 17) {n : ℕ}
    (hn : fed.length < n) :
    decodeBlocks n (fed.flatMap (fun b => blockHeader false b.length ++ b) ++ blockHeader true 0)
      = some fed.flatten := by
  induction fed generalizing n with
  | nil =>
      obtain ⟨n, rfl⟩ := Nat.exists_eq_add_of_lt hn
      exact decodeBlocks_block (b := []) (by decide) true []
  | cons b fed ih =>
      obtain ⟨m, rfl⟩ := Nat.exists_eq_succ_of_ne_zero (Nat.ne_of_gt (Nat.zero_lt_of_lt hn))
      have hrest := ih (fun b hb => h b (List.mem_cons_of_mem _ hb)) (Nat.lt_of_succ_lt_succ hn)
      rw [List.flatMap_cons, List.append_assoc, List.append_assoc,
        decodeBlocks_block (h b List.mem_cons_self) false _, if_neg Bool.false_ne_true, hrest]
      rfl

/-- The header of the frame says nothing of what is in it. -/
theorem decode_rawHeader (rest : Bytes) :
    rawZstd.decode (rawHeader ++ rest) = decodeBlocks (rawHeader ++ rest).length rest := by
  have htake : (rawHeader ++ rest).take 6 = rawHeader := rfl
  have hdrop : (rawHeader ++ rest).drop 6 = rest := rfl
  rw [rawZstd]
  simp only [htake, hdrop, if_true]

/-- An encoder that stores its input raw keeps the law, so that there are such
encoders. -/
theorem lawful_rawZstd : rawZstd.Lawful := by
  have hall : ∀ {begun : Bool} {fed : List Bytes} {out : Bytes}, rawZstd.Wrote begun fed out →
      out ++ (if begun then [] else [rawHeader]).flatten
        = rawHeader ++ fed.flatMap (fun b => blockHeader false b.length ++ b)
      ∧ ∀ b ∈ fed, b.length < 2 ^ 17 := by
    intro begun fed out h
    induction h with
    | new hnew =>
        cases hnew
        exact ⟨rfl, fun b hb => absurd hb List.not_mem_nil⟩
    | write hwrote hwrite ih =>
        rename_i s s' fed outs out b
        obtain ⟨hout, hfed⟩ := ih
        simp only [rawZstd] at hwrite
        split at hwrite
        next hlt =>
          cases hwrite
          refine ⟨?_, fun c hc => ?_⟩
          · rw [List.flatten_append, ← List.append_assoc, hout, List.flatMap_append]
            simp
          · rcases List.mem_append.mp hc with hc | hc
            · exact hfed c hc
            · cases List.mem_singleton.mp hc
              exact hlt
        next => cases hwrite
  intro begun fed outs out hwrote hfinish
  obtain ⟨hout, hfed⟩ := hall hwrote
  have houts : outs = (if begun then [] else [rawHeader]) ++ [blockHeader true 0] :=
    (congrArg Prod.fst hfinish).symm
  rw [houts, List.flatten_append, ← List.append_assoc, hout, List.append_assoc]
  have hlen : fed.length < (rawHeader ++ (fed.flatMap (fun b => blockHeader false b.length ++ b)
      ++ [blockHeader true 0].flatten)).length := by
    have hle : fed.length ≤ (fed.flatMap fun b => blockHeader false b.length ++ b).length := by
      rw [List.length_flatMap]
      refine List.length_map (f := fun b : Bytes => (blockHeader false b.length ++ b).length)
        ▸ List.length_le_sum_of_one_le _ fun i hi => ?_
      obtain ⟨b, -, rfl⟩ := List.mem_map.mp hi
      rw [List.length_append]
      exact Nat.le_add_right_of_le (by decide : 1 ≤ 3)
    have hsix : rawHeader.length = 6 := rfl
    rw [List.length_append, List.length_append, hsix]
    omega
  exact (decode_rawHeader _).trans (decodeBlocks_flatMap hfed hlen)

/-- The second of two pieces is read before the first, and the script goes
out as one frame, encoded while the loop goes on. -/
theorem encoding_exact_smallTree :
    ∃ j : Job Bool, j.joined = true ∧ j.out.gone = false ∧ j.stats = some (narOf smallTree).length
      ∧ j.Exact rawZstd smallTree 0 (narOf smallTree).length := by
  obtain ⟨ds, -, hexact, -⟩ := encoding_exact lawful_rawZstd distinct_smallTree
    (show (narOf smallTree).length < 2 ^ 64 by decide +kernel)
    (show 0 < (narOf smallTree).length by decide +kernel) le_rfl
  have hrun : ((encoding rawZstd smallTree 0 (narOf smallTree).length).runIf
      (fun j a => Job.rightReads smallTree j a = true)
      { feeder := { pieces := Pieces.new (SeekTable.build smallTree) 0 (narOf smallTree).length } }
      [.start, .fill, .settle 1 (some [35, 33, 10]), .take, .encode, .fill, .put, .take, .fill,
        .put, .put, .encode, .take, .put, .fill, .put, .encode, .put, .put, .finish, .put, .close,
        .join]).map (fun j => (j.joined, j.out.gone, j.stats))
      = some (true, false, some (narOf smallTree).length) := by decide +kernel
  obtain ⟨j, hj, hat⟩ := Option.map_eq_some_iff.mp hrun
  obtain ⟨hjoined, hstays, hstats⟩ : j.joined = true ∧ j.out.gone = false
      ∧ j.stats = some (narOf smallTree).length := by
    rw [Prod.mk.injEq, Prod.mk.injEq] at hat
    exact hat
  exact ⟨j, hjoined, hstays, hstats, hexact j ((System.ReachIf.init rfl).runIf hj)⟩

end Narshare
