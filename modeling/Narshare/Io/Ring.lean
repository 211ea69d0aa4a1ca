/-
The ring thread: `ring_loop` between the channel its requests come in by,
the kernel that answers its reads, and the blocking threads it diverts
some of them to.

# The state

The thread keeps a slab of the operations under way. A read on the ring
carries the slot of its operation, and nothing else of it comes back with
the completion. The buffer it goes to stays where it is for as long as the
operation is in its slot; should the slot hold another by then, or the
read go past the buffer's end, it writes to memory that is not its own and
the thread's behaviour is `undefined`.

`Reading` is a read the kernel has, or one it has answered whose
completion is not handled yet, wherever that lies (`Ring.readings`). What
ties the two sides together is `Readings`: the filled slots are those of
the readings, each once, and what a reading says fits what is in its slot.
The order of completions is the kernel's, so the readings are only spoken
of up to their order.

# The steps

Every step of the thread is one action: collecting what has completed,
handling one completion, starting one request of those an eventfd
completion has it drain, seeing the channel empty or closed. The kernel
may take any read that has been submitted, whether the thread is waiting
or in the middle of its batch. A slab is never so large that a slot could
be taken for `EVENTFD_TOKEN`, and the two are apart here (`Token`).

The thread ends by returning, by a panic or by a failure of the ring
itself; whatever it still held is dropped then, and so are the senders of
requests that come later. A dropped request is an error where it is
awaited.
-/
import Narshare.Lib.Slab
import Narshare.Lib.System
import Narshare.Io.Segment

namespace Narshare.Io

-- ================================================================ the state

/-- `Req`; `tx` is the answer it is owed, one of its own for each. -/
structure Req where
  path : String
  off : ℕ
  len : ℕ
  tx : ℕ
  off_lt : off < 2 ^ 64
  len_lt : len < 2 ^ 64
deriving DecidableEq

/-- `Op`, with the path of the file that was opened. -/
structure Op where
  req : Req
  window : Window
  filled : ℕ
  fd : String
deriving DecidableEq

/-- `user_data`. -/
inductive Token
  | eventfd
  | slot (idx : ℕ)
deriving DecidableEq, Repr

/-- A read on the ring: its slot, the file, whose buffer it goes to and
where in it, how much room there is and the place in the file. -/
structure Sqe where
  idx : ℕ
  fd : String
  owner : ℕ
  start : ℕ
  cap : ℕ
  pos : ℕ
deriving DecidableEq, Repr

/-- A completion. -/
structure Cqe where
  userData : Token
  result : ℤ
deriving DecidableEq, Repr

/-- What a request is answered; `dropped` where its sender was. -/
inductive Reply
  | ok (b : Bytes)
  | err (e : Failure)
  | dropped
deriving DecidableEq, Repr

/-- Is the thread running, and how did it end? -/
inductive Phase
  | running
  | exited
  | failed
  | panicked
  | undefined
deriving DecidableEq, Repr

/-- The thread (`slab` to `cqes`; `draining` within the loop of
`try_recv`), the kernel (`armed` is the reads of the eventfd), the
channel and the eventfd's counter, the blocking threads, and what has been
asked and answered. -/
structure Ring where
  slab : Slab Op := Slab.empty
  inflight : ℕ := 0
  shutdown : Bool := false
  cqes : List Cqe := []
  draining : Bool := false
  phase : Phase := .running
  armed : ℕ := 1
  submitted : List Sqe := []
  cq : List Cqe := []
  queue : List Req := []
  closed : Bool := false
  efd : ℕ := 0
  fallbacks : List Req := []
  sent : List Req := []
  answers : List (ℕ × Reply) := []
deriving DecidableEq

inductive Act
  | send (path : String) (off len : ℕ)
  | wake
  | close
  | complete (n : ℕ) (p : Pread)
  | eventfd
  | collect
  | handle
  | start (opened : Except ℕ Unit) (addr : ℕ)
  | drained
  | exit
  | fail
  | fallback (n : ℕ) (opened : Except ℕ Unit) (answers : List Pread)
  | lose (n : ℕ)

-- ================================================================ the steps

/-- The text of an end of file that comes too soon. -/
def eofText (place : ℕ) (r : Req) : String :=
  s!"EOF at {place} while reading {r.len}B @{r.off} of {r.path}"

/-- `tx.send`. -/
def Ring.answer (s : Ring) (tx : ℕ) (reply : Reply) : Ring :=
  { s with answers := s.answers ++ [(tx, reply)] }

/-- The end of the thread, which drops what it has. -/
def Ring.stop (s : Ring) (phase : Phase) : Ring :=
  { s with
    phase
    answers := s.answers
      ++ (s.queue ++ s.slab.toList.map Op.req).map fun r => (r.tx, Reply.dropped)
    queue := []
    slab := Slab.empty
    inflight := 0
    cqes := []
    draining := false
    armed := 0
    submitted := []
    cq := [] }

/-- The read `submit_read` submits. -/
def Op.sqe (op : Op) (idx : ℕ) : Sqe where
  idx
  fd := op.fd
  owner := op.req.tx
  start := op.window.shift + op.filled
  cap := (op.window.alen - op.filled) % 2 ^ 32
  pos := wadd 64 op.window.astart op.filled

/-- `submit_read`. -/
def Ring.submitRead (s : Ring) (idx : ℕ) : Ring :=
  match s.slab.get idx with
  | none => s.stop .panicked
  | some op => { s with submitted := s.submitted ++ [op.sqe idx] }

/-- `start`, of the first request in the channel. -/
def Ring.start (s : Ring) (req : Req) (queue : List Req) (opened : Except ℕ Unit) (addr : ℕ) :
    Ring :=
  match opened with
  | .ok () =>
      match Window.new addr req.off req.len with
      | none => s.stop .panicked
      | some window =>
          let filled := s.slab.insert { req, window, filled := 0, fd := req.path }
          { s with queue, slab := filled.2, inflight := s.inflight + 1 }.submitRead filled.1
  | .error errno =>
      if oDirectRefused (.os errno) then
        { s with queue, fallbacks := s.fallbacks ++ [req] }
      else
        { s with queue }.answer req.tx
          (.err ((IoError.os errno).withContext (openText req.path)))

/-- So many bytes more. -/
def Op.advance (op : Op) (n : ℕ) : Op := { op with filled := op.filled + n }

/-- A read's completion, with those after it in the batch. -/
def Ring.handleRead (s : Ring) (idx : ℕ) (res : ℤ) (cqes : List Cqe) : Ring :=
  match s.slab.take idx with
  | none => s.stop .panicked
  | some (op, slab) =>
      let t := { s with cqes, slab, inflight := s.inflight - 1 }
      let req := op.req
      if res < 0 then
        let e := IoError.os (-res).toNat
        if oDirectRefused e then { t with fallbacks := t.fallbacks ++ [req] }
        else t.answer req.tx (.err (e.withContext (readText req.path req.off req.len)))
      else if res = 0 then
        t.answer req.tx
          (.err ⟨.msg (eofText (wadd 64 op.window.astart op.filled) req), []⟩)
      else
        let op := op.advance res.toNat
        if op.window.need ≤ op.filled then
          match op.window.finish req.off req.len with
          | some b => t.answer req.tx (.ok b)
          | none => s.stop .panicked
        else
          -- a short read goes on where it left off, in the same slot
          { t with slab := t.slab.putBack idx op, inflight := t.inflight + 1 }.submitRead idx

/-- The kernel answers a read it was given. -/
def Ring.complete (files : String → File) (s : Ring) (n : ℕ) (q : Sqe) (p : Pread) : Ring :=
  match s.slab.get q.idx with
  | none => s.stop .undefined
  | some op =>
      if op.req.tx = q.owner ∧ q.start + q.cap ≤ op.window.buf.length then
        match p.result (files q.fd).bytes q.pos q.cap with
        | .error errno =>
            { s with
              submitted := s.submitted.eraseIdx n
              cq := s.cq ++ [⟨.slot q.idx, -errno⟩] }
        | .ok got =>
            { s with
              slab := s.slab.store q.idx
                { op with window.buf := patch op.window.buf q.start got }
              submitted := s.submitted.eraseIdx n
              cq := s.cq ++ [⟨.slot q.idx, got.length⟩] }
      else s.stop .undefined

/-- What a diverted request is answered, once its blocking read is over. -/
def Reply.ofOutcome : Outcome Failure → Option Reply
  | .waiting => none
  | .panicked => some .dropped
  | .failed e => some (.err e)
  | .returned b => some (.ok b)

/-- The steps of the thread, the kernel and the rest. -/
def Ring.step (files : String → File) (s : Ring) : Act → Option Ring
  | .send path off len =>
      if h : s.closed = false ∧ off < 2 ^ 64 ∧ len < 2 ^ 64 then
        let r : Req := ⟨path, off, len, s.sent.length, h.2.1, h.2.2⟩
        let s := { s with sent := s.sent ++ [r] }
        if s.phase = .running then some { s with queue := s.queue ++ [r] }
        else some (s.answer r.tx .dropped)
      else none
  | .wake => some { s with efd := s.efd + 1 }
  | .close => some { s with closed := true }
  | .complete n p => s.submitted[n]?.map fun q => s.complete files n q p
  | .eventfd =>
      if 0 < s.armed ∧ 0 < s.efd then
        some { s with armed := s.armed - 1, efd := 0, cq := s.cq ++ [⟨.eventfd, 8⟩] }
      else none
  | .collect =>
      if s.phase = .running ∧ s.cqes = [] ∧ s.draining = false
          ∧ ¬ (s.shutdown = true ∧ s.inflight = 0) then
        some { s with cqes := s.cq, cq := [] }
      else none
  | .handle =>
      if s.draining then none
      else
        match s.cqes with
        | [] => none
        | ⟨.eventfd, _⟩ :: cqes => some { s with cqes, draining := true }
        | ⟨.slot idx, res⟩ :: cqes => some (s.handleRead idx res cqes)
  | .start opened addr =>
      match s.draining, s.queue with
      | true, r :: queue => some (s.start r queue opened addr)
      | _, _ => none
  | .drained =>
      if s.draining = true ∧ s.queue = [] then
        let shutdown := s.shutdown || s.closed
        some { s with
          draining := false
          shutdown
          armed := if shutdown then s.armed else s.armed + 1 }
      else none
  | .exit =>
      if s.phase = .running ∧ s.cqes = [] ∧ s.draining = false ∧ s.shutdown = true
          ∧ s.inflight = 0 then
        some (s.stop .exited)
      else none
  | .fail => if s.phase = .running then some (s.stop .failed) else none
  | .fallback n opened answers =>
      s.fallbacks[n]?.bind fun r =>
        (Reply.ofOutcome (readBuffered (files r.path) r.path r.off r.len opened answers)).map
          fun reply => { s with fallbacks := s.fallbacks.eraseIdx n }.answer r.tx reply
  | .lose n =>
      s.fallbacks[n]?.map fun r =>
        { s with fallbacks := s.fallbacks.eraseIdx n }.answer r.tx .dropped

/-- The ring thread among its callers, with the files as they are. -/
def ringSystem (files : String → File) : System Ring Act where
  init s := s = {}
  step := Ring.step files

-- ============================================================= the readings

/-- A read the kernel has, or one it has answered. -/
inductive Reading
  | asked (q : Sqe)
  | came (idx : ℕ) (res : ℤ)
deriving DecidableEq

/-- The slot of its operation. -/
def Reading.idx : Reading → ℕ
  | .asked q => q.idx
  | .came idx _ => idx

/-- The reading a completion is of. -/
def Cqe.reading (c : Cqe) : Option Reading :=
  match c.userData with
  | .eventfd => none
  | .slot idx => some (.came idx c.result)

/-- The readings of a ring. -/
def Ring.readings (s : Ring) : List Reading :=
  s.submitted.map .asked ++ (s.cq ++ s.cqes).filterMap Cqe.reading

/-- An operation whose buffer has the file's bytes as far as it came. -/
structure Op.Ok (files : String → File) (op : Op) : Prop where
  fd_eq : op.fd = op.req.path
  window : op.window.Of op.req.off op.req.len
  filled_le : op.filled ≤ op.window.alen
  filled : op.window.Filled (files op.req.path) op.filled

/-- A reading that fits its operation. -/
def Reading.Fits (files : String → File) (op : Op) : Reading → Prop
  | .asked q => op.Ok files ∧ q = op.sqe q.idx
  | .came _ res => 0 < res → (op.advance res.toNat).Ok files

/-- The filled slots are those of the readings, which fit them. -/
structure Readings (files : String → File) (slab : Slab Op) (rs : List Reading) : Prop where
  tracks : slab.Tracks (rs.map Reading.idx)
  fits : ∀ e ∈ rs, ∀ op, slab.get e.idx = some op → e.Fits files op

namespace Readings

variable {files : String → File} {slab slab' : Slab Op} {rs rs' : List Reading} {e e' : Reading}
  {op op' : Op}

theorem perm (h : Readings files slab rs) (hp : rs'.Perm rs) : Readings files slab rs' :=
  ⟨h.tracks.perm (hp.map _), fun e he => h.fits e (hp.mem_iff.mp he)⟩

/-- The others are in slots of their own. -/
theorem idx_ne (h : Readings files slab (e :: rs)) {x : Reading} (hx : x ∈ rs) :
    x.idx ≠ e.idx := fun heq =>
  (List.nodup_cons.mp h.tracks.nodup).1 (heq ▸ List.mem_map_of_mem hx)

theorem exists_op (h : Readings files slab rs) (he : e ∈ rs) : ∃ op, slab.get e.idx = some op :=
  h.tracks.get_isSome (List.mem_map_of_mem he)

theorem start (h : Readings files slab rs) (hop : op.Ok files) :
    Readings files (slab.insert op).2 (.asked (op.sqe (slab.insert op).1) :: rs) := by
  refine ⟨h.tracks.insert op, fun x hx op' hget => ?_⟩
  rw [h.tracks.ok.get_insert] at hget
  rcases List.mem_cons.mp hx with rfl | hx
  · have hidx : (Reading.asked (op.sqe (slab.insert op).1)).idx = (slab.insert op).1 := rfl
    rw [if_pos hidx] at hget
    cases hget
    exact ⟨hop, rfl⟩
  · split at hget
    next heq =>
      have := h.tracks.mem_iff x.idx |>.mp (List.mem_map_of_mem hx)
      rw [heq, h.tracks.ok.get_insert_fst] at this
      cases this
    next => exact h.fits x hx op' hget

/-- One slot's operation goes on. -/
theorem change (h : Readings files slab (e :: rs)) (hget : slab.get e.idx = some op)
    (hidx : e'.idx = e.idx) (hfits : e'.Fits files op') :
    Readings files (slab.store e.idx op') (e' :: rs) := by
  have hmap : (e' :: rs).map Reading.idx = (e :: rs).map Reading.idx := by
    rw [List.map_cons, List.map_cons, hidx]
  refine ⟨hmap ▸ h.tracks.store hget op', fun x hx op'' hget' => ?_⟩
  rw [Slab.get_store hget] at hget'
  rcases List.mem_cons.mp hx with rfl | hx
  · rw [if_pos hidx] at hget'
    cases hget'
    exact hfits
  · rw [if_neg (h.idx_ne hx)] at hget'
    exact h.fits x (List.mem_cons_of_mem _ hx) op'' hget'

/-- One slot's operation is over. -/
theorem take (h : Readings files slab (e :: rs)) (ht : slab.take e.idx = some (op, slab')) :
    Readings files slab' rs := by
  refine ⟨h.tracks.take ht, fun x hx op' hget => ?_⟩
  rw [Slab.get_take ht, if_neg (h.idx_ne hx)] at hget
  exact h.fits x (List.mem_cons_of_mem _ hx) op' hget

end Readings

end Narshare.Io
