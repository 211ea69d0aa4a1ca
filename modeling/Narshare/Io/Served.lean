/-
What the ring thread's callers get: a request is answered once and with
its own bytes, whatever the order its reads complete in.

# The ledger

Every request sent has a number, and a place: the channel, a slot, the
diverted ones, or the answers (`Ledger`). A step takes a request from one
place to the next; while a step has it, it is in hand (`Kept`, which
speaks of the state as it is in between). At the end of each step nothing
is in hand, and the numbers are those sent, each at one place.

# What cannot happen

That a completion finds its slot empty, that a read goes to a buffer that
is not its own, that the end of a buffer is passed: each would end the
thread (`Phase.panicked`, `Phase.undefined`), and `Kept.stopped` says that
of all these only a request longer than any buffer ends it. The count of
reads under way, by which the thread decides to return, is right
(`Kept.inflight`).
-/
import Narshare.Io.Ring

namespace Narshare

/-- Storing what a slot holds already changes nothing. -/
theorem Slab.store_self {α : Type*} {s : Slab α} {i : ℕ} {a : α} (h : s.get i = some a) :
    s.store i a = s := by
  obtain ⟨hlt, hget⟩ := List.getElem?_eq_some_iff.mp (Slab.get_eq_some_iff.mp h)
  rw [Slab.store, ← hget, List.set_getElem_self]

namespace Io

variable {files : String → File}

-- =============================================================== the ledger

/-- Where the requests sent are: held somewhere, or answered, and then
with the bytes they ask for if with any. -/
structure Ledger (files : String → File) (sent held : List Req) (answers : List (ℕ × Reply)) :
    Prop where
  sent_eq : ∀ r ∈ held, sent[r.tx]? = some r
  numbers : (held.map Req.tx ++ answers.map Prod.fst).Perm (List.range sent.length)
  exact : ∀ t b, (t, Reply.ok b) ∈ answers →
    ∃ r, sent[t]? = some r ∧ Exactly (files r.path) r.off r.len b

namespace Ledger

variable {sent held held' : List Req} {answers : List (ℕ × Reply)} {r : Req}

/-- The ledger does not see the order in which requests are held. -/
theorem perm (h : Ledger files sent held answers) (hp : held'.Perm held) :
    Ledger files sent held' answers :=
  ⟨fun x hx => h.sent_eq x (hp.mem_iff.mp hx), ((hp.map _).append_right _).trans h.numbers,
    h.exact⟩

/-- A request in hand is answered: its number goes over to the answers, and
bytes must be its own. -/
theorem answer (h : Ledger files sent (r :: held) answers) {reply : Reply}
    (hreply : ∀ b, reply = .ok b → Exactly (files r.path) r.off r.len b) :
    Ledger files sent held (answers ++ [(r.tx, reply)]) := by
  refine ⟨fun x hx => h.sent_eq x (List.mem_cons_of_mem _ hx), ?_, fun t b hm => ?_⟩
  · refine List.Perm.trans ?_ h.numbers
    rw [List.map_append, List.map_singleton, List.map_cons, ← List.append_assoc]
    exact List.perm_append_comm
  · rcases List.mem_append.mp hm with hm | hm
    · exact h.exact t b hm
    · obtain ⟨rfl, hb⟩ := Prod.mk.inj (List.mem_singleton.mp hm)
      exact ⟨r, h.sent_eq r List.mem_cons_self, hreply b hb.symm⟩

/-- Every request held may be dropped at once, which is how a thread that
stops answers. -/
theorem drop {rs : List Req} (h : Ledger files sent (rs ++ held) answers) :
    Ledger files sent held (answers ++ rs.map fun r => (r.tx, Reply.dropped)) := by
  induction rs generalizing answers with
  | nil => rwa [List.map_nil, List.append_nil]
  | cons r rs ih =>
      have hanswer : Ledger files sent (rs ++ held) (answers ++ [(r.tx, Reply.dropped)]) :=
        h.answer nofun
      have hrest := ih hanswer
      rwa [List.append_assoc] at hrest

theorem send (h : Ledger files sent held answers) (hr : r.tx = sent.length) :
    Ledger files (sent ++ [r]) (r :: held) answers := by
  have hkeep : ∀ {t : ℕ} {x : Req}, sent[t]? = some x → (sent ++ [r])[t]? = some x :=
    fun {t x} hx => by
      rw [List.getElem?_append_left (List.getElem?_eq_some_iff.mp hx).1, hx]
  refine ⟨fun x hx => ?_, ?_, fun t b hm => ?_⟩
  · rcases List.mem_cons.mp hx with rfl | hx
    · rw [hr, List.getElem?_concat_length]
    · exact hkeep (h.sent_eq x hx)
  · rw [List.map_cons, hr, List.length_append, List.length_singleton, List.range_succ,
      List.cons_append]
    exact (h.numbers.cons _).trans (List.perm_append_singleton _ _).symm
  · obtain ⟨x, hx, hexact⟩ := h.exact t b hm
    exact ⟨x, hkeep hx, hexact⟩

/-- A request that is held somewhere was sent. -/
theorem mem_sent (h : Ledger files sent held answers) (hr : r ∈ held) : r ∈ sent :=
  List.mem_of_getElem? (h.sent_eq r hr)

end Ledger

-- ============================================================ the invariant

/-- The requests held by the channel, the slots and the blocking threads. -/
def Ring.held (s : Ring) : List Req := s.queue ++ s.slab.toList.map Op.req ++ s.fallbacks

/-- What holds while some requests are in a step's hands. -/
structure Kept (files : String → File) (inHand : List Req) (s : Ring) : Prop where
  readings : Readings files s.slab s.readings
  inflight : s.inflight = s.readings.length
  ledger : Ledger files s.sent (inHand ++ s.held) s.answers
  stopped : s.phase = .panicked ∨ s.phase = .undefined →
    ∃ r ∈ s.sent, isizeMax < r.len + 3 * align

namespace Kept

variable {inHand : List Req} {s : Ring} {r : Req}

/-- A new ring has sent nothing and holds nothing. -/
theorem init (files : String → File) : Kept files [] {} := by
  refine ⟨⟨Slab.tracks_empty, nofun⟩, rfl, ⟨nofun, List.Perm.refl _, nofun⟩, ?_⟩
  rintro (h | h) <;> cases h

/-- The same of the state: nothing but the ledger sees the answer. -/
theorem answer (h : Kept files (r :: inHand) s) {reply : Reply}
    (hreply : ∀ b, reply = .ok b → Exactly (files r.path) r.off r.len b) :
    Kept files inHand (s.answer r.tx reply) :=
  ⟨h.readings, h.inflight, h.ledger.answer hreply, h.stopped⟩

/-- A request in hand goes to a blocking thread, which is another place and
not an answer. -/
theorem divert (h : Kept files (r :: inHand) s) :
    Kept files inHand { s with fallbacks := s.fallbacks ++ [r] } := by
  refine ⟨h.readings, h.inflight, h.ledger.perm ?_, h.stopped⟩
  show (inHand ++ (s.queue ++ s.slab.toList.map Op.req ++ (s.fallbacks ++ [r]))).Perm
    (r :: (inHand ++ s.held))
  rw [← List.append_assoc, ← List.append_assoc, List.append_assoc inHand]
  exact List.perm_append_singleton _ _

/-- A thread that stops drops all it holds; why it stopped must be accounted
for. -/
theorem stop (h : Kept files [] s) (phase : Phase)
    (hphase : phase = .panicked ∨ phase = .undefined →
      ∃ r ∈ s.sent, isizeMax < r.len + 3 * align) :
    Kept files [] (s.stop phase) := by
  have hledger : Ledger files s.sent (s.queue ++ s.slab.toList.map Op.req ++ s.fallbacks)
      s.answers := h.ledger
  exact ⟨⟨Slab.tracks_empty, nofun⟩, rfl, hledger.drop, hphase⟩

/-- The end that a request too long for any buffer brings. -/
theorem stop_of_len (h : Kept files [] s) (hr : r ∈ s.held)
    (hlen : isizeMax < r.len + 3 * align) (phase : Phase) : Kept files [] (s.stop phase) :=
  h.stop phase fun _ => ⟨r, h.ledger.mem_sent hr, hlen⟩

/-- The request at the head of the channel is held. -/
theorem mem_held_of_queue {queue : List Req} (hq : s.queue = r :: queue) : r ∈ s.held :=
  List.mem_append_left _ (List.mem_append_left _ (hq ▸ List.mem_cons_self))

/-- So is that of an operation in a slot. -/
theorem mem_held_of_get {idx : ℕ} {op : Op} (h : s.slab.get idx = some op) : op.req ∈ s.held :=
  List.mem_append_left _ (List.mem_append_right _
    (List.mem_map_of_mem (Slab.mem_toList.mpr ⟨idx, h⟩)))

-- ================================================================ the kernel

/-- The readings but for one the kernel has. -/
def others (s : Ring) (n : ℕ) : List Reading :=
  (s.submitted.eraseIdx n).map .asked ++ (s.cq ++ s.cqes).filterMap Cqe.reading

/-- A read that the kernel has is one of the readings; the rest are the
others. -/
theorem readings_perm {n : ℕ} {q : Sqe} (hq : s.submitted[n]? = some q) :
    s.readings.Perm (.asked q :: others s n) := by
  obtain ⟨hlt, hget⟩ := List.getElem?_eq_some_iff.mp hq
  have hsplit := (List.getElem_cons_eraseIdx_perm hlt).symm.map Reading.asked
  rw [hget, List.map_cons] at hsplit
  exact hsplit.append_right _

/-- A read answered, with what that changes in its slot. -/
theorem came (h : Kept files [] s) {n : ℕ} {q : Sqe} (hq : s.submitted[n]? = some q) {res : ℤ}
    {slab : Slab Op} (hreads : Readings files slab (.came q.idx res :: others s n))
    (hslab : (slab.toList.map Op.req).Perm (s.slab.toList.map Op.req)) :
    Kept files []
      { s with
        slab
        submitted := s.submitted.eraseIdx n
        cq := s.cq ++ [⟨.slot q.idx, res⟩] } := by
  have hperm : ((s.submitted.eraseIdx n).map Reading.asked
      ++ (s.cq ++ [Cqe.mk (.slot q.idx) res] ++ s.cqes).filterMap Cqe.reading).Perm
        (.came q.idx res :: others s n) := by
    unfold others
    rw [List.append_assoc s.cq, List.filterMap_append, @List.filterMap_append _ _ s.cq s.cqes,
      ← List.append_assoc, ← List.append_assoc]
    exact List.perm_middle
  refine ⟨hreads.perm hperm, ?_, h.ledger.perm ?_, h.stopped⟩
  · have hlen := (readings_perm hq).length_eq
    exact h.inflight.trans (hlen.trans hperm.length_eq.symm)
  · exact (hslab.append_left _).append_right _

/-- The kernel answers a read. Where it writes is within the buffer of the
slot's own operation, or that buffer was asked for with a length no buffer
has. -/
theorem complete (h : Kept files [] s) {n : ℕ} {q : Sqe} (hq : s.submitted[n]? = some q)
    (p : Pread) : Kept files [] (s.complete files n q p) := by
  have hreads := h.readings.perm (readings_perm hq).symm
  obtain ⟨op, hop⟩ := hreads.exists_op List.mem_cons_self
  obtain ⟨hok, hsqe⟩ := hreads.fits _ List.mem_cons_self op hop
  have hget : s.slab.get q.idx = some op := hop
  have hcap : q.cap ≤ op.window.alen - op.filled := by
    rw [hsqe]
    exact Nat.mod_le _ _
  have hstart : q.start = op.window.shift + op.filled := by rw [hsqe]; rfl
  unfold Ring.complete
  rw [hget]
  simp only
  -- is there room in the buffer for all that was asked?
  split
  next hroom =>
    split
    next errno _ =>
      refine h.came hq ?_ (List.Perm.refl _)
      rw [← Slab.store_self hget]
      exact hreads.change hop rfl fun hpos => absurd hpos (by omega)
    next got hgot =>
      have hpos : q.pos = op.window.astart + op.filled := by
        rw [hsqe]
        exact hok.filled.wadd_eq (hok.window.astart_lt op.req.off_lt)
      have hfd : q.fd = op.req.path := by
        rw [hsqe]
        exact hok.fd_eq
      rw [hfd, hpos] at hgot
      have hlen := (Pread.slice_of_result hgot).2.1
      have hfits : op.window.shift + op.filled + q.cap ≤ op.window.buf.length :=
        hstart ▸ hroom.2
      refine h.came hq ?_ (Slab.map_toList_store hget rfl)
      refine hreads.change hop rfl fun _ => ?_
      rw [hstart]
      exact
        { fd_eq := hok.fd_eq
          window := hok.window.write (by omega)
          filled_le := by
            have := hok.filled_le
            show op.filled + got.length ≤ op.window.alen
            omega
          filled := hok.filled.write hgot hfits }
  next hroom =>
    refine h.stop_of_len (mem_held_of_get hget) ?_ _
    by_contra hle
    obtain ⟨hshift, -, -, -, hbuf⟩ := hok.window.fits (by omega)
    have := hok.filled_le
    exact hroom ⟨by rw [hsqe]; rfl, by omega⟩

-- ================================================================ the thread

/-- Submitting puts one more reading in. -/
theorem submitted_perm (s : Ring) (q : Sqe) :
    ({ s with submitted := s.submitted ++ [q] } : Ring).readings.Perm
      (.asked q :: s.readings) := by
  unfold Ring.readings
  rw [List.map_append, List.append_assoc]
  exact List.perm_middle

/-- A read of a slot that holds an operation is submitted with that
operation's own place and room. -/
theorem submitRead_eq {idx : ℕ} {op : Op} (h : s.slab.get idx = some op) :
    s.submitRead idx = { s with submitted := s.submitted ++ [op.sqe idx] } := by
  rw [Ring.submitRead, h]

/-- A request taken from the channel. -/
theorem dequeue (h : Kept files [] s) {queue : List Req} (hq : s.queue = r :: queue) :
    Kept files [r] { s with queue } := by
  refine ⟨h.readings, h.inflight, ?_, h.stopped⟩
  have hledger := h.ledger
  unfold Ring.held at hledger
  rw [hq] at hledger
  exact hledger

/-- The first read of a request: its operation goes to a slot that was free,
and one reading more is out. -/
theorem begun (h : Kept files [r] s) {op : Op} (hreq : op.req = r) (hop : op.Ok files) :
    Kept files []
      ({ s with slab := (s.slab.insert op).2, inflight := s.inflight + 1 }.submitRead
        (s.slab.insert op).1) := by
  have hslab := h.readings.tracks.ok
  have hget : (s.slab.insert op).2.get (s.slab.insert op).1 = some op := by
    rw [hslab.get_insert, if_pos rfl]
  rw [submitRead_eq hget]
  have hperm := submitted_perm s (op.sqe (s.slab.insert op).1)
  refine ⟨(h.readings.start hop).perm hperm, ?_, h.ledger.perm ?_, h.stopped⟩
  · exact (congrArg (· + 1) h.inflight).trans hperm.length_eq.symm
  · have hheld := (hslab.toList_insert op).map Op.req
    rw [List.map_cons, hreq] at hheld
    refine (((hheld.append_left s.queue).trans List.perm_middle).append_right s.fallbacks)

/-- A request taken from the channel begins, is diverted where O_DIRECT is
refused, or is answered with its error. -/
theorem start (h : Kept files [] s) {queue : List Req} (hq : s.queue = r :: queue)
    (opened : Except ℕ Unit) (addr : ℕ) : Kept files [] (s.start r queue opened addr) := by
  have hhand := h.dequeue hq
  unfold Ring.start
  split
  · split
    next hnew =>
      exact h.stop_of_len (mem_held_of_queue hq) (Window.new_eq_none r.off_lt r.len_lt hnew) _
    next window hnew =>
      have hop : Op.Ok files { req := r, window, filled := 0, fd := r.path } :=
        { fd_eq := rfl
          window := Window.new_of r.off_lt hnew
          filled_le := Nat.zero_le _
          filled := Window.Filled.zero _ _ }
      exact hhand.begun rfl hop
  next errno =>
    split
    · exact hhand.divert
    · exact hhand.answer nofun

/-- The first completion of the batch is one of the readings. -/
theorem handled_perm {idx : ℕ} {res : ℤ} {cqes : List Cqe}
    (hc : s.cqes = ⟨.slot idx, res⟩ :: cqes) :
    s.readings.Perm (.came idx res :: ({ s with cqes } : Ring).readings) := by
  unfold Ring.readings
  rw [hc, List.filterMap_append, @List.filterMap_append _ _ s.cq cqes, ← List.append_assoc,
    ← List.append_assoc]
  exact List.perm_middle

/-- A completion takes its operation out. -/
theorem take (h : Kept files [] s) {idx : ℕ} {res : ℤ} {cqes : List Cqe}
    (hc : s.cqes = ⟨.slot idx, res⟩ :: cqes) {op : Op} {slab : Slab Op}
    (ht : s.slab.take idx = some (op, slab)) :
    Kept files [op.req] { s with cqes, slab, inflight := s.inflight - 1 } := by
  have hperm := handled_perm hc
  refine ⟨(h.readings.perm hperm.symm).take ht, ?_, h.ledger.perm ?_, h.stopped⟩
  · exact congrArg (· - 1) (h.inflight.trans hperm.length_eq)
  · have hheld := (Slab.toList_take ht).map Op.req
    exact ((hheld.append_left s.queue).trans List.perm_middle).symm.append_right s.fallbacks

/-- A short read's operation goes on in its slot. -/
theorem again (h : Kept files [] s) {idx : ℕ} {res : ℤ} {cqes : List Cqe}
    (hc : s.cqes = ⟨.slot idx, res⟩ :: cqes) {op op' : Op} {slab : Slab Op}
    (ht : s.slab.take idx = some (op, slab)) (hreq : op'.req = op.req) (hop : op'.Ok files) :
    Kept files []
      ({ s with cqes, slab := slab.putBack idx op', inflight := s.inflight - 1 + 1 }.submitRead
        idx) := by
  have hperm := handled_perm hc
  have hget := Slab.get_of_take ht
  have hreads := h.readings.perm hperm.symm
  rw [Slab.take_putBack ht]
  have hstored : (s.slab.store idx op').get idx = some op' := by
    rw [Slab.get_store hget, if_pos rfl]
  rw [submitRead_eq hstored]
  have hsub := submitted_perm { s with cqes } (op'.sqe idx)
  have hchanged : Readings files (s.slab.store idx op')
      (.asked (op'.sqe idx) :: ({ s with cqes } : Ring).readings) :=
    hreads.change hget rfl ⟨hop, rfl⟩
  refine ⟨hchanged.perm hsub, ?_, h.ledger.perm ?_, h.stopped⟩
  · exact (congrArg (· - 1 + 1) (h.inflight.trans hperm.length_eq)).trans hsub.length_eq.symm
  · exact ((Slab.map_toList_store hget hreq).append_left _).append_right _

/-- A completion is handled: its slot is filled, so it is never looked for in
vain; an error or an early end answers the request, a short read goes on, and
a read that is through gives the range's bytes. -/
theorem handleRead (h : Kept files [] s) {idx : ℕ} {res : ℤ} {cqes : List Cqe}
    (hc : s.cqes = ⟨.slot idx, res⟩ :: cqes) : Kept files [] (s.handleRead idx res cqes) := by
  have hreads := h.readings.perm (handled_perm hc).symm
  obtain ⟨op, hget⟩ := hreads.exists_op List.mem_cons_self
  have hfits := hreads.fits _ List.mem_cons_self op hget
  unfold Ring.handleRead
  split
  -- the slot is filled: there is a reading for it
  next hnone =>
    have := Slab.take_eq_none_iff.mp hnone
    rw [show s.slab.get idx = some op from hget] at this
    cases this
  next op' slab ht =>
    obtain rfl : op' = op := Option.some.inj ((Slab.get_of_take ht).symm.trans hget)
    have hhand := h.take hc ht
    simp only
    split
    · split
      · exact hhand.divert
      · exact hhand.answer nofun
    split
    · exact hhand.answer nofun
    next hneg hzero =>
      have hok := hfits (by omega)
      split
      next hneed =>
        split
        next b hb =>
          refine hhand.answer fun b' hb' => ?_
          cases hb'
          exact hok.filled.finish hok.window op'.req.off_lt op'.req.len_lt hneed hb
        next hnone =>
          have hlen := hok.window.finish_eq_none op'.req.off_lt hnone
          exact h.stop_of_len (mem_held_of_get hget) (hlen.trans_le (Nat.le_add_right _ _)) _
      next => exact h.again hc ht rfl hok

-- ================================================================== the rest

/-- A request sent, before it is in the channel. -/
theorem send (h : Kept files [] s) (hr : r.tx = s.sent.length) :
    Kept files [r] { s with sent := s.sent ++ [r] } := by
  refine ⟨h.readings, h.inflight, h.ledger.send hr, fun hp => ?_⟩
  obtain ⟨x, hx, hlen⟩ := h.stopped hp
  exact ⟨x, List.mem_append_left _ hx, hlen⟩

/-- A request in hand goes to the end of the channel. -/
theorem enqueue (h : Kept files [r] s) : Kept files [] { s with queue := s.queue ++ [r] } := by
  refine ⟨h.readings, h.inflight, h.ledger.perm ?_, h.stopped⟩
  exact ((List.perm_append_singleton r s.queue).append_right _).append_right _

/-- A blocking read is over, and its request is in hand again. -/
theorem leave (h : Kept files [] s) {n : ℕ} (hn : s.fallbacks[n]? = some r) :
    Kept files [r] { s with fallbacks := s.fallbacks.eraseIdx n } := by
  obtain ⟨hlt, hget⟩ := List.getElem?_eq_some_iff.mp hn
  have hsplit := List.getElem_cons_eraseIdx_perm hlt
  rw [hget] at hsplit
  refine ⟨h.readings, h.inflight, h.ledger.perm ?_, h.stopped⟩
  show (r :: (s.queue ++ s.slab.toList.map Op.req ++ s.fallbacks.eraseIdx n)).Perm s.held
  exact List.perm_middle.symm.trans (hsplit.append_left _)

/-- Completions of the eventfd are no readings. -/
theorem of_cqes (h : Kept files [] s) {cq cqes : List Cqe}
    (heq : (cq ++ cqes).filterMap Cqe.reading = (s.cq ++ s.cqes).filterMap Cqe.reading) :
    Kept files [] { s with cq, cqes } := by
  have hreads : ({ s with cq, cqes } : Ring).readings = s.readings := by
    unfold Ring.readings
    rw [heq]
  exact ⟨hreads.symm ▸ h.readings, hreads.symm ▸ h.inflight, h.ledger, h.stopped⟩

/-- Every step leaves nothing in hand. -/
theorem step (h : Kept files [] s) {a : Act} {s' : Ring} (hs : s.step files a = some s') :
    Kept files [] s' := by
  cases a with
  | send path off len =>
      simp only [Ring.step] at hs
      split at hs
      next hsend =>
        have hsent := h.send (r := ⟨path, off, len, s.sent.length, hsend.2.1, hsend.2.2⟩) rfl
        split at hs
        · cases hs
          exact hsent.enqueue
        · cases hs
          exact hsent.answer nofun
      next => cases hs
  | wake =>
      cases hs
      exact ⟨h.readings, h.inflight, h.ledger, h.stopped⟩
  | close =>
      cases hs
      exact ⟨h.readings, h.inflight, h.ledger, h.stopped⟩
  | complete n p =>
      obtain ⟨q, hq, rfl⟩ := Option.map_eq_some_iff.mp hs
      exact h.complete hq p
  | eventfd =>
      simp only [Ring.step] at hs
      split at hs
      next =>
        cases hs
        have hcq : (s.cq ++ [Cqe.mk .eventfd 8] ++ s.cqes).filterMap Cqe.reading
            = (s.cq ++ s.cqes).filterMap Cqe.reading := by
          simp only [List.append_assoc, List.filterMap_append]
          rfl
        have hnew := h.of_cqes hcq
        exact ⟨hnew.readings, hnew.inflight, hnew.ledger, hnew.stopped⟩
      next => cases hs
  | collect =>
      simp only [Ring.step] at hs
      split at hs
      next hidle =>
        cases hs
        refine h.of_cqes ?_
        rw [hidle.2.1, List.append_nil, List.nil_append]
      next => cases hs
  | handle =>
      simp only [Ring.step] at hs
      split at hs
      next => cases hs
      next =>
        split at hs
        next => cases hs
        next _ cqes hc =>
          cases hs
          have hcq : (s.cq ++ cqes).filterMap Cqe.reading
              = (s.cq ++ s.cqes).filterMap Cqe.reading := by
            rw [hc]
            simp only [List.filterMap_append]
            rfl
          have hnew := h.of_cqes hcq
          exact ⟨hnew.readings, hnew.inflight, hnew.ledger, hnew.stopped⟩
        next _ idx res cqes hc =>
          cases hs
          exact h.handleRead hc
  | start opened addr =>
      simp only [Ring.step] at hs
      split at hs
      next _ r queue _ hq =>
        cases hs
        exact h.start hq opened addr
      next => cases hs
  | drained =>
      simp only [Ring.step] at hs
      split at hs
      next =>
        cases hs
        exact ⟨h.readings, h.inflight, h.ledger, h.stopped⟩
      next => cases hs
  | exit =>
      simp only [Ring.step] at hs
      split at hs
      next =>
        cases hs
        exact h.stop .exited (by rintro (hp | hp) <;> cases hp)
      next => cases hs
  | fail =>
      simp only [Ring.step] at hs
      split at hs
      next =>
        cases hs
        exact h.stop .failed (by rintro (hp | hp) <;> cases hp)
      next => cases hs
  | fallback n opened answers =>
      obtain ⟨r, hn, hr⟩ := Option.bind_eq_some_iff.mp hs
      obtain ⟨reply, hreply, rfl⟩ := Option.map_eq_some_iff.mp hr
      refine (h.leave hn).answer fun b hb => ?_
      have hsound : Sound (files r.path) r.off r.len (settled answers) _ :=
        readBuffered_sound r.path opened answers
      rw [hb] at hreply
      refine hsound.returned b ?_
      revert hreply
      cases readBuffered (files r.path) r.path r.off r.len opened answers with
      | returned b' =>
          intro hreply
          cases hreply
          rfl
      | waiting => nofun
      | panicked => nofun
      | failed e => nofun
  | lose n =>
      obtain ⟨r, hn, rfl⟩ := Option.map_eq_some_iff.mp hs
      exact (h.leave hn).answer nofun

theorem reach {s : Ring} (h : (ringSystem files).Reach s) : Kept files [] s :=
  h.invariant (fun _ hi => hi ▸ init files) fun _ _ _ _ hk hs => hk.step hs

end Kept

-- =============================================================== what is served

/-- Is the request still in the channel, under way or with a blocking
thread? -/
def Ring.Pending (s : Ring) (t : ℕ) : Prop :=
  (∃ r ∈ s.queue, r.tx = t)
    ∨ (∃ e ∈ s.readings, ∃ op, s.slab.get e.idx = some op ∧ op.req.tx = t)
    ∨ ∃ r ∈ s.fallbacks, r.tx = t

/-- What the callers of a ring thread are owed. -/
structure Ring.Served (files : String → File) (s : Ring) : Prop where
  /-- Bytes are the range's, all of them. -/
  exact : ∀ t b, (t, Reply.ok b) ∈ s.answers →
    ∃ r, s.sent[t]? = some r ∧ Exactly (files r.path) r.off r.len b
  /-- No request is answered twice. -/
  once : (s.answers.map Prod.fst).Nodup
  /-- One that was sent is answered once nothing of it is left to do. -/
  answered : ∀ t, t ∈ s.answers.map Prod.fst ↔ t < s.sent.length ∧ ¬ s.Pending t
  /-- A slot is not free while a read is out for it. -/
  free : ∀ i ∈ s.slab.free, i ∉ s.readings.map Reading.idx
  /-- Nor are two reads out for it. -/
  apart : (s.readings.map Reading.idx).Nodup
  /-- Only a length that no buffer has stops the thread. -/
  stopped : s.phase = .panicked ∨ s.phase = .undefined →
    ∃ r ∈ s.sent, isizeMax < r.len + 3 * align

/-- What is pending is what is held: a slot is filled exactly while a reading
is out for it. -/
theorem Ring.pending_iff {s : Ring} (h : Readings files s.slab s.readings) (t : ℕ) :
    s.Pending t ↔ t ∈ s.held.map Req.tx := by
  have hslab : (∃ e ∈ s.readings, ∃ op, s.slab.get e.idx = some op ∧ op.req.tx = t)
      ↔ ∃ op ∈ s.slab.toList, op.req.tx = t := by
    constructor
    · rintro ⟨e, -, op, hget, ht⟩
      exact ⟨op, Slab.mem_toList.mpr ⟨_, hget⟩, ht⟩
    · rintro ⟨op, hop, ht⟩
      obtain ⟨i, hget⟩ := Slab.mem_toList.mp hop
      obtain ⟨e, he, rfl⟩ := List.mem_map.mp ((h.tracks.mem_iff i).mpr (by rw [hget]; rfl))
      exact ⟨e, he, op, hget, ht⟩
  unfold Ring.Pending Ring.held
  rw [hslab]
  simp only [List.map_append, List.map_map, List.mem_append, List.mem_map, Function.comp_apply,
    or_assoc]

/-- What callers are owed, read off the ledger: the numbers are each in one
place, so one is answered exactly when it is held nowhere. -/
theorem Kept.served {s : Ring} (h : Kept files [] s) : s.Served files := by
  have hnodup := (h.ledger.numbers.nodup_iff).mpr List.nodup_range
  have hdisjoint := List.disjoint_of_nodup_append hnodup
  refine ⟨h.ledger.exact, hnodup.of_append_right, fun t => ?_, fun i hi hm => ?_,
    h.readings.tracks.nodup, h.stopped⟩
  · have hmem := h.ledger.numbers.mem_iff (a := t)
    rw [List.mem_append, List.mem_range] at hmem
    rw [Ring.pending_iff h.readings, ← hmem]
    constructor
    · exact fun ht => ⟨Or.inr ht, fun hheld => hdisjoint hheld ht⟩
    · rintro ⟨hor, hnot⟩
      exact hor.resolve_left hnot
  · exact h.readings.tracks.notMem_free hm hi

-- ================================================================ both paths

/-- Whatever the kernel makes of its reads, `read_segment` returns the
range it was asked for or fails; and whatever happens when, so is every
request to the ring answered, once, and when none of its reads is left. -/
theorem aligned_reads_exact (files : String → File) :
    (∀ (path : String) (off len : ℕ), off < 2 ^ 64 → len < 2 ^ 64 → ∀ c : Calls,
        Sound (files path) off len c.answered (readSegment (files path) path off len c))
      ∧ ∀ s, (ringSystem files).Reach s → s.Served files :=
  ⟨fun path _ _ ho hl c => readSegment_sound ho hl path c, fun _ h => (Kept.reach h).served⟩

/-- A file of ten bytes. -/
def tenBytes : File := ⟨(List.range 10).map UInt8.ofNat, by decide⟩

/-- Four of them, read in two calls. -/
def twoCalls : List Act :=
  [.send "a" 3 4, .wake, .eventfd, .collect, .handle, .start (.ok ()) 100, .drained,
    .complete 0 (.gives 5), .collect, .handle, .complete 0 (.gives 4096), .collect, .handle]

theorem aligned_reads_exact_short :
    (∃ s, (ringSystem fun _ => tenBytes).run {} twoCalls = some s
        ∧ s.answers = [(0, .ok [3, 4, 5, 6])] ∧ s.Served fun _ => tenBytes)
      ∧ ∃ b, readSegment tenBytes "a" 3 4
          ⟨.ok (), 100, [.gives 5, .gives 4096], .ok (), []⟩ = .returned b
        ∧ Exactly tenBytes 3 4 b := by
  have hrun : ((ringSystem fun _ => tenBytes).run {} twoCalls).map Ring.answers
      = some [(0, .ok [3, 4, 5, 6])] := by decide +kernel
  have hseg : readSegment tenBytes "a" 3 4 ⟨.ok (), 100, [.gives 5, .gives 4096], .ok (), []⟩
      = .returned [3, 4, 5, 6] := by decide +kernel
  obtain ⟨hsegment, hring⟩ := aligned_reads_exact fun _ => tenBytes
  obtain ⟨s, hs, hanswers⟩ := Option.map_eq_some_iff.mp hrun
  refine ⟨⟨s, hs, hanswers, hring s ((System.Reach.start rfl).run hs)⟩, _, hseg, ?_⟩
  exact (hsegment "a" 3 4 (by decide) (by decide) _).returned _ hseg

end Io

end Narshare
