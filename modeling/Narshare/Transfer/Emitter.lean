/-
The emitter of fetch.rs: it walks a plan in order and sends what it has.

# One turn

`Emitter::pump` is a loop; `turn` is one turn of it, and of the inner
loop over a span that streams. A turn either stops the pump, for want of
data or for good, or goes on. `turn_cases` says once what a turn can do:
all it sends goes through `emitAll`, and what it takes for that, from the
buffer, the framing or what is retained, is a `Prep`.

# What is kept

- `Placed`: what is emitted ends in or before the current span, which is
  where the plan has it; so no more than the plan's bytes is ever sent.
- `Stocked`: what is retained is kept within the budget for the spans
  that are left, so that a replay always finds its copy.
- `Gated`: of a full transfer, all is hashed that is sent, and either
  bytes are missing or the hash was compared and agreed.

The client may hang up after any number of pieces (`Client.patience`).
SHA-256 is any function.
-/
import Narshare.Transfer.Buffer
import Narshare.Transfer.Plan

namespace Narshare

-- ================================================================ the client

/-- The receiving end of `out`. -/
structure Client where
  sent : Bytes := []
  patience : Option ℕ := none
deriving DecidableEq

/-- `out.send(Ok(b))`. -/
def Client.send (c : Client) (b : Bytes) : Option Client :=
  match c.patience with
  | none => some { c with sent := c.sent ++ b }
  | some 0 => none
  | some (n + 1) => some ⟨c.sent ++ b, some n⟩

-- =============================================================== the emitter

/-- `EmitEnd`. -/
inductive EmitEnd
  | clientGone
  | hashMismatch
deriving DecidableEq

/-- The plan-integrity verdicts of `Pump::Abort`. -/
inductive PumpAbort
  | replayBeforeRetention
  | replayLength (got len : ℕ)
deriving DecidableEq

/-- `Pump`; a slice out of bounds panics. -/
inductive Pump
  | needData
  | finished
  | abort (why : PumpAbort)
  | panicked
deriving DecidableEq

/-- `Emitter`; `verified` is a ghost: has the comparison succeeded? -/
structure Emitter where
  spans : List (ℕ × SpanExec)
  lits : Bytes
  spanI : ℕ := 0
  spanEmitted : ℕ := 0
  emitPos : ℕ
  end_ : ℕ
  full : Bool
  narHash : NarHash
  hasher : Bytes := []
  buffered : Buffer := ∅
  held : OrdMap ℕ (Bytes × ℕ) := ∅
  verified : Bool := false
deriving DecidableEq

variable (sha256 : Bytes → NarHash)

namespace Emitter

/-- `emit`, what is hashed once a piece is: only a full transfer is. -/
def hashed (em : Emitter) (b : Bytes) : Bytes := if em.full then em.hasher ++ b else em.hasher

/-- `emit`, is this the piece that reaches the end of a full transfer? -/
def last (em : Emitter) (b : Bytes) : Bool :=
  em.full && decide (em.emitPos + b.length = em.end_)

/-- `emit`. -/
def emit (em : Emitter) (c : Client) (b : Bytes) : Option EmitEnd × Emitter × Client :=
  if em.last b = true ∧ sha256 (em.hashed b) ≠ em.narHash then
    (some .hashMismatch, { em with hasher := em.hashed b }, c)
  else
    let em := { em with
      hasher := em.hashed b
      emitPos := em.emitPos + b.length
      verified := em.verified || em.last b }
    match c.send b with
    | some c => (none, em, c)
    | none => (some .clientGone, em, c)

/-- Pieces emitted one after another. -/
def emitAll : Emitter → Client → List Bytes → Option EmitEnd × Emitter × Client
  | em, c, [] => (none, em, c)
  | em, c, b :: bs =>
      match em.emit sha256 c b with
      | (none, em, c) => emitAll em c bs
      | (some e, em, c) => (some e, em, c)

/-- Emit what a turn has, and go on. -/
def emitThen (em : Emitter) (c : Client) (bs : List Bytes) (next : Bool) :
    Option (Except EmitEnd Pump) × Emitter × Client :=
  match em.emitAll sha256 c bs with
  | (none, em, c) => (none, if next then { em with spanI := em.spanI + 1 } else em, c)
  | (some e, em, c) => (some (.error e), em, c)

/-- `pump`, one turn; with a result when the pump returns. -/
def turn (em : Emitter) (c : Client) : Option (Except EmitEnd Pump) × Emitter × Client :=
  match em.spans[em.spanI]? with
  | none => (some (.ok .finished), em, c)
  | some (_, .lit litOff len) =>
      if em.lits.length < litOff + len then (some (.ok .panicked), em, c)
      else em.emitThen sha256 c [slice em.lits litOff (litOff + len)] true
  | some (_, .replay unique len) =>
      match em.held.get unique with
      | none => (some (.ok (.abort .replayBeforeRetention)), em, c)
      | some (bytes, uses) =>
          let remaining := uses - 1
          if bytes.length ≠ len then
            (some (.ok (.abort (.replayLength bytes.length len))), em, c)
          else
            let left := if remaining = 0 then none else some (bytes, remaining)
            { em with held := em.held.set unique left }.emitThen sha256 c [bytes] true
  | some (_, .fetch len none) =>
      if em.spanEmitted < len then
        match em.buffered.takePrefix em.emitPos (len - em.spanEmitted) with
        | none => (some (.ok .needData), em, c)
        | some (b, buffered) =>
            { em with
              buffered := buffered
              spanEmitted := em.spanEmitted + b.length }.emitThen sha256 c [b] false
      else (none, { em with spanEmitted := 0, spanI := em.spanI + 1 }, c)
  | some (off, .fetch len (some (unique, retainFor))) =>
      match em.buffered.takeSpan off (off + len) with
      | none => (some (.ok .needData), em, c)
      | some (slices, buffered) =>
          { em with
            buffered := buffered
            held := em.held.put unique (slices.flatten, retainFor) }.emitThen sha256 c slices true

end Emitter

-- ========================================================= what a turn can do

variable {sha256} {em em' em₀ : Emitter} {c c' : Client} {bs : List Bytes} {next : Bool}

theorem Client.send_sent {b : Bytes} (h : c.send b = some c') : c'.sent = c.sent ++ b := by
  rw [Client.send] at h
  split at h
  next =>
    cases h
    rfl
  next => cases h
  next =>
    cases h
    rfl

namespace Emitter

/-- A piece is refused, sent, or sent to no one. -/
theorem emit_cases {e : Option EmitEnd} {b : Bytes} (h : em.emit sha256 c b = (e, em', c')) :
    (e = some .hashMismatch ∧ em' = { em with hasher := em.hashed b } ∧ c' = c)
      ∨ (em' = { em with
            hasher := em.hashed b
            emitPos := em.emitPos + b.length
            verified := em.verified || em.last b }
          ∧ (em.last b = true → sha256 (em.hashed b) = em.narHash)
          ∧ ((e = none ∧ c.send b = some c') ∨ (e = some .clientGone ∧ c' = c))) := by
  rw [emit] at h
  split at h
  next =>
    cases h
    exact Or.inl ⟨rfl, rfl, rfl⟩
  next hok =>
    have hagrees : em.last b = true → sha256 (em.hashed b) = em.narHash := fun hlast => by
      by_contra hne
      exact hok ⟨hlast, hne⟩
    simp only at h
    split at h
    next c₁ hsend =>
      cases h
      exact Or.inr ⟨rfl, hagrees, Or.inl ⟨rfl, hsend⟩⟩
    next =>
      cases h
      exact Or.inr ⟨rfl, hagrees, Or.inr ⟨rfl, rfl⟩⟩

/-- What is sent is behind the emitter, and hashed; nothing else moves. -/
theorem emitAll_ok (h : em.emitAll sha256 c bs = (none, em', c')) :
    c'.sent = c.sent ++ bs.flatten
      ∧ ∃ v, em' = { em with
          hasher := em.hashed bs.flatten
          emitPos := em.emitPos + bs.flatten.length
          verified := v } := by
  induction bs generalizing em c with
  | nil =>
      cases h
      refine ⟨(List.append_nil _).symm, em'.verified, ?_⟩
      rw [List.flatten_nil, hashed, List.append_nil, ite_self]
      rfl
  | cons b bs ih =>
      rw [emitAll] at h
      split at h
      next em₁ c₁ hem =>
        rcases emit_cases hem with ⟨he, -⟩ | ⟨rfl, -, ⟨-, hsend⟩ | ⟨he, -⟩⟩
        · cases he
        · obtain ⟨hsent, v, rfl⟩ := ih h
          refine ⟨?_, v, ?_⟩
          · rw [hsent, Client.send_sent hsend, List.flatten_cons, List.append_assoc]
          · simp only [hashed, List.flatten_cons, List.length_append, Nat.add_assoc]
            cases em.full with
            | true => simp only [if_true, List.append_assoc]
            | false => simp only [Bool.false_eq_true, if_false]
        · cases he
      next => cases h

/-- What a turn takes to emit: the emitter it leaves, and whether the span
is then done. -/
inductive Prep (em : Emitter) : List Bytes → Emitter → Bool → Prop
  | lit {off litOff len : ℕ} : em.spans[em.spanI]? = some (off, .lit litOff len) →
      litOff + len ≤ em.lits.length → Prep em [slice em.lits litOff (litOff + len)] em true
  | replay {off unique len : ℕ} {bytes : Bytes} {uses : ℕ} :
      em.spans[em.spanI]? = some (off, .replay unique len) →
      em.held.get unique = some (bytes, uses) → bytes.length = len →
      Prep em [bytes] { em with
        held := em.held.set unique (if uses - 1 = 0 then none else some (bytes, uses - 1)) } true
  | stream {off len : ℕ} {b : Bytes} {buffered : Buffer} :
      em.spans[em.spanI]? = some (off, .fetch len none) → em.spanEmitted < len →
      em.buffered.takePrefix em.emitPos (len - em.spanEmitted) = some (b, buffered) →
      Prep em [b] { em with
        buffered := buffered
        spanEmitted := em.spanEmitted + b.length } false
  | retain {off len unique retainFor : ℕ} {slices : List Bytes} {buffered : Buffer} :
      em.spans[em.spanI]? = some (off, .fetch len (some (unique, retainFor))) →
      em.buffered.takeSpan off (off + len) = some (slices, buffered) →
      Prep em slices { em with
        buffered := buffered
        held := em.held.put unique (slices.flatten, retainFor) } true

/-- Why the pump waits: the current span is fetched, and not all of what it
emits next is there. -/
inductive Waits (em : Emitter) : Prop
  | stream {off len : ℕ} : em.spans[em.spanI]? = some (off, .fetch len none) →
      em.spanEmitted < len →
      em.buffered.takePrefix em.emitPos (len - em.spanEmitted) = none → Waits em
  | retain {off len unique retainFor : ℕ} :
      em.spans[em.spanI]? = some (off, .fetch len (some (unique, retainFor))) →
      em.buffered.takeSpan off (off + len) = none → Waits em

/-- Why the pump gives up on its plan. -/
inductive Broken (em : Emitter) : Prop
  | slice {off litOff len : ℕ} : em.spans[em.spanI]? = some (off, .lit litOff len) →
      em.lits.length < litOff + len → Broken em
  | unheld {off unique len : ℕ} : em.spans[em.spanI]? = some (off, .replay unique len) →
      em.held.get unique = none → Broken em
  | length {off unique len : ℕ} {bytes : Bytes} {uses : ℕ} :
      em.spans[em.spanI]? = some (off, .replay unique len) →
      em.held.get unique = some (bytes, uses) → bytes.length ≠ len → Broken em

/-- What became of a turn. -/
inductive Turned (sha256 : Bytes → NarHash) (em : Emitter) (c : Client) :
    Option (Except EmitEnd Pump) → Emitter → Client → Prop
  | finished : em.spans[em.spanI]? = none → Turned sha256 em c (some (.ok .finished)) em c
  | needData : em.Waits → Turned sha256 em c (some (.ok .needData)) em c
  | broken {r : Pump} : em.Broken → r ≠ .needData → r ≠ .finished →
      Turned sha256 em c (some (.ok r)) em c
  | passed {off len : ℕ} : em.spans[em.spanI]? = some (off, .fetch len none) →
      len ≤ em.spanEmitted →
      Turned sha256 em c none { em with spanEmitted := 0, spanI := em.spanI + 1 } c
  | emitted {bs em₀ next em₁ c₁} : em.Prep bs em₀ next →
      em₀.emitAll sha256 c bs = (none, em₁, c₁) →
      Turned sha256 em c none (if next then { em₁ with spanI := em₁.spanI + 1 } else em₁) c₁
  | dead {bs em₀ next e em₁ c₁} : em.Prep bs em₀ next →
      em₀.emitAll sha256 c bs = (some e, em₁, c₁) →
      Turned sha256 em c (some (.error e)) em₁ c₁

theorem turned_emitThen (hp : em.Prep bs em₀ next) {r : Option (Except EmitEnd Pump)}
    (h : em₀.emitThen sha256 c bs next = (r, em', c')) : Turned sha256 em c r em' c' := by
  rw [emitThen] at h
  split at h
  next em₁ c₁ hem =>
    cases h
    exact .emitted hp hem
  next e em₁ c₁ hem =>
    cases h
    exact .dead hp hem

/-- All that a turn can do. -/
theorem turn_cases {r : Option (Except EmitEnd Pump)}
    (h : em.turn sha256 c = (r, em', c')) : Turned sha256 em c r em' c' := by
  unfold turn at h
  split at h
  next hspan =>
    cases h
    exact .finished hspan
  next off litOff len hspan =>
    split at h
    next hlt =>
      cases h
      exact .broken (.slice hspan hlt) nofun nofun
    next hge => exact turned_emitThen (.lit hspan (not_lt.mp hge)) h
  next off unique len hspan =>
    split at h
    next hnone =>
      cases h
      exact .broken (.unheld hspan hnone) nofun nofun
    next bytes uses hget =>
      simp only at h
      split at h
      next hne =>
        cases h
        exact .broken (.length hspan hget hne) nofun nofun
      next heq => exact turned_emitThen (.replay hspan hget (not_not.mp heq)) h
  next off len hspan =>
    split at h
    next hlt =>
      split at h
      next hnone =>
        cases h
        exact .needData (.stream hspan hlt hnone)
      next b buffered htake => exact turned_emitThen (.stream hspan hlt htake) h
    next hge =>
      cases h
      exact .passed hspan (not_lt.mp hge)
  next off len unique retainFor hspan =>
    split at h
    next hnone =>
      cases h
      exact .needData (.retain hspan hnone)
    next slices buffered htake => exact turned_emitThen (.retain hspan htake) h

/-- Emitting changes only what is hashed, where it stands, and whether the
hash was compared. -/
theorem emitAll_same {e : Option EmitEnd} (h : em.emitAll sha256 c bs = (e, em', c')) :
    em' = { em with
      hasher := em'.hasher
      emitPos := em'.emitPos
      verified := em'.verified } := by
  induction bs generalizing em c with
  | nil =>
      cases h
      rfl
  | cons b bs ih =>
      rw [emitAll] at h
      split at h
      next em₁ c₁ hem =>
        rcases emit_cases hem with ⟨he, -⟩ | ⟨rfl, -⟩
        · cases he
        · have hsame := ih h
          exact hsame
      next e₁ em₁ c₁ hem =>
        cases h
        rcases emit_cases hem with ⟨-, rfl, -⟩ | ⟨rfl, -⟩
        · rfl
        · rfl

/-- No turn changes the plan. -/
theorem Turned.same {r : Option (Except EmitEnd Pump)} (ht : Turned sha256 em c r em' c') :
    em'.spans = em.spans ∧ em'.lits = em.lits ∧ em'.full = em.full ∧ em'.narHash = em.narHash
      ∧ em'.end_ = em.end_ := by
  have hprep : ∀ {bs em₀ next}, em.Prep bs em₀ next →
      em₀ = { em with
        buffered := em₀.buffered
        spanEmitted := em₀.spanEmitted
        held := em₀.held } := by
    intro bs em₀ next hp
    cases hp with
    | lit => rfl
    | replay => rfl
    | stream => rfl
    | retain => rfl
  cases ht with
  | finished => exact ⟨rfl, rfl, rfl, rfl, rfl⟩
  | needData => exact ⟨rfl, rfl, rfl, rfl, rfl⟩
  | broken => exact ⟨rfl, rfl, rfl, rfl, rfl⟩
  | passed => exact ⟨rfl, rfl, rfl, rfl, rfl⟩
  | emitted hp hem =>
      rename_i bs em₀ next em₁
      have heq := emitAll_same hem
      rw [hprep hp] at heq
      cases next with
      | true => rw [if_pos rfl, heq]; exact ⟨rfl, rfl, rfl, rfl, rfl⟩
      | false => rw [if_neg Bool.false_ne_true, heq]; exact ⟨rfl, rfl, rfl, rfl, rfl⟩
  | dead hp hem =>
      have heq := emitAll_same hem
      rw [hprep hp] at heq
      rw [heq]
      exact ⟨rfl, rfl, rfl, rfl, rfl⟩

end Emitter

-- ============================================================ where it stands

/-- Spans without a gap from `a` to `b`. -/
def Contiguous (a b : ℕ) : List (ℕ × SpanExec) → Prop
  | [] => a = b
  | s :: spans => s.1 = a ∧ Contiguous (a + s.2.len) b spans

theorem Contiguous.le {a b : ℕ} {spans : List (ℕ × SpanExec)} (h : Contiguous a b spans) :
    a ≤ b := by
  induction spans generalizing a with
  | nil => exact le_of_eq h
  | cons s spans ih => exact (Nat.le_add_right _ _).trans (ih h.2)

theorem Contiguous.of_tiles {a b : ℕ} {spans : List (ℕ × SpanExec)}
    (h : Tiles Prod.fst (fun s => s.2.len) a b spans) : Contiguous a b spans := by
  induction spans generalizing a with
  | nil => exact h
  | cons s spans ih => exact ⟨h.1, ih h.2.2⟩

namespace Emitter

/-- The emitter stands in or before its current span, where the plan has
that span. -/
structure Placed (em : Emitter) : Prop where
  rest : ∃ a, Contiguous a em.end_ (em.spans.drop em.spanI) ∧ em.emitPos = a + em.spanEmitted
  inner : em.spanEmitted = 0 ∨ ∃ off len,
    em.spans[em.spanI]? = some (off, .fetch len none) ∧ em.spanEmitted ≤ len
  buffer : em.buffered.Ok

/-- The current span, and those after it. -/
theorem Placed.current (h : em.Placed) {off : ℕ} {s : SpanExec}
    (hs : em.spans[em.spanI]? = some (off, s)) :
    em.emitPos = off + em.spanEmitted
      ∧ Contiguous (off + s.len) em.end_ (em.spans.drop (em.spanI + 1)) := by
  obtain ⟨a, hrest, hpos⟩ := h.rest
  obtain ⟨hlt, hget⟩ := List.getElem?_eq_some_iff.mp hs
  rw [List.drop_eq_getElem_cons hlt, hget] at hrest
  obtain ⟨hoff, hrest⟩ := hrest
  simp only at hoff hrest
  subst hoff
  exact ⟨hpos, hrest⟩

/-- Only a span that streams is ever part emitted. -/
theorem Placed.unemitted (h : em.Placed) {off : ℕ} {s : SpanExec}
    (hs : em.spans[em.spanI]? = some (off, s)) (hne : ∀ len, s ≠ .fetch len none) :
    em.spanEmitted = 0 := by
  rcases h.inner with hzero | ⟨off', len, hs', -⟩
  · exact hzero
  · rw [hs] at hs'
    cases hs'
    exact absurd rfl (hne len)

/-- What a turn takes, place by place: the emitter it leaves differs in
what it took from, and what it emits is the rest of the span, or some of
it. -/
structure Prep.Spec (em : Emitter) (bs : List Bytes) (em₀ : Emitter) (next : Bool) : Prop where
  same : em₀ = { em with
    buffered := em₀.buffered
    spanEmitted := em₀.spanEmitted
    held := em₀.held }
  ok : em₀.buffered.Ok
  cover_le : ∀ x, cover em₀.buffered.ranges x ≤ cover em.buffered.ranges x
  cover_eq : ∀ x, em.emitPos + bs.flatten.length ≤ x →
    cover em₀.buffered.ranges x = cover em.buffered.ranges x
  done : next = true → em₀.spanEmitted = 0
    ∧ Contiguous (em.emitPos + bs.flatten.length) em.end_ (em.spans.drop (em.spanI + 1))
  part : next = false → em₀.spanEmitted = em.spanEmitted + bs.flatten.length
    ∧ 0 < bs.flatten.length
    ∧ ∃ off len, em.spans[em.spanI]? = some (off, .fetch len none) ∧ em₀.spanEmitted ≤ len

theorem Prep.spec (hp : em.Prep bs em₀ next) (h : em.Placed) : Prep.Spec em bs em₀ next := by
  have hbuf := h.buffer
  cases hp with
  | lit hspan hin =>
      rename_i off litOff len
      obtain ⟨hpos, hrest⟩ := h.current hspan
      have hzero := h.unemitted hspan nofun
      have hlen : [slice em.lits litOff (litOff + len)].flatten.length = len := by
        rw [List.flatten_singleton, length_slice]
        omega
      refine ⟨rfl, hbuf, fun _ => le_rfl, fun _ _ => rfl, fun _ => ⟨hzero, ?_⟩, nofun⟩
      rwa [hlen, hpos, hzero]
  | replay hspan hget hlen =>
      rename_i off unique len bytes uses
      obtain ⟨hpos, hrest⟩ := h.current hspan
      have hzero := h.unemitted hspan nofun
      refine ⟨rfl, hbuf, fun _ => le_rfl, fun _ _ => rfl, fun _ => ⟨hzero, ?_⟩, nofun⟩
      rw [List.flatten_singleton, hlen, hpos, hzero]
      exact hrest
  | stream hspan hlt htake =>
      rename_i off len b buffered
      obtain ⟨hpos, hle, hok, hcover⟩ :=
        Buffer.takePrefix_some hbuf (Nat.sub_pos_of_lt hlt) htake
      refine ⟨rfl, hok, fun x => ?_, fun x hx => ?_, nofun, fun _ => ⟨?_, ?_, ?_⟩⟩
      · rw [hcover x]
        exact Nat.le_add_right _ _
      · rw [List.flatten_singleton] at hx
        rw [hcover x, hits_eq_zero.mpr (Or.inr hx), Nat.add_zero]
      · rw [List.flatten_singleton]
      · rwa [List.flatten_singleton]
      · exact ⟨off, len, hspan, by simp only; omega⟩
  | retain hspan htake =>
      rename_i off len unique retainFor buffered
      obtain ⟨hpos, hrest⟩ := h.current hspan
      have hzero := h.unemitted hspan nofun
      obtain ⟨hlen, hok, hcover⟩ := Buffer.takeSpan_some hbuf htake
      rw [Nat.add_sub_cancel_left] at hlen hcover
      have hflat : bs.flatten.length = len := by rw [List.length_flatten, hlen]
      refine ⟨rfl, hok, fun x => ?_, fun x hx => ?_, fun _ => ⟨hzero, ?_⟩, nofun⟩
      · rw [hcover x]
        exact Nat.le_add_right _ _
      · rw [hflat, hpos, hzero, Nat.add_zero] at hx
        rw [hcover x, hits_eq_zero.mpr (Or.inr hx), Nat.add_zero]
      · rw [hflat, hpos, hzero]
        exact hrest

/-- What is emitted stays within the plan. -/
theorem Prep.Spec.le_end (hs : Prep.Spec em bs em₀ next) (h : em.Placed) :
    em.emitPos + bs.flatten.length ≤ em.end_ := by
  cases next with
  | true => exact (hs.done rfl).2.le
  | false =>
      obtain ⟨heq, -, off, len, hspan, hle⟩ := hs.part rfl
      obtain ⟨hpos, hrest⟩ := h.current hspan
      have := hrest.le
      rw [SpanExec.len] at this
      omega

/-- The emitter going forward: its plan is the same, and what it leaves in
the buffer of what is still ahead of it is all that was there. -/
structure Forward (em em' : Emitter) : Prop where
  spans : em'.spans = em.spans
  lits : em'.lits = em.lits
  end_ : em'.end_ = em.end_
  full : em'.full = em.full
  narHash : em'.narHash = em.narHash
  emitPos : em.emitPos ≤ em'.emitPos
  cover_le : ∀ x, cover em'.buffered.ranges x ≤ cover em.buffered.ranges x
  cover_eq : ∀ x, em'.emitPos ≤ x → cover em'.buffered.ranges x = cover em.buffered.ranges x

/-- A turn that goes on leaves the emitter in its place, further on. -/
theorem Turned.placed (ht : Turned sha256 em c none em' c') (h : em.Placed) :
    em'.Placed ∧ em.Forward em' := by
  cases ht with
  | passed hspan hle =>
      rename_i off len
      obtain ⟨hpos, hrest⟩ := h.current hspan
      have hlen : em.spanEmitted = len := by
        rcases h.inner with hzero | ⟨off', len', hspan', hle'⟩
        · omega
        · rw [hspan] at hspan'
          cases hspan'
          omega
      refine ⟨⟨⟨off + len, hrest, ?_⟩, Or.inl rfl, h.buffer⟩, ⟨rfl, rfl, rfl, rfl, rfl, le_rfl,
        fun _ => le_rfl, fun _ _ => rfl⟩⟩
      rw [hpos, hlen]
      rfl
  | emitted hp hem =>
      rename_i bs em₀ next em₁
      have hs := hp.spec h
      obtain ⟨-, v, rfl⟩ := emitAll_ok hem
      have hsame := hs.same
      have hforward : em.Forward { em₀ with
          hasher := em₀.hashed bs.flatten
          emitPos := em₀.emitPos + bs.flatten.length
          verified := v } := by
        rw [hsame]
        exact ⟨rfl, rfl, rfl, rfl, rfl, Nat.le_add_right _ _, hs.cover_le, hs.cover_eq⟩
      have hpos₀ : em₀.emitPos = em.emitPos := by rw [hsame]
      have hend₀ : em₀.end_ = em.end_ := by rw [hsame]
      have hspans₀ : em₀.spans = em.spans := by rw [hsame]
      have hspanI₀ : em₀.spanI = em.spanI := by rw [hsame]
      cases next with
      | true =>
          obtain ⟨hzero, hrest⟩ := hs.done rfl
          refine ⟨⟨⟨em.emitPos + bs.flatten.length, ?_, ?_⟩, Or.inl hzero, hs.ok⟩,
            ⟨hforward.spans, hforward.lits, hforward.end_, hforward.full, hforward.narHash,
              hforward.emitPos, hforward.cover_le, hforward.cover_eq⟩⟩
          · show Contiguous _ em₀.end_ (em₀.spans.drop (em₀.spanI + 1))
            rwa [hend₀, hspans₀, hspanI₀]
          · show em₀.emitPos + bs.flatten.length = _ + em₀.spanEmitted
            rw [hpos₀, hzero, Nat.add_zero]
      | false =>
          obtain ⟨heq, -, off, len, hspan, hle⟩ := hs.part rfl
          obtain ⟨a, hrest, hpos⟩ := h.rest
          refine ⟨⟨⟨a, ?_, ?_⟩, Or.inr ⟨off, len, ?_, hle⟩, hs.ok⟩, hforward⟩
          · show Contiguous _ em₀.end_ (em₀.spans.drop em₀.spanI)
            rwa [hend₀, hspans₀, hspanI₀]
          · show em₀.emitPos + bs.flatten.length = _ + em₀.spanEmitted
            rw [hpos₀, heq, hpos, Nat.add_assoc]
          · show em₀.spans[em₀.spanI]? = _
            rwa [hspans₀, hspanI₀]

/-- Why it waits: the first place it misses is in the current span, which
is fetched. -/
theorem Waits.missing (hw : em.Waits) (h : em.Placed) :
    ∃ off len retain, em.spans[em.spanI]? = some (off, .fetch len retain)
      ∧ ∃ x, em.emitPos ≤ x ∧ off ≤ x ∧ x < off + len ∧ (retain = none → x = em.emitPos)
        ∧ (retain ≠ none → off = em.emitPos)
        ∧ ¬ InRange em.buffered.ranges x
        ∧ ∀ y, em.emitPos ≤ y → y < x → InRange em.buffered.ranges y := by
  cases hw with
  | stream hspan hlt hnone =>
      rename_i off len
      obtain ⟨hpos, -⟩ := h.current hspan
      refine ⟨off, len, none, hspan, em.emitPos, le_rfl, by omega, by omega, fun _ => rfl,
        fun hne => absurd rfl hne, Buffer.takePrefix_none h.buffer hnone, fun y hlo hhi => ?_⟩
      exact absurd hlo (not_le.mpr hhi)
  | retain hspan hnone =>
      rename_i off len unique retainFor
      obtain ⟨hpos, -⟩ := h.current hspan
      rw [h.unemitted hspan nofun, Nat.add_zero] at hpos
      obtain ⟨x, hlo, hhi, hx, hall⟩ := Buffer.takeSpan_none h.buffer hnone
      exact ⟨off, len, _, hspan, x, hpos ▸ hlo, hlo, hhi, nofun, fun _ => hpos.symm, hx,
        hpos ▸ hall⟩

-- =========================================================== what is retained

/-- How much is retained. -/
def heldBytes (em : Emitter) : ℕ := em.held.sum fun _ e => e.1.length

/-- What is retained, as a stock. -/
def stock (em : Emitter) : Stock ℕ := em.held.mapVal fun e => (e.1.length, e.2)

/-- What is retained is kept for the spans that are left. -/
def Stocked (budget : ℕ) (em : Emitter) : Prop :=
  Keeps budget em.stock ((em.spans.drop em.spanI).map fun s => s.2.deal)

theorem total_stock (em : Emitter) : em.stock.total = em.heldBytes :=
  OrdMap.sum_mapVal _ _ _

theorem Stocked.le {budget : ℕ} (h : em.Stocked budget) : em.heldBytes ≤ budget := by
  rw [← total_stock]
  exact h.total_le

/-- The current span's turn of the stock. -/
theorem Stocked.current {budget : ℕ} (h : em.Stocked budget) {off : ℕ} {s : SpanExec}
    (hs : em.spans[em.spanI]? = some (off, s)) :
    ∃ stock', em.stock.deal s.deal = some stock'
      ∧ Keeps budget stock' ((em.spans.drop (em.spanI + 1)).map fun s => s.2.deal) := by
  obtain ⟨hlt, hget⟩ := List.getElem?_eq_some_iff.mp hs
  rw [Stocked, List.drop_eq_getElem_cons hlt, hget] at h
  obtain ⟨-, stock', hdeal, hrest⟩ := h
  exact ⟨stock', hdeal, hrest⟩

/-- A replay finds a copy of its length, with uses left. -/
theorem Stocked.replay {budget : ℕ} (h : em.Stocked budget) {off unique len : ℕ}
    (hs : em.spans[em.spanI]? = some (off, .replay unique len)) :
    ∃ bytes uses, em.held.get unique = some (bytes, uses) ∧ bytes.length = len ∧ 0 < uses := by
  obtain ⟨stock', hdeal, -⟩ := h.current hs
  rw [SpanExec.deal, Stock.deal] at hdeal
  split at hdeal
  next => cases hdeal
  next e hget =>
    split at hdeal
    next hok =>
      rw [stock, OrdMap.get_mapVal, Option.map_eq_some_iff] at hget
      obtain ⟨⟨bytes, uses⟩, hget, rfl⟩ := hget
      exact ⟨bytes, uses, hget, hok⟩
    next => cases hdeal

/-- A span that is done has dealt. -/
theorem Prep.stocked {budget : ℕ} (hp : em.Prep bs em₀ next) (hnext : next = true)
    (hplaced : em.Placed) (h : em.Stocked budget) :
    Keeps budget em₀.stock ((em.spans.drop (em.spanI + 1)).map fun s => s.2.deal) := by
  cases hp with
  | lit hspan =>
      obtain ⟨stock', hdeal, hrest⟩ := h.current hspan
      cases hdeal
      exact hrest
  | replay hspan hget hlen =>
      rename_i off unique len bytes uses
      obtain ⟨stock', hdeal, hrest⟩ := h.current hspan
      obtain ⟨_, _, hget', -, hpos⟩ := h.replay hspan
      rw [hget] at hget'
      cases hget'
      have hstock : em.stock.get unique = some (bytes.length, uses) := by
        rw [stock, OrdMap.get_mapVal, hget, Option.map_some]
      simp only [SpanExec.deal, Stock.deal, hstock] at hdeal
      rw [if_pos ⟨hlen, hpos⟩] at hdeal
      cases hdeal
      convert hrest using 1
      rw [stock, OrdMap.mapVal_set, stock]
      congr 1
      rw [← hlen]
      by_cases hone : uses = 1
      · rw [if_pos hone, if_pos (by omega)]
        rfl
      · rw [if_neg hone, if_neg (by omega)]
        rfl
  | stream => cases hnext
  | retain hspan htake =>
      rename_i off len unique retainFor buffered
      obtain ⟨stock', hdeal, hrest⟩ := h.current hspan
      obtain ⟨hlen, -, -⟩ := Buffer.takeSpan_some hplaced.buffer htake
      rw [Nat.add_sub_cancel_left, ← List.length_flatten] at hlen
      rw [SpanExec.deal, Stock.deal] at hdeal
      split at hdeal
      next =>
        cases hdeal
        convert hrest using 1
        rw [stock, OrdMap.put, OrdMap.mapVal_set, Option.map_some, hlen]
        rfl
      next => cases hdeal

/-- A turn that goes on keeps what is retained within the budget. -/
theorem Turned.stocked {budget : ℕ} (ht : Turned sha256 em c none em' c') (hplaced : em.Placed)
    (h : em.Stocked budget) : em'.Stocked budget := by
  cases ht with
  | passed hspan =>
      obtain ⟨stock', hdeal, hrest⟩ := h.current hspan
      cases hdeal
      exact hrest
  | emitted hp hem =>
      rename_i bs em₀ next em₁
      obtain ⟨-, v, rfl⟩ := emitAll_ok hem
      have hsame := (hp.spec hplaced).same
      have hspans₀ : em₀.spans = em.spans := by rw [hsame]
      have hspanI₀ : em₀.spanI = em.spanI := by rw [hsame]
      cases next with
      | true =>
          have := hp.stocked rfl hplaced h
          rw [← hspans₀, ← hspanI₀] at this
          exact this
      | false =>
          cases hp
          exact h

/-- However a turn ends, what is retained is within the budget. -/
theorem Turned.heldBytes_le {budget : ℕ} {r : Option (Except EmitEnd Pump)}
    (ht : Turned sha256 em c r em' c') (hplaced : em.Placed) (h : em.Stocked budget) :
    em'.heldBytes ≤ budget := by
  have hprep : ∀ {bs em₀ next}, em.Prep bs em₀ next → em₀.heldBytes ≤ budget := by
    intro bs em₀ next hp
    cases next with
    | true =>
        rw [← total_stock]
        exact (hp.stocked rfl hplaced h).total_le
    | false =>
        cases hp
        exact h.le
  cases ht with
  | finished => exact h.le
  | needData => exact h.le
  | broken => exact h.le
  | passed => exact h.le
  | emitted hp hem =>
      rename_i bs em₀ next em₁
      obtain ⟨-, v, rfl⟩ := emitAll_ok hem
      have hle := hprep hp
      cases next with
      | true => exact hle
      | false => exact hle
  | dead hp hem =>
      have hle := hprep hp
      rw [emitAll_same hem]
      exact hle

/-- No verdict against the plan: its framing is there, and its copies. -/
theorem Stocked.not_broken {budget : ℕ} (h : em.Stocked budget)
    (hlits : ∀ s ∈ em.spans, ∀ litOff len, s.2 = .lit litOff len →
      litOff + len ≤ em.lits.length) : ¬ em.Broken := by
  intro hb
  cases hb with
  | slice hspan hlt =>
      exact absurd (hlits _ (List.mem_of_getElem? hspan) _ _ rfl) (not_le.mpr hlt)
  | unheld hspan hnone =>
      obtain ⟨_, _, hget, -⟩ := h.replay hspan
      rw [hnone] at hget
      cases hget
  | length hspan hget hne =>
      obtain ⟨_, _, hget', hlen, -⟩ := h.replay hspan
      rw [hget] at hget'
      cases hget'
      exact hne hlen

/-- Nothing is retained when all is emitted. -/
theorem Stocked.held_finished {budget : ℕ} (h : em.Stocked budget)
    (hspan : em.spans[em.spanI]? = none) : em.held = ∅ := by
  rw [Stocked, List.drop_eq_nil_of_le (List.getElem?_eq_none_iff.mp hspan)] at h
  apply OrdMap.ext
  intro u
  have hget : em.stock.get u = none := by rw [h.2]; rfl
  rw [stock, OrdMap.get_mapVal, Option.map_eq_none_iff] at hget
  exact hget

-- ================================================================== the gate

/-- Of a full transfer: all that is sent is hashed, and either bytes are
missing or the hash was compared and agreed. -/
def Gated (sha256 : Bytes → NarHash) (em : Emitter) (c : Client) : Prop :=
  em.full = true → em.hasher = c.sent ∧ em.emitPos = c.sent.length
    ∧ (em.emitPos < em.end_ ∨ (em.verified = true ∧ sha256 c.sent = em.narHash))

/-- What holds of a full transfer however it ends: bytes are missing, or
the hash was compared and agreed. -/
def Withheld (em : Emitter) (c : Client) : Prop :=
  em.full = true → c.sent.length < em.end_ ∨ em.verified = true

theorem Gated.withheld (h : Gated sha256 em c) : em.Withheld c := by
  intro hfull
  obtain ⟨-, hpos, hlt | ⟨hv, -⟩⟩ := h hfull
  · exact Or.inl (hpos ▸ hlt)
  · exact Or.inr hv

/-- The pieces of a span pass the gate one by one. -/
theorem Gated.emitAll {e : Option EmitEnd} (h : Gated sha256 em c)
    (hle : em.emitPos + bs.flatten.length ≤ em.end_)
    (hem : em.emitAll sha256 c bs = (e, em', c')) :
    em'.Withheld c' ∧ (e = none → Gated sha256 em' c') := by
  induction bs generalizing em c with
  | nil =>
      cases hem
      exact ⟨h.withheld, fun _ => h⟩
  | cons b bs ih =>
      rw [List.flatten_cons, List.length_append] at hle
      rw [Emitter.emitAll] at hem
      split at hem
      next em₁ c₁ hone =>
        rcases emit_cases hone with ⟨he, -⟩ | ⟨rfl, hagrees, ⟨-, hsend⟩ | ⟨he, -⟩⟩
        · cases he
        · refine ih (fun hfull => ?_) (by simp only; omega) hem
          obtain ⟨hhash, hpos, hgate⟩ := h hfull
          have hfull : em.full = true := hfull
          have hsent := Client.send_sent hsend
          have hhashed : em.hashed b = c₁.sent := by
            rw [hashed, if_pos hfull, hhash, hsent]
          refine ⟨hhashed, ?_, ?_⟩
          · show em.emitPos + b.length = _
            rw [hsent, List.length_append, hpos]
          · show em.emitPos + b.length < em.end_ ∨ ((em.verified || em.last b) = true ∧ _)
            by_cases hlast : em.emitPos + b.length = em.end_
            · have hl : em.last b = true := by rw [last, hfull, hlast]; simp
              refine Or.inr ⟨by rw [hl, Bool.or_true], ?_⟩
              rw [← hhashed]
              exact hagrees hl
            · exact Or.inl (by omega)
        · cases he
      next e₁ em₁ c₁ hone =>
        cases hem
        refine ⟨fun hfull => ?_, nofun⟩
        rcases emit_cases hone with ⟨-, rfl, rfl⟩ | ⟨rfl, -, ⟨he, -⟩ | ⟨-, rfl⟩⟩
        · exact h.withheld hfull
        · cases he
        · refine (h.withheld hfull).imp id fun hv => ?_
          show (em.verified || em.last b) = true
          rw [hv, Bool.true_or]

/-- Whatever a turn does, nothing gets past the gate. -/
theorem Turned.gated {r : Option (Except EmitEnd Pump)} (ht : Turned sha256 em c r em' c')
    (hplaced : em.Placed) (h : Gated sha256 em c) :
    em'.Withheld c' ∧ ((∀ e, r ≠ some (.error e)) → Gated sha256 em' c') := by
  have hspec : ∀ {bs em₀ next}, em.Prep bs em₀ next →
      Gated sha256 em₀ c ∧ em₀.emitPos + bs.flatten.length ≤ em₀.end_ := by
    intro bs em₀ next hp
    have hs := hp.spec hplaced
    have hle := hs.le_end hplaced
    rw [hs.same]
    exact ⟨h, hle⟩
  cases ht with
  | finished => exact ⟨h.withheld, fun _ => h⟩
  | needData => exact ⟨h.withheld, fun _ => h⟩
  | broken => exact ⟨h.withheld, fun _ => h⟩
  | passed => exact ⟨h.withheld, fun _ => h⟩
  | emitted hp hem =>
      rename_i bs em₀ next em₁
      obtain ⟨hg, hle⟩ := hspec hp
      have hgated := (hg.emitAll hle hem).2 rfl
      cases next with
      | true => exact ⟨hgated.withheld, fun _ => hgated⟩
      | false => exact ⟨hgated.withheld, fun _ => hgated⟩
  | dead hp hem =>
      obtain ⟨hg, hle⟩ := hspec hp
      exact ⟨(hg.emitAll hle hem).1, fun hne => absurd rfl (hne _)⟩

-- ============================================================ the pump returns

/-- What is left to do: a turn for each span, and one for each byte that
may stream. -/
def owed (em : Emitter) : ℕ :=
  ((em.spans.drop em.spanI).map fun s => s.2.len + 1).sum - em.spanEmitted

/-- Turns that go on get somewhere. -/
theorem Turned.owed_lt (ht : Turned sha256 em c none em' c') (h : em.Placed) :
    em'.owed < em.owed := by
  have hcurrent : ∀ {off s}, em.spans[em.spanI]? = some (off, s) →
      ((em.spans.drop em.spanI).map fun s => s.2.len + 1).sum
        = s.len + 1 + ((em.spans.drop (em.spanI + 1)).map fun s => s.2.len + 1).sum := by
    intro off s hs
    obtain ⟨hlt, hget⟩ := List.getElem?_eq_some_iff.mp hs
    rw [List.drop_eq_getElem_cons hlt, hget, List.map_cons, List.sum_cons]
  have hemitted : ∀ {off s}, em.spans[em.spanI]? = some (off, s) → em.spanEmitted ≤ s.len := by
    intro off s hs
    rcases h.inner with hzero | ⟨off', len, hs', hle⟩
    · omega
    · rw [hs] at hs'
      cases hs'
      exact hle
  -- the current span is done
  have hnext : ∀ {em₁ : Emitter}, (∃ s, em.spans[em.spanI]? = some s) →
      em₁.spans = em.spans → em₁.spanI = em.spanI + 1 → em₁.owed < em.owed := by
    rintro em₁ ⟨⟨off, s⟩, hs⟩ hspans hspanI
    rw [owed, owed, hspans, hspanI, hcurrent hs]
    have := hemitted hs
    omega
  cases ht with
  | passed hspan => exact hnext ⟨_, hspan⟩ rfl rfl
  | emitted hp hem =>
      rename_i bs em₀ next em₁
      obtain ⟨-, v, rfl⟩ := emitAll_ok hem
      have hs := hp.spec h
      have hsame := hs.same
      have hspans₀ : em₀.spans = em.spans := by rw [hsame]
      have hspanI₀ : em₀.spanI = em.spanI := by rw [hsame]
      cases next with
      | true =>
          refine hnext ?_ hspans₀ (congrArg (· + 1) hspanI₀)
          cases hp with
          | lit hspan => exact ⟨_, hspan⟩
          | replay hspan => exact ⟨_, hspan⟩
          | retain hspan => exact ⟨_, hspan⟩
      | false =>
          obtain ⟨heq, hpos, off, len, hspan, hle⟩ := hs.part rfl
          show ((em₀.spans.drop em₀.spanI).map fun s => s.2.len + 1).sum - em₀.spanEmitted < _
          rw [hspans₀, hspanI₀, owed, hcurrent hspan, heq]
          rw [SpanExec.len]
          omega

end Emitter

end Narshare
