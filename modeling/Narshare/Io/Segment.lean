/-
The blocking reads: `read_direct` through an aligned window, and
`read_buffered` where the file system refuses O_DIRECT.

# What a read is owed

`Sound` is what both promise, and `read_segment` from them: bytes returned
are the range's, all of them; a panic is for a length no buffer can have;
and a read is left waiting only by a kernel that has not answered often
enough, which an interrupted call of the buffered loop does not count as.
The loops are followed by what is filled so far: the window's `Filled`,
and for the buffered loop the same of the part of the buffer it is through
with (`readExactAt_sound`).

The calls of one read are a record of what the kernel will answer
(`Calls`): to each open, the address of the buffer, and to the positioned
reads one by one.
-/
import Narshare.Io.Window

namespace Narshare.Io

-- ================================================================= outcomes

/-- `std::io::Error`: an errno, or `UnexpectedEof` with its text. -/
inductive IoError
  | os (errno : ℕ)
  | eof (text : String)
deriving DecidableEq, Repr

/-- What an `anyhow::Error` was made from. -/
inductive Cause
  | io (e : IoError)
  | msg (text : String)
deriving DecidableEq, Repr

/-- `anyhow::Error`: the cause and its context, the outermost first. -/
structure Failure where
  cause : Cause
  context : List String
deriving DecidableEq, Repr

/-- An I/O error `with_context`. -/
def IoError.withContext (text : String) (e : IoError) : Failure := ⟨.io e, [text]⟩

/-- How far a read came with the answers it was given. -/
inductive Outcome (ε : Type)
  | waiting
  | panicked
  | failed (e : ε)
  | returned (b : Bytes)
deriving DecidableEq, Repr

/-- `map_err`. -/
def Outcome.mapErr {ε δ : Type} (f : ε → δ) : Outcome ε → Outcome δ
  | .waiting => .waiting
  | .panicked => .panicked
  | .failed e => .failed (f e)
  | .returned b => .returned b

/-- `o_direct_refused`. -/
def oDirectRefused : IoError → Bool
  | .os errno => errno = einval || errno = enotsup
  | .eof _ => false

/-- The context of a failed read. -/
def readText (path : String) (off len : ℕ) : String := s!"read {len}B @{off} of {path}"

/-- The context of a failed open. -/
def openText (path : String) : String := s!"open {path}"

-- ================================================================ the loops

/-- The loop of `read_direct`. -/
def readDirectLoop (file : File) (off len filled : ℕ) (w : Window) (answers : List Pread) :
    Outcome IoError :=
  if filled < w.need then
    -- the bounds of the slice that is read into
    if w.shift + filled ≤ w.shift + w.alen ∧ w.shift + w.alen ≤ w.buf.length then
      match answers with
      | [] => .waiting
      | p :: answers =>
          match p.result file.bytes (wadd 64 w.astart filled) (w.alen - filled) with
          | .error errno => .failed (.os errno)
          | .ok got =>
              if got = [] then
                .failed (.eof s!"EOF at {wadd 64 w.astart filled} while reading {len}B @{off}")
              else
                readDirectLoop file off len (filled + got.length) (w.write filled got) answers
    else .panicked
  else
    match w.finish off len with
    | some b => .returned b
    | none => .panicked

/-- `read_direct`. -/
def readDirect (file : File) (off len : ℕ) (opened : Except ℕ Unit) (addr : ℕ)
    (answers : List Pread) : Outcome IoError :=
  match opened with
  | .error errno => .failed (.os errno)
  | .ok () =>
      match Window.new addr off len with
      | none => .panicked
      | some w => readDirectLoop file off len 0 w answers

/-- `FileExt::read_exact_at`, with the part of the buffer it is through
with and the part that is left. -/
def readExactAt (file : File) (done buf : Bytes) (offset : ℕ) (answers : List Pread) :
    Outcome IoError :=
  if buf = [] then .returned done
  else
    match answers with
    | [] => .waiting
    | p :: answers =>
        match p.result file.bytes offset buf.length with
        | .error errno =>
            if errno = eintr then readExactAt file done buf offset answers
            else .failed (.os errno)
        | .ok got =>
            if got = [] then .failed (.eof "failed to fill whole buffer")
            else
              readExactAt file (done ++ got) (buf.drop got.length) (wadd 64 offset got.length)
                answers

/-- `read_buffered`. -/
def readBuffered (file : File) (path : String) (off len : ℕ) (opened : Except ℕ Unit)
    (answers : List Pread) : Outcome Failure :=
  match opened with
  | .error errno => .failed ((IoError.os errno).withContext (openText path))
  | .ok () =>
      if isizeMax < len then .panicked
      else
        (readExactAt file [] (List.replicate len 0) off answers).mapErr
          (IoError.withContext (readText path off len))

/-- What the kernel answers to the calls of one read. -/
structure Calls where
  openDirect : Except ℕ Unit
  addr : ℕ
  direct : List Pread
  openBuffered : Except ℕ Unit
  buffered : List Pread

/-- `read_segment`. -/
def readSegment (file : File) (path : String) (off len : ℕ) (c : Calls) : Outcome Failure :=
  match readDirect file off len c.openDirect c.addr c.direct with
  | .failed e =>
      if oDirectRefused e then readBuffered file path off len c.openBuffered c.buffered
      else .failed (e.withContext (readText path off len))
  | .returned b => .returned b
  | .panicked => .panicked
  | .waiting => .waiting

-- ================================================================= soundness

/-- What a read given so many answers may come to. -/
structure Sound {ε : Type} (file : File) (off len answered : ℕ) (o : Outcome ε) : Prop where
  returned : ∀ b, o = .returned b → Exactly file off len b
  panicked : o = .panicked → isizeMax < len + 3 * align
  waiting : o = .waiting → answered < len + align

namespace Sound

variable {ε δ : Type} {file : File} {off len answered : ℕ}

theorem failed (e : ε) : Sound file off len answered (.failed e) := ⟨nofun, nofun, nofun⟩

/-- More answers from the kernel never make a result worse. -/
theorem mono {answered' : ℕ} {o : Outcome ε} (h : Sound file off len answered o)
    (hle : answered' ≤ answered) : Sound file off len answered' o :=
  ⟨h.returned, h.panicked, fun ho => hle.trans_lt (h.waiting ho)⟩

/-- Giving an error its context changes nothing of what a read is owed. -/
theorem mapErr {o : Outcome ε} (h : Sound file off len answered o) (f : ε → δ) :
    Sound file off len answered (o.mapErr f) := by
  cases o with
  | waiting => exact ⟨nofun, nofun, fun _ => h.waiting rfl⟩
  | panicked => exact ⟨nofun, fun _ => h.panicked rfl, nofun⟩
  | failed e => exact failed (f e)
  | returned b =>
      refine ⟨fun b' hb => ?_, nofun, nofun⟩
      cases hb
      exact h.returned b rfl

end Sound

namespace Window

variable {off len filled : ℕ} {w : Window} {got : Bytes}

/-- Bytes put into a window leave it where it was and as long as it was. -/
theorem Fits.write (h : w.Fits off len) (hroom : w.shift + filled + got.length ≤ w.buf.length) :
    (w.write filled got).Fits off len :=
  ⟨h.shift_lt, h.astart_eq, h.need_eq, h.need_le, (length_patch hroom).trans h.length_buf⟩

/-- The same of a window whose length may be too long for a buffer: only then
is it unknown where its parts lie. -/
theorem Of.write (h : w.Of off len) (hroom : w.shift + filled + got.length ≤ w.buf.length) :
    (w.write filled got).Of off len :=
  ⟨h.astart_eq, h.need_le, (length_patch hroom).trans_le h.length_le,
    fun hl => (h.fits hl).write hroom⟩

/-- A window starts at or below its offset, so its start is a file position as
well. -/
theorem Of.astart_lt (h : w.Of off len) (ho : off < 2 ^ 64) : w.astart < 2 ^ 64 := by
  have := h.astart_eq
  omega

/-- A window that gives nothing back is too long: one that fits has its range
within the buffer. -/
theorem Of.finish_eq_none (h : w.Of off len) (ho : off < 2 ^ 64) (hn : w.finish off len = none) :
    isizeMax < len := by
  by_contra hle
  rw [(h.fits (not_lt.mp hle)).finish_eq ho (not_lt.mp hle)] at hn
  cases hn

/-- So is one with no room for what it needs, which is the bounds check in
front of every read of the loop. -/
theorem Of.no_room (h : w.Of off len) (hlt : filled < w.need)
    (hn : ¬ (w.shift + filled ≤ w.shift + w.alen ∧ w.shift + w.alen ≤ w.buf.length)) :
    isizeMax < len := by
  by_contra hle
  obtain ⟨hshift, -, -, hneed, hbuf⟩ := h.fits (not_lt.mp hle)
  exact hn ⟨by omega, by omega⟩

end Window

section Loops

variable {file : File} {off len : ℕ}

/-- A panic is in order for a length that no buffer has. -/
theorem Sound.of_panic {ε : Type} {answered : ℕ} (h : isizeMax < len) :
    Sound file off len answered (.panicked : Outcome ε) :=
  ⟨nofun, fun _ => h.trans_le (Nat.le_add_right _ _), nofun⟩

/-- Bytes are in order that are the range's, all of them. -/
theorem Sound.of_returned {ε : Type} {answered : ℕ} {b : Bytes} (h : Exactly file off len b) :
    Sound file off len answered (.returned b : Outcome ε) :=
  ⟨fun _ hb => Outcome.returned.inj hb ▸ h, nofun, nofun⟩

/-- The direct loop, with `filled` bytes of the window right so far: each
answer adds to them or ends the read, so it waits only while it has had too
few. -/
theorem readDirectLoop_sound (ho : off < 2 ^ 64) (hl : len < 2 ^ 64) (answers : List Pread)
    {filled : ℕ} {w : Window} (hw : w.Of off len) (hf : w.Filled file filled) :
    Sound file off len (filled + answers.length)
      (readDirectLoop file off len filled w answers) := by
  fun_induction readDirectLoop file off len filled w answers with
  -- out of answers, and the window is not full
  | case1 filled w hlt =>
      have := hw.need_le
      have hmod : off % align < align := Nat.mod_lt _ (by decide)
      exact ⟨nofun, nofun, fun _ => by rw [List.length_nil]; omega⟩
  | case2 => exact Sound.failed _
  | case3 => exact Sound.failed _
  | case4 filled w hlt hroom p answers got hgot hne ih =>
      rw [hf.wadd_eq (hw.astart_lt ho)] at hgot
      have hfits : w.shift + filled + (w.alen - filled) ≤ w.buf.length := by omega
      have hcap := (Pread.slice_of_result hgot).2.1
      refine (ih (hw.write (by omega)) (hf.write hgot hfits)).mono ?_
      have := List.length_pos_iff.mpr hne
      rw [List.length_cons]
      omega
  | case5 _ filled w hlt hroom => exact Sound.of_panic (hw.no_room hlt hroom)
  | case6 _ filled w hge b hb =>
      exact Sound.of_returned (hf.finish hw ho hl (not_lt.mp hge) hb)
  | case7 _ filled w hge hn => exact Sound.of_panic (hw.finish_eq_none ho hn)

/-- The direct read is the loop over an empty window, once the file is open
and the buffer is there. -/
theorem readDirect_sound (ho : off < 2 ^ 64) (hl : len < 2 ^ 64) (opened : Except ℕ Unit)
    (addr : ℕ) (answers : List Pread) :
    Sound file off len answers.length (readDirect file off len opened addr answers) := by
  unfold readDirect
  split
  · exact Sound.failed _
  · split
    next hnew => exact ⟨nofun, fun _ => Window.new_eq_none ho hl hnew, nofun⟩
    next w hnew =>
      have := readDirectLoop_sound ho hl answers (Window.new_of ho hnew) (Window.Filled.zero file w)
      rwa [Nat.zero_add] at this

/-- The answers that are no interruption. -/
def settled (answers : List Pread) : ℕ := answers.countP (· ≠ .fails eintr)

/-- The buffered loop, through with `done`: what it has is the beginning of
the range, and an interrupted call is asked again without counting. -/
theorem readExactAt_sound (answers : List Pread) {done buf : Bytes} {offset : ℕ}
    (hdone : done = slice file.bytes off (off + done.length))
    (hend : done = [] ∨ off + done.length ≤ file.bytes.length)
    (hlen : done.length + buf.length = len) (hoff : offset = off + done.length) :
    Sound file off len (done.length + settled answers)
      (readExactAt file done buf offset answers) := by
  fun_induction readExactAt file done buf offset answers with
  | case1 done offset answers =>
      rw [List.length_nil, Nat.add_zero] at hlen
      exact Sound.of_returned ⟨hlen ▸ hdone, hlen⟩
  | case2 done buf offset hbuf =>
      have := List.length_pos_iff.mpr hbuf
      refine ⟨nofun, nofun, fun _ => ?_⟩
      show done.length + 0 < len + align
      omega
  -- EINTR: the same call once more, and the answer does not count
  | case3 done buf offset hbuf p answers hp ih =>
      have hp : p = .fails eintr := by
        cases p with
        | fails errno => rw [Except.error.inj hp]
        | gives most => cases hp
      refine (ih hdone hend hlen hoff).mono (le_of_eq ?_)
      rw [settled, settled, hp, List.countP_cons_of_neg (by simp)]
  | case4 => exact Sound.failed _
  | case5 => exact Sound.failed _
  | case6 done buf offset hbuf p answers got hgot hne ih =>
      obtain ⟨hslice, hcap, hle⟩ := Pread.slice_of_result hgot
      have hpos := List.length_pos_iff.mpr hne
      have hle := hle hne
      have hmax := file.length_le
      have hwadd : wadd 64 offset got.length = offset + got.length := by
        refine wadd_eq ?_
        unfold isizeMax at hmax
        omega
      have hcount : settled (p :: answers) ≤ settled answers + 1 := by
        rw [settled, settled, List.countP_cons]
        split <;> omega
      refine (ih ?_ (Or.inr ?_) ?_ ?_).mono ?_
      · rw [List.length_append, ← Nat.add_assoc,
          ← slice_append_slice _ (Nat.le_add_right off _) (Nat.le_add_right _ got.length),
          ← hdone, ← hoff, ← hslice]
      · rw [List.length_append]
        omega
      · rw [List.length_append, List.length_drop]
        omega
      · rw [hwadd, List.length_append]
        omega
      · rw [List.length_append]
        omega

/-- The buffered read starts its loop with nothing done, and panics for
lengths that no `Vec` can have. -/
theorem readBuffered_sound (path : String) (opened : Except ℕ Unit) (answers : List Pread) :
    Sound file off len (settled answers) (readBuffered file path off len opened answers) := by
  unfold readBuffered
  split
  · exact Sound.failed _
  · split
    next hlt => exact Sound.of_panic hlt
    next =>
      have hnil : ([] : Bytes) = slice file.bytes off (off + 0) := (slice_self _ _).symm
      have hlen : ([] : Bytes).length + (List.replicate len (0 : UInt8)).length = len := by
        rw [List.length_nil, List.length_replicate, Nat.zero_add]
      have hloop := readExactAt_sound answers hnil (Or.inl rfl) hlen rfl
      exact (hloop.mono (Nat.zero_add _).ge).mapErr _

/-- How often the kernel answers, in the loop it is asked less. -/
def Calls.answered (c : Calls) : ℕ := min c.direct.length (settled c.buffered)

/-- Either read keeps the promise, so `read_segment` does: the buffered one is
only turned to where O_DIRECT is refused. -/
theorem readSegment_sound (ho : off < 2 ^ 64) (hl : len < 2 ^ 64) (path : String) (c : Calls) :
    Sound file off len c.answered (readSegment file path off len c) := by
  have hdirect : Sound file off len c.direct.length _ :=
    readDirect_sound ho hl c.openDirect c.addr c.direct
  unfold readSegment
  split
  next e he =>
    split
    · exact (readBuffered_sound path c.openBuffered c.buffered).mono (min_le_right _ _)
    · exact Sound.failed _
  next b hb => exact Sound.of_returned (hdirect.returned b hb)
  next hp => exact ⟨nofun, fun _ => hdirect.panicked hp, nofun⟩
  next hw => exact ⟨nofun, nofun, fun _ => (min_le_left _ _).trans_lt (hdirect.waiting hw)⟩

end Loops

end Narshare.Io
