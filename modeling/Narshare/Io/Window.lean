/-
Aligned reads: a range of a file widened to whole blocks, read in as many
calls as the kernel makes of it, and clipped back.

# The window

`Window.new` allocates one block more than the widened range and shifts
the range to a block boundary inside the allocation; the address it gets
is anyone's guess and an argument here. Its sums are of words and may go
round. For a length that an allocation can have they do not, and `Fits`
is the window as it was meant; for a longer one nothing is known but that
the buffer is too short, and `finish` then stops at its slice bounds. So a
window that gives anything back was a fitting one (`Window.Of.fits_of_finish`),
and no bound on the request is needed for what it gives to be right.

# The calls

The kernel may give any part of what is there, as long as it is some of
it, or an error (`Pread`). `Filled` is what holds between two calls: the
buffer has the file's bytes from the widened start on, as far as the calls
came, and the file goes that far. At the end of the file there is nothing
to give, and the loops fail; they never return what the buffer was
allocated with.

Answers of the kernel are a list. A loop that runs out of them is
`waiting`, and `Sound.waiting` bounds how many it can wait for: every
answer ends the loop or brings a byte, interruptions of the buffered loop
apart.
-/
import Narshare.Lib.Slice
import Narshare.Lib.Wrap
import Narshare.Proto

namespace Narshare.Io

-- =============================================================== the kernel

/-- `ALIGN`. -/
def align : ℕ := 4096

/-- The largest allocation, and the largest place in a file: `isize::MAX`
and the largest `off_t`. -/
def isizeMax : ℕ := 2 ^ 63 - 1

/-- The most one call transfers, `MAX_RW_COUNT`. -/
def maxRwCount : ℕ := 0x7FFFF000

def eintr : ℕ := 4
def einval : ℕ := 22
def enotsup : ℕ := 95

/-- A file's bytes while it is read. -/
structure File where
  bytes : Bytes
  length_le : bytes.length ≤ isizeMax

/-- The kernel's answer to a positioned read: an error, or so many bytes
at the most. -/
inductive Pread
  | fails (errno : ℕ)
  | gives (most : ℕ)
deriving DecidableEq, Repr

/-- What the answer gives at a place of a file, into so much room: some of
what is there, nothing only at the end or into no room. -/
def Pread.result (file : Bytes) (pos cap : ℕ) : Pread → Except ℕ Bytes
  | .fails errno => .error errno
  | .gives most => .ok ((file.drop pos).take (min (max most 1) (min cap maxRwCount)))

/-- What is given is what is there, and there is room for it. -/
theorem Pread.slice_of_result {file got : Bytes} {pos cap : ℕ} {p : Pread}
    (h : p.result file pos cap = .ok got) :
    got = slice file pos (pos + got.length) ∧ got.length ≤ cap
      ∧ (got ≠ [] → pos + got.length ≤ file.length) := by
  cases p with
  | fails errno => cases h
  | gives most =>
      have hgot : got = (file.drop pos).take (min (max most 1) (min cap maxRwCount)) :=
        (Except.ok.inj h).symm
      have hlen := congrArg List.length hgot
      rw [List.length_take, List.length_drop] at hlen
      refine ⟨?_, by omega, fun hne => ?_⟩
      · conv_lhs => rw [hgot, List.take_eq_take_min, List.length_drop, ← hlen]
        rw [slice, List.take_drop]
      · have := List.length_pos_iff.mpr hne
        omega

-- =============================================================== the window

/-- The aligned window of a request, and the buffer it is read into. -/
structure Window where
  buf : Bytes
  shift : ℕ
  astart : ℕ
  alen : ℕ
  need : ℕ
deriving DecidableEq, Repr

/-- `u64::div_ceil`. -/
def divCeil (a b : ℕ) : ℕ := if a % b = 0 then a / b else a / b + 1

/-- `astart`: the block boundary at or before the range. -/
def alignedStart (off : ℕ) : ℕ := off - off % align

/-- `aend`: the one at or after its end. -/
def alignedEnd (off len : ℕ) : ℕ := divCeil (wadd 64 off len) align * align % 2 ^ 64

/-- `alen`. -/
def alignedLen (off len : ℕ) : ℕ := wsub 64 (alignedEnd off len) (alignedStart off)

/-- `Window::new`, with the buffer at an address; none when no buffer can
be as long. -/
def Window.new (addr off len : ℕ) : Option Window :=
  if isizeMax < wadd 64 (alignedLen off len) align then none
  else some
    { buf := List.replicate (wadd 64 (alignedLen off len) align) 0
      shift := (align - addr % align) % align
      astart := alignedStart off
      alen := alignedLen off len
      need := wadd 64 (off - alignedStart off) len }

/-- `Bytes::slice`; none out of bounds. -/
def sliceChecked (b : Bytes) (s e : ℕ) : Option Bytes :=
  if s ≤ e ∧ e ≤ b.length then some (slice b s e) else none

/-- `data_start`. -/
def Window.dataStart (w : Window) (off : ℕ) : ℕ := wadd 64 w.shift (wsub 64 off w.astart)

/-- `Window::finish`; none where the slice is out of bounds. -/
def Window.finish (w : Window) (off len : ℕ) : Option Bytes :=
  sliceChecked w.buf (w.dataStart off) (wadd 64 (w.dataStart off) len)

/-- The kernel's bytes, written after the first `filled`. -/
def Window.write (w : Window) (filled : ℕ) (got : Bytes) : Window :=
  { w with buf := patch w.buf (w.shift + filled) got }

/-- The window as it was meant. -/
structure Window.Fits (off len : ℕ) (w : Window) : Prop where
  shift_lt : w.shift < align
  astart_eq : w.astart = off - off % align
  need_eq : w.need = off % align + len
  need_le : w.need ≤ w.alen
  length_buf : w.buf.length = w.alen + align

/-- A window of a request, as meant if there can be one so long. -/
structure Window.Of (off len : ℕ) (w : Window) : Prop where
  astart_eq : w.astart = off - off % align
  need_le : w.need ≤ off % align + len
  length_le : w.buf.length ≤ isizeMax
  fits : len ≤ isizeMax → w.Fits off len

theorem sub_alignedStart (off : ℕ) : off - alignedStart off = off % align :=
  Nat.sub_sub_self (Nat.mod_le off align)

/-- The widened range is not much longer, whatever goes round. -/
theorem alignedLen_lt {off len : ℕ} (ho : off < 2 ^ 64) (hl : len < 2 ^ 64) :
    alignedLen off len < len + 2 * align := by
  unfold alignedLen alignedEnd alignedStart divCeil wadd wsub align
  split <;> omega

/-- It covers the range. -/
theorem le_alignedLen {off len : ℕ} (ho : off < 2 ^ 64) (hl : len ≤ isizeMax) :
    off % align + len ≤ alignedLen off len := by
  unfold isizeMax at hl
  unfold alignedLen alignedEnd alignedStart divCeil wadd wsub align
  split <;> omega

theorem Window.new_of {addr off len : ℕ} {w : Window} (ho : off < 2 ^ 64)
    (h : Window.new addr off len = some w) : w.Of off len := by
  unfold Window.new at h
  generalize hsize : wadd 64 (alignedLen off len) align = size at h
  split at h
  · cases h
  next hle =>
    rw [← Option.some.inj h]
    refine ⟨rfl, ?_, ?_, fun hl => ?_⟩
    · show wadd 64 (off - alignedStart off) len ≤ off % align + len
      rw [sub_alignedStart]
      exact Nat.mod_le _ _
    · exact List.length_replicate.trans_le (not_lt.mp hle)
    · have hlt : alignedLen off len < len + 2 * align :=
        alignedLen_lt ho (by unfold isizeMax at hl; omega)
      have hneed : wadd 64 (off - alignedStart off) len = off % align + len := by
        rw [sub_alignedStart]
        refine wadd_eq ?_
        unfold align isizeMax at *
        omega
      refine ⟨Nat.mod_lt _ (by decide), rfl, hneed, hneed.trans_le (le_alignedLen ho hl), ?_⟩
      refine List.length_replicate.trans (hsize.symm.trans (wadd_eq ?_))
      unfold align isizeMax at *
      omega

/-- Only a length near the limit has no window. -/
theorem Window.new_eq_none {addr off len : ℕ} (ho : off < 2 ^ 64) (hl : len < 2 ^ 64)
    (h : Window.new addr off len = none) : isizeMax < len + 3 * align := by
  unfold Window.new at h
  split at h
  next hsize =>
    have hlt := alignedLen_lt ho hl
    have hle : wadd 64 (alignedLen off len) align ≤ alignedLen off len + align := Nat.mod_le _ _
    omega
  next => cases h

namespace Window

variable {off len : ℕ} {w : Window}

-- ================================================================ clipping

theorem Fits.finish_eq (hw : w.Fits off len) (ho : off < 2 ^ 64) (hl : len ≤ isizeMax) :
    w.finish off len
      = some (slice w.buf (w.shift + off % align) (w.shift + off % align + len)) := by
  obtain ⟨hshift, hastart, hneed, hle, hbuf⟩ := hw
  have hmod : off % align < align := Nat.mod_lt _ (by decide)
  have hsub : wsub 64 off w.astart = off % align := by
    rw [wsub_eq ho (by omega), hastart]
    exact sub_alignedStart off
  have hstart : w.dataStart off = w.shift + off % align := by
    unfold dataStart
    rw [hsub]
    refine wadd_eq ?_
    unfold align at *
    omega
  have hend : wadd 64 (w.shift + off % align) len = w.shift + off % align + len := by
    refine wadd_eq ?_
    unfold align isizeMax at *
    omega
  unfold finish sliceChecked
  rw [hstart, hend, if_pos ⟨Nat.le_add_right _ _, by omega⟩]

/-- What gives anything back is as it was meant. -/
theorem Of.fits_of_finish (hw : w.Of off len) (hl : len < 2 ^ 64) {b : Bytes}
    (h : w.finish off len = some b) : len ≤ isizeMax := by
  unfold finish sliceChecked at h
  split at h
  next hbounds =>
    have hslt : w.dataStart off < 2 ^ 64 := Nat.mod_lt _ (by decide)
    rcases Nat.lt_or_ge (w.dataStart off + len) (2 ^ 64) with hlt | hge
    · rw [wadd_eq hlt] at hbounds
      have := hw.length_le
      omega
    · have := wadd_lt hslt hl hge
      omega
  next => cases h

-- ================================================================= filling

/-- The buffer has the file's bytes as far as `filled`. -/
structure Filled (file : File) (w : Window) (filled : ℕ) : Prop where
  le : filled = 0 ∨ w.astart + filled ≤ file.bytes.length
  eq : slice w.buf w.shift (w.shift + filled)
    = slice file.bytes w.astart (w.astart + filled)

variable {file : File} {filled : ℕ}

theorem Filled.zero (file : File) (w : Window) : Filled file w 0 :=
  ⟨Or.inl rfl, by rw [Nat.add_zero, Nat.add_zero, slice_self, slice_self]⟩

/-- Where the next call reads does not go round. -/
theorem Filled.wadd_eq (h : Filled file w filled) (hlt : w.astart < 2 ^ 64) :
    wadd 64 w.astart filled = w.astart + filled := by
  refine Narshare.wadd_eq ?_
  rcases h.le with rfl | hle
  · exact hlt
  · have := file.length_le
    unfold isizeMax at this
    omega

/-- A call's bytes are as many more. -/
theorem Filled.write (h : Filled file w filled) {p : Pread} {cap : ℕ} {got : Bytes}
    (hp : p.result file.bytes (w.astart + filled) cap = .ok got)
    (hroom : w.shift + filled + cap ≤ w.buf.length) :
    Filled file (w.write filled got) (filled + got.length) := by
  obtain ⟨hgot, hcap, hend⟩ := Pread.slice_of_result hp
  have hfit : w.shift + filled + got.length ≤ w.buf.length := by omega
  refine ⟨?_, ?_⟩
  · by_cases hnil : got = []
    · rw [hnil]
      exact h.le
    · have := hend hnil
      exact Or.inr (by rw [← Nat.add_assoc]; exact this)
  · show slice (patch w.buf (w.shift + filled) got) w.shift (w.shift + (filled + got.length))
      = slice file.bytes w.astart (w.astart + (filled + got.length))
    rw [← Nat.add_assoc, ← Nat.add_assoc,
      ← slice_append_slice _ (Nat.le_add_right w.shift filled) (Nat.le_add_right _ got.length),
      slice_patch_of_le hfit le_rfl, slice_patch hfit, h.eq,
      ← slice_append_slice file.bytes (Nat.le_add_right w.astart filled)
        (Nat.le_add_right _ got.length), ← hgot]

end Window

/-- The bytes are those of the range, all of them. -/
def Exactly (file : File) (off len : ℕ) (b : Bytes) : Prop :=
  b = slice file.bytes off (off + len) ∧ b.length = len

/-- A window filled as far as it must be gives back the range. -/
theorem Window.Filled.finish {file : File} {w : Window} {filled off len : ℕ}
    (h : Filled file w filled) (hw : w.Of off len) (ho : off < 2 ^ 64) (hl : len < 2 ^ 64)
    (hneed : w.need ≤ filled) {b : Bytes} (hb : w.finish off len = some b) :
    Exactly file off len b := by
  have hlen := hw.fits_of_finish hl hb
  have hfit := hw.fits hlen
  rw [hfit.finish_eq ho hlen] at hb
  cases hb
  have hmod := Nat.mod_le off align
  have hfill : off % align + len ≤ filled := hfit.need_eq ▸ hneed
  -- both ranges lie in what was filled
  have hslice : slice w.buf (w.shift + off % align) (w.shift + off % align + len)
      = slice file.bytes off (off + len) := by
    have hcut := congrArg (fun l => slice l (off % align) (off % align + len)) h.eq
    simp only [slice_slice] at hcut
    rw [← Nat.add_assoc, Nat.min_eq_left (by omega), ← Nat.add_assoc,
      Nat.min_eq_left (by omega)] at hcut
    have hback : w.astart + off % align = off := by
      have := hw.astart_eq
      omega
    rwa [hback] at hcut
  refine ⟨hslice, ?_⟩
  rw [length_slice, hfit.length_buf, Nat.min_eq_left]
  · omega
  · have := hfit.need_le
    have := hfit.need_eq
    have := hfit.shift_lt
    omega

end Narshare.Io
