/-
The NAR framing writer, which nar.rs and manifest.rs each have a copy of.

# The writer

`Framing` is the writer: literal bytes gather in `lits`, and a segment
is pushed for each run of them (`closeLit`) and for each piece of file
content between them (`ext`). The two copies differ only in what they
know of such a piece: the seek table a file to read it from, the
manifest's layout the hash of it. That is the parameter `ε`.

# What it holds

`Framing.Ok` says that the segments so far are tiles from 0 up to where
the open run begins, that the run is the end of `lits`, and that no
literal segment reaches past them. What they amount to is `written`, given a
way to `read` the pieces: each operation appends to it
(`written_rawLit`, `written_ext`) and keeps `Ok`.
-/
import Narshare.Lib.Slice
import Narshare.Text

namespace Narshare

-- ================================================================= tokens

/-- `u64::to_le_bytes`. -/
def leBytes (n : ℕ) : Bytes := (List.range 8).map fun i => UInt8.ofNat (n / 256 ^ i)

/-- A length is framed in eight bytes. -/
theorem length_leBytes (n : ℕ) : (leBytes n).length = 8 := by
  rw [leBytes, List.length_map, List.length_range]

/-- `pad_len`. -/
def padLen (n : ℕ) : ℕ := (8 - n % 8) % 8

/-- `&PAD[..pad_len(n)]`. -/
def pad (n : ℕ) : Bytes := List.replicate (padLen n) 0

-- ================================================================= segments

/-- `Src`, and `SpanKind`: framing bytes, or content from elsewhere. -/
inductive Src (ε : Type)
  | lit (litOff : ℕ)
  | ext (e : ε)
deriving DecidableEq

/-- `Seg`, and `Span`. -/
structure Seg (ε : Type) where
  narOff : ℕ
  len : ℕ
  src : Src ε
deriving DecidableEq

/-- `Builder`, and `Synth`. -/
structure Framing (ε : Type) where
  lits : Bytes := []
  segs : List (Seg ε) := []
  off : ℕ := 0
  openLit : Option (ℕ × ℕ) := none
deriving DecidableEq

variable {ε : Type}

namespace Framing

/-- `raw_lit`. -/
def rawLit (b : Framing ε) (bytes : Bytes) : Framing ε :=
  if bytes = [] then b
  else
    { b with
      openLit := some (b.openLit.getD (b.off, b.lits.length))
      lits := b.lits ++ bytes
      off := b.off + bytes.length }

/-- `close_lit`. -/
def closeLit (b : Framing ε) : Framing ε :=
  match b.openLit with
  | some (narOff, litOff) =>
      { b with
        openLit := none
        segs := b.segs ++ [⟨narOff, b.off - narOff, .lit litOff⟩] }
  | none => b

/-- `tok`: a full framed string token as literal bytes. -/
def tok (b : Framing ε) (s : Bytes) : Framing ε :=
  ((b.rawLit (leBytes s.length)).rawLit s).rawLit (pad s.length)

/-- `file_seg`, and `segment`. -/
def ext (b : Framing ε) (e : ε) (len : ℕ) : Framing ε :=
  let b := b.closeLit
  { b with segs := b.segs ++ [⟨b.off, len, .ext e⟩], off := b.off + len }

end Framing

-- ========================================================= what is written

/-- What a segment stands for. -/
def Seg.bytes (lits : Bytes) (read : ε → ℕ → Bytes) (s : Seg ε) : Bytes :=
  match s.src with
  | .lit litOff => slice lits litOff (litOff + s.len)
  | .ext e => read e s.len

/-- A literal segment lies within the literals. -/
def Seg.Within (lits : Bytes) (s : Seg ε) : Prop :=
  ∀ litOff, s.src = .lit litOff → litOff + s.len ≤ lits.length

/-- The literals only grow, and what stands stays: a segment that lies within
them means the same once more are written. -/
theorem Seg.bytes_append {lits : Bytes} {read : ε → ℕ → Bytes} {s : Seg ε}
    (h : s.Within lits) (more : Bytes) : s.bytes (lits ++ more) read = s.bytes lits read := by
  unfold Seg.bytes
  split
  next litOff hsrc => exact slice_append_left more (h litOff hsrc)
  next => rfl

/-- A segment that lies within the literals lies within them still when they
have grown. -/
theorem Seg.Within.append {lits : Bytes} {s : Seg ε} (h : s.Within lits) (more : Bytes) :
    s.Within (lits ++ more) := by
  intro litOff hsrc
  rw [List.length_append]
  exact (h litOff hsrc).trans (Nat.le_add_right _ _)

namespace Framing

/-- Where the segments pushed so far end. -/
def closedTo (b : Framing ε) : ℕ := b.openLit.elim b.off Prod.fst

/-- The writer's invariant. -/
structure Ok (b : Framing ε) : Prop where
  tiles : Tiles Seg.narOff Seg.len 0 b.closedTo b.segs
  within : ∀ s ∈ b.segs, s.Within b.lits
  open_ : ∀ p ∈ b.openLit, p.1 < b.off ∧ p.2 + (b.off - p.1) = b.lits.length

variable (read : ε → ℕ → Bytes)

/-- Everything written so far. -/
def written (b : Framing ε) : Bytes :=
  b.segs.flatMap (Seg.bytes b.lits read) ++ b.openLit.elim [] fun p => b.lits.drop p.2

variable {read} {b : Framing ε}

/-- After closing no run is open, whether one was or not. -/
theorem openLit_closeLit (b : Framing ε) : b.closeLit.openLit = none := by
  rw [closeLit]
  split
  · rfl
  · assumption

/-- A piece of content closes the open run itself, so that closing it before
makes no difference. -/
theorem ext_closeLit (b : Framing ε) (e : ε) (len : ℕ) : b.closeLit.ext e len = b.ext e len := by
  have hidem : b.closeLit.closeLit = b.closeLit := by
    conv_lhs => rw [closeLit, b.openLit_closeLit]
  rw [Framing.ext, Framing.ext, hidem]

/-- A writer that has written nothing keeps the invariant. -/
theorem ok_empty : Ok ({} : Framing ε) :=
  ⟨rfl, fun _ h => (List.not_mem_nil h).elim, nofun⟩

/-- Literals open a run or make the open one longer; either way it goes on to
end where `lits` does. -/
theorem Ok.rawLit (h : b.Ok) (bytes : Bytes) : (b.rawLit bytes).Ok := by
  rw [Framing.rawLit]
  split
  next => exact h
  next hne =>
    have hpos := List.length_pos_iff.mpr hne
    have htiles := h.tiles
    constructor
    -- where the closed segments end does not move: a run begins at `off`
    · cases hopen : b.openLit with
      | none => rwa [closedTo, hopen] at htiles
      | some p => rwa [closedTo, hopen] at htiles
    · exact fun s hs => (h.within s hs).append bytes
    · intro p hp
      cases hp
      rw [List.length_append]
      cases hopen : b.openLit with
      | none =>
          simp only [Option.getD_none]
          omega
      | some p =>
          have := h.open_ p (by rw [hopen]; rfl)
          simp only [Option.getD_some]
          omega

/-- The closed run is a tile of its own, as long as what has been written
since it was opened. -/
theorem Ok.closeLit (h : b.Ok) : b.closeLit.Ok := by
  rw [Framing.closeLit]
  split
  next narOff litOff hopen =>
    obtain ⟨hlt, hlen⟩ := h.open_ _ hopen
    have htiles := h.tiles
    rw [closedTo, hopen] at htiles
    constructor
    · refine htiles.append ⟨rfl, Nat.sub_pos_of_lt hlt, ?_⟩
      show narOff + (b.off - narOff) = b.off
      exact Nat.add_sub_cancel' hlt.le
    · intro s hs
      rcases List.mem_append.mp hs with hs | hs
      · exact h.within s hs
      · cases List.mem_singleton.mp hs
        intro o ho
        cases ho
        exact hlen.le
    · exact nofun
  next => exact h

/-- A piece of content is the tile after the closed run, and it must not be
empty, as no tile may. -/
theorem Ok.ext (h : b.Ok) (e : ε) {len : ℕ} (hlen : 0 < len) : (b.ext e len).Ok := by
  have hc := h.closeLit
  have hopen := b.openLit_closeLit
  have htiles := hc.tiles
  rw [closedTo, hopen] at htiles
  constructor
  · show Tiles _ _ 0 (b.closeLit.openLit.elim (b.closeLit.off + len) Prod.fst) _
    rw [hopen]
    exact htiles.append ⟨rfl, hlen, rfl⟩
  · intro s hs
    rcases List.mem_append.mp hs with hs | hs
    · exact hc.within s hs
    · cases List.mem_singleton.mp hs
      exact nofun
  · intro p hp
    rw [show (b.ext e len).openLit = none from b.openLit_closeLit] at hp
    cases hp

/-- A token is three literals. -/
theorem Ok.tok (h : b.Ok) (s : Bytes) : (b.tok s).Ok :=
  ((h.rawLit _).rawLit _).rawLit _

/-- Literals are written as they are, at the end of what was written, open run
or not. -/
theorem written_rawLit (h : b.Ok) (bytes : Bytes) :
    (b.rawLit bytes).written read = b.written read ++ bytes := by
  rw [Framing.rawLit]
  split
  next hnil => rw [hnil, List.append_nil]
  next =>
    have hsegs : b.segs.flatMap (Seg.bytes (b.lits ++ bytes) read)
        = b.segs.flatMap (Seg.bytes b.lits read) :=
      List.flatMap_congr fun s hs => Seg.bytes_append (h.within s hs) bytes
    simp only [written, hsegs, Option.elim_some]
    cases hopen : b.openLit with
    | none => simp
    | some p =>
        have hp := h.open_ p (by rw [hopen]; rfl)
        rw [Option.getD_some, Option.elim_some,
          List.drop_append_of_le_length (by omega), List.append_assoc]

/-- Closing a run writes nothing: the segment pushed stands for what the run
was. -/
theorem written_closeLit (h : b.Ok) : b.closeLit.written read = b.written read := by
  rw [Framing.closeLit]
  split
  next narOff litOff hopen =>
    obtain ⟨-, hlen⟩ := h.open_ _ hopen
    simp only [written, hopen, Option.elim_none, Option.elim_some, List.append_nil,
      List.flatMap_append, List.flatMap_cons, List.flatMap_nil]
    congr 1
    rw [Seg.bytes]
    simp only at hlen ⊢
    rw [slice, hlen, List.take_length]
  next => rfl

/-- A piece of content is written as what is read for it. -/
theorem written_ext (h : b.Ok) (e : ε) (len : ℕ) :
    (b.ext e len).written read = b.written read ++ read e len := by
  have hopen := b.openLit_closeLit
  rw [← written_closeLit h]
  simp only [Framing.ext, written, hopen, Option.elim_none, List.append_nil,
    List.flatMap_append, List.flatMap_cons, List.flatMap_nil]
  rfl

end Framing

/-- `str(s)`: its length, its bytes, zero padding to 8. -/
def narStr (s : Bytes) : Bytes := leBytes s.length ++ s ++ pad s.length

/-- The writer has written `d`, its contents read by `read`. -/
structure Framing.Holds (read : ε → ℕ → Bytes) (b : Framing ε) (d : Bytes) : Prop where
  ok : b.Ok
  written : b.written read = d
  exts : ∀ s ∈ b.segs, ∀ e, s.src = .ext e → (read e s.len).length = s.len
  off : b.off = d.length

namespace Framing.Holds

variable {read : ε → ℕ → Bytes} {b : Framing ε} {d : Bytes}

theorem empty : Holds read {} [] := ⟨ok_empty, rfl, fun _ h => (List.not_mem_nil h).elim, rfl⟩

/-- Literals are what they are: they append themselves to what is written, and
no content changes. -/
theorem rawLit (h : b.Holds read d) (bytes : Bytes) :
    (b.rawLit bytes).Holds read (d ++ bytes) where
  ok := h.ok.rawLit bytes
  written := by rw [written_rawLit h.ok, h.written]
  exts := by
    rw [Framing.rawLit]
    split
    · exact h.exts
    · exact h.exts
  off := by
    rw [List.length_append, ← h.off, Framing.rawLit]
    split
    next hnil => rw [hnil, List.length_nil, Nat.add_zero]
    next => rfl

/-- A token appends its framed form. -/
theorem tok (h : b.Holds read d) (s : Bytes) : (b.tok s).Holds read (d ++ narStr s) := by
  rw [narStr, ← List.append_assoc, ← List.append_assoc]
  exact ((h.rawLit _).rawLit _).rawLit _

/-- Closing a run changes how it is kept and not what is written. -/
theorem closeLit (h : b.Holds read d) : b.closeLit.Holds read d where
  ok := h.ok.closeLit
  written := by rw [written_closeLit h.ok, h.written]
  exts := by
    rw [Framing.closeLit]
    split
    · intro s hs e he
      rcases List.mem_append.mp hs with hs | hs
      · exact h.exts s hs e he
      · cases List.mem_singleton.mp hs
        cases he
    · exact h.exts
  off := by
    rw [← h.off, Framing.closeLit]
    split <;> rfl

/-- Content appends what is read for it, provided the read gives as many bytes
as the piece is long. -/
theorem ext (h : b.Holds read d) {e : ε} {len : ℕ} (hpos : 0 < len)
    (hlen : (read e len).length = len) : (b.ext e len).Holds read (d ++ read e len) where
  ok := h.ok.ext e hpos
  written := by rw [written_ext h.ok, h.written]
  exts := by
    intro s hs e' he'
    rcases List.mem_append.mp hs with hs | hs
    · exact h.closeLit.exts s hs e' he'
    · cases List.mem_singleton.mp hs
      cases he'
      exact hlen
  off := by
    rw [List.length_append, ← h.off, hlen]
    show b.closeLit.off + len = b.off + len
    rw [h.closeLit.off, h.off]

/-- A segment holds as many bytes as it says, for a literal since it lies
within the literals and for content by the read. -/
theorem length_bytes (h : b.Holds read d) {s : Seg ε} (hs : s ∈ b.segs) :
    (s.bytes b.lits read).length = s.len := by
  rw [Seg.bytes]
  split
  next litOff hsrc =>
    have := h.ok.within s hs litOff hsrc
    rw [length_slice]
    omega
  next e hsrc => exact h.exts s hs e hsrc

end Framing.Holds

end Narshare
