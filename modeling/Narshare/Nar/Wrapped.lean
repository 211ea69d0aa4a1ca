/-
The layout of a manifest with offsets that go round, as the release build
computes them.

# One walk, twice

`synthLayout` (Manifest.lean) counts in naturals, `synthLayout64` in
words of 64 bits, every sum and difference of which goes round. The two
walks refuse the same manifests up to the comparison of sizes at the end,
and what the second has written is what the first has, with every offset
taken modulo 2^64 (`node64_rounded`). No bound is needed for this: a run
of literals begins before it ends, so the difference of its rounded ends
is its rounded length.

# When it is right

The NAR a manifest describes has a length, `Manifest.narLen`, that can be
read off the manifest; the walk in naturals ends there. If it is below
2^64, rounding changes nothing, and the layout has no gap. Otherwise the
comparison at the end is of the rounded length: a peer that claims this
for the size is not refused, and what is returned are no tiles of
anything (`synth_layout_exact_iff`).
-/
import Narshare.Lib.Wrap
import Narshare.Nar.Manifest

namespace Narshare

variable {ε : Type}

-- ============================================================== the writer

namespace Framing

/-- `raw_lit`. -/
def rawLit64 (b : Framing ε) (bytes : Bytes) : Framing ε :=
  if bytes = [] then b
  else
    { b with
      openLit := some (b.openLit.getD (b.off, b.lits.length))
      lits := b.lits ++ bytes
      off := wadd 64 b.off bytes.length }

/-- `close_lit`. -/
def closeLit64 (b : Framing ε) : Framing ε :=
  match b.openLit with
  | some (narOff, litOff) =>
      { b with
        openLit := none
        segs := b.segs ++ [⟨narOff, wsub 64 b.off narOff, .lit litOff⟩] }
  | none => b

/-- `tok`. -/
def tok64 (b : Framing ε) (s : Bytes) : Framing ε :=
  ((b.rawLit64 (leBytes s.length)).rawLit64 s).rawLit64 (pad s.length)

/-- `segment`. -/
def ext64 (b : Framing ε) (e : ε) (len : ℕ) : Framing ε :=
  let b := b.closeLit64
  { b with segs := b.segs ++ [⟨b.off, len, .ext e⟩], off := wadd 64 b.off len }

end Framing

-- ================================================================ the walk

namespace Synth

/-- `node`, the loop over a file's segments. -/
def segments64 (segmentBytes : ℕ) : Synth → ℕ → List Bytes → Except LayoutError Synth
  | b, _, [] => .ok b
  | b, remaining, seg :: segs =>
      let slen := min remaining segmentBytes
      if slen = 0 then .error .zeroLengthSegment
      else
        match hexDecode seg with
        | none => .error .badHashHex
        | some raw =>
            match NarHash.tryFrom raw with
            | none => .error .badHashLen
            | some hash => segments64 segmentBytes (b.ext64 hash slen) (remaining - slen) segs

mutual

/-- `Synth::node`. -/
def node64 (segmentBytes : ℕ) : Manifest.Node → ℕ → Synth → Except LayoutError Synth
  | .symlink target, depth, b =>
      if depth > MAX_DEPTH then .error .tooDeep
      else
        let b := (b.tok64 (ascii "(")).tok64 (ascii "type")
        let b := ((b.tok64 (ascii "symlink")).tok64 (ascii "target")).tok64 target
        .ok (b.tok64 (ascii ")"))
  | .regular executable len segs, depth, b =>
      if depth > MAX_DEPTH then .error .tooDeep
      else
        let b := ((b.tok64 (ascii "(")).tok64 (ascii "type")).tok64 (ascii "regular")
        let b := if executable then (b.tok64 (ascii "executable")).tok64 [] else b
        let b := b.tok64 (ascii "contents")
        let b := b.rawLit64 (leBytes len)
        -- div_ceil
        let expect := (len + max segmentBytes 1 - 1) / max segmentBytes 1
        if segs.length ≠ expect then .error (.segmentCount len segs.length expect)
        else
          (segments64 segmentBytes b len segs).map fun b =>
            Framing.tok64 (Framing.rawLit64 b (pad len)) (ascii ")")
  | .dir entries, depth, b =>
      if depth > MAX_DEPTH then .error .tooDeep
      else
        let b := ((b.tok64 (ascii "(")).tok64 (ascii "type")).tok64 (ascii "directory")
        (entriesOf64 segmentBytes entries none depth b).map fun b => Framing.tok64 b (ascii ")")

/-- `node`, the loop over a directory's entries; `prev` is the name of
the last. -/
def entriesOf64 (segmentBytes : ℕ) : List (Bytes × Manifest.Node) → Option Bytes → ℕ → Synth →
    Except LayoutError Synth
  | [], _, _, b => .ok b
  | (name, child) :: entries, prev, depth, b =>
      if prev.any fun p => decide (name ≤ p) then .error .notSorted
      else
        let b := (b.tok64 (ascii "entry")).tok64 (ascii "(")
        let b := ((b.tok64 (ascii "name")).tok64 name).tok64 (ascii "node")
        (node64 segmentBytes child (depth + 1) b).bind fun b =>
          entriesOf64 segmentBytes entries (some name) depth (Framing.tok64 b (ascii ")"))

end

end Synth

/-- `synth_layout`. -/
def synthLayout64 (m : Manifest) : Except LayoutError Layout :=
  if m.segmentBytes = 0 then .error .segmentBytesZero
  else
    (Synth.node64 m.segmentBytes m.root 0 (({} : Synth).tok64 (ascii "nix-archive-1"))).bind
      fun b =>
        let b := Framing.closeLit64 b
        if b.off ≠ m.narSize then .error (.size b.off m.narSize)
        else .ok ⟨b.off, b.lits, b.segs⟩

-- ====================================================== the length described

/-- How many bytes a token takes. -/
def tokLen (s : Bytes) : ℕ := (narStr s).length

namespace Manifest

mutual

/-- How many bytes the NAR of a node takes. -/
def Node.narLen : Node → ℕ
  | .symlink target =>
      tokLen (ascii "(") + tokLen (ascii "type") + tokLen (ascii "symlink")
        + tokLen (ascii "target") + tokLen target + tokLen (ascii ")")
  | .regular executable len _ =>
      tokLen (ascii "(") + tokLen (ascii "type") + tokLen (ascii "regular")
        + (if executable then tokLen (ascii "executable") + tokLen [] else 0)
        + tokLen (ascii "contents") + 8 + len + padLen len + tokLen (ascii ")")
  | .dir entries =>
      tokLen (ascii "(") + tokLen (ascii "type") + tokLen (ascii "directory")
        + narLens entries + tokLen (ascii ")")

/-- And those of a directory's entries. -/
def narLens : List (Bytes × Node) → ℕ
  | [] => 0
  | (name, child) :: entries =>
      tokLen (ascii "entry") + tokLen (ascii "(") + tokLen (ascii "name") + tokLen name
        + tokLen (ascii "node") + child.narLen + tokLen (ascii ")") + narLens entries

end

end Manifest

/-- How many bytes the NAR of a manifest takes, whatever it claims. -/
def Manifest.narLen (m : Manifest) : ℕ := tokLen (ascii "nix-archive-1") + m.root.narLen

-- ================================================================= rounding

/-- A segment with its offset, and the length of a run, rounded. -/
def Seg.rounded (s : Seg ε) : Seg ε :=
  match s.src with
  | .lit litOff => ⟨s.narOff % 2 ^ 64, s.len % 2 ^ 64, .lit litOff⟩
  | .ext e => ⟨s.narOff % 2 ^ 64, s.len, .ext e⟩

namespace Framing

/-- The writer with its offsets rounded. -/
def rounded (b : Framing ε) : Framing ε where
  lits := b.lits
  segs := b.segs.map Seg.rounded
  off := b.off % 2 ^ 64
  openLit := b.openLit.map fun p => (p.1 % 2 ^ 64, p.2)

variable {b : Framing ε}

theorem rawLit64_rounded (b : Framing ε) (bytes : Bytes) :
    b.rounded.rawLit64 bytes = (b.rawLit bytes).rounded := by
  rw [rawLit64, rawLit]
  split
  next => rfl
  next =>
    have hoff : wadd 64 (b.off % 2 ^ 64) bytes.length = (b.off + bytes.length) % 2 ^ 64 :=
      Nat.mod_add_mod _ _ _
    have hopen : (b.openLit.map fun p => (p.1 % 2 ^ 64, p.2)).getD
          (b.off % 2 ^ 64, b.lits.length)
        = ((b.openLit.getD (b.off, b.lits.length)).1 % 2 ^ 64,
          (b.openLit.getD (b.off, b.lits.length)).2) := by
      cases b.openLit <;> rfl
    simp only [rounded, hoff, hopen, Option.map_some]

theorem tok64_rounded (b : Framing ε) (s : Bytes) : b.rounded.tok64 s = (b.tok s).rounded := by
  rw [tok64, tok, rawLit64_rounded, rawLit64_rounded, rawLit64_rounded]

/-- The run that is closed begins before it ends. -/
theorem closeLit64_rounded (h : b.Ok) : b.rounded.closeLit64 = b.closeLit.rounded := by
  rw [closeLit64, closeLit]
  cases hopen : b.openLit with
  | none => simp only [rounded, hopen, Option.map_none]
  | some p =>
      obtain ⟨hlt, -⟩ := h.open_ p (by rw [hopen]; rfl)
      have hlen : wsub 64 (b.off % 2 ^ 64) (p.1 % 2 ^ 64) = (b.off - p.1) % 2 ^ 64 := by
        unfold wsub
        omega
      simp only [rounded, hopen, Option.map_some, Option.map_none, List.map_append,
        List.map_cons, List.map_nil, Seg.rounded, hlen]

theorem ext64_rounded (h : b.Ok) (e : ε) (len : ℕ) :
    b.rounded.ext64 e len = (b.ext e len).rounded := by
  have hoff : wadd 64 (b.closeLit.off % 2 ^ 64) len = (b.closeLit.off + len) % 2 ^ 64 :=
    Nat.mod_add_mod _ _ _
  rw [ext64, ext, closeLit64_rounded h]
  simp only [rounded, hoff, List.map_append, List.map_cons, List.map_nil, Seg.rounded]

end Framing

namespace Synth

variable {segmentBytes : ℕ}

theorem segments64_rounded {b : Synth} (h : b.Ok) (remaining : ℕ) (segs : List Bytes) :
    segments64 segmentBytes b.rounded remaining segs
      = (segments segmentBytes b remaining segs).map Framing.rounded := by
  induction segs generalizing b remaining with
  | nil => rfl
  | cons seg segs ih =>
      rw [segments64, segments]
      split
      next => rfl
      next hpos =>
        cases hexDecode seg with
        | none => rfl
        | some raw =>
            simp only
            cases NarHash.tryFrom raw with
            | none => rfl
            | some hash =>
                simp only
                rw [Framing.ext64_rounded h]
                exact ih (h.ext hash (Nat.pos_of_ne_zero hpos)) _

mutual

/-- Both walks write the same, up to rounding. -/
theorem node64_rounded : ∀ (n : Manifest.Node) (depth : ℕ) {b : Synth}, b.Ok →
    node64 segmentBytes n depth b.rounded
      = (node segmentBytes n depth b).map Framing.rounded
  | .symlink target, depth, b, h => by
      rw [node64, node]
      split
      next => rfl
      next =>
        simp only [Framing.tok64_rounded]
        rfl
  | .regular executable len segs, depth, b, h => by
      rw [node64, node]
      split
      next => rfl
      next =>
        have hhead : (if executable = true then
              ((((b.rounded.tok64 (ascii "(")).tok64 (ascii "type")).tok64 (ascii "regular")).tok64
                (ascii "executable")).tok64 []
            else ((b.rounded.tok64 (ascii "(")).tok64 (ascii "type")).tok64 (ascii "regular"))
            = Framing.rounded (if executable = true then
              ((((b.tok (ascii "(")).tok (ascii "type")).tok (ascii "regular")).tok
                (ascii "executable")).tok []
            else ((b.tok (ascii "(")).tok (ascii "type")).tok (ascii "regular")) := by
          cases executable with
          | true => simp only [Framing.tok64_rounded, if_true]
          | false => simp only [Framing.tok64_rounded, Bool.false_eq_true, if_false]
        simp only
        rw [hhead, Framing.tok64_rounded, Framing.rawLit64_rounded,
          segments64_rounded ((@keeps_ok segmentBytes).fileHead h executable len)]
        split
        next => rfl
        next =>
          cases segments segmentBytes _ len segs with
          | error e => rfl
          | ok b₂ =>
              show Except.ok (Framing.tok64 (Framing.rawLit64 b₂.rounded (pad len)) (ascii ")")) = _
              rw [Framing.rawLit64_rounded, Framing.tok64_rounded]
              rfl
  | .dir entries, depth, b, h => by
      rw [node64, node]
      split
      next => rfl
      next =>
        simp only [Framing.tok64_rounded]
        rw [entriesOf64_rounded entries none depth (((h.tok _).tok _).tok _)]
        cases entriesOf segmentBytes entries none depth _ with
        | error e => rfl
        | ok b₂ =>
            show Except.ok (Framing.tok64 b₂.rounded (ascii ")")) = _
            rw [Framing.tok64_rounded]
            rfl

theorem entriesOf64_rounded : ∀ (entries : List (Bytes × Manifest.Node)) (prev : Option Bytes)
    (depth : ℕ) {b : Synth}, b.Ok → entriesOf64 segmentBytes entries prev depth b.rounded
      = (entriesOf segmentBytes entries prev depth b).map Framing.rounded
  | [], prev, depth, b, h => by
      rw [entriesOf64, entriesOf]
      rfl
  | (name, child) :: entries, prev, depth, b, h => by
      rw [entriesOf64, entriesOf]
      split
      next => rfl
      next =>
        have hb := ((((h.tok (ascii "entry")).tok (ascii "(")).tok (ascii "name")).tok name).tok
          (ascii "node")
        simp only [Framing.tok64_rounded]
        rw [node64_rounded child (depth + 1) hb]
        cases hchild : node segmentBytes child (depth + 1) _ with
        | error e => rfl
        | ok b₂ =>
            show entriesOf64 segmentBytes entries (some name) depth
              (Framing.tok64 b₂.rounded (ascii ")")) = _
            rw [Framing.tok64_rounded]
            exact entriesOf64_rounded entries (some name) depth ((ok_node child hchild hb).tok _)

end

end Synth

-- ================================================================ where it ends

namespace Framing

variable (b : Framing ε)

@[simp] theorem off_rawLit (bytes : Bytes) : (b.rawLit bytes).off = b.off + bytes.length := by
  rw [rawLit]
  split
  next hnil => rw [hnil, List.length_nil, Nat.add_zero]
  next => rfl

@[simp] theorem off_tok (s : Bytes) : (b.tok s).off = b.off + tokLen s := by
  rw [tok, off_rawLit, off_rawLit, off_rawLit, tokLen, narStr, List.length_append,
    List.length_append, Nat.add_assoc, Nat.add_assoc, Nat.add_assoc]

@[simp] theorem off_closeLit : b.closeLit.off = b.off := by
  rw [closeLit]
  split <;> rfl

@[simp] theorem off_ext (e : ε) (len : ℕ) : (b.ext e len).off = b.off + len := by
  show b.closeLit.off + len = _
  rw [off_closeLit]

end Framing

namespace Synth

variable {segmentBytes : ℕ}

/-- The segments of a file take what is left of it, as far as they
reach. -/
theorem off_segments {b b' : Synth} {remaining : ℕ} {segs : List Bytes}
    (hs : segments segmentBytes b remaining segs = .ok b') :
    b'.off = b.off + min remaining (segs.length * segmentBytes) := by
  induction segs generalizing b remaining with
  | nil =>
      cases hs
      rw [List.length_nil, Nat.zero_mul, Nat.min_zero, Nat.add_zero]
  | cons seg segs ih =>
      rw [segments] at hs
      split at hs
      next => cases hs
      next =>
        split at hs
        next => cases hs
        next =>
          split at hs
          next => cases hs
          next hash _ =>
            rw [ih hs]
            show (Framing.ext b hash _).off + _ = _
            rw [Framing.off_ext, List.length_cons, Nat.succ_mul]
            omega

/-- A file of this length has been cut into enough of them. -/
theorem le_divCeil_mul (len : ℕ) {segmentBytes : ℕ} (hsb : 0 < segmentBytes) :
    len ≤ (len + max segmentBytes 1 - 1) / max segmentBytes 1 * segmentBytes := by
  rw [Nat.max_eq_left hsb]
  have hlt := Nat.lt_div_mul_add (a := len + segmentBytes - 1) hsb
  omega

mutual

/-- The walk over a node ends behind its NAR. -/
theorem off_node (hsb : 0 < segmentBytes) : ∀ (n : Manifest.Node) {depth : ℕ} {b b' : Synth},
    node segmentBytes n depth b = .ok b' → b'.off = b.off + n.narLen
  | .symlink target, depth, b, b', hn => by
      rw [node] at hn
      split at hn
      next => cases hn
      next =>
        cases hn
        simp only [Framing.off_tok, Manifest.Node.narLen]
        omega
  | .regular executable len segs, depth, b, b', hn => by
      rw [node] at hn
      split at hn
      next => cases hn
      next =>
        simp only at hn
        split at hn
        next => cases hn
        next hcount =>
          rw [not_not] at hcount
          revert hn
          cases hsegs : segments segmentBytes _ len segs with
          | error e => exact nofun
          | ok b₂ =>
              rintro ⟨⟩
              have hoff := off_segments hsegs
              have hall := le_divCeil_mul len hsb
              rw [← hcount] at hall
              rw [Nat.min_eq_left hall] at hoff
              have hpad : (pad len).length = padLen len := List.length_replicate
              simp only [Framing.off_tok, Framing.off_rawLit, hpad, hoff, length_leBytes,
                Manifest.Node.narLen]
              cases executable with
              | true =>
                  simp only [if_true, Framing.off_tok]
                  omega
              | false =>
                  simp only [Bool.false_eq_true, if_false, Framing.off_tok]
                  omega
  | .dir entries, depth, b, b', hn => by
      rw [node] at hn
      split at hn
      next => cases hn
      next =>
        simp only at hn
        revert hn
        cases hents : entriesOf segmentBytes entries none depth _ with
        | error e => exact nofun
        | ok b₂ =>
            rintro ⟨⟩
            simp only [Framing.off_tok, off_entriesOf hsb entries hents, Manifest.Node.narLen]
            omega

theorem off_entriesOf (hsb : 0 < segmentBytes) : ∀ (entries : List (Bytes × Manifest.Node))
    {prev : Option Bytes} {depth : ℕ} {b b' : Synth},
    entriesOf segmentBytes entries prev depth b = .ok b' →
      b'.off = b.off + Manifest.narLens entries
  | [], prev, depth, b, b', hn => by
      rw [entriesOf] at hn
      cases hn
      rfl
  | (name, child) :: entries, prev, depth, b, b', hn => by
      rw [entriesOf] at hn
      split at hn
      next => cases hn
      next =>
        simp only at hn
        revert hn
        cases hchild : node segmentBytes child (depth + 1) _ with
        | error e => exact nofun
        | ok b₂ =>
            intro hn
            have hrest := off_entriesOf hsb entries hn
            simp only [Framing.off_tok, off_node hsb child hchild] at hrest
            rw [hrest, Manifest.narLens]
            omega

end

/-- No piece of content is larger than a segment. -/
def Sized (segmentBytes : ℕ) (b : Synth) : Prop :=
  ∀ s ∈ b.segs, ∀ e, s.src = .ext e → s.len ≤ segmentBytes

theorem Sized.closeLit {b : Synth} (h : Sized segmentBytes b) :
    Sized segmentBytes (Framing.closeLit b) := by
  rw [Framing.closeLit]
  split
  next =>
    intro s hs e he
    rcases List.mem_append.mp hs with hs | hs
    · exact h s hs e he
    · cases List.mem_singleton.mp hs
      cases he
  next => exact h

theorem keeps_sized : Keeps segmentBytes (Sized segmentBytes) where
  rawLit bytes h := by
    rw [Framing.rawLit]
    split
    next => exact h
    next => exact h
  ext hash len _ hle h := by
    intro s hs e he
    rcases List.mem_append.mp hs with hs | hs
    · exact h.closeLit s hs e he
    · cases List.mem_singleton.mp hs
      exact hle

end Synth

-- =================================================================== agreement

namespace Framing

variable {b : Framing ε}

/-- Where the closed segments end is not behind where the writer is. -/
theorem Ok.closedTo_le (h : b.Ok) : b.closedTo ≤ b.off := by
  rw [closedTo]
  cases hopen : b.openLit with
  | none => exact le_rfl
  | some p => exact (h.open_ p (by rw [hopen]; rfl)).1.le

/-- A writer that has not got to 2^64 is as it is. -/
theorem rounded_of_lt (h : b.Ok) (hoff : b.off < 2 ^ 64) : b.rounded = b := by
  have hsegs : b.segs.map Seg.rounded = b.segs := by
    refine (List.map_congr_left fun s hs => ?_).trans (List.map_id _)
    obtain ⟨-, -, hend⟩ := h.tiles.bounds hs
    have hle := h.closedTo_le
    obtain ⟨narOff, len, src⟩ := s
    simp only at hend
    have hoff' : narOff % 2 ^ 64 = narOff := Nat.mod_eq_of_lt (by omega)
    have hlen : len % 2 ^ 64 = len := Nat.mod_eq_of_lt (by omega)
    cases src with
    | lit litOff => simp only [Seg.rounded, hoff', hlen, id]
    | ext e => simp only [Seg.rounded, hoff', id]
  have hopen : (b.openLit.map fun p => (p.1 % 2 ^ 64, p.2)) = b.openLit := by
    cases hopen : b.openLit with
    | none => rfl
    | some p =>
        obtain ⟨hlt, -⟩ := h.open_ p (by rw [hopen]; rfl)
        rw [Option.map_some, Nat.mod_eq_of_lt (hlt.trans hoff)]
  rw [rounded, hsegs, hopen, Nat.mod_eq_of_lt hoff]

end Framing

/-- Both layouts of a manifest that the walk does not refuse. -/
theorem synthLayout_cases {m : Manifest} {layout : Layout} (h : synthLayout64 m = .ok layout) :
    ∃ b : Synth, b.Ok ∧ Synth.Sized m.segmentBytes b ∧ b.off = m.narLen
      ∧ b.off % 2 ^ 64 = m.narSize
      ∧ layout = ⟨b.off % 2 ^ 64, b.lits, b.segs.map Seg.rounded⟩
      ∧ synthLayout m = if b.off ≠ m.narSize then .error (.size b.off m.narSize)
        else .ok ⟨b.off, b.lits, b.segs⟩ := by
  rw [synthLayout64] at h
  split at h
  next => cases h
  next hsb =>
    have hstart : ({} : Synth).tok64 (ascii "nix-archive-1")
        = (({} : Synth).tok (ascii "nix-archive-1")).rounded :=
      Framing.tok64_rounded {} _
    have hok := (Framing.ok_empty : Framing.Ok ({} : Synth)).tok (ascii "nix-archive-1")
    rw [hstart, Synth.node64_rounded m.root 0 hok] at h
    cases hn : Synth.node m.segmentBytes m.root 0 (({} : Synth).tok (ascii "nix-archive-1")) with
    | error e =>
        rw [hn] at h
        cases h
    | ok b =>
        have hb := Synth.ok_node m.root hn hok
        have hsized := Synth.keeps_sized.node m.root hn
          (Synth.keeps_sized.tok (fun s hs => absurd hs List.not_mem_nil) _)
        have hoff := Synth.off_node (Nat.pos_of_ne_zero hsb) m.root hn
        rw [Framing.off_tok] at hoff
        rw [hn] at h
        simp only [Except.map, Except.bind, Framing.closeLit64_rounded hb] at h
        split at h
        next => cases h
        next hsize =>
          cases h
          refine ⟨b.closeLit, hb.closeLit, hsized.closeLit, ?_, not_not.mp hsize, rfl, ?_⟩
          · rw [Framing.off_closeLit, hoff, Manifest.narLen]
            show 0 + _ + _ = _
            omega
          · rw [synthLayout, if_neg hsb, hn]
            rfl

/-- A manifest that is laid out is laid out as in naturals, in tiles of
the size it claims, with its segments of their size and its framing
within its literals, exactly when the NAR it describes is shorter than
2^64 bytes. -/
theorem synth_layout_exact_iff {m : Manifest} {layout : Layout}
    (h : synthLayout64 m = .ok layout) :
    (synthLayout m = .ok layout
      ∧ Tiles Seg.narOff Seg.len 0 layout.narSize layout.spans
      ∧ layout.narSize = m.narSize
      ∧ (∀ s ∈ layout.spans, ∀ e, s.src = .ext e → 1 ≤ s.len ∧ s.len ≤ m.segmentBytes)
      ∧ ∀ s ∈ layout.spans, s.Within layout.lits) ↔ m.narLen < 2 ^ 64 := by
  obtain ⟨b, hok, hsized, hlen, hsize, rfl, hexact⟩ := synthLayout_cases h
  rw [← hlen]
  constructor
  · rintro ⟨hsame, -⟩
    rw [hexact] at hsame
    split at hsame
    next => cases hsame
    next heq =>
      rw [not_not] at heq
      rw [heq, ← hsize]
      exact Nat.mod_lt _ (Nat.two_pow_pos 64)
  · intro hlt
    have hround := Framing.rounded_of_lt hok hlt
    have hsegs : b.segs.map Seg.rounded = b.segs := congrArg Framing.segs hround
    rw [Nat.mod_eq_of_lt hlt] at hsize ⊢
    rw [if_neg (not_not.mpr hsize)] at hexact
    rw [hsegs]
    obtain ⟨htiles, hwithin⟩ := synthLayout_tiles hexact
    exact ⟨hexact, htiles, hsize,
      fun s hs e he => ⟨(htiles.bounds hs).2.1, hsized s hs e he⟩, hwithin⟩

/-- A file of three bytes, in segments that could be as large as they
come. -/
def Manifest.tiny : Manifest where
  narHash := []
  narSize := 120
  segmentBytes := 2 ^ 64 - 1
  root := .regular false 3 [hexEncode (NarHash.ofByte 7).val]

theorem synth_layout_exact_tiny : ∃ layout, synthLayout64 .tiny = .ok layout
    ∧ layout.spans.length = 3 ∧ synthLayout .tiny = .ok layout
    ∧ Tiles Seg.narOff Seg.len 0 layout.narSize layout.spans := by
  have hrun : (synthLayout64 .tiny).toOption.map (fun l => decide (l.spans.length = 3))
      = some true := by decide +kernel
  obtain ⟨layout, hl, hdone⟩ := Option.map_eq_some_iff.mp hrun
  have hok : synthLayout64 .tiny = .ok layout := by
    cases hrun' : synthLayout64 .tiny with
    | error e => rw [hrun'] at hl; cases hl
    | ok l => rw [hrun'] at hl; cases hl; rfl
  obtain ⟨hsame, htiles, -⟩ := (synth_layout_exact_iff hok).mpr (by decide +kernel)
  exact ⟨layout, hok, of_decide_eq_true hdone, hsame, htiles⟩

/-- Two files that together are 2^64 bytes, and the size they come to
without them. -/
def Manifest.round : Manifest where
  narHash := []
  narSize := 464
  segmentBytes := 2 ^ 63
  root := .dir [(ascii "a", .regular false (2 ^ 63) [hexEncode (NarHash.ofByte 7).val]),
    (ascii "b", .regular false (2 ^ 63) [hexEncode (NarHash.ofByte 7).val])]

/-- Their layout is of 464 bytes, and accepted. -/
theorem synth_layout_round : ¬ ∀ (m : Manifest) (layout : Layout),
    synthLayout64 m = .ok layout →
      synthLayout m = .ok layout
        ∧ Tiles Seg.narOff Seg.len 0 layout.narSize layout.spans
        ∧ layout.narSize = m.narSize
        ∧ (∀ s ∈ layout.spans, ∀ e, s.src = .ext e → 1 ≤ s.len ∧ s.len ≤ m.segmentBytes)
        ∧ ∀ s ∈ layout.spans, s.Within layout.lits := by
  intro hall
  have hrun : (synthLayout64 .round).toOption.isSome = true
      ∧ (synthLayout .round).toOption.isNone = true := by decide +kernel
  cases hl : synthLayout64 .round with
  | error e =>
      rw [hl] at hrun
      cases hrun.1
  | ok layout =>
      rw [(hall .round layout hl).1] at hrun
      cases hrun.2

end Narshare
