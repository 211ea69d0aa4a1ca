/-
The manifest of manifest.rs: built from a file tree, and laid out again
without one.

# Two walks

`buildTree` reads a file tree into a manifest, every file cut into
segments of a fixed size and each of them hashed. `synthLayout` takes
any manifest, a peer's included, and lays out the NAR it describes, with
the framing writer of Framing.lean. Both return what they refuse as
errors; a `segment_bytes` of 0 makes `build_tree` read nothing for
ever, which is an error here.

# They agree

`synth_build` is the simulation between the two walks: laying out what
was built from a node does to the layout's writer what the seek table's
walk of that node does to its own, except that each file segment appears
as the segments it was cut into (`cutSeg`). The same literal bytes are
then at the same places of the same buffer.

# What a walk keeps

Every layout comes of the writer's few steps, so what each of them keeps
a whole layout has: `Keeps` is that induction. Wrapped.lean uses it again
for the writer whose sums have 64 bits.
-/
import Narshare.Lib.Chunks
import Narshare.Nar.Build

namespace Narshare

-- ============================================================ the manifest

namespace Manifest

/-- `Node` of manifest.rs. -/
inductive Node
  | dir (entries : List (Bytes × Node))
  | symlink (target : Bytes)
  | regular (executable : Bool) (len : ℕ) (segments : List Bytes)

end Manifest

/-- `Manifest`. -/
structure Manifest where
  narHash : Bytes
  narSize : ℕ
  segmentBytes : ℕ
  root : Manifest.Node

/-- What `build_tree` refuses. -/
inductive BuildTreeError
  | nonUtf8Target
  | nonUtf8Name
  | stuck
deriving DecidableEq

variable (cd : Codec)

/-- `blake3::hash`. -/
def segmentHash (b : Bytes) : NarHash := ⟨List.ofFn (cd.blake3 b), List.length_ofFn⟩

/-- `build_tree`, the loop over one file: what is left of it, and how
many turns are. -/
def hashSegments (segmentBytes : ℕ) : ℕ → Bytes → Except BuildTreeError (List Bytes)
  | _, [] => .ok []
  | 0, _ :: _ => .error .stuck
  | turns + 1, b :: bs =>
      let n := min (b :: bs).length segmentBytes
      (hashSegments segmentBytes turns ((b :: bs).drop n)).map fun segments =>
        hexEncode (segmentHash cd ((b :: bs).take n)).val :: segments

/-- `build_tree`, one entry of a directory: its name, then its node. -/
def buildEntry (e : Bytes × Except BuildTreeError Manifest.Node) :
    Except BuildTreeError (Bytes × Manifest.Node) :=
  if isUtf8 e.1 then e.2.map fun node => (e.1, node) else .error .nonUtf8Name

mutual

/-- `build_tree`. -/
def buildTree (segmentBytes : ℕ) : FileTree → Except BuildTreeError Manifest.Node
  | .symlink target =>
      if isUtf8 target then .ok (.symlink target) else .error .nonUtf8Target
  | .regular executable contents =>
      (hashSegments cd segmentBytes contents.length contents).map fun segments =>
        .regular executable contents.length segments
  | .directory entries =>
      ((sortByName (buildTrees segmentBytes entries)).mapM buildEntry).map Manifest.Node.dir

/-- The trees of a directory's entries. -/
def buildTrees (segmentBytes : ℕ) :
    List (Bytes × FileTree) → List (Bytes × Except BuildTreeError Manifest.Node)
  | [] => []
  | (name, t) :: entries => (name, buildTree segmentBytes t) :: buildTrees segmentBytes entries

end

-- ============================================================== the layout

/-- `Synth`, whose pieces of content are known by their hash. -/
abbrev Synth := Framing NarHash

/-- What `synth_layout` refuses. -/
inductive LayoutError
  | segmentBytesZero
  | tooDeep
  | segmentCount (len found expect : ℕ)
  | zeroLengthSegment
  | badHashHex
  | badHashLen
  | notSorted
  | size (layout claimed : ℕ)
deriving DecidableEq

/-- `MAX_DEPTH`. -/
def MAX_DEPTH : ℕ := 512

namespace Synth

/-- `segment`. -/
def segment (b : Synth) (hash : NarHash) (len : ℕ) : Synth := b.ext hash len

/-- `node`, the loop over a file's segments. -/
def segments (segmentBytes : ℕ) : Synth → ℕ → List Bytes → Except LayoutError Synth
  | b, _, [] => .ok b
  | b, remaining, seg :: segs =>
      let slen := min remaining segmentBytes
      if slen = 0 then .error .zeroLengthSegment
      else
        match hexDecode seg with
        | none => .error .badHashHex
        | some raw =>
            match NarHash.tryFrom raw with
            | none => .error .badHashLen
            | some hash => segments segmentBytes (b.segment hash slen) (remaining - slen) segs

mutual

/-- `Synth::node`. -/
def node (segmentBytes : ℕ) : Manifest.Node → ℕ → Synth → Except LayoutError Synth
  | .symlink target, depth, b =>
      if depth > MAX_DEPTH then .error .tooDeep
      else
        let b := (b.tok (ascii "(")).tok (ascii "type")
        let b := ((b.tok (ascii "symlink")).tok (ascii "target")).tok target
        .ok (b.tok (ascii ")"))
  | .regular executable len segs, depth, b =>
      if depth > MAX_DEPTH then .error .tooDeep
      else
        let b := ((b.tok (ascii "(")).tok (ascii "type")).tok (ascii "regular")
        let b := if executable then (b.tok (ascii "executable")).tok [] else b
        let b := b.tok (ascii "contents")
        let b := b.rawLit (leBytes len)
        -- div_ceil
        let expect := (len + max segmentBytes 1 - 1) / max segmentBytes 1
        if segs.length ≠ expect then .error (.segmentCount len segs.length expect)
        else
          (segments segmentBytes b len segs).map fun b =>
            Framing.tok (Framing.rawLit b (pad len)) (ascii ")")
  | .dir entries, depth, b =>
      if depth > MAX_DEPTH then .error .tooDeep
      else
        let b := ((b.tok (ascii "(")).tok (ascii "type")).tok (ascii "directory")
        (entriesOf segmentBytes entries none depth b).map fun b => Framing.tok b (ascii ")")

/-- `node`, the loop over a directory's entries; `prev` is the name of
the last. -/
def entriesOf (segmentBytes : ℕ) : List (Bytes × Manifest.Node) → Option Bytes → ℕ → Synth →
    Except LayoutError Synth
  | [], _, _, b => .ok b
  | (name, child) :: entries, prev, depth, b =>
      if prev.any fun p => decide (name ≤ p) then .error .notSorted
      else
        let b := (b.tok (ascii "entry")).tok (ascii "(")
        let b := ((b.tok (ascii "name")).tok name).tok (ascii "node")
        (node segmentBytes child (depth + 1) b).bind fun b =>
          entriesOf segmentBytes entries (some name) depth (Framing.tok b (ascii ")"))

end

end Synth

/-- `Layout`. -/
structure Layout where
  narSize : ℕ
  lits : Bytes
  spans : List (Seg NarHash)
deriving DecidableEq

/-- `synth_layout`. -/
def synthLayout (m : Manifest) : Except LayoutError Layout :=
  if m.segmentBytes = 0 then .error .segmentBytesZero
  else
    (Synth.node m.segmentBytes m.root 0 (({} : Synth).tok (ascii "nix-archive-1"))).bind
      fun b =>
        let b := Framing.closeLit b
        if b.off ≠ m.narSize then .error (.size b.off m.narSize)
        else .ok ⟨b.off, b.lits, b.segs⟩

-- ================================================== any layout is in order

namespace Synth

variable {segmentBytes : ℕ}

variable (segmentBytes) in
/-- What each operation of the writer keeps, its pieces of content being
of a size. -/
structure Keeps (P : Synth → Prop) : Prop where
  rawLit : ∀ {b : Synth} (bytes : Bytes), P b → P (Framing.rawLit b bytes)
  ext : ∀ {b : Synth} (hash : NarHash) {len : ℕ}, 0 < len → len ≤ segmentBytes →
    P b → P (Framing.ext b hash len)

namespace Keeps

variable {P : Synth → Prop}

theorem tok (hP : Keeps segmentBytes P) {b : Synth} (h : P b) (s : Bytes) :
    P (Framing.tok b s) :=
  hP.rawLit _ (hP.rawLit _ (hP.rawLit _ h))

/-- The writer in front of a file's segments. -/
theorem fileHead (hP : Keeps segmentBytes P) {b : Synth} (h : P b) (executable : Bool) (len : ℕ) :
    P (Framing.rawLit (Framing.tok (if executable = true then
        Framing.tok (Framing.tok (Framing.tok (Framing.tok (Framing.tok b (ascii "("))
          (ascii "type")) (ascii "regular")) (ascii "executable")) []
      else Framing.tok (Framing.tok (Framing.tok b (ascii "(")) (ascii "type"))
        (ascii "regular")) (ascii "contents")) (leBytes len)) := by
  have hopen := hP.tok (hP.tok (hP.tok h (ascii "(")) (ascii "type")) (ascii "regular")
  cases executable with
  | true => exact hP.rawLit _ (hP.tok (hP.tok (hP.tok hopen _) _) _)
  | false => exact hP.rawLit _ (hP.tok hopen _)

theorem segments (hP : Keeps segmentBytes P) {b b' : Synth} {remaining : ℕ} {segs : List Bytes}
    (hs : Synth.segments segmentBytes b remaining segs = .ok b') (h : P b) : P b' := by
  induction segs generalizing b remaining with
  | nil =>
      cases hs
      exact h
  | cons seg segs ih =>
      rw [Synth.segments] at hs
      split at hs
      next => cases hs
      next hpos =>
        split at hs
        next => cases hs
        next raw _ =>
          split at hs
          next => cases hs
          next hash _ =>
            exact ih hs (hP.ext hash (Nat.pos_of_ne_zero hpos) (Nat.min_le_right _ _) h)

mutual

/-- The walk keeps it too, whatever a peer's manifest says. -/
theorem node (hP : Keeps segmentBytes P) : ∀ (n : Manifest.Node) {depth : ℕ} {b b' : Synth},
    Synth.node segmentBytes n depth b = .ok b' → P b → P b'
  | .symlink target, depth, b, b', hn, h => by
      rw [Synth.node] at hn
      split at hn
      next => cases hn
      next =>
        cases hn
        exact hP.tok (hP.tok (hP.tok (hP.tok (hP.tok (hP.tok h _) _) _) _) _) _
  | .regular executable len segs, depth, b, b', hn, h => by
      rw [Synth.node] at hn
      split at hn
      next => cases hn
      next =>
        simp only at hn
        split at hn
        next => cases hn
        next =>
          revert hn
          cases hsegs : Synth.segments segmentBytes _ len segs with
          | error e => exact nofun
          | ok b₂ =>
              rintro ⟨⟩
              have hb₂ := hP.segments hsegs (hP.fileHead h executable len)
              exact hP.tok (hP.rawLit _ hb₂) _
  | .dir entries, depth, b, b', hn, h => by
      rw [Synth.node] at hn
      split at hn
      next => cases hn
      next =>
        simp only at hn
        revert hn
        cases hents : Synth.entriesOf segmentBytes entries none depth _ with
        | error e => exact nofun
        | ok b₂ =>
            rintro ⟨⟩
            exact hP.tok (hP.entriesOf entries hents (hP.tok (hP.tok (hP.tok h _) _) _)) _

theorem entriesOf (hP : Keeps segmentBytes P) : ∀ (entries : List (Bytes × Manifest.Node))
    {prev : Option Bytes} {depth : ℕ} {b b' : Synth},
    Synth.entriesOf segmentBytes entries prev depth b = .ok b' → P b → P b'
  | [], prev, depth, b, b', hn, h => by
      rw [Synth.entriesOf] at hn
      cases hn
      exact h
  | (name, child) :: entries, prev, depth, b, b', hn, h => by
      rw [Synth.entriesOf] at hn
      split at hn
      next => cases hn
      next =>
        simp only at hn
        revert hn
        cases hchild : Synth.node segmentBytes child (depth + 1) _ with
        | error e => exact nofun
        | ok b₂ =>
            intro hn
            have hb₂ := hP.node child hchild
              (hP.tok (hP.tok (hP.tok (hP.tok (hP.tok h _) _) _) _) _)
            exact hP.entriesOf entries hn (hP.tok hb₂ _)

end

end Keeps

/-- The layout of any manifest has no gap. -/
theorem keeps_ok : Keeps segmentBytes Framing.Ok where
  rawLit bytes h := h.rawLit bytes
  ext hash _ hpos _ h := h.ext hash hpos

theorem ok_node (n : Manifest.Node) {depth : ℕ} {b b' : Synth}
    (hn : node segmentBytes n depth b = .ok b') (h : b.Ok) : b'.Ok := keeps_ok.node n hn h

end Synth

/-- A layout is tiles of the size it claims, its framing within its
literals. -/
theorem synthLayout_tiles {m : Manifest} {layout : Layout} (h : synthLayout m = .ok layout) :
    Tiles Seg.narOff Seg.len 0 layout.narSize layout.spans
      ∧ ∀ s ∈ layout.spans, s.Within layout.lits := by
  rw [synthLayout] at h
  split at h
  next => cases h
  next =>
    revert h
    cases hn : Synth.node m.segmentBytes m.root 0 _ with
    | error e => exact nofun
    | ok b =>
        intro h
        have hok := (Synth.ok_node m.root hn (Framing.ok_empty.tok _)).closeLit
        have htiles := hok.tiles
        rw [Framing.closedTo, b.openLit_closeLit] at htiles
        simp only [Except.bind] at h
        split at h
        next => cases h
        next =>
          cases h
          exact ⟨htiles, hok.within⟩

-- ======================================================== the trees in question

namespace FileTree

mutual

/-- How deep a tree nests below its root. -/
def depth : FileTree → ℕ
  | .symlink _ => 0
  | .regular _ _ => 0
  | .directory entries => depths entries

/-- And its entries below it. -/
def depths : List (Bytes × FileTree) → ℕ
  | [] => 0
  | (_, t) :: entries => max (t.depth + 1) (depths entries)

end

theorem depth_entry {entries : List (Bytes × FileTree)} {e : Bytes × FileTree}
    (he : e ∈ entries) : e.2.depth + 1 ≤ (FileTree.directory entries).depth := by
  rw [depth]
  induction entries with
  | nil => cases he
  | cons x entries ih =>
      rw [depths]
      rcases List.mem_cons.mp he with rfl | he
      · exact le_max_left _ _
      · exact (ih he).trans (le_max_right _ _)

/-- A directory is as deep as the deepest of its entries, and one more. -/
theorem depth_directory_le {entries : List (Bytes × FileTree)} {n : ℕ}
    (h : ∀ e ∈ entries, e.2.depth + 1 ≤ n) : (FileTree.directory entries).depth ≤ n := by
  rw [depth]
  induction entries with
  | nil => exact Nat.zero_le n
  | cons x entries ih =>
      rw [depths]
      exact max_le (h x List.mem_cons_self) (ih fun e he => h e (List.mem_cons_of_mem _ he))

/-- Every name and every link's target is valid UTF-8. -/
inductive Utf8 : FileTree → Prop
  | symlink (target : Bytes) : isUtf8 target → Utf8 (.symlink target)
  | regular (executable : Bool) (contents : Bytes) : Utf8 (.regular executable contents)
  | directory (entries : List (Bytes × FileTree)) : (∀ e ∈ entries, isUtf8 e.1) →
      (∀ e ∈ entries, Utf8 e.2) → Utf8 (.directory entries)

end FileTree

-- ============================================================ cutting a file

/-- Pieces of content laid end to end, each known by its hash. -/
def cutPieces (off : ℕ) : List Bytes → List (Seg NarHash)
  | [] => []
  | piece :: pieces =>
      ⟨off, piece.length, .ext (segmentHash cd piece)⟩
        :: cutPieces (off + piece.length) pieces

/-- What the layout has for a segment of the seek table: framing as it
is, a file's range in pieces of `segmentBytes`. -/
def cutSeg (root : FileTree) (segmentBytes : ℕ) (s : Seg FileRef) : List (Seg NarHash) :=
  match s.src with
  | .lit litOff => [⟨s.narOff, s.len, .lit litOff⟩]
  | .ext f => cutPieces cd s.narOff (chunks segmentBytes (root.read f s.len))

variable {cd}

/-- The segments of a file are its pieces. -/
theorem hashSegments_eq {segmentBytes : ℕ} (hsb : 0 < segmentBytes) (contents : Bytes) :
    ∀ turns, contents.length ≤ turns → hashSegments cd segmentBytes turns contents
      = .ok ((chunks segmentBytes contents).map fun piece =>
          hexEncode (segmentHash cd piece).val) := by
  induction contents using chunks_induction hsb with
  | nil =>
      intro turns _
      cases turns <;> rfl
  | cut contents hne ih =>
      intro turns hturns
      cases contents with
      | nil => exact absurd rfl hne
      | cons b bs =>
          cases turns with
          | zero => cases hturns
          | succ turns =>
              have htake : (b :: bs).take (min (b :: bs).length segmentBytes)
                  = (b :: bs).take segmentBytes := by
                rw [Nat.min_comm, ← List.take_take, List.take_length]
              have hdrop : (b :: bs).drop (min (b :: bs).length segmentBytes)
                  = (b :: bs).drop segmentBytes := by
                rcases le_total (b :: bs).length segmentBytes with h | h
                · rw [Nat.min_eq_left h, List.drop_length, List.drop_eq_nil_of_le h]
                · rw [Nat.min_eq_right h]
              have hleft : ((b :: bs).drop segmentBytes).length ≤ turns := by
                rw [List.length_drop]
                omega
              rw [hashSegments, chunks_of_ne_nil hsb hne, htake, hdrop, ih turns hleft]
              rfl

namespace Synth

/-- A file's segments, its writer between segments. -/
theorem segments_chunks {segmentBytes : ℕ} (hsb : 0 < segmentBytes) (contents : Bytes) :
    ∀ b : Synth, b.openLit = none →
      segments segmentBytes b contents.length
          ((chunks segmentBytes contents).map fun piece => hexEncode (segmentHash cd piece).val)
        = .ok { b with
            segs := b.segs ++ cutPieces cd b.off (chunks segmentBytes contents)
            off := b.off + contents.length } := by
  induction contents using chunks_induction hsb with
  | nil =>
      intro b _
      rw [chunks_nil, cutPieces, List.append_nil]
      rfl
  | cut contents hne ih =>
      intro b hopen
      have hpos := List.length_pos_iff.mpr hne
      have htake : (contents.take segmentBytes).length = min contents.length segmentBytes := by
        rw [List.length_take, Nat.min_comm]
      have hdrop : contents.length - min contents.length segmentBytes
          = (contents.drop segmentBytes).length := by
        rw [List.length_drop]
        omega
      have hclose : b.closeLit = b := by
        rw [Framing.closeLit, hopen]
      rw [chunks_of_ne_nil hsb hne, List.map_cons, segments, if_neg (by omega),
        hexDecode_hexEncode]
      simp only [NarHash.tryFrom_val]
      rw [hdrop, segment, Framing.ext]
      simp only [hclose]
      rw [ih]
      · rw [cutPieces, htake]
        congr 2
        · exact List.append_assoc _ _ _
        · rw [← hdrop]
          show b.off + min contents.length segmentBytes + _ = _
          omega
      · exact hopen

end Synth

-- ============================================================ the simulation

/-- A layout's writer, and the seek table's at the same place: the same
framing in the same buffer, and every file range cut into pieces. -/
structure Synth.Mirrors (cd : Codec) (root : FileTree) (segmentBytes : ℕ) (b : Synth)
    (b' : Builder) : Prop where
  lits : b.lits = b'.lits
  off : b.off = b'.off
  openLit : b.openLit = b'.openLit
  segs : b.segs = b'.segs.flatMap (cutSeg cd root segmentBytes)

namespace Synth.Mirrors

variable {root : FileTree} {segmentBytes : ℕ} {b : Synth} {b' : Builder}

theorem empty : Mirrors cd root segmentBytes {} {} := ⟨rfl, rfl, rfl, rfl⟩

theorem rawLit (h : Mirrors cd root segmentBytes b b') (bytes : Bytes) :
    Mirrors cd root segmentBytes (Framing.rawLit b bytes) (Framing.rawLit b' bytes) := by
  rw [Framing.rawLit, Framing.rawLit]
  split
  next => exact h
  next =>
    constructor
    · show b.lits ++ bytes = b'.lits ++ bytes
      rw [h.lits]
    · show b.off + bytes.length = b'.off + bytes.length
      rw [h.off]
    · show some _ = some _
      rw [h.openLit, h.off, h.lits]
    · exact h.segs

theorem tok (h : Mirrors cd root segmentBytes b b') (s : Bytes) :
    Mirrors cd root segmentBytes (Framing.tok b s) (Framing.tok b' s) :=
  ((h.rawLit _).rawLit _).rawLit _

theorem closeLit (h : Mirrors cd root segmentBytes b b') :
    Mirrors cd root segmentBytes (Framing.closeLit b) (Framing.closeLit b') := by
  rw [Framing.closeLit, Framing.closeLit, h.openLit]
  split
  next narOff litOff _ =>
    refine ⟨h.lits, h.off, rfl, ?_⟩
    show b.segs ++ _ = (b'.segs ++ _).flatMap _
    rw [List.flatMap_append, List.flatMap_singleton, h.segs, h.off]
    rfl
  next => exact h

/-- The segments of a file take the place of the range the table has. -/
theorem ext (h : Mirrors cd root segmentBytes b b') (hsb : 0 < segmentBytes) {f : FileRef}
    {contents : Bytes} (hne : contents ≠ []) (hread : root.read f contents.length = contents) :
    ∃ b₂, segments segmentBytes b contents.length
        ((chunks segmentBytes contents).map fun piece => hexEncode (segmentHash cd piece).val)
          = .ok b₂
      ∧ Mirrors cd root segmentBytes b₂ (Framing.ext b' f contents.length) := by
  have hc := h.closeLit
  -- the first segment closes the open run, as the table's range does
  have hfirst : segments segmentBytes b contents.length
        ((chunks segmentBytes contents).map fun piece => hexEncode (segmentHash cd piece).val)
      = segments segmentBytes (Framing.closeLit b) contents.length
        ((chunks segmentBytes contents).map fun piece =>
          hexEncode (segmentHash cd piece).val) := by
    rw [chunks_of_ne_nil hsb hne, List.map_cons, segments, segments]
    simp only [segment, Framing.ext_closeLit]
  refine ⟨_, hfirst.trans (segments_chunks hsb contents _ (Framing.openLit_closeLit b)), ?_⟩
  refine ⟨hc.lits, ?_, hc.openLit, ?_⟩
  · show (Framing.closeLit b).off + contents.length = (Framing.closeLit b').off + _
    rw [hc.off]
  · show (Framing.closeLit b).segs ++ _ = ((Framing.closeLit b').segs ++ _).flatMap _
    rw [List.flatMap_append, List.flatMap_singleton, hc.segs, hc.off]
    show _ = _ ++ cutPieces cd _ (chunks segmentBytes (root.read f contents.length))
    rw [hread]

end Synth.Mirrors

theorem buildTrees_eq (segmentBytes : ℕ) (entries : List (Bytes × FileTree)) :
    buildTrees cd segmentBytes entries
      = entries.map fun e => (e.1, buildTree cd segmentBytes e.2) := by
  induction entries with
  | nil => rfl
  | cons e entries ih => rw [buildTrees, ih, List.map_cons]

/-- Laying out what is built from a node, at any place, follows the
table's walk of that node. -/
structure Synth.Follows (cd : Codec) (root : FileTree) (segmentBytes : ℕ) (t : FileTree)
    (node : Manifest.Node) : Prop where
  built : buildTree cd segmentBytes t = .ok node
  step : ∀ {path depth b b'}, root.lookup path = some t → depth + t.depth ≤ MAX_DEPTH →
    Mirrors cd root segmentBytes b b' → ∃ b₂, Synth.node segmentBytes node depth b = .ok b₂
      ∧ Mirrors cd root segmentBytes b₂ (Builder.node t path b')

namespace Synth.Follows

variable {root : FileTree} {segmentBytes : ℕ}

theorem symlink {target : Bytes} (h : isUtf8 target) :
    Synth.Follows cd root segmentBytes (.symlink target) (.symlink target) where
  built := by rw [buildTree, if_pos h]
  step := by
    intro path depth b b' _ hdepth hb
    refine ⟨_, ?_, ((((((hb.tok _).tok _).tok _).tok _).tok _).tok _)⟩
    rw [Synth.node, if_neg]
    exact Nat.not_lt_of_le ((Nat.le_add_right _ _).trans hdepth)

theorem regular (hsb : 0 < segmentBytes) (executable : Bool) (contents : Bytes) :
    Synth.Follows cd root segmentBytes (.regular executable contents)
      (.regular executable contents.length ((chunks segmentBytes contents).map fun piece =>
        hexEncode (segmentHash cd piece).val)) where
  built := by
    rw [buildTree, hashSegments_eq hsb contents _ le_rfl]
    rfl
  step := by
    intro path depth b b' hpath hdepth hb
    have hcount : ((chunks segmentBytes contents).map fun piece =>
          hexEncode (segmentHash cd piece).val).length
        = (contents.length + max segmentBytes 1 - 1) / max segmentBytes 1 := by
      rw [List.length_map, length_chunks hsb, Nat.max_eq_left hsb]
    have hread : root.read ⟨path, 0⟩ contents.length = contents := by
      rw [FileTree.read, FileTree.contentsAt, hpath]
      exact slice_zero _ (Nat.zero_add _).ge
    -- what follows the flag is the same for both files
    have hrest : ∀ {b : Synth} {b' : Builder}, Mirrors cd root segmentBytes b b' →
        ∃ b₂, segments segmentBytes (Framing.rawLit b (leBytes contents.length)) contents.length
            ((chunks segmentBytes contents).map fun piece =>
              hexEncode (segmentHash cd piece).val) = .ok b₂
          ∧ Mirrors cd root segmentBytes b₂
            (if contents.length > 0 then
              Builder.fileSeg (Framing.rawLit b' (leBytes contents.length)) path contents.length
            else Framing.rawLit b' (leBytes contents.length)) := by
      intro b b' hb
      have hlen := hb.rawLit (leBytes contents.length)
      by_cases hne : contents = []
      · rw [hne] at hlen ⊢
        exact ⟨_, rfl, hlen⟩
      · rw [if_pos (List.length_pos_iff.mpr hne)]
        exact hlen.ext hsb hne hread
    have hopen := ((hb.tok (ascii "(")).tok (ascii "type")).tok (ascii "regular")
    have hflag : Mirrors cd root segmentBytes
        (if executable then (Framing.tok (Framing.tok (Framing.tok (Framing.tok (Framing.tok b
          (ascii "(")) (ascii "type")) (ascii "regular")) (ascii "executable")) [])
        else Framing.tok (Framing.tok (Framing.tok b (ascii "(")) (ascii "type"))
          (ascii "regular"))
        (if executable then (Framing.tok (Framing.tok (Framing.tok (Framing.tok (Framing.tok b'
          (ascii "(")) (ascii "type")) (ascii "regular")) (ascii "executable")) [])
        else Framing.tok (Framing.tok (Framing.tok b' (ascii "(")) (ascii "type"))
          (ascii "regular")) := by
      cases executable with
      | true => exact (hopen.tok _).tok _
      | false => exact hopen
    obtain ⟨b₂, hsegs, hmir⟩ := hrest (hflag.tok (ascii "contents"))
    refine ⟨_, ?_, (hmir.rawLit (pad contents.length)).tok (ascii ")")⟩
    rw [Synth.node, if_neg (Nat.not_lt_of_le ((Nat.le_add_right _ _).trans hdepth))]
    simp only
    rw [if_neg (not_not_intro hcount), hsegs]
    rfl

/-- A directory's entries, already in order. -/
theorem entries {sorted : List (Bytes × FileTree)}
    (hutf8 : ∀ e ∈ sorted, isUtf8 e.1)
    (hfollows : ∀ e ∈ sorted, ∃ node, Synth.Follows cd root segmentBytes e.2 node)
    (hsorted : sorted.Pairwise fun e e' => e.1 < e'.1) :
    ∃ nodes, (sorted.map fun e => (e.1, buildTree cd segmentBytes e.2)).mapM buildEntry
        = .ok nodes
      ∧ ∀ {path depth b b'} (prev : Option Bytes), (∀ p ∈ prev, ∀ e ∈ sorted, p < e.1) →
        (∀ e ∈ sorted, root.lookup (path ++ [e.1]) = some e.2) →
        (∀ e ∈ sorted, depth + (e.2.depth + 1) ≤ MAX_DEPTH) →
        Mirrors cd root segmentBytes b b' →
        ∃ b₂, Synth.entriesOf segmentBytes nodes prev depth b = .ok b₂
          ∧ Mirrors cd root segmentBytes b₂
            (sorted.foldl (fun b e => Builder.entry path b (e.1, Builder.node e.2)) b') := by
  induction sorted with
  | nil => exact ⟨[], rfl, fun _ _ _ _ hb => ⟨_, rfl, hb⟩⟩
  | cons e sorted ih =>
      obtain ⟨hlt, hsorted⟩ := List.pairwise_cons.mp hsorted
      obtain ⟨node, hnode⟩ := hfollows e List.mem_cons_self
      obtain ⟨nodes, hnodes, hrest⟩ := ih (fun e' he' => hutf8 e' (List.mem_cons_of_mem _ he'))
        (fun e' he' => hfollows e' (List.mem_cons_of_mem _ he')) hsorted
      refine ⟨(e.1, node) :: nodes, ?_, ?_⟩
      · rw [List.map_cons, List.mapM_cons, buildEntry, if_pos (hutf8 e List.mem_cons_self),
          hnode.built, hnodes]
        rfl
      · intro path depth b b' prev hprev hpath hdepth hb
        have hname : ¬(prev.any fun p => decide (e.1 ≤ p)) := by
          rw [Option.any_eq_true]
          rintro ⟨p, hp, hle⟩
          exact absurd (of_decide_eq_true hle)
            (not_le_of_gt (hprev p (Option.mem_def.mpr hp) e List.mem_cons_self))
        have hdeep : depth + 1 + e.2.depth ≤ MAX_DEPTH := by
          have := hdepth e List.mem_cons_self
          omega
        obtain ⟨b₁, hb₁, hmir⟩ := hnode.step (hpath e List.mem_cons_self) hdeep
          (((((hb.tok (ascii "entry")).tok (ascii "(")).tok (ascii "name")).tok e.1).tok
            (ascii "node"))
        obtain ⟨b₂, hb₂, hmir₂⟩ := hrest (some e.1)
          (fun p hp e' he' => Option.mem_some.mp hp ▸ hlt e' he')
          (fun e' he' => hpath e' (List.mem_cons_of_mem _ he'))
          (fun e' he' => hdepth e' (List.mem_cons_of_mem _ he')) (hmir.tok (ascii ")"))
        refine ⟨b₂, ?_, hmir₂⟩
        rw [Synth.entriesOf, if_neg hname]
        simp only
        rw [hb₁]
        exact hb₂

theorem directory {entries : List (Bytes × FileTree)}
    (hnodup : (entries.map Prod.fst).Nodup) (hutf8 : ∀ e ∈ entries, isUtf8 e.1)
    (hfollows : ∀ e ∈ entries, ∃ node, Synth.Follows cd root segmentBytes e.2 node) :
    ∃ node, Synth.Follows cd root segmentBytes (.directory entries) node := by
  have hmem : ∀ e ∈ sortByName entries, e ∈ entries := fun _ he => mem_sortByName.mp he
  obtain ⟨nodes, hnodes, hstep⟩ := Follows.entries (fun e he => hutf8 e (hmem e he))
    (fun e he => hfollows e (hmem e he)) (sortByName_strict hnodup)
  refine ⟨.dir nodes, ?_, ?_⟩
  · rw [buildTree, buildTrees_eq, sortByName_map, hnodes]
    rfl
  · intro path depth b b' hpath hdepth hb
    obtain ⟨b₂, hb₂, hmir⟩ := hstep none nofun
      (fun e he => FileTree.Distinct.lookup_entry hpath hnodup (hmem e he))
      (fun e he => (Nat.add_le_add_left (FileTree.depth_entry (hmem e he)) depth).trans hdepth)
      (((hb.tok (ascii "(")).tok (ascii "type")).tok (ascii "directory"))
    refine ⟨_, ?_, Builder.node_directory entries path b' ▸ hmir.tok (ascii ")")⟩
    rw [Synth.node, if_neg (Nat.not_lt_of_le ((Nat.le_add_right _ _).trans hdepth))]
    simp only
    rw [hb₂]
    rfl

end Synth.Follows

/-- Every tree the manifest can name is built, and followed. -/
theorem synth_build {root : FileTree} {segmentBytes : ℕ} (hsb : 0 < segmentBytes) {t : FileTree}
    (hdistinct : t.Distinct) (hutf8 : t.Utf8) :
    ∃ node, Synth.Follows cd root segmentBytes t node := by
  induction t using FileTree.induction with
  | symlink target =>
      obtain ⟨_, h⟩ := hutf8
      exact ⟨_, Synth.Follows.symlink h⟩
  | regular executable contents => exact ⟨_, Synth.Follows.regular hsb executable contents⟩
  | directory entries ih =>
      obtain _ | _ | ⟨_, hnames, hbelow⟩ := hutf8
      obtain _ | _ | ⟨_, hnodup, hentries⟩ := hdistinct
      exact Synth.Follows.directory hnodup hnames
        fun e he => ih e he (hentries e he) (hbelow e he)

/-- The layout laid out from the manifest of a tree is the tree's seek
table, its file ranges in pieces. -/
theorem synthLayout_buildTree (cd : Codec) {root : FileTree} (hdistinct : root.Distinct)
    (hutf8 : root.Utf8) (hdepth : root.depth ≤ MAX_DEPTH) {segmentBytes : ℕ}
    (hsb : 1 ≤ segmentBytes) :
    ∃ node, buildTree cd segmentBytes root = .ok node
      ∧ ∀ m : Manifest, m.root = node → m.segmentBytes = segmentBytes →
        m.narSize = (SeekTable.build root).narSize →
        synthLayout m = .ok
          { narSize := (SeekTable.build root).narSize
            lits := (SeekTable.build root).lits
            spans := (SeekTable.build root).segs.flatMap (cutSeg cd root segmentBytes) } := by
  obtain ⟨node, hnode⟩ : ∃ node, Synth.Follows cd root segmentBytes root node :=
    synth_build hsb hdistinct hutf8
  refine ⟨node, hnode.built, fun m hroot hm hsize => ?_⟩
  have hpath : root.lookup [] = some root := rfl
  have hdeep : 0 + root.depth ≤ MAX_DEPTH := (Nat.zero_add _).trans_le hdepth
  obtain ⟨b, hb, hmir⟩ := hnode.step hpath hdeep
    (Synth.Mirrors.empty.tok (ascii "nix-archive-1"))
  have hclosed := hmir.closeLit
  have hoff : (Framing.closeLit b).off = m.narSize := hclosed.off.trans hsize.symm
  rw [synthLayout, hm, hroot, if_neg (by omega), hb]
  show (if (Framing.closeLit b).off ≠ m.narSize then _ else _) = _
  rw [if_neg (not_not_intro hoff), hclosed.off, hclosed.lits, hclosed.segs]
  rfl

-- ============================================================ what is refused

/-- The entries of a directory that is built have names in UTF-8, and nodes. -/
theorem mapM_buildEntry {segmentBytes : ℕ} {l : List (Bytes × FileTree)}
    {nodes : List (Bytes × Manifest.Node)}
    (h : (l.map fun e => (e.1, buildTree cd segmentBytes e.2)).mapM buildEntry = .ok nodes) :
    ∀ e ∈ l, isUtf8 e.1
      ∧ ∃ node, buildTree cd segmentBytes e.2 = .ok node ∧ (e.1, node) ∈ nodes := by
  induction l generalizing nodes with
  | nil => exact fun e he => absurd he List.not_mem_nil
  | cons x l ih =>
      rw [List.map_cons, List.mapM_cons, buildEntry] at h
      simp only at h
      split at h
      next hname =>
        cases hbuilt : buildTree cd segmentBytes x.2 with
        | error e =>
            rw [hbuilt] at h
            cases h
        | ok node =>
            rw [hbuilt] at h
            cases hrest : (l.map fun e => (e.1, buildTree cd segmentBytes e.2)).mapM
                buildEntry with
            | error e =>
                rw [hrest] at h
                cases h
            | ok nodes' =>
                rw [hrest] at h
                cases h
                intro e he
                rcases List.mem_cons.mp he with rfl | he
                · exact ⟨hname, node, hbuilt, List.mem_cons_self⟩
                · obtain ⟨hutf8, node', hnode', hmem⟩ := ih hrest e he
                  exact ⟨hutf8, node', hnode', List.mem_cons_of_mem _ hmem⟩
      next => cases h

/-- So it is with those of a directory's tree. -/
theorem buildTree_directory {segmentBytes : ℕ} {entries : List (Bytes × FileTree)}
    {node : Manifest.Node} (h : buildTree cd segmentBytes (.directory entries) = .ok node) :
    ∃ nodes, node = .dir nodes ∧ ∀ e ∈ entries, isUtf8 e.1
      ∧ ∃ node, buildTree cd segmentBytes e.2 = .ok node ∧ (e.1, node) ∈ nodes := by
  rw [buildTree, buildTrees_eq, sortByName_map] at h
  cases hnodes : ((sortByName entries).map fun e =>
      (e.1, buildTree cd segmentBytes e.2)).mapM buildEntry with
  | error e =>
      rw [hnodes] at h
      cases h
  | ok nodes =>
      rw [hnodes] at h
      cases h
      exact ⟨nodes, rfl, fun e he => mapM_buildEntry hnodes e (mem_sortByName.mpr he)⟩

/-- A tree with a name that is not UTF-8 has no manifest. -/
theorem utf8_of_buildTree {segmentBytes : ℕ} {t : FileTree} {node : Manifest.Node}
    (h : buildTree cd segmentBytes t = .ok node) : t.Utf8 := by
  induction t using FileTree.induction generalizing node with
  | symlink target =>
      rw [buildTree] at h
      split at h
      next hutf8 => exact .symlink target hutf8
      next => cases h
  | regular executable contents => exact .regular executable contents
  | directory entries ih =>
      obtain ⟨nodes, -, hall⟩ := buildTree_directory h
      refine .directory entries (fun e he => (hall e he).1) fun e he => ?_
      obtain ⟨-, node', hnode', -⟩ := hall e he
      exact ih e he hnode'

namespace Synth

variable {segmentBytes : ℕ}

/-- Where the entries of a directory are laid out, each of them is. -/
theorem node_of_entriesOf {nodes : List (Bytes × Manifest.Node)} {depth : ℕ} :
    ∀ {prev : Option Bytes} {b b' : Synth},
      entriesOf segmentBytes nodes prev depth b = .ok b' →
      ∀ e ∈ nodes, ∃ b₁ b₂, node segmentBytes e.2 (depth + 1) b₁ = .ok b₂ := by
  induction nodes with
  | nil => exact fun _ e he => absurd he List.not_mem_nil
  | cons x nodes ih =>
      obtain ⟨name, child⟩ := x
      intro prev b b' h e he
      rw [entriesOf] at h
      split at h
      next => cases h
      next =>
        simp only at h
        cases hchild : node segmentBytes child (depth + 1)
            (Framing.tok (Framing.tok (Framing.tok (Framing.tok (Framing.tok b (ascii "entry"))
              (ascii "(")) (ascii "name")) name) (ascii "node")) with
        | error err =>
            rw [hchild] at h
            cases h
        | ok b₂ =>
            rw [hchild] at h
            rcases List.mem_cons.mp he with rfl | he
            · exact ⟨_, _, hchild⟩
            · exact ih h e he

/-- What is laid out at a depth does not go below the greatest. -/
theorem depth_le_of_node {t : FileTree} : ∀ {depth : ℕ} {n : Manifest.Node} {b b' : Synth},
    buildTree cd segmentBytes t = .ok n → node segmentBytes n depth b = .ok b' →
    depth + t.depth ≤ MAX_DEPTH := by
  induction t using FileTree.induction with
  | symlink target =>
      intro depth n b b' hbuilt hnode
      rw [buildTree] at hbuilt
      split at hbuilt
      · cases hbuilt
        rw [node] at hnode
        split at hnode
        · cases hnode
        · rw [FileTree.depth]
          omega
      · cases hbuilt
  | regular executable contents =>
      intro depth n b b' hbuilt hnode
      rw [buildTree] at hbuilt
      obtain ⟨segs, -, rfl⟩ : ∃ segs, hashSegments cd segmentBytes contents.length contents
          = .ok segs ∧ n = .regular executable contents.length segs := by
        cases hsegs : hashSegments cd segmentBytes contents.length contents with
        | error e =>
            rw [hsegs] at hbuilt
            cases hbuilt
        | ok segs =>
            rw [hsegs] at hbuilt
            cases hbuilt
            exact ⟨segs, rfl, rfl⟩
      rw [node] at hnode
      split at hnode
      · cases hnode
      · rw [FileTree.depth]
        omega
  | directory entries ih =>
      intro depth n b b' hbuilt hnode
      obtain ⟨nodes, rfl, hall⟩ := buildTree_directory hbuilt
      rw [node] at hnode
      split at hnode
      next => cases hnode
      next hdepth =>
        simp only at hnode
        cases hentries : entriesOf segmentBytes nodes none depth (Framing.tok (Framing.tok
            (Framing.tok b (ascii "(")) (ascii "type")) (ascii "directory")) with
        | error err =>
            rw [hentries] at hnode
            cases hnode
        | ok b₂ =>
            have hbelow : ∀ e ∈ entries, e.2.depth + 1 ≤ MAX_DEPTH - depth := by
              intro e he
              obtain ⟨-, n', hn', hmem⟩ := hall e he
              obtain ⟨b₁, b₂, hb⟩ := node_of_entriesOf hentries _ hmem
              have := ih e he hn' hb
              omega
            have := FileTree.depth_directory_le hbelow
            omega

end Synth

theorem utf8_smallTree : smallTree.Utf8 := by
  refine .directory _ (by decide) fun e he => ?_
  rcases List.mem_cons.mp he with rfl | he
  · exact .regular _ _
  · cases List.mem_singleton.mp he
    exact .symlink _ (by decide)

theorem synthLayout_smallTree :
    ∃ node, buildTree Codec.plain 2 smallTree = .ok node
      ∧ ∀ m : Manifest, m.root = node → m.segmentBytes = 2 →
        m.narSize = (SeekTable.build smallTree).narSize →
        synthLayout m = .ok
          { narSize := (SeekTable.build smallTree).narSize
            lits := (SeekTable.build smallTree).lits
            spans := (SeekTable.build smallTree).segs.flatMap
              (cutSeg Codec.plain smallTree 2) } :=
  synthLayout_buildTree Codec.plain distinct_smallTree utf8_smallTree (by decide) (by decide)

end Narshare
