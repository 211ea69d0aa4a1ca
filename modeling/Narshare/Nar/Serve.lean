/-
A range of a NAR, as serve.rs streams it from the seek table.

# Reading a table

`firstSeg` and `segSlice` are the two things a table answers: where a
range begins in it, and a segment clamped to the range. `Pieces` is the
iterator over them, which further cuts a file's part into reads of at
most `READ_CHUNK`. An iterator is a state and a `next`; that it gives
just these items and then ends is `Yields`.

# What comes out

`yields_file` is the cutting of one file's part, `yields_segs` the run
over the segments, by recursion on those that are left. `Tiles.clip_flatMap`
then turns the clamped segments into the slice of what the table
stands for, which is the canonical serialisation.
-/
import Narshare.Nar.Build

namespace Narshare

/-- `READ_CHUNK`. -/
def READ_CHUNK : ℕ := 256 * 1024

-- ======================================================== the table's answers

/-- `Slice`. -/
inductive Slice
  | lit (bytes : Bytes)
  | file (path : List Bytes) (off len : ℕ)
deriving DecidableEq

/-- `partition_point`: the place of the first item that fails. -/
def partitionPoint {α : Type} (p : α → Bool) (l : List α) : ℕ := l.findIdx fun x => !p x

namespace SeekTable

/-- `first_seg`: index of the first segment overlapping `start`. -/
def firstSeg (t : SeekTable) (start : ℕ) : ℕ :=
  partitionPoint (fun s => decide (s.narOff + s.len ≤ start)) t.segs

/-- `seg_slice`: a segment clamped to the range, nothing once past it. -/
def segSlice (t : SeekTable) (i start end_ : ℕ) : Option Slice :=
  t.segs[i]?.bind fun seg =>
    if seg.narOff ≥ end_ then none
    else
      let s := max start seg.narOff
      let e := min end_ (seg.narOff + seg.len)
      let skip := s - seg.narOff
      let len := e - s
      match seg.src with
      | .lit litOff =>
          let lo := litOff + skip
          some (.lit (slice t.lits lo (lo + len)))
      | .ext f => some (.file f.path (f.fileOff + skip) len)

end SeekTable

-- ================================================================= the pieces

/-- `PieceDesc`. -/
inductive PieceDesc
  | lit (bytes : Bytes)
  | read (path : List Bytes) (off len : ℕ)
deriving DecidableEq

/-- `Pieces`; `file` is the rest of the file part being cut. -/
structure Pieces where
  table : SeekTable
  i : ℕ
  start : ℕ
  end_ : ℕ
  file : Option (List Bytes × ℕ × ℕ) := none
deriving DecidableEq

namespace Pieces

/-- `Pieces::new`. -/
def new (table : SeekTable) (start end_ : ℕ) : Pieces :=
  { table := table, i := table.firstSeg start, start := start, end_ := end_ }

/-- `next`, the next read of a file's part. -/
def nextRead (p : Pieces) (path : List Bytes) (off len : ℕ) : PieceDesc × Pieces :=
  let n := min len READ_CHUNK
  (.read path off n, { p with file := if len > n then some (path, off + n, len - n) else none })

/-- `next`. -/
def next (p : Pieces) : Option (PieceDesc × Pieces) :=
  match p.file with
  | some (path, off, len) => some (p.nextRead path off len)
  | none =>
      (p.table.segSlice p.i p.start p.end_).map fun slice =>
        let p := { p with i := p.i + 1 }
        match slice with
        | .lit bytes => (.lit bytes, p)
        | .file path off len => p.nextRead path off len

/-- The iterator gives these items, and then ends. -/
inductive Yields : Pieces → List PieceDesc → Prop
  | done {p : Pieces} : p.next = none → Yields p []
  | item {p p' : Pieces} {d : PieceDesc} {ds : List PieceDesc} :
      p.next = some (d, p') → Yields p' ds → Yields p (d :: ds)

end Pieces

/-- What a piece sends. -/
def PieceDesc.bytes (root : FileTree) : PieceDesc → Bytes
  | .lit bytes => bytes
  | .read path off len => slice (root.contentsAt path) off (off + len)

/-- A read is short and inside its file. -/
def PieceDesc.Fits (root : FileTree) (d : PieceDesc) : Prop :=
  ∀ path off len, d = .read path off len →
    0 < len ∧ len ≤ READ_CHUNK ∧ off + len ≤ (root.contentsAt path).length

-- ============================================================ the range header

/-- `RangeSpec`. -/
inductive RangeSpec
  | full
  | partialRange (start end_ : ℕ)
  | unsatisfiable
deriving DecidableEq

/-- `str::strip_prefix`. -/
def stripPrefix (pre s : List Char) : Option (List Char) :=
  if s.take pre.length = pre then some (s.drop pre.length) else none

/-- `char::is_whitespace`: Unicode's `White_Space`. -/
def isWhitespace (c : Char) : Bool :=
  let n := c.toNat
  decide (9 ≤ n ∧ n ≤ 13) || n == 0x20 || n == 0x85 || n == 0xA0 || n == 0x1680
    || decide (0x2000 ≤ n ∧ n ≤ 0x200A) || n == 0x2028 || n == 0x2029 || n == 0x202F
    || n == 0x205F || n == 0x3000

/-- `str::trim`. -/
def trim (s : List Char) : List Char :=
  ((s.dropWhile isWhitespace).reverse.dropWhile isWhitespace).reverse

/-- `str::split_once`. -/
def splitOnce (c : Char) (s : List Char) : Option (List Char × List Char) :=
  match s.dropWhile (fun x => decide (x ≠ c)) with
  | [] => none
  | _ :: rest => some (s.takeWhile (fun x => decide (x ≠ c)), rest)

/-- `str::parse::<u64>`: digits, a plus sign allowed before them. -/
def parseU64 (s : List Char) : Option ℕ :=
  let digits := match s with
    | '+' :: rest => rest
    | _ => s
  if digits = [] ∨ digits.all Char.isDigit = false then none
  else
    let n := digits.foldl (fun n c => n * 10 + (c.toNat - '0'.toNat)) 0
    if n < 2 ^ 64 then some n else none

/-- `parse_range`. -/
def parseRange (header : Option (List Char)) (size : ℕ) : RangeSpec :=
  match header.bind (stripPrefix "bytes=".toList) with
  | none => .full
  | some spec =>
      if spec.contains ',' then .full
      else
        match splitOnce '-' (trim spec) with
        | none => .full
        | some ([], n) => -- suffix: last n bytes
            match parseU64 n with
            | none => .full
            | some n =>
                if n = 0 ∨ size = 0 then .unsatisfiable
                else .partialRange (size - n) size
        | some (a, []) =>
            match parseU64 a with
            | none => .full
            | some a => if a ≥ size then .unsatisfiable else .partialRange a size
        | some (a, b) =>
            match parseU64 a, parseU64 b with
            | some a, some b =>
                -- saturating_add
                let end_ := min (min (b + 1) (2 ^ 64 - 1)) size
                if a > b ∨ a ≥ size ∨ end_ ≤ a then .unsatisfiable
                else .partialRange a end_
            | _, _ => .full

/-- The bounds a request is served between; none is an error answer. -/
def RangeSpec.bounds (size : ℕ) : RangeSpec → Option (ℕ × ℕ)
  | .full => some (0, size)
  | .partialRange start end_ => some (start, end_)
  | .unsatisfiable => none

/-- A partial range is not empty and within the size. -/
theorem parseRange_bounds {header : Option (List Char)} {size start end_ : ℕ}
    (h : parseRange header size = .partialRange start end_) : start < end_ ∧ end_ ≤ size := by
  unfold parseRange at h
  split at h
  next => cases h
  next spec _ =>
    split at h
    next => cases h
    split at h
    next => cases h
    next =>
      split at h
      next => cases h
      next =>
        split at h
        next => cases h
        next =>
          cases h
          omega
    next =>
      split at h
      next => cases h
      next =>
        split at h
        next => cases h
        next =>
          cases h
          omega
    next =>
      split at h
      next =>
        simp only at h
        split at h
        next => cases h
        next =>
          cases h
          omega
      next => cases h

-- ============================================================= what comes out

namespace Pieces

variable {root : FileTree} {p : Pieces}

/-- A file's part comes out in reads that meet and fit, before whatever
comes next. -/
theorem yields_file {path : List Bytes} {ds : List PieceDesc}
    (hrest : Yields { p with file := none } ds) {off len : ℕ} (hpos : 0 < len)
    (hfits : off + len ≤ (root.contentsAt path).length) :
    ∃ reads, Yields { p with file := some (path, off, len) } (reads ++ ds)
      ∧ reads.flatMap (PieceDesc.bytes root)
        = slice (root.contentsAt path) off (off + len)
      ∧ ∀ d ∈ reads, d.Fits root := by
  have hchunk : 0 < READ_CHUNK := by decide
  induction hlen : len using Nat.strong_induction_on generalizing off len with
  | _ k ih =>
      subst hlen
      have hone : PieceDesc.Fits root (.read path off (min len READ_CHUNK)) := by
        rintro _ _ _ ⟨⟩
        omega
      by_cases hlong : len > min len READ_CHUNK
      · have hleft : off + min len READ_CHUNK + (len - min len READ_CHUNK)
            ≤ (root.contentsAt path).length := by omega
        obtain ⟨reads, hyields, hbytes, hall⟩ := ih (len - min len READ_CHUNK) (by omega)
          (by omega) hleft rfl
        refine ⟨.read path off (min len READ_CHUNK) :: reads, ?_, ?_, ?_⟩
        · refine Yields.item ?_ hyields
          simp only [next, nextRead, if_pos hlong]
        · rw [List.flatMap_cons, hbytes, PieceDesc.bytes, slice_append_slice _ (by omega)
            (by omega)]
          congr 1
          omega
        · exact List.forall_mem_cons.mpr ⟨hone, hall⟩
      · have hn : min len READ_CHUNK = len := by omega
        refine ⟨[.read path off len], ?_, ?_, ?_⟩
        · refine Yields.item ?_ hrest
          simp only [next, nextRead, hn, gt_iff_lt, lt_irrefl, if_false]
        · rw [List.flatMap_cons, List.flatMap_nil, List.append_nil]
          rfl
        · rw [hn] at hone
          exact List.forall_mem_cons.mpr ⟨hone, fun _ h => (List.not_mem_nil h).elim⟩

/-- A segment that the range meets, clamped to it. -/
theorem segSlice_of_mem {t : SeekTable} (ht : t.Covers root) {seg : Seg FileRef}
    (hseg : seg ∈ t.segs) {i start end_ : ℕ} (hi : t.segs[i]? = some seg)
    (hstart : start < seg.narOff + seg.len) (hend : seg.narOff < end_)
    (hrange : start < end_) :
    (∃ bytes, t.segSlice i start end_ = some (.lit bytes)
        ∧ bytes = clip Seg.narOff (Seg.bytes t.lits root.read) start end_ seg)
      ∨ ∃ path off len, t.segSlice i start end_ = some (.file path off len)
        ∧ 0 < len ∧ off + len ≤ (root.contentsAt path).length
        ∧ slice (root.contentsAt path) off (off + len)
          = clip Seg.narOff (Seg.bytes t.lits root.read) start end_ seg := by
  have hlen := ht.length seg hseg
  obtain ⟨-, hpos, -⟩ := ht.tiles.bounds hseg
  simp only [SeekTable.segSlice, hi, Option.bind_some, if_neg (not_le.mpr hend)]
  unfold clip
  cases hsrc : seg.src with
  | lit litOff =>
      left
      refine ⟨_, rfl, ?_⟩
      rw [Seg.bytes, hsrc]
      simp only
      rw [slice_slice]
      congr 1
      · omega
      · omega
  | ext f =>
      right
      refine ⟨_, _, _, rfl, by omega, ?_, ?_⟩
      · rw [Seg.bytes, hsrc] at hlen
        simp only [FileTree.read, length_slice] at hlen
        omega
      · rw [Seg.bytes, hsrc]
        simp only [FileTree.read]
        rw [slice_slice]
        congr 1
        · omega
        · omega

/-- From a segment on, the pieces are the segments that are left, clamped
to the range. -/
theorem yields_segs {t : SeekTable} (ht : t.Covers root) {start end_ : ℕ}
    (hrange : start < end_) (rest : List (Seg FileRef)) :
    ∀ i, t.segs.drop i = rest → (∀ seg ∈ rest, start < seg.narOff + seg.len) →
      ∃ ds, Yields { table := t, i := i, start := start, end_ := end_ } ds
        ∧ ds.flatMap (PieceDesc.bytes root)
          = (rest.takeWhile fun seg => decide (seg.narOff < end_)).flatMap
              (clip Seg.narOff (Seg.bytes t.lits root.read) start end_)
        ∧ ∀ d ∈ ds, d.Fits root := by
  induction rest with
  | nil =>
      intro i hi _
      refine ⟨[], .done ?_, rfl, fun _ h => (List.not_mem_nil h).elim⟩
      have hnone : t.segs[i]? = none := by
        rw [List.getElem?_eq_none_iff]
        exact List.drop_eq_nil_iff.mp hi
      simp [next, SeekTable.segSlice, hnone]
  | cons seg rest ih =>
      intro i hi hstart
      have hget : t.segs[i]? = some seg := by
        rw [← List.head?_drop, hi]
        rfl
      by_cases hend : seg.narOff < end_
      · obtain ⟨ds, hyields, hbytes, hfits⟩ := ih (i + 1)
          (by rw [← List.drop_drop, hi]; rfl)
          fun s hs => hstart s (List.mem_cons_of_mem _ hs)
        rw [List.takeWhile_cons, if_pos (decide_eq_true hend), List.flatMap_cons]
        rcases segSlice_of_mem ht (List.mem_of_getElem? hget) hget
            (hstart seg List.mem_cons_self) hend hrange
          with ⟨bytes, hslice, hclip⟩ | ⟨path, off, len, hslice, hpos, hin, hclip⟩
        · refine ⟨.lit bytes :: ds, Yields.item ?_ hyields, ?_, ?_⟩
          · simp only [next, hslice, Option.map_some]
          · rw [List.flatMap_cons, hbytes, ← hclip]
            rfl
          · exact List.forall_mem_cons.mpr ⟨nofun, hfits⟩
        · obtain ⟨reads, hreads, hread, hall⟩ := yields_file
            (p := { table := t, i := i + 1, start := start, end_ := end_ }) hyields hpos hin
          refine ⟨reads ++ ds, ?_, ?_, ?_⟩
          · generalize reads ++ ds = all at hreads ⊢
            cases hreads with
            | done hnone => cases hnone
            | item hnext hmore =>
                refine Yields.item ?_ hmore
                rw [← hnext]
                simp only [next, hslice, Option.map_some]
                rfl
          · rw [List.flatMap_append, hread, hbytes, hclip]
          · exact fun d hd => (List.mem_append.mp hd).elim (hall d) (hfits d)
      · refine ⟨[], .done ?_, ?_, fun _ h => (List.not_mem_nil h).elim⟩
        · simp [next, SeekTable.segSlice, hget, not_lt.mp hend]
        · rw [List.takeWhile_cons, if_neg (by simpa using hend)]
          rfl

end Pieces

/-- A table's segments are partitioned at every place, as
`partition_point` expects of them. -/
theorem SeekTable.Covers.partitioned {t : SeekTable} {root : FileTree} (h : t.Covers root)
    (start : ℕ) : t.segs.Pairwise fun s s' =>
      s'.narOff + s'.len ≤ start → s.narOff + s.len ≤ start :=
  h.tiles.pairwise.imp fun hss' h => (hss'.trans (Nat.le_add_right _ _)).trans h

/-- A range of a table comes out as that range of the serialisation. -/
theorem SeekTable.Covers.yields {t : SeekTable} {root : FileTree} (h : t.Covers root)
    {start end_ : ℕ} (hrange : start < end_) :
    ∃ ds, (Pieces.new t start end_).Yields ds
      ∧ ds.flatMap (PieceDesc.bytes root) = slice (narOf root) start end_
      ∧ ∀ d ∈ ds, d.Fits root := by
  have hdrop : t.segs.drop (t.firstSeg start)
      = t.segs.dropWhile fun s => decide (s.narOff + s.len ≤ start) := by
    rw [firstSeg, partitionPoint, List.dropWhile_eq_drop_findIdx_not]
  have hreach : ∀ seg ∈ t.segs.dropWhile fun s => decide (s.narOff + s.len ≤ start),
      start < seg.narOff + seg.len := by
    intro seg hseg
    cases hrest : t.segs.dropWhile fun s => decide (s.narOff + s.len ≤ start) with
    | nil =>
        rw [hrest] at hseg
        cases hseg
    | cons first rest =>
        have hfirst : start < first.narOff + first.len := by
          have := List.head_dropWhile_not (fun s : Seg FileRef =>
            decide (s.narOff + s.len ≤ start)) (l := t.segs) (by rw [hrest]; simp)
          simpa [hrest] using this
        have hasc := h.tiles.pairwise.sublist
          (List.dropWhile_sublist fun s => decide (s.narOff + s.len ≤ start))
        rw [hrest] at hseg hasc
        rcases List.mem_cons.mp hseg with rfl | hseg
        · exact hfirst
        · exact hfirst.trans_le (((List.pairwise_cons.mp hasc).1 seg hseg).trans
            (Nat.le_add_right _ _))
  obtain ⟨ds, hyields, hbytes, hfits⟩ := Pieces.yields_segs h hrange _ _ hdrop hreach
  refine ⟨ds, hyields, ?_, hfits⟩
  rw [hbytes, h.tiles.clip_flatMap h.length, h.bytes, Nat.sub_zero, Nat.sub_zero]

/-- A table is tiles of the whole canonical serialisation, and any range a
header asks for is served as that range of it, in reads that fit. -/
theorem serve_range {root : FileTree} (hroot : root.Distinct) :
    let t := SeekTable.build root
    (Tiles Seg.narOff Seg.len 0 t.narSize t.segs ∧ t.narSize = (narOf root).length)
      ∧ ∀ (header : Option (List Char)) (start end_ : ℕ),
        (parseRange header t.narSize).bounds t.narSize = some (start, end_) →
        start < end_ ∧ end_ ≤ t.narSize
          ∧ ∃ ds, (Pieces.new t start end_).Yields ds
            ∧ ds.flatMap (PieceDesc.bytes root) = slice (narOf root) start end_
            ∧ ∀ d ∈ ds, d.Fits root := by
  intro t
  have hcovers := SeekTable.covers_build hroot
  refine ⟨⟨hcovers.tiles, hcovers.narSize⟩, fun header start end_ hbounds => ?_⟩
  have hrange : start < end_ ∧ end_ ≤ t.narSize := by
    cases hspec : parseRange header t.narSize with
    | full =>
        rw [hspec] at hbounds
        cases hbounds
        refine ⟨?_, le_rfl⟩
        rw [hcovers.narSize, narOf, narStr]
        simp only [List.length_append, length_leBytes]
        omega
    | partialRange s e =>
        rw [hspec] at hbounds
        cases hbounds
        exact parseRange_bounds hspec
    | unsatisfiable =>
        rw [hspec] at hbounds
        cases hbounds
  exact ⟨hrange.1, hrange.2, hcovers.yields hrange.1⟩

theorem serve_range_smallTree :
    100 < 512 ∧ 512 ≤ (SeekTable.build smallTree).narSize
      ∧ ∃ ds, (Pieces.new (SeekTable.build smallTree) 100 512).Yields ds
        ∧ ds.flatMap (PieceDesc.bytes smallTree) = slice (narOf smallTree) 100 512
        ∧ ∀ d ∈ ds, d.Fits smallTree :=
  (serve_range distinct_smallTree).2 (some "bytes=100-".toList) 100 512 (by decide +kernel)

end Narshare
