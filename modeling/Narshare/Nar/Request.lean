/-
A range of a NAR, from the header that asks for it to the body that
answers.

# The request

`fetch_range` writes the range it wants into a header (`rangeHeader`), and
the server reads it back with `parse_range`. Both ends are inclusive on
the wire; `parseRange_rangeHeader` says that what is read is what was
meant, also for the last byte and for a range that is the whole NAR.

# The answer

`Answers` is what a peer sends that has the tree: the pieces of the range
it has read. A range has one answer (`answers_iff`), which is that range
of the serialisation.

# The body

`unpack` is what `fetch_range` makes of the body of a 206: it reads to a
cap, decodes, and takes nothing that has not the length asked for.
-/
import Narshare.Nar.Serve

namespace Narshare

-- ================================================================ the header

/-- `fetch_range`, the `RANGE` header. -/
def rangeHeader (start end_ : ℕ) : List Char :=
  "bytes=".toList ++ (Nat.toDigits 10 start ++ '-' :: Nat.toDigits 10 (end_ - 1))

/-- A digit is no space and none of the marks the parser looks for. -/
theorem plain_of_mem_toDigits {n : ℕ} {c : Char} (h : c ∈ Nat.toDigits 10 n) :
    c.isDigit = true ∧ isWhitespace c = false ∧ c ≠ ',' ∧ c ≠ '-' ∧ c ≠ '+' := by
  have hdig := Nat.isDigit_of_mem_toDigits (by decide) (by decide) h
  obtain ⟨hlo, hhi⟩ := isDigit_of_mem_toDigits h
  have hne : ∀ d : Char, ¬ (48 ≤ d.toNat ∧ d.toNat ≤ 57) → c ≠ d := by
    rintro d hd rfl
    exact hd ⟨hlo, hhi⟩
  refine ⟨hdig, ?_, hne _ (by decide), hne _ (by decide), hne _ (by decide)⟩
  unfold isWhitespace
  simp only [Bool.or_eq_false_iff, decide_eq_false_iff_not, beq_eq_false_iff_ne]
  omega

theorem dropWhile_eq_self {α : Type} {p : α → Bool} {l : List α} (h : ∀ x ∈ l, p x = false) :
    l.dropWhile p = l := by
  cases l with
  | nil => rfl
  | cons x l => rw [List.dropWhile_cons_of_neg (by rw [h x List.mem_cons_self]; decide)]

/-- Nothing is trimmed of what has no space in it. -/
theorem trim_eq_self {s : List Char} (h : ∀ c ∈ s, isWhitespace c = false) : trim s = s := by
  rw [trim, dropWhile_eq_self h, dropWhile_eq_self fun c hc => h c (List.mem_reverse.mp hc),
    List.reverse_reverse]

theorem splitOnce_append {c : Char} {k : List Char} (hk : c ∉ k) (v : List Char) :
    splitOnce c (k ++ c :: v) = some (k, v) := by
  have hne : ∀ x ∈ k, (decide (x ≠ c)) = true := fun x hx =>
    decide_eq_true fun he => hk (he ▸ hx)
  rw [splitOnce, List.dropWhile_append_of_pos hne, List.takeWhile_append_of_pos hne,
    List.dropWhile_cons_of_neg (by simp), List.takeWhile_cons_of_neg (by simp), List.append_nil]

/-- A number is read back. -/
theorem parseU64_toDigits {n : ℕ} (h : n < 2 ^ 64) : parseU64 (Nat.toDigits 10 n) = some n := by
  have hall : (Nat.toDigits 10 n).all Char.isDigit = true :=
    List.all_eq_true.mpr fun c hc => (plain_of_mem_toDigits hc).1
  have hvalue : (Nat.toDigits 10 n).foldl (fun n c => n * 10 + (c.toNat - '0'.toNat)) 0 = n := by
    have := Nat.ofDigitChars_ten_toDigits (n := n)
    rw [Nat.ofDigitChars_eq_foldl] at this
    simpa only [Nat.mul_comm] using this
  unfold parseU64
  simp only
  split
  next rest he => exact absurd rfl (plain_of_mem_toDigits (he ▸ List.mem_cons_self)).2.2.2.2
  next =>
    rw [if_neg, hvalue, if_pos h]
    rintro (hnil | hbad)
    · exact Nat.toDigits_ne_nil hnil
    · rw [hall] at hbad
      cases hbad

/-- The range that is read is the range that was meant. -/
theorem parseRange_rangeHeader {start end_ size : ℕ} (h : start < end_) (hend : end_ ≤ size)
    (hsize : size < 2 ^ 64) :
    parseRange (some (rangeHeader start end_)) size = .partialRange start end_ := by
  have hstrip : (some (rangeHeader start end_)).bind (stripPrefix "bytes=".toList)
      = some (Nat.toDigits 10 start ++ '-' :: Nat.toDigits 10 (end_ - 1)) := by
    rw [Option.bind_some, rangeHeader, stripPrefix, List.take_left, if_pos rfl, List.drop_left]
  have hmem : ∀ c ∈ Nat.toDigits 10 start ++ '-' :: Nat.toDigits 10 (end_ - 1),
      isWhitespace c = false ∧ c ≠ ',' := by
    intro c hc
    rcases List.mem_append.mp hc with hc | hc
    · exact ⟨(plain_of_mem_toDigits hc).2.1, (plain_of_mem_toDigits hc).2.2.1⟩
    · rcases List.mem_cons.mp hc with rfl | hc
      · exact ⟨by decide, by decide⟩
      · exact ⟨(plain_of_mem_toDigits hc).2.1, (plain_of_mem_toDigits hc).2.2.1⟩
  have hcomma : (Nat.toDigits 10 start ++ '-' :: Nat.toDigits 10 (end_ - 1)).contains ','
      = false := by
    rw [← Bool.not_eq_true, List.contains_iff_mem]
    exact fun hin => (hmem _ hin).2 rfl
  have hsplit := splitOnce_append (c := '-') (k := Nat.toDigits 10 start)
    (fun hin => (plain_of_mem_toDigits hin).2.2.2.1 rfl) (Nat.toDigits 10 (end_ - 1))
  have hstart : parseU64 (Nat.toDigits 10 start) = some start := parseU64_toDigits (by omega)
  have hlast : parseU64 (Nat.toDigits 10 (end_ - 1)) = some (end_ - 1) :=
    parseU64_toDigits (by omega)
  unfold parseRange
  rw [hstrip]
  simp only [hcomma, Bool.false_eq_true, if_false]
  rw [trim_eq_self fun c hc => (hmem c hc).1, hsplit]
  revert hstart hlast
  cases hfirst : Nat.toDigits 10 start with
  | nil => exact absurd hfirst Nat.toDigits_ne_nil
  | cons c cs =>
      cases hsecond : Nat.toDigits 10 (end_ - 1) with
      | nil => exact absurd hsecond Nat.toDigits_ne_nil
      | cons d ds =>
          intro hstart hlast
          simp only [hstart, hlast]
          have hmin : min (min (end_ - 1 + 1) (2 ^ 64 - 1)) size = end_ := by omega
          rw [hmin, if_neg (by omega)]

-- ================================================================ the answer

/-- Items come out in one way. -/
theorem Pieces.Yields.unique {p : Pieces} {ds ds' : List PieceDesc} (h : p.Yields ds)
    (h' : p.Yields ds') : ds = ds' := by
  induction h generalizing ds' with
  | done hnone =>
      cases h' with
      | done => rfl
      | item hnext =>
          rw [hnone] at hnext
          cases hnext
  | item hnext _ ih =>
      cases h' with
      | done hnone =>
          rw [hnext] at hnone
          cases hnone
      | item hnext' hrest =>
          rw [hnext] at hnext'
          cases hnext'
          rw [ih hrest]

/-- What a peer that has the tree sends when it is asked for
`[off, off + len)`: the pieces of the partial range it reads. -/
def Answers (root : FileTree) (off len : ℕ) (b : Bytes) : Prop :=
  ∃ start end_ ds,
    parseRange (some (rangeHeader off (off + len))) (SeekTable.build root).narSize
        = .partialRange start end_
      ∧ (Pieces.new (SeekTable.build root) start end_).Yields ds
      ∧ b = ds.flatMap (PieceDesc.bytes root)

/-- A range has one answer, the bytes it is of. -/
theorem answers_iff {root : FileTree} (hroot : root.Distinct)
    (hsize : (narOf root).length < 2 ^ 64) {off len : ℕ} (hlen : 0 < len)
    (hend : off + len ≤ (narOf root).length) {b : Bytes} :
    Answers root off len b ↔ b = slice (narOf root) off (off + len) := by
  have hcovers := SeekTable.covers_build hroot
  have hparse := parseRange_rangeHeader (Nat.lt_add_of_pos_right hlen) hend hsize
  rw [← hcovers.narSize] at hparse
  obtain ⟨ds, hyields, hbytes, -⟩ := hcovers.yields (Nat.lt_add_of_pos_right (n := off) hlen)
  constructor
  · rintro ⟨start, end_, ds', hrange, hyields', rfl⟩
    rw [hparse] at hrange
    cases hrange
    rw [hyields'.unique hyields, hbytes]
  · rintro rfl
    exact ⟨off, off + len, ds, hparse, hyields, hbytes.symm⟩

-- ================================================================== the body

/-- `WIRE_SLACK`. -/
def WIRE_SLACK : ℕ := 64 * 1024

/-- `read_capped_progress`, the loop; a chunk that is not read is `none`. -/
def readChunks (cap : ℕ) : Bytes → List (Option Bytes) → Option Bytes
  | buf, [] => some buf
  | _, none :: _ => none
  | buf, some chunk :: body =>
      if buf.length + chunk.length > cap then none else readChunks cap (buf ++ chunk) body

/-- `read_capped_progress`. -/
def readCapped (contentLength : Option ℕ) (cap : ℕ) (body : List (Option Bytes)) : Option Bytes :=
  if contentLength.any fun len => decide (len > cap) then none else readChunks cap [] body

/-- `fetch_range`, the body of a 206; with a decoder when it is encoded. -/
def unpack (decode : Option (Bytes → Option Bytes)) (contentLength : Option ℕ) (want : ℕ)
    (body : List (Option Bytes)) : Option Bytes :=
  let bytes := match decode with
    | none => readCapped contentLength want body
    | some decode => (readCapped contentLength (want + WIRE_SLACK) body).bind decode
  bytes.filter fun bytes => decide (bytes.length = want)

theorem readChunks_some {cap : ℕ} {buf b : Bytes} {body : List (Option Bytes)}
    (h : readChunks cap buf body = some b) :
    ∃ chunks : List Bytes, body = chunks.map some ∧ b = buf ++ chunks.flatten := by
  induction body generalizing buf with
  | nil =>
      cases h
      exact ⟨[], rfl, (List.append_nil _).symm⟩
  | cons r body ih =>
      cases r with
      | none => cases h
      | some chunk =>
          rw [readChunks] at h
          split at h
          next => cases h
          next =>
            obtain ⟨chunks, rfl, rfl⟩ := ih h
            exact ⟨chunk :: chunks, rfl, List.append_assoc _ _ _⟩

/-- What is taken has come without an error, and has the length. -/
theorem unpack_some {decode : Option (Bytes → Option Bytes)} {contentLength : Option ℕ}
    {want : ℕ} {body : List (Option Bytes)} {b : Bytes}
    (h : unpack decode contentLength want body = some b) :
    b.length = want ∧ ∃ chunks : List Bytes, body = chunks.map some
      ∧ decode.elim (some chunks.flatten) (fun decode => decode chunks.flatten) = some b := by
  have hread : ∀ {cap : ℕ} {b : Bytes}, readCapped contentLength cap body = some b →
      ∃ chunks : List Bytes, body = chunks.map some ∧ b = chunks.flatten := by
    intro cap b hb
    rw [readCapped] at hb
    split at hb
    next => cases hb
    next => exact readChunks_some hb
  obtain ⟨hbytes, hlen⟩ := Option.filter_eq_some_iff.mp h
  refine ⟨of_decide_eq_true hlen, ?_⟩
  cases decode with
  | none =>
      obtain ⟨chunks, hbody, rfl⟩ := hread hbytes
      exact ⟨chunks, hbody, rfl⟩
  | some decode =>
      obtain ⟨frame, hframe, hdecode⟩ := Option.bind_eq_some_iff.mp hbytes
      obtain ⟨chunks, hbody, rfl⟩ := hread hframe
      exact ⟨chunks, hbody, hdecode⟩

end Narshare
