/-
The chunk buffer as what it stands for: a partial map from places to
bytes.

# One reading

`byteAt` reads a place in the entry it lies in. Where entries have no
overlap and none is empty that is the byte of whichever entry has the
place (`Ok.byteAt_eq`), so what is taken out and what is left can be
compared with the map as it was, place by place. `byteAt_cutOut` does
that for one entry, and `extract_bytes` goes along the entries of a
span.

`takeSpanMut` and `takePrefixMut` are the two functions with the map as
they leave it, also where they take nothing; the emitter reads the same
functions through their results alone (`takeSpan_eq`, `takePrefix_eq`).
-/
import Narshare.Transfer.Buffer

namespace Narshare

namespace Buffer

/-- `take_span`, with the map it leaves: nothing is changed before the
span is known to be covered. -/
def takeSpanMut (buf : Buffer) (off end_ : ℕ) : Option (List Bytes) × Buffer :=
  match buf.coverage end_ (end_ - off) off with
  | none => (none, buf)
  | some keys =>
      let (out, buf) := extract off end_ keys buf
      (some out, buf)

/-- `take_prefix`, with the map it leaves. -/
def takePrefixMut (buf : Buffer) (pos max : ℕ) : Option Bytes × Buffer :=
  match buf.floor pos with
  | none => (none, buf)
  | some (k, b) =>
      if k + b.length ≤ pos then (none, buf)
      else
        let take := min (k + b.length - pos) max
        (some (slice b (pos - k) (pos - k + take)), buf.cutOut k b pos (pos + take))

theorem takeSpan_eq (buf : Buffer) (off end_ : ℕ) :
    buf.takeSpan off end_
      = (buf.takeSpanMut off end_).1.map fun out => (out, (buf.takeSpanMut off end_).2) := by
  rw [takeSpan, takeSpanMut]
  cases buf.coverage end_ (end_ - off) off with
  | none => rfl
  | some keys => rfl

theorem takePrefix_eq (buf : Buffer) (pos max : ℕ) :
    buf.takePrefix pos max
      = (buf.takePrefixMut pos max).1.map fun b => (b, (buf.takePrefixMut pos max).2) := by
  rw [takePrefix, takePrefixMut]
  cases buf.floor pos with
  | none => rfl
  | some e =>
      simp only
      split
      · rfl
      · rfl

-- ============================================================== the reading

/-- The byte at a place, if it is buffered. -/
def byteAt (buf : Buffer) (x : ℕ) : Option UInt8 :=
  (buf.floor x).bind fun e => e.2[x - e.1]?

variable {buf : Buffer} {k s e : ℕ} {b : Bytes}

/-- A place is read in the entry that has it. -/
theorem Ok.byteAt_eq (h : buf.Ok) {x : ℕ} (hget : buf.get k = some b) (hlo : k ≤ x)
    (hhi : x < k + b.length) : buf.byteAt x = b[x - k]? := by
  rw [byteAt, h.floor_eq hget hlo hhi]
  rfl

/-- A place that no entry has is not read. -/
theorem byteAt_eq_none {x : ℕ} (h : ¬ InRange buf.ranges x) : buf.byteAt x = none := by
  rw [byteAt]
  cases hf : buf.floor x with
  | none => rfl
  | some e =>
      obtain ⟨hget, hle, -⟩ := OrdMap.floor_spec hf
      refine List.getElem?_eq_none (not_lt.mp fun hlt => h (inRange_ranges.mpr ?_))
      exact ⟨e.1, e.2, hget, hle, by omega⟩

theorem Ok.isSome_byteAt (h : buf.Ok) {x : ℕ} :
    (buf.byteAt x).isSome = true ↔ InRange buf.ranges x := by
  constructor
  · intro hsome
    by_contra hout
    rw [byteAt_eq_none hout] at hsome
    cases hsome
  · intro hin
    obtain ⟨k, b, hget, hlo, hhi⟩ := inRange_ranges.mp hin
    rw [h.byteAt_eq hget hlo hhi, List.getElem?_eq_getElem (by omega)]
    rfl

-- ======================================================= taking a part out

section CutOut

variable (h : buf.Ok) (hget : buf.get k = some b) (hks : k ≤ s) (hse : s < e)
  (hek : e ≤ k + b.length)

include h hget hks hse hek

/-- A part is no longer there. -/
theorem not_inRange_cutOut {x : ℕ} (hlo : s ≤ x) (hhi : x < e) :
    ¬ InRange (buf.cutOut k b s e).ranges x := by
  rw [inRange_ranges]
  rintro ⟨k', b', hget', hlo', hhi'⟩
  rw [get_cutOut hks hse] at hget'
  split at hget'
  next hright => omega
  next =>
    split at hget'
    next hkk =>
      split at hget'
      next =>
        cases hget'
        rw [length_slice] at hhi'
        omega
      next => cases hget'
    next hne =>
      -- one place, two entries
      have h₁ := h.floor_eq hget (hks.trans hlo) (hhi.trans_le hek)
      rw [h.floor_eq hget' hlo' hhi'] at h₁
      exact hne (congrArg Prod.fst (Option.some.inj h₁))

/-- What is left of the map when a part is taken out of an entry. -/
theorem byteAt_cutOut (x : ℕ) :
    (buf.cutOut k b s e).byteAt x = if s ≤ x ∧ x < e then none else buf.byteAt x := by
  have hok := ok_cutOut h hget hks hse hek
  by_cases hpart : s ≤ x ∧ x < e
  · rw [if_pos hpart]
    exact byteAt_eq_none (not_inRange_cutOut h hget hks hse hek hpart.1 hpart.2)
  rw [if_neg hpart]
  by_cases hin : k ≤ x ∧ x < k + b.length
  · rw [h.byteAt_eq hget hin.1 hin.2]
    by_cases hleft : x < s
    · have hrow : (buf.cutOut k b s e).get k = some (slice b 0 (s - k)) := by
        rw [get_cutOut hks hse, if_neg (by omega), if_pos rfl, if_pos (by omega)]
      rw [hok.byteAt_eq hrow hin.1 (by rw [length_slice]; omega), slice, List.drop_zero,
        List.getElem?_take_of_lt (by omega)]
    · have hrow : (buf.cutOut k b s e).get e = some (b.drop (e - k)) := by
        rw [get_cutOut hks hse, if_pos ⟨rfl, by omega⟩]
      rw [hok.byteAt_eq hrow (by omega) (by rw [List.length_drop]; omega), List.getElem?_drop,
        show e - k + (x - e) = x - k by omega]
  · by_cases hother : InRange buf.ranges x
    · obtain ⟨k', b', hget', hlo', hhi'⟩ := inRange_ranges.mp hother
      have hkk : k' ≠ k := by
        rintro rfl
        rw [hget] at hget'
        cases hget'
        exact hin ⟨hlo', hhi'⟩
      have hrow : (buf.cutOut k b s e).get k' = some b' := by
        rw [get_cutOut hks hse, if_neg ?_, if_neg hkk, hget']
        rintro ⟨rfl, hlt⟩
        have := h.apart hget hget' (by omega)
        omega
      rw [hok.byteAt_eq hrow hlo' hhi', h.byteAt_eq hget' hlo' hhi']
    · rw [byteAt_eq_none hother]
      refine byteAt_eq_none fun hnew => hother ?_
      rw [inRange_ranges] at hnew ⊢
      obtain ⟨k', b', hget', hlo', hhi'⟩ := hnew
      rw [get_cutOut hks hse] at hget'
      split at hget'
      next hright =>
        cases hget'
        rw [List.length_drop] at hhi'
        exact absurd ⟨by omega, by omega⟩ hin
      next =>
        split at hget'
        next hkk =>
          split at hget'
          next =>
            cases hget'
            rw [length_slice] at hhi'
            exact absurd ⟨by omega, by omega⟩ hin
          next => cases hget'
        next => exact ⟨k', b', hget', hlo', hhi'⟩

end CutOut

-- ================================================================== a span

/-- The bytes of the entries of a span, and the map without them. -/
theorem extract_bytes {off end_ : ℕ} {keys : List ℕ} {cur : ℕ} (h : buf.Ok) (hoff : off ≤ cur)
    (hspan : Spanned buf off end_ cur keys) :
    (∀ i < end_ - cur, (extract off end_ keys buf).1.flatten[i]? = buf.byteAt (cur + i))
      ∧ ∀ x, (extract off end_ keys buf).2.byteAt x
        = if cur ≤ x ∧ x < end_ then none else buf.byteAt x := by
  induction keys generalizing buf cur with
  | nil =>
      have hle : end_ ≤ cur := hspan
      refine ⟨fun i hi => by omega, fun x => ?_⟩
      rw [if_neg (by omega)]
      rfl
  | cons k keys ih =>
      obtain ⟨hlt, b, hget, hmax, hgt, hrest⟩ := hspan
      have hks : k ≤ cur := hmax ▸ le_max_right _ _
      have hse : cur < min end_ (k + b.length) := lt_min hlt hgt
      have hek : min end_ (k + b.length) ≤ k + b.length := min_le_right _ _
      have hcut := byteAt_cutOut h hget hks hse hek
      have hrest' : Spanned (buf.cutOut k b cur (min end_ (k + b.length))) off end_
          (k + b.length) keys := by
        refine hrest.congr (fun k' hk' => ?_) (by omega)
        exact get_cutOut_of_outside hks hse hek (Or.inr hk')
      obtain ⟨hbytes, hleft⟩ := ih (ok_cutOut h hget hks hse hek) (by omega) hrest'
      have hout : extract off end_ (k :: keys) buf
          = (slice b (cur - k) (min end_ (k + b.length) - k)
              :: (extract off end_ keys (buf.cutOut k b cur (min end_ (k + b.length)))).1,
            (extract off end_ keys (buf.cutOut k b cur (min end_ (k + b.length)))).2) := by
        rw [extract]
        simp only [hget, Option.getD_some, hmax]
      have hlen : (slice b (cur - k) (min end_ (k + b.length) - k)).length
          = min end_ (k + b.length) - cur := by
        rw [length_slice]
        omega
      rw [hout]
      constructor
      · intro i hi
        rw [List.flatten_cons]
        by_cases hhere : i < min end_ (k + b.length) - cur
        · rw [List.getElem?_append_left (hlen ▸ hhere), slice, List.getElem?_drop,
            List.getElem?_take_of_lt (by omega), h.byteAt_eq hget (by omega) (by omega),
            show cur + i - k = cur - k + i by omega]
        · rw [List.getElem?_append_right (by omega), hlen, hbytes _ (by omega), hcut,
            if_neg (by omega),
            show k + b.length + (i - (min end_ (k + b.length) - cur)) = cur + i by omega]
      · intro x
        rw [hleft, hcut]
        split
        next hx => rw [if_pos (by omega)]
        next hx =>
          split
          next hx' => rw [if_pos (by omega)]
          next hx' => rw [if_neg (by omega)]

-- ================================================================ both exact

/-- What `take_span` should do. -/
structure SpanTaken (buf : Buffer) (off end_ : ℕ) (r : Option (List Bytes) × Buffer) : Prop where
  iff : r.1.isSome = true ↔ ∀ x, off ≤ x → x < end_ → (buf.byteAt x).isSome = true
  bytes : ∀ out, r.1 = some out → out.flatten.length = end_ - off
    ∧ ∀ i < end_ - off, out.flatten[i]? = buf.byteAt (off + i)
  rest : r.1.isSome = true →
    ∀ x, r.2.byteAt x = if off ≤ x ∧ x < end_ then none else buf.byteAt x
  unchanged : r.1 = none → r.2 = buf
  ok : r.2.Ok

/-- What `take_prefix` should do. -/
structure PrefixTaken (buf : Buffer) (pos max : ℕ) (r : Option Bytes × Buffer) : Prop where
  iff : r.1.isSome = true ↔ (buf.byteAt pos).isSome = true
  bytes : ∀ piece, r.1 = some piece → 0 < piece.length ∧ piece.length ≤ max
    ∧ (∀ i < piece.length, piece[i]? = buf.byteAt (pos + i))
    ∧ ∀ x, r.2.byteAt x = if pos ≤ x ∧ x < pos + piece.length then none else buf.byteAt x
  unchanged : r.1 = none → r.2 = buf
  ok : r.2.Ok

theorem spanTaken (h : buf.Ok) (off end_ : ℕ) :
    SpanTaken buf off end_ (buf.takeSpanMut off end_) := by
  have heq := takeSpan_eq buf off end_
  rw [takeSpanMut] at heq ⊢
  cases hcov : buf.coverage end_ (end_ - off) off with
  | none =>
      rw [hcov] at heq
      obtain ⟨x, hlo, hhi, hx, -⟩ := takeSpan_none h heq
      refine ⟨⟨nofun, fun hall => ?_⟩, nofun, nofun, fun _ => rfl, h⟩
      exact absurd (h.isSome_byteAt.mp (hall x hlo hhi)) hx
  | some keys =>
      rw [hcov] at heq
      obtain ⟨hlen, hok, hcover⟩ := takeSpan_some h heq
      have hspan : Spanned buf off end_ off keys :=
        spanned_of_coverage h (by omega) le_rfl (fun k b _ hle _ => max_eq_left hle) hcov
      obtain ⟨hbytes, hrest⟩ := extract_bytes h le_rfl hspan
      refine ⟨⟨fun _ x hlo hhi => ?_, fun _ => rfl⟩, ?_, fun _ => hrest, nofun, hok⟩
      · have hx := hbytes (x - off) (by omega)
        rw [Nat.add_sub_cancel' hlo] at hx
        rw [← hx, List.getElem?_eq_getElem (by rw [List.length_flatten, hlen]; omega)]
        rfl
      · intro out hout
        cases hout
        exact ⟨by rw [List.length_flatten, hlen], hbytes⟩

theorem prefixTaken (h : buf.Ok) (pos : ℕ) {max : ℕ} (hmax : 0 < max) :
    PrefixTaken buf pos max (buf.takePrefixMut pos max) := by
  have hnone : buf.takePrefix pos max = none → ¬ (buf.byteAt pos).isSome = true :=
    fun ht hsome => takePrefix_none h ht (h.isSome_byteAt.mp hsome)
  rw [takePrefix_eq] at hnone
  rw [takePrefixMut] at hnone ⊢
  cases hf : buf.floor pos with
  | none =>
      rw [hf] at hnone
      exact ⟨⟨nofun, fun hsome => absurd hsome (hnone rfl)⟩, nofun, fun _ => rfl, h⟩
  | some e =>
      obtain ⟨k, b⟩ := e
      obtain ⟨hget, hle, -⟩ := OrdMap.floor_spec hf
      rw [hf] at hnone
      simp only at hnone ⊢
      split
      next hend =>
        rw [if_pos hend] at hnone
        exact ⟨⟨nofun, fun hsome => absurd hsome (hnone rfl)⟩, nofun, fun _ => rfl, h⟩
      next hgt =>
        have hcut := byteAt_cutOut (s := pos) (e := pos + min (k + b.length - pos) max) h hget hle
          (by omega) (by omega)
        refine ⟨⟨fun _ => ?_, fun _ => rfl⟩, ?_, nofun,
          ok_cutOut h hget hle (by omega) (by omega)⟩
        · rw [h.isSome_byteAt, inRange_ranges]
          exact ⟨k, b, hget, hle, by omega⟩
        · intro piece hpiece
          cases hpiece
          have hlen : (slice b (pos - k) (pos - k + min (k + b.length - pos) max)).length
              = min (k + b.length - pos) max := by
            rw [length_slice]
            omega
          rw [hlen]
          refine ⟨by omega, by omega, fun i hi => ?_, hcut⟩
          rw [h.byteAt_eq hget (by omega) (by omega), slice, List.getElem?_drop,
            List.getElem?_take_of_lt (by omega), show pos + i - k = pos - k + i by omega]

/-- Out of a buffer in order, a span is taken exactly when every place of
it is there, and a piece exactly when its first place is; what is taken
is the map's bytes, what is left is the map without them, in order
again, and where nothing is taken nothing is changed. -/
theorem taken_exactly {buf : Buffer} (h : buf.Ok) :
    (∀ off end_, off ≤ end_ → SpanTaken buf off end_ (buf.takeSpanMut off end_))
      ∧ ∀ pos max, 0 < max → PrefixTaken buf pos max (buf.takePrefixMut pos max) :=
  ⟨fun off end_ _ => spanTaken h off end_, fun pos _ hmax => prefixTaken h pos hmax⟩

/-- Two chunks that meet, and one beyond a hole. -/
def ofChunks : Buffer :=
  ((OrdMap.put ∅ 2 [20, 21, 22]).put 5 [23, 24]).put 9 [25]

/-- A span across both, and one that the hole cuts short. -/
theorem taken_exactly_chunks :
    SpanTaken ofChunks 3 6 (some [[21, 22], [23]], (((OrdMap.put ∅ 2 [20]).put 6 [24]).put 9 [25]))
      ∧ SpanTaken ofChunks 6 10 (none, ofChunks)
      ∧ PrefixTaken ofChunks 3 1 (some [21],
          ((((OrdMap.put ∅ 2 [20]).put 4 [22]).put 5 [23, 24]).put 9 [25])) := by
  have hok : ofChunks.Ok := by
    have hrows : ∀ e ∈ ofChunks.entries, 0 < e.2.length
        ∧ ∀ e' ∈ ofChunks.entries, e.1 < e'.1 → e.1 + e.2.length ≤ e'.1 := by decide +kernel
    exact ⟨fun hget => (hrows _ (OrdMap.mem_entries.mpr hget)).1,
      fun hget hget' => (hrows _ (OrdMap.mem_entries.mpr hget)).2 _ (OrdMap.mem_entries.mpr hget')⟩
  obtain ⟨hspan, hprefix⟩ := taken_exactly hok
  have h₁ : ofChunks.takeSpanMut 3 6
      = (some [[21, 22], [23]], (((OrdMap.put ∅ 2 [20]).put 6 [24]).put 9 [25])) := by
    decide +kernel
  have h₂ : ofChunks.takeSpanMut 6 10 = (none, ofChunks) := by decide +kernel
  have h₃ : ofChunks.takePrefixMut 3 1 = (some [21],
      ((((OrdMap.put ∅ 2 [20]).put 4 [22]).put 5 [23, 24]).put 9 [25])) := by decide +kernel
  exact ⟨h₁ ▸ hspan 3 6 (by decide), h₂ ▸ hspan 6 10 (by decide), h₃ ▸ hprefix 3 1 (by decide)⟩

end Buffer

end Narshare
