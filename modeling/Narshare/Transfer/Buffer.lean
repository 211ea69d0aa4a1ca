/-
The fetched bytes that wait to be emitted: the map of fetch.rs from where
a chunk starts to its bytes, and the two ways it is taken from.

# Taking from it

Both `takePrefix` and `takeSpan` find the entry a place lies in as the
last one that starts at or before it, take it out, and put back what of
it lies outside the part they want (`cutOut`). That finds the right entry
only where entries have no overlap and none is empty (`Buffer.Ok`);
`cover_cutOut` then says that exactly the part is gone, place by place,
and both specifications are of that form.
-/
import Narshare.Lib.Cover
import Narshare.Lib.OrdMap
import Narshare.Lib.Slice
import Narshare.Proto

namespace Narshare

/-- `buffered`. -/
abbrev Buffer := OrdMap ℕ Bytes

namespace Buffer

/-- What `take_span` and `take_prefix` do to the entry `k ↦ b` of which
they want the bytes from `s` up to `e`. -/
def cutOut (buf : Buffer) (k : ℕ) (b : Bytes) (s e : ℕ) : Buffer :=
  let buf := buf.erase k
  let buf := if k < s then buf.put k (slice b 0 (s - k)) else buf
  if e < k + b.length then buf.put e (b.drop (e - k)) else buf

/-- `take_prefix`. -/
def takePrefix (buf : Buffer) (pos max : ℕ) : Option (Bytes × Buffer) :=
  match buf.floor pos with
  | none => none
  | some (k, b) =>
      if k + b.length ≤ pos then none
      else
        let take := min (k + b.length - pos) max
        some (slice b (pos - k) (pos - k + take), buf.cutOut k b pos (pos + take))

/-- `take_span`, the coverage check; at most `fuel` places are left, as
many as the span has. -/
def coverage (buf : Buffer) (end_ : ℕ) : ℕ → ℕ → Option (List ℕ)
  | 0, _ => some []
  | fuel + 1, cur =>
      if cur < end_ then
        match buf.floor cur with
        | none => none
        | some (k, b) =>
            if k + b.length ≤ cur then none
            else (coverage buf end_ fuel (k + b.length)).map fun keys => k :: keys
      else some []

/-- `take_span`, the loop over the entries that cover it. -/
def extract (off end_ : ℕ) : List ℕ → Buffer → List Bytes × Buffer
  | [], buf => ([], buf)
  | k :: keys, buf =>
      let b := (buf.get k).getD []
      let s := max off k
      let e := min end_ (k + b.length)
      let (out, buf) := extract off end_ keys (buf.cutOut k b s e)
      (slice b (s - k) (e - k) :: out, buf)

/-- `take_span`. -/
def takeSpan (buf : Buffer) (off end_ : ℕ) : Option (List Bytes × Buffer) :=
  (buf.coverage end_ (end_ - off) off).map fun keys => extract off end_ keys buf

/-- `run_transfer`, the loop that drops whatever the emitter has fully
passed. -/
def prune (buf : Buffer) (pos : ℕ) : Buffer :=
  ⟨buf.entries.dropWhile fun e => decide (e.1 + e.2.length ≤ pos),
    buf.sorted.sublist (List.dropWhile_sublist _)⟩

-- =========================================================== what is there

/-- The ranges that are buffered. -/
def ranges (buf : Buffer) : List (ℕ × ℕ) := buf.entries.map fun e => (e.1, e.2.length)

/-- No entry is empty, and none reaches into the next. -/
structure Ok (buf : Buffer) : Prop where
  pos : ∀ {k b}, buf.get k = some b → 0 < b.length
  apart : ∀ {k b k' b'}, buf.get k = some b → buf.get k' = some b' → k < k' →
    k + b.length ≤ k'

variable {buf buf' : Buffer} {k : ℕ} {b : Bytes}

theorem cover_ranges (buf : Buffer) (x : ℕ) :
    cover buf.ranges x = buf.sum fun k b => hits (k, b.length) x := by
  rw [cover, ranges, List.map_map]
  rfl

theorem inRange_ranges {x : ℕ} :
    InRange buf.ranges x ↔ ∃ k b, buf.get k = some b ∧ k ≤ x ∧ x < k + b.length := by
  constructor
  · rintro ⟨r, hr, hx⟩
    obtain ⟨⟨k, b⟩, hmem, rfl⟩ := List.mem_map.mp hr
    exact ⟨k, b, OrdMap.mem_entries.mp hmem, hx⟩
  · rintro ⟨k, b, hget, hx⟩
    exact ⟨(k, b.length), List.mem_map.mpr ⟨(k, b), OrdMap.mem_entries.mpr hget, rfl⟩, hx⟩

theorem ok_empty : Ok (∅ : Buffer) := ⟨nofun, nofun⟩

/-- Entries that count no place twice are in order. -/
theorem ok_of_cover (hpos : ∀ k b, buf.get k = some b → 0 < b.length)
    (h : ∀ x, cover buf.ranges x ≤ 1) : buf.Ok where
  pos hget := hpos _ _ hget
  apart := by
    intro k b k' b' hget hget' hlt
    have hpos' : ∀ r ∈ buf.ranges, 0 < r.2 := by
      intro r hr
      obtain ⟨⟨k, b⟩, hmem, rfl⟩ := List.mem_map.mp hr
      exact hpos k b (OrdMap.mem_entries.mp hmem)
    have hmem : ∀ {k b}, buf.get k = some b → (k, b.length) ∈ buf.ranges := fun hg =>
      List.mem_map.mpr ⟨_, OrdMap.mem_entries.mpr hg, rfl⟩
    have hne : (k, b.length) ≠ (k', b'.length) := fun heq =>
      absurd (congrArg Prod.fst heq) (Nat.ne_of_lt hlt)
    rcases apart_of_mem hpos' h (hmem hget) (hmem hget') hne with hap | hap
    · exact hap
    · simp only at hap
      omega

/-- The entry a place lies in is the last that starts no later. -/
theorem Ok.floor_eq (h : buf.Ok) {x : ℕ} (hget : buf.get k = some b) (hlo : k ≤ x)
    (hhi : x < k + b.length) : buf.floor x = some (k, b) := by
  cases hf : buf.floor x with
  | none => exact absurd (OrdMap.floor_eq_none.mp hf k b hget) (not_lt.mpr hlo)
  | some e =>
      obtain ⟨j, c⟩ := e
      obtain ⟨hj, hjx, hlast⟩ := OrdMap.floor_spec hf
      have hkj := hlast k b hget hlo
      rcases Nat.lt_or_eq_of_le hkj with hlt | heq
      · have := h.apart hget hj hlt
        omega
      · subst heq
        rw [hget] at hj
        cases hj
        rfl

/-- No entry reaches a place when the last that starts no later does
not. -/
theorem Ok.not_inRange (h : buf.Ok) {x : ℕ}
    (hf : ∀ k b, buf.floor x = some (k, b) → k + b.length ≤ x) : ¬ InRange buf.ranges x := by
  rw [inRange_ranges]
  rintro ⟨k, b, hget, hlo, hhi⟩
  have := hf k b (h.floor_eq hget hlo hhi)
  omega

-- ========================================================== taking a part out

variable {s e : ℕ}

/-- Every row of what is left. -/
theorem get_cutOut (hks : k ≤ s) (hse : s < e) (k' : ℕ) :
    (buf.cutOut k b s e).get k'
      = if k' = e ∧ e < k + b.length then some (b.drop (e - k))
        else if k' = k then (if k < s then some (slice b 0 (s - k)) else none)
        else buf.get k' := by
  have hek' : e ≠ k := by omega
  have hleft : (if k < s then (buf.erase k).put k (slice b 0 (s - k)) else buf.erase k).get k'
      = if k' = k then (if k < s then some (slice b 0 (s - k)) else none) else buf.get k' := by
    by_cases hlt : k < s
    · rw [if_pos hlt, if_pos hlt, OrdMap.get_put, OrdMap.get_erase]
      split
      · rfl
      · rfl
    · rw [if_neg hlt, if_neg hlt, OrdMap.get_erase]
  unfold cutOut
  simp only
  by_cases hright : e < k + b.length
  · rw [if_pos hright, OrdMap.get_put, hleft]
    by_cases hke : k' = e
    · rw [if_pos hke, if_pos ⟨hke, hright⟩]
    · rw [if_neg hke, if_neg (not_and_of_not_left _ hke)]
  · rw [if_neg hright, hleft, if_neg (not_and_of_not_right _ hright)]

/-- Rows that start outside the entry stay. -/
theorem get_cutOut_of_outside (hks : k ≤ s) (hse : s < e) (hek : e ≤ k + b.length) {k' : ℕ}
    (hout : k' < k ∨ k + b.length ≤ k') : (buf.cutOut k b s e).get k' = buf.get k' := by
  rw [get_cutOut hks hse, if_neg (by omega), if_neg (by omega)]

section CutOut

variable (h : buf.Ok) (hget : buf.get k = some b) (hks : k ≤ s) (hse : s < e)
  (hek : e ≤ k + b.length)

include h hget hks hse hek

theorem ok_cutOut : (buf.cutOut k b s e).Ok := by
  have hrow : ∀ {k' b'}, (buf.cutOut k b s e).get k' = some b' →
      (k' = e ∧ 0 < b'.length ∧ k' + b'.length = k + b.length)
        ∨ (k' = k ∧ 0 < b'.length ∧ k' + b'.length = s)
        ∨ (k' ≠ k ∧ buf.get k' = some b') := by
    intro k' b' hget'
    rw [get_cutOut hks hse] at hget'
    split at hget'
    next hke =>
      cases hget'
      left
      rw [List.length_drop]
      omega
    next =>
      split at hget'
      next hkk =>
        split at hget'
        next hlt =>
          cases hget'
          right
          left
          rw [length_slice]
          omega
        next => cases hget'
      next hne => exact Or.inr (Or.inr ⟨hne, hget'⟩)
  have hpos := h.pos hget
  constructor
  · intro k' b' hget'
    rcases hrow hget' with ⟨-, hp, -⟩ | ⟨-, hp, -⟩ | ⟨-, hold⟩
    · exact hp
    · exact hp
    · exact h.pos hold
  · intro k₁ b₁ k₂ b₂ h₁ h₂ hlt
    rcases hrow h₁ with ⟨he₁, hp₁, hl₁⟩ | ⟨he₁, hp₁, hl₁⟩ | ⟨hn₁, ho₁⟩
    · rcases hrow h₂ with ⟨he₂, -, -⟩ | ⟨he₂, -, -⟩ | ⟨hn₂, ho₂⟩
      · omega
      · omega
      · have := h.apart hget ho₂ (by omega)
        omega
    · rcases hrow h₂ with ⟨he₂, -, -⟩ | ⟨he₂, -, -⟩ | ⟨hn₂, ho₂⟩
      · omega
      · omega
      · have := h.apart hget ho₂ (by omega)
        omega
    · have hb₁ := h.pos ho₁
      rcases Nat.lt_or_gt_of_ne hn₁ with hlt₁ | hgt₁
      · have := h.apart ho₁ hget hlt₁
        rcases hrow h₂ with ⟨he₂, -, -⟩ | ⟨he₂, -, -⟩ | ⟨hn₂, ho₂⟩
        · omega
        · omega
        · exact h.apart ho₁ ho₂ hlt
      · have := h.apart hget ho₁ hgt₁
        rcases hrow h₂ with ⟨he₂, -, -⟩ | ⟨he₂, -, -⟩ | ⟨hn₂, ho₂⟩
        · omega
        · omega
        · exact h.apart ho₁ ho₂ hlt

/-- Exactly the part is gone. -/
theorem cover_cutOut (x : ℕ) :
    cover buf.ranges x = cover (buf.cutOut k b s e).ranges x + hits (s, e - s) x := by
  have hcut : hits (k, b.length) x
      = hits (k, s - k) x + hits (s, e - s) x + hits (e, k + b.length - e) x := by
    rw [show b.length = (s - k) + ((e - s) + (k + b.length - e)) by omega, hits_split,
      hits_split, show k + (s - k) = s by omega, show s + (e - s) = e by omega]
    rw [show k + (s - k + (e - s + (k + b.length - e))) - e = k + b.length - e by omega]
    omega
  let f : ℕ → Bytes → ℕ := fun k b => hits (k, b.length) x
  have herase : (buf.erase k).sum f + hits (k, b.length) x = buf.sum f := by
    have := buf.sum_set f k none
    rwa [hget] at this
  -- what is put back to the left
  have hleft : ∀ m : Buffer, m.get k = none →
      (if k < s then m.put k (slice b 0 (s - k)) else m).sum f
        = m.sum f + hits (k, s - k) x := by
    intro m hm
    split
    next hlt =>
      have := m.sum_set f k (some (slice b 0 (s - k)))
      rw [hm] at this
      simp only [Option.elim_none, Option.elim_some, Nat.add_zero] at this
      rw [OrdMap.put, this]
      show _ + hits (k, (slice b 0 (s - k)).length) x = _
      rw [length_slice, show min (s - k) b.length - 0 = s - k by omega]
    next hge => rw [show s - k = 0 by omega, hits_empty, Nat.add_zero]
  -- and to the right
  have hright : ∀ m : Buffer, m.get e = none →
      (if e < k + b.length then m.put e (b.drop (e - k)) else m).sum f
        = m.sum f + hits (e, k + b.length - e) x := by
    intro m hm
    split
    next hlt =>
      have := m.sum_set f e (some (b.drop (e - k)))
      rw [hm] at this
      simp only [Option.elim_none, Option.elim_some, Nat.add_zero] at this
      rw [OrdMap.put, this]
      show _ + hits (e, (b.drop (e - k)).length) x = _
      rw [List.length_drop, show b.length - (e - k) = k + b.length - e by omega]
    next hge => rw [show k + b.length - e = 0 by omega, hits_empty, Nat.add_zero]
  have hek' : e ≠ k := by omega
  rw [cover_ranges, cover_ranges]
  unfold cutOut
  simp only
  by_cases hlt : e < k + b.length
  · have hnone : buf.get e = none := by
      cases hc : buf.get e with
      | none => rfl
      | some c =>
          have := h.apart hget hc (by omega)
          omega
    rw [hright, hleft, ← herase, hcut]
    · omega
    · rw [OrdMap.get_erase, if_pos rfl]
    · split
      · rw [OrdMap.get_put, if_neg hek', OrdMap.get_erase, if_neg hek', hnone]
      · rw [OrdMap.get_erase, if_neg hek', hnone]
  · rw [if_neg hlt, hleft, ← herase, hcut, show k + b.length - e = 0 by omega, hits_empty]
    · omega
    · rw [OrdMap.get_erase, if_pos rfl]

end CutOut

/-- Nothing is taken where nothing is buffered. -/
theorem takePrefix_none (h : buf.Ok) {pos max : ℕ} (ht : buf.takePrefix pos max = none) :
    ¬ InRange buf.ranges pos := by
  refine h.not_inRange fun k b hf => ?_
  rw [takePrefix, hf] at ht
  simp only at ht
  split at ht
  next hle => exact hle
  next => cases ht

/-- What is taken starts at `pos` and is gone. -/
theorem takePrefix_some (h : buf.Ok) {pos max : ℕ} (hmax : 0 < max) {piece : Bytes}
    (ht : buf.takePrefix pos max = some (piece, buf')) :
    0 < piece.length ∧ piece.length ≤ max ∧ buf'.Ok
      ∧ ∀ x, cover buf.ranges x = cover buf'.ranges x + hits (pos, piece.length) x := by
  rw [takePrefix] at ht
  split at ht
  next => cases ht
  next k b hf =>
    obtain ⟨hget, hle, -⟩ := OrdMap.floor_spec hf
    split at ht
    next => cases ht
    next hgt =>
      simp only [Option.some.injEq, Prod.mk.injEq] at ht
      obtain ⟨rfl, rfl⟩ := ht
      have hlen : (slice b (pos - k) (pos - k + min (k + b.length - pos) max)).length
          = min (k + b.length - pos) max := by
        rw [length_slice]
        omega
      have hcover := cover_cutOut (s := pos) (e := pos + min (k + b.length - pos) max) h hget hle
        (by omega) (by omega)
      refine ⟨by omega, by omega, ok_cutOut h hget hle (by omega) (by omega), fun x => ?_⟩
      rw [hlen, hcover x, Nat.add_sub_cancel_left]

/-- Entries that meet from `cur` on, up to `end_`. -/
def Spanned (buf : Buffer) (off end_ : ℕ) : ℕ → List ℕ → Prop
  | cur, [] => end_ ≤ cur
  | cur, k :: keys => cur < end_ ∧ ∃ b, buf.get k = some b ∧ max off k = cur
      ∧ cur < k + b.length ∧ Spanned buf off end_ (k + b.length) keys

/-- A covered span is covered by entries that meet. -/
theorem spanned_of_coverage (h : buf.Ok) {off end_ : ℕ} :
    ∀ {fuel cur keys}, end_ ≤ cur + fuel → off ≤ cur →
      (∀ k b, buf.get k = some b → k ≤ cur → cur < k + b.length → max off k = cur) →
      buf.coverage end_ fuel cur = some keys → Spanned buf off end_ cur keys := by
  intro fuel
  induction fuel with
  | zero =>
      intro cur keys hfuel _ _ hcov
      cases hcov
      exact hfuel
  | succ fuel ih =>
      intro cur keys hfuel hoff hstart hcov
      rw [coverage] at hcov
      split at hcov
      next hlt =>
        split at hcov
        next => cases hcov
        next k b hf =>
          obtain ⟨hget, hle, -⟩ := OrdMap.floor_spec hf
          split at hcov
          next => cases hcov
          next hgt =>
            obtain ⟨rest, hrest, rfl⟩ := Option.map_eq_some_iff.mp hcov
            have hgt := not_le.mp hgt
            refine ⟨hlt, b, hget, hstart k b hget hle hgt, hgt, ?_⟩
            refine ih (by omega) (by omega) ?_ hrest
            -- an entry that reaches past this one's end starts there
            intro k' b' hget' hle' hgt'
            rcases Nat.lt_trichotomy k k' with hlt' | rfl | hlt'
            · have := h.apart hget hget' hlt'
              omega
            · rw [hget] at hget'
              cases hget'
              omega
            · have := h.apart hget' hget hlt'
              omega
      next hge =>
        cases hcov
        exact not_lt.mp hge

/-- An uncovered one has a first place that is missing. -/
theorem missing_of_coverage (h : buf.Ok) {end_ : ℕ} :
    ∀ {fuel cur}, buf.coverage end_ fuel cur = none →
      ∃ x, cur ≤ x ∧ x < end_ ∧ ¬ InRange buf.ranges x
        ∧ ∀ y, cur ≤ y → y < x → InRange buf.ranges y := by
  intro fuel
  induction fuel with
  | zero =>
      intro cur hcov
      cases hcov
  | succ fuel ih =>
      intro cur hcov
      rw [coverage] at hcov
      split at hcov
      next hlt =>
        have hhere : (∀ k b, buf.floor cur = some (k, b) → k + b.length ≤ cur) →
            ∃ x, cur ≤ x ∧ x < end_ ∧ ¬ InRange buf.ranges x
              ∧ ∀ y, cur ≤ y → y < x → InRange buf.ranges y := fun hf =>
          ⟨cur, le_rfl, hlt, h.not_inRange hf, fun y hlo hhi => absurd hlo (not_le.mpr hhi)⟩
        split at hcov
        next hf => exact hhere fun k b hf' => by rw [hf] at hf'; cases hf'
        next k b hf =>
          split at hcov
          next hle =>
            refine hhere fun k' b' hf' => ?_
            rw [hf] at hf'
            cases hf'
            exact hle
          next hgt =>
            obtain ⟨hget, hle, -⟩ := OrdMap.floor_spec hf
            obtain ⟨x, hlo, hhi, hx, hall⟩ := ih (Option.map_eq_none_iff.mp hcov)
            refine ⟨x, by omega, hhi, hx, fun y hy hyx => ?_⟩
            rcases Nat.lt_or_ge y (k + b.length) with hin | hout
            · exact inRange_ranges.mpr ⟨k, b, hget, by omega, hin⟩
            · exact hall y hout hyx
      next => cases hcov

/-- Entries from a place on are all that matters from there on. -/
theorem Spanned.congr {off end_ : ℕ} {keys : List ℕ} {cur : ℕ}
    (hsame : ∀ k, cur ≤ k → buf'.get k = buf.get k) (hoff : off < cur)
    (h : Spanned buf off end_ cur keys) : Spanned buf' off end_ cur keys := by
  induction keys generalizing cur with
  | nil => exact h
  | cons k keys ih =>
      obtain ⟨hlt, b, hget, hmax, hgt, hrest⟩ := h
      have hk : k = cur := by omega
      subst hk
      exact ⟨hlt, b, by rwa [hsame k le_rfl], hmax, hgt,
        ih (fun k' hk' => hsame k' (by omega)) (by omega) hrest⟩

/-- The entries of a span are taken out of it, whole, end to end. -/
theorem extract_spanned {off end_ : ℕ} {keys : List ℕ} {cur : ℕ} (h : buf.Ok)
    (hoff : off ≤ cur) (hspan : Spanned buf off end_ cur keys) :
    let out := extract off end_ keys buf
    (out.1.map List.length).sum = end_ - cur ∧ out.2.Ok
      ∧ ∀ x, cover buf.ranges x = cover out.2.ranges x + hits (cur, end_ - cur) x := by
  induction keys generalizing buf cur with
  | nil =>
      have hle : end_ - cur = 0 := Nat.sub_eq_zero_of_le hspan
      refine ⟨?_, h, fun x => ?_⟩
      · rw [hle]
        rfl
      · rw [hle, hits_empty, Nat.add_zero]
        rfl
  | cons k keys ih =>
      obtain ⟨hlt, b, hget, hmax, hgt, hrest⟩ := hspan
      have hks : k ≤ cur := hmax ▸ le_max_right _ _
      have hse : cur < min end_ (k + b.length) := lt_min hlt hgt
      have hek : min end_ (k + b.length) ≤ k + b.length := min_le_right _ _
      have hok := ok_cutOut h hget hks hse hek
      have hcover := cover_cutOut h hget hks hse hek
      have hrest' : Spanned (buf.cutOut k b cur (min end_ (k + b.length))) off end_
          (k + b.length) keys := by
        refine hrest.congr (fun k' hk' => ?_) (by omega)
        exact get_cutOut_of_outside hks hse hek (Or.inr hk')
      obtain ⟨hlen, hokr, hcovr⟩ := ih hok (by omega) hrest'
      intro out
      have hout : out = (slice b (cur - k) (min end_ (k + b.length) - k)
            :: (extract off end_ keys (buf.cutOut k b cur (min end_ (k + b.length)))).1,
          (extract off end_ keys (buf.cutOut k b cur (min end_ (k + b.length)))).2) := by
        show extract off end_ (k :: keys) buf = _
        rw [extract]
        simp only [hget, Option.getD_some, hmax]
      rw [hout]
      simp only
      refine ⟨?_, hokr, fun x => ?_⟩
      · rw [List.map_cons, List.sum_cons, hlen, length_slice]
        omega
      · rw [hcover x, hcovr x, show end_ - cur = (min end_ (k + b.length) - cur)
          + (end_ - (k + b.length)) by omega, hits_split]
        have hjoin : hits (cur + (min end_ (k + b.length) - cur), end_ - (k + b.length)) x
            = hits (k + b.length, end_ - (k + b.length)) x := by
          rcases le_total end_ (k + b.length) with hle | hle
          · rw [Nat.sub_eq_zero_of_le hle, hits_empty, hits_empty]
          · rw [min_eq_right hle, Nat.add_sub_cancel' (hgt.le)]
        omega

/-- A span that cannot be taken whole misses a first place. -/
theorem takeSpan_none (h : buf.Ok) {off end_ : ℕ} (ht : buf.takeSpan off end_ = none) :
    ∃ x, off ≤ x ∧ x < end_ ∧ ¬ InRange buf.ranges x
      ∧ ∀ y, off ≤ y → y < x → InRange buf.ranges y :=
  missing_of_coverage h (Option.map_eq_none_iff.mp ht)

/-- One that is taken has its whole length, and is gone. -/
theorem takeSpan_some (h : buf.Ok) {off end_ : ℕ} {out : List Bytes}
    (ht : buf.takeSpan off end_ = some (out, buf')) :
    (out.map List.length).sum = end_ - off ∧ buf'.Ok
      ∧ ∀ x, cover buf.ranges x = cover buf'.ranges x + hits (off, end_ - off) x := by
  obtain ⟨keys, hkeys, heq⟩ := Option.map_eq_some_iff.mp ht
  have hspan : Spanned buf off end_ off keys := by
    refine spanned_of_coverage h (by omega) le_rfl (fun k b _ hle _ => ?_) hkeys
    exact max_eq_left hle
  have := extract_spanned h le_rfl hspan
  rw [heq] at this
  exact this

-- ========================================================= putting and pruning

/-- Entries are in order. -/
theorem Ok.ordered (h : buf.Ok) : buf.ranges.Pairwise fun r r' => r.1 + r.2 ≤ r'.1 := by
  rw [ranges, List.pairwise_map]
  refine buf.sorted.imp_of_mem fun {e e'} he he' hlt => ?_
  exact h.apart (OrdMap.mem_entries.mp he) (OrdMap.mem_entries.mp he') hlt

/-- A chunk none of which was there goes in whole. -/
theorem put_spec (h : buf.Ok) (hb : 0 < b.length)
    (hfree : ∀ x, k ≤ x → x < k + b.length → cover buf.ranges x = 0) :
    Ok (buf.put k b)
      ∧ ∀ x, cover (Buffer.ranges (buf.put k b)) x = cover buf.ranges x + hits (k, b.length) x := by
  have hnone : buf.get k = none := by
    cases hget : buf.get k with
    | none => rfl
    | some b₀ =>
        have hin : InRange buf.ranges k :=
          inRange_ranges.mpr ⟨k, b₀, hget, le_rfl, Nat.lt_add_of_pos_right (h.pos hget)⟩
        have hzero := hfree k le_rfl (Nat.lt_add_of_pos_right hb)
        exact absurd hin (cover_eq_zero.mp hzero)
  have hcover : ∀ x, cover (Buffer.ranges (buf.put k b)) x
      = cover buf.ranges x + hits (k, b.length) x := by
    intro x
    rw [cover_ranges, cover_ranges]
    exact OrdMap.sum_put_of_none _ hnone b
  refine ⟨ok_of_cover (fun k' b' hget => ?_) fun x => ?_, hcover⟩
  · rw [OrdMap.get_put] at hget
    split at hget
    next =>
      cases hget
      exact hb
    next => exact h.pos hget
  · rw [hcover]
    by_cases hx : hits (k, b.length) x = 0
    · rw [hx]
      exact cover_le_one h.ordered x
    · have hone := hits_le_one (k, b.length) x
      obtain ⟨hlo, hhi⟩ := hits_eq_one.mp (show hits (k, b.length) x = 1 by omega)
      rw [hfree x hlo hhi, Nat.zero_add]
      exact hone

/-- Pruning takes only what lies behind. -/
theorem prune_spec (h : buf.Ok) (pos : ℕ) :
    (buf.prune pos).Ok ∧ (∀ x, cover (buf.prune pos).ranges x ≤ cover buf.ranges x)
      ∧ ∀ x, pos ≤ x → cover (buf.prune pos).ranges x = cover buf.ranges x := by
  have hget : ∀ {k b}, (buf.prune pos).get k = some b → buf.get k = some b := fun hg =>
    OrdMap.mem_entries.mp ((List.dropWhile_sublist _).subset (OrdMap.mem_entries.mpr hg))
  have hcut : buf.ranges = (buf.entries.takeWhile fun e => decide (e.1 + e.2.length ≤ pos)).map
      (fun e => (e.1, e.2.length)) ++ (buf.prune pos).ranges := by
    rw [ranges, ranges, prune, ← List.map_append, List.takeWhile_append_dropWhile]
  refine ⟨⟨fun hg => h.pos (hget hg), fun hg hg' => h.apart (hget hg) (hget hg')⟩, fun x => ?_,
    fun x hx => ?_⟩
  · rw [hcut, cover_append]
    exact Nat.le_add_left _ _
  · symm
    rw [hcut, cover_append, Nat.add_eq_right, cover_eq_zero]
    rintro ⟨r, hr, -, hlt⟩
    obtain ⟨e, he, rfl⟩ := List.mem_map.mp hr
    have hle := List.mem_takeWhile_imp he
    simp only [decide_eq_true_eq] at hle hlt
    omega

end Buffer

end Narshare
