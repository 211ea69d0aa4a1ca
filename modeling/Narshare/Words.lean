/-
Lines and words: what a line protocol keeps of the texts put into it.

`Bytes.lines` and `Bytes.splitWhitespace` cut a text up; here is what
comes back when the pieces were put together by `line` and by single
blanks. A line keeps a text without line feeds but for a carriage return
at its end (`lines_cons`, `stripCr`). A list of words is kept when each
is one word by itself (`splitWhitespace_joined`), and only then, for
what is cut out always is (`splitWhitespace_mem`).

White space is more than one byte long in places, so `Plain` speaks of
every place in a text at once. No such place begins in one text and ends
in the next when there is a blank between them (`whitespaceLen_blank`),
which carries the induction over the joined words.
-/
import Narshare.Text

namespace Narshare

namespace Bytes

-- ================================================================== lines

/-- A line without the carriage return before its line feed. -/
def stripCr (line : Bytes) : Bytes :=
  if line.getLast? = some 0x0D then line.dropLast else line

/-- The loop of `str::lines`, with what has been read of a line; the last
line may lack its line feed, and then keeps its carriage return. -/
def linesGo (line : Bytes) : Bytes → List Bytes
  | [] => if line = [] then [] else [line]
  | c :: rest => if c = 0x0A then stripCr line :: linesGo [] rest else linesGo (line ++ [c]) rest

/-- `str::lines`. -/
def lines (s : Bytes) : List Bytes := linesGo [] s

example : lines (ascii "a\r\n\nb") = [ascii "a", [], ascii "b"] := by decide +kernel

theorem linesGo_append {l : Bytes} (line rest : Bytes) (h : (0x0A : UInt8) ∉ l) :
    linesGo line (l ++ 0x0A :: rest) = stripCr (line ++ l) :: linesGo [] rest := by
  induction l generalizing line with
  | nil =>
      rw [List.nil_append, linesGo, if_pos rfl, List.append_nil]
  | cons c l ih =>
      have hc : c ≠ 0x0A := fun he => h (he ▸ List.mem_cons_self)
      rw [List.cons_append, linesGo, if_neg hc, ih _ fun hm => h (List.mem_cons_of_mem _ hm),
        List.append_assoc, List.singleton_append]

/-- A text ended by a line feed is one line. -/
theorem lines_cons {l : Bytes} (rest : Bytes) (h : (0x0A : UInt8) ∉ l) :
    lines (l ++ 0x0A :: rest) = stripCr l :: lines rest :=
  linesGo_append [] rest h

theorem stripCr_subset {l : Bytes} : ∀ c ∈ stripCr l, c ∈ l := by
  intro c hc
  unfold stripCr at hc
  split at hc
  · exact List.mem_of_mem_dropLast hc
  · exact hc

/-- No line has a line feed. -/
theorem lineFeed_notMem_lines {s l : Bytes} (h : l ∈ lines s) : (0x0A : UInt8) ∉ l := by
  have key : ∀ (s line : Bytes), (0x0A : UInt8) ∉ line →
      ∀ l ∈ linesGo line s, (0x0A : UInt8) ∉ l := by
    intro s
    induction s with
    | nil =>
        intro line hline l hl
        rw [linesGo] at hl
        split at hl
        · cases hl
        · rwa [List.mem_singleton.mp hl]
    | cons c s ih =>
        intro line hline l hl
        rw [linesGo] at hl
        split at hl
        · rcases List.mem_cons.mp hl with rfl | hl
          · exact fun hm => hline (stripCr_subset _ hm)
          · exact ih [] List.not_mem_nil l hl
        next hc =>
          refine ih (line ++ [c]) (fun hm => ?_) l hl
          rcases List.mem_append.mp hm with hm | hm
          · exact hline hm
          · exact hc (List.mem_singleton.mp hm).symm
  exact key s [] List.not_mem_nil l h

/-- A carriage return is only ever taken from the end. -/
theorem stripCr_append (k v : Bytes) (hk : k.getLast? ≠ some 0x0D) :
    stripCr (k ++ v) = k ++ stripCr v := by
  unfold stripCr
  rw [List.getLast?_append]
  cases hv : v.getLast? with
  | none =>
      rw [List.getLast?_eq_none_iff.mp hv, Option.none_or, if_neg hk, if_neg (by simp)]
  | some c =>
      rw [Option.some_or]
      split
      · rw [List.dropLast_append_of_ne_nil]
        rintro rfl
        cases hv
      · rfl

/-- Does a text stay as it is on a line? -/
def LineSafe (s : Bytes) : Prop := (0x0A : UInt8) ∉ s ∧ s.getLast? ≠ some 0x0D

instance (s : Bytes) : Decidable (LineSafe s) := by
  unfold LineSafe
  infer_instance

theorem LineSafe.of_forall {s : Bytes} (h : ∀ c ∈ s, c ≠ 0x0A ∧ c ≠ 0x0D) : LineSafe s :=
  ⟨fun hm => (h _ hm).1 rfl, fun hl => (h _ (List.mem_of_getLast? hl)).2 rfl⟩

theorem stripCr_eq_self_iff {s : Bytes} : stripCr s = s ↔ s.getLast? ≠ some 0x0D := by
  unfold stripCr
  split
  next h =>
    refine iff_of_false (fun he => ?_) (not_not.mpr h)
    have hlen := congrArg List.length he
    rw [List.length_dropLast] at hlen
    have hpos : 0 < s.length := List.length_pos_iff.mpr (by rintro rfl; cases h)
    omega
  next h => exact iff_of_true rfl h

-- ================================================================== words

/-- No white space anywhere. -/
def Plain (s : Bytes) : Prop := ∀ t, t ≠ [] → t <:+ s → whitespaceLen t = 0

theorem Plain.tail {c : UInt8} {s : Bytes} (h : Plain (c :: s)) : Plain s :=
  fun t ht hs => h t ht (hs.trans (List.suffix_cons c s))

theorem whitespaceLen_eq_zero_iff {s : Bytes} :
    whitespaceLen s = 0 ↔ ∀ c ∈ whitespaceChars, ¬ c <+: s := by
  unfold whitespaceLen
  have hpos : ∀ c ∈ whitespaceChars, 0 < c.length := by decide +kernel
  cases hfind : whitespaceChars.find? fun c => c.isPrefixOf s with
  | none =>
      refine iff_of_true rfl fun c hc hp => ?_
      exact List.find?_eq_none.mp hfind c hc (List.isPrefixOf_iff_prefix.mpr hp)
  | some c =>
      have hmem := List.mem_of_find?_eq_some hfind
      have hp := List.isPrefixOf_iff_prefix.mp
        (List.find?_some (p := fun c : Bytes => c.isPrefixOf s) hfind)
      refine iff_of_false ?_ fun hall => hall c hmem hp
      have := hpos c hmem
      rw [Option.map_some, Option.getD_some]
      omega

/-- White space in a text is white space in every longer one. -/
theorem whitespaceLen_of_append {s t : Bytes} (h : whitespaceLen (s ++ t) = 0) :
    whitespaceLen s = 0 := by
  rw [whitespaceLen_eq_zero_iff] at h ⊢
  exact fun c hc hp => h c hc (hp.trans (List.prefix_append s t))

/-- None begins before a blank and ends in it. -/
theorem whitespaceLen_blank {s : Bytes} (hs : s ≠ []) (h : whitespaceLen s = 0) (rest : Bytes) :
    whitespaceLen (s ++ 0x20 :: rest) = 0 := by
  have hchars : ∀ c ∈ whitespaceChars, (0x20 : UInt8) ∈ c → c = [0x20] := by decide +kernel
  rw [whitespaceLen_eq_zero_iff] at h ⊢
  intro c hc hp
  rcases List.prefix_or_prefix_of_prefix hp (List.prefix_append s _) with hps | ⟨t, rfl⟩
  · exact h c hc hps
  · cases t with
    | nil => exact h _ hc (by rw [List.append_nil])
    | cons b t =>
        obtain ⟨rfl, -⟩ := List.cons_prefix_cons.mp ((List.prefix_append_right_inj s).mp hp)
        have := congrArg List.length
          (hchars _ hc (List.mem_append_right _ List.mem_cons_self))
        rw [List.length_append, List.length_cons, List.length_singleton] at this
        exact hs (List.length_eq_zero_iff.mp (by omega))

/-- Text that has no white space joins the word being read. -/
theorem splitWhitespaceGo_plain {r : Bytes} (hr : Plain r) (word rest : Bytes) :
    splitWhitespaceGo 0 word (r ++ 0x20 :: rest)
      = splitWhitespaceGo 0 (word ++ r) (0x20 :: rest) := by
  induction r generalizing word with
  | nil => rw [List.nil_append, List.append_nil]
  | cons b r ih =>
      have hb := whitespaceLen_blank (List.cons_ne_nil b r)
        (hr (b :: r) (List.cons_ne_nil b r) List.suffix_rfl) rest
      rw [List.cons_append] at hb ⊢
      rw [splitWhitespaceGo, hb]
      simp only
      rw [ih hr.tail, List.append_assoc, List.singleton_append]

theorem splitWhitespaceGo_end {r : Bytes} (hr : Plain r) (word : Bytes) (hne : word ++ r ≠ []) :
    splitWhitespaceGo 0 word r = [word ++ r] := by
  induction r generalizing word with
  | nil =>
      rw [List.append_nil] at hne ⊢
      rw [splitWhitespaceGo, if_neg hne]
  | cons b r ih =>
      rw [splitWhitespaceGo, hr (b :: r) (List.cons_ne_nil b r) List.suffix_rfl]
      simp only
      rw [ih hr.tail _ (by simp), List.append_assoc, List.singleton_append]

/-- A text that is one word. -/
def Word (r : Bytes) : Prop := r ≠ [] ∧ Plain r

theorem Word.lineSafe {r : Bytes} (h : Word r) : ∀ c ∈ r, c ≠ 0x0A ∧ c ≠ 0x0D := by
  intro c hc
  obtain ⟨s, t, rfl⟩ := List.append_of_mem hc
  have hzero := h.2 (c :: t) (List.cons_ne_nil c t) (List.suffix_append s (c :: t))
  rw [whitespaceLen_eq_zero_iff] at hzero
  constructor
  · rintro rfl
    exact hzero [0x0A] (by decide +kernel) (List.cons_prefix_cons.mpr ⟨rfl, List.nil_prefix⟩)
  · rintro rfl
    exact hzero [0x0D] (by decide +kernel) (List.cons_prefix_cons.mpr ⟨rfl, List.nil_prefix⟩)

/-- Words joined by blanks are read back. -/
theorem splitWhitespace_joined {rs : List Bytes} (h : ∀ r ∈ rs, Word r) :
    splitWhitespace ((rs.intersperse (ascii " ")).flatten) = rs := by
  unfold splitWhitespace
  induction rs with
  | nil => rfl
  | cons r rs ih =>
      obtain ⟨hne, hplain⟩ := h r List.mem_cons_self
      cases rs with
      | nil =>
          show splitWhitespaceGo 0 [] (r ++ []) = [r]
          rw [List.append_nil, splitWhitespaceGo_end hplain [] hne, List.nil_append]
      | cons t rs =>
          have hjoin : ((r :: t :: rs).intersperse (ascii " ")).flatten
              = r ++ 0x20 :: ((t :: rs).intersperse (ascii " ")).flatten := rfl
          have hblank : ∀ rest : Bytes, whitespaceLen (0x20 :: rest) = 1 := by
            intro rest
            rfl
          rw [hjoin, splitWhitespaceGo_plain hplain, List.nil_append, splitWhitespaceGo, hblank]
          simp only
          rw [if_neg hne, ih fun x hx => h x (List.mem_cons_of_mem _ hx), List.singleton_append]

/-- What is in joined texts is in one of them, or between. -/
theorem mem_joined {sep : Bytes} {rs : List Bytes} {c : UInt8}
    (h : c ∈ (rs.intersperse sep).flatten) : c ∈ sep ∨ ∃ r ∈ rs, c ∈ r := by
  induction rs with
  | nil => cases h
  | cons r rs ih =>
      have hhere : c ∈ r → c ∈ sep ∨ ∃ x ∈ r :: rs, c ∈ x := fun hr =>
        Or.inr ⟨r, List.mem_cons_self, hr⟩
      cases rs with
      | nil =>
          rw [List.intersperse_singleton, List.flatten_singleton] at h
          exact hhere h
      | cons t rs =>
          rw [List.intersperse_cons_cons, List.flatten_cons, List.flatten_cons] at h
          rcases List.mem_append.mp h with hr | h
          · exact hhere hr
          rcases List.mem_append.mp h with hsep | h
          · exact Or.inl hsep
          · refine (ih h).imp id ?_
            rintro ⟨x, hx, hc⟩
            exact ⟨x, List.mem_cons_of_mem _ hx, hc⟩

/-- What is cut out is words. -/
theorem splitWhitespace_mem {s w : Bytes} (h : w ∈ splitWhitespace s) : Word w := by
  -- no white space begins in the word being read
  have key : ∀ (s : Bytes) (skip : ℕ) (word : Bytes),
      (∀ t, t ≠ [] → t <:+ word → skip = 0 ∧ whitespaceLen (t ++ s) = 0) →
      ∀ w ∈ splitWhitespaceGo skip word s, Word w := by
    intro s
    have hend : ∀ (word s : Bytes) (skip : ℕ),
        (∀ t, t ≠ [] → t <:+ word → skip = 0 ∧ whitespaceLen (t ++ s) = 0) →
        ∀ w ∈ (if word = [] then [] else [word]), Word w := by
      intro word s skip hword w hw
      split at hw
      · cases hw
      next hne =>
        rw [List.mem_singleton.mp hw]
        exact ⟨hne, fun t ht hsuf => whitespaceLen_of_append (hword t ht hsuf).2⟩
    induction s with
    | nil =>
        intro skip word hword w hw
        cases skip with
        | zero => exact hend word [] 0 hword w hw
        | succ skip => exact hend word [] (skip + 1) hword w hw
    | cons b s ih =>
        intro skip word hword w hw
        cases skip with
        | succ skip =>
            refine ih skip word (fun t ht hsuf => ?_) w hw
            exact absurd (hword t ht hsuf).1 (Nat.succ_ne_zero _)
        | zero =>
            rw [splitWhitespaceGo] at hw
            split at hw
            next hlen =>
              refine ih 0 (word ++ [b]) (fun t ht hsuf => ⟨rfl, ?_⟩) w hw
              rcases List.suffix_concat_iff.mp hsuf with rfl | ⟨u, rfl, hu⟩
              · exact absurd rfl ht
              rw [List.append_assoc, List.singleton_append]
              by_cases hu0 : u = []
              · rw [hu0]
                exact hlen
              · exact (hword u hu0 hu).2
            next len hlen =>
              rcases List.mem_append.mp hw with hw | hw
              · exact hend word (b :: s) 0 hword w hw
              · refine ih len [] (fun t ht hsuf => ?_) w hw
                exact absurd (List.suffix_nil.mp hsuf) ht
  exact key s 0 [] (fun t ht hsuf => absurd (List.suffix_nil.mp hsuf) ht) w h

end Bytes

end Narshare
