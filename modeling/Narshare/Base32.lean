/-
Nix's base 32 the other way round: what decodes is spelled as it is
encoded, and no index of either function is out of range.

# One spelling

Text.lean shows that an encoding reads back. Here a string that reads
back is followed bit by bit: after all its characters, bit `5 n + k` of
the bytes is bit `k` of the digit in place `n` (`bitAt_decode`). Every
digit stands alone in its five bits, so encoding finds the same digits
again. Bits of the top digit above the last byte were checked to be 0
when they spilled.

# Indexes

A slice of Rust stops the program when an index is out of range.
`nixbase32EncodeAt` and `nixbase32PlaceAt` are the two loop bodies with
every index checked, and `none` where the program would stop; they never
are `none`, and otherwise what the unchecked ones are.
-/
import Narshare.Text

namespace Narshare

-- ============================================================ what decodes

/-- The digit in place `n` of a string, counted from its end; 0 where
there is none. -/
def nixbase32DigitOf (s : Bytes) (n : ℕ) : ℕ :=
  ((s.reverse[n]?).bind fun c => nixbase32Alphabet.idxOf? c).getD 0

/-- A character in front has the place above all others. -/
theorem nixbase32DigitOf_cons (c : UInt8) (s : Bytes) (n : ℕ) :
    nixbase32DigitOf (c :: s) n
      = if n = s.length then (nixbase32Alphabet.idxOf? c).getD 0 else nixbase32DigitOf s n := by
  rw [nixbase32DigitOf, nixbase32DigitOf, List.reverse_cons]
  split
  next hn =>
    rw [hn, ← List.length_reverse, List.getElem?_concat_length]
    rfl
  next hn =>
    by_cases hlt : n < s.length
    · rw [List.getElem?_append_left (by rwa [List.length_reverse])]
    · rw [List.getElem?_eq_none (by simp; omega),
        List.getElem?_eq_none (by rw [List.length_reverse]; omega)]

theorem idxOf?_lt {c : UInt8} {d : ℕ} (h : nixbase32Alphabet.idxOf? c = some d) :
    d < 32 ∧ nixbase32Alphabet.getD d 0 = c := by
  obtain ⟨hlt, hget, -⟩ := List.idxOf?_eq_some_iff.mp h
  have hlen : nixbase32Alphabet.length = 32 := by decide +kernel
  refine ⟨hlen ▸ hlt, ?_⟩
  rw [List.getD_eq_getElem _ _ hlt]
  exact hget

/-- Every place of an encoding lies in the bytes. -/
theorem place_lt {n len : ℕ} (h : n < nixbase32Len len) : n * 5 / 8 < len := by
  rw [nixbase32Len] at h
  split at h
  all_goals omega

/-- A character that is taken in adds its digit's bits in its place, and
none of them beyond the last byte. -/
theorem nixbase32Place_spec {len outLen pos : ℕ} {out out' : Bytes} {c : UInt8}
    (hlen : out.length = outLen) (hin : (len - 1 - pos) * 5 / 8 < outLen)
    (h : nixbase32Place len outLen out (c, pos) = some out') :
    ∃ d, nixbase32Alphabet.idxOf? c = some d ∧ out'.length = outLen
      ∧ ∀ p, bitAt out' p = (bitAt out p
        || (decide ((len - 1 - pos) * 5 ≤ p) && d.testBit (p - (len - 1 - pos) * 5))) := by
  obtain ⟨d, hd, h⟩ := Option.bind_eq_some_iff.mp h
  have hlt := (idxOf?_lt hd).1
  simp only at h
  generalize len - 1 - pos = n at h hin ⊢
  have hsplit := Nat.div_add_mod (n * 5) 8
  have hmod : n * 5 % 8 < 8 := Nat.mod_lt _ (by decide)
  have hbit : ∀ k, 5 ≤ k → d.testBit k = false := fun k hk =>
    Nat.testBit_lt_two_pow (hlt.trans_le (Nat.pow_le_pow_right (n := 2) (by decide) hk))
  -- the two bytes a digit touches
  have hparts : ∀ p, ((decide (p / 8 = n * 5 / 8)
        && (UInt8.ofNat (d <<< (n * 5 % 8))).toNat.testBit (p % 8))
      || (decide (p / 8 = n * 5 / 8 + 1)
        && (UInt8.ofNat (d <<< (n * 5 % 8) >>> 8)).toNat.testBit (p % 8)))
      = (decide (n * 5 ≤ p) && d.testBit (p - n * 5)) := by
    intro p
    have hr : p % 8 < 8 := Nat.mod_lt _ (by decide)
    have hp := Nat.div_add_mod p 8
    rw [UInt8.toNat_ofNat', UInt8.toNat_ofNat', Nat.testBit_mod_two_pow,
      Nat.testBit_mod_two_pow, Nat.testBit_shiftRight, Nat.testBit_shiftLeft,
      Nat.testBit_shiftLeft, decide_eq_true hr, Bool.true_and, Bool.true_and]
    by_cases h₀ : p / 8 = n * 5 / 8
    · rw [decide_eq_true h₀, Bool.true_and,
        decide_eq_false (show ¬ p / 8 = n * 5 / 8 + 1 by omega), Bool.false_and, Bool.or_false]
      by_cases hle : n * 5 ≤ p
      · rw [decide_eq_true hle, decide_eq_true (show n * 5 % 8 ≤ p % 8 by omega),
          show p % 8 - n * 5 % 8 = p - n * 5 by omega]
      · rw [decide_eq_false hle, decide_eq_false (show ¬ n * 5 % 8 ≤ p % 8 by omega),
          Bool.false_and, Bool.false_and]
    by_cases h₁ : p / 8 = n * 5 / 8 + 1
    · rw [decide_eq_false h₀, Bool.false_and, Bool.false_or, decide_eq_true h₁, Bool.true_and,
        decide_eq_true (show n * 5 ≤ p by omega),
        decide_eq_true (show n * 5 % 8 ≤ 8 + p % 8 by omega),
        show 8 + p % 8 - n * 5 % 8 = p - n * 5 by omega]
    rw [decide_eq_false h₀, decide_eq_false h₁, Bool.false_and, Bool.false_and, Bool.or_false]
    by_cases hle : n * 5 ≤ p
    · rw [hbit (p - n * 5) (by omega), Bool.and_false]
    · rw [decide_eq_false hle, Bool.false_and]
  refine ⟨d, hd, ?_⟩
  split at h
  next hnext =>
    cases h
    refine ⟨by rw [List.length_modify, List.length_modify, hlen], fun p => ?_⟩
    rw [bitAt_modify_or _ _ _ _ (by rw [List.length_modify, hlen]; exact hnext),
      bitAt_modify_or _ _ _ _ (hlen ▸ hin), Bool.or_assoc, hparts p]
  next hlast =>
    split at h
    next => cases h
    next hspill =>
      cases h
      refine ⟨by rw [List.length_modify, hlen], fun p => ?_⟩
      rw [bitAt_modify_or _ _ _ _ (hlen ▸ hin), ← hparts p, not_not.mp hspill]
      simp

/-- The bits of what a rest of a string leaves: those there were, and
each digit's in its place. -/
theorem bitAt_foldlM_place {len outLen : ℕ} (hlen : len = nixbase32Len outLen) (s : Bytes) :
    ∀ (pos : ℕ) (out b : Bytes), out.length = outLen → pos + s.length = len →
      (s.zipIdx pos).foldlM (nixbase32Place len outLen) out = some b →
      b.length = outLen
        ∧ (∀ c ∈ s, ∃ d, nixbase32Alphabet.idxOf? c = some d)
        ∧ ∀ p, bitAt b p = (bitAt out p || (nixbase32DigitOf s (p / 5)).testBit (p % 5)) := by
  induction s with
  | nil =>
      intro pos out b hout _ h
      cases h
      refine ⟨hout, fun c hc => (List.not_mem_nil hc).elim, fun p => ?_⟩
      rw [nixbase32DigitOf, List.reverse_nil, List.getElem?_nil, Option.bind_none,
        Option.getD_none, Nat.zero_testBit, Bool.or_false]
  | cons c s ih =>
      intro pos out b hout hpos h
      rw [List.length_cons] at hpos
      rw [List.zipIdx_cons, List.foldlM_cons] at h
      obtain ⟨mid, hmid, hrest⟩ := Option.bind_eq_some_iff.mp h
      have hplace : len - 1 - pos = s.length := by omega
      have hin : (len - 1 - pos) * 5 / 8 < outLen := by
        rw [hplace]
        exact place_lt (by omega)
      obtain ⟨d, hd, hmidLen, hbits⟩ := nixbase32Place_spec hout hin hmid
      obtain ⟨hb, hall, hrestBits⟩ := ih (pos + 1) mid b hmidLen (by omega) hrest
      have hlt := (idxOf?_lt hd).1
      refine ⟨hb, fun c' hc' => ?_, fun p => ?_⟩
      · rcases List.mem_cons.mp hc' with rfl | hc'
        · exact ⟨d, hd⟩
        · exact hall c' hc'
      · rw [hrestBits, hbits, hplace, nixbase32DigitOf_cons, hd, Option.getD_some, Bool.or_assoc]
        congr 1
        by_cases hp : p / 5 = s.length
        · -- the digits behind do not reach up here
          have hnone : nixbase32DigitOf s (p / 5) = 0 := by
            rw [nixbase32DigitOf, List.getElem?_eq_none (by rw [List.length_reverse]; omega)]
            rfl
          rw [if_pos hp, hnone, Nat.zero_testBit, Bool.or_false,
            decide_eq_true (show s.length * 5 ≤ p by omega), Bool.true_and,
            show p - s.length * 5 = p % 5 by omega]
        · rw [if_neg hp]
          by_cases hle : s.length * 5 ≤ p
          · rw [Nat.testBit_lt_two_pow (lt_of_lt_of_le hlt
              (show 2 ^ 5 ≤ 2 ^ (p - s.length * 5) from
                Nat.pow_le_pow_right (by decide) (by omega))), Bool.and_false, Bool.false_or]
          · rw [decide_eq_false hle, Bool.false_and, Bool.false_or]

/-- A string that decodes has digits only, and they are the bytes' bits. -/
theorem bitAt_decode {s b : Bytes} {n : ℕ} (h : nixbase32Decode s n = some b) :
    s.length = nixbase32Len n ∧ b.length = n
      ∧ (∀ c ∈ s, ∃ d, nixbase32Alphabet.idxOf? c = some d)
      ∧ ∀ p, bitAt b p = (nixbase32DigitOf s (p / 5)).testBit (p % 5) := by
  rw [nixbase32Decode] at h
  split at h
  next => cases h
  next hlen =>
    obtain ⟨hb, hall, hbits⟩ := bitAt_foldlM_place (not_not.mp hlen) s 0 _ b
      List.length_replicate (Nat.zero_add _) h
    refine ⟨not_not.mp hlen, hb, hall, fun p => ?_⟩
    have hzero : bitAt (List.replicate n 0) p = false := by
      rw [bitAt, show (List.replicate n (0 : UInt8)).getD (p / 8) 0 = 0 by
        rw [List.getD_eq_getElem?_getD, List.getElem?_replicate]
        split <;> rfl]
      exact Nat.zero_testBit _
    rw [hbits, hzero, Bool.false_or]

/-- What decodes is the encoding of what it decodes to. -/
theorem nixbase32Encode_decode {s b : Bytes} {n : ℕ} (h : nixbase32Decode s n = some b) :
    b.length = n ∧ nixbase32Encode b = s := by
  obtain ⟨hlen, hb, hall, hbits⟩ := bitAt_decode h
  refine ⟨hb, List.ext_getElem? fun i => ?_⟩
  by_cases hi : i < s.length
  · have hplace : nixbase32Len b.length - 1 - i < nixbase32Len b.length := by
      rw [hb, ← hlen]
      omega
    obtain ⟨d, hd⟩ := hall s[i] (List.getElem_mem hi)
    -- the digit of the encoding, bit by bit
    have hdigit : nixbase32Digit b (nixbase32Len b.length - 1 - i) = d := by
      have hof : nixbase32DigitOf s (nixbase32Len b.length - 1 - i) = d := by
        rw [nixbase32DigitOf, hb, ← hlen, List.getElem?_reverse (by omega),
          show s.length - 1 - (s.length - 1 - i) = i by omega, List.getElem?_eq_getElem hi,
          Option.bind_some, hd]
        rfl
      refine Nat.eq_of_testBit_eq fun k => ?_
      rw [testBit_nixbase32Digit]
      by_cases hk : k < 5
      · rw [decide_eq_true hk, Bool.true_and, hbits,
          show ((nixbase32Len b.length - 1 - i) * 5 + k) / 5 = nixbase32Len b.length - 1 - i by
            omega,
          show ((nixbase32Len b.length - 1 - i) * 5 + k) % 5 = k by omega, hof]
      · rw [decide_eq_false hk, Bool.false_and, Nat.testBit_lt_two_pow
          ((idxOf?_lt hd).1.trans_le (Nat.pow_le_pow_right (n := 2) (by decide) (not_lt.mp hk)))]
    rw [List.getElem?_eq_getElem hi, nixbase32Encode, List.getElem?_map,
      List.getElem?_reverse (by rw [List.length_range, hb, ← hlen]; exact hi), List.length_range,
      List.getElem?_range hplace]
    show some (nixbase32Alphabet.getD (nixbase32Digit b (nixbase32Len b.length - 1 - i)) 0) = _
    rw [hdigit, (idxOf?_lt hd).2]
  · rw [List.getElem?_eq_none (not_lt.mp hi),
      List.getElem?_eq_none (by rw [length_nixbase32Encode, hb, ← hlen]; exact not_lt.mp hi)]

-- ========================================================== checked indexes

/-- `nixbase32::encode`, one character, with its indexes checked. -/
def nixbase32EncodeAt (bytes : Bytes) (n : ℕ) : Option UInt8 :=
  let i := n * 5 / 8
  let j := n * 5 % 8
  bytes[i]?.bind fun b =>
    let lo := b.toNat >>> j
    let hi := if i + 1 < bytes.length then bytes[i + 1]?.map fun b' => b'.toNat <<< (8 - j)
      else some 0
    hi.bind fun hi => nixbase32Alphabet[(lo ||| hi) &&& 0x1F]?

/-- `nixbase32::encode`, with its indexes checked. -/
def nixbase32EncodeChecked (bytes : Bytes) : Option Bytes :=
  (List.range (nixbase32Len bytes.length)).reverse.mapM (nixbase32EncodeAt bytes)

/-- `nixbase32::decode`, one character, with its indexes checked; the
inner `none` refuses the string. -/
def nixbase32PlaceAt (len outLen : ℕ) (out : Bytes) (e : UInt8 × ℕ) : Option (Option Bytes) :=
  match nixbase32Alphabet.idxOf? e.1 with
  | none => some none
  | some digit =>
      let n := len - 1 - e.2
      let i := n * 5 / 8
      let full := digit <<< (n * 5 % 8)
      if i < out.length then
        let out := out.modify i (· ||| UInt8.ofNat full)
        let hi := UInt8.ofNat (full >>> 8)
        if i + 1 < outLen then
          if i + 1 < out.length then some (some (out.modify (i + 1) (· ||| hi))) else none
        else if hi ≠ 0 then some none
        else some (some out)
      else none

/-- The loop of `nixbase32::decode`, with its indexes checked. -/
def nixbase32DecodeGo (len outLen : ℕ) : Bytes → List (UInt8 × ℕ) → Option (Option Bytes)
  | out, [] => some (some out)
  | out, e :: es =>
      match nixbase32PlaceAt len outLen out e with
      | some (some out) => nixbase32DecodeGo len outLen out es
      | stopped => stopped

/-- `nixbase32::decode`, with its indexes checked. -/
def nixbase32DecodeChecked (s : Bytes) (outLen : ℕ) : Option (Option Bytes) :=
  if s.length ≠ nixbase32Len outLen then some none
  else nixbase32DecodeGo s.length outLen (List.replicate outLen 0) s.zipIdx

theorem nixbase32EncodeAt_eq {b : Bytes} {n : ℕ} (hn : n < nixbase32Len b.length) :
    nixbase32EncodeAt b n = some (nixbase32Alphabet.getD (nixbase32Digit b n) 0) := by
  have hi := place_lt hn
  have hlen : nixbase32Alphabet.length = 32 := by decide +kernel
  have hdigit : ∀ d, d = nixbase32Digit b n →
      nixbase32Alphabet[d]? = some (nixbase32Alphabet.getD (nixbase32Digit b n) 0) := by
    rintro d rfl
    have hlt : nixbase32Digit b n < nixbase32Alphabet.length := hlen ▸ nixbase32Digit_lt b n
    rw [List.getElem?_eq_getElem hlt, List.getD_eq_getElem _ _ hlt]
  unfold nixbase32EncodeAt
  simp only [List.getElem?_eq_getElem hi, Option.bind_some]
  by_cases hnext : n * 5 / 8 + 1 < b.length
  · rw [if_pos hnext, List.getElem?_eq_getElem hnext, Option.map_some, Option.bind_some]
    apply hdigit
    rw [nixbase32Digit, List.getD_eq_getElem _ _ hi, if_pos hnext, List.getD_eq_getElem _ _ hnext]
  · rw [if_neg hnext, Option.bind_some]
    apply hdigit
    rw [nixbase32Digit, List.getD_eq_getElem _ _ hi, if_neg hnext]

/-- Encoding stays within its arrays. -/
theorem nixbase32EncodeChecked_eq (b : Bytes) :
    nixbase32EncodeChecked b = some (nixbase32Encode b) := by
  have hmap : ∀ l : List ℕ, (∀ n ∈ l, n < nixbase32Len b.length) →
      l.mapM (nixbase32EncodeAt b)
        = some (l.map fun n => nixbase32Alphabet.getD (nixbase32Digit b n) 0) := by
    intro l hl
    induction l with
    | nil => rfl
    | cons n l ih =>
        rw [List.mapM_cons, nixbase32EncodeAt_eq (hl n List.mem_cons_self),
          ih fun n hn => hl n (List.mem_cons_of_mem _ hn)]
        rfl
  exact hmap _ fun n hn => List.mem_range.mp (List.mem_reverse.mp hn)

/-- Placing a digit stays within the bytes and keeps their number. -/
theorem nixbase32PlaceAt_eq {len outLen : ℕ} {out : Bytes} {e : UInt8 × ℕ}
    (hout : out.length = outLen) (hin : (len - 1 - e.2) * 5 / 8 < outLen) :
    nixbase32PlaceAt len outLen out e = some (nixbase32Place len outLen out e)
      ∧ ∀ out', nixbase32Place len outLen out e = some out' → out'.length = outLen := by
  constructor
  · unfold nixbase32PlaceAt nixbase32Place
    cases nixbase32Alphabet.idxOf? e.1 with
    | none => rfl
    | some digit =>
        simp only [Option.bind_some]
        rw [if_pos (hout ▸ hin)]
        split
        next hnext =>
          rw [if_pos (by rw [List.length_modify, hout]; exact hnext)]
        next => split <;> rfl
  · intro out' h
    obtain ⟨c, pos⟩ := e
    obtain ⟨d, -, hlen, -⟩ := nixbase32Place_spec hout hin h
    exact hlen

theorem nixbase32DecodeGo_eq {len outLen : ℕ} (hlen : len = nixbase32Len outLen) (s : Bytes) :
    ∀ (pos : ℕ) (out : Bytes), out.length = outLen → pos + s.length = len →
      nixbase32DecodeGo len outLen out (s.zipIdx pos)
        = some ((s.zipIdx pos).foldlM (nixbase32Place len outLen) out) := by
  induction s with
  | nil => exact fun _ _ _ _ => rfl
  | cons c s ih =>
      intro pos out hout hpos
      rw [List.length_cons] at hpos
      have hin : (len - 1 - pos) * 5 / 8 < outLen := place_lt (by omega)
      obtain ⟨hplace, hkeep⟩ := nixbase32PlaceAt_eq (e := (c, pos)) hout hin
      rw [List.zipIdx_cons, nixbase32DecodeGo, hplace, List.foldlM_cons]
      cases hp : nixbase32Place len outLen out (c, pos) with
      | none => rfl
      | some out' => exact ih (pos + 1) out' (hkeep out' hp) (by omega)

/-- Decoding stays within its arrays. -/
theorem nixbase32DecodeChecked_eq (s : Bytes) (n : ℕ) :
    nixbase32DecodeChecked s n = some (nixbase32Decode s n) := by
  rw [nixbase32DecodeChecked, nixbase32Decode]
  split
  next => rfl
  next hlen =>
    exact nixbase32DecodeGo_eq (not_not.mp hlen) s 0 _ List.length_replicate (Nat.zero_add _)

-- ============================================================ a bijection

/-- Strings and bytes correspond one to one: a string decodes into `n`
bytes exactly when it is the encoding of them; and neither function
indexes out of range, whatever it is given. -/
theorem nixbase32_bijective :
    (∀ s n b, nixbase32Decode s n = some b ↔ b.length = n ∧ nixbase32Encode b = s)
      ∧ (∀ b, nixbase32EncodeChecked b = some (nixbase32Encode b))
      ∧ ∀ s n, nixbase32DecodeChecked s n = some (nixbase32Decode s n) := by
  refine ⟨fun s n b => ⟨nixbase32Encode_decode, ?_⟩, nixbase32EncodeChecked_eq,
    nixbase32DecodeChecked_eq⟩
  rintro ⟨rfl, rfl⟩
  exact nixbase32Decode_encode b

/-- A digit that spills, and one that is none. -/
example : nixbase32Decode (ascii "zz") 1 = none ∧ nixbase32Decode (ascii "0e") 1 = none
    ∧ nixbase32Decode (ascii "7z") 1 = some [0xFF] := by decide +kernel

end Narshare
