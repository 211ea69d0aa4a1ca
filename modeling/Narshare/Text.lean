/-
Bytes as text: ASCII tokens, base 16, nix's base 32, and the few string
methods that the database reader and the signature check lean on.

# Text is bytes here

A Rust `str` is its UTF-8 bytes, so every method below is the byte-level
reading of the `str` method it is named after. Cutting at an ASCII
character is cutting at its byte. `split_whitespace` cuts at characters
outside ASCII too; these are spelled out by their encodings, which is
enough because no encoding of a character begins inside another. Whether
bytes are text at all is read off one byte at a time (`utf8Go`). Base32.lean
has what decoding base 32 refuses.
-/
import Mathlib.Data.List.GetD
import Narshare.Proto

namespace Narshare

/-- An ASCII token. -/
def ascii (s : String) : Bytes := s.toList.map fun c => UInt8.ofNat c.toNat

/-- A number as `{}` prints it. -/
def decimal (n : ℕ) : Bytes := (Nat.toDigits 10 n).map fun c => UInt8.ofNat c.toNat

theorem isDigit_of_mem_toDigits {n : ℕ} {d : Char} (h : d ∈ Nat.toDigits 10 n) :
    48 ≤ d.toNat ∧ d.toNat ≤ 57 := by
  have hdig := Nat.isDigit_of_mem_toDigits (by decide) (by decide) h
  rw [Char.isDigit, Bool.and_eq_true, decide_eq_true_eq, decide_eq_true_eq, ge_iff_le,
    UInt32.le_iff_toNat_le, UInt32.le_iff_toNat_le] at hdig
  exact hdig

theorem isDigit_decimal {n : ℕ} {c : UInt8} (h : c ∈ decimal n) :
    48 ≤ c.toNat ∧ c.toNat ≤ 57 := by
  obtain ⟨d, hd, rfl⟩ := List.mem_map.mp h
  have hdig := isDigit_of_mem_toDigits hd
  rwa [UInt8.toNat_ofNat', Nat.mod_eq_of_lt (by omega)]

theorem decimal_ne_nil (n : ℕ) : decimal n ≠ [] := by
  rw [decimal, ne_eq, List.map_eq_nil_iff]
  exact Nat.toDigits_ne_nil

/-- What a run of digits says. -/
def digitsValue (s : Bytes) : ℕ := s.foldl (fun n c => 10 * n + (c.toNat - 48)) 0

theorem digitsValue_decimal (n : ℕ) : digitsValue (decimal n) = n := by
  have hdigits := Nat.ofDigitChars_ten_toDigits (n := n)
  rw [Nat.ofDigitChars_eq_foldl] at hdigits
  rw [digitsValue, decimal, List.foldl_map]
  refine (List.foldl_ext _ _ 0 fun m c hc => ?_).trans hdigits
  have hdig := isDigit_of_mem_toDigits hc
  rw [UInt8.toNat_ofNat', Nat.mod_eq_of_lt (by omega)]
  rfl

-- ================================================================ base 16

/-- A lowercase hex digit. -/
def hexDigit (n : ℕ) : UInt8 := if n < 10 then UInt8.ofNat (48 + n) else UInt8.ofNat (87 + n)

/-- `to_hex`. -/
def hexEncode (b : Bytes) : Bytes :=
  b.flatMap fun x => [hexDigit (x.toNat / 16), hexDigit (x.toNat % 16)]

/-- What a hex digit, of either case, counts for. -/
def hexVal (c : UInt8) : Option ℕ :=
  if 48 ≤ c ∧ c ≤ 57 then some (c.toNat - 48)
  else if 97 ≤ c ∧ c ≤ 102 then some (c.toNat - 87)
  else if 65 ≤ c ∧ c ≤ 70 then some (c.toNat - 55)
  else none

/-- `hex::decode`. -/
def hexDecode : Bytes → Option Bytes
  | [] => some []
  | [_] => none -- odd length
  | a :: b :: rest =>
      match hexVal a, hexVal b with
      | some x, some y => (hexDecode rest).map fun out => UInt8.ofNat (x * 16 + y) :: out
      | _, _ => none

theorem hexVal_hexDigit : ∀ n < 16, hexVal (hexDigit n) = some n := by decide

theorem hexDecode_hexEncode (b : Bytes) : hexDecode (hexEncode b) = some b := by
  induction b with
  | nil => rfl
  | cons x b ih =>
      have hx := x.toNat_lt
      rw [hexEncode, List.flatMap_cons]
      show hexDecode (hexDigit (x.toNat / 16) :: hexDigit (x.toNat % 16) :: hexEncode b) = _
      rw [hexDecode, hexVal_hexDigit _ (by omega), hexVal_hexDigit _ (by omega)]
      simp only [ih, Option.map_some]
      rw [Nat.div_add_mod', UInt8.ofNat_toNat]

theorem length_hexEncode (b : Bytes) : (hexEncode b).length = 2 * b.length := by
  induction b with
  | nil => rfl
  | cons x b ih =>
      rw [hexEncode, List.flatMap_cons, ← hexEncode, List.length_append, ih]
      simp only [List.length_cons, List.length_nil]
      omega

-- ============================================================== nixbase32

/-- `ALPHABET`. -/
def nixbase32Alphabet : Bytes := ascii "0123456789abcdfghijklmnpqrsvwxyz"

/-- `encoded_len`. -/
def nixbase32Len (n : ℕ) : ℕ := if n = 0 then 0 else (n * 8 - 1) / 5 + 1

/-- `nixbase32::encode`. -/
def nixbase32Encode (bytes : Bytes) : Bytes :=
  (List.range (nixbase32Len bytes.length)).reverse.map fun n =>
    let i := n * 5 / 8
    let j := n * 5 % 8
    let lo := (bytes.getD i 0).toNat >>> j
    let hi := if i + 1 < bytes.length then (bytes.getD (i + 1) 0).toNat <<< (8 - j) else 0
    nixbase32Alphabet.getD ((lo ||| hi) &&& 0x1F) 0

/-- `nixbase32::decode`, one character: its five bits go into one byte or
two, and must not spill past the last. -/
def nixbase32Place (len outLen : ℕ) (out : Bytes) (e : UInt8 × ℕ) : Option Bytes :=
  (nixbase32Alphabet.idxOf? e.1).bind fun digit =>
    let n := len - 1 - e.2
    let i := n * 5 / 8
    let full := digit <<< (n * 5 % 8)
    let out := out.modify i (· ||| UInt8.ofNat full)
    let hi := UInt8.ofNat (full >>> 8)
    if i + 1 < outLen then some (out.modify (i + 1) (· ||| hi))
    else if hi ≠ 0 then none
    else some out

/-- `nixbase32::decode`. -/
def nixbase32Decode (s : Bytes) (outLen : ℕ) : Option Bytes :=
  if s.length ≠ nixbase32Len outLen then none
  else s.zipIdx.foldlM (nixbase32Place s.length outLen) (List.replicate outLen 0)

/-- The NAR hash of no bytes, which nix prints in base 32. -/
def emptySha256 : Bytes :=
  [0xE3, 0xB0, 0xC4, 0x42, 0x98, 0xFC, 0x1C, 0x14, 0x9A, 0xFB, 0xF4, 0xC8, 0x99, 0x6F, 0xB9,
    0x24, 0x27, 0xAE, 0x41, 0xE4, 0x64, 0x9B, 0x93, 0x4C, 0xA4, 0x95, 0x99, 0x1B, 0x78, 0x52,
    0xB8, 0x55]

example : nixbase32Encode emptySha256
    = ascii "0mdqa9w1p6cmli6976v4wi0sw9r4p5prkj7lzfd1877wk11c9c73" := by decide +kernel

example : nixbase32Decode (ascii "0mdqa9w1p6cmli6976v4wi0sw9r4p5prkj7lzfd1877wk11c9c73") 32
    = some emptySha256 := by decide +kernel

-- ------------------------------------------------------- and reads it back

/-- One bit of a byte string, counted from the low end. -/
def bitAt (b : Bytes) (p : ℕ) : Bool := (b.getD (p / 8) 0).toNat.testBit (p % 8)

/-- Bytes with the same bits are the same. -/
theorem ext_bitAt {b b' : Bytes} (hlen : b.length = b'.length)
    (h : ∀ p < 8 * b.length, bitAt b p = bitAt b' p) : b = b' := by
  refine List.ext_getElem hlen fun i hi hi' => ?_
  refine UInt8.toNat_inj.mp (Nat.eq_of_testBit_eq fun k => ?_)
  by_cases hk : k < 8
  · have := h (8 * i + k) (by omega)
    rw [bitAt, bitAt, show (8 * i + k) / 8 = i by omega, show (8 * i + k) % 8 = k by omega,
      List.getD_eq_getElem _ _ hi, List.getD_eq_getElem _ _ hi'] at this
    exact this
  · have hpow : 2 ^ 8 ≤ 2 ^ k := Nat.pow_le_pow_right (by decide) (not_lt.mp hk)
    rw [Nat.testBit_lt_two_pow ((UInt8.toNat_lt _).trans_le hpow),
      Nat.testBit_lt_two_pow ((UInt8.toNat_lt _).trans_le hpow)]

/-- The five bits a character stands for. -/
def nixbase32Digit (bytes : Bytes) (n : ℕ) : ℕ :=
  let i := n * 5 / 8
  let j := n * 5 % 8
  let lo := (bytes.getD i 0).toNat >>> j
  let hi := if i + 1 < bytes.length then (bytes.getD (i + 1) 0).toNat <<< (8 - j) else 0
  (lo ||| hi) &&& 0x1F

theorem nixbase32Digit_lt (bytes : Bytes) (n : ℕ) : nixbase32Digit bytes n < 32 :=
  Nat.lt_succ_of_le Nat.and_le_right

theorem testBit_nixbase32Digit (bytes : Bytes) (n k : ℕ) :
    (nixbase32Digit bytes n).testBit k = (decide (k < 5) && bitAt bytes (n * 5 + k)) := by
  unfold nixbase32Digit
  simp only
  rw [Nat.testBit_and, show (0x1F : ℕ) = 2 ^ 5 - 1 by rfl, Nat.testBit_two_pow_sub_one,
    Nat.testBit_or, Nat.testBit_shiftRight, Bool.and_comm]
  by_cases hk : k < 5
  · rw [decide_eq_true hk, Bool.true_and, Bool.true_and, bitAt]
    have hsplit := Nat.div_add_mod (n * 5) 8
    by_cases hin : n * 5 % 8 + k < 8
    · -- within the byte the position begins in
      rw [show (n * 5 + k) / 8 = n * 5 / 8 by omega, show (n * 5 + k) % 8 = n * 5 % 8 + k by omega]
      have hhi : (if n * 5 / 8 + 1 < bytes.length
          then (bytes.getD (n * 5 / 8 + 1) 0).toNat <<< (8 - n * 5 % 8) else 0).testBit k
          = false := by
        split
        · rw [Nat.testBit_shiftLeft, decide_eq_false (by omega), Bool.false_and]
        · exact Nat.zero_testBit k
      rw [hhi, Bool.or_false]
    · -- in the next one
      rw [show (n * 5 + k) / 8 = n * 5 / 8 + 1 by omega,
        show (n * 5 + k) % 8 = k - (8 - n * 5 % 8) by omega]
      have hpow : 2 ^ 8 ≤ 2 ^ (n * 5 % 8 + k) := Nat.pow_le_pow_right (by decide) (not_lt.mp hin)
      rw [Nat.testBit_lt_two_pow ((UInt8.toNat_lt _).trans_le hpow), Bool.false_or]
      split
      · rw [Nat.testBit_shiftLeft, decide_eq_true (by omega), Bool.true_and]
      next hlen =>
        rw [List.getD_eq_default _ _ (not_lt.mp hlen), Nat.zero_testBit]
        exact (Nat.zero_testBit _).symm
  · rw [decide_eq_false hk, Bool.false_and, Bool.false_and]

theorem idxOf_nixbase32Alphabet : ∀ d < 32,
    nixbase32Alphabet.idxOf? (nixbase32Alphabet.getD d 0) = some d := by decide +kernel

/-- Setting bits in one byte. -/
theorem bitAt_modify_or (b : Bytes) (i : ℕ) (x : UInt8) (p : ℕ) (hi : i < b.length) :
    bitAt (b.modify i (· ||| x)) p
      = (bitAt b p || (decide (p / 8 = i) && x.toNat.testBit (p % 8))) := by
  unfold bitAt
  by_cases hp : p / 8 = i
  · subst hp
    rw [List.getD_eq_getElem _ _ (by rwa [List.length_modify]), List.getElem_modify, if_pos rfl,
      List.getD_eq_getElem _ _ hi, UInt8.toNat_or, Nat.testBit_or, decide_eq_true rfl,
      Bool.true_and]
  · rw [decide_eq_false hp, Bool.false_and, Bool.or_false, List.getD_eq_getElem?_getD,
      List.getD_eq_getElem?_getD, List.getElem?_modify_ne _ _ (Ne.symm hp)]

/-- One character read back: its bits join those there are. -/
theorem nixbase32Place_step (b out : Bytes) {n : ℕ} (hn : n < nixbase32Len b.length)
    (hlen : out.length = b.length)
    (hout : ∀ p, bitAt out p = (decide (n + 1 ≤ p / 5) && bitAt b p)) :
    ∃ out', nixbase32Place (nixbase32Len b.length) b.length out
        (nixbase32Alphabet.getD (nixbase32Digit b n) 0, nixbase32Len b.length - 1 - n) = some out'
      ∧ out'.length = b.length
      ∧ ∀ p, bitAt out' p = (decide (n ≤ p / 5) && bitAt b p) := by
  have hpos : b.length ≠ 0 := by
    intro h0
    rw [nixbase32Len, if_pos h0] at hn
    omega
  rw [nixbase32Len, if_neg hpos] at hn
  have hi : n * 5 / 8 < b.length := by omega
  have hdig := testBit_nixbase32Digit b n
  have hlt := nixbase32Digit_lt b n
  generalize nixbase32Digit b n = d at hdig hlt
  -- the character's bits, where they belong
  have hfull : ∀ q, (d <<< (n * 5 % 8)).testBit q
      = (decide (n * 5 % 8 ≤ q ∧ q < n * 5 % 8 + 5) && bitAt b (8 * (n * 5 / 8) + q)) := by
    intro q
    rw [Nat.testBit_shiftLeft]
    by_cases hq : n * 5 % 8 ≤ q
    · rw [hdig, decide_eq_true hq, Bool.true_and]
      congr 2
      · exact propext ⟨fun h => ⟨hq, by omega⟩, fun h => by omega⟩
      · have := Nat.div_add_mod (n * 5) 8
        omega
    · rw [decide_eq_false hq, decide_eq_false (fun h => hq h.1), Bool.false_and, Bool.false_and]
  have hor : ∀ p, (bitAt out p || (decide (p / 8 = n * 5 / 8)
        && (UInt8.ofNat (d <<< (n * 5 % 8))).toNat.testBit (p % 8))
      || (decide (p / 8 = n * 5 / 8 + 1)
        && (UInt8.ofNat (d <<< (n * 5 % 8) >>> 8)).toNat.testBit (p % 8)))
      = (decide (n ≤ p / 5) && bitAt b p) := by
    intro p
    have hsplit := Nat.div_add_mod (n * 5) 8
    have hr : p % 8 < 8 := Nat.mod_lt _ (by decide)
    rw [hout, UInt8.toNat_ofNat', UInt8.toNat_ofNat', Nat.testBit_mod_two_pow,
      Nat.testBit_mod_two_pow, Nat.testBit_shiftRight, hfull, hfull, decide_eq_true hr,
      Bool.true_and, Bool.true_and]
    by_cases h₀ : p / 8 = n * 5 / 8
    · rw [show 8 * (n * 5 / 8) + p % 8 = p by omega,
        decide_eq_false (show ¬ p / 8 = n * 5 / 8 + 1 by omega), Bool.false_and, Bool.or_false]
      cases bitAt b p with
      | false => simp
      | true =>
          simp only [Bool.and_true, ← Bool.decide_and, ← Bool.decide_or]
          exact decide_eq_decide.mpr (by omega)
    by_cases h₁ : p / 8 = n * 5 / 8 + 1
    · rw [show 8 * (n * 5 / 8) + (8 + p % 8) = p by omega, decide_eq_false h₀]
      cases bitAt b p with
      | false => simp
      | true =>
          simp only [Bool.and_true, Bool.false_and, Bool.or_false, ← Bool.decide_and,
            ← Bool.decide_or]
          exact decide_eq_decide.mpr (by omega)
    rw [decide_eq_false h₀, decide_eq_false h₁, Bool.false_and, Bool.false_and, Bool.or_false,
      Bool.or_false]
    congr 1
    exact decide_eq_decide.mpr (by omega)
  unfold nixbase32Place
  rw [idxOf_nixbase32Alphabet d hlt]
  simp only [Option.bind_some]
  rw [show nixbase32Len b.length - 1 - (nixbase32Len b.length - 1 - n) = n by
    rw [nixbase32Len, if_neg hpos]
    omega]
  split
  next hnext =>
    refine ⟨_, rfl, by rw [List.length_modify, List.length_modify, hlen], fun p => ?_⟩
    rw [bitAt_modify_or _ _ _ _ (by rw [List.length_modify, hlen]; exact hnext),
      bitAt_modify_or _ _ _ _ (hlen ▸ hi)]
    exact hor p
  next hlast =>
    -- nothing spills past the last byte
    have hsmall : d <<< (n * 5 % 8) >>> 8 = 0 := by
      refine Nat.eq_of_testBit_eq fun k => ?_
      rw [Nat.testBit_shiftRight, hfull, Nat.zero_testBit, bitAt,
        List.getD_eq_default _ _ (by omega)]
      simp
    rw [hsmall, if_neg (by simp)]
    refine ⟨_, rfl, by rw [List.length_modify, hlen], fun p => ?_⟩
    have := hor p
    rw [hsmall] at this
    rw [bitAt_modify_or _ _ _ _ (hlen ▸ hi), ← this]
    simp

theorem length_nixbase32Encode (b : Bytes) :
    (nixbase32Encode b).length = nixbase32Len b.length := by
  rw [nixbase32Encode, List.length_map, List.length_reverse, List.length_range]

theorem mem_nixbase32Encode {b : Bytes} {c : UInt8} (h : c ∈ nixbase32Encode b) :
    c ∈ nixbase32Alphabet := by
  obtain ⟨n, -, rfl⟩ := List.mem_map.mp h
  have hlen : nixbase32Alphabet.length = 32 := by decide +kernel
  have hlt : nixbase32Digit b n < nixbase32Alphabet.length := hlen ▸ nixbase32Digit_lt b n
  show nixbase32Alphabet.getD (nixbase32Digit b n) 0 ∈ nixbase32Alphabet
  rw [List.getD_eq_getElem _ _ hlt]
  exact List.getElem_mem hlt

/-- Nix's base 32 reads back what it wrote. -/
theorem nixbase32Decode_encode (b : Bytes) :
    nixbase32Decode (nixbase32Encode b) b.length = some b := by
  have henc : nixbase32Encode b = (List.range (nixbase32Len b.length)).reverse.map fun n =>
      nixbase32Alphabet.getD (nixbase32Digit b n) 0 := rfl
  -- characters are read from the highest position down
  have key : ∀ m ≤ nixbase32Len b.length, ∀ out : Bytes, out.length = b.length →
      (∀ p, bitAt out p = (decide (m ≤ p / 5) && bitAt b p)) →
      (((List.range m).reverse.map fun n => nixbase32Alphabet.getD (nixbase32Digit b n) 0).zipIdx
        (nixbase32Len b.length - m)).foldlM (nixbase32Place (nixbase32Len b.length) b.length) out
        = some b := by
    intro m
    induction m with
    | zero =>
        intro _ out hlen hout
        rw [show out = b from ext_bitAt hlen fun p _ => by rw [hout]; simp]
        rfl
    | succ m ih =>
        intro hm out hlen hout
        obtain ⟨out', hplace, hlen', hout'⟩ := nixbase32Place_step b out hm hlen hout
        rw [List.range_succ, List.reverse_append, List.reverse_singleton, List.singleton_append,
          List.map_cons, List.zipIdx_cons, List.foldlM_cons,
          show nixbase32Len b.length - (m + 1) = nixbase32Len b.length - 1 - m by omega, hplace]
        have := ih (by omega) out' hlen' hout'
        rw [show nixbase32Len b.length - m = nixbase32Len b.length - 1 - m + 1 by omega] at this
        exact this
  rw [nixbase32Decode, if_neg (not_not.mpr (length_nixbase32Encode b)),
    length_nixbase32Encode, henc]
  have := key _ le_rfl (List.replicate b.length 0) (List.length_replicate) fun p => ?_
  · rw [Nat.sub_self] at this
    exact this
  · have hzero : bitAt (List.replicate b.length 0) p = false := by
      rw [bitAt, show (List.replicate b.length (0 : UInt8)).getD (p / 8) 0 = 0 by
        rw [List.getD_eq_getElem?_getD, List.getElem?_replicate]
        split <;> rfl]
      exact Nat.zero_testBit _
    rw [hzero]
    symm
    rw [Bool.and_eq_false_iff]
    by_cases hp : p < 8 * b.length
    · left
      rw [decide_eq_false_iff_not, nixbase32Len]
      split <;> omega
    · right
      rw [bitAt, List.getD_eq_default _ _ (by omega)]
      exact Nat.zero_testBit _

-- ================================================================== UTF-8

/-- `str::from_utf8`, `OsStr::to_str`: valid UTF-8, read one byte at a
time; `left` bytes of a character are missing and the next lies between
`lo` and `hi`. -/
def utf8Go : ℕ → UInt8 → UInt8 → Bytes → Bool
  | 0, _, _, [] => true
  | _ + 1, _, _, [] => false
  | left + 1, lo, hi, b :: bs =>
      if lo ≤ b ∧ b ≤ hi then utf8Go left 0x80 0xBF bs else false
  | 0, _, _, b :: bs =>
      if b < 0x80 then utf8Go 0 0x80 0xBF bs
      else if 0xC2 ≤ b ∧ b ≤ 0xDF then utf8Go 1 0x80 0xBF bs
      else if b = 0xE0 then utf8Go 2 0xA0 0xBF bs
      else if b = 0xED then utf8Go 2 0x80 0x9F bs
      else if 0xE1 ≤ b ∧ b ≤ 0xEF then utf8Go 2 0x80 0xBF bs
      else if b = 0xF0 then utf8Go 3 0x90 0xBF bs
      else if 0xF1 ≤ b ∧ b ≤ 0xF3 then utf8Go 3 0x80 0xBF bs
      else if b = 0xF4 then utf8Go 3 0x80 0x8F bs
      else false

/-- Is it a Rust `str`? -/
def isUtf8 (b : Bytes) : Bool := utf8Go 0 0x80 0xBF b

/-- Within a character, only bytes that continue one may come next. -/
def Continues (left : ℕ) (lo hi : UInt8) : Prop := left ≠ 0 → 0x80 ≤ lo ∧ hi ≤ 0xBF

/-- What a byte does to the reader does not depend on what comes after
it. -/
theorem utf8Go_cons {left : ℕ} {lo hi b : UInt8} {bs : Bytes}
    (h : utf8Go left lo hi (b :: bs) = true) :
    ∃ left' lo' hi', Continues left' lo' hi'
      ∧ ∀ s, utf8Go left lo hi (b :: s) = utf8Go left' lo' hi' s := by
  cases left with
  | succ left =>
      rw [utf8Go] at h
      split at h
      next hb =>
        exact ⟨left, 0x80, 0xBF, fun _ => ⟨le_rfl, le_rfl⟩, fun s => by rw [utf8Go, if_pos hb]⟩
      next => cases h
  | zero =>
      rw [utf8Go] at h
      split_ifs at h with h₁ h₂ h₃ h₄ h₅ h₆ h₇ h₈
      · exact ⟨0, 0x80, 0xBF, fun _ => ⟨by decide, by decide⟩, fun s => by rw [utf8Go, if_pos h₁]⟩
      · refine ⟨1, 0x80, 0xBF, fun _ => ⟨by decide, by decide⟩, fun s => ?_⟩
        rw [utf8Go, if_neg h₁, if_pos h₂]
      · refine ⟨2, 0xA0, 0xBF, fun _ => ⟨by decide, by decide⟩, fun s => ?_⟩
        rw [utf8Go, if_neg h₁, if_neg h₂, if_pos h₃]
      · refine ⟨2, 0x80, 0x9F, fun _ => ⟨by decide, by decide⟩, fun s => ?_⟩
        rw [utf8Go, if_neg h₁, if_neg h₂, if_neg h₃, if_pos h₄]
      · refine ⟨2, 0x80, 0xBF, fun _ => ⟨by decide, by decide⟩, fun s => ?_⟩
        rw [utf8Go, if_neg h₁, if_neg h₂, if_neg h₃, if_neg h₄, if_pos h₅]
      · refine ⟨3, 0x90, 0xBF, fun _ => ⟨by decide, by decide⟩, fun s => ?_⟩
        rw [utf8Go, if_neg h₁, if_neg h₂, if_neg h₃, if_neg h₄, if_neg h₅, if_pos h₆]
      · refine ⟨3, 0x80, 0xBF, fun _ => ⟨by decide, by decide⟩, fun s => ?_⟩
        rw [utf8Go, if_neg h₁, if_neg h₂, if_neg h₃, if_neg h₄, if_neg h₅, if_neg h₆, if_pos h₇]
      · refine ⟨3, 0x80, 0x8F, fun _ => ⟨by decide, by decide⟩, fun s => ?_⟩
        rw [utf8Go, if_neg h₁, if_neg h₂, if_neg h₃, if_neg h₄, if_neg h₅, if_neg h₆, if_neg h₇,
          if_pos h₈]

/-- A front of valid text that ends where a character does is valid. -/
theorem utf8Go_front {left : ℕ} {lo hi : UInt8} {a b : Bytes} (hc : Continues left lo hi)
    (h : utf8Go left lo hi (a ++ b) = true) (hb : ∀ x, b.head? = some x → x < 0x80 ∨ 0xC0 ≤ x) :
    utf8Go left lo hi a = true := by
  induction a generalizing left lo hi with
  | nil =>
      cases left with
      | zero => rw [utf8Go]
      | succ left =>
          obtain ⟨hlo, hhi⟩ := hc (Nat.succ_ne_zero left)
          cases b with
          | nil => exact h
          | cons x b =>
              rw [List.nil_append, utf8Go] at h
              split at h
              next hx =>
                have h80 : ¬ x < 0x80 := not_lt.mpr (hlo.trans hx.1)
                have hC0 : ¬ (0xC0 : UInt8) ≤ x :=
                  not_le.mpr (lt_of_le_of_lt (hx.2.trans hhi) (by decide))
                exact absurd (hb x rfl) (not_or.mpr ⟨h80, hC0⟩)
              next => cases h
  | cons x a ih =>
      obtain ⟨left', lo', hi', hc', hstep⟩ := utf8Go_cons h
      rw [List.cons_append, hstep] at h
      rw [hstep]
      exact ih hc' h

/-- What comes after an ASCII character of valid text is valid. -/
theorem isUtf8_after {left : ℕ} {lo hi c : UInt8} {a b : Bytes} (hc : Continues left lo hi)
    (h : utf8Go left lo hi (a ++ c :: b) = true) (hasc : c < 0x80) : isUtf8 b = true := by
  induction a generalizing left lo hi with
  | nil =>
      cases left with
      | zero =>
          rw [List.nil_append, utf8Go, if_pos hasc] at h
          exact h
      | succ left =>
          rw [List.nil_append, utf8Go] at h
          split at h
          next hx =>
            have hlo := (hc (Nat.succ_ne_zero left)).1
            exact absurd (hlo.trans hx.1) (not_le.mpr hasc)
          next => cases h
  | cons x a ih =>
      obtain ⟨left', lo', hi', hc', hstep⟩ := utf8Go_cons h
      rw [List.cons_append, hstep] at h
      exact ih hc' h

/-- The hash part of a store path is a `str` when the path is one. -/
theorem isUtf8_hashPartOf {s : Bytes} (h : isUtf8 s = true) : isUtf8 (hashPartOf s) = true := by
  have hfresh : Continues 0 0x80 0xBF := fun h => absurd rfl h
  have hbase : isUtf8 (s.reverse.takeWhile (· ≠ 0x2F)).reverse = true := by
    have hsplit : s = (s.reverse.dropWhile (· ≠ 0x2F)).reverse
        ++ (s.reverse.takeWhile (· ≠ 0x2F)).reverse := by
      rw [← List.reverse_append, List.takeWhile_append_dropWhile, List.reverse_reverse]
    cases hd : s.reverse.dropWhile (· ≠ 0x2F) with
    | nil =>
        rw [hd, List.reverse_nil, List.nil_append] at hsplit
        exact hsplit ▸ h
    | cons c rest =>
        have hslash : c = 0x2F := by
          have := List.head?_dropWhile_not (· ≠ (0x2F : UInt8)) s.reverse
          rw [hd] at this
          simpa using this
        rw [hd, List.reverse_cons, List.append_assoc, List.singleton_append] at hsplit
        rw [isUtf8, hsplit] at h
        exact isUtf8_after hfresh h (by rw [hslash]; decide)
  rw [hashPartOf]
  generalize (s.reverse.takeWhile (· ≠ 0x2F)).reverse = base at hbase ⊢
  split
  next hcut =>
    refine utf8Go_front (b := base.drop 32) hfresh ?_ fun x hx => ?_
    · rw [List.take_append_drop]
      exact hbase
    · have hbound := hcut.2
      rw [List.head?_drop] at hx
      rw [isCharBoundary, hx, Bool.or_eq_true, decide_eq_true_eq, decide_eq_true_eq] at hbound
      exact hbound
  next => rfl

-- ========================================================= string methods

namespace Bytes

/-- `str::split_once`. -/
def splitOnce (c : UInt8) (s : Bytes) : Option (Bytes × Bytes) :=
  match s.dropWhile (· ≠ c) with
  | [] => none
  | _ :: rest => some (s.takeWhile (· ≠ c), rest)

/-- `str::rsplit_once`, what comes before the last `c`. -/
def beforeLast (c : UInt8) (s : Bytes) : Option Bytes :=
  match s.reverse.dropWhile (· ≠ c) with
  | [] => none
  | _ :: rest => some rest.reverse

/-- `str::contains`. -/
def containsText (s pat : Bytes) : Bool := s.tails.any fun t => pat.isPrefixOf t

/-- The encodings of the white space characters. -/
def whitespaceChars : List Bytes :=
  [[0x09], [0x0A], [0x0B], [0x0C], [0x0D], [0x20], [0xC2, 0x85], [0xC2, 0xA0],
    [0xE1, 0x9A, 0x80], [0xE2, 0x80, 0xA8], [0xE2, 0x80, 0xA9], [0xE2, 0x80, 0xAF],
    [0xE2, 0x81, 0x9F], [0xE3, 0x80, 0x80]]
  ++ (List.range 11).map fun i => [0xE2, 0x80, UInt8.ofNat (0x80 + i)]

/-- The length of the white space character in front, if there is one. -/
def whitespaceLen (s : Bytes) : ℕ :=
  ((whitespaceChars.find? fun c => c.isPrefixOf s).map List.length).getD 0

/-- The loop of `str::split_whitespace`: `skip` bytes of a white space
character are still to pass, and `word` has been read since the last. -/
def splitWhitespaceGo : ℕ → Bytes → Bytes → List Bytes
  | _, word, [] => if word = [] then [] else [word]
  | skip + 1, word, _ :: rest => splitWhitespaceGo skip word rest
  | 0, word, b :: rest =>
      match whitespaceLen (b :: rest) with
      | 0 => splitWhitespaceGo 0 (word ++ [b]) rest
      | len + 1 =>
          (if word = [] then [] else [word]) ++ splitWhitespaceGo len [] rest

/-- `str::split_whitespace`. -/
def splitWhitespace (s : Bytes) : List Bytes := splitWhitespaceGo 0 [] s

example : splitWhitespace (ascii " k-1:AA==  k-2:BB==\n")
    = [ascii "k-1:AA==", ascii "k-2:BB=="] := by decide +kernel

end Bytes

end Narshare
