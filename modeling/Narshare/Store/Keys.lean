/-
The byte keys of store/rocks.rs: how an origin, a sequence number, a hash
and a pair of origins are written, and why scans of one origin's rows
stay inside that origin.

# Length first

`okey` puts the length of the name before the name. One origin's name
may begin another's, but their keys then differ in the first byte
already, so no key begins with the `okey` of a foreign origin
(`okey_prefix_iff`). `holdby` has the hash first and needs no length: the
hash has one.

# Order

Below one origin the rest of the key sorts as what it stands for:
sequence numbers are written big-endian (`bigEndian_lt`). Across origins
it does not: shorter names come first.
-/
import Narshare.Lib.Encode
import Narshare.Proto

namespace Narshare

-- ================================================================== integers

/-- The last `k` bytes of a number, most significant first. -/
def bigEndian : ℕ → ℕ → Bytes
  | 0, _ => []
  | k + 1, n => UInt8.ofNat (n / 256 ^ k) :: bigEndian k (n % 256 ^ k)

/-- The number some bytes stand for. -/
def fromBigEndian (b : Bytes) : ℕ := b.foldl (fun n x => n * 256 + x.toNat) 0

@[simp] theorem length_bigEndian (k n : ℕ) : (bigEndian k n).length = k := by
  induction k generalizing n with
  | zero => rfl
  | succ k ih => rw [bigEndian, List.length_cons, ih]

/-- The leading byte of a number that fits. -/
theorem toNat_lead {k n : ℕ} (h : n < 256 ^ (k + 1)) :
    (UInt8.ofNat (n / 256 ^ k)).toNat = n / 256 ^ k := by
  refine UInt8.toNat_ofNat_of_lt' ?_
  exact Nat.div_lt_of_lt_mul (by rwa [pow_succ] at h)

/-- Numbers that fit sort as their bytes do. -/
theorem bigEndian_lt {k a b : ℕ} (hab : a < b) (hb : b < 256 ^ k) :
    bigEndian k a < bigEndian k b := by
  induction k generalizing a b with
  | zero =>
      rw [pow_zero] at hb
      omega
  | succ k ih =>
      rw [bigEndian, bigEndian, List.cons_lt_cons_iff]
      have hpos : 0 < 256 ^ k := Nat.pow_pos (by decide)
      have hle : a / 256 ^ k ≤ b / 256 ^ k := Nat.div_le_div_right hab.le
      rcases Nat.lt_or_eq_of_le hle with hlt | heq
      · left
        rw [UInt8.lt_iff_toNat_lt, toNat_lead (hab.trans hb), toNat_lead hb]
        exact hlt
      · right
        refine ⟨congrArg UInt8.ofNat heq, ih ?_ (Nat.mod_lt b hpos)⟩
        have ha := Nat.div_add_mod a (256 ^ k)
        have hb' := Nat.div_add_mod b (256 ^ k)
        rw [heq] at ha
        omega

theorem bigEndian_injective {k a b : ℕ} (ha : a < 256 ^ k) (hb : b < 256 ^ k)
    (h : bigEndian k a = bigEndian k b) : a = b := by
  rcases Nat.lt_trichotomy a b with hlt | heq | hlt
  · exact absurd h (bigEndian_lt hlt hb).ne
  · exact heq
  · exact absurd h (bigEndian_lt hlt ha).ne'

/-- Reading back what was written. -/
theorem fromBigEndian_bigEndian {k n : ℕ} (h : n < 256 ^ k) :
    fromBigEndian (bigEndian k n) = n := by
  have key : ∀ (k n acc : ℕ), n < 256 ^ k →
      (bigEndian k n).foldl (fun n x => n * 256 + x.toNat) acc = acc * 256 ^ k + n := by
    intro k
    induction k with
    | zero =>
        intro n acc hn
        rw [pow_zero] at hn ⊢
        show acc = acc * 1 + n
        omega
    | succ k ih =>
        intro n acc hn
        rw [bigEndian, List.foldl_cons, ih _ _ (Nat.mod_lt n (Nat.pow_pos (by decide))),
          toNat_lead hn, Nat.add_mul, Nat.add_assoc, Nat.div_add_mod', Nat.mul_assoc,
          pow_succ']
  rw [fromBigEndian, key k n 0 h, Nat.zero_mul, Nat.zero_add]

-- ====================================================================== keys

/-- A name as the store takes it. -/
def Origin.tryFrom (b : Bytes) : Option Origin :=
  if h : 0 < b.length ∧ b.length ≤ 255 then some ⟨b, h⟩ else none

@[simp] theorem Origin.tryFrom_val (o : Origin) : Origin.tryFrom o.val = some o := by
  rw [Origin.tryFrom, dif_pos o.property]

/-- `okey`: one byte of length, then the name. -/
def okey (o : Origin) : Bytes := UInt8.ofNat o.val.length :: o.val

/-- `jkey`: a journal row. -/
def jkey (o : Origin) (seq : ℕ) : Bytes := okey o ++ bigEndian 8 seq

/-- A row of `hold`. -/
def holdKey (o : Origin) (h : NarHash) : Bytes := okey o ++ h.val

/-- A row of `holdby`. -/
def holdbyKey (h : NarHash) (o : Origin) : Bytes := h.val ++ o.val

/-- A row of `wm`. -/
def wmKey (peer o : Origin) : Bytes := okey peer ++ o.val

/-- The numbers a u64 can be. -/
def U64 (n : ℕ) : Prop := n < 2 ^ 64

instance (n : ℕ) : Decidable (U64 n) := inferInstanceAs (Decidable (n < 2 ^ 64))

/-- They fit eight bytes. -/
theorem U64.lt_pow {n : ℕ} (h : U64 n) : n < 256 ^ 8 :=
  lt_of_lt_of_eq h (by decide)

-- ==================================================================== apart

variable {o o' : Origin}

/-- No key begins with the `okey` of another origin. -/
theorem okey_prefix_iff {rest : Bytes} : okey o <+: okey o' ++ rest ↔ o = o' := by
  constructor
  · intro h
    rw [okey, okey, List.cons_append, List.cons_prefix_cons] at h
    obtain ⟨hlen, hname⟩ := h
    have hlen' : o.val.length = o'.val.length := by
      have hto := congrArg UInt8.toNat hlen
      rwa [UInt8.toNat_ofNat_of_lt' (Nat.lt_succ_of_le o.property.2),
        UInt8.toNat_ofNat_of_lt' (Nat.lt_succ_of_le o'.property.2)] at hto
    obtain ⟨t, ht⟩ := hname
    exact Subtype.ext (List.append_inj ht hlen').1
  · rintro rfl
    exact List.prefix_append _ _

/-- Keys that lead with an origin tell it and the rest. -/
theorem okey_append_inj {rest rest' : Bytes} (h : okey o ++ rest = okey o' ++ rest') :
    o = o' ∧ rest = rest' := by
  have ho : o = o' := okey_prefix_iff.mp (h ▸ List.prefix_append _ _)
  subst ho
  exact ⟨rfl, List.append_cancel_left h⟩

theorem okey_injective (h : okey o = okey o') : o = o' :=
  (okey_append_inj (by rw [List.append_nil, List.append_nil, h] : okey o ++ [] = okey o' ++ [])).1

theorem jkey_injective {n n' : ℕ} (hn : U64 n) (hn' : U64 n') (h : jkey o n = jkey o' n') :
    o = o' ∧ n = n' := by
  obtain ⟨ho, hrest⟩ := okey_append_inj h
  exact ⟨ho, bigEndian_injective hn.lt_pow hn'.lt_pow hrest⟩

theorem holdKey_injective {h h' : NarHash} (he : holdKey o h = holdKey o' h') :
    o = o' ∧ h = h' := by
  obtain ⟨ho, hrest⟩ := okey_append_inj he
  exact ⟨ho, Subtype.ext hrest⟩

theorem holdbyKey_injective {h h' : NarHash} (he : holdbyKey h o = holdbyKey h' o') :
    h = h' ∧ o = o' := by
  obtain ⟨hh, ho⟩ := List.append_inj he (h.property.trans h'.property.symm)
  exact ⟨Subtype.ext hh, Subtype.ext ho⟩

theorem wmKey_injective {p p' : Origin} (he : wmKey p o = wmKey p' o') : p = p' ∧ o = o' := by
  obtain ⟨hp, hrest⟩ := okey_append_inj he
  exact ⟨hp, Subtype.ext hrest⟩

/-- The journal rows of an origin sort by number. -/
theorem jkey_lt {n n' : ℕ} (hn' : U64 n') (h : n < n') : jkey o n < jkey o n' :=
  List.append_left_lt (bigEndian_lt h hn'.lt_pow)

/-- The last eight bytes of a journal key are its number. -/
theorem seq_of_jkey {n : ℕ} (hn : U64 n) :
    fromBigEndian ((jkey o n).drop ((jkey o n).length - 8)) = n := by
  have hdrop : (jkey o n).drop ((jkey o n).length - 8) = bigEndian 8 n := by
    rw [jkey]
    refine List.drop_left' ?_
    rw [List.length_append, length_bigEndian, Nat.add_sub_cancel]
  rw [hdrop]
  exact fromBigEndian_bigEndian hn.lt_pow

/-- The last 32 bytes of a possession key are its hash. -/
theorem hash_of_holdKey (h : NarHash) :
    NarHash.tryFrom ((holdKey o h).drop ((holdKey o h).length - 32)) = some h := by
  have hdrop : (holdKey o h).drop ((holdKey o h).length - 32) = h.val := by
    rw [holdKey]
    refine List.drop_left' ?_
    rw [List.length_append, h.property, Nat.add_sub_cancel]
  rw [hdrop, NarHash.tryFrom_val]

end Narshare
