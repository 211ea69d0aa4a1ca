/-
The values the index stores and ships: the messages of proto/mesh.proto
and the byte-level helpers of store/mod.rs that read them.

# Representation

- A Rust `str` is its UTF-8 bytes (`Bytes`): string comparison there is
  byte comparison, and `hash_part_of` cuts at a byte offset.
- `[u8; 32]` NAR hashes and accepted origin names are `Bytes` that carry
  their length bound; the wire's `Vec<u8>` is plain `Bytes` and crosses
  over by `NarHash.tryFrom`, as `<[u8; 32]>::try_from` does.
- A generation, a sequence number and a size are `ℕ`. The store counts
  single events up from zero and nanoseconds since 1970, so nothing
  comes near `2^64`.
- What prost and blake3 compute is outside the repository: `Codec`
  carries the two encoders and the hash function, and everything below
  is relative to one. Rows are held decoded; encoding enters only where
  the code looks at it, in lengths and in `attestation_hash`.
-/
import Mathlib.Data.UInt
import Mathlib.Data.List.Lex
import Mathlib.Data.Prod.Lex
import Mathlib.Algebra.Group.Basic
import Mathlib.Data.List.OfFn
import Narshare.Lib.OrdMap

namespace Narshare

-- ============================================================== bytes

instance byteOrder : LinearOrder UInt8 where
  le_refl := UInt8.le_refl
  le_trans _ _ _ := UInt8.le_trans
  le_antisymm _ _ := UInt8.le_antisymm
  le_total := UInt8.le_total
  lt_iff_le_not_ge a b := by
    rw [UInt8.not_le]
    exact ⟨fun h => ⟨UInt8.le_of_lt h, h⟩, fun h => h.2⟩
  toDecidableLE := inferInstance
  toDecidableLT := inferInstance

/-- A byte string; a Rust `str` is its UTF-8 bytes. -/
abbrev Bytes := List UInt8

/-- A 32-byte NAR hash, the `[u8; 32]` of the source. -/
abbrev NarHash := { b : Bytes // b.length = 32 }

instance NarHash.lawfulBEq : LawfulBEq NarHash := inferInstance

/-- `<[u8; 32]>::try_from` on a byte slice. -/
def NarHash.tryFrom (b : Bytes) : Option NarHash :=
  if h : b.length = 32 then some ⟨b, h⟩ else none

@[simp] theorem NarHash.tryFrom_val (h : NarHash) : NarHash.tryFrom h.val = some h := by
  rw [NarHash.tryFrom, dif_pos h.property]

theorem NarHash.tryFrom_eq_some {b : Bytes} {h : NarHash} :
    NarHash.tryFrom b = some h ↔ b = h.val := by
  constructor
  · intro hb
    rw [NarHash.tryFrom] at hb
    split at hb
    · cases hb
      rfl
    · cases hb
  · rintro rfl
    exact NarHash.tryFrom_val h

/-- Hashes written out and taken over again are the same hashes. -/
theorem NarHash.filterMap_tryFrom (l : List NarHash) :
    (l.map Subtype.val).filterMap NarHash.tryFrom = l := by
  induction l with
  | nil => rfl
  | cons h l ih =>
      rw [List.map_cons, List.filterMap_cons_some (NarHash.tryFrom_val h), ih]

/-- An origin name the store accepts: `okey` refuses every other length
before a row is touched. -/
abbrev Origin := { b : Bytes // 0 < b.length ∧ b.length ≤ 255 }

instance Origin.lawfulBEq : LawfulBEq Origin := inferInstance

-- ============================================================ digests

/-- A digest has a first byte. -/
instance digestLength_neZero : NeZero 16 := ⟨by decide⟩

/-- The 16 bytes of an attestation hash or of an aggregate of them. -/
@[ext]
structure Digest where
  bytes : Fin 16 → UInt8
deriving DecidableEq

namespace Digest

/-- `xor_into`, as an operation. -/
def xor (a b : Digest) : Digest := ⟨fun i => a.bytes i ^^^ b.bytes i⟩

/-- `[0u8; 16]`. -/
def zero : Digest := ⟨fun _ => 0⟩

instance : Add Digest := ⟨xor⟩

instance : Zero Digest := ⟨zero⟩

instance : Neg Digest := ⟨id⟩

/-- Digests under XOR: the aggregates of the fact tree are sums here. -/
instance : AddCommGroup Digest where
  add_assoc a b c := Digest.ext (funext fun _ => UInt8.xor_assoc ..)
  zero_add a := Digest.ext (funext fun _ => UInt8.zero_xor)
  add_zero a := Digest.ext (funext fun _ => UInt8.xor_zero)
  neg_add_cancel a := Digest.ext (funext fun _ => UInt8.xor_self)
  add_comm a b := Digest.ext (funext fun _ => UInt8.xor_comm ..)
  nsmul := nsmulRec
  zsmul := zsmulRec

/-- XOR is its own inverse. -/
theorem add_self (a : Digest) : a + a = 0 :=
  Digest.ext (funext fun _ => UInt8.xor_self)

/-- The digest as a key. -/
def toBytes (d : Digest) : Bytes := List.ofFn d.bytes

@[simp] theorem length_toBytes (d : Digest) : d.toBytes.length = 16 :=
  List.length_ofFn

theorem toBytes_injective {a b : Digest} (h : a.toBytes = b.toBytes) : a = b :=
  Digest.ext (List.ofFn_injective h)

end Digest

-- =========================================================== messages

/-- `proto::Attestation`. -/
structure Attestation where
  storePath : Bytes
  narHash : Bytes
  narSize : ℕ
  references : List Bytes
  ca : Bytes
  sigs : List Bytes
deriving DecidableEq

/-- `proto::event::Op`. -/
inductive EventOp
  | have_ (h : Bytes)
  | drop (h : Bytes)
  | attest (a : Attestation)
deriving DecidableEq

/-- `proto::Event`: one journal event of an origin. -/
structure Event where
  seq : ℕ
  op : Option EventOp
deriving DecidableEq

/-- `proto::OriginClock`. -/
structure OriginClock where
  origin : Origin
  generation : ℕ
  seq : ℕ
deriving DecidableEq

/-- `proto::RangeAsk`: events with seq in `(after, til]`. -/
structure RangeAsk where
  origin : Origin
  generation : ℕ
  after : ℕ
  til : ℕ
deriving DecidableEq

/-- `proto::RangeReply`. -/
structure RangeReply where
  origin : Origin
  generation : ℕ
  after : ℕ
  events : List Event
  reachable : Bool
deriving DecidableEq

/-- `proto::MerkleAsk`; `node` is the tree node's key prefix. -/
structure MerkleAsk where
  node : Bytes
  expand : Bool
  fetch : Bool
deriving DecidableEq

/-- `proto::MerkleNode`; the 256 aggregates are kept as a list. -/
structure MerkleNode where
  node : Bytes
  children : List Digest
deriving DecidableEq

/-- `proto::SyncRequest`, less the requester's name. -/
structure SyncRequest where
  have_ : List OriginClock
  attsCursor : Bytes
  skipOrigins : List Origin
  ranges : List RangeAsk
  merkle : List MerkleAsk
deriving DecidableEq

/-- `proto::origin_update::Body`. -/
inductive Body
  | upToDate
  | suffix (events : List Event)
  | snapshot (held : List Bytes)
deriving DecidableEq

/-- `proto::OriginUpdate`. -/
structure OriginUpdate where
  origin : Origin
  generation : ℕ
  seq : ℕ
  body : Option Body
  truncated : Bool
deriving DecidableEq

-- =================================================== outside functions

/-- What prost and blake3 compute. -/
structure Codec where
  encodeAttestation : Attestation → Bytes
  encodeEvent : Event → Bytes
  blake3 : Bytes → Fin 32 → UInt8

/-- A length-prefixed field. -/
def Codec.field (b : Bytes) : Bytes := UInt8.ofNat b.length :: b

/-- A codec that can be run by hand: fields are length-prefixed, and the
hash mixes its bytes with another multiplier in every place. -/
def Codec.plain : Codec where
  encodeAttestation a :=
    field a.storePath ++ field a.narHash ++ [UInt8.ofNat a.narSize]
      ++ field a.ca ++ a.references.flatMap field ++ a.sigs.flatMap field
  encodeEvent e := UInt8.ofNat e.seq :: match e.op with
    | none => []
    | some (.have_ h) => 1 :: field h
    | some (.drop h) => 2 :: field h
    | some (.attest a) => 3 :: field a.storePath ++ field a.narHash
  blake3 b i :=
    b.foldl (fun h x => h * UInt8.ofNat (2 * i.val + 3) + x) (UInt8.ofNat (i.val + 1))

/-- A NAR hash told apart by its first byte. -/
def NarHash.ofByte (b : UInt8) : NarHash :=
  ⟨b :: List.replicate 31 0, by rw [List.length_cons, List.length_replicate]⟩

/-- An origin named by one byte. -/
def Origin.ofByte (b : UInt8) : Origin := ⟨[b], by simp⟩

/-- A signed attestation of a one-slash store path. -/
def Attestation.ofBytes (path nar : UInt8) (sigs : List Bytes) : Attestation where
  storePath := 0x2F :: path :: List.replicate 31 97
  narHash := (NarHash.ofByte nar).val
  narSize := 1
  references := []
  ca := []
  sigs := sigs

-- ============================================= store/mod.rs on messages

/-- `str::is_char_boundary`: the end of the string, or a byte that does
not continue a character. -/
def isCharBoundary (s : Bytes) (i : ℕ) : Bool :=
  match s[i]? with
  | none => i == s.length
  | some b => decide (b < 0x80) || decide (0xC0 ≤ b)

/-- `hash_part_of`: the first 32 bytes after the last slash, empty when
there is no such slice. -/
def hashPartOf (storePath : Bytes) : Bytes :=
  let base := (storePath.reverse.takeWhile (· ≠ 0x2F)).reverse
  if 32 ≤ base.length ∧ isCharBoundary base 32 then base.take 32 else []

/-- `path_key_of`: the identity a fact is merged and looked up by. -/
def pathKeyOf (a : Attestation) : Bytes := hashPartOf a.storePath ++ a.narHash

/-- `nar_key`: the same identity, NAR hash first. -/
def narKey (a : Attestation) : Bytes := a.narHash ++ hashPartOf a.storePath

variable (cd : Codec)

/-- `attestation_hash`: 128 bits of blake3 over identity and body. -/
def attestationHash (a : Attestation) : Digest :=
  ⟨fun i => cd.blake3 (pathKeyOf a ++ cd.encodeAttestation a) (i.castLE (by decide))⟩

/-- `leaf_of`: the top 16 bits. -/
def leafOf (h : Digest) : ℕ := (h.bytes 0).toNat * 256 + (h.bytes 1).toNat

/-- `stripe_of`: which of the 64 write locks covers a key. -/
def stripeOf (key : Bytes) : Fin 64 :=
  let h := cd.blake3 key
  ⟨((h 0).toNat + (h 1).toNat * 256) % 64, Nat.mod_lt _ (by decide)⟩

/-- `well_formed` (index.rs): a real hash, a real store path, and a
reason anyone could ever believe it. -/
def wellFormed (a : Attestation) : Bool :=
  a.narHash.length == 32 && a.storePath.head? == some 0x2F
    && (hashPartOf a.storePath).length == 32
    && (!a.ca.isEmpty || !a.sigs.isEmpty)

theorem wellFormed_narHash {a : Attestation} (h : wellFormed a = true) :
    a.narHash.length = 32 := by
  simp only [wellFormed, Bool.and_eq_true, beq_iff_eq] at h
  exact h.1.1.1

theorem wellFormed_hashPart {a : Attestation} (h : wellFormed a = true) :
    (hashPartOf a.storePath).length = 32 := by
  simp only [wellFormed, Bool.and_eq_true, beq_iff_eq] at h
  exact h.1.2

/-- The coarse bucket of a digest is its first byte. -/
theorem leafOf_div (h : Digest) : leafOf h / 256 = (h.bytes 0).toNat := by
  have := (h.bytes 1).toNat_lt
  unfold leafOf
  omega

/-- The leaf within its bucket is the second byte. -/
theorem leafOf_mod (h : Digest) : leafOf h % 256 = (h.bytes 1).toNat := by
  have := (h.bytes 1).toNat_lt
  unfold leafOf
  omega

end Narshare
