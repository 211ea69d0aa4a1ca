/-
What the index reads of the Nix database, db.rs, and how it decides that
an attestation can be believed, sig.rs.

# The database

`NixDb` is one snapshot of the tables: rows in the order of their
primary key, each path once, as the schema has it. Every read below is a
function of such a snapshot; where the code makes two reads, a commit of
Nix's may lie between them, and they are of two snapshots.

A row becomes a `Candidate` when its size is there and its hash column
can be parsed. Other rows are skipped with a warning, but they count for
`MAX(id)`.

# Belief

The ed25519 check is outside the repository. `TrustedKeys` carries it as
an arbitrary predicate of key, signed text and signature, so that what
`feasible` decides is relative to one. Of an attestation it reads the
content address, the signatures and the fingerprint, which is a function
of the body; `feasible_of_body` is all that the merge needs to know.
-/
import Mathlib.Data.Int.Order.Basic
import Narshare.Store.Merge
import Narshare.Text

namespace Narshare

-- ============================================================== the tables

/-- A row of ValidPaths: the columns the source reads. -/
structure ValidPath where
  id : ℤ
  path : Bytes
  hash : Bytes
  narSize : Option ℤ
  deriver : Option Bytes
  sigs : Option Bytes
  ca : Option Bytes
deriving DecidableEq

/-- `StoreDb`, at one moment. -/
structure NixDb where
  rows : List ValidPath
  refs : List (ℤ × ℤ)
  storeDir : Bytes
  sorted : rows.Pairwise fun r r' => r.id < r'.id
  paths : (rows.map ValidPath.path).Nodup

/-- `Candidate`. -/
structure Candidate where
  id : ℤ
  path : Bytes
  narHash : NarHash
  narSize : ℕ
  sigs : List Bytes
  ca : Option Bytes
  deriver : Option Bytes
deriving DecidableEq

/-- `parse_hash_column`. -/
def parseHashColumn (h : Bytes) : Option NarHash :=
  if (ascii "sha256:").isPrefixOf h then
    let rest := h.drop 7
    (if rest.length = 64 then hexDecode rest
      else if rest.length = 52 then nixbase32Decode rest 32
      else none).bind NarHash.tryFrom
  else none

/-- The candidate a row is, when it is one. -/
def ValidPath.candidate (r : ValidPath) : Option Candidate :=
  r.narSize.bind fun size =>
    (parseHashColumn r.hash).map fun narHash =>
      { id := r.id
        path := r.path
        narHash := narHash
        narSize := (size % 2 ^ 64).toNat
        sigs := r.sigs.elim [] Bytes.splitWhitespace
        ca := r.ca.filter fun c => !c.isEmpty
        deriver := r.deriver.filter fun d => !d.isEmpty }

namespace NixDb

/-- `SELECT COALESCE(MAX(id), 0)`. -/
def maxId (db : NixDb) : ℤ := ((db.rows.map ValidPath.id).max?).getD 0

/-- `additions_since`. -/
def additionsSince (db : NixDb) (since : ℤ) : List Candidate × ℤ :=
  ((db.rows.filter fun r => decide (since < r.id)).filterMap ValidPath.candidate, db.maxId)

/-- `candidates`. -/
def candidates (db : NixDb) : List Candidate := (db.additionsSince (-1)).1

/-- `references_of`: the paths of a row's references, sorted. -/
def referencesOf (db : NixDb) (id : ℤ) : List Bytes :=
  ((db.refs.filter fun e => e.1 == id).filterMap fun e =>
    (db.rows.find? fun r => r.id == e.2).map ValidPath.path).insertionSort (· ≤ ·)

end NixDb

/-- A database without rows. -/
def NixDb.bare : NixDb where
  rows := []
  refs := []
  storeDir := ascii "/nix/store"
  sorted := List.Pairwise.nil
  paths := List.nodup_nil

/-- A database of one row. -/
def NixDb.single (r : ValidPath) : NixDb where
  rows := [r]
  refs := []
  storeDir := ascii "/nix/store"
  sorted := List.pairwise_singleton _ _
  paths := List.nodup_singleton _

/-- `basename` (narinfo.rs). -/
def basename (storePath storeDir : Bytes) : Bytes :=
  if (storeDir ++ [0x2F]).isPrefixOf storePath then storePath.drop (storeDir.length + 1)
  else storePath

/-- The attestation of a candidate, as the differ builds it. -/
def NixDb.attestation (db : NixDb) (c : Candidate) : Attestation where
  storePath := c.path
  narHash := c.narHash.val
  narSize := c.narSize
  references := (db.referencesOf c.id).map fun r => basename r db.storeDir
  ca := c.ca.getD []
  sigs := c.sigs

-- ================================================================ derivers

/-- What can be known of derivers: the verdicts remembered so far, and
what a deriver's file says, when it can be read. -/
structure Derivers where
  nosub : OrdMap Bytes Bool
  file : Bytes → Option Bytes

namespace Derivers

/-- What the text of a deriver says of substitution. -/
def allowedBy (text : Bytes) : Bool :=
  !text.containsText (ascii "(\"allowSubstitutes\",\"\")")
    && !text.containsText (ascii "\\\"allowSubstitutes\\\":false")

/-- The verdict on a deriver: the remembered one, else what its file
says; a file that cannot be read allows. -/
def verdict (dv : Derivers) (drv : Bytes) : Bool :=
  (dv.nosub.get drv).getD ((dv.file drv).elim true allowedBy)

/-- `substitutable`. -/
def substitutable (dv : Derivers) (c : Candidate) : Bool := c.deriver.elim true dv.verdict

/-- What `substitutable` leaves behind. -/
def remember (dv : Derivers) (drv : Bytes) : Derivers :=
  { dv with nosub := dv.nosub.put drv (dv.verdict drv) }

/-- Remembering a verdict changes none, so while the files stay as they
are one `Derivers` stands for all that a run asks. -/
theorem verdict_remember (dv : Derivers) (drv : Bytes) :
    (dv.remember drv).verdict = dv.verdict := by
  funext d
  unfold verdict remember
  simp only
  rw [OrdMap.get_put]
  split
  next he =>
    rw [he]
    rfl
  next => rfl

end Derivers

-- ================================================================== belief

/-- `TrustedKeys`, with what ed25519 and base64 make of a key, a text
and the signature under a name. -/
structure TrustedKeys where
  Key : Type
  keys : List (Bytes × Key)
  verify : Key → Bytes → Bytes → Bool

/-- `fingerprint`: what is signed. The references are spelled out as full
paths in the path's own directory. -/
def fingerprint (a : Attestation) : Bytes :=
  let storeDir := (a.storePath.beforeLast 0x2F).getD (ascii "/nix/store")
  let refs := (a.references.map fun b => storeDir ++ 0x2F :: b).insertionSort (· ≤ ·)
  ascii "1;" ++ a.storePath ++ ascii ";sha256:" ++ nixbase32Encode a.narHash ++ ascii ";"
    ++ decimal a.narSize ++ ascii ";" ++ (refs.intersperse (ascii ",")).flatten

/-- One turn of the loop of `any_sig_valid`: the signature's key has to
be trusted under that very name. -/
def TrustedKeys.sigValid (keys : TrustedKeys) (text sig : Bytes) : Bool :=
  match sig.splitOnce 0x3A with
  | none => false
  | some (name, b64) => keys.keys.any fun k => k.1 == name && keys.verify k.2 text b64

/-- `any_sig_valid`. -/
def TrustedKeys.anySigValid (keys : TrustedKeys) (a : Attestation) : Bool :=
  a.sigs.any (keys.sigValid (fingerprint a))

/-- `feasible`: believable under the current anchor. -/
def feasible (keys : TrustedKeys) (a : Attestation) : Bool :=
  wellFormed a && (!a.ca.isEmpty || keys.anySigValid a)

/-- `TrustedKeys::none`. -/
def TrustedKeys.none : TrustedKeys := ⟨Unit, [], fun _ _ _ => false⟩

-- =================================================================== facts

theorem wellFormed_of_feasible {keys : TrustedKeys} {a : Attestation}
    (h : feasible keys a = true) : wellFormed a = true := by
  rw [feasible, Bool.and_eq_true] at h
  exact h.1

/-- What is signed is a function of the identity and the body. -/
theorem fingerprint_congr {a b : Attestation} (hnar : a.narHash = b.narHash)
    (hbody : bodyOf a = bodyOf b) : fingerprint a = fingerprint b := by
  simp only [bodyOf, EmbeddingLike.apply_eq_iff_eq, Prod.mk.injEq] at hbody
  obtain ⟨hpath, hsize, hrefs, -⟩ := hbody
  unfold fingerprint
  rw [hnar, hpath, hsize, hrefs]

/-- An attestation with the body of a feasible one and all its
signatures is feasible. -/
theorem feasible_of_body {keys : TrustedKeys} {a b : Attestation}
    (h : feasible keys a = true) (hnar : a.narHash = b.narHash)
    (hbody : bodyOf a = bodyOf b) (hsigs : ∀ s ∈ a.sigs, s ∈ b.sigs) :
    feasible keys b = true := by
  have hfp := fingerprint_congr hnar hbody
  simp only [bodyOf, EmbeddingLike.apply_eq_iff_eq, Prod.mk.injEq] at hbody
  obtain ⟨hpath, -, -, hca⟩ := hbody
  unfold feasible TrustedKeys.anySigValid wellFormed at h ⊢
  rw [hnar, hpath, hca, hfp] at h
  simp only [Bool.and_eq_true, Bool.or_eq_true, List.any_eq_true] at h ⊢
  obtain ⟨⟨hshape, hreason⟩, hbelief⟩ := h
  refine ⟨⟨hshape, hreason.imp id fun hne => ?_⟩, hbelief.imp id fun hsig => ?_⟩
  · rw [Bool.not_eq_true', List.isEmpty_eq_false_iff_exists_mem] at hne ⊢
    obtain ⟨s, hs⟩ := hne
    exact ⟨s, hsigs s hs⟩
  · obtain ⟨s, hs, hv⟩ := hsig
    exact ⟨s, hsigs s hs, hv⟩

namespace NixDb

variable {db : NixDb}

/-- No row's id is above the largest. -/
theorem le_maxId {r : ValidPath} (h : r ∈ db.rows) : r.id ≤ db.maxId := by
  obtain ⟨m, hm⟩ := Option.isSome_iff_exists.mp
    (List.isSome_max?_of_mem (List.mem_map_of_mem (f := ValidPath.id) h))
  rw [maxId, hm]
  exact (List.max?_le_iff hm).mp le_rfl _ (List.mem_map_of_mem h)

theorem mem_additionsSince {since : ℤ} {c : Candidate} :
    c ∈ (db.additionsSince since).1 ↔
      ∃ r ∈ db.rows, since < r.id ∧ r.candidate = some c := by
  rw [additionsSince, List.mem_filterMap]
  constructor
  · rintro ⟨r, hr, hc⟩
    obtain ⟨hr, hlt⟩ := List.mem_filter.mp hr
    exact ⟨r, hr, of_decide_eq_true hlt, hc⟩
  · rintro ⟨r, hr, hlt, hc⟩
    exact ⟨r, List.mem_filter.mpr ⟨hr, decide_eq_true hlt⟩, hc⟩

end NixDb

end Narshare
