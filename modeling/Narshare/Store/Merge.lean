/-
The fact merge of store/mod.rs: one attestation per identity, signature
sets unioned, conflicting bodies resolved to their maximum.

# The abstract fact

What two nodes must agree on is not an `Attestation` but a `Fact`: the
body, ordered lexicographically as `body_cmp` orders it, paired with the
SET of signatures. Facts of one identity form a join-semilattice — the
body component is linearly ordered, the signature component is a finite
set — and `merge_into` is its join (`factOf_mergeInto`). An attestation
in canonical form is determined by its fact and its NAR hash
(`Canonical.ext`), so agreeing on facts is agreeing on rows, byte for
byte.
-/
import Mathlib.Order.Compare
import Mathlib.Data.Finset.Lattice.Basic
import Mathlib.Data.Prod.Lex
import Narshare.Proto
import Narshare.Lib.Absorb

namespace Narshare

-- ==================================================== canonical form

/-- `Vec::dedup`: of each run of equal neighbours keep the first. -/
def vecDedup {α : Type*} [DecidableEq α] : List α → List α
  | [] => []
  | [x] => [x]
  | x :: y :: t => if x = y then vecDedup (y :: t) else x :: vecDedup (y :: t)

/-- `sort` then `dedup`. -/
def sortDedup {α : Type*} [LinearOrder α] (l : List α) : List α :=
  vecDedup (l.insertionSort (· ≤ ·))

/-- `canonicalize`: signatures sorted and deduped. -/
def canonicalize (a : Attestation) : Attestation :=
  { a with sigs := sortDedup a.sigs }

/-- Strictly ascending in the key order. -/
def Ascending {α : Type*} [LinearOrder α] (l : List α) : Prop :=
  l.Pairwise (· < ·)

instance {α : Type*} [LinearOrder α] (l : List α) : Decidable (Ascending l) :=
  inferInstanceAs (Decidable (List.Pairwise _ _))

/-- A row in canonical form: signatures ascend strictly. -/
def Canonical (a : Attestation) : Prop := Ascending a.sigs

instance (a : Attestation) : Decidable (Canonical a) :=
  inferInstanceAs (Decidable (Ascending _))

theorem mem_vecDedup {α : Type*} [DecidableEq α] {x : α} {l : List α} :
    x ∈ vecDedup l ↔ x ∈ l := by
  induction l using vecDedup.induct with
  | case1 => rfl
  | case2 y => rfl
  | case3 y t ih =>
      rw [vecDedup, if_pos rfl, ih]
      simp
  | case4 y z t hne ih =>
      rw [vecDedup, if_neg hne, List.mem_cons, ih, ← List.mem_cons]

theorem ascending_vecDedup {α : Type*} [LinearOrder α] {l : List α}
    (h : l.Pairwise (· ≤ ·)) : Ascending (vecDedup l) := by
  unfold Ascending
  induction l using vecDedup.induct with
  | case1 => exact List.Pairwise.nil
  | case2 y => exact List.pairwise_singleton _ _
  | case3 y t ih =>
      rw [vecDedup, if_pos rfl]
      exact ih (List.pairwise_cons.mp h).2
  | case4 y z t hne ih =>
      obtain ⟨hle, hrest⟩ := List.pairwise_cons.mp h
      rw [vecDedup, if_neg hne]
      refine List.pairwise_cons.mpr ⟨fun w hw => ?_, ih hrest⟩
      have hyz : y < z := lt_of_le_of_ne (hle z List.mem_cons_self) hne
      rcases List.mem_cons.mp (mem_vecDedup.mp hw) with rfl | hw
      · exact hyz
      · exact hyz.trans_le ((List.pairwise_cons.mp hrest).1 w hw)

theorem mem_sortDedup {α : Type*} [LinearOrder α] {x : α} {l : List α} :
    x ∈ sortDedup l ↔ x ∈ l := by
  rw [sortDedup, mem_vecDedup, List.mem_insertionSort]

theorem ascending_sortDedup {α : Type*} [LinearOrder α] (l : List α) :
    Ascending (sortDedup l) :=
  ascending_vecDedup (List.pairwise_insertionSort _ l)

/-- Canonicalizing keeps the signature set. -/
theorem mem_canonicalize_sigs {a : Attestation} {s : Bytes} :
    s ∈ (canonicalize a).sigs ↔ s ∈ a.sigs := mem_sortDedup

theorem canonical_canonicalize (a : Attestation) : Canonical (canonicalize a) :=
  ascending_sortDedup a.sigs

/-- Strictly ascending lists with the same members are the same list. -/
theorem Ascending.eq_of_mem_iff {α : Type*} [LinearOrder α] {l l' : List α}
    (h : Ascending l) (h' : Ascending l')
    (hmem : ∀ x, x ∈ l ↔ x ∈ l') : l = l' := by
  have hperm : l.Perm l' :=
    (List.perm_ext_iff_of_nodup (h.imp ne_of_lt) (h'.imp ne_of_lt)).mpr hmem
  exact hperm.eq_of_pairwise
    (fun a b _ _ hab hba => absurd (hab.trans hba) (lt_irrefl _)) h h'

-- ========================================================== the merge

/-- `Ord::cmp` of a totally ordered type. -/
def ordCmp {α : Type*} [LinearOrder α] (a b : α) : Ordering := cmp a b

theorem ordCmp_eq_gt {α : Type*} [LinearOrder α] {a b : α} :
    ordCmp a b = .gt ↔ b < a := cmp_eq_gt_iff a b

theorem ordCmp_eq_eq {α : Type*} [LinearOrder α] {a b : α} :
    ordCmp a b = .eq ↔ a = b := cmp_eq_eq_iff a b

/-- `body_cmp`: the order on non-signature bodies; the maximum wins. -/
def bodyCmp (a b : Attestation) : Ordering :=
  (ordCmp a.storePath b.storePath).then <|
    (ordCmp a.narSize b.narSize).then <|
      (ordCmp a.references b.references).then <| ordCmp a.ca b.ca

/-- What `merge_into` makes of a stored row and an incoming one, before
it asks whether anything changed. -/
def merged (before incoming : Attestation) : Attestation :=
  let cur := canonicalize before
  let cur := canonicalize { cur with sigs := cur.sigs ++ incoming.sigs }
  if bodyCmp incoming cur = .gt then
    { cur with
      storePath := incoming.storePath
      narSize := incoming.narSize
      references := incoming.references
      ca := incoming.ca }
  else cur

/-- `merge_into`: the canonical merged row, or `none` when nothing
changed. -/
def mergeInto (existing : Option Attestation) (incoming : Attestation) :
    Option Attestation :=
  match existing with
  | none => some (canonicalize incoming)
  | some before =>
      if merged before incoming ≠ before then some (merged before incoming)
      else none

-- ====================================================== the abstract fact

/-- A body, ordered lexicographically field by field. -/
abbrev FactBody := Bytes ×ₗ ℕ ×ₗ List Bytes ×ₗ Bytes

/-- A fact of some identity: its body and the set of its signatures. -/
abbrev Fact := FactBody × Finset Bytes

/-- The body of an attestation. -/
def bodyOf (a : Attestation) : FactBody :=
  toLex (a.storePath, toLex (a.narSize, toLex (a.references, a.ca)))

/-- The fact an attestation states. -/
def factOf (a : Attestation) : Fact := (bodyOf a, a.sigs.toFinset)

/-- `body_cmp` compares bodies. -/
theorem bodyCmp_eq_gt {a b : Attestation} :
    bodyCmp a b = .gt ↔ bodyOf b < bodyOf a := by
  unfold bodyCmp bodyOf
  rw [Ordering.then_eq_gt, Ordering.then_eq_gt, Ordering.then_eq_gt]
  simp only [ordCmp_eq_gt, ordCmp_eq_eq, Prod.Lex.toLex_lt_toLex,
    @eq_comm _ b.storePath, @eq_comm _ b.narSize, @eq_comm _ b.references]

/-- The body says which identity within a NAR hash. -/
theorem pathKeyOf_congr {a b : Attestation} (hnar : a.narHash = b.narHash)
    (hbody : bodyOf a = bodyOf b) : pathKeyOf a = pathKeyOf b := by
  have hpath : a.storePath = b.storePath := congrArg (fun x => (ofLex x).1) hbody
  rw [pathKeyOf, pathKeyOf, hpath, hnar]

/-- Store paths weigh first among bodies. -/
theorem storePath_le_of_bodyOf_le {a b : Attestation} (h : bodyOf a ≤ bodyOf b) :
    a.storePath ≤ b.storePath := by
  rcases Prod.Lex.toLex_le_toLex.mp h with hlt | ⟨heq, -⟩
  · exact hlt.le
  · exact heq.le

/-- A greater fact has all the signatures. -/
theorem sigs_subset_of_factOf_le {a b : Attestation} (h : factOf a ≤ factOf b) :
    ∀ s ∈ a.sigs, s ∈ b.sigs := fun _ hs =>
  List.mem_toFinset.mp (h.2 (List.mem_toFinset.mpr hs))

/-- Canonical rows of one NAR hash that state the same fact are the same
row. -/
theorem Canonical.ext {a b : Attestation} (ha : Canonical a) (hb : Canonical b)
    (hnar : a.narHash = b.narHash) (h : factOf a = factOf b) : a = b := by
  obtain ⟨hbody, hsigs⟩ := Prod.ext_iff.mp h
  have hsigs' : a.sigs = b.sigs := by
    refine Ascending.eq_of_mem_iff ha hb fun x => ?_
    have hx : x ∈ a.sigs.toFinset ↔ x ∈ b.sigs.toFinset := by
      rw [show a.sigs.toFinset = b.sigs.toFinset from hsigs]
    simpa using hx
  simp only [factOf, bodyOf, EmbeddingLike.apply_eq_iff_eq, Prod.mk.injEq] at hbody
  obtain ⟨hpath, hsize, hrefs, hca⟩ := hbody
  cases a
  cases b
  simp_all

@[simp] theorem factOf_canonicalize (a : Attestation) :
    factOf (canonicalize a) = factOf a := by
  refine Prod.ext rfl (Finset.ext fun s => ?_)
  simp only [factOf, List.mem_toFinset]
  exact mem_canonicalize_sigs

-- ==================================================== the merge is a join

/-- Merging is joining facts. -/
theorem factOf_merged (cur incoming : Attestation) :
    factOf (merged cur incoming) = factOf cur ⊔ factOf incoming := by
  have hsigs : ((canonicalize { canonicalize cur with
      sigs := (canonicalize cur).sigs ++ incoming.sigs }).sigs).toFinset
      = cur.sigs.toFinset ∪ incoming.sigs.toFinset := by
    ext s
    simp only [List.mem_toFinset, mem_canonicalize_sigs, List.mem_append,
      Finset.mem_union]
  rw [merged]
  split
  next hgt =>
    have hlt : bodyOf cur < bodyOf incoming := bodyCmp_eq_gt.mp hgt
    exact Prod.ext (sup_eq_right.mpr hlt.le).symm hsigs
  next hgt =>
    have hle : bodyOf incoming ≤ bodyOf cur :=
      not_lt.mp fun h => hgt (bodyCmp_eq_gt.mpr h)
    exact Prod.ext (sup_eq_left.mpr hle).symm hsigs

theorem canonical_merged (cur incoming : Attestation) :
    Canonical (merged cur incoming) := by
  rw [merged]
  split
  · exact canonical_canonicalize _
  · exact canonical_canonicalize _

@[simp] theorem merged_narHash (cur incoming : Attestation) :
    (merged cur incoming).narHash = cur.narHash := by
  rw [merged]
  split <;> rfl

/-- The merged row keeps one of the two store paths. -/
theorem merged_storePath (cur incoming : Attestation) :
    (merged cur incoming).storePath = cur.storePath
      ∨ (merged cur incoming).storePath = incoming.storePath := by
  rw [merged]
  split
  · exact Or.inr rfl
  · exact Or.inl rfl

/-- Identities of real NAR hashes split back into their two halves. -/
theorem pathKeyOf_inj {a b : Attestation} (ha : a.narHash.length = 32)
    (hb : b.narHash.length = 32) (h : pathKeyOf a = pathKeyOf b) :
    hashPartOf a.storePath = hashPartOf b.storePath ∧ a.narHash = b.narHash :=
  List.append_inj' h (ha.trans hb.symm)

/-- Merging within an identity stays in it. -/
theorem pathKeyOf_merged {cur incoming : Attestation}
    (hc : cur.narHash.length = 32) (hi : incoming.narHash.length = 32)
    (h : pathKeyOf cur = pathKeyOf incoming) :
    pathKeyOf (merged cur incoming) = pathKeyOf cur := by
  obtain ⟨hhp, -⟩ := pathKeyOf_inj hc hi h
  unfold pathKeyOf
  rw [merged_narHash]
  rcases merged_storePath cur incoming with hp | hp
  · rw [hp]
  · rw [hp, hhp]

end Narshare
