/-
What a signature is over: the fingerprint of an attestation, and how much
of the attestation it pins down.

The format is nix's, and relies on nix's names: a `;` ends a field and a
`,` a reference, and neither is escaped. An attestation that a peer made
up may have them anywhere, for `well_formed` does not look. Then one
text is the fingerprint of several attestations
(`comma_moves_reference`, `semicolon_moves_path`).

Where store paths have no `;` and references no `,`, the text is read
back field by field: the path up to the first `;`, the hash by its
length, the size up to the next `;`. The references follow in full, and
since all begin with the path's own directory, which the path has
already told, each ends at the first `,` after that, even if the
directory has commas of its own.
-/
import Mathlib.Data.List.Sort
import Narshare.Index.NixDb

namespace Narshare

-- =============================================================== reading back

/-- Fields that have no separator are told apart by it. -/
theorem field_inj {c : UInt8} {x y rest rest' : Bytes} (hx : c ∉ x) (hy : c ∉ y)
    (h : x ++ c :: rest = y ++ c :: rest') : x = y ∧ rest = rest' := by
  induction x generalizing y with
  | nil =>
      cases y with
      | nil => exact ⟨rfl, (List.cons.inj h).2⟩
      | cons b y => exact absurd (List.mem_cons.mpr (Or.inl (List.cons.inj h).1)) hy
  | cons a x ih =>
      cases y with
      | nil => exact absurd (List.mem_cons.mpr (Or.inl (List.cons.inj h).1.symm)) hx
      | cons b y =>
          obtain ⟨rfl, htail⟩ := List.cons.inj h
          obtain ⟨rfl, hrest⟩ := ih (fun hm => hx (List.mem_cons_of_mem _ hm))
            (fun hm => hy (List.mem_cons_of_mem _ hm)) htail
          exact ⟨rfl, hrest⟩

/-- The references as they are signed: full paths in one directory. -/
def fullRefs (dir : Bytes) (refs : List Bytes) : List Bytes := refs.map fun b => dir ++ 0x2F :: b

/-- References without commas are read back from the list of their full
paths. -/
theorem fullRefs_joined_inj (dir : Bytes) {refs refs' : List Bytes}
    (hc : ∀ r ∈ refs, (0x2C : UInt8) ∉ r) (hc' : ∀ r ∈ refs', (0x2C : UInt8) ∉ r)
    (h : ((fullRefs dir refs).intersperse (ascii ",")).flatten
      = ((fullRefs dir refs').intersperse (ascii ",")).flatten) : refs = refs' := by
  have hone : ∀ r s : Bytes, dir ++ 0x2F :: r = dir ++ 0x2F :: s → r = s := fun r s h =>
    (List.cons.inj (List.append_cancel_left h)).2
  -- a list of one, and a longer one
  have hend : ∀ (r s : Bytes) (rest : Bytes), (0x2C : UInt8) ∉ r →
      dir ++ 0x2F :: r ≠ dir ++ 0x2F :: s ++ 0x2C :: rest := by
    intro r s rest hr he
    rw [List.append_assoc, List.cons_append] at he
    rw [(List.cons.inj (List.append_cancel_left he)).2] at hr
    exact hr (List.mem_append_right _ List.mem_cons_self)
  induction refs generalizing refs' with
  | nil =>
      cases refs' with
      | nil => rfl
      | cons s refs' =>
          cases refs' with
          | nil => simp [fullRefs] at h
          | cons t refs' => simp [fullRefs] at h
  | cons r refs ih =>
      have hjoin : ∀ (r t : Bytes) (refs : List Bytes),
          ((fullRefs dir (r :: t :: refs)).intersperse (ascii ",")).flatten
            = dir ++ 0x2F :: r ++ 0x2C
              :: ((fullRefs dir (t :: refs)).intersperse (ascii ",")).flatten :=
        fun _ _ _ => rfl
      have hlast : ∀ r : Bytes, ((fullRefs dir [r]).intersperse (ascii ",")).flatten
          = dir ++ 0x2F :: r := fun r => List.append_nil _
      cases refs' with
      | nil =>
          cases refs with
          | nil => simp [fullRefs] at h
          | cons t refs => simp [fullRefs] at h
      | cons s refs' =>
          have hr := hc r List.mem_cons_self
          have hs := hc' s List.mem_cons_self
          cases refs with
          | nil =>
              cases refs' with
              | nil =>
                  rw [hlast, hlast] at h
                  rw [hone r s h]
              | cons u refs' =>
                  rw [hlast, hjoin] at h
                  exact absurd h (hend r s _ hr)
          | cons t refs =>
              cases refs' with
              | nil =>
                  rw [hlast, hjoin] at h
                  exact absurd h.symm (hend s r _ hs)
              | cons u refs' =>
                  rw [hjoin, hjoin, List.append_assoc, List.append_assoc, List.cons_append,
                    List.cons_append] at h
                  obtain ⟨rfl, hrest⟩ :=
                    field_inj hr hs (List.cons.inj (List.append_cancel_left h)).2
                  rw [ih (fun x hx => hc x (List.mem_cons_of_mem _ hx))
                    (fun x hx => hc' x (List.mem_cons_of_mem _ hx)) hrest]

/-- The signed list is that of the references in some order. -/
theorem exists_fullRefs_sorted (dir : Bytes) (refs : List Bytes) : ∃ refs',
    refs'.Perm refs ∧ (fullRefs dir refs).insertionSort (· ≤ ·) = fullRefs dir refs' := by
  refine ⟨refs.insertionSort fun a b => dir ++ 0x2F :: a ≤ dir ++ 0x2F :: b,
    List.perm_insertionSort _ _, ?_⟩
  exact (List.map_insertionSort _ (· ≤ ·) (fun b => dir ++ 0x2F :: b) refs
    fun _ _ _ _ => Iff.rfl).symm

theorem semicolon_notMem_decimal (n : ℕ) : (0x3B : UInt8) ∉ decimal n := by
  intro h
  have := (isDigit_decimal h).2
  exact absurd this (by decide)

-- ============================================================== the main result

/-- Has an attestation only delimiters of the format itself? -/
def Delimited (a : Attestation) : Prop :=
  (0x3B : UInt8) ∉ a.storePath ∧ ∀ r ∈ a.references, (0x2C : UInt8) ∉ r

instance (a : Attestation) : Decidable (Delimited a) := by
  unfold Delimited
  infer_instance

/-- Well-formed attestations with one fingerprint, and no delimiter in
their paths and references, are of one path, hash, size and set of
references. -/
theorem fingerprint_injective (a b : Attestation) (ha : wellFormed a = true)
    (hb : wellFormed b = true) (hda : Delimited a) (hdb : Delimited b)
    (h : fingerprint a = fingerprint b) :
    a.storePath = b.storePath ∧ a.narHash = b.narHash ∧ a.narSize = b.narSize
      ∧ a.references.Perm b.references := by
  have hshape : ∀ a : Attestation, ∃ refs' : List Bytes, refs'.Perm a.references
      ∧ fingerprint a = ascii "1;" ++ (a.storePath ++ 0x3B :: (ascii "sha256:"
        ++ (nixbase32Encode a.narHash ++ 0x3B :: (decimal a.narSize ++ 0x3B
          :: ((fullRefs ((a.storePath.beforeLast 0x2F).getD (ascii "/nix/store"))
            refs').intersperse (ascii ",")).flatten)))) := by
    intro a
    obtain ⟨refs', hperm, hsort⟩ := exists_fullRefs_sorted
      ((a.storePath.beforeLast 0x2F).getD (ascii "/nix/store")) a.references
    refine ⟨refs', hperm, ?_⟩
    unfold fingerprint
    rw [fullRefs] at hsort
    simp only [hsort, List.append_assoc]
    rfl
  obtain ⟨refs, hperm, hfa⟩ := hshape a
  obtain ⟨refs', hperm', hfb⟩ := hshape b
  rw [hfa, hfb] at h
  obtain ⟨hpath, h⟩ := field_inj hda.1 hdb.1 (List.append_cancel_left h)
  obtain ⟨hnar, h⟩ := List.append_inj (List.append_cancel_left h) (by
    rw [length_nixbase32Encode, length_nixbase32Encode, wellFormed_narHash ha,
      wellFormed_narHash hb])
  obtain ⟨hsize, h⟩ := field_inj (semicolon_notMem_decimal _) (semicolon_notMem_decimal _)
    (List.cons.inj h).2
  refine ⟨hpath, ?_, ?_, ?_⟩
  · have hback := nixbase32Decode_encode a.narHash
    rw [hnar, wellFormed_narHash ha, ← wellFormed_narHash hb, nixbase32Decode_encode] at hback
    exact (Option.some.inj hback).symm
  · have hback := digitsValue_decimal a.narSize
    rw [hsize, digitsValue_decimal] at hback
    exact hback.symm
  · rw [hpath] at h
    have hrefs := fullRefs_joined_inj _ (fun r hr => hda.2 r (hperm.subset hr))
      (fun r hr => hdb.2 r (hperm'.subset hr)) h
    exact hperm.symm.trans (hrefs ▸ hperm')

/-- A store path's basename, all of one letter. -/
def baseOf (b : UInt8) : Bytes := List.replicate 32 b

/-- A content-addressed attestation with the given references. -/
def listing (storePath : Bytes) (nar : UInt8) (refs : List Bytes) : Attestation :=
  ⟨storePath, (NarHash.ofByte nar).val, 1, refs, [1], []⟩

/-- Two orders of two references are signed alike. -/
theorem fingerprint_injective_reordered :
    [baseOf 98, baseOf 99].Perm [baseOf 99, baseOf 98] :=
  (fingerprint_injective (listing (ascii "/nix/store/" ++ baseOf 97) 5 [baseOf 98, baseOf 99])
    (listing (ascii "/nix/store/" ++ baseOf 97) 5 [baseOf 99, baseOf 98]) (by decide +kernel)
    (by decide +kernel) (by decide +kernel) (by decide +kernel) (by decide +kernel)).2.2.2

/-- One reference with a comma in it is signed as two. -/
theorem comma_moves_reference : ¬ ∀ a b : Attestation, wellFormed a = true →
    wellFormed b = true → fingerprint a = fingerprint b →
      a.storePath = b.storePath ∧ a.narHash = b.narHash ∧ a.narSize = b.narSize
        ∧ a.references.Perm b.references := by
  intro hall
  have hrefs := (hall
    (listing (ascii "/nix/store/" ++ baseOf 97) 5 [baseOf 98, baseOf 99])
    (listing (ascii "/nix/store/" ++ baseOf 97) 5 [baseOf 98 ++ ascii ",/nix/store/" ++ baseOf 99])
    (by decide +kernel) (by decide +kernel) (by decide +kernel)).2.2.2
  exact absurd hrefs.length_eq (by decide)

/-- A reference with semicolons in it is signed as the end of a longer
path, with another hash, though neither has a comma. -/
theorem semicolon_moves_path : ∃ a b : Attestation, wellFormed a = true ∧ wellFormed b = true
    ∧ (∀ r ∈ a.references ++ b.references, (0x2C : UInt8) ∉ r)
    ∧ fingerprint a = fingerprint b ∧ a.storePath ≠ b.storePath ∧ a.narHash ≠ b.narHash := by
  let hash (nar : UInt8) : Bytes :=
    ascii ";sha256:" ++ nixbase32Encode (NarHash.ofByte nar).val ++ ascii ";1;"
  refine ⟨listing (ascii "/nix/store/" ++ baseOf 97) 5 [baseOf 98 ++ hash 6],
    listing (ascii "/nix/store/" ++ baseOf 97 ++ hash 5 ++ ascii "/nix/store/" ++ baseOf 98) 6 [],
    ?_, ?_, ?_, ?_, ?_, ?_⟩
  all_goals decide +kernel

end Narshare
