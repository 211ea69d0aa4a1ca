/-
The fact tables of the shared store hold a fact table.

# The representation

`PgFacts.Holds f t` says how `attestations` and `att_agg` are laid out:
a fact's row is under its hash part and its NAR hash, and every node of
the two levels, as well as their XOR, is the XOR of the hashes under it.
It is to this backend what `Rep` and `Tracks` are to the other.

# Row by row

`merge_att` merges into whatever is there and writes it back, one
attestation at a time, so a batch is a fold and each turn of it is
`FactTable.absorbOne` (`Holds.mergeAtt`); no coalescing, no moves. A
row that is replaced keeps its key, and its old hash leaves the two
nodes above it because XOR undoes itself.
-/
import Narshare.Store.FactTable
import Narshare.Store.Postgres

namespace Narshare

variable (cd : Codec)

/-- The primary key of a fact. -/
def pgKeyOf (a : Attestation) : PgKey := toLex (hashPartOf a.storePath, a.narHash)

/-- Rows that may sit under one identity have one primary key. -/
theorem RowOk.pgKeyOf_eq {pathKey : Bytes} {a b : Attestation} (ha : RowOk pathKey a)
    (hb : RowOk pathKey b) : pgKeyOf a = pgKeyOf b := by
  obtain ⟨hhp, hnar⟩ := pathKeyOf_inj ha.nar hb.nar (ha.key.trans hb.key.symm)
  rw [pgKeyOf, pgKeyOf, hhp, hnar]

/-- One primary key is one identity. -/
theorem pathKeyOf_of_pgKeyOf {a b : Attestation} (h : pgKeyOf a = pgKeyOf b) :
    pathKeyOf a = pathKeyOf b := by
  obtain ⟨hhp, hnar⟩ := Prod.ext_iff.mp h
  rw [pathKeyOf, pathKeyOf, show hashPartOf a.storePath = hashPartOf b.storePath from hhp,
    show a.narHash = b.narHash from hnar]

-- ============================================================ the aggregates

/-- What a hash adds to a node of `att_agg`. -/
def partAt (node : ℕ × ℕ) (h : Digest) : Digest := if node ∈ aggNodes h then h else 0

/-- Folding a hash in moves exactly its nodes. -/
theorem getD_aggXor (agg : OrdMap (ℕ ×ₗ ℕ) Digest) (h : Digest) (node : ℕ × ℕ) :
    ((aggXor agg h).get (toLex node)).getD 0 = (agg.get (toLex node)).getD 0 + partAt node h := by
  have hone : ∀ (agg : OrdMap (ℕ ×ₗ ℕ) Digest) (k : ℕ × ℕ),
      ((agg.put (toLex k) ((agg.get (toLex k)).elim h fun d => d + h)).get (toLex node)).getD 0
        = (agg.get (toLex node)).getD 0 + if node = k then h else 0 := by
    intro agg k
    by_cases hk : node = k
    · subst hk
      rw [OrdMap.get_put_self, if_pos rfl]
      cases agg.get (toLex node) with
      | none => exact (zero_add h).symm
      | some d => rfl
    · rw [OrdMap.get_put, if_neg (fun he => hk (toLex_inj.mp he)), if_neg hk, add_zero]
  rw [aggXor, aggNodes, List.foldl_cons, List.foldl_cons, List.foldl_nil, hone, hone, partAt,
    aggNodes, add_assoc]
  congr 1
  by_cases h₂ : node = (2, leafOf h)
  · rw [if_pos h₂, if_neg (by rw [h₂]; simp), add_zero,
      if_pos (List.mem_cons.mpr (Or.inl h₂))]
  · rw [if_neg h₂, zero_add]
    by_cases h₁ : node = (1, leafOf h / 256)
    · rw [if_pos h₁, if_pos (List.mem_cons_of_mem _ (List.mem_singleton.mpr h₁))]
    · rw [if_neg h₁, if_neg]
      simp [h₁, h₂]

/-- The root as a sum over all of `att_agg`. -/
theorem PgFacts.merkleRoot_eq (f : PgFacts) :
    f.merkleRoot = f.attAgg.sum fun k d => if (ofLex k).1 = 1 then d else 0 := by
  rw [merkleRoot, OrdMap.sum]
  induction f.attAgg.entries with
  | nil => rfl
  | cons e l ih =>
      rw [List.map_cons, List.sum_cons, ← ih]
      by_cases he : (ofLex e.1).1 = 1
      · rw [List.filter_cons_of_pos (by simpa using he), if_pos he, List.map_cons, List.sum_cons]
      · rw [List.filter_cons_of_neg (by simpa using he), if_neg he, zero_add]

/-- Folding a hash in moves the root by it. -/
theorem PgFacts.merkleRoot_aggXor (rows : OrdMap PgKey PgRow) (agg : OrdMap (ℕ ×ₗ ℕ) Digest)
    (h : Digest) :
    PgFacts.merkleRoot ⟨rows, aggXor agg h⟩ = PgFacts.merkleRoot ⟨rows, agg⟩ + h := by
  have hone : ∀ (agg : OrdMap (ℕ ×ₗ ℕ) Digest) (node : ℕ ×ₗ ℕ),
      (agg.put node ((agg.get node).elim h fun d => d + h)).sum
          (fun k d => if (ofLex k).1 = 1 then d else 0)
        = agg.sum (fun k d => if (ofLex k).1 = 1 then d else 0)
          + if (ofLex node).1 = 1 then h else 0 := by
    intro agg node
    have hset := agg.sum_set (fun k d => if (ofLex k).1 = 1 then d else 0) node
      (some ((agg.get node).elim h fun d => d + h))
    rw [Option.elim_some] at hset
    cases hget : agg.get node with
    | none =>
        rw [hget, Option.elim_none, Option.elim_none, add_zero] at hset
        exact hset
    | some d =>
        rw [hget, Option.elim_some, Option.elim_some] at hset
        by_cases hlevel : (ofLex node).1 = 1
        · rw [if_pos hlevel, if_pos hlevel, add_comm d h, ← add_assoc] at hset
          rw [if_pos hlevel, Option.elim_some, add_comm d h]
          exact add_right_cancel hset
        · rw [if_neg hlevel, if_neg hlevel, add_zero, add_zero] at hset
          rw [if_neg hlevel, add_zero]
          exact hset
  rw [merkleRoot_eq, merkleRoot_eq]
  show (aggXor agg h).sum _ = agg.sum _ + h
  have hleaf := hone agg (toLex (2, leafOf h))
  change _ = agg.sum (fun k d => if (ofLex k).1 = 1 then d else 0) + 0 at hleaf
  have hcoarse := hone (agg.put (toLex (2, leafOf h))
    ((agg.get (toLex (2, leafOf h))).elim h fun d => d + h)) (toLex (1, leafOf h / 256))
  rw [hleaf, add_zero] at hcoarse
  exact hcoarse

-- ========================================================= the representation

/-- The fact tables hold exactly the rows of `t`, with exact
aggregates. -/
structure PgFacts.Holds (f : PgFacts) (t : FactTable) : Prop where
  row : ∀ k r, f.attestations.get k = some r ↔
    ∃ a, t.rows.get (pathKeyOf a) = some a ∧ pgKeyOf a = k ∧ PgRow.of cd a = r
  tree : ∀ node, (f.attAgg.get (toLex node)).getD 0
    = t.rows.sum fun _ a => partAt node (attestationHash cd a)
  root : f.merkleRoot = t.rows.sum fun _ a => attestationHash cd a

variable {cd}

/-- Putting a row moves a sum over hashes by its hash, and by that of
the row it replaces. -/
theorem FactTable.sum_put (t : FactTable) {pathKey : Bytes} {a : Attestation}
    (hok : RowOk pathKey a) (g : Digest → Digest) :
    ((t.put pathKey a hok).rows.sum fun _ b => g (attestationHash cd b))
      = (t.rows.sum fun _ b => g (attestationHash cd b))
        + (t.rows.get pathKey).elim 0 (fun b => g (attestationHash cd b))
        + g (attestationHash cd a) := by
  have hset := t.rows.sum_set (fun _ b => g (attestationHash cd b)) pathKey (some a)
  have hset' : ((t.put pathKey a hok).rows.sum fun _ b => g (attestationHash cd b))
      + (t.rows.get pathKey).elim 0 (fun b => g (attestationHash cd b))
      = (t.rows.sum fun _ b => g (attestationHash cd b)) + g (attestationHash cd a) := hset
  rw [add_right_comm, ← hset', add_assoc, Digest.add_self, add_zero]

namespace PgFacts.Holds

variable {f : PgFacts} {t : FactTable}

theorem empty : Holds cd {} FactTable.empty where
  row _ _ := ⟨fun h => (by cases h), fun ⟨_, h, _⟩ => (by cases h)⟩
  tree _ := rfl
  root := rfl

/-- Reading a row by the identity of a fact. -/
theorem get (h : f.Holds cd t) {a : Attestation} (ha : a.narHash.length = 32) :
    f.attestations.get (pgKeyOf a) = (t.rows.get (pathKeyOf a)).map (PgRow.of cd) := by
  cases hg : t.rows.get (pathKeyOf a) with
  | none =>
      cases hr : f.attestations.get (pgKeyOf a) with
      | none => rfl
      | some r =>
          obtain ⟨b, hb, hkey, -⟩ := (h.row _ r).mp hr
          rw [pathKeyOf_of_pgKeyOf hkey, hg] at hb
          cases hb
  | some cur =>
      have hok := t.ok _ _ hg
      have hkey : pgKeyOf cur = pgKeyOf a := by
        obtain ⟨hhp, hnar⟩ := pathKeyOf_inj hok.nar ha hok.key
        rw [pgKeyOf, pgKeyOf, hhp, hnar]
      exact (h.row _ _).mpr ⟨cur, hok.key.symm ▸ hg, hkey, rfl⟩

/-- Writing a fact's row, with the aggregates moved along, puts it in
the table. -/
theorem put (h : f.Holds cd t) {pathKey : Bytes} {a : Attestation} (hok : RowOk pathKey a) :
    Holds cd ⟨f.attestations.put (pgKeyOf a) (PgRow.of cd a),
        aggXor ((t.rows.get pathKey).elim f.attAgg fun cur =>
          aggXor f.attAgg (attestationHash cd cur)) (attestationHash cd a)⟩
      (t.put pathKey a hok) where
  row k r := by
    have hget : ∀ pk, (t.put pathKey a hok).rows.get pk
        = if pk = pathKey then some a else t.rows.get pk := fun pk => OrdMap.get_put _ _ _ _
    show (f.attestations.put (pgKeyOf a) (PgRow.of cd a)).get k = some r ↔ _
    rw [OrdMap.get_put]
    split
    next hk =>
      constructor
      · intro hr
        cases hr
        exact ⟨a, by rw [hok.key, hget, if_pos rfl], hk.symm, rfl⟩
      · rintro ⟨b, hb, hkey, rfl⟩
        rw [pathKeyOf_of_pgKeyOf (hkey.trans hk), hok.key, hget, if_pos rfl] at hb
        cases hb
        rfl
    next hk =>
      rw [h.row]
      constructor
      · rintro ⟨b, hb, hkey, hr⟩
        refine ⟨b, ?_, hkey, hr⟩
        rw [hget, if_neg]
        · exact hb
        · intro hpk
          exact hk (hkey.symm.trans ((t.ok _ _ (hpk ▸ hb)).pgKeyOf_eq hok))
      · rintro ⟨b, hb, hkey, hr⟩
        rw [hget] at hb
        split at hb
        next => cases hb; exact absurd hkey.symm hk
        next => exact ⟨b, hb, hkey, hr⟩
  tree node := by
    rw [getD_aggXor, t.sum_put hok (partAt node), ← h.tree]
    congr 1
    cases t.rows.get pathKey with
    | none => exact (add_zero _).symm
    | some cur => exact getD_aggXor f.attAgg (attestationHash cd cur) node
  root := by
    rw [merkleRoot_aggXor, t.sum_put hok fun h => h, ← h.root]
    congr 1
    cases t.rows.get pathKey with
    | none => exact (add_zero _).symm
    | some cur => exact merkleRoot_aggXor _ f.attAgg (attestationHash cd cur)

/-- `merge_att` absorbs its attestation. -/
theorem mergeAtt (h : f.Holds cd t) {a : Attestation} (ha : a.narHash.length = 32)
    (hcf : ∀ cur, t.rows.get (pathKeyOf a) = some cur →
      attestationHash cd cur = attestationHash cd (merged cur a) → cur = merged cur a) :
    (f.mergeAtt cd a).2.Holds cd (t.absorbOne a) := by
  have hrow : f.attestations.get (toLex (hashPartOf a.storePath, a.narHash)) = _ := h.get ha
  have hput := h.put (t.mergedRow_ok ha)
  have habsorb : t.absorbOne a = t.put (pathKeyOf a)
      (FactTable.mergedRow (t.rows.get (pathKeyOf a)) a) (t.mergedRow_ok ha) := dif_pos ha
  rw [← habsorb] at hput
  unfold PgFacts.mergeAtt
  simp only [hrow]
  cases hg : t.rows.get (pathKeyOf a) with
  | none =>
      simp only [hg, FactTable.mergedRow, Option.elim_none] at hput
      exact hput
  | some cur =>
      simp only [hg, FactTable.mergedRow, Option.elim_some] at hput
      have hnar : cur.narHash = a.narHash :=
        (pathKeyOf_inj (t.ok _ _ hg).nar ha (t.ok _ _ hg).key).2
      have hcur : (PgRow.of cd cur).attestation a.narHash = cur := by
        rw [← hnar]
        rfl
      simp only [Option.map_some, hcur, mergeInto, Option.elim_some]
      by_cases hm : merged cur a = cur
      · have hsame : t.absorbOne a = t := by
          rw [habsorb]
          apply FactTable.ext
          show t.rows.put (pathKeyOf a) (FactTable.mergedRow (t.rows.get (pathKeyOf a)) a) = t.rows
          rw [hg, FactTable.mergedRow, Option.elim_some, hm, OrdMap.put, ← hg, OrdMap.set_get_self]
        rw [if_neg (not_not.mpr hm), hsame]
        exact h
      · rw [if_pos hm]
        have hhash : some (PgRow.of cd cur).hash ≠ some (attestationHash cd (merged cur a)) :=
          fun he => hm (hcf cur hg (Option.some.inj he)).symm
        simp only
        rw [if_neg hhash]
        have hkey : pgKeyOf a = toLex (hashPartOf a.storePath, (merged cur a).narHash) := by
          rw [merged_narHash, hnar, pgKeyOf]
        have hsame : pgKeyOf (merged cur a) = pgKeyOf a := by
          have hpk := pathKeyOf_merged (t.ok _ _ hg).nar ha (t.ok _ _ hg).key
          obtain ⟨hhp, hnar'⟩ := pathKeyOf_inj
            ((merged_narHash cur a).symm ▸ (t.ok _ _ hg).nar) ha (hpk.trans (t.ok _ _ hg).key)
          rw [pgKeyOf, pgKeyOf, hhp, hnar']
        rw [hsame] at hput
        rw [← hkey]
        exact hput

/-- A batch is absorbed, one attestation after the other. -/
theorem mergeAll {given : List Attestation} (hcf : CollisionFree cd given)
    {attests : List Attestation} (h : f.Holds cd t)
    (ht : ∀ pk a, t.rows.get pk = some a → Stems given a)
    (hin : ∀ a ∈ attests, Stems given a ∧ a.narHash.length = 32) :
    (f.mergeAll cd attests).Holds cd (t.absorbAll attests) := by
  induction attests generalizing f t with
  | nil => exact h
  | cons a attests ih =>
      obtain ⟨hstem, ha⟩ := hin a List.mem_cons_self
      refine ih (h.mergeAtt ha fun cur hcur hhash => ?_) (fun pk b hb => ?_)
        fun b hb => hin b (List.mem_cons_of_mem _ hb)
      · have hok := t.ok _ _ hcur
        exact hcf _ _ hok.canonical (canonical_merged _ _) (ht _ _ hcur)
          ((ht _ _ hcur).merged hstem (pathKeyOf_inj hok.nar ha hok.key).2) hhash
      · exact @FactTable.stems_absorbAll t given [a] ht
          (fun c hc => by rw [List.mem_singleton.mp hc]; exact hstem) pk b hb

end PgFacts.Holds

end Narshare
