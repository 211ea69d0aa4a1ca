/-
The fact table as the mesh means it: one canonical row per identity,
and merging as absorption into a join-semilattice.

# Two views of a table

`FactTable` is the row view: a finite map from identities to rows whose
every row is canonical, carries a 32-byte NAR hash and sits under its
own identity — as a field, so no other table exists. `FactTable.facts`
is the lattice view: a function from identities to facts, `⊥` where
there is none. A table is its facts (`FactTable.ext_facts`), and taking
an attestation in is joining one point (`facts_absorbOne`), so
everything in Lib/Absorb.lean applies.

# Hash collisions

The store keys a row by 128 bits of hash and drops a merge whose result
hashes like the row in place. `CollisionFree` asks distinct rows to
have distinct hashes, among the rows that can arise from the given
attestations only (`Stems`): finitely many, so the assumption is one a
real hash function meets.
-/
import Mathlib.Tactic.Common
import Mathlib.Order.WithBot
import Narshare.Lib.Absorb
import Narshare.Store.Merge

namespace Narshare

-- =============================================================== the rows

/-- A row that may sit under `pathKey`. -/
structure RowOk (pathKey : Bytes) (a : Attestation) : Prop where
  key : pathKeyOf a = pathKey
  nar : a.narHash.length = 32
  canonical : Canonical a

namespace RowOk

variable {pathKey : Bytes} {cur incoming a b : Attestation}

theorem canonicalize (h : incoming.narHash.length = 32) :
    RowOk (pathKeyOf incoming) (Narshare.canonicalize incoming) :=
  ⟨rfl, h, canonical_canonicalize incoming⟩

theorem merged (hc : RowOk pathKey cur) (hi : incoming.narHash.length = 32)
    (hk : pathKeyOf incoming = pathKey) : RowOk pathKey (Narshare.merged cur incoming) where
  key := (pathKeyOf_merged hc.nar hi (hc.key.trans hk.symm)).trans hc.key
  nar := by rw [merged_narHash, hc.nar]
  canonical := canonical_merged cur incoming

theorem narHash_eq (ha : RowOk pathKey a) (hb : RowOk pathKey b) :
    a.narHash = b.narHash :=
  (pathKeyOf_inj ha.nar hb.nar (ha.key.trans hb.key.symm)).2

/-- A row is determined by its identity and its fact. -/
theorem ext (ha : RowOk pathKey a) (hb : RowOk pathKey b) (h : factOf a = factOf b) :
    a = b :=
  ha.canonical.ext hb.canonical (ha.narHash_eq hb) h

/-- Both lookup identities determine each other. -/
theorem pathKey_of_narKey {pathKey' : Bytes} (ha : RowOk pathKey a)
    (hb : RowOk pathKey' b) (h : narKey a = narKey b) : pathKey = pathKey' := by
  obtain ⟨hnar, hhp⟩ := List.append_inj h (ha.nar.trans hb.nar.symm)
  rw [← ha.key, ← hb.key, pathKeyOf, pathKeyOf, hnar, hhp]

end RowOk

-- ============================================================== the table

/-- One canonical row per identity. -/
structure FactTable where
  rows : OrdMap Bytes Attestation
  ok : ∀ pathKey a, rows.get pathKey = some a → RowOk pathKey a

/-- The lattice view of a table. -/
abbrev Facts := Bytes → WithBot Fact

namespace FactTable

/-- The table with no facts. -/
def empty : FactTable := ⟨∅, fun _ _ h => by cases h⟩

/-- The fact of each identity. -/
def facts (t : FactTable) : Facts := fun pathKey =>
  (t.rows.get pathKey).elim ⊥ fun a => (factOf a : WithBot Fact)

theorem facts_eq_coe {t : FactTable} {pathKey : Bytes} {a : Attestation}
    (h : t.rows.get pathKey = some a) : t.facts pathKey = factOf a := by
  rw [facts, h]
  rfl

theorem facts_eq_bot {t : FactTable} {pathKey : Bytes} (h : t.rows.get pathKey = none) :
    t.facts pathKey = ⊥ := by
  rw [facts, h]
  rfl

@[simp] theorem facts_empty : empty.facts = ⊥ := rfl

theorem ext {t t' : FactTable} (h : t.rows = t'.rows) : t = t' := by
  cases t
  cases t'
  cases h
  rfl

/-- A table is its facts. -/
theorem ext_facts {t t' : FactTable} (h : t.facts = t'.facts) : t = t' := by
  apply ext
  apply OrdMap.ext
  intro pathKey
  have hk := congrFun h pathKey
  cases hg : t.rows.get pathKey with
  | none =>
      cases hg' : t'.rows.get pathKey with
      | none => rfl
      | some b =>
          rw [facts_eq_bot hg, facts_eq_coe hg'] at hk
          exact absurd hk (WithBot.bot_ne_coe)
  | some a =>
      cases hg' : t'.rows.get pathKey with
      | none =>
          rw [facts_eq_coe hg, facts_eq_bot hg'] at hk
          exact absurd hk (WithBot.coe_ne_bot)
      | some b =>
          rw [facts_eq_coe hg, facts_eq_coe hg'] at hk
          rw [(t.ok _ _ hg).ext (t'.ok _ _ hg') (WithBot.coe_injective hk)]

/-- Put a row under its identity. -/
def put (t : FactTable) (pathKey : Bytes) (a : Attestation) (h : RowOk pathKey a) :
    FactTable where
  rows := t.rows.put pathKey a
  ok k b hb := by
    rw [OrdMap.get_put] at hb
    split at hb
    next he => cases hb; exact he ▸ h
    next => exact t.ok k b hb

/-- The row an identity has once `incoming` has been merged into it. -/
def mergedRow (existing : Option Attestation) (incoming : Attestation) : Attestation :=
  existing.elim (canonicalize incoming) fun cur => merged cur incoming

theorem mergedRow_ok (t : FactTable) {incoming : Attestation}
    (h : incoming.narHash.length = 32) :
    RowOk (pathKeyOf incoming)
      (mergedRow (t.rows.get (pathKeyOf incoming)) incoming) := by
  cases hg : t.rows.get (pathKeyOf incoming) with
  | none => exact RowOk.canonicalize h
  | some cur => exact (t.ok _ _ hg).merged h rfl

theorem factOf_mergedRow (existing : Option Attestation) (incoming : Attestation) :
    ((factOf (mergedRow existing incoming) : Fact) : WithBot Fact)
      = (existing.elim ⊥ fun a => (factOf a : WithBot Fact)) ⊔ factOf incoming := by
  cases existing with
  | none =>
      rw [mergedRow, Option.elim_none, Option.elim_none, factOf_canonicalize, bot_sup_eq]
  | some cur =>
      rw [mergedRow, Option.elim_some, Option.elim_some, factOf_merged, WithBot.coe_sup]

/-- Take one attestation in. -/
def absorbOne (t : FactTable) (incoming : Attestation) : FactTable :=
  if h : incoming.narHash.length = 32 then
    t.put (pathKeyOf incoming)
      (mergedRow (t.rows.get (pathKeyOf incoming)) incoming) (t.mergedRow_ok h)
  else t

/-- Take a list of attestations in. -/
def absorbAll (t : FactTable) (attests : List Attestation) : FactTable :=
  attests.foldl absorbOne t

end FactTable

/-- What one attestation contributes: its fact at its identity, nothing
when its NAR hash is malformed. -/
def factAt (a : Attestation) : Facts :=
  if a.narHash.length = 32 then
    Function.update ⊥ (pathKeyOf a) (factOf a : WithBot Fact)
  else ⊥

theorem factAt_apply {a : Attestation} (h : a.narHash.length = 32) (pathKey : Bytes) :
    factAt a pathKey = if pathKey = pathKeyOf a then (factOf a : WithBot Fact) else ⊥ := by
  rw [factAt, if_pos h, Function.update_apply]
  rfl

namespace FactTable

/-- Taking an attestation in is a join. -/
theorem facts_absorbOne (t : FactTable) (incoming : Attestation) :
    (t.absorbOne incoming).facts = t.facts ⊔ factAt incoming := by
  by_cases h : incoming.narHash.length = 32
  · funext pathKey
    rw [absorbOne, dif_pos h, Pi.sup_apply, factAt_apply h]
    by_cases hk : pathKey = pathKeyOf incoming
    · rw [facts_eq_coe (a := mergedRow (t.rows.get (pathKeyOf incoming)) incoming)
        (by rw [put, OrdMap.get_put, if_pos hk]), if_pos hk, factOf_mergedRow, facts, hk]
    · rw [if_neg hk, sup_bot_eq, facts, facts, put, OrdMap.get_put, if_neg hk]
  · rw [absorbOne, dif_neg h, factAt, if_neg h, sup_bot_eq]

/-- Taking a list in is absorbing it, fact by fact. -/
theorem facts_absorbAll (t : FactTable) (attests : List Attestation) :
    (t.absorbAll attests).facts = absorb factAt t.facts attests := by
  induction attests generalizing t with
  | nil => rfl
  | cons a attests ih =>
      rw [absorb_cons, ← facts_absorbOne, ← ih]
      rfl

/-- Only which attestations are taken in matters. -/
theorem absorbAll_congr (t : FactTable) {l l' : List Attestation} (h : ∀ a, a ∈ l ↔ a ∈ l') :
    t.absorbAll l = t.absorbAll l' := by
  apply ext_facts
  rw [facts_absorbAll, facts_absorbAll]
  exact absorb_congr h

/-- The facts of a table are below `f` exactly when every row's is. -/
theorem facts_le_iff {t : FactTable} {f : Facts} :
    t.facts ≤ f ↔ ∀ a, t.rows.get (pathKeyOf a) = some a → factAt a ≤ f := by
  constructor
  · intro h a ha pathKey
    rw [factAt_apply (t.ok _ _ ha).nar]
    split
    next he => exact he ▸ facts_eq_coe ha ▸ h (pathKeyOf a)
    next => exact bot_le
  · intro h pathKey
    cases hg : t.rows.get pathKey with
    | none => rw [facts_eq_bot hg]; exact bot_le
    | some a =>
        obtain ⟨hkey, hnar, -⟩ := t.ok _ _ hg
        have := h a (by rw [hkey, hg]) pathKey
        rwa [factAt_apply hnar, if_pos hkey.symm, ← facts_eq_coe hg] at this

/-- Absorbing a table's own rows amounts to joining its facts. -/
theorem absorb_rows {t : FactTable} {rows : List Attestation}
    (h : ∀ a, a ∈ rows ↔ t.rows.get (pathKeyOf a) = some a) (f : Facts) :
    absorb factAt f rows = f ⊔ t.facts := by
  apply le_antisymm
  · refine absorb_le_iff.mpr ⟨le_sup_left, fun a ha => ?_⟩
    exact (facts_le_iff.mp le_rfl a ((h a).mp ha)).trans le_sup_right
  · refine sup_le (le_absorb f rows) (facts_le_iff.mpr fun a ha => ?_)
    exact le_absorb_of_mem ((h a).mpr ha)

end FactTable

-- ======================================================== where rows come from

/-- A row put together from the given attestations: one of their bodies,
and none but their signatures. -/
structure Stems (attests : List Attestation) (a : Attestation) : Prop where
  body : ∃ b ∈ attests, b.narHash = a.narHash ∧ bodyOf b = bodyOf a
  sigs : ∀ s ∈ a.sigs, ∃ c ∈ attests, s ∈ c.sigs

/-- Distinct canonical rows that can arise from the given attestations
have distinct attestation hashes. -/
def CollisionFree (cd : Codec) (attests : List Attestation) : Prop :=
  ∀ a b, Canonical a → Canonical b → Stems attests a → Stems attests b →
    attestationHash cd a = attestationHash cd b → a = b

namespace Stems

variable {attests : List Attestation} {cur incoming a : Attestation}

theorem of_mem (h : a ∈ attests) : Stems attests a :=
  ⟨⟨a, h, rfl, rfl⟩, fun _ hs => ⟨a, h, hs⟩⟩

theorem mono {attests' : List Attestation} (h : Stems attests a)
    (hsub : ∀ b ∈ attests, b ∈ attests') : Stems attests' a := by
  obtain ⟨⟨b, hb, hnar, hbody⟩, hsigs⟩ := h
  refine ⟨⟨b, hsub b hb, hnar, hbody⟩, fun s hs => ?_⟩
  obtain ⟨c, hc, hsc⟩ := hsigs s hs
  exact ⟨c, hsub c hc, hsc⟩

theorem canonicalize (h : Stems attests a) : Stems attests (Narshare.canonicalize a) :=
  ⟨h.body, fun s hs => h.sigs s (mem_canonicalize_sigs.mp hs)⟩

theorem merged (hc : Stems attests cur) (hi : Stems attests incoming)
    (hnar : cur.narHash = incoming.narHash) :
    Stems attests (Narshare.merged cur incoming) := by
  have hfact := factOf_merged cur incoming
  have hbody : bodyOf (Narshare.merged cur incoming) = bodyOf cur ⊔ bodyOf incoming :=
    (Prod.ext_iff.mp hfact).1
  have hsigs : (Narshare.merged cur incoming).sigs.toFinset
      = cur.sigs.toFinset ∪ incoming.sigs.toFinset := (Prod.ext_iff.mp hfact).2
  constructor
  · rcases le_total (bodyOf cur) (bodyOf incoming) with hle | hle
    · obtain ⟨b, hb, hbn, hbb⟩ := hi.body
      exact ⟨b, hb, by rw [hbn, merged_narHash, hnar],
        by rw [hbb, hbody, sup_eq_right.mpr hle]⟩
    · obtain ⟨b, hb, hbn, hbb⟩ := hc.body
      exact ⟨b, hb, by rw [hbn, merged_narHash],
        by rw [hbb, hbody, sup_eq_left.mpr hle]⟩
  · intro s hs
    have hmem : s ∈ cur.sigs.toFinset ∪ incoming.sigs.toFinset :=
      hsigs ▸ List.mem_toFinset.mpr hs
    rcases Finset.mem_union.mp hmem with h | h
    · exact hc.sigs s (List.mem_toFinset.mp h)
    · exact hi.sigs s (List.mem_toFinset.mp h)

end Stems

/-- Absorbing keeps every row within what the given attestations can put
together. -/
theorem FactTable.stems_absorbAll {t : FactTable} {given attests : List Attestation}
    (ht : ∀ pathKey a, t.rows.get pathKey = some a → Stems given a)
    (hsub : ∀ a ∈ attests, Stems given a) {pathKey : Bytes} {a : Attestation}
    (h : (t.absorbAll attests).rows.get pathKey = some a) : Stems given a := by
  induction attests generalizing t with
  | nil => exact ht pathKey a h
  | cons incoming attests ih =>
      refine ih (fun k b hb => ?_) (fun b hb => hsub b (List.mem_cons_of_mem _ hb)) h
      have hin := hsub incoming List.mem_cons_self
      rw [absorbOne] at hb
      split at hb
      next hlen =>
        rw [put, OrdMap.get_put] at hb
        split at hb
        next he =>
          cases hb
          cases hg : t.rows.get (pathKeyOf incoming) with
          | none => exact hin.canonicalize
          | some cur =>
              have hok := t.ok _ _ hg
              exact (ht _ _ hg).merged hin (pathKeyOf_inj hok.nar hlen hok.key).2
        next => exact ht k b hb
      next => exact ht k b hb

namespace FactTable

variable {t : FactTable} {l : List Attestation} {k : Bytes}

/-- Where a fact is said to be, there is a row that states it. -/
theorem exists_row_ge {x : Fact} (h : (x : WithBot Fact) ≤ t.facts k) :
    ∃ r, t.rows.get k = some r ∧ x ≤ factOf r := by
  cases hg : t.rows.get k with
  | none =>
      rw [facts_eq_bot hg] at h
      exact absurd h (WithBot.not_coe_le_bot x)
  | some r =>
      rw [facts_eq_coe hg] at h
      exact ⟨r, rfl, WithBot.coe_le_coe.mp h⟩

/-- A row is still covered after more has been taken in. -/
theorem exists_row_of_row {e : Attestation} (h : t.rows.get k = some e)
    (l : List Attestation) :
    ∃ r, (t.absorbAll l).rows.get k = some r ∧ factOf e ≤ factOf r := by
  apply exists_row_ge
  rw [facts_absorbAll, ← facts_eq_coe h]
  exact le_absorb t.facts l k

/-- What has been taken in is covered. -/
theorem exists_row_of_mem {a : Attestation} (ha : a ∈ l) (hlen : a.narHash.length = 32)
    (hk : pathKeyOf a = k) :
    ∃ r, (t.absorbAll l).rows.get k = some r ∧ factOf a ≤ factOf r := by
  apply exists_row_ge
  have hle := le_absorb_of_mem (f := factAt) (t := t.facts) ha k
  rw [factAt_apply hlen, if_pos hk.symm] at hle
  rw [facts_absorbAll]
  exact hle

/-- The body of a row was there before, or has been taken in. -/
theorem body_of_row_absorbAll {r : Attestation} (h : (t.absorbAll l).rows.get k = some r) :
    (∃ e, t.rows.get k = some e ∧ bodyOf e = bodyOf r)
      ∨ ∃ a ∈ l, pathKeyOf a = k ∧ bodyOf a = bodyOf r := by
  have hstems : Stems (t.rows.entries.map Prod.snd ++ l) r := by
    refine stems_absorbAll (fun pk e he => Stems.of_mem ?_) (fun a ha => Stems.of_mem ?_) h
    · exact List.mem_append_left _ (List.mem_map.mpr ⟨(pk, e), OrdMap.mem_entries.mpr he, rfl⟩)
    · exact List.mem_append_right _ ha
  obtain ⟨b, hb, hnar, hbody⟩ := hstems.body
  have hk : pathKeyOf b = k := (pathKeyOf_congr hnar hbody).trans ((t.absorbAll l).ok _ _ h).key
  rcases List.mem_append.mp hb with hb | hb
  · obtain ⟨e, he, rfl⟩ := List.mem_map.mp hb
    have hget := OrdMap.mem_entries.mp he
    rw [← (t.ok _ _ hget).key, hk] at hget
    exact Or.inl ⟨e.2, hget, hbody⟩
  · exact Or.inr ⟨b, hb, hk, hbody⟩

end FactTable

end Narshare
