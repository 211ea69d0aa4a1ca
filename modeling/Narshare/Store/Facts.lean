/-
The three fact families and the aggregate tree represent a fact table.

# The representation

`Rep db t` says how the rows of a `FactTable` are laid out: `att_path`
maps an identity to its row's hash, `att` holds the row under that hash,
`att_nar` indexes the same hash the other way round, and none of the
three holds anything else. `Tracks agg db` says that every node of the
aggregate tree is the XOR of the hashes under it.

# One move at a time

A merge writes rows as `Move`s. `Rep.write_move` is the one lemma that
opens the three families: it says a move that was computed from the row
in place (`Move.Ok`) puts its row in the table. Everything above — a
merge, an interrupted merge, many merges side by side — is an induction
over moves with pairwise distinct identities, for which a move stays
`Ok` under the others.
-/
import Mathlib.Data.List.Perm.Basic
import Narshare.Store.FactTable
import Narshare.Store.Batch

namespace Narshare

variable (cd : Codec)

-- ======================================================= the representation

/-- The fact families hold exactly the rows of `t`. -/
structure Rep (db : Db) (t : FactTable) : Prop where
  path : ∀ pathKey,
    db.attPath.get pathKey = (t.rows.get pathKey).map (attestationHash cd)
  att : ∀ k a, db.att.get k = some a ↔
    t.rows.get (pathKeyOf a) = some a ∧ k = Db.attKey (attestationHash cd a) (pathKeyOf a)
  nar : ∀ k h, db.attNar.get k = some h ↔
    ∃ pathKey a, t.rows.get pathKey = some a ∧ narKey a = k ∧ attestationHash cd a = h

theorem Rep.empty : Rep cd {} FactTable.empty where
  path _ := rfl
  att _ _ := ⟨fun h => (by cases h), fun h => (by cases h.1)⟩
  nar _ _ := ⟨fun h => (by cases h), fun ⟨_, _, h, _⟩ => (by cases h)⟩

theorem attKey_inj {h h' : Digest} {pk pk' : Bytes} :
    Db.attKey h pk = Db.attKey h' pk' ↔ h = h' ∧ pk = pk' := by
  constructor
  · intro he
    obtain ⟨hh, hpk⟩ := List.append_inj he (by simp)
    exact ⟨Digest.toBytes_injective hh, hpk⟩
  · rintro ⟨rfl, rfl⟩
    rfl

/-- The first two bytes of a row's key are its bucket and its leaf. -/
theorem attKey_eq (h : Digest) (pathKey : Bytes) :
    ∃ rest, Db.attKey h pathKey = h.bytes 0 :: h.bytes 1 :: rest := by
  refine ⟨(List.ofFn fun i : Fin 14 => h.bytes i.succ.succ) ++ pathKey, ?_⟩
  rw [Db.attKey, Digest.toBytes, List.ofFn_succ, List.ofFn_succ]
  rfl

variable {cd}

namespace Rep

variable {db : Db} {t t' : FactTable}

/-- The families determine the table. -/
theorem unique (h : Rep cd db t) (h' : Rep cd db t') : t = t' := by
  apply FactTable.ext
  apply OrdMap.ext
  intro pathKey
  have key : ∀ {t t' : FactTable}, Rep cd db t → Rep cd db t' →
      ∀ a, t.rows.get pathKey = some a → t'.rows.get pathKey = some a := by
    intro t t' h h' a ha
    have hpk := (t.ok _ _ ha).key
    have hrow := (h.att _ a).mpr ⟨hpk ▸ ha, rfl⟩
    exact hpk ▸ ((h'.att _ a).mp hrow).1
  cases hg : t.rows.get pathKey with
  | some a => exact (key h h' a hg).symm
  | none =>
      cases hg' : t'.rows.get pathKey with
      | none => rfl
      | some a => rw [key h' h a hg'] at hg; cases hg

/-- Reading a row through the path index. -/
theorem attAt (h : Rep cd db t) (pathKey : Bytes) :
    ((db.attPath.get pathKey).bind fun oh => db.attAt oh pathKey)
      = t.rows.get pathKey := by
  rw [h.path]
  cases hg : t.rows.get pathKey with
  | none => rfl
  | some a =>
      have hpk := (t.ok _ _ hg).key
      exact (h.att _ a).mpr ⟨hpk ▸ hg, by rw [hpk]⟩

/-- A batch with no fact rows keeps the representation. -/
theorem write_noFacts (h : Rep cd db t) {b : Batch} (hb : b.NoFacts) :
    Rep cd (db.write b) t := by
  have hatt : (db.write b).att = db.att := by rw [Db.write, hb.att]; rfl
  have hpath : (db.write b).attPath = db.attPath := by rw [Db.write, hb.attPath]; rfl
  have hnar : (db.write b).attNar = db.attNar := by rw [Db.write, hb.attNar]; rfl
  exact ⟨hpath ▸ h.path, hatt ▸ h.att, hnar ▸ h.nar⟩

end Rep

-- ================================================================= moves

/-- A move computed from the row in place: it writes a row that may sit
under its identity, from the hash the table has there, and the hash
changes. -/
structure Move.Ok (cd : Codec) (t : FactTable) (mv : Move) : Prop where
  row : RowOk mv.pathKey mv.row
  old : mv.old = (t.rows.get mv.pathKey).map (attestationHash cd)
  moved : mv.old ≠ some (attestationHash cd mv.row)

/-- A move stays good when another identity's row is put. -/
theorem Move.Ok.put {t : FactTable} {mv : Move} (h : mv.Ok cd t) {pk : Bytes}
    {a : Attestation} (hok : RowOk pk a) (hne : mv.pathKey ≠ pk) :
    mv.Ok cd (t.put pk a hok) :=
  ⟨h.row, by rw [FactTable.put, OrdMap.get_put, if_neg hne]; exact h.old, h.moved⟩

/-- Writing a good move puts its row. -/
theorem Rep.write_move {db : Db} {t : FactTable} (h : Rep cd db t) {mv : Move}
    (hmv : mv.Ok cd t) :
    Rep cd (db.write (mv.batch cd)) (t.put mv.pathKey mv.row hmv.row) := by
  obtain ⟨pk, old, row⟩ := mv
  obtain ⟨hrow, hold, hmoved⟩ := hmv
  simp only at hrow hold hmoved ⊢
  have hget : ∀ k, (t.put pk row hrow).rows.get k
      = if k = pk then some row else t.rows.get k := fun k => OrdMap.get_put _ _ _ _
  constructor
  · intro k
    rw [hget]
    change (db.attPath.set pk (some (attestationHash cd row))).get k = _
    rw [OrdMap.get_set, h.path]
    split <;> rfl
  · intro k a
    rw [hget]
    -- the old key goes before the new one comes; the two never coincide
    have hread : (db.write (Move.batch cd ⟨pk, old, row⟩)).att.get k
        = if k = Db.attKey (attestationHash cd row) pk then some row
          else if ∃ oh, old = some oh ∧ k = Db.attKey oh pk then none
          else db.att.get k := by
      cases old with
      | none =>
          change (db.att.set _ (some row)).get k = _
          rw [OrdMap.get_set]
          simp
      | some oh =>
          change ((db.att.set _ none).set _ (some row)).get k = _
          rw [OrdMap.get_set, OrdMap.get_set]
          simp only [Option.some.injEq, exists_eq_left']
    rw [hread]
    by_cases hk : k = Db.attKey (attestationHash cd row) pk
    · rw [if_pos hk]
      constructor
      · intro ha
        cases ha
        rw [hrow.key]
        exact ⟨if_pos rfl, hk⟩
      · rintro ⟨ha, hka⟩
        have hpk : pathKeyOf a = pk := (attKey_inj.mp (hka.symm.trans hk)).2
        rw [if_pos hpk] at ha
        exact ha
    · rw [if_neg hk]
      split
      next hoh =>
        obtain ⟨oh, hoh, hkoh⟩ := hoh
        constructor
        · intro ha
          cases ha
        · rintro ⟨ha, hka⟩
          have hpk : pathKeyOf a = pk := (attKey_inj.mp (hka.symm.trans hkoh)).2
          rw [if_pos hpk] at ha
          cases ha
          exact absurd (hpk ▸ hka) hk
      next hoh =>
        rw [h.att]
        constructor
        · rintro ⟨ha, hka⟩
          have hpk : pathKeyOf a ≠ pk := by
            intro hpk
            refine hoh ⟨attestationHash cd a, ?_, hpk ▸ hka⟩
            rw [hold, ← hpk, ha]
            rfl
          exact ⟨(if_neg hpk).trans ha, hka⟩
        · rintro ⟨ha, hka⟩
          have hpk : pathKeyOf a ≠ pk := by
            intro hpk
            rw [if_pos hpk] at ha
            cases ha
            exact hk (hpk ▸ hka)
          rw [if_neg hpk] at ha
          exact ⟨ha, hka⟩
  · intro k d
    change (db.attNar.set (narKey row) (some (attestationHash cd row))).get k = some d ↔ _
    rw [OrdMap.get_set]
    split
    next hk =>
      constructor
      · intro hd
        cases hd
        exact ⟨pk, row, by rw [hget, if_pos rfl], hk.symm, rfl⟩
      · rintro ⟨pk', a, ha, hka, rfl⟩
        rw [hget] at ha
        split at ha
        next => cases ha; rfl
        next hne =>
          exact absurd ((t.ok _ _ ha).pathKey_of_narKey hrow (hka.trans hk)) hne
    next hk =>
      rw [h.nar]
      constructor
      · rintro ⟨pk', a, ha, hka, hd⟩
        have hne : pk' ≠ pk := by
          rintro rfl
          have hok := t.ok _ _ ha
          obtain ⟨hhp, hnar⟩ := pathKeyOf_inj hok.nar hrow.nar (hok.key.trans hrow.key.symm)
          exact hk (by rw [← hka, narKey, narKey, hhp, hnar])
        exact ⟨pk', a, by rw [hget, if_neg hne, ha], hka, hd⟩
      · rintro ⟨pk', a, ha, hka, hd⟩
        rw [hget] at ha
        split at ha
        next => cases ha; exact absurd hka.symm hk
        next => exact ⟨pk', a, ha, hka, hd⟩

/-- Writing good moves of distinct identities puts all their rows. -/
theorem Rep.write_moves {db : Db} {t : FactTable} (h : Rep cd db t) {moves : List Move}
    (hok : ∀ mv ∈ moves, mv.Ok cd t) (hnd : (moves.map Move.pathKey).Nodup) :
    ∃ t', Rep cd (db.write (movesBatch cd moves)) t'
      ∧ t'.rows = t.rows.setAll (moves.map fun mv => (mv.pathKey, some mv.row)) := by
  induction moves generalizing db t with
  | nil => exact ⟨t, h, rfl⟩
  | cons mv moves ih =>
      rw [List.map_cons, List.nodup_cons] at hnd
      have hmv := hok mv List.mem_cons_self
      obtain ⟨t', hrep, hrows⟩ := ih (h.write_move hmv)
        (fun mv' h' => (hok mv' (List.mem_cons_of_mem _ h')).put hmv.row
          fun he => hnd.1 (he ▸ List.mem_map_of_mem h')) hnd.2
      refine ⟨t', ?_, ?_⟩
      · rw [movesBatch, List.map_cons, Batch.concat_cons, Db.write_append]
        exact hrep
      · rw [hrows]
        rfl

-- ============================================================ the aggregates

/-- A node of the aggregate tree. -/
inductive Node
  | root
  | coarse (block : ℕ)
  | leaf (block slot : ℕ)

namespace Node

/-- Is the hash under the node? -/
def covers : Node → Digest → Bool
  | root, _ => true
  | coarse block, h => leafOf h / 256 == block
  | leaf block slot, h => leafOf h / 256 == block && leafOf h % 256 == slot

/-- What a hash adds to the node's aggregate. -/
def part (n : Node) (h : Digest) : Digest := if n.covers h then h else 0

end Node

namespace Aggregates

/-- The aggregate kept for a node. -/
def cell (agg : Aggregates) : Node → Digest
  | .root => agg.root
  | .coarse block => agg.coarse block
  | .leaf block slot => ((agg.blocks block).getD fun _ => 0) slot

/-- Folding a hash in moves exactly the nodes above it. -/
theorem cell_xor (agg : Aggregates) (h : Digest) (n : Node) :
    (agg.xor h).cell n = agg.cell n + n.part h := by
  cases n with
  | root => rfl
  | coarse block =>
      simp only [cell, xor, Node.part, Node.covers, Function.update_apply, beq_iff_eq]
      by_cases hb : leafOf h / 256 = block
      · rw [if_pos hb, if_pos hb.symm, hb]
      · rw [if_neg hb, if_neg (Ne.symm hb), add_zero]
  | leaf block slot =>
      simp only [cell, xor, Node.part, Node.covers, Function.update_apply,
        Bool.and_eq_true, beq_iff_eq]
      by_cases hb : leafOf h / 256 = block
      · rw [if_pos hb.symm, Option.getD_some, Function.update_apply, hb]
        by_cases hs : leafOf h % 256 = slot
        · rw [if_pos hs.symm, if_pos ⟨rfl, hs⟩, hs]
        · rw [if_neg (Ne.symm hs), if_neg (fun h => hs h.2), add_zero]
      · rw [if_neg (Ne.symm hb), if_neg (fun h => hb h.1), add_zero]

theorem cell_xorAll (agg : Aggregates) (hs : List Digest) (n : Node) :
    (agg.xorAll hs).cell n = agg.cell n + (hs.map n.part).sum := by
  induction hs generalizing agg with
  | nil => simp [xorAll]
  | cons h hs ih =>
      rw [xorAll, List.foldl_cons, ← xorAll, ih, cell_xor, List.map_cons, List.sum_cons,
        add_assoc]

@[simp] theorem cell_new (n : Node) : new.cell n = 0 := by
  cases n <;> rfl

/-- The leaf level as read: an unmaterialized block reads as zeros. -/
theorem leaves_eq (agg : Aggregates) (block : ℕ) :
    agg.leaves block = (List.range 256).map fun slot => agg.cell (.leaf block slot) := by
  simp only [leaves, cell]
  cases agg.blocks block with
  | some cells => rfl
  | none => simp

/-- Every node's aggregate is the XOR of the hashes under it. -/
def Tracks (agg : Aggregates) (db : Db) : Prop :=
  ∀ n : Node, agg.cell n = db.attPath.sum fun _ h => n.part h

/-- `rebuild_aggregates` computes them. -/
theorem tracks_rebuild (db : Db) : (rebuildAggregates db).Tracks db := by
  intro n
  rw [rebuildAggregates, cell_xorAll, cell_new, zero_add, List.map_map]
  rfl

/-- Two trees over the same index answer every read alike. -/
theorem Tracks.children_eq {s s' : Store} (h : s.agg.Tracks s.db)
    (h' : s'.agg.Tracks s'.db) (hp : s.db.attPath = s'.db.attPath) :
    s.merkleRoot = s'.merkleRoot ∧ ∀ node, s.merkleChildren node = s'.merkleChildren node := by
  have hcell : ∀ n, s.agg.cell n = s'.agg.cell n := fun n => by rw [h n, h' n, hp]
  refine ⟨hcell .root, fun node => ?_⟩
  match node with
  | [] =>
      have hc : s.agg.coarse = s'.agg.coarse := funext fun b => hcell (.coarse b)
      rw [Store.merkleChildren, Store.merkleChildren, hc]
  | [c] =>
      rw [Store.merkleChildren, Store.merkleChildren, leaves_eq, leaves_eq]
      simp only [hcell]
  | _ :: _ :: _ => rfl

end Aggregates

/-- What a batch of good moves adds to a node's sum is what its delta
says: the new hashes in, the old ones out. -/
theorem Rep.sum_write_moves {db : Db} {t : FactTable} (h : Rep cd db t)
    {moves : List Move} (hok : ∀ mv ∈ moves, mv.Ok cd t)
    (hnd : (moves.map Move.pathKey).Nodup) (n : Node) :
    ((db.write (movesBatch cd moves)).attPath.sum fun _ h => n.part h)
      = (db.attPath.sum fun _ h => n.part h) + ((movesDelta cd moves).map n.part).sum := by
  induction moves generalizing db t with
  | nil => simp [movesBatch, movesDelta]
  | cons mv moves ih =>
      rw [List.map_cons, List.nodup_cons] at hnd
      have hmv := hok mv List.mem_cons_self
      have hone : ((db.write (mv.batch cd)).attPath.sum fun _ h => n.part h)
          = (db.attPath.sum fun _ h => n.part h) + ((mv.delta cd).map n.part).sum := by
        have hset := db.attPath.sum_set (fun _ h => n.part h) mv.pathKey
          (some (attestationHash cd mv.row))
        rw [h.path, ← hmv.old] at hset
        have hin : ((mv.delta cd).map n.part).sum
            = mv.old.elim 0 n.part + n.part (attestationHash cd mv.row) := by
          cases hold : mv.old <;> simp [Move.delta, hold]
        -- XOR is its own inverse, so the old hash moves across as itself
        calc (db.attPath.set mv.pathKey
                (some (attestationHash cd mv.row))).sum (fun _ h => n.part h)
            = (db.attPath.set mv.pathKey
                (some (attestationHash cd mv.row))).sum (fun _ h => n.part h)
                + mv.old.elim 0 n.part + mv.old.elim 0 n.part := by
              rw [add_assoc, Digest.add_self, add_zero]
          _ = (db.attPath.sum fun _ h => n.part h) + n.part (attestationHash cd mv.row)
                + mv.old.elim 0 n.part := by
              rw [hset]
              rfl
          _ = (db.attPath.sum fun _ h => n.part h) + ((mv.delta cd).map n.part).sum := by
              rw [hin, add_assoc, add_comm (n.part _)]
      rw [movesBatch, List.map_cons, Batch.concat_cons, Db.write_append, ← movesBatch,
        ih (h.write_move hmv)
          (fun mv' h' => (hok mv' (List.mem_cons_of_mem _ h')).put hmv.row
            fun he => hnd.1 (he ▸ List.mem_map_of_mem h')) hnd.2,
        hone, movesDelta, movesDelta, List.flatMap_cons, List.map_append, List.sum_append,
        add_assoc]

/-- Summing over the rows themselves or over the path index is the same:
the two families hold the same hashes. -/
theorem Rep.sum_att {db : Db} {t : FactTable} (h : Rep cd db t) (n : Node) :
    (db.att.sum fun _ a => n.part (attestationHash cd a))
      = db.attPath.sum fun _ h => n.part h := by
  have hperm : (db.att.entries.map fun e => (pathKeyOf e.2, attestationHash cd e.2)).Perm
      db.attPath.entries := by
    rw [List.perm_ext_iff_of_nodup _ db.attPath.entries_nodup]
    · rintro ⟨pk, d⟩
      rw [OrdMap.mem_entries, h.path, List.mem_map]
      constructor
      · rintro ⟨⟨k, a⟩, hmem, he⟩
        cases he
        rw [((h.att k a).mp (OrdMap.mem_entries.mp hmem)).1]
        rfl
      · intro hd
        obtain ⟨a, ha, rfl⟩ := Option.map_eq_some_iff.mp hd
        have hpk := (t.ok _ _ ha).key
        exact ⟨(Db.attKey (attestationHash cd a) (pathKeyOf a), a),
          OrdMap.mem_entries.mpr ((h.att _ a).mpr ⟨hpk ▸ ha, rfl⟩), by rw [hpk]⟩
    · refine List.Nodup.map_on ?_ db.att.entries_nodup
      rintro ⟨k, a⟩ hmem ⟨k', a'⟩ hmem' he
      obtain ⟨ha, rfl⟩ := (h.att k a).mp (OrdMap.mem_entries.mp hmem)
      obtain ⟨ha', rfl⟩ := (h.att k' a').mp (OrdMap.mem_entries.mp hmem')
      have hpk : pathKeyOf a = pathKeyOf a' := (Prod.ext_iff.mp he).1
      rw [hpk, ha'] at ha
      cases ha
      rfl
  have := (hperm.map fun e => n.part e.2).sum_eq
  rw [List.map_map] at this
  exact this

-- ========================================================== merging a batch

/-- One identity of a batch: either nothing to write, or a good move to
the merged row. -/
theorem Rep.mergeOne {db : Db} {t : FactTable} (h : Rep cd db t) {pathKey : Bytes}
    {incoming : Attestation} (hin : RowOk pathKey incoming) :
    ∀ mv, mergeOne cd db pathKey incoming = some mv →
      mv.pathKey = pathKey ∧ mv.Ok cd t
        ∧ mv.row = FactTable.mergedRow (t.rows.get pathKey) incoming := by
  intro mv hmv
  rw [Narshare.mergeOne, h.attAt, h.path] at hmv
  cases hg : t.rows.get pathKey with
  | none =>
      rw [hg] at hmv
      simp only [mergeInto, Option.map_none] at hmv
      cases hmv
      refine ⟨rfl, ⟨?_, ?_, by simp⟩, rfl⟩
      · exact hin.key ▸ RowOk.canonicalize hin.nar
      · simp only [hg, Option.map_none]
  | some cur =>
      rw [hg] at hmv
      simp only [mergeInto, Option.map_some] at hmv
      split at hmv
      next => cases hmv
      next m hm =>
        split at hm
        next hne =>
          cases hm
          split at hmv
          next => cases hmv
          next hhash =>
            cases hmv
            refine ⟨rfl, ⟨(t.ok _ _ hg).merged hin.nar hin.key, ?_, hhash⟩, rfl⟩
            simp only [hg, Option.map_some]
        next => cases hm

/-- With no collision, nothing to write means nothing new. -/
theorem Rep.mergeOne_none {db : Db} {t : FactTable} (h : Rep cd db t) {pathKey : Bytes}
    {incoming : Attestation}
    (hcf : ∀ cur, t.rows.get pathKey = some cur →
      attestationHash cd cur = attestationHash cd (merged cur incoming) →
        cur = merged cur incoming)
    (hnone : Narshare.mergeOne cd db pathKey incoming = none) :
    t.rows.get pathKey = some (FactTable.mergedRow (t.rows.get pathKey) incoming) := by
  rw [Narshare.mergeOne, h.attAt, h.path] at hnone
  cases hg : t.rows.get pathKey with
  | none =>
      rw [hg] at hnone
      simp [mergeInto] at hnone
  | some cur =>
      rw [hg] at hnone
      simp only [mergeInto, Option.map_some] at hnone
      split at hnone
      next hm =>
        split at hm
        next => cases hm
        next heq => rw [FactTable.mergedRow, Option.elim_some, not_not.mp heq]
      next m hm =>
        split at hm
        next hne =>
          cases hm
          split at hnone
          next hhash =>
            rw [FactTable.mergedRow, Option.elim_some,
              ← hcf cur hg (Option.some.inj hhash)]
          next => cases hnone
        next => cases hm

/-- The coalesced table of a batch is the batch absorbed into nothing. -/
theorem coalesce_eq (attests : List Attestation) :
    coalesce attests = (FactTable.empty.absorbAll attests).rows := by
  have hone : ∀ (t : FactTable) (a : Attestation),
      coalesceOne t.rows a = (t.absorbOne a).rows := by
    intro t a
    rw [coalesceOne, FactTable.absorbOne]
    split
    next hlen =>
      rw [FactTable.put]
      simp only
      cases hg : t.rows.get (pathKeyOf a) with
      | none => rfl
      | some cur =>
          simp only [mergeInto, FactTable.mergedRow, Option.elim_some]
          by_cases hm : merged cur a = cur
          · rw [if_neg (not_not.mpr hm), hm, OrdMap.put, ← hg, OrdMap.set_get_self]
          · rw [if_pos hm]
    next => rfl
  have key : ∀ (t : FactTable), attests.foldl coalesceOne t.rows
      = (attests.foldl FactTable.absorbOne t).rows := by
    induction attests with
    | nil => exact fun _ => rfl
    | cons a attests ih =>
        intro t
        rw [List.foldl_cons, List.foldl_cons, hone, ih]
  exact key FactTable.empty

/-- Every coalesced row may sit under its identity. -/
theorem rowOk_of_mem_coalesce {attests : List Attestation} {e : Bytes × Attestation}
    (h : e ∈ (coalesce attests).entries) : RowOk e.1 e.2 := by
  rw [coalesce_eq] at h
  exact (FactTable.empty.absorbAll attests).ok _ _ (OrdMap.mem_entries.mp h)

/-- The moves of a batch are good and have distinct identities. -/
theorem Rep.mergeAtts {db : Db} {t : FactTable} (h : Rep cd db t)
    (attests : List Attestation) :
    (∀ mv ∈ mergeAtts cd db attests, mv.Ok cd t)
      ∧ ((mergeAtts cd db attests).map Move.pathKey).Nodup := by
  constructor
  · intro mv hmv
    obtain ⟨e, he, hmv⟩ := List.mem_filterMap.mp hmv
    exact (h.mergeOne (rowOk_of_mem_coalesce he) mv hmv).2.1
  · exact (coalesce attests).keys_nodup.sublist <| map_filterMap_sublist fun e he mv hmv =>
      (h.mergeOne (rowOk_of_mem_coalesce he) mv hmv).1

end Narshare
