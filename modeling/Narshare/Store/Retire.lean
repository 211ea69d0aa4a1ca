/-
`retain_origins` on the tables: what is left of the origins that leave,
and that nothing else moves.

The scan that finds the departed origins walks the CLOCKS, and what it
deletes of each it finds under that origin. So everything a departed
origin has goes, if it has a clock row; of one that has none, nothing
does (`replica_writeAll_retainIn`). Which order the scan meets them in
does not matter, nor where the batches are cut.
-/
import Narshare.Store.Facts
import Narshare.Store.Replica

namespace Narshare

variable {db : Db}

-- ============================================================== the deletions

/-- Everything `retain_origins` deletes of one origin. -/
def retireBatch (db : Db) (o : Origin) : Batch where
  clocks := [(o, none)]
  journal := ((db.journal.entries.filter fun e => (ofLex e.1).1 = o).map Prod.fst).map
    fun k => (k, none)
  hold := (db.holdings o).map fun h => (toLex (o, h), none)
  holdby := (db.holdings o).map fun h => (toLex (h, o), none)

/-- Possession deletions one by one, gathered into one batch. -/
theorem concat_holdDeletes (o : Origin) (hs : List NarHash) :
    Batch.concat (hs.map fun h => ({ hold := [(toLex (o, h), none)],
                                     holdby := [(toLex (h, o), none)] } : Batch))
      = { hold := hs.map fun h => (toLex (o, h), none)
          holdby := hs.map fun h => (toLex (h, o), none) } := by
  induction hs with
  | nil => rfl
  | cons h hs ih => rw [List.map_cons, Batch.concat_cons, ih]; rfl

/-- One departed origin: where the batches are cut aside, its deletions
are appended. -/
theorem concat_retainOne (db : Db) (st : List Batch × Batch) (o : Origin) :
    Batch.concat (retainOne db st o).1 ++ (retainOne db st o).2
      = Batch.concat st.1 ++ st.2 ++ retireBatch db o := by
  rw [retainOne]
  simp only
  rw [← Batch.append_assoc, concat_flushPush, concat_flushPush, concat_holdDeletes,
    concat_journalDeletes, Batch.append_assoc, Batch.append_assoc]
  congr 1
  simp [retireBatch, Batch.append_def, Batch.append]

theorem writeAll_retainIn (db : Db) (departed : List Origin) (wm : List (Origin ×ₗ Origin)) :
    db.writeAll (retainIn db departed wm)
      = db.write (Batch.concat (departed.map (retireBatch db))
          ++ { wm := wm.map fun k => (k, none) }) := by
  have key : ∀ (os : List Origin) (st : List Batch × Batch),
      Batch.concat (os.foldl (retainOne db) st).1 ++ (os.foldl (retainOne db) st).2
        = Batch.concat st.1 ++ st.2 ++ Batch.concat (os.map (retireBatch db)) := by
    intro os
    induction os with
    | nil => exact fun st => (Batch.append_empty _).symm
    | cons o os ih =>
        intro st
        rw [List.foldl_cons, ih, concat_retainOne, List.map_cons, Batch.concat_cons,
          Batch.append_assoc]
  rw [Db.writeAll_eq_write, retainIn]
  rw [Batch.concat_append, Batch.concat_cons, Batch.concat_nil, Batch.append_empty,
    ← Batch.append_assoc, key]
  rfl

-- =================================================================== what is left

theorem clocks_concat (bs : List Batch) :
    (Batch.concat bs).clocks = bs.flatMap Batch.clocks := by
  induction bs with
  | nil => rfl
  | cons b bs ih => rw [Batch.concat_cons, Batch.append_clocks, ih, List.flatMap_cons]

theorem journal_concat (bs : List Batch) :
    (Batch.concat bs).journal = bs.flatMap Batch.journal := by
  induction bs with
  | nil => rfl
  | cons b bs ih => rw [Batch.concat_cons, Batch.append_journal, ih, List.flatMap_cons]

theorem hold_concat (bs : List Batch) : (Batch.concat bs).hold = bs.flatMap Batch.hold := by
  induction bs with
  | nil => rfl
  | cons b bs ih => rw [Batch.concat_cons, Batch.append_hold, ih, List.flatMap_cons]

/-- A row that is there and belongs to a departed origin is deleted; the
rows of the others are not named. -/
theorem get_setAll_retire {K V : Type} [LinearOrder K] {m : OrdMap K V}
    {departed : List Origin} {del : Origin → List K} (owner : K → Origin)
    (hdel : ∀ o k, k ∈ del o ↔ owner k = o ∧ (m.get k).isSome = true) (k : K) :
    (m.setAll (departed.flatMap fun o => (del o).map fun k => (k, none))).get k
      = if owner k ∈ departed then none else m.get k := by
  rw [OrdMap.get_setAll_deletes]
  · have hmem : k ∈ (departed.flatMap fun o => (del o).map fun k => (k, (none : Option V))).map
        Prod.fst ↔ owner k ∈ departed ∧ (m.get k).isSome = true := by
      rw [List.mem_map]
      constructor
      · rintro ⟨w, hw, rfl⟩
        obtain ⟨o, ho, hw⟩ := List.mem_flatMap.mp hw
        obtain ⟨k', hk', rfl⟩ := List.mem_map.mp hw
        obtain ⟨rfl, hsome⟩ := (hdel o k').mp hk'
        exact ⟨ho, hsome⟩
      · rintro ⟨ho, hsome⟩
        exact ⟨(k, none), List.mem_flatMap.mpr ⟨owner k, ho, List.mem_map.mpr
          ⟨k, (hdel _ k).mpr ⟨rfl, hsome⟩, rfl⟩⟩, rfl⟩
    by_cases ho : owner k ∈ departed
    · rw [if_pos ho]
      cases hget : m.get k with
      | none => exact ite_self _
      | some v =>
          rw [if_pos (hmem.mpr ⟨ho, by rw [hget]; rfl⟩)]
    · rw [if_neg ho, if_neg fun hin => ho (hmem.mp hin).1]
  · intro w hw
    obtain ⟨o, -, hw⟩ := List.mem_flatMap.mp hw
    obtain ⟨k', -, rfl⟩ := List.mem_map.mp hw
    rfl

section Rows

variable (db : Db) (departed : List Origin) (wm : List (Origin ×ₗ Origin))

/-- The clock rows of departed origins go. -/
theorem clocks_retainIn (o : Origin) :
    (db.writeAll (retainIn db departed wm)).clocks.get o
      = if o ∈ departed then none else db.clocks.get o := by
  have hlist : (departed.flatMap fun o => (retireBatch db o).clocks)
      = departed.map fun o => (o, none) := List.flatMap_pure_eq_map _ _
  rw [writeAll_retainIn, Db.write, Batch.append_clocks, clocks_concat, List.append_nil,
    List.flatMap_map, hlist, OrdMap.get_setAll_deletes]
  · have hkeys : (departed.map fun o => (o, (none : Option Clock))).map Prod.fst = departed := by
      rw [List.map_map]
      exact List.map_id departed
    rw [hkeys]
    split <;> rfl
  · intro w hw
    obtain ⟨o', -, rfl⟩ := List.mem_map.mp hw
    rfl

/-- So do their journal rows. -/
theorem journal_retainIn (o : Origin) (n : ℕ) :
    (db.writeAll (retainIn db departed wm)).journal.get (toLex (o, n))
      = if o ∈ departed then none else db.journal.get (toLex (o, n)) := by
  rw [writeAll_retainIn, Db.write, Batch.append_journal, journal_concat, List.append_nil,
    List.flatMap_map]
  exact get_setAll_retire (fun k => (ofLex k).1)
    (fun _ _ => Db.mem_journalKeys.trans and_comm) (toLex (o, n))

/-- And their holdings. -/
theorem hold_retainIn (o : Origin) (x : NarHash) :
    (db.writeAll (retainIn db departed wm)).hold.get (toLex (o, x))
      = if o ∈ departed then none else db.hold.get (toLex (o, x)) := by
  have hlist : ∀ o, (retireBatch db o).hold
      = ((db.holdings o).map fun h => toLex (o, h)).map fun k => (k, none) := by
    intro o
    rw [List.map_map]
    rfl
  rw [writeAll_retainIn, Db.write, Batch.append_hold, hold_concat, List.append_nil,
    List.flatMap_map, List.flatMap_congr fun o _ => hlist o]
  refine get_setAll_retire (fun k => (ofLex k).1) (fun o' k => ?_) (toLex (o, x))
  rw [List.mem_map]
  constructor
  · rintro ⟨h', hmem, rfl⟩
    exact ⟨rfl, mem_holdings.mp hmem⟩
  · rintro ⟨rfl, hsome⟩
    exact ⟨(ofLex k).2, mem_holdings.mpr hsome, rfl⟩

/-- Of the watermarks the listed rows go. -/
theorem wm_retainIn (k : Origin ×ₗ Origin) :
    (db.writeAll (retainIn db departed wm)).wm.get k
      = if k ∈ wm then none else db.wm.get k := by
  have hnone : (Batch.concat (departed.map (retireBatch db))).wm = [] := by
    induction departed with
    | nil => rfl
    | cons o os ih => rw [List.map_cons, Batch.concat_cons, Batch.append_wm, ih]; rfl
  rw [writeAll_retainIn, Db.write, Batch.append_wm, hnone, List.nil_append,
    OrdMap.get_setAll_deletes]
  · have hkeys : (wm.map fun k => (k, (none : Option ℕ))).map Prod.fst = wm := by
      rw [List.map_map]
      exact List.map_id wm
    rw [hkeys]
    split <;> rfl
  · intro w hw
    obtain ⟨k', -, rfl⟩ := List.mem_map.mp hw
    rfl

/-- A departed origin is left with nothing, every other as it was. -/
theorem replica_writeAll_retainIn (o : Origin) :
    (db.writeAll (retainIn db departed wm)).replica o
      = if o ∈ departed then ⟨{}, fun _ => none, fun _ => false⟩ else db.replica o := by
  apply Replica.ext
  · show ((db.writeAll (retainIn db departed wm)).clocks.get o).getD {} = _
    rw [clocks_retainIn]
    split <;> rfl
  · funext n
    refine (journal_retainIn db departed wm o n).trans ?_
    split <;> rfl
  · funext h
    refine (congrArg Option.isSome (hold_retainIn db departed wm o h)).trans ?_
    split <;> rfl

end Rows

/-- An origin that stays is not touched. -/
theorem replica_retainOrigins_of_mem (s : Store) {keep : List Origin} {o : Origin}
    (ho : o ∈ keep) : (s.retainOrigins keep).db.replica o = s.db.replica o := by
  rw [Store.retainOrigins]
  simp only
  rw [retainBatches_eq, replica_writeAll_retainIn, if_neg]
  intro hdep
  exact of_decide_eq_true (List.mem_filter.mp hdep).2 ho

end Narshare
