/-
What an export comes to: the own possession changed by its operations in
order, its attestations absorbed, and nothing else.

The chunks `export_ops` cuts its operations into leave no trace in the
result (`exportOps_exported`). `Exported` is closed under sequencing, one
chunk is an instance of it, and the loop is an induction on the chunks.
The loop is the only writer of the own clock here, so no chunk is
refused.
-/
import Narshare.Index.Apply
import Narshare.Store.Join

namespace Narshare

variable {cd : Codec} {cfg : Config} {s s' s'' : Store} {t : FactTable}
  {given : List Attestation}

-- ================================================================= exports

theorem ExportOp.holds_append (ops ops' : List ExportOp) :
    ExportOp.holds (ops ++ ops') = ExportOp.holds ops ++ ExportOp.holds ops' :=
  List.filterMap_append

theorem ExportOp.attests_append (ops ops' : List ExportOp) :
    ExportOp.attests (ops ++ ops') = ExportOp.attests ops ++ ExportOp.attests ops' :=
  List.filterMap_append

/-- The possession changes of an export are those it was given. -/
theorem ExportOp.holds_exportList (attests : List Attestation) (holds : List HoldOp) :
    ExportOp.holds (exportList attests holds) = holds := by
  have hatts : ∀ l : List Attestation, ExportOp.holds (l.map ExportOp.att) = [] := by
    intro l
    induction l with
    | nil => rfl
    | cons a l ih => exact ih
  have hholds : ∀ l : List HoldOp, ExportOp.holds (l.map ExportOp.hold) = l := by
    intro l
    induction l with
    | nil => rfl
    | cons h l ih => exact congrArg (h :: ·) ih
  rw [exportList, ExportOp.holds_append, hatts, hholds, List.nil_append]

/-- So are its attestations. -/
theorem ExportOp.attests_exportList (attests : List Attestation) (holds : List HoldOp) :
    ExportOp.attests (exportList attests holds) = attests := by
  have hatts : ∀ l : List Attestation, ExportOp.attests (l.map ExportOp.att) = l := by
    intro l
    induction l with
    | nil => rfl
    | cons a l ih => exact congrArg (a :: ·) ih
  have hholds : ∀ l : List HoldOp, ExportOp.attests (l.map ExportOp.hold) = [] := by
    intro l
    induction l with
    | nil => rfl
    | cons h l ih => exact ih
  rw [exportList, ExportOp.attests_append, hatts, hholds, List.append_nil]

/-- What the operations of an export have made of a store. -/
structure Exported (cd : Codec) (cfg : Config) (s : Store) (ops : List ExportOp)
    (s' : Store) : Prop where
  generation : (s'.db.clock cfg.selfName).generation = (s.db.clock cfg.selfName).generation
  seq : (s'.db.clock cfg.selfName).seq = (s.db.clock cfg.selfName).seq + ops.length
  held : ∀ h, s'.db.isHeld cfg.selfName h
    = possess (ExportOp.holds ops) h (s.db.isHeld cfg.selfName h)
  others : ∀ o, o ≠ cfg.selfName → s'.db.replica o = s.db.replica o
  facts : ∀ {t : FactTable} {given : List Attestation}, Rep cd s.db t →
    CollisionFree cd given → (∀ pk a, t.rows.get pk = some a → Stems given a) →
    (∀ a ∈ ExportOp.attests ops, Stems given a) →
      Rep cd s'.db (t.absorbAll (ExportOp.attests ops))
  mirrored : s.db.Mirrored → s'.db.Mirrored

namespace Exported

theorem refl : Exported cd cfg s [] s where
  generation := rfl
  seq := rfl
  held _ := rfl
  others _ _ := rfl
  facts h _ _ _ := h
  mirrored h := h

/-- One export after another is the export of both. -/
theorem trans {ops ops' : List ExportOp} (h : Exported cd cfg s ops s')
    (h' : Exported cd cfg s' ops' s'') : Exported cd cfg s (ops ++ ops') s'' where
  generation := h'.generation.trans h.generation
  seq := by
    rw [h'.seq, h.seq, List.length_append]
    omega
  held k := by rw [h'.held, h.held, ExportOp.holds_append, possess_append]
  others o ho := (h'.others o ho).trans (h.others o ho)
  facts {t given} hrep hcf ht hin := by
    rw [ExportOp.attests_append] at hin ⊢
    have hfst : ∀ a ∈ ExportOp.attests ops, Stems given a :=
      fun a ha => hin a (List.mem_append_left _ ha)
    rw [FactTable.absorbAll_append]
    exact h'.facts (h.facts hrep hcf ht hfst) hcf
      (fun pk a ha => FactTable.stems_absorbAll ht hfst ha)
      fun a ha => hin a (List.mem_append_right _ ha)
  mirrored hm := h'.mirrored (h.mirrored hm)

variable (cd cfg) in
/-- One chunk, at the clock it finds. -/
theorem chunk {c : Clock} (hc : s.db.clock cfg.selfName = c) (ops : List ExportOp) :
    Exported cd cfg s ops (exportChunk cd cfg s c.generation c.seq ops).2 := by
  obtain ⟨-, hrep⟩ := replica_exportChunk cd cfg hc ops
  have hself := hrep cfg.selfName
  rw [if_pos rfl, length_exportEvents, holdOp_exportEvents] at hself
  have hclock : (exportChunk cd cfg s c.generation c.seq ops).2.db.clock cfg.selfName
      = ⟨c.generation, c.seq + ops.length, (s.db.clock cfg.selfName).tailSeq⟩ :=
    congrArg Replica.clock hself
  have hheld := congrArg Replica.held hself
  constructor
  · rw [hclock, hc]
  · rw [hclock, hc]
  · exact fun h => congrFun hheld h
  · intro o ho
    rw [hrep o, if_neg ho]
  · intro t given hr hcf ht hin
    have := hr.applyEvents hcf ht hin cfg.selfName (c.generation, c.seq + ops.length)
      ((exportEvents c.seq ops).map fun e => (e.seq, e)) (ExportOp.holds ops)
    rw [hc] at this
    exact this
  · exact fun hm => hm.applyEvents _ _ _ _ _ _

end Exported

variable (cd cfg) in
/-- The loop over chunks exports all of them. -/
theorem exportChunks_exported (cs : List (List ExportOp)) {c : Clock}
    (hg : (s.db.clock cfg.selfName).generation = c.generation)
    (hs : (s.db.clock cfg.selfName).seq = c.seq) :
    (exportChunks cd cfg c.generation cs c.seq s).1 = true
      ∧ Exported cd cfg s cs.flatten (exportChunks cd cfg c.generation cs c.seq s).2 := by
  induction cs generalizing s c with
  | nil => exact ⟨rfl, .refl⟩
  | cons ops cs ih =>
      have hone := Exported.chunk cd cfg (s := s) rfl ops
      obtain ⟨hok, -⟩ := replica_exportChunk cd cfg (s := s) rfl ops
      rw [hg, hs] at hone hok
      rw [exportChunks]
      simp only [hok, if_true]
      obtain ⟨hdone, hrest⟩ := ih (c := { c with seq := c.seq + ops.length })
        (hone.generation.trans hg) (hone.seq.trans (by rw [hs]))
      exact ⟨hdone, hone.trans hrest⟩

variable (cd cfg) in
/-- An export takes all of its operations. -/
theorem exportOps_exported (s : Store) (attests : List Attestation) (holds : List HoldOp) :
    (exportOps cd cfg s attests holds).1 = .ok (attests.length + holds.length)
      ∧ Exported cd cfg s (exportList attests holds)
          (exportOps cd cfg s attests holds).2 := by
  have h := exportChunks_exported cd cfg (s := s)
    (c := s.db.clock cfg.selfName) (chunks EXPORT_CHUNK (exportList attests holds)) rfl rfl
  rw [flatten_chunks (by decide)] at h
  refine ⟨?_, h.2⟩
  rw [exportOps]
  simp only [h.1, if_true]
  rw [exportList, List.length_append, List.length_map, List.length_map]

end Narshare
