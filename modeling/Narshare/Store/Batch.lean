/-
Write batches as values: how they append, what committing one does to
the tables, and the loop that cuts a long batch into bounded ones.

# The mirror

`hold` and `holdby` are one relation stored twice. `Batch.Paired` is the
property of a batch that writes both sides alike, and a database whose
two tables agree keeps agreeing under paired batches
(`Mirrored.write`).
-/
import Mathlib.Tactic.Common
import Narshare.Store.Rocks

namespace Narshare

variable (cd : Codec)

-- ======================================================== batch algebra

namespace Batch

/-- Appending is by table. -/
theorem append_def (b b' : Batch) : b ++ b' = append b b' := rfl

@[simp] theorem append_clocks (b b' : Batch) :
    (b ++ b').clocks = b.clocks ++ b'.clocks := rfl

@[simp] theorem append_journal (b b' : Batch) :
    (b ++ b').journal = b.journal ++ b'.journal := rfl

@[simp] theorem append_hold (b b' : Batch) : (b ++ b').hold = b.hold ++ b'.hold := rfl

@[simp] theorem append_holdby (b b' : Batch) :
    (b ++ b').holdby = b.holdby ++ b'.holdby := rfl

@[simp] theorem append_att (b b' : Batch) : (b ++ b').att = b.att ++ b'.att := rfl

@[simp] theorem append_attPath (b b' : Batch) :
    (b ++ b').attPath = b.attPath ++ b'.attPath := rfl

@[simp] theorem append_attNar (b b' : Batch) :
    (b ++ b').attNar = b.attNar ++ b'.attNar := rfl

@[simp] theorem append_wm (b b' : Batch) : (b ++ b').wm = b.wm ++ b'.wm := rfl

/-- Batches append associatively, table by table. -/
theorem append_assoc (a b c : Batch) : a ++ b ++ c = a ++ (b ++ c) := by
  simp [append_def, append, List.append_assoc]

@[simp] theorem append_empty (b : Batch) : b ++ ({} : Batch) = b := by
  simp [append_def, append]

@[simp] theorem empty_append (b : Batch) : ({} : Batch) ++ b = b := by
  simp [append_def, append]

@[simp] theorem concat_nil : concat [] = {} := rfl

@[simp] theorem concat_cons (b : Batch) (bs : List Batch) :
    concat (b :: bs) = b ++ concat bs := rfl

/-- Gathering batches up respects appending their lists. -/
theorem concat_append (bs bs' : List Batch) :
    concat (bs ++ bs') = concat bs ++ concat bs' := by
  induction bs with
  | nil => simp
  | cons b bs ih => rw [List.cons_append, concat_cons, ih, concat_cons, append_assoc]

end Batch

namespace Db

@[simp] theorem write_empty (db : Db) : db.write {} = db := rfl

/-- Committing one batch after another amounts to committing them appended:
within a table the later write of a key wins either way. -/
theorem write_append (db : Db) (b b' : Batch) :
    db.write (b ++ b') = (db.write b).write b' := by
  simp only [write, Batch.append_def, Batch.append, OrdMap.setAll_append]

/-- Batches committed in order amount to one batch. -/
theorem writeAll_eq_write (db : Db) (bs : List Batch) :
    db.writeAll bs = db.write (Batch.concat bs) := by
  induction bs generalizing db with
  | nil => rfl
  | cons b bs ih =>
      rw [Batch.concat_cons, write_append, ← ih]
      rfl

/-- A list of batches may be committed in two parts. -/
theorem writeAll_append (db : Db) (bs bs' : List Batch) :
    db.writeAll (bs ++ bs') = (db.writeAll bs).writeAll bs' :=
  List.foldl_append

end Db

/-- Flushing decides only where batches are cut: the flushed ones and
the open one together hold everything pushed. -/
theorem concat_flushPush {α : Type*} (f : α → Batch) (l : List α)
    (st : List Batch × Batch) :
    Batch.concat (l.foldl (fun st k => flushPush st (f k)) st).1
        ++ (l.foldl (fun st k => flushPush st (f k)) st).2
      = Batch.concat st.1 ++ st.2 ++ Batch.concat (l.map f) := by
  induction l generalizing st with
  | nil => simp
  | cons k l ih =>
      rw [List.foldl_cons, ih, List.map_cons, Batch.concat_cons, flushPush]
      split
      · simp [Batch.concat_append, Batch.append_assoc]
      · simp [Batch.append_assoc]

/-- A property of batches that survives appending holds of every batch
a flushing loop cuts. -/
theorem flushPush_forall {α : Type*} {P : Batch → Prop} (hnil : P {})
    (happ : ∀ b b', P b → P b' → P (b ++ b')) (f : α → Batch) (l : List α)
    (hf : ∀ k ∈ l, P (f k)) (st : List Batch × Batch)
    (hst : (∀ b ∈ st.1, P b) ∧ P st.2) :
    let st' := l.foldl (fun st k => flushPush st (f k)) st
    (∀ b ∈ st'.1, P b) ∧ P st'.2 := by
  induction l generalizing st with
  | nil => exact hst
  | cons k l ih =>
      refine ih (fun k' hk' => hf k' (List.mem_cons_of_mem _ hk')) _ ?_
      have hcur : P (st.2 ++ f k) := happ _ _ hst.2 (hf k List.mem_cons_self)
      unfold flushPush
      simp only
      -- flushed, the open batch is one of the cut ones and a new one begins
      split
      · refine ⟨fun b hb => ?_, hnil⟩
        rcases List.mem_append.mp hb with hb | hb
        · exact hst.1 b hb
        · exact List.mem_singleton.mp hb ▸ hcur
      · exact ⟨hst.1, hcur⟩

-- ============================================================ the mirror

/-- Both possession tables get the same writes, in the same order. -/
def Batch.Paired (b : Batch) : Prop :=
  b.holdby = b.hold.map fun w => (toLex ((ofLex w.1).2, (ofLex w.1).1), w.2)

/-- The two possession tables hold the same pairs. -/
def Db.Mirrored (db : Db) : Prop :=
  ∀ o h, db.holdby.get (toLex (h, o)) = db.hold.get (toLex (o, h))

namespace Batch

/-- A batch without possession rows is paired. -/
theorem Paired.of_nil {b : Batch} (h : b.hold = []) (h' : b.holdby = []) :
    b.Paired := by
  rw [Paired, h, h']
  rfl

/-- Batches that are paired stay so when they are appended. -/
theorem Paired.append {b b' : Batch} (h : b.Paired) (h' : b'.Paired) :
    (b ++ b').Paired := by
  unfold Paired at h h' ⊢
  rw [append_holdby, append_hold, List.map_append, h, h']

/-- Each possession operation writes both of its rows. -/
theorem paired_applyHolds (o : Origin) (ops : List HoldOp) :
    (applyHolds o ops).Paired := by
  simp [Paired, applyHolds]

end Batch

/-- Tables without rows agree. -/
theorem Db.mirrored_empty : Db.Mirrored {} := fun _ _ => rfl

/-- Paired writes keep the two tables in step, key by key: the writes of one
are those of the other with the pair turned round. -/
theorem Db.Mirrored.write {db : Db} {b : Batch} (hm : db.Mirrored) (hb : b.Paired) :
    (db.write b).Mirrored := by
  intro o h
  rw [Db.write, OrdMap.get_setAll, OrdMap.get_setAll, hb, List.foldl_map, hm o h]
  congr 1
  funext r w
  obtain ⟨⟨o', h'⟩, v⟩ := w
  have hiff : toLex (h', o') = toLex (h, o) ↔ toLex (o', h') = toLex (o, h) := by
    simp only [toLex_inj, Prod.mk.injEq, and_comm]
  by_cases he : toLex (o', h') = toLex (o, h)
  · exact (if_pos (hiff.mpr he)).trans (if_pos he).symm
  · exact (if_neg (mt hiff.mp he)).trans (if_neg he).symm

/-- So do any number of paired batches. -/
theorem Db.Mirrored.writeAll {db : Db} {bs : List Batch} (hm : db.Mirrored)
    (hb : ∀ b ∈ bs, b.Paired) : (db.writeAll bs).Mirrored := by
  induction bs generalizing db with
  | nil => exact hm
  | cons b bs ih =>
      exact ih (hm.write (hb b List.mem_cons_self))
        fun b' h' => hb b' (List.mem_cons_of_mem _ h')

-- ==================================================== batches by content

/-- A batch of fact rows only. -/
structure Batch.FactsOnly (b : Batch) : Prop where
  clocks : b.clocks = []
  journal : b.journal = []
  hold : b.hold = []
  holdby : b.holdby = []
  wm : b.wm = []

/-- A batch with no fact rows. -/
structure Batch.NoFacts (b : Batch) : Prop where
  att : b.att = []
  attPath : b.attPath = []
  attNar : b.attNar = []

namespace Batch

/-- Appended, batches of fact rows are one. -/
theorem FactsOnly.append {b b' : Batch} (h : b.FactsOnly) (h' : b'.FactsOnly) :
    (b ++ b').FactsOnly where
  clocks := by rw [append_clocks, h.clocks, h'.clocks]; rfl
  journal := by rw [append_journal, h.journal, h'.journal]; rfl
  hold := by rw [append_hold, h.hold, h'.hold]; rfl
  holdby := by rw [append_holdby, h.holdby, h'.holdby]; rfl
  wm := by rw [append_wm, h.wm, h'.wm]; rfl

/-- Appended, batches without fact rows have none. -/
theorem NoFacts.append {b b' : Batch} (h : b.NoFacts) (h' : b'.NoFacts) :
    (b ++ b').NoFacts where
  att := by rw [append_att, h.att, h'.att]; rfl
  attPath := by rw [append_attPath, h.attPath, h'.attPath]; rfl
  attNar := by rw [append_attNar, h.attNar, h'.attNar]; rfl

theorem factsOnly_empty : FactsOnly {} := ⟨rfl, rfl, rfl, rfl, rfl⟩

theorem noFacts_empty : NoFacts {} := ⟨rfl, rfl, rfl⟩

/-- Gathered up, batches of fact rows are one. -/
theorem FactsOnly.concat {bs : List Batch} (h : ∀ b ∈ bs, b.FactsOnly) :
    (Batch.concat bs).FactsOnly := by
  induction bs with
  | nil => exact factsOnly_empty
  | cons b bs ih =>
      exact (h b List.mem_cons_self).append
        (ih fun b' h' => h b' (List.mem_cons_of_mem _ h'))

/-- A batch of fact rows writes no possession row, so both sides get the
same. -/
theorem FactsOnly.paired {b : Batch} (h : b.FactsOnly) : b.Paired :=
  .of_nil h.hold h.holdby

/-- The batch of a merge touches the fact families alone, which is why a merge
never moves a clock, a journal or a possession row. -/
theorem factsOnly_movesBatch (moves : List Move) : (movesBatch cd moves).FactsOnly := by
  refine FactsOnly.concat fun b hb => ?_
  obtain ⟨mv, -, rfl⟩ := List.mem_map.mp hb
  exact ⟨rfl, rfl, rfl, rfl, rfl⟩

/-- The batch of an update is paired by its possession operations; the rest of
it are clock and journal. -/
theorem paired_eventsBatch (c : Clock) (o : Origin) (set : ℕ × ℕ)
    (journal : List (ℕ × Event)) (holds : List HoldOp) :
    (eventsBatch c o set journal holds).Paired :=
  Paired.append (.of_nil rfl rfl) (paired_applyHolds o holds)

/-- The batch of an update carries no facts of its own; a merge adds them. -/
theorem noFacts_eventsBatch (c : Clock) (o : Origin) (set : ℕ × ℕ)
    (journal : List (ℕ × Event)) (holds : List HoldOp) :
    (eventsBatch c o set journal holds).NoFacts := ⟨rfl, rfl, rfl⟩

end Batch

/-- The keys of an origin's journal rows are those it has a row for. -/
theorem Db.mem_journalKeys {db : Db} {o : Origin} {k : Origin ×ₗ ℕ} :
    k ∈ (db.journal.entries.filter fun e => (ofLex e.1).1 = o).map Prod.fst
      ↔ (db.journal.get k).isSome = true ∧ (ofLex k).1 = o := by
  rw [List.mem_map]
  constructor
  · rintro ⟨⟨k', e⟩, hmem, rfl⟩
    obtain ⟨hmem, ho⟩ := List.mem_filter.mp hmem
    exact ⟨Option.isSome_iff_exists.mpr ⟨e, OrdMap.mem_entries.mp hmem⟩, of_decide_eq_true ho⟩
  · rintro ⟨hsome, ho⟩
    obtain ⟨e, he⟩ := Option.isSome_iff_exists.mp hsome
    exact ⟨(k, e), List.mem_filter.mpr ⟨OrdMap.mem_entries.mpr he, decide_eq_true ho⟩, rfl⟩

/-- Journal deletions by key, gathered into one batch, are one batch of
deletions. -/
theorem concat_journalDeletes (ks : List (Origin ×ₗ ℕ)) :
    Batch.concat (ks.map fun k => ({ journal := [(k, none)] } : Batch))
      = { journal := ks.map fun k => (k, none) } := by
  induction ks with
  | nil => rfl
  | cons k ks ih => rw [List.map_cons, Batch.concat_cons, ih]; rfl

/-- What holds of every write of a replacement, and survives appending,
holds of each of its batches. -/
theorem replaceBatches_forall {P : Batch → Prop} (hnil : P {})
    (happ : ∀ b b', P b → P b' → P (b ++ b')) {db : Db} {o : Origin}
    (hholds : ∀ ops, P (applyHolds o ops))
    (hjournal : ∀ k, (db.journal.get k).isSome = true → (ofLex k).1 = o →
      P { journal := [(k, none)] })
    (hclock : ∀ c, P { clocks := [(o, some c)] })
    (generation seq : ℕ) (ops : List HoldOp) :
    ∀ b ∈ replaceBatches db o generation seq ops, P b := by
  obtain ⟨hflushed, hopen⟩ := flushPush_forall hnil happ
    (fun k : Origin ×ₗ ℕ => ({ journal := [(k, none)] } : Batch))
    ((db.journal.entries.filter fun e => (ofLex e.1).1 = o).map Prod.fst)
    (fun k hk => (Db.mem_journalKeys.mp hk).elim (hjournal k)) ([], {})
    ⟨fun _ hb => (List.not_mem_nil hb).elim, hnil⟩
  intro b hb
  simp only [replaceBatches, List.mem_append, List.mem_map, List.mem_singleton] at hb
  -- the possession chunks, the journal batches cut off, and the last one with the clock
  rcases hb with (⟨c, -, rfl⟩ | hb) | rfl
  · exact hholds c
  · exact hflushed b hb
  · exact happ _ _ hopen (hclock _)

/-- Wherever a replacement is cut, each of its batches writes both possession
tables alike. -/
theorem paired_replaceBatches (db : Db) (o : Origin) (generation seq : ℕ)
    (ops : List HoldOp) : ∀ b ∈ replaceBatches db o generation seq ops, b.Paired :=
  replaceBatches_forall (.of_nil rfl rfl) (fun _ _ => .append)
    (Batch.paired_applyHolds o) (fun _ _ _ => .of_nil rfl rfl) (fun _ => .of_nil rfl rfl)
    generation seq ops

/-- A replacement writes no facts. -/
theorem noFacts_replaceBatches (db : Db) (o : Origin) (generation seq : ℕ)
    (ops : List HoldOp) : ∀ b ∈ replaceBatches db o generation seq ops, b.NoFacts :=
  replaceBatches_forall Batch.noFacts_empty (fun _ _ => .append)
    (fun _ => ⟨rfl, rfl, rfl⟩) (fun _ _ _ => ⟨rfl, rfl, rfl⟩) (fun _ => ⟨rfl, rfl, rfl⟩)
    generation seq ops

/-- A replacement writes no watermark. -/
theorem wm_replaceBatches (db : Db) (o : Origin) (generation seq : ℕ) (ops : List HoldOp) :
    ∀ b ∈ replaceBatches db o generation seq ops, b.wm = [] :=
  replaceBatches_forall (P := fun b => b.wm = []) rfl
    (fun b b' hb hb' => by rw [Batch.append_wm, hb, hb', List.append_nil])
    (fun _ => rfl) (fun _ _ _ => rfl) (fun _ => rfl) generation seq ops

/-- Batches without watermarks leave the watermarks as they were. -/
theorem wm_writeAll {db : Db} (bs : List Batch) (h : ∀ b ∈ bs, b.wm = []) :
    (db.writeAll bs).wm = db.wm := by
  induction bs generalizing db with
  | nil => rfl
  | cons b bs ih =>
      have hb : (db.write b).wm = db.wm := by
        rw [Db.write, h b List.mem_cons_self]
        rfl
      exact (ih fun b' h' => h b' (List.mem_cons_of_mem _ h')).trans hb

/-- `retain_origins`, with the departed origins and the watermark rows
that go in the order the scans meet them. -/
def retainIn (db : Db) (departed : List Origin) (wm : List (Origin ×ₗ Origin)) : List Batch :=
  let st := departed.foldl (retainOne db) ([], {})
  st.1 ++ [st.2 ++ { wm := wm.map fun k => (k, none) }]

/-- `retain_origins` is the retirement of those that have a clock and are not
kept, with the marks of or for one that is not. -/
theorem retainBatches_eq (db : Db) (keep : List Origin) :
    retainBatches db keep
      = retainIn db (db.clocks.keys.filter fun o => decide (o ∉ keep))
          (db.wm.keys.filter fun k => decide ((ofLex k).1 ∉ keep) || decide ((ofLex k).2 ∉ keep)) :=
  rfl

/-- The same for a retirement, whose batches run over every departed
origin. -/
theorem retainIn_forall {P : Batch → Prop} (hnil : P {})
    (happ : ∀ b b', P b → P b' → P (b ++ b')) {db : Db} {departed : List Origin}
    (hholds : ∀ o ∈ departed, ∀ h,
      P { hold := [(toLex (o, h), none)], holdby := [(toLex (h, o), none)] })
    (hjournal : ∀ k, (db.journal.get k).isSome = true → (ofLex k).1 ∈ departed →
      P { journal := [(k, none)] })
    (hclock : ∀ o ∈ departed, P { clocks := [(o, none)] }) (hwm : ∀ ws, P { wm := ws })
    (wm : List (Origin ×ₗ Origin)) : ∀ b ∈ retainIn db departed wm, P b := by
  have hone : ∀ (st : List Batch × Batch), ∀ o ∈ departed,
      (∀ b ∈ st.1, P b) ∧ P st.2 →
        (∀ b ∈ (retainOne db st o).1, P b) ∧ P (retainOne db st o).2 := by
    intro st o ho hst
    have h₁ := flushPush_forall hnil happ
      (fun h => ({ hold := [(toLex (o, h), none)],
                   holdby := [(toLex (h, o), none)] } : Batch))
      (db.holdings o) (fun h _ => hholds o ho h) st hst
    have h₂ := flushPush_forall hnil happ
      (fun k : Origin ×ₗ ℕ => ({ journal := [(k, none)] } : Batch))
      ((db.journal.entries.filter fun e => (ofLex e.1).1 = o).map Prod.fst)
      (fun k hk => (Db.mem_journalKeys.mp hk).elim
        fun hsome hown => hjournal k hsome (by rw [hown]; exact ho)) _ h₁
    exact ⟨h₂.1, happ _ _ h₂.2 (hclock o ho)⟩
  have hall : ∀ (os : List Origin) (st : List Batch × Batch), (∀ o ∈ os, o ∈ departed) →
      (∀ b ∈ st.1, P b) ∧ P st.2 →
        (∀ b ∈ (os.foldl (retainOne db) st).1, P b) ∧ P (os.foldl (retainOne db) st).2 := by
    intro os
    induction os with
    | nil => exact fun _ _ h => h
    | cons o os ih =>
        exact fun st hos h => ih _ (fun o' ho' => hos o' (List.mem_cons_of_mem _ ho'))
          (hone st o (hos o List.mem_cons_self) h)
  obtain ⟨hflushed, hopen⟩ := hall departed ([], {}) (fun _ ho => ho)
    ⟨fun _ hb => (List.not_mem_nil hb).elim, hnil⟩
  intro b hb
  simp only [retainIn, List.mem_append, List.mem_singleton] at hb
  rcases hb with hb | rfl
  · exact hflushed b hb
  · exact happ _ _ hopen (hwm _)

/-- Wherever a retirement is cut, each of its batches writes both possession
tables alike. -/
theorem paired_retainIn (db : Db) (departed : List Origin) (wm : List (Origin ×ₗ Origin)) :
    ∀ b ∈ retainIn db departed wm, b.Paired :=
  retainIn_forall (.of_nil rfl rfl) (fun _ _ => .append)
    (fun _ _ _ => rfl) (fun _ _ _ => .of_nil rfl rfl) (fun _ _ => .of_nil rfl rfl)
    (fun _ => .of_nil rfl rfl) wm

/-- A retirement writes no facts: they outlive their holders. -/
theorem noFacts_retainIn (db : Db) (departed : List Origin) (wm : List (Origin ×ₗ Origin)) :
    ∀ b ∈ retainIn db departed wm, b.NoFacts :=
  retainIn_forall Batch.noFacts_empty (fun _ _ => .append)
    (fun _ _ _ => ⟨rfl, rfl, rfl⟩) (fun _ _ _ => ⟨rfl, rfl, rfl⟩) (fun _ _ => ⟨rfl, rfl, rfl⟩)
    (fun _ => ⟨rfl, rfl, rfl⟩) wm

theorem paired_retainBatches (db : Db) (keep : List Origin) :
    ∀ b ∈ retainBatches db keep, b.Paired :=
  paired_retainIn db _ _

theorem noFacts_retainBatches (db : Db) (keep : List Origin) :
    ∀ b ∈ retainBatches db keep, b.NoFacts :=
  noFacts_retainIn db _ _

end Narshare
