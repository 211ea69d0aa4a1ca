/-
Possession is stored twice and read per origin: what the key layout
guarantees of any sequence of operations, some of them cut off between
two batches.

# What always holds

Every batch writes the two possession tables alike (`Paired`) and names
no origin but its own (`Spares`), so neither depends on how far an
operation got.

# What `retain_origins` leaves

It finds the origins that left among the clocks. `replace_holdings`
writes the clock last, in a batch of its own: a snapshot of a new origin
that is cut off leaves holdings and no clock, and if the origin then
leaves the configuration nothing ever finds them again. `Clocked` is the
state in which that has not happened.
-/
import Narshare.Store.Raw

namespace Narshare

variable (cd : Codec)

-- =================================================================== one origin

/-- A batch that writes no row of the origin. -/
structure Batch.Spares (o : Origin) (b : Batch) : Prop where
  clocks : ∀ w ∈ b.clocks, w.1 ≠ o
  journal : ∀ w ∈ b.journal, (ofLex w.1).1 ≠ o
  hold : ∀ w ∈ b.hold, (ofLex w.1).1 ≠ o
  holdby : ∀ w ∈ b.holdby, (ofLex w.1).2 ≠ o

/-- The rows of the origin are the same in both. -/
structure Db.SameRows (db db' : Db) (o : Origin) : Prop where
  clocks : db'.clocks.get o = db.clocks.get o
  journal : ∀ n, db'.journal.get (toLex (o, n)) = db.journal.get (toLex (o, n))
  hold : ∀ x, db'.hold.get (toLex (o, x)) = db.hold.get (toLex (o, x))
  holdby : ∀ x, db'.holdby.get (toLex (x, o)) = db.holdby.get (toLex (x, o))

/-- Is the origin one whose rows the operation writes? -/
def RawOp.Touches (o : Origin) : RawOp → Prop
  | .applyEvents o' _ _ _ _ _ => o' = o
  | .mergeAttestations _ => False
  | .setGeneration o' _ => o' = o
  | .replaceHoldings o' _ _ _ _ => o' = o
  | .compactJournal o' _ => o' = o
  | .retainOrigins keep => o ∉ keep
  | .advanceWatermark _ _ _ => False

namespace Batch

variable {o : Origin} {b b' : Batch}

theorem Spares.append (h : b.Spares o) (h' : b'.Spares o) : (b ++ b').Spares o where
  clocks w hw := (List.mem_append.mp hw).elim (h.clocks w) (h'.clocks w)
  journal w hw := (List.mem_append.mp hw).elim (h.journal w) (h'.journal w)
  hold w hw := (List.mem_append.mp hw).elim (h.hold w) (h'.hold w)
  holdby w hw := (List.mem_append.mp hw).elim (h.holdby w) (h'.holdby w)

theorem FactsOnly.spares (h : b.FactsOnly) : b.Spares o where
  clocks w hw := by rw [h.clocks] at hw; cases hw
  journal w hw := by rw [h.journal] at hw; cases hw
  hold w hw := by rw [h.hold] at hw; cases hw
  holdby w hw := by rw [h.holdby] at hw; cases hw

theorem spares_wm (ws : List ((Origin ×ₗ Origin) × Option ℕ)) : Spares o { wm := ws } where
  clocks _ hw := absurd hw List.not_mem_nil
  journal _ hw := absurd hw List.not_mem_nil
  hold _ hw := absurd hw List.not_mem_nil
  holdby _ hw := absurd hw List.not_mem_nil

theorem spares_clock {o' : Origin} {c : Option Clock} (h : o' ≠ o) :
    Spares o { clocks := [(o', c)] } where
  clocks w hw := by rw [List.mem_singleton.mp hw]; exact h
  journal _ hw := absurd hw List.not_mem_nil
  hold _ hw := absurd hw List.not_mem_nil
  holdby _ hw := absurd hw List.not_mem_nil

theorem spares_journal {k : Origin ×ₗ ℕ} {e : Option Event} (h : (ofLex k).1 ≠ o) :
    Spares o { journal := [(k, e)] } where
  clocks _ hw := absurd hw List.not_mem_nil
  journal w hw := by rw [List.mem_singleton.mp hw]; exact h
  hold _ hw := absurd hw List.not_mem_nil
  holdby _ hw := absurd hw List.not_mem_nil

theorem spares_drop {o' : Origin} (h : o' ≠ o) (x : NarHash) :
    Spares o { hold := [(toLex (o', x), none)], holdby := [(toLex (x, o'), none)] } where
  clocks _ hw := absurd hw List.not_mem_nil
  journal _ hw := absurd hw List.not_mem_nil
  hold w hw := by rw [List.mem_singleton.mp hw]; exact h
  holdby w hw := by rw [List.mem_singleton.mp hw]; exact h

theorem spares_applyHolds {o' : Origin} (h : o' ≠ o) (ops : List HoldOp) :
    (applyHolds o' ops).Spares o where
  clocks _ hw := absurd hw List.not_mem_nil
  journal _ hw := absurd hw List.not_mem_nil
  hold w hw := by rw [hold_applyHolds hw]; exact h
  holdby w hw := by
    obtain ⟨e, -, rfl⟩ := List.mem_map.mp hw
    exact h

end Batch

namespace Db.SameRows

variable {db db' db'' : Db} {o : Origin}

theorem refl (db : Db) (o : Origin) : db.SameRows db o :=
  ⟨rfl, fun _ => rfl, fun _ => rfl, fun _ => rfl⟩

theorem trans (h : db.SameRows db' o) (h' : db'.SameRows db'' o) : db.SameRows db'' o where
  clocks := h'.clocks.trans h.clocks
  journal n := (h'.journal n).trans (h.journal n)
  hold x := (h'.hold x).trans (h.hold x)
  holdby x := (h'.holdby x).trans (h.holdby x)

/-- A batch that spares the origin leaves its rows. -/
theorem of_spares {b : Batch} (h : b.Spares o) (db : Db) : db.SameRows (db.write b) o where
  clocks := OrdMap.get_setAll_of_forall_ne h.clocks
  journal _ := OrdMap.get_setAll_of_forall_ne fun w hw he => h.journal w hw (by rw [he]; rfl)
  hold _ := OrdMap.get_setAll_of_forall_ne fun w hw he => h.hold w hw (by rw [he]; rfl)
  holdby _ := OrdMap.get_setAll_of_forall_ne fun w hw he => h.holdby w hw (by rw [he]; rfl)

theorem writeAll {bs : List Batch} (h : ∀ b ∈ bs, b.Spares o) (db : Db) :
    db.SameRows (db.writeAll bs) o := by
  induction bs generalizing db with
  | nil => exact refl db o
  | cons b bs ih =>
      exact (of_spares (h b List.mem_cons_self) db).trans
        (ih (fun b' hb' => h b' (List.mem_cons_of_mem _ hb')) (db.write b))

end Db.SameRows

/-- A property of batches that survives appending holds of journal
writes when it holds of each. -/
theorem Batch.forall_journal {P : Batch → Prop} (hnil : P {})
    (happ : ∀ b b', P b → P b' → P (b ++ b')) {ws : List ((Origin ×ₗ ℕ) × Option Event)}
    (h : ∀ w ∈ ws, P { journal := [w] }) : P { journal := ws } := by
  induction ws with
  | nil => exact hnil
  | cons w ws ih =>
      exact happ _ _ (h w List.mem_cons_self) (ih fun w' hw' => h w' (List.mem_cons_of_mem _ hw'))

namespace Db.Does

variable {cd} {db : Db} {op : RawOp} {ts : List Batch}

/-- The rule for all batches of an operation: a property that survives
appending need only hold of the single writes it can make. -/
theorem forall_batch (h : db.Does cd ts op) {P : Batch → Prop} (hnil : P {})
    (happ : ∀ b b', P b → P b' → P (b ++ b')) (hfacts : ∀ moves, P (movesBatch cd moves))
    (hholds : ∀ o, op.Touches o → ∀ ops, P (applyHolds o ops))
    (hput : ∀ o, op.Touches o → ∀ n, U64 n → ∀ e, P { journal := [(toLex (o, n), some e)] })
    (hdel : ∀ k, (db.journal.get k).isSome = true → op.Touches (ofLex k).1 →
      P { journal := [(k, none)] })
    (hclock : ∀ o, op.Touches o → ∀ c, P { clocks := [(o, c)] })
    (hdrop : ∀ o, op.Touches o → ∀ x,
      P { hold := [(toLex (o, x), none)], holdby := [(toLex (x, o), none)] })
    (hwm : ∀ ws, P { wm := ws }) : ∀ b ∈ ts, P b := by
  cases op with
  | applyEvents o expect set journal holds attests =>
      obtain ⟨hu, rfl⟩ := h
      intro b hb
      split at hb
      next => cases hb
      next =>
        rw [List.mem_singleton.mp hb]
        refine happ _ _ (happ _ _ ?_ (hholds o rfl holds)) (hfacts _)
        refine happ { clocks := [_] } { journal := _ } (hclock o rfl _)
          (Batch.forall_journal hnil happ fun w hw => ?_)
        obtain ⟨e, he, rfl⟩ := List.mem_map.mp hw
        exact hput o rfl e.1 (hu e he) e.2
  | mergeAttestations attests =>
      cases h
      intro b hb
      split at hb
      next =>
        rw [List.mem_singleton.mp hb]
        exact hfacts _
      next => cases hb
  | setGeneration o generation =>
      cases h
      intro b hb
      rw [List.mem_singleton.mp hb]
      exact hclock o rfl _
  | replaceHoldings o generation seq held order =>
      obtain ⟨-, rfl⟩ := h
      intro b hb
      split at hb
      next => cases hb
      next =>
        exact replaceBatches_forall hnil happ (hholds o rfl) (fun k hk ho => hdel k hk ho.symm)
          (fun c => hclock o rfl (some c)) generation seq order b hb
  | compactJournal o floor =>
      cases h
      intro b hb
      rw [List.mem_singleton.mp hb, compactBatch]
      split
      next => exact hnil
      next =>
        refine happ { clocks := [_] } { journal := _ } (hclock o rfl _)
          (Batch.forall_journal hnil happ fun w hw => ?_)
        obtain ⟨e, he, rfl⟩ := List.mem_map.mp hw
        have hget := (Db.mem_journalFrom.mp ((List.takeWhile_prefix _).subset he)).2
        exact hdel (toLex (o, e.1)) (Option.isSome_iff_exists.mpr ⟨e.2, hget⟩) rfl
  | retainOrigins keep =>
      obtain ⟨departed, wm, hdep, -, rfl⟩ := h
      have hout : ∀ o ∈ departed, RawOp.Touches o (.retainOrigins keep) := by
        intro o ho
        have hnot : o ∉ keep := of_decide_eq_true (List.mem_filter.mp (hdep.mem_iff.mp ho)).2
        exact hnot
      exact retainIn_forall hnil happ (fun o ho => hdrop o (hout o ho))
        (fun k hk ho => hdel k hk (hout _ ho)) (fun o ho => hclock o (hout o ho) none) hwm wm
  | advanceWatermark peer o seq =>
      cases h
      intro b hb
      split at hb
      next =>
        rw [List.mem_singleton.mp hb]
        exact hwm _
      next => cases hb

/-- No operation writes a row of an origin that is not its own. -/
theorem spares (h : db.Does cd ts op) {o : Origin} (ho : ¬ op.Touches o) :
    ∀ b ∈ ts, b.Spares o := by
  have hne : ∀ o', op.Touches o' → o' ≠ o := by
    rintro o' htouch rfl
    exact ho htouch
  exact h.forall_batch (Batch.spares_wm []) (fun _ _ => .append)
    (fun _ => (Batch.factsOnly_movesBatch cd _).spares)
    (fun o' ht => Batch.spares_applyHolds (hne o' ht))
    (fun o' ht _ _ _ => Batch.spares_journal (hne o' ht))
    (fun _ _ ht => Batch.spares_journal (hne _ ht))
    (fun o' ht _ => Batch.spares_clock (hne o' ht))
    (fun o' ht => Batch.spares_drop (hne o' ht)) Batch.spares_wm

/-- Every batch writes the two possession tables alike. -/
theorem paired (h : db.Does cd ts op) : ∀ b ∈ ts, b.Paired :=
  h.forall_batch (.of_nil rfl rfl) (fun _ _ => .append)
    (fun _ => (Batch.factsOnly_movesBatch cd _).paired)
    (fun o _ => Batch.paired_applyHolds o) (fun _ _ _ _ _ => .of_nil rfl rfl)
    (fun _ _ _ => .of_nil rfl rfl) (fun _ _ _ => .of_nil rfl rfl) (fun _ _ _ => rfl)
    fun _ => .of_nil rfl rfl

/-- Journal rows are numbered by u64s. -/
theorem numbered (h : db.Does cd ts op)
    (hdb : ∀ k, (db.journal.get k).isSome = true → U64 (ofLex k).2) :
    ∀ b ∈ ts, b.Numbered := by
  have hnil : Batch.Numbered {} := fun _ hw => absurd hw List.not_mem_nil
  refine h.forall_batch hnil
    (fun b b' hb hb' w hw => (List.mem_append.mp hw).elim (hb w) (hb' w)) (fun moves w hw => ?_)
    (fun _ _ _ => hnil) (fun o _ n hn e w hw => ?_) (fun k hk _ w hw => ?_) (fun _ _ _ => hnil)
    (fun _ _ _ => hnil) fun _ => hnil
  · rw [(Batch.factsOnly_movesBatch cd moves).journal] at hw
    cases hw
  · rw [List.mem_singleton.mp hw]
    exact hn
  · rw [List.mem_singleton.mp hw]
    exact hdb k hk

end Db.Does

-- ============================================================== reading the rows

namespace RawDb

/-- The two possession families hold the same pairs, and nothing else. -/
structure Mirrored (r : RawDb) : Prop where
  same : ∀ o h, (r.hold.get (holdKey o h)).isSome = (r.holdby.get (holdbyKey h o)).isSome
  hold : ∀ k ∈ r.hold.keys, ∃ o h, k = holdKey o h
  holdby : ∀ k ∈ r.holdby.keys, ∃ h o, k = holdbyKey h o

/-- Every row under the origin's `okey` is the same in both. -/
def SameRows (r r' : RawDb) (o : Origin) : Prop :=
  ∀ k, okey o <+: k → r'.hold.get k = r.hold.get k ∧ r'.journal.get k = r.journal.get k
    ∧ r'.clocks.get k = r.clocks.get k

/-- Nothing is left of the origins outside `keep`, nor a watermark that
names one. -/
structure Gone (r : RawDb) (keep : List Origin) : Prop where
  rows : ∀ o ∉ keep, ∀ k, okey o <+: k →
    r.hold.get k = none ∧ r.journal.get k = none ∧ r.clocks.get k = none
  wm : ∀ k ∈ r.wm.keys, ∃ p ∈ keep, ∃ o ∈ keep, k = wmKey p o

/-- Every origin outside `keep` that has a holding or a journal row has a
clock row. -/
def Clocked (r : RawDb) (keep : List Origin) : Prop :=
  ∀ o ∉ keep, r.clocks.get (okey o) = none → ∀ k, okey o <+: k →
    r.hold.get k = none ∧ r.journal.get k = none

namespace Stands

variable {r r' : RawDb} {db db' : Db}

theorem mirrored (h : r.Stands db) (hm : db.Mirrored) : r.Mirrored where
  same o x := by
    have hhold : r.hold.get (holdKey o x) = db.hold.get (toLex (o, x)) :=
      h.hold.get (toLex (o, x)) trivial
    have hholdby : r.holdby.get (holdbyKey x o) = db.holdby.get (toLex (x, o)) :=
      h.holdby.get (toLex (x, o)) trivial
    rw [hhold, hholdby, hm]
  hold k hk := by
    obtain ⟨v, hv⟩ := Option.isSome_iff_exists.mp (OrdMap.mem_keys.mp hk)
    obtain ⟨k', -, rfl, -⟩ := h.hold.row hv
    exact ⟨_, _, rfl⟩
  holdby k hk := by
    obtain ⟨v, hv⟩ := Option.isSome_iff_exists.mp (OrdMap.mem_keys.mp hk)
    obtain ⟨k', -, rfl, -⟩ := h.holdby.row hv
    exact ⟨_, _, rfl⟩

/-- The rows under an `okey` are those of the origin. -/
theorem sameRows (h : r.Stands db) (h' : r'.Stands db') {o : Origin}
    (hsame : db.SameRows db' o) : r.SameRows r' o := by
  intro k hk
  refine ⟨h.hold.get_congr h'.hold fun k' _ he => ?_,
    h.journal.get_congr h'.journal fun k' _ he => ?_,
    h.clocks.get_congr h'.clocks fun o' _ he => ?_⟩
  · obtain rfl : o = (ofLex k').1 := okey_prefix_iff.mp (he ▸ hk)
    exact hsame.hold (ofLex k').2
  · obtain rfl : o = (ofLex k').1 := okey_prefix_iff.mp (he ▸ hk)
    exact hsame.journal (ofLex k').2
  · obtain rfl : o = o' := okey_prefix_iff.mp (List.append_nil (okey o') ▸ he ▸ hk)
    exact hsame.clocks

/-- No row of the origin is left, in the families or in the tables. -/
theorem noRows_iff (h : r.Stands db) {o : Origin} :
    (∀ k, okey o <+: k → r.hold.get k = none ∧ r.journal.get k = none)
      ↔ (∀ x, db.hold.get (toLex (o, x)) = none) ∧ ∀ n, db.journal.get (toLex (o, n)) = none := by
  constructor
  · intro hnone
    refine ⟨fun x => ?_, fun n => ?_⟩
    · rw [← (h.hold.get (toLex (o, x)) trivial)]
      exact (hnone _ (List.prefix_append _ _)).1
    · cases hget : db.journal.get (toLex (o, n)) with
      | none => rfl
      | some e =>
          have hraw : r.journal.get (jkey o n) = some e :=
            (h.journal.get (toLex (o, n)) (h.journal.inDom _ _ hget)).trans hget
          rw [(hnone (jkey o n) (List.prefix_append _ _)).2] at hraw
          cases hraw
  · rintro ⟨hhold, hjournal⟩ k hk
    refine ⟨h.hold.get_eq_none fun k' _ he => ?_, h.journal.get_eq_none fun k' _ he => ?_⟩
    · obtain rfl : o = (ofLex k').1 := okey_prefix_iff.mp (he ▸ hk)
      exact hhold (ofLex k').2
    · obtain rfl : o = (ofLex k').1 := okey_prefix_iff.mp (he ▸ hk)
      exact hjournal (ofLex k').2

end Stands

end RawDb

-- ================================================================= any sequence

/-- Batches without facts leave the fact tables. -/
theorem facts_writeAll {bs : List Batch} (h : ∀ b ∈ bs, b.NoFacts) (db : Db) :
    (db.writeAll bs).att = db.att ∧ (db.writeAll bs).attPath = db.attPath
      ∧ (db.writeAll bs).attNar = db.attNar := by
  induction bs generalizing db with
  | nil => exact ⟨rfl, rfl, rfl⟩
  | cons b bs ih =>
      obtain ⟨ha, hp, hn⟩ := ih (fun b' hb' => h b' (List.mem_cons_of_mem _ hb')) (db.write b)
      have hb := h b List.mem_cons_self
      refine ⟨ha.trans ?_, hp.trans ?_, hn.trans ?_⟩
      · rw [Db.write, hb.att, OrdMap.setAll_nil]
      · rw [Db.write, hb.attPath, OrdMap.setAll_nil]
      · rw [Db.write, hb.attNar, OrdMap.setAll_nil]

variable {cd} {r r' : RawDb} {db : Db}

/-- A step of the store is some of an operation's batches. -/
theorem RawDb.step_spec (h : r.Stands db) {a : RawOp × Option ℕ}
    (hs : r.step cd a = some r') :
    ∃ ts done, db.Does cd ts a.1 ∧ (∀ b ∈ done, b ∈ ts) ∧ (a.2 = none → done = ts)
      ∧ r' = r.writeAll (done.map Batch.raw) ∧ r'.Stands (db.writeAll done) := by
  obtain ⟨bs, hbs, rfl⟩ := Option.map_eq_some_iff.mp hs
  obtain ⟨ts, hdoes, rfl⟩ := does_of_batches h hbs
  have hnum := hdoes.numbered fun k hk => by
    obtain ⟨e, he⟩ := Option.isSome_iff_exists.mp hk
    exact h.journal.inDom k e he
  cases hcut : a.2 with
  | none => exact ⟨ts, ts, hdoes, fun _ hb => hb, fun _ => rfl, rfl, h.writeAll hnum⟩
  | some n =>
      have hsub : ∀ b ∈ ts.take n, b ∈ ts := fun b hb => List.mem_of_mem_take hb
      refine ⟨ts, ts.take n, hdoes, hsub, fun he => (Option.some_ne_none n he).elim, ?_, ?_⟩
      · rw [Option.elim_some, List.map_take]
      · rw [Option.elim_some, ← List.map_take]
        exact h.writeAll fun b hb => hnum b (hsub b hb)

/-- What stands for the store after any sequence of operations. -/
theorem RawDb.stands_of_reach (h : (rawSystem cd).Reach r) :
    ∃ db, r.Stands db ∧ db.Mirrored := by
  refine System.Reach.invariant (I := fun r : RawDb => ∃ db, r.Stands db ∧ db.Mirrored) ?_ ?_ h
  · rintro r rfl
    exact ⟨{}, Stands.empty, Db.mirrored_empty⟩
  · rintro r a r' - ⟨db, hst, hm⟩ hs
    obtain ⟨ts, done, hdoes, hsub, -, -, hst'⟩ := RawDb.step_spec hst hs
    exact ⟨_, hst', hm.writeAll fun b hb => hdoes.paired b (hsub b hb)⟩

/-- After any sequence of operations, cut off anywhere, the possession
families mirror each other. The next operation, cut off or not, leaves
the rows of every origin but its own. A completed `retain_origins` leaves
nothing of the origins outside `keep` exactly if each that had rows had a
clock; the fact table and the watermarks among kept origins it leaves
alone. -/
theorem possession_mirrored (h : (rawSystem cd).Reach r) :
    r.Mirrored
      ∧ (∀ a r', r.step cd a = some r' → ∀ o, ¬ a.1.Touches o → r.SameRows r' o)
      ∧ ∀ keep r', r.step cd (.retainOrigins keep, none) = some r' →
        (r'.Gone keep ↔ r.Clocked keep)
          ∧ (∀ o ∈ keep, r.SameRows r' o)
          ∧ (∀ p ∈ keep, ∀ o ∈ keep, r'.wm.get (wmKey p o) = r.wm.get (wmKey p o))
          ∧ r'.att = r.att ∧ r'.attPath = r.attPath ∧ r'.attNar = r.attNar := by
  obtain ⟨db, hst, hm⟩ := RawDb.stands_of_reach h
  have hframe : ∀ a r', r.step cd a = some r' → ∀ o, ¬ a.1.Touches o → r.SameRows r' o := by
    intro a r' hs o ho
    obtain ⟨ts, done, hdoes, hsub, -, -, hst'⟩ := RawDb.step_spec hst hs
    exact hst.sameRows hst' (.writeAll (fun b hb => hdoes.spares ho b (hsub b hb)) db)
  refine ⟨hst.mirrored hm, hframe, fun keep r' hs => ?_⟩
  obtain ⟨ts, done, hdoes, -, hdone, -, hst'⟩ := RawDb.step_spec hst hs
  obtain ⟨departed, wm, hdep, hwm, hts⟩ := hdoes
  obtain rfl : done = retainIn db departed wm := (hdone rfl).trans hts
  have hmem : ∀ o, o ∈ departed ↔ o ∉ keep ∧ (db.clocks.get o).isSome = true := by
    intro o
    rw [hdep.mem_iff, List.mem_filter, decide_eq_true_eq, OrdMap.mem_keys, and_comm]
  have hclocks : ∀ o, r.clocks.get (okey o) = db.clocks.get o := fun o => hst.clocks.get o trivial
  refine ⟨?_, fun o ho => hframe _ _ hs o (not_not.mpr ho), fun p hp o ho => ?_, ?_⟩
  · constructor
    · -- an origin without a clock is not found, so what is gone was never there
      intro hgone o ho hnone
      refine hst.noRows_iff.mpr ?_
      have hout : o ∉ departed := by
        rw [hmem, not_and]
        intro _ hsome
        rw [← hclocks, hnone] at hsome
        cases hsome
      obtain ⟨hhold, hjournal⟩ := hst'.noRows_iff.mp fun k hk =>
        ⟨(hgone.rows o ho k hk).1, (hgone.rows o ho k hk).2.1⟩
      refine ⟨fun x => ?_, fun n => ?_⟩
      · have hx := hhold x
        rwa [hold_retainIn, if_neg hout] at hx
      · have hn := hjournal n
        rwa [journal_retainIn, if_neg hout] at hn
    · intro hclocked
      refine ⟨fun o ho => ?_, fun k hk => ?_⟩
      · have hrows : (∀ x, (db.writeAll (retainIn db departed wm)).hold.get (toLex (o, x)) = none)
            ∧ ∀ n, (db.writeAll (retainIn db departed wm)).journal.get (toLex (o, n)) = none := by
          by_cases hin : o ∈ departed
          · refine ⟨fun x => ?_, fun n => ?_⟩
            · rw [hold_retainIn]
              exact if_pos hin
            · rw [journal_retainIn]
              exact if_pos hin
          · have hnone : r.clocks.get (okey o) = none := by
              rw [hclocks, ← Option.not_isSome_iff_eq_none]
              exact fun hsome => hin ((hmem o).mpr ⟨ho, hsome⟩)
            obtain ⟨hhold, hjournal⟩ := hst.noRows_iff.mp (hclocked o ho hnone)
            refine ⟨fun x => ?_, fun n => ?_⟩
            · rw [hold_retainIn, hhold, ite_self]
            · rw [journal_retainIn, hjournal, ite_self]
        intro k hk
        obtain ⟨hhold, hjournal⟩ := hst'.noRows_iff.mpr hrows k hk
        refine ⟨hhold, hjournal, hst'.clocks.get_eq_none fun o' _ he => ?_⟩
        obtain rfl : o = o' := okey_prefix_iff.mp (List.append_nil (okey o') ▸ he ▸ hk)
        rw [clocks_retainIn]
        split
        next => rfl
        next hin =>
          rw [← Option.not_isSome_iff_eq_none]
          exact fun hsome => hin ((hmem o).mpr ⟨ho, hsome⟩)
      · obtain ⟨v, hv⟩ := Option.isSome_iff_exists.mp (OrdMap.mem_keys.mp hk)
        obtain ⟨q, -, rfl, hget⟩ := hst'.wm.row hv
        rw [wm_retainIn] at hget
        split at hget
        next => cases hget
        next hstays =>
          rw [hwm.mem_iff, List.mem_filter, not_and, Bool.or_eq_true, decide_eq_true_eq,
            decide_eq_true_eq, not_or, not_not, not_not, OrdMap.mem_keys] at hstays
          obtain ⟨hp, ho⟩ := hstays (Option.isSome_iff_exists.mpr ⟨v, hget⟩)
          exact ⟨_, hp, _, ho, rfl⟩
  · refine hst.wm.get_congr hst'.wm fun q _ he => ?_
    obtain ⟨rfl, rfl⟩ := wmKey_injective he
    rw [wm_retainIn, if_neg]
    intro hin
    have hgoes := (List.mem_filter.mp (hwm.mem_iff.mp hin)).2
    rw [Bool.or_eq_true, decide_eq_true_eq, decide_eq_true_eq] at hgoes
    exact hgoes.elim (fun hn => hn hp) fun hn => hn ho
  · have hfacts := (noFacts_retainIn db departed wm)
    obtain ⟨ha, hp, hn⟩ := facts_writeAll hfacts db
    exact ⟨hst'.att.trans (ha.trans hst.att.symm), hst'.attPath.trans (hp.trans hst.attPath.symm),
      hst'.attNar.trans (hn.trans hst.attNar.symm)⟩

/-- A snapshot of a new origin that stops after its first batch, the
origin being gone from the configuration when the store is next opened. -/
def RawOp.stranded : List (RawOp × Option ℕ) :=
  [(.setGeneration (Origin.ofByte 1) 7, none),
    (.replaceHoldings (Origin.ofByte 2) 5 1 [NarHash.ofByte 9] [.add (NarHash.ofByte 9)], some 1)]

/-- Half a snapshot is in both families. -/
theorem possession_mirrored_stranded : ∃ r : RawDb,
    r.hold.keys = [holdKey (Origin.ofByte 2) (NarHash.ofByte 9)] ∧ r.Mirrored := by
  have hrun : ((rawSystem Codec.plain).run {} RawOp.stranded).map (fun r => r.hold.keys)
      = some [holdKey (Origin.ofByte 2) (NarHash.ofByte 9)] := by decide +kernel
  obtain ⟨r, hr, hread⟩ := Option.map_eq_some_iff.mp hrun
  exact ⟨r, hread, (possession_mirrored ((System.Reach.start rfl).run hr)).1⟩

/-- And stays there when its origin is retired. -/
theorem stranded_holding_stays : ¬ ∀ (cd : Codec) (r : RawDb), (rawSystem cd).Reach r →
    ∀ keep r', r.step cd (.retainOrigins keep, none) = some r' → r'.Gone keep := by
  intro hall
  have hrun : ((rawSystem Codec.plain).run {} RawOp.stranded).bind (fun r =>
      (r.step Codec.plain (.retainOrigins [Origin.ofByte 1], none)).map fun r' =>
        r'.hold.get (holdKey (Origin.ofByte 2) (NarHash.ofByte 9))) = some (some ()) := by
    decide +kernel
  obtain ⟨r, hr, hstep⟩ := Option.bind_eq_some_iff.mp hrun
  obtain ⟨r', hs, hread⟩ := Option.map_eq_some_iff.mp hstep
  have hgone := hall Codec.plain r ((System.Reach.start rfl).run hr) _ r' hs
  have hnone := (hgone.rows (Origin.ofByte 2) (by decide)
    (holdKey (Origin.ofByte 2) (NarHash.ofByte 9)) (List.prefix_append _ _)).1
  rw [hnone] at hread
  cases hread

end Narshare
