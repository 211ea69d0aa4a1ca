/-
What the store knows of one origin, and what each operation does to it.

# The abstract replica

A `Replica` is an origin's clock, its journal as a partial map from
sequence numbers and its possession set as a predicate: the three things
the protocol reasons about, with the key layout gone. Each composite
operation has a one-line meaning on replicas (`extend`, `replace`,
`compactTo`, `stamp`), and the `replica_*` theorems say that is exactly
what the batches compute, for the origin named and for every other one:

    (operation s o …).db.replica o'
      = if o' = o then (s.db.replica o).operation … else s.db.replica o'

so a fact about one origin survives every operation on another by `rw`
and `if_neg` (frame), and later files never open a batch again.
-/
import Narshare.Store.Batch

namespace Narshare

variable (cd : Codec)

-- ============================================================ the replica

/-- What the store knows of one origin. -/
@[ext]
structure Replica where
  clock : Clock
  journal : ℕ → Option Event
  held : NarHash → Bool

/-- The replica of an origin that the tables hold. -/
def Db.replica (db : Db) (o : Origin) : Replica :=
  ⟨db.clock o, db.journalAt o, db.isHeld o⟩

@[simp] theorem Db.replica_clock (db : Db) (o : Origin) :
    (db.replica o).clock = db.clock o := rfl

@[simp] theorem Db.replica_journal (db : Db) (o : Origin) :
    (db.replica o).journal = db.journalAt o := rfl

/-- What one possession change leaves of hash `h`. -/
def HoldOp.on (h : NarHash) (b : Bool) : HoldOp → Bool
  | .add h' => if h' = h then true else b
  | .drop h' => if h' = h then false else b

/-- What a list of possession changes leaves of hash `h`. -/
def possess (ops : List HoldOp) (h : NarHash) (b : Bool) : Bool :=
  ops.foldl (HoldOp.on h) b

namespace Replica

/-- `apply_events`: journal rows and possession changes under a new
clock, the tail where it was. -/
def extend (r : Replica) (set : ℕ × ℕ) (journal : List (ℕ × Event))
    (holds : List HoldOp) : Replica where
  clock := ⟨set.1, set.2, r.clock.tailSeq⟩
  journal n := journal.foldl (fun o e => if e.1 = n then some e.2 else o) (r.journal n)
  held h := possess holds h (r.held h)

/-- `replace_holdings`: a wholesale copy at `(generation, seq)` with an
empty journal. -/
def replace (generation seq : ℕ) (held : List NarHash) : Replica where
  clock := ⟨generation, seq, seq⟩
  journal _ := none
  held h := decide (h ∈ held)

/-- `compact_journal`: history through the floor goes. -/
def compactTo (r : Replica) (floor : ℕ) : Replica :=
  if floor ≤ r.clock.tailSeq then r
  else
    { r with
      clock := { r.clock with tailSeq := floor }
      journal := fun n =>
        if r.clock.tailSeq < n ∧ n ≤ floor then none else r.journal n }

theorem compactTo_of_le {r : Replica} {floor : ℕ} (h : floor ≤ r.clock.tailSeq) :
    r.compactTo floor = r := if_pos h

theorem compactTo_of_lt {r : Replica} {floor : ℕ} (h : r.clock.tailSeq < floor) :
    r.compactTo floor =
      { clock := { r.clock with tailSeq := floor }
        journal := fun n =>
          if r.clock.tailSeq < n ∧ n ≤ floor then none else r.journal n
        held := r.held } := if_neg (not_le.mpr h)

/-- `set_generation`. -/
def stamp (r : Replica) (generation : ℕ) : Replica :=
  { r with clock := { r.clock with generation := generation } }

end Replica

-- ==================================================== possession changes

@[simp] theorem possess_cons (op : HoldOp) (ops : List HoldOp) (h : NarHash) (b : Bool) :
    possess (op :: ops) h b = possess ops h (op.on h b) := rfl

theorem possess_append (ops ops' : List HoldOp) (h : NarHash) (b : Bool) :
    possess (ops ++ ops') h b = possess ops' h (possess ops h b) :=
  List.foldl_append

/-- Changes that all leave `h` at `b` leave it at `b`. -/
theorem possess_of_forall {ops : List HoldOp} {h : NarHash} {b : Bool}
    (hops : ∀ op ∈ ops, op.on h b = b) : possess ops h b = b := by
  induction ops with
  | nil => rfl
  | cons op ops ih =>
      rw [possess_cons, hops op List.mem_cons_self]
      exact ih fun op' h' => hops op' (List.mem_cons_of_mem _ h')

/-- A hash that is added and never dropped ends held. -/
theorem possess_of_add {ops : List HoldOp} {h : NarHash} {b : Bool}
    (hadd : HoldOp.add h ∈ ops) (hdrop : HoldOp.drop h ∉ ops) :
    possess ops h b = true := by
  induction ops generalizing b with
  | nil => cases hadd
  | cons op ops ih =>
      rw [possess_cons]
      have hdrop' : HoldOp.drop h ∉ ops := fun hm => hdrop (List.mem_cons_of_mem _ hm)
      by_cases hin : HoldOp.add h ∈ ops
      · exact ih hin hdrop'
      · have hop : op = .add h := by
          rcases List.mem_cons.mp hadd with he | he
          · exact he.symm
          · exact absurd he hin
        rw [hop, HoldOp.on, if_pos rfl]
        refine possess_of_forall fun op' hop' => ?_
        cases op' with
        | add h' => rw [HoldOp.on]; split <;> rfl
        | drop h' =>
            have hne : h' ≠ h := fun he => hdrop' (he ▸ hop')
            rw [HoldOp.on, if_neg hne]

/-- A hash that is dropped and never added ends not held. -/
theorem possess_of_drop {ops : List HoldOp} {h : NarHash} {b : Bool}
    (hdrop : HoldOp.drop h ∈ ops) (hadd : HoldOp.add h ∉ ops) :
    possess ops h b = false := by
  induction ops generalizing b with
  | nil => cases hdrop
  | cons op ops ih =>
      rw [possess_cons]
      have hadd' : HoldOp.add h ∉ ops := fun hm => hadd (List.mem_cons_of_mem _ hm)
      by_cases hin : HoldOp.drop h ∈ ops
      · exact ih hin hadd'
      · have hop : op = .drop h := by
          rcases List.mem_cons.mp hdrop with he | he
          · exact he.symm
          · exact absurd he hin
        rw [hop, HoldOp.on, if_pos rfl]
        refine possess_of_forall fun op' hop' => ?_
        cases op' with
        | drop h' => rw [HoldOp.on]; split <;> rfl
        | add h' =>
            have hne : h' ≠ h := fun he => hadd' (he ▸ hop')
            rw [HoldOp.on, if_neg hne]

/-- A hash that is held or added, and never dropped, ends held. -/
theorem possess_eq_true {ops : List HoldOp} {h : NarHash} {b : Bool}
    (hin : b = true ∨ HoldOp.add h ∈ ops) (hdrop : HoldOp.drop h ∉ ops) :
    possess ops h b = true := by
  by_cases hadd : HoldOp.add h ∈ ops
  · exact possess_of_add hadd hdrop
  · rw [hin.resolve_right hadd]
    refine possess_of_forall fun op hop => ?_
    cases op with
    | add h' =>
        rw [HoldOp.on]
        split <;> rfl
    | drop h' =>
        have hne : h' ≠ h := fun he => hdrop (he ▸ hop)
        rw [HoldOp.on, if_neg hne]

/-- A hash that is not held or is dropped, and never added, ends not
held. -/
theorem possess_eq_false {ops : List HoldOp} {h : NarHash} {b : Bool}
    (hout : b = false ∨ HoldOp.drop h ∈ ops) (hadd : HoldOp.add h ∉ ops) :
    possess ops h b = false := by
  by_cases hdrop : HoldOp.drop h ∈ ops
  · exact possess_of_drop hdrop hadd
  · rw [hout.resolve_right hdrop]
    refine possess_of_forall fun op hop => ?_
    cases op with
    | add h' =>
        have hne : h' ≠ h := fun he => hadd (he ▸ hop)
        rw [HoldOp.on, if_neg hne]
    | drop h' =>
        rw [HoldOp.on]
        split <;> rfl

/-- The coalesced last-operation table computes the same as applying the
operations one by one. -/
theorem possess_eq_finalHolds (ops : List HoldOp) (h : NarHash) (b : Bool) :
    possess ops h b = ((finalHolds ops).get h).getD b := by
  have key : ∀ (ops : List HoldOp) (fin : OrdMap NarHash Bool),
      possess ops h ((fin.get h).getD b)
        = ((ops.foldl (fun fin op =>
            match op with
            | .add h => fin.put h true
            | .drop h => fin.put h false) fin).get h).getD b := by
    intro ops
    induction ops with
    | nil => intro fin; rfl
    | cons op ops ih =>
        intro fin
        rw [possess_cons, List.foldl_cons, ← ih]
        congr 1
        cases op with
        | add h' =>
            rw [OrdMap.get_put, HoldOp.on]
            by_cases he : h' = h
            · rw [if_pos he, if_pos he.symm, Option.getD_some]
            · rw [if_neg he, if_neg (Ne.symm he)]
        | drop h' =>
            rw [OrdMap.get_put, HoldOp.on]
            by_cases he : h' = h
            · rw [if_pos he, if_pos he.symm, Option.getD_some]
            · rw [if_neg he, if_neg (Ne.symm he)]
  exact key ops ∅

-- ==================================================== reading after a write

section Read

variable {db : Db} {b : Batch} {o : Origin}

/-- An origin no write of the batch names keeps its clock. -/
theorem clock_write_of_ne (h : ∀ w ∈ b.clocks, w.1 ≠ o) :
    (db.write b).clock o = db.clock o := by
  unfold Db.clock
  rw [Db.write, OrdMap.get_setAll_of_forall_ne h]

/-- An origin written last gets that clock. -/
theorem clock_write_single {o' : Origin} {c : Clock}
    (h : b.clocks = [(o', some c)]) :
    (db.write b).clock o = if o = o' then c else db.clock o := by
  unfold Db.clock
  rw [Db.write, h, OrdMap.setAll_cons, OrdMap.setAll_nil, OrdMap.get_set]
  split <;> rfl

theorem journalAt_write_of_ne (h : ∀ w ∈ b.journal, (ofLex w.1).1 ≠ o) :
    (db.write b).journalAt o = db.journalAt o := by
  funext n
  unfold Db.journalAt
  rw [Db.write]
  refine OrdMap.get_setAll_of_forall_ne fun w hw he => h w hw ?_
  rw [he]
  rfl

theorem isHeld_write_of_ne (h : ∀ w ∈ b.hold, (ofLex w.1).1 ≠ o) :
    (db.write b).isHeld o = db.isHeld o := by
  funext x
  unfold Db.isHeld
  rw [Db.write]
  rw [OrdMap.get_setAll_of_forall_ne fun w hw he => h w hw (by rw [he]; rfl)]

/-- A batch that names only `o` leaves every other replica alone. -/
theorem replica_write_of_ne {o' : Origin}
    (hc : ∀ w ∈ b.clocks, w.1 ≠ o') (hj : ∀ w ∈ b.journal, (ofLex w.1).1 ≠ o')
    (hh : ∀ w ∈ b.hold, (ofLex w.1).1 ≠ o') :
    (db.write b).replica o' = db.replica o' := by
  apply Replica.ext
  · exact clock_write_of_ne hc
  · exact journalAt_write_of_ne hj
  · exact isHeld_write_of_ne hh

/-- Journal rows appended at `o` read back as the last one written. -/
theorem journalAt_write_puts {journal : List (ℕ × Event)}
    (h : b.journal = journal.map fun e => (toLex (o, e.1), some e.2)) (n : ℕ) :
    (db.write b).journalAt o n
      = journal.foldl (fun r e => if e.1 = n then some e.2 else r) (db.journalAt o n) := by
  unfold Db.journalAt
  rw [Db.write, OrdMap.get_setAll, h, List.foldl_map]
  simp

/-- Possession writes of a chunk of operations read back as those
operations applied in order. -/
theorem isHeld_write_applyHolds {ops : List HoldOp}
    (h : b.hold = (applyHolds o ops).hold) (x : NarHash) :
    (db.write b).isHeld o x = possess ops x (db.isHeld o x) := by
  unfold Db.isHeld
  rw [Db.write, possess_eq_finalHolds, h, applyHolds]
  simp only
  cases hf : (finalHolds ops).get x with
  | none =>
      rw [OrdMap.get_setAll_of_forall_ne, Option.getD_none]
      intro w hw he
      obtain ⟨⟨x', v⟩, hmem, rfl⟩ := List.mem_map.mp hw
      simp only [toLex_inj, Prod.mk.injEq, true_and] at he
      rw [OrdMap.mem_entries, he, hf] at hmem
      cases hmem
  | some v =>
      rw [OrdMap.get_setAll_of_forall_eq (o := if v then some () else none)]
      · cases v <;> rfl
      · exact List.mem_map.mpr ⟨(x, v), OrdMap.mem_entries.mpr hf, rfl⟩
      · intro w hw he
        obtain ⟨⟨x', v'⟩, hmem, rfl⟩ := List.mem_map.mp hw
        simp only [toLex_inj, Prod.mk.injEq, true_and] at he
        subst he
        rw [OrdMap.mem_entries, hf] at hmem
        cases hmem
        rfl

end Read

/-- Chunked possession writes, committed in order, read back as all
their operations applied in order. -/
theorem isHeld_writeAll_applyHolds (o : Origin) (cs : List (List HoldOp)) (db : Db)
    (x : NarHash) :
    (db.writeAll (cs.map (applyHolds o))).isHeld o x
      = possess cs.flatten x (db.isHeld o x) := by
  induction cs generalizing db with
  | nil => rfl
  | cons ops cs ih =>
      have hone : (db.write (applyHolds o ops)).isHeld o x
          = possess ops x (db.isHeld o x) := isHeld_write_applyHolds rfl x
      rw [List.map_cons, List.flatten_cons, possess_append, ← hone, ← ih]
      rfl

theorem mem_holdings {db : Db} {o : Origin} {h : NarHash} :
    h ∈ db.holdings o ↔ db.isHeld o h = true := by
  unfold Db.holdings Db.isHeld
  rw [List.mem_map, Option.isSome_iff_exists]
  constructor
  · rintro ⟨⟨k, v⟩, hmem, rfl⟩
    obtain ⟨hmem, ho⟩ := List.mem_filter.mp hmem
    refine ⟨v, ?_⟩
    rw [← OrdMap.mem_entries, ← of_decide_eq_true ho]
    exact hmem
  · rintro ⟨v, hv⟩
    exact ⟨(toLex (o, h), v),
      List.mem_filter.mpr ⟨OrdMap.mem_entries.mpr hv, decide_eq_true rfl⟩, rfl⟩

-- ===================================================== scanning the journal

namespace Db

variable {db : Db} {o : Origin} {after : ℕ}

/-- The scan stops at the first row of another origin and misses none of
this one. -/
theorem journalFrom_eq_filter (db : Db) (o : Origin) (after : ℕ) :
    db.journalFrom o after
      = ((db.journal.seek (toLex (o, after + 1))).filter
          fun e => decide ((ofLex e.1).1 = o)).map fun e => ((ofLex e.1).2, e.2) := by
  rw [journalFrom, takeWhile_eq_filter]
  refine (db.journal.seek_sorted _).imp_of_mem fun {a b} ha hb hab hbo => ?_
  rw [decide_eq_true_eq] at hbo ⊢
  have hlo : o ≤ (ofLex a.1).1 :=
    (Prod.Lex.le_iff.mp (OrdMap.mem_seek.mp ha).2).elim le_of_lt fun h => h.1.le
  have hhi : (ofLex a.1).1 ≤ o :=
    hbo ▸ (Prod.Lex.lt_iff.mp hab).elim le_of_lt fun h => h.1.le
  exact le_antisymm hhi hlo

theorem mem_journalFrom {n : ℕ} {e : Event} :
    (n, e) ∈ db.journalFrom o after ↔ after < n ∧ db.journalAt o n = some e := by
  rw [journalFrom_eq_filter, List.mem_map]
  constructor
  · rintro ⟨⟨k, e'⟩, hmem, he⟩
    obtain ⟨hmem, ho⟩ := List.mem_filter.mp hmem
    obtain ⟨hget, hle⟩ := OrdMap.mem_seek.mp hmem
    have hk : k = toLex (o, n) := by
      have hn : (ofLex k).2 = n := (Prod.ext_iff.mp he).1
      rw [← of_decide_eq_true ho, ← hn]
      rfl
    have he' : e' = e := (Prod.ext_iff.mp he).2
    subst hk he'
    refine ⟨?_, hget⟩
    rcases Prod.Lex.toLex_le_toLex.mp hle with h | ⟨-, h⟩
    · exact absurd h (lt_irrefl o)
    · exact h
  · rintro ⟨hlt, hget⟩
    refine ⟨(toLex (o, n), e), List.mem_filter.mpr ⟨OrdMap.mem_seek.mpr ⟨hget, ?_⟩, ?_⟩, rfl⟩
    · exact Prod.Lex.toLex_le_toLex.mpr (Or.inr ⟨rfl, hlt⟩)
    · exact decide_eq_true rfl

/-- Rows come back in sequence order. -/
theorem journalFrom_sorted (db : Db) (o : Origin) (after : ℕ) :
    (db.journalFrom o after).Pairwise fun a b => a.1 < b.1 := by
  rw [journalFrom_eq_filter, List.pairwise_map]
  refine ((db.journal.seek_sorted _).filter _).imp_of_mem fun {a b} ha hb hab => ?_
  have hao := of_decide_eq_true (List.mem_filter.mp ha).2
  have hbo := of_decide_eq_true (List.mem_filter.mp hb).2
  rcases Prod.Lex.lt_iff.mp hab with h | h
  · rw [hao, hbo] at h
    exact absurd h (lt_irrefl o)
  · exact h.2

/-- The scan depends on the origin's journal only. -/
theorem journalFrom_congr {db' : Db} (h : db.journalAt o = db'.journalAt o) :
    db.journalFrom o after = db'.journalFrom o after := by
  refine OrdMap.eq_of_sorted (journalFrom_sorted db o after) (journalFrom_sorted db' o after)
    fun e => ?_
  rw [mem_journalFrom (n := e.1) (e := e.2), mem_journalFrom (n := e.1) (e := e.2), h]

/-- The capped loop takes some front part of its events, at least one
when there is one, and says truncated exactly when it left any. -/
theorem takeSuffix_spec (maxBytes : ℕ) (es acc : List Event) (bytes : ℕ) :
    ∃ k, takeSuffix cd maxBytes es acc bytes = (acc ++ es.take k, decide (k < es.length))
      ∧ (acc = [] → es ≠ [] → 0 < k) := by
  induction es generalizing acc bytes with
  | nil => exact ⟨0, by simp [takeSuffix], fun _ h => absurd rfl h⟩
  | cons e es ih =>
      by_cases hfull : bytes + (cd.encodeEvent e).length > maxBytes ∧ acc ≠ []
      · refine ⟨0, ?_, fun hacc => absurd hacc hfull.2⟩
        simp only [takeSuffix]
        rw [if_pos hfull]
        simp
      · obtain ⟨k, hk, -⟩ := ih (acc ++ [e]) (bytes + (cd.encodeEvent e).length)
        refine ⟨k + 1, ?_, fun _ _ => Nat.succ_pos k⟩
        simp only [takeSuffix]
        rw [if_neg hfull, hk]
        simp

/-- What `journal_suffix` returns: the rows above `after` up to some
point, at least one if there are any. -/
theorem journalSuffix_spec (db : Db) (o : Origin) (after maxBytes : ℕ) :
    ∃ k, db.journalSuffix cd o after maxBytes
        = (((db.journalFrom o after).map Prod.snd).take k,
            decide (k < (db.journalFrom o after).length))
      ∧ (db.journalFrom o after ≠ [] → 0 < k) := by
  obtain ⟨k, hk, hpos⟩ :=
    takeSuffix_spec cd maxBytes ((db.journalFrom o after).map Prod.snd) [] 0
  refine ⟨k, ?_, fun h => hpos rfl (by simpa using h)⟩
  rw [journalSuffix, hk, List.length_map, List.nil_append]

end Db

-- ================================================= operations on replicas

section Operations

variable {db : Db} {o : Origin}

/-- Every batch that writes only fact rows leaves every replica alone. -/
theorem replica_write_factsOnly {b : Batch} (hb : b.FactsOnly) (o' : Origin) :
    (db.write b).replica o' = db.replica o' := by
  apply replica_write_of_ne
  · rw [hb.clocks]; exact fun _ h => (List.not_mem_nil h).elim
  · rw [hb.journal]; exact fun _ h => (List.not_mem_nil h).elim
  · rw [hb.hold]; exact fun _ h => (List.not_mem_nil h).elim

theorem hold_applyHolds {ops : List HoldOp} {w : (Origin ×ₗ NarHash) × Option Unit}
    (h : w ∈ (applyHolds o ops).hold) : (ofLex w.1).1 = o := by
  obtain ⟨e, -, rfl⟩ := List.mem_map.mp h
  rfl

/-- `apply_events` extends its own origin. -/
theorem replica_write_eventsBatch (set : ℕ × ℕ) (journal : List (ℕ × Event))
    (holds : List HoldOp) {b : Batch} (hb : b.FactsOnly) (o' : Origin) :
    (db.write (eventsBatch (db.clock o) o set journal holds ++ b)).replica o'
      = if o' = o then (db.replica o).extend set journal holds else db.replica o' := by
  rw [Db.write_append, replica_write_factsOnly hb]
  split
  next he =>
    subst he
    apply Replica.ext
    · exact (clock_write_single rfl).trans (if_pos rfl)
    · funext n
      exact journalAt_write_puts (by simp [eventsBatch, applyHolds]) n
    · funext x
      exact isHeld_write_applyHolds (by simp [eventsBatch]) x
  next he =>
    apply replica_write_of_ne
    · intro w hw
      rw [List.mem_singleton.mp hw]
      exact Ne.symm he
    · intro w hw
      simp only [eventsBatch, applyHolds, Batch.append_journal, List.append_nil,
        List.mem_map] at hw
      obtain ⟨e, -, rfl⟩ := hw
      exact Ne.symm he
    · intro w hw
      simp only [eventsBatch, Batch.append_hold, List.nil_append] at hw
      rw [hold_applyHolds hw]
      exact Ne.symm he

/-- The operations of a replacement, in whatever order, leave exactly
the new set. -/
theorem possess_replaceOps {held : List NarHash} {ops : List HoldOp}
    (hops : ops.Perm (replaceOps db o held)) (x : NarHash) :
    possess ops x (db.isHeld o x) = decide (x ∈ held) := by
  have hdrop : HoldOp.drop x ∈ ops ↔ db.isHeld o x = true ∧ x ∉ held := by
    rw [hops.mem_iff]
    simp [replaceOps, mem_holdings]
  have hadd : HoldOp.add x ∈ ops ↔ x ∈ held ∧ db.isHeld o x = false := by
    rw [hops.mem_iff]
    simp [replaceOps, mem_sortDedup]
  by_cases hx : x ∈ held
  · rw [decide_eq_true hx]
    cases hb : db.isHeld o x with
    | false => exact possess_of_add (hadd.mpr ⟨hx, hb⟩) fun h => (hdrop.mp h).2 hx
    | true =>
        refine possess_of_forall fun op hop => ?_
        cases op with
        | add h' => rw [HoldOp.on]; split <;> rfl
        | drop h' =>
            have hne : h' ≠ x := fun he => (hdrop.mp (he ▸ hop)).2 hx
            rw [HoldOp.on, if_neg hne]
  · rw [decide_eq_false hx]
    cases hb : db.isHeld o x with
    | true => exact possess_of_drop (hdrop.mpr ⟨hb, hx⟩) fun h => hx (hadd.mp h).1
    | false =>
        refine possess_of_forall fun op hop => ?_
        cases op with
        | add h' =>
            have hne : h' ≠ x := fun he => hx (hadd.mp (he ▸ hop)).1
            rw [HoldOp.on, if_neg hne]
        | drop h' => rw [HoldOp.on]; split <;> rfl

/-- The batches of a replacement amount to three things: the possession
changes, the journal's deletion, and the clock. -/
theorem writeAll_replaceBatches (db : Db) (o : Origin) (generation seq : ℕ)
    (ops : List HoldOp) :
    db.writeAll (replaceBatches db o generation seq ops)
      = (db.writeAll ((chunks BATCH_OPS ops).map (applyHolds o))).write
          { journal := (db.journal.entries.filter
              fun e => (ofLex e.1).1 = o).map fun e => (e.1, none)
            clocks := [(o, some ⟨generation, seq, seq⟩)] } := by
  have hcut := concat_flushPush
    (fun k : Origin ×ₗ ℕ => ({ journal := [(k, none)] } : Batch))
    ((db.journal.entries.filter fun e => (ofLex e.1).1 = o).map Prod.fst) ([], {})
  rw [concat_journalDeletes] at hcut
  simp only [replaceBatches]
  rw [List.append_assoc, Db.writeAll_append, Db.writeAll_eq_write _ (_ ++ _),
    Batch.concat_append, Batch.concat_cons, Batch.concat_nil, Batch.append_empty,
    ← Batch.append_assoc, hcut]
  simp [Batch.append_def, Batch.append, Function.comp_def]

theorem clock_writeAll_of_forall {bs : List Batch} (h : ∀ b ∈ bs, b.clocks = [])
    (o' : Origin) : (db.writeAll bs).clock o' = db.clock o' := by
  induction bs generalizing db with
  | nil => rfl
  | cons b bs ih =>
      exact (ih fun b' h' => h b' (List.mem_cons_of_mem _ h')).trans
        (clock_write_of_ne (by rw [h b List.mem_cons_self]; simp))

/-- Possession chunks of `o` touch nothing but the holdings of `o`. -/
theorem writeAll_applyHolds_frame (db : Db) (o : Origin) (cs : List (List HoldOp)) :
    (db.writeAll (cs.map (applyHolds o))).clocks = db.clocks
      ∧ (db.writeAll (cs.map (applyHolds o))).journal = db.journal
      ∧ ∀ o', o' ≠ o → (db.writeAll (cs.map (applyHolds o))).isHeld o' = db.isHeld o' := by
  induction cs generalizing db with
  | nil => exact ⟨rfl, rfl, fun _ _ => rfl⟩
  | cons c cs ih =>
      obtain ⟨hc, hj, hh⟩ := ih (db.write (applyHolds o c))
      refine ⟨hc, hj, fun o' ho' => (hh o' ho').trans ?_⟩
      exact isHeld_write_of_ne fun w hw => hold_applyHolds hw ▸ Ne.symm ho'

/-- Deleting every journal row of `o` leaves none. -/
theorem journalAt_write_deleteAll {b : Batch}
    (h : b.journal = (db.journal.entries.filter
      fun e => (ofLex e.1).1 = o).map fun e => (e.1, none)) (o' : Origin) :
    (db.write b).journalAt o' = if o' = o then fun _ => none else db.journalAt o' := by
  split
  next he =>
    subst he
    funext n
    unfold Db.journalAt
    rw [Db.write, h]
    cases hg : db.journal.get (toLex (o', n)) with
    | none =>
        rw [OrdMap.get_setAll_of_forall_ne, hg]
        intro w hw he
        obtain ⟨⟨k, e⟩, hmem, rfl⟩ := List.mem_map.mp hw
        have := OrdMap.mem_entries.mp (List.mem_filter.mp hmem).1
        simp only at he
        rw [he, hg] at this
        cases this
    | some e =>
        refine OrdMap.get_setAll_of_forall_eq (List.mem_map.mpr ⟨(toLex (o', n), e),
          List.mem_filter.mpr ⟨OrdMap.mem_entries.mpr hg, decide_eq_true rfl⟩, rfl⟩) ?_
        intro w hw _
        obtain ⟨_, -, rfl⟩ := List.mem_map.mp hw
        rfl
  next he =>
    refine journalAt_write_of_ne fun w hw => ?_
    rw [h] at hw
    obtain ⟨e, hmem, rfl⟩ := List.mem_map.mp hw
    exact of_decide_eq_true (List.mem_filter.mp hmem).2 ▸ Ne.symm he

/-- `replace_holdings` makes its own origin the copy it was given. -/
theorem replica_writeAll_replaceBatches (generation seq : ℕ) {held : List NarHash}
    {ops : List HoldOp} (hops : ops.Perm (replaceOps db o held)) (o' : Origin) :
    (db.writeAll (replaceBatches db o generation seq ops)).replica o'
      = if o' = o then Replica.replace generation seq held else db.replica o' := by
  obtain ⟨hc, hj, hh⟩ := writeAll_applyHolds_frame db o (chunks BATCH_OPS ops)
  have hjournal : ((db.writeAll ((chunks BATCH_OPS ops).map (applyHolds o))).write
      { journal := (db.journal.entries.filter
          fun e => (ofLex e.1).1 = o).map fun e => (e.1, none)
        clocks := [(o, some ⟨generation, seq, seq⟩)] }).journalAt o'
      = if o' = o then fun _ => none
        else (db.writeAll ((chunks BATCH_OPS ops).map (applyHolds o))).journalAt o' :=
    journalAt_write_deleteAll (by rw [hj]) o'
  rw [writeAll_replaceBatches]
  split
  next he =>
    subst he
    apply Replica.ext
    · exact (clock_write_single rfl).trans (if_pos rfl)
    · rw [Db.replica_journal, hjournal, if_pos rfl]
      rfl
    · funext x
      refine Eq.trans ?_ (possess_replaceOps hops x)
      refine (congrFun (isHeld_write_of_ne (by simp)) x).trans ?_
      rw [isHeld_writeAll_applyHolds, flatten_chunks (by decide)]
  next he =>
    apply Replica.ext
    · refine (clock_write_single rfl).trans ((if_neg he).trans ?_)
      exact clock_writeAll_of_forall
        (fun b hb => by obtain ⟨c, -, rfl⟩ := List.mem_map.mp hb; rfl) o'
    · rw [Db.replica_journal, hjournal, if_neg he, Db.replica_journal]
      unfold Db.journalAt
      rw [hj]
    · exact (isHeld_write_of_ne (by simp)).trans (hh o' he)

/-- `compact_journal` drops its own origin's history through the floor. -/
theorem replica_write_compactBatch (db : Db) (o : Origin) (floor : ℕ) (o' : Origin) :
    (db.write (compactBatch db o floor)).replica o'
      = if o' = o then (db.replica o).compactTo floor else db.replica o' := by
  unfold compactBatch
  simp only
  by_cases hfloor : floor ≤ (db.clock o).tailSeq
  · rw [if_pos hfloor, Db.write_empty, Replica.compactTo_of_le hfloor]
    split
    next he => rw [he]
    next => rfl
  · rw [if_neg hfloor, Replica.compactTo_of_lt (not_le.mp hfloor)]
    have hdel : ∀ n e, (n, e) ∈ (db.journalFrom o (db.clock o).tailSeq).takeWhile
          (fun e => decide (e.1 ≤ floor))
        ↔ ((db.clock o).tailSeq < n ∧ n ≤ floor) ∧ db.journalAt o n = some e := by
      intro n e
      rw [takeWhile_eq_filter ((db.journalFrom_sorted o _).imp fun h h' =>
          decide_eq_true (h.le.trans (of_decide_eq_true h'))),
        List.mem_filter, Db.mem_journalFrom, decide_eq_true_eq]
      tauto
    split
    next he =>
      subst he
      apply Replica.ext
      · exact (clock_write_single rfl).trans (if_pos rfl)
      · funext n
        change _ = if (db.replica o').clock.tailSeq < n ∧ n ≤ floor then none
          else db.journalAt o' n
        cases hg : db.journalAt o' n with
        | none =>
            rw [ite_self]
            refine Eq.trans (OrdMap.get_setAll_of_forall_ne fun w hw he => ?_) hg
            obtain ⟨⟨m, e⟩, hmem, rfl⟩ := List.mem_map.mp hw
            simp only [toLex_inj, Prod.mk.injEq, true_and] at he
            rw [he] at hmem
            rw [((hdel n e).mp hmem).2] at hg
            cases hg
        | some e =>
            by_cases hn : (db.replica o').clock.tailSeq < n ∧ n ≤ floor
            · rw [if_pos hn]
              refine OrdMap.get_setAll_of_forall_eq
                (List.mem_map.mpr ⟨(n, e), (hdel n e).mpr ⟨hn, hg⟩, rfl⟩) ?_
              intro w hw _
              obtain ⟨_, -, rfl⟩ := List.mem_map.mp hw
              rfl
            · rw [if_neg hn]
              refine Eq.trans (OrdMap.get_setAll_of_forall_ne fun w hw he => ?_) hg
              obtain ⟨⟨m, e'⟩, hmem, rfl⟩ := List.mem_map.mp hw
              simp only [toLex_inj, Prod.mk.injEq, true_and] at he
              rw [he] at hmem
              exact hn ((hdel n e').mp hmem).1
      · exact isHeld_write_of_ne (by simp)
    next he =>
      apply replica_write_of_ne
      · intro w hw
        rw [List.mem_singleton.mp hw]
        exact Ne.symm he
      · intro w hw
        obtain ⟨_, -, rfl⟩ := List.mem_map.mp hw
        exact Ne.symm he
      · simp

/-- `set_generation` restamps its own origin. -/
theorem replica_setGeneration (s : Store) (o : Origin) (generation : ℕ) (o' : Origin) :
    (s.setGeneration o generation).db.replica o'
      = if o' = o then (s.db.replica o).stamp generation else s.db.replica o' := by
  unfold Store.setGeneration
  split
  next he =>
    subst he
    apply Replica.ext
    · exact (clock_write_single rfl).trans (if_pos rfl)
    · exact journalAt_write_of_ne (by simp)
    · exact isHeld_write_of_ne (by simp)
  next he =>
    apply replica_write_of_ne
    · intro w hw
      rw [List.mem_singleton.mp hw]
      exact Ne.symm he
    · simp
    · simp

/-- The store operations, through their replicas. -/
theorem replica_applyEvents {s s' : Store} {expect set : ℕ × ℕ}
    {journal : List (ℕ × Event)} {holds : List HoldOp} {attests : List Attestation}
    (h : s.applyEvents cd o expect set journal holds attests = (true, s')) (o' : Origin) :
    ((s.db.clock o).generation, (s.db.clock o).seq) = expect
      ∧ s'.db.replica o'
        = if o' = o then (s.db.replica o).extend set journal holds
          else s.db.replica o' := by
  rw [Store.applyEvents] at h
  split at h
  next => cases h
  next hexp =>
    cases h
    exact ⟨not_not.mp hexp, replica_write_eventsBatch set journal holds
      (Batch.factsOnly_movesBatch cd _) o'⟩

theorem applyEvents_refused {s s' : Store} {expect set : ℕ × ℕ}
    {journal : List (ℕ × Event)} {holds : List HoldOp} {attests : List Attestation}
    (h : s.applyEvents cd o expect set journal holds attests = (false, s')) : s' = s := by
  rw [Store.applyEvents] at h
  split at h
  · cases h
    rfl
  · cases h

theorem replica_replaceHoldings (s : Store) (generation seq : ℕ) (held : List NarHash)
    (o' : Origin) :
    (s.replaceHoldings o generation seq held).2.db.replica o'
      = if o' = o ∧ staleSnapshot (s.db.clock o) generation seq = false then
          Replica.replace generation seq held
        else s.db.replica o' := by
  rw [Store.replaceHoldings]
  cases hst : staleSnapshot (s.db.clock o) generation seq with
  | true => simp
  | false =>
      simp only [Bool.false_eq_true, if_false, and_true]
      exact replica_writeAll_replaceBatches generation seq (List.Perm.refl _) o'

theorem replica_compactJournal (s : Store) (o : Origin) (floor : ℕ) (o' : Origin) :
    (s.compactJournal o floor).db.replica o'
      = if o' = o then (s.db.replica o).compactTo floor else s.db.replica o' :=
  replica_write_compactBatch s.db o floor o'

theorem replica_mergeAttestations (s : Store) (attests : List Attestation) (o' : Origin) :
    (s.mergeAttestations cd attests).2.db.replica o' = s.db.replica o' := by
  rw [Store.mergeAttestations]
  split
  · exact replica_write_factsOnly (Batch.factsOnly_movesBatch cd _) o'
  · rfl

end Operations

end Narshare
