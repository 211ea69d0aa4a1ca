/-
A response taken apart at its reads of the store, with the store's other
work in between.

# Two reads

`respond_budgeted` reads an origin's clock, decides from it, and then
reads the journal or the holdings. These are two transactions, and the
tasks of the store (Machine.lean) come in between as they like. A
`Serving` has any number of responses under way beside them: `clock i`
and `body i` are the two reads of the `i`-th. Made with nothing in
between they are `respondOrigin` (`respondOrigin_eq`).

# What a body should be

`Cut` holds a body against `past`, the moments there have been. A
snapshot should be the possession of its origin at a moment with the
clock of its label, and a moment when the possession was whole: a
replacement commits the rows in chunks and the clock at the end, and
`halfway` are the origins it has left in between, for good if the
process died there. A suffix should be one that `apply_suffix` refuses,
or a run of events directly above the requester's clock, all of which
stood in the journal at some moment of the generation on its label.

# What comes in between

Nothing ties the second read to the first. A journal read in a later
generation, or a possession read while it is being replaced, was never
the state its label names, and the requester's clock will vouch for it
(`replacement_is_torn`). `Steady` compares the moments of the two reads
and says what may come in between: events and compactions under a
suffix, compactions and new generations under a snapshot, and anything
that leaves the rows as they were.
-/
import Narshare.Index.Interleave
import Narshare.Store.Machine

namespace Narshare

variable (cd : Codec) (cfg : Config)

-- ============================================================= the machine

/-- The tables, and the origins whose possession is neither the old nor
the new one. -/
structure Moment where
  db : Db := {}
  halfway : List Origin := []

/-- A response under way: the request, the origins still to come, the
clock read for the first of them, and what is answered so far. No step
looks at `since`, the moment of that read. -/
structure Responder where
  req : SyncRequest
  budget : ℕ
  todo : List Origin
  clock : Option Clock := none
  since : Moment := {}
  ans : Answer := {}

/-- What the clock of `o` decides. -/
def Responder.verdict (r : Responder) (o : Origin) (c : Clock) : Verdict :=
  judge c (theirClock r.req o) (decide (o ∈ r.req.skipOrigins))
    (decide (r.budget ≤ r.ans.used))

/-- `respond_budgeted`, one turn of the loop: the clock was read before,
the body is read now. -/
def Responder.answer (r : Responder) (o : Origin) (c : Clock) (db : Db) : Answer :=
  let theirs := theirClock r.req o
  let verdict := r.verdict o c
  if verdict = .silent then r.ans
  else
    let body := verdict.body cd db o theirs.2
    let connects := theirs.1 = c.generation ∧ theirs.2 ≥ c.tailSeq
    { origins := r.ans.origins ++ [⟨o, c.generation, c.seq, body.1, body.2⟩]
      sentSnapshot := r.ans.sentSnapshot
        || (verdict == .clockOnly && !decide connects) || verdict == .snapshot
      used := r.ans.used + (body.1.elim 0 (Body.used cd)) }

/-- Both reads at once are a turn of `respond`. -/
theorem respondOrigin_eq (r : Responder) (db : Db) (o : Origin) :
    respondOrigin cd db r.req r.budget r.ans o = r.answer cd o (db.clock o) db := rfl

/-- A call made while a node serves. Events are journaled under their
own numbers, and `retain_origins` is for `open`. -/
def Call.served : Call → Bool
  | .applyEvents _ _ _ journal _ _ => journal.all fun e => decide (e.2.seq = e.1)
  | .retainOrigins _ => false
  | _ => true

/-- A step of the store while a node serves. -/
def Machine.Act.served : Machine.Act → Bool
  | .call _ c => c.served
  | _ => true

/-- The store, the responses under way, and the moments so far. -/
structure Serving where
  machine : Machine := {}
  halfway : List Origin := []
  past : List Moment := [{}]
  responders : List Responder := []

namespace Serving

/-- The tables as they stand. -/
def now (x : Serving) : Moment := ⟨x.machine.store.db, x.halfway⟩

/-- The origins halfway after a step of the store. A batch of a
replacement that is not its last changes possession before the clock;
the last one brings the clock. -/
def landing (x : Serving) : Machine.Act → List Origin
  | .write id =>
      match x.machine.tasks.get id with
      | some ⟨_, .writing [b]⟩ =>
          x.halfway.filter fun o => decide (o ∉ b.clocks.map Prod.fst)
      | some ⟨_, .writing (b :: _ :: _)⟩ =>
          x.halfway ++ b.hold.map fun w => (ofLex w.1).1
      | _ => x.halfway
  | _ => x.halfway

/-- A restart leaves no response under way. -/
def surviving (x : Serving) : Machine.Act → List Responder
  | .reopen => []
  | _ => x.responders

/-- What can happen. -/
inductive Act
  | store (a : Machine.Act)
  | request (req : SyncRequest) (budget : ℕ)
  | clock (i : ℕ)
  | body (i : ℕ)

/-- The guarded step. -/
def step (x : Serving) : Act → Option Serving
  | .store a =>
      if a.served then
        (x.machine.step cd a).map fun m =>
          { machine := m
            halfway := x.landing a
            past := x.past ++ [⟨m.store.db, x.landing a⟩]
            responders := x.surviving a }
      else none
  | .request req budget =>
      if req.ranges = [] ∧ req.merkle = [] then
        some { x with
          responders := x.responders
            ++ [{ req := req, budget := budget, todo := cfg.originSet }] }
      else none
  | .clock i =>
      x.responders[i]?.bind fun r =>
        match r.todo, r.clock with
        | o :: _, none =>
            some { x with
              responders := x.responders.set i
                { r with clock := some (x.now.db.clock o), since := x.now } }
        | _, _ => none
  | .body i =>
      x.responders[i]?.bind fun r =>
        match r.todo, r.clock with
        | o :: todo, some c =>
            some { x with
              responders := x.responders.set i
                { r with
                  todo := todo
                  clock := none
                  ans := r.answer cd o c x.now.db } }
        | _, _ => none

end Serving

/-- A node that serves, from an empty database. -/
def servingSystem : System Serving Serving.Act where
  init x := x = {}
  step x a := x.step cd cfg a

-- =============================================================== consistency

/-- `apply_suffix` at the requester's clock asks for a snapshot instead. -/
def Refused (theirs : ℕ × ℕ) (generation : ℕ) (events : List Event) : Prop :=
  ∀ tailSeq, readSuffix ⟨theirs.1, theirs.2, tailSeq⟩ generation events
    = .inl .needSnapshot

/-- The body of an update is what its label says. -/
def OriginUpdate.Cut (past : List Moment) (theirs : ℕ × ℕ) (up : OriginUpdate) : Prop :=
  match up.body with
  | some (.snapshot held) =>
      ∃ m ∈ past, up.origin ∉ m.halfway
        ∧ (m.db.clock up.origin).generation = up.generation
        ∧ (m.db.clock up.origin).seq = up.seq
        ∧ held = (m.db.holdings up.origin).map Subtype.val
  | some (.suffix events) =>
      Refused theirs up.generation events
        ∨ (SeqRun Event.seq theirs.2 events
          ∧ ∃ m ∈ past, (m.db.clock up.origin).generation = up.generation
            ∧ ∀ e ∈ events, m.db.journalAt up.origin e.seq = some e)
  | _ => True

/-- What may come between the clock, read at `since`, and the body, read
`now`. A suffix needs the generation, or no event above the requester's
clock that was not there before, or a journal that no longer connects. A
snapshot needs the clock and a possession that is whole, or a whole
possession since. -/
def Verdict.Steady (since now : Moment) (o : Origin) (theirSeq : ℕ) : Verdict → Prop
  | .suffix =>
      (now.db.clock o).generation = (since.db.clock o).generation
        ∨ now.db.journalAt o (theirSeq + 1) = none
        ∨ ∀ e ∈ now.db.journalFrom o theirSeq, e ∈ since.db.journalFrom o theirSeq
  | .snapshot =>
      (o ∉ now.halfway ∧ (now.db.clock o).generation = (since.db.clock o).generation
        ∧ (now.db.clock o).seq = (since.db.clock o).seq)
      ∨ (o ∉ since.halfway ∧ now.db.holdings o = since.db.holdings o)
  | _ => True

instance (since now : Moment) (o : Origin) (theirSeq : ℕ) (v : Verdict) :
    Decidable (v.Steady since now o theirSeq) :=
  match v with
  | .suffix => inferInstanceAs (Decidable (_ ∨ _ ∨ _))
  | .snapshot => inferInstanceAs (Decidable ((_ ∧ _ ∧ _) ∨ (_ ∧ _)))
  | .silent | .upToDate | .clockOnly | .deferred => inferInstanceAs (Decidable True)

/-- No read of a body is overtaken. -/
def Serving.Steady (x : Serving) : Serving.Act → Prop
  | .body i =>
      ∀ r ∈ x.responders[i]?, ∀ o ∈ r.todo.head?, ∀ c ∈ r.clock,
        (r.verdict o c).Steady r.since x.now o (theirClock r.req o).2
  | _ => True

instance (x : Serving) (a : Serving.Act) : Decidable (x.Steady a) :=
  match a with
  | .body i => inferInstanceAs (Decidable (∀ r ∈ x.responders[i]?, ∀ o ∈ r.todo.head?,
      ∀ c ∈ r.clock, (r.verdict o c).Steady r.since x.now o (theirClock r.req o).2))
  | .store _ | .request _ _ | .clock _ => inferInstanceAs (Decidable True)

-- ====================================================== events by their numbers

/-- Journal rows are stored under their events' numbers. -/
def Db.Keyed (db : Db) : Prop := ∀ o n e, db.journalAt o n = some e → e.seq = n

/-- Journal rows are put under their events' numbers. -/
def Batch.Keyed (b : Batch) : Prop := ∀ w ∈ b.journal, ∀ e ∈ w.2, e.seq = (ofLex w.1).2

namespace Batch.Keyed

theorem of_nil {b : Batch} (h : b.journal = []) : b.Keyed := by
  intro w hw
  rw [h] at hw
  cases hw

theorem append {b b' : Batch} (h : b.Keyed) (h' : b'.Keyed) : (b ++ b').Keyed := by
  intro w hw
  rcases List.mem_append.mp hw with hw | hw
  · exact h w hw
  · exact h' w hw

end Batch.Keyed

theorem Db.Keyed.write {db : Db} {b : Batch} (h : db.Keyed) (hb : b.Keyed) :
    (db.write b).Keyed := by
  intro o n e he
  rcases OrdMap.of_get_setAll he with hold | hnew
  · exact h o n e hold
  · exact hb _ hnew e rfl

/-- The batches of a task put no row under another number. -/
def Task.Keyed (u : Task) : Prop :=
  match u.phase with
  | .merging base _ _ => base.Keyed
  | .folding _ => True
  | .writing bs => ∀ b ∈ bs, b.Keyed

/-- Nor do the tables or any task. -/
structure Machine.Keyed (m : Machine) : Prop where
  db : m.store.db.Keyed
  tasks : ∀ id u, m.tasks.get id = some u → u.Keyed

namespace Machine.Keyed

variable {cd} {m : Machine}

theorem init : Machine.Keyed {} where
  db _ _ _ h := by cases h
  tasks _ _ h := by cases h

/-- A task is started or goes on. -/
theorem put (h : m.Keyed) {db : Db} {agg : Aggregates} {taken : List Attestation} {id : ℕ}
    {t : Option Task} (hdb : db.Keyed) (ht : ∀ u, t = some u → u.Keyed) :
    Machine.Keyed ⟨⟨db, agg⟩, m.tasks.set id t, taken⟩ where
  db := hdb
  tasks id' u hu := by
    simp only [OrdMap.get_set] at hu
    split at hu
    · exact ht u hu
    · exact h.tasks id' u hu

theorem enter (h : m.Keyed) {id : ℕ} {c : Call} (hc : c.served = true) {m' : Machine}
    (hs : m.enter cd id c = some m') : m'.Keyed := by
  cases c with
  | applyEvents o expect set journal holds attests =>
      simp only [Machine.enter] at hs
      split at hs
      · cases hs
        exact h
      · cases hs
        refine h.put h.db fun u hu => ?_
        cases hu
        intro w hw e he
        rw [eventsBatch, Batch.append_journal] at hw
        rcases List.mem_append.mp hw with hw | hw
        · obtain ⟨row, hrow, rfl⟩ := List.mem_map.mp hw
          cases he
          exact of_decide_eq_true (List.all_eq_true.mp hc row hrow)
        · cases hw
  | mergeAttestations attests =>
      cases hs
      refine h.put h.db fun u hu => ?_
      cases hu
      exact Batch.Keyed.of_nil rfl
  | replaceHoldings o generation seq held ops =>
      simp only [Machine.enter] at hs
      split at hs
      · cases hs
        exact h
      · split at hs
        · cases hs
          refine h.put h.db fun u hu => ?_
          cases hu
          refine replaceBatches_forall (.of_nil rfl) (fun _ _ => .append) (fun _ => .of_nil rfl)
            (fun k _ _ w hw e he => ?_) (fun _ => .of_nil rfl) generation seq ops
          rw [List.mem_singleton.mp hw] at he
          cases he
        · cases hs
  | compactJournal o floor =>
      cases hs
      refine ⟨h.db.write fun w hw e he => ?_, h.tasks⟩
      unfold compactBatch at hw
      simp only at hw
      split at hw
      · cases hw
      · obtain ⟨row, -, rfl⟩ := List.mem_map.mp hw
        cases he
  | setGeneration o generation =>
      cases hs
      exact ⟨h.db.write (.of_nil rfl), h.tasks⟩
  | retainOrigins keep => cases hc
  | advanceWatermark peer o seq =>
      cases hs
      unfold Store.advanceWatermark
      split
      · exact ⟨h.db.write (.of_nil rfl), h.tasks⟩
      · exact h

/-- A step of the store while a node serves puts no row under another
number. -/
theorem step (h : m.Keyed) {a : Act} (ha : a.served = true) {m' : Machine}
    (hs : m.step cd a = some m') : m'.Keyed := by
  cases a with
  | call id c =>
      rw [Machine.step] at hs
      split at hs
      · exact h.enter ha hs
      · cases hs
  | read id =>
      simp only [Machine.step] at hs
      split at hs
      next hu =>
        cases hs
        have hbase : Batch.Keyed _ := h.tasks id _ hu
        refine h.put h.db fun u hu' => ?_
        cases hu'
        exact hbase
      next => cases hs
  | commit id =>
      simp only [Machine.step] at hs
      split at hs
      next hu =>
        cases hs
        refine h.put (h.db.write ?_) fun u hu' => ?_
        · exact (h.tasks id _ hu).append
            (.of_nil (Batch.factsOnly_movesBatch cd _).journal)
        · cases hu'
          trivial
      next => cases hs
  | fold id =>
      simp only [Machine.step] at hs
      split at hs
      next hu =>
        cases hs
        exact h.put h.db fun u hu' => by cases hu'
      next => cases hs
  | write id =>
      simp only [Machine.step] at hs
      split at hs
      next stripes b bs hu =>
        cases hs
        have hbs := h.tasks id _ hu
        have hdb := h.db.write (hbs b List.mem_cons_self)
        split
        · exact h.put hdb fun u hu' => by cases hu'
        · refine h.put hdb fun u hu' => ?_
          cases hu'
          exact fun b' hb' => hbs b' (List.mem_cons_of_mem _ hb')
      next => cases hs
  | reopen =>
      cases hs
      exact ⟨h.db, fun _ _ hu => by cases hu⟩

end Machine.Keyed

-- ================================================================== one body

section Body

variable {cd} {past : List Moment} {since now : Moment} {o : Origin} {theirs : ℕ × ℕ}

variable (cd) in
/-- What a suffix read gives: rows above where it starts, in order. -/
theorem Db.Keyed.journalSuffix {db : Db} (h : db.Keyed) (o : Origin) (after maxBytes : ℕ) :
    ((db.journalSuffix cd o after maxBytes).1.Pairwise fun e e' => e.seq < e'.seq)
      ∧ ∀ e ∈ (db.journalSuffix cd o after maxBytes).1, (e.seq, e) ∈ db.journalFrom o after := by
  have hrow : ∀ r ∈ db.journalFrom o after, r.2.seq = r.1 := fun r hr =>
    h o r.1 r.2 (Db.mem_journalFrom.mp hr).2
  obtain ⟨k, hk, -⟩ := Db.journalSuffix_spec cd db o after maxBytes
  rw [hk]
  constructor
  · refine List.Pairwise.sublist (List.take_sublist _ _) ?_
    rw [List.pairwise_map]
    refine (Db.journalFrom_sorted db o after).imp_of_mem fun {r r'} hr hr' hlt => ?_
    rw [hrow r hr, hrow r' hr']
    exact hlt
  · intro e he
    obtain ⟨r, hr, rfl⟩ := List.mem_map.mp (List.mem_of_mem_take he)
    rw [hrow r hr]
    exact hr

/-- Events in order from above a clock on are a run, or have a gap. -/
theorem suffixLoop_or_run {r : SuffixRead} {events : List Event}
    (hsorted : events.Pairwise fun e e' => e.seq < e'.seq) (habove : ∀ e ∈ events, r.seq < e.seq) :
    suffixLoop r events = none ∨ SeqRun Event.seq r.seq events := by
  induction events generalizing r with
  | nil => exact Or.inr trivial
  | cons e es ih =>
      have hlt := habove e List.mem_cons_self
      rw [suffixLoop, if_neg (by omega)]
      by_cases hnext : e.seq = r.seq + 1
      · rw [if_neg (not_not.mpr hnext)]
        have hrest := ih (r := r.take e) (List.pairwise_cons.mp hsorted).2
          (List.pairwise_cons.mp hsorted).1
        refine hrest.imp_right fun hrun => ⟨hnext, ?_⟩
        rw [← hnext]
        exact hrun
      · rw [if_pos hnext]
        exact Or.inl rfl

/-- A suffix read long after its clock. -/
theorem cut_suffix (hkeyed : now.db.Keyed) (hnow : now ∈ past) (hsince : since ∈ past)
    (hgen : theirs.1 = (since.db.clock o).generation)
    (hsteady : Verdict.suffix.Steady since now o theirs.2) (seq maxBytes : ℕ) (truncated : Bool) :
    OriginUpdate.Cut past theirs ⟨o, (since.db.clock o).generation, seq,
      some (.suffix (now.db.journalSuffix cd o theirs.2 maxBytes).1), truncated⟩ := by
  obtain ⟨hsorted, hrows⟩ := hkeyed.journalSuffix cd o theirs.2 maxBytes
  rcases suffixLoop_or_run (r := { seq := theirs.2 }) hsorted
      (fun e he => (Db.mem_journalFrom.mp (hrows e he)).1) with hgap | hrun
  · refine Or.inl fun tailSeq => ?_
    rw [readSuffix, hgen, if_neg (lt_irrefl _), if_neg fun h => lt_irrefl _ h.1, hgap]
  · refine Or.inr ⟨hrun, ?_⟩
    rcases hsteady with hsame | hgone | hold
    · exact ⟨now, hnow, hsame, fun e he => (Db.mem_journalFrom.mp (hrows e he)).2⟩
    · -- a run whose first event is gone is empty
      refine ⟨since, hsince, rfl, fun e he => ?_⟩
      cases hes : (now.db.journalSuffix cd o theirs.2 maxBytes).1 with
      | nil =>
          rw [hes] at he
          cases he
      | cons e' es =>
          have hfirst := hrows e' (hes ▸ List.mem_cons_self)
          rw [hes] at hrun
          rw [hrun.1, Db.mem_journalFrom, hgone] at hfirst
          cases hfirst.2
    · exact ⟨since, hsince, rfl,
        fun e he => (Db.mem_journalFrom.mp (hold _ (hrows e he))).2⟩

/-- A snapshot read long after its clock. -/
theorem cut_snapshot (hnow : now ∈ past) (hsince : since ∈ past)
    (hsteady : Verdict.snapshot.Steady since now o theirs.2) (truncated : Bool) :
    OriginUpdate.Cut past theirs ⟨o, (since.db.clock o).generation, (since.db.clock o).seq,
      some (.snapshot ((now.db.holdings o).map Subtype.val)), truncated⟩ := by
  rcases hsteady with ⟨hwhole, hgen, hseq⟩ | ⟨hwhole, hsame⟩
  · exact ⟨now, hnow, hwhole, hgen, hseq, rfl⟩
  · exact ⟨since, hsince, hwhole, rfl, rfl, by rw [hsame]⟩

theorem judge_suffix {c : Clock} {skipped full : Bool}
    (h : judge c theirs skipped full = .suffix) : theirs.1 = c.generation := by
  unfold judge at h
  split at h; · cases h
  split at h; · cases h
  split at h; · cases h
  split at h; · cases h
  split at h; · cases h
  split at h
  next hconnects => exact hconnects.1
  next => cases h

/-- More moments make no cut less of one. -/
theorem OriginUpdate.Cut.mono {up : OriginUpdate} {past' : List Moment} (h : up.Cut past theirs)
    (hsub : ∀ m ∈ past, m ∈ past') : up.Cut past' theirs := by
  unfold OriginUpdate.Cut at h ⊢
  split at h
  · obtain ⟨m, hm, hrest⟩ := h
    exact ⟨m, hsub m hm, hrest⟩
  · refine h.imp_right ?_
    rintro ⟨hrun, m, hm, hrest⟩
    exact ⟨hrun, m, hsub m hm, hrest⟩
  · trivial

end Body

-- ================================================================== whole runs

variable {cd cfg}

/-- What a response under way is like: its clock stood at `since`, and
every update so far is a cut. -/
structure Responder.Ok (past : List Moment) (r : Responder) : Prop where
  since : r.clock.isSome = true → r.since ∈ past
  clock : ∀ c ∈ r.clock, ∀ o ∈ r.todo.head?, c = r.since.db.clock o
  sent : ∀ up ∈ r.ans.origins, up.Cut past (theirClock r.req up.origin)

theorem Responder.Ok.mono {past past' : List Moment} {r : Responder} (h : r.Ok past)
    (hsub : ∀ m ∈ past, m ∈ past') : r.Ok past' where
  since hsome := hsub _ (h.since hsome)
  clock := h.clock
  sent up hup := (h.sent up hup).mono hsub

/-- The read of a body that was not overtaken adds a cut. -/
theorem Responder.Ok.answer {past : List Moment} {now : Moment} {r : Responder} {o : Origin}
    {todo : List Origin} {c : Clock} (h : r.Ok past) (hnow : now ∈ past) (hkeyed : now.db.Keyed)
    (htodo : r.todo = o :: todo) (hclock : r.clock = some c)
    (hsteady : (r.verdict o c).Steady r.since now o (theirClock r.req o).2) :
    ∀ up ∈ (r.answer cd o c now.db).origins, up.Cut past (theirClock r.req up.origin) := by
  have hsince : r.since ∈ past := h.since (by rw [hclock]; rfl)
  obtain rfl : c = r.since.db.clock o := h.clock c hclock o (by rw [htodo]; rfl)
  intro up hup
  simp only [Responder.answer] at hup
  split at hup
  next => exact h.sent up hup
  next hspeaks =>
    rcases List.mem_append.mp hup with hup | hup
    · exact h.sent up hup
    · obtain rfl := List.mem_singleton.mp hup
      cases hv : r.verdict o (r.since.db.clock o) with
      | silent => exact absurd hv hspeaks
      | upToDate => trivial
      | clockOnly => trivial
      | deferred => exact Or.inr ⟨trivial, r.since, hsince, rfl, fun e he => by cases he⟩
      | suffix =>
          rw [hv] at hsteady
          exact cut_suffix hkeyed hnow hsince (judge_suffix hv) hsteady _ _ _
      | snapshot =>
          rw [hv] at hsteady
          exact cut_snapshot hnow hsince hsteady _

namespace Serving

/-- The invariant of a node that serves. -/
structure Inv (x : Serving) : Prop where
  now : x.now ∈ x.past
  keyed : x.machine.Keyed
  responders : ∀ r ∈ x.responders, r.Ok x.past

variable {x x' : Serving}

theorem Inv.init : Inv {} where
  now := List.mem_singleton.mpr rfl
  keyed := Machine.Keyed.init
  responders _ hr := by cases hr

/-- A response goes on. -/
theorem Inv.respond (h : x.Inv) {i : ℕ} {r : Responder} (hr : r.Ok x.past) :
    Inv { x with responders := x.responders.set i r } where
  now := h.now
  keyed := h.keyed
  responders r' hr' := (List.mem_or_eq_of_mem_set hr').elim (h.responders r') fun he => he ▸ hr

theorem Inv.step (h : x.Inv) {a : Act} (hsteady : x.Steady a)
    (hs : x.step cd cfg a = some x') : x'.Inv := by
  cases a with
  | store a =>
      rw [Serving.step] at hs
      split at hs
      next hserved =>
        obtain ⟨m, hm, rfl⟩ := Option.map_eq_some_iff.mp hs
        refine ⟨List.mem_append_right _ List.mem_cons_self, h.keyed.step hserved hm, ?_⟩
        intro r hr
        have hold : r ∈ x.responders := by
          cases a with
          | reopen => cases hr
          | _ => exact hr
        exact (h.responders r hold).mono fun _ => List.mem_append_left _
      next => cases hs
  | request req budget =>
      rw [Serving.step] at hs
      split at hs
      next =>
        cases hs
        refine ⟨h.now, h.keyed, fun r hr => ?_⟩
        rcases List.mem_append.mp hr with hr | hr
        · exact h.responders r hr
        · obtain rfl := List.mem_singleton.mp hr
          exact ⟨fun hsome => (by cases hsome), fun c hc => (by cases hc),
            fun up hup => (by cases hup)⟩
      next => cases hs
  | clock i =>
      obtain ⟨r, hi, hs⟩ := Option.bind_eq_some_iff.mp hs
      have hr := h.responders r (List.mem_of_getElem? hi)
      split at hs
      next o todo htodo hclock =>
        cases hs
        refine h.respond ⟨fun _ => h.now, fun c hc o' ho' => ?_, hr.sent⟩
        rw [htodo] at ho'
        cases hc
        cases ho'
        rfl
      next => cases hs
  | body i =>
      obtain ⟨r, hi, hs⟩ := Option.bind_eq_some_iff.mp hs
      have hr := h.responders r (List.mem_of_getElem? hi)
      split at hs
      next o todo c htodo hclock =>
        cases hs
        have hbody := hsteady r hi o (by rw [htodo]; rfl) c hclock
        exact h.respond ⟨fun hsome => (by cases hsome), fun c hc => (by cases hc),
          hr.answer h.now h.keyed.db htodo hclock hbody⟩
      next => cases hs

end Serving

variable (cd cfg) in
/-- Along every run in which no read of a body is overtaken, every
update of every response under way is a cut. -/
theorem updates_are_cuts {x : Serving}
    (h : (servingSystem cd cfg).ReachIf Serving.Steady x) :
    ∀ r ∈ x.responders, ∀ up ∈ r.ans.origins, up.Cut x.past (theirClock r.req up.origin) := by
  have hinv : x.Inv := by
    refine System.ReachIf.invariant (I := fun x : Serving => x.Inv) (fun x hinit => ?_)
      (fun x a x' _ hinv hsteady hs => hinv.step hsteady hs) h
    obtain rfl : x = {} := hinit
    exact Serving.Inv.init
  exact fun r hr => (hinv.responders r hr).sent

/-- A request that has what `have_` says and asks for nothing special. -/
def SyncRequest.plain (have_ : List OriginClock) : SyncRequest :=
  { have_ := have_, attsCursor := [], skipOrigins := [], ranges := [], merkle := [] }

/-- The peer's event number `n`, that it holds `h`, is applied. -/
def Serving.learn (n : ℕ) (h : NarHash) : List Serving.Act :=
  [.store (.call 0 (.applyEvents (Origin.ofByte 2) (if n = 1 then 0 else 1, n - 1) (1, n)
      [(n, ⟨n, some (.have_ h.val)⟩)] [.add h] [])),
    .store (.commit 0), .store (.fold 0)]

/-- Between the two reads of a suffix an event arrives, and between
those of a snapshot a compaction. -/
def Serving.served : List Serving.Act :=
  Serving.learn 1 (NarHash.ofByte 5) ++ Serving.learn 2 (NarHash.ofByte 6)
    ++ [.request (.plain [⟨Origin.ofByte 2, 1, 1⟩]) 100, .request (.plain []) 100,
      .clock 0, .body 0, .clock 0]
    ++ Serving.learn 3 (NarHash.ofByte 7)
    ++ [.body 0, .clock 1, .body 1, .clock 1,
      .store (.call 0 (.compactJournal (Origin.ofByte 2) 3)), .body 1]

/-- The suffix has the event that arrived, the snapshot all three
hashes. -/
theorem updates_are_cuts_served : ∃ x : Serving,
    x.responders.map (fun r => r.ans.origins)
      = [[⟨Origin.ofByte 2, 1, 2, some (.suffix
            [⟨2, some (.have_ (NarHash.ofByte 6).val)⟩,
              ⟨3, some (.have_ (NarHash.ofByte 7).val)⟩]), false⟩],
          [⟨Origin.ofByte 2, 1, 3, some (.snapshot
            [(NarHash.ofByte 5).val, (NarHash.ofByte 6).val, (NarHash.ofByte 7).val]), false⟩]]
      ∧ ∀ r ∈ x.responders, ∀ up ∈ r.ans.origins,
        up.Cut x.past (theirClock r.req up.origin) := by
  have hrun : ((servingSystem Codec.plain (Config.ofPeer 1 2)).runIf Serving.Steady {}
      Serving.served).map (fun x => x.responders.map fun r => r.ans.origins)
      = some [[⟨Origin.ofByte 2, 1, 2, some (.suffix
            [⟨2, some (.have_ (NarHash.ofByte 6).val)⟩,
              ⟨3, some (.have_ (NarHash.ofByte 7).val)⟩]), false⟩],
          [⟨Origin.ofByte 2, 1, 3, some (.snapshot
            [(NarHash.ofByte 5).val, (NarHash.ofByte 6).val, (NarHash.ofByte 7).val]),
            false⟩]] := by decide +kernel
  obtain ⟨x, hx, hsent⟩ := Option.map_eq_some_iff.mp hrun
  exact ⟨x, hsent, updates_are_cuts Codec.plain (Config.ofPeer 1 2)
    (System.ReachIf.runIf (.init rfl) hx)⟩

/-- The peer's clock is read, and its possession when the first batch of
a replacement has landed: what is shipped for its first generation is
what it holds in the second. -/
theorem replacement_is_torn : ¬ ∀ (cd : Codec) (cfg : Config) (x : Serving),
    (servingSystem cd cfg).Reach x →
    ∀ r ∈ x.responders, ∀ up ∈ r.ans.origins, up.Cut x.past (theirClock r.req up.origin) := by
  intro hall
  have hrun : ((servingSystem Codec.plain (Config.ofPeer 1 2)).run {}
      (Serving.learn 1 (NarHash.ofByte 5)
        ++ [.request (.plain []) 100, .clock 0, .body 0, .clock 0,
          .store (.call 0 (.replaceHoldings (Origin.ofByte 2) 2 1 [NarHash.ofByte 6]
            [.drop (NarHash.ofByte 5), .add (NarHash.ofByte 6)])),
          .store (.write 0), .body 0])).map (fun x => decide
        (x.responders.map (fun r => r.ans.origins)
          = [[⟨Origin.ofByte 2, 1, 1, some (.snapshot [(NarHash.ofByte 6).val]), false⟩]]
        ∧ ∀ m ∈ x.past, Origin.ofByte 2 ∉ m.halfway →
          (m.db.clock (Origin.ofByte 2)).generation = 1 →
          m.db.holdings (Origin.ofByte 2) = [NarHash.ofByte 5])) = some true := by
    decide +kernel
  obtain ⟨x, hx, hdone⟩ := Option.map_eq_some_iff.mp hrun
  obtain ⟨hsent, hpast⟩ := of_decide_eq_true hdone
  obtain ⟨r, hr, hans⟩ : ∃ r ∈ x.responders, r.ans.origins
      = [⟨Origin.ofByte 2, 1, 1, some (.snapshot [(NarHash.ofByte 6).val]), false⟩] :=
    List.mem_map.mp (hsent ▸ List.mem_singleton.mpr rfl)
  have hcut := hall Codec.plain (Config.ofPeer 1 2) x (System.Reach.run (.init rfl) hx) r hr _
    (hans ▸ List.mem_singleton.mpr rfl)
  obtain ⟨m, hm, hwhole, hgen, -, hheld⟩ := hcut
  rw [hpast m hm hwhole hgen] at hheld
  exact absurd hheld (by decide)

end Narshare
