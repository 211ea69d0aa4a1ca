/-
The fact dump of sync.rs: one resume cursor per peer, moved by that
peer's pull loop and reset by every other.

# The loops

A round of a pull loop reads the peer's cursor, sends it, receives a
response, merges the page in it, and writes back the cursor the response
leaves. `Round` says how far a peer's round has come, and with which
page; each of these is a step of its own, and so is each of the writes by
which `restart_all_dumps` puts `DUMP_RESTART` under one peer after the
other. A responder is any store whatever, and `respond` answers for it.

`epoch` and `pages` are ghost state: how often a peer's cursor was reset,
and the pages merged since, in rounds that read the cursor since.

# A restart is kept

`Chain` says that pages follow one another from a cursor: each was asked
for with what the one before left. While a restart is in force, either
the peer has been read from `DUMP_RESTART` to the end, or the stored
cursor is where such a reading has got to (`View.Reached`). What breaks
this is a round that read its cursor BEFORE the restart and writes back
after it: the stored cursor is then `DUMP_RESTART`, and `setDumpCursor`
replaces it all the same. `Current` excludes that, and
`dump_restart_kept` is also that nothing else needs excluding.
-/
import Narshare.Index.Apply
import Narshare.Lib.System
import Narshare.Store.Page

namespace Narshare

variable (cd : Codec) (cfg : Config)

-- =============================================================== the loops

/-- A page of a peer's table: the cursor it was asked for with, the table
it was read from, and what came back. -/
structure Page where
  cursor : Bytes
  table : Db
  attests : List Attestation
  next : Option Bytes

/-- How far a peer's round has come, with the epoch of its cursor
read. -/
inductive Round
  | idle
  | sent (epoch : ℕ) (cursor : Bytes)
  | answered (epoch : ℕ) (pg : Page) (hasSnapshot : Bool)
  | merged (epoch : ℕ) (pg : Page) (hasSnapshot : Bool)
  | parking (epoch : ℕ) (pg : Page) (hasSnapshot : Bool)
  | restarting (todo : List Origin)

/-- The cursor a response leaves: the restart when it carries a snapshot,
else the page's continuation, empty at the end. -/
def dumpNext (pg : Page) (hasSnapshot : Bool) : Bytes :=
  if hasSnapshot then DUMP_RESTART else pg.next.getD []

/-- `has_snapshot`. -/
def RespondBundle.hasSnapshot (b : RespondBundle) : Bool :=
  b.origins.any fun up =>
    match up.body with
    | some (.snapshot _) => true
    | _ => false

/-- The store, each peer's round, and the restarts of remints under
way. -/
structure Dump where
  store : Store
  round : Origin → Round
  restarts : List (List Origin)
  epoch : Origin → ℕ
  pages : Origin → List Page

namespace Dump

/-- What can happen: a peer's round takes its next step, or a restart
does. -/
inductive Act
  | readCursor (p : Origin)
  | answer (p : Origin) (responder : Store) (config : Config) (req : SyncRequest)
  | fail (p : Origin)
  | merge (p : Origin)
  | compare (p : Origin)
  | put (p : Origin)
  | restartNext (p : Origin)
  | remint (floor nanos : ℕ)
  | remintNext (i : ℕ)

/-- A peer's round moves on. -/
def setRound (m : Dump) (p : Origin) (r : Round) : Dump :=
  { m with round := Function.update m.round p r }

/-- One write of `restart_all_dumps`. -/
def reset (m : Dump) (q : Origin) : Dump :=
  { m with
    store := { m.store with db := m.store.db.setDumpCursor q DUMP_RESTART }
    epoch := Function.update m.epoch q (m.epoch q + 1)
    pages := Function.update m.pages q [] }

/-- What a round goes on to once its cursor is parked. -/
def afterPark (hasSnapshot : Bool) : Round :=
  if hasSnapshot then .restarting cfg.peerNames else .idle

/-- The guarded step. -/
def step (m : Dump) : Act → Option Dump
  | .readCursor p =>
      match m.round p with
      | .idle => some (m.setRound p (.sent (m.epoch p) (m.store.db.dumpCursor p)))
      | _ => none
  | .answer p responder config req =>
      match m.round p with
      | .sent epoch cursor =>
          -- every row is keyed by a hash, so none has the empty key
          if req.attsCursor = cursor ∧ req.ranges = [] ∧ req.merkle = []
              ∧ responder.db.att.get [] = none then
            (respond cd config responder req).map fun b =>
              m.setRound p (.answered epoch ⟨cursor, responder.db, b.attests, b.attsNext⟩
                b.hasSnapshot)
          else none
      | _ => none
  | .fail p =>
      match m.round p with
      | .sent _ _ => some (m.setRound p .idle)
      | _ => none
  | .merge p =>
      match m.round p with
      | .answered epoch pg hasSnapshot =>
          some
            { m.setRound p (.merged epoch pg hasSnapshot) with
              store := (mergeAttests cd m.store pg.attests).2
              pages := if epoch = m.epoch p then
                Function.update m.pages p (m.pages p ++ [pg]) else m.pages }
      | _ => none
  | .compare p =>
      match m.round p with
      | .merged epoch pg hasSnapshot =>
          let next := dumpNext pg hasSnapshot
          some (m.setRound p
            (if (next ≠ pg.cursor ∨ hasSnapshot) ∧ next ≠ m.store.db.dumpCursor p then
              .parking epoch pg hasSnapshot
            else afterPark cfg hasSnapshot))
      | _ => none
  | .put p =>
      match m.round p with
      | .parking _ pg hasSnapshot =>
          some
            { m.setRound p (afterPark cfg hasSnapshot) with
              store := { m.store with
                db := m.store.db.setDumpCursor p (dumpNext pg hasSnapshot) } }
      | _ => none
  | .restartNext p =>
      match m.round p with
      | .restarting [] => some (m.setRound p .idle)
      | .restarting (q :: todo) => some ((m.reset q).setRound p (.restarting todo))
      | _ => none
  | .remint floor nanos =>
      some { m with
        store := (remintClock cfg m.store floor nanos).2
        restarts := m.restarts ++ [cfg.peerNames] }
  | .remintNext i =>
      match m.restarts[i]? with
      | some (q :: todo) => some { m.reset q with restarts := m.restarts.set i todo }
      | _ => none

/-- The write-back a step makes comes from a round that read its cursor
after the last restart, or it is the restart itself. -/
def Current (m : Dump) : Act → Prop
  | .put p =>
      match m.round p with
      | .parking epoch pg hasSnapshot =>
          epoch = m.epoch p ∨ dumpNext pg hasSnapshot = DUMP_RESTART
      | _ => True
  | _ => True

instance (m : Dump) (a : Act) : Decidable (m.Current a) := by
  unfold Current
  split
  · split <;> infer_instance
  · infer_instance

end Dump

/-- The dump loops of a node, over any store, with no cursor reset
yet. -/
def dumpSystem : System Dump Dump.Act where
  init m := ∃ store, m = ⟨store, fun _ => .idle, [], fun _ => 0, fun _ => []⟩
  step m a := m.step cd cfg a

-- ================================================================== a chain

variable {cd cfg}

/-- The page is what a peer's table has above the cursor. -/
structure Page.Served (pg : Page) : Prop where
  rows : pg.cursor ≠ [] → PageOf (pg.table.rowsFrom [] pg.cursor) pg.attests pg.next
  next_ne : pg.next ≠ some []

/-- Served pages that follow one another from `cursor` and leave
`out`. -/
inductive Chain (cursor : Bytes) : List Page → Option Bytes → Prop
  | start : Chain cursor [] (some cursor)
  | snoc {l : List Page} {pg : Page} : Chain cursor l (some pg.cursor) → pg.Served →
      Chain cursor (l ++ [pg]) pg.next

/-- One peer's part of the state. -/
structure View where
  cursor : Bytes
  round : Round
  epoch : ℕ
  pages : List Page

/-- A reading from the restart cursor on, among the merged pages, has got
to `out`. -/
def View.Reached (v : View) (out : Option Bytes) : Prop :=
  ∃ l, l.Sublist v.pages ∧ Chain DUMP_RESTART l out

/-- The cursor a round read is the stored one, or a restart has come
since and is stored. -/
structure View.Holds (v : View) (epoch : ℕ) (cursor : Bytes) : Prop where
  le : epoch ≤ v.epoch
  cur : epoch = v.epoch → v.cursor = cursor
  old : epoch ≠ v.epoch → v.cursor = DUMP_RESTART

/-- What holds of a peer's round. -/
def View.RoundOk (v : View) : Round → Prop
  | .sent epoch cursor => v.Holds epoch cursor
  | .answered epoch pg _ => v.Holds epoch pg.cursor ∧ pg.Served
  | .merged epoch pg _ => v.Holds epoch pg.cursor ∧ pg.Served
      ∧ (epoch = v.epoch → 0 < v.epoch → v.Reached none ∨ v.Reached pg.next)
  | .parking epoch pg _ => v.Holds epoch pg.cursor ∧ pg.Served
      ∧ (epoch = v.epoch → 0 < v.epoch → v.Reached none ∨ v.Reached pg.next)
  | _ => True

/-- What holds of a peer: its round, and that a restart in force is
finished or under way from the stored cursor. -/
structure View.Inv (v : View) : Prop where
  round : v.RoundOk v.round
  reached : 0 < v.epoch → v.Reached none ∨ (v.cursor ≠ [] ∧ v.Reached (some v.cursor))

/-- One peer's part of the state. -/
def Dump.view (m : Dump) (p : Origin) : View :=
  ⟨m.store.db.dumpCursor p, m.round p, m.epoch p, m.pages p⟩

/-- A round with no page in hand. -/
def Round.Quiet : Round → Prop
  | .idle => True
  | .restarting _ => True
  | _ => False

/-- What one step can do to one peer; `puts` says that it is the peer's
write-back. -/
inductive Turn (puts : Prop) (v : View) : View → Prop
  | same : Turn puts v v
  | settle (r : Round) : r.Quiet → Turn puts v { v with round := r }
  | readCursor : Turn puts v { v with round := .sent v.epoch v.cursor }
  | answer (epoch : ℕ) (pg : Page) (hasSnapshot : Bool) :
      v.round = .sent epoch pg.cursor → pg.Served →
      Turn puts v { v with round := .answered epoch pg hasSnapshot }
  | merge (epoch : ℕ) (pg : Page) (hasSnapshot : Bool) :
      v.round = .answered epoch pg hasSnapshot →
      Turn puts v { v with
        round := .merged epoch pg hasSnapshot
        pages := if epoch = v.epoch then v.pages ++ [pg] else v.pages }
  | compare (epoch : ℕ) (pg : Page) (hasSnapshot : Bool) :
      v.round = .merged epoch pg hasSnapshot →
      Turn puts v { v with round := .parking epoch pg hasSnapshot }
  | put (epoch : ℕ) (pg : Page) (hasSnapshot : Bool) (r : Round) : puts →
      v.round = .parking epoch pg hasSnapshot → r.Quiet →
      Turn puts v { v with cursor := dumpNext pg hasSnapshot, round := r }
  | reset (r : Round) : r = v.round ∨ r.Quiet →
      Turn puts v { cursor := DUMP_RESTART, round := r, epoch := v.epoch + 1, pages := [] }

-- ============================================================ what it keeps

theorem dump_restart_ne : DUMP_RESTART ≠ [] := by decide

namespace View

variable {v v' : View}

theorem Holds.of_eq {epoch : ℕ} {cursor : Bytes} (h : v.Holds epoch cursor)
    (hc : v'.cursor = v.cursor) (he : v'.epoch = v.epoch) : v'.Holds epoch cursor :=
  ⟨he ▸ h.le, fun h' => hc ▸ h.cur (he ▸ h'), fun h' => hc ▸ h.old (he ▸ h')⟩

theorem Reached.mono {out : Option Bytes} (h : v.Reached out)
    (hp : v.pages.Sublist v'.pages) : v'.Reached out := by
  obtain ⟨l, hl, hc⟩ := h
  exact ⟨l, hl.trans hp, hc⟩

theorem roundOk_of_quiet {r : Round} (h : r.Quiet) : v.RoundOk r := by
  cases r with
  | idle => trivial
  | restarting todo => trivial
  | sent => exact h.elim
  | answered => exact h.elim
  | merged => exact h.elim
  | parking => exact h.elim

/-- The restart cursor is where a reading begins. -/
theorem reached_restart (v : View) : v.Reached (some DUMP_RESTART) :=
  ⟨[], List.nil_sublist _, Chain.start⟩

/-- A page merged at the stored cursor carries the reading on. -/
theorem reached_merge {pg : Page} (hinv : v.Inv) (hcur : v.cursor = pg.cursor)
    (hserved : pg.Served) (hpages : v'.pages = v.pages ++ [pg]) (hpos : 0 < v.epoch) :
    v'.Reached none ∨ v'.Reached pg.next := by
  rcases hinv.reached hpos with hdone | ⟨-, l, hl, hc⟩
  · left
    refine hdone.mono ?_
    rw [hpages]
    exact List.sublist_append_left _ _
  · right
    rw [hcur] at hc
    refine ⟨l ++ [pg], ?_, Chain.snoc hc hserved⟩
    rw [hpages]
    exact hl.append (List.Sublist.refl _)

end View

/-- A turn keeps a peer's invariant when a write-back comes from a round
of the current epoch or is a restart. -/
theorem Turn.inv {puts : Prop} {v v' : View} (h : Turn puts v v') (hinv : v.Inv)
    (hok : puts → ∀ epoch pg hasSnapshot, v.round = .parking epoch pg hasSnapshot →
      epoch = v.epoch ∨ dumpNext pg hasSnapshot = DUMP_RESTART) : v'.Inv := by
  have hround := hinv.round
  cases h with
  | same => exact hinv
  | settle r hquiet => exact ⟨View.roundOk_of_quiet hquiet, hinv.reached⟩
  | readCursor => exact ⟨⟨le_rfl, fun _ => rfl, fun h => absurd rfl h⟩, hinv.reached⟩
  | answer epoch pg hasSnapshot hr hserved =>
      rw [hr] at hround
      exact ⟨⟨hround.of_eq rfl rfl, hserved⟩, hinv.reached⟩
  | merge epoch pg hasSnapshot hr =>
      rw [hr] at hround
      obtain ⟨hholds, hserved⟩ := hround
      refine ⟨⟨hholds.of_eq rfl rfl, hserved, fun he hpos => ?_⟩, fun hpos => ?_⟩
      · exact View.reached_merge hinv (hholds.cur he) hserved (if_pos he) hpos
      · refine (hinv.reached hpos).imp (fun h => h.mono ?_) fun h => ⟨h.1, h.2.mono ?_⟩
        all_goals
          simp only
          split
          · exact List.sublist_append_left _ _
          · exact List.Sublist.refl _
  | compare epoch pg hasSnapshot hr =>
      rw [hr] at hround
      obtain ⟨hholds, hserved, hnext⟩ := hround
      exact ⟨⟨hholds.of_eq rfl rfl, hserved, hnext⟩, hinv.reached⟩
  | put epoch pg hasSnapshot r hputs hr hquiet =>
      rw [hr] at hround
      obtain ⟨hholds, hserved, hnext⟩ := hround
      refine ⟨View.roundOk_of_quiet hquiet, fun hpos => ?_⟩
      · have hrestart : dumpNext pg hasSnapshot = DUMP_RESTART →
            v.Reached none ∨ dumpNext pg hasSnapshot ≠ []
              ∧ v.Reached (some (dumpNext pg hasSnapshot)) := by
          intro he
          rw [he]
          exact Or.inr ⟨dump_restart_ne, v.reached_restart⟩
        rcases hok hputs epoch pg hasSnapshot hr with he | he
        · cases hasSnapshot with
          | true => exact hrestart rfl
          | false =>
              rcases hnext he hpos with hdone | hgot
              · exact Or.inl hdone
              · cases hn : pg.next with
                | none =>
                    rw [hn] at hgot
                    exact Or.inl hgot
                | some k =>
                    rw [hn] at hgot
                    have hk : dumpNext pg false = k := by
                      rw [dumpNext, hn]
                      rfl
                    refine Or.inr ⟨?_, ?_⟩
                    · show dumpNext pg false ≠ []
                      rw [hk]
                      rintro rfl
                      exact hserved.next_ne hn
                    · show v.Reached (some (dumpNext pg false))
                      rw [hk]
                      exact hgot
        · exact hrestart he
  | reset r hr =>
      refine ⟨?_, fun _ => Or.inr ⟨dump_restart_ne, View.reached_restart _⟩⟩
      have hheld : ∀ {epoch cursor} {r : Round}, v.Holds epoch cursor →
          View.Holds ⟨DUMP_RESTART, r, v.epoch + 1, []⟩ epoch cursor := by
        intro epoch cursor r h
        refine ⟨h.le.trans (Nat.le_succ _), fun he => ?_, fun _ => rfl⟩
        have hle := h.le
        have he' : epoch = v.epoch + 1 := he
        omega
      rcases hr with rfl | hquiet
      · show View.RoundOk _ v.round
        cases hv : v.round with
        | idle => trivial
        | restarting todo => trivial
        | sent epoch cursor =>
            rw [hv] at hround
            exact hheld hround
        | answered epoch pg hasSnapshot =>
            rw [hv] at hround
            exact ⟨hheld hround.1, hround.2⟩
        | merged epoch pg hasSnapshot =>
            rw [hv] at hround
            refine ⟨hheld hround.1, hround.2.1, fun he _ => ?_⟩
            have hle := hround.1.le
            have he' : epoch = v.epoch + 1 := he
            omega
        | parking epoch pg hasSnapshot =>
            rw [hv] at hround
            refine ⟨hheld hround.1, hround.2.1, fun he _ => ?_⟩
            have hle := hround.1.le
            have he' : epoch = v.epoch + 1 := he
            omega
      · exact View.roundOk_of_quiet hquiet

-- ============================================================ what a step does

theorem dumpCursor_setDumpCursor (db : Db) (q : Origin) (cursor : Bytes) (p : Origin) :
    (db.setDumpCursor q cursor).dumpCursor p = if p = q then cursor else db.dumpCursor p := by
  unfold Db.dumpCursor Db.setDumpCursor
  rw [OrdMap.get_put]
  split <;> rfl

theorem dumpCursor_mergeAttests (s : Store) (attests : List Attestation) (p : Origin) :
    (mergeAttests cd s attests).2.db.dumpCursor p = s.db.dumpCursor p := by
  rw [mergeAttests]
  split
  · rfl
  · rw [Store.mergeAttestations]
    split <;> rfl

/-- A responder serves a page of its table above the cursor it was
sent. -/
theorem served_respond {responder : Store} {config : Config} {req : SyncRequest}
    {b : RespondBundle} (hranges : req.ranges = []) (hmerkle : req.merkle = [])
    (hkey : responder.db.att.get [] = none) (h : respond cd config responder req = some b) :
    Page.Served ⟨req.attsCursor, responder.db, b.attests, b.attsNext⟩ := by
  rw [respond, respondBudgeted, if_neg (not_not.mpr hranges), if_neg (not_not.mpr hmerkle)] at h
  simp only [Option.some.injEq] at h
  subst h
  have hpage : ∀ maxBytes, PageOf (responder.db.rowsFrom [] req.attsCursor)
      (responder.db.attestationPage cd [] req.attsCursor maxBytes).1
      (responder.db.attestationPage cd [] req.attsCursor maxBytes).2 := fun maxBytes =>
    attestationPage_spec cd responder.db maxBytes (Or.inr List.nil_prefix)
  have hnext : ∀ {rows : List (Bytes × Attestation)} {page next}, PageOf rows page next →
      (∀ e ∈ rows, e.1 ≠ []) → next ≠ some [] := by
    intro rows page next hp hne
    cases hp with
    | all => exact fun h => by cases h
    | cut front back e hrows _ =>
        intro he
        refine hne e ?_ (Option.some.inj he)
        rw [hrows]
        exact List.mem_append_right _ List.mem_cons_self
  have hkeys : ∀ e ∈ responder.db.rowsFrom [] req.attsCursor, e.1 ≠ [] := by
    intro e he hnil
    have := (Db.mem_rowsFrom.mp he).1
    rw [hnil, hkey] at this
    cases this
  constructor
  · intro hne
    simp only
    rw [if_pos (Or.inl hne)]
    exact hpage _
  · simp only
    split
    · exact hnext (hpage _) hkeys
    · exact fun h => by cases h

namespace Dump

variable {m : Dump} {p q : Origin}

theorem view_setRound_self (m : Dump) (p : Origin) (r : Round) :
    (m.setRound p r).view p = { m.view p with round := r } := by
  show View.mk _ (Function.update m.round p r p) _ _ = _
  rw [Function.update_self]
  rfl

theorem view_setRound_ne (m : Dump) (r : Round) (h : p ≠ q) :
    (m.setRound q r).view p = m.view p := by
  show View.mk _ (Function.update m.round q r p) _ _ = _
  rw [Function.update_of_ne h]
  rfl

theorem view_reset_self (m : Dump) (q : Origin) :
    (m.reset q).view q = ⟨DUMP_RESTART, m.round q, m.epoch q + 1, []⟩ := by
  unfold view reset
  simp only
  rw [dumpCursor_setDumpCursor, if_pos rfl, Function.update_self, Function.update_self]

theorem view_reset_ne (m : Dump) (h : p ≠ q) : (m.reset q).view p = m.view p := by
  unfold view reset
  simp only
  rw [dumpCursor_setDumpCursor, if_neg h, Function.update_of_ne h, Function.update_of_ne h]

/-- A restart's write is a turn of every peer. -/
theorem turn_reset (puts : Prop) (m : Dump) (p q : Origin) :
    Turn puts (m.view p) ((m.reset q).view p) := by
  by_cases h : p = q
  · rw [h, view_reset_self]
    exact Turn.reset _ (Or.inl rfl)
  · rw [view_reset_ne m h]
    exact Turn.same

theorem quiet_afterPark (hasSnapshot : Bool) : (afterPark cfg hasSnapshot).Quiet := by
  cases hasSnapshot <;> trivial

/-- A step of another peer's round. -/
theorem turn_setRound_ne (puts : Prop) (m : Dump) (r : Round) (h : p ≠ q) :
    Turn puts (m.view p) ((m.setRound q r).view p) := by
  rw [view_setRound_ne m r h]
  exact Turn.same

/-- A page merged: the cursor is not touched, and the page counts for the
epoch it was asked in. -/
theorem view_merge_self (m : Dump) (p : Origin) (epoch : ℕ) (pg : Page) (hasSnapshot : Bool) :
    Dump.view { m.setRound p (.merged epoch pg hasSnapshot) with
        store := (mergeAttests cd m.store pg.attests).2
        pages := if epoch = m.epoch p then
          Function.update m.pages p (m.pages p ++ [pg]) else m.pages } p
      = { m.view p with
          round := .merged epoch pg hasSnapshot
          pages := if epoch = (m.view p).epoch then (m.view p).pages ++ [pg]
            else (m.view p).pages } := by
  show View.mk ((mergeAttests cd m.store pg.attests).2.db.dumpCursor p)
    (Function.update m.round p _ p) (m.epoch p)
    ((if epoch = m.epoch p then Function.update m.pages p (m.pages p ++ [pg])
      else m.pages) p) = _
  rw [dumpCursor_mergeAttests, Function.update_self, ite_apply, Function.update_self]
  rfl

theorem view_merge_ne (m : Dump) (epoch : ℕ) (pg : Page) (hasSnapshot : Bool) (h : p ≠ q) :
    Dump.view { m.setRound q (.merged epoch pg hasSnapshot) with
        store := (mergeAttests cd m.store pg.attests).2
        pages := if epoch = m.epoch q then
          Function.update m.pages q (m.pages q ++ [pg]) else m.pages } p
      = m.view p := by
  show View.mk ((mergeAttests cd m.store pg.attests).2.db.dumpCursor p)
    (Function.update m.round q _ p) (m.epoch p)
    ((if epoch = m.epoch q then Function.update m.pages q (m.pages q ++ [pg])
      else m.pages) p) = _
  rw [dumpCursor_mergeAttests, Function.update_of_ne h, ite_apply, Function.update_of_ne h,
    ite_self]
  rfl

/-- A cursor written back: whatever it was set to meanwhile is lost. -/
theorem view_put_self (m : Dump) (p : Origin) (next : Bytes) (r : Round) :
    Dump.view { m.setRound p r with
        store := { m.store with db := m.store.db.setDumpCursor p next } } p
      = { m.view p with cursor := next, round := r } := by
  show View.mk ((m.store.db.setDumpCursor p _).dumpCursor p)
    (Function.update m.round p _ p) _ _ = _
  rw [dumpCursor_setDumpCursor, if_pos rfl, Function.update_self]
  rfl

theorem view_put_ne (m : Dump) (next : Bytes) (r : Round) (h : p ≠ q) :
    Dump.view { m.setRound q r with
        store := { m.store with db := m.store.db.setDumpCursor q next } } p
      = m.view p := by
  show View.mk ((m.store.db.setDumpCursor q _).dumpCursor p)
    (Function.update m.round q _ p) _ _ = _
  rw [dumpCursor_setDumpCursor, if_neg h, Function.update_of_ne h]
  rfl

/-- One restart of the row of them that a changed round writes. -/
theorem turn_restart (puts : Prop) (m : Dump) (p q q' : Origin) {r : Round} (hr : r.Quiet) :
    Turn puts (m.view p) (((m.reset q').setRound q r).view p) := by
  by_cases h : p = q
  · subst h
    rw [view_setRound_self]
    by_cases hq : p = q'
    · rw [← hq, view_reset_self]
      exact Turn.reset _ (Or.inr hr)
    · rw [view_reset_ne m hq]
      exact Turn.settle _ hr
  · rw [view_setRound_ne _ _ h]
    exact turn_reset puts m p q'

/-- What one step does to one peer is one turn. -/
theorem step_turn {m' : Dump} {a : Act} (hs : m.step cd cfg a = some m') (p : Origin) :
    Turn (a = .put p) (m.view p) (m'.view p) := by
  cases a with
  | readCursor q =>
      simp only [step] at hs
      split at hs
      next =>
        cases hs
        by_cases h : p = q
        · rw [← h, view_setRound_self]
          exact Turn.readCursor
        · exact turn_setRound_ne _ m _ h
      next => cases hs
  | answer q responder config req =>
      simp only [step] at hs
      split at hs
      next epoch cursor hr =>
        split at hs
        next hreq =>
          obtain ⟨hc, hranges, hmerkle, hkey⟩ := hreq
          obtain ⟨b, hb, rfl⟩ := Option.map_eq_some_iff.mp hs
          by_cases h : p = q
          · subst h
            rw [view_setRound_self]
            have hserved := served_respond hranges hmerkle hkey hb
            rw [hc] at hserved
            exact Turn.answer epoch _ _ hr hserved
          · exact turn_setRound_ne _ m _ h
        next => cases hs
      next => cases hs
  | fail q =>
      simp only [step] at hs
      split at hs
      next =>
        cases hs
        by_cases h : p = q
        · rw [← h, view_setRound_self]
          exact Turn.settle _ trivial
        · exact turn_setRound_ne _ m _ h
      next => cases hs
  | merge q =>
      simp only [step] at hs
      split at hs
      next epoch pg hasSnapshot hr =>
        cases hs
        by_cases h : p = q
        · subst h
          rw [view_merge_self]
          exact Turn.merge epoch pg hasSnapshot hr
        · rw [view_merge_ne m epoch pg hasSnapshot h]
          exact Turn.same
      next => cases hs
  | compare q =>
      simp only [step] at hs
      split at hs
      next epoch pg hasSnapshot hr =>
        cases hs
        by_cases h : p = q
        · subst h
          rw [view_setRound_self]
          split
          next => exact Turn.compare epoch pg hasSnapshot hr
          next => exact Turn.settle _ (quiet_afterPark hasSnapshot)
        · exact turn_setRound_ne _ m _ h
      next => cases hs
  | put q =>
      simp only [step] at hs
      split at hs
      next epoch pg hasSnapshot hr =>
        cases hs
        by_cases h : p = q
        · subst h
          rw [view_put_self]
          exact Turn.put epoch pg hasSnapshot _ rfl hr (quiet_afterPark hasSnapshot)
        · rw [view_put_ne m _ _ h]
          exact Turn.same
      next => cases hs
  | restartNext q =>
      simp only [step] at hs
      split at hs
      next =>
        cases hs
        by_cases h : p = q
        · rw [← h, view_setRound_self]
          exact Turn.settle _ trivial
        · exact turn_setRound_ne _ m _ h
      next q' todo hr =>
        cases hs
        exact turn_restart _ m p q q' trivial
      next => cases hs
  | remint floor nanos =>
      cases hs
      exact Turn.same
  | remintNext i =>
      simp only [step] at hs
      split at hs
      next q todo hi =>
        cases hs
        exact turn_reset _ m p q
      next => cases hs

end Dump

-- ============================================================== the restarts

/-- Along a run whose write-backs are current, what holds of a peer
holds. -/
theorem view_inv_of_reachIf {m : Dump} (h : (dumpSystem cd cfg).ReachIf Dump.Current m)
    (p : Origin) : (m.view p).Inv := by
  induction h with
  | init hi =>
      obtain ⟨store, rfl⟩ := hi
      exact ⟨trivial, fun hpos => absurd hpos (lt_irrefl 0)⟩
  | @step m m' a _ hok hs ih =>
      refine (Dump.step_turn hs p).inv ih ?_
      intro ha epoch pg hasSnapshot hr
      subst ha
      have hr' : m.round p = .parking epoch pg hasSnapshot := hr
      simp only [Dump.Current, hr'] at hok
      exact hok

/-- A step undoes a restart when it writes back what a round read before
it. -/
def Dump.Undoes (m m' : Dump) (p : Origin) : Prop :=
  ∃ epoch pg hasSnapshot, m.round p = .parking epoch pg hasSnapshot ∧ epoch < m.epoch p
    ∧ m.store.db.dumpCursor p = DUMP_RESTART ∧ m'.store.db.dumpCursor p ≠ DUMP_RESTART

/-- A restarted dump is complete only when the peer has been read from
the restart cursor to the end since, page after page; and a restart is
undone by those steps, and only those, that the condition excludes. -/
theorem dump_restart_kept {m : Dump} (h : (dumpSystem cd cfg).ReachIf Dump.Current m) :
    (∀ p, 0 < m.epoch p → m.store.db.dumpCursor p = [] →
      ∃ l, l.Sublist (m.pages p) ∧ Chain DUMP_RESTART l none)
    ∧ ∀ a m', m.step cd cfg a = some m' → ((∃ p, m.Undoes m' p) ↔ ¬ m.Current a) := by
  constructor
  · intro p hpos hdone
    rcases (view_inv_of_reachIf h p).reached hpos with hread | ⟨hne, -⟩
    · exact hread
    · exact absurd hdone hne
  · intro a m' hs
    constructor
    · rintro ⟨p, epoch, pg, hasSnapshot, hr, hlt, hcur, hcur'⟩ hok
      have hview : (m.view p).round = .parking epoch pg hasSnapshot := hr
      have hturn := Dump.step_turn hs p
      generalize hv' : m'.view p = v' at hturn
      have hcur'' : v'.cursor ≠ DUMP_RESTART := by
        rw [← hv']
        exact hcur'
      cases hturn with
      | same => exact hcur'' hcur
      | settle => exact hcur'' hcur
      | readCursor => exact hcur'' hcur
      | answer => exact hcur'' hcur
      | merge => exact hcur'' hcur
      | compare => exact hcur'' hcur
      | reset => exact hcur'' rfl
      | put epoch' pg' hasSnapshot' r ha hr' =>
          subst ha
          rw [hview] at hr'
          cases hr'
          simp only [Dump.Current, hr] at hok
          rcases hok with he | he
          · omega
          · exact hcur'' he
    · intro hok
      cases a with
      | put p =>
          simp only [Dump.Current] at hok
          split at hok
          next epoch pg hasSnapshot hr =>
            obtain ⟨hne, hnext⟩ := not_or.mp hok
            have hround := (view_inv_of_reachIf h p).round
            rw [show (m.view p).round = .parking epoch pg hasSnapshot from hr] at hround
            refine ⟨p, epoch, pg, hasSnapshot, hr, lt_of_le_of_ne hround.1.le hne,
              hround.1.old hne, ?_⟩
            simp only [Dump.step, hr] at hs
            cases hs
            show (m.store.db.setDumpCursor p _).dumpCursor p ≠ _
            rw [dumpCursor_setDumpCursor, if_pos rfl]
            exact hnext
          next => exact absurd trivial hok
      | _ => exact absurd trivial hok

-- --------------------------------------------------------------- two runs

/-- Peer 2 of node 1, asked from a cursor. -/
def Dump.asked (cursor : Bytes) (responder : Store) : Dump.Act :=
  .answer (Origin.ofByte 2) responder ⟨Origin.ofByte 2, [Origin.ofByte 1]⟩
    ⟨[], cursor, [], [], []⟩

/-- A remint, then one round with the restarted cursor that reads the one
row of the peer's table. -/
def Dump.readAfterRestart : List Dump.Act :=
  [.remint 0 0, .remintNext 0, .readCursor (Origin.ofByte 2),
    Dump.asked DUMP_RESTART (mergeAttests Codec.plain {} [.ofBytes 98 5 [[1]]]).2,
    .merge (Origin.ofByte 2), .compare (Origin.ofByte 2), .put (Origin.ofByte 2)]

/-- The dump is complete, and it was read. -/
theorem dump_restart_kept_read : ∃ m : Dump,
    m.store.db.dumpCursor (Origin.ofByte 2) = [] ∧ (m.pages (Origin.ofByte 2)).length = 1
      ∧ (∃ l, l.Sublist (m.pages (Origin.ofByte 2)) ∧ Chain DUMP_RESTART l none)
      ∧ ∀ a m', m.step Codec.plain ⟨Origin.ofByte 1, [Origin.ofByte 2]⟩ a = some m' →
        ((∃ p, m.Undoes m' p) ↔ ¬ m.Current a) := by
  have hrun : ((dumpSystem Codec.plain ⟨Origin.ofByte 1, [Origin.ofByte 2]⟩).runIf
        Dump.Current ⟨{}, fun _ => .idle, [], fun _ => 0, fun _ => []⟩
        Dump.readAfterRestart).map (fun m =>
          (m.epoch (Origin.ofByte 2), m.store.db.dumpCursor (Origin.ofByte 2),
            (m.pages (Origin.ofByte 2)).length))
      = some (1, [], 1) := by decide +kernel
  obtain ⟨m, hm, hread⟩ := Option.map_eq_some_iff.mp hrun
  obtain ⟨hepoch, hread⟩ := Prod.mk.inj hread
  obtain ⟨hcursor, hpages⟩ := Prod.mk.inj hread
  have hinit : (dumpSystem Codec.plain ⟨Origin.ofByte 1, [Origin.ofByte 2]⟩).init
      ⟨{}, fun _ => .idle, [], fun _ => 0, fun _ => []⟩ := ⟨{}, rfl⟩
  have hreach := (System.ReachIf.init hinit).runIf hm
  obtain ⟨hkept, hundo⟩ := dump_restart_kept hreach
  exact ⟨m, hcursor, hpages, hkept _ (hepoch ▸ Nat.one_pos) hcursor, hundo⟩

/-- Two remints, and a round that reads the cursor after the first and
writes back after the second: the second restart is gone, and nothing was
read since. -/
theorem restart_replaced : ¬ ∀ m,
    (dumpSystem Codec.plain ⟨Origin.ofByte 1, [Origin.ofByte 2]⟩).Reach m →
    ∀ p, 0 < m.epoch p → m.store.db.dumpCursor p = [] →
      ∃ l, l.Sublist (m.pages p) ∧ Chain DUMP_RESTART l none := by
  intro hall
  have hrun : ((dumpSystem Codec.plain ⟨Origin.ofByte 1, [Origin.ofByte 2]⟩).run
        ⟨{}, fun _ => .idle, [], fun _ => 0, fun _ => []⟩
        [.remint 0 0, .remintNext 0, .readCursor (Origin.ofByte 2), .remint 1 0,
          .remintNext 1, Dump.asked DUMP_RESTART {}, .merge (Origin.ofByte 2),
          .compare (Origin.ofByte 2), .put (Origin.ofByte 2)]).map (fun m =>
          (m.epoch (Origin.ofByte 2), m.store.db.dumpCursor (Origin.ofByte 2),
            (m.pages (Origin.ofByte 2)).length))
      = some (2, [], 0) := by decide +kernel
  obtain ⟨m, hm, hread⟩ := Option.map_eq_some_iff.mp hrun
  obtain ⟨hepoch, hread⟩ := Prod.mk.inj hread
  obtain ⟨hcursor, hpages⟩ := Prod.mk.inj hread
  have hinit : (dumpSystem Codec.plain ⟨Origin.ofByte 1, [Origin.ofByte 2]⟩).init
      ⟨{}, fun _ => .idle, [], fun _ => 0, fun _ => []⟩ := ⟨{}, rfl⟩
  obtain ⟨l, hl, hchain⟩ := hall m ((System.Reach.start hinit).run hm) (Origin.ofByte 2)
    (hepoch ▸ Nat.two_pos) hcursor
  rw [List.length_eq_zero_iff.mp hpages, List.sublist_nil] at hl
  generalize hnone : (none : Option Bytes) = out at hchain
  cases hchain with
  | start => cases hnone
  | snoc => exact absurd hl (List.append_ne_nil_of_right_ne_nil _ (List.cons_ne_nil _ _))

end Narshare
