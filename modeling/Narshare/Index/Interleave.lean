/-
The index's operations taken apart at their store calls: what concurrent
pulls, exports and compactions do to an origin's clock and journal.

# The machine

The store's operations run under its origin locks and are atomic here.
What the index puts AROUND them is not: `apply_suffix` and `export_ops`
read a clock and only later call `apply_events`; `compact` reads the
watermarks once, then for each origin a clock, and only then calls
`compact_journal`. A `Pending` is an operation stopped between two
calls, with exactly what it has read so far, and `step (.advance i)`
lets the `i`-th of them make its next call. Any number may be pending.

# What holds

`Moved` lists what one step can do to one origin's replica. The clock
and journal agree (`Sound`) after every case of it but one: a
`compact_journal` whose floor lies above the clock it finds. Every other
caller has its expectation re-checked inside the lock — `apply_events`
against the clock, `replace_holdings` against the snapshot's age — but
`compact_journal` has none to check, so a snapshot into a new generation
whose count starts low can land between the two halves of `compact`.
`FloorInClock` excludes just that, and a step that breaks it breaks the
agreement. That a foreign clock never falls needs no such condition.
-/
import Narshare.Index.Log
import Narshare.Lib.System

namespace Narshare

variable (cd : Codec) (cfg : Config)

-- ============================================================= the machine

/-- An operation between two calls of the store. -/
inductive Pending
  | suffix (o : Origin) (cur : Clock) (generation : ℕ) (r : SuffixRead)
  | exporting (generation seq : ℕ) (todo : List (List ExportOp))
  | compacting (marks : Origin → Origin → ℕ) (todo : List Origin)
  | compact (marks : Origin → Origin → ℕ) (o : Origin) (floor : ℕ) (todo : List Origin)

/-- The store and the operations under way. -/
structure Desk where
  store : Store
  pending : List Pending

namespace Desk

/-- What can happen: an operation begins, one under way makes its next
call, or one that is a single call is made. -/
inductive Act
  | applySuffix (o : Origin) (generation : ℕ) (events : List Event)
  | exportOps (attests : List Attestation) (holds : List HoldOp)
  | compact (order : List Origin)
  | advance (i : ℕ)
  | applySnapshot (o : Origin) (generation seq : ℕ) (held : List Bytes)
  | remint (floor nanos : ℕ)
  | recordWatermark (peer : Origin) (c : OriginClock)
  | mergeAttests (attests : List Attestation)

/-- The next call of a pending operation, and what is left of it. -/
def call (s : Store) : Pending → Store × Option Pending
  | .suffix o cur generation r =>
      ((s.applyEvents cd o (cur.generation, cur.seq) (generation, r.seq)
        r.journal r.holds r.attests).2, none)
  | .exporting _ _ [] => (s, none)
  | .exporting generation seq (chunk :: todo) =>
      let done := exportChunk cd cfg s generation seq chunk
      (done.2, if done.1 then some (.exporting generation (seq + chunk.length) todo)
        else none)
  | .compacting _ [] => (s, none)
  | .compacting marks (o :: todo) =>
      let c := s.db.clock o
      let floor := compactFloor cfg (fun peer => marks peer o) c
      (s, some (if floor > c.tailSeq then .compact marks o floor todo
        else .compacting marks todo))
  | .compact marks o floor todo => (s.compactJournal o floor, some (.compacting marks todo))

/-- The guarded step. -/
def step (m : Desk) : Act → Option Desk
  | .applySuffix o generation events =>
      if o = cfg.selfName ∨ cfg.isKnownOrigin o = false then none
      else
        match readSuffix (m.store.db.clock o) generation events with
        | .inl _ => some m
        | .inr r =>
            some { m with
              pending := m.pending ++ [.suffix o (m.store.db.clock o) generation r] }
  | .exportOps attests holds =>
      let cur := m.store.db.clock cfg.selfName
      some { m with
        pending := m.pending
          ++ [.exporting cur.generation cur.seq
            (chunks EXPORT_CHUNK (exportList attests holds))] }
  | .compact order => -- `origin_set` is a hash set, met in any order
      if order.Perm cfg.originSet then
        some { m with pending := m.pending ++ [.compacting m.store.db.watermark order] }
      else none
  | .advance i =>
      m.pending[i]?.map fun p =>
        let done := call cd cfg m.store p
        { store := done.1
          pending := m.pending.take i ++ done.2.toList ++ m.pending.drop (i + 1) }
  | .applySnapshot o generation seq held =>
      match applySnapshot cfg m.store o generation seq held with
      | .ok (_, s) => some { m with store := s }
      | .error _ => none
  | .remint floor nanos =>
      some { m with store := (bumpSelfGeneration cfg m.store floor nanos).2 }
  | .recordWatermark peer c => some { m with store := recordWatermark cfg peer m.store c }
  | .mergeAttests attests =>
      some { m with store := (Narshare.mergeAttests cd m.store attests).2 }

end Desk

/-- The index of one node under concurrent use, from a store just
opened. -/
def deskSystem : System Desk Desk.Act where
  init m := ∃ nanos, m = ⟨openIndex cfg {} nanos, []⟩
  step m a := m.step cd cfg a

-- ==================================================== what a step can change

variable {cd cfg}

/-- What was read by an operation that is under way. -/
def Pending.Ok (cfg : Config) : Pending → Prop
  | .suffix o cur generation r =>
      o ≠ cfg.selfName ∧ ∃ events taken, r.From cur generation events taken
  | _ => True

/-- The call of `compact_journal` a pending operation makes next, if
that is its next call. -/
def Pending.compacts : Pending → Option (Origin × ℕ)
  | .compact _ o floor _ => some (o, floor)
  | _ => none

/-- The call of `compact_journal` a step makes, if it makes one. -/
def Desk.compacts (m : Desk) : Desk.Act → Option (Origin × ℕ)
  | .advance i => m.pending[i]?.bind Pending.compacts
  | _ => none

/-- What one step can do to the replica of `o`; `call` is the call of
`compact_journal` it makes. -/
inductive Moved (cfg : Config) (call : Option (Origin × ℕ)) (o : Origin) (r : Replica) :
    Replica → Prop
  | same : Moved cfg call o r r
  | extend (generation : ℕ) (taken : List Event) (holds : List HoldOp) :
      SeqRun Event.seq r.clock.seq taken →
      (generation = r.clock.generation ∨ r.clock.generation < generation) →
      Moved cfg call o r (r.extend (generation, r.clock.seq + taken.length)
        (taken.map fun e => (e.seq, e)) holds)
  | replace (generation seq : ℕ) (held : List NarHash) : o ≠ cfg.selfName →
      staleSnapshot r.clock generation seq = false →
      Moved cfg call o r (Replica.replace generation seq held)
  | stamp (generation : ℕ) : o = cfg.selfName →
      Moved cfg call o r (r.stamp generation)
  | compactTo (floor : ℕ) : call = some (o, floor) →
      Moved cfg call o r (r.compactTo floor)

namespace Desk

/-- The next call of a pending operation moves each replica in one of
the listed ways. -/
theorem moved_call {s : Store} {p : Pending} (hp : p.Ok cfg) (o : Origin) :
    Moved cfg p.compacts o (s.db.replica o) ((call cd cfg s p).1.db.replica o) := by
  cases p with
  | suffix o' cur generation r =>
      obtain ⟨-, events, taken, hfrom⟩ := hp
      rw [call]
      cases hap : s.applyEvents cd o' (cur.generation, cur.seq) (generation, r.seq)
          r.journal r.holds r.attests with
      | mk ok s' =>
          cases ok with
          | false =>
              rw [applyEvents_refused cd hap]
              exact Moved.same
          | true =>
              obtain ⟨hexp, hrep⟩ := replica_applyEvents cd hap o
              obtain ⟨hgen, hseq⟩ := Prod.mk.inj hexp
              rw [hrep]
              split
              next he =>
                subst he
                rw [hfrom.seq, hfrom.journal, ← hseq]
                refine Moved.extend generation taken r.holds ?_ ?_
                · rw [Db.replica_clock, hseq]
                  exact hfrom.run
                · rw [Db.replica_clock, hgen]
                  exact hfrom.generation.imp_right fun h => h.1
              next => exact Moved.same
  | exporting generation seq todo =>
      cases todo with
      | nil => exact Moved.same
      | cons chunk todo =>
          rw [call]
          cases hap : exportChunk cd cfg s generation seq chunk with
          | mk ok s' =>
              cases ok with
              | false =>
                  rw [exportChunk] at hap
                  rw [applyEvents_refused cd hap]
                  exact Moved.same
              | true =>
                  rw [exportChunk] at hap
                  obtain ⟨hexp, hrep⟩ := replica_applyEvents cd hap o
                  obtain ⟨hgen, hseq⟩ := Prod.mk.inj hexp
                  rw [hrep]
                  split
                  next he =>
                    subst he
                    have hrun : SeqRun Event.seq (s.db.replica cfg.selfName).clock.seq
                        (exportEvents seq chunk) := by
                      rw [Db.replica_clock, hseq]
                      exact seqRun_exportEvents seq chunk
                    rw [← length_exportEvents seq chunk]
                    nth_rewrite 2 [← hseq]
                    exact Moved.extend generation (exportEvents seq chunk)
                      (ExportOp.holds chunk) hrun (Or.inl hgen.symm)
                  next => exact Moved.same
  | compacting marks todo =>
      cases todo with
      | nil => exact Moved.same
      | cons o' todo => exact Moved.same
  | compact marks o' floor todo =>
      show Moved cfg (some (o', floor)) o (s.db.replica o)
        ((s.compactJournal o' floor).db.replica o)
      rw [replica_compactJournal]
      split
      next he =>
        subst he
        exact Moved.compactTo floor rfl
      next => exact Moved.same

/-- What is left of a pending operation has read nothing wrong. -/
theorem ok_call {s : Store} {p q : Pending} (h : (call cd cfg s p).2 = some q) :
    q.Ok cfg := by
  cases p with
  | suffix o cur generation r => cases h
  | exporting generation seq todo =>
      cases todo with
      | nil => cases h
      | cons chunk todo =>
          simp only [call] at h
          split at h
          · cases h
            trivial
          · cases h
  | compacting marks todo =>
      cases todo with
      | nil => cases h
      | cons o todo =>
          simp only [call] at h
          cases h
          split <;> trivial
  | compact marks o floor todo =>
      cases h
      trivial

/-- Every step moves every replica in one of the listed ways, and leaves
only operations that have read nothing wrong. -/
theorem step_moved {m m' : Desk} {a : Act} (hok : ∀ p ∈ m.pending, p.Ok cfg)
    (h : m.step cd cfg a = some m') :
    (∀ p ∈ m'.pending, p.Ok cfg)
      ∧ ∀ o, Moved cfg (m.compacts a) o (m.store.db.replica o) (m'.store.db.replica o) := by
  cases a with
  | applySuffix o generation events =>
      simp only [step] at h
      split at h
      next => cases h
      next hknown =>
        split at h
        next => cases h; exact ⟨hok, fun _ => Moved.same⟩
        next r hr =>
          cases h
          obtain ⟨taken, hfrom⟩ := readSuffix_spec hr
          refine ⟨fun p hp => ?_, fun _ => Moved.same⟩
          rcases List.mem_append.mp hp with hp | hp
          · exact hok p hp
          · rw [List.mem_singleton.mp hp]
            exact ⟨fun he => hknown (Or.inl he), events, taken, hfrom⟩
  | exportOps attests holds =>
      cases h
      refine ⟨fun p hp => ?_, fun _ => Moved.same⟩
      rcases List.mem_append.mp hp with hp | hp
      · exact hok p hp
      · rw [List.mem_singleton.mp hp]
        trivial
  | compact order =>
      simp only [step] at h
      split at h
      next =>
        cases h
        refine ⟨fun p hp => ?_, fun _ => Moved.same⟩
        rcases List.mem_append.mp hp with hp | hp
        · exact hok p hp
        · rw [List.mem_singleton.mp hp]
          trivial
      next => cases h
  | advance i =>
      obtain ⟨p, hi, rfl⟩ := Option.map_eq_some_iff.mp h
      have hcall : m.compacts (.advance i) = p.compacts := by
        rw [Desk.compacts, hi, Option.bind_some]
      rw [hcall]
      refine ⟨fun q hq => ?_, moved_call (hok p (List.mem_of_getElem? hi))⟩
      rcases List.mem_append.mp hq with hq | hq
      · rcases List.mem_append.mp hq with hq | hq
        · exact hok q (List.mem_of_mem_take hq)
        · exact ok_call (Option.mem_toList.mp hq)
      · exact hok q (List.mem_of_mem_drop hq)
  | applySnapshot o generation seq held =>
      simp only [step] at h
      split at h
      next n s hs =>
        cases h
        obtain ⟨hne, hrep⟩ := replica_applySnapshot hs
        refine ⟨hok, fun o' => ?_⟩
        rw [hrep]
        split
        next hc =>
          rw [hc.1]
          exact Moved.replace generation seq _ hne hc.2
        next => exact Moved.same
      next => cases h
  | remint floor nanos =>
      cases h
      refine ⟨hok, fun o => ?_⟩
      rw [replica_bumpSelfGeneration]
      split
      next he =>
        rw [he]
        exact Moved.stamp _ rfl
      next => exact Moved.same
  | recordWatermark peer c =>
      cases h
      refine ⟨hok, fun o => ?_⟩
      have hrep : (recordWatermark cfg peer m.store c).db.replica o = m.store.db.replica o :=
        replica_recordWatermarks cfg m.store peer [c] o
      rw [hrep]
      exact Moved.same
  | mergeAttests attests =>
      cases h
      refine ⟨hok, fun o => ?_⟩
      rw [replica_mergeAttests]
      exact Moved.same

/-- Pending operations have read nothing wrong, in every run. -/
theorem pending_ok {m : Desk} (h : (deskSystem cd cfg).Reach m) :
    ∀ p ∈ m.pending, p.Ok cfg := by
  refine System.Reach.invariant (I := fun m => ∀ p ∈ m.pending, p.Ok cfg) ?_ ?_ h
  · rintro s ⟨nanos, rfl⟩ p hp
    exact (List.not_mem_nil hp).elim
  · intro s a s' _ hok hs
    exact (step_moved hok hs).1

end Desk

-- ==================================================== clocks and journals agree

/-- The clock and the journal of a replica agree: the journal has one
event for every sequence number above the tail through the clock, under
its own number, and nothing else. -/
structure Replica.Sound (r : Replica) : Prop where
  tail_le : r.clock.tailSeq ≤ r.clock.seq
  row : ∀ n, r.clock.tailSeq < n → n ≤ r.clock.seq →
    ∃ e, r.journal n = some e ∧ e.seq = n
  outside : ∀ n, ¬ (r.clock.tailSeq < n ∧ n ≤ r.clock.seq) → r.journal n = none

namespace Replica.Sound

variable {r : Replica}

theorem extend (h : r.Sound) (generation : ℕ) {taken : List Event} (holds : List HoldOp)
    (hrun : SeqRun Event.seq r.clock.seq taken) :
    (r.extend (generation, r.clock.seq + taken.length)
      (taken.map fun e => (e.seq, e)) holds).Sound := by
  have hread : ∀ n, (r.extend (generation, r.clock.seq + taken.length)
      (taken.map fun e => (e.seq, e)) holds).journal n
      = if r.clock.seq < n ∧ n ≤ r.clock.seq + taken.length
        then taken[n - r.clock.seq - 1]? else r.journal n :=
    fun n => journal_puts hrun (r.journal n)
  have htail := h.tail_le
  constructor
  · show r.clock.tailSeq ≤ r.clock.seq + taken.length
    omega
  · intro n hlo hhi
    rw [hread]
    change r.clock.tailSeq < n at hlo
    change n ≤ r.clock.seq + taken.length at hhi
    split
    next hin =>
      have hlt : n - r.clock.seq - 1 < taken.length := by omega
      have hget := List.getElem?_eq_getElem hlt
      refine ⟨_, hget, ?_⟩
      rw [hrun.num_get hget]
      omega
    next hout => exact h.row n hlo (by omega)
  · intro n hn
    rw [hread]
    change ¬ (r.clock.tailSeq < n ∧ n ≤ r.clock.seq + taken.length) at hn
    rw [if_neg (by omega)]
    exact h.outside n (by omega)

theorem replace (generation seq : ℕ) (held : List NarHash) :
    (Replica.replace generation seq held).Sound where
  tail_le := le_rfl
  row n hlo hhi := by
    change seq < n at hlo
    change n ≤ seq at hhi
    omega
  outside _ _ := rfl

theorem stamp (h : r.Sound) (generation : ℕ) : (r.stamp generation).Sound :=
  ⟨h.tail_le, h.row, h.outside⟩

theorem compactTo (h : r.Sound) {floor : ℕ} (hfloor : floor ≤ r.clock.seq) :
    (r.compactTo floor).Sound := by
  rcases le_or_gt floor r.clock.tailSeq with hle | hlt
  · rw [Replica.compactTo_of_le hle]
    exact h
  · rw [Replica.compactTo_of_lt hlt]
    refine ⟨hfloor, fun n hlo hhi => ?_, fun n hn => ?_⟩
    · change floor < n at hlo
      simp only
      rw [if_neg (by omega)]
      exact h.row n (by omega) hhi
    · simp only at hn ⊢
      split
      next => rfl
      next hin => exact h.outside n (by omega)

/-- A floor above the clock leaves the tail above it too. -/
theorem not_compactTo (h : r.Sound) {floor : ℕ} (hfloor : r.clock.seq < floor) :
    ¬ (r.compactTo floor).Sound := by
  have htail := h.tail_le
  rw [Replica.compactTo_of_lt (by omega)]
  intro hs
  have : floor ≤ r.clock.seq := hs.tail_le
  omega

end Replica.Sound

/-- A step keeps clock and journal in agreement when the floor it
compacts to, if it compacts, is within the clock. -/
theorem Moved.sound {call : Option (Origin × ℕ)} {o : Origin} {r r' : Replica}
    (h : Moved cfg call o r r') (hr : r.Sound)
    (hfloor : ∀ floor, call = some (o, floor) → floor ≤ r.clock.seq) : r'.Sound := by
  cases h with
  | same => exact hr
  | extend generation taken holds hrun _ => exact hr.extend generation holds hrun
  | replace generation seq held _ _ => exact Replica.Sound.replace generation seq held
  | stamp generation _ => exact hr.stamp generation
  | compactTo floor hcall => exact hr.compactTo (hfloor floor hcall)

/-- A clock's place in its origin's history. -/
def Clock.place (c : Clock) : ℕ ×ₗ ℕ := toLex (c.generation, c.seq)

/-- A step never takes a foreign clock back. -/
theorem Moved.place_le {call : Option (Origin × ℕ)} {o : Origin} {r r' : Replica}
    (h : Moved cfg call o r r') (ho : o ≠ cfg.selfName) :
    r.clock.place ≤ r'.clock.place := by
  cases h with
  | same => exact le_rfl
  | extend generation taken holds _ hgen =>
      refine Prod.Lex.toLex_le_toLex.mpr ?_
      rcases hgen with rfl | hlt
      · exact Or.inr ⟨rfl, Nat.le_add_right _ _⟩
      · exact Or.inl hlt
  | replace generation seq held _ hst =>
      refine Prod.Lex.toLex_le_toLex.mpr ?_
      rw [staleSnapshot, Bool.or_eq_false_iff, decide_eq_false_iff_not] at hst
      obtain ⟨hgen, hseq⟩ := hst
      rcases Nat.lt_or_eq_of_le (not_lt.mp hgen) with hlt | heq
      · exact Or.inl hlt
      · refine Or.inr ⟨heq, ?_⟩
        rw [heq, decide_eq_true rfl, Bool.true_and, decide_eq_false_iff_not] at hseq
        exact not_lt.mp hseq
  | stamp generation hself => exact absurd hself ho
  | compactTo floor _ =>
      obtain ⟨hgen, hseq⟩ := r.compactTo_clock floor
      rw [Clock.place, Clock.place, hgen, hseq]

-- ================================================================ whole runs

/-- The `compact_journal` a step makes, if it makes one, has a floor
within the clock it finds. -/
def FloorInClock (m : Desk) (a : Desk.Act) : Prop :=
  ∀ c ∈ m.compacts a, c.2 ≤ (m.store.db.clock c.1).seq

instance (m : Desk) (a : Desk.Act) : Decidable (FloorInClock m a) :=
  inferInstanceAs (Decidable (∀ c ∈ m.compacts a, c.2 ≤ (m.store.db.clock c.1).seq))

variable (cfg) in
/-- A store just opened has every clock and journal in agreement. -/
theorem sound_openIndex_empty (nanos : ℕ) (o : Origin) :
    ((openIndex cfg {} nanos).db.replica o).Sound := by
  have hzero : Replica.Sound ⟨{}, fun _ => none, fun _ => false⟩ := by
    refine ⟨le_rfl, fun n hlo hhi => ?_, fun _ _ => rfl⟩
    change 0 < n at hlo
    change n ≤ 0 at hhi
    omega
  rw [replica_openIndex_empty]
  split
  · exact hzero.stamp nanos
  · exact hzero

namespace Desk

/-- Every replica agrees in itself while floors stay within clocks. -/
theorem sound_of_reachIf {m : Desk} (h : (deskSystem cd cfg).ReachIf FloorInClock m)
    (o : Origin) : (m.store.db.replica o).Sound := by
  refine System.ReachIf.invariant (I := fun m => ∀ o, (m.store.db.replica o).Sound) ?_ ?_ h o
  · rintro s ⟨nanos, rfl⟩ o
    exact sound_openIndex_empty cfg nanos o
  · intro s a s' hr hsound hfloor hs o
    obtain ⟨-, hmoved⟩ := step_moved (pending_ok hr.reach) hs
    exact (hmoved o).sound (hsound o) fun floor hcall => hfloor (o, floor) hcall

/-- A step that compacts past the clock leaves that origin's clock and
journal in disagreement. -/
theorem not_sound_of_step {m m' : Desk} {a : Act}
    (h : (deskSystem cd cfg).ReachIf FloorInClock m) (hfloor : ¬ FloorInClock m a)
    (hs : m.step cd cfg a = some m') : ∃ o, ¬ (m'.store.db.replica o).Sound := by
  unfold FloorInClock at hfloor
  simp only [not_forall, not_le] at hfloor
  obtain ⟨⟨o, floor⟩, hcall, hlt⟩ := hfloor
  refine ⟨o, ?_⟩
  cases a with
  | advance i =>
      obtain ⟨p, hi, hp⟩ := Option.bind_eq_some_iff.mp hcall
      obtain ⟨q, hi', rfl⟩ := Option.map_eq_some_iff.mp hs
      rw [hi] at hi'
      cases hi'
      cases p with
      | compact marks o' floor' todo =>
          cases hp
          show ¬ ((m.store.compactJournal o floor).db.replica o).Sound
          rw [replica_compactJournal, if_pos rfl]
          exact (sound_of_reachIf h o).not_compactTo hlt
      | suffix => cases hp
      | exporting => cases hp
      | compacting => cases hp
  | applySuffix => cases hcall
  | exportOps => cases hcall
  | compact => cases hcall
  | applySnapshot => cases hcall
  | remint => cases hcall
  | recordWatermark => cases hcall
  | mergeAttests => cases hcall

/-- No run takes a foreign clock back. -/
theorem place_le_of_run {m m' : Desk} {as : List Act} (h : (deskSystem cd cfg).Reach m)
    (hrun : (deskSystem cd cfg).run m as = some m') {o : Origin} (ho : o ≠ cfg.selfName) :
    (m.store.db.clock o).place ≤ (m'.store.db.clock o).place := by
  induction as generalizing m with
  | nil =>
      cases hrun
      exact le_rfl
  | cons a as ih =>
      obtain ⟨m₁, hs, hrest⟩ := Option.bind_eq_some_iff.mp hrun
      obtain ⟨-, hmoved⟩ := step_moved (pending_ok h) hs
      exact ((hmoved o).place_le ho).trans (ih (h.next hs) hrest)

end Desk

variable (cd cfg) in
/-- Along every run whose compactions keep within the clocks they find,
the journal of every origin holds one event for each sequence number
above its tail through its clock, and nothing else; a compaction past
the clock breaks that at once; and whatever is compacted, a foreign
clock never falls. -/
theorem clock_journal_agree :
    (∀ m, (deskSystem cd cfg).ReachIf FloorInClock m →
      ∀ o, (m.store.db.replica o).Sound)
    ∧ (∀ m a m', (deskSystem cd cfg).ReachIf FloorInClock m → m.step cd cfg a = some m' →
      ¬ FloorInClock m a → ∃ o, ¬ (m'.store.db.replica o).Sound)
    ∧ ∀ m as m' o, (deskSystem cd cfg).Reach m → (deskSystem cd cfg).run m as = some m' →
      o ≠ cfg.selfName → (m.store.db.clock o).place ≤ (m'.store.db.clock o).place := by
  refine ⟨fun m h => Desk.sound_of_reachIf h, ?_, ?_⟩
  · intro m a m' h hs hfloor
    exact Desk.not_sound_of_step h hfloor hs
  · intro m as m' o h hrun ho
    exact Desk.place_le_of_run h hrun ho

-- ======================================================= an overtaken floor

/-- A node with one peer. -/
def Config.ofPeer (self peer : UInt8) : Config := ⟨Origin.ofByte self, [Origin.ofByte peer]⟩

/-- The peer's two events arrive and are acknowledged, a compaction
reads the floor 2 from them, and then the peer's snapshot lands: it has
lost its cache and counts from one again. -/
def Desk.overtaken : List Desk.Act :=
  [.applySuffix (Origin.ofByte 2) 1 [⟨1, none⟩, ⟨2, none⟩], .advance 0,
    .recordWatermark (Origin.ofByte 2) ⟨Origin.ofByte 2, 1, 2⟩,
    .compact [Origin.ofByte 1, Origin.ofByte 2], .advance 0, .advance 0,
    .applySnapshot (Origin.ofByte 2) 2 1 []]

theorem clock_journal_agree_overtaken : ∃ m m' : Desk,
    (∀ o, (m.store.db.replica o).Sound)
      ∧ (∃ o, ¬ (m'.store.db.replica o).Sound)
      ∧ (m.store.db.clock (Origin.ofByte 2)).place
        ≤ (m'.store.db.clock (Origin.ofByte 2)).place := by
  have hrun : (((deskSystem Codec.plain (Config.ofPeer 1 2)).runIf FloorInClock
        ⟨openIndex (Config.ofPeer 1 2) {} 7, []⟩ Desk.overtaken).bind fun m =>
        (m.step Codec.plain (Config.ofPeer 1 2) (.advance 0)).map fun _ =>
          decide (FloorInClock m (.advance 0))) = some false := by decide +kernel
  obtain ⟨m, hm, hrest⟩ := Option.bind_eq_some_iff.mp hrun
  obtain ⟨m', hm', hfloor⟩ := Option.map_eq_some_iff.mp hrest
  have hinit : (deskSystem Codec.plain (Config.ofPeer 1 2)).init
      ⟨openIndex (Config.ofPeer 1 2) {} 7, []⟩ := ⟨7, rfl⟩
  have hreach : (deskSystem Codec.plain (Config.ofPeer 1 2)).ReachIf FloorInClock m :=
    System.ReachIf.runIf (System.ReachIf.init hinit) hm
  obtain ⟨hsound, hbreak, hplace⟩ := clock_journal_agree Codec.plain (Config.ofPeer 1 2)
  refine ⟨m, m', hsound m hreach, ?_, ?_⟩
  · exact hbreak m (.advance 0) m' hreach hm' (of_decide_eq_false hfloor)
  · refine hplace m [.advance 0] m' _ hreach.reach ?_ (by decide)
    exact Option.bind_eq_some_iff.mpr ⟨m', hm', rfl⟩

/-- The floor of a compaction overtaken by a snapshot leaves the tail
above the clock. -/
theorem tail_passes_clock : ¬ ∀ (cd : Codec) (cfg : Config) (m : Desk),
    (deskSystem cd cfg).Reach m →
      ∀ o, (m.store.db.clock o).tailSeq ≤ (m.store.db.clock o).seq := by
  intro hall
  have hrun : ((deskSystem Codec.plain (Config.ofPeer 1 2)).run
        ⟨openIndex (Config.ofPeer 1 2) {} 7, []⟩ (Desk.overtaken ++ [.advance 0])).map
        (fun m => m.store.db.clock (Origin.ofByte 2)) = some ⟨2, 1, 2⟩ := by decide +kernel
  obtain ⟨m, hm, hclock⟩ := Option.map_eq_some_iff.mp hrun
  have hreach : (deskSystem Codec.plain (Config.ofPeer 1 2)).Reach m :=
    System.Reach.run (System.Reach.start ⟨7, rfl⟩) hm
  have := hall Codec.plain (Config.ofPeer 1 2) m hreach (Origin.ofByte 2)
  rw [hclock] at this
  exact absurd this (by decide)

end Narshare
