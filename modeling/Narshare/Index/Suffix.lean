/-
Suffixes applied whole, again, and in pieces.

# One function of the list

Of the events of a suffix, `connect` keeps those that go on from the
clock, or nothing where there is a gap; the loop of `apply_suffix` is
that and no more (`suffixLoop_eq`). What an application leaves behind is
then told by the events it took (`Took`): applications follow each other
by appending what they took, and what was taken settles replicas and
facts. A list of consecutive events is cut into batches anywhere, each
batch takes what is left of it, and in all they take what the list would
have at once (`took_batches`).

Clock and store are read and written at two moments. `commitSuffix` has
the clock of an earlier one, so that a race lost at the commit is one of
its cases.
-/
import Narshare.Index.Apply
import Narshare.Lib.Slice
import Narshare.Store.Join

namespace Narshare

variable (cd : Codec) (cfg : Config)

/-- `apply_suffix` at a clock read before. -/
def commitSuffix (cur : Clock) (s : Store) (o : Origin) (generation : ℕ) (events : List Event) :
    Except IndexError (Apply × Store) :=
  if o = cfg.selfName ∨ cfg.isKnownOrigin o = false then .error (.unexpectedSuffix o)
  else
    match readSuffix cur generation events with
    | .inl out => .ok (out, s)
    | .inr r =>
        let done := s.applyEvents cd o (cur.generation, cur.seq) (generation, r.seq)
          r.journal r.holds r.attests
        if done.1 then .ok (.applied r.journal.length, done.2)
        else .ok (.applied 0, done.2)

/-- What a suffix leaves behind. -/
def Store.suffix (o : Origin) (generation : ℕ) (s : Store) (events : List Event) : Store :=
  match applySuffix cd cfg s o generation events with
  | .ok done => done.2
  | .error _ => s

/-- Batches cover a list of `n` in order, from `reached` on: none starts
past what has been reached. -/
def Cut (n : ℕ) : ℕ → List (ℕ × ℕ) → Prop
  | reached, [] => reached = n
  | reached, (a, b) :: segs => a ≤ reached ∧ b ≤ n ∧ Cut n (max reached b) segs

instance Cut.decidable (n : ℕ) : (reached : ℕ) → (segs : List (ℕ × ℕ)) →
    Decidable (Cut n reached segs)
  | reached, [] => inferInstanceAs (Decidable (reached = n))
  | reached, (a, b) :: segs =>
      have := Cut.decidable n (max reached b) segs
      inferInstanceAs (Decidable (a ≤ reached ∧ b ≤ n ∧ Cut n (max reached b) segs))

variable {cd cfg}

-- ============================================================ what connects

/-- The events that go on from `seq`: replays are left out, and a gap
leaves nothing. -/
def connect (seq : ℕ) : List Event → Option (List Event)
  | [] => some []
  | e :: es =>
      if e.seq ≤ seq then connect seq es
      else if e.seq ≠ seq + 1 then none
      else (connect e.seq es).map fun taken => e :: taken

/-- The loop takes what connects. -/
theorem suffixLoop_eq (r : SuffixRead) (events : List Event) :
    suffixLoop r events = (connect r.seq events).map fun taken =>
      { journal := r.journal ++ taken.map fun e => (e.seq, e)
        holds := r.holds ++ taken.filterMap Event.holdOp
        attests := r.attests ++ taken.filterMap Event.attestation
        seq := r.seq + taken.length } := by
  induction events generalizing r with
  | nil => simp [suffixLoop, connect]
  | cons e es ih =>
      rw [suffixLoop, connect]
      split
      next => exact ih r
      next =>
        split
        next => rfl
        next hnext =>
          have hseq : e.seq = r.seq + 1 := not_not.mp hnext
          rw [ih, Option.map_map]
          show (connect e.seq es).map _ = (connect e.seq es).map _
          refine Option.map_congr fun taken _ => ?_
          simp only [Function.comp_apply, SuffixRead.take, List.map_cons, List.length_cons,
            List.append_assoc]
          congr 1
          · cases ho : e.holdOp <;> simp [ho]
          · cases ho : e.attestation <;> simp [ho]
          · omega

theorem connect_spec {seq : ℕ} {events taken : List Event}
    (h : connect seq events = some taken) :
    taken.Sublist events ∧ SeqRun Event.seq seq taken
      ∧ ∀ e ∈ events, e.seq ≤ seq + taken.length := by
  induction events generalizing seq taken with
  | nil =>
      cases h
      exact ⟨List.Sublist.refl _, trivial, nofun⟩
  | cons e es ih =>
      rw [connect] at h
      split at h
      next hreplay =>
        obtain ⟨hsub, hrun, hall⟩ := ih h
        refine ⟨hsub.cons e, hrun, fun e' he' => ?_⟩
        rcases List.mem_cons.mp he' with rfl | he'
        · exact hreplay.trans (Nat.le_add_right _ _)
        · exact hall e' he'
      next =>
        split at h
        next => cases h
        next hnext =>
          have hseq : e.seq = seq + 1 := not_not.mp hnext
          obtain ⟨rest, hrest, rfl⟩ := Option.map_eq_some_iff.mp h
          obtain ⟨hsub, hrun, hall⟩ := ih hrest
          rw [hseq] at hrun hall
          refine ⟨hsub.cons_cons e, ⟨hseq, hrun⟩, fun e' he' => ?_⟩
          rw [List.length_cons]
          rcases List.mem_cons.mp he' with rfl | he'
          · omega
          · have := hall e' he'
            omega

/-- Nothing is taken twice. -/
theorem connect_of_le {seq : ℕ} {events : List Event} (h : ∀ e ∈ events, e.seq ≤ seq) :
    connect seq events = some [] := by
  induction events with
  | nil => rfl
  | cons e es ih =>
      rw [connect, if_pos (h e List.mem_cons_self)]
      exact ih fun e' he' => h e' (List.mem_cons_of_mem e he')

/-- Of consecutive events, what is above the clock connects, unless they
begin too far above it. -/
theorem connect_of_run {a seq : ℕ} {events : List Event} (h : SeqRun Event.seq a events) :
    connect seq events
      = if seq < a ∧ events ≠ [] then none else some (events.drop (seq - a)) := by
  induction events generalizing a seq with
  | nil => simp [connect]
  | cons e es ih =>
      obtain ⟨hseq, hrun⟩ := h
      rw [connect]
      split
      next hreplay =>
        rw [ih hrun, if_neg (by omega), if_neg (by omega),
          show seq - a = seq - (a + 1) + 1 by omega]
        rfl
      next habove =>
        split
        next hgap => rw [if_pos ⟨by omega, List.cons_ne_nil e es⟩]
        next hnext =>
          rw [ih hrun, if_neg (by omega), if_neg (by omega), Option.map_some,
            show e.seq - (a + 1) = 0 by omega, show seq - a = 0 by omega]
          rfl

-- ============================================================ what was taken

/-- May a suffix of the generation go on from the clock? -/
def Clock.Adopts (cur : Clock) (generation : ℕ) : Prop :=
  generation = cur.generation
    ∨ cur.generation < generation ∧ cur.generation = 0 ∧ cur.seq = 0

instance (cur : Clock) (generation : ℕ) : Decidable (cur.Adopts generation) := by
  unfold Clock.Adopts
  infer_instance

theorem readSuffix_of_adopts {cur : Clock} {generation : ℕ} (h : cur.Adopts generation)
    (events : List Event) :
    readSuffix cur generation events =
      match connect cur.seq events with
      | none => .inl .needSnapshot
      | some [] => .inl (.applied 0)
      | some taken =>
          .inr
            { journal := taken.map fun e => (e.seq, e)
              holds := taken.filterMap Event.holdOp
              attests := taken.filterMap Event.attestation
              seq := cur.seq + taken.length } := by
  rcases h with rfl | ⟨hlt, hgen, hseq⟩
  all_goals
    rw [readSuffix, if_neg (by omega), if_neg (by simp_all), suffixLoop_eq]
    cases connect cur.seq events with
    | none => rfl
    | some taken =>
        cases taken with
        | nil => rfl
        | cons e taken => simp

theorem readSuffix_of_not_adopts {cur : Clock} {generation : ℕ} (h : ¬ cur.Adopts generation)
    (events : List Event) :
    readSuffix cur generation events
      = .inl (if generation < cur.generation then .applied 0 else .needSnapshot) := by
  rw [readSuffix]
  split
  next => rfl
  next hge =>
    rw [if_pos]
    refine ⟨?_, fun hz => h (Or.inr ⟨?_, hz⟩)⟩
    · by_contra hle
      exact h (Or.inl (by omega))
    · by_contra hle
      exact h (Or.inl (by omega))

/-- The replica once events are taken. -/
def Replica.take (r : Replica) (generation : ℕ) (taken : List Event) : Replica :=
  if taken = [] then r
  else
    r.extend (generation, r.clock.seq + taken.length) (taken.map fun e => (e.seq, e))
      (taken.filterMap Event.holdOp)

theorem Replica.take_append (r : Replica) (generation : ℕ) (taken taken' : List Event) :
    (r.take generation taken).take generation taken' = r.take generation (taken ++ taken') := by
  unfold Replica.take
  cases taken with
  | nil => rfl
  | cons e taken =>
      cases taken' with
      | nil => rw [if_pos rfl, List.append_nil]
      | cons e' taken' =>
          rw [if_neg (List.cons_ne_nil _ _), if_neg (List.cons_ne_nil _ _), if_neg (by simp)]
          apply Replica.ext
          · simp only [Replica.extend, List.length_append, Clock.mk.injEq, and_true, true_and]
            omega
          · funext n
            simp only [Replica.extend, List.map_append, List.foldl_append]
          · funext h
            simp only [Replica.extend, List.filterMap_append, possess_append]

/-- A store has taken events of an origin, and that is all. -/
structure Took (cd : Codec) (o : Origin) (generation : ℕ) (s s' : Store) (taken : List Event) :
    Prop where
  none : taken = [] → s' = s
  replica : ∀ o', s'.db.replica o'
    = if o' = o then (s.db.replica o).take generation taken else s.db.replica o'
  facts : ∀ t given, Rep cd s.db t → CollisionFree cd given →
    (∀ pk a, t.rows.get pk = some a → Stems given a) →
    (∀ a ∈ taken.filterMap Event.attestation, Stems given a) →
    Rep cd s'.db (t.absorbAll (taken.filterMap Event.attestation))
      ∧ (s.agg.Tracks s.db → s'.agg.Tracks s'.db)

theorem Took.refl (cd : Codec) (o : Origin) (generation : ℕ) (s : Store) :
    Took cd o generation s s [] where
  none _ := rfl
  replica o' := by
    split
    next he => rw [he]; rfl
    next => rfl
  facts _ _ h _ _ _ := ⟨h, id⟩

/-- `apply_events` at the clock it expects. -/
theorem Took.applyEvents {s s' : Store} {o : Origin} {generation : ℕ} {taken : List Event}
    (hne : taken ≠ [])
    (h : s.applyEvents cd o ((s.db.clock o).generation, (s.db.clock o).seq)
      (generation, (s.db.clock o).seq + taken.length) (taken.map fun e => (e.seq, e))
      (taken.filterMap Event.holdOp) (taken.filterMap Event.attestation) = (true, s')) :
    Took cd o generation s s' taken where
  none hnil := absurd hnil hne
  replica o' := by
    rw [(replica_applyEvents cd h o').2, Replica.take, if_neg hne]
    rfl
  facts t given hrep hcf ht hin := by
    have hrep' := hrep.applyEvents hcf ht hin o (generation, (s.db.clock o).seq + taken.length)
      (taken.map fun e => (e.seq, e)) (taken.filterMap Event.holdOp)
    rw [h] at hrep'
    refine ⟨hrep', fun htr => ?_⟩
    have htr' := hrep.tracks_applyEvents htr o ((s.db.clock o).generation, (s.db.clock o).seq)
      (generation, (s.db.clock o).seq + taken.length) (taken.map fun e => (e.seq, e))
      (taken.filterMap Event.holdOp) (taken.filterMap Event.attestation)
    rw [h] at htr'
    exact htr'

/-- What is taken in two goes is taken. -/
theorem Took.trans {s s₁ s₂ : Store} {o : Origin} {generation : ℕ} {taken taken' : List Event}
    (h : Took cd o generation s s₁ taken) (h' : Took cd o generation s₁ s₂ taken') :
    Took cd o generation s s₂ (taken ++ taken') where
  none hnil := by
    obtain ⟨hfst, hsnd⟩ := List.append_eq_nil_iff.mp hnil
    rw [h'.none hsnd, h.none hfst]
  replica o' := by
    rw [h'.replica, h.replica o, if_pos rfl, Replica.take_append]
    split
    next => rfl
    next hne => rw [h.replica o', if_neg hne]
  facts t given hrep hcf ht hin := by
    rw [List.filterMap_append] at hin ⊢
    have hfst := fun a ha => hin a (List.mem_append_left _ ha)
    obtain ⟨hrep₁, htr₁⟩ := h.facts t given hrep hcf ht hfst
    obtain ⟨hrep₂, htr₂⟩ := h'.facts _ given hrep₁ hcf
      (fun pk a ha => FactTable.stems_absorbAll ht hfst ha)
      fun a ha => hin a (List.mem_append_right _ ha)
    rw [FactTable.absorbAll_append]
    exact ⟨hrep₂, fun htr => htr₂ (htr₁ htr)⟩

-- ============================================================ one suffix

/-- A foreign origin of the set. -/
def Config.Follows (cfg : Config) (o : Origin) : Prop :=
  o ≠ cfg.selfName ∧ cfg.isKnownOrigin o = true

variable {o : Origin} {generation : ℕ} {cur : Clock} {s : Store} {events : List Event}

theorem Config.Follows.expected (ho : cfg.Follows o) :
    ¬ (o = cfg.selfName ∨ cfg.isKnownOrigin o = false) := by
  rintro (he | he)
  · exact ho.1 he
  · rw [ho.2] at he
    cases he

/-- What the clock read before the commit makes of a suffix. -/
theorem commitSuffix_inl (ho : cfg.Follows o) {out : Apply}
    (hread : readSuffix cur generation events = .inl out) :
    commitSuffix cd cfg cur s o generation events = .ok (out, s) := by
  rw [commitSuffix, if_neg ho.expected, hread]

variable (cd) in
/-- At the clock it expects, what connects is taken. -/
theorem commitSuffix_took (ho : cfg.Follows o) {e : Event} {taken : List Event}
    (hadopts : cur.Adopts generation) (hconnect : connect cur.seq events = some (e :: taken))
    (hcur : (s.db.clock o).generation = cur.generation ∧ (s.db.clock o).seq = cur.seq) :
    ∃ s', commitSuffix cd cfg cur s o generation events
        = .ok (.applied (e :: taken).length, s')
      ∧ Took cd o generation s s' (e :: taken) := by
  have hread := readSuffix_of_adopts hadopts events
  rw [hconnect] at hread
  obtain ⟨hgen, hseq⟩ := hcur
  rw [commitSuffix, if_neg ho.expected]
  simp only [hread]
  cases hap : s.applyEvents cd o (cur.generation, cur.seq)
      (generation, cur.seq + (e :: taken).length) ((e :: taken).map fun e => (e.seq, e))
      ((e :: taken).filterMap Event.holdOp) ((e :: taken).filterMap Event.attestation) with
  | mk ok s' =>
      rw [← hgen, ← hseq] at hap
      cases ok with
      | false =>
          rw [Store.applyEvents, if_neg (not_not.mpr rfl)] at hap
          cases hap
      | true => exact ⟨s', by simp, Took.applyEvents (List.cons_ne_nil e taken) hap⟩

variable (cd) in
/-- A race lost at the commit. -/
theorem commitSuffix_raced (ho : cfg.Follows o) (generation : ℕ) (events : List Event)
    (hcur : ((s.db.clock o).generation, (s.db.clock o).seq) ≠ (cur.generation, cur.seq)) :
    ∃ out, commitSuffix cd cfg cur s o generation events = .ok (out, s)
      ∧ (out = .applied 0 ∨ out = .needSnapshot ∧ readSuffix cur generation events = .inl out) := by
  rw [commitSuffix, if_neg ho.expected]
  have hout : ∀ out, readSuffix cur generation events = .inl out →
      out = .applied 0 ∨ out = .needSnapshot := by
    intro out hread
    by_cases hadopts : cur.Adopts generation
    · rw [readSuffix_of_adopts hadopts] at hread
      split at hread
      · cases hread
        exact Or.inr rfl
      · cases hread
        exact Or.inl rfl
      · cases hread
    · rw [readSuffix_of_not_adopts hadopts] at hread
      cases hread
      split
      · exact Or.inl rfl
      · exact Or.inr rfl
  cases hread : readSuffix cur generation events with
  | inl out =>
      rcases hout out hread with rfl | rfl
      · exact ⟨_, rfl, Or.inl rfl⟩
      · exact ⟨_, rfl, Or.inr ⟨rfl, rfl⟩⟩
  | inr r =>
      refine ⟨.applied 0, ?_, Or.inl rfl⟩
      simp only [Store.applyEvents, if_pos hcur, Bool.false_eq_true, if_false]

theorem Took.clock {s' : Store} {taken : List Event} (h : Took cd o generation s s' taken) :
    (s'.db.clock o).seq = (s.db.clock o).seq + taken.length
      ∧ ((s.db.clock o).Adopts generation → (s'.db.clock o).Adopts generation) := by
  have hclock := congrArg Replica.clock (h.replica o)
  rw [if_pos rfl, Db.replica_clock, Replica.take] at hclock
  split at hclock
  next hnil =>
    rw [hclock, hnil]
    exact ⟨rfl, id⟩
  next =>
    rw [hclock]
    exact ⟨rfl, fun _ => Or.inl rfl⟩

/-- All that an application may come to. -/
structure Whole (cd : Codec) (cfg : Config) (cur : Clock) (s s' : Store) (o : Origin)
    (generation : ℕ) (events : List Event) (out : Apply) : Prop where
  snapshot : out = .needSnapshot → s' = s
  stale : generation < cur.generation → out = .applied 0 ∧ s' = s
  raced : ((s.db.clock o).generation, (s.db.clock o).seq) ≠ (cur.generation, cur.seq) → s' = s
  applied : ∀ n, out = .applied n → ∃ taken, taken.length = n ∧ taken.Sublist events
    ∧ SeqRun Event.seq (s.db.clock o).seq taken ∧ Took cd o generation s s' taken
    ∧ (s'.db.clock o).seq = (s.db.clock o).seq + n
  again : ((s.db.clock o).generation, (s.db.clock o).seq) = (cur.generation, cur.seq) →
    ∀ n, out = .applied n →
      applySuffix cd cfg s' o generation events = .ok (.applied 0, s')

/-- Nothing done is whole. -/
theorem Whole.nothing {out : Apply} (hout : out = .applied 0 ∨ out = .needSnapshot)
    (hstale : generation < cur.generation → out = .applied 0)
    (hagain : ((s.db.clock o).generation, (s.db.clock o).seq) = (cur.generation, cur.seq) →
      out = .applied 0 → applySuffix cd cfg s o generation events = .ok (.applied 0, s)) :
    Whole cd cfg cur s s o generation events out where
  snapshot _ := rfl
  stale hlt := ⟨hstale hlt, rfl⟩
  raced _ := rfl
  applied n hn := by
    have hzero : n = 0 := by
      rcases hout with he | he
      · rw [he] at hn
        exact (Apply.applied.inj hn).symm
      · rw [he] at hn
        cases hn
    subst hzero
    exact ⟨[], rfl, List.nil_sublist _, trivial, Took.refl cd o generation s, rfl⟩
  again hcur n hn := by
    refine hagain hcur ?_
    rcases hout with he | he
    · exact he
    · rw [he] at hn
      cases hn

theorem readSuffix_congr {cur' : Clock} (hgen : cur'.generation = cur.generation)
    (hseq : cur'.seq = cur.seq) :
    readSuffix cur' generation events = readSuffix cur generation events := by
  rw [readSuffix, readSuffix, hgen, hseq]

/-- An application is whole. -/
theorem whole_commitSuffix (ho : cfg.Follows o) (cur : Clock) (s : Store) (generation : ℕ)
    (events : List Event) :
    ∃ out s', commitSuffix cd cfg cur s o generation events = .ok (out, s')
      ∧ Whole cd cfg cur s s' o generation events out := by
  have hstale : ∀ {out}, readSuffix cur generation events = .inl out →
      generation < cur.generation → out = .applied 0 := by
    intro out hread hlt
    rw [readSuffix, if_pos hlt] at hread
    exact (Sum.inl.inj hread).symm
  by_cases hcur : ((s.db.clock o).generation, (s.db.clock o).seq) = (cur.generation, cur.seq)
  · obtain ⟨hgen, hseq⟩ := Prod.mk.inj hcur
    have hnothing : ∀ {out}, readSuffix cur generation events = .inl out →
        out = .applied 0 ∨ out = .needSnapshot →
        ∃ out s', commitSuffix cd cfg cur s o generation events = .ok (out, s')
          ∧ Whole cd cfg cur s s' o generation events out := by
      intro out hread hout
      refine ⟨out, s, commitSuffix_inl ho hread, Whole.nothing hout (hstale hread) ?_⟩
      intro _ he
      rw [he, ← readSuffix_congr hgen hseq] at hread
      exact commitSuffix_inl ho hread
    by_cases hadopts : cur.Adopts generation
    · have hread := readSuffix_of_adopts hadopts events
      cases hconnect : connect cur.seq events with
      | none =>
          rw [hconnect] at hread
          exact hnothing hread (Or.inr rfl)
      | some taken =>
          cases taken with
          | nil =>
              rw [hconnect] at hread
              exact hnothing hread (Or.inl rfl)
          | cons e taken =>
              obtain ⟨s', hok, htook⟩ := commitSuffix_took cd ho hadopts hconnect
                ⟨hgen, hseq⟩
              obtain ⟨hsub, hrun, hall⟩ := connect_spec hconnect
              obtain ⟨hclock, hadopts'⟩ := htook.clock
              have hadopts₀ : (s.db.clock o).Adopts generation := by
                unfold Clock.Adopts at hadopts ⊢
                rw [hgen, hseq]
                exact hadopts
              refine ⟨_, s', hok, ?_, ?_, ?_, ?_, ?_⟩
              · intro he
                cases he
              · intro hlt
                rcases hadopts with he | ⟨hgt, -⟩
                · exact absurd hlt (by omega)
                · exact absurd hlt (by omega)
              · exact fun hne => absurd hcur hne
              · intro n hn
                cases hn
                refine ⟨e :: taken, rfl, hsub, ?_, htook, hclock⟩
                rw [hseq]
                exact hrun
              · intro _ n _
                have hle : ∀ e' ∈ events, e'.seq ≤ (s'.db.clock o).seq := by
                  rw [hclock, hseq]
                  exact hall
                refine commitSuffix_inl ho
                  (?_ : readSuffix (s'.db.clock o) generation events = .inl (.applied 0))
                rw [readSuffix_of_adopts (hadopts' hadopts₀), connect_of_le hle]
    · have hread := readSuffix_of_not_adopts hadopts events
      refine hnothing hread ?_
      split
      · exact Or.inl rfl
      · exact Or.inr rfl
  · obtain ⟨out, hok, hout⟩ := commitSuffix_raced cd ho generation events hcur
    refine ⟨out, s, hok, Whole.nothing (hout.imp_right And.left) ?_ fun he => absurd he hcur⟩
    intro hlt
    rcases hout with he | ⟨he, hread⟩
    · exact he
    · exact hstale hread hlt

-- ============================================================ many batches

variable (cd) in
/-- One batch takes what is left of it. -/
theorem took_suffix (ho : cfg.Follows o) (generation : ℕ) (s : Store) (events : List Event) :
    Took cd o generation s (Store.suffix cd cfg o generation s events)
      (if (s.db.clock o).Adopts generation then (connect (s.db.clock o).seq events).getD []
        else []) := by
  have hok : ∀ {out s'}, commitSuffix cd cfg (s.db.clock o) s o generation events = .ok (out, s') →
      Store.suffix cd cfg o generation s events = s' := by
    intro out s' hok
    rw [Store.suffix]
    show (match commitSuffix cd cfg (s.db.clock o) s o generation events with
      | .ok done => done.2
      | .error _ => s) = s'
    rw [hok]
  by_cases hadopts : (s.db.clock o).Adopts generation
  · rw [if_pos hadopts]
    have hread := readSuffix_of_adopts hadopts events
    cases hconnect : connect (s.db.clock o).seq events with
    | none =>
        rw [hconnect] at hread
        rw [hok (commitSuffix_inl ho hread)]
        exact Took.refl cd o generation s
    | some l =>
        rw [hconnect] at hread
        cases l with
        | nil =>
            rw [hok (commitSuffix_inl ho hread)]
            exact Took.refl cd o generation s
        | cons e l =>
            obtain ⟨s', hcommit, htook⟩ := commitSuffix_took cd ho hadopts hconnect ⟨rfl, rfl⟩
            rw [hok hcommit]
            exact htook
  · rw [if_neg hadopts, hok (commitSuffix_inl ho (readSuffix_of_not_adopts hadopts events))]
    exact Took.refl cd o generation s

/-- What is taken of consecutive events, once `reached` of them have been
handed over. -/
def takenOf (cur : Clock) (generation a : ℕ) (events : List Event) (reached : ℕ) : List Event :=
  if cur.Adopts generation ∧ a ≤ cur.seq then slice events (cur.seq - a) reached else []

theorem mem_of_mem_takenOf {a reached : ℕ} {e : Event}
    (h : e ∈ takenOf cur generation a events reached) : e ∈ events := by
  unfold takenOf at h
  split at h
  · exact List.mem_of_mem_take (List.mem_of_mem_drop h)
  · cases h

/-- One more batch of a cut. -/
theorem took_batch (ho : cfg.Follows o) {s₁ : Store} {a reached b e : ℕ}
    (hrun : SeqRun Event.seq a events) (hreached : reached ≤ events.length)
    (hb : b ≤ reached) (he : e ≤ events.length)
    (htook : Took cd o generation s s₁ (takenOf (s.db.clock o) generation a events reached)) :
    Took cd o generation s (Store.suffix cd cfg o generation s₁ (slice events b e))
      (takenOf (s.db.clock o) generation a events (max reached e)) := by
  obtain ⟨hclock, hadopts⟩ := htook.clock
  have hbatch : SeqRun Event.seq (a + b) (slice events b e) := by
    rcases Nat.le_total b e with hbe | heb
    · refine SeqRun.drop (hrun.take e) ?_
      rw [List.length_take, Nat.min_eq_left he]
      exact hbe
    · rw [slice_of_ge heb]
      trivial
  have hnext := took_suffix cd ho generation s₁ (slice events b e)
  rw [connect_of_run hbatch] at hnext
  unfold takenOf at htook hclock ⊢
  by_cases hgoes : (s.db.clock o).Adopts generation ∧ a ≤ (s.db.clock o).seq
  · rw [if_pos hgoes] at htook hclock ⊢
    rw [length_slice, Nat.min_eq_left hreached] at hclock
    rw [if_pos (hadopts hgoes.1), if_neg (by omega), Option.getD_some] at hnext
    have htaken := htook.trans hnext
    have hdrop : (slice events b e).drop ((s₁.db.clock o).seq - (a + b))
        = slice events (max ((s.db.clock o).seq - a) reached) e := by
      rw [slice, List.drop_drop, slice]
      congr 1
      omega
    rw [hdrop] at htaken
    -- what is left of the batch starts where what was taken ends
    have hmeet : slice events ((s.db.clock o).seq - a) reached
          ++ slice events (max ((s.db.clock o).seq - a) reached) e
        = slice events ((s.db.clock o).seq - a) (max reached e) := by
      rcases Nat.le_total e reached with her | hre
      · rw [slice_of_ge (her.trans (le_max_right _ _)), List.append_nil, max_eq_left her]
      · rw [max_eq_right hre]
        rcases Nat.le_total ((s.db.clock o).seq - a) reached with hle | hge
        · rw [max_eq_right hle, slice_append_slice events hle hre]
        · rw [max_eq_left hge, slice_of_ge hge, List.nil_append]
    rwa [hmeet] at htaken
  · -- nothing was taken, and nothing will be
    rw [if_neg hgoes] at htook ⊢
    obtain rfl := htook.none rfl
    rw [ite_eq_right_iff.mpr] at hnext
    · exact hnext
    · intro hadopts'
      have hlt : (s₁.db.clock o).seq < a := by
        by_contra hge
        exact hgoes ⟨hadopts', Nat.not_lt.mp hge⟩
      by_cases hempty : slice events b e = []
      · rw [hempty]
        simp
      · rw [if_pos ⟨by omega, hempty⟩]
        rfl

/-- A cut takes what the list takes at once. -/
theorem took_batches (ho : cfg.Follows o) {a : ℕ} (hrun : SeqRun Event.seq a events)
    {segs : List (ℕ × ℕ)} {s₁ : Store} {reached : ℕ} (hreached : reached ≤ events.length)
    (hcut : Cut events.length reached segs)
    (htook : Took cd o generation s s₁ (takenOf (s.db.clock o) generation a events reached)) :
    Took cd o generation s
      ((segs.map fun seg => slice events seg.1 seg.2).foldl (Store.suffix cd cfg o generation) s₁)
      (takenOf (s.db.clock o) generation a events events.length) := by
  induction segs generalizing s₁ reached with
  | nil =>
      have heq : reached = events.length := hcut
      rw [heq] at htook
      exact htook
  | cons seg segs ih =>
      obtain ⟨b, e⟩ := seg
      obtain ⟨hb, he, hrest⟩ := hcut
      rw [List.map_cons, List.foldl_cons]
      exact ih (max_le hreached he) hrest (took_batch ho hrun hreached hb he htook)

variable (cd o) in
theorem took_nothing (s : Store) (generation a : ℕ) (events : List Event) :
    Took cd o generation s s (takenOf (s.db.clock o) generation a events 0) := by
  have hnil : takenOf (s.db.clock o) generation a events 0 = [] := by
    unfold takenOf
    split
    · exact slice_of_ge (Nat.zero_le _)
    · rfl
  rw [hnil]
  exact Took.refl cd o generation s

/-- What was taken settles the replicas and the facts. -/
theorem Took.agree {s₁ s₂ : Store} {taken : List Event} (h₁ : Took cd o generation s s₁ taken)
    (h₂ : Took cd o generation s s₂ taken) :
    (∀ o', s₁.db.replica o' = s₂.db.replica o')
      ∧ ∀ t given, Rep cd s.db t → s.agg.Tracks s.db → CollisionFree cd given →
        (∀ pk a, t.rows.get pk = some a → Stems given a) →
        (∀ a ∈ taken.filterMap Event.attestation, Stems given a) → SameFacts cd s₁ s₂ := by
  refine ⟨fun o' => (h₁.replica o').trans (h₂.replica o').symm, ?_⟩
  intro t given hrep htr hcf ht hin
  obtain ⟨hrep₁, htr₁⟩ := h₁.facts t given hrep hcf ht hin
  obtain ⟨hrep₂, htr₂⟩ := h₂.facts t given hrep hcf ht hin
  exact hrep₁.sameFacts hrep₂ (htr₁ htr) (htr₂ htr)

/-- `apply_suffix` is atomic, idempotent, and splits over batches. -/
theorem apply_suffix_whole (cd : Codec) (cfg : Config) (o : Origin) (ho : cfg.Follows o) :
    (∀ (cur : Clock) (s : Store) (generation : ℕ) (events : List Event), ∃ out s',
      commitSuffix cd cfg cur s o generation events = .ok (out, s')
        ∧ Whole cd cfg cur s s' o generation events out)
    ∧ (∀ (s : Store) (generation a : ℕ) (events : List Event) (segs : List (ℕ × ℕ)),
      SeqRun Event.seq a events → Cut events.length 0 segs → ∀ o',
        ((segs.map fun seg => slice events seg.1 seg.2).foldl
          (Store.suffix cd cfg o generation) s).db.replica o'
        = (Store.suffix cd cfg o generation s events).db.replica o')
    ∧ ∀ m : Machine, (storeSystem cd).Reach m → m.tasks = ∅ →
      ∀ (generation a : ℕ) (events : List Event) (segs : List (ℕ × ℕ)),
        SeqRun Event.seq a events → Cut events.length 0 segs →
        CollisionFree cd (m.store.rows ++ events.filterMap Event.attestation) →
        SameFacts cd
          ((segs.map fun seg => slice events seg.1 seg.2).foldl
            (Store.suffix cd cfg o generation) m.store)
          (Store.suffix cd cfg o generation m.store events) := by
  -- the list at once is the cut of one batch
  have hboth : ∀ (s : Store) (generation a : ℕ) (events : List Event) (segs : List (ℕ × ℕ)),
      SeqRun Event.seq a events → Cut events.length 0 segs →
      Took cd o generation s
          ((segs.map fun seg => slice events seg.1 seg.2).foldl
            (Store.suffix cd cfg o generation) s)
          (takenOf (s.db.clock o) generation a events events.length)
        ∧ Took cd o generation s (Store.suffix cd cfg o generation s events)
          (takenOf (s.db.clock o) generation a events events.length) := by
    intro s generation a events segs hrun hcut
    refine ⟨took_batches ho hrun (Nat.zero_le _) hcut (took_nothing cd o s generation a events), ?_⟩
    have hone := took_batch ho hrun (Nat.zero_le _) le_rfl le_rfl
      (took_nothing cd o s generation a events)
    rwa [slice_zero events le_rfl, max_eq_right (Nat.zero_le _)] at hone
  refine ⟨whole_commitSuffix ho, ?_, ?_⟩
  · intro s generation a events segs hrun hcut o'
    obtain ⟨hcutted, hwhole⟩ := hboth s generation a events segs hrun hcut
    exact (hcutted.agree hwhole).1 o'
  · intro m hm hidle generation a events segs hrun hcut hcf
    obtain ⟨t, hrep, htr⟩ := Machine.idle_rep hm hidle
    obtain ⟨hcutted, hwhole⟩ := hboth m.store generation a events segs hrun hcut
    refine (hcutted.agree hwhole).2 t _ hrep htr hcf (fun pk b hb => ?_) fun b hb => ?_
    · refine Stems.of_mem (List.mem_append_left _ (Store.mem_rows.mpr ?_))
      exact hrep.holdsRow_iff.mpr ((t.ok _ _ hb).key ▸ hb)
    · refine Stems.of_mem (List.mem_append_right _ ?_)
      obtain ⟨e, he, hatt⟩ := List.mem_filterMap.mp hb
      exact List.mem_filterMap.mpr ⟨e, mem_of_mem_takenOf he, hatt⟩

/-- Four events, one of them ill formed, in three batches that overlap. -/
theorem apply_suffix_whole_cut :
    let cfg : Config := ⟨Origin.ofByte 2, [Origin.ofByte 1]⟩
    let events : List Event :=
      [⟨1, some (.have_ (NarHash.ofByte 5).val)⟩, ⟨2, some (.attest (addressed 98))⟩,
        ⟨3, some (.have_ [7])⟩, ⟨4, some (.drop (NarHash.ofByte 5).val)⟩]
    let apply := Store.suffix Codec.plain cfg (Origin.ofByte 1) 7
    let cut := ([(0, 2), (1, 3), (3, 4)].map fun seg => slice events seg.1 seg.2).foldl apply {}
    (cut.db.clock (Origin.ofByte 1)).seq = 4
      ∧ cut.db.replica (Origin.ofByte 1) = (apply {} events).db.replica (Origin.ofByte 1)
      ∧ SameFacts Codec.plain cut (apply {} events) := by
  intro cfg events apply cut
  obtain ⟨-, hreplica, hfacts⟩ := apply_suffix_whole Codec.plain cfg (Origin.ofByte 1)
    ⟨by decide, by decide⟩
  have hrun : SeqRun Event.seq 0 events := by decide +kernel
  have hcut : Cut events.length 0 [(0, 2), (1, 3), (3, 4)] := by decide +kernel
  have hfree : CollisionFree Codec.plain
      ((Machine.store {}).rows ++ events.filterMap Event.attestation) :=
    collisionFree_unsigned (by decide +kernel) (by decide +kernel)
  exact ⟨by decide +kernel, hreplica {} 7 0 events _ hrun hcut (Origin.ofByte 1),
    hfacts {} (.start rfl) rfl 7 0 events _ hrun hcut hfree⟩

end Narshare
