/-
One pull round end to end: a requester's clocks, a responder's answer
under a byte budget, and what the requester makes of it; and what any
number of such rounds comes to.

# Both sides judge alike

The responder chooses a body from the clocks it was sent (`judge`), and
the requester judges the body against the same clocks again. `Taken` says
what a requester's copy looks like afterwards, one case per kind of body,
and `taken_of_judge` that this is what happens: no suffix fails to
connect, no snapshot is stale.

# The budget

The first origin that wants a body gets one, because nothing has been
spent before it; the ones that no longer fit are deferred and come back
unchanged. So a round advances some origin — unless what spends the
budget is a body the requester does not take: one of its own origin after
a self-clock regression, or of an origin it does not know. The first
remints, and is gone the round after (`rounds_catch_up`).
-/
import Mathlib.Algebra.Order.BigOperators.Group.List
import Mathlib.Algebra.Order.Group.Nat
import Mathlib.Order.OrderIsoNat
import Narshare.Index.Interleave

namespace Narshare

variable (cd : Codec) (cfg : Config)

-- ================================================================== a round

/-- What became of one update. -/
inductive Outcome
  | own (reminted : Bool)
  | unknown
  | nothing
  | suffix (out : Apply)
  | snapshot (n : ℕ)

/-- `pull_from_inner`, one update of the response. -/
def takeUpdate (nanos : ℕ) (s : Store) (up : OriginUpdate) : Outcome × Store :=
  if up.origin = cfg.selfName then
    let c := s.db.clock cfg.selfName
    if up.generation > c.generation ∨ (up.generation = c.generation ∧ up.seq > c.seq) then
      (.own true, (bumpSelfGeneration cfg s up.generation nanos).2)
    else (.own false, s)
  else if cfg.isKnownOrigin up.origin = false then (.unknown, s)
  else
    match up.body with
    | none => (.nothing, s)
    | some .upToDate => (.nothing, s)
    | some (.suffix events) =>
        match applySuffix cd cfg s up.origin up.generation events with
        | .ok (out, s') => (.suffix out, s')
        | .error _ => (.nothing, s) -- only for an unexpected origin
    | some (.snapshot held) =>
        match applySnapshot cfg s up.origin up.generation up.seq held with
        | .ok (n, s') => (.snapshot n, s')
        | .error _ => (.nothing, s)

/-- The updates of a response, in order. -/
def takeUpdates (nanos : ℕ) (s : Store) : List OriginUpdate → List Outcome × Store
  | [] => ([], s)
  | up :: ups =>
      let one := takeUpdate cd cfg nanos s up
      let rest := takeUpdates nanos one.2 ups
      (one.1 :: rest.1, rest.2)

/-- The request a round sends: our clocks, where the peer's fact dump
resumes, and the origins whose bodies come from elsewhere. -/
def roundRequest (s : Store) (cursor : Bytes) (skip : List Origin) : SyncRequest :=
  ⟨clockVector cfg s.db, cursor, skip, [], []⟩

/-- One round against a responder with configuration `rcfg`: its updates,
what became of them, and our store. -/
def pullRound (rcfg : Config) (responder s : Store) (cursor : Bytes) (skip : List Origin)
    (budget nanos : ℕ) : List OriginUpdate × List Outcome × Store :=
  match respondBudgeted cd rcfg responder (roundRequest cfg s cursor skip) budget with
  | some b =>
      (b.origins, takeUpdates cd cfg nanos (mergeAttests cd s b.attests).2 b.origins)
  | none => ([], [], s)

-- ============================================================== what is asked

/-- The responder has something of the origin that these clocks lack. -/
def Wants (c : Clock) (theirs : ℕ × ℕ) : Prop :=
  c.generation ≠ 0
    ∧ (theirs.1 < c.generation ∨ (theirs.1 = c.generation ∧ theirs.2 < c.seq))

instance (c : Clock) (theirs : ℕ × ℕ) : Decidable (Wants c theirs) := by
  unfold Wants
  infer_instance

/-- Is the origin one that the requester takes from others? -/
def Config.takes (cfg : Config) (o : Origin) : Prop :=
  o ≠ cfg.selfName ∧ cfg.isKnownOrigin o = true

instance (cfg : Config) (o : Origin) : Decidable (cfg.takes o) := by
  unfold Config.takes
  infer_instance

/-- What a round makes of the requester's copy of an origin, from the
copy before and what the responder has. Only a skipped origin gets no
body at all. -/
inductive Taken (responder : Db) (skip : List Origin) (o : Origin) (r : Replica) :
    OriginUpdate → Outcome → Replica → Prop
  | upToDate (up : OriginUpdate) : up.body = some .upToDate →
      ¬ Wants (responder.clock o) (r.clock.generation, r.clock.seq) →
      Taken responder skip o r up .nothing r
  | clockOnly (up : OriginUpdate) : up.body = none → o ∈ skip →
      Wants (responder.clock o) (r.clock.generation, r.clock.seq) →
      Taken responder skip o r up .nothing r
  | deferred (up : OriginUpdate) (out : Apply) : up.body = some (.suffix []) →
      up.truncated = true →
      Wants (responder.clock o) (r.clock.generation, r.clock.seq) →
      Taken responder skip o r up (.suffix out) r
  | snapshot (up : OriginUpdate) :
      up.body = some (.snapshot ((responder.holdings o).map Subtype.val)) →
      Wants (responder.clock o) (r.clock.generation, r.clock.seq) →
      Taken responder skip o r up (.snapshot (responder.holdings o).length)
        (Replica.replace (responder.clock o).generation (responder.clock o).seq
          (responder.holdings o))
  | suffix (up : OriginUpdate) (events : List Event) : up.body = some (.suffix events) →
      events ≠ [] → r.clock.generation = (responder.clock o).generation →
      (if up.truncated then r.clock.seq + events.length < (responder.clock o).seq
        else r.clock.seq + events.length = (responder.clock o).seq) →
      Wants (responder.clock o) (r.clock.generation, r.clock.seq) →
      Taken responder skip o r up (.suffix (.applied events.length))
        (r.extend ((responder.clock o).generation, r.clock.seq + events.length)
          (events.map fun e => (e.seq, e)) (events.filterMap Event.holdOp))

/-- What the responder has above these clocks: events, or for an older
generation its whole count and the change of generation. -/
def gap (c : Clock) (theirs : ℕ × ℕ) : ℕ :=
  if Wants c theirs then if theirs.1 = c.generation then c.seq - theirs.2 else c.seq + 1
  else 0

/-- The clock a request carries for an origin; one it has no line for
counts as never seen. -/
def sentClock (db : Db) (o : Origin) : ℕ × ℕ :=
  if o ∈ cfg.originSet then ((db.clock o).generation, (db.clock o).seq) else (0, 0)

variable {cd cfg}

theorem theirClock_roundRequest (s : Store) (cursor : Bytes) (skip : List Origin) (o : Origin) :
    theirClock (roundRequest cfg s cursor skip) o = sentClock cfg s.db o := by
  have hline : ∀ c ∈ (clockVector cfg s.db).reverse, c.origin ∈ cfg.originSet
      ∧ (c.generation, c.seq) = ((s.db.clock c.origin).generation,
        (s.db.clock c.origin).seq) := by
    intro c hc
    obtain ⟨o', ho', rfl⟩ := List.mem_map.mp (List.mem_reverse.mp hc)
    exact ⟨ho', rfl⟩
  rw [theirClock, sentClock]
  split
  next c hfind =>
    have hco : c.origin = o := of_decide_eq_true (List.find?_some (p := fun c : OriginClock =>
      decide (c.origin = o)) hfind)
    obtain ⟨hmem, hval⟩ := hline c (List.mem_of_find?_eq_some hfind)
    rw [hco] at hmem hval
    rw [if_pos hmem, hval]
  next hfind =>
    rw [if_neg]
    intro hmem
    have hin : (⟨o, (s.db.clock o).generation, (s.db.clock o).seq⟩ : OriginClock)
        ∈ (clockVector cfg s.db).reverse :=
      List.mem_reverse.mpr (List.mem_map.mpr ⟨o, hmem, rfl⟩)
    exact List.find?_eq_none.mp hfind _ hin (decide_eq_true rfl)

-- ============================================================= one update

/-- Every verdict in terms of what the requester lacks. -/
theorem judge_eq (c : Clock) (theirs : ℕ × ℕ) (skipped full : Bool) :
    (judge c theirs skipped full = .silent ∧ ¬ Wants c theirs)
      ∨ (judge c theirs skipped full = .upToDate ∧ ¬ Wants c theirs)
      ∨ (Wants c theirs ∧ skipped = true ∧ judge c theirs skipped full = .clockOnly)
      ∨ (Wants c theirs ∧ full = true ∧ judge c theirs skipped full = .deferred)
      ∨ (Wants c theirs ∧ skipped = false ∧ full = false ∧ theirs.1 = c.generation
        ∧ c.tailSeq ≤ theirs.2 ∧ judge c theirs skipped full = .suffix)
      ∨ (Wants c theirs ∧ skipped = false ∧ full = false
        ∧ judge c theirs skipped full = .snapshot) := by
  unfold judge Wants
  by_cases h₀ : c.generation = 0
  · simp [h₀]
  by_cases h₁ : theirs.1 > c.generation
  · left
    rw [if_neg h₀, if_pos h₁]
    exact ⟨rfl, by omega⟩
  by_cases h₂ : theirs.1 = c.generation ∧ theirs.2 ≥ c.seq
  · right; left
    rw [if_neg h₀, if_neg h₁, if_pos h₂]
    exact ⟨rfl, by omega⟩
  rw [if_neg h₀, if_neg h₁, if_neg h₂]
  have hwants : c.generation ≠ 0
      ∧ (theirs.1 < c.generation ∨ (theirs.1 = c.generation ∧ theirs.2 < c.seq)) := by
    omega
  cases skipped with
  | true => exact Or.inr (Or.inr (Or.inl ⟨hwants, rfl, rfl⟩))
  | false =>
      rw [if_neg Bool.false_ne_true]
      cases full with
      | true => exact Or.inr (Or.inr (Or.inr (Or.inl ⟨hwants, rfl, rfl⟩)))
      | false =>
          rw [if_neg Bool.false_ne_true]
          by_cases h₃ : theirs.1 = c.generation ∧ theirs.2 ≥ c.tailSeq
          · rw [if_pos h₃]
            exact Or.inr (Or.inr (Or.inr (Or.inr (Or.inl
              ⟨hwants, rfl, rfl, h₃.1, h₃.2, rfl⟩))))
          · rw [if_neg h₃]
            exact Or.inr (Or.inr (Or.inr (Or.inr (Or.inr ⟨hwants, rfl, rfl, rfl⟩))))

/-- The rows of a sound journal above a point are a run to the clock. -/
theorem seqRun_journalFrom {db : Db} {o : Origin} (h : (db.replica o).Sound) (after : ℕ)
    (hlo : (db.clock o).tailSeq ≤ after) (hhi : after ≤ (db.clock o).seq) :
    SeqRun Event.seq after ((db.journalFrom o after).map Prod.snd)
      ∧ after + (db.journalFrom o after).length = (db.clock o).seq := by
  have hrow : ∀ n e, (n, e) ∈ db.journalFrom o after →
      e.seq = n ∧ after < n ∧ n ≤ (db.clock o).seq := by
    intro n e hmem
    obtain ⟨hlt, hget⟩ := Db.mem_journalFrom.mp hmem
    have hn : (db.clock o).tailSeq < n ∧ n ≤ (db.clock o).seq := by
      by_contra hout
      have hnone : db.journalAt o n = none := h.outside n hout
      rw [hnone] at hget
      cases hget
    obtain ⟨e', he', hseq⟩ := h.row n hn.1 hn.2
    change db.journalAt o n = some e' at he'
    rw [hget] at he'
    cases he'
    exact ⟨hseq, hlt, hn.2⟩
  rw [← List.length_map (f := Prod.snd)]
  refine SeqRun.of_pairwise hhi ?_ ?_ ?_
  · rw [List.pairwise_map]
    refine (db.journalFrom_sorted o after).imp_of_mem fun {a b} ha hb hab => ?_
    rw [(hrow a.1 a.2 ha).1, (hrow b.1 b.2 hb).1]
    exact hab
  · intro e he
    obtain ⟨⟨n, e⟩, hmem, rfl⟩ := List.mem_map.mp he
    obtain ⟨hseq, hlt, hle⟩ := hrow n e hmem
    exact ⟨hseq ▸ hlt, hseq ▸ hle⟩
  · intro n hlt hle
    obtain ⟨e, hget, hseq⟩ := h.row n (lt_of_le_of_lt hlo hlt) hle
    exact ⟨e, List.mem_map.mpr ⟨(n, e), Db.mem_journalFrom.mpr ⟨hlt, hget⟩, rfl⟩, hseq⟩

/-- A run from the clock on is taken whole. -/
theorem suffixLoop_of_run {r : SuffixRead} {events : List Event}
    (h : SeqRun Event.seq r.seq events) :
    suffixLoop r events = some
      { journal := r.journal ++ events.map fun e => (e.seq, e)
        holds := r.holds ++ events.filterMap Event.holdOp
        attests := r.attests ++ events.filterMap Event.attestation
        seq := r.seq + events.length } := by
  induction events generalizing r with
  | nil => simp [suffixLoop]
  | cons e es ih =>
      obtain ⟨hseq, hrest⟩ := h
      rw [suffixLoop, if_neg (by omega), if_neg (not_not.mpr hseq), ih]
      · cases hh : e.holdOp <;> cases ha : e.attestation <;>
          simp [SuffixRead.take, hh, ha, hseq] <;> omega
      · show SeqRun Event.seq e.seq es
        rw [hseq]
        exact hrest

/-- The update of an origin, with the response at budget or not. -/
def originUpdate (cd : Codec) (db : Db) (req : SyncRequest) (full : Bool) (o : Origin) :
    Option OriginUpdate :=
  let c := db.clock o
  let verdict := judge c (theirClock req o) (decide (o ∈ req.skipOrigins)) full
  if verdict = .silent then none
  else
    let body := verdict.body cd db o (theirClock req o).2
    some ⟨o, c.generation, c.seq, body.1, body.2⟩

theorem origin_of_originUpdate {db : Db} {req : SyncRequest} {full : Bool} {o : Origin}
    {up : OriginUpdate} (h : originUpdate cd db req full o = some up) : up.origin = o := by
  rw [originUpdate] at h
  simp only at h
  split at h
  · cases h
  · cases h
    rfl

/-- An update moves no replica but that of its origin. -/
theorem replica_takeUpdate_of_ne (nanos : ℕ) (s : Store) {up : OriginUpdate} {o : Origin}
    (h : o ≠ up.origin) : (takeUpdate cd cfg nanos s up).2.db.replica o = s.db.replica o := by
  rw [takeUpdate]
  split
  next hself =>
    simp only
    split
    · show (bumpSelfGeneration cfg s up.generation nanos).2.db.replica o = _
      rw [replica_bumpSelfGeneration, if_neg (fun he => h (he.trans hself.symm))]
    · rfl
  next =>
    split
    · rfl
    split
    · rfl
    · rfl
    · split
      next out s' hap =>
        rcases replica_applySuffix hap with rfl | ⟨-, taken, r, -, hrep⟩
        · rfl
        · rw [hrep, if_neg h]
      next => rfl
    · split
      next n s' hap =>
        rw [(replica_applySnapshot hap).2, if_neg fun hc => h hc.1]
      next => rfl

theorem Config.takes.expected {o : Origin} (h : cfg.takes o) :
    ¬ (o = cfg.selfName ∨ cfg.isKnownOrigin o = false) := by
  rw [h.2]
  simp [h.1]

/-- An update for a taken origin, by what it carries. -/
theorem takeUpdate_of_takes {nanos : ℕ} {s : Store} {up : OriginUpdate}
    (h : cfg.takes up.origin) :
    takeUpdate cd cfg nanos s up =
      match up.body with
      | none => (.nothing, s)
      | some .upToDate => (.nothing, s)
      | some (.suffix events) =>
          match applySuffix cd cfg s up.origin up.generation events with
          | .ok (out, s') => (.suffix out, s')
          | .error _ => (.nothing, s)
      | some (.snapshot held) =>
          match applySnapshot cfg s up.origin up.generation up.seq held with
          | .ok (n, s') => (.snapshot n, s')
          | .error _ => (.nothing, s) := by
  rw [takeUpdate, if_neg h.1, if_neg fun hf => h.expected (Or.inr hf)]

/-- Nothing comes of an empty suffix. -/
theorem applySuffix_nil (cd : Codec) (s : Store) (generation : ℕ) {o : Origin}
    (h : cfg.takes o) :
    ∃ out, applySuffix cd cfg s o generation [] = .ok (out, s) := by
  have hread : ∃ out, readSuffix (s.db.clock o) generation [] = .inl out := by
    rw [readSuffix]
    split
    · exact ⟨_, rfl⟩
    split
    · exact ⟨_, rfl⟩
    · exact ⟨_, rfl⟩
  obtain ⟨out, hout⟩ := hread
  refine ⟨out, ?_⟩
  rw [applySuffix, if_neg h.expected]
  simp only [hout]

/-- A suffix that starts at our clock is taken whole. -/
theorem applySuffix_of_run (cd : Codec) {s : Store} {o : Origin} {events : List Event}
    (h : cfg.takes o) (hrun : SeqRun Event.seq (s.db.clock o).seq events) (hne : events ≠ []) :
    ∃ s', applySuffix cd cfg s o (s.db.clock o).generation events
        = .ok (.applied events.length, s')
      ∧ s'.db.replica o = (s.db.replica o).extend
          ((s.db.clock o).generation, (s.db.clock o).seq + events.length)
          (events.map fun e => (e.seq, e)) (events.filterMap Event.holdOp) := by
  have hread : readSuffix (s.db.clock o) (s.db.clock o).generation events = .inr
      { journal := events.map fun e => (e.seq, e)
        holds := events.filterMap Event.holdOp
        attests := events.filterMap Event.attestation
        seq := (s.db.clock o).seq + events.length } := by
    rw [readSuffix, if_neg (lt_irrefl _), if_neg (fun hgt => lt_irrefl _ hgt.1),
      suffixLoop_of_run hrun]
    simp [hne]
  rw [applySuffix, if_neg h.expected]
  simp only [hread]
  cases hap : s.applyEvents cd o ((s.db.clock o).generation, (s.db.clock o).seq)
      ((s.db.clock o).generation, (s.db.clock o).seq + events.length)
      (events.map fun e => (e.seq, e)) (events.filterMap Event.holdOp)
      (events.filterMap Event.attestation) with
  | mk ok s' =>
      cases ok with
      | false =>
          rw [Store.applyEvents] at hap
          simp at hap
      | true =>
          refine ⟨s', ?_, ?_⟩
          · simp only [if_true, List.length_map]
          · rw [(replica_applyEvents cd hap o).2, if_pos rfl]

/-- What becomes of the update of an origin when the requester's copy is
still as it was when it asked. -/
theorem taken_takeUpdate {responder : Db} {req : SyncRequest} {full : Bool} {o : Origin}
    {up : OriginUpdate} (nanos : ℕ) (s : Store)
    (hup : originUpdate cd responder req full o = some up) (ho : cfg.takes o)
    (hresp : (responder.replica o).Sound)
    (htheirs : theirClock req o = ((s.db.clock o).generation, (s.db.clock o).seq)) :
    Taken responder req.skipOrigins o (s.db.replica o) up (takeUpdate cd cfg nanos s up).1
      ((takeUpdate cd cfg nanos s up).2.db.replica o) := by
  have horigin := origin_of_originUpdate hup
  rw [← horigin] at ho
  rw [takeUpdate_of_takes ho]
  rw [originUpdate, htheirs] at hup
  simp only at hup
  rcases judge_eq (responder.clock o) ((s.db.clock o).generation, (s.db.clock o).seq)
      (decide (o ∈ req.skipOrigins)) full
    with ⟨hv, hw⟩ | ⟨hv, hw⟩ | ⟨hw, hskip, hv⟩ | ⟨hw, -, hv⟩ | ⟨hw, -, -, hgen, htail, hv⟩
      | ⟨hw, -, -, hv⟩
  · simp [hv] at hup
  · simp only [hv, reduceCtorEq, if_false, Verdict.body, Option.some.injEq] at hup
    subst hup
    exact Taken.upToDate _ rfl hw
  · simp only [hv, reduceCtorEq, if_false, Verdict.body, Option.some.injEq] at hup
    subst hup
    exact Taken.clockOnly _ rfl (of_decide_eq_true hskip) hw
  · simp only [hv, reduceCtorEq, if_false, Verdict.body, Option.some.injEq] at hup
    subst hup
    obtain ⟨out, hout⟩ := applySuffix_nil cd s (responder.clock o).generation ho
    simp only [hout]
    exact Taken.deferred _ out rfl rfl hw
  · simp only [hv, reduceCtorEq, if_false, Verdict.body, Option.some.injEq] at hup
    have hseq : (s.db.clock o).seq < (responder.clock o).seq := by
      rcases hw.2 with hlt | hlt
      · exact absurd hgen (Nat.ne_of_lt hlt)
      · exact hlt.2
    obtain ⟨hrun, hlen⟩ := seqRun_journalFrom hresp (s.db.clock o).seq htail
      hseq.le
    obtain ⟨k, hk, hpos⟩ :=
      responder.journalSuffix_spec cd o (s.db.clock o).seq SUFFIX_BYTES_CAP
    rw [hk] at hup
    set events := ((responder.journalFrom o (s.db.clock o).seq).map Prod.snd).take k
      with hevents
    have hk0 : 0 < k := hpos fun hnil => by
      rw [hnil, List.length_nil] at hlen
      omega
    have hlength : events.length
        = min k (responder.journalFrom o (s.db.clock o).seq).length := by
      rw [hevents, List.length_take, List.length_map]
    have hne : events ≠ [] := by
      rw [← List.length_pos_iff, hlength]
      omega
    subst hup
    obtain ⟨s', happ, hrep⟩ := applySuffix_of_run cd ho (hrun.take k) hne
    simp only at hgen
    simp only
    rw [← hgen, happ]
    simp only
    rw [hrep, hgen]
    refine Taken.suffix _ events rfl hne hgen ?_ hw
    simp only [decide_eq_true_eq, Db.replica_clock]
    split
    · omega
    · omega
  · simp only [hv, reduceCtorEq, if_false, Verdict.body, Option.some.injEq] at hup
    subst hup
    have hfresh : staleSnapshot (s.db.clock o) (responder.clock o).generation
        (responder.clock o).seq = false := by
      rw [staleSnapshot, Bool.or_eq_false_iff, Bool.and_eq_false_iff]
      simp only [decide_eq_false_iff_not]
      have := hw.2
      omega
    have happ : applySnapshot cfg s o (responder.clock o).generation (responder.clock o).seq
        ((responder.holdings o).map Subtype.val)
          = .ok ((responder.holdings o).length,
            (s.replaceHoldings o (responder.clock o).generation (responder.clock o).seq
              (responder.holdings o)).2) := by
      have hdone : (s.replaceHoldings o (responder.clock o).generation (responder.clock o).seq
          (responder.holdings o)).1 = true := by
        rw [Store.replaceHoldings, hfresh]
        rfl
      rw [applySnapshot, if_neg ho.expected]
      simp only [NarHash.filterMap_tryFrom, hdone, if_true]
    simp only [happ]
    rw [replica_replaceHoldings, if_pos ⟨rfl, hfresh⟩]
    exact Taken.snapshot _ rfl hw

-- ============================================================= one response

section Response

variable {db : Db} {req : SyncRequest} {budget : ℕ}

theorem respondOrigin_origins (ans : Answer) (o : Origin) :
    (respondOrigin cd db req budget ans o).origins = ans.origins
      ++ (originUpdate cd db req (decide (budget ≤ ans.used)) o).toList := by
  simp only [respondOrigin, originUpdate]
  split
  · simp
  · rfl

/-- The requester lacks something of the origin and asks for its body. -/
def Asks (db : Db) (req : SyncRequest) (o : Origin) : Prop :=
  Wants (db.clock o) (theirClock req o) ∧ o ∉ req.skipOrigins

instance (db : Db) (req : SyncRequest) (o : Origin) : Decidable (Asks db req o) := by
  unfold Asks
  infer_instance

/-- An origin of which no body is asked takes nothing from the budget. -/
theorem respondOrigin_used {ans : Answer} {o : Origin} (h : ¬ Asks db req o) :
    (respondOrigin cd db req budget ans o).used = ans.used := by
  simp only [respondOrigin]
  rcases judge_eq (db.clock o) (theirClock req o) (decide (o ∈ req.skipOrigins))
      (decide (budget ≤ ans.used))
    with ⟨hv, -⟩ | ⟨hv, -⟩ | ⟨-, -, hv⟩ | ⟨-, -, hv⟩ | ⟨hw, hskip, -⟩ | ⟨hw, hskip, -⟩
  · rw [if_pos hv]
  · rw [hv]
    rfl
  · rw [hv]
    rfl
  · rw [hv]
    rfl
  -- only a body that was asked for is shipped
  · exact absurd ⟨hw, of_decide_eq_false hskip⟩ h
  · exact absurd ⟨hw, of_decide_eq_false hskip⟩ h

variable (cd db req budget) in
/-- Whether the response is at budget when it comes to an origin. -/
def fullAt (os : List Origin) (ans : Answer) (o : Origin) : Bool :=
  decide (budget
    ≤ ((os.takeWhile fun o' => decide (o' ≠ o)).foldl (respondOrigin cd db req budget) ans).used)

theorem foldl_respondOrigin_origins {os : List Origin} (h : os.Nodup) (ans : Answer) :
    (os.foldl (respondOrigin cd db req budget) ans).origins = ans.origins
      ++ os.filterMap fun o => originUpdate cd db req (fullAt cd db req budget os ans o) o := by
  induction os generalizing ans with
  | nil => simp
  | cons o os ih =>
      obtain ⟨hnot, hnodup⟩ := List.nodup_cons.mp h
      have htail : ∀ o' ∈ os, originUpdate cd db req
          (fullAt cd db req budget (o :: os) ans o') o'
            = originUpdate cd db req
              (fullAt cd db req budget os (respondOrigin cd db req budget ans o) o') o' := by
        intro o' ho'
        have hne : o ≠ o' := fun he => hnot (he ▸ ho')
        unfold fullAt
        rw [List.takeWhile_cons, if_pos (decide_eq_true hne)]
        rfl
      have hhead : fullAt cd db req budget (o :: os) ans o = decide (budget ≤ ans.used) := by
        unfold fullAt
        rw [List.takeWhile_cons, if_neg (by simp)]
        rfl
      rw [List.foldl_cons, ih hnodup, respondOrigin_origins, List.filterMap_cons, hhead,
        List.filterMap_congr htail]
      cases originUpdate cd db req (decide (budget ≤ ans.used)) o <;> simp

theorem foldl_respondOrigin_used {os : List Origin} {ans : Answer}
    (h : ∀ o ∈ os, ¬ Asks db req o) :
    (os.foldl (respondOrigin cd db req budget) ans).used = ans.used := by
  induction os generalizing ans with
  | nil => rfl
  | cons o os ih =>
      rw [List.foldl_cons, ih fun o' ho' => h o' (List.mem_cons_of_mem _ ho'),
        respondOrigin_used (h o List.mem_cons_self)]

/-- The first origin whose body is asked for finds the budget unspent. -/
theorem exists_not_full (cd : Codec) {os : List Origin} {o : Origin} (ho : o ∈ os)
    (hasks : Asks db req o) (hbudget : 0 < budget) :
    ∃ o' ∈ os, Asks db req o' ∧ fullAt cd db req budget os {} o' = false := by
  obtain ⟨o', hfind⟩ := Option.isSome_iff_exists.mp (List.find?_isSome
    (p := fun x => decide (Asks db req x)).mpr ⟨o, ho, decide_eq_true hasks⟩)
  obtain ⟨hfirst, before, after, hos, hbefore⟩ := List.find?_eq_some_iff_append.mp hfind
  have hasks' : Asks db req o' := of_decide_eq_true hfirst
  have hnone : ∀ x ∈ before, ¬ Asks db req x := by
    intro x hx
    have := hbefore x hx
    simpa using this
  have hne : ∀ x ∈ before, decide (x ≠ o') = true := by
    intro x hx
    refine decide_eq_true fun he => hnone x hx ?_
    rw [he]
    exact hasks'
  refine ⟨o', hos ▸ List.mem_append_right _ List.mem_cons_self, hasks', ?_⟩
  have htake : (os.takeWhile fun x => decide (x ≠ o')) = before := by
    rw [hos, List.takeWhile_append_of_pos hne, List.takeWhile_cons_of_neg (by simp),
      List.append_nil]
  rw [fullAt, htake, foldl_respondOrigin_used hnone]
  exact decide_eq_false (Nat.not_le.mpr hbudget)

end Response

-- ================================================================ one round

/-- Each update of a response finds its own origin's replica untouched by
the ones before it, and the ones after it leave it alone. -/
theorem takeUpdates_at (nanos : ℕ) (s : Store) {ups : List OriginUpdate}
    (h : (ups.map OriginUpdate.origin).Nodup) :
    (∀ o, o ∉ ups.map OriginUpdate.origin →
        (takeUpdates cd cfg nanos s ups).2.db.replica o = s.db.replica o)
      ∧ ∀ up out, (up, out) ∈ ups.zip (takeUpdates cd cfg nanos s ups).1 →
        ∃ s₁, s₁.db.replica up.origin = s.db.replica up.origin
          ∧ out = (takeUpdate cd cfg nanos s₁ up).1
          ∧ (takeUpdates cd cfg nanos s ups).2.db.replica up.origin
            = (takeUpdate cd cfg nanos s₁ up).2.db.replica up.origin := by
  induction ups generalizing s with
  | nil => exact ⟨fun _ _ => rfl, fun up out hmem => (List.not_mem_nil hmem).elim⟩
  | cons up ups ih =>
      obtain ⟨hnot, hnodup⟩ := List.nodup_cons.mp h
      obtain ⟨hrest, hat⟩ := ih (s := (takeUpdate cd cfg nanos s up).2) hnodup
      refine ⟨fun o ho => ?_, fun up' out hmem => ?_⟩
      · obtain ⟨hne, ho⟩ := not_or.mp (mt List.mem_cons.mpr ho)
        show (takeUpdates cd cfg nanos (takeUpdate cd cfg nanos s up).2 ups).2.db.replica o = _
        rw [hrest o ho, replica_takeUpdate_of_ne nanos s hne]
      · rw [takeUpdates] at hmem
        rcases List.mem_cons.mp hmem with he | hmem
        · obtain ⟨rfl, rfl⟩ := Prod.mk.inj he
          exact ⟨s, rfl, rfl, hrest _ hnot⟩
        · obtain ⟨s₁, hs₁, hout, hfin⟩ := hat up' out hmem
          have hin : up'.origin ∈ ups.map OriginUpdate.origin :=
            List.mem_map_of_mem (List.of_mem_zip hmem).1
          have hne : up'.origin ≠ up.origin := fun he => hnot (he ▸ hin)
          exact ⟨s₁, hs₁.trans (replica_takeUpdate_of_ne nanos s hne), hout, hfin⟩

theorem length_takeUpdates (nanos : ℕ) (s : Store) (ups : List OriginUpdate) :
    (takeUpdates cd cfg nanos s ups).1.length = ups.length := by
  induction ups generalizing s with
  | nil => rfl
  | cons up ups ih => rw [takeUpdates, List.length_cons, ih, List.length_cons]

/-- Every update has its outcome. -/
theorem exists_outcome (cd : Codec) (cfg : Config) (nanos : ℕ) (s : Store)
    {ups : List OriginUpdate} {up : OriginUpdate} (h : up ∈ ups) :
    ∃ out, (up, out) ∈ ups.zip (takeUpdates cd cfg nanos s ups).1 := by
  induction ups generalizing s with
  | nil => cases h
  | cons up' ups ih =>
      rw [takeUpdates]
      rcases List.mem_cons.mp h with rfl | h
      · exact ⟨_, List.mem_cons_self⟩
      · obtain ⟨out, hmem⟩ := ih (takeUpdate cd cfg nanos s up').2 h
        exact ⟨out, List.mem_cons_of_mem _ hmem⟩

theorem gap_eq_zero {c : Clock} {theirs : ℕ × ℕ} : gap c theirs = 0 ↔ ¬ Wants c theirs := by
  rw [gap]
  split
  next hw =>
    refine iff_of_false ?_ (not_not.mpr hw)
    have := hw.2
    split
    · omega
    · omega
  next hw => exact iff_of_true rfl hw

namespace Taken

variable {responder : Db} {skip : List Origin} {o : Origin} {r r' : Replica} {up : OriginUpdate}
  {out : Outcome}

/-- A round leaves a copy as it is or narrows the gap. -/
theorem eq_or_gap_lt (h : Taken responder skip o r up out r') :
    r' = r ∨ gap (responder.clock o) (r'.clock.generation, r'.clock.seq)
      < gap (responder.clock o) (r.clock.generation, r.clock.seq) := by
  cases h with
  | upToDate => exact Or.inl rfl
  | clockOnly => exact Or.inl rfl
  | deferred => exact Or.inl rfl
  | snapshot _ hw =>
      have hzero : gap (responder.clock o) ((responder.clock o).generation,
          (responder.clock o).seq) = 0 := by
        refine gap_eq_zero.mpr fun hw' => ?_
        have hlt := hw'.2
        simp only at hlt
        omega
      refine Or.inr (lt_of_eq_of_lt hzero (Nat.pos_of_ne_zero fun h0 => ?_))
      exact gap_eq_zero.mp h0 hw
  | suffix events _ hne hgen hlen hw =>
      have hpos : 0 < events.length := List.length_pos_iff.mpr hne
      have hseq : r.clock.seq < (responder.clock o).seq := by
        split at hlen
        · omega
        · omega
      right
      rw [gap, gap, if_pos hw, if_pos hgen]
      split
      · simp only [Replica.extend, if_true]
        omega
      · omega

/-- A body that is no deferral moves the clock, when there is anything to
move it to. -/
theorem place_lt (h : Taken responder skip o r up out r') (hbody : up.body ≠ some (.suffix []))
    (hskip : o ∉ skip) (hw : Wants (responder.clock o) (r.clock.generation, r.clock.seq)) :
    r.clock.place < r'.clock.place := by
  cases h with
  | upToDate _ hn => exact absurd hw hn
  | clockOnly _ hin => exact absurd hin hskip
  | deferred _ hnil => exact absurd hnil hbody
  | snapshot => exact Prod.Lex.toLex_lt_toLex.mpr hw.2
  | suffix events _ hne hgen _ =>
      have hpos : 0 < events.length := List.length_pos_iff.mpr hne
      refine Prod.Lex.toLex_lt_toLex.mpr (Or.inr ⟨hgen, ?_⟩)
      simp only [Replica.extend]
      omega

end Taken

/-- What is shipped below budget is no deferral. -/
theorem body_ne_nil {responder : Db} {req : SyncRequest} {o : Origin} {up : OriginUpdate}
    (hup : originUpdate cd responder req false o = some up)
    (hresp : (responder.replica o).Sound) : up.body ≠ some (.suffix []) := by
  rw [originUpdate] at hup
  simp only at hup
  rcases judge_eq (responder.clock o) (theirClock req o) (decide (o ∈ req.skipOrigins)) false
    with ⟨hv, -⟩ | ⟨hv, -⟩ | ⟨-, -, hv⟩ | ⟨-, hf, -⟩ | ⟨hw, -, -, hgen, htail, hv⟩
      | ⟨-, -, -, hv⟩
  · simp [hv] at hup
  · simp only [hv, reduceCtorEq, if_false, Verdict.body, Option.some.injEq] at hup
    subst hup
    simp
  · simp only [hv, reduceCtorEq, if_false, Verdict.body, Option.some.injEq] at hup
    subst hup
    simp
  · cases hf
  · simp only [hv, reduceCtorEq, if_false, Verdict.body, Option.some.injEq] at hup
    subst hup
    have hseq : (theirClock req o).2 < (responder.clock o).seq := by
      have := hw.2
      omega
    have hlen := (seqRun_journalFrom hresp _ htail hseq.le).2
    obtain ⟨k, hk, hpos⟩ :=
      responder.journalSuffix_spec cd o (theirClock req o).2 SUFFIX_BYTES_CAP
    have hne : responder.journalFrom o (theirClock req o).2 ≠ [] := by
      intro hnil
      rw [hnil, List.length_nil] at hlen
      omega
    have hk0 := hpos hne
    rw [hk]
    simp only [ne_eq, Option.some.injEq, Body.suffix.injEq, List.take_eq_nil_iff,
      List.map_eq_nil_iff, not_or]
    exact ⟨by omega, hne⟩
  · simp only [hv, reduceCtorEq, if_false, Verdict.body, Option.some.injEq] at hup
    subst hup
    simp

variable (cd) in
/-- The updates of the response to a request. -/
def answerUpdates (rcfg : Config) (responder : Store) (req : SyncRequest) (budget : ℕ) :
    List OriginUpdate :=
  rcfg.originSet.filterMap fun o =>
    originUpdate cd responder.db req (fullAt cd responder.db req budget rcfg.originSet {} o) o

theorem Config.nodup_originSet : cfg.originSet.Nodup :=
  (ascending_sortDedup _).imp ne_of_lt

section Answer

variable {rcfg : Config} {responder : Store} {req : SyncRequest} {budget : ℕ}

variable (cd rcfg responder req budget) in
/-- A request that asks for no ranges and no facts is answered with them. -/
theorem respondBudgeted_origins (hranges : req.ranges = []) (hmerkle : req.merkle = []) :
    ∃ b, respondBudgeted cd rcfg responder req budget = some b ∧ b.ranges = []
      ∧ b.origins = answerUpdates cd rcfg responder req budget := by
  obtain ⟨clocks, cursor, skip, ranges, merkle⟩ := req
  cases hranges
  cases hmerkle
  exact ⟨_, rfl, rfl, foldl_respondOrigin_origins rcfg.nodup_originSet {}⟩

theorem mem_answerUpdates {up : OriginUpdate}
    (h : up ∈ answerUpdates cd rcfg responder req budget) :
    up.origin ∈ rcfg.originSet ∧ ∃ full, originUpdate cd responder.db req full up.origin
      = some up := by
  obtain ⟨o, ho, hup⟩ := List.mem_filterMap.mp h
  rw [origin_of_originUpdate hup]
  exact ⟨ho, _, hup⟩

variable (cd rcfg responder req budget) in
/-- No origin has two updates. -/
theorem nodup_answerUpdates :
    ((answerUpdates cd rcfg responder req budget).map OriginUpdate.origin).Nodup := by
  have hsub : ((answerUpdates cd rcfg responder req budget).map
      OriginUpdate.origin).Sublist rcfg.originSet := by
    rw [answerUpdates]
    generalize fullAt cd responder.db req budget rcfg.originSet {} = full
    induction rcfg.originSet with
    | nil => exact List.Sublist.slnil
    | cons o os ih =>
        rw [List.filterMap_cons]
        cases hup : originUpdate cd responder.db req (full o) o with
        | none => exact ih.cons o
        | some up =>
            rw [List.map_cons, origin_of_originUpdate hup]
            exact ih.cons_cons o
  exact hsub.nodup rcfg.nodup_originSet

/-- An origin the response says nothing of lacks nothing. -/
theorem not_wants_of_silent {o : Origin} (ho : o ∈ rcfg.originSet)
    (h : o ∉ (answerUpdates cd rcfg responder req budget).map OriginUpdate.origin) :
    ¬ Wants (responder.db.clock o) (theirClock req o) := by
  intro hw
  cases hup : originUpdate cd responder.db req
      (fullAt cd responder.db req budget rcfg.originSet {} o) o with
  | some up =>
      refine h (List.mem_map.mpr ⟨up, List.mem_filterMap.mpr ⟨o, ho, hup⟩, ?_⟩)
      exact origin_of_originUpdate hup
  | none =>
      rw [originUpdate] at hup
      simp only [ite_eq_left_iff, reduceCtorEq, imp_false, not_not] at hup
      rcases judge_eq (responder.db.clock o) (theirClock req o) (decide (o ∈ req.skipOrigins))
          (fullAt cd responder.db req budget rcfg.originSet {} o)
        with ⟨-, hn⟩ | ⟨-, hn⟩ | ⟨-, -, hv⟩ | ⟨-, -, hv⟩ | ⟨-, -, -, -, -, hv⟩ | ⟨-, -, -, hv⟩
      · exact hn hw
      · exact hn hw
      · exact Verdict.noConfusion (hv.symm.trans hup)
      · exact Verdict.noConfusion (hv.symm.trans hup)
      · exact Verdict.noConfusion (hv.symm.trans hup)
      · exact Verdict.noConfusion (hv.symm.trans hup)

variable (cd) in
/-- If a body is asked for, one is shipped that is no deferral. -/
theorem exists_shipped {o : Origin} (ho : o ∈ rcfg.originSet)
    (hasks : Asks responder.db req o) (hbudget : 0 < budget) :
    ∃ up ∈ answerUpdates cd rcfg responder req budget, up.origin ∈ rcfg.originSet
      ∧ Asks responder.db req up.origin
      ∧ originUpdate cd responder.db req false up.origin = some up := by
  obtain ⟨o', ho', hasks', hfull⟩ := exists_not_full cd ho hasks hbudget
  have hmem : o' ∈ (answerUpdates cd rcfg responder req budget).map OriginUpdate.origin :=
    not_not.mp fun hnot => not_wants_of_silent ho' hnot hasks'.1
  obtain ⟨up, hup, rfl⟩ := List.mem_map.mp hmem
  obtain ⟨o, -, hupd⟩ := List.mem_filterMap.mp hup
  obtain rfl : up.origin = o := origin_of_originUpdate hupd
  rw [hfull] at hupd
  exact ⟨up, hup, ho', hasks', hupd⟩

end Answer

theorem sentClock_of_takes {db : Db} {o : Origin} (h : cfg.takes o) :
    sentClock cfg db o = ((db.clock o).generation, (db.clock o).seq) :=
  if_pos (of_decide_eq_true h.2)

theorem sentClock_self (db : Db) :
    sentClock cfg db cfg.selfName
      = ((db.clock cfg.selfName).generation, (db.clock cfg.selfName).seq) :=
  if_pos (Config.mem_originSet.mpr (Or.inl rfl))

section OneRound

variable {rcfg : Config} {responder s : Store} {cursor : Bytes} {skip : List Origin}
  {budget nanos : ℕ}

variable (cd cfg rcfg responder s cursor skip budget nanos) in
/-- A round is the updates of its answer, taken by a store whose replicas
are ours. -/
theorem pullRound_eq :
    let ups := answerUpdates cd rcfg responder (roundRequest cfg s cursor skip) budget
    ∃ s₀ : Store, (∀ o, s₀.db.replica o = s.db.replica o)
      ∧ pullRound cd cfg rcfg responder s cursor skip budget nanos
        = (ups, takeUpdates cd cfg nanos s₀ ups) := by
  obtain ⟨b, hb, -, horigins⟩ := respondBudgeted_origins cd rcfg responder
    (roundRequest cfg s cursor skip) budget rfl rfl
  refine ⟨(mergeAttests cd s b.attests).2, fun o => replica_mergeAttests s b.attests o, ?_⟩
  rw [pullRound, hb, ← horigins]

/-- What one round does, at every origin the requester takes. -/
structure RoundOk (cfg rcfg : Config) (responder s : Store) (skip : List Origin)
    (ups : List OriginUpdate) (outs : List Outcome) (s' : Store) : Prop where
  length : outs.length = ups.length
  taken : ∀ up out, (up, out) ∈ ups.zip outs → cfg.takes up.origin →
    Taken responder.db skip up.origin (s.db.replica up.origin) up out
      (s'.db.replica up.origin)
  silent : ∀ o, cfg.takes o → o ∉ ups.map OriginUpdate.origin →
    s'.db.replica o = s.db.replica o
      ∧ (o ∈ rcfg.originSet → ¬ Wants (responder.db.clock o) (sentClock cfg s.db o))
  advances : (∃ o ∈ rcfg.originSet, cfg.takes o ∧ o ∉ skip
      ∧ Wants (responder.db.clock o) (sentClock cfg s.db o)) →
    (∀ o ∈ rcfg.originSet, o ∉ skip → Wants (responder.db.clock o) (sentClock cfg s.db o) →
      cfg.takes o) →
    ∃ o ∈ rcfg.originSet, cfg.takes o ∧ (s.db.clock o).place < (s'.db.clock o).place

theorem roundOk_pullRound (hresp : ∀ o, (responder.db.replica o).Sound) (hbudget : 0 < budget) :
    let round := pullRound cd cfg rcfg responder s cursor skip budget nanos
    RoundOk cfg rcfg responder s skip round.1 round.2.1 round.2.2 := by
  obtain ⟨s₀, hs₀, hround⟩ := pullRound_eq cd cfg rcfg responder s cursor skip budget nanos
  set req := roundRequest cfg s cursor skip with hreq
  set ups := answerUpdates cd rcfg responder req budget with hups
  have htheirs : ∀ o, theirClock req o = sentClock cfg s.db o :=
    theirClock_roundRequest s cursor skip
  obtain ⟨hrest, hat⟩ := takeUpdates_at nanos s₀ (nodup_answerUpdates cd rcfg responder req budget)
  intro round
  rw [show round = _ from hround]
  have htaken : ∀ up out, (up, out) ∈ ups.zip (takeUpdates cd cfg nanos s₀ ups).1 →
      cfg.takes up.origin →
      Taken responder.db skip up.origin (s.db.replica up.origin) up out
        ((takeUpdates cd cfg nanos s₀ ups).2.db.replica up.origin) := by
    intro up out hmem hup
    obtain ⟨s₁, hs₁, hout, hfin⟩ := hat up out hmem
    obtain ⟨-, full, hfull⟩ := mem_answerUpdates (List.of_mem_zip hmem).1
    have hs : s₁.db.replica up.origin = s.db.replica up.origin := hs₁.trans (hs₀ _)
    rw [hout, hfin, ← hs]
    refine taken_takeUpdate _ _ hfull hup (hresp _) ?_
    rw [htheirs, sentClock_of_takes hup, ← Db.replica_clock, ← hs]
    rfl
  constructor
  · exact length_takeUpdates nanos s₀ _
  · exact htaken
  · intro o _ hnot
    exact ⟨(hrest o hnot).trans (hs₀ o), fun ho => htheirs o ▸ not_wants_of_silent ho hnot⟩
  · rintro ⟨o, ho, -, hskip, hw⟩ hall
    rw [← htheirs] at hw
    obtain ⟨up, hup, ho', hasks', hupd⟩ := exists_shipped cd ho ⟨hw, hskip⟩ hbudget
    have hw' : Wants (responder.db.clock up.origin) (sentClock cfg s.db up.origin) :=
      htheirs up.origin ▸ hasks'.1
    have htakes := hall up.origin ho' hasks'.2 hw'
    obtain ⟨out, hzip⟩ := exists_outcome cd cfg nanos s₀ hup
    rw [sentClock_of_takes htakes] at hw'
    exact ⟨up.origin, ho', htakes,
      (htaken up out hzip htakes).place_lt (body_ne_nil hupd (hresp _)) hasks'.2 hw'⟩

variable (cd cfg rcfg responder s cursor skip budget nanos) in
/-- A round leaves our own clock alone when the responder lacks nothing of
us, and otherwise moves it to a generation minted above the responder's. -/
theorem own_clock_pullRound :
    let c := (pullRound cd cfg rcfg responder s cursor skip budget nanos).2.2.db.clock cfg.selfName
    let known := responder.db.clock cfg.selfName
    let ours := s.db.clock cfg.selfName
    (c = ours ∧ (cfg.selfName ∈ rcfg.originSet → ¬ Wants known (ours.generation, ours.seq)))
      ∨ (Wants known (ours.generation, ours.seq) ∧ c.seq = ours.seq
        ∧ c.generation = remintGeneration known.generation nanos) := by
  obtain ⟨s₀, hs₀, hround⟩ := pullRound_eq cd cfg rcfg responder s cursor skip budget nanos
  set req := roundRequest cfg s cursor skip with hreq
  set ups := answerUpdates cd rcfg responder req budget with hups
  have htheirs : theirClock req cfg.selfName = ((s.db.clock cfg.selfName).generation,
      (s.db.clock cfg.selfName).seq) :=
    (theirClock_roundRequest s cursor skip _).trans (sentClock_self s.db)
  obtain ⟨hrest, hat⟩ := takeUpdates_at nanos s₀ (nodup_answerUpdates cd rcfg responder req budget)
  rw [hround]
  intro c known ours
  by_cases hin : cfg.selfName ∈ ups.map OriginUpdate.origin
  · obtain ⟨up, hup, hname⟩ := List.mem_map.mp hin
    obtain ⟨out, hzip⟩ := exists_outcome cd cfg nanos s₀ hup
    obtain ⟨s₁, hs₁, -, hfin⟩ := hat up out hzip
    obtain ⟨-, full, hfull⟩ := mem_answerUpdates hup
    rw [hname] at hfull hfin hs₁
    have hours : s₁.db.clock cfg.selfName = ours := congrArg Replica.clock (hs₁.trans (hs₀ _))
    have hlabel : known.generation ≠ 0 ∧ up.generation = known.generation
        ∧ up.seq = known.seq := by
      rw [originUpdate] at hfull
      simp only at hfull
      split at hfull
      · cases hfull
      next hsilent =>
        cases hfull
        exact ⟨fun hzero => hsilent (if_pos hzero), rfl, rfl⟩
    have hc : c = (takeUpdate cd cfg nanos s₁ up).2.db.clock cfg.selfName :=
      congrArg Replica.clock hfin
    rw [takeUpdate, if_pos hname] at hc
    simp only [hours, hlabel.2.1, hlabel.2.2] at hc
    split at hc
    next hfuture =>
      refine Or.inr ⟨⟨hlabel.1, hfuture.imp_right fun h => ⟨h.1.symm, h.2⟩⟩, ?_⟩
      rw [← Db.replica_clock, replica_bumpSelfGeneration, if_pos rfl] at hc
      rw [hc, ← hours]
      exact ⟨rfl, rfl⟩
    next hfuture =>
      refine Or.inl ⟨hc.trans hours, fun _ hw => hfuture ?_⟩
      exact hw.2.imp_right fun h => ⟨h.1.symm, h.2⟩
  · have hc : c = ours := congrArg Replica.clock ((hrest _ hin).trans (hs₀ _))
    exact Or.inl ⟨hc, fun ho => htheirs ▸ not_wants_of_silent ho hin⟩

/-- The responder does not hold our own origin at the last generation
there is with a number above ours. -/
def Remintable (known ours : Clock) : Prop :=
  known.generation < U64_MAX ∨ (known.generation = U64_MAX ∧ known.seq ≤ ours.seq)

instance (known ours : Clock) : Decidable (Remintable known ours) := by
  unfold Remintable
  infer_instance

/-- After a round the responder has no future of our own origin: if it
had one, the round reminted above it. -/
theorem not_wants_self (hself : cfg.selfName ∈ rcfg.originSet)
    (hroom : Remintable (responder.db.clock cfg.selfName) (s.db.clock cfg.selfName)) :
    let c := (pullRound cd cfg rcfg responder s cursor skip budget nanos).2.2.db.clock cfg.selfName
    ¬ Wants (responder.db.clock cfg.selfName) (c.generation, c.seq) := by
  intro c
  rcases own_clock_pullRound cd cfg rcfg responder s cursor skip budget nanos
    with ⟨hc, hnot⟩ | ⟨hw, hseq, hgen⟩
  · rw [show c = s.db.clock cfg.selfName from hc]
    exact hnot hself
  · intro hw'
    have hlt := hw'.2
    have hbefore := hw.2
    simp only at hlt hbefore
    rw [show c.seq = _ from hseq, show c.generation = _ from hgen, remintGeneration] at hlt
    rw [Remintable] at hroom
    generalize U64_MAX = last at hlt hroom
    rcases hroom with hroom | ⟨hlast, hroom⟩
    · omega
    · omega

end OneRound

-- ================================================================= many rounds

variable (cd cfg) in
/-- Rounds one after the other that skip nothing, against a responder that
stays as it is. -/
def rounds (rcfg : Config) (responder s : Store) (cursor : ℕ → Bytes)
    (budget nanos : ℕ → ℕ) : ℕ → Store
  | 0 => s
  | n + 1 =>
      (pullRound cd cfg rcfg responder (rounds rcfg responder s cursor budget nanos n)
        (cursor n) [] (budget n) (nanos n)).2.2

/-- A sequence of numbers that falls until something holds gets there. -/
theorem exists_of_falling (μ : ℕ → ℕ) (P : ℕ → Prop)
    (h : ∀ n, ¬ P n → μ (n + 1) < μ n) : ∃ n, P n := by
  by_contra hnone
  have hfall : StrictAnti μ :=
    strictAnti_nat_of_succ_lt fun n => h n fun hn => hnone ⟨n, hn⟩
  exact not_strictAnti_of_wellFoundedLT μ hfall

section Rounds

variable {rcfg : Config} {responder s : Store} {cursor : ℕ → Bytes} {budget nanos : ℕ → ℕ}

/-- What the responder still has, over all origins the requester takes. -/
def backlog (rcfg : Config) (responder : Store) (cfg : Config) (s : Store) : ℕ :=
  ((rcfg.originSet.filter fun o => decide (cfg.takes o)).map fun o =>
    gap (responder.db.clock o) (sentClock cfg s.db o)).sum

/-- No round widens a gap. -/
theorem RoundOk.gap_le {skip : List Origin} {ups : List OriginUpdate} {outs : List Outcome}
    {s' : Store} (h : RoundOk cfg rcfg responder s skip ups outs s') {o : Origin} (ho : cfg.takes o) :
    s'.db.replica o = s.db.replica o
      ∨ gap (responder.db.clock o) (sentClock cfg s'.db o)
        < gap (responder.db.clock o) (sentClock cfg s.db o) := by
  rw [sentClock_of_takes ho, sentClock_of_takes ho]
  by_cases hin : o ∈ ups.map OriginUpdate.origin
  · obtain ⟨up, hup, rfl⟩ := List.mem_map.mp hin
    obtain ⟨i, hi, hget⟩ := List.mem_iff_getElem.mp hup
    have hi' : i < outs.length := h.length ▸ hi
    have hmem : (up, outs[i]) ∈ ups.zip outs := by
      rw [List.mem_iff_getElem]
      refine ⟨i, ?_, ?_⟩
      · rw [List.length_zip, h.length, Nat.min_self]
        exact hi
      · rw [List.getElem_zip, hget]
    exact (h.taken up _ hmem ho).eq_or_gap_lt
  · exact Or.inl (h.silent o ho hin).1

/-- A round that advances an origin leaves less to do. -/
theorem RoundOk.backlog_lt {skip : List Origin} {ups : List OriginUpdate} {outs : List Outcome}
    {s' : Store} (h : RoundOk cfg rcfg responder s skip ups outs s') {o : Origin}
    (ho : o ∈ rcfg.originSet) (htakes : cfg.takes o) (hlt : (s.db.clock o).place < (s'.db.clock o).place) :
    backlog rcfg responder cfg s' < backlog rcfg responder cfg s := by
  refine List.sum_lt_sum _ _ (fun o' ho' => ?_) ⟨o, ?_, ?_⟩
  · have ho' : cfg.takes o' := of_decide_eq_true (List.mem_filter.mp ho').2
    rcases h.gap_le ho' with he | hgap
    · rw [sentClock_of_takes ho', sentClock_of_takes ho',
        show s'.db.clock o' = s.db.clock o' from congrArg Replica.clock he]
    · exact hgap.le
  · exact List.mem_filter.mpr ⟨ho, decide_eq_true htakes⟩
  · rcases h.gap_le htakes with he | hgap
    · rw [show s'.db.clock o = s.db.clock o from congrArg Replica.clock he] at hlt
      exact absurd hlt (lt_irrefl _)
    · exact hgap

/-- What lacks nothing goes on lacking nothing. -/
theorem RoundOk.not_wants {skip : List Origin} {ups : List OriginUpdate} {outs : List Outcome}
    {s' : Store} (h : RoundOk cfg rcfg responder s skip ups outs s') {o : Origin} (ho : cfg.takes o)
    (hw : ¬ Wants (responder.db.clock o) (sentClock cfg s.db o)) :
    ¬ Wants (responder.db.clock o) (sentClock cfg s'.db o) := by
  rcases h.gap_le ho with he | hgap
  · rw [sentClock_of_takes ho] at hw ⊢
    rw [show s'.db.clock o = s.db.clock o from congrArg Replica.clock he]
    exact hw
  · rw [gap_eq_zero.mpr hw] at hgap
    exact absurd hgap (Nat.not_lt_zero _)

/-- No round moves our own number. -/
theorem own_seq_rounds (n : ℕ) :
    ((rounds cd cfg rcfg responder s cursor budget nanos n).db.clock cfg.selfName).seq
      = (s.db.clock cfg.selfName).seq := by
  induction n with
  | zero => rfl
  | succ n ih =>
      rcases own_clock_pullRound cd cfg rcfg responder
          (rounds cd cfg rcfg responder s cursor budget nanos n) (cursor n) [] (budget n) (nanos n)
        with ⟨hc, -⟩ | ⟨-, hseq, -⟩
      · exact (congrArg Clock.seq hc).trans ih
      · exact hseq.trans ih

/-- Every round does what it should, and against a responder that knows
no origin the requester does not, they end. -/
theorem rounds_catch_up (hresp : ∀ o, (responder.db.replica o).Sound)
    (hbudget : ∀ n, 0 < budget n) :
    (∀ n, let s := rounds cd cfg rcfg responder s cursor budget nanos n
        let round := pullRound cd cfg rcfg responder s (cursor n) [] (budget n) (nanos n)
        RoundOk cfg rcfg responder s [] round.1 round.2.1 round.2.2)
      ∧ ((∀ o ∈ rcfg.originSet, cfg.isKnownOrigin o = true) →
        Remintable (responder.db.clock cfg.selfName) (s.db.clock cfg.selfName) →
        ∃ N, ∀ n ≥ N, ∀ o ∈ rcfg.originSet, cfg.takes o →
          (responder.db.clock o).generation = 0
            ∨ (responder.db.clock o).place
              ≤ ((rounds cd cfg rcfg responder s cursor budget nanos n).db.clock o).place) := by
  have hok : ∀ n, let s := rounds cd cfg rcfg responder s cursor budget nanos n
      let round := pullRound cd cfg rcfg responder s (cursor n) [] (budget n) (nanos n)
      RoundOk cfg rcfg responder s [] round.1 round.2.1 round.2.2 :=
    fun n => roundOk_pullRound hresp (hbudget n)
  refine ⟨hok, fun hknown hroom => ?_⟩
  let σ := rounds cd cfg rcfg responder s cursor budget nanos
  -- round one disposes of a future of our own origin
  have htakes : ∀ n, ∀ o ∈ rcfg.originSet,
      Wants (responder.db.clock o) (sentClock cfg (σ (n + 1)).db o) → cfg.takes o := by
    intro n o ho hw
    refine ⟨fun hself => ?_, hknown o ho⟩
    subst hself
    rw [sentClock_self] at hw
    have hroom : Remintable (responder.db.clock cfg.selfName) ((σ n).db.clock cfg.selfName) := by
      rw [Remintable, own_seq_rounds]
      exact hroom
    exact not_wants_self ho hroom hw
  obtain ⟨N, hN⟩ := exists_of_falling
    (fun n => backlog rcfg responder cfg (σ (n + 1)))
    (fun n => ∀ o ∈ rcfg.originSet, cfg.takes o →
      ¬ Wants (responder.db.clock o) (sentClock cfg (σ (n + 1)).db o))
    (fun n hnot => by
      push Not at hnot
      obtain ⟨o, ho, hto, hw⟩ := hnot
      obtain ⟨o', ho', hto', hlt⟩ := (hok (n + 1)).advances
        ⟨o, ho, hto, List.not_mem_nil, hw⟩ fun o ho _ => htakes n o ho
      exact (hok (n + 1)).backlog_lt ho' hto' hlt)
  have hstay : ∀ k, ∀ o ∈ rcfg.originSet, cfg.takes o →
      ¬ Wants (responder.db.clock o) (sentClock cfg (σ (N + 1 + k)).db o) := by
    intro k
    induction k with
    | zero => exact hN
    | succ k ih => exact fun o ho hto => (hok (N + 1 + k)).not_wants hto (ih o ho hto)
  refine ⟨N + 1, fun n hn o ho hto => ?_⟩
  have hw := hstay (n - (N + 1)) o ho hto
  rw [Nat.add_sub_cancel' hn, sentClock_of_takes hto] at hw
  by_cases hzero : (responder.db.clock o).generation = 0
  · exact Or.inl hzero
  · right
    rw [← not_lt]
    intro hlt
    exact hw ⟨hzero, Prod.Lex.toLex_lt_toLex.mp hlt⟩

end Rounds

-- ======================================================== what is not promised

/-- Node 1 asks node 2, which knows a later life of node 1 and a snapshot
of node 3. -/
def asking : Config := ⟨⟨[1], by decide⟩, [⟨[2], by decide⟩, ⟨[3], by decide⟩]⟩

def answering : Config := ⟨⟨[2], by decide⟩, [⟨[1], by decide⟩, ⟨[3], by decide⟩]⟩

theorem length_oneHash : (List.replicate 32 (0 : UInt8)).length = 32 := rfl

def oneHash : NarHash := ⟨List.replicate 32 0, length_oneHash⟩

def remembering : Store :=
  ((({} : Store).replaceHoldings ⟨[1], by decide⟩ 5 1 [oneHash]).2.replaceHoldings
    ⟨[3], by decide⟩ 1 1 [oneHash]).2

theorem sound_remembering (o : Origin) : (remembering.db.replica o).Sound := by
  rw [remembering, replica_replaceHoldings]
  split
  · exact Replica.Sound.replace 1 1 _
  rw [replica_replaceHoldings]
  split
  · exact Replica.Sound.replace 5 1 _
  · exact ⟨le_rfl, fun n hlo hhi => absurd (lt_of_lt_of_le hlo hhi) (lt_irrefl _),
      fun _ _ => rfl⟩

theorem remembered_rounds_catch_up :
    ∃ N, ∀ n ≥ N, ∀ o ∈ answering.originSet, asking.takes o →
      (remembering.db.clock o).generation = 0
        ∨ (remembering.db.clock o).place
          ≤ ((rounds Codec.plain asking answering remembering (openIndex asking {} 1)
              (fun _ => []) (fun _ => 1) (fun _ => 2) n).db.clock o).place :=
  (rounds_catch_up sound_remembering fun _ => Nat.one_pos).2 (by decide +kernel)
    (by decide +kernel)

/-- A body for the requester's own origin spends the whole budget, and no
other origin advances. -/
theorem own_body_starves_the_rest :
    (∀ o, (remembering.db.replica o).Sound)
      ∧ (∃ o, asking.takes o ∧ o ∈ answering.originSet
        ∧ Wants (remembering.db.clock o) (sentClock asking (openIndex asking {} 1).db o))
      ∧ ∀ o, o ≠ asking.selfName →
        ((pullRound Codec.plain asking answering remembering (openIndex asking {} 1)
            [] [] 1 2).2.2.db.replica o).clock
          = ((openIndex asking {} 1).db.replica o).clock := by
  have hthree : asking.takes ⟨[3], by decide⟩ := by decide +kernel
  refine ⟨sound_remembering, ⟨⟨[3], by decide⟩, hthree, by decide +kernel, by decide +kernel⟩,
    fun o ho => ?_⟩
  obtain ⟨s₀, hs₀, hround⟩ := pullRound_eq Codec.plain asking answering
    remembering (openIndex asking {} 1) [] [] 1 2
  have hups : (answerUpdates Codec.plain answering remembering
      (roundRequest asking (openIndex asking {} 1) [] []) 1).map OriginUpdate.origin
        = [⟨[1], by decide⟩, ⟨[3], by decide⟩] := by decide +kernel
  by_cases he : o = ⟨[3], by decide⟩
  · subst he
    decide +kernel
  · rw [hround]
    have hnot : o ∉ (answerUpdates Codec.plain answering remembering
        (roundRequest asking (openIndex asking {} 1) [] []) 1).map OriginUpdate.origin := by
      rw [hups]
      simp only [List.mem_cons, List.not_mem_nil, or_false, not_or]
      exact ⟨ho, he⟩
    rw [(takeUpdates_at _ _ (nodup_answerUpdates Codec.plain answering remembering
      (roundRequest asking (openIndex asking {} 1) [] []) 1)).1 o hnot, hs₀]

end Narshare
