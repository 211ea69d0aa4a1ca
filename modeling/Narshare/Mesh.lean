/-
The mesh: any number of nodes, each an index over its store, exchanging
replies that may be relayed, reordered, delayed and repeated.

# The model

A state is every node's store and the list of all replies ever produced.
`apply` picks any of them, at any node, any number of times, so the
network needs no more structure than that; a third node's answer is as
good as the origin's. Generations of an origin only grow — the guards of
`remint` and `lose` — as the wall clock and the remint floor make them.

`log o g` is ghost state: the events `o` has had under generation `g`.
An export appends to it, a remint copies it to the new generation, and
no step reads it.

# The argument

Every copy of an origin follows its log (`Follows`, Index/Log.lean), and
so does everything in flight (`ReplyOk`): the events of a suffix or a
range sit in the log at their own numbers, a snapshot is a replay.
Applying a reply to a copy that follows the log gives one that does,
whatever the two clocks are, because both are pinned to the same log.
-/
import Mathlib.Logic.Function.Basic
import Narshare.Index.Log
import Narshare.Lib.System

namespace Narshare

variable (cd : Codec) (peers : Origin → List Origin)

-- ================================================================ the states

/-- A reply that can be applied. -/
inductive Reply
  | update (up : OriginUpdate)
  | range (r : RangeReply)

/-- The nodes, the replies in flight, and what each origin has said. -/
structure Mesh where
  node : Origin → Store
  log : Origin → EventLog
  gen : Origin → ℕ
  net : List Reply

/-- The configuration of node `n`. -/
def nodeConfig (n : Origin) : Config := ⟨n, peers n⟩

@[simp] theorem nodeConfig_selfName (n : Origin) : (nodeConfig peers n).selfName = n := rfl

/-- Apply a reply to a store: by suffix or by snapshot, whichever its
body is. -/
def applyReply (cfg : Config) (s : Store) : Reply → Store
  | .update up =>
      match up.body with
      | some (.suffix events) =>
          match applySuffix cd cfg s up.origin up.generation events with
          | .ok (_, s') => s'
          | .error _ => s
      | some (.snapshot held) =>
          match applySnapshot cfg s up.origin up.generation up.seq held with
          | .ok (_, s') => s'
          | .error _ => s
      | _ => s
  | .range r =>
      match applySuffix cd cfg s r.origin r.generation r.events with
      | .ok (_, s') => s'
      | .error _ => s

namespace Mesh

/-- What can happen. -/
inductive Act
  | exportOps (n : Origin) (attests : List Attestation) (holds : List HoldOp)
  | remint (n : Origin) (floor nanos : ℕ)
  | lose (n : Origin) (nanos : ℕ)
  | answer (n : Origin) (req : SyncRequest)
  | apply (n : Origin) (i : ℕ)
  | mergeAttests (n : Origin) (attests : List Attestation)
  | recordWatermarks (n peer : Origin) (clocks : List OriginClock)
  | compact (n : Origin)

/-- The guarded step. -/
def step (m : Mesh) : Act → Option Mesh
  | .exportOps n attests holds =>
      let c := (m.node n).db.clock n
      let said := exportEvents c.seq (exportList attests holds)
      some { m with
        node := Function.update m.node n
          (exportOps cd (nodeConfig peers n) (m.node n) attests holds).2
        log := Function.update m.log n
          (Function.update (m.log n) c.generation (m.log n c.generation ++ said)) }
  | .remint n floor nanos =>
      let done := bumpSelfGeneration (nodeConfig peers n) (m.node n) floor nanos
      if m.gen n < done.1 then
        some { m with
          node := Function.update m.node n done.2
          log := Function.update m.log n
            (Function.update (m.log n) done.1 (m.log n (m.gen n)))
          gen := Function.update m.gen n done.1 }
      else none
  | .lose n nanos =>
      if m.gen n < nanos then
        some { m with
          node := Function.update m.node n (openIndex (nodeConfig peers n) {} nanos)
          gen := Function.update m.gen n nanos }
      else none
  | .answer n req =>
      (respond cd (nodeConfig peers n) (m.node n) req).map fun b =>
        { m with net := m.net ++ b.origins.map Reply.update ++ b.ranges.map Reply.range }
  | .apply n i =>
      m.net[i]?.map fun reply =>
        { m with
          node := Function.update m.node n
            (applyReply cd (nodeConfig peers n) (m.node n) reply) }
  | .mergeAttests n attests =>
      some { m with
        node := Function.update m.node n (Narshare.mergeAttests cd (m.node n) attests).2 }
  | .recordWatermarks n peer clocks =>
      some { m with
        node := Function.update m.node n
          (Narshare.recordWatermarks (nodeConfig peers n) (m.node n) peer clocks) }
  | .compact n =>
      some { m with
        node := Function.update m.node n
          (Narshare.compact (nodeConfig peers n) (m.node n)) }

/-- Every node just opened over an empty store. -/
def boot (nanos : Origin → ℕ) : Mesh where
  node n := openIndex (nodeConfig peers n) {} (nanos n)
  log _ _ := []
  gen := nanos
  net := []

end Mesh

/-- The mesh as a transition system. -/
def meshSystem : System Mesh Mesh.Act where
  init m := ∃ nanos : Origin → ℕ, (∀ n, 0 < nanos n) ∧ m = Mesh.boot peers nanos
  step m a := m.step cd peers a

-- ============================================================ the invariant

variable {cd peers}

/-- A reply says of its origin what its log says. -/
def ReplyOk (log : Origin → EventLog) : Reply → Prop
  | .update up =>
      match up.body with
      | some (.suffix events) =>
          ∀ e ∈ events, (log up.origin up.generation)[e.seq - 1]? = some e
      | some (.snapshot held) =>
          up.seq ≤ (log up.origin up.generation).length
            ∧ ∀ h, h ∈ held.filterMap NarHash.tryFrom ↔
              replay ((log up.origin up.generation).take up.seq) h = true
      | _ => True
  | .range r => ∀ e ∈ r.events, (log r.origin r.generation)[e.seq - 1]? = some e

/-- The origin and generation a reply is about. -/
def Reply.label : Reply → Origin × ℕ
  | .update up => (up.origin, up.generation)
  | .range r => (r.origin, r.generation)

/-- A log that only grew at its end says everything it said. -/
theorem ReplyOk.of_log {log log' : Origin → EventLog} {reply : Reply} (h : ReplyOk log reply)
    (hp : log reply.label.1 reply.label.2 <+: log' reply.label.1 reply.label.2) :
    ReplyOk log' reply := by
  have hget : ∀ (l l' : List Event), l <+: l' → ∀ e : Event,
      l[e.seq - 1]? = some e → l'[e.seq - 1]? = some e := by
    rintro l l' ⟨t, rfl⟩ e he
    obtain ⟨hlt, -⟩ := List.getElem?_eq_some_iff.mp he
    rw [List.getElem?_append_left hlt, he]
  cases reply with
  | update up =>
      obtain ⟨o, g, s, body, truncated⟩ := up
      match body with
      | none => trivial
      | some .upToDate => trivial
      | some (.suffix events) => exact fun e he => hget _ _ hp e (h e he)
      | some (.snapshot held) =>
          obtain ⟨hlen, hheld⟩ := h
          obtain ⟨t, ht⟩ := hp
          simp only [Reply.label] at ht
          refine ⟨?_, fun x => ?_⟩
          · rw [← ht, List.length_append]
            exact hlen.trans (Nat.le_add_right _ _)
          · rw [hheld, ← ht, List.take_append_of_le_length hlen]
  | range r => exact fun e he => hget _ _ hp e (h e he)

/-- The invariant of the mesh. -/
structure Mesh.Inv (m : Mesh) : Prop where
  pos : ∀ o, 0 < m.gen o
  zero : ∀ o, m.log o 0 = []
  fresh : ∀ o g, m.gen o < g → m.log o g = []
  numbered : ∀ o g, SeqRun Event.seq 0 (m.log o g)
  follows : ∀ n o, Follows (m.log o) ((m.node n).db.replica o)
  known : ∀ n o, ((m.node n).db.clock o).generation ≤ m.gen o
  ownGen : ∀ n, ((m.node n).db.clock n).generation = m.gen n
  ownSeq : ∀ n, ((m.node n).db.clock n).seq = (m.log n (m.gen n)).length
  net : ∀ reply ∈ m.net, ReplyOk m.log reply ∧ reply.label.2 ≤ m.gen reply.label.1

-- ========================================================= replies are right

section Answers

variable {cfg : Config} {s : Store} {log : Origin → EventLog}

/-- Journal events sit in the log at their own numbers. -/
theorem Follows.inLog {log : EventLog} {db : Db} {o : Origin}
    (h : Follows log (db.replica o))
    (hnum : SeqRun Event.seq 0 (log (db.clock o).generation)) {after cap : ℕ} {e : Event}
    (he : e ∈ (db.journalSuffix cd o after cap).1) :
    (log (db.clock o).generation)[e.seq - 1]? = some e := by
  obtain ⟨k, hk, -⟩ := db.journalSuffix_spec cd o after cap
  rw [hk] at he
  obtain ⟨⟨n, e'⟩, hmem, rfl⟩ := List.mem_map.mp (List.mem_of_mem_take he)
  obtain ⟨hin, hget⟩ := (h.journal n e').mp (Db.mem_journalFrom.mp hmem).2
  have hn : e'.seq = n := by
    rw [hnum.num_get hget]
    simp only [Db.replica_clock] at hin
    omega
  rw [hn]
  exact hget

theorem replyOk_shipped (h : ∀ o, Follows (log o) (s.db.replica o))
    (hnum : ∀ o g, SeqRun Event.seq 0 (log o g)) {up : OriginUpdate}
    (hup : Shipped cd s.db up) : ReplyOk log (.update up) := by
  obtain ⟨hg, hs, theirs, skipped, full, -, hbody⟩ := hup
  obtain ⟨o, g, seq, body, truncated⟩ := up
  simp only at hg hs hbody
  subst hg hs
  cases hv : judge (s.db.clock o) theirs skipped full <;> rw [hv] at hbody <;> cases hbody
  · trivial
  · trivial
  · trivial
  · exact fun e he => (List.not_mem_nil he).elim
  · exact fun e he => (h o).inLog (hnum o _) he
  · refine ⟨(h o).seq_le, fun x => ?_⟩
    rw [NarHash.filterMap_tryFrom, mem_holdings]
    exact (congrArg (· = true) ((h o).held x)).to_iff

theorem replyOk_range (h : ∀ o, Follows (log o) (s.db.replica o))
    (hnum : ∀ o g, SeqRun Event.seq 0 (log o g)) (ask : RangeAsk) :
    ReplyOk log (.range (respondRange cd s.db ask))
      ∧ (respondRange cd s.db ask).generation
        = (s.db.clock (respondRange cd s.db ask).origin).generation := by
  rw [respondRange]
  split
  · refine ⟨fun e he => ?_, rfl⟩
    exact (h ask.origin).inLog (hnum _ _) ((List.takeWhile_prefix _).subset he)
  · exact ⟨fun e he => (List.not_mem_nil he).elim, rfl⟩

/-- Everything a node answers is right, under a generation it knows. -/
theorem replyOk_respond (h : ∀ o, Follows (log o) (s.db.replica o))
    (hnum : ∀ o g, SeqRun Event.seq 0 (log o g)) {req : SyncRequest} {b : RespondBundle}
    (hb : respond cd cfg s req = some b) :
    ∀ reply ∈ b.origins.map Reply.update ++ b.ranges.map Reply.range,
      ReplyOk log reply ∧ reply.label.2 = (s.db.clock reply.label.1).generation := by
  intro reply hmem
  rcases List.mem_append.mp hmem with hmem | hmem
  · obtain ⟨up, hup, rfl⟩ := List.mem_map.mp hmem
    have hship := shipped_respond hb up hup
    exact ⟨replyOk_shipped h hnum hship, hship.generation⟩
  · obtain ⟨r, hr, rfl⟩ := List.mem_map.mp hmem
    have hfrom : ∃ ask, r = respondRange cd s.db ask := by
      rw [respond, respondBudgeted] at hb
      split at hb
      next =>
        cases hb
        obtain ⟨ask, -, rfl⟩ := List.mem_map.mp hr
        exact ⟨ask, rfl⟩
      next =>
        split at hb
        next =>
          obtain ⟨ans, -, rfl⟩ := Option.map_eq_some_iff.mp hb
          exact (List.not_mem_nil hr).elim
        next => cases hb; exact (List.not_mem_nil hr).elim
    obtain ⟨ask, rfl⟩ := hfrom
    exact replyOk_range h hnum ask

end Answers

-- ======================================================== applying is right

section Applying

variable {cfg : Config} {s : Store} {log : Origin → EventLog}

/-- What a step at one node may do to its store: every copy still
follows its log, none learns of a later generation than `gen`, and the
own copy keeps its clock. -/
structure NodeOk (cfg : Config) (log : Origin → EventLog) (gen : Origin → ℕ)
    (s s' : Store) : Prop where
  follows : ∀ o, Follows (log o) (s'.db.replica o)
  known : ∀ o, (s'.db.clock o).generation ≤ gen o
  ownGen : (s'.db.clock cfg.selfName).generation = (s.db.clock cfg.selfName).generation
  ownSeq : (s'.db.clock cfg.selfName).seq = (s.db.clock cfg.selfName).seq

variable {gen : Origin → ℕ}

/-- A step that moves no replica is fine. -/
theorem NodeOk.of_eq {s' : Store} (h : ∀ o, Follows (log o) (s.db.replica o))
    (hk : ∀ o, (s.db.clock o).generation ≤ gen o)
    (heq : ∀ o, s'.db.replica o = s.db.replica o) : NodeOk cfg log gen s s' := by
  have hc : ∀ o, s'.db.clock o = s.db.clock o := fun o => congrArg Replica.clock (heq o)
  exact ⟨fun o => heq o ▸ h o, fun o => (hc o).symm ▸ hk o, by rw [hc], by rw [hc]⟩

theorem nodeOk_applySuffix (h : ∀ o, Follows (log o) (s.db.replica o))
    (hk : ∀ o, (s.db.clock o).generation ≤ gen o) {o : Origin} {generation : ℕ}
    {events : List Event} (hg : generation ≤ gen o)
    (hev : ∀ e ∈ events, (log o generation)[e.seq - 1]? = some e) {out : Apply} {s' : Store}
    (hap : applySuffix cd cfg s o generation events = .ok (out, s')) :
    NodeOk cfg log gen s s' := by
  rcases replica_applySuffix hap with rfl | ⟨hne, taken, r, hfrom, hrep⟩
  · exact .of_eq h hk fun _ => rfl
  have hc : ∀ o', s'.db.clock o' = (if o' = o then
      ⟨generation, (s.db.clock o).seq + taken.length, (s.db.clock o).tailSeq⟩
      else s.db.clock o') := by
    intro o'
    refine (congrArg Replica.clock (hrep o')).trans ?_
    split <;> rfl
  refine ⟨fun o' => ?_, fun o' => ?_, ?_, ?_⟩
  · rw [hrep]
    split
    next he =>
      subst he
      refine (h o').extend ?_ hfrom.run fun e he => hev e (hfrom.sub e he)
      -- either the generation is ours, or our clock is zero and names no events
      rcases hfrom.generation with hgen | ⟨-, -, hzero⟩
      · rw [hgen]
        rfl
      · rw [Db.replica_clock, hzero]
        rfl
    next => exact h o'
  · rw [hc]
    split
    next he => exact he ▸ hg
    next => exact hk o'
  · rw [hc, if_neg (Ne.symm hne)]
  · rw [hc, if_neg (Ne.symm hne)]

theorem nodeOk_applySnapshot (h : ∀ o, Follows (log o) (s.db.replica o))
    (hk : ∀ o, (s.db.clock o).generation ≤ gen o) {o : Origin} {generation seq : ℕ}
    {held : List Bytes} (hg : generation ≤ gen o)
    (hseq : seq ≤ (log o generation).length)
    (hheld : ∀ x, x ∈ held.filterMap NarHash.tryFrom ↔
      replay ((log o generation).take seq) x = true) {n : ℕ} {s' : Store}
    (hap : applySnapshot cfg s o generation seq held = .ok (n, s')) :
    NodeOk cfg log gen s s' := by
  obtain ⟨hne, hrep⟩ := replica_applySnapshot hap
  have hself : s'.db.replica cfg.selfName = s.db.replica cfg.selfName := by
    rw [hrep, if_neg fun he => hne he.1.symm]
  have hc : s'.db.clock cfg.selfName = s.db.clock cfg.selfName :=
    congrArg Replica.clock hself
  refine ⟨fun o' => ?_, fun o' => ?_, by rw [hc], by rw [hc]⟩
  · rw [hrep]
    split
    next he => exact he.1 ▸ Follows.replace hseq hheld
    next => exact h o'
  · have := congrArg (fun r => r.clock.generation) (hrep o')
    refine this.trans_le ?_
    split
    next he => exact he.1 ▸ hg
    next => exact hk o'

/-- Applying any right reply keeps a node right. -/
theorem nodeOk_applyReply (h : ∀ o, Follows (log o) (s.db.replica o))
    (hk : ∀ o, (s.db.clock o).generation ≤ gen o) {reply : Reply}
    (hok : ReplyOk log reply) (hg : reply.label.2 ≤ gen reply.label.1) :
    NodeOk cfg log gen s (applyReply cd cfg s reply) := by
  have hid : NodeOk cfg log gen s s := .of_eq h hk fun _ => rfl
  cases reply with
  | update up =>
      obtain ⟨o, g, seq, body, truncated⟩ := up
      match body with
      | none => exact hid
      | some .upToDate => exact hid
      | some (.suffix events) =>
          cases hap : applySuffix cd cfg s o g events with
          | error err => simp only [applyReply, hap]; exact hid
          | ok done =>
              simp only [applyReply, hap]
              exact nodeOk_applySuffix h hk hg hok hap
      | some (.snapshot held) =>
          cases hap : applySnapshot cfg s o g seq held with
          | error err => simp only [applyReply, hap]; exact hid
          | ok done =>
              simp only [applyReply, hap]
              exact nodeOk_applySnapshot h hk hg hok.1 hok.2 hap
  | range r =>
      cases hap : applySuffix cd cfg s r.origin r.generation r.events with
      | error err => simp only [applyReply, hap]; exact hid
      | ok done =>
          simp only [applyReply, hap]
          exact nodeOk_applySuffix h hk hg hok hap

end Applying

-- ============================================================ preservation

namespace Mesh.Inv

variable {m : Mesh}

theorem boot {nanos : Origin → ℕ} (hpos : ∀ n, 0 < nanos n) :
    Inv (Mesh.boot peers nanos) where
  pos := hpos
  zero _ := rfl
  fresh _ _ _ := rfl
  numbered _ _ := trivial
  follows n o := by
    change Follows _ ((openIndex (nodeConfig peers n) {} (nanos n)).db.replica o)
    rw [replica_openIndex_empty]
    split
    · exact (Follows.zero fun _ => []).stamp rfl
    · exact Follows.zero _
  known n o := by
    refine (congrArg Clock.generation
      (clock_openIndex_empty (nodeConfig peers n) (nanos n) o)).trans_le ?_
    split
    next he => exact he ▸ le_rfl
    next => exact Nat.zero_le _
  ownGen n := by
    refine (congrArg Clock.generation
      (clock_openIndex_empty (nodeConfig peers n) (nanos n) n)).trans ?_
    rw [if_pos (nodeConfig_selfName peers n).symm]
    rfl
  ownSeq n := by
    refine (congrArg Clock.seq (clock_openIndex_empty (nodeConfig peers n) (nanos n) n)).trans ?_
    rw [if_pos (nodeConfig_selfName peers n).symm]
    rfl
  net _ h := (List.not_mem_nil h).elim

/-- A step at one node that leaves the logs alone. -/
theorem setNode (h : Inv m) {n : Origin} {s' : Store}
    (hok : NodeOk (nodeConfig peers n) m.log m.gen (m.node n) s') :
    Inv { m with node := Function.update m.node n s' } where
  pos := h.pos
  zero := h.zero
  fresh := h.fresh
  numbered := h.numbered
  follows n' o := by
    by_cases hn : n' = n
    · subst hn
      simpa using hok.follows o
    · simpa [Function.update_of_ne hn] using h.follows n' o
  known n' o := by
    by_cases hn : n' = n
    · subst hn
      simpa using hok.known o
    · simpa [Function.update_of_ne hn] using h.known n' o
  ownGen n' := by
    by_cases hn : n' = n
    · subst hn
      simp only [Function.update_self]
      exact hok.ownGen.trans (h.ownGen n')
    · simpa [Function.update_of_ne hn] using h.ownGen n'
  ownSeq n' := by
    by_cases hn : n' = n
    · subst hn
      simp only [Function.update_self]
      exact hok.ownSeq.trans (h.ownSeq n')
    · simpa [Function.update_of_ne hn] using h.ownSeq n'
  net := h.net

/-- A step of node `n` on its own origin: its log changes under
generation `g` only, and grows there or is new. Other nodes and replies
in flight notice nothing. -/
theorem setOwn (h : Inv m) {n : Origin} {g : ℕ} (said : List Event) (s' : Store)
    (hle : m.gen n ≤ g)
    (hgrow : m.log n g <+: said) (hnum : SeqRun Event.seq 0 said)
    (hothers : ∀ o, o ≠ n → Follows (m.log o) (s'.db.replica o)
      ∧ (s'.db.clock o).generation ≤ m.gen o)
    (hown : Follows (Function.update (m.log n) g said) (s'.db.replica n))
    (hgen : (s'.db.clock n).generation = g) (hseq : (s'.db.clock n).seq = said.length) :
    Inv { m with
      node := Function.update m.node n s'
      log := Function.update m.log n (Function.update (m.log n) g said)
      gen := Function.update m.gen n g } := by
  have hpos := h.pos
  have hlog : ∀ o g', m.log o g'
      <+: (Function.update m.log n (Function.update (m.log n) g said)) o g' := by
    intro o g'
    by_cases ho : o = n
    · subst ho
      rw [Function.update_self]
      by_cases hg' : g' = g
      · subst hg'
        rw [Function.update_self]
        exact hgrow
      · rw [Function.update_of_ne hg']
    · rw [Function.update_of_ne ho]
  have hgens : ∀ o, m.gen o ≤ Function.update m.gen n g o := by
    intro o
    by_cases ho : o = n
    · subst ho
      rw [Function.update_self]
      exact hle
    · rw [Function.update_of_ne ho]
  have hne : g ≠ 0 := by
    have := hpos n
    omega
  constructor
  · exact fun o => (hpos o).trans_le (hgens o)
  · intro o
    by_cases ho : o = n
    · subst ho
      simp only [Function.update_self]
      rw [Function.update_of_ne hne.symm]
      exact h.zero o
    · simp only [Function.update_of_ne ho]
      exact h.zero o
  · intro o g' hg'
    have hold := h.fresh o g' ((hgens o).trans_lt hg')
    by_cases ho : o = n
    · subst ho
      simp only [Function.update_self] at hg' ⊢
      rw [Function.update_of_ne hg'.ne']
      exact hold
    · simp only [Function.update_of_ne ho]
      exact hold
  · intro o g'
    by_cases ho : o = n
    · subst ho
      simp only [Function.update_self]
      by_cases hg' : g' = g
      · subst hg'
        rw [Function.update_self]
        exact hnum
      · rw [Function.update_of_ne hg']
        exact h.numbered o g'
    · simp only [Function.update_of_ne ho]
      exact h.numbered o g'
  · intro n' o
    by_cases hn : n' = n
    · subst hn
      simp only [Function.update_self]
      by_cases ho : o = n'
      · subst ho
        rw [Function.update_self]
        exact hown
      · rw [Function.update_of_ne ho]
        exact (hothers o ho).1
    · simp only [Function.update_of_ne hn]
      exact (h.follows n' o).of_log (hlog o _)
  · intro n' o
    by_cases hn : n' = n
    · subst hn
      simp only [Function.update_self]
      by_cases ho : o = n'
      · subst ho
        rw [Function.update_self, hgen]
      · rw [Function.update_of_ne ho]
        exact (hothers o ho).2
    · simp only [Function.update_of_ne hn]
      exact (h.known n' o).trans (hgens o)
  · intro n'
    by_cases hn : n' = n
    · subst hn
      simp only [Function.update_self]
      exact hgen
    · simp only [Function.update_of_ne hn]
      exact h.ownGen n'
  · intro n'
    by_cases hn : n' = n
    · subst hn
      simp only [Function.update_self]
      exact hseq
    · simp only [Function.update_of_ne hn]
      exact h.ownSeq n'
  · intro reply hr
    obtain ⟨hok, hlab⟩ := h.net reply hr
    exact ⟨hok.of_log (hlog _ _), hlab.trans (hgens _)⟩

/-- An export: the log grows by what was said. -/
theorem exportOps (h : Inv m) {n : Origin} {attests : List Attestation}
    {holds : List HoldOp} {m' : Mesh}
    (hs : m.step cd peers (.exportOps n attests holds) = some m') : Inv m' := by
  cases hs
  have hg := h.ownGen n
  have hlog : m.log n ((m.node n).db.clock n).generation = m.log n (m.gen n) := by rw [hg]
  have hq : ((m.node n).db.clock n).seq
      = 0 + (m.log n ((m.node n).db.clock n).generation).length := by
    rw [hlog, ← h.ownSeq n, Nat.zero_add]
  have hnum : SeqRun Event.seq 0 (m.log n ((m.node n).db.clock n).generation
      ++ exportEvents ((m.node n).db.clock n).seq (exportList attests holds)) := by
    refine (h.numbered n _).append ?_
    rw [← hq]
    exact seqRun_exportEvents _ _
  have hflat : (chunks EXPORT_CHUNK (exportList attests holds)).flatten
      = exportList attests holds := flatten_chunks (by decide) _
  have hgrown : Follows (Function.update (m.log n) ((m.node n).db.clock n).generation
      (m.log n ((m.node n).db.clock n).generation
        ++ exportEvents ((m.node n).db.clock n).seq (exportList attests holds)))
      ((m.node n).db.replica n) := by
    refine (h.follows n n).of_log ?_
    rw [Db.replica_clock, Function.update_self]
    exact List.prefix_append _ _
  obtain ⟨-, hfol, hgen, hseq, hrest⟩ := exportChunks_follows cd (nodeConfig peers n)
    (chunks EXPORT_CHUNK (exportList attests holds)) rfl rfl hgrown (fun e he => by
      rw [hflat] at he
      rw [nodeConfig_selfName, Function.update_self]
      exact hnum.get_num (List.mem_append_right _ he))
  have hset := h.setOwn (n := n) _
    (Narshare.exportOps cd (nodeConfig peers n) (m.node n) attests holds).2
    hg.ge (List.prefix_append _ _) hnum
    (fun o ho => by
      have hsame := hrest o ho
      exact ⟨hsame ▸ h.follows n o,
        (congrArg (fun r => r.clock.generation) hsame).trans_le (h.known n o)⟩)
    hfol hgen
    (by
      refine hseq.trans ?_
      rw [hflat, List.length_append, length_exportEvents, nodeConfig_selfName]
      omega)
  have hgens : Function.update m.gen n ((m.node n).db.clock n).generation = m.gen := by
    rw [hg, Function.update_eq_self]
  rw [hgens] at hset
  exact hset

/-- A remint: the same log under a new generation. -/
theorem remint (h : Inv m) {n : Origin} {floor nanos : ℕ} {m' : Mesh}
    (hs : m.step cd peers (.remint n floor nanos) = some m') : Inv m' := by
  simp only [Mesh.step] at hs
  split at hs
  next hlt =>
    cases hs
    have hrep := replica_bumpSelfGeneration (nodeConfig peers n) (m.node n) floor nanos
    generalize bumpSelfGeneration (nodeConfig peers n) (m.node n) floor nanos = done at *
    have hself := hrep n
    rw [nodeConfig_selfName, if_pos rfl] at hself
    refine h.setOwn _ _ hlt.le ?_ (h.numbered n (m.gen n)) (fun o ho => ?_) ?_ ?_ ?_
    · rw [h.fresh n done.1 hlt]
      exact List.nil_prefix
    · have hsame := hrep o
      rw [nodeConfig_selfName, if_neg ho] at hsame
      exact ⟨hsame ▸ h.follows n o,
        (congrArg (fun r => r.clock.generation) hsame).trans_le (h.known n o)⟩
    · rw [hself]
      refine (h.follows n n).stamp ?_
      rw [Function.update_self, Db.replica_clock, h.ownGen n]
    · exact congrArg (fun r => r.clock.generation) hself
    · exact (congrArg (fun r => r.clock.seq) hself).trans (h.ownSeq n)
  next => cases hs

/-- A lost store: nothing said yet under the new generation. -/
theorem lose (h : Inv m) {n : Origin} {nanos : ℕ} {m' : Mesh}
    (hs : m.step cd peers (.lose n nanos) = some m') : Inv m' := by
  simp only [Mesh.step] at hs
  split at hs
  next hlt =>
    cases hs
    have hrep := replica_openIndex_empty (nodeConfig peers n) nanos
    have hself := hrep n
    rw [nodeConfig_selfName, if_pos rfl] at hself
    have hset := h.setOwn [] (openIndex (nodeConfig peers n) {} nanos) hlt.le
      (h.fresh n nanos hlt ▸ List.nil_prefix) trivial
      (fun o ho => by
        have hsame := hrep o
        rw [nodeConfig_selfName, if_neg ho] at hsame
        exact ⟨hsame ▸ Follows.zero _,
          (congrArg (fun r => r.clock.generation) hsame).trans_le (Nat.zero_le _)⟩)
      (by
        rw [hself]
        refine (Follows.zero (m.log n)).stamp ?_
        rw [Function.update_self]
        exact (h.zero n).symm)
      (congrArg (fun r => r.clock.generation) hself)
      (congrArg (fun r => r.clock.seq) hself)
    have hlog : Function.update m.log n (Function.update (m.log n) nanos []) = m.log := by
      rw [← h.fresh n nanos hlt, Function.update_eq_self, Function.update_eq_self]
    rw [hlog] at hset
    exact hset
  next => cases hs

/-- Every step keeps the invariant. -/
theorem step (h : Inv m) {a : Act} {m' : Mesh} (hs : m.step cd peers a = some m') :
    Inv m' := by
  have hsame : ∀ n (s' : Store), (∀ o, s'.db.replica o = (m.node n).db.replica o) →
      Inv { m with node := Function.update m.node n s' } := by
    intro n s' heq
    have hok : NodeOk (nodeConfig peers n) m.log m.gen (m.node n) s' :=
      .of_eq (h.follows n) (h.known n) heq
    exact h.setNode hok
  cases a with
  | exportOps n attests holds => exact h.exportOps hs
  | remint n floor nanos => exact h.remint hs
  | lose n nanos => exact h.lose hs
  | answer n req =>
      obtain ⟨b, hb, rfl⟩ := Option.map_eq_some_iff.mp hs
      refine { h with net := fun reply hr => ?_ }
      rw [List.append_assoc] at hr
      rcases List.mem_append.mp hr with hr | hr
      · exact h.net reply hr
      · obtain ⟨hok, hlab⟩ := replyOk_respond (h.follows n) h.numbered hb reply hr
        exact ⟨hok, hlab ▸ h.known n _⟩
  | apply n i =>
      obtain ⟨reply, hr, rfl⟩ := Option.map_eq_some_iff.mp hs
      obtain ⟨hok, hlab⟩ := h.net reply (List.mem_of_getElem? hr)
      exact h.setNode (nodeOk_applyReply (h.follows n) (h.known n) hok hlab)
  | mergeAttests n attests =>
      cases hs
      exact hsame n _ (replica_mergeAttests (m.node n) attests)
  | recordWatermarks n peer clocks =>
      cases hs
      exact hsame n _ (replica_recordWatermarks _ (m.node n) peer clocks)
  | compact n =>
      cases hs
      have hok : NodeOk (nodeConfig peers n) m.log m.gen (m.node n)
          (Narshare.compact (nodeConfig peers n) (m.node n)) := by
        refine ⟨fun o => ?_, fun o => ?_, ?_, ?_⟩
        · exact compact_preserves _ (m.node n)
            (fun r hr => hr.compactTo (compactFloor_le _ _ _)) (h.follows n o)
        · exact compact_preserves _ (P := fun r => r.clock.generation ≤ m.gen o) (m.node n)
            (fun r hr => (r.compactTo_clock _).1 ▸ hr) (h.known n o)
        · exact compact_preserves _ (o := n)
            (P := fun r => r.clock.generation = ((m.node n).db.clock n).generation)
            (m.node n) (fun r hr => (r.compactTo_clock _).1.trans hr) rfl
        · exact compact_preserves _ (o := n)
            (P := fun r => r.clock.seq = ((m.node n).db.clock n).seq)
            (m.node n) (fun r hr => (r.compactTo_clock _).2.trans hr) rfl
      exact h.setNode hok

/-- Every reachable state has the invariant. -/
theorem reach (h : (meshSystem cd peers).Reach m) : Inv m := by
  refine System.Reach.invariant (fun m hi => ?_) (fun m a m' _ hinv hs => hinv.step hs) h
  obtain ⟨nanos, hpos, rfl⟩ := hi
  exact boot hpos

end Mesh.Inv

-- ====================================================== replication safety

/-- Whatever a node's clock vouches for, it has: the holdings are the
replay of what the origin said under that generation up to that number,
and the journal holds exactly the events above the tail. In particular
nodes at one clock hold the same, the origin itself included, and under
no generation nothing is held. -/
theorem replication_safety {m : Mesh} (h : (meshSystem cd peers).Reach m) (n o : Origin) :
    let r := (m.node n).db.replica o
    let said := m.log o r.clock.generation
    (r.clock.tailSeq ≤ r.clock.seq ∧ r.clock.seq ≤ said.length)
      ∧ (∀ x, r.held x = replay (said.take r.clock.seq) x)
      ∧ (∀ k e, r.journal k = some e ↔
          (r.clock.tailSeq < k ∧ k ≤ r.clock.seq) ∧ said[k - 1]? = some e)
      ∧ (r.clock.generation = 0 → ∀ x, r.held x = false)
      ∧ (∀ n', ((m.node n').db.clock o).generation = r.clock.generation →
          ((m.node n').db.clock o).seq = r.clock.seq →
          ((m.node n').db.replica o).held = r.held) := by
  have hinv := Mesh.Inv.reach h
  have hfol := hinv.follows n o
  refine ⟨⟨hfol.tail_le, hfol.seq_le⟩, hfol.held, hfol.journal, fun hg x => ?_,
    fun n' hg hs => (hinv.follows n' o).held_eq hfol hg hs⟩
  rw [hfol.held, hg, hinv.zero, List.take_nil]
  rfl

/-- Two nodes that name each other. -/
def pair (n : Origin) : List Origin :=
  if n = Origin.ofByte 1 then [Origin.ofByte 2] else [Origin.ofByte 1]

/-- Node 2 learns node 1 by snapshot, then its next event by suffix. -/
def snapshotThenSuffix : List Mesh.Act :=
  [.exportOps (Origin.ofByte 1) [] [.add (NarHash.ofByte 5), .add (NarHash.ofByte 6)],
    .answer (Origin.ofByte 1) ⟨[], [], [], [], []⟩,
    .apply (Origin.ofByte 2) 0,
    .exportOps (Origin.ofByte 1) [] [.drop (NarHash.ofByte 5)],
    .answer (Origin.ofByte 1) ⟨[⟨Origin.ofByte 1, 7, 2⟩], [], [], [], []⟩,
    .apply (Origin.ofByte 2) 1, .apply (Origin.ofByte 2) 0]

/-- Along that run the copy is the replay of three events. -/
theorem replication_safety_pair :
    ∃ m, (meshSystem Codec.plain pair).Reach m
      ∧ (m.node (Origin.ofByte 2)).db.clock (Origin.ofByte 1) = ⟨7, 3, 2⟩
      ∧ (m.log (Origin.ofByte 1) 7).length = 3
      ∧ ∀ x, (m.node (Origin.ofByte 2)).db.isHeld (Origin.ofByte 1) x
        = replay ((m.log (Origin.ofByte 1) 7).take 3) x := by
  have hrun : ((meshSystem Codec.plain pair).run (Mesh.boot pair fun _ => 7)
      snapshotThenSuffix).map (fun m =>
        decide ((m.node (Origin.ofByte 2)).db.clock (Origin.ofByte 1) = ⟨7, 3, 2⟩
          ∧ (m.log (Origin.ofByte 1) 7).length = 3)) = some true := by decide +kernel
  obtain ⟨m, hm, hdone⟩ := Option.map_eq_some_iff.mp hrun
  obtain ⟨hclock, hlen⟩ := of_decide_eq_true hdone
  have hboot : (meshSystem Codec.plain pair).init (Mesh.boot pair fun _ => 7) :=
    ⟨fun _ => 7, fun _ => Nat.succ_pos 6, rfl⟩
  have hreach : (meshSystem Codec.plain pair).Reach m := (System.Reach.start hboot).run hm
  obtain ⟨-, hheld, -⟩ := replication_safety hreach (Origin.ofByte 2) (Origin.ofByte 1)
  refine ⟨m, hreach, hclock, hlen, fun x => (hheld x).trans ?_⟩
  rw [Db.replica_clock, hclock]

end Narshare
