/-
The learning and authoring half of index.rs: suffixes and snapshots
applied, own operations exported, watermarks, compaction, reminting.

# Reads and calls

Each operation is one or two reads of the store followed by calls of its
atomic operations. The part between — what is to be called, computed
from what was read — is a definition of its own (`readSuffix`,
`exportChunk`, `compactFloor`), so that the same text serves the
one-task reading here and the interleavings of the files that follow.
-/
import Narshare.Index.Respond
import Narshare.Lib.SeqRun
import Narshare.Store.Replica

namespace Narshare

variable (cd : Codec) (cfg : Config)

/-- `JOURNAL_BACKSTOP`. -/
def JOURNAL_BACKSTOP : ℕ := 50000

/-- `EXPORT_CHUNK`. -/
def EXPORT_CHUNK : ℕ := 10000

/-- What the index refuses. -/
inductive IndexError
  | unexpectedSuffix (o : Origin)
  | unexpectedSnapshot (o : Origin)
  | exportRaced
deriving DecidableEq

/-- `Apply`. -/
inductive Apply
  | applied (n : ℕ)
  | needSnapshot
deriving DecidableEq

-- =============================================================== suffixes

/-- The loop state of `apply_suffix`. -/
structure SuffixRead where
  journal : List (ℕ × Event) := []
  holds : List HoldOp := []
  attests : List Attestation := []
  seq : ℕ

/-- The possession change an event makes, when its hash is one. -/
def Event.holdOp (e : Event) : Option HoldOp :=
  match e.op with
  | some (.have_ h) => (NarHash.tryFrom h).map HoldOp.add
  | some (.drop h) => (NarHash.tryFrom h).map HoldOp.drop
  | _ => none

/-- The attestation an event brings, when it is well formed. -/
def Event.attestation (e : Event) : Option Attestation :=
  match e.op with
  | some (.attest a) => if wellFormed a then some a else none
  | _ => none

/-- Take one event in. -/
def SuffixRead.take (r : SuffixRead) (e : Event) : SuffixRead where
  journal := r.journal ++ [(e.seq, e)]
  holds := r.holds ++ e.holdOp.toList
  attests := r.attests ++ e.attestation.toList
  seq := e.seq

/-- The loop of `apply_suffix`: replays are skipped, a gap ends it. -/
def suffixLoop (r : SuffixRead) : List Event → Option SuffixRead
  | [] => some r
  | e :: es =>
      if e.seq ≤ r.seq then suffixLoop r es -- replay
      else if e.seq ≠ r.seq + 1 then none -- gap: suffix does not connect
      else suffixLoop (r.take e) es

/-- `apply_suffix`, from the clock read to the call it makes. -/
def readSuffix (cur : Clock) (generation : ℕ) (events : List Event) :
    Apply ⊕ SuffixRead :=
  if generation < cur.generation then .inl (.applied 0) -- stale relay; ignore
  else if generation > cur.generation ∧ ¬ (cur.generation = 0 ∧ cur.seq = 0) then
    .inl .needSnapshot
  else
    match suffixLoop { seq := cur.seq } events with
    | none => .inl .needSnapshot
    | some r => if r.journal = [] then .inl (.applied 0) else .inr r

/-- `apply_suffix`. -/
def applySuffix (s : Store) (o : Origin) (generation : ℕ) (events : List Event) :
    Except IndexError (Apply × Store) :=
  if o = cfg.selfName ∨ cfg.isKnownOrigin o = false then .error (.unexpectedSuffix o)
  else
    let cur := s.db.clock o
    match readSuffix cur generation events with
    | .inl out => .ok (out, s)
    | .inr r =>
        let done := s.applyEvents cd o (cur.generation, cur.seq) (generation, r.seq)
          r.journal r.holds r.attests
        if done.1 then .ok (.applied r.journal.length, done.2)
        else .ok (.applied 0, done.2) -- a concurrent pull applied it first

/-- `apply_snapshot`: how many hashes the new copy holds. -/
def applySnapshot (s : Store) (o : Origin) (generation seq : ℕ) (held : List Bytes) :
    Except IndexError (ℕ × Store) :=
  if o = cfg.selfName ∨ cfg.isKnownOrigin o = false then .error (.unexpectedSnapshot o)
  else
    let hashes := held.filterMap NarHash.tryFrom
    let done := s.replaceHoldings o generation seq hashes
    .ok (if done.1 then hashes.length else 0, done.2)

/-- `merge_attests`: how many were new. -/
def mergeAttests (s : Store) (attests : List Attestation) : ℕ × Store :=
  let valid := attests.filter wellFormed
  if valid = [] then (0, s) else s.mergeAttestations cd valid

-- ================================================================= exports

/-- An own operation to be journaled. -/
inductive ExportOp
  | att (a : Attestation)
  | hold (h : HoldOp)
deriving DecidableEq

/-- The event an own operation becomes. -/
def ExportOp.event (seq : ℕ) : ExportOp → Event
  | .att a => ⟨seq, some (.attest a)⟩
  | .hold (.add h) => ⟨seq, some (.have_ h.val)⟩
  | .hold (.drop h) => ⟨seq, some (.drop h.val)⟩

/-- The events of a list of own operations, numbered from `seq + 1`. -/
def exportEvents (seq : ℕ) : List ExportOp → List Event
  | [] => []
  | op :: ops => op.event (seq + 1) :: exportEvents (seq + 1) ops

/-- The possession changes among own operations. -/
def ExportOp.holds (ops : List ExportOp) : List HoldOp :=
  ops.filterMap fun
    | .hold h => some h
    | .att _ => none

/-- The attestations among own operations. -/
def ExportOp.attests (ops : List ExportOp) : List Attestation :=
  ops.filterMap fun
    | .att a => some a
    | .hold _ => none

/-- `export_ops`, one chunk: applied at the clock it expects. -/
def exportChunk (s : Store) (generation seq : ℕ) (chunk : List ExportOp) : Bool × Store :=
  s.applyEvents cd cfg.selfName (generation, seq) (generation, seq + chunk.length)
    ((exportEvents seq chunk).map fun e => (e.seq, e))
    (ExportOp.holds chunk) (ExportOp.attests chunk)

/-- `export_ops`, the loop over chunks: false when a chunk found another
clock than it expected. -/
def exportChunks (generation : ℕ) : List (List ExportOp) → ℕ → Store → Bool × Store
  | [], _, s => (true, s)
  | chunk :: rest, seq, s =>
      let done := exportChunk cd cfg s generation seq chunk
      if done.1 then exportChunks generation rest (seq + chunk.length) done.2
      else (false, done.2)

/-- The operations of an export, attestations first. -/
def exportList (attests : List Attestation) (holds : List HoldOp) : List ExportOp :=
  attests.map ExportOp.att ++ holds.map ExportOp.hold

/-- `export_ops`: how many events were emitted. Chunks committed before
a raced one stay. -/
def exportOps (s : Store) (attests : List Attestation) (holds : List HoldOp) :
    Except IndexError ℕ × Store :=
  let ops := exportList attests holds
  let cur := s.db.clock cfg.selfName
  let done := exportChunks cd cfg cur.generation (chunks EXPORT_CHUNK ops) cur.seq s
  (if done.1 then .ok ops.length else .error .exportRaced, done.2)

-- ============================================================ own generation

/-- `open`: the generation the store remembers, or a fresh one from the
wall clock; then the clock is stamped and departed origins go. -/
def openIndex (s : Store) (nanos : ℕ) : Store :=
  let g := s.db.selfGeneration.getD nanos
  let s := { s with db := { s.db with selfGeneration := some g } }
  (s.setGeneration cfg.selfName g).retainOrigins cfg.originSet

/-- `set_dump_cursor`. -/
def Db.setDumpCursor (db : Db) (peer : Origin) (cursor : Bytes) : Db :=
  { db with attsResume := db.attsResume.put peer cursor }

/-- `dump_cursor`. -/
def Db.dumpCursor (db : Db) (peer : Origin) : Bytes := (db.attsResume.get peer).getD []

/-- `restart_all_dumps`. -/
def restartAllDumps (db : Db) : Db :=
  cfg.peerNames.foldl (fun db peer => db.setDumpCursor peer DUMP_RESTART) db

/-- `u64::MAX`. -/
def U64_MAX : ℕ := 2 ^ 64 - 1

/-- `bump_self_generation`: `nanos.max(floor.saturating_add(1))`. -/
def remintGeneration (floor nanos : ℕ) : ℕ := max nanos (min (floor + 1) U64_MAX)

/-- `bump_self_generation`, the clock: above the floor, unless that is the
greatest there is, and by the wall clock when that is ahead. -/
def remintClock (s : Store) (floor nanos : ℕ) : ℕ × Store :=
  let g := remintGeneration floor nanos
  let s := { s with db := { s.db with selfGeneration := some g } }
  (g, s.setGeneration cfg.selfName g)

/-- `bump_self_generation`: the clock, then every dump cursor. -/
def bumpSelfGeneration (s : Store) (floor nanos : ℕ) : ℕ × Store :=
  let done := remintClock cfg s floor nanos
  (done.1, { done.2 with db := restartAllDumps cfg done.2.db })

-- ======================================================= acks and compaction

/-- `record_watermarks`, one line of the peer's clock vector. -/
def recordWatermark (peer : Origin) (s : Store) (c : OriginClock) : Store :=
  if cfg.isKnownOrigin c.origin = false then s
  else if (s.db.clock c.origin).generation ≠ c.generation then s
  else s.advanceWatermark peer c.origin c.seq

/-- `record_watermarks`. -/
def recordWatermarks (s : Store) (peer : Origin) (clocks : List OriginClock) : Store :=
  clocks.foldl (recordWatermark cfg peer) s

/-- `compact`, the floor for one origin: the least watermark of all
peers, but never more than the backstop behind the clock. -/
def compactFloor (marks : Origin → ℕ) (c : Clock) : ℕ :=
  max (cfg.peerNames.foldl (fun floor peer => min floor (marks peer)) c.seq)
    (c.seq - JOURNAL_BACKSTOP)

/-- `compact`, one origin. -/
def compactOne (marks : Origin → Origin → ℕ) (s : Store) (o : Origin) : Store :=
  let c := s.db.clock o
  let floor := compactFloor cfg (fun peer => marks peer o) c
  if floor > c.tailSeq then s.compactJournal o floor else s

/-- `compact`: the watermarks are read once, the clocks one by one, in
whatever order the hash set gives. -/
def compact (s : Store) : Store :=
  cfg.originSet.foldl (compactOne cfg s.db.watermark) s

-- ==================================================== what the reads compute

variable {cd cfg}

/-- The events a loop of `apply_suffix` takes are a run above where it
started, and their effects are what it collected. -/
theorem suffixLoop_spec {r r' : SuffixRead} {events : List Event}
    (h : suffixLoop r events = some r') :
    ∃ taken, (∀ e ∈ taken, e ∈ events) ∧ SeqRun Event.seq r.seq taken
      ∧ r'.journal = r.journal ++ taken.map (fun e => (e.seq, e))
      ∧ r'.holds = r.holds ++ taken.filterMap Event.holdOp
      ∧ r'.attests = r.attests ++ taken.filterMap Event.attestation
      ∧ r'.seq = r.seq + taken.length := by
  induction events generalizing r with
  | nil =>
      cases h
      exact ⟨[], by simp, trivial, by simp, by simp, by simp, rfl⟩
  | cons e es ih =>
      rw [suffixLoop] at h
      split at h
      next =>
        obtain ⟨taken, hsub, hrest⟩ := ih h
        exact ⟨taken, fun e' he' => List.mem_cons_of_mem _ (hsub e' he'), hrest⟩
      next =>
        split at h
        next => cases h
        next hnext =>
          have hseq : e.seq = r.seq + 1 := not_not.mp hnext
          obtain ⟨taken, hsub, hrun, hj, hh, ha, hs⟩ := ih h
          refine ⟨e :: taken, ?_, ⟨hseq, ?_⟩, ?_, ?_, ?_, ?_⟩
          · rintro e' he'
            rcases List.mem_cons.mp he' with rfl | he'
            · exact List.mem_cons_self
            · exact List.mem_cons_of_mem _ (hsub e' he')
          · rw [← hseq]
            exact hrun
          · rw [hj]
            simp [SuffixRead.take]
          · rw [hh]
            cases ho : e.holdOp <;> simp [SuffixRead.take, ho]
          · rw [ha]
            cases ho : e.attestation <;> simp [SuffixRead.take, ho]
          · rw [hs, List.length_cons]
            simp only [SuffixRead.take]
            omega

/-- What a suffix that is to be applied looks like. -/
structure SuffixRead.From (cur : Clock) (generation : ℕ) (events taken : List Event)
    (r : SuffixRead) : Prop where
  sub : ∀ e ∈ taken, e ∈ events
  run : SeqRun Event.seq cur.seq taken
  nonempty : taken ≠ []
  journal : r.journal = taken.map fun e => (e.seq, e)
  holds : r.holds = taken.filterMap Event.holdOp
  attests : r.attests = taken.filterMap Event.attestation
  seq : r.seq = cur.seq + taken.length
  generation : generation = cur.generation
    ∨ (cur.generation < generation ∧ cur.generation = 0 ∧ cur.seq = 0)

theorem readSuffix_spec {cur : Clock} {generation : ℕ} {events : List Event}
    {r : SuffixRead} (h : readSuffix cur generation events = .inr r) :
    ∃ taken, r.From cur generation events taken := by
  rw [readSuffix] at h
  split at h
  next => cases h
  next hge =>
    split at h
    next => cases h
    next hgen =>
      split at h
      next => cases h
      next r' hloop =>
        split at h
        next => cases h
        next hne =>
          cases h
          obtain ⟨taken, hsub, hrun, hj, hh, ha, hs⟩ := suffixLoop_spec hloop
          refine ⟨taken, hsub, hrun, ?_, hj, hh, ha, hs, ?_⟩
          · rintro rfl
            exact hne hj
          · by_cases hlt : cur.generation < generation
            · right
              have := not_and_not_right.mp hgen hlt
              exact ⟨hlt, this.1, this.2⟩
            · left
              omega

theorem length_exportEvents (seq : ℕ) (ops : List ExportOp) :
    (exportEvents seq ops).length = ops.length := by
  induction ops generalizing seq with
  | nil => rfl
  | cons op ops ih => rw [exportEvents, List.length_cons, ih, List.length_cons]

theorem ExportOp.event_seq (seq : ℕ) (op : ExportOp) : (op.event seq).seq = seq := by
  cases op with
  | att a => rfl
  | hold h => cases h <;> rfl

/-- Exported events number on from the clock. -/
theorem seqRun_exportEvents (seq : ℕ) (ops : List ExportOp) :
    SeqRun Event.seq seq (exportEvents seq ops) := by
  induction ops generalizing seq with
  | nil => trivial
  | cons op ops ih => exact ⟨op.event_seq (seq + 1), ih (seq + 1)⟩

theorem exportEvents_append (seq : ℕ) (ops ops' : List ExportOp) :
    exportEvents seq (ops ++ ops')
      = exportEvents seq ops ++ exportEvents (seq + ops.length) ops' := by
  induction ops generalizing seq with
  | nil => rfl
  | cons op ops ih =>
      rw [List.cons_append, exportEvents, ih, exportEvents, List.cons_append,
        List.length_cons, show seq + 1 + ops.length = seq + (ops.length + 1) by omega]

/-- An exported batch and the suffix a peer receives say the same of
possession. -/
theorem holdOp_exportEvents (seq : ℕ) (ops : List ExportOp) :
    (exportEvents seq ops).filterMap Event.holdOp = ExportOp.holds ops := by
  induction ops generalizing seq with
  | nil => rfl
  | cons op ops ih =>
      rw [exportEvents]
      cases op with
      | att a =>
          rw [List.filterMap_cons_none (by rfl), ih]
          rfl
      | hold h =>
          cases h with
          | add h =>
              rw [List.filterMap_cons_some (b := .add h) (by simp [ExportOp.event, Event.holdOp]),
                ih]
              rfl
          | drop h =>
              rw [List.filterMap_cons_some (b := .drop h) (by simp [ExportOp.event, Event.holdOp]),
                ih]
              rfl

-- =================================================== operations on replicas

/-- A suffix either leaves everything alone or extends its origin by a
run of its events. -/
theorem replica_applySuffix {s s' : Store} {o : Origin} {generation : ℕ}
    {events : List Event} {out : Apply}
    (h : applySuffix cd cfg s o generation events = .ok (out, s')) :
    s' = s ∨ (o ≠ cfg.selfName ∧ ∃ taken r,
      SuffixRead.From (s.db.clock o) generation events taken r
        ∧ ∀ o', s'.db.replica o' = if o' = o then
            (s.db.replica o).extend (generation, (s.db.clock o).seq + taken.length)
              (taken.map fun e => (e.seq, e)) (taken.filterMap Event.holdOp)
          else s.db.replica o') := by
  rw [applySuffix] at h
  split at h
  next => cases h
  next hknown =>
    simp only at h
    split at h
    next => cases h; exact Or.inl rfl
    next r hr =>
      obtain ⟨taken, hfrom⟩ := readSuffix_spec hr
      cases hap : s.applyEvents cd o ((s.db.clock o).generation, (s.db.clock o).seq)
          (generation, r.seq) r.journal r.holds r.attests with
      | mk ok s₁ =>
          rw [hap] at h
          cases ok with
          | false =>
              cases h
              exact Or.inl (applyEvents_refused cd hap)
          | true =>
              cases h
              refine Or.inr ⟨fun he => hknown (Or.inl he), taken, r, hfrom, fun o' => ?_⟩
              rw [(replica_applyEvents cd hap o').2, hfrom.seq, hfrom.journal, hfrom.holds]

theorem replica_applySnapshot {s s' : Store} {o : Origin} {generation seq : ℕ}
    {held : List Bytes} {n : ℕ}
    (h : applySnapshot cfg s o generation seq held = .ok (n, s')) :
    o ≠ cfg.selfName ∧ ∀ o', s'.db.replica o' =
      if o' = o ∧ staleSnapshot (s.db.clock o) generation seq = false then
        Replica.replace generation seq (held.filterMap NarHash.tryFrom)
      else s.db.replica o' := by
  rw [applySnapshot] at h
  split at h
  next => cases h
  next hknown =>
    cases h
    exact ⟨fun he => hknown (Or.inl he), replica_replaceHoldings s generation seq _⟩

theorem replica_mergeAttests (s : Store) (attests : List Attestation) (o : Origin) :
    (mergeAttests cd s attests).2.db.replica o = s.db.replica o := by
  rw [mergeAttests]
  split
  · rfl
  · exact replica_mergeAttestations cd s _ o

theorem replica_advanceWatermark (s : Store) (peer o : Origin) (seq : ℕ) (o' : Origin) :
    (s.advanceWatermark peer o seq).db.replica o' = s.db.replica o' := by
  rw [Store.advanceWatermark]
  split
  · exact replica_write_of_ne (by simp) (by simp) (by simp)
  · rfl

variable (cfg) in
theorem replica_recordWatermarks (s : Store) (peer : Origin) (clocks : List OriginClock)
    (o : Origin) : (recordWatermarks cfg s peer clocks).db.replica o = s.db.replica o := by
  rw [recordWatermarks]
  induction clocks generalizing s with
  | nil => rfl
  | cons c clocks ih =>
      rw [List.foldl_cons, ih, recordWatermark]
      split
      · rfl
      · split
        · rfl
        · exact replica_advanceWatermark s peer c.origin c.seq o

variable (cfg) in
/-- The floor never passes the clock. -/
theorem compactFloor_le (marks : Origin → ℕ) (c : Clock) :
    compactFloor cfg marks c ≤ c.seq := by
  have hfold : ∀ (peers : List Origin) (n : ℕ),
      peers.foldl (fun floor peer => min floor (marks peer)) n ≤ n := by
    intro peers
    induction peers with
    | nil => exact fun n => le_rfl
    | cons p peers ih => exact fun n => (ih _).trans (min_le_left _ _)
  exact max_le (hfold _ _) (Nat.sub_le _ _)

/-- What is at or below the floor and within the backstop of the clock
is at or below every peer's watermark. -/
theorem le_of_le_compactFloor {marks : Origin → ℕ} {c : Clock} {n : ℕ}
    (h : n ≤ compactFloor cfg marks c) (hstop : c.seq < n + JOURNAL_BACKSTOP) :
    ∀ peer ∈ cfg.peerNames, n ≤ marks peer := by
  have hfold : ∀ (peers : List Origin) (k : ℕ),
      n ≤ peers.foldl (fun floor peer => min floor (marks peer)) k →
        n ≤ k ∧ ∀ peer ∈ peers, n ≤ marks peer := by
    intro peers
    induction peers with
    | nil => exact fun k hk => ⟨hk, fun _ hp => (List.not_mem_nil hp).elim⟩
    | cons p peers ih =>
        intro k hk
        obtain ⟨hmin, hrest⟩ := ih _ hk
        refine ⟨hmin.trans (min_le_left _ _), fun q hq => ?_⟩
        rcases List.mem_cons.mp hq with rfl | hq
        · exact hmin.trans (min_le_right _ _)
        · exact hrest q hq
  intro peer hpeer
  rcases le_max_iff.mp h with h | h
  · exact (hfold _ _ h).2 peer hpeer
  · omega

variable (cfg) in
/-- Compaction of one origin moves its tail to the floor. -/
theorem replica_compactOne (marks : Origin → Origin → ℕ) (s : Store) (o o' : Origin) :
    (compactOne cfg marks s o).db.replica o'
      = if o' = o then
          (s.db.replica o).compactTo
            (compactFloor cfg (fun peer => marks peer o) (s.db.clock o))
        else s.db.replica o' := by
  rw [compactOne]
  split
  next => exact replica_compactJournal s o _ o'
  next hle =>
    split
    next he =>
      rw [he, Replica.compactTo_of_le (not_lt.mp hle)]
    next => rfl

variable (cfg) in
/-- What compaction of one origin to its floor preserves, `compact`
preserves. -/
theorem compact_preserves {P : Replica → Prop} {o : Origin} (s : Store)
    (hP : ∀ r, P r → P (r.compactTo
      (compactFloor cfg (fun peer => s.db.watermark peer o) r.clock)))
    (h : P (s.db.replica o)) : P ((compact cfg s).db.replica o) := by
  rw [compact]
  generalize s.db.watermark = marks at hP ⊢
  generalize cfg.originSet = os
  induction os generalizing s with
  | nil => exact h
  | cons o' os ih =>
      refine ih _ ?_
      rw [replica_compactOne]
      split
      next he =>
        rw [← he]
        exact hP _ h
      next => exact h

theorem Replica.compactTo_clock (r : Replica) (floor : ℕ) :
    (r.compactTo floor).clock.generation = r.clock.generation
      ∧ (r.compactTo floor).clock.seq = r.clock.seq := by
  rcases le_or_gt floor r.clock.tailSeq with h | h
  · rw [Replica.compactTo_of_le h]
    exact ⟨rfl, rfl⟩
  · rw [Replica.compactTo_of_lt h]
    exact ⟨rfl, rfl⟩

theorem replica_setDumpCursor (db : Db) (peer : Origin) (cursor : Bytes) (o : Origin) :
    (db.setDumpCursor peer cursor).replica o = db.replica o := rfl

theorem replica_restartAllDumps (db : Db) (o : Origin) :
    (restartAllDumps cfg db).replica o = db.replica o := by
  rw [restartAllDumps]
  induction cfg.peerNames generalizing db with
  | nil => rfl
  | cons p ps ih => rw [List.foldl_cons, ih, replica_setDumpCursor]

variable (cfg) in
/-- A remint restamps the own origin and touches no other. -/
theorem replica_bumpSelfGeneration (s : Store) (floor nanos : ℕ) (o : Origin) :
    (bumpSelfGeneration cfg s floor nanos).2.db.replica o
      = if o = cfg.selfName then
          (s.db.replica cfg.selfName).stamp (bumpSelfGeneration cfg s floor nanos).1
        else s.db.replica o := by
  rw [bumpSelfGeneration]
  simp only
  rw [replica_restartAllDumps, remintClock, replica_setGeneration]
  rfl

variable (cfg) in
/-- Opening over nothing stamps the own clock; there is no departed
origin to retire. -/
theorem openIndex_empty (nanos : ℕ) :
    openIndex cfg {} nanos
      = Store.setGeneration { db := { selfGeneration := some nanos } } cfg.selfName nanos := by
  have hdep : ((Store.setGeneration { db := { selfGeneration := some nanos } }
      cfg.selfName nanos).db.clocks.keys.filter fun o => decide (o ∉ cfg.originSet)) = [] := by
    rw [List.filter_eq_nil_iff]
    intro o ho
    have hget := OrdMap.mem_keys.mp ho
    change ((OrdMap.set ∅ cfg.selfName _).get o).isSome = true at hget
    rw [OrdMap.get_set] at hget
    split at hget
    next he =>
      rw [decide_eq_true_eq, not_not]
      exact Config.mem_originSet.mpr (Or.inl he)
    next => cases hget
  show (Store.setGeneration { db := { selfGeneration := some nanos } }
    cfg.selfName nanos).retainOrigins cfg.originSet = _
  rw [Store.retainOrigins, retainBatches]
  rw [hdep]
  rfl

variable (cfg) in
/-- A store just opened over nothing knows its own origin's generation
and nothing else. -/
theorem replica_openIndex_empty (nanos : ℕ) (o : Origin) :
    (openIndex cfg {} nanos).db.replica o
      = if o = cfg.selfName then
          Replica.stamp ⟨{}, fun _ => none, fun _ => false⟩ nanos
        else ⟨{}, fun _ => none, fun _ => false⟩ := by
  rw [openIndex_empty, replica_setGeneration]
  rfl

variable (cfg) in
theorem clock_openIndex_empty (nanos : ℕ) (o : Origin) :
    (openIndex cfg {} nanos).db.clock o
      = if o = cfg.selfName then ⟨nanos, 0, 0⟩ else {} := by
  rw [← Db.replica_clock, replica_openIndex_empty]
  split <;> rfl

variable (cd cfg) in
/-- One chunk of an export finds the clock it expects and extends the
own origin by its events. -/
theorem replica_exportChunk {s : Store} {c : Clock} (hc : s.db.clock cfg.selfName = c)
    (chunk : List ExportOp) :
    (exportChunk cd cfg s c.generation c.seq chunk).1 = true
      ∧ ∀ o, (exportChunk cd cfg s c.generation c.seq chunk).2.db.replica o
        = if o = cfg.selfName then
            (s.db.replica cfg.selfName).extend
              (c.generation, c.seq + (exportEvents c.seq chunk).length)
              ((exportEvents c.seq chunk).map fun e => (e.seq, e))
              ((exportEvents c.seq chunk).filterMap Event.holdOp)
          else s.db.replica o := by
  rw [exportChunk, holdOp_exportEvents, length_exportEvents]
  cases hap : s.applyEvents cd cfg.selfName (c.generation, c.seq)
      (c.generation, c.seq + chunk.length)
      ((exportEvents c.seq chunk).map fun e => (e.seq, e))
      (ExportOp.holds chunk) (ExportOp.attests chunk) with
  | mk ok s' =>
      cases ok with
      | false =>
          rw [Store.applyEvents, hc] at hap
          simp at hap
      | true => exact ⟨rfl, fun o => (replica_applyEvents cd hap o).2⟩

end Narshare
