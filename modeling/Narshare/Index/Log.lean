/-
A replica follows a log: what it means for a copy of an origin to be
right, and that every operation a node performs on a copy keeps it so.

`Follows log r` relates a replica to the events its origin has had under
each generation: the clock points into the log, the holdings are the
replay of the log up to the clock, and the journal holds exactly the
log's events above the tail. The lemmas are one per operation; Mesh.lean
puts them together over whole runs.
-/
import Narshare.Index.Apply

namespace Narshare

-- ================================================================== replay

/-- The holdings after a list of events: Have adds, Drop removes,
everything else passes. -/
def replay (events : List Event) (h : NarHash) : Bool :=
  possess (events.filterMap Event.holdOp) h false

theorem replay_append (events events' : List Event) (h : NarHash) :
    replay (events ++ events') h
      = possess (events'.filterMap Event.holdOp) h (replay events h) := by
  rw [replay, List.filterMap_append, possess_append, replay]

/-- The events of each generation of one origin. -/
abbrev EventLog := ℕ → List Event

/-- A right copy of an origin with the given log. -/
structure Follows (log : EventLog) (r : Replica) : Prop where
  seq_le : r.clock.seq ≤ (log r.clock.generation).length
  tail_le : r.clock.tailSeq ≤ r.clock.seq
  held : ∀ h, r.held h = replay ((log r.clock.generation).take r.clock.seq) h
  journal : ∀ k e, r.journal k = some e ↔
    (r.clock.tailSeq < k ∧ k ≤ r.clock.seq)
      ∧ (log r.clock.generation)[k - 1]? = some e

namespace Follows

variable {log log' : EventLog} {r : Replica}

/-- Two copies at one clock hold the same. -/
theorem held_eq {r' : Replica} (h : Follows log r) (h' : Follows log r')
    (hg : r.clock.generation = r'.clock.generation) (hs : r.clock.seq = r'.clock.seq) :
    r.held = r'.held := by
  funext x
  rw [h.held, h'.held, hg, hs]

/-- An origin never heard of is followed by whatever its log is. -/
theorem zero (log : EventLog) : Follows log ⟨{}, fun _ => none, fun _ => false⟩ where
  seq_le := Nat.zero_le _
  tail_le := le_rfl
  held _ := rfl
  journal k e := by
    refine ⟨fun h => (by cases h), fun h => ?_⟩
    have h₁ : 0 < k := h.1.1
    have h₂ : k ≤ 0 := h.1.2
    omega

/-- Logs only grow at their ends, which no copy notices. -/
theorem of_log (h : Follows log r)
    (hp : log r.clock.generation <+: log' r.clock.generation) : Follows log' r where
  seq_le := h.seq_le.trans hp.length_le
  tail_le := h.tail_le
  held x := by
    obtain ⟨t, ht⟩ := hp
    rw [h.held, ← ht, List.take_append_of_le_length h.seq_le]
  journal k e := by
    obtain ⟨t, ht⟩ := hp
    rw [h.journal, ← ht]
    refine and_congr_right fun hk => ?_
    rw [List.getElem?_append_left (by have := h.seq_le; omega)]

end Follows

-- =============================================================== extension

/-- Journal rows put in sequence read back as the run they are. -/
theorem journal_puts {a k : ℕ} {taken : List Event} (hrun : SeqRun Event.seq a taken)
    (o : Option Event) :
    (taken.map fun e => (e.seq, e)).foldl (fun o e => if e.1 = k then some e.2 else o) o
      = if a < k ∧ k ≤ a + taken.length then taken[k - a - 1]? else o := by
  induction taken generalizing a o with
  | nil =>
      rw [List.length_nil, if_neg (by omega)]
      rfl
  | cons e es ih =>
      obtain ⟨he, hes⟩ := hrun
      rw [List.map_cons, List.foldl_cons, ih hes, List.length_cons]
      by_cases hk : k = a + 1
      · subst hk
        rw [if_neg (by omega), if_pos he, if_pos (by omega)]
        simp
      · by_cases hin : a + 1 < k ∧ k ≤ a + 1 + es.length
        · rw [if_pos hin, if_pos (by omega)]
          obtain ⟨i, hi⟩ : ∃ i, k - a - 1 = i + 1 := ⟨k - a - 2, by omega⟩
          rw [hi, List.getElem?_cons_succ]
          congr 1
          omega
        · rw [if_neg hin, if_neg (by omega), if_neg (by omega)]

/-- `apply_events` with the next events of a log keeps the copy right:
`taken` runs on from the clock, sits in the log at its own numbers, and
the log it came from begins as the old one did. -/
theorem Follows.extend {log : EventLog} {r : Replica} (h : Follows log r) {generation : ℕ}
    (hpast : (log generation).take r.clock.seq
      = (log r.clock.generation).take r.clock.seq)
    {taken : List Event} (hrun : SeqRun Event.seq r.clock.seq taken)
    (hlog : ∀ e ∈ taken, (log generation)[e.seq - 1]? = some e) :
    Follows log (r.extend (generation, r.clock.seq + taken.length)
      (taken.map fun e => (e.seq, e)) (taken.filterMap Event.holdOp)) := by
  have hseg := hrun.eq_segment hlog
  have hlen : r.clock.seq + taken.length ≤ (log generation).length := by
    have h₁ := congrArg List.length hseg
    have h₂ := congrArg List.length hpast
    rw [List.length_take, List.length_drop] at h₁
    rw [List.length_take, List.length_take, Nat.min_eq_left h.seq_le] at h₂
    omega
  have hsplit : (log generation).take (r.clock.seq + taken.length)
      = (log r.clock.generation).take r.clock.seq ++ taken := by
    rw [List.take_add, hpast, ← hseg]
  constructor
  · exact hlen
  · exact h.tail_le.trans (Nat.le_add_right _ _)
  · intro x
    change possess _ x (r.held x)
      = replay ((log generation).take (r.clock.seq + taken.length)) x
    rw [hsplit, replay_append, h.held]
  · intro k e
    change (taken.map fun e => (e.seq, e)).foldl _ (r.journal k) = some e ↔
      (r.clock.tailSeq < k ∧ k ≤ r.clock.seq + taken.length)
        ∧ (log generation)[k - 1]? = some e
    rw [journal_puts hrun]
    by_cases hk : r.clock.seq < k ∧ k ≤ r.clock.seq + taken.length
    · rw [if_pos hk]
      have hget : (log generation)[k - 1]? = taken[k - r.clock.seq - 1]? := by
        have hlt : k - 1 < r.clock.seq + taken.length := by omega
        have hle := h.seq_le
        have hlen' : ((log r.clock.generation).take r.clock.seq).length = r.clock.seq := by
          rw [List.length_take, Nat.min_eq_left hle]
        calc (log generation)[k - 1]?
            = ((log generation).take (r.clock.seq + taken.length))[k - 1]? := by
              rw [List.getElem?_take, if_pos hlt]
          _ = ((log r.clock.generation).take r.clock.seq ++ taken)[k - 1]? := by
              rw [hsplit]
          _ = taken[k - r.clock.seq - 1]? := by
              rw [List.getElem?_append_right (by omega), hlen']
              congr 1
              omega
      rw [hget]
      have := h.tail_le
      exact ⟨fun he => ⟨by omega, he⟩, fun he => he.2⟩
    · rw [if_neg hk, h.journal]
      have hsame : k ≤ r.clock.seq → 0 < k →
          (log generation)[k - 1]? = (log r.clock.generation)[k - 1]? := by
        intro hle hpos
        have hlt : k - 1 < r.clock.seq := by omega
        have := congrArg (fun l => l[k - 1]?) hpast
        simpa only [List.getElem?_take, if_pos hlt] using this
      constructor
      · rintro ⟨hin, he⟩
        exact ⟨by omega, by rw [hsame hin.2 (by omega), he]⟩
      · rintro ⟨hin, he⟩
        have hle : k ≤ r.clock.seq := by omega
        exact ⟨by omega, by rw [← hsame hle (by omega), he]⟩

namespace Follows

variable {log log' : EventLog} {r : Replica}

/-- A snapshot that replays the log makes a right copy. -/
theorem replace {generation seq : ℕ} {held : List NarHash}
    (hseq : seq ≤ (log generation).length)
    (hheld : ∀ h, h ∈ held ↔ replay ((log generation).take seq) h = true) :
    Follows log (Replica.replace generation seq held) where
  seq_le := hseq
  tail_le := le_rfl
  held x := by
    change decide (x ∈ held) = _
    rw [Bool.eq_iff_iff, decide_eq_true_eq]
    exact hheld x
  journal k e := by
    refine ⟨fun h => (by cases h), fun h => ?_⟩
    have h₁ : seq < k := h.1.1
    have h₂ : k ≤ seq := h.1.2
    omega

/-- Compaction within the clock keeps the copy right. -/
theorem compactTo (h : Follows log r) {floor : ℕ} (hfloor : floor ≤ r.clock.seq) :
    Follows log (r.compactTo floor) := by
  by_cases hle : floor ≤ r.clock.tailSeq
  · rw [Replica.compactTo_of_le hle]
    exact h
  · rw [Replica.compactTo_of_lt (not_le.mp hle)]
    refine ⟨h.seq_le, hfloor, h.held, fun k e => ?_⟩
    simp only
    split
    next hk => exact ⟨fun he => (by cases he), fun he => absurd he.1 (by omega)⟩
    next hk =>
      rw [h.journal]
      exact and_congr_left fun _ => by omega

/-- Moving to another generation with the same log keeps the copy
right. -/
theorem stamp (h : Follows log r) {generation : ℕ}
    (hsame : log' generation = log r.clock.generation) :
    Follows log' (r.stamp generation) := by
  refine ⟨?_, h.tail_le, fun x => ?_, fun k e => ?_⟩
  · exact hsame ▸ h.seq_le
  · change r.held x = replay ((log' generation).take r.clock.seq) x
    rw [hsame, h.held]
  · change r.journal k = some e ↔ _ ∧ (log' generation)[k - 1]? = some e
    rw [hsame, h.journal]
    rfl

end Follows

-- ================================================================= exports

/-- An export whose events are the log's next ones keeps the own copy
right, brings the clock to their end, and touches no other origin. -/
theorem exportChunks_follows (cd : Codec) (cfg : Config) {log : EventLog}
    {generation seq : ℕ} (cs : List (List ExportOp)) {s : Store}
    (hg : (s.db.clock cfg.selfName).generation = generation)
    (hs : (s.db.clock cfg.selfName).seq = seq)
    (h : Follows log (s.db.replica cfg.selfName))
    (hlog : ∀ e ∈ exportEvents seq cs.flatten, (log generation)[e.seq - 1]? = some e) :
    let done := exportChunks cd cfg generation cs seq s
    done.1 = true
      ∧ Follows log (done.2.db.replica cfg.selfName)
      ∧ (done.2.db.clock cfg.selfName).generation = generation
      ∧ (done.2.db.clock cfg.selfName).seq = seq + cs.flatten.length
      ∧ ∀ o, o ≠ cfg.selfName → done.2.db.replica o = s.db.replica o := by
  induction cs generalizing s seq with
  | nil => exact ⟨rfl, h, hg, hs, fun _ _ => rfl⟩
  | cons chunk cs ih =>
      rw [List.flatten_cons, exportEvents_append] at hlog
      obtain ⟨hok, hrep⟩ := replica_exportChunk cd cfg (s := s) rfl chunk
      rw [hg, hs] at hok hrep
      have hself := hrep cfg.selfName
      rw [if_pos rfl] at hself
      have hclock : ((exportChunk cd cfg s generation seq chunk).2.db.clock cfg.selfName)
          = ⟨generation, seq + chunk.length, (s.db.clock cfg.selfName).tailSeq⟩ := by
        refine (congrArg Replica.clock hself).trans ?_
        rw [← length_exportEvents seq chunk]
        rfl
      have hfol : Follows log
          ((exportChunk cd cfg s generation seq chunk).2.db.replica cfg.selfName) := by
        have hpast : (log generation).take (s.db.replica cfg.selfName).clock.seq
            = (log (s.db.replica cfg.selfName).clock.generation).take
                (s.db.replica cfg.selfName).clock.seq := by
          rw [← hg]
          rfl
        have hrun : SeqRun Event.seq (s.db.replica cfg.selfName).clock.seq
            (exportEvents seq chunk) := by
          rw [Db.replica_clock, hs]
          exact seqRun_exportEvents seq chunk
        have hext := h.extend hpast hrun fun e he => hlog e (List.mem_append_left _ he)
        rw [Db.replica_clock, hs] at hext
        rw [hself]
        exact hext
      have hseq : ((exportChunk cd cfg s generation seq chunk).2.db.clock cfg.selfName).seq
          = seq + chunk.length := by rw [hclock]
      obtain ⟨h₁, h₂, h₃, h₄, h₅⟩ := ih (by rw [hclock]) hseq hfol
        fun e he => hlog e (List.mem_append_right _ he)
      rw [exportChunks]
      simp only [hok, if_true]
      refine ⟨h₁, h₂, h₃, ?_, fun o ho => (h₅ o ho).trans ?_⟩
      · rw [h₄, List.flatten_cons, List.length_append]
        omega
      · rw [hrep o, if_neg ho]

end Narshare
