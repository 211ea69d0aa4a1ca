/-
Acknowledgements: which journal events `compact` may discard, and on
whose word.

# The ledger

Here the operations of the index run one after another, each in whole.
`reports` is ghost state: every clock line a peer has sent, whether or
not `record_watermarks` made anything of it. A peer has `Acknowledged`
an event when one of its lines, UNDER THE GENERATION THE ORIGIN HAS NOW,
is at or above it.

# What holds

A watermark is either at or below the tail, where it can unblock
nothing, or some line of the current generation backs it (`Backed`).
`record_watermarks` keeps this, by dropping lines of other generations;
what breaks it is a change of the stored generation, since the rows of
`wm` carry none and stay. `MarksBehind` asks of each such change that no
peer's row for the origin lie above the tail the clock will have.
-/
import Narshare.Index.Log
import Narshare.Store.Join
import Narshare.Lib.System

namespace Narshare

variable (cd : Codec) (cfg : Config)

-- ============================================================== the ledger

/-- The store, and every clock line reported with the peer that sent
it. -/
structure Ledger where
  store : Store
  reports : List (Origin × OriginClock)

namespace Ledger

/-- The operations of the index. -/
inductive Act
  | exportOps (attests : List Attestation) (holds : List HoldOp)
  | remint (floor nanos : ℕ)
  | applySuffix (o : Origin) (generation : ℕ) (events : List Event)
  | applySnapshot (o : Origin) (generation seq : ℕ) (held : List Bytes)
  | mergeAttests (attests : List Attestation)
  | recordWatermarks (peer : Origin) (clocks : List OriginClock)
  | compact

/-- The guarded step. -/
def step (m : Ledger) : Act → Option Ledger
  | .exportOps attests holds =>
      some { m with store := (Narshare.exportOps cd cfg m.store attests holds).2 }
  | .remint floor nanos =>
      some { m with store := (bumpSelfGeneration cfg m.store floor nanos).2 }
  | .applySuffix o generation events =>
      match Narshare.applySuffix cd cfg m.store o generation events with
      | .ok (_, s) => some { m with store := s }
      | .error _ => none
  | .applySnapshot o generation seq held =>
      match Narshare.applySnapshot cfg m.store o generation seq held with
      | .ok (_, s) => some { m with store := s }
      | .error _ => none
  | .mergeAttests attests =>
      some { m with store := (Narshare.mergeAttests cd m.store attests).2 }
  | .recordWatermarks peer clocks =>
      some { store := Narshare.recordWatermarks cfg m.store peer clocks
             reports := m.reports ++ clocks.map fun c => (peer, c) }
  | .compact => some { m with store := Narshare.compact cfg m.store }

/-- `peer` has reported a clock at or above `n` under the generation the
origin has now. -/
def Acknowledged (m : Ledger) (peer o : Origin) (n : ℕ) : Prop :=
  ∃ c, (peer, c) ∈ m.reports ∧ c.origin = o
    ∧ c.generation = (m.store.db.clock o).generation ∧ n ≤ c.seq

/-- The origin whose stored generation a step changes, if it changes
one, with the tail its clock will have. -/
def regenerates (m : Ledger) : Act → Option (Origin × ℕ)
  | .remint floor nanos =>
      let c := m.store.db.clock cfg.selfName
      if remintGeneration floor nanos = c.generation then none else some (cfg.selfName, c.tailSeq)
  | .applySuffix o generation _ =>
      let c := m.store.db.clock o
      if c.generation = 0 ∧ c.seq = 0 ∧ 0 < generation then some (o, c.tailSeq) else none
  | .applySnapshot o generation seq _ =>
      if (m.store.db.clock o).generation < generation then some (o, seq) else none
  | _ => none

/-- When a step changes an origin's generation, no configured peer's
watermark for it lies above the tail it will have. -/
def MarksBehind (m : Ledger) (a : Act) : Prop :=
  ∀ c ∈ m.regenerates cfg a, ∀ peer ∈ cfg.peerNames, m.store.db.watermark peer c.1 ≤ c.2

instance (m : Ledger) (a : Act) : Decidable (m.MarksBehind cfg a) :=
  inferInstanceAs (Decidable (∀ c ∈ m.regenerates cfg a,
    ∀ peer ∈ cfg.peerNames, m.store.db.watermark peer c.1 ≤ c.2))

end Ledger

/-- The index of one node, from a store just opened. -/
def ledgerSystem : System Ledger Ledger.Act where
  init m := ∃ nanos, m = ⟨openIndex cfg {} nanos, []⟩
  step m a := m.step cd cfg a

-- ===================================================== the watermark table

variable {cd cfg}

/-- A snapshot writes no watermark. -/
theorem wm_replaceHoldings (s : Store) (o : Origin) (generation seq : ℕ)
    (held : List NarHash) :
    (s.replaceHoldings o generation seq held).2.db.wm = s.db.wm := by
  rw [Store.replaceHoldings]
  split
  next => rfl
  next =>
    exact wm_writeAll _ (wm_replaceBatches _ o generation seq _)

/-- Nor does a merge of facts. -/
theorem wm_mergeAttests (s : Store) (attests : List Attestation) :
    (mergeAttests cd s attests).2.db.wm = s.db.wm := by
  rw [mergeAttests]
  split
  next => rfl
  next =>
    rw [Store.mergeAttestations]
    split
    next =>
      refine wm_writeAll [_] fun b hb => ?_
      rw [List.mem_singleton.mp hb, (Batch.factsOnly_movesBatch cd _).wm]
    next => rfl

/-- Nor does compaction, which reads them all. -/
theorem wm_compactOne (marks : Origin → Origin → ℕ) (s : Store) (o : Origin) :
    (compactOne cfg marks s o).db.wm = s.db.wm := by
  rw [compactOne]
  split
  next =>
    refine wm_writeAll [_] fun b hb => ?_
    rw [List.mem_singleton.mp hb, compactBatch]
    split <;> rfl
  next => rfl

/-- Nor does a remint, which is why marks outlive the generation they were
made in. -/
theorem wm_bumpSelfGeneration (s : Store) (floor nanos : ℕ) :
    (bumpSelfGeneration cfg s floor nanos).2.db.wm = s.db.wm := by
  unfold bumpSelfGeneration restartAllDumps
  exact List.foldlRecOn _ _ (motive := fun db : Db => db.wm = s.db.wm) rfl
    fun _ hdb _ _ => hdb

/-- Nor does a suffix that is applied. -/
theorem wm_applySuffix {s s' : Store} {o : Origin} {generation : ℕ} {events : List Event}
    {out : Apply} (h : applySuffix cd cfg s o generation events = .ok (out, s')) :
    s'.db.wm = s.db.wm := by
  rw [applySuffix] at h
  split at h
  next => cases h
  next =>
    simp only at h
    split at h
    next => cases h; rfl
    next r _ =>
      split at h
      next => cases h; exact wm_applyEvents cd s o _ _ _ _ _
      next => cases h; exact wm_applyEvents cd s o _ _ _ _ _

-- ============================================== clocks, and what a step keeps

/-- A clock that stays in its generation and whose tail does not fall. -/
structure Clock.Kept (c c' : Clock) : Prop where
  generation : c'.generation = c.generation
  tail : c.tailSeq ≤ c'.tailSeq

/-- What an operation other than `record_watermarks` does to the
watermarks and the clocks: the rows stay, tails stay within clocks, and
an origin keeps its generation while its tail rises, but for the one
that `call` names. -/
structure Kept (call : Option (Origin × ℕ)) (s s' : Store) : Prop where
  wm : s'.db.wm = s.db.wm
  tail_le : ∀ o, (s'.db.clock o).tailSeq ≤ (s'.db.clock o).seq
  clock : ∀ o, (s.db.clock o).Kept (s'.db.clock o)
    ∨ call = some (o, (s'.db.clock o).tailSeq)

/-- Tails lie within clocks. -/
def Store.TailsIn (s : Store) : Prop := ∀ o, (s.db.clock o).tailSeq ≤ (s.db.clock o).seq

namespace Kept

theorem refl {s : Store} (h : s.TailsIn) (call : Option (Origin × ℕ)) : Kept call s s :=
  ⟨rfl, h, fun _ => Or.inl ⟨rfl, le_rfl⟩⟩

theorem trans {s₁ s₂ s₃ : Store} (h : Kept none s₁ s₂) (h' : Kept none s₂ s₃) :
    Kept none s₁ s₃ := by
  refine ⟨h'.wm.trans h.wm, h'.tail_le, fun o => ?_⟩
  rcases h.clock o with hc | hcall
  · rcases h'.clock o with hc' | hcall'
    · exact Or.inl ⟨hc'.generation.trans hc.generation, hc.tail.trans hc'.tail⟩
    · cases hcall'
  · cases hcall

/-- What moves no clock keeps everything. -/
theorem of_clock_eq {s s' : Store} (h : s.TailsIn) (call : Option (Origin × ℕ))
    (hwm : s'.db.wm = s.db.wm) (hc : ∀ o, s'.db.replica o = s.db.replica o) :
    Kept call s s' := by
  have hclock : ∀ o, s'.db.clock o = s.db.clock o := fun o =>
    congrArg Replica.clock (hc o)
  refine ⟨hwm, fun o => ?_, fun o => Or.inl ⟨?_, ?_⟩⟩
  · rw [hclock]
    exact h o
  · rw [hclock]
  · rw [hclock]

/-- One call of `apply_events` that keeps the generation it expects. -/
theorem of_applyEvents {s : Store} (h : s.TailsIn) (o : Origin) {generation seq seq' : ℕ}
    (hseq : seq ≤ seq') (journal : List (ℕ × Event)) (holds : List HoldOp)
    (attests : List Attestation) :
    Kept none s (s.applyEvents cd o (generation, seq) (generation, seq')
      journal holds attests).2 := by
  have hwm := wm_applyEvents cd s o (generation, seq) (generation, seq')
    journal holds attests
  cases hap : s.applyEvents cd o (generation, seq) (generation, seq') journal holds
      attests with
  | mk ok s' =>
      rw [hap] at hwm
      cases ok with
      | false =>
          rw [applyEvents_refused cd hap]
          exact refl h none
      | true =>
          have hclock : ∀ o', s'.db.clock o' = if o' = o then
              ⟨generation, seq', (s.db.clock o).tailSeq⟩ else s.db.clock o' := by
            intro o'
            have hrep := congrArg Replica.clock (replica_applyEvents cd hap o').2
            rw [Db.replica_clock] at hrep
            rw [hrep]
            split <;> rfl
          have hexp := Prod.mk.inj (replica_applyEvents cd hap o).1
          refine ⟨hwm, fun o' => ?_, fun o' => Or.inl ?_⟩
          · rw [hclock]
            split
            next => exact (hexp.2 ▸ h o).trans hseq
            next => exact h o'
          · rw [hclock]
            split
            next he =>
              rw [he]
              exact ⟨hexp.1.symm, le_rfl⟩
            next => exact ⟨rfl, le_rfl⟩

theorem of_exportOps {s : Store} (h : s.TailsIn) (attests : List Attestation)
    (holds : List HoldOp) : Kept none s (exportOps cd cfg s attests holds).2 := by
  have hchunks : ∀ (generation : ℕ) (cs : List (List ExportOp)) (seq : ℕ) (s : Store),
      s.TailsIn → Kept none s (exportChunks cd cfg generation cs seq s).2 := by
    intro generation cs
    induction cs with
    | nil => exact fun _ s h => refl h none
    | cons chunk cs ih =>
        intro seq s h
        have hone : Kept none s (exportChunk cd cfg s generation seq chunk).2 :=
          of_applyEvents h cfg.selfName (Nat.le_add_right _ _) _ _ _
        rw [exportChunks]
        split
        next => exact hone.trans (ih _ _ hone.tail_le)
        next => exact hone
  exact hchunks _ _ _ s h

theorem of_compact {s : Store} (h : s.TailsIn) : Kept none s (compact cfg s) := by
  have hclock : ∀ o, ((compact cfg s).db.clock o).tailSeq ≤ ((compact cfg s).db.clock o).seq
      ∧ (s.db.clock o).Kept ((compact cfg s).db.clock o) := by
    intro o
    refine compact_preserves cfg (P := fun r => r.clock.tailSeq ≤ r.clock.seq
      ∧ (s.db.clock o).Kept r.clock) s ?_ ⟨h o, rfl, le_rfl⟩
    intro r ⟨htail, hkept⟩
    have hle := compactFloor_le cfg (fun peer => s.db.watermark peer o) r.clock
    generalize compactFloor cfg (fun peer => s.db.watermark peer o) r.clock = floor at hle ⊢
    rcases le_or_gt floor r.clock.tailSeq with hno | hlt
    · rw [Replica.compactTo_of_le hno]
      exact ⟨htail, hkept⟩
    · rw [Replica.compactTo_of_lt hlt]
      exact ⟨hle, hkept.generation, hkept.tail.trans hlt.le⟩
  refine ⟨?_, fun o => (hclock o).1, fun o => Or.inl (hclock o).2⟩
  exact List.foldlRecOn _ _ (motive := fun t : Store => t.db.wm = s.db.wm) rfl
    fun t ht o _ => (wm_compactOne _ t o).trans ht

end Kept

namespace Ledger

/-- Every step that records no clock lines keeps the watermarks, and all
clocks but the one it regenerates. -/
theorem step_kept {m m' : Ledger} {a : Act} (h : m.store.TailsIn)
    (hs : m.step cd cfg a = some m') :
    (m'.reports = m.reports ∧ Kept (m.regenerates cfg a) m.store m'.store)
      ∨ ∃ peer clocks, a = .recordWatermarks peer clocks
        ∧ m' = ⟨Narshare.recordWatermarks cfg m.store peer clocks,
            m.reports ++ clocks.map fun c => (peer, c)⟩ := by
  cases a with
  | exportOps attests holds =>
      cases hs
      exact Or.inl ⟨rfl, Kept.of_exportOps h attests holds⟩
  | remint floor nanos =>
      cases hs
      refine Or.inl ⟨rfl, wm_bumpSelfGeneration m.store floor nanos, fun o => ?_, fun o => ?_⟩
      · have hrep := congrArg Replica.clock
          (replica_bumpSelfGeneration cfg m.store floor nanos o)
        rw [Db.replica_clock] at hrep
        rw [hrep]
        split
        next he => exact h cfg.selfName
        next => exact h o
      · have hrep := congrArg Replica.clock
          (replica_bumpSelfGeneration cfg m.store floor nanos o)
        rw [Db.replica_clock] at hrep
        rw [hrep, regenerates]
        split
        next he =>
          rw [he]
          split
          next hsame => exact Or.inl ⟨hsame, le_rfl⟩
          next => exact Or.inr rfl
        next => exact Or.inl ⟨rfl, le_rfl⟩
  | applySuffix o generation events =>
      simp only [step] at hs
      split at hs
      next out s hap =>
        cases hs
        have hwm := wm_applySuffix hap
        rcases replica_applySuffix hap with rfl | ⟨-, taken, r, hfrom, hrep⟩
        · exact Or.inl ⟨rfl, Kept.refl h _⟩
        have hclock : ∀ o', s.db.clock o' = if o' = o then
            ⟨generation, (m.store.db.clock o).seq + taken.length,
              (m.store.db.clock o).tailSeq⟩ else m.store.db.clock o' := by
          intro o'
          have hrep' := congrArg Replica.clock (hrep o')
          rw [Db.replica_clock] at hrep'
          rw [hrep']
          split <;> rfl
        refine Or.inl ⟨rfl, hwm, fun o' => ?_, fun o' => ?_⟩
        · rw [hclock]
          split
          next => exact (h o).trans (Nat.le_add_right _ _)
          next => exact h o'
        · rw [hclock]
          split
          next he =>
            rw [he]
            rcases hfrom.generation with hg | ⟨hlt, hg0, hs0⟩
            · exact Or.inl ⟨hg, le_rfl⟩
            · refine Or.inr ?_
              simp only [regenerates]
              rw [if_pos ⟨hg0, hs0, by omega⟩]
          next => exact Or.inl ⟨rfl, le_rfl⟩
      next => cases hs
  | applySnapshot o generation seq held =>
      simp only [step] at hs
      split at hs
      next n s hap =>
        cases hs
        obtain ⟨-, hrep⟩ := replica_applySnapshot hap
        have hwm : s.db.wm = m.store.db.wm := by
          unfold Narshare.applySnapshot at hap
          split at hap
          · cases hap
          · cases hap
            exact wm_replaceHoldings m.store o generation seq _
        have hclock : ∀ o', s.db.clock o' =
            if o' = o ∧ staleSnapshot (m.store.db.clock o) generation seq = false then
              ⟨generation, seq, seq⟩ else m.store.db.clock o' := by
          intro o'
          have hrep' := congrArg Replica.clock (hrep o')
          rw [Db.replica_clock] at hrep'
          rw [hrep']
          split <;> rfl
        refine Or.inl ⟨rfl, hwm, fun o' => ?_, fun o' => ?_⟩
        · rw [hclock]
          split
          next => exact le_rfl
          next => exact h o'
        · rw [hclock]
          split
          next hnew =>
            obtain ⟨rfl, hst⟩ := hnew
            simp only [staleSnapshot, Bool.or_eq_false_iff, Bool.and_eq_false_iff,
              decide_eq_false_iff_not, not_lt] at hst
            simp only [regenerates]
            rcases Nat.lt_or_eq_of_le hst.1 with hlt | heq
            · rw [if_pos hlt]
              exact Or.inr rfl
            · have hseq := hst.2.resolve_left fun hne => hne heq.symm
              exact Or.inl ⟨heq.symm, (h o').trans hseq⟩
          next => exact Or.inl ⟨rfl, le_rfl⟩
      next => cases hs
  | mergeAttests attests =>
      cases hs
      exact Or.inl ⟨rfl, Kept.of_clock_eq h _ (wm_mergeAttests m.store attests)
        (replica_mergeAttests m.store attests)⟩
  | recordWatermarks peer clocks =>
      cases hs
      exact Or.inr ⟨peer, clocks, rfl, rfl⟩
  | compact =>
      cases hs
      exact Or.inl ⟨rfl, Kept.of_compact h⟩

end Ledger

-- ========================================================== backed watermarks

variable (cfg) in
/-- After `record_watermarks` a row is what it was, or it is a line just
sent under the origin's generation. -/
theorem watermark_recordWatermarks (s : Store) (peer : Origin) (clocks : List OriginClock)
    (p o : Origin) :
    (recordWatermarks cfg s peer clocks).db.watermark p o = s.db.watermark p o
      ∨ p = peer ∧ ∃ c ∈ clocks, c.origin = o
        ∧ c.generation = (s.db.clock o).generation
        ∧ (recordWatermarks cfg s peer clocks).db.watermark p o = c.seq := by
  induction clocks generalizing s with
  | nil => exact Or.inl rfl
  | cons c clocks ih =>
      have hclock : (recordWatermark cfg peer s c).db.clock o = s.db.clock o :=
        congrArg Replica.clock (replica_recordWatermarks cfg s peer [c] o)
      have hone : (recordWatermark cfg peer s c).db.watermark p o = s.db.watermark p o
          ∨ p = peer ∧ c.origin = o ∧ c.generation = (s.db.clock o).generation
            ∧ (recordWatermark cfg peer s c).db.watermark p o = c.seq := by
        rw [recordWatermark]
        split
        next => exact Or.inl rfl
        split
        next => exact Or.inl rfl
        next hgen =>
          rw [Store.advanceWatermark]
          split
          next =>
            have hread : (s.db.write
                { wm := [(toLex (peer, c.origin), some c.seq)] }).watermark p o
                = if toLex (p, o) = toLex (peer, c.origin) then c.seq
                  else s.db.watermark p o := by
              show ((s.db.wm.set (toLex (peer, c.origin)) (some c.seq)).get
                (toLex (p, o))).getD 0 = _
              rw [OrdMap.get_set]
              split <;> rfl
            simp only
            rw [hread]
            split
            next he =>
              obtain ⟨rfl, rfl⟩ := Prod.mk.inj (toLex_inj.mp he)
              exact Or.inr ⟨rfl, rfl, (not_not.mp hgen).symm, rfl⟩
            next => exact Or.inl rfl
          next => exact Or.inl rfl
      have hfold : recordWatermarks cfg s peer (c :: clocks)
          = recordWatermarks cfg (recordWatermark cfg peer s c) peer clocks := rfl
      rw [hfold]
      rcases ih (recordWatermark cfg peer s c) with hsame | ⟨hp, c', hc', ho, hg, hseq⟩
      · rw [hsame]
        rcases hone with hone | ⟨hp, ho, hg, hseq⟩
        · exact Or.inl hone
        · exact Or.inr ⟨hp, c, List.mem_cons_self, ho, hg, hseq⟩
      · exact Or.inr ⟨hp, c', List.mem_cons_of_mem _ hc', ho, hclock ▸ hg, hseq⟩

/-- A configured peer's watermark lies behind the tail, or the peer has
reported it under the origin's generation. -/
def Ledger.Backed (cfg : Config) (m : Ledger) : Prop :=
  ∀ p ∈ cfg.peerNames, ∀ o,
    m.store.db.watermark p o ≤ (m.store.db.clock o).tailSeq
      ∨ m.Acknowledged p o (m.store.db.watermark p o)

/-- What holds along runs whose regenerations leave the marks behind. -/
structure Ledger.Inv (cfg : Config) (m : Ledger) : Prop where
  tails : m.store.TailsIn
  backed : m.Backed cfg

namespace Ledger

/-- A store just opened has no watermark, so there is none to back. -/
theorem Inv.init (nanos : ℕ) : Inv cfg ⟨openIndex cfg {} nanos, []⟩ := by
  have hclock := clock_openIndex_empty cfg nanos
  refine ⟨fun o => ?_, fun p _ o => Or.inl ?_⟩
  · show ((openIndex cfg {} nanos).db.clock o).tailSeq
      ≤ ((openIndex cfg {} nanos).db.clock o).seq
    rw [hclock]
    split <;> exact Nat.zero_le _
  · have hwm : (openIndex cfg {} nanos).db.watermark p o = 0 := by
      rw [openIndex_empty]
      rfl
    show (openIndex cfg {} nanos).db.watermark p o ≤ _
    rw [hwm]
    exact Nat.zero_le _

/-- A step that regenerates an origin only where no peer's mark lies above its
new tail keeps every mark backed. -/
theorem Inv.step {m m' : Ledger} {a : Act} (h : Inv cfg m) (hok : m.MarksBehind cfg a)
    (hs : m.step cd cfg a = some m') : Inv cfg m' := by
  rcases step_kept h.tails hs with ⟨hrep, hkept⟩ | ⟨peer, clocks, rfl, rfl⟩
  · refine ⟨hkept.tail_le, fun p hp o => ?_⟩
    have hwm : m'.store.db.watermark p o = m.store.db.watermark p o := by
      unfold Db.watermark
      rw [hkept.wm]
    rw [hwm]
    rcases hkept.clock o with hc | hcall
    · rcases h.backed p hp o with hle | ⟨c, hc', ho, hg, hn⟩
      · exact Or.inl (hle.trans hc.tail)
      · exact Or.inr ⟨c, hrep ▸ hc', ho, hg.trans hc.generation.symm, hn⟩
    · exact Or.inl (hok _ hcall p hp)
  · have hclock : ∀ o, (Narshare.recordWatermarks cfg m.store peer clocks).db.clock o
        = m.store.db.clock o := fun o =>
      congrArg Replica.clock (replica_recordWatermarks cfg m.store peer clocks o)
    refine ⟨fun o => ?_, fun p hp o => ?_⟩
    · simp only
      rw [hclock]
      exact h.tails o
    · unfold Acknowledged
      simp only
      rw [hclock]
      rcases watermark_recordWatermarks cfg m.store peer clocks p o with
        hsame | ⟨rfl, c, hc, ho, hg, hseq⟩
      · rw [hsame]
        rcases h.backed p hp o with hle | ⟨c, hc, ho, hg, hn⟩
        · exact Or.inl hle
        · exact Or.inr ⟨c, List.mem_append_left _ hc, ho, hg, hn⟩
      · exact Or.inr ⟨c, List.mem_append_right _ (List.mem_map.mpr ⟨c, hc, rfl⟩), ho, hg,
          hseq.le⟩

/-- So it holds throughout a run that meets the condition. -/
theorem inv_of_reachIf {m : Ledger}
    (h : (ledgerSystem cd cfg).ReachIf (MarksBehind cfg) m) : Inv cfg m := by
  refine System.ReachIf.invariant ?_ ?_ h
  · rintro s ⟨nanos, rfl⟩
    exact Inv.init nanos
  · intro s a s' _ hinv hok hs
    exact hinv.step hok hs

/-- The events `compact` discards lie above the tail, at or below the
floor. -/
theorem discarded_le_floor {s : Store} {o : Origin} {n : ℕ} {e : Event}
    (hbefore : s.db.journalAt o n = some e) (hafter : (compact cfg s).db.journalAt o n = none) :
    (s.db.clock o).tailSeq < n
      ∧ n ≤ compactFloor cfg (fun peer => s.db.watermark peer o) (s.db.clock o) := by
  have hkey := compact_preserves cfg (o := o)
    (P := fun r => r.clock.seq = (s.db.clock o).seq
      ∧ (s.db.clock o).tailSeq ≤ r.clock.tailSeq
      ∧ (r.journal n = none → (s.db.clock o).tailSeq < n
        ∧ n ≤ compactFloor cfg (fun peer => s.db.watermark peer o) (s.db.clock o)))
    s ?_ ⟨rfl, le_rfl, fun h => by rw [Db.replica_journal, hbefore] at h; cases h⟩
  · exact hkey.2.2 hafter
  · intro r ⟨hseq, htail, hdrop⟩
    have hfloor : compactFloor cfg (fun peer => s.db.watermark peer o) r.clock
        = compactFloor cfg (fun peer => s.db.watermark peer o) (s.db.clock o) := by
      unfold compactFloor
      rw [hseq]
    rw [hfloor]
    generalize compactFloor cfg (fun peer => s.db.watermark peer o) (s.db.clock o)
      = floor at hdrop ⊢
    rcases le_or_gt floor r.clock.tailSeq with hle | hlt
    · rw [Replica.compactTo_of_le hle]
      exact ⟨hseq, htail, hdrop⟩
    · rw [Replica.compactTo_of_lt hlt]
      refine ⟨hseq, htail.trans hlt.le, fun hnone => ?_⟩
      simp only at hnone
      split at hnone
      next hin => exact ⟨htail.trans_lt hin.1, hin.2⟩
      next => exact hdrop hnone

end Ledger

variable (cd cfg) in
/-- Along every run whose regenerations leave the marks behind, `compact`
discards an event within the backstop of the clock only when every
configured peer has reported it under the origin's current
generation. -/
theorem discarded_acknowledged :
    ∀ m, (ledgerSystem cd cfg).ReachIf (Ledger.MarksBehind cfg) m →
      ∀ o n e, m.store.db.journalAt o n = some e →
        (compact cfg m.store).db.journalAt o n = none →
        (m.store.db.clock o).seq < n + JOURNAL_BACKSTOP →
        ∀ peer ∈ cfg.peerNames, m.Acknowledged peer o n := by
  intro m h o n e hbefore hafter hstop peer hpeer
  obtain ⟨htail, hfloor⟩ := Ledger.discarded_le_floor hbefore hafter
  have hmark := le_of_le_compactFloor hfloor hstop peer hpeer
  rcases (Ledger.inv_of_reachIf h).backed peer hpeer o with hle | ⟨c, hc, ho, hg, hn⟩
  · omega
  · exact ⟨c, hc, ho, hg, hmark.trans hn⟩

-- ==================================================== across a regeneration

/-- A node with two peers, which both follow the second one's events. -/
def Config.ofPeers (self peer peer' : UInt8) : Config :=
  ⟨Origin.ofByte self, [Origin.ofByte peer, Origin.ofByte peer']⟩

/-- An origin's first event arrives and both peers acknowledge it; then
the origin regenerates at `seq` and has one more event, which the peers
of `told` acknowledge. -/
def Ledger.regenerated (seq : ℕ) (told : List Origin) : List Ledger.Act :=
  [.applySuffix (Origin.ofByte 3) 1 [⟨1, none⟩],
    .recordWatermarks (Origin.ofByte 2) [⟨Origin.ofByte 3, 1, 1⟩],
    .recordWatermarks (Origin.ofByte 3) [⟨Origin.ofByte 3, 1, 1⟩],
    .applySnapshot (Origin.ofByte 3) 2 seq [],
    .applySuffix (Origin.ofByte 3) 2 [⟨seq + 1, none⟩]]
  ++ told.map fun peer => .recordWatermarks peer [⟨Origin.ofByte 3, 2, seq + 1⟩]

theorem discarded_acknowledged_regenerated : ∃ m : Ledger,
    (m.store.db.clock (Origin.ofByte 3)).generation = 2
      ∧ ∀ peer ∈ [Origin.ofByte 2, Origin.ofByte 3],
        m.Acknowledged peer (Origin.ofByte 3) 2 := by
  have hrun : ((ledgerSystem Codec.plain (Config.ofPeers 1 2 3)).runIf
        (Ledger.MarksBehind (Config.ofPeers 1 2 3))
        ⟨openIndex (Config.ofPeers 1 2 3) {} 7, []⟩
        (Ledger.regenerated 1 [Origin.ofByte 2, Origin.ofByte 3])).map (fun m =>
          (m.store.db.clock (Origin.ofByte 3), m.store.db.journalAt (Origin.ofByte 3) 2,
            (compact (Config.ofPeers 1 2 3) m.store).db.journalAt (Origin.ofByte 3) 2))
      = some (⟨2, 2, 1⟩, some ⟨2, none⟩, none) := by decide +kernel
  obtain ⟨m, hm, hread⟩ := Option.map_eq_some_iff.mp hrun
  obtain ⟨hclock, hread⟩ := Prod.mk.inj hread
  obtain ⟨hbefore, hafter⟩ := Prod.mk.inj hread
  have hinit : (ledgerSystem Codec.plain (Config.ofPeers 1 2 3)).init
      ⟨openIndex (Config.ofPeers 1 2 3) {} 7, []⟩ := ⟨7, rfl⟩
  refine ⟨m, by rw [hclock], ?_⟩
  exact discarded_acknowledged Codec.plain (Config.ofPeers 1 2 3) m
    (System.ReachIf.runIf (System.ReachIf.init hinit) hm) (Origin.ofByte 3) 2 ⟨2, none⟩
    hbefore hafter (by rw [hclock]; decide)

/-- Watermarks of the generation before unblock the compaction of an
event that no peer has seen. -/
theorem unseen_discarded : ¬ ∀ (cd : Codec) (cfg : Config) (m : Ledger),
    (ledgerSystem cd cfg).Reach m →
      ∀ o n e, m.store.db.journalAt o n = some e →
        (compact cfg m.store).db.journalAt o n = none →
        (m.store.db.clock o).seq < n + JOURNAL_BACKSTOP →
        ∀ peer ∈ cfg.peerNames, m.Acknowledged peer o n := by
  intro hall
  have hrun : ((ledgerSystem Codec.plain (Config.ofPeers 1 2 3)).run
        ⟨openIndex (Config.ofPeers 1 2 3) {} 7, []⟩ (Ledger.regenerated 0 [])).map (fun m =>
          (m.store.db.clock (Origin.ofByte 3), m.store.db.journalAt (Origin.ofByte 3) 1,
            (compact (Config.ofPeers 1 2 3) m.store).db.journalAt (Origin.ofByte 3) 1,
            m.reports.map fun r => r.2.generation))
      = some (⟨2, 1, 0⟩, some ⟨1, none⟩, none, [1, 1]) := by decide +kernel
  obtain ⟨m, hm, hread⟩ := Option.map_eq_some_iff.mp hrun
  obtain ⟨hclock, hread⟩ := Prod.mk.inj hread
  obtain ⟨hbefore, hread⟩ := Prod.mk.inj hread
  obtain ⟨hafter, hreports⟩ := Prod.mk.inj hread
  have hreach : (ledgerSystem Codec.plain (Config.ofPeers 1 2 3)).Reach m :=
    System.Reach.run (System.Reach.start ⟨7, rfl⟩) hm
  obtain ⟨c, hc, -, hg, -⟩ := hall Codec.plain (Config.ofPeers 1 2 3) m hreach
    (Origin.ofByte 3) 1 ⟨1, none⟩ hbefore hafter (by rw [hclock]; decide)
    (Origin.ofByte 2) (by decide)
  have hmem : c.generation ∈ m.reports.map fun r => r.2.generation :=
    List.mem_map.mpr ⟨_, hc, rfl⟩
  rw [hreports, hg, hclock] at hmem
  exact absurd hmem (by decide)

end Narshare
