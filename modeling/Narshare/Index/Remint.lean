/-
Our own generation: bumps in several tasks at once, exports between
their steps, and restarts.

# A bump in steps

A pull round compares the clock a peer reports for us with ours and then
calls `bump_self_generation` in a task of its own. There the wall clock
is read and the meta row written, then the clock row, then the dump
cursors. A `Bump` is one such task between two of these steps; any
number may be under way, with any floors. Everything else the index does
is the `Desk`, with its own steps.

# What holds

The sequence number of our own events only ever rises by exports, across
generations and restarts, so no pair of generation and number is given
out twice: this needs no condition.

That the generation rises does. A bump picks one above its floor and
above the wall clock, not above the generation it finds, and two bumps
that write the meta row in one order can write the clock row in the
other. `InTurn` asks that a bump's choice exceed what the meta row says,
and that the clock rows come in the order of the meta rows.
-/
import Narshare.Index.Interleave
import Narshare.Store.Retire

namespace Narshare

variable (cd : Codec) (cfg : Config)

-- ================================================================== the machine

/-- A call of `bump_self_generation` between two steps. `turn` numbers
the meta writes. -/
inductive Bump
  | called (floor : ℕ)
  | stamped (floor generation turn : ℕ)
  | clocked
deriving DecidableEq

/-- A clock row that a bump wrote: the floor it was called with, and the
generation before and after. -/
structure Raise where
  floor : ℕ
  before : ℕ
  after : ℕ
deriving DecidableEq

/-- The index and its bumps. The rest is history: how many meta writes
there were and the last whose clock row is written, the clock rows that
bumps wrote, the stored generation after each step, and the own events
journaled with the generation they were journaled under. -/
structure Mint where
  desk : Desk
  bumps : OrdMap ℕ Bump := ∅
  stamps : ℕ := 0
  turn : ℕ := 0
  raised : List Raise := []
  generations : List ℕ := []
  issued : List (ℕ × Event) := []

/-- The own events a step of the desk journals. -/
def Desk.issues (m : Desk) : Desk.Act → List (ℕ × Event)
  | .advance i =>
      match m.pending[i]? with
      | some (.exporting generation seq (chunk :: _)) =>
          if (exportChunk cd cfg m.store generation seq chunk).1 then
            (exportEvents seq chunk).map fun e => (generation, e)
          else []
      | _ => []
  | _ => []

namespace Mint

/-- What can happen. -/
inductive Act
  | desk (a : Desk.Act)
  | report (id generation seq : ℕ)
  | stampMeta (id nanos : ℕ)
  | stampClock (id : ℕ)
  | restartDumps (id : ℕ)
  | reopen (nanos : ℕ)

/-- Our stored generation. -/
def generation (m : Mint) : ℕ := (m.desk.store.db.clock cfg.selfName).generation

/-- One step, less the record of generations. -/
def act (m : Mint) : Act → Option Mint
  | .desk (.remint _ _) => none -- taken apart below
  | .desk a => (m.desk.step cd cfg a).map fun d =>
      { m with desk := d, issued := m.issued ++ m.desk.issues cd cfg a }
  | .report id generation seq =>
      if m.bumps.get id ≠ none then none
      else
        let c := m.desk.store.db.clock cfg.selfName
        if generation > c.generation ∨ (generation = c.generation ∧ seq > c.seq) then
          some { m with bumps := m.bumps.put id (.called generation) }
        else some m
  | .stampMeta id nanos =>
      match m.bumps.get id with
      | some (.called floor) =>
          let g := remintGeneration floor nanos
          some { m with
            desk := { m.desk with
              store := { m.desk.store with
                db := { m.desk.store.db with selfGeneration := some g } } }
            bumps := m.bumps.put id (.stamped floor g (m.stamps + 1))
            stamps := m.stamps + 1 }
      | _ => none
  | .stampClock id =>
      match m.bumps.get id with
      | some (.stamped floor g k) =>
          some { m with
            desk := { m.desk with store := m.desk.store.setGeneration cfg.selfName g }
            bumps := m.bumps.put id .clocked
            turn := k
            raised := m.raised ++ [⟨floor, m.generation cfg, g⟩] }
      | _ => none
  | .restartDumps id =>
      match m.bumps.get id with
      | some .clocked =>
          some { m with
            desk := { m.desk with
              store := { m.desk.store with db := restartAllDumps cfg m.desk.store.db } }
            bumps := m.bumps.erase id }
      | _ => none
  | .reopen nanos =>
      some { m with
        desk := ⟨openIndex cfg m.desk.store.reopen nanos, []⟩
        bumps := ∅
        turn := m.stamps }

/-- The guarded step. -/
def step (m : Mint) (a : Act) : Option Mint :=
  (m.act cd cfg a).map fun m' => { m' with generations := m'.generations ++ [m'.generation cfg] }

end Mint

/-- A node from its first start on. -/
def mintSystem : System Mint Mint.Act where
  init m := ∃ nanos, m = { desk := ⟨openIndex cfg {} nanos, []⟩ }
  step m a := m.step cd cfg a

-- ================================================================ what is claimed

/-- A bump called with this floor at this time chooses a generation above
`g`. -/
def Exceeds (floor nanos g : ℕ) : Prop := g < nanos ∨ (g ≤ floor ∧ floor < U64_MAX)

instance (floor nanos g : ℕ) : Decidable (Exceeds floor nanos g) := by
  unfold Exceeds
  infer_instance

namespace Bump

/-- What it will choose is above its floor and above the stored
generation. -/
def Rises (nanos : ℕ) (stored : Option ℕ) : Bump → Prop
  | .called floor => Exceeds floor nanos floor ∧ ∀ g ∈ stored, Exceeds floor nanos g
  | _ => True

/-- Its meta write came after the one whose clock row was written last. -/
def Follows (turn : ℕ) : Bump → Prop
  | .stamped _ _ k => turn < k
  | _ => True

instance (nanos : ℕ) (stored : Option ℕ) (b : Bump) : Decidable (b.Rises nanos stored) := by
  cases b <;> unfold Rises <;> infer_instance

instance (turn : ℕ) (b : Bump) : Decidable (b.Follows turn) := by
  cases b <;> unfold Follows <;> infer_instance

end Bump

namespace Mint

/-- A meta write chooses a generation above its floor and above the one
the meta row has; clock rows are written in the order of the meta
writes. -/
def InTurn (m : Mint) : Act → Prop
  | .stampMeta id nanos =>
      ∀ b ∈ m.bumps.get id, b.Rises nanos m.desk.store.db.selfGeneration
  | .stampClock id => ∀ b ∈ m.bumps.get id, b.Follows m.turn
  | _ => True

instance (m : Mint) (a : Act) : Decidable (m.InTurn a) := by
  cases a <;> unfold InTurn <;> infer_instance

/-- Every bump raises the generation, above its floor too; it never
falls. -/
structure Rising (m : Mint) : Prop where
  raised : ∀ r ∈ m.raised, r.before < r.after ∧ r.floor < r.after
  kept : m.generations.Pairwise (· ≤ ·)

end Mint

variable {cd cfg}

theorem lt_remintGeneration {floor nanos g : ℕ} (h : Exceeds floor nanos g) :
    g < remintGeneration floor nanos := by
  unfold remintGeneration
  rcases h with hlt | ⟨hle, hmax⟩
  · exact hlt.trans_le (le_max_left _ _)
  · rw [min_eq_left (Nat.succ_le_of_lt hmax)]
    exact (Nat.lt_succ_of_le hle).trans_le (le_max_right _ _)

-- ====================================================== what the desk does to us

theorem selfGeneration_writeAll (db : Db) (bs : List Batch) :
    (db.writeAll bs).selfGeneration = db.selfGeneration := by
  induction bs generalizing db with
  | nil => rfl
  | cons b bs ih => exact ih (db.write b)

variable (cd) in
theorem selfGeneration_applyEvents (s : Store) (o : Origin) (expect set : ℕ × ℕ)
    (journal : List (ℕ × Event)) (holds : List HoldOp) (attests : List Attestation) :
    (s.applyEvents cd o expect set journal holds attests).2.db.selfGeneration
      = s.db.selfGeneration := by
  rw [Store.applyEvents]
  split <;> rfl

variable (cd) in
theorem replica_applyEvents_of_ne (s : Store) {o o' : Origin} (h : o' ≠ o) (expect set : ℕ × ℕ)
    (journal : List (ℕ × Event)) (holds : List HoldOp) (attests : List Attestation) :
    (s.applyEvents cd o expect set journal holds attests).2.db.replica o' = s.db.replica o' := by
  cases hap : s.applyEvents cd o expect set journal holds attests with
  | mk ok s' =>
      cases ok with
      | false => rw [applyEvents_refused cd hap]
      | true => rw [(replica_applyEvents cd hap o').2, if_neg h]

namespace Desk

/-- What a step of the desk does to our own origin: the meta row and the
generation stay, and the number rises by the events journaled. -/
structure OwnKept (cfg : Config) (m m' : Desk) (new : List (ℕ × Event)) : Prop where
  stored : m'.store.db.selfGeneration = m.store.db.selfGeneration
  generation : (m'.store.db.clock cfg.selfName).generation
    = (m.store.db.clock cfg.selfName).generation
  seq : (m'.store.db.clock cfg.selfName).seq
    = (m.store.db.clock cfg.selfName).seq + new.length
  run : SeqRun (fun e : ℕ × Event => e.2.seq) (m.store.db.clock cfg.selfName).seq new

/-- A step that leaves our replica and the meta row. -/
theorem OwnKept.of_replica {m m' : Desk}
    (hstored : m'.store.db.selfGeneration = m.store.db.selfGeneration)
    (hrep : m'.store.db.replica cfg.selfName = m.store.db.replica cfg.selfName) :
    OwnKept cfg m m' [] where
  stored := hstored
  generation := congrArg (fun r => r.clock.generation) hrep
  seq := congrArg (fun r => r.clock.seq) hrep
  run := trivial

/-- The next call of a pending operation. -/
theorem ownKept_advance {m m' : Desk} (hok : ∀ p ∈ m.pending, p.Ok cfg) {i : ℕ}
    (h : m.step cd cfg (.advance i) = some m') :
    OwnKept cfg m m' (m.issues cd cfg (.advance i)) := by
  obtain ⟨p, hi, rfl⟩ := Option.map_eq_some_iff.mp h
  have hp := hok p (List.mem_of_getElem? hi)
  rw [issues, hi]
  cases p with
  | suffix o cur generation r =>
      refine .of_replica (selfGeneration_applyEvents cd m.store o _ _ _ _ _) ?_
      exact replica_applyEvents_of_ne cd m.store (Ne.symm hp.1) _ _ _ _ _
  | exporting generation seq todo =>
      cases todo with
      | nil => exact .of_replica rfl rfl
      | cons chunk todo =>
          simp only
          have hstored : (exportChunk cd cfg m.store generation seq chunk).2.db.selfGeneration
              = m.store.db.selfGeneration := selfGeneration_applyEvents ..
          cases hap : exportChunk cd cfg m.store generation seq chunk with
          | mk ok s' =>
              rw [hap] at hstored
              have hcall : (call cd cfg m.store (.exporting generation seq (chunk :: todo))).1
                  = s' := congrArg Prod.snd hap
              rw [exportChunk] at hap
              cases ok with
              | false =>
                  rw [if_neg Bool.false_ne_true]
                  refine .of_replica ?_ ?_
                  · show (call cd cfg m.store _).1.db.selfGeneration = _
                    rw [hcall, hstored]
                  · show (call cd cfg m.store _).1.db.replica cfg.selfName = _
                    rw [hcall, applyEvents_refused cd hap]
              | true =>
                  rw [if_pos rfl]
                  obtain ⟨hexp, hrep⟩ := replica_applyEvents cd hap cfg.selfName
                  obtain ⟨hgen, hseq⟩ := Prod.mk.inj hexp
                  rw [if_pos rfl] at hrep
                  have hclock := congrArg Replica.clock hrep
                  change s'.db.clock cfg.selfName = _ at hclock
                  refine ⟨?_, ?_, ?_, ?_⟩
                  · show (call cd cfg m.store _).1.db.selfGeneration = _
                    rw [hcall, hstored]
                  · show ((call cd cfg m.store _).1.db.clock cfg.selfName).generation = _
                    rw [hcall, hclock, hgen]
                    rfl
                  · show ((call cd cfg m.store _).1.db.clock cfg.selfName).seq = _
                    rw [hcall, hclock, List.length_map, length_exportEvents, hseq]
                    rfl
                  · rw [seqRun_map, hseq]
                    exact seqRun_exportEvents seq chunk
  | compacting marks todo =>
      cases todo with
      | nil => exact .of_replica rfl rfl
      | cons o todo => exact .of_replica rfl rfl
  | compact marks o floor todo =>
      have hrep : (m.store.compactJournal o floor).db.replica cfg.selfName
          = if cfg.selfName = o then (m.store.db.replica o).compactTo floor
            else m.store.db.replica cfg.selfName :=
        replica_compactJournal m.store o floor cfg.selfName
      have hclock : (m.store.compactJournal o floor).db.clock cfg.selfName
          = ((m.store.compactJournal o floor).db.replica cfg.selfName).clock := rfl
      have hkept : ((m.store.compactJournal o floor).db.clock cfg.selfName).generation
            = (m.store.db.clock cfg.selfName).generation
          ∧ ((m.store.compactJournal o floor).db.clock cfg.selfName).seq
            = (m.store.db.clock cfg.selfName).seq := by
        rw [hclock, hrep]
        split
        next he =>
          rw [he]
          exact Replica.compactTo_clock _ floor
        next => exact ⟨rfl, rfl⟩
      exact ⟨rfl, hkept.1, hkept.2, trivial⟩

/-- A step of the desk other than a remint. -/
theorem ownKept_step {m m' : Desk} {a : Act} (hok : ∀ p ∈ m.pending, p.Ok cfg)
    (ha : ∀ floor nanos, a ≠ .remint floor nanos) (h : m.step cd cfg a = some m') :
    OwnKept cfg m m' (m.issues cd cfg a) := by
  cases a with
  | applySuffix o generation events =>
      simp only [step] at h
      split at h
      next => cases h
      next =>
        split at h
        next => cases h; exact .of_replica rfl rfl
        next => cases h; exact .of_replica rfl rfl
  | exportOps attests holds =>
      cases h
      exact .of_replica rfl rfl
  | compact order =>
      simp only [step] at h
      split at h
      next => cases h; exact .of_replica rfl rfl
      next => cases h
  | advance i => exact ownKept_advance hok h
  | applySnapshot o generation seq held =>
      simp only [step] at h
      split at h
      next n s hs =>
        cases h
        obtain ⟨hne, hrep⟩ := replica_applySnapshot hs
        refine .of_replica ?_ ((hrep cfg.selfName).trans (if_neg fun he => hne he.1.symm))
        rw [applySnapshot] at hs
        split at hs
        next => cases hs
        next =>
          cases hs
          rw [Store.replaceHoldings]
          split
          next => rfl
          next => exact selfGeneration_writeAll _ _
      next => cases h
  | remint floor nanos => exact absurd rfl (ha floor nanos)
  | recordWatermark peer c =>
      cases h
      refine .of_replica ?_ (replica_recordWatermarks cfg m.store peer [c] cfg.selfName)
      show (recordWatermark cfg peer m.store c).db.selfGeneration = _
      rw [recordWatermark]
      split
      next => rfl
      split
      next => rfl
      rw [Store.advanceWatermark]
      split <;> rfl
  | mergeAttests attests =>
      cases h
      refine .of_replica ?_ (replica_mergeAttests m.store attests cfg.selfName)
      show (Narshare.mergeAttests cd m.store attests).2.db.selfGeneration = _
      rw [Narshare.mergeAttests]
      split
      next => rfl
      rw [Store.mergeAttestations]
      split <;> rfl

end Desk

-- ==================================================================== the steps

variable (cfg) in
theorem selfGeneration_restartAllDumps (db : Db) :
    (restartAllDumps cfg db).selfGeneration = db.selfGeneration := by
  unfold restartAllDumps
  exact List.foldlRecOn _ _ (motive := fun db' : Db => db'.selfGeneration = db.selfGeneration)
    rfl fun _ hdb _ _ => hdb

variable (cfg) in
/-- Opening stamps the generation of the meta row on the own clock. -/
theorem own_openIndex (s : Store) (nanos : ℕ) :
    (openIndex cfg s nanos).db.selfGeneration = some (s.db.selfGeneration.getD nanos)
      ∧ (openIndex cfg s nanos).db.replica cfg.selfName
        = (s.db.replica cfg.selfName).stamp (s.db.selfGeneration.getD nanos) := by
  unfold openIndex
  refine ⟨selfGeneration_writeAll _ _, ?_⟩
  rw [replica_retainOrigins_of_mem _ (Config.mem_originSet.mpr (Or.inl rfl)),
    replica_setGeneration, if_pos rfl]
  rfl

/-- The clock of the origin a generation is stamped on. -/
theorem clock_setGeneration (s : Store) (o : Origin) (g : ℕ) :
    ((s.setGeneration o g).db.clock o).generation = g
      ∧ ((s.setGeneration o g).db.clock o).seq = (s.db.clock o).seq := by
  have hrep := replica_setGeneration s o g o
  rw [if_pos rfl] at hrep
  have hclock := congrArg Replica.clock hrep
  change (s.setGeneration o g).db.clock o = _ at hclock
  rw [hclock]
  exact ⟨rfl, rfl⟩

namespace Mint

variable {m m' : Mint} {a : Act}

/-- A step of the desk, remints aside. -/
theorem act_desk {a : Desk.Act} (hs : m.act cd cfg (.desk a) = some m') :
    (∀ floor nanos, a ≠ .remint floor nanos) ∧ ∃ d, m.desk.step cd cfg a = some d
      ∧ m' = { m with desk := d, issued := m.issued ++ m.desk.issues cd cfg a } := by
  have ha : ∀ floor nanos, a ≠ .remint floor nanos := by
    rintro floor nanos rfl
    cases hs
  have hstep : (m.desk.step cd cfg a).map (fun d =>
      { m with desk := d, issued := m.issued ++ m.desk.issues cd cfg a }) = some m' := by
    cases a with
    | remint floor nanos => exact absurd rfl (ha floor nanos)
    | _ => exact hs
  obtain ⟨d, hd, rfl⟩ := Option.map_eq_some_iff.mp hstep
  exact ⟨ha, d, hd, rfl⟩

/-- The own events so far are numbered one by one, and the clock counts
them. -/
structure Counted (cfg : Config) (m : Mint) : Prop where
  pending : ∀ p ∈ m.desk.pending, p.Ok cfg
  run : SeqRun (fun e : ℕ × Event => e.2.seq) 0 m.issued
  seq : (m.desk.store.db.clock cfg.selfName).seq = m.issued.length

/-- Where the meta row, the clock and the bumps under way stand. -/
structure Ordered (cfg : Config) (m : Mint) : Prop where
  stored : ∃ g, m.desk.store.db.selfGeneration = some g ∧ m.generation cfg ≤ g
  turn : m.turn ≤ m.stamps
  floor : ∀ id floor g k, m.bumps.get id = some (.stamped floor g k) → floor < g
  numbered : ∀ id floor g k, m.bumps.get id = some (.stamped floor g k) → k ≤ m.stamps
  below : ∀ id floor g k, m.bumps.get id = some (.stamped floor g k) →
    ∀ s ∈ m.desk.store.db.selfGeneration, g ≤ s
  ahead : ∀ id floor g k, m.bumps.get id = some (.stamped floor g k) →
    (m.generation cfg < g ↔ m.turn < k)
  order : ∀ id floor g k id' floor' g' k', m.bumps.get id = some (.stamped floor g k) →
    m.bumps.get id' = some (.stamped floor' g' k') → k ≤ k' → g ≤ g' ∧ (k < k' → g < g')
  raised : ∀ r ∈ m.raised, r.before < r.after ∧ r.floor < r.after

/-- What a step leaves when the meta row, the clock and the history of
bumps stay and no bump is newly stamped. -/
theorem Ordered.of_same (h : m.Ordered cfg)
    (hstored : m'.desk.store.db.selfGeneration = m.desk.store.db.selfGeneration)
    (hgen : m'.generation cfg = m.generation cfg) (hturn : m'.turn = m.turn)
    (hstamps : m'.stamps = m.stamps) (hraised : m'.raised = m.raised)
    (hbumps : ∀ id floor g k, m'.bumps.get id = some (.stamped floor g k) →
      m.bumps.get id = some (.stamped floor g k)) : m'.Ordered cfg where
  stored := by rw [hstored, hgen]; exact h.stored
  turn := by rw [hturn, hstamps]; exact h.turn
  floor id floor g k hb := h.floor id floor g k (hbumps _ _ _ _ hb)
  numbered id floor g k hb := by rw [hstamps]; exact h.numbered id floor g k (hbumps _ _ _ _ hb)
  below id floor g k hb := by rw [hstored]; exact h.below id floor g k (hbumps _ _ _ _ hb)
  ahead id floor g k hb := by
    rw [hgen, hturn]
    exact h.ahead id floor g k (hbumps _ _ _ _ hb)
  order id floor g k id' floor' g' k' hb hb' :=
    h.order id floor g k id' floor' g' k' (hbumps _ _ _ _ hb) (hbumps _ _ _ _ hb')
  raised := by rw [hraised]; exact h.raised

/-- A bump put in place of another, or of none, that is not stamped. -/
theorem stamped_of_put {id : ℕ} {b : Bump} (hb : ∀ floor g k, b ≠ .stamped floor g k)
    (id' floor g k : ℕ) (h : (m.bumps.put id b).get id' = some (.stamped floor g k)) :
    m.bumps.get id' = some (.stamped floor g k) ∧ id' ≠ id := by
  rw [OrdMap.get_put] at h
  split at h
  next => exact absurd (Option.some.inj h) (hb floor g k)
  next hne => exact ⟨h, hne⟩

/-- The meta write of a bump whose choice exceeds what is stored. -/
theorem Ordered.stampMeta (h : m.Ordered cfg) {id nanos : ℕ} (hin : m.InTurn (.stampMeta id nanos))
    (hs : m.act cd cfg (.stampMeta id nanos) = some m') : m'.Ordered cfg := by
  simp only [act] at hs
  split at hs
  next floor hb =>
    cases hs
    obtain ⟨g₀, hstored, hgen⟩ := h.stored
    obtain ⟨hfloor, hexceeds⟩ : (Bump.called floor).Rises nanos m.desk.store.db.selfGeneration :=
      hin _ hb
    have hnew : floor < remintGeneration floor nanos := lt_remintGeneration hfloor
    have hup : g₀ < remintGeneration floor nanos := lt_remintGeneration (hexceeds g₀ hstored)
    -- a stamped bump is the new one or was there before
    have hcase : ∀ id' floor' g k, (m.bumps.put id
        (.stamped floor (remintGeneration floor nanos) (m.stamps + 1))).get id'
          = some (.stamped floor' g k) →
        (floor' = floor ∧ g = remintGeneration floor nanos ∧ k = m.stamps + 1)
          ∨ m.bumps.get id' = some (.stamped floor' g k) := by
      intro id' floor' g k hget
      rw [OrdMap.get_put] at hget
      split at hget
      next =>
        cases hget
        exact Or.inl ⟨rfl, rfl, rfl⟩
      next => exact Or.inr hget
    have hold : ∀ id' floor' g k, m.bumps.get id' = some (.stamped floor' g k) →
        g < remintGeneration floor nanos ∧ k < m.stamps + 1 := fun id' floor' g k hget =>
      ⟨(h.below id' floor' g k hget g₀ hstored).trans_lt hup,
        Nat.lt_succ_of_le (h.numbered id' floor' g k hget)⟩
    refine ⟨⟨_, rfl, hgen.trans hup.le⟩, h.turn.trans (Nat.le_succ _), ?_, ?_, ?_, ?_, ?_, h.raised⟩
    · intro id' floor' g k hget
      rcases hcase id' floor' g k hget with ⟨rfl, rfl, rfl⟩ | hget
      · exact hnew
      · exact h.floor id' floor' g k hget
    · intro id' floor' g k hget
      rcases hcase id' floor' g k hget with ⟨rfl, rfl, rfl⟩ | hget
      · exact le_rfl
      · exact (hold id' floor' g k hget).2.le
    · intro id' floor' g k hget s hsmem
      obtain rfl : remintGeneration floor nanos = s := Option.some.inj hsmem
      rcases hcase id' floor' g k hget with ⟨rfl, rfl, rfl⟩ | hget
      · exact le_rfl
      · exact (hold id' floor' g k hget).1.le
    · intro id' floor' g k hget
      rcases hcase id' floor' g k hget with ⟨rfl, rfl, rfl⟩ | hget
      · exact ⟨fun _ => Nat.lt_succ_of_le h.turn, fun _ => hgen.trans_lt hup⟩
      · exact h.ahead id' floor' g k hget
    · intro id₁ floor₁ g₁ k₁ id₂ floor₂ g₂ k₂ hget₁ hget₂ hle
      rcases hcase id₁ floor₁ g₁ k₁ hget₁ with ⟨rfl, rfl, rfl⟩ | hold₁
      · rcases hcase id₂ floor₂ g₂ k₂ hget₂ with ⟨rfl, rfl, rfl⟩ | hold₂
        · exact ⟨le_rfl, fun hlt => absurd hlt (lt_irrefl _)⟩
        · have := (hold id₂ floor₂ g₂ k₂ hold₂).2
          omega
      · rcases hcase id₂ floor₂ g₂ k₂ hget₂ with ⟨rfl, rfl, rfl⟩ | hold₂
        · have := (hold id₁ floor₁ g₁ k₁ hold₁).1
          exact ⟨this.le, fun _ => this⟩
        · exact h.order id₁ floor₁ g₁ k₁ id₂ floor₂ g₂ k₂ hold₁ hold₂ hle
  next => cases hs

/-- The clock row of the next bump in turn. -/
theorem Ordered.stampClock (h : m.Ordered cfg) {id : ℕ} (hin : m.InTurn (.stampClock id))
    (hs : m.act cd cfg (.stampClock id) = some m') :
    m'.Ordered cfg ∧ m.generation cfg < m'.generation cfg := by
  simp only [act] at hs
  split at hs
  next floor g k hb =>
    cases hs
    have hturn : m.turn < k := hin _ hb
    have hnow : ((m.desk.store.setGeneration cfg.selfName g).db.clock cfg.selfName).generation
        = g := (clock_setGeneration m.desk.store cfg.selfName g).1
    have hup : m.generation cfg < g := (h.ahead id floor g k hb).mpr hturn
    obtain ⟨g₀, hstored, -⟩ := h.stored
    have hold : ∀ id' floor' g' k', (m.bumps.put id .clocked).get id'
        = some (.stamped floor' g' k') → m.bumps.get id' = some (.stamped floor' g' k') :=
      fun id' floor' g' k' hget => (stamped_of_put (fun _ _ _ hc => by cases hc) id' floor' g' k'
        hget).1
    refine ⟨⟨⟨g₀, hstored, hnow.trans_le (h.below id floor g k hb g₀ hstored)⟩,
      h.numbered id floor g k hb, ?_, ?_, ?_, ?_, ?_, ?_⟩, hup.trans_eq hnow.symm⟩
    · exact fun id' floor' g' k' hget => h.floor id' floor' g' k' (hold _ _ _ _ hget)
    · exact fun id' floor' g' k' hget => h.numbered id' floor' g' k' (hold _ _ _ _ hget)
    · exact fun id' floor' g' k' hget => h.below id' floor' g' k' (hold _ _ _ _ hget)
    · intro id' floor' g' k' hget
      show ((m.desk.store.setGeneration cfg.selfName g).db.clock cfg.selfName).generation < g'
        ↔ k < k'
      rw [hnow]
      have hget' := hold id' floor' g' k' hget
      constructor
      · intro hlt
        by_contra hle
        have := (h.order id' floor' g' k' id floor g k hget' hb (not_lt.mp hle)).1
        omega
      · intro hlt
        exact (h.order id floor g k id' floor' g' k' hb hget' hlt.le).2 hlt
    · exact fun id₁ floor₁ g₁ k₁ id₂ floor₂ g₂ k₂ hget₁ hget₂ =>
        h.order id₁ floor₁ g₁ k₁ id₂ floor₂ g₂ k₂ (hold _ _ _ _ hget₁) (hold _ _ _ _ hget₂)
    · intro r hr
      rcases List.mem_append.mp hr with hr | hr
      · exact h.raised r hr
      · rw [List.mem_singleton.mp hr]
        exact ⟨hup, h.floor id floor g k hb⟩
  next => cases hs

/-- Every step of the index in turn keeps the order and does not lower
the generation. -/
theorem Ordered.act (h : m.Ordered cfg) (hc : m.Counted cfg) (hin : m.InTurn a)
    (hs : m.act cd cfg a = some m') :
    m'.Ordered cfg ∧ m.generation cfg ≤ m'.generation cfg := by
  cases a with
  | desk a =>
      obtain ⟨ha, d, hd, rfl⟩ := act_desk hs
      have hkept := Desk.ownKept_step hc.pending ha hd
      exact ⟨h.of_same hkept.stored hkept.generation rfl rfl rfl fun _ _ _ _ hb => hb,
        hkept.generation.ge⟩
  | report id generation seq =>
      simp only [Mint.act] at hs
      split at hs
      next => cases hs
      split at hs
      next =>
        cases hs
        exact ⟨h.of_same rfl rfl rfl rfl rfl fun _ _ _ _ hb =>
          (stamped_of_put (fun _ _ _ hcase => by cases hcase) _ _ _ _ hb).1, le_rfl⟩
      next =>
        cases hs
        exact ⟨h, le_rfl⟩
  | stampMeta id nanos =>
      refine ⟨h.stampMeta hin hs, ?_⟩
      simp only [Mint.act] at hs
      split at hs
      next => cases hs; exact le_rfl
      next => cases hs
  | stampClock id =>
      obtain ⟨hord, hlt⟩ := h.stampClock hin hs
      exact ⟨hord, hlt.le⟩
  | restartDumps id =>
      simp only [Mint.act] at hs
      split at hs
      next =>
        cases hs
        have hgen : ((restartAllDumps cfg m.desk.store.db).clock cfg.selfName).generation
            = m.generation cfg := congrArg (fun r => r.clock.generation)
          (replica_restartAllDumps m.desk.store.db cfg.selfName)
        refine ⟨h.of_same (selfGeneration_restartAllDumps cfg _) hgen rfl rfl rfl
          fun id' floor g k hb => ?_, hgen.ge⟩
        change (m.bumps.erase id).get id' = _ at hb
        rw [OrdMap.get_erase] at hb
        split at hb
        next => cases hb
        next => exact hb
      next => cases hs
  | reopen nanos =>
      cases hs
      obtain ⟨g, hstored, hle⟩ := h.stored
      obtain ⟨hmeta, hrep⟩ := own_openIndex cfg m.desk.store.reopen nanos
      have hget : m.desk.store.reopen.db.selfGeneration.getD nanos = g := by
        rw [show m.desk.store.reopen.db.selfGeneration = some g from hstored]
        rfl
      rw [hget] at hmeta hrep
      have hgen :
          ((openIndex cfg m.desk.store.reopen nanos).db.clock cfg.selfName).generation = g :=
        congrArg (fun r => r.clock.generation) hrep
      refine ⟨⟨⟨g, hmeta, hgen.le⟩, le_rfl, ?_, ?_, ?_, ?_, ?_, h.raised⟩, hle.trans hgen.ge⟩
      · exact fun _ _ _ _ hb => by cases hb
      · exact fun _ _ _ _ hb => by cases hb
      · exact fun _ _ _ _ hb => by cases hb
      · exact fun _ _ _ _ hb => by cases hb
      · exact fun _ _ _ _ _ _ _ _ hb => by cases hb

/-- Bumps and restarts leave the number of our events alone. -/
theorem Counted.of_same (h : m.Counted cfg) (hpending : ∀ p ∈ m'.desk.pending, p.Ok cfg)
    (hseq : (m'.desk.store.db.clock cfg.selfName).seq = (m.desk.store.db.clock cfg.selfName).seq)
    (hissued : m'.issued = m.issued) : m'.Counted cfg where
  pending := hpending
  run := by rw [hissued]; exact h.run
  seq := by rw [hseq, hissued]; exact h.seq

/-- Every step counts the own events it journals. -/
theorem Counted.act (h : m.Counted cfg) (hs : m.act cd cfg a = some m') : m'.Counted cfg := by
  cases a with
  | desk a =>
      obtain ⟨ha, d, hd, rfl⟩ := act_desk hs
      have hkept := Desk.ownKept_step h.pending ha hd
      refine ⟨(Desk.step_moved h.pending hd).1, h.run.append ?_, ?_⟩
      · rw [Nat.zero_add, ← h.seq]
        exact hkept.run
      · rw [hkept.seq, h.seq, List.length_append]
  | report id generation seq =>
      simp only [Mint.act] at hs
      split at hs
      next => cases hs
      split at hs
      next => cases hs; exact h.of_same h.pending rfl rfl
      next => cases hs; exact h
  | stampMeta id nanos =>
      simp only [Mint.act] at hs
      split at hs
      next => cases hs; exact h.of_same h.pending rfl rfl
      next => cases hs
  | stampClock id =>
      simp only [Mint.act] at hs
      split at hs
      next floor g k _ =>
        cases hs
        exact h.of_same h.pending (clock_setGeneration m.desk.store cfg.selfName g).2 rfl
      next => cases hs
  | restartDumps id =>
      simp only [Mint.act] at hs
      split at hs
      next =>
        cases hs
        exact h.of_same h.pending (congrArg (fun r => r.clock.seq)
          (replica_restartAllDumps m.desk.store.db cfg.selfName)) rfl
      next => cases hs
  | reopen nanos =>
      cases hs
      exact h.of_same (fun _ hp => (List.not_mem_nil hp).elim) (congrArg (fun r => r.clock.seq)
        (own_openIndex cfg m.desk.store.reopen nanos).2) rfl

theorem counted_of_reach (h : (mintSystem cd cfg).Reach m) : m.Counted cfg := by
  refine System.Reach.invariant (I := fun m : Mint => m.Counted cfg) ?_ ?_ h
  · rintro m ⟨nanos, rfl⟩
    refine ⟨fun _ hp => (List.not_mem_nil hp).elim, trivial, ?_⟩
    show ((openIndex cfg {} nanos).db.clock cfg.selfName).seq = 0
    rw [clock_openIndex_empty, if_pos rfl]
  · intro m a m' _ hc hs
    obtain ⟨m₁, hact, rfl⟩ := Option.map_eq_some_iff.mp hs
    have hc₁ := hc.act hact
    exact ⟨hc₁.pending, hc₁.run, hc₁.seq⟩

/-- The record of generations is not part of what a step reads. -/
theorem act_generations (hs : m.act cd cfg a = some m') : m'.generations = m.generations := by
  cases a with
  | desk a =>
      obtain ⟨-, d, -, rfl⟩ := act_desk hs
      rfl
  | reopen nanos =>
      cases hs
      rfl
  | report id generation seq =>
      simp only [Mint.act] at hs
      split at hs
      next => cases hs
      split at hs
      next => cases hs; rfl
      next => cases hs; rfl
  | stampMeta id nanos =>
      simp only [Mint.act] at hs
      split at hs
      next => cases hs; rfl
      next => cases hs
  | stampClock id =>
      simp only [Mint.act] at hs
      split at hs
      next => cases hs; rfl
      next => cases hs
  | restartDumps id =>
      simp only [Mint.act] at hs
      split at hs
      next => cases hs; rfl
      next => cases hs

/-- Along a run in turn everything recorded so far is in order. -/
theorem ordered_of_reachIf (h : (mintSystem cd cfg).ReachIf InTurn m) :
    m.Ordered cfg ∧ m.generations.Pairwise (· ≤ ·)
      ∧ ∀ g ∈ m.generations, g ≤ m.generation cfg := by
  refine System.ReachIf.invariant (I := fun m : Mint => m.Ordered cfg
    ∧ m.generations.Pairwise (· ≤ ·) ∧ ∀ g ∈ m.generations, g ≤ m.generation cfg) ?_ ?_ h
  · rintro m ⟨nanos, rfl⟩
    obtain ⟨hmeta, hrep⟩ := own_openIndex cfg {} nanos
    have hgen : ((openIndex cfg {} nanos).db.clock cfg.selfName).generation = nanos :=
      congrArg (fun r => r.clock.generation) hrep
    refine ⟨⟨⟨nanos, hmeta, hgen.le⟩, le_rfl, ?_, ?_, ?_, ?_, ?_, ?_⟩, List.Pairwise.nil,
      fun _ hg => (List.not_mem_nil hg).elim⟩
    · exact fun _ _ _ _ hb => by cases hb
    · exact fun _ _ _ _ hb => by cases hb
    · exact fun _ _ _ _ hb => by cases hb
    · exact fun _ _ _ _ hb => by cases hb
    · exact fun _ _ _ _ _ _ _ _ hb => by cases hb
    · exact fun _ hr => (List.not_mem_nil hr).elim
  · rintro m a m' hreach ⟨hord, hkept, hlast⟩ hin hs
    obtain ⟨m₁, hact, rfl⟩ := Option.map_eq_some_iff.mp hs
    obtain ⟨hord₁, hle⟩ := hord.act (counted_of_reach hreach.reach) hin hact
    have hgens := act_generations hact
    have hbelow : ∀ g ∈ m.generations, g ≤ m₁.generation cfg :=
      fun g hg => (hlast g hg).trans hle
    refine ⟨hord₁.of_same rfl rfl rfl rfl rfl fun _ _ _ _ hb => hb, ?_, ?_⟩
    · show (m₁.generations ++ [m₁.generation cfg]).Pairwise (· ≤ ·)
      rw [hgens, List.pairwise_append]
      refine ⟨hkept, List.pairwise_singleton _ _, fun g hg g' hg' => ?_⟩
      rw [List.mem_singleton.mp hg']
      exact hbelow g hg
    · intro g hg
      rcases List.mem_append.mp hg with hg | hg
      · exact hbelow g (hgens ▸ hg)
      · exact (List.mem_singleton.mp hg).le

end Mint

variable (cd cfg) in
/-- Whatever the clocks and the peers say, no number is issued twice. And
in every run whose meta writes choose above what the meta row says and
whose clock rows come in the order of the meta writes, every bump raises
the generation, above its floor too, and it never falls; a clock row out
of that order does not raise it. -/
theorem generations_rise :
    (∀ m, (mintSystem cd cfg).Reach m → (m.issued.map fun e => (e.1, e.2.seq)).Nodup)
      ∧ ∀ m, (mintSystem cd cfg).ReachIf Mint.InTurn m → m.Rising
        ∧ ∀ id m', m.step cd cfg (.stampClock id) = some m' →
          (m.generation cfg < m'.generation cfg ↔ m.InTurn (.stampClock id)) := by
  refine ⟨fun m h => ?_, fun m h => ?_⟩
  · have hlt := (Mint.counted_of_reach h).run.pairwise
    refine List.Pairwise.map _ (fun e e' hee he => ?_) hlt
    exact absurd (Prod.mk.inj he).2 hee.ne
  · obtain ⟨hord, hkept, -⟩ := Mint.ordered_of_reachIf h
    refine ⟨⟨hord.raised, hkept⟩, fun id m' hs => ⟨fun hlt => ?_, fun hin => ?_⟩⟩
    · obtain ⟨m₁, hact, rfl⟩ := Option.map_eq_some_iff.mp hs
      simp only [Mint.act] at hact
      split at hact
      next floor g k hb =>
        cases hact
        intro b hmem
        obtain rfl : Bump.stamped floor g k = b := Option.some.inj (hb.symm.trans hmem)
        refine (hord.ahead id floor g k hb).mp ?_
        exact hlt.trans_eq (clock_setGeneration m.desk.store cfg.selfName g).1
      next => cases hact
    · obtain ⟨m₁, hact, rfl⟩ := Option.map_eq_some_iff.mp hs
      exact (hord.stampClock hin hact).2

-- ======================================================================= overtaken

/-- Two peers report futures of ours; the bump that wrote the meta row
second writes the clock row first. -/
def Mint.overtaken : List Mint.Act :=
  [.report 1 9 0, .report 2 19 0, .stampMeta 1 30, .stampMeta 2 40, .stampClock 2]

/-- Up to here the run is in turn. -/
theorem generations_rise_overtaken : ∃ m : Mint, m.generation (Config.ofPeer 1 2) = 40
    ∧ m.Rising := by
  have hrun : ((mintSystem Codec.plain (Config.ofPeer 1 2)).runIf Mint.InTurn
      { desk := ⟨openIndex (Config.ofPeer 1 2) {} 5, []⟩ } Mint.overtaken).map
        (fun m => m.generation (Config.ofPeer 1 2)) = some 40 := by decide +kernel
  obtain ⟨m, hm, hread⟩ := Option.map_eq_some_iff.mp hrun
  have hinit : (mintSystem Codec.plain (Config.ofPeer 1 2)).init
      { desk := ⟨openIndex (Config.ofPeer 1 2) {} 5, []⟩ } := ⟨5, rfl⟩
  have hreach := System.ReachIf.runIf (System.ReachIf.init hinit) hm
  exact ⟨m, hread, ((generations_rise Codec.plain (Config.ofPeer 1 2)).2 m hreach).1⟩

/-- Then the first bump takes the generation back to its own. -/
theorem overtaken_generation_falls : ¬ ∀ (cd : Codec) (cfg : Config) (m : Mint),
    (mintSystem cd cfg).Reach m → m.Rising := by
  intro hall
  have hrun : ((mintSystem Codec.plain (Config.ofPeer 1 2)).run
      { desk := ⟨openIndex (Config.ofPeer 1 2) {} 5, []⟩ }
        (Mint.overtaken ++ [.stampClock 1])).map
        (fun m => m.raised) = some [⟨19, 5, 40⟩, ⟨9, 40, 30⟩] := by decide +kernel
  obtain ⟨m, hm, hread⟩ := Option.map_eq_some_iff.mp hrun
  have hinit : (mintSystem Codec.plain (Config.ofPeer 1 2)).init
      { desk := ⟨openIndex (Config.ofPeer 1 2) {} 5, []⟩ } := ⟨5, rfl⟩
  have hrising := hall Codec.plain (Config.ofPeer 1 2) m
    (System.Reach.run (System.Reach.start hinit) hm)
  have hlow := (hrising.raised ⟨9, 40, 30⟩ (by rw [hread]; decide)).1
  exact absurd hlow (by decide)

end Narshare
