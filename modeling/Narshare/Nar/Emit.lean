/-
How serve.rs sends a range: reads run ahead of what is sent, and what is
sent is in order.

# The feeder

`emit` and `stream_encode` share the head of their loop: up to
`READ_AHEAD` pieces are started, and the first of them is awaited. That is
`Feeder`. A read may come back at any time and in any order (`settle`), or
with an error; framing is there at once.

`Feeder.Owes` is what it keeps: the pieces started and those still to come
are, in order, the pieces that are not yet sent.

# The stream

`Emission` is `emit` as a machine. Its runs are over every order in which
reads come back and over a client that leaves at any time.
`emission_exact` says what each of them does, under the one condition that
a read which succeeds has read the file (`rightReads`; Io/Served.lean is
where that is shown of the reader).
-/
import Narshare.Nar.Request
import Narshare.Lib.System

namespace Narshare

-- ================================================================== the feeder

/-- `READ_AHEAD`. -/
def READ_AHEAD : ℕ := 16

/-- `Fetched`, and the piece it is of; without a result while its read is
under way. -/
structure Fetched where
  desc : PieceDesc
  result : Option (Option Bytes)
deriving DecidableEq

/-- `start_piece`. -/
def startPiece : PieceDesc → Fetched
  | .lit bytes => ⟨.lit bytes, some (some bytes)⟩
  | .read path off len => ⟨.read path off len, none⟩

/-- The head of the loops of `emit` and `stream_encode`. -/
structure Feeder where
  pieces : Pieces
  queue : List Fetched := []
deriving DecidableEq

namespace Feeder

/-- Start up to `n` more pieces. -/
def fillBy : ℕ → Feeder → Feeder
  | 0, f => f
  | n + 1, f =>
      match f.pieces.next with
      | none => f
      | some (d, pieces) => fillBy n ⟨pieces, f.queue ++ [startPiece d]⟩

/-- `emit`, the loop that keeps `READ_AHEAD` pieces started. -/
def fill (f : Feeder) : Feeder := f.fillBy (READ_AHEAD - f.queue.length)

/-- A read comes back. -/
def settle (f : Feeder) (i : ℕ) (r : Option Bytes) : Option Feeder :=
  match f.queue[i]? with
  | some ⟨d, none⟩ => some { f with queue := f.queue.set i ⟨d, some r⟩ }
  | _ => none

/-- A read that succeeds has read its file. -/
def rightRead (root : FileTree) (f : Feeder) (i : ℕ) : Option Bytes → Bool
  | none => true
  | some b => f.queue[i]?.all fun x => decide (b = x.desc.bytes root)

/-- The reads under way. -/
def pending (f : Feeder) : ℕ := f.queue.countP fun x => x.result.isNone

/-- What is started and what is still to come are these pieces, in order;
what has come back is what was asked for. -/
structure Owes (root : FileTree) (f : Feeder) (ds : List PieceDesc) : Prop where
  order : ∃ rest, f.pieces.Yields rest ∧ f.queue.map Fetched.desc ++ rest = ds
  right : ∀ x ∈ f.queue, ∀ b, x.result = some (some b) → b = x.desc.bytes root
  ahead : f.queue.length ≤ READ_AHEAD

variable {root : FileTree} {f f' : Feeder} {ds : List PieceDesc}

theorem desc_startPiece (d : PieceDesc) : (startPiece d).desc = d := by
  cases d with
  | lit bytes => rfl
  | read path off len => rfl

theorem right_startPiece (d : PieceDesc) {b : Bytes}
    (h : (startPiece d).result = some (some b)) : b = d.bytes root := by
  cases d with
  | lit bytes =>
      cases h
      rfl
  | read path off len => cases h

/-- One more piece is started. -/
theorem Owes.start (h : f.Owes root ds) {d : PieceDesc} {pieces : Pieces}
    (hsome : f.pieces.next = some (d, pieces)) (hlt : f.queue.length < READ_AHEAD) :
    Owes root ⟨pieces, f.queue ++ [startPiece d]⟩ ds ∧ f.queue.length < ds.length := by
  obtain ⟨rest, hyields, hds⟩ := h.order
  cases hyields with
  | done hnone =>
      rw [hsome] at hnone
      cases hnone
  | item hnext hrest =>
      rename_i rest
      rw [hsome] at hnext
      cases hnext
      refine ⟨⟨⟨rest, hrest, ?_⟩, fun x hx => ?_, ?_⟩, ?_⟩
      · rw [List.map_append, List.map_singleton, desc_startPiece, ← hds, List.append_assoc]
        rfl
      · rcases List.mem_append.mp hx with hx | hx
        · exact h.right x hx
        · cases List.mem_singleton.mp hx
          rw [desc_startPiece]
          exact fun b hb => right_startPiece d hb
      · rw [List.length_append, List.length_singleton]
        exact hlt
      · rw [← hds, List.length_append, List.length_map, List.length_cons]
        omega

/-- Starting pieces owes the same. -/
theorem Owes.fillBy {n : ℕ} (h : f.Owes root ds) (hn : f.queue.length + n ≤ READ_AHEAD) :
    (f.fillBy n).Owes root ds ∧ ((f.fillBy n).queue = [] → n = 0 ∨ ds = []) := by
  induction n generalizing f with
  | zero => exact ⟨h, fun _ => Or.inl rfl⟩
  | succ n ih =>
      obtain ⟨rest, hyields, hds⟩ := h.order
      rw [Feeder.fillBy]
      split
      next hnone =>
        refine ⟨h, fun hnil => Or.inr ?_⟩
        cases hyields with
        | done => rw [← hds, hnil]; rfl
        | item hnext =>
            rw [hnone] at hnext
            cases hnext
      next d pieces hsome =>
        obtain ⟨hmore, -⟩ := h.start hsome (by omega)
        have hlen : (f.queue ++ [startPiece d]).length = f.queue.length + 1 := by
          rw [List.length_append, List.length_singleton]
        obtain ⟨howes, hempty⟩ := ih hmore (by simp only; omega)
        refine ⟨howes, fun hnil => ?_⟩
        rcases hempty hnil with rfl | hnone
        · exact absurd (List.append_eq_nil_iff.mp hnil).2 (List.cons_ne_nil _ _)
        · exact Or.inr hnone

/-- A full queue is empty only when nothing is owed. -/
theorem Owes.fill (h : f.Owes root ds) :
    f.fill.Owes root ds ∧ (f.fill.queue = [] → ds = []) := by
  have hle := h.ahead
  obtain ⟨howes, hempty⟩ := h.fillBy (n := READ_AHEAD - f.queue.length) (by omega)
  refine ⟨howes, fun hnil => (hempty hnil).resolve_left fun hzero => ?_⟩
  -- nothing was started, so the queue was full
  rw [Feeder.fill, hzero, Feeder.fillBy] at hnil
  rw [hnil] at hzero
  cases hzero

theorem Owes.settle {i : ℕ} {r : Option Bytes} (h : f.Owes root ds)
    (hs : f.settle i r = some f') (hright : f.rightRead root i r = true) :
    f'.Owes root ds := by
  rw [Feeder.settle] at hs
  split at hs
  next d hget =>
    cases hs
    obtain ⟨rest, hyields, hds⟩ := h.order
    refine ⟨⟨rest, hyields, ?_⟩, fun x hx => ?_, ?_⟩
    · rw [← hds, List.map_set]
      congr 1
      apply List.ext_getElem?
      intro j
      by_cases hij : i = j
      · subst hij
        have hlt : i < (f.queue.map Fetched.desc).length := by
          rw [List.length_map]
          exact (List.getElem?_eq_some_iff.mp hget).1
        rw [List.getElem?_set_self hlt, List.getElem?_map, hget]
        rfl
      · rw [List.getElem?_set_ne hij]
    · rcases List.mem_or_eq_of_mem_set hx with hx | rfl
      · exact h.right x hx
      · intro b hb
        cases Option.some.inj hb
        rw [rightRead, hget] at hright
        exact of_decide_eq_true hright
    · rw [List.length_set]
      exact h.ahead
  next => cases hs

/-- A read that comes back takes no piece away. -/
theorem settle_ne_nil {i : ℕ} {r : Option Bytes} (hs : f.settle i r = some f')
    (hqueue : f.queue ≠ []) : f'.queue ≠ [] := by
  rw [Feeder.settle] at hs
  split at hs
  next =>
    cases hs
    intro hnil
    have hlen := congrArg List.length hnil
    rw [List.length_set, List.length_nil, List.length_eq_zero_iff] at hlen
    exact hqueue hlen
  next => cases hs

/-- The first piece started is the first that is owed. -/
theorem Owes.pop {pieces : Pieces} {x : Fetched} {queue : List Fetched}
    (h : Owes root ⟨pieces, x :: queue⟩ ds) :
    ∃ ds', ds = x.desc :: ds' ∧ Owes root ⟨pieces, queue⟩ ds' := by
  obtain ⟨rest, hyields, hds⟩ := h.order
  refine ⟨queue.map Fetched.desc ++ rest, hds.symm, ⟨rest, hyields, rfl⟩,
    fun y hy => h.right y (List.mem_cons_of_mem _ hy), ?_⟩
  have hle := h.ahead
  simp only [List.length_cons] at hle
  simp only
  omega

/-- All that is still to be done: a piece is started, comes back and is
sent. -/
def work (f : Feeder) (ds : List PieceDesc) : ℕ :=
  2 * ds.length + f.pending + (ds.length - f.queue.length)

theorem pending_append (queue queue' : List Fetched) (p p' : Pieces) :
    pending ⟨p, queue ++ queue'⟩ = pending ⟨p', queue⟩ + pending ⟨p', queue'⟩ :=
  List.countP_append

/-- Starting pieces is no more work. -/
theorem Owes.work_fillBy {n : ℕ} (h : f.Owes root ds) (hn : f.queue.length + n ≤ READ_AHEAD) :
    (f.fillBy n).work ds ≤ f.work ds := by
  induction n generalizing f with
  | zero => exact le_rfl
  | succ n ih =>
      rw [Feeder.fillBy]
      split
      next => exact le_rfl
      next d pieces hsome =>
        obtain ⟨hmore, hlt⟩ := h.start hsome (by omega)
        have hlen : (f.queue ++ [startPiece d]).length = f.queue.length + 1 := by
          rw [List.length_append, List.length_singleton]
        refine (ih hmore (by simp only; omega)).trans ?_
        have hstart : pending ⟨f.pieces, [startPiece d]⟩ ≤ 1 := List.countP_le_length
        have hpend : pending ⟨pieces, f.queue ++ [startPiece d]⟩
            = f.pending + pending ⟨f.pieces, [startPiece d]⟩ := pending_append _ _ _ _
        show 2 * ds.length + pending ⟨pieces, f.queue ++ [startPiece d]⟩
          + (ds.length - (f.queue ++ [startPiece d]).length) ≤ _
        rw [hpend, Feeder.work]
        omega

variable (ds) in
/-- A read that comes back is less. -/
theorem work_settle {i : ℕ} {r : Option Bytes} (hs : f.settle i r = some f') :
    f'.work ds + 1 = f.work ds := by
  rw [Feeder.settle] at hs
  split at hs
  next d hget =>
    cases hs
    obtain ⟨hlt, hi⟩ := List.getElem?_eq_some_iff.mp hget
    have hpend : pending ⟨f.pieces, f.queue.set i ⟨d, some r⟩⟩ + 1 = f.pending := by
      have hsplit : f.queue = f.queue.take i ++ ⟨d, none⟩ :: f.queue.drop (i + 1) := by
        rw [← hi, List.getElem_cons_drop, List.take_append_drop]
      have hset : f.queue.set i ⟨d, some r⟩
          = f.queue.take i ++ ⟨d, some r⟩ :: f.queue.drop (i + 1) := by
        rw [List.set_eq_take_append_cons_drop, if_pos hlt]
      rw [pending, pending, hset]
      conv_rhs => rw [hsplit]
      rw [List.countP_append, List.countP_append, List.countP_cons_of_neg (by simp),
        List.countP_cons_of_pos (by rfl)]
      omega
    rw [Feeder.work, Feeder.work, List.length_set, ← hpend]
    omega
  next => cases hs

variable (ds) in
/-- A piece that is taken is two less, whatever came back. -/
theorem work_pop {pieces : Pieces} {d : PieceDesc} {r : Option Bytes} {queue : List Fetched} :
    work ⟨pieces, ⟨d, some r⟩ :: queue⟩ (d :: ds) = work ⟨pieces, queue⟩ ds + 2 := by
  have hpend : pending ⟨pieces, ⟨d, some r⟩ :: queue⟩ = pending ⟨pieces, queue⟩ :=
    List.countP_cons_of_neg (by simp)
  rw [work, work, hpend, List.length_cons, List.length_cons]
  simp only
  omega

/-- With a piece started there is work left. -/
theorem work_pos (h : f.Owes root ds) (hqueue : f.queue ≠ []) : 0 < f.work ds := by
  obtain ⟨rest, -, rfl⟩ := h.order
  have hpos : 0 < f.queue.length := List.length_pos_iff.mpr hqueue
  rw [work, List.length_append, List.length_map]
  omega

end Feeder

-- ================================================================== the stream

/-- Where `emit` stands: at the head of its loop, awaiting its first
piece, or returned with all sent, with no one to send to, or with an
error. -/
inductive EmitStage
  | filling
  | awaiting
  | finished
  | left
  | failed
deriving DecidableEq

/-- `emit`; `body` is what went into the response, an error for `none`. -/
structure Emission where
  feeder : Feeder
  body : List (Option Bytes) := []
  stage : EmitStage := .filling
deriving DecidableEq

/-- The loop goes round, a read comes back, or the first piece is taken
and sent; the client may have left. -/
inductive EmitAct
  | fill
  | settle (i : ℕ) (r : Option Bytes)
  | take (stays : Bool)
deriving DecidableEq

namespace Emission

/-- What becomes of the first piece. -/
def sent (e : Emission) (queue : List Fetched) (r : Option Bytes) (stays : Bool) : Emission :=
  match r, stays with
  | some b, true =>
      { feeder := { e.feeder with queue := queue }
        body := e.body ++ [some b]
        stage := .filling }
  -- the reads that are left are aborted
  | some _, false => { e with feeder := { e.feeder with queue := [] }, stage := .left }
  | none, true =>
      { feeder := { e.feeder with queue := [] }, body := e.body ++ [none], stage := .failed }
  | none, false => { e with feeder := { e.feeder with queue := [] }, stage := .failed }

/-- `emit`, step by step. -/
def step (e : Emission) : EmitAct → Option Emission
  | .fill =>
      if e.stage = .filling then
        let feeder := e.feeder.fill
        some { e with
          feeder := feeder
          stage := if feeder.queue = [] then .finished else .awaiting }
      else none
  | .settle i r =>
      if e.stage = .filling ∨ e.stage = .awaiting then
        (e.feeder.settle i r).map fun feeder => { e with feeder := feeder }
      else none
  | .take stays =>
      if e.stage = .awaiting then
        match e.feeder.queue with
        | ⟨_, some r⟩ :: queue => some (e.sent queue r stays)
        | _ => none
      else none

end Emission

/-- The runs of `emit` over a range of a tree's table. -/
def emission (root : FileTree) (start end_ : ℕ) : System Emission EmitAct where
  init e := e = { feeder := { pieces := Pieces.new (SeekTable.build root) start end_ } }
  step := Emission.step

/-- The reads of an emission. -/
def rightReads (root : FileTree) (e : Emission) : EmitAct → Bool
  | .settle i r => e.feeder.rightRead root i r
  | _ => true

namespace Emission

variable {root : FileTree} {all : List PieceDesc} {e e' : Emission} {a : EmitAct}

/-- It has not returned. -/
def Running (e : Emission) : Prop := e.stage = .filling ∨ e.stage = .awaiting

/-- What was sent, what is owed, and that the two are all. -/
structure Streams (root : FileTree) (all : List PieceDesc) (e : Emission) : Prop where
  running : e.Running → ∃ before ds, all = before ++ ds ∧ e.feeder.Owes root ds
    ∧ e.body = before.map fun d => some (d.bytes root)
  awaiting : e.stage = .awaiting → e.feeder.queue ≠ []
  body : ∃ before, before <+: all
    ∧ (e.body = (before.map fun d => some (d.bytes root))
      ∨ (e.stage = .failed ∧ e.body = (before.map fun d => some (d.bytes root)) ++ [none]))
  finished : e.stage = .finished → e.body = all.map fun d => some (d.bytes root)
  idle : ¬ e.Running → e.feeder.queue = []

theorem Streams.step (h : e.Streams root all) (hok : rightReads root e a = true)
    (hs : e.step a = some e') : e'.Streams root all := by
  cases a with
  | fill =>
      rw [Emission.step] at hs
      split at hs
      next hstage =>
        cases hs
        obtain ⟨before, ds, hall, howes, hbody⟩ := h.running (Or.inl hstage)
        obtain ⟨hfill, hempty⟩ := howes.fill
        have hpre : before <+: all := hall ▸ List.prefix_append _ _
        by_cases hnil : e.feeder.fill.queue = []
        · have hds := hempty hnil
          simp only [if_pos hnil]
          refine ⟨fun hrun => ?_, (fun h => by cases h), ⟨before, hpre, Or.inl hbody⟩,
            fun _ => ?_, fun _ => hnil⟩
          · rcases hrun with hrun | hrun
            · cases hrun
            · cases hrun
          · rw [hall, hds, List.append_nil]
            exact hbody
        · simp only [if_neg hnil]
          exact ⟨fun _ => ⟨before, ds, hall, hfill, hbody⟩, fun _ => hnil,
            ⟨before, hpre, Or.inl hbody⟩, (fun h => by cases h),
            fun hrun => absurd (Or.inr rfl) hrun⟩
      next => cases hs
  | settle i r =>
      rw [Emission.step] at hs
      split at hs
      next hstage =>
        obtain ⟨feeder, hsettle, rfl⟩ := Option.map_eq_some_iff.mp hs
        obtain ⟨before, ds, hall, howes, hbody⟩ := h.running hstage
        have howes' := howes.settle hsettle hok
        exact ⟨fun _ => ⟨before, ds, hall, howes', hbody⟩,
          fun hst => Feeder.settle_ne_nil hsettle (h.awaiting hst), h.body, h.finished,
          fun hrun => absurd hstage hrun⟩
      next => cases hs
  | take stays =>
      rw [Emission.step] at hs
      split at hs
      next hstage =>
        split at hs
        next d r queue hqueue =>
          cases hs
          obtain ⟨before, ds, hall, howes, hbody⟩ := h.running (Or.inr hstage)
          have hfeeder : e.feeder = ⟨e.feeder.pieces, ⟨d, some r⟩ :: queue⟩ := by rw [← hqueue]
          rw [hfeeder] at howes
          obtain ⟨ds', rfl, hrest⟩ := howes.pop
          have hpre : before <+: all := hall ▸ List.prefix_append _ _
          have hstops : ∀ {stage : EmitStage}, stage = .left ∨ stage = .failed →
              ¬ (stage = .filling ∨ stage = .awaiting) := by
            rintro stage (rfl | rfl)
            · exact fun hrun => by rcases hrun with hrun | hrun <;> cases hrun
            · exact fun hrun => by rcases hrun with hrun | hrun <;> cases hrun
          cases r with
          | some b =>
              cases stays with
              | true =>
                  have hb : b = d.bytes root := howes.right _ List.mem_cons_self b rfl
                  have hmore : e.body ++ [some b]
                      = (before ++ [d]).map fun d => some (d.bytes root) := by
                    rw [hbody, List.map_append, List.map_singleton, hb]
                  have hsplit : all = (before ++ [d]) ++ ds' := by
                    rw [hall, List.append_assoc]
                    rfl
                  exact ⟨fun _ => ⟨before ++ [d], ds', hsplit, hrest, hmore⟩, (fun h => by cases h),
                    ⟨before ++ [d], hsplit ▸ List.prefix_append _ _, Or.inl hmore⟩,
                    (fun h => by cases h), fun hrun => absurd (Or.inl rfl) hrun⟩
              | false =>
                  exact ⟨fun hrun => absurd hrun (hstops (Or.inl rfl)), (fun h => by cases h),
                    ⟨before, hpre, Or.inl hbody⟩, (fun h => by cases h), fun _ => rfl⟩
          | none =>
              cases stays with
              | true =>
                  refine ⟨fun hrun => absurd hrun (hstops (Or.inr rfl)), (fun h => by cases h),
                    ⟨before, hpre, Or.inr ⟨rfl, ?_⟩⟩, (fun h => by cases h), fun _ => rfl⟩
                  show e.body ++ [none] = _
                  rw [hbody]
              | false =>
                  exact ⟨fun hrun => absurd hrun (hstops (Or.inr rfl)), (fun h => by cases h),
                    ⟨before, hpre, Or.inl hbody⟩, (fun h => by cases h), fun _ => rfl⟩
        next => cases hs
      next => cases hs

/-- How many steps are left at most. -/
def owed (all : List PieceDesc) (e : Emission) : ℕ :=
  match e.stage with
  | .filling => e.feeder.work (all.drop e.body.length) + 1
  | .awaiting => e.feeder.work (all.drop e.body.length)
  | _ => 0

/-- Every step is one of them. -/
theorem Streams.owed_lt (h : e.Streams root all) (hs : e.step a = some e') :
    e'.owed all < e.owed all := by
  -- what is owed is what comes after what was sent
  have hds : ∀ {before ds : List PieceDesc}, all = before ++ ds →
      e.body = (before.map fun d => some (d.bytes root)) → all.drop e.body.length = ds := by
    intro before ds hall hbody
    rw [hbody, List.length_map, hall, List.drop_left]
  cases a with
  | fill =>
      rw [Emission.step] at hs
      split at hs
      next hstage =>
        cases hs
        obtain ⟨before, ds, hall, howes, hbody⟩ := h.running (Or.inl hstage)
        have hle := howes.work_fillBy (n := READ_AHEAD - e.feeder.queue.length)
          (by have := howes.ahead; omega)
        rw [owed, owed, hstage, hds hall hbody]
        by_cases hnil : e.feeder.fill.queue = []
        · simp only [if_pos hnil]
          omega
        · simp only [if_neg hnil]
          exact Nat.lt_succ_of_le hle
      next => cases hs
  | settle i r =>
      rw [Emission.step] at hs
      split at hs
      next hstage =>
        obtain ⟨feeder, hsettle, rfl⟩ := Option.map_eq_some_iff.mp hs
        have hless := Feeder.work_settle (all.drop e.body.length) hsettle
        rcases hstage with hstage | hstage
        · simp only [owed, hstage]
          omega
        · simp only [owed, hstage]
          omega
      next => cases hs
  | take stays =>
      rw [Emission.step] at hs
      split at hs
      next hstage =>
        split at hs
        next d r queue hqueue =>
          cases hs
          obtain ⟨before, ds, hall, howes, hbody⟩ := h.running (Or.inr hstage)
          have hfeeder : e.feeder = ⟨e.feeder.pieces, ⟨d, some r⟩ :: queue⟩ := by rw [← hqueue]
          rw [hfeeder] at howes
          obtain ⟨ds', rfl, -⟩ := howes.pop
          have hwork : e.feeder.work (d :: ds') = Feeder.work ⟨e.feeder.pieces, queue⟩ ds' + 2 := by
            rw [hfeeder]
            exact Feeder.work_pop ds'
          have hnow : e.owed all = Feeder.work ⟨e.feeder.pieces, queue⟩ ds' + 2 := by
            rw [owed, hstage]
            simp only
            rw [hds hall hbody]
            exact hwork
          rw [hnow]
          cases r with
          | some b =>
              cases stays with
              | true =>
                  have hdrop : all.drop (e.body ++ [some b]).length = ds' := by
                    rw [List.length_append, List.length_singleton, ← List.drop_drop,
                      hds hall hbody]
                    rfl
                  show Feeder.work ⟨e.feeder.pieces, queue⟩
                    (all.drop (e.body ++ [some b]).length) + 1 < _
                  rw [hdrop]
                  omega
              | false => exact Nat.succ_pos _
          | none =>
              cases stays with
              | true => exact Nat.succ_pos _
              | false => exact Nat.succ_pos _
        next => cases hs
      next => cases hs

/-- One that has not returned has a step to take. -/
theorem Streams.enabled (h : e.Streams root all) (hrun : e.Running) :
    ∃ a e', rightReads root e a = true ∧ e.step a = some e' := by
  rcases hrun with hstage | hstage
  · exact ⟨.fill, _, rfl, if_pos hstage⟩
  · cases hqueue : e.feeder.queue with
    | nil => exact absurd hqueue (h.awaiting hstage)
    | cons x queue =>
        obtain ⟨d, r⟩ := x
        cases r with
        | some r =>
            refine ⟨.take true, e.sent queue r true, rfl, ?_⟩
            rw [Emission.step, if_pos hstage, hqueue]
        | none =>
            have hright : rightReads root e (.settle 0 (some (d.bytes root))) = true := by
              rw [rightReads, Feeder.rightRead, hqueue]
              exact decide_eq_true rfl
            have hstep : e.step (.settle 0 (some (d.bytes root))) = some { e with
                feeder := { e.feeder with
                  queue := ⟨d, some (some (d.bytes root))⟩ :: queue } } := by
              rw [Emission.step, if_pos (Or.inr hstage), Feeder.settle, hqueue]
              rfl
            exact ⟨_, _, hright, hstep⟩

theorem streams_of_reach {start end_ : ℕ} {ds : List PieceDesc}
    (hyields : (Pieces.new (SeekTable.build root) start end_).Yields ds)
    (h : (emission root start end_).ReachIf (fun e a => rightReads root e a = true) e) :
    e.Streams root ds := by
  refine h.invariant (I := fun e => e.Streams root ds) ?_
    fun e a e' _ hold hok hstep => hold.step hok hstep
  rintro e rfl
  exact ⟨fun _ => ⟨[], ds, rfl, ⟨⟨ds, hyields, rfl⟩, fun x hx => absurd hx List.not_mem_nil,
      Nat.zero_le _⟩, rfl⟩, (fun h => by cases h),
    ⟨[], List.nil_prefix, Or.inl rfl⟩, (fun h => by cases h), fun _ => rfl⟩

/-- No run is longer. -/
theorem run_length_le {start end_ : ℕ} {ds : List PieceDesc} {as : List EmitAct}
    (h : e.Streams root ds)
    (hrun : (emission root start end_).runIf (fun e a => rightReads root e a = true) e as
      = some e') : as.length + e'.owed ds ≤ e.owed ds := by
  induction as generalizing e with
  | nil =>
      cases hrun
      exact (Nat.zero_add _).le
  | cons a as ih =>
      rw [System.runIf] at hrun
      split at hrun
      next hok =>
        obtain ⟨e₁, hstep, hrest⟩ := Option.bind_eq_some_iff.mp hrun
        have hlt := h.owed_lt hstep
        have := ih (h.step hok hstep) hrest
        rw [List.length_cons]
        omega
      next => cases hrun

/-- What the pieces that were sent make of the range. -/
theorem flatten_isPrefix {before all : List PieceDesc} (h : before <+: all) :
    (before.map (PieceDesc.bytes root)).flatten <+: all.flatMap (PieceDesc.bytes root) := by
  obtain ⟨rest, rfl⟩ := h
  rw [List.flatMap_append, List.flatMap_def]
  exact List.prefix_append _ _

end Emission

-- ============================================================= what a run comes to

/-- Where a run of an emission has got to: what went out is the start of
the range, an error is the last of it, and all of it went out when the
loop has finished; whatever a fetcher takes of it is an answer; never more
than `READ_AHEAD` pieces are held, none once it has returned, and until
then there is a step to take. -/
structure Emission.Exact (root : FileTree) (start end_ : ℕ) (e : Emission) : Prop where
  body : ∃ chunks : List Bytes, chunks.flatten <+: slice (narOf root) start end_
    ∧ (e.body = chunks.map some ∨ (e.stage = .failed ∧ e.body = chunks.map some ++ [none]))
  finished : e.stage = .finished → ∃ chunks : List Bytes, e.body = chunks.map some
    ∧ chunks.flatten = slice (narOf root) start end_
  fetched : ∀ contentLength b, unpack none contentLength (end_ - start) e.body = some b →
    Answers root start (end_ - start) b
  ahead : e.feeder.queue.length ≤ READ_AHEAD
  idle : ¬ e.Running → e.feeder.queue = []
  enabled : e.Running → ∃ a e', rightReads root e a = true ∧ e.step a = some e'

/-- However the reads come back and whenever the client leaves: the range
is sent in order, and the loop returns within three steps for each of its
pieces and one more. -/
theorem emission_exact {root : FileTree} (hroot : root.Distinct)
    (hsize : (narOf root).length < 2 ^ 64) {start end_ : ℕ} (hrange : start < end_)
    (hend : end_ ≤ (narOf root).length) :
    ∃ ds, (Pieces.new (SeekTable.build root) start end_).Yields ds
      ∧ (∀ e, (emission root start end_).ReachIf (fun e a => rightReads root e a = true) e →
        e.Exact root start end_)
      ∧ ∀ as e', (emission root start end_).runIf (fun e a => rightReads root e a = true)
          { feeder := { pieces := Pieces.new (SeekTable.build root) start end_ } } as = some e' →
        as.length ≤ 3 * ds.length + 1 := by
  obtain ⟨ds, hyields, hbytes, -⟩ := (SeekTable.covers_build hroot).yields hrange
  refine ⟨ds, hyields, fun e h => ?_, fun as e' hrun => ?_⟩
  · have hstreams := Emission.streams_of_reach hyields h
    have hmap : ∀ before : List PieceDesc, (before.map fun d => some (d.bytes root))
        = (before.map (PieceDesc.bytes root)).map some := fun before => by
      rw [List.map_map]
      rfl
    have hbody : ∃ chunks : List Bytes, chunks.flatten <+: slice (narOf root) start end_
        ∧ (e.body = chunks.map some
          ∨ (e.stage = .failed ∧ e.body = chunks.map some ++ [none])) := by
      obtain ⟨before, hpre, hbody⟩ := hstreams.body
      rw [hmap] at hbody
      exact ⟨_, hbytes ▸ Emission.flatten_isPrefix hpre, hbody⟩
    refine ⟨hbody, fun hdone => ?_, fun contentLength b hb => ?_, ?_, hstreams.idle,
      hstreams.enabled⟩
    · refine ⟨ds.map (PieceDesc.bytes root), (hstreams.finished hdone).trans (hmap ds), ?_⟩
      rw [← hbytes, List.flatMap_def]
    · obtain ⟨hlen, got, hgot, heq⟩ := unpack_some hb
      cases heq
      obtain ⟨chunks, hpre, hclean | ⟨-, hbad⟩⟩ := hbody
      · -- a start of the range that has its length is the range
        have hsame : got = chunks :=
          List.map_injective_iff.mpr (Option.some_injective _) (hgot.symm.trans hclean)
        have hwhole : got.flatten = slice (narOf root) start end_ := by
          rw [hsame] at hlen ⊢
          refine hpre.eq_of_length ?_
          rw [hlen, length_slice, Nat.min_eq_left hend]
        refine (answers_iff hroot hsize (Nat.sub_pos_of_lt hrange) (by omega)).mpr ?_
        rw [hwhole, Nat.add_sub_cancel' hrange.le]
      · have hmem : none ∈ got.map some := by
          rw [← hgot, hbad]
          exact List.mem_append_right _ List.mem_cons_self
        obtain ⟨_, -, hnone⟩ := List.mem_map.mp hmem
        cases hnone
    · by_cases hrun : e.Running
      · obtain ⟨_, _, -, howes, -⟩ := hstreams.running hrun
        exact howes.ahead
      · rw [hstreams.idle hrun]
        exact Nat.zero_le _
  · have hstart := Emission.streams_of_reach hyields (System.ReachIf.init rfl)
    have hle := Emission.run_length_le hstart hrun
    have howed : Emission.owed ds
        { feeder := { pieces := Pieces.new (SeekTable.build root) start end_ } }
          = 3 * ds.length + 1 := by
      show 2 * ds.length + 0 + (ds.length - 0) + 1 = _
      omega
    omega

/-- The second of two pieces comes back before the first is sent, and the
small tree's script goes out in order. -/
theorem emission_exact_smallTree :
    ∃ e : Emission, e.stage = .finished ∧ e.Exact smallTree 0 (narOf smallTree).length := by
  obtain ⟨ds, -, hexact, -⟩ := emission_exact distinct_smallTree
    (show (narOf smallTree).length < 2 ^ 64 by decide +kernel)
    (show 0 < (narOf smallTree).length by decide +kernel) le_rfl
  have hrun : ((emission smallTree 0 (narOf smallTree).length).runIf
      (fun e a => rightReads smallTree e a = true)
      { feeder := { pieces := Pieces.new (SeekTable.build smallTree) 0 (narOf smallTree).length } }
      [.fill, .settle 1 (some [35, 33, 10]), .take true, .fill, .take true, .fill, .take true,
        .fill]).map Emission.stage = some .finished := by decide +kernel
  obtain ⟨e, he, hstage⟩ := Option.map_eq_some_iff.mp hrun
  exact ⟨e, hstage, hexact e ((System.ReachIf.init rfl).runIf he)⟩

end Narshare
