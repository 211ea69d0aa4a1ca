/-
The own-db loop of sync.rs beside Nix's commits and the retractions that
requests set off: no path we hold is lost from our possession, unless a
retraction comes too late.

# The parties

Nix commits to its database whenever it likes; each commit moves
`data_version` and gives new rows fresh ids. `export_own_db` runs one at
a time and reads the database, compares and exports in separate steps.
A request for a hash no row has spawns `retract_hold`, which asks whether
we hold the hash and only then drops it; any number of these are under
way at once. The two halves of a retraction, and the steps of a run, may
come in any order with everything else.

What a run attests is of no account here, so the step that fixes what is
exported takes any attestations. A step `fail` ends a run anywhere, with
some of its chunks exported.

# The watermark

The rows up to the kept watermark `max_id` are not looked at again until
the next full reconciliation, so their hashes have to STAY held: that is
the heart of `OwnDb.Inv` (`kept`). A run extends it to the rows it has
looked at, and when the version has not moved since the run began, these
are all there are (`current`).

A `Drop` decided before a row was inserted again, and applied once the
differ has passed that row, breaks it (`late_retraction_loses`). The
condition `OwnDb.Timely` rules just these out: the row is passed when its
id is within the watermark, or when the run under way has found its hash
held already.
-/
import Narshare.Index.Differ
import Narshare.Lib.System

namespace Narshare

variable (cd : Codec) (cfg : Config)

-- =============================================================== the system

/-- Where a run of `export_own_db` stands. -/
inductive OwnPhase
  | marking
  | scanning (mark : ℤ)
  | comparing (mark : ℤ) (cands : List Candidate)
  | fetching
  | looking (mark : ℤ) (todo : List Candidate) (seen : List NarHash) (adds : List HoldOp)
  | shipping (mark : ℤ) (attests : List Attestation) (holds : List HoldOp)
  | closing (mark : ℤ)

/-- The index and its database, with the loop's state and what is under
way. A run carries the version it sampled; `asked` are the retractions
not yet begun, `doomed` those that have found the hash held. -/
structure OwnDb where
  store : Store
  db : NixDb
  lastId : ℤ
  version : ℕ := 0
  diffState : Option ℤ := none
  lastDataVersion : Option ℕ := none
  run : Option (ℕ × OwnPhase) := none
  asked : List NarHash := []
  doomed : List NarHash := []

/-- The NAR hash of a well-formed row. -/
def ValidPath.narHash (r : ValidPath) : Option NarHash := r.candidate.map Candidate.narHash

namespace OwnDb

/-- One step of Nix, of a request, of a retraction or of the loop. -/
inductive Act
  | commit (db : NixDb)
  | request (h : NarHash)
  | checkHold (h : NarHash)
  | retract (h : NarHash)
  | wake (due : Bool)
  | mark
  | scan
  | look
  | compare (attests : List Attestation)
  | ship
  | finish
  | fail (done : ℕ)

/-- Rows only come with fresh ids; which go is Nix's affair. -/
def freshOver (m : OwnDb) (db : NixDb) : Bool :=
  db.rows.all fun r => decide (r ∈ m.db.rows) || decide (m.lastId < r.id)

/-- The loop over the additions, one candidate: its hash is looked up
unless a candidate before it had it. -/
def lookAt (held : Bool) (c : Candidate) (seen : List NarHash) (adds : List HoldOp) :
    List NarHash × List HoldOp :=
  if c.narHash ∈ seen then (seen, adds)
  else (c.narHash :: seen, if held then adds else adds ++ [.add c.narHash])

/-- An export of which some chunks are left out at the end. -/
def shipSome (s : Store) (attests : List Attestation) (holds : List HoldOp) (done : ℕ) : Store :=
  let cur := s.db.clock cfg.selfName
  (exportChunks cd cfg cur.generation
    ((chunks EXPORT_CHUNK (exportList attests holds)).take done) cur.seq s).2

/-- The guarded step. -/
def step (m : OwnDb) : Act → Option OwnDb
  | .commit db =>
      if m.freshOver db then
        some { m with db := db, lastId := max m.lastId db.maxId, version := m.version + 1 }
      else none
  | .request h =>
      if m.db.rows.any fun r => r.narHash == some h then none
      else some { m with asked := h :: m.asked }
  | .checkHold h =>
      if h ∈ m.asked then
        some { m with
          asked := m.asked.erase h
          doomed := if m.store.db.isHeld cfg.selfName h then h :: m.doomed else m.doomed }
      else none
  | .retract h =>
      if h ∈ m.doomed then
        some { m with
          doomed := m.doomed.erase h
          store := (exportOps cd cfg m.store [] [.drop h]).2 }
      else none
  | .wake due =>
      if m.run.isSome then none
      else if due || m.diffState.isNone then some { m with run := some (m.version, .marking) }
      else if m.lastDataVersion = some m.version then some m
      else some { m with run := some (m.version, .fetching) }
  | .mark =>
      match m.run with
      | some (v, .marking) => some { m with run := some (v, .scanning m.db.maxId) }
      | _ => none
  | .scan =>
      match m.run, m.diffState with
      | some (v, .scanning mark), _ =>
          some { m with run := some (v, .comparing mark m.db.candidates) }
      | some (v, .fetching), some since =>
          let (cands, maxId) := m.db.additionsSince since
          some { m with run := some (v, .looking maxId cands [] []) }
      | _, _ => none
  | .look =>
      match m.run with
      | some (v, .looking mark (c :: todo) seen adds) =>
          let (seen, adds) :=
            lookAt (m.store.db.isHeld cfg.selfName c.narHash) c seen adds
          some { m with run := some (v, .looking mark todo seen adds) }
      | _ => none
  | .compare attests =>
      match m.run with
      | some (v, .comparing mark cands) =>
          some { m with run := some (v, .shipping mark attests (ownHolds cfg m.store cands)) }
      | some (v, .looking mark [] _ adds) =>
          some { m with run := some (v, .shipping mark attests adds) }
      | _ => none
  | .ship =>
      match m.run with
      | some (v, .shipping mark attests holds) =>
          some { m with
            store := (exportOps cd cfg m.store attests holds).2
            run := some (v, .closing mark) }
      | _ => none
  | .finish =>
      match m.run with
      | some (v, .closing mark) =>
          some { m with diffState := some mark, lastDataVersion := some v, run := none }
      | _ => none
  | .fail done =>
      match m.run with
      | some (_, .shipping _ attests holds) =>
          some { m with store := shipSome cd cfg m.store attests holds done, run := none }
      | some _ => some { m with run := none }
      | none => none

/-- Nothing run yet; the rows there are have ids AUTOINCREMENT gave. -/
structure Start (m : OwnDb) : Prop where
  idle : m.run = none ∧ m.asked = [] ∧ m.doomed = []
  fresh : m.diffState = none ∧ m.lastDataVersion = none
  ids : 0 ≤ m.lastId ∧ ∀ r ∈ m.db.rows, 0 < r.id ∧ r.id ≤ m.lastId

end OwnDb

/-- The own-db loop with its surroundings. -/
def ownSystem : System OwnDb OwnDb.Act where
  init := OwnDb.Start
  step m a := m.step cd cfg a

namespace OwnDb

/-- No run, no retraction, and the version of the last successful run. -/
structure Quiet (m : OwnDb) : Prop where
  run : m.run = none
  asked : m.asked = []
  doomed : m.doomed = []
  version : m.lastDataVersion = some m.version

/-- We hold the hash of every well-formed row. -/
def Complete (m : OwnDb) : Prop :=
  ∀ r ∈ m.db.rows, ∀ h, r.narHash = some h → m.store.db.isHeld cfg.selfName h = true

/-- Has the differ passed a row of this id and hash? -/
def passed (m : OwnDb) (id : ℤ) (h : NarHash) : Bool :=
  (m.diffState.any fun since => decide (id ≤ since)) || match m.run with
    | some (_, .looking mark _ seen adds) =>
        decide (id ≤ mark) && decide (h ∈ seen) && decide (HoldOp.add h ∉ adds)
    | some (_, .shipping mark _ holds) => decide (id ≤ mark) && decide (HoldOp.add h ∉ holds)
    | some (_, .closing mark) => decide (id ≤ mark)
    | _ => false

/-- A hash is dropped only while the differ has passed no row that has
it. -/
def Timely (m : OwnDb) : Act → Prop
  | .retract h => ∀ r ∈ m.db.rows, r.narHash = some h → m.passed r.id h = false
  | _ => True

instance (m : OwnDb) (a : Act) : Decidable (m.Timely a) := by
  cases a <;> unfold Timely <;> infer_instance

-- ============================================================ the invariant

variable {cd cfg} {m m' : OwnDb}

/-- Above the mark of a run and above the watermark it began with. -/
def Later (m : OwnDb) (mark id : ℤ) : Prop :=
  mark < id ∧ ∀ since, m.diffState = some since → since < id

/-- What a run knows of its mark: it is the id of a row there has been,
and bounds all rows while nothing has been committed. -/
structure Marked (m : OwnDb) (v : ℕ) (mark : ℤ) : Prop where
  le : mark ≤ m.lastId
  all : v = m.version → ∀ r ∈ m.db.rows, r.id ≤ mark

variable (cfg) in
/-- What holds in each phase of a run, of the well-formed rows up to its
mark. -/
def PhaseOk (m : OwnDb) (v : ℕ) : OwnPhase → Prop
  | .marking => True
  | .fetching => True
  | .scanning mark => m.Marked v mark
  | .comparing mark cands => m.Marked v mark
      ∧ ∀ r ∈ m.db.rows, ∀ h, r.narHash = some h →
        h ∈ ownHashes cands ∨ m.Later mark r.id
  | .looking mark todo seen adds => m.Marked v mark ∧ (∀ h, HoldOp.drop h ∉ adds)
      ∧ ∀ r ∈ m.db.rows, ∀ h, r.narHash = some h → r.id ≤ mark →
        (∃ since, m.diffState = some since ∧ r.id ≤ since)
          ∨ (h ∈ seen ∧ (m.store.db.isHeld cfg.selfName h = true ∨ HoldOp.add h ∈ adds))
          ∨ (h ∉ seen ∧ ∃ c ∈ todo, c.narHash = h)
  | .shipping mark _ holds => m.Marked v mark
      ∧ (∀ r ∈ m.db.rows, ∀ h, r.narHash = some h → r.id ≤ mark →
        m.store.db.isHeld cfg.selfName h = true ∨ HoldOp.add h ∈ holds)
      ∧ ∀ r ∈ m.db.rows, ∀ h, r.narHash = some h → HoldOp.drop h ∈ holds → m.Later mark r.id
  | .closing mark => m.Marked v mark
      ∧ ∀ r ∈ m.db.rows, ∀ h, r.narHash = some h → r.id ≤ mark →
        m.store.db.isHeld cfg.selfName h = true

variable (cfg) in
/-- The invariant of timely runs: the hashes of the rows within the
watermark are held, and the watermark bounds all rows when the version is
that of the last successful run. -/
structure Inv (m : OwnDb) : Prop where
  start : 0 ≤ m.lastId
  ids : ∀ r ∈ m.db.rows, 0 < r.id ∧ r.id ≤ m.lastId
  since_le : ∀ since, m.diffState = some since → since ≤ m.lastId
  kept : ∀ since, m.diffState = some since → ∀ r ∈ m.db.rows, ∀ h, r.narHash = some h →
    r.id ≤ since → m.store.db.isHeld cfg.selfName h = true
  version_le : ∀ v, m.lastDataVersion = some v → v ≤ m.version
  current : m.lastDataVersion = some m.version →
    ∃ since, m.diffState = some since ∧ ∀ r ∈ m.db.rows, r.id ≤ since
  run : ∀ v p, m.run = some (v, p) → v ≤ m.version ∧ m.PhaseOk cfg v p

theorem maxId_le {db : NixDb} {b : ℤ} (hb : 0 ≤ b) (h : ∀ r ∈ db.rows, r.id ≤ b) :
    db.maxId ≤ b := by
  unfold NixDb.maxId
  cases hm : (db.rows.map ValidPath.id).max? with
  | none => exact hb
  | some x =>
      obtain ⟨r, hr, rfl⟩ := List.mem_map.mp (List.max?_mem hm)
      exact h r hr

theorem fresh_row {db : NixDb} (h : m.freshOver db = true) {r : ValidPath} (hr : r ∈ db.rows) :
    r ∈ m.db.rows ∨ m.lastId < r.id := by
  have := List.all_eq_true.mp h r hr
  rw [Bool.or_eq_true, decide_eq_true_iff, decide_eq_true_iff] at this
  exact this

namespace Inv

theorem start_inv (h : m.Start) : m.Inv cfg where
  start := h.ids.1
  ids := h.ids.2
  since_le since hs := by
    rw [h.fresh.1] at hs
    cases hs
  kept since hs := by
    rw [h.fresh.1] at hs
    cases hs
  version_le v hv := by
    rw [h.fresh.2] at hv
    cases hv
  current hv := by
    rw [h.fresh.2] at hv
    cases hv
  run v p hr := by
    rw [h.idle.1] at hr
    cases hr

/-- A commit brings rows above every bound there is, and moves the
version past every version remembered. -/
theorem commit (hi : m.Inv cfg) {db : NixDb} (hf : m.freshOver db = true) :
    Inv cfg { m with
      db := db, lastId := max m.lastId db.maxId, version := m.version + 1 } := by
  -- a row within a bound that was there before is an old row
  have hold : ∀ {b : ℤ}, b ≤ m.lastId → ∀ r ∈ db.rows, r.id ≤ b → r ∈ m.db.rows := by
    intro b hb r hr hid
    rcases fresh_row hf hr with h | h
    · exact h
    · exact absurd (hid.trans hb) (not_le.mpr h)
  have hlast : m.lastId ≤ max m.lastId db.maxId := le_max_left _ _
  have hmarked : ∀ {v : ℕ} {mark : ℤ}, v ≤ m.version → m.Marked v mark →
      Marked { m with db := db, lastId := max m.lastId db.maxId, version := m.version + 1 }
        v mark := by
    intro v mark hv hm
    exact ⟨hm.le.trans hlast, fun he => absurd he (by simp only; omega)⟩
  have hlater : ∀ {mark : ℤ}, mark ≤ m.lastId → ∀ {r : ValidPath}, m.lastId < r.id →
      Later { m with db := db, lastId := max m.lastId db.maxId, version := m.version + 1 }
        mark r.id := by
    intro mark hmark r hr
    exact ⟨hmark.trans_lt hr, fun since hs => (hi.since_le since hs).trans_lt hr⟩
  constructor
  · exact hi.start.trans hlast
  · intro r hr
    refine ⟨?_, (NixDb.le_maxId hr).trans (le_max_right _ _)⟩
    rcases fresh_row hf hr with h | h
    · exact (hi.ids r h).1
    · exact hi.start.trans_lt h
  · exact fun since hs => (hi.since_le since hs).trans hlast
  · intro since hs r hr h hh hid
    exact hi.kept since hs r (hold (hi.since_le since hs) r hr hid) h hh hid
  · intro v hv
    exact (hi.version_le v hv).trans (Nat.le_succ _)
  · intro hv
    have := hi.version_le _ hv
    simp only at this
    omega
  · intro v p hr
    obtain ⟨hv, hp⟩ := hi.run v p hr
    refine ⟨hv.trans (Nat.le_succ _), ?_⟩
    cases p with
    | marking => trivial
    | fetching => trivial
    | scanning mark => exact hmarked hv hp
    | comparing mark cands =>
        obtain ⟨hm, hall⟩ := hp
        refine ⟨hmarked hv hm, fun r hr h hh => ?_⟩
        rcases fresh_row hf hr with ho | hn
        · exact hall r ho h hh
        · exact Or.inr (hlater hm.le hn)
    | looking mark todo seen adds =>
        obtain ⟨hm, hadds, hall⟩ := hp
        exact ⟨hmarked hv hm, hadds, fun r hr h hh hid => hall r (hold hm.le r hr hid) h hh hid⟩
    | shipping mark attests holds =>
        obtain ⟨hm, hall, hdrops⟩ := hp
        refine ⟨hmarked hv hm, fun r hr h hh hid => hall r (hold hm.le r hr hid) h hh hid,
          fun r hr h hh hd => ?_⟩
        rcases fresh_row hf hr with ho | hn
        · exact hdrops r ho h hh hd
        · exact hlater hm.le hn
    | closing mark =>
        obtain ⟨hm, hall⟩ := hp
        exact ⟨hmarked hv hm, fun r hr h hh hid => hall r (hold hm.le r hr hid) h hh hid⟩

/-- A timely drop takes no hash that the loop relies on. -/
theorem retract (hi : m.Inv cfg) {h : NarHash} (ht : m.Timely (.retract h)) :
    Inv cfg { m with
      doomed := m.doomed.erase h
      store := (exportOps cd cfg m.store [] [.drop h]).2 } := by
  have hheld : ∀ k, k ≠ h → m.store.db.isHeld cfg.selfName k = true →
      (exportOps cd cfg m.store [] [.drop h]).2.db.isHeld cfg.selfName k = true := by
    intro k hk hb
    rw [(exportOps_exported cd cfg m.store [] [.drop h]).2.held, ExportOp.holds_exportList, hb]
    refine possess_eq_true (Or.inl rfl) fun hd => hk ?_
    rw [List.mem_singleton, HoldOp.drop.injEq] at hd
    exact hd
  have hpassed : ∀ r ∈ m.db.rows, ∀ k, r.narHash = some k → m.passed r.id k = true → k ≠ h := by
    rintro r hr k hk hp rfl
    rw [ht r hr hk] at hp
    cases hp
  have hsince : ∀ r ∈ m.db.rows, ∀ k, r.narHash = some k →
      (∃ since, m.diffState = some since ∧ r.id ≤ since) → k ≠ h := by
    rintro r hr k hk ⟨since, hs, hid⟩
    refine hpassed r hr k hk ?_
    rw [passed, hs, Option.any_some, decide_eq_true hid, Bool.true_or]
  constructor
  · exact hi.start
  · exact hi.ids
  · exact hi.since_le
  · intro since hs r hr k hk hid
    exact hheld k (hsince r hr k hk ⟨since, hs, hid⟩) (hi.kept since hs r hr k hk hid)
  · exact hi.version_le
  · exact hi.current
  · intro v p hrun
    obtain ⟨hv, hp⟩ := hi.run v p hrun
    refine ⟨hv, ?_⟩
    cases p with
    | marking => trivial
    | fetching => trivial
    | scanning mark => exact ⟨hp.le, hp.all⟩
    | comparing mark cands =>
        obtain ⟨hm, hall⟩ := hp
        exact ⟨⟨hm.le, hm.all⟩, hall⟩
    | looking mark todo seen adds =>
        obtain ⟨hm, hadds, hall⟩ := hp
        refine ⟨⟨hm.le, hm.all⟩, hadds, fun r hr k hk hid => ?_⟩
        rcases hall r hr k hk hid with hs | ⟨hseen, hb⟩ | hleft
        · exact Or.inl hs
        · refine Or.inr (Or.inl ⟨hseen, ?_⟩)
          by_cases hadd : HoldOp.add k ∈ adds
          · exact Or.inr hadd
          · refine Or.inl (hheld k (hpassed r hr k hk ?_) (hb.resolve_right hadd))
            have hrun' : m.run = some (v, .looking mark todo seen adds) := hrun
            rw [passed, hrun']
            simp only [decide_eq_true hid, decide_eq_true hseen, decide_eq_true hadd,
              Bool.and_true, Bool.or_true]
        · exact Or.inr (Or.inr hleft)
    | shipping mark attests holds =>
        obtain ⟨hm, hall, hdrops⟩ := hp
        refine ⟨⟨hm.le, hm.all⟩, fun r hr k hk hid => ?_, hdrops⟩
        by_cases hadd : HoldOp.add k ∈ holds
        · exact Or.inr hadd
        · refine Or.inl (hheld k (hpassed r hr k hk ?_) ((hall r hr k hk hid).resolve_right hadd))
          have hrun' : m.run = some (v, .shipping mark attests holds) := hrun
          rw [passed, hrun']
          simp only [decide_eq_true hid, decide_eq_true hadd, Bool.and_true, Bool.or_true]
    | closing mark =>
        obtain ⟨hm, hall⟩ := hp
        refine ⟨⟨hm.le, hm.all⟩, fun r hr k hk hid =>
          hheld k (hpassed r hr k hk ?_) (hall r hr k hk hid)⟩
        have hrun' : m.run = some (v, .closing mark) := hrun
        rw [passed, hrun']
        simp only [decide_eq_true hid, Bool.or_true]

/-- A run begins without a mark. -/
theorem begin_run (hi : m.Inv cfg) {p : OwnPhase} (hp : p = .marking ∨ p = .fetching) :
    Inv cfg { m with run := some (m.version, p) } := by
  refine ⟨hi.start, hi.ids, hi.since_le, hi.kept, hi.version_le, hi.current, ?_⟩
  intro v q hrun
  cases hrun
  refine ⟨le_rfl, ?_⟩
  rcases hp with rfl | rfl <;> trivial

/-- The largest id, read before the rows or with them. -/
theorem marked_maxId (hi : m.Inv cfg) {v : ℕ} {p : OwnPhase} :
    Marked { m with run := some (v, p) } v m.db.maxId :=
  ⟨maxId_le hi.start fun r hr => (hi.ids r hr).2, fun _ _ hr => NixDb.le_maxId hr⟩

theorem mark (hi : m.Inv cfg) {v : ℕ} (hr : m.run = some (v, .marking)) :
    Inv cfg { m with run := some (v, .scanning m.db.maxId) } := by
  refine ⟨hi.start, hi.ids, hi.since_le, hi.kept, hi.version_le, hi.current, ?_⟩
  intro w p hrun
  cases hrun
  exact ⟨(hi.run v _ hr).1, hi.marked_maxId⟩

/-- The scan of a full run meets every row there is. -/
theorem scan_full (hi : m.Inv cfg) {v : ℕ} {mark : ℤ} (hr : m.run = some (v, .scanning mark)) :
    Inv cfg { m with run := some (v, .comparing mark m.db.candidates) } := by
  obtain ⟨hv, hm⟩ := hi.run v _ hr
  refine ⟨hi.start, hi.ids, hi.since_le, hi.kept, hi.version_le, hi.current, ?_⟩
  intro w p hrun
  cases hrun
  refine ⟨hv, ⟨hm.le, hm.all⟩, fun r hrow h hh => Or.inl ?_⟩
  obtain ⟨c, hc, rfl⟩ := Option.map_eq_some_iff.mp hh
  have hpos := (hi.ids r hrow).1
  exact mem_ownHashes.mpr ⟨c, NixDb.mem_additionsSince.mpr ⟨r, hrow, by omega, hc⟩, rfl⟩

/-- The scan of an incremental run meets those above the watermark. -/
theorem scan_added (hi : m.Inv cfg) {v : ℕ} {since : ℤ} (hr : m.run = some (v, .fetching))
    (hs : m.diffState = some since) :
    Inv cfg { m with
      run := some (v, .looking m.db.maxId (m.db.additionsSince since).1 [] []) } := by
  refine ⟨hi.start, hi.ids, hi.since_le, hi.kept, hi.version_le, hi.current, ?_⟩
  intro w p hrun
  cases hrun
  refine ⟨(hi.run v _ hr).1, hi.marked_maxId, fun h => List.not_mem_nil,
    fun r hrow h hh _ => ?_⟩
  by_cases hid : r.id ≤ since
  · exact Or.inl ⟨since, hs, hid⟩
  · obtain ⟨c, hc, rfl⟩ := Option.map_eq_some_iff.mp hh
    refine Or.inr (Or.inr ⟨List.not_mem_nil, c, ?_, rfl⟩)
    exact NixDb.mem_additionsSince.mpr ⟨r, hrow, not_le.mp hid, hc⟩

/-- A look settles one candidate: its hash is held, or will be added. -/
theorem look (hi : m.Inv cfg) {v : ℕ} {mark : ℤ} {c : Candidate} {todo : List Candidate}
    {seen : List NarHash} {adds : List HoldOp}
    (hr : m.run = some (v, .looking mark (c :: todo) seen adds)) :
    let out := lookAt (m.store.db.isHeld cfg.selfName c.narHash) c seen adds
    Inv cfg { m with run := some (v, .looking mark todo out.1 out.2) } := by
  obtain ⟨hv, hm, hadds, hall⟩ := hi.run v _ hr
  refine ⟨hi.start, hi.ids, hi.since_le, hi.kept, hi.version_le, hi.current, ?_⟩
  intro w p hrun
  cases hrun
  unfold lookAt
  split
  next hseen =>
    refine ⟨hv, ⟨hm.le, hm.all⟩, hadds, fun r hrow h hh hid => ?_⟩
    rcases hall r hrow h hh hid with hs | hb | ⟨hnot, c', hc', rfl⟩
    · exact Or.inl hs
    · exact Or.inr (Or.inl hb)
    · rcases List.mem_cons.mp hc' with rfl | hc'
      · exact absurd hseen hnot
      · exact Or.inr (Or.inr ⟨hnot, c', hc', rfl⟩)
  next hseen =>
    refine ⟨hv, ⟨hm.le, hm.all⟩, fun h => ?_, fun r hrow h hh hid => ?_⟩
    · simp only
      split
      · exact hadds h
      · rw [List.mem_append, List.mem_singleton]
        exact fun hd => hd.elim (hadds h) (fun he => by cases he)
    have hmore : ∀ {op : HoldOp}, op ∈ adds →
        op ∈ if m.store.db.isHeld cfg.selfName c.narHash = true then adds
          else adds ++ [.add c.narHash] := by
      intro op hop
      split
      · exact hop
      · exact List.mem_append_left _ hop
    rcases hall r hrow h hh hid with hs | ⟨hin, hb⟩ | ⟨hnot, c', hc', rfl⟩
    · exact Or.inl hs
    · exact Or.inr (Or.inl ⟨List.mem_cons_of_mem _ hin, hb.imp id hmore⟩)
    · by_cases he : c'.narHash = c.narHash
      · refine Or.inr (Or.inl ⟨he ▸ List.mem_cons_self, ?_⟩)
        rw [he]
        cases hheld : m.store.db.isHeld cfg.selfName c.narHash with
        | true => exact Or.inl rfl
        | false => exact Or.inr (List.mem_append_right _ (List.mem_singleton.mpr rfl))
      · refine Or.inr (Or.inr ⟨?_, c', ?_, rfl⟩)
        · exact fun hin => (List.mem_cons.mp hin).elim he hnot
        · rcases List.mem_cons.mp hc' with rfl | hc'
          · exact absurd rfl he
          · exact hc'

/-- A full run's changes: what is not held is added, and only hashes that
the scan did not meet are dropped. -/
theorem compare_full (hi : m.Inv cfg) {v : ℕ} {mark : ℤ} {cands : List Candidate}
    (hr : m.run = some (v, .comparing mark cands)) (attests : List Attestation) :
    Inv cfg { m with run := some (v, .shipping mark attests (ownHolds cfg m.store cands)) } := by
  obtain ⟨hv, hm, hall⟩ := hi.run v _ hr
  refine ⟨hi.start, hi.ids, hi.since_le, hi.kept, hi.version_le, hi.current, ?_⟩
  intro w p hrun
  cases hrun
  refine ⟨hv, ⟨hm.le, hm.all⟩, fun r hrow h hh hid => ?_, fun r hrow h hh hd => ?_⟩
  · rcases hall r hrow h hh with hown | hlater
    · cases hheld : m.store.db.isHeld cfg.selfName h with
      | true => exact Or.inl rfl
      | false => exact Or.inr ((add_mem_ownHolds ..).mpr ⟨hown, hheld⟩)
    · exact absurd hid (not_le.mpr hlater.1)
  · exact (hall r hrow h hh).resolve_left ((drop_mem_ownHolds ..).mp hd).2

/-- An incremental run's changes, once every candidate is looked at. -/
theorem compare_added (hi : m.Inv cfg) {v : ℕ} {mark : ℤ} {seen : List NarHash}
    {adds : List HoldOp} (hr : m.run = some (v, .looking mark [] seen adds))
    (attests : List Attestation) :
    Inv cfg { m with run := some (v, .shipping mark attests adds) } := by
  obtain ⟨hv, hm, hadds, hall⟩ := hi.run v _ hr
  refine ⟨hi.start, hi.ids, hi.since_le, hi.kept, hi.version_le, hi.current, ?_⟩
  intro w p hrun
  cases hrun
  refine ⟨hv, ⟨hm.le, hm.all⟩, fun r hrow h hh hid => ?_,
    fun r _ h _ hd => absurd hd (hadds h)⟩
  rcases hall r hrow h hh hid with ⟨since, hs, hle⟩ | ⟨-, hb⟩ | ⟨-, c, hc, -⟩
  · exact Or.inl (hi.kept since hs r hrow h hh hle)
  · exact hb
  · cases hc

/-- Exporting some of a run's changes, or all, drops nothing that is
relied on. -/
theorem shipped (hi : m.Inv cfg) {v : ℕ} {mark : ℤ} {attests : List Attestation}
    {holds : List HoldOp} (hr : m.run = some (v, .shipping mark attests holds))
    {s : Store} {ops : List HoldOp}
    (hs : ∀ h, s.db.isHeld cfg.selfName h = possess ops h (m.store.db.isHeld cfg.selfName h))
    (hops : ∀ op ∈ ops, op ∈ holds) {run : Option (ℕ × OwnPhase)}
    (hrun : ∀ w p, run = some (w, p) →
      w ≤ m.version ∧ PhaseOk cfg { m with store := s, run := run } w p) :
    Inv cfg { m with store := s, run := run } := by
  obtain ⟨-, -, -, hdrops⟩ := hi.run v _ hr
  refine ⟨hi.start, hi.ids, hi.since_le, fun since hd r hrow h hh hid => ?_,
    hi.version_le, hi.current, hrun⟩
  have hnot : HoldOp.drop h ∉ ops := by
    intro hop
    exact absurd hid (not_le.mpr ((hdrops r hrow h hh (hops _ hop)).2 since hd))
  simp only
  rw [hs]
  exact possess_eq_true (Or.inl (hi.kept since hd r hrow h hh hid)) hnot

theorem ship (cd : Codec) (hi : m.Inv cfg) {v : ℕ} {mark : ℤ} {attests : List Attestation}
    {holds : List HoldOp} (hr : m.run = some (v, .shipping mark attests holds)) :
    Inv cfg { m with
      store := (exportOps cd cfg m.store attests holds).2, run := some (v, .closing mark) } := by
  have hheld := (exportOps_exported cd cfg m.store attests holds).2.held
  rw [ExportOp.holds_exportList] at hheld
  refine hi.shipped hr hheld (fun _ hop => hop) fun w p hrun => ?_
  cases hrun
  obtain ⟨hv, hm, hall, hdrops⟩ := hi.run v _ hr
  refine ⟨hv, ⟨hm.le, hm.all⟩, fun r hrow h hh hid => ?_⟩
  simp only
  rw [hheld]
  exact possess_eq_true (hall r hrow h hh hid)
    fun hd => absurd hid (not_le.mpr (hdrops r hrow h hh hd).1)

/-- What a run that failed had exported was part of its changes. -/
theorem fail_ship (cd : Codec) (hi : m.Inv cfg) {v : ℕ} {mark : ℤ} {attests : List Attestation}
    {holds : List HoldOp} (hr : m.run = some (v, .shipping mark attests holds)) (done : ℕ) :
    Inv cfg { m with store := shipSome cd cfg m.store attests holds done, run := none } := by
  have hheld := (exportChunks_exported cd cfg (s := m.store)
    (c := m.store.db.clock cfg.selfName)
    ((chunks EXPORT_CHUNK (exportList attests holds)).take done) rfl rfl).2.held
  refine hi.shipped hr hheld (fun op hop => ?_) fun w p hrun => by cases hrun
  have hsub : ∀ x ∈ ((chunks EXPORT_CHUNK (exportList attests holds)).take done).flatten,
      x ∈ exportList attests holds := by
    intro x hx
    obtain ⟨c, hc, hx⟩ := List.mem_flatten.mp hx
    have := List.mem_flatten.mpr ⟨c, List.mem_of_mem_take hc, hx⟩
    rwa [flatten_chunks (by decide)] at this
  obtain ⟨x, hx, hop⟩ := List.mem_filterMap.mp hop
  rw [← ExportOp.holds_exportList attests holds]
  exact List.mem_filterMap.mpr ⟨x, hsub x hx, hop⟩

/-- A run that ends without an export changes nothing. -/
theorem abandon (hi : m.Inv cfg) : Inv cfg { m with run := none } :=
  ⟨hi.start, hi.ids, hi.since_le, hi.kept, hi.version_le, hi.current,
    fun _ _ hrun => by cases hrun⟩

/-- A run that ends well moves the watermark to its mark. -/
theorem finish (hi : m.Inv cfg) {v : ℕ} {mark : ℤ} (hr : m.run = some (v, .closing mark)) :
    Inv cfg { m with diffState := some mark, lastDataVersion := some v, run := none } := by
  obtain ⟨hv, hm, hall⟩ := hi.run v _ hr
  refine ⟨hi.start, hi.ids, ?_, ?_, ?_, ?_, fun _ _ hrun => by cases hrun⟩
  · intro since hs
    cases hs
    exact hm.le
  · intro since hs r hrow h hh hid
    cases hs
    exact hall r hrow h hh hid
  · intro w hw
    cases hw
    exact hv
  · intro hw
    exact ⟨mark, rfl, hm.all (Option.some.inj hw)⟩

/-- Requests and lookups touch nothing the loop relies on. -/
theorem requests (hi : m.Inv cfg) (asked doomed : List NarHash) :
    Inv cfg { m with asked := asked, doomed := doomed } := by
  refine ⟨hi.start, hi.ids, hi.since_le, hi.kept, hi.version_le, hi.current, ?_⟩
  intro v p hrun
  obtain ⟨hv, hp⟩ := hi.run v p hrun
  refine ⟨hv, ?_⟩
  cases p with
  | marking => trivial
  | fetching => trivial
  | scanning mark => exact ⟨hp.le, hp.all⟩
  | comparing mark cands => exact ⟨⟨hp.1.le, hp.1.all⟩, hp.2⟩
  | looking mark todo seen adds => exact ⟨⟨hp.1.le, hp.1.all⟩, hp.2⟩
  | shipping mark attests holds => exact ⟨⟨hp.1.le, hp.1.all⟩, hp.2⟩
  | closing mark => exact ⟨⟨hp.1.le, hp.1.all⟩, hp.2⟩

/-- Every timely step keeps the invariant. -/
theorem step (hi : m.Inv cfg) {a : Act} (ht : m.Timely a) (h : m.step cd cfg a = some m') :
    m'.Inv cfg := by
  cases a with
  | commit db =>
      simp only [OwnDb.step] at h
      split at h
      next hf =>
        cases h
        exact hi.commit hf
      next => cases h
  | request k =>
      simp only [OwnDb.step] at h
      split at h
      next => cases h
      next =>
        cases h
        exact hi.requests (k :: m.asked) m.doomed
  | checkHold k =>
      simp only [OwnDb.step] at h
      split at h
      next =>
        cases h
        exact hi.requests (m.asked.erase k) _
      next => cases h
  | retract k =>
      simp only [OwnDb.step] at h
      split at h
      next =>
        cases h
        exact hi.retract ht
      next => cases h
  | wake due =>
      simp only [OwnDb.step] at h
      split at h
      next => cases h
      next =>
        split at h
        next =>
          cases h
          exact hi.begin_run (Or.inl rfl)
        next =>
          split at h
          next =>
            cases h
            exact hi
          next =>
            cases h
            exact hi.begin_run (Or.inr rfl)
  | mark =>
      simp only [OwnDb.step] at h
      split at h
      next v hr =>
        cases h
        exact hi.mark hr
      next => cases h
  | scan =>
      simp only [OwnDb.step] at h
      split at h
      next v mark hr =>
        cases h
        exact hi.scan_full hr
      next v since hr hs =>
        cases h
        exact hi.scan_added hr hs
      next => cases h
  | look =>
      simp only [OwnDb.step] at h
      split at h
      next v mark c todo seen adds hr =>
        cases h
        exact hi.look hr
      next => cases h
  | compare attests =>
      simp only [OwnDb.step] at h
      split at h
      next v mark cands hr =>
        cases h
        exact hi.compare_full hr attests
      next v mark seen adds hr =>
        cases h
        exact hi.compare_added hr attests
      next => cases h
  | ship =>
      simp only [OwnDb.step] at h
      split at h
      next v mark attests holds hr =>
        cases h
        exact hi.ship cd hr
      next => cases h
  | finish =>
      simp only [OwnDb.step] at h
      split at h
      next v mark hr =>
        cases h
        exact hi.finish hr
      next => cases h
  | fail done =>
      simp only [OwnDb.step] at h
      split at h
      next v mark attests holds hr =>
        cases h
        exact hi.fail_ship cd hr done
      next =>
        cases h
        exact hi.abandon
      next => cases h

/-- So every run of timely steps keeps it. -/
theorem of_reach (h : (ownSystem cd cfg).ReachIf OwnDb.Timely m) : m.Inv cfg :=
  h.invariant (fun _ => start_inv) fun _ _ _ _ hi ht hs => hi.step ht hs

end Inv

-- ============================================================= the main result

variable (cfg) in
/-- In every run whose drops are timely: whenever the loop and the
retractions are at rest, and the version is that of the last successful
run, we hold the hash of every well-formed row. -/
theorem own_holds_complete {m : OwnDb} (h : (ownSystem cd cfg).ReachIf OwnDb.Timely m)
    (hq : m.Quiet) : m.Complete cfg := by
  have hi := Inv.of_reach h
  obtain ⟨since, hs, hle⟩ := hi.current hq.version
  exact fun r hr k hk => hi.kept since hs r hr k hk (hle r hr)

/-- A row, registered again under another id. -/
def rowOf (id : ℤ) : ValidPath := { ValidPath.addressed 65 with id := id }

/-- One path is registered, and nothing run yet. -/
def registered : OwnDb := { store := {}, db := .single (rowOf 1), lastId := 1 }

theorem registered_start : registered.Start where
  idle := ⟨rfl, rfl, rfl⟩
  fresh := ⟨rfl, rfl⟩
  ids := by decide +kernel

/-- A full run, and an incremental one that meets one new row. -/
def fullRun : List Act := [.wake true, .mark, .scan, .compare [], .ship, .finish]

def addedRun : List Act := [.wake false, .scan, .look, .compare [], .ship, .finish]

/-- The path goes and comes back; a request in between has it dropped
before the run that meets the new row, which adds it again. -/
theorem retracted_then_complete : ∃ m : OwnDb, m.db.rows = [rowOf 2] ∧ m.Complete .alone := by
  have hrun : ((ownSystem Codec.plain .alone).runIf OwnDb.Timely registered
      (fullRun ++ [.commit .bare, .request (.ofByte 5), .checkHold (.ofByte 5),
        .retract (.ofByte 5), .commit (.single (rowOf 2))] ++ addedRun)).map (fun m =>
        decide ((m.run.isNone = true ∧ m.asked = [] ∧ m.doomed = []
          ∧ m.lastDataVersion = some m.version) ∧ m.db.rows = [rowOf 2])) = some true := by
    decide +kernel
  obtain ⟨m, hm, hdone⟩ := Option.map_eq_some_iff.mp hrun
  obtain ⟨⟨hidle, hasked, hdoomed, hversion⟩, hrows⟩ := of_decide_eq_true hdone
  refine ⟨m, hrows, own_holds_complete .alone ((System.ReachIf.init registered_start).runIf hm) ?_⟩
  exact ⟨Option.isNone_iff_eq_none.mp hidle, hasked, hdoomed, hversion⟩

/-- The request comes before the path is registered again, its drop after
the run that found the hash still held. -/
theorem late_retraction_loses : ¬ ∀ m : OwnDb,
    (ownSystem Codec.plain .alone).Reach m → m.Quiet → m.Complete .alone := by
  intro hall
  have hrun : ((ownSystem Codec.plain .alone).run registered
      (fullRun ++ [.commit .bare, .request (.ofByte 5), .commit (.single (rowOf 2))]
        ++ addedRun ++ [.checkHold (.ofByte 5), .retract (.ofByte 5)])).map (fun m =>
        decide ((m.run.isNone = true ∧ m.asked = [] ∧ m.doomed = []
          ∧ m.lastDataVersion = some m.version) ∧ m.db.rows = [rowOf 2]
          ∧ m.store.db.isHeld Config.alone.selfName (.ofByte 5) = false)) = some true := by
    decide +kernel
  obtain ⟨m, hm, hdone⟩ := Option.map_eq_some_iff.mp hrun
  obtain ⟨⟨hidle, hasked, hdoomed, hversion⟩, hrows, hlost⟩ := of_decide_eq_true hdone
  have hheld := hall m ((System.Reach.start registered_start).run hm)
    ⟨Option.isNone_iff_eq_none.mp hidle, hasked, hdoomed, hversion⟩ (rowOf 2)
    (hrows ▸ List.mem_singleton_self _) (.ofByte 5) (by decide +kernel)
  rw [hlost] at hheld
  cases hheld

end OwnDb

end Narshare
