/-
The serving half of index.rs: what a node answers to a sync request.

# Deciding and reading

For one origin the answer is made in two reads of the store: the
origin's clock, from which `judge` decides what kind of body the
requester gets, and then the body itself (`Verdict.body`). `respond`
does both against one store; Cut.lean takes them apart, with other
tasks' commits in between.
-/
import Narshare.Store.Rocks

namespace Narshare

variable (cd : Codec)

-- ================================================================ constants

/-- `SUFFIX_BYTES_CAP`. -/
def SUFFIX_BYTES_CAP : ℕ := 8 * 2 ^ 20

/-- `ATTS_PAGE_CAP`. -/
def ATTS_PAGE_CAP : ℕ := 8 * 2 ^ 20

/-- `ATTS_PAGE_FLOOR`. -/
def ATTS_PAGE_FLOOR : ℕ := 256 * 2 ^ 10

/-- `RANGE_BYTES_CAP`. -/
def RANGE_BYTES_CAP : ℕ := 2 * 2 ^ 20

/-- `RANGE_ASKS_MAX`. -/
def RANGE_ASKS_MAX : ℕ := 16

/-- `MERKLE_ASKS_MAX`. -/
def MERKLE_ASKS_MAX : ℕ := 8

/-- `MERKLE_FACTS_CAP`. -/
def MERKLE_FACTS_CAP : ℕ := 4 * 2 ^ 20

/-- `RESPONSE_BYTES_CAP`. -/
def RESPONSE_BYTES_CAP : ℕ := 24 * 2 ^ 20

/-- `DUMP_RESTART`: sorts before every real key. -/
def DUMP_RESTART : Bytes := [0]

-- ================================================================== config

/-- What the configuration fixes: our name and our peers'. -/
structure Config where
  selfName : Origin
  peerNames : List Origin

/-- `origin_set`, kept in the sorted order that `clock_vector` and
`respond_budgeted` put it in. -/
def Config.originSet (cfg : Config) : List Origin :=
  sortDedup (cfg.selfName :: cfg.peerNames)

/-- `is_known_origin`. -/
def Config.isKnownOrigin (cfg : Config) (o : Origin) : Bool := decide (o ∈ cfg.originSet)

theorem Config.mem_originSet {cfg : Config} {o : Origin} :
    o ∈ cfg.originSet ↔ o = cfg.selfName ∨ o ∈ cfg.peerNames := by
  rw [originSet, mem_sortDedup, List.mem_cons]

variable (cfg : Config)

/-- `clock_vector`. -/
def clockVector (db : Db) : List OriginClock :=
  cfg.originSet.map fun o =>
    let c := db.clock o
    ⟨o, c.generation, c.seq⟩

-- ======================================================= one origin's update

/-- What an origin's clock says the requester should get. -/
inductive Verdict
  | silent
  | upToDate
  | clockOnly
  | deferred
  | suffix
  | snapshot
deriving DecidableEq

/-- `respond_budgeted`, the decision for one origin: our clock against
theirs, whether they asked to skip its bodies, whether the response is
at budget. -/
def judge (c : Clock) (theirs : ℕ × ℕ) (skipped full : Bool) : Verdict :=
  if c.generation = 0 then .silent -- we know nothing about this origin yet
  else if theirs.1 > c.generation then .silent -- they are ahead of us
  else if theirs.1 = c.generation ∧ theirs.2 ≥ c.seq then .upToDate
  else if skipped then .clockOnly
  else if full then .deferred
  else if theirs.1 = c.generation ∧ theirs.2 ≥ c.tailSeq then .suffix
  else .snapshot

/-- The body a verdict ships, read from the store, and whether it is cut
short. -/
def Verdict.body (db : Db) (o : Origin) (theirSeq : ℕ) : Verdict → Option Body × Bool
  | .silent => (none, false)
  | .upToDate => (some .upToDate, false)
  | .clockOnly => (none, false)
  | .deferred => (some (.suffix []), true)
  | .suffix =>
      let r := db.journalSuffix cd o theirSeq SUFFIX_BYTES_CAP
      (some (.suffix r.1), r.2)
  | .snapshot => (some (.snapshot ((db.holdings o).map Subtype.val)), false)

/-- The bytes a body takes from the response budget. -/
def Body.used : Body → ℕ
  | .upToDate => 0
  | .suffix events => (events.map fun e => (cd.encodeEvent e).length).sum
  | .snapshot held => held.length * 34

/-- `req.have` collected into a map: of two lines for one origin the
later stays, and an origin with no line counts as never seen. -/
def theirClock (req : SyncRequest) (o : Origin) : ℕ × ℕ :=
  match req.have_.reverse.find? fun c => decide (c.origin = o) with
  | some c => (c.generation, c.seq)
  | none => (0, 0)

/-- The loop state of `respond_budgeted`. -/
structure Answer where
  origins : List OriginUpdate := []
  sentSnapshot : Bool := false
  used : ℕ := 0

/-- `respond_budgeted`, one turn of the loop. -/
def respondOrigin (db : Db) (req : SyncRequest) (budget : ℕ) (ans : Answer) (o : Origin) :
    Answer :=
  let c := db.clock o
  let theirs := theirClock req o
  let verdict := judge c theirs (decide (o ∈ req.skipOrigins)) (decide (budget ≤ ans.used))
  if verdict = .silent then ans
  else
    let body := verdict.body cd db o theirs.2
    let connects := theirs.1 = c.generation ∧ theirs.2 ≥ c.tailSeq
    { origins := ans.origins ++ [⟨o, c.generation, c.seq, body.1, body.2⟩]
      sentSnapshot := ans.sentSnapshot
        || (verdict == .clockOnly && !decide connects) || verdict == .snapshot
      used := ans.used + (body.1.elim 0 (Body.used cd)) }

-- ============================================================== other asks

/-- `respond_ranges`, one ask. -/
def respondRange (db : Db) (ask : RangeAsk) : RangeReply :=
  let c := db.clock ask.origin
  if c.generation = ask.generation ∧ ask.after ≥ c.tailSeq ∧ ask.after < ask.til then
    { origin := ask.origin
      generation := c.generation
      after := ask.after
      events := (db.journalSuffix cd ask.origin ask.after RANGE_BYTES_CAP).1.takeWhile
        fun e => decide (e.seq ≤ ask.til)
      reachable := true }
  else
    { origin := ask.origin
      generation := c.generation
      after := ask.after
      events := []
      reachable := false }

/-- `respond_ranges`. -/
def respondRanges (db : Db) (asks : List RangeAsk) : List RangeReply :=
  ((asks.take RANGE_ASKS_MAX).filter fun ask => cfg.isKnownOrigin ask.origin).map
    (respondRange cd db)

/-- What a merkle request gets back: expanded nodes, a subtree page, and
where to resume it. -/
structure MerkleAnswer where
  nodes : List MerkleNode := []
  facts : List Attestation := []
  next : Option Bytes := none

/-- `respond_merkle`, one ask; a node too deep to address is an error. -/
def respondMerkleOne (s : Store) (cursor : Bytes) (ans : MerkleAnswer) (ask : MerkleAsk) :
    Option MerkleAnswer :=
  let expanded : Option MerkleAnswer :=
    if ask.expand then
      (s.merkleChildren ask.node).map fun children =>
        { ans with nodes := ans.nodes ++ [⟨ask.node, children⟩] }
    else some ans
  expanded.map fun ans =>
    -- one subtree fetch per request
    if ask.fetch ∧ ans.facts = [] then
      let page := s.db.attestationPage cd ask.node cursor MERKLE_FACTS_CAP
      { ans with facts := page.1, next := page.2 }
    else ans

/-- `respond_merkle`. -/
def respondMerkle (s : Store) (asks : List MerkleAsk) (cursor : Bytes) :
    Option MerkleAnswer :=
  (asks.take MERKLE_ASKS_MAX).foldlM (respondMerkleOne cd s cursor) {}

-- ============================================================ the response

/-- `RespondBundle`. -/
structure RespondBundle where
  origins : List OriginUpdate := []
  attests : List Attestation := []
  attsNext : Option Bytes := none
  ranges : List RangeReply := []
  factRoot : Option Digest := none
  merkle : List MerkleNode := []

/-- `respond_budgeted`; `none` is an error answer. -/
def respondBudgeted (s : Store) (req : SyncRequest) (budget : ℕ) : Option RespondBundle :=
  if req.ranges ≠ [] then some { ranges := respondRanges cd cfg s.db req.ranges }
  else if req.merkle ≠ [] then
    (respondMerkle cd s req.merkle req.attsCursor).map fun ans =>
      { attests := ans.facts, attsNext := ans.next, merkle := ans.nodes }
  else
    let ans := cfg.originSet.foldl (respondOrigin cd s.db req budget) {}
    let page :=
      if req.attsCursor ≠ [] ∨ ans.sentSnapshot then
        s.db.attestationPage cd [] req.attsCursor
          (max (min ATTS_PAGE_CAP (budget - ans.used)) ATTS_PAGE_FLOOR)
      else ([], none)
    some
      { origins := ans.origins
        attests := page.1
        attsNext := page.2
        factRoot := some s.merkleRoot }

/-- `respond`. -/
def respond (s : Store) (req : SyncRequest) : Option RespondBundle :=
  respondBudgeted cd cfg s req RESPONSE_BYTES_CAP

-- ======================================================== what is answered

variable {cd cfg}

/-- Every update of a response is some verdict on its origin's clock,
under that clock's label, with the body read from the same store. -/
structure Shipped (cd : Codec) (db : Db) (up : OriginUpdate) : Prop where
  generation : up.generation = (db.clock up.origin).generation
  seq : up.seq = (db.clock up.origin).seq
  body : ∃ theirs skipped full,
    let verdict := judge (db.clock up.origin) theirs skipped full
    verdict ≠ .silent ∧ (up.body, up.truncated) = verdict.body cd db up.origin theirs.2

/-- One origin's turn ships a verdict on the store's own clock or nothing at
all; what was shipped before stays. -/
theorem shipped_respondOrigin {db : Db} {req : SyncRequest} {budget : ℕ} {ans : Answer}
    {o : Origin} (h : ∀ up ∈ ans.origins, Shipped cd db up) :
    ∀ up ∈ (respondOrigin cd db req budget ans o).origins, Shipped cd db up := by
  intro up hup
  simp only [respondOrigin] at hup
  split at hup
  next => exact h up hup
  next hv =>
    rcases List.mem_append.mp hup with hup | hup
    · exact h up hup
    · cases List.mem_singleton.mp hup
      exact ⟨rfl, rfl, _, _, _, hv, rfl⟩

/-- So every update of a response is a verdict on the clock of the store it
was made from; range and merkle answers carry no update. -/
theorem shipped_respond {s : Store} {req : SyncRequest} {budget : ℕ} {b : RespondBundle}
    (h : respondBudgeted cd cfg s req budget = some b) :
    ∀ up ∈ b.origins, Shipped cd s.db up := by
  rw [respondBudgeted] at h
  split at h
  next => cases h; exact fun _ h => (List.not_mem_nil h).elim
  next =>
    split at h
    next =>
      obtain ⟨ans, -, rfl⟩ := Option.map_eq_some_iff.mp h
      exact fun _ h => (List.not_mem_nil h).elim
    next =>
      cases h
      have key : ∀ (os : List Origin) (ans : Answer),
          (∀ up ∈ ans.origins, Shipped cd s.db up) →
          ∀ up ∈ (os.foldl (respondOrigin cd s.db req budget) ans).origins,
            Shipped cd s.db up := by
        intro os
        induction os with
        | nil => exact fun _ h => h
        | cons o os ih => exact fun ans h => ih _ (shipped_respondOrigin h)
      exact key cfg.originSet {} fun _ h => (List.not_mem_nil h).elim

end Narshare
