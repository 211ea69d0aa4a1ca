/-
The embedded store, store/rocks.rs: its column families, its write
batches and its operations, as one task running alone computes them.

# Column families and batches

A column family is an `OrdMap` whose key type spells the parts of the
byte key: `(origin, seq)` for the journal, `(origin, hash)` for `hold`
and so on. The keys of the fact families (`att`, `att_path`, `att_nar`)
stay bytes, because the dump and the reconciliation page through them in
byte order. A `WriteBatch` is a record of the per-family write lists;
writes to different families never meet, so their relative order is not
recorded. `Db.write` applies one batch, which rocksdb does atomically.

The two meta rows the index keeps (its generation and the dump cursors)
are fields of their own, already parsed.

# Operations in two parts

Every composite operation first READS and only then commits. The reads
are what this file computes (`mergeOne`, `replaceBatches`,
`compactBatch`, `retainBatches`); `Store.applyEvents` and its siblings
run read and commit back to back. Machine.lean runs the same parts one
at a time, with other tasks in between, and Raw.lean has the families
under the byte keys they are stored by.
-/
import Narshare.Lib.Chunks
import Narshare.Store.Merge

namespace Narshare

variable (cd : Codec)

-- ============================================================= the tables

/-- `Clock`: the generation, the highest seq applied, and the seq at or
before which history has been compacted away. -/
structure Clock where
  generation : ℕ := 0
  seq : ℕ := 0
  tailSeq : ℕ := 0
deriving DecidableEq

/-- `HoldOp`: one possession change. -/
inductive HoldOp
  | add (h : NarHash)
  | drop (h : NarHash)
deriving DecidableEq

/-- The database: one table per column family. -/
structure Db where
  selfGeneration : Option ℕ := none
  attsResume : OrdMap Origin Bytes := ∅
  clocks : OrdMap Origin Clock := ∅
  journal : OrdMap (Origin ×ₗ ℕ) Event := ∅
  hold : OrdMap (Origin ×ₗ NarHash) Unit := ∅
  holdby : OrdMap (NarHash ×ₗ Origin) Unit := ∅
  att : OrdMap Bytes Attestation := ∅
  attPath : OrdMap Bytes Digest := ∅
  attNar : OrdMap Bytes Digest := ∅
  wm : OrdMap (Origin ×ₗ Origin) ℕ := ∅
deriving DecidableEq

/-- `WriteBatch`: the writes to each family, in order; `none` deletes. -/
structure Batch where
  clocks : List (Origin × Option Clock) := []
  journal : List ((Origin ×ₗ ℕ) × Option Event) := []
  hold : List ((Origin ×ₗ NarHash) × Option Unit) := []
  holdby : List ((NarHash ×ₗ Origin) × Option Unit) := []
  att : List (Bytes × Option Attestation) := []
  attPath : List (Bytes × Option Digest) := []
  attNar : List (Bytes × Option Digest) := []
  wm : List ((Origin ×ₗ Origin) × Option ℕ) := []
deriving DecidableEq

namespace Batch

/-- Both batches, the second after the first. -/
def append (b b' : Batch) : Batch where
  clocks := b.clocks ++ b'.clocks
  journal := b.journal ++ b'.journal
  hold := b.hold ++ b'.hold
  holdby := b.holdby ++ b'.holdby
  att := b.att ++ b'.att
  attPath := b.attPath ++ b'.attPath
  attNar := b.attNar ++ b'.attNar
  wm := b.wm ++ b'.wm

instance : Append Batch := ⟨append⟩

/-- `WriteBatch::len`. -/
def len (b : Batch) : ℕ :=
  b.clocks.length + b.journal.length + b.hold.length + b.holdby.length
    + b.att.length + b.attPath.length + b.attNar.length + b.wm.length

/-- The batches of a list, one after the other. -/
def concat (bs : List Batch) : Batch := bs.foldr (· ++ ·) {}

end Batch

/-- `db.write(batch)`. -/
def Db.write (db : Db) (b : Batch) : Db where
  selfGeneration := db.selfGeneration
  attsResume := db.attsResume
  clocks := db.clocks.setAll b.clocks
  journal := db.journal.setAll b.journal
  hold := db.hold.setAll b.hold
  holdby := db.holdby.setAll b.holdby
  att := db.att.setAll b.att
  attPath := db.attPath.setAll b.attPath
  attNar := db.attNar.setAll b.attNar
  wm := db.wm.setAll b.wm

/-- Several batches, committed in order. -/
def Db.writeAll (db : Db) (bs : List Batch) : Db := bs.foldl Db.write db

-- ========================================================= the aggregates

/-- `Aggregates`: 256 coarse blocks of 256 leaves, materialized lazily,
with the coarse level and the root kept beside them. -/
structure Aggregates where
  blocks : ℕ → Option (ℕ → Digest)
  coarse : ℕ → Digest
  root : Digest

namespace Aggregates

/-- `Aggregates::new`. -/
def new : Aggregates := ⟨fun _ => none, fun _ => 0, 0⟩

/-- `Aggregates::xor`: fold one attestation hash in or out. -/
def xor (agg : Aggregates) (h : Digest) : Aggregates :=
  let leaf := leafOf h
  let block := leaf / 256
  let slot := leaf % 256
  let cells := (agg.blocks block).getD fun _ => 0
  { blocks := Function.update agg.blocks block
      (some (Function.update cells slot (cells slot + h)))
    coarse := Function.update agg.coarse block (agg.coarse block + h)
    root := agg.root + h }

/-- `Aggregates::leaves`: one block's 256 leaves; an unmaterialized
block reads as all-empty. -/
def leaves (agg : Aggregates) (block : ℕ) : List Digest :=
  match agg.blocks block with
  | some cells => (List.range 256).map cells
  | none => List.replicate 256 0

/-- Fold a list of hashes in. -/
def xorAll (agg : Aggregates) (hs : List Digest) : Aggregates :=
  hs.foldl xor agg

end Aggregates

/-- `RocksStore`: the rows and the aggregates derived from them. -/
structure Store where
  db : Db := {}
  agg : Aggregates := Aggregates.new

-- ============================================================== reading

namespace Db

/-- `clock`: zero when the origin has never been written. -/
def clock (db : Db) (o : Origin) : Clock := (db.clocks.get o).getD {}

/-- The journal row of `o` at `n`. -/
def journalAt (db : Db) (o : Origin) (n : ℕ) : Option Event :=
  db.journal.get (toLex (o, n))

/-- `is_held`. -/
def isHeld (db : Db) (o : Origin) (h : NarHash) : Bool :=
  (db.hold.get (toLex (o, h))).isSome

/-- `holdings`: the origin's possession set, in key order. -/
def holdings (db : Db) (o : Origin) : List NarHash :=
  (db.hold.entries.filter fun e => (ofLex e.1).1 = o).map fun e => (ofLex e.1).2

/-- The journal rows of `o` above `after`, in order: an iterator seeked
to `(o, after + 1)` and stopped at the first row of another origin. -/
def journalFrom (db : Db) (o : Origin) (after : ℕ) : List (ℕ × Event) :=
  ((db.journal.seek (toLex (o, after + 1))).takeWhile
    fun e => decide ((ofLex e.1).1 = o)).map fun e => ((ofLex e.1).2, e.2)

/-- The loop of `journal_suffix`: take events while they fit, but never
stop before the first. -/
def takeSuffix (maxBytes : ℕ) : List Event → List Event → ℕ → List Event × Bool
  | [], acc, _ => (acc, false)
  | e :: es, acc, bytes =>
      let len := (cd.encodeEvent e).length
      if bytes + len > maxBytes ∧ acc ≠ [] then (acc, true)
      else takeSuffix maxBytes es (acc ++ [e]) (bytes + len)

/-- `journal_suffix`: events with seq above `after`, capped, and whether
more were left. -/
def journalSuffix (db : Db) (o : Origin) (after maxBytes : ℕ) : List Event × Bool :=
  takeSuffix cd maxBytes ((db.journalFrom o after).map Prod.snd) [] 0

/-- The visitor of `attestation_page`, with its page, its byte count and
the last key taken. -/
def walkPage (cursor : Bytes) (maxBytes : ℕ) :
    List (Bytes × Attestation) → List Attestation → ℕ → Bytes →
      List Attestation × Option Bytes
  | [], page, _, _ => (page, none)
  | (k, a) :: rest, page, used, lastKey =>
      if k = cursor then walkPage cursor maxBytes rest page used lastKey
      else
        let len := (cd.encodeAttestation a).length
        if used + len > maxBytes ∧ page ≠ [] then (page, some lastKey)
        else walkPage cursor maxBytes rest (page ++ [a]) (used + len) k

/-- `attestation_page`: one page of the rows under `node`, starting
strictly after `cursor`, and the cursor to resume from. -/
def attestationPage (db : Db) (node cursor : Bytes) (maxBytes : ℕ) :
    List Attestation × Option Bytes :=
  let start := if cursor = [] then node else cursor
  walkPage cd cursor maxBytes
    ((db.att.seek start).takeWhile fun e => node.isPrefixOf e.1) [] 0 []

/-- `holders_of`: the origins holding a hash, in key order. -/
def holdersOf (db : Db) (h : NarHash) : List Origin :=
  (db.holdby.entries.filter fun e => (ofLex e.1).1 = h).map fun e => (ofLex e.1).2

/-- `att_key`: attestation hash first, so key order is tree order. -/
def attKey (h : Digest) (pathKey : Bytes) : Bytes := h.toBytes ++ pathKey

/-- `att_at`: a row by index entry. -/
def attAt (db : Db) (h : Digest) (pathKey : Bytes) : Option Attestation :=
  db.att.get (attKey h pathKey)

/-- `lookup_atts`: attach holders, dropping rows nobody can serve. -/
def lookupAtts (db : Db) (rows : List Attestation) :
    List (Attestation × List Origin) :=
  rows.filterMap fun a =>
    (NarHash.tryFrom a.narHash).bind fun h =>
      let holders := db.holdersOf h
      if holders = [] then none else some (a, holders)

/-- `lookup_hash_part`: through `att_path`, by key prefix. -/
def lookupHashPart (db : Db) (hashPart : Bytes) : List (Attestation × List Origin) :=
  db.lookupAtts <|
    (db.attPath.entries.filter fun e => hashPart.isPrefixOf e.1).filterMap
      fun e => db.attAt e.2 e.1

/-- `lookup_nar_hash`: through `att_nar`, whose keys are the other way
round. -/
def lookupNarHash (db : Db) (narHash : NarHash) : List (Attestation × List Origin) :=
  db.lookupAtts <|
    (db.attNar.entries.filter fun e => narHash.val.isPrefixOf e.1).filterMap
      fun e => db.attAt e.2 (e.1.drop 32 ++ narHash.val)

/-- `attestation_sigs`. -/
def attestationSigs (db : Db) (hashPart narHash : Bytes) : Option (List Bytes) :=
  (db.attPath.get (hashPart ++ narHash)).bind fun h =>
    (db.attAt h (hashPart ++ narHash)).map Attestation.sigs

/-- `watermarks`: every row. -/
def watermarks (db : Db) : List (Origin × Origin × ℕ) :=
  db.wm.entries.map fun e => ((ofLex e.1).1, (ofLex e.1).2, e.2)

/-- `watermarks`, read at one pair. -/
def watermark (db : Db) (peer o : Origin) : ℕ := (db.wm.get (toLex (peer, o))).getD 0

end Db

/-- `rebuild_aggregates`: from `att_path`, whose values are the hashes. -/
def rebuildAggregates (db : Db) : Aggregates :=
  Aggregates.new.xorAll (db.attPath.entries.map Prod.snd)

/-- `merkle_children`: the coarse level for the empty node, a block's
leaves for one byte; nothing deeper is addressable. -/
def Store.merkleChildren (s : Store) (node : Bytes) : Option (List Digest) :=
  match node with
  | [] => some ((List.range 256).map s.agg.coarse)
  | [c] => some (s.agg.leaves c.toNat)
  | _ => none

-- ===================================================== possession writes

/-- `BATCH_OPS`. -/
def BATCH_OPS : ℕ := 32768

/-- `apply_holds`, first half: the last operation per hash wins. -/
def finalHolds (ops : List HoldOp) : OrdMap NarHash Bool :=
  ops.foldl (fun fin op =>
    match op with
    | .add h => fin.put h true
    | .drop h => fin.put h false) ∅

/-- `apply_holds`, second half: both mirrored rows of every hash. -/
def applyHolds (o : Origin) (ops : List HoldOp) : Batch :=
  let fin := (finalHolds ops).entries
  { hold := fin.map fun e => (toLex (o, e.1), if e.2 then some () else none)
    holdby := fin.map fun e => (toLex (e.1, o), if e.2 then some () else none) }

-- =========================================================== fact writes

/-- One identity of a batch folded into the coalesced table. -/
def coalesceOne (acc : OrdMap Bytes Attestation) (incoming : Attestation) :
    OrdMap Bytes Attestation :=
  if incoming.narHash.length = 32 then
    match acc.get (pathKeyOf incoming) with
    | some cur =>
        match mergeInto (some cur) incoming with
        | some m => acc.put (pathKeyOf incoming) m
        | none => acc
    | none =>
        match mergeInto none incoming with
        | some fresh => acc.put (pathKeyOf incoming) fresh
        | none => acc
  else acc -- malformed; the index validates, this is a backstop

/-- `merge_atts`, first loop: one row per identity of the batch. -/
def coalesce (attests : List Attestation) : OrdMap Bytes Attestation :=
  attests.foldl coalesceOne ∅

/-- A row that a merge writes: where the identity's old row was, if it
had one, and the row it has now. The key is the hash, so a changed fact
moves. -/
structure Move where
  pathKey : Bytes
  old : Option Digest
  row : Attestation
deriving DecidableEq

/-- What a move writes. -/
def Move.batch (mv : Move) : Batch :=
  let nh := attestationHash cd mv.row
  { att := (mv.old.map fun oh => (Db.attKey oh mv.pathKey, none)).toList
      ++ [(Db.attKey nh mv.pathKey, some mv.row)]
    attPath := [(mv.pathKey, some nh)]
    attNar := [(narKey mv.row, some nh)] }

/-- The hashes a move takes out of the tree and puts into it. -/
def Move.delta (mv : Move) : List Digest :=
  mv.old.toList ++ [attestationHash cd mv.row]

/-- `merge_atts`, one turn of the second loop: read the identity's row
and merge. -/
def mergeOne (db : Db) (pathKey : Bytes) (incoming : Attestation) : Option Move :=
  let old := db.attPath.get pathKey
  let existing := old.bind fun oh => db.attAt oh pathKey
  match mergeInto existing incoming with
  | none => none -- exact duplicate: no row change, no tree movement
  | some m =>
      if old = some (attestationHash cd m) then none
      else some ⟨pathKey, old, m⟩

/-- `merge_atts`: the moves of a batch. -/
def mergeAtts (db : Db) (attests : List Attestation) : List Move :=
  (coalesce attests).entries.filterMap fun e => mergeOne cd db e.1 e.2

/-- The batch of a list of moves. -/
def movesBatch (moves : List Move) : Batch :=
  Batch.concat (moves.map (Move.batch cd))

/-- The tree delta of a list of moves. -/
def movesDelta (moves : List Move) : List Digest :=
  moves.flatMap (Move.delta cd)

-- ======================================================== bulk operations

/-- `apply_events`, less its facts: journal rows, possession changes and
the moved clock. -/
def eventsBatch (cur : Clock) (o : Origin) (set : ℕ × ℕ) (journal : List (ℕ × Event))
    (holds : List HoldOp) : Batch :=
  { journal := journal.map fun e => (toLex (o, e.1), some e.2)
    clocks := [(o, some ⟨set.1, set.2, cur.tailSeq⟩)] } ++ applyHolds o holds

/-- Append to the open batch and write it out once it is full: the
flushed batches and the open one. -/
def flushPush (st : List Batch × Batch) (b : Batch) : List Batch × Batch :=
  let cur := st.2 ++ b
  if cur.len ≥ BATCH_OPS then (st.1 ++ [cur], {}) else (st.1, cur)

/-- The possession changes a replacement makes: the two set differences.
The sets are hash sets, so the code meets them in some other order. -/
def replaceOps (db : Db) (o : Origin) (held : List NarHash) : List HoldOp :=
  ((db.holdings o).filter fun h => decide (h ∉ held)).map HoldOp.drop
    ++ ((sortDedup held).filter fun h => !db.isHeld o h).map HoldOp.add

/-- `replace_holdings` refuses a snapshot older than what is stored. -/
def staleSnapshot (cur : Clock) (generation seq : ℕ) : Bool :=
  decide (generation < cur.generation)
    || (decide (generation = cur.generation) && decide (seq < cur.seq))

/-- `replace_holdings`: its batches, in commit order. The possession
changes come in bounded chunks, then the journal rows go, and the clock
moves in the last batch. -/
def replaceBatches (db : Db) (o : Origin) (generation seq : ℕ) (ops : List HoldOp) :
    List Batch :=
  let st := ((db.journal.entries.filter fun e => (ofLex e.1).1 = o).map Prod.fst).foldl
    (fun st k => flushPush st { journal := [(k, none)] }) ([], {})
  (chunks BATCH_OPS ops).map (applyHolds o) ++ st.1
    ++ [st.2 ++ { clocks := [(o, some ⟨generation, seq, seq⟩)] }]

/-- `compact_journal`: nothing when the floor is no news, else the rows
in `(tail_seq, floor]` go and the tail moves up to the floor. -/
def compactBatch (db : Db) (o : Origin) (floor : ℕ) : Batch :=
  let c := db.clock o
  if floor ≤ c.tailSeq then {}
  else
    { journal := ((db.journalFrom o c.tailSeq).takeWhile
          fun e => decide (e.1 ≤ floor)).map fun e => (toLex (o, e.1), none)
      clocks := [(o, some { c with tailSeq := floor })] }

/-- One departed origin's rows pushed into the open batch. -/
def retainOne (db : Db) (st : List Batch × Batch) (o : Origin) : List Batch × Batch :=
  let st := (db.holdings o).foldl (fun st h => flushPush st
    { hold := [(toLex (o, h), none)], holdby := [(toLex (h, o), none)] }) st
  let st := ((db.journal.entries.filter fun e => (ofLex e.1).1 = o).map Prod.fst).foldl
    (fun st k => flushPush st { journal := [(k, none)] }) st
  (st.1, st.2 ++ { clocks := [(o, none)] })

/-- `retain_origins`: its batches, in commit order. -/
def retainBatches (db : Db) (keep : List Origin) : List Batch :=
  let departed := db.clocks.keys.filter fun o => decide (o ∉ keep)
  let st := departed.foldl (retainOne db) ([], {})
  let wm := db.wm.keys.filter fun k =>
    decide ((ofLex k).1 ∉ keep) || decide ((ofLex k).2 ∉ keep)
  st.1 ++ [st.2 ++ { wm := wm.map fun k => (k, none) }]

-- ==================================================== operations in whole

namespace Store

/-- `commit_with_delta`: the rows first, then the aggregates. -/
def commitWithDelta (s : Store) (b : Batch) (delta : List Digest) : Store :=
  ⟨s.db.write b, s.agg.xorAll delta⟩

/-- `apply_events`: all of it when the clock is the expected one, else
nothing. -/
def applyEvents (s : Store) (o : Origin) (expect set : ℕ × ℕ)
    (journal : List (ℕ × Event)) (holds : List HoldOp)
    (attests : List Attestation) : Bool × Store :=
  let cur := s.db.clock o
  if (cur.generation, cur.seq) ≠ expect then (false, s)
  else
    let moves := mergeAtts cd s.db attests
    (true, s.commitWithDelta
      (eventsBatch cur o set journal holds ++ movesBatch cd moves) (movesDelta cd moves))

/-- `merge_attestations`: how many rows were new or changed. -/
def mergeAttestations (s : Store) (attests : List Attestation) : ℕ × Store :=
  let moves := mergeAtts cd s.db attests
  if moves.length > 0 then
    (moves.length, s.commitWithDelta (movesBatch cd moves) (movesDelta cd moves))
  else (0, s)

/-- `replace_holdings`, run to its end. -/
def replaceHoldings (s : Store) (o : Origin) (generation seq : ℕ)
    (held : List NarHash) : Bool × Store :=
  if staleSnapshot (s.db.clock o) generation seq then (false, s)
  else
    let ops := replaceOps s.db o held
    (true, { s with db := s.db.writeAll (replaceBatches s.db o generation seq ops) })

/-- `compact_journal`. -/
def compactJournal (s : Store) (o : Origin) (floor : ℕ) : Store :=
  { s with db := s.db.write (compactBatch s.db o floor) }

/-- `retain_origins`, run to its end. -/
def retainOrigins (s : Store) (keep : List Origin) : Store :=
  { s with db := s.db.writeAll (retainBatches s.db keep) }

/-- `set_generation`: seq and tail keep their values. -/
def setGeneration (s : Store) (o : Origin) (generation : ℕ) : Store :=
  let c := { s.db.clock o with generation := generation }
  { s with db := s.db.write { clocks := [(o, some c)] } }

/-- `advance_watermark`: the maximum of old and new. -/
def advanceWatermark (s : Store) (peer o : Origin) (seq : ℕ) : Store :=
  if seq > s.db.watermark peer o then
    { s with db := s.db.write { wm := [(toLex (peer, o), some seq)] } }
  else s

/-- `merkle_root`. -/
def merkleRoot (s : Store) : Digest := s.agg.root

/-- `RocksStore::open` on existing rows: the aggregates are recomputed. -/
def reopen (s : Store) : Store := ⟨s.db, rebuildAggregates s.db⟩

end Store

end Narshare
