/-
The shared store, store/postgres.rs: its tables, and its operations as
the SQL they run computes them.

# Tables

A table is an `OrdMap` over its primary key. An upsert is a `put`, a
statement with a WHERE clause a `filter`, and rows come in key order,
which every query without an ORDER BY leaves open (what is proved of
such rows holds up to order). Text is compared byte by byte. The two
bigints an attestation hash is stored in are one `Digest`; events are as
in Rocks.lean, and numbers are those an int8 holds.

# Transactions

An operation locks what it touches and commits at its end; one that
returns before the end is rolled back, the clock row that `lock_clock`
put there included. What remains is a function from tables to tables.
`apply_hold`, `agg_xor` and `merge_att` each write one table or two, and
take and give only these. A replacement computes two differences of hash
sets, whose order is whatever the process makes it: the changes come in
as a list that has been ordered somehow.

# Facts

This backend keeps a fact under `(hash_part, nar_hash)` and has the
leaf of its hash in a column; `att_agg` has a row for each node of the
two levels below the root that was ever written. The cursor of a dump is
the key of the last row served, and a page asks for 1024 rows at a time
until one does not fit or there are no more.
-/
import Narshare.Text
import Narshare.Store.Rocks

namespace Narshare

variable (cd : Codec)

/-- `MERKLE_LEAVES`. -/
def MERKLE_LEAVES : ℕ := 65536

/-- `MERKLE_FANOUT`. -/
def MERKLE_FANOUT : ℕ := 256

-- ============================================================= the tables

/-- The primary key of `attestations`: `(hash_part, nar_hash)`. -/
abbrev PgKey := Bytes ×ₗ Bytes

/-- A row of `attestations`, less its key. -/
structure PgRow where
  storePath : Bytes
  narSize : ℕ
  refs : List Bytes
  ca : Bytes
  sigs : List Bytes
  leaf : ℕ
  hash : Digest
deriving DecidableEq

/-- `attestations` and `att_agg`, the latter by `(level, node)`. -/
structure PgFacts where
  attestations : OrdMap PgKey PgRow := ∅
  attAgg : OrdMap (ℕ ×ₗ ℕ) Digest := ∅
deriving DecidableEq

/-- The tables of the schema. -/
structure Pg where
  clocks : OrdMap Origin Clock := ∅
  journal : OrdMap (Origin ×ₗ ℕ) Event := ∅
  holdingRows : OrdMap (Origin ×ₗ NarHash) Unit := ∅
  facts : PgFacts := {}
  watermarkRows : OrdMap (Origin ×ₗ Origin) ℕ := ∅
deriving DecidableEq

/-- `row_to_att`. -/
def PgRow.attestation (r : PgRow) (narHash : Bytes) : Attestation :=
  ⟨r.storePath, narHash, r.narSize, r.refs, r.ca, r.sigs⟩

/-- The row that is written for a fact. -/
def PgRow.of (a : Attestation) : PgRow :=
  let h := attestationHash cd a
  ⟨a.storePath, a.narSize, a.references, a.ca, a.sigs, leafOf h, h⟩

-- ================================================================ one row

/-- `lock_clock`: the clock row, created at zero first. -/
def Pg.lockClock (p : Pg) (o : Origin) : Clock × Pg :=
  match p.clocks.get o with
  | some c => (c, p)
  | none => ({}, { p with clocks := p.clocks.put o {} })

/-- `apply_hold`. -/
def applyHold (o : Origin) (rows : OrdMap (Origin ×ₗ NarHash) Unit) :
    HoldOp → OrdMap (Origin ×ₗ NarHash) Unit
  | .add h => rows.put (toLex (o, h)) ()
  | .drop h => rows.erase (toLex (o, h))

/-- The nodes of `att_agg` above a hash. -/
def aggNodes (h : Digest) : List (ℕ × ℕ) := [(2, leafOf h), (1, leafOf h / 256)]

/-- `agg_xor`: insert, or on conflict XOR. -/
def aggXor (agg : OrdMap (ℕ ×ₗ ℕ) Digest) (h : Digest) : OrdMap (ℕ ×ₗ ℕ) Digest :=
  (aggNodes h).foldl (fun agg node =>
    agg.put (toLex node) ((agg.get (toLex node)).elim h fun d => d + h)) agg

/-- `merge_att`: read the row, merge, write it back, and move the
aggregates with it. -/
def PgFacts.mergeAtt (f : PgFacts) (att : Attestation) : Bool × PgFacts :=
  let key := toLex (hashPartOf att.storePath, att.narHash)
  let row := f.attestations.get key
  match mergeInto (row.map fun r => r.attestation att.narHash) att with
  | none => (false, f)
  | some merged =>
      let h := attestationHash cd merged
      -- identical content arriving by another route: nothing moves
      if row.map PgRow.hash = some h then (false, f)
      else
        let key' := toLex (hashPartOf att.storePath, merged.narHash)
        let agg := row.elim f.attAgg fun r => aggXor f.attAgg r.hash
        (true, ⟨f.attestations.put key' (PgRow.of cd merged), aggXor agg h⟩)

/-- The facts of a batch, one after the other. -/
def PgFacts.mergeAll (f : PgFacts) (attests : List Attestation) : PgFacts :=
  attests.foldl (fun f a => (f.mergeAtt cd a).2) f

-- ============================================================= operations

namespace Pg

/-- `clock`. -/
def clock (p : Pg) (o : Origin) : Clock := (p.clocks.get o).getD {}

/-- `holdings`. -/
def holdings (p : Pg) (o : Origin) : List NarHash :=
  (p.holdingRows.entries.filter fun e => (ofLex e.1).1 = o).map fun e => (ofLex e.1).2

/-- `apply_events`. -/
def applyEvents (p : Pg) (o : Origin) (expect set : ℕ × ℕ) (journal : List (ℕ × Event))
    (holds : List HoldOp) (attests : List Attestation) : Bool × Pg :=
  let cur := (p.lockClock o).1
  let tx := (p.lockClock o).2
  if (cur.generation, cur.seq) ≠ expect then (false, p)
  else
    (true, { tx with
      journal := journal.foldl (fun rows e => rows.put (toLex (o, e.1)) e.2) tx.journal
      holdingRows := holds.foldl (applyHold o) tx.holdingRows
      facts := tx.facts.mergeAll cd attests
      clocks := tx.clocks.put o { cur with generation := set.1, seq := set.2 } })

/-- The changes `replace_holdings` makes: the two set differences. -/
def replaceOps (p : Pg) (o : Origin) (held : List NarHash) : List HoldOp :=
  ((p.holdings o).filter fun h => decide (h ∉ held)).map HoldOp.drop
    ++ ((sortDedup held).filter fun h => decide (h ∉ p.holdings o)).map HoldOp.add

/-- `replace_holdings`, its changes in the order given. -/
def replaceHoldings (p : Pg) (o : Origin) (generation seq : ℕ) (order : List HoldOp) :
    Bool × Pg :=
  let cur := (p.lockClock o).1
  let tx := (p.lockClock o).2
  if staleSnapshot cur generation seq then (false, p)
  else
    (true, { tx with
      holdingRows := order.foldl (applyHold o) tx.holdingRows
      journal := tx.journal.filter fun k => decide ((ofLex k).1 ≠ o)
      clocks := tx.clocks.put o ⟨generation, seq, seq⟩ })

/-- `merge_attestations`: how many rows were new or changed. -/
def mergeAttestations (p : Pg) (attests : List Attestation) : ℕ × Pg :=
  let st := attests.foldl (fun (st : ℕ × PgFacts) a =>
    let out := st.2.mergeAtt cd a
    (st.1 + if out.1 then 1 else 0, out.2)) (0, p.facts)
  (st.1, { p with facts := st.2 })

/-- `set_generation`. -/
def setGeneration (p : Pg) (o : Origin) (generation : ℕ) : Pg :=
  { p with
    clocks := p.clocks.put o
      ((p.clocks.get o).elim ⟨generation, 0, 0⟩ fun c => { c with generation := generation }) }

/-- `compact_journal`. -/
def compactJournal (p : Pg) (o : Origin) (floor : ℕ) : Pg :=
  let cur := (p.lockClock o).1
  let tx := (p.lockClock o).2
  if floor ≤ cur.tailSeq then p
  else
    { tx with
      journal := tx.journal.filter fun k =>
        decide (¬ ((ofLex k).1 = o ∧ (ofLex k).2 ≤ floor))
      clocks := tx.clocks.put o { cur with tailSeq := floor } }

/-- `retain_origins`, one departed origin. -/
def retireOne (p : Pg) (o : Origin) : Pg :=
  { p with
    holdingRows := (p.holdings o).foldl (fun rows h => applyHold o rows (.drop h)) p.holdingRows
    journal := p.journal.filter fun k => decide ((ofLex k).1 ≠ o)
    clocks := p.clocks.erase o }

/-- `retain_origins`. -/
def retainOrigins (p : Pg) (keep : List Origin) : Pg :=
  let departed := p.clocks.keys.filter fun o => decide (o ∉ keep)
  let p := departed.foldl retireOne p
  { p with
    watermarkRows := p.watermarkRows.filter fun k =>
      decide (¬ ((ofLex k).1 ∉ keep ∨ (ofLex k).2 ∉ keep)) }

/-- `advance_watermark`: insert, or on conflict the greater. -/
def advanceWatermark (p : Pg) (peer o : Origin) (seq : ℕ) : Pg :=
  { p with
    watermarkRows := p.watermarkRows.put (toLex (peer, o))
      ((p.watermarkRows.get (toLex (peer, o))).elim seq fun cur => max cur seq) }

-- ================================================================ reading

/-- `journal_suffix`. -/
def journalSuffix (p : Pg) (o : Origin) (after maxBytes : ℕ) : List Event × Bool :=
  Db.takeSuffix cd maxBytes
    ((p.journal.entries.filter fun e =>
      decide ((ofLex e.1).1 = o ∧ after < (ofLex e.1).2)).map Prod.snd) [] 0

/-- `watermarks`. -/
def watermarks (p : Pg) : List (Origin × Origin × ℕ) :=
  p.watermarkRows.entries.map fun e => ((ofLex e.1).1, (ofLex e.1).2, e.2)

/-- `watermarks`, read at one pair. -/
def watermark (p : Pg) (peer o : Origin) : ℕ :=
  (p.watermarkRows.get (toLex (peer, o))).getD 0

/-- The subquery of both lookups: the origins holding a NAR hash. -/
def holdersOf (p : Pg) (narHash : Bytes) : List Origin :=
  (p.holdingRows.entries.filter fun e => decide ((ofLex e.1).2.val = narHash)).map
    fun e => (ofLex e.1).1

/-- Both lookups: the rows whose key is asked for, with their holders,
less those that have none. -/
def lookup (p : Pg) (asked : PgKey → Bool) : List (Attestation × List Origin) :=
  ((p.facts.attestations.entries.filter fun e => asked e.1).map fun e =>
    (e.2.attestation (ofLex e.1).2, p.holdersOf (ofLex e.1).2)).filter
      fun found => decide (found.2 ≠ [])

/-- `lookup_hash_part`. -/
def lookupHashPart (p : Pg) (hashPart : Bytes) : List (Attestation × List Origin) :=
  p.lookup fun k => decide ((ofLex k).1 = hashPart)

/-- `lookup_nar_hash`. -/
def lookupNarHash (p : Pg) (narHash : NarHash) : List (Attestation × List Origin) :=
  p.lookup fun k => decide ((ofLex k).2 = narHash.val)

end Pg

namespace PgFacts

/-- `merkle_root`: the XOR of the coarse level. -/
def merkleRoot (f : PgFacts) : Digest :=
  ((f.attAgg.entries.filter fun e => decide ((ofLex e.1).1 = 1)).map Prod.snd).sum

/-- `merkle_children`: the nodes of one level below a node, zero where
there is no row. -/
def merkleChildren (f : PgFacts) (node : Bytes) : Option (List Digest) :=
  let below (level lo : ℕ) : List Digest :=
    (List.range MERKLE_FANOUT).map fun i => (f.attAgg.get (toLex (level, lo + i))).getD 0
  match node with
  | [] => some (below 1 0)
  | [c] => some (below 2 (c.toNat * MERKLE_FANOUT))
  | _ => none

-- ================================================================= paging

/-- The leaves under a node. -/
def leafRange : Bytes → Option (ℕ × ℕ)
  | [] => some (0, MERKLE_LEAVES)
  | [c] => some (c.toNat * MERKLE_FANOUT, c.toNat * MERKLE_FANOUT + MERKLE_FANOUT)
  | [c, d] => some (c.toNat * 256 + d.toNat, c.toNat * 256 + d.toNat + 1)
  | _ => none

/-- `split_cursor`. -/
def splitCursor (cursor : Bytes) : PgKey :=
  if cursor.length < 32 then toLex ([], [])
  else if isUtf8 (cursor.take 32) then toLex (cursor.take 32, cursor.drop 32)
  else toLex ([], [])

/-- `join_cursor`. -/
def joinCursor (k : PgKey) : Bytes := (ofLex k).1 ++ (ofLex k).2

/-- `FETCH` of `attestation_page`. -/
def FETCH : ℕ := 1024

/-- The rows of a page's query, before its LIMIT: above a key, with a
leaf in the range. -/
def rowsAbove (f : PgFacts) (range : ℕ × ℕ) (k : PgKey) : List (PgKey × PgRow) :=
  f.attestations.entries.filter fun e =>
    decide (k < e.1 ∧ range.1 ≤ e.2.leaf ∧ e.2.leaf < range.2)

/-- A page being filled: its facts, their bytes, and the key of the last
of them. -/
structure Filling where
  page : List Attestation := []
  used : ℕ := 0
  last : PgKey

/-- `attestation_page`, the rows of one query: taken while they fit, but
never stopping before the first. -/
def takeRows (maxBytes : ℕ) : List (PgKey × PgRow) → Filling → Bool × Filling
  | [], st => (false, st)
  | (k, r) :: rows, st =>
      let att := r.attestation (ofLex k).2
      let len := (cd.encodeAttestation att).length
      if st.used + len > maxBytes ∧ st.page ≠ [] then (true, st)
      else takeRows maxBytes rows ⟨st.page ++ [att], st.used + len, k⟩

/-- `attestation_page`, its loop over queries; there is at most one more
of them than there are rows. -/
def fillPage (f : PgFacts) (range : ℕ × ℕ) (maxBytes : ℕ) :
    ℕ → Filling → List Attestation × Option Bytes
  | 0, st => (st.page, none)
  | queries + 1, st =>
      let rows := (f.rowsAbove range st.last).take FETCH
      match takeRows cd maxBytes rows st with
      | (true, st') => (st'.page, some (joinCursor st'.last))
      | (false, st') =>
          if rows.length < FETCH then (st'.page, none)
          else fillPage f range maxBytes queries st'

/-- `attestation_page`: one page of the rows under `node` above `cursor`,
and the cursor to resume from. -/
def attestationPage (f : PgFacts) (node cursor : Bytes) (maxBytes : ℕ) :
    Option (List Attestation × Option Bytes) :=
  (leafRange node).map fun range =>
    f.fillPage cd range maxBytes (f.attestations.entries.length + 1)
      { last := splitCursor cursor }

end PgFacts

end Narshare
