/-
The store one level down: the column families with the byte keys that
rocksdb sorts and scans, and store/rocks.rs as it reads and writes them.

# Two levels

The tables of the files before are keyed by pairs, and an origin's rows
are those whose key has it. Here a key is a byte string and an origin's
rows are what a scan by `okey` meets. `Stands` relates the two: a family
has exactly the rows of its table, under encoded keys. It is kept by a
batch (`Stands.write`), and every operation computes the same batches
at both levels (`does_of_batches`), but for the order in which a walk
over all clocks meets the departed origins, which is that of the bytes.

# Cut-off runs

An operation is its batches, in commit order. One that is cut off has
committed some first few of them.
-/
import Narshare.Lib.System
import Narshare.Store.Keys
import Narshare.Store.Retire

namespace Narshare

variable (cd : Codec)

-- ============================================================== column families

/-- The column families. -/
structure RawDb where
  clocks : OrdMap Bytes Clock := ∅
  journal : OrdMap Bytes Event := ∅
  hold : OrdMap Bytes Unit := ∅
  holdby : OrdMap Bytes Unit := ∅
  att : OrdMap Bytes Attestation := ∅
  attPath : OrdMap Bytes Digest := ∅
  attNar : OrdMap Bytes Digest := ∅
  wm : OrdMap Bytes ℕ := ∅

/-- `WriteBatch`. -/
structure RawBatch where
  clocks : List (Bytes × Option Clock) := []
  journal : List (Bytes × Option Event) := []
  hold : List (Bytes × Option Unit) := []
  holdby : List (Bytes × Option Unit) := []
  att : List (Bytes × Option Attestation) := []
  attPath : List (Bytes × Option Digest) := []
  attNar : List (Bytes × Option Digest) := []
  wm : List (Bytes × Option ℕ) := []

namespace RawBatch

/-- Both batches, the second after the first. -/
def append (b b' : RawBatch) : RawBatch where
  clocks := b.clocks ++ b'.clocks
  journal := b.journal ++ b'.journal
  hold := b.hold ++ b'.hold
  holdby := b.holdby ++ b'.holdby
  att := b.att ++ b'.att
  attPath := b.attPath ++ b'.attPath
  attNar := b.attNar ++ b'.attNar
  wm := b.wm ++ b'.wm

instance : Append RawBatch := ⟨append⟩

/-- `WriteBatch::len`. -/
def len (b : RawBatch) : ℕ :=
  b.clocks.length + b.journal.length + b.hold.length + b.holdby.length
    + b.att.length + b.attPath.length + b.attNar.length + b.wm.length

/-- Append to the open batch and write it out once it is full. -/
def flushPush (st : List RawBatch × RawBatch) (b : RawBatch) : List RawBatch × RawBatch :=
  let cur := st.2 ++ b
  if cur.len ≥ BATCH_OPS then (st.1 ++ [cur], {}) else (st.1, cur)

end RawBatch

/-- The key of a row, by the pair that names it. -/
def jkeyOf (k : Origin ×ₗ ℕ) : Bytes := jkey (ofLex k).1 (ofLex k).2

def holdKeyOf (k : Origin ×ₗ NarHash) : Bytes := holdKey (ofLex k).1 (ofLex k).2

def holdbyKeyOf (k : NarHash ×ₗ Origin) : Bytes := holdbyKey (ofLex k).1 (ofLex k).2

def wmKeyOf (k : Origin ×ₗ Origin) : Bytes := wmKey (ofLex k).1 (ofLex k).2

/-- A batch with its keys written out. -/
def Batch.raw (b : Batch) : RawBatch where
  clocks := b.clocks.map fun w => (okey w.1, w.2)
  journal := b.journal.map fun w => (jkeyOf w.1, w.2)
  hold := b.hold.map fun w => (holdKeyOf w.1, w.2)
  holdby := b.holdby.map fun w => (holdbyKeyOf w.1, w.2)
  att := b.att
  attPath := b.attPath
  attNar := b.attNar
  wm := b.wm.map fun w => (wmKeyOf w.1, w.2)

namespace RawDb

/-- `db.write(batch)`. -/
def write (r : RawDb) (b : RawBatch) : RawDb where
  clocks := r.clocks.setAll b.clocks
  journal := r.journal.setAll b.journal
  hold := r.hold.setAll b.hold
  holdby := r.holdby.setAll b.holdby
  att := r.att.setAll b.att
  attPath := r.attPath.setAll b.attPath
  attNar := r.attNar.setAll b.attNar
  wm := r.wm.setAll b.wm

/-- Several batches, committed in order. -/
def writeAll (r : RawDb) (bs : List RawBatch) : RawDb := bs.foldl write r

-- ==================================================================== reading

/-- `clock`. -/
def clock (r : RawDb) (o : Origin) : Clock := (r.clocks.get (okey o)).getD {}

/-- `holdings`: the last 32 bytes of each key of the scan. -/
def holdings (r : RawDb) (o : Origin) : List NarHash :=
  (r.hold.scan (okey o)).filterMap fun e => NarHash.tryFrom (e.1.drop (e.1.length - 32))

/-- `holders_of`. -/
def holdersOf (r : RawDb) (h : NarHash) : List Origin :=
  (r.holdby.scan h.val).filterMap fun e => Origin.tryFrom (e.1.drop 32)

/-- The rows of the fact families, whose keys are bytes at both
levels. -/
def facts (r : RawDb) : Db := { att := r.att, attPath := r.attPath, attNar := r.attNar }

-- ================================================================== operations

/-- `apply_holds`: the last operation on each hash, in both tables. -/
def applyHolds (o : Origin) (ops : List HoldOp) : RawBatch :=
  let fin := (finalHolds ops).entries
  { hold := fin.map fun e => (holdKey o e.1, if e.2 then some () else none)
    holdby := fin.map fun e => (holdbyKey e.1 o, if e.2 then some () else none) }

/-- `apply_events`, less its facts. -/
def eventsBatch (cur : Clock) (o : Origin) (set : ℕ × ℕ) (journal : List (ℕ × Event))
    (holds : List HoldOp) : RawBatch :=
  { journal := journal.map fun e => (jkey o e.1, some e.2)
    clocks := [(okey o, some ⟨set.1, set.2, cur.tailSeq⟩)] } ++ applyHolds o holds

/-- The possession changes a replacement makes. -/
def replaceOps (r : RawDb) (o : Origin) (held : List NarHash) : List HoldOp :=
  let old := r.holdings o
  (old.filter fun h => decide (h ∉ held)).map HoldOp.drop
    ++ ((sortDedup held).filter fun h => decide (h ∉ old)).map HoldOp.add

/-- `replace_holdings`: its batches, in commit order. -/
def replaceBatches (r : RawDb) (o : Origin) (generation seq : ℕ) (ops : List HoldOp) :
    List RawBatch :=
  let st := (r.journal.scan (okey o)).foldl
    (fun st e => RawBatch.flushPush st { journal := [(e.1, none)] }) ([], {})
  (chunks BATCH_OPS ops).map (applyHolds o) ++ st.1
    ++ [st.2 ++ { clocks := [(okey o, some ⟨generation, seq, seq⟩)] }]

/-- `compact_journal`: from the tail on, while the key is the origin's
and its number no greater than the floor. -/
def compactBatch (r : RawDb) (o : Origin) (floor : ℕ) : RawBatch :=
  let c := r.clock o
  if floor ≤ c.tailSeq then {}
  else
    { journal :=
        ((r.journal.scanFrom (jkey o (min (c.tailSeq + 1) (2 ^ 64 - 1))) (okey o)).takeWhile
          fun e => decide (fromBigEndian (e.1.drop (e.1.length - 8)) ≤ floor)).map
            fun e => (e.1, none)
      clocks := [(okey o, some { c with tailSeq := floor })] }

/-- `retain_origins`, one departed origin. -/
def retainOne (r : RawDb) (st : List RawBatch × RawBatch) (o : Origin) :
    List RawBatch × RawBatch :=
  let st := (r.hold.scan (okey o)).foldl (fun st e => RawBatch.flushPush st
    { hold := [(e.1, none)]
      holdby := [(e.1.drop (e.1.length - 32) ++ o.val, none)] }) st
  let st := (r.journal.scan (okey o)).foldl
    (fun st e => RawBatch.flushPush st { journal := [(e.1, none)] }) st
  (st.1, st.2 ++ { clocks := [(okey o, none)] })

/-- The origins with a clock row that are not kept, as the walk over all
clocks meets them. -/
def departed (r : RawDb) (keep : List Origin) : List Origin :=
  (r.clocks.keys.filterMap fun k => Origin.tryFrom (k.drop 1)).filter fun o => decide (o ∉ keep)

/-- Does a watermark row go: its peer or its origin is not kept. -/
def wmGoes (keep : List Origin) (k : Bytes) : Bool :=
  let plen := (k.headD 0).toNat
  !(keep.any fun o => decide (o.val = (k.drop 1).take plen))
    || !(keep.any fun o => decide (o.val = k.drop (1 + plen)))

/-- `retain_origins`: its batches, in commit order. -/
def retainBatches (r : RawDb) (keep : List Origin) : List RawBatch :=
  let st := (r.departed keep).foldl r.retainOne ([], {})
  st.1 ++ [st.2 ++ { wm := (r.wm.keys.filter (wmGoes keep)).map fun k => (k, none) }]

end RawDb

/-- The writing operations of the store. `order` is the order in which
the hash sets of `replace_holdings` give the changes. -/
inductive RawOp
  | applyEvents (o : Origin) (expect set : ℕ × ℕ) (journal : List (ℕ × Event))
      (holds : List HoldOp) (attests : List Attestation)
  | mergeAttestations (attests : List Attestation)
  | setGeneration (o : Origin) (generation : ℕ)
  | replaceHoldings (o : Origin) (generation seq : ℕ) (held : List NarHash)
      (order : List HoldOp)
  | compactJournal (o : Origin) (floor : ℕ)
  | retainOrigins (keep : List Origin)
  | advanceWatermark (peer o : Origin) (seq : ℕ)

/-- The batches of an operation, in commit order. -/
def RawDb.batches (r : RawDb) : RawOp → Option (List RawBatch)
  | .applyEvents o expect set journal holds attests =>
      if ∀ e ∈ journal, U64 e.1 then
        let cur := r.clock o
        some (if (cur.generation, cur.seq) ≠ expect then []
          else [eventsBatch cur o set journal holds
            ++ (movesBatch cd (mergeAtts cd r.facts attests)).raw])
      else none
  | .mergeAttestations attests =>
      let moves := mergeAtts cd r.facts attests
      some (if moves.length > 0 then [(movesBatch cd moves).raw] else [])
  | .setGeneration o generation =>
      some [{ clocks := [(okey o, some { r.clock o with generation := generation })] }]
  | .replaceHoldings o generation seq held order =>
      if order.Perm (r.replaceOps o held) then
        some (if staleSnapshot (r.clock o) generation seq then []
          else r.replaceBatches o generation seq order)
      else none
  | .compactJournal o floor => if U64 floor then some [r.compactBatch o floor] else none
  | .retainOrigins keep => some (r.retainBatches keep)
  | .advanceWatermark peer o seq =>
      some (if seq > (r.wm.get (wmKey peer o)).getD 0 then [{ wm := [(wmKey peer o, some seq)] }]
        else [])

/-- One operation, run to its end or cut off after some batches. -/
def RawDb.step (r : RawDb) (a : RawOp × Option ℕ) : Option RawDb :=
  (r.batches cd a.1).map fun bs => r.writeAll (a.2.elim bs fun n => bs.take n)

/-- The store from empty, one operation after the other. -/
def rawSystem : System RawDb (RawOp × Option ℕ) where
  init r := r = {}
  step r a := r.step cd a

-- ============================================================ the two levels

/-- The families hold the rows of the tables. -/
structure RawDb.Stands (r : RawDb) (db : Db) : Prop where
  clocks : Encodes okey (fun _ => True) db.clocks r.clocks
  journal : Encodes jkeyOf (fun k => U64 (ofLex k).2) db.journal r.journal
  hold : Encodes holdKeyOf (fun _ => True) db.hold r.hold
  holdby : Encodes holdbyKeyOf (fun _ => True) db.holdby r.holdby
  wm : Encodes wmKeyOf (fun _ => True) db.wm r.wm
  att : r.att = db.att
  attPath : r.attPath = db.attPath
  attNar : r.attNar = db.attNar

theorem keysApart_okey : KeysApart okey fun _ => True :=
  fun _ _ _ _ h => okey_injective h

theorem keysApart_jkeyOf : KeysApart jkeyOf fun k => U64 (ofLex k).2 := by
  intro k k' hk hk' h
  obtain ⟨ho, hn⟩ := jkey_injective hk hk' h
  exact Prod.ext ho hn

theorem keysApart_holdKeyOf : KeysApart holdKeyOf fun _ => True := by
  intro k k' _ _ h
  obtain ⟨ho, hh⟩ := holdKey_injective h
  exact Prod.ext ho hh

theorem keysApart_holdbyKeyOf : KeysApart holdbyKeyOf fun _ => True := by
  intro k k' _ _ h
  obtain ⟨hh, ho⟩ := holdbyKey_injective h
  exact Prod.ext hh ho

theorem keysApart_wmKeyOf : KeysApart wmKeyOf fun _ => True := by
  intro k k' _ _ h
  obtain ⟨hp, ho⟩ := wmKey_injective h
  exact Prod.ext hp ho

/-- Below one origin journal keys sort by number. -/
theorem jkeyOf_lt {o : Origin} {k k' : Origin ×ₗ ℕ} (hu : U64 (ofLex k').2)
    (hk : (ofLex k).1 = o) (hk' : (ofLex k').1 = o) (h : k < k') : jkeyOf k < jkeyOf k' := by
  have hseq := snd_lt_of_lt hk hk' h
  rw [jkeyOf, jkeyOf, hk, hk']
  exact jkey_lt hu hseq

/-- A batch whose sequence numbers are ones a u64 can be. -/
def Batch.Numbered (b : Batch) : Prop := ∀ w ∈ b.journal, U64 (ofLex w.1).2

namespace RawDb.Stands

variable {r : RawDb} {db : Db}

theorem empty : Stands {} {} where
  clocks := Encodes.empty
  journal := Encodes.empty
  hold := Encodes.empty
  holdby := Encodes.empty
  wm := Encodes.empty
  att := rfl
  attPath := rfl
  attNar := rfl

/-- A batch on either level. -/
theorem write (h : r.Stands db) {b : Batch} (hb : b.Numbered) :
    (r.write b.raw).Stands (db.write b) where
  clocks := h.clocks.setAll keysApart_okey fun _ _ => trivial
  journal := h.journal.setAll keysApart_jkeyOf hb
  hold := h.hold.setAll keysApart_holdKeyOf fun _ _ => trivial
  holdby := h.holdby.setAll keysApart_holdbyKeyOf fun _ _ => trivial
  wm := h.wm.setAll keysApart_wmKeyOf fun _ _ => trivial
  att := congrArg (fun m => m.setAll b.att) h.att
  attPath := congrArg (fun m => m.setAll b.attPath) h.attPath
  attNar := congrArg (fun m => m.setAll b.attNar) h.attNar

theorem writeAll (h : r.Stands db) {bs : List Batch} (hb : ∀ b ∈ bs, b.Numbered) :
    (r.writeAll (bs.map Batch.raw)).Stands (db.writeAll bs) := by
  induction bs generalizing r db with
  | nil => exact h
  | cons b bs ih =>
      exact ih (h.write (hb b List.mem_cons_self))
        fun b' hb' => hb b' (List.mem_cons_of_mem _ hb')

-- ============================================================= reading alike

theorem clock (h : r.Stands db) (o : Origin) : r.clock o = db.clock o := by
  rw [RawDb.clock, h.clocks.get o trivial]
  rfl

/-- A scan of `hold` by `okey` returns the rows of the origin, in the
order of their hashes. -/
theorem scan_hold (h : r.Stands db) (o : Origin) :
    r.hold.scan (okey o)
      = (db.holdings o).map fun x => (holdKey o x, ()) := by
  rw [h.hold.scan (p := fun k => decide ((ofLex k).1 = o)) (fun k _ => ?_)
    (fun k k' _ _ hk hk' hlt => ?_), Db.holdings, List.map_map]
  · refine List.map_congr_left fun e he => ?_
    have ho := of_decide_eq_true (List.mem_filter.mp he).2
    rw [← ho]
    rfl
  · rw [decide_eq_true_eq, holdKeyOf, holdKey, okey_prefix_iff]
    exact eq_comm
  · have ho := of_decide_eq_true hk
    have ho' := of_decide_eq_true hk'
    have hhash := snd_lt_of_lt ho ho' hlt
    rw [holdKeyOf, holdKeyOf, ho, ho']
    exact List.append_left_lt hhash

/-- A scan of the journal by `okey` that starts at some number returns
the origin's rows from there, in order. -/
theorem scanFrom_journal (h : r.Stands db) (o : Origin) {n : ℕ} (hn : U64 n) :
    r.journal.scanFrom (jkey o n) (okey o)
      = (db.journal.entries.filter fun e =>
          decide ((ofLex e.1).1 = o) && decide (n ≤ (ofLex e.1).2)).map
            fun e => (jkeyOf e.1, e.2) := by
  refine h.journal.scanFrom (p := fun k => decide ((ofLex k).1 = o) && decide (n ≤ (ofLex k).2))
    (List.prefix_append _ _) (fun k hk => ?_) (fun k k' _ hku' hk hk' hlt => ?_)
  · rw [Bool.and_eq_true, decide_eq_true_eq, decide_eq_true_eq, jkeyOf]
    constructor
    · rintro ⟨ho, hle⟩
      refine ⟨?_, ho ▸ List.prefix_append _ _⟩
      rw [ho]
      rcases Nat.lt_or_eq_of_le hle with hlt | heq
      · exact (jkey_lt hk hlt).le
      · exact heq ▸ le_rfl
    · rintro ⟨hle, hpre⟩
      have ho : (ofLex k).1 = o := (okey_prefix_iff.mp hpre).symm
      refine ⟨ho, ?_⟩
      rw [ho] at hle
      exact not_lt.mp fun hlt => absurd hle (not_le.mpr (jkey_lt hn hlt))
  · exact jkeyOf_lt hku' (of_decide_eq_true (Bool.and_eq_true_iff.mp hk).1)
      (of_decide_eq_true (Bool.and_eq_true_iff.mp hk').1) hlt

theorem scan_journal (h : r.Stands db) (o : Origin) :
    r.journal.scan (okey o)
      = (db.journal.entries.filter fun e => decide ((ofLex e.1).1 = o)).map
          fun e => (jkeyOf e.1, e.2) := by
  refine h.journal.scan (p := fun k => decide ((ofLex k).1 = o)) (fun k _ => ?_)
    (fun k k' _ hku' hk hk' hlt => ?_)
  · rw [decide_eq_true_eq, jkeyOf, jkey, okey_prefix_iff]
    exact eq_comm
  · exact jkeyOf_lt hku' (of_decide_eq_true hk) (of_decide_eq_true hk') hlt

theorem holdings (h : r.Stands db) (o : Origin) : r.holdings o = db.holdings o := by
  rw [RawDb.holdings, h.scan_hold, List.filterMap_map]
  refine Eq.trans (List.filterMap_congr fun x _ => ?_) List.filterMap_some
  exact hash_of_holdKey x

/-- A scan of `holdby` returns the holders. -/
theorem holdersOf (h : r.Stands db) (x : NarHash) : r.holdersOf x = db.holdersOf x := by
  have hscan : r.holdby.scan x.val
      = (db.holdby.entries.filter fun e => decide ((ofLex e.1).1 = x)).map
          fun e => (holdbyKeyOf e.1, e.2) := by
    refine h.holdby.scan (p := fun k => decide ((ofLex k).1 = x)) (fun k _ => ?_)
      (fun k k' _ _ hk hk' hlt => ?_)
    · rw [decide_eq_true_eq, holdbyKeyOf, holdbyKey]
      constructor
      · intro he
        rw [he]
        exact List.prefix_append _ _
      · rintro ⟨t, ht⟩
        exact (Subtype.ext (List.append_inj ht (x.property.trans
          (ofLex k).1.property.symm)).1).symm
    · have hx := of_decide_eq_true hk
      have hx' := of_decide_eq_true hk'
      have ho := snd_lt_of_lt hx hx' hlt
      rw [holdbyKeyOf, holdbyKeyOf, hx, hx']
      exact List.append_left_lt ho
  rw [RawDb.holdersOf, hscan, List.filterMap_map, Db.holdersOf]
  rw [← List.filterMap_eq_map']
  refine List.filterMap_congr fun e _ => ?_
  show Origin.tryFrom ((holdbyKey (ofLex e.1).1 (ofLex e.1).2).drop 32) = some (ofLex e.1).2
  rw [holdbyKey, List.drop_left' (ofLex e.1).1.property, Origin.tryFrom_val]

theorem replaceOps (h : r.Stands db) (o : Origin) (held : List NarHash) :
    r.replaceOps o held = Narshare.replaceOps db o held := by
  rw [RawDb.replaceOps, Narshare.replaceOps]
  rw [h.holdings]
  congr 2
  refine List.filter_congr fun x _ => ?_
  have hmem : x ∈ db.holdings o ↔ db.isHeld o x = true := mem_holdings
  cases hheld : db.isHeld o x with
  | true => exact decide_eq_false (not_not.mpr (hmem.mpr hheld))
  | false => exact decide_eq_true fun hin => by rw [hmem.mp hin] at hheld; cases hheld

/-- The walk over all clocks meets the departed origins in the order of
their keys. -/
theorem departed (h : r.Stands db) (keep : List Origin) :
    (r.departed keep).Perm (db.clocks.keys.filter fun o => decide (o ∉ keep)) := by
  refine List.Perm.filter _ ?_
  refine ((h.clocks.keys_perm keysApart_okey).filterMap _).trans ?_
  rw [List.filterMap_map]
  refine List.Perm.of_eq (Eq.trans (List.filterMap_congr fun o _ => ?_) List.filterMap_some)
  exact Origin.tryFrom_val o

/-- A watermark row is read for the pair it stands for. -/
theorem wmGoes_wmKeyOf (keep : List Origin) (k : Origin ×ₗ Origin) :
    wmGoes keep (wmKeyOf k)
      = (decide ((ofLex k).1 ∉ keep) || decide ((ofLex k).2 ∉ keep)) := by
  have hlen : ((wmKeyOf k).headD 0).toNat = (ofLex k).1.val.length :=
    UInt8.toNat_ofNat_of_lt' (Nat.lt_succ_of_le (ofLex k).1.property.2)
  have htail : (wmKeyOf k).drop 1 = (ofLex k).1.val ++ (ofLex k).2.val := rfl
  have hpeer : ((wmKeyOf k).drop 1).take (ofLex k).1.val.length = (ofLex k).1.val := by
    rw [htail, List.take_left]
  have horigin : (wmKeyOf k).drop (1 + (ofLex k).1.val.length) = (ofLex k).2.val := by
    rw [← List.drop_drop, htail, List.drop_left]
  have hany : ∀ o : Origin, (keep.any fun o' => decide (o'.val = o.val)) = decide (o ∈ keep) := by
    intro o
    rw [Bool.eq_iff_iff, List.any_eq_true, decide_eq_true_eq]
    constructor
    · rintro ⟨o', hmem, he⟩
      exact Subtype.ext (of_decide_eq_true he) ▸ hmem
    · exact fun hmem => ⟨o, hmem, decide_eq_true rfl⟩
  rw [wmGoes]
  rw [hlen, hpeer, horigin, hany, hany, decide_not, decide_not]

theorem wmKeys (h : r.Stands db) (keep : List Origin) :
    ∃ wm : List (Origin ×ₗ Origin),
      wm.Perm (db.wm.keys.filter fun k =>
        decide ((ofLex k).1 ∉ keep) || decide ((ofLex k).2 ∉ keep))
      ∧ r.wm.keys.filter (wmGoes keep) = wm.map wmKeyOf := by
  refine exists_perm_of_map ?_
  refine ((h.wm.keys_perm keysApart_wmKeyOf).filter (wmGoes keep)).trans (List.Perm.of_eq ?_)
  rw [List.filter_map]
  congr 1
  exact List.filter_congr fun k _ => wmGoes_wmKeyOf keep k

end RawDb.Stands

-- ============================================================= writing alike

namespace Batch

theorem raw_append (b b' : Batch) : (b ++ b').raw = b.raw ++ b'.raw := by
  show Batch.raw (Batch.append b b') = RawBatch.append b.raw b'.raw
  simp [Batch.raw, Batch.append, RawBatch.append]

theorem len_raw (b : Batch) : b.raw.len = b.len := by
  simp [RawBatch.len, Batch.len, Batch.raw]

/-- Batches are cut at the same places. -/
theorem foldl_flushPush_raw {α : Type*} (f : α → Batch) (l : List α) (st : List Batch × Batch) :
    l.foldl (fun st x => RawBatch.flushPush st (f x).raw) (st.1.map raw, st.2.raw)
      = ((l.foldl (fun st x => flushPush st (f x)) st).1.map raw,
        (l.foldl (fun st x => flushPush st (f x)) st).2.raw) := by
  induction l generalizing st with
  | nil => rfl
  | cons x l ih =>
      rw [List.foldl_cons, List.foldl_cons, ← ih]
      congr 1
      rw [RawBatch.flushPush, flushPush]
      simp only
      rw [← raw_append, len_raw]
      split
      · rw [List.map_append]
        rfl
      · rfl

end Batch

theorem raw_applyHolds (o : Origin) (ops : List HoldOp) :
    RawDb.applyHolds o ops = (applyHolds o ops).raw := by
  simp [RawDb.applyHolds, applyHolds, Batch.raw, holdKeyOf, holdbyKeyOf]

theorem raw_eventsBatch (cur : Clock) (o : Origin) (set : ℕ × ℕ) (journal : List (ℕ × Event))
    (holds : List HoldOp) :
    RawDb.eventsBatch cur o set journal holds = (eventsBatch cur o set journal holds).raw := by
  rw [eventsBatch, Batch.raw_append, ← raw_applyHolds, RawDb.eventsBatch]
  congr 1
  simp [Batch.raw, jkeyOf]

namespace RawDb.Stands

variable {cd} {r : RawDb} {db : Db}

/-- Journal rows go alike. -/
theorem foldl_journalDeletes (h : r.Stands db) (o : Origin) (st : List Batch × Batch) :
    (r.journal.scan (okey o)).foldl
        (fun st e => RawBatch.flushPush st { journal := [(e.1, none)] })
        (st.1.map Batch.raw, st.2.raw)
      = Prod.map (List.map Batch.raw) Batch.raw
          (((db.journal.entries.filter fun e => (ofLex e.1).1 = o).map Prod.fst).foldl
            (fun st k => flushPush st { journal := [(k, none)] }) st) := by
  rw [h.scan_journal, List.foldl_map, List.foldl_map]
  exact Batch.foldl_flushPush_raw
    (fun e : (Origin ×ₗ ℕ) × Event => ({ journal := [(e.1, none)] } : Batch)) _ st

theorem replaceBatches (h : r.Stands db) (o : Origin) (generation seq : ℕ)
    (ops : List HoldOp) :
    r.replaceBatches o generation seq ops
      = (Narshare.replaceBatches db o generation seq ops).map Batch.raw := by
  have hfold := h.foldl_journalDeletes o ([], {})
  rw [RawDb.replaceBatches, Narshare.replaceBatches]
  change (r.journal.scan (okey o)).foldl _ (([], {}) : List RawBatch × RawBatch) = _ at hfold
  rw [hfold, List.map_append, List.map_append, List.map_map, List.map_cons, List.map_nil,
    Batch.raw_append]
  congr 2
  exact List.map_congr_left fun c _ => raw_applyHolds o c

theorem retainOne (h : r.Stands db) (o : Origin) (st : List Batch × Batch) :
    r.retainOne (st.1.map Batch.raw, st.2.raw) o
      = Prod.map (List.map Batch.raw) Batch.raw (Narshare.retainOne db st o) := by
  have hhold := Batch.foldl_flushPush_raw
    (fun x => ({ hold := [(toLex (o, x), none)], holdby := [(toLex (x, o), none)] } : Batch))
    (db.holdings o) st
  have hscan : (r.hold.scan (okey o)).foldl (fun st e => RawBatch.flushPush st
      { hold := [(e.1, none)]
        holdby := [(e.1.drop (e.1.length - 32) ++ o.val, none)] })
        (st.1.map Batch.raw, st.2.raw)
      = (db.holdings o).foldl (fun st x => RawBatch.flushPush st
          (Batch.raw { hold := [(toLex (o, x), none)], holdby := [(toLex (x, o), none)] }))
          (st.1.map Batch.raw, st.2.raw) := by
    rw [h.scan_hold, List.foldl_map]
    refine List.foldl_ext _ _ _ fun st x _ => ?_
    have hdrop : (holdKey o x).drop ((holdKey o x).length - 32) = x.val :=
      (NarHash.tryFrom_eq_some.mp (hash_of_holdKey x))
    simp only [Batch.raw, List.map_cons, List.map_nil, holdKeyOf, holdbyKeyOf, holdbyKey]
    rw [hdrop]
    rfl
  rw [RawDb.retainOne, Narshare.retainOne]
  rw [hscan, hhold, h.foldl_journalDeletes]
  simp only [Prod.map]
  rw [Batch.raw_append]
  rfl

theorem retainBatches (h : r.Stands db) (keep : List Origin) :
    ∃ departed wm,
      departed.Perm (db.clocks.keys.filter fun o => decide (o ∉ keep))
      ∧ wm.Perm (db.wm.keys.filter fun k =>
          decide ((ofLex k).1 ∉ keep) || decide ((ofLex k).2 ∉ keep))
      ∧ r.retainBatches keep = (retainIn db departed wm).map Batch.raw := by
  obtain ⟨wm, hwm, hkeys⟩ := h.wmKeys keep
  refine ⟨r.departed keep, wm, h.departed keep, hwm, ?_⟩
  have hfold : ∀ (os : List Origin) (st : List Batch × Batch),
      os.foldl r.retainOne (st.1.map Batch.raw, st.2.raw)
        = Prod.map (List.map Batch.raw) Batch.raw (os.foldl (Narshare.retainOne db) st) := by
    intro os
    induction os with
    | nil => exact fun _ => rfl
    | cons o os ih =>
        intro st
        rw [List.foldl_cons, List.foldl_cons, h.retainOne]
        exact ih (Narshare.retainOne db st o)
  have hall := hfold (r.departed keep) ([], {})
  change (r.departed keep).foldl r.retainOne (([], {}) : List RawBatch × RawBatch) = _ at hall
  rw [RawDb.retainBatches, retainIn]
  rw [hall, hkeys, List.map_append, List.map_cons, List.map_nil, Batch.raw_append]
  simp [Batch.raw, Function.comp_def]

/-- The journal rows of an origin above a number, at both levels. -/
theorem journalFrom (h : r.Stands db) (o : Origin) (after : ℕ) (hn : U64 (after + 1)) :
    ∃ rows : List ((Origin ×ₗ ℕ) × Event),
      (∀ e ∈ rows, (ofLex e.1).1 = o ∧ U64 (ofLex e.1).2)
      ∧ r.journal.scanFrom (jkey o (after + 1)) (okey o) = rows.map (fun e => (jkeyOf e.1, e.2))
      ∧ db.journalFrom o after = rows.map fun e => ((ofLex e.1).2, e.2) := by
  refine ⟨_, fun e he => ?_, h.scanFrom_journal o hn, ?_⟩
  · obtain ⟨hmem, hp⟩ := List.mem_filter.mp he
    exact ⟨of_decide_eq_true (Bool.and_eq_true_iff.mp hp).1,
      h.journal.inDom _ _ (OrdMap.mem_entries.mp hmem)⟩
  · rw [Db.journalFrom_eq_filter, OrdMap.seek_eq_filter, List.filter_filter]
    congr 1
    refine List.filter_congr fun e _ => ?_
    by_cases ho : (ofLex e.1).1 = o
    · rw [decide_eq_true ho, Bool.true_and, Bool.true_and, Bool.eq_iff_iff, decide_eq_true_eq,
        decide_eq_true_eq, Prod.Lex.le_iff]
      constructor
      · rintro (hlt | ⟨-, hle⟩)
        · exact absurd (ho ▸ hlt) (lt_irrefl o)
        · exact hle
      · exact fun hle => Or.inr ⟨ho.symm, hle⟩
    · rw [decide_eq_false ho, Bool.false_and, Bool.false_and]

theorem compactBatch (h : r.Stands db) (o : Origin) {floor : ℕ} (hfloor : U64 floor) :
    r.compactBatch o floor = (Narshare.compactBatch db o floor).raw := by
  rw [RawDb.compactBatch, Narshare.compactBatch, h.clock]
  split
  next => rfl
  next hlt =>
    have hnext : (db.clock o).tailSeq + 1 ≤ 2 ^ 64 - 1 := by
      have := hfloor
      unfold U64 at this
      omega
    obtain ⟨rows, hrows, hraw, htyped⟩ := h.journalFrom o (db.clock o).tailSeq
      (lt_of_le_of_lt hnext (by decide))
    have hsame : ((rows.map fun e => (jkeyOf e.1, e.2)).takeWhile fun e =>
          decide (fromBigEndian (e.1.drop (e.1.length - 8)) ≤ floor)).map
            (fun e => (e.1, (none : Option Event)))
        = (((rows.map fun e => ((ofLex e.1).2, e.2)).takeWhile fun e =>
            decide (e.1 ≤ floor)).map fun e => (toLex (o, e.1), (none : Option Event))).map
              fun w => (jkeyOf w.1, w.2) := by
      rw [List.takeWhile_map, List.takeWhile_map, List.map_map, List.map_map, List.map_map]
      have hstop : rows.takeWhile ((fun e : Bytes × Event =>
            decide (fromBigEndian (e.1.drop (e.1.length - 8)) ≤ floor)) ∘
              fun e => (jkeyOf e.1, e.2))
          = rows.takeWhile ((fun e : ℕ × Event => decide (e.1 ≤ floor)) ∘
              fun e => ((ofLex e.1).2, e.2)) := by
        refine takeWhile_congr fun e he => ?_
        show decide (fromBigEndian ((jkeyOf e.1).drop ((jkeyOf e.1).length - 8)) ≤ floor)
          = decide ((ofLex e.1).2 ≤ floor)
        rw [jkeyOf, seq_of_jkey (hrows e he).2]
      rw [hstop]
      refine List.map_congr_left fun e he => ?_
      have ho := (hrows e ((List.takeWhile_prefix _).subset he)).1
      show (jkeyOf e.1, none) = (jkey o (ofLex e.1).2, none)
      rw [jkeyOf, ho]
    rw [min_eq_left hnext, hraw, htyped, hsame]
    rfl

end RawDb.Stands

-- ================================================================ what is done

/-- What an operation writes, in terms of the tables. -/
def Db.Does (db : Db) (bs : List Batch) : RawOp → Prop
  | .applyEvents o expect set journal holds attests =>
      (∀ e ∈ journal, U64 e.1)
        ∧ bs = if ((db.clock o).generation, (db.clock o).seq) ≠ expect then []
          else [Narshare.eventsBatch (db.clock o) o set journal holds
            ++ movesBatch cd (mergeAtts cd db attests)]
  | .mergeAttestations attests =>
      bs = if (mergeAtts cd db attests).length > 0 then [movesBatch cd (mergeAtts cd db attests)]
        else []
  | .setGeneration o generation =>
      bs = [{ clocks := [(o, some { db.clock o with generation := generation })] }]
  | .replaceHoldings o generation seq held order =>
      order.Perm (Narshare.replaceOps db o held)
        ∧ bs = if staleSnapshot (db.clock o) generation seq then []
          else Narshare.replaceBatches db o generation seq order
  | .compactJournal o floor => bs = [Narshare.compactBatch db o floor]
  | .retainOrigins keep => ∃ departed wm,
      departed.Perm (db.clocks.keys.filter fun o => decide (o ∉ keep))
        ∧ wm.Perm (db.wm.keys.filter fun k =>
            decide ((ofLex k).1 ∉ keep) || decide ((ofLex k).2 ∉ keep))
        ∧ bs = retainIn db departed wm
  | .advanceWatermark peer o seq =>
      bs = if seq > db.watermark peer o then [{ wm := [(toLex (peer, o), some seq)] }] else []

variable {cd} {r : RawDb} {db : Db}

/-- The families a merge reads are the tables it reads. -/
theorem RawDb.Stands.mergeAtts (h : r.Stands db) (attests : List Attestation) :
    mergeAtts cd r.facts attests = Narshare.mergeAtts cd db attests := by
  unfold RawDb.facts
  rw [h.att, h.attPath, h.attNar]
  rfl

/-- Each operation writes the same batches at both levels. -/
theorem does_of_batches (h : r.Stands db) {op : RawOp} {bs : List RawBatch}
    (hb : r.batches cd op = some bs) :
    ∃ ts, db.Does cd ts op ∧ bs = ts.map Batch.raw := by
  cases op with
  | applyEvents o expect set journal holds attests =>
      rw [RawDb.batches] at hb
      split at hb
      next hu =>
        cases hb
        refine ⟨_, ⟨hu, rfl⟩, ?_⟩
        rw [h.clock, h.mergeAtts]
        split
        · rfl
        · rw [List.map_cons, List.map_nil, Batch.raw_append, raw_eventsBatch]
      next => cases hb
  | mergeAttestations attests =>
      cases hb
      refine ⟨_, rfl, ?_⟩
      rw [h.mergeAtts]
      split <;> rfl
  | setGeneration o generation =>
      cases hb
      refine ⟨_, rfl, ?_⟩
      rw [h.clock]
      rfl
  | replaceHoldings o generation seq held order =>
      rw [RawDb.batches] at hb
      split at hb
      next hperm =>
        cases hb
        refine ⟨_, ⟨h.replaceOps o held ▸ hperm, rfl⟩, ?_⟩
        rw [h.clock, h.replaceBatches]
        split <;> rfl
      next => cases hb
  | compactJournal o floor =>
      rw [RawDb.batches] at hb
      split at hb
      next hu =>
        cases hb
        exact ⟨_, rfl, by rw [h.compactBatch o hu]; rfl⟩
      next => cases hb
  | retainOrigins keep =>
      cases hb
      obtain ⟨departed, wm, hdep, hwm, he⟩ := h.retainBatches keep
      exact ⟨_, ⟨departed, wm, hdep, hwm, rfl⟩, he⟩
  | advanceWatermark peer o seq =>
      cases hb
      refine ⟨_, rfl, ?_⟩
      have hread : (r.wm.get (wmKey peer o)).getD 0 = db.watermark peer o :=
        congrArg (fun v => Option.getD v 0) (h.wm.get (toLex (peer, o)) trivial)
      rw [hread]
      split <;> rfl

end Narshare
