/-
A response as it came off the wire, processed from end to end: which
rows of the store the peer that sent it can reach.

# Sections

A response has several, and each goes its own way: attestations are
merged, the dump cursor is parked and the dumps restarted, then the
updates are taken one after the other, each by its body. A peer may name
any origin in an update, ours included, any number of times, with any
clock and with events or hashes that are nothing of the kind. The only
word given is that of the wire format: a generation and a sequence
number are u64s (`WireUpdate.u64`).

# What it cannot reach

Our own holdings, journal and sequence number (`OwnKept`), and every row
of an origin that the configuration does not name (`Db.SameRows`). The
compaction with which a pull round ends is the round's own and is no
part of this.
-/
import Narshare.Index.Remint
import Narshare.Index.Rounds
import Narshare.Store.Mirror

namespace Narshare

variable (cd : Codec) (cfg : Config)

-- ================================================================== the response

/-- `proto::OriginUpdate` as a peer sends it: the origin is any text. -/
structure WireUpdate where
  origin : Bytes
  generation : ℕ
  seq : ℕ
  body : Option Body
  truncated : Bool
  u64 : generation ≤ U64_MAX ∧ seq ≤ U64_MAX

/-- `proto::SyncResponse`, as far as it reaches the store. -/
structure SyncResponse where
  responder : Bytes
  origins : List WireUpdate
  attests : List Attestation
  attsTruncated : Bool
  attsNext : Bytes

/-- `has_snapshot`. -/
def SyncResponse.hasSnapshot (resp : SyncResponse) : Bool :=
  resp.origins.any fun up =>
    match up.body with
    | some (.snapshot _) => true
    | _ => false

/-- The dump cursor a response leaves. -/
def SyncResponse.next (resp : SyncResponse) : Bytes :=
  if resp.hasSnapshot then DUMP_RESTART
  else if resp.attsTruncated then resp.attsNext
  else []

/-- `pull_from_inner`, one update. -/
def takeWireUpdate (nanos : ℕ) (s : Store) (up : WireUpdate) : Store :=
  match Origin.tryFrom up.origin with
  | none => s -- no configuration has such a name
  | some o => (takeUpdate cd cfg nanos s ⟨o, up.generation, up.seq, up.body, up.truncated⟩).2

/-- `pull_from_inner`, the cursor: parked when it is not the one that was
sent, and every dump restarted after a snapshot. -/
def parkCursor (peer : Origin) (sent : Bytes) (s : Store) (resp : SyncResponse) : Store :=
  if resp.next ≠ sent ∨ resp.hasSnapshot = true then
    let db :=
      if resp.next ≠ s.db.dumpCursor peer then s.db.setDumpCursor peer resp.next else s.db
    { s with db := if resp.hasSnapshot then restartAllDumps cfg db else db }
  else s

/-- `pull_from_inner`, from a response to the store it leaves. The wall
clock is read anew for each update. -/
def takeResponse (peer : Origin) (sent : Bytes) (wall : ℕ → ℕ) (s : Store)
    (resp : SyncResponse) : Store :=
  if resp.responder ≠ peer.val then s -- the round fails
  else
    let merged := if resp.attests ≠ [] then (mergeAttests cd s resp.attests).2 else s
    resp.origins.zipIdx.foldl (fun s e => takeWireUpdate cd cfg (wall e.2) s e.1)
      (parkCursor cfg peer sent merged resp)

/-- What a response may do to our own origin: a higher generation,
nothing else. -/
structure OwnKept (db db' : Db) : Prop where
  journal : ∀ n, db'.journal.get (toLex (cfg.selfName, n))
    = db.journal.get (toLex (cfg.selfName, n))
  hold : ∀ x, db'.hold.get (toLex (cfg.selfName, x)) = db.hold.get (toLex (cfg.selfName, x))
  holdby : ∀ x, db'.holdby.get (toLex (x, cfg.selfName))
    = db.holdby.get (toLex (x, cfg.selfName))
  seq : (db'.clock cfg.selfName).seq = (db.clock cfg.selfName).seq
  tailSeq : (db'.clock cfg.selfName).tailSeq = (db.clock cfg.selfName).tailSeq
  generation : (db.clock cfg.selfName).generation ≤ (db'.clock cfg.selfName).generation

/-- What a response may do to the store: `OwnKept`, and nothing at all to
an origin outside the configuration. -/
structure Framed (db db' : Db) : Prop where
  own : OwnKept cfg db db'
  others : ∀ o, o ∉ cfg.originSet → db.SameRows db' o

variable {cd cfg}

-- ================================================================ writes of others

namespace Batch

variable {o o' : Origin}

/-- The batch of another origin's update writes no row of this one. -/
theorem spares_eventsBatch (h : o' ≠ o) (cur : Clock) (set : ℕ × ℕ)
    (journal : List (ℕ × Event)) (holds : List HoldOp) :
    (eventsBatch cur o' set journal holds).Spares o := by
  refine Spares.append ?_ (spares_applyHolds h holds)
  refine @Spares.append o { clocks := [_] } { journal := _ } (spares_clock h) ?_
  refine forall_journal (spares_wm []) (fun _ _ => Spares.append) fun w hw => ?_
  obtain ⟨e, -, rfl⟩ := List.mem_map.mp hw
  exact spares_journal h

/-- Nor do the batches of another origin's snapshot. -/
theorem spares_replaceBatches (h : o' ≠ o) (db : Db) (generation seq : ℕ)
    (ops : List HoldOp) : ∀ b ∈ replaceBatches db o' generation seq ops, b.Spares o :=
  replaceBatches_forall (spares_wm []) (fun _ _ => Spares.append) (spares_applyHolds h)
    (fun _ _ hk => spares_journal (hk ▸ h)) (fun _ => spares_clock h) generation seq ops

end Batch

namespace Db.SameRows

variable {o o' : Origin}

/-- Tables other than those of the origins. -/
theorem of_eq {db db' : Db} (hc : db'.clocks = db.clocks) (hj : db'.journal = db.journal)
    (hh : db'.hold = db.hold) (hb : db'.holdby = db.holdby) : db.SameRows db' o where
  clocks := by rw [hc]
  journal n := by rw [hj]
  hold x := by rw [hh]
  holdby x := by rw [hb]

/-- Another origin's events leave this one's rows alone. -/
theorem applyEvents (h : o' ≠ o) (s : Store) (expect set : ℕ × ℕ)
    (journal : List (ℕ × Event)) (holds : List HoldOp) (attests : List Attestation) :
    s.db.SameRows (s.applyEvents cd o' expect set journal holds attests).2.db o := by
  rw [Store.applyEvents]
  show s.db.SameRows (ite _ _ _ : Bool × Store).2.db o
  split
  next => exact refl s.db o
  next =>
    refine of_spares (Batch.Spares.append ?_ ?_) s.db
    · exact Batch.spares_eventsBatch h _ set journal holds
    · exact (Batch.factsOnly_movesBatch cd _).spares

/-- So does another origin's snapshot. -/
theorem replaceHoldings (h : o' ≠ o) (s : Store) (generation seq : ℕ)
    (held : List NarHash) :
    s.db.SameRows (s.replaceHoldings o' generation seq held).2.db o := by
  rw [Store.replaceHoldings]
  split
  next => exact refl s.db o
  next => exact writeAll (Batch.spares_replaceBatches h s.db generation seq _) s.db

/-- So does another origin's generation. -/
theorem setGeneration (h : o' ≠ o) (s : Store) (generation : ℕ) :
    s.db.SameRows (s.setGeneration o' generation).db o :=
  of_spares (Batch.spares_clock h) s.db

/-- A merge of facts touches no origin's rows. -/
theorem mergeAttests (s : Store) (attests : List Attestation) (o : Origin) :
    s.db.SameRows (Narshare.mergeAttests cd s attests).2.db o := by
  rw [Narshare.mergeAttests]
  show s.db.SameRows (ite _ _ _ : ℕ × Store).2.db o
  split
  next => exact refl s.db o
  next =>
    rw [Store.mergeAttestations]
    show s.db.SameRows (ite _ _ _ : ℕ × Store).2.db o
    split
    next => exact of_spares (Batch.factsOnly_movesBatch cd _).spares s.db
    next => exact refl s.db o

/-- Dump cursors are rows of the peers and not of any origin. -/
theorem restartAllDumps (db : Db) (o : Origin) :
    db.SameRows (Narshare.restartAllDumps cfg db) o := by
  rw [Narshare.restartAllDumps]
  induction cfg.peerNames generalizing db with
  | nil => exact refl db o
  | cons peer peers ih =>
      have hone : db.SameRows (db.setDumpCursor peer DUMP_RESTART) o := of_eq rfl rfl rfl rfl
      exact hone.trans (ih _)

end Db.SameRows

-- ================================================================ one update

namespace OwnKept

variable {db db' db'' : Db}

/-- Rows that are the same are kept. -/
theorem of_sameRows (h : db.SameRows db' cfg.selfName) : OwnKept cfg db db' := by
  have hclock : db'.clock cfg.selfName = db.clock cfg.selfName := by
    unfold Db.clock
    rw [h.clocks]
  refine ⟨h.journal, h.hold, h.holdby, ?_, ?_, ?_⟩
  · rw [hclock]
  · rw [hclock]
  · rw [hclock]

/-- What one call keeps and the next one too, both keep. -/
theorem trans (h : OwnKept cfg db db') (h' : OwnKept cfg db' db'') : OwnKept cfg db db'' where
  journal n := (h'.journal n).trans (h.journal n)
  hold x := (h'.hold x).trans (h.hold x)
  holdby x := (h'.holdby x).trans (h.holdby x)
  seq := h'.seq.trans h.seq
  tailSeq := h'.tailSeq.trans h.tailSeq
  generation := h.generation.trans h'.generation

end OwnKept

namespace Framed

variable {db db' db'' : Db}

/-- A call that leaves the own rows and those of unknown origins alone is
framed. -/
theorem of_sameRows (h : ∀ o, o = cfg.selfName ∨ o ∉ cfg.originSet → db.SameRows db' o) :
    Framed cfg db db' where
  own := .of_sameRows (h _ (Or.inl rfl))
  others o ho := h o (Or.inr ho)

/-- Doing nothing is framed. -/
theorem refl (db : Db) : Framed cfg db db := .of_sameRows fun o _ => .refl db o

/-- So are framed calls one after the other, which is what processing a
response comes to. -/
theorem trans (h : Framed cfg db db') (h' : Framed cfg db' db'') : Framed cfg db db'' where
  own := h.own.trans h'.own
  others o ho := (h.others o ho).trans (h'.others o ho)

end Framed

/-- A new generation that is no lower moves our clock row and no other. -/
theorem framed_setGeneration (s : Store) {generation : ℕ}
    (hle : (s.db.clock cfg.selfName).generation ≤ generation) :
    Framed cfg s.db (s.setGeneration cfg.selfName generation).db := by
  have hset := replica_setGeneration s cfg.selfName generation cfg.selfName
  rw [if_pos rfl] at hset
  have hclock : (s.setGeneration cfg.selfName generation).db.clock cfg.selfName
      = { s.db.clock cfg.selfName with generation } := congrArg Replica.clock hset
  refine ⟨⟨fun _ => rfl, fun _ => rfl, fun _ => rfl, ?_, ?_, ?_⟩, fun o ho => ?_⟩
  · rw [hclock]
  · rw [hclock]
  · rw [hclock]
    exact hle
  · refine .setGeneration ?_ s generation
    rintro rfl
    exact ho (Config.mem_originSet.mpr (Or.inl rfl))

/-- A remint above what a peer reports, when that is news. -/
theorem framed_bumpSelfGeneration (s : Store) {floor : ℕ} (nanos : ℕ) (hmax : floor ≤ U64_MAX)
    (hle : (s.db.clock cfg.selfName).generation ≤ floor) :
    Framed cfg s.db (bumpSelfGeneration cfg s floor nanos).2.db := by
  have hrise : floor ≤ remintGeneration floor nanos :=
    (le_min (Nat.le_succ floor) hmax).trans (le_max_right _ _)
  let stamped : Store :=
    { s with db := { s.db with selfGeneration := some (remintGeneration floor nanos) } }
  have hmeta : Framed cfg s.db stamped.db :=
    .of_sameRows fun o _ => .of_eq rfl rfl rfl rfl
  have hset : Framed cfg stamped.db (stamped.setGeneration cfg.selfName _).db :=
    framed_setGeneration stamped (hle.trans hrise)
  exact (hmeta.trans hset).trans (.of_sameRows fun o _ => .restartAllDumps _ o)

/-- An update of any origin. -/
theorem framed_takeUpdate (nanos : ℕ) (s : Store) {up : OriginUpdate}
    (hmax : up.generation ≤ U64_MAX) :
    Framed cfg s.db (takeUpdate cd cfg nanos s up).2.db := by
  rw [takeUpdate]
  by_cases hself : up.origin = cfg.selfName
  · rw [if_pos hself]
    simp only
    split
    next hnews => exact framed_bumpSelfGeneration s nanos hmax (by omega)
    next => exact Framed.refl s.db
  rw [if_neg hself]
  by_cases hknown : cfg.isKnownOrigin up.origin = false
  · rw [if_pos hknown]
    exact Framed.refl s.db
  rw [if_neg hknown]
  have hmem : up.origin ∈ cfg.originSet := by
    rw [Bool.not_eq_false] at hknown
    exact of_decide_eq_true hknown
  have hne : ∀ o, o = cfg.selfName ∨ o ∉ cfg.originSet → up.origin ≠ o := by
    rintro o hout rfl
    exact hout.elim hself fun h => h hmem
  have hok : ¬ (up.origin = cfg.selfName ∨ cfg.isKnownOrigin up.origin = false) := by
    rintro (h | h)
    · exact hself h
    · exact hknown h
  cases up.body with
  | none => exact Framed.refl s.db
  | some body =>
      cases body with
      | upToDate => exact Framed.refl s.db
      | suffix events =>
          simp only [applySuffix, if_neg hok]
          cases readSuffix (s.db.clock up.origin) up.generation events with
          | inl out => exact Framed.refl s.db
          | inr r =>
              refine Framed.of_sameRows fun o ho => ?_
              have hrows := @Db.SameRows.applyEvents cd _ _ (hne o ho) s
                ((s.db.clock up.origin).generation, (s.db.clock up.origin).seq)
                (up.generation, r.seq) r.journal r.holds r.attests
              simp only
              split_ifs
              · exact hrows
              · exact hrows
      | snapshot held =>
          simp only [applySnapshot, if_neg hok]
          exact Framed.of_sameRows fun o ho => .replaceHoldings (hne o ho) s _ _ _

/-- One update of a response, whatever it names. -/
theorem framed_takeWireUpdate (nanos : ℕ) (s : Store) (up : WireUpdate) :
    Framed cfg s.db (takeWireUpdate cd cfg nanos s up).db := by
  rw [takeWireUpdate]
  cases Origin.tryFrom up.origin with
  | none => exact Framed.refl s.db
  | some o => exact framed_takeUpdate nanos s up.u64.1

-- ================================================================ the whole

/-- Parking the cursor touches no origin's rows. -/
theorem framed_parkCursor (peer : Origin) (sent : Bytes) (s : Store) (resp : SyncResponse) :
    Framed cfg s.db (parkCursor cfg peer sent s resp).db := by
  refine Framed.of_sameRows fun o _ => ?_
  rw [parkCursor]
  split
  next =>
    have hpark : s.db.SameRows
        (if resp.next ≠ s.db.dumpCursor peer then s.db.setDumpCursor peer resp.next else s.db)
        o := by
      split
      next => exact .of_eq rfl rfl rfl rfl
      next => exact .refl s.db o
    show s.db.SameRows (ite _ _ _) o
    split
    next => exact hpark.trans (.restartAllDumps _ o)
    next => exact hpark
  next => exact .refl s.db o

/-- The updates one after the other, each from the store the last one
left. -/
theorem framed_foldl (wall : ℕ → ℕ) (ups : List (WireUpdate × ℕ)) (s : Store) :
    Framed cfg s.db
      (ups.foldl (fun s e => takeWireUpdate cd cfg (wall e.2) s e.1) s).db := by
  induction ups generalizing s with
  | nil => exact Framed.refl s.db
  | cons e ups ih => exact (framed_takeWireUpdate (wall e.2) s e.1).trans (ih _)

variable (cd cfg) in
/-- Whatever a response contains, processing it leaves our own holdings,
journal and sequence number, does not lower our generation, and leaves
every row of an origin that the configuration does not name: so it
creates no clock, journal row or holding for one. -/
theorem response_framed (peer : Origin) (sent : Bytes) (wall : ℕ → ℕ) (s : Store)
    (resp : SyncResponse) :
    Framed cfg s.db (takeResponse cd cfg peer sent wall s resp).db := by
  rw [takeResponse]
  split
  next => exact Framed.refl s.db
  next =>
    have hmerged : Framed cfg s.db
        (if resp.attests ≠ [] then (mergeAttests cd s resp.attests).2 else s).db := by
      split
      next => exact Framed.of_sameRows fun o _ => .mergeAttests s resp.attests o
      next => exact Framed.refl s.db
    refine Framed.trans (hmerged.trans (framed_parkCursor peer sent _ resp)) ?_
    exact framed_foldl wall resp.origins.zipIdx _

/-- A peer that knows a future of ours and claims to relay an origin that
nobody configured: the first raises our generation, the second is not
stored. -/
example :
    let own := Origin.ofByte 1
    let peer := Origin.ofByte 2
    let stray := Origin.ofByte 3
    let resp : SyncResponse := ⟨peer.val,
      [⟨own.val, 5, 9, none, false, by decide⟩,
        ⟨stray.val, 5, 9, some (.snapshot [(NarHash.ofByte 7).val]), false, by decide⟩],
      [], false, []⟩
    let db := (takeResponse Codec.plain ⟨own, [peer]⟩ peer [] (fun _ => 4) {} resp).db
    (db.clock own).generation = 6 ∧ (db.clock own).seq = 0 ∧ db.holdings stray = [] := by
  decide +kernel

end Narshare
