/-
The differ of index.rs: the Nix database compared with what the index
already says of us, and the difference exported.

# Two comparisons

Possession is compared hash by hash, and that comparison is exact: after
a run we hold the hashes of the candidates and no others
(`isHeld_syncOwnDb`). Facts are compared by asking whether the store
KNOWS a candidate. `sync_own_db` asks for a row of the candidate's full
store path with all of its signatures (`Store.known`), while the store
keeps one row for each identity, that is for each pair of hash part and
NAR hash.

# What the merge makes of it

Merging takes the signatures of both rows and the greater body, and store
paths weigh first in the body. So a candidate is known after a run as
long as nothing of its identity has a greater store path
(`known_syncOwnDb_iff`); otherwise it is attested again at every run, and
the run after the first is not quiet (`settles_iff_unrivalled`).

Whether a candidate can then be FOUND is another question: the row of its
identity has to be believable. Among rows that all are, any merge is
(`Backed.absorbAll`). What a run over inserted rows alone leaves is
compared with this in Additions.lean.
-/
import Narshare.Index.Export
import Narshare.Index.NixDb
import Narshare.Store.Lookup

namespace Narshare

variable (cd : Codec) (cfg : Config) (keys : TrustedKeys) (dv : Derivers)

-- =============================================================== the differ

/-- Is there a claim of this very path and hash with all of its
signatures? The scan of `sync_own_db`, past one candidate. -/
def Store.known (s : Store) (c : Candidate) : Bool :=
  s.db.att.entries.any fun e =>
    e.2.storePath == c.path && e.2.narHash == c.narHash.val
      && c.sigs.all fun x => e.2.sigs.contains x

/-- The same question in `sync_own_db_incremental`, by identity. -/
def Store.knownAt (s : Store) (c : Candidate) : Bool :=
  (s.db.attestationSigs (hashPartOf c.path) c.narHash.val).any fun sigs =>
    c.sigs.all fun x => sigs.contains x

/-- The attestations of a run, candidate by candidate. -/
def ownAttests (db : NixDb) (known : Candidate → Bool) (cands : List Candidate) :
    List Attestation :=
  cands.filterMap fun c =>
    if c.ca.isNone && c.sigs.isEmpty then none -- nobody could believe it
    else if known c then none
    else if !dv.substitutable c then none
    else
      let a := db.attestation c
      if feasible keys a then some a else none

/-- The hashes of all candidates, each once. -/
def ownHashes (cands : List Candidate) : List NarHash :=
  sortDedup (cands.map Candidate.narHash)

/-- The possession changes of a run: the two set differences. The sets
are hash sets, so the code meets them in some other order. -/
def ownHolds (s : Store) (cands : List Candidate) : List HoldOp :=
  ((ownHashes cands).filter fun h => decide (h ∉ s.db.holdings cfg.selfName)).map HoldOp.add
    ++ ((s.db.holdings cfg.selfName).filter fun h => decide (h ∉ ownHashes cands)).map
      HoldOp.drop

/-- `sync_own_db`: how many events were emitted. -/
def syncOwnDb (s : Store) (db : NixDb) : Except IndexError ℕ × Store :=
  let attests := ownAttests keys dv db s.known db.candidates
  let holds := ownHolds cfg s db.candidates
  if attests = [] ∧ holds = [] then (.ok 0, s)
  else exportOps cd cfg s attests holds

/-- `Index::lookup_hash_part`: feasibility is asked again at use. -/
def lookupFeasible (s : Store) (hashPart : Bytes) : List (Attestation × List Origin) :=
  (s.db.lookupHashPart hashPart).filter fun e => feasible keys e.1

/-- The identity a candidate's fact has. -/
def Candidate.pathKey (c : Candidate) : Bytes := hashPartOf c.path ++ c.narHash.val

@[simp] theorem NixDb.pathKeyOf_attestation (db : NixDb) (c : Candidate) :
    pathKeyOf (db.attestation c) = c.pathKey := rfl

/-- The candidates a run has to attest unless they are known: their
deriver allows it, and they can be believed. -/
structure Exportable (db : NixDb) (c : Candidate) : Prop where
  candidate : c ∈ db.candidates
  substitutable : dv.substitutable c = true
  feasible : feasible keys (db.attestation c) = true

variable {cd cfg keys dv} {s : Store} {db : NixDb} {t : FactTable} {c : Candidate}

-- ============================================================ what it emits

/-- A believable candidate has a content address or a signature. -/
theorem Exportable.reason (h : Exportable keys dv db c) :
    (c.ca.isNone && c.sigs.isEmpty) = false := by
  have hwf := wellFormed_of_feasible h.feasible
  simp only [wellFormed, NixDb.attestation, Bool.and_eq_true, Bool.or_eq_true] at hwf
  obtain ⟨-, hca | hsigs⟩ := hwf
  · cases hc : c.ca with
    | none =>
        rw [hc] at hca
        cases hca
    | some x => rfl
  · rw [Bool.not_eq_true'] at hsigs
    rw [hsigs, Bool.and_false]

/-- What the loop over some of the candidates attests: those that are
exportable and not known. -/
theorem mem_ownAttests_of_subset {known : Candidate → Bool} {cands : List Candidate}
    (hsub : ∀ c ∈ cands, c ∈ db.candidates) {a : Attestation} :
    a ∈ ownAttests keys dv db known cands
      ↔ ∃ c ∈ cands, Exportable keys dv db c ∧ known c = false ∧ db.attestation c = a := by
  rw [ownAttests, List.mem_filterMap]
  constructor
  · rintro ⟨c, hc, ha⟩
    split at ha
    next => cases ha
    split at ha
    next => cases ha
    next hk =>
      split at ha
      next => cases ha
      next hsubst =>
        simp only at ha
        split at ha
        next hf =>
          cases ha
          exact ⟨c, hc, ⟨hsub c hc, by simpa using hsubst, hf⟩, by simpa using hk, rfl⟩
        next => cases ha
  · rintro ⟨c, hc, hexp, hk, rfl⟩
    refine ⟨c, hc, ?_⟩
    rw [hexp.reason, hk, hexp.substitutable]
    simp only [Bool.false_eq_true, if_false, Bool.not_true, hexp.feasible, if_true]

/-- What a run attests: the exportable candidates it does not know. -/
theorem mem_ownAttests {known : Candidate → Bool} {a : Attestation} :
    a ∈ ownAttests keys dv db known db.candidates
      ↔ ∃ c, Exportable keys dv db c ∧ known c = false ∧ db.attestation c = a := by
  rw [mem_ownAttests_of_subset fun _ hc => hc]
  constructor
  · rintro ⟨c, -, hc⟩
    exact ⟨c, hc⟩
  · rintro ⟨c, hc, hrest⟩
    exact ⟨c, hc.candidate, hc, hrest⟩

/-- It attests nothing when it knows every exportable candidate. -/
theorem ownAttests_eq_nil_iff {known : Candidate → Bool} :
    ownAttests keys dv db known db.candidates = []
      ↔ ∀ c, Exportable keys dv db c → known c = true := by
  rw [List.eq_nil_iff_forall_not_mem]
  constructor
  · intro hnone c hc
    rw [← Bool.not_eq_false]
    exact fun hk => hnone _ (mem_ownAttests.mpr ⟨c, hc, hk, rfl⟩)
  · intro hall a ha
    obtain ⟨c, hc, hk, -⟩ := mem_ownAttests.mp ha
    rw [hall c hc] at hk
    cases hk

theorem mem_ownHashes {cands : List Candidate} {h : NarHash} :
    h ∈ ownHashes cands ↔ ∃ c ∈ cands, c.narHash = h := by
  rw [ownHashes, mem_sortDedup, List.mem_map]

variable (cfg s) in
theorem add_mem_ownHolds (cands : List Candidate) (h : NarHash) :
    HoldOp.add h ∈ ownHolds cfg s cands
      ↔ h ∈ ownHashes cands ∧ s.db.isHeld cfg.selfName h = false := by
  simp [ownHolds, mem_holdings]

variable (cfg s) in
theorem drop_mem_ownHolds (cands : List Candidate) (h : NarHash) :
    HoldOp.drop h ∈ ownHolds cfg s cands
      ↔ s.db.isHeld cfg.selfName h = true ∧ h ∉ ownHashes cands := by
  simp [ownHolds, mem_holdings]

variable (cd cfg keys dv) in
/-- A run exports all it found, and says how much that was. -/
theorem syncOwnDb_exported (s : Store) (db : NixDb) :
    (syncOwnDb cd cfg keys dv s db).1
        = .ok ((ownAttests keys dv db s.known db.candidates).length
          + (ownHolds cfg s db.candidates).length)
      ∧ Exported cd cfg s (exportList (ownAttests keys dv db s.known db.candidates)
          (ownHolds cfg s db.candidates)) (syncOwnDb cd cfg keys dv s db).2 := by
  rw [syncOwnDb]
  split
  next hnil =>
    obtain ⟨hatts, hholds⟩ := hnil
    rw [hatts, hholds]
    exact ⟨rfl, .refl⟩
  next => exact exportOps_exported cd cfg s _ _

variable (cd cfg keys dv) in
/-- After a run our holdings are the hashes of the candidates. -/
theorem isHeld_syncOwnDb (s : Store) (db : NixDb) (h : NarHash) :
    (syncOwnDb cd cfg keys dv s db).2.db.isHeld cfg.selfName h = true
      ↔ ∃ c ∈ db.candidates, c.narHash = h := by
  rw [(syncOwnDb_exported cd cfg keys dv s db).2.held, ExportOp.holds_exportList, ← mem_ownHashes]
  have hadd := add_mem_ownHolds cfg s db.candidates h
  have hdrop := drop_mem_ownHolds cfg s db.candidates h
  by_cases hown : h ∈ ownHashes db.candidates
  · refine iff_of_true (possess_eq_true ?_ fun hm => (hdrop.mp hm).2 hown) hown
    cases hheld : s.db.isHeld cfg.selfName h with
    | true => exact Or.inl rfl
    | false => exact Or.inr (hadd.mpr ⟨hown, hheld⟩)
  · have hgone : possess (ownHolds cfg s db.candidates) h (s.db.isHeld cfg.selfName h)
        = false := by
      refine possess_eq_false ?_ fun hm => hown (hadd.mp hm).1
      cases hheld : s.db.isHeld cfg.selfName h with
      | true => exact Or.inr (hdrop.mpr ⟨hheld, hown⟩)
      | false => exact Or.inl rfl
    rw [hgone]
    exact iff_of_false Bool.false_ne_true hown

/-- A run over a store whose holdings are right has no possession change
to make. -/
theorem ownHolds_eq_nil
    (h : ∀ k, s.db.isHeld cfg.selfName k = true ↔ ∃ c ∈ db.candidates, c.narHash = k) :
    ownHolds cfg s db.candidates = [] := by
  rw [List.eq_nil_iff_forall_not_mem]
  intro op hop
  cases op with
  | add k =>
      obtain ⟨hown, hheld⟩ := (add_mem_ownHolds ..).mp hop
      rw [(h k).mpr (mem_ownHashes.mp hown)] at hheld
      cases hheld
  | drop k =>
      obtain ⟨hheld, hown⟩ := (drop_mem_ownHolds ..).mp hop
      exact hown (mem_ownHashes.mpr ((h k).mp hheld))

/-- A run is quiet when it has nothing to attest and nothing to change. -/
theorem syncOwnDb_quiet_iff (s : Store) (db : NixDb) :
    (syncOwnDb cd cfg keys dv s db).1 = .ok 0
      ↔ ownAttests keys dv db s.known db.candidates = []
        ∧ ownHolds cfg s db.candidates = [] := by
  rw [(syncOwnDb_exported cd cfg keys dv s db).1, Except.ok.injEq, Nat.add_eq_zero_iff,
    List.length_eq_zero_iff, List.length_eq_zero_iff]

-- ============================================================ what it knows

/-- A candidate is known when the row of its identity has its path and
its signatures. -/
theorem known_iff (h : Rep cd s.db t) :
    s.known c = true ↔ ∃ r, t.rows.get c.pathKey = some r ∧ r.storePath = c.path
      ∧ ∀ x ∈ c.sigs, x ∈ r.sigs := by
  simp only [Store.known, List.any_eq_true, Bool.and_eq_true, beq_iff_eq, List.all_eq_true,
    List.contains_iff_mem]
  constructor
  · rintro ⟨⟨k, r⟩, hmem, ⟨hpath, hnar⟩, hsigs⟩
    have hrow := ((h.att k r).mp (OrdMap.mem_entries.mp hmem)).1
    rw [pathKeyOf, hpath, hnar] at hrow
    exact ⟨r, hrow, hpath, hsigs⟩
  · rintro ⟨r, hrow, hpath, hsigs⟩
    have hok := t.ok _ _ hrow
    have hkey := hok.key
    rw [pathKeyOf, hpath, Candidate.pathKey] at hkey
    rw [← hok.key] at hrow
    exact ⟨(_, r), OrdMap.mem_entries.mpr ((h.att _ r).mpr ⟨hrow, rfl⟩),
      ⟨hpath, List.append_cancel_left hkey⟩, hsigs⟩

/-- All that the candidates of a database would attest. -/
def NixDb.attestations (db : NixDb) : List Attestation := db.candidates.map db.attestation

theorem attestation_mem_attestations (h : c ∈ db.candidates) :
    db.attestation c ∈ db.attestations :=
  List.mem_map_of_mem h

variable (cfg keys dv) in
/-- A run absorbs what it attests. -/
theorem Rep.syncOwnDb (h : Rep cd s.db t) (hcf : CollisionFree cd (s.rows ++ db.attestations)) :
    Rep cd (syncOwnDb cd cfg keys dv s db).2.db
      (t.absorbAll (ownAttests keys dv db s.known db.candidates)) := by
  have hout := (syncOwnDb_exported cd cfg keys dv s db).2.facts
    h hcf
  rw [ExportOp.attests_exportList] at hout
  refine hout (fun pk a ha => Stems.of_mem (List.mem_append_left _ ?_))
    fun a ha => Stems.of_mem (List.mem_append_right _ ?_)
  · exact Store.mem_rows.mpr (h.holdsRow_iff.mpr ((t.ok _ _ ha).key.symm ▸ ha))
  · obtain ⟨c, hc, -, rfl⟩ := mem_ownAttests.mp ha
    exact attestation_mem_attestations hc.candidate

/-- After a run an exportable candidate's identity has a row that is not
less than it in path, and has its signatures. -/
theorem Exportable.row (hc : Exportable keys dv db c) (h : Rep cd s.db t) :
    ∃ r, (t.absorbAll (ownAttests keys dv db s.known db.candidates)).rows.get c.pathKey = some r
      ∧ c.path ≤ r.storePath ∧ ∀ x ∈ c.sigs, x ∈ r.sigs := by
  cases hk : s.known c with
  | true =>
      obtain ⟨e, he, hpath, hsigs⟩ := (known_iff h).mp hk
      obtain ⟨r, hr, hle⟩ := FactTable.exists_row_of_row he
        (ownAttests keys dv db s.known db.candidates)
      exact ⟨r, hr, hpath ▸ storePath_le_of_bodyOf_le hle.1,
        fun x hx => sigs_subset_of_factOf_le hle x (hsigs x hx)⟩
  | false =>
      have hmem := mem_ownAttests.mpr ⟨c, hc, hk, rfl⟩
      obtain ⟨r, hr, hle⟩ := FactTable.exists_row_of_mem (t := t) hmem c.narHash.property rfl
      exact ⟨r, hr, storePath_le_of_bodyOf_le hle.1, sigs_subset_of_factOf_le hle⟩

/-- By identity the question is about the signatures alone. -/
theorem knownAt_iff (h : Rep cd s.db t) :
    s.knownAt c = true ↔ ∃ r, t.rows.get c.pathKey = some r ∧ ∀ x ∈ c.sigs, x ∈ r.sigs := by
  have hread : s.db.attestationSigs (hashPartOf c.path) c.narHash.val
      = (t.rows.get c.pathKey).map Attestation.sigs := by
    rw [Db.attestationSigs, ← h.attAt, Option.map_bind]
    rfl
  rw [Store.knownAt, hread]
  cases t.rows.get c.pathKey with
  | none => simp
  | some r => simp

variable (keys dv) in
/-- Nothing of an exportable candidate's identity has a greater store
path: no stored fact, and no other exportable candidate. -/
def Unrivalled (s : Store) (db : NixDb) : Prop :=
  ∀ c, Exportable keys dv db c →
    (∀ e, s.holdsRow e → pathKeyOf e = c.pathKey → e.storePath ≤ c.path)
      ∧ ∀ c', Exportable keys dv db c' → c'.pathKey = c.pathKey → c'.path ≤ c.path

variable (cfg) in
/-- After a run the exportable candidates are all known exactly when none
had a rival. -/
theorem known_syncOwnDb_iff (h : Rep cd s.db t)
    (hcf : CollisionFree cd (s.rows ++ db.attestations)) :
    (∀ c, Exportable keys dv db c → (syncOwnDb cd cfg keys dv s db).2.known c = true)
      ↔ Unrivalled keys dv s db := by
  have hrep := h.syncOwnDb cfg keys dv hcf
  constructor
  · intro hall c hc
    obtain ⟨r, hr, hpath, -⟩ := (known_iff hrep).mp (hall c hc)
    constructor
    · intro e he hk
      have hrow := h.holdsRow_iff.mp he
      rw [hk] at hrow
      obtain ⟨r', hr', hle⟩ := FactTable.exists_row_of_row hrow
        (ownAttests keys dv db s.known db.candidates)
      rw [hr] at hr'
      cases hr'
      exact hpath ▸ storePath_le_of_bodyOf_le hle.1
    · intro c' hc' hk
      obtain ⟨r', hr', hle, -⟩ := hc'.row h
      rw [hk, hr] at hr'
      cases hr'
      exact hpath ▸ hle
  · intro hun c hc
    obtain ⟨r, hr, hle, hsigs⟩ := hc.row h
    refine (known_iff hrep).mpr ⟨r, hr, le_antisymm ?_ hle, hsigs⟩
    -- the row's path is that of something stored, or of something just attested
    rcases FactTable.body_of_row_absorbAll hr with ⟨e, he, hbody⟩ | ⟨a, ha, hk, hbody⟩
    · have hkey := (t.ok _ _ he).key
      rw [← hkey] at he
      exact (storePath_le_of_bodyOf_le hbody.ge).trans
        ((hun c hc).1 e (h.holdsRow_iff.mpr he) hkey)
    · obtain ⟨c', hc', -, rfl⟩ := mem_ownAttests.mp ha
      exact (storePath_le_of_bodyOf_le hbody.ge).trans ((hun c hc).2 c' hc' hk)

variable (cd cfg keys dv) in
/-- The differ has settled after one run: the holdings are the hashes of
the candidates, and a second run has nothing to say. -/
structure Settles (s : Store) (db : NixDb) : Prop where
  runs : ∃ n, (syncOwnDb cd cfg keys dv s db).1 = .ok n
  holdings : ∀ h, (syncOwnDb cd cfg keys dv s db).2.db.isHeld cfg.selfName h = true
    ↔ ∃ c ∈ db.candidates, c.narHash = h
  quiet : (syncOwnDb cd cfg keys dv (syncOwnDb cd cfg keys dv s db).2 db).1 = .ok 0

/-- One run makes the holdings right in any store, and settles the differ
exactly when no exportable candidate has a rival. -/
theorem settles_iff_unrivalled (cfg : Config) (keys : TrustedKeys) (dv : Derivers) {m : Machine}
    (hm : (storeSystem cd).Reach m) (db : NixDb)
    (hcf : CollisionFree cd (m.store.rows ++ db.attestations)) :
    (Settles cd cfg keys dv m.store db ↔ Unrivalled keys dv m.store db)
      ∧ ∀ h, (syncOwnDb cd cfg keys dv m.store db).2.db.isHeld cfg.selfName h = true
        ↔ ∃ c ∈ db.candidates, c.narHash = h := by
  obtain ⟨t, hinv⟩ := Machine.Inv.reach hm
  have hrep := hinv.rep
  have hholds := isHeld_syncOwnDb cd cfg keys dv m.store db
  refine ⟨?_, hholds⟩
  rw [← known_syncOwnDb_iff cfg hrep hcf]
  constructor
  · intro hs
    exact ownAttests_eq_nil_iff.mp ((syncOwnDb_quiet_iff _ _).mp hs.quiet).1
  · intro hall
    exact ⟨⟨_, (syncOwnDb_exported cd cfg keys dv m.store db).1⟩, hholds,
      (syncOwnDb_quiet_iff _ _).mpr ⟨ownAttests_eq_nil_iff.mpr hall, ownHolds_eq_nil hholds⟩⟩

/-- A node without peers. -/
def Config.alone : Config := ⟨Origin.ofByte 1, []⟩

/-- No verdict remembered, and no deriver to read. -/
def Derivers.silent : Derivers := ⟨∅, fun _ => none⟩

/-- The row whose attestation is `addressed b`. -/
def ValidPath.addressed (b : UInt8) : ValidPath where
  id := 1
  path := (Narshare.addressed b).storePath
  hash := ascii "sha256:" ++ hexEncode (NarHash.ofByte 5).val
  narSize := some 1
  deriver := none
  sigs := none
  ca := some [1]

/-- A store that has merged one attestation. -/
def mergeOf (a : Attestation) : List Machine.Act :=
  [.call 0 (.mergeAttestations [a]), .read 0, .commit 0, .fold 0]

/-- A first export settles beside a peer's fact of another path. -/
theorem settles_beside_another : ∃ m : Machine, m.store.rows = [addressed 66]
    ∧ (syncOwnDb Codec.plain .alone .none .silent m.store
        (.single (.addressed 65))).1.toOption = some 2
    ∧ Settles Codec.plain .alone .none .silent m.store
        (.single (.addressed 65)) := by
  have hrun : ((storeSystem Codec.plain).run {} (mergeOf (addressed 66))).map (fun m =>
      decide (m.store.rows = [addressed 66]
        ∧ (syncOwnDb Codec.plain .alone .none .silent m.store
            (.single (.addressed 65))).1.toOption = some 2
        ∧ ∀ c ∈ (NixDb.single (.addressed 65)).candidates,
          (∀ e ∈ m.store.rows, pathKeyOf e = c.pathKey → e.storePath ≤ c.path)
            ∧ ∀ c' ∈ (NixDb.single (.addressed 65)).candidates,
              c'.pathKey = c.pathKey → c'.path ≤ c.path)) = some true := by
    decide +kernel
  obtain ⟨m, hm, hdone⟩ := Option.map_eq_some_iff.mp hrun
  obtain ⟨hrows, hemits, hun⟩ := of_decide_eq_true hdone
  have hcf : CollisionFree Codec.plain
      (m.store.rows ++ (NixDb.single (.addressed 65)).attestations) := by
    rw [hrows, show (NixDb.single (.addressed 65)).attestations = [addressed 65] by
      decide +kernel]
    exact collisionFree_unsigned (by decide) (by decide +kernel)
  refine ⟨m, hrows, hemits, ?_⟩
  refine (settles_iff_unrivalled .alone .none .silent
    ((System.Reach.start rfl).run hm) (.single (.addressed 65)) hcf).1.mpr ?_
  intro c hc
  obtain ⟨hstored, hothers⟩ := hun c hc.candidate
  exact ⟨fun e he => hstored e (Store.mem_rows.mpr he), fun c' hc' => hothers c' hc'.candidate⟩

/-- The fact of a peer that has the same content under a longer name. -/
def rival : Attestation :=
  { addressed 65 with storePath := (addressed 65).storePath ++ ascii "-b" }

/-- The peer's name wins, so we attest our own again at the second run:
it is never what the store keeps. -/
theorem rival_name_emits_again : ¬ ∀ (keys : TrustedKeys) (dv : Derivers) (m : Machine)
    (db : NixDb), (storeSystem Codec.plain).Reach m → m.tasks = ∅ →
      (∀ a ∈ m.taken, wellFormed a = true) →
      CollisionFree Codec.plain (m.store.rows ++ db.attestations) →
        Settles Codec.plain .alone keys dv m.store db := by
  intro hall
  have hrun : ((storeSystem Codec.plain).run {} (mergeOf rival)).map (fun m =>
      decide ((m.tasks = ∅ ∧ m.store.rows = [rival] ∧ ∀ a ∈ m.taken, wellFormed a = true)
        ∧ (syncOwnDb Codec.plain .alone .none .silent
            (syncOwnDb Codec.plain .alone .none .silent m.store
              (.single (.addressed 65))).2 (.single (.addressed 65))).1.toOption = some 1))
      = some true := by
    decide +kernel
  obtain ⟨m, hm, hdone⟩ := Option.map_eq_some_iff.mp hrun
  obtain ⟨⟨hidle, hrows, hwf⟩, hagain⟩ := of_decide_eq_true hdone
  have hcf : CollisionFree Codec.plain
      (m.store.rows ++ (NixDb.single (.addressed 65)).attestations) := by
    rw [hrows, show (NixDb.single (.addressed 65)).attestations = [addressed 65] by
      decide +kernel]
    exact collisionFree_unsigned (by decide) (by decide +kernel)
  have hquiet := (hall .none .silent m (.single (.addressed 65))
    ((System.Reach.start rfl).run hm) hidle hwf hcf).quiet
  rw [hquiet] at hagain
  cases hagain

-- =============================================================== being found

/-- A merged row has the body of one of the two, with its signatures: of
the incoming one unless that is the lesser. -/
theorem feasible_merged_incoming {r b : Attestation} (hb : feasible keys b = true)
    (hnar : r.narHash = b.narHash) (hle : bodyOf r ≤ bodyOf b) :
    feasible keys (merged r b) = true := by
  have hfact := factOf_merged r b
  have hbody : bodyOf (merged r b) = bodyOf r ⊔ bodyOf b := congrArg Prod.fst hfact
  refine feasible_of_body hb ?_ ?_ (sigs_subset_of_factOf_le (hfact ▸ le_sup_right))
  · rw [merged_narHash, hnar]
  · rw [hbody, sup_eq_right.mpr hle]

/-- Else of the row in place. -/
theorem feasible_merged_existing {r b : Attestation} (hr : feasible keys r = true)
    (hlt : bodyOf b < bodyOf r) : feasible keys (merged r b) = true := by
  have hfact := factOf_merged r b
  have hbody : bodyOf (merged r b) = bodyOf r ⊔ bodyOf b := congrArg Prod.fst hfact
  refine feasible_of_body hr ?_ ?_ (sigs_subset_of_factOf_le (hfact ▸ le_sup_left))
  · rw [merged_narHash]
  · rw [hbody, sup_eq_left.mpr hlt.le]

variable (keys) in
/-- An identity whose row is believable, or is outranked by something in
the list. -/
def Backed (t : FactTable) (l : List Attestation) (k : Bytes) : Prop :=
  (∃ r, t.rows.get k = some r ∧ feasible keys r = true)
    ∨ ∃ a ∈ l, pathKeyOf a = k ∧ ∀ r, t.rows.get k = some r → bodyOf r ≤ bodyOf a

/-- Taking in the first of a list of believable attestations leaves the
identity backed by the rest. -/
theorem Backed.absorbOne {a : Attestation} {l : List Attestation} {k : Bytes}
    (ha : feasible keys a = true) (h : Backed keys t (a :: l) k) :
    Backed keys (t.absorbOne a) l k := by
  have hlen := wellFormed_narHash (wellFormed_of_feasible ha)
  have hget : (t.absorbOne a).rows.get k = if k = pathKeyOf a then
      some (FactTable.mergedRow (t.rows.get k) a) else t.rows.get k := by
    rw [FactTable.absorbOne, dif_pos hlen, FactTable.put, OrdMap.get_put]
    split
    next he => rw [he]
    next => rfl
  unfold Backed
  rw [hget]
  by_cases hk : k = pathKeyOf a
  swap
  · rw [if_neg hk]
    refine h.imp id ?_
    rintro ⟨b, hb, hkb, hmax⟩
    rcases List.mem_cons.mp hb with rfl | hb
    · exact absurd hkb.symm hk
    · exact ⟨b, hb, hkb, hmax⟩
  rw [if_pos hk]
  cases hg : t.rows.get k with
  | none =>
      refine Or.inl ⟨canonicalize a, rfl, feasible_of_body ha rfl rfl fun s hs => ?_⟩
      exact mem_canonicalize_sigs.mpr hs
  | some r =>
      have hok := t.ok _ _ hg
      have hnar : r.narHash = a.narHash := (pathKeyOf_inj hok.nar hlen (hok.key.trans hk)).2
      show (∃ r', some (merged r a) = some r' ∧ _) ∨ _
      rcases le_or_gt (bodyOf r) (bodyOf a) with hle | hgt
      · exact Or.inl ⟨_, rfl, feasible_merged_incoming ha hnar hle⟩
      · rcases h with ⟨r', hr', hf⟩ | ⟨b, hb, hkb, hmax⟩
        · rw [hg] at hr'
          cases hr'
          exact Or.inl ⟨_, rfl, feasible_merged_existing hf hgt⟩
        · have hmaxr := hmax r hg
          rcases List.mem_cons.mp hb with rfl | hb
          · exact absurd hmaxr hgt.not_ge
          · refine Or.inr ⟨b, hb, hkb, fun r' hr' => ?_⟩
            cases hr'
            have hbody : bodyOf (merged r a) = bodyOf r ⊔ bodyOf a :=
              congrArg Prod.fst (factOf_merged r a)
            show bodyOf (merged r a) ≤ _
            rw [hbody, sup_eq_left.mpr hgt.le]
            exact hmaxr

/-- Once all of the list is in, the row of a backed identity is
believable. -/
theorem Backed.absorbAll {l : List Attestation} (hl : ∀ a ∈ l, feasible keys a = true)
    {k : Bytes} (h : Backed keys t l k) :
    ∃ r, (t.absorbAll l).rows.get k = some r ∧ feasible keys r = true := by
  induction l generalizing t with
  | nil =>
      rcases h with h | ⟨a, ha, -⟩
      · exact h
      · cases ha
  | cons a l ih =>
      exact ih (fun b hb => hl b (List.mem_cons_of_mem _ hb))
        (h.absorbOne (hl a List.mem_cons_self))

/-- What an idle store finds under a hash part, when the attestations
merged so far have one. -/
theorem Rep.mem_lookupFeasible (h : Rep cd s.db t) (hm : s.db.Mirrored)
    (hfull : ∀ pk a, t.rows.get pk = some a → (hashPartOf a.storePath).length = 32)
    {r : Attestation} {k : Bytes} (hr : t.rows.get k = some r) (hf : feasible keys r = true)
    {o : Origin} {narHash : NarHash} (hnar : r.narHash = narHash.val)
    (ho : s.db.isHeld o narHash = true) :
    ∃ found ∈ lookupFeasible keys s (hashPartOf r.storePath), found.1 = r ∧ o ∈ found.2 := by
  have hexact := h.foundExactly_hashPart hm hfull (hfull k r hr)
  have hholders := holdersOf_spec hm narHash
  have hself : o ∈ s.db.holdersOf narHash := (hholders.mem o).mpr ho
  refine ⟨(r, s.db.holdersOf narHash), List.mem_filter.mpr ⟨?_, hf⟩, rfl, hself⟩
  refine (hexact.mem r _).mpr ⟨⟨(t.ok _ _ hr).key.symm ▸ hr, rfl⟩, narHash, hnar.symm, hholders, ?_⟩
  exact List.ne_nil_of_mem hself

/-- What backs an exportable candidate: the stored fact of its identity
when that is believable, else the candidate's own attestation. -/
theorem Exportable.backed (hc : Exportable keys dv db c) (h : Rep cd s.db t)
    (hplain : ∀ e, s.holdsRow e → pathKeyOf e = c.pathKey → Narshare.feasible keys e = true
      ∨ (bodyOf e ≤ bodyOf (db.attestation c) ∧ s.known c = false)) :
    Backed keys t (ownAttests keys dv db s.known db.candidates) c.pathKey := by
  have hstored : ∀ e, t.rows.get c.pathKey = some e → Narshare.feasible keys e = true
      ∨ (bodyOf e ≤ bodyOf (db.attestation c) ∧ s.known c = false) := by
    intro e he
    have hkey := (t.ok _ _ he).key
    exact hplain e (h.holdsRow_iff.mpr (hkey.symm ▸ he)) hkey
  by_cases hbelieved : ∃ e, t.rows.get c.pathKey = some e ∧ Narshare.feasible keys e = true
  · exact Or.inl hbelieved
  · have hlow : ∀ e, t.rows.get c.pathKey = some e →
        bodyOf e ≤ bodyOf (db.attestation c) ∧ s.known c = false := fun e he =>
      (hstored e he).resolve_left fun hf => hbelieved ⟨e, he, hf⟩
    have hk : s.known c = false := by
      rw [← Bool.not_eq_true]
      intro hk
      obtain ⟨e, he, -, -⟩ := (known_iff h).mp hk
      rw [(hlow e he).2] at hk
      cases hk
    exact Or.inr ⟨_, mem_ownAttests.mpr ⟨c, hc, hk, rfl⟩, rfl, fun e he => (hlow e he).1⟩

/-- After a run, an exportable candidate is found under its hash part by
a believable fact of its NAR hash, with us among the holders: whenever
the fact its identity already had, if any, is believable, or has a body
no greater than the candidate's and does not pass for it. -/
theorem exportable_found (cfg : Config) {keys : TrustedKeys} {dv : Derivers} {m : Machine}
    (hm : (storeSystem cd).Reach m) (hwf : ∀ a ∈ m.taken, wellFormed a = true) {db : NixDb}
    (hcf : CollisionFree cd (m.store.rows ++ db.attestations)) {c : Candidate}
    (hc : Exportable keys dv db c)
    (hplain : ∀ e, m.store.holdsRow e → pathKeyOf e = c.pathKey → feasible keys e = true
      ∨ (bodyOf e ≤ bodyOf (db.attestation c) ∧ m.store.known c = false)) :
    ∃ found ∈ lookupFeasible keys (syncOwnDb cd cfg keys dv m.store db).2 (hashPartOf c.path),
      feasible keys found.1 = true ∧ found.1.narHash = c.narHash.val
        ∧ cfg.selfName ∈ found.2 := by
  obtain ⟨t, hinv⟩ := Machine.Inv.reach hm
  have hrep := hinv.rep.syncOwnDb cfg keys dv hcf
  have hmir := (syncOwnDb_exported cd cfg keys dv m.store db).2.mirrored hinv.mirrored
  have hatts : ∀ a ∈ ownAttests keys dv db m.store.known db.candidates,
      feasible keys a = true := by
    intro a ha
    obtain ⟨c', hc', -, rfl⟩ := mem_ownAttests.mp ha
    exact hc'.feasible
  have hfull : ∀ pk a, (t.absorbAll (ownAttests keys dv db m.store.known
      db.candidates)).rows.get pk = some a → (hashPartOf a.storePath).length = 32 := by
    intro pk a ha
    have hstems : Stems (m.taken ++ ownAttests keys dv db m.store.known db.candidates) a :=
      FactTable.stems_absorbAll
        (fun k e he => (hinv.stems k e he).mono fun _ => List.mem_append_left _)
        (fun b hb => Stems.of_mem (List.mem_append_right _ hb)) ha
    refine hashPart_of_stems hstems fun b hb => ?_
    rcases List.mem_append.mp hb with hb | hb
    · exact hwf b hb
    · exact wellFormed_of_feasible (hatts b hb)
  obtain ⟨r, hr, hf⟩ := Backed.absorbAll hatts (hc.backed hinv.rep hplain)
  have hok := (t.absorbAll _).ok _ _ hr
  obtain ⟨hpart, hnar⟩ := pathKeyOf_inj (b := db.attestation c) hok.nar c.narHash.property
    (hok.key.trans (NixDb.pathKeyOf_attestation db c).symm)
  have hheld := (isHeld_syncOwnDb cd cfg keys dv m.store db c.narHash).mpr ⟨c, hc.candidate, rfl⟩
  obtain ⟨found, hfound, rfl, hself⟩ := hrep.mem_lookupFeasible hmir hfull hr hf hnar hheld
  refine ⟨found, ?_, hf, hnar, hself⟩
  rw [show hashPartOf c.path = hashPartOf found.1.storePath from hpart.symm]
  exact hfound

/-- A peer has attested our path at another size, content-addressed too:
its fact passes for ours, and is found in its place. -/
theorem exportable_found_beside : ∃ (m : Machine) (c : Candidate),
    m.store.rows = [{ addressed 65 with narSize := 0 }] ∧ c.path = (addressed 65).storePath
    ∧ ∃ found ∈ lookupFeasible .none (syncOwnDb Codec.plain .alone .none
          .silent m.store (.single (.addressed 65))).2 (hashPartOf c.path),
        feasible .none found.1 = true ∧ found.1.narHash = c.narHash.val
          ∧ Origin.ofByte 1 ∈ found.2 := by
  have hrun : ((storeSystem Codec.plain).run {}
        (mergeOf { addressed 65 with narSize := 0 })).map (fun m =>
      decide ((m.store.rows = [{ addressed 65 with narSize := 0 }]
          ∧ ∀ a ∈ m.taken, wellFormed a = true)
        ∧ (∀ e ∈ m.store.rows, feasible .none e = true))) = some true := by
    decide +kernel
  have hcand : ∃ c ∈ (NixDb.single (.addressed 65)).candidates,
      c.path = (addressed 65).storePath ∧ Derivers.silent.substitutable c = true
        ∧ feasible .none ((NixDb.single (.addressed 65)).attestation c) = true := by
    decide +kernel
  obtain ⟨m, hm, hdone⟩ := Option.map_eq_some_iff.mp hrun
  obtain ⟨⟨hrows, hwf⟩, hbelieved⟩ := of_decide_eq_true hdone
  obtain ⟨c, hc, hpath, hsub, hf⟩ := hcand
  have hcf : CollisionFree Codec.plain
      (m.store.rows ++ (NixDb.single (.addressed 65)).attestations) := by
    rw [hrows, show (NixDb.single (.addressed 65)).attestations = [addressed 65] by
      decide +kernel]
    exact collisionFree_unsigned (by decide) (by decide +kernel)
  refine ⟨m, c, hrows, hpath, ?_⟩
  exact exportable_found .alone ((System.Reach.start rfl).run hm) hwf hcf
    ⟨hc, hsub, hf⟩ fun e he _ => Or.inl (hbelieved e (Store.mem_rows.mpr he))

/-- The same row with a signature. -/
def ValidPath.cosigned : ValidPath := { ValidPath.addressed 65 with sigs := some (ascii "k:x") }

/-- A peer's body of the same path is greater, and signed by a key we do
not trust: our content address goes under with our body, and nothing
believable is left to find. -/
theorem losing_body_hidden : ¬ ∀ (keys : TrustedKeys) (dv : Derivers) (m : Machine)
    (db : NixDb), (storeSystem Codec.plain).Reach m → m.tasks = ∅ →
      (∀ a ∈ m.taken, wellFormed a = true) → ∀ c, Exportable keys dv db c →
        ∃ found ∈ lookupFeasible keys (syncOwnDb Codec.plain .alone keys dv
            m.store db).2 (hashPartOf c.path),
          feasible keys found.1 = true ∧ found.1.narHash = c.narHash.val
            ∧ Origin.ofByte 1 ∈ found.2 := by
  intro hall
  have hrun : ((storeSystem Codec.plain).run {}
        (mergeOf { Attestation.ofBytes 65 5 [[9]] with narSize := 2 })).map (fun m =>
      decide ((m.tasks = ∅ ∧ ∀ a ∈ m.taken, wellFormed a = true)
        ∧ ∃ c ∈ (NixDb.single .cosigned).candidates,
          (Derivers.silent.substitutable c = true
            ∧ feasible .none ((NixDb.single .cosigned).attestation c) = true)
          ∧ lookupFeasible .none (syncOwnDb Codec.plain .alone .none
              .silent m.store (.single .cosigned)).2 (hashPartOf c.path) = [])) = some true := by
    decide +kernel
  obtain ⟨m, hm, hdone⟩ := Option.map_eq_some_iff.mp hrun
  obtain ⟨⟨hidle, hwf⟩, c, hc, ⟨hsub, hf⟩, hnone⟩ := of_decide_eq_true hdone
  obtain ⟨found, hfound, -⟩ := hall .none .silent m _
    ((System.Reach.start rfl).run hm) hidle hwf c ⟨hc, hsub, hf⟩
  rw [hnone] at hfound
  cases hfound

end Narshare
