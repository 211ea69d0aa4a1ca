/-
The incremental differ beside the full one, over rows inserted since a
full run.

# Two ways to the same end

`sync_own_db_incremental` looks at the inserted rows alone. It asks for
each hash whether we hold it, and for each fact whether the row of its
IDENTITY has the candidate's signatures (`Store.knownAt`). The full
differ looks at all rows and asks for a row of the candidate's full store
path (`Store.known`). `AgreesWithFull` is what is wanted of the first: it
leaves what the second would have left, and the second then has nothing
to say.

# Where the two part

Possession never parts them: holdings are the hashes of the candidates
either way. A fact does when one identity goes by two names. The full
differ never finds a candidate whose identity has a row of a greater
store path, as before (`Unrivalled`); and the incremental one passes over
an inserted row whose identity has a row of another store path with its
signatures, so that the name that was inserted is not attested at all
(`Unmistaken`). `incremental_agrees_iff` is that there is nothing else.
-/
import Narshare.Index.Own

namespace Narshare

variable (cd : Codec) (cfg : Config) (keys : TrustedKeys) (dv : Derivers)

-- =============================================================== the pass

/-- The possession changes of an incremental run. -/
def addedHolds (s : Store) (cands : List Candidate) : List HoldOp :=
  (cands.foldl (fun st c => OwnDb.lookAt (s.db.isHeld cfg.selfName c.narHash) c st.1 st.2)
    ([], [])).2

/-- `sync_own_db_incremental`. -/
def syncOwnDbIncremental (s : Store) (db : NixDb) (cands : List Candidate) :
    Except IndexError ℕ × Store :=
  if cands = [] then (.ok 0, s)
  else exportOps cd cfg s (ownAttests keys dv db s.knownAt cands) (addedHolds cfg s cands)

/-- Rows have only been inserted, with ids AUTOINCREMENT gave; those that
were there have the references they had. -/
structure NixDb.Grown (db db' : NixDb) : Prop where
  kept : ∀ r ∈ db.rows, r ∈ db'.rows
  fresh : ∀ r ∈ db'.rows, r ∈ db.rows ∨ db.maxId < r.id ∧ 0 < r.id
  refs : ∀ r ∈ db.rows, db'.referencesOf r.id = db.referencesOf r.id
  storeDir : db'.storeDir = db.storeDir

/-- The rows inserted since, as the incremental differ gets them. -/
def NixDb.addedSince (db' db : NixDb) : List Candidate := (db'.additionsSince db.maxId).1

/-- The incremental run leaves what a full run would have left, and then
a full run has nothing to say. -/
structure AgreesWithFull (s : Store) (db db' : NixDb) : Prop where
  runs : ∃ n, (syncOwnDbIncremental cd cfg keys dv s db' (db'.addedSince db)).1 = .ok n
  quiet : (syncOwnDb cd cfg keys dv
    (syncOwnDbIncremental cd cfg keys dv s db' (db'.addedSince db)).2 db').1 = .ok 0
  holdings : ∀ h, (syncOwnDbIncremental cd cfg keys dv s db' (db'.addedSince db)).2.db.isHeld
    cfg.selfName h = (syncOwnDb cd cfg keys dv s db').2.db.isHeld cfg.selfName h
  att : (syncOwnDbIncremental cd cfg keys dv s db' (db'.addedSince db)).2.db.att
    = (syncOwnDb cd cfg keys dv s db').2.db.att
  attPath : (syncOwnDbIncremental cd cfg keys dv s db' (db'.addedSince db)).2.db.attPath
    = (syncOwnDb cd cfg keys dv s db').2.db.attPath
  attNar : (syncOwnDbIncremental cd cfg keys dv s db' (db'.addedSince db)).2.db.attNar
    = (syncOwnDb cd cfg keys dv s db').2.db.attNar

/-- No exportable candidate has a rival, and no inserted one is passed
over for a stored fact that has its identity and its signatures under
another store path. -/
structure Unmistaken (s : Store) (db db' : NixDb) : Prop where
  unrivalled : Unrivalled keys dv s db'
  named : ∀ c ∈ db'.addedSince db, Exportable keys dv db' c → ∀ e, s.holdsRow e →
    pathKeyOf e = c.pathKey → (∀ x ∈ c.sigs, x ∈ e.sigs) → e.storePath = c.path

variable {cd cfg keys dv} {s : Store} {db db' : NixDb} {t : FactTable} {c c' : Candidate}

-- ========================================================== rows and candidates

/-- What of a row its candidate keeps. -/
theorem ValidPath.of_candidate {r : ValidPath} (h : r.candidate = some c) :
    c.id = r.id ∧ c.path = r.path := by
  obtain ⟨size, -, h⟩ := Option.bind_eq_some_iff.mp h
  obtain ⟨narHash, -, rfl⟩ := Option.map_eq_some_iff.mp h
  exact ⟨rfl, rfl⟩

/-- A path has one row, so it has one candidate. -/
theorem NixDb.candidate_ext (hc : c ∈ db.candidates) (hc' : c' ∈ db.candidates)
    (h : c.path = c'.path) : c = c' := by
  obtain ⟨r, hr, -, hrow⟩ := NixDb.mem_additionsSince.mp hc
  obtain ⟨r', hr', -, hrow'⟩ := NixDb.mem_additionsSince.mp hc'
  have hpath : r.path = r'.path := by
    rw [← (ValidPath.of_candidate hrow).2, ← (ValidPath.of_candidate hrow').2, h]
  have hsame : r = r' := List.inj_on_of_nodup_map db.paths hr hr' hpath
  rw [hsame, hrow'] at hrow
  exact (Option.some.inj hrow).symm

namespace NixDb.Grown

/-- The candidates are those there were and those inserted. -/
theorem mem_candidates (h : db.Grown db') :
    c ∈ db'.candidates ↔ c ∈ db.candidates ∨ c ∈ db'.addedSince db := by
  unfold NixDb.candidates NixDb.addedSince
  rw [NixDb.mem_additionsSince, NixDb.mem_additionsSince, NixDb.mem_additionsSince]
  constructor
  · rintro ⟨r, hr, hid, hrow⟩
    rcases h.fresh r hr with hold | ⟨hnew, -⟩
    · exact Or.inl ⟨r, hold, hid, hrow⟩
    · exact Or.inr ⟨r, hr, hnew, hrow⟩
  · rintro (⟨r, hr, hid, hrow⟩ | ⟨r, hr, hid, hrow⟩)
    · exact ⟨r, h.kept r hr, hid, hrow⟩
    · refine ⟨r, hr, ?_, hrow⟩
      rcases h.fresh r hr with hold | ⟨-, hpos⟩
      · exact absurd (NixDb.le_maxId hold) (not_le.mpr hid)
      · omega

/-- An old candidate is attested as it was. -/
theorem attestation_eq (h : db.Grown db') (hc : c ∈ db.candidates) :
    db'.attestation c = db.attestation c := by
  obtain ⟨r, hr, -, hrow⟩ := NixDb.mem_additionsSince.mp hc
  unfold NixDb.attestation
  rw [(ValidPath.of_candidate hrow).1, h.refs r hr, h.storeDir]

/-- So it is exportable when it was. -/
theorem exportable (h : db.Grown db') (hc : c ∈ db.candidates)
    (hexp : Exportable keys dv db' c) : Exportable keys dv db c where
  candidate := hc
  substitutable := hexp.substitutable
  feasible := h.attestation_eq hc ▸ hexp.feasible

/-- All that was to be attested still is. -/
theorem attestations (h : db.Grown db') : ∀ a ∈ db.attestations, a ∈ db'.attestations := by
  intro a ha
  obtain ⟨c, hc, rfl⟩ := List.mem_map.mp ha
  rw [← h.attestation_eq hc]
  exact attestation_mem_attestations (h.mem_candidates.mpr (Or.inl hc))

end NixDb.Grown

-- ============================================================= its possession

theorem mem_lookAt_seen (held : Bool) (c : Candidate) (seen : List NarHash) (adds : List HoldOp)
    (h : NarHash) : h ∈ (OwnDb.lookAt held c seen adds).1 ↔ h ∈ seen ∨ h = c.narHash := by
  unfold OwnDb.lookAt
  split
  next hseen =>
    refine (or_iff_left_of_imp ?_).symm
    rintro rfl
    exact hseen
  next => rw [List.mem_cons, or_comm]

theorem add_mem_lookAt (held : Bool) (c : Candidate) (seen : List NarHash) (adds : List HoldOp)
    (h : NarHash) : HoldOp.add h ∈ (OwnDb.lookAt held c seen adds).2
      ↔ HoldOp.add h ∈ adds ∨ h ∉ seen ∧ h = c.narHash ∧ held = false := by
  unfold OwnDb.lookAt
  split
  next hseen =>
    refine (or_iff_left_of_imp ?_).symm
    rintro ⟨hnot, rfl, -⟩
    exact absurd hseen hnot
  next hseen =>
    cases held with
    | true => simp
    | false =>
        rw [if_neg Bool.false_ne_true, List.mem_append, List.mem_singleton, HoldOp.add.injEq]
        refine or_congr_right ⟨?_, fun hall => hall.2.1⟩
        rintro rfl
        exact ⟨hseen, rfl, rfl⟩

theorem drop_mem_lookAt (held : Bool) (c : Candidate) (seen : List NarHash) (adds : List HoldOp)
    (h : NarHash) :
    HoldOp.drop h ∈ (OwnDb.lookAt held c seen adds).2 ↔ HoldOp.drop h ∈ adds := by
  unfold OwnDb.lookAt
  split
  next => rfl
  next => cases held <;> simp

/-- The loop adds the hashes it meets that are not held. -/
theorem add_mem_foldl_lookAt (held : NarHash → Bool) (cands : List Candidate)
    (st : List NarHash × List HoldOp) (h : NarHash) :
    HoldOp.add h ∈ (cands.foldl
        (fun st c => OwnDb.lookAt (held c.narHash) c st.1 st.2) st).2
      ↔ HoldOp.add h ∈ st.2 ∨ h ∉ st.1 ∧ (∃ c ∈ cands, c.narHash = h) ∧ held h = false := by
  induction cands generalizing st with
  | nil => simp
  | cons c cands ih =>
      rw [List.foldl_cons, ih, add_mem_lookAt, mem_lookAt_seen, List.exists_mem_cons_iff]
      by_cases hc : h = c.narHash
      · subst hc
        simp
      · simp [hc, Ne.symm hc]

/-- It drops nothing. -/
theorem drop_mem_foldl_lookAt (held : NarHash → Bool) (cands : List Candidate)
    (st : List NarHash × List HoldOp) (h : NarHash) :
    HoldOp.drop h ∈ (cands.foldl
        (fun st c => OwnDb.lookAt (held c.narHash) c st.1 st.2) st).2
      ↔ HoldOp.drop h ∈ st.2 := by
  induction cands generalizing st with
  | nil => rfl
  | cons c cands ih => rw [List.foldl_cons, ih, drop_mem_lookAt]

variable (cd cfg keys dv) in
/-- An incremental run exports all it found. -/
theorem syncOwnDbIncremental_exported (s : Store) (db : NixDb) (cands : List Candidate) :
    (∃ n, (syncOwnDbIncremental cd cfg keys dv s db cands).1 = .ok n)
      ∧ Exported cd cfg s (exportList (ownAttests keys dv db s.knownAt cands)
          (addedHolds cfg s cands)) (syncOwnDbIncremental cd cfg keys dv s db cands).2 := by
  rw [syncOwnDbIncremental]
  split
  next hnil =>
    rw [hnil]
    exact ⟨⟨0, rfl⟩, .refl⟩
  next =>
    obtain ⟨hok, hout⟩ := exportOps_exported cd cfg s (ownAttests keys dv db s.knownAt cands)
      (addedHolds cfg s cands)
    exact ⟨⟨_, hok⟩, hout⟩

variable (cd cfg keys dv) in
/-- It adds the hashes of its candidates to our holdings. -/
theorem isHeld_syncOwnDbIncremental (s : Store) (db : NixDb) (cands : List Candidate)
    (h : NarHash) :
    (syncOwnDbIncremental cd cfg keys dv s db cands).2.db.isHeld cfg.selfName h = true
      ↔ s.db.isHeld cfg.selfName h = true ∨ ∃ c ∈ cands, c.narHash = h := by
  rw [(syncOwnDbIncremental_exported cd cfg keys dv s db cands).2.held,
    ExportOp.holds_exportList]
  have hkeep : HoldOp.drop h ∉ addedHolds cfg s cands := by
    intro hin
    cases (drop_mem_foldl_lookAt (fun k => s.db.isHeld cfg.selfName k) cands _ h).mp hin
  have hnew : HoldOp.add h ∈ addedHolds cfg s cands
      ↔ (∃ c ∈ cands, c.narHash = h) ∧ s.db.isHeld cfg.selfName h = false := by
    refine (add_mem_foldl_lookAt (fun k => s.db.isHeld cfg.selfName k) cands _ h).trans ?_
    simp
  cases hheld : s.db.isHeld cfg.selfName h with
  | true => exact iff_of_true (possess_eq_true (Or.inl rfl) hkeep) (Or.inl rfl)
  | false =>
      by_cases hin : ∃ c ∈ cands, c.narHash = h
      · exact iff_of_true (possess_eq_true (Or.inr (hnew.mpr ⟨hin, hheld⟩)) hkeep) (Or.inr hin)
      · have hgone : possess (addedHolds cfg s cands) h false = false :=
          possess_eq_false (Or.inl rfl) fun ha => hin (hnew.mp ha).1
        rw [hgone]
        exact iff_of_false Bool.false_ne_true fun hor => hor.elim Bool.false_ne_true hin

variable (cd cfg keys dv) in
/-- After a full run and an incremental one our holdings are the hashes
of all candidates. -/
theorem isHeld_grown (h : db.Grown db') (s : Store) (k : NarHash) :
    (syncOwnDbIncremental cd cfg keys dv (syncOwnDb cd cfg keys dv s db).2 db'
        (db'.addedSince db)).2.db.isHeld cfg.selfName k = true
      ↔ ∃ c ∈ db'.candidates, c.narHash = k := by
  rw [isHeld_syncOwnDbIncremental, isHeld_syncOwnDb]
  constructor
  · rintro (⟨c, hc, rfl⟩ | ⟨c, hc, rfl⟩)
    · exact ⟨c, h.mem_candidates.mpr (Or.inl hc), rfl⟩
    · exact ⟨c, h.mem_candidates.mpr (Or.inr hc), rfl⟩
  · rintro ⟨c, hc, rfl⟩
    exact (h.mem_candidates.mp hc).imp (fun hc => ⟨c, hc, rfl⟩) fun hc => ⟨c, hc, rfl⟩

-- ================================================================== its facts

/-- What an incremental run attests: the exportable candidates it is
given whose identity it does not know. -/
theorem NixDb.Grown.mem_ownAttests (h : db.Grown db') {known : Candidate → Bool}
    {a : Attestation} : a ∈ ownAttests keys dv db' known (db'.addedSince db)
      ↔ ∃ c ∈ db'.addedSince db, Exportable keys dv db' c ∧ known c = false
        ∧ db'.attestation c = a :=
  mem_ownAttests_of_subset fun _ hc => h.mem_candidates.mpr (Or.inr hc)

/-- Candidates of one identity whose rows are known have one path. -/
theorem path_eq_of_known (h : Rep cd s.db t) (hk : s.known c = true) (hk' : s.known c' = true)
    (heq : c'.pathKey = c.pathKey) : c'.path = c.path := by
  obtain ⟨r, hr, hpath, -⟩ := (known_iff h).mp hk
  obtain ⟨r', hr', hpath', -⟩ := (known_iff h).mp hk'
  rw [heq, hr] at hr'
  cases hr'
  rw [← hpath, hpath']

section Run

variable {s' : Store} {t' : FactTable}

/-- The store between the two runs: each exportable candidate of the
first has a row that is not less than it in path, and has its
signatures. -/
def Covers (keys : TrustedKeys) (dv : Derivers) (db : NixDb) (t : FactTable) : Prop :=
  ∀ c, Exportable keys dv db c →
    ∃ r, t.rows.get c.pathKey = some r ∧ c.path ≤ r.storePath ∧ ∀ x ∈ c.sigs, x ∈ r.sigs

/-- The incremental run knows all that is exportable exactly when nothing
was mistaken for it. -/
theorem known_incremental_iff (hgrown : db.Grown db') (h : Rep cd s.db t)
    (hcover : Covers keys dv db t)
    (h' : Rep cd s'.db (t.absorbAll (ownAttests keys dv db' s.knownAt (db'.addedSince db)))) :
    (∀ c, Exportable keys dv db' c → s'.known c = true) ↔ Unmistaken keys dv s db db' := by
  constructor
  · intro hall
    constructor
    · intro c hc
      obtain ⟨r, hr, hpath, -⟩ := (known_iff h').mp (hall c hc)
      constructor
      · intro e he hkey
        have hrow := h.holdsRow_iff.mp he
        rw [hkey] at hrow
        obtain ⟨r', hr', hle⟩ := FactTable.exists_row_of_row hrow _
        rw [hr] at hr'
        cases hr'
        exact hpath ▸ storePath_le_of_bodyOf_le hle.1
      · intro c' hc' hkey
        exact (path_eq_of_known h' (hall c hc) (hall c' hc') hkey).le
    · intro c hadded hc e he hkey hsigs
      have hrow := h.holdsRow_iff.mp he
      rw [hkey] at hrow
      obtain ⟨r, hr, hpath, -⟩ := (known_iff h').mp (hall c hc)
      rcases FactTable.body_of_row_absorbAll hr with ⟨e', he', hbody⟩ | ⟨a, ha, hk, hbody⟩
      · -- no inserted row gave the identity its body
        rw [hrow] at he'
        cases he'
        rw [← hpath]
        exact le_antisymm (storePath_le_of_bodyOf_le hbody.le)
          (storePath_le_of_bodyOf_le hbody.ge)
      · -- one did: it has the candidate's path, so it is the candidate, which was passed over
        obtain ⟨c', hadded', hc', hnot, rfl⟩ := hgrown.mem_ownAttests.mp ha
        have hsame := NixDb.candidate_ext hc'.candidate hc.candidate
          (path_eq_of_known h' (hall c hc) (hall c' hc') hk)
        rw [hsame, (knownAt_iff h).mpr ⟨e, hrow, hsigs⟩] at hnot
        cases hnot
  · intro hun c hc
    obtain ⟨r, hr, hle, hsigs⟩ : ∃ r,
        (t.absorbAll (ownAttests keys dv db' s.knownAt (db'.addedSince db))).rows.get c.pathKey
          = some r ∧ c.path ≤ r.storePath ∧ ∀ x ∈ c.sigs, x ∈ r.sigs := by
      have hgrow : ∀ e, t.rows.get c.pathKey = some e → c.path ≤ e.storePath →
          (∀ x ∈ c.sigs, x ∈ e.sigs) → ∃ r,
            (t.absorbAll (ownAttests keys dv db' s.knownAt (db'.addedSince db))).rows.get
              c.pathKey = some r ∧ c.path ≤ r.storePath ∧ ∀ x ∈ c.sigs, x ∈ r.sigs := by
        intro e he hpath hsigs
        obtain ⟨r, hr, hle⟩ := FactTable.exists_row_of_row he
          (ownAttests keys dv db' s.knownAt (db'.addedSince db))
        exact ⟨r, hr, hpath.trans (storePath_le_of_bodyOf_le hle.1),
          fun x hx => sigs_subset_of_factOf_le hle x (hsigs x hx)⟩
      rcases hgrown.mem_candidates.mp hc.candidate with hold | hadded
      · obtain ⟨e, he, hpath, hsigs⟩ := hcover c (hgrown.exportable hold hc)
        exact hgrow e he hpath hsigs
      · cases hk : s.knownAt c with
        | true =>
            obtain ⟨e, he, hsigs⟩ := (knownAt_iff h).mp hk
            have hkey := (t.ok _ _ he).key
            have hstored : s.holdsRow e := h.holdsRow_iff.mpr (by rw [hkey]; exact he)
            exact hgrow e he (hun.named c hadded hc e hstored hkey hsigs).ge hsigs
        | false =>
            have hmem := hgrown.mem_ownAttests.mpr ⟨c, hadded, hc, hk, rfl⟩
            obtain ⟨r, hr, hle⟩ := FactTable.exists_row_of_mem (t := t) hmem c.narHash.property rfl
            exact ⟨r, hr, storePath_le_of_bodyOf_le hle.1, sigs_subset_of_factOf_le hle⟩
    refine (known_iff h').mpr ⟨r, hr, le_antisymm ?_ hle, hsigs⟩
    rcases FactTable.body_of_row_absorbAll hr with ⟨e, he, hbody⟩ | ⟨a, ha, hk, hbody⟩
    · have hkey := (t.ok _ _ he).key
      have hstored : s.holdsRow e := h.holdsRow_iff.mpr (by rw [hkey]; exact he)
      exact (storePath_le_of_bodyOf_le hbody.ge).trans ((hun.unrivalled c hc).1 e hstored hkey)
    · obtain ⟨c', -, hc', -, rfl⟩ := hgrown.mem_ownAttests.mp ha
      exact (storePath_le_of_bodyOf_le hbody.ge).trans ((hun.unrivalled c hc).2 c' hc' hk)

/-- When nothing is mistaken, both runs attest the same. -/
theorem attests_of_unmistaken (hgrown : db.Grown db') (h : Rep cd s.db t)
    (hcover : Covers keys dv db t) (hun : Unmistaken keys dv s db db') (a : Attestation) :
    a ∈ ownAttests keys dv db' s.knownAt (db'.addedSince db)
      ↔ a ∈ ownAttests keys dv db' s.known db'.candidates := by
  rw [hgrown.mem_ownAttests, Narshare.mem_ownAttests]
  constructor
  · rintro ⟨c, -, hc, hk, rfl⟩
    refine ⟨c, hc, ?_, rfl⟩
    rw [← Bool.not_eq_true] at hk ⊢
    intro hknown
    obtain ⟨r, hr, -, hsigs⟩ := (known_iff h).mp hknown
    exact hk ((knownAt_iff h).mpr ⟨r, hr, hsigs⟩)
  · rintro ⟨c, hc, hk, rfl⟩
    rw [← Bool.not_eq_true] at hk
    have hrow : ∀ e, t.rows.get c.pathKey = some e → s.holdsRow e ∧ pathKeyOf e = c.pathKey := by
      intro e he
      have hkey := (t.ok _ _ he).key
      exact ⟨h.holdsRow_iff.mpr (by rw [hkey]; exact he), hkey⟩
    rcases hgrown.mem_candidates.mp hc.candidate with hold | hadded
    · -- an old one is known: what covers it has no greater path
      obtain ⟨e, he, hpath, hsigs⟩ := hcover c (hgrown.exportable hold hc)
      obtain ⟨hstored, hkey⟩ := hrow e he
      have hle := (hun.unrivalled c hc).1 e hstored hkey
      exact absurd ((known_iff h).mpr ⟨e, he, le_antisymm hle hpath, hsigs⟩) hk
    · refine ⟨c, hadded, hc, ?_, rfl⟩
      rw [← Bool.not_eq_true]
      intro hknown
      obtain ⟨e, he, hsigs⟩ := (knownAt_iff h).mp hknown
      obtain ⟨hstored, hkey⟩ := hrow e he
      exact hk ((known_iff h).mpr ⟨e, he, hun.named c hadded hc e hstored hkey hsigs, hsigs⟩)

end Run

/-- After a full run and insertions, the incremental differ agrees with
the full one exactly when no exportable candidate has a rival and no
inserted one is passed over for a stored fact of its identity under
another store path. -/
theorem incremental_agrees_iff (cfg : Config) (keys : TrustedKeys) (dv : Derivers) {m : Machine}
    (hm : (storeSystem cd).Reach m) {db db' : NixDb} (hgrown : db.Grown db')
    (hcf : CollisionFree cd (m.store.rows ++ db'.attestations)) :
    AgreesWithFull cd cfg keys dv (syncOwnDb cd cfg keys dv m.store db).2 db db'
      ↔ Unmistaken keys dv (syncOwnDb cd cfg keys dv m.store db).2 db db' := by
  obtain ⟨t, hinv⟩ := Machine.Inv.reach hm
  have hrep := hinv.rep.syncOwnDb cfg keys dv (hcf.mono fun a ha => by
    rcases List.mem_append.mp ha with ha | ha
    · exact List.mem_append_left _ ha
    · exact List.mem_append_right _ (hgrown.attestations a ha))
  have hcover : Covers keys dv db
      (t.absorbAll (ownAttests keys dv db m.store.known db.candidates)) :=
    fun c hc => hc.row hinv.rep
  have hstems : ∀ pk a, (t.absorbAll (ownAttests keys dv db m.store.known
      db.candidates)).rows.get pk = some a → Stems (m.store.rows ++ db'.attestations) a := by
    intro pk a ha
    refine FactTable.stems_absorbAll (fun k e he => Stems.of_mem (List.mem_append_left _ ?_))
      (fun b hb => Stems.of_mem (List.mem_append_right _ ?_)) ha
    · exact Store.mem_rows.mpr (hinv.rep.holdsRow_iff.mpr ((t.ok _ _ he).key.symm ▸ he))
    · obtain ⟨c, hc, -, rfl⟩ := mem_ownAttests.mp hb
      exact hgrown.attestations _ (attestation_mem_attestations hc.candidate)
  have hholds := isHeld_grown cd cfg keys dv hgrown m.store
  generalize (syncOwnDb cd cfg keys dv m.store db).2 = s at *
  have hgiven : ∀ {known : Candidate → Bool}, ∀ a ∈ ownAttests keys dv db' known db'.candidates,
      Stems (m.store.rows ++ db'.attestations) a := by
    intro known a ha
    obtain ⟨c, hc, -, rfl⟩ := mem_ownAttests.mp ha
    exact Stems.of_mem (List.mem_append_right _ (attestation_mem_attestations hc.candidate))
  obtain ⟨hruns, hinc⟩ := syncOwnDbIncremental_exported cd cfg keys dv s db' (db'.addedSince db)
  obtain ⟨-, hfull⟩ := syncOwnDb_exported cd cfg keys dv s db'
  have hrepInc := hinc.facts hrep hcf hstems fun a ha => by
    rw [ExportOp.attests_exportList] at ha
    obtain ⟨c, -, hc, hk, rfl⟩ := hgrown.mem_ownAttests.mp ha
    exact hgiven _ (mem_ownAttests.mpr ⟨c, hc, hk, rfl⟩)
  have hrepFull := hfull.facts hrep hcf hstems fun a ha => by
    rw [ExportOp.attests_exportList] at ha
    exact hgiven a ha
  rw [ExportOp.attests_exportList] at hrepInc hrepFull
  have hknown := known_incremental_iff hgrown hrep hcover hrepInc
  constructor
  · intro hagree
    exact hknown.mp (ownAttests_eq_nil_iff.mp ((syncOwnDb_quiet_iff _ _).mp hagree.quiet).1)
  · intro hun
    have hquiet : (syncOwnDb cd cfg keys dv
        (syncOwnDbIncremental cd cfg keys dv s db' (db'.addedSince db)).2 db').1 = .ok 0 :=
      (syncOwnDb_quiet_iff _ _).mpr
        ⟨ownAttests_eq_nil_iff.mpr (hknown.mpr hun), ownHolds_eq_nil hholds⟩
    rw [FactTable.absorbAll_congr _ (attests_of_unmistaken hgrown hrep hcover hun)] at hrepInc
    obtain ⟨hatt, hpath, hnar⟩ := hrepInc.sameRows hrepFull
    refine ⟨hruns, hquiet, fun h => ?_, hatt, hpath, hnar⟩
    rw [Bool.eq_iff_iff, hholds, isHeld_syncOwnDb]

/-- The database of one row, and a second one inserted. -/
def NixDb.addressedTwo : NixDb where
  rows := [.addressed 65, { ValidPath.addressed 67 with id := 2 }]
  refs := []
  storeDir := ascii "/nix/store"
  sorted := by decide
  paths := by decide

/-- A second row inserted beside a peer's fact of another path. -/
theorem incremental_agrees_beside : ∃ m : Machine, m.store.rows = [addressed 66]
    ∧ (NixDb.addressedTwo.addedSince (.single (.addressed 65))).length = 1
    ∧ AgreesWithFull Codec.plain .alone .none .silent
      (syncOwnDb Codec.plain .alone .none .silent m.store (.single (.addressed 65))).2
      (.single (.addressed 65)) .addressedTwo := by
  have hrun : ((storeSystem Codec.plain).run {} (mergeOf (addressed 66))).map (fun m =>
      decide (m.store.rows = [addressed 66]
        ∧ ∀ c ∈ NixDb.addressedTwo.candidates,
          (∀ e ∈ (syncOwnDb Codec.plain .alone .none .silent m.store
              (.single (.addressed 65))).2.rows,
            pathKeyOf e = c.pathKey → e.storePath = c.path)
          ∧ ∀ c' ∈ NixDb.addressedTwo.candidates, c'.pathKey = c.pathKey → c'.path ≤ c.path))
      = some true := by
    decide +kernel
  obtain ⟨m, hm, hdone⟩ := Option.map_eq_some_iff.mp hrun
  obtain ⟨hrows, hun⟩ := of_decide_eq_true hdone
  have hcf : CollisionFree Codec.plain (m.store.rows ++ NixDb.addressedTwo.attestations) := by
    rw [hrows, show NixDb.addressedTwo.attestations = [addressed 65, addressed 67] by
      decide +kernel]
    exact collisionFree_unsigned (by decide) (by decide +kernel)
  have hgrown : (NixDb.single (.addressed 65)).Grown .addressedTwo :=
    ⟨by decide, by decide, by decide, rfl⟩
  refine ⟨m, hrows, by decide +kernel, ?_⟩
  refine (incremental_agrees_iff .alone .none .silent
    ((System.Reach.start rfl).run hm) hgrown hcf).mpr ⟨fun c hc => ?_, fun c _ hc e he hk _ => ?_⟩
  · obtain ⟨hstored, hothers⟩ := hun c hc.candidate
    exact ⟨fun e he hk => (hstored e (Store.mem_rows.mpr he) hk).le,
      fun c' hc' => hothers c' hc'.candidate⟩
  · exact (hun c hc.candidate).1 e (Store.mem_rows.mpr he) hk

/-- The content of `addressed 65` under a longer name. -/
def ValidPath.renamed : ValidPath := { ValidPath.addressed 65 with path := rival.storePath }

/-- A peer has attested the content under a shorter name. The row that is
inserted is passed over, and only the full differ attests it. -/
theorem shorter_name_passed_over : ¬ ∀ (keys : TrustedKeys) (dv : Derivers) (m : Machine)
    (db db' : NixDb), (storeSystem Codec.plain).Reach m → m.tasks = ∅ →
      (∀ a ∈ m.taken, wellFormed a = true) → db.Grown db' →
      CollisionFree Codec.plain (m.store.rows ++ db'.attestations) →
        AgreesWithFull Codec.plain .alone keys dv
          (syncOwnDb Codec.plain .alone keys dv m.store db).2 db db' := by
  intro hall
  have hrun : ((storeSystem Codec.plain).run {} (mergeOf (addressed 65))).map (fun m =>
      decide ((m.tasks = ∅ ∧ m.store.rows = [addressed 65] ∧ ∀ a ∈ m.taken, wellFormed a = true)
        ∧ (syncOwnDb Codec.plain .alone .none .silent
            (syncOwnDbIncremental Codec.plain .alone .none .silent
              (syncOwnDb Codec.plain .alone .none .silent m.store .bare).2 (.single .renamed)
              ((NixDb.single .renamed).addedSince .bare)).2
            (.single .renamed)).1.toOption = some 1)) = some true := by
    decide +kernel
  obtain ⟨m, hm, hdone⟩ := Option.map_eq_some_iff.mp hrun
  obtain ⟨⟨hidle, hrows, hwf⟩, hagain⟩ := of_decide_eq_true hdone
  have hcf : CollisionFree Codec.plain
      (m.store.rows ++ (NixDb.single .renamed).attestations) := by
    rw [hrows, show (NixDb.single .renamed).attestations = [rival] by decide +kernel]
    exact collisionFree_unsigned (by decide) (by decide +kernel)
  have hgrown : NixDb.bare.Grown (.single .renamed) := ⟨by decide, by decide, by decide, rfl⟩
  have hquiet := (hall .none .silent m .bare (.single .renamed)
    ((System.Reach.start rfl).run hm) hidle hwf hgrown hcf).quiet
  rw [hquiet] at hagain
  cases hagain

end Narshare
