/-
Finding the path of a NAR hash, db.rs `by_nar_hash`: the map, the row
behind it, the map built anew, the plain scan.

# Statements and commits

A call is a sequence of turns (`Looking`), each of which makes one SQL
statement or takes the lock of the map once; `commit` is any other
connection, and may fall between any two. A call keeps the snapshots that
were current while it went on (`Lookup.seen`), so that what it answers can
be held against them: that no row has the hash is right when there was
such a moment (`Lookup.Exact`).

Between the look at the map and the read of the row a call holds a path
(`Lookup.aim`), and trusts it: a hit in a fresh map whose row has lost the
hash is taken for a miss of the whole database, although another path may
have the hash, and the row behind a map just built is returned without a
look at its hash. And the map read after the rebuild need not be the one
this call built. `Nars.Steady` is a condition on what the other
connections commit while a path is held, and on when the rebuilds of two
calls overlap; `by_nar_hash_exact` has what is then answered, and the
counterexample has a commit of each kind that it leaves out.
-/
import Narshare.Index.NixDb
import Narshare.Lib.System

namespace Narshare

-- ============================================================= the snapshot

/-- The hash column of a NAR hash, in base 16. -/
def b16 (h : NarHash) : Bytes := ascii "sha256:" ++ hexEncode h.val

/-- The same, as Nix prints it. -/
def b32 (h : NarHash) : Bytes := ascii "sha256:" ++ nixbase32Encode h.val

/-- `PathInfo`. -/
structure PathInfo where
  path : Bytes
  narHash : NarHash
  narSize : ℕ
  deriver : Option Bytes
  sigs : List Bytes
  ca : Option Bytes
  references : List Bytes
deriving DecidableEq

/-- A row as Nix writes it: a size, and the hash in one of the two forms. -/
def ValidPath.WellFormed (r : ValidPath) : Prop :=
  r.narSize.isSome = true ∧ ∃ h ∈ parseHashColumn r.hash, r.hash = b16 h ∨ r.hash = b32 h

instance (r : ValidPath) : Decidable r.WellFormed := by
  unfold ValidPath.WellFormed
  infer_instance

namespace NixDb

def WellFormed (db : NixDb) : Prop := ∀ r ∈ db.rows, r.WellFormed

instance (db : NixDb) : Decidable db.WellFormed := by
  unfold WellFormed
  infer_instance

/-- `info_from_row`: the references are a statement of their own. -/
def infoFromRow (db : NixDb) (r : ValidPath) : Option PathInfo :=
  r.narSize.bind fun size =>
    (parseHashColumn r.hash).map fun narHash =>
      { path := r.path
        narHash := narHash
        narSize := (size % 2 ^ 64).toNat
        deriver := r.deriver.filter fun d => !d.isEmpty
        sigs := r.sigs.elim [] Bytes.splitWhitespace
        ca := r.ca.filter fun c => !c.isEmpty
        references := db.referencesOf r.id }

/-- The row of `by_path`. -/
def rowOf (db : NixDb) (path : Bytes) : Option ValidPath := db.rows.find? fun r => r.path == path

/-- The row of `by_nar_hash_scan`. -/
def scanRow (db : NixDb) (h : NarHash) : Option ValidPath :=
  db.rows.find? fun r => r.hash == b16 h || r.hash == b32 h

/-- The map that `rebuild_nar_index` makes of a snapshot. -/
def narMap (db : NixDb) : NarHash → Option Bytes :=
  db.rows.foldl (fun map r =>
    match parseHashColumn r.hash with
    | some h => fun h' => if h' = h then some r.path else map h'
    | none => map) fun _ => none

/-- No row has the hash. -/
def Lacks (db : NixDb) (h : NarHash) : Prop := ∀ r ∈ db.rows, parseHashColumn r.hash ≠ some h

instance (db : NixDb) (h : NarHash) : Decidable (db.Lacks h) := by
  unfold Lacks
  infer_instance

/-- The row of a path has the hash. -/
def HasAt (db : NixDb) (path : Bytes) (h : NarHash) : Prop :=
  ∃ r ∈ db.rowOf path, parseHashColumn r.hash = some h

instance (db : NixDb) (path : Bytes) (h : NarHash) : Decidable (db.HasAt path h) := by
  unfold HasAt
  infer_instance

/-- No other path has the hash. -/
def OnlyAt (db : NixDb) (path : Bytes) (h : NarHash) : Prop :=
  ∀ r ∈ db.rows, parseHashColumn r.hash = some h → r.path = path

instance (db : NixDb) (path : Bytes) (h : NarHash) : Decidable (db.OnlyAt path h) := by
  unfold OnlyAt
  infer_instance

end NixDb

-- ================================================================= the calls

/-- `NarIndex`. -/
structure NarIndex where
  dataVersion : ℕ
  built : ℕ
  map : NarHash → Option Bytes

/-- `NAR_INDEX_REBUILD_MIN`, in nanoseconds. -/
def NAR_INDEX_REBUILD_MIN : ℕ := 5 * 10 ^ 9

/-- Where a call of `by_nar_hash` is. -/
inductive Looking
  | start
  /-- The map has a path: `by_path`, to be verified. -/
  | hit (path : Bytes) (fresh : Bool)
  | verify (row : ValidPath) (fresh : Bool)
  /-- `rebuild_nar_index`, at the rate limit. -/
  | stale
  | scan
  | store (version : ℕ) (map : NarHash → Option Bytes)
  /-- After the rebuild, the map again. -/
  | read
  | found (path : Bytes)
  /-- `by_nar_hash_scan`. -/
  | direct
  | deliver (row : ValidPath)
  | done (answer : Option PathInfo)
  | failed

/-- Is a call over? -/
def Looking.over : Looking → Bool
  | .done _ => true
  | .failed => true
  | _ => false

/-- What a call has answered. -/
def Looking.answer : Looking → Option (Option PathInfo)
  | .done answer => some answer
  | _ => none

/-- A call, with the snapshots that were current while it went on. -/
structure Lookup where
  narHash : NarHash
  looking : Looking := .start
  seen : List NixDb

/-- A commit, as a call sees it. -/
def Lookup.sees (c : Lookup) (db : NixDb) : Lookup :=
  if c.looking.over then c else { c with seen := c.seen ++ [db] }

/-- `StoreDb`, the database it reads, and the calls under way. -/
structure Nars where
  db : NixDb
  version : ℕ := 0
  now : ℕ := 0
  index : Option NarIndex := none
  calls : List Lookup := []

namespace Nars

/-- What a turn of a call comes to. -/
def look (x : Nars) (h : NarHash) : Looking → Looking
  | .start =>
      match x.index with
      | some ix =>
          let fresh := decide (ix.dataVersion = x.version)
          match ix.map h with
          | some path => .hit path fresh
          | none => if fresh then .done none else .stale
      | none => .stale
  | .hit path fresh =>
      match x.db.rowOf path with
      | some r => .verify r fresh
      | none => if fresh then .done none else .stale
  | .verify r fresh =>
      match x.db.infoFromRow r with
      | some info =>
          if info.narHash = h then .done (some info)
          else if fresh then .done none
          else .stale
      | none => .failed
  | .stale =>
      match x.index with
      | some ix => if x.now - ix.built < NAR_INDEX_REBUILD_MIN then .direct else .scan
      | none => .scan
  | .scan => .store x.version x.db.narMap
  | .store _ _ => .read
  | .read =>
      match x.index.bind fun ix => ix.map h with
      | some path => .found path
      -- authoritative under the just-built version
      | none => .done none
  | .found path =>
      match x.db.rowOf path with
      | some r => .deliver r
      | none => .done none
  | .direct =>
      match x.db.scanRow h with
      | some r => .deliver r
      | none => .done none
  | .deliver r =>
      match x.db.infoFromRow r with
      | some info => .done (some info)
      | none => .failed
  | .done answer => .done answer
  | .failed => .failed

/-- What a turn leaves of the map. -/
def stored (x : Nars) : Looking → Option NarIndex
  | .store version map => some ⟨version, x.now, map⟩
  | _ => x.index

inductive Act
  | call (h : NarHash)
  | turn (i : ℕ)
  | commit (db : NixDb)
  | pass (nanos : ℕ)

/-- One action. -/
def step (x : Nars) : Act → Option Nars
  | .call h => some { x with calls := x.calls ++ [{ narHash := h, seen := [x.db] }] }
  | .turn i =>
      x.calls[i]?.bind fun c =>
        if c.looking.over then none
        else
          some { x with
            index := x.stored c.looking
            calls := x.calls.set i { c with looking := x.look c.narHash c.looking } }
  | .commit db =>
      if db.WellFormed then
        some { x with
          db := db
          version := x.version + 1
          calls := x.calls.map fun c => c.sees db }
      else none
  | .pass nanos => some { x with now := x.now + nanos }

/-- Nothing looked up yet. -/
def Init (x : Nars) : Prop := x.db.WellFormed ∧ x = { db := x.db }

end Nars

/-- The calls of `by_nar_hash`, and other connections' commits. -/
def narsSystem : System Nars Nars.Act where
  init := Nars.Init
  step := Nars.step

-- ================================================================ exactness

/-- Was there a moment without a row of the hash? -/
def Lookup.Missed (c : Lookup) : Prop := ∃ db ∈ c.seen, db.Lacks c.narHash

instance (c : Lookup) : Decidable c.Missed := by
  unfold Lookup.Missed
  infer_instance

/-- What is answered is right. -/
def Lookup.Exact (c : Lookup) : Prop :=
  match c.looking with
  | .done (some info) => info.narHash = c.narHash
  | .done none => c.Missed
  | _ => True

-- ============================================================== the schedule

/-- The path a call holds, whose row it is still to read. -/
def Lookup.aim (x : Nars) (c : Lookup) : Option Bytes :=
  match c.looking with
  | .hit path true => some path
  | .store _ map => map c.narHash
  | .read => x.index.bind fun ix => ix.map c.narHash
  | .found path => some path
  | _ => none

/-- Is the hash of that row looked at again? -/
def Looking.verifies : Looking → Bool
  | .hit _ _ => true
  | _ => false

/-- A commit leaves the hash at a path, or takes it off a path that alone
has it; and it leaves no other row at the path if that is not looked at. -/
def NixDb.Leaves (db : NixDb) (path : Bytes) (h : NarHash) (verifies : Bool) (db' : NixDb) : Prop :=
  db'.HasAt path h
    ∨ (db.HasAt path h → db'.OnlyAt path h) ∧ (verifies = true ∨ db'.rowOf path = none)

instance (db : NixDb) (path : Bytes) (h : NarHash) (verifies : Bool) (db' : NixDb) :
    Decidable (db.Leaves path h verifies db') := by
  unfold NixDb.Leaves
  infer_instance

/-- The version of a map about to be stored. -/
def Looking.storing : Looking → Option ℕ
  | .store version _ => some version
  | _ => none

/-- Has the call stored its map, and is it to look at the map now? -/
def Looking.reads : Looking → Bool
  | .read => true
  | _ => false

/-- Commits leave the paths that calls hold, and no map of an older
snapshot is stored between another call's rebuild and its look at the map. -/
def Nars.Steady (x : Nars) : Nars.Act → Prop
  | .commit db =>
      ∀ c ∈ x.calls, ∀ path ∈ c.aim x, x.db.Leaves path c.narHash c.looking.verifies db
  | .turn i =>
      ∀ c ∈ x.calls[i]?, ∀ version ∈ c.looking.storing,
        version = x.version ∨ ∀ c' ∈ x.calls, c'.looking.reads = false
  | _ => True

instance Nars.decidableSteady (x : Nars) (a : Nars.Act) : Decidable (x.Steady a) := by
  unfold Nars.Steady
  split
  · infer_instance
  · infer_instance
  · infer_instance

-- ============================================================ what is read

theorem parseHashColumn_b16 (h : NarHash) : parseHashColumn (b16 h) = some h := by
  have hdrop : (b16 h).drop 7 = hexEncode h.val := List.drop_left' (by decide)
  have hfront : (ascii "sha256:").isPrefixOf (b16 h) = true :=
    List.isPrefixOf_iff_prefix.mpr (List.prefix_append _ _)
  have hlen : (hexEncode h.val).length = 64 := by rw [length_hexEncode, h.property]
  rw [parseHashColumn, if_pos hfront, hdrop]
  simp only [hlen, if_true, hexDecode_hexEncode, Option.bind_some, NarHash.tryFrom_val]

theorem parseHashColumn_b32 (h : NarHash) : parseHashColumn (b32 h) = some h := by
  have hdrop : (b32 h).drop 7 = nixbase32Encode h.val := List.drop_left' (by decide)
  have hfront : (ascii "sha256:").isPrefixOf (b32 h) = true :=
    List.isPrefixOf_iff_prefix.mpr (List.prefix_append _ _)
  have hlen : (nixbase32Encode h.val).length = 52 := by
    rw [length_nixbase32Encode, h.property]
    rfl
  have hdecode := nixbase32Decode_encode h.val
  rw [h.property] at hdecode
  rw [parseHashColumn, if_pos hfront, hdrop]
  simp only [hlen, Nat.reduceEqDiff, if_false, if_true, hdecode, Option.bind_some,
    NarHash.tryFrom_val]

/-- A row of the hash is one in either form. -/
theorem ValidPath.WellFormed.hash_iff {r : ValidPath} (hr : r.WellFormed) (h : NarHash) :
    parseHashColumn r.hash = some h ↔ r.hash = b16 h ∨ r.hash = b32 h := by
  obtain ⟨-, h', hparse, hform⟩ := hr
  constructor
  · intro he
    rw [Option.mem_def, he] at hparse
    cases hparse
    exact hform
  · rintro (he | he)
    · rw [he, parseHashColumn_b16]
    · rw [he, parseHashColumn_b32]

namespace NixDb

variable {db : NixDb} {h : NarHash} {r : ValidPath}

theorem narHash_infoFromRow {info : PathInfo} (hinfo : db.infoFromRow r = some info) :
    parseHashColumn r.hash = some info.narHash := by
  obtain ⟨size, -, hmap⟩ := Option.bind_eq_some_iff.mp hinfo
  obtain ⟨h, hparse, rfl⟩ := Option.map_eq_some_iff.mp hmap
  exact hparse

/-- The scan finds a row of the hash. -/
theorem scanRow_eq_some (hr : db.scanRow h = some r) : parseHashColumn r.hash = some h := by
  have hform := List.find?_some hr
  rw [Bool.or_eq_true, beq_iff_eq, beq_iff_eq] at hform
  rcases hform with he | he
  · rw [he, parseHashColumn_b16]
  · rw [he, parseHashColumn_b32]

/-- If there is one. -/
theorem scanRow_eq_none (hdb : db.WellFormed) (hnone : db.scanRow h = none) : db.Lacks h := by
  intro r hr hparse
  have hnot := List.find?_eq_none.mp hnone r hr
  rw [Bool.or_eq_true, beq_iff_eq, beq_iff_eq] at hnot
  exact hnot (((hdb r hr).hash_iff h).mp hparse)

/-- What the map has not, no row has. -/
theorem lacks_of_narMap (hnone : db.narMap h = none) : db.Lacks h := by
  have key : ∀ (rows : List ValidPath) (map : NarHash → Option Bytes),
      rows.foldl (fun map r =>
        match parseHashColumn r.hash with
        | some h => fun h' => if h' = h then some r.path else map h'
        | none => map) map h = none →
      map h = none ∧ ∀ r ∈ rows, parseHashColumn r.hash ≠ some h := by
    intro rows
    induction rows with
    | nil => exact fun map hmap => ⟨hmap, nofun⟩
    | cons r rows ih =>
        intro map hfold
        rw [List.foldl_cons] at hfold
        obtain ⟨hmap, hrest⟩ := ih _ hfold
        cases hparse : parseHashColumn r.hash with
        | none =>
            rw [hparse] at hmap
            refine ⟨hmap, fun r' hr' => ?_⟩
            rcases List.mem_cons.mp hr' with rfl | hr'
            · rw [hparse]
              nofun
            · exact hrest r' hr'
        | some h' =>
            rw [hparse] at hmap
            simp only at hmap
            split at hmap
            next => cases hmap
            next hne =>
              refine ⟨hmap, fun r' hr' => ?_⟩
              rcases List.mem_cons.mp hr' with rfl | hr'
              · rw [hparse]
                exact fun he => hne (Option.some.inj he).symm
              · exact hrest r' hr'
  exact (key db.rows _ hnone).2

/-- What the map has, the row of its path has. -/
theorem hasAt_of_mem (hr : r ∈ db.rows) (hparse : parseHashColumn r.hash = some h) :
    db.HasAt r.path h := by
  have hsome : (db.rowOf r.path).isSome = true :=
    List.find?_isSome.mpr ⟨r, hr, beq_self_eq_true _⟩
  obtain ⟨r', hr'⟩ := Option.isSome_iff_exists.mp hsome
  have hpath := List.find?_some hr'
  rw [beq_iff_eq] at hpath
  -- a path has one row
  obtain rfl : r' = r :=
    List.inj_on_of_nodup_map db.paths (List.mem_of_find?_eq_some hr') hr hpath
  exact ⟨r', hr', hparse⟩

theorem hasAt_of_narMap {path : Bytes} (hsome : db.narMap h = some path) : db.HasAt path h := by
  have key : ∀ (rows : List ValidPath) (map : NarHash → Option Bytes),
      rows.foldl (fun map r =>
        match parseHashColumn r.hash with
        | some h => fun h' => if h' = h then some r.path else map h'
        | none => map) map h = some path →
      map h = some path ∨ ∃ r ∈ rows, parseHashColumn r.hash = some h ∧ r.path = path := by
    intro rows
    induction rows with
    | nil => exact fun map hmap => Or.inl hmap
    | cons r rows ih =>
        intro map hfold
        rw [List.foldl_cons] at hfold
        rcases ih _ hfold with hmap | ⟨r', hr', hfound⟩
        · cases hparse : parseHashColumn r.hash with
          | none =>
              rw [hparse] at hmap
              exact Or.inl hmap
          | some h' =>
              rw [hparse] at hmap
              simp only at hmap
              split at hmap
              next he =>
                subst he
                exact Or.inr ⟨r, List.mem_cons_self, hparse, Option.some.inj hmap⟩
              next => exact Or.inl hmap
        · exact Or.inr ⟨r', List.mem_cons_of_mem _ hr', hfound⟩
  rcases key db.rows _ hsome with hnone | ⟨r, hr, hparse, rfl⟩
  · cases hnone
  · exact hasAt_of_mem hr hparse

/-- A hash that only one path can have, and that path has not, is gone. -/
theorem lacks_of_onlyAt {path : Bytes} (honly : db.OnlyAt path h) (hnot : ¬ db.HasAt path h) :
    db.Lacks h := by
  intro r hr hparse
  obtain rfl := honly r hr hparse
  exact hnot (hasAt_of_mem hr hparse)

end NixDb

-- ============================================================ the invariant

/-- A map is that of the snapshot its version is of. -/
def Nars.Current (x : Nars) (version : ℕ) (map : NarHash → Option Bytes) : Prop :=
  version ≤ x.version ∧ (version = x.version → map = x.db.narMap)

/-- The path still has the hash. Or there was a moment without the hash, and
a row that is there by now will be looked at. -/
def Lookup.Held (x : Nars) (c : Lookup) (path : Bytes) : Prop :=
  x.db.HasAt path c.narHash
    ∨ c.Missed ∧ (c.looking.verifies = true ∨ x.db.rowOf path = none)

/-- What a call knows where it is. -/
def Lookup.Knows (x : Nars) (c : Lookup) : Prop :=
  match c.looking with
  | .store version map => x.Current version map ∧ (map c.narHash = none → c.Missed)
  | .read => (x.index.bind fun ix => ix.map c.narHash) = none → c.Missed
  | .verify r fresh => fresh = true → parseHashColumn r.hash = some c.narHash ∨ c.Missed
  | .deliver r => parseHashColumn r.hash = some c.narHash
  | _ => c.Exact

structure Lookup.Ok (x : Nars) (c : Lookup) : Prop where
  live : c.looking.over = false → x.db ∈ c.seen
  held : ∀ path ∈ c.aim x, c.Held x path
  knows : c.Knows x

structure Nars.Ok (x : Nars) : Prop where
  wellFormed : x.db.WellFormed
  index : ∀ ix ∈ x.index, x.Current ix.dataVersion ix.map
  calls : ∀ c ∈ x.calls, c.Ok x

namespace Nars

variable {x : Nars} {c : Lookup}

/-- A call after its turn. -/
def turned (x : Nars) (c : Lookup) : Lookup := { c with looking := x.look c.narHash c.looking }

/-- The database after a turn, but for the calls. -/
def after (x : Nars) (c : Lookup) : Nars := { x with index := x.stored c.looking }

/-- The path that a call holds after its turn. -/
theorem Ok.held_look (hx : x.Ok) (hc : c.Ok x) :
    ∀ path ∈ (x.turned c).aim (x.after c), (x.turned c).Held (x.after c) path := by
  have hheld := hc.held
  obtain ⟨h, looking, seen⟩ := c
  intro path hpath
  unfold turned look at *
  cases looking with
  | start =>
      simp only at hpath ⊢
      cases hix : x.index with
      | none =>
          rw [hix] at hpath
          cases hpath
      | some ix =>
          rw [hix] at hpath
          simp only at hpath ⊢
          cases hmap : ix.map h with
          | none =>
              rw [hmap] at hpath
              simp only at hpath
              split at hpath
              · cases hpath
              · cases hpath
          | some path' =>
              rw [hmap] at hpath
              -- only a fresh map is trusted, and what it has is there
              cases hfresh : decide (ix.dataVersion = x.version) with
              | false =>
                  rw [hfresh] at hpath
                  cases hpath
              | true =>
                  rw [hfresh] at hpath
                  cases hpath
                  obtain ⟨-, hcur⟩ := hx.index ix hix
                  rw [hcur (of_decide_eq_true hfresh)] at hmap
                  exact Or.inl (NixDb.hasAt_of_narMap hmap)
  | hit path' fresh =>
      simp only at hpath
      split at hpath
      · cases hpath
      · split at hpath
        · cases hpath
        · cases hpath
  | verify r fresh =>
      simp only at hpath
      split at hpath
      · split at hpath
        · cases hpath
        · split at hpath
          · cases hpath
          · cases hpath
      · cases hpath
  | stale =>
      simp only at hpath
      split at hpath
      · split at hpath
        · cases hpath
        · cases hpath
      · cases hpath
  | scan => exact Or.inl (NixDb.hasAt_of_narMap hpath)
  | store version map => exact hheld path hpath
  | read =>
      simp only at hpath ⊢
      cases hmap : x.index.bind fun ix => ix.map h with
      | none =>
          rw [hmap] at hpath
          cases hpath
      | some path' =>
          rw [hmap] at hpath
          cases hpath
          exact hheld path hmap
  | found path' =>
      simp only at hpath
      split at hpath
      · cases hpath
      · cases hpath
  | direct =>
      simp only at hpath
      split at hpath
      · cases hpath
      · cases hpath
  | deliver r =>
      simp only at hpath
      split at hpath
      · cases hpath
      · cases hpath
  | done answer => cases hpath
  | failed => cases hpath

/-- What a call knows after its turn. -/
theorem Ok.knows_look (hx : x.Ok) (hc : c.Ok x) (hlive : c.looking.over = false) :
    (x.turned c).Knows (x.after c) := by
  have hseen := hc.live hlive
  have hheld := hc.held
  have hknows := hc.knows
  obtain ⟨h, looking, seen⟩ := c
  -- no row now is no row at a moment of the call
  have hmissed : ∀ {looking'}, x.db.Lacks h → (Lookup.mk h looking' seen).Missed :=
    fun hlacks => ⟨x.db, hseen, hlacks⟩
  unfold turned look
  cases looking with
  | start =>
      cases hix : x.index with
      | none => trivial
      | some ix =>
          simp only
          cases hmap : ix.map h with
          | some path => trivial
          | none =>
              simp only
              split
              next hfresh =>
                obtain ⟨-, hcur⟩ := hx.index ix hix
                rw [hcur (of_decide_eq_true hfresh)] at hmap
                exact hmissed (NixDb.lacks_of_narMap hmap)
              next => trivial
  | hit path fresh =>
      simp only
      cases hrow : x.db.rowOf path with
      | some r =>
          intro hfresh
          subst hfresh
          rcases hheld path rfl with ⟨r', hr', hparse⟩ | ⟨hmiss, -⟩
          · rw [Option.mem_def, hrow] at hr'
            cases hr'
            exact Or.inl hparse
          · exact Or.inr hmiss
      | none =>
          cases fresh with
          | false => trivial
          | true =>
              rcases hheld path rfl with ⟨r, hr, -⟩ | ⟨hmiss, -⟩
              · rw [Option.mem_def, hrow] at hr
                cases hr
              · exact hmiss
  | verify r fresh =>
      simp only
      cases hinfo : x.db.infoFromRow r with
      | none => trivial
      | some info =>
          simp only
          split
          next he => exact he
          next hne =>
            cases fresh with
            | false => trivial
            | true =>
                rcases hknows rfl with hparse | hmiss
                · rw [NixDb.narHash_infoFromRow hinfo] at hparse
                  exact absurd (Option.some.inj hparse) hne
                · exact hmiss
  | stale =>
      simp only
      split
      next =>
        split
        · trivial
        · trivial
      next => trivial
  | scan => exact ⟨⟨le_rfl, fun _ => rfl⟩, fun hnone => hmissed (NixDb.lacks_of_narMap hnone)⟩
  | store version map => exact hknows.2
  | read =>
      simp only
      cases hmap : x.index.bind fun ix => ix.map h with
      | some path => trivial
      | none => exact hknows hmap
  | found path =>
      simp only
      cases hrow : x.db.rowOf path with
      | some r =>
          rcases hheld path rfl with ⟨r', hr', hparse⟩ | ⟨-, hverifies | hnone⟩
          · rw [Option.mem_def, hrow] at hr'
            cases hr'
            exact hparse
          · cases hverifies
          · rw [hrow] at hnone
            cases hnone
      | none =>
          rcases hheld path rfl with ⟨r, hr, -⟩ | ⟨hmiss, -⟩
          · rw [Option.mem_def, hrow] at hr
            cases hr
          · exact hmiss
  | direct =>
      simp only
      cases hrow : x.db.scanRow h with
      | some r => exact NixDb.scanRow_eq_some hrow
      | none => exact hmissed (NixDb.scanRow_eq_none hx.wellFormed hrow)
  | deliver r =>
      simp only
      cases hinfo : x.db.infoFromRow r with
      | none => trivial
      | some info =>
          have hparse := NixDb.narHash_infoFromRow hinfo
          rw [hknows] at hparse
          exact (Option.some.inj hparse).symm
  | done answer => cases hlive
  | failed => cases hlive

/-- One turn of a call. -/
theorem Ok.turned (hx : x.Ok) (hc : c.Ok x) (hlive : c.looking.over = false) :
    (x.turned c).Ok (x.after c) where
  live _ := hc.live hlive
  held := hx.held_look hc
  knows := hx.knows_look hc hlive

end Nars

namespace Lookup

variable {x x' : Nars} {c : Lookup}

/-- A call that is not about to look at the map knows what it knows of the
snapshot and its version. -/
theorem Ok.congr (h : c.Ok x) (hdb : x'.db = x.db) (hversion : x'.version = x.version)
    (hindex : c.looking.reads = true → x'.index = x.index) : c.Ok x' := by
  have haim : c.aim x' = c.aim x := by
    unfold Lookup.aim
    split
    · rfl
    · rfl
    next hreads =>
      rw [hreads] at hindex
      rw [hindex rfl]
    · rfl
    · rfl
  refine ⟨fun hlive => hdb ▸ h.live hlive, fun path hpath => ?_, ?_⟩
  · rw [haim] at hpath
    have hheld := h.held path hpath
    unfold Lookup.Held at hheld ⊢
    rw [hdb]
    exact hheld
  · have hknows := h.knows
    obtain ⟨hash, looking, seen⟩ := c
    unfold Lookup.Knows Nars.Current at hknows ⊢
    rw [hdb, hversion]
    cases looking with
    | read =>
        simp only at hknows ⊢
        rw [hindex rfl]
        exact hknows
    | _ => exact hknows

/-- Another call's map of the current snapshot is as good as one's own. -/
theorem Ok.overwritten (h : c.Ok x) (hreads : c.looking.reads = true) {ix : NarIndex}
    (hcur : ix.map = x.db.narMap) : c.Ok { x with index := some ix } := by
  have hseen := h.live
  obtain ⟨hash, looking, seen⟩ := c
  cases looking with
  | read =>
      refine ⟨hseen, fun path hpath => Or.inl (NixDb.hasAt_of_narMap ?_), fun hnone => ?_⟩
      · rw [← hcur]
        exact hpath
      · refine ⟨x.db, hseen rfl, NixDb.lacks_of_narMap ?_⟩
        rw [← hcur]
        exact hnone
  | _ => cases hreads

theorem Missed.sees {looking : Looking} {h : NarHash} {seen : List NixDb} (db : NixDb)
    (hmissed : (Lookup.mk h looking seen).Missed) :
    (Lookup.mk h looking (seen ++ [db])).Missed := by
  obtain ⟨db', hdb', hlacks⟩ := hmissed
  exact ⟨db', List.mem_append_left _ hdb', hlacks⟩

/-- What a call holds, and a commit leaves, is still held. -/
theorem Held.sees {path : Bytes} {db : NixDb} (hheld : c.Held x path)
    (hleaves : x.db.Leaves path c.narHash c.looking.verifies db) (hlive : c.looking.over = false) :
    (c.sees db).Held { x with
      db := db
      version := x.version + 1
      calls := x.calls.map fun c => c.sees db } path := by
  unfold Lookup.sees
  rw [hlive, if_neg (by decide)]
  by_cases hthere : db.HasAt path c.narHash
  · exact Or.inl hthere
  rcases hleaves with hhas | ⟨honly, hrow⟩
  · exact absurd hhas hthere
  refine Or.inr ⟨?_, hrow⟩
  rcases hheld with hhas | ⟨hmissed, -⟩
  · -- the path alone had the hash, and has it no more
    exact ⟨db, List.mem_append_right _ List.mem_cons_self,
      NixDb.lacks_of_onlyAt (honly hhas) hthere⟩
  · exact hmissed.sees db

/-- A commit makes a map old, and adds a moment to each call. -/
theorem Ok.sees (h : c.Ok x) {db : NixDb}
    (hleaves : ∀ path ∈ c.aim x, x.db.Leaves path c.narHash c.looking.verifies db) :
    (c.sees db).Ok { x with
      db := db
      version := x.version + 1
      calls := x.calls.map fun c => c.sees db } := by
  have hheld : ∀ path ∈ c.aim x, c.looking.over = false → _ :=
    fun path hpath hlive => (h.held path hpath).sees (hleaves path hpath) hlive
  have hknows := h.knows
  obtain ⟨hash, looking, seen⟩ := c
  unfold Lookup.sees at hheld ⊢
  simp only at hheld ⊢
  cases hover : looking.over with
  | true =>
      rw [if_pos rfl]
      cases looking with
      | done answer => exact ⟨fun hlive => (Bool.noConfusion hlive), nofun, hknows⟩
      | failed => exact ⟨fun hlive => (Bool.noConfusion hlive), nofun, trivial⟩
      | _ => cases hover
  | false =>
      rw [hover, if_neg (by decide)] at hheld
      rw [if_neg (by decide)]
      refine ⟨fun _ => List.mem_append_right _ List.mem_cons_self,
        fun path hpath => hheld path hpath rfl, ?_⟩
      cases looking with
      | store version map =>
          obtain ⟨⟨hle, -⟩, hnone⟩ := hknows
          exact ⟨⟨Nat.le_succ_of_le hle,
            fun he => absurd he (Nat.ne_of_lt (Nat.lt_succ_of_le hle))⟩,
            fun hmap => (hnone hmap).sees db⟩
      | read => exact fun hmap => (hknows hmap).sees db
      | verify r fresh => exact fun hfresh => (hknows hfresh).imp_right (Missed.sees db)
      | deliver r => exact hknows
      | done answer => cases hover
      | failed => cases hover
      | _ => trivial

end Lookup

namespace Nars

variable {x x' : Nars}

/-- A turn changes the map only where a map is stored. -/
theorem Ok.index_turn (hx : x.Ok) {c : Lookup} (hc : c.Ok x) :
    ∀ ix ∈ x.stored c.looking, x.Current ix.dataVersion ix.map := by
  intro ix hix
  obtain ⟨hash, looking, seen⟩ := c
  cases looking with
  | store version map =>
      cases hix
      exact hc.knows.1
  | _ => exact hx.index ix hix

/-- The other calls after a call's turn. -/
theorem ok_other {c c' : Lookup} (hc : c.Ok x) (hc' : c'.Ok x)
    (hsteady : ∀ version ∈ c.looking.storing, version = x.version ∨ c'.looking.reads = false) :
    c'.Ok (x.after c) := by
  by_cases hreads : c'.looking.reads = true
  · obtain ⟨hash, looking, seen⟩ := c
    cases looking with
    | store version map =>
        rcases hsteady version rfl with rfl | hnot
        · exact hc'.overwritten hreads (hc.knows.1.2 rfl)
        · rw [hnot] at hreads
          cases hreads
    | _ => exact hc'.congr rfl rfl fun _ => rfl
  · exact hc'.congr rfl rfl fun h => absurd h hreads

theorem Ok.step (hx : x.Ok) {a : Nars.Act} (hsteady : x.Steady a)
    (hstep : x.step a = some x') : x'.Ok := by
  cases a with
  | call h =>
      cases hstep
      refine ⟨hx.wellFormed, hx.index, fun c hc => ?_⟩
      rcases List.mem_append.mp hc with hc | hc
      · exact (hx.calls c hc).congr rfl rfl fun _ => rfl
      · rw [List.mem_singleton.mp hc]
        exact ⟨fun _ => List.mem_cons_self, nofun, trivial⟩
  | turn i =>
      obtain ⟨c, hi, hstep⟩ := Option.bind_eq_some_iff.mp hstep
      have hc := hx.calls c (List.mem_of_getElem? hi)
      split at hstep
      next => cases hstep
      next hlive =>
        rw [Bool.not_eq_true] at hlive
        cases hstep
        refine ⟨hx.wellFormed, hx.index_turn hc, fun c' hc' => ?_⟩
        rcases List.mem_or_eq_of_mem_set hc' with hc' | rfl
        · have hother := ok_other hc (hx.calls c' hc') fun version hversion =>
            (hsteady c hi version hversion).imp_right fun hnone => hnone c' hc'
          exact hother.congr rfl rfl fun _ => rfl
        · exact (hx.turned hc hlive).congr rfl rfl fun _ => rfl
  | commit db =>
      simp only [Nars.step] at hstep
      split at hstep
      next hdb =>
        cases hstep
        refine ⟨hdb, fun ix hix => ?_, fun c hc => ?_⟩
        · obtain ⟨hle, -⟩ := hx.index ix hix
          exact ⟨Nat.le_succ_of_le hle, fun he => absurd he (Nat.ne_of_lt (Nat.lt_succ_of_le hle))⟩
        · obtain ⟨c', hc', rfl⟩ := List.mem_map.mp hc
          exact (hx.calls c' hc').sees (hsteady c' hc')
      next => cases hstep
  | pass nanos =>
      cases hstep
      exact ⟨hx.wellFormed, hx.index, fun c hc => (hx.calls c hc).congr rfl rfl fun _ => rfl⟩

end Nars

/-- `by_nar_hash` is exact among commits that leave the paths which calls
hold. -/
theorem by_nar_hash_exact {x : Nars} (h : narsSystem.ReachIf Nars.Steady x) :
    ∀ c ∈ x.calls, ∀ answer, c.looking = .done answer →
      match answer with
      | some info => info.narHash = c.narHash
      | none => ∃ db ∈ c.seen, db.Lacks c.narHash := by
  have hok : x.Ok := by
    refine System.ReachIf.invariant (I := Nars.Ok) ?_ ?_ h
    · rintro x ⟨hdb, hx⟩
      rw [hx]
      exact ⟨hdb, nofun, nofun⟩
    · intro x a x' _ hx hsteady hstep
      exact hx.step hsteady hstep
  intro c hc answer hdone
  have hknows := (hok.calls c hc).knows
  unfold Lookup.Knows at hknows
  rw [hdone] at hknows
  unfold Lookup.Exact at hknows
  rw [hdone] at hknows
  cases answer with
  | some info => exact hknows
  | none => exact hknows

namespace Nars

/-- Databases of a few paths, and the hashes of what is there. -/
def stocked (paths : List (UInt8 × UInt8)) : List ValidPath :=
  paths.mapIdx fun i p =>
    { id := i
      path := [p.1]
      hash := b16 (NarHash.ofByte p.2)
      narSize := some 1
      deriver := none
      sigs := none
      ca := none }

def oneOfFive : NixDb := ⟨stocked [(1, 5)], [], [], by decide, by decide⟩
def oneOfSix : NixDb := ⟨stocked [(1, 6)], [], [], by decide, by decide⟩
def twoOfFive : NixDb := ⟨stocked [(1, 5), (2, 5)], [], [], by decide, by decide⟩

/-- A call from beginning to end, by way of the rebuild. -/
def rebuilding (i : ℕ) : List Act := List.replicate 7 (.turn i)

end Nars

theorem Looking.answer_eq_some {l : Looking} {a : Option PathInfo} (h : l.answer = some a) :
    l = .done a := by
  cases l with
  | done answer => exact congrArg Looking.done (Option.some.inj h)
  | _ => cases h

/-- One call finds the path; the path is rewritten, and the next call knows
that the hash is gone. -/
theorem by_nar_hash_exact_rewritten :
    ∃ x : Nars, (x.calls.map fun c => c.looking.answer.map (Option.map PathInfo.narHash))
        = [some (some (NarHash.ofByte 5)), some none]
      ∧ ∀ c ∈ x.calls, ∀ answer, c.looking = .done answer →
        match answer with
        | some info => info.narHash = c.narHash
        | none => ∃ db ∈ c.seen, db.Lacks c.narHash := by
  have hrun : (narsSystem.runIf Nars.Steady { db := Nars.oneOfFive }
      ([.call (NarHash.ofByte 5)] ++ Nars.rebuilding 0
        ++ [.commit Nars.oneOfSix, .call (NarHash.ofByte 5)] ++ List.replicate 5 (.turn 1))).map
        (fun x => x.calls.map fun c => c.looking.answer.map (Option.map PathInfo.narHash))
      = some [some (some (NarHash.ofByte 5)), some none] := by
    decide +kernel
  obtain ⟨x, hx, hobs⟩ := Option.map_eq_some_iff.mp hrun
  have hinit : narsSystem.init { db := Nars.oneOfFive } := ⟨by decide +kernel, rfl⟩
  exact ⟨x, hobs, by_nar_hash_exact ((System.ReachIf.init hinit).runIf hx)⟩

/-- The path is rewritten between the rebuild and the read of its row, which
is returned as it is. And where two paths have the hash and the one in a
fresh map goes, the hash is taken to be gone. -/
theorem by_nar_hash_overtaken :
    (∃ x, narsSystem.Reach x ∧ ∃ c ∈ x.calls, ∃ info,
      c.looking = .done (some info) ∧ info.narHash ≠ c.narHash)
    ∧ ∃ x, narsSystem.Reach x ∧ ∃ c ∈ x.calls,
      c.looking = .done none ∧ ∀ db ∈ c.seen, ¬ db.Lacks c.narHash := by
  constructor
  · have hrun : (narsSystem.run { db := Nars.oneOfFive }
        ([.call (NarHash.ofByte 5)] ++ List.replicate 5 (.turn 0) ++ [.commit Nars.oneOfSix]
          ++ List.replicate 2 (.turn 0))).map
          (fun x => decide (∃ c ∈ x.calls, ∃ answer ∈ c.looking.answer, ∃ info ∈ answer,
            info.narHash ≠ c.narHash)) = some true := by
      decide +kernel
    obtain ⟨x, hx, hobs⟩ := Option.map_eq_some_iff.mp hrun
    obtain ⟨c, hc, answer, hanswer, info, rfl, hne⟩ := of_decide_eq_true hobs
    have hinit : narsSystem.init { db := Nars.oneOfFive } := ⟨by decide +kernel, rfl⟩
    exact ⟨x, (System.Reach.start hinit).run hx, c, hc, info, Looking.answer_eq_some hanswer, hne⟩
  · have hrun : (narsSystem.run { db := Nars.twoOfFive }
        ([.call (NarHash.ofByte 5)] ++ Nars.rebuilding 0
          ++ [.call (NarHash.ofByte 5), .turn 1, .commit Nars.oneOfFive, .turn 1])).map
          (fun x => decide (∃ c ∈ x.calls, none ∈ c.looking.answer
            ∧ ∀ db ∈ c.seen, ¬ db.Lacks c.narHash)) = some true := by
      decide +kernel
    obtain ⟨x, hx, hobs⟩ := Option.map_eq_some_iff.mp hrun
    obtain ⟨c, hc, hnone, hseen⟩ := of_decide_eq_true hobs
    have hinit : narsSystem.init { db := Nars.twoOfFive } := ⟨by decide +kernel, rfl⟩
    exact ⟨x, (System.Reach.start hinit).run hx, c, hc, Looking.answer_eq_some hnone, hseen⟩

end Narshare
