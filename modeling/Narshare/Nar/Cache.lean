/-
The cache of seek tables of serve.rs, and what it thinks it holds.

# Counted and read

A table is counted inside the initialiser of its entry's cell
(`NarCache.account`), and the cell is set once that is over: in between
the cell still reads as empty, and an entry put out in that while takes
nothing off the count (`NarCache.forget`). `Tables.Act` has the three
moments as three actions, with everything else the cache goes through
between them.

The comment on `account` has the entry it counts as the most recently
used, so that evicting stops before it. It was, when its build began. An
entry used since is more recent, and then the count of a table that is no
longer there stays (`account_evicts_itself`). Where no step puts out an
entry counted and not yet set (`Tables.Spares`) the count is exact
(`table_bytes_exact`). `evictGo_spec` says which entries the loop puts
out, so that the condition can be read off the state before.
-/
import Narshare.Lib.Lru
import Narshare.Lib.System
import Narshare.Nar.Build

namespace Narshare

/-- `TABLE_ENTRIES`. -/
def TABLE_ENTRIES : ℕ := 4096

/-- `approx_bytes`, by the size of a `Seg`. -/
def SeekTable.approxBytes (sizeOfSeg : ℕ) (t : SeekTable) : ℕ :=
  t.lits.length + t.segs.length * (sizeOfSeg + 32)

/-- The bytes of a table, where there is one. -/
def bytesOf (sizeOfSeg : ℕ) (t : Option SeekTable) : ℕ := t.elim 0 (SeekTable.approxBytes sizeOfSeg)

/-- A `OnceCell`, and where its initialiser is. -/
inductive Cell
  | empty
  | building
  | accounted (table : SeekTable)
  | built (table : SeekTable)

/-- `OnceCell::get`. -/
def Cell.get : Cell → Option SeekTable
  | .built table => some table
  | _ => none

/-- What the count should have of a cell. -/
def Cell.counted : Cell → Option SeekTable
  | .accounted table => some table
  | .built table => some table
  | _ => none

/-- Is the initialiser over the counting, and the cell not set? -/
def Cell.pending : Cell → Bool
  | .accounted _ => true
  | _ => false

/-- Is no initialiser at work? -/
def Cell.idle : Cell → Bool
  | .empty => true
  | .built _ => true
  | _ => false

variable {K : Type} [DecidableEq K]

/-- `NarEntry`, with the hash it is asked for by. -/
structure NarEntry (K : Type) where
  hash : K
  narSize : ℕ
  table : Cell := .empty

/-- `NarCache`, of shared entries known by their place. -/
structure NarCache (L : Lru K ℕ) where
  lru : L.Cache
  tableBytes : ℕ
  budget : ℕ
  ceiling : ℕ

namespace NarCache

variable {L : Lru K ℕ}

/-- `forget`. -/
def forget (sizeOfSeg : ℕ) (c : NarCache L) (evicted : Option SeekTable) : NarCache L :=
  match evicted with
  | some t => { c with tableBytes := c.tableBytes - t.approxBytes sizeOfSeg }
  | none => c

/-- `insert`; `table` is what the cells read as. -/
def insert (sizeOfSeg : ℕ) (table : ℕ → Option SeekTable) (c : NarCache L) (hash : K)
    (entry : ℕ) : NarCache L :=
  match L.push c.lru hash entry with
  | (some (_, displaced), lru) => forget sizeOfSeg { c with lru := lru } (table displaced)
  | (none, lru) => { c with lru := lru }

/-- The loop of `evict_to_budget`. -/
def evictGo (sizeOfSeg : ℕ) (table : ℕ → Option SeekTable) : ℕ → NarCache L → NarCache L
  | 0, c => c
  | n + 1, c =>
      if c.tableBytes > c.budget ∧ L.len c.lru > 1 then
        match L.popLru c.lru with
        | (none, lru) => { c with lru := lru }
        | (some (_, evicted), lru) =>
            evictGo sizeOfSeg table n (forget sizeOfSeg { c with lru := lru } (table evicted))
      else c

/-- `evict_to_budget`; a turn of the loop leaves one entry less. -/
def evictToBudget (sizeOfSeg : ℕ) (table : ℕ → Option SeekTable) (c : NarCache L) : NarCache L :=
  evictGo sizeOfSeg table (L.len c.lru) c

/-- `account`. -/
def account (sizeOfSeg : ℕ) (table : ℕ → Option SeekTable) (c : NarCache L) (hash : K)
    (entry built : ℕ) : NarCache L :=
  match L.peek c.lru hash with
  | some resident =>
      if resident = entry then
        evictToBudget sizeOfSeg table { c with tableBytes := c.tableBytes + built }
      else c
  | none => c

/-- `set_budget`. -/
def setBudget (sizeOfSeg : ℕ) (table : ℕ → Option SeekTable) (c : NarCache L) (bytes : ℕ) :
    NarCache L :=
  evictToBudget sizeOfSeg table { c with budget := bytes }

end NarCache

/-- The cache, and all the entries there have been. -/
structure Tables (L : Lru K ℕ) where
  nars : NarCache L
  entries : List (NarEntry K) := []

namespace Tables

variable {L : Lru K ℕ}

/-- What a cell reads as. -/
def table (x : Tables L) (e : ℕ) : Option SeekTable := x.entries[e]?.bind fun n => n.table.get

/-- What the count should have of an entry. -/
def counted (x : Tables L) (e : ℕ) : Option SeekTable :=
  x.entries[e]?.bind fun n => n.table.counted

/-- Has an entry been counted, its cell not set? -/
def pending (x : Tables L) (e : ℕ) : Bool := x.entries[e]?.elim false fun n => n.table.pending

/-- Write an entry's cell. -/
def put (x : Tables L) (e : ℕ) (cell : Cell) : Tables L :=
  { x with entries := x.entries.modify e fun n => { n with table := cell } }

inductive Act (K : Type)
  /-- The first look of `nar_entry`. -/
  | look (hash : K)
  /-- `nar_entry` with the answer of the db, which says the size. -/
  | resolve (hash : K) (narSize : ℕ)
  /-- A request is the first to want an entry's table. -/
  | start (entry : ℕ)
  /-- The build fails, or its request is dropped. -/
  | stop (entry : ℕ)
  /-- The walk is over: check the size, and account. -/
  | walked (entry : ℕ) (table : SeekTable)
  /-- The initialiser is over. -/
  | set (entry : ℕ)
  /-- `set_budget`. -/
  | setBudget (bytes : ℕ)

/-- One action. -/
def step (sizeOfSeg : ℕ) (x : Tables L) : Act K → Option (Tables L)
  | .look hash => some { x with nars := { x.nars with lru := (L.get x.nars.lru hash).2 } }
  | .resolve hash narSize =>
      match L.get x.nars.lru hash with
      -- inserted by another request meanwhile
      | (some _, lru) => some { x with nars := { x.nars with lru := lru } }
      | (none, lru) =>
          some
            { nars := NarCache.insert sizeOfSeg x.table { x.nars with lru := lru } hash
                x.entries.length
              entries := x.entries ++ [⟨hash, narSize, .empty⟩] }
  | .start e =>
      match x.entries[e]? with
      | some ⟨_, _, .empty⟩ => some (x.put e .building)
      | _ => none
  | .stop e =>
      match x.entries[e]? with
      | some ⟨_, _, .building⟩ => some (x.put e .empty)
      | _ => none
  | .walked e t =>
      match x.entries[e]? with
      | some ⟨hash, narSize, .building⟩ =>
          if t.narSize ≠ narSize then some (x.put e .empty)
          else
            some
              { x.put e (.accounted t) with
                nars := x.nars.account sizeOfSeg x.table hash e (t.approxBytes sizeOfSeg) }
      | _ => none
  | .set e =>
      match x.entries[e]? with
      | some ⟨_, _, .accounted t⟩ => some (x.put e (.built t))
      | _ => none
  | .setBudget bytes => some { x with nars := x.nars.setBudget sizeOfSeg x.table bytes }

/-- An empty cache. -/
def Init (x : Tables L) : Prop :=
  ∃ budget, x = { nars := ⟨L.new TABLE_ENTRIES, 0, budget, budget⟩ }

/-- The bytes of the tables that are built and resident. -/
def heldBytes (sizeOfSeg : ℕ) (x : Tables L) : ℕ :=
  ((L.order x.nars.lru).map fun o => bytesOf sizeOfSeg (x.table o.2)).sum

/-- Is no build in progress? -/
def Quiet (x : Tables L) : Prop := ∀ n ∈ x.entries, n.table.idle = true

instance (x : Tables L) : Decidable x.Quiet := by
  unfold Quiet
  infer_instance

/-- Is an entry in the cache? -/
def Resident (x : Tables L) (e : ℕ) : Prop := e ∈ (L.order x.nars.lru).map Prod.snd

instance (x : Tables L) (e : ℕ) : Decidable (x.Resident e) := by
  unfold Resident
  infer_instance

end Tables

/-- The cache, whatever it goes through. -/
def tablesSystem (L : Lru K ℕ) (sizeOfSeg : ℕ) : System (Tables L) (Tables.Act K) where
  init := Tables.Init
  step := Tables.step sizeOfSeg

-- ================================================================ the loop

namespace NarCache

variable {L : Lru K ℕ} {sizeOfSeg : ℕ} {table : ℕ → Option SeekTable}

/-- The bytes that go with entries. -/
def bytesAlong (sizeOfSeg : ℕ) (table : ℕ → Option SeekTable) (l : List (K × ℕ)) : ℕ :=
  (l.map fun o => bytesOf sizeOfSeg (table o.2)).sum

omit [DecidableEq K] in
variable (sizeOfSeg table) in
theorem bytesAlong_append (l l' : List (K × ℕ)) :
    bytesAlong sizeOfSeg table (l ++ l')
      = bytesAlong sizeOfSeg table l + bytesAlong sizeOfSeg table l' := by
  rw [bytesAlong, List.map_append, List.sum_append]
  rfl

omit [DecidableEq K] in
theorem bytesAlong_congr {table' : ℕ → Option SeekTable} {l : List (K × ℕ)}
    (h : ∀ o ∈ l, table o.2 = table' o.2) :
    bytesAlong sizeOfSeg table l = bytesAlong sizeOfSeg table' l := by
  rw [bytesAlong, bytesAlong, List.map_congr_left fun o ho => by rw [h o ho]]

omit [DecidableEq K] in
theorem bytesAlong_perm {l l' : List (K × ℕ)} (h : l.Perm l') :
    bytesAlong sizeOfSeg table l = bytesAlong sizeOfSeg table l' :=
  (h.map _).sum_eq

theorem forget_eq (c : NarCache L) (t : Option SeekTable) :
    forget sizeOfSeg c t = { c with tableBytes := c.tableBytes - bytesOf sizeOfSeg t } := by
  cases t with
  | none => rfl
  | some t => rfl

/-- What the loop puts out: as long as there are two entries and what the
older ones held is not enough, the oldest; and then it is done. -/
theorem evictGo_spec (sizeOfSeg : ℕ) (table : ℕ → Option SeekTable) {n : ℕ} {c : NarCache L}
    (hn : (L.order c.lru).length ≤ n) :
    ∃ m, L.order (evictGo sizeOfSeg table n c).lru = (L.order c.lru).drop m
      ∧ (∀ i < m, i + 1 < (L.order c.lru).length
        ∧ c.budget + bytesAlong sizeOfSeg table ((L.order c.lru).take i) < c.tableBytes)
      ∧ (evictGo sizeOfSeg table n c).tableBytes
        = c.tableBytes - bytesAlong sizeOfSeg table ((L.order c.lru).take m)
      ∧ (c.tableBytes ≤ c.budget + bytesAlong sizeOfSeg table ((L.order c.lru).take m)
        ∨ (L.order c.lru).length ≤ m + 1) := by
  induction n generalizing c with
  | zero => exact ⟨0, rfl, nofun, rfl, Or.inr (hn.trans (Nat.zero_le 1))⟩
  | succ n ih =>
      rw [evictGo]
      split
      next hmore =>
        rw [L.len_eq] at hmore
        obtain ⟨hfst, hsnd, -⟩ := L.popLru_eq c.lru
        cases hl : L.order c.lru with
        | nil =>
            rw [hl] at hmore
            exact absurd hmore.2 (Nat.not_lt_zero 1)
        | cons o l =>
            rw [hl] at hfst hsnd hmore hn
            rcases hpop : L.popLru c.lru with ⟨out, lru⟩
            rw [hpop] at hfst hsnd
            obtain rfl : out = some o := hfst
            have hsnd : L.order lru = l := hsnd
            have hstep := @ih (forget sizeOfSeg { c with lru := lru } (table o.2))
            rw [forget_eq] at hstep
            simp only [hsnd] at hstep
            obtain ⟨m, horder, hout, hbytes, hdone⟩ := hstep (Nat.le_of_succ_le_succ hn)
            have hcons : ∀ i, bytesAlong sizeOfSeg table ((o :: l).take (i + 1))
                = bytesOf sizeOfSeg (table o.2) + bytesAlong sizeOfSeg table (l.take i) := by
              intro i
              rw [List.take_succ_cons, bytesAlong, List.map_cons, List.sum_cons]
              rfl
            simp only [forget_eq]
            refine ⟨m + 1, horder, fun i hi => ?_, ?_, ?_⟩
            · cases i with
              | zero => exact ⟨hmore.2, hmore.1⟩
              | succ i =>
                  obtain ⟨hlen, hlt⟩ := hout i (Nat.lt_of_succ_lt_succ hi)
                  rw [hcons, List.length_cons]
                  exact ⟨Nat.succ_lt_succ hlen, by omega⟩
            · rw [hbytes, hcons, Nat.sub_sub]
            · rw [hcons, List.length_cons]
              rcases hdone with hdone | hdone
              · exact Or.inl (by omega)
              · exact Or.inr (Nat.succ_le_succ hdone)
      next hless =>
        refine ⟨0, rfl, nofun, rfl, ?_⟩
        rw [L.len_eq, not_and_or, Nat.not_lt, Nat.not_lt] at hless
        rcases hless with hle | hone
        · exact Or.inl hle
        · exact Or.inr hone

/-- No pending entry is put out: each is the most recently used, or the
older ones hold enough. -/
def Lasts (sizeOfSeg : ℕ) (table : ℕ → Option SeekTable) (pending : ℕ → Bool) (c : NarCache L) :
    Prop :=
  ∀ i < (L.order c.lru).length - 1, ∀ o ∈ (L.order c.lru)[i]?, pending o.2 = true →
    c.tableBytes ≤ c.budget + bytesAlong sizeOfSeg table ((L.order c.lru).take i)

instance (pending : ℕ → Bool) (c : NarCache L) : Decidable (c.Lasts sizeOfSeg table pending) := by
  unfold Lasts
  infer_instance

/-- That is what keeps them. -/
theorem lasts_iff (pending : ℕ → Bool) (c : NarCache L) :
    c.Lasts sizeOfSeg table pending
      ↔ ∀ o ∈ L.order c.lru, pending o.2 = true →
        o ∈ L.order (c.evictToBudget sizeOfSeg table).lru := by
  obtain ⟨m, horder, hout, -, hdone⟩ :=
    evictGo_spec sizeOfSeg table (L.len_eq c.lru).ge
  rw [evictToBudget, horder]
  constructor
  · intro h o ho hpending
    obtain ⟨i, hi⟩ := List.mem_iff_getElem?.mp ho
    rcases Nat.lt_or_ge i m with hlt | hge
    · obtain ⟨hlen, hmore⟩ := hout i hlt
      have := h i (by omega) o hi hpending
      omega
    · refine List.mem_iff_getElem?.mpr ⟨i - m, ?_⟩
      rw [List.getElem?_drop, Nat.add_sub_cancel' hge, hi]
  · intro h i hi o ho hpending
    have hmem := List.mem_of_getElem? ho
    obtain ⟨j, hj⟩ := List.mem_iff_getElem?.mp (h o hmem hpending)
    rw [List.getElem?_drop] at hj
    -- no entry is there twice
    have hij : i = m + j :=
      List.getElem?_inj (List.getElem?_eq_some_iff.mp ho).1 (L.order_nodup c.lru).of_map
        |>.mp (ho.trans hj.symm)
    have hsplit : bytesAlong sizeOfSeg table ((L.order c.lru).take m)
        ≤ bytesAlong sizeOfSeg table ((L.order c.lru).take i) := by
      rw [hij, List.take_add, bytesAlong_append]
      exact Nat.le_add_right _ _
    rcases hdone with hdone | hdone
    · omega
    · omega

/-- A count that is right stays right where no pending entry is put out. -/
theorem evictToBudget_exact (counted : ℕ → Option SeekTable) {pending : ℕ → Bool} {c : NarCache L}
    (hpending : ∀ e, pending e = false → table e = counted e)
    (hbytes : c.tableBytes = bytesAlong sizeOfSeg counted (L.order c.lru))
    (hlasts : c.Lasts sizeOfSeg table pending) :
    (c.evictToBudget sizeOfSeg table).tableBytes
        = bytesAlong sizeOfSeg counted (L.order (c.evictToBudget sizeOfSeg table).lru)
      ∧ ∀ o ∈ L.order (c.evictToBudget sizeOfSeg table).lru, o ∈ L.order c.lru := by
  obtain ⟨m, horder, hout, htable, -⟩ :=
    evictGo_spec sizeOfSeg table (L.len_eq c.lru).ge
  rw [evictToBudget, horder, htable]
  refine ⟨?_, fun o ho => List.mem_of_mem_drop ho⟩
  have hsame : bytesAlong sizeOfSeg table ((L.order c.lru).take m)
      = bytesAlong sizeOfSeg counted ((L.order c.lru).take m) := by
    refine bytesAlong_congr fun o ho => hpending o.2 ?_
    obtain ⟨i, hi⟩ := List.mem_iff_getElem?.mp ho
    have him : i < m := (List.getElem?_eq_some_iff.mp hi).1.trans_le (List.length_take_le _ _)
    rw [List.getElem?_take_of_lt him] at hi
    obtain ⟨hlen, hmore⟩ := hout i him
    rw [Bool.eq_false_iff]
    intro hpend
    have := hlasts i (by omega) o hi hpend
    omega
  have hsplit := bytesAlong_append sizeOfSeg counted ((L.order c.lru).take m)
    ((L.order c.lru).drop m)
  rw [List.take_append_drop] at hsplit
  rw [hsame, hbytes, hsplit, Nat.add_sub_cancel_left]

end NarCache

-- =========================================================== the invariant

namespace Tables

variable {L : Lru K ℕ} {sizeOfSeg : ℕ} {x x' : Tables L}

/-- No step puts out an entry that is counted and not yet set. -/
def Spares (sizeOfSeg : ℕ) (x : Tables L) : Act K → Prop
  | .resolve hash _ =>
      L.peek x.nars.lru hash = none → L.cap x.nars.lru ≤ L.len x.nars.lru →
        ∀ o ∈ (L.order x.nars.lru).head?, x.pending o.2 = false
  | .walked e t =>
      ∀ n ∈ x.entries[e]?, n.narSize = t.narSize → L.peek x.nars.lru n.hash = some e →
        NarCache.Lasts sizeOfSeg x.table (fun e' => decide (e' = e) || x.pending e')
          { x.nars with tableBytes := x.nars.tableBytes + t.approxBytes sizeOfSeg }
  | .setBudget bytes =>
      NarCache.Lasts sizeOfSeg x.table x.pending { x.nars with budget := bytes }
  | _ => True

instance (x : Tables L) (a : Act K) : Decidable (x.Spares sizeOfSeg a) := by
  unfold Spares
  split
  · infer_instance
  · infer_instance
  · infer_instance
  · infer_instance

/-- Each entry is there under its hash, and the count is right. -/
structure Ok (sizeOfSeg : ℕ) (x : Tables L) : Prop where
  hash : ∀ o ∈ L.order x.nars.lru, ∃ n, x.entries[o.2]? = some n ∧ n.hash = o.1
  bytes : x.nars.tableBytes
    = NarCache.bytesAlong sizeOfSeg x.counted (L.order x.nars.lru)

theorem counted_of_not_pending {e : ℕ} (h : x.pending e = false) : x.table e = x.counted e := by
  unfold table counted
  unfold pending at h
  cases hn : x.entries[e]? with
  | none => rfl
  | some n =>
      rw [hn, Option.elim_some] at h
      rw [Option.bind_some, Option.bind_some]
      cases hcell : n.table with
      | accounted t =>
          rw [hcell] at h
          cases h
      | empty => rfl
      | building => rfl
      | built t => rfl

/-- With no build in progress what is counted is what is built. -/
theorem counted_of_quiet (h : x.Quiet) (e : ℕ) : x.table e = x.counted e := by
  refine counted_of_not_pending ?_
  unfold pending
  cases hn : x.entries[e]? with
  | none => rfl
  | some n =>
      have hidle := h n (List.mem_of_getElem? hn)
      rw [Option.elim_some]
      cases hcell : n.table with
      | accounted t =>
          rw [hcell] at hidle
          cases hidle
      | empty => rfl
      | building => rfl
      | built t => rfl

theorem entries_put (x : Tables L) (e : ℕ) (cell : Cell) (e' : ℕ) :
    (x.put e cell).entries[e']?
      = x.entries[e']?.map fun n => if e = e' then { n with table := cell } else n :=
  List.getElem?_modify _ _ _ _

theorem counted_put {e : ℕ} {n : NarEntry K} (hn : x.entries[e]? = some n) (cell : Cell) (e' : ℕ) :
    (x.put e cell).counted e' = if e' = e then cell.counted else x.counted e' := by
  rw [counted, entries_put]
  by_cases he : e' = e
  · subst he
    rw [if_pos rfl, hn, Option.map_some, if_pos rfl, Option.bind_some]
  · rw [if_neg he, counted]
    cases x.entries[e']? with
    | none => rfl
    | some n' => rw [Option.map_some, if_neg (Ne.symm he)]

theorem hash_put {e : ℕ} {cell : Cell} {o : K × ℕ}
    (h : ∃ n, x.entries[o.2]? = some n ∧ n.hash = o.1) :
    ∃ n, (x.put e cell).entries[o.2]? = some n ∧ n.hash = o.1 := by
  obtain ⟨n, hn, hk⟩ := h
  refine ⟨_, by rw [entries_put, hn, Option.map_some], ?_⟩
  split
  · exact hk
  · exact hk

/-- A cell that goes on without being counted anew. -/
theorem Ok.put {e : ℕ} {n : NarEntry K} (h : x.Ok sizeOfSeg) (hn : x.entries[e]? = some n)
    {cell : Cell} (hcell : cell.counted = n.table.counted) : (x.put e cell).Ok sizeOfSeg := by
  refine ⟨fun o ho => hash_put (h.hash o ho), ?_⟩
  refine h.bytes.trans (NarCache.bytesAlong_congr fun o _ => ?_)
  rw [counted_put hn]
  split
  next he => rw [he, hcell, counted, hn, Option.bind_some]
  next => rfl

/-- An entry used. -/
theorem Ok.get (h : x.Ok sizeOfSeg) (hash : K) :
    Ok sizeOfSeg { x with nars := { x.nars with lru := (L.get x.nars.lru hash).2 } } := by
  have hperm := Lru.used_perm (L.order_nodup x.nars.lru) hash
  rw [← (L.get_eq x.nars.lru hash).2.1] at hperm
  exact ⟨fun o ho => h.hash o (hperm.mem_iff.mp ho),
    h.bytes.trans (NarCache.bytesAlong_perm hperm).symm⟩

/-- A new entry: the oldest makes room for it in a full cache. -/
theorem Ok.insert (h : x.Ok sizeOfSeg) {hash : K} {narSize : ℕ}
    (hnone : Lru.at_ hash (L.order x.nars.lru) = none)
    (hspares : L.cap x.nars.lru ≤ (L.order x.nars.lru).length →
      ∀ o ∈ (L.order x.nars.lru).head?, x.pending o.2 = false) :
    Ok sizeOfSeg
      { nars := NarCache.insert sizeOfSeg x.table x.nars hash x.entries.length
        entries := x.entries ++ [⟨hash, narSize, .empty⟩] } := by
  -- the new entry counts for nothing, and the others as before
  have hnew : ∀ {l : List (K × ℕ)}, (∀ o ∈ l, ∃ n, x.entries[o.2]? = some n ∧ n.hash = o.1) →
      ∀ nars : NarCache L, NarCache.bytesAlong sizeOfSeg
        (Tables.counted ⟨nars, x.entries ++ [⟨hash, narSize, .empty⟩]⟩)
        (l ++ [(hash, x.entries.length)]) = NarCache.bytesAlong sizeOfSeg x.counted l := by
    intro l hl nars
    rw [NarCache.bytesAlong_append]
    have hlast : NarCache.bytesAlong sizeOfSeg
        (Tables.counted ⟨nars, x.entries ++ [⟨hash, narSize, .empty⟩]⟩)
        [(hash, x.entries.length)] = 0 := by
      simp [NarCache.bytesAlong, Tables.counted, Cell.counted, bytesOf]
    rw [hlast, Nat.add_zero]
    refine NarCache.bytesAlong_congr fun o ho => ?_
    obtain ⟨n, hn, -⟩ := hl o ho
    rw [Tables.counted, Tables.counted,
      List.getElem?_append_left (List.getElem?_eq_some_iff.mp hn).1]
  have hhash : ∀ {l : List (K × ℕ)}, (∀ o ∈ l, ∃ n, x.entries[o.2]? = some n ∧ n.hash = o.1) →
      ∀ o ∈ l ++ [(hash, x.entries.length)],
        ∃ n, (x.entries ++ [⟨hash, narSize, .empty⟩])[o.2]? = some n ∧ n.hash = o.1 := by
    intro l hl o ho
    rcases List.mem_append.mp ho with ho | ho
    · obtain ⟨n, hn, hk⟩ := hl o ho
      exact ⟨n, by rw [List.getElem?_append_left (List.getElem?_eq_some_iff.mp hn).1, hn], hk⟩
    · rw [List.mem_singleton.mp ho]
      exact ⟨⟨hash, narSize, .empty⟩, by simp, rfl⟩
  obtain ⟨hfst, hsnd, -⟩ := L.push_eq x.nars.lru hash x.entries.length
  rcases hpush : L.push x.nars.lru hash x.entries.length with ⟨out, lru⟩
  rw [hpush] at hfst hsnd
  simp only [Lru.displaced, Lru.pushed, hnone] at hfst hsnd
  have hpushed : ∀ {l}, L.order lru = l ++ [(hash, x.entries.length)] →
      (∀ o ∈ l, o ∈ L.order x.nars.lru) → ∀ {nars : NarCache L}, nars.lru = lru →
      nars.tableBytes = NarCache.bytesAlong sizeOfSeg x.counted l →
      Ok sizeOfSeg ⟨nars, x.entries ++ [⟨hash, narSize, .empty⟩]⟩ := by
    intro l horder hsub nars hlru hbytes
    constructor
    · intro o ho
      simp only [hlru, horder] at ho ⊢
      exact hhash (fun o ho => h.hash o (hsub o ho)) o ho
    · simp only [hlru, horder, hbytes]
      exact (hnew (fun o ho => h.hash o (hsub o ho)) nars).symm
  unfold NarCache.insert
  rw [hpush]
  cases hl : L.order x.nars.lru with
  | nil =>
      rw [hl] at hfst hsnd hpushed
      obtain rfl : out = none := by
        rw [hfst]
        split
        · rfl
        · rfl
      refine hpushed (l := []) ?_ (fun o ho => ho) rfl ?_
      · rw [hsnd]
        split
        · rfl
        · rfl
      · rw [h.bytes, hl]
  | cons o l =>
      have hbytes := h.bytes
      rw [hl] at hfst hsnd hpushed hspares hbytes
      by_cases hfull : L.cap x.nars.lru ≤ (o :: l).length
      · rw [if_pos hfull] at hfst hsnd
        obtain rfl : out = some o := hfst
        refine hpushed hsnd (fun o' ho' => List.mem_cons_of_mem o ho') ?_ ?_
        · simp only [NarCache.forget_eq]
        · have hcount := counted_of_not_pending (hspares hfull o rfl)
          simp only [NarCache.forget_eq, hcount, hbytes]
          rw [NarCache.bytesAlong, List.map_cons, List.sum_cons, Nat.add_sub_cancel_left]
          rfl
      · rw [if_neg hfull] at hfst hsnd
        obtain rfl : out = none := hfst
        exact hpushed hsnd (fun o' ho' => ho') rfl hbytes

/-- One entry counted for more, where it is. -/
theorem bytesAlong_put (h : x.Ok sizeOfSeg) {e : ℕ} {n : NarEntry K}
    (hn : x.entries[e]? = some n) (hcell : n.table = .building) (t : SeekTable)
    (hmem : (n.hash, e) ∈ L.order x.nars.lru) :
    NarCache.bytesAlong sizeOfSeg (x.put e (.accounted t)).counted (L.order x.nars.lru)
      = x.nars.tableBytes + t.approxBytes sizeOfSeg := by
  have hnodup := (L.order_nodup x.nars.lru).of_map
  have hperm := List.perm_cons_erase hmem
  have hrest : ∀ o ∈ (L.order x.nars.lru).erase (n.hash, e), o.2 ≠ e := by
    rintro ⟨k, e'⟩ ho rfl
    obtain ⟨hne, ho⟩ := hnodup.mem_erase_iff.mp ho
    obtain ⟨n', hn', hk⟩ := h.hash _ ho
    rw [hn] at hn'
    cases hn'
    exact hne (Prod.ext hk.symm rfl)
  have hbefore : x.counted e = none := by
    rw [counted, hn, Option.bind_some, hcell]
    rfl
  have hcons : ∀ table : ℕ → Option SeekTable,
      NarCache.bytesAlong sizeOfSeg table (L.order x.nars.lru)
      = bytesOf sizeOfSeg (table e)
        + NarCache.bytesAlong sizeOfSeg table ((L.order x.nars.lru).erase (n.hash, e)) := by
    intro table
    rw [NarCache.bytesAlong_perm hperm, NarCache.bytesAlong, List.map_cons, List.sum_cons]
    rfl
  have hsame : NarCache.bytesAlong sizeOfSeg (x.put e (.accounted t)).counted
        ((L.order x.nars.lru).erase (n.hash, e))
      = NarCache.bytesAlong sizeOfSeg x.counted ((L.order x.nars.lru).erase (n.hash, e)) :=
    NarCache.bytesAlong_congr fun o ho => by rw [counted_put hn, if_neg (hrest o ho)]
  have hbytes := h.bytes
  rw [hcons, hbefore] at hbytes
  rw [hcons, hsame, counted_put hn, if_pos rfl, hbytes]
  show t.approxBytes sizeOfSeg + _ = 0 + _ + t.approxBytes sizeOfSeg
  omega

/-- Where an entry is, it is found under its hash. -/
theorem peek_eq_some {e : ℕ} {n : NarEntry K} :
    L.peek x.nars.lru n.hash = some e ↔ (n.hash, e) ∈ L.order x.nars.lru := by
  rw [L.peek_eq, Option.map_eq_some_iff]
  constructor
  · rintro ⟨⟨k, e'⟩, hat, rfl⟩
    obtain ⟨hmem, rfl⟩ := Lru.at_eq_some hat
    exact hmem
  · intro hmem
    exact ⟨_, Lru.at_of_mem (L.order_nodup _) hmem, rfl⟩

theorem Ok.resident_iff (h : x.Ok sizeOfSeg) {e : ℕ} {n : NarEntry K}
    (hn : x.entries[e]? = some n) : x.Resident e ↔ (n.hash, e) ∈ L.order x.nars.lru := by
  constructor
  · intro he
    obtain ⟨⟨k, e'⟩, ho, rfl⟩ := List.mem_map.mp he
    obtain ⟨n', hn', rfl⟩ := h.hash _ ho
    rw [hn] at hn'
    cases hn'
    exact ho
  · exact fun ho => List.mem_map.mpr ⟨_, ho, rfl⟩

/-- A walk that is over. -/
theorem Ok.walked (h : x.Ok sizeOfSeg) {e : ℕ} {n : NarEntry K} {t : SeekTable}
    (hn : x.entries[e]? = some n) (hcell : n.table = .building)
    (hspares : L.peek x.nars.lru n.hash = some e →
      NarCache.Lasts sizeOfSeg x.table (fun e' => decide (e' = e) || x.pending e')
        { x.nars with tableBytes := x.nars.tableBytes + t.approxBytes sizeOfSeg }) :
    Ok sizeOfSeg
      { x.put e (.accounted t) with
        nars := x.nars.account sizeOfSeg x.table n.hash e (t.approxBytes sizeOfSeg) } := by
  by_cases hpeek : L.peek x.nars.lru n.hash = some e
  · have hout := NarCache.evictToBudget_exact (x.put e (.accounted t)).counted
      (fun e' hfalse => by
        rw [Bool.or_eq_false_iff, decide_eq_false_iff_not] at hfalse
        rw [counted_of_not_pending hfalse.2, counted_put hn, if_neg hfalse.1])
      (bytesAlong_put h hn hcell t (peek_eq_some.mp hpeek)).symm (hspares hpeek)
    have heq : x.nars.account sizeOfSeg x.table n.hash e (t.approxBytes sizeOfSeg)
        = NarCache.evictToBudget sizeOfSeg x.table
          { x.nars with tableBytes := x.nars.tableBytes + t.approxBytes sizeOfSeg } := by
      simp only [NarCache.account, hpeek, if_true]
    rw [heq]
    exact ⟨fun o ho => hash_put (h.hash o (hout.2 o ho)), hout.1⟩
  · -- put out meanwhile: neither counted nor in the cache
    have heq : x.nars.account sizeOfSeg x.table n.hash e (t.approxBytes sizeOfSeg) = x.nars := by
      unfold NarCache.account
      cases hp : L.peek x.nars.lru n.hash with
      | none => rfl
      | some e' => exact if_neg fun he => hpeek (hp.trans (congrArg some he))
    rw [heq]
    refine ⟨fun o ho => hash_put (h.hash o ho), h.bytes.trans ?_⟩
    refine NarCache.bytesAlong_congr fun o ho => ?_
    show x.counted o.2 = (x.put e (.accounted t)).counted o.2
    rw [counted_put hn, if_neg]
    rintro rfl
    exact hpeek (peek_eq_some.mpr ((h.resident_iff hn).mp (List.mem_map_of_mem ho)))

/-- One action. -/
theorem Ok.step (h : x.Ok sizeOfSeg) {a : Act K} (hspares : x.Spares sizeOfSeg a)
    (hstep : x.step sizeOfSeg a = some x') : x'.Ok sizeOfSeg := by
  cases a with
  | look hash =>
      cases hstep
      exact h.get hash
  | resolve hash narSize =>
      have hget := h.get hash
      obtain ⟨hfst, hsnd, hcap⟩ := L.get_eq x.nars.lru hash
      simp only [Tables.step] at hstep
      rcases hlru : L.get x.nars.lru hash with ⟨found, lru⟩
      rw [hlru] at hstep hget hfst hsnd hcap
      cases found with
      | some e =>
          cases hstep
          exact hget
      | none =>
          cases hstep
          have hnone : Lru.at_ hash (L.order x.nars.lru) = none := by
            simpa using hfst.symm
          have horder : L.order lru = L.order x.nars.lru := by
            simpa [Lru.used, hnone] using hsnd.trans
              (congrArg (· ++ _) (Lru.filter_of_at_eq_none hnone))
          have hspares : L.cap lru ≤ (L.order lru).length →
              ∀ o ∈ (L.order lru).head?, x.pending o.2 = false := by
            simp only at hcap
            rw [hcap, horder, ← L.len_eq]
            exact hspares (by rw [L.peek_eq, hnone]; rfl)
          exact Ok.insert hget (by rw [← horder] at hnone; exact hnone) hspares
  | start e =>
      simp only [Tables.step] at hstep
      split at hstep
      next hn =>
        cases hstep
        exact h.put hn rfl
      next => cases hstep
  | stop e =>
      simp only [Tables.step] at hstep
      split at hstep
      next hn =>
        cases hstep
        exact h.put hn rfl
      next => cases hstep
  | walked e t =>
      simp only [Tables.step] at hstep
      split at hstep
      next hash narSize hn =>
        split at hstep
        next =>
          cases hstep
          exact h.put hn rfl
        next hsize =>
          cases hstep
          exact Ok.walked h hn rfl (hspares _ hn (not_not.mp hsize).symm)
      next => cases hstep
  | set e =>
      simp only [Tables.step] at hstep
      split at hstep
      next hn =>
        cases hstep
        exact h.put hn rfl
      next => cases hstep
  | setBudget bytes =>
      cases hstep
      obtain ⟨hbytes, hsub⟩ := NarCache.evictToBudget_exact x.counted
        (c := { x.nars with budget := bytes }) (fun e he => counted_of_not_pending he)
        h.bytes hspares
      exact ⟨fun o ho => h.hash o (hsub o ho), hbytes⟩

/-- The entry whose build ends stays. -/
theorem Ok.stays (h : x.Ok sizeOfSeg) {e : ℕ} {t : SeekTable}
    (hspares : x.Spares sizeOfSeg (.walked e t)) (hstep : x.step sizeOfSeg (.walked e t) = some x')
    (hres : x.Resident e) : x'.Resident e := by
  simp only [Tables.step] at hstep
  split at hstep
  next hash narSize hn =>
    split at hstep
    next =>
      cases hstep
      exact hres
    next hsize =>
      cases hstep
      have hmem := (h.resident_iff hn).mp hres
      have hpeek := peek_eq_some.mpr hmem
      have hlasts := hspares _ hn (not_not.mp hsize).symm hpeek
      have hstay := (NarCache.lasts_iff _ _).mp hlasts _ hmem (by simp)
      refine List.mem_map.mpr ⟨(hash, e), ?_, rfl⟩
      show (hash, e) ∈ L.order (NarCache.account _ _ _ _ _ _).lru
      rw [NarCache.account, hpeek]
      simp only [if_true]
      exact hstay
  next => cases hstep

end Tables

-- ================================================================ the count

/-- The count is exact whenever no build is in progress, and no build puts
out its own entry, in a run that puts out no entry counted and not set. -/
theorem table_bytes_exact (L : Lru K ℕ) (sizeOfSeg : ℕ) {x : Tables L}
    (h : (tablesSystem L sizeOfSeg).ReachIf (Tables.Spares sizeOfSeg) x) :
    (x.Quiet → x.nars.tableBytes = x.heldBytes sizeOfSeg)
      ∧ ∀ e t x', x.Spares sizeOfSeg (.walked e t) →
        (tablesSystem L sizeOfSeg).step x (.walked e t) = some x' →
        x.Resident e → x'.Resident e := by
  have hok : x.Ok sizeOfSeg := by
    refine System.ReachIf.invariant (I := fun x : Tables L => x.Ok sizeOfSeg) ?_ ?_ h
    · rintro x ⟨budget, rfl⟩
      have hnil := (L.new_eq TABLE_ENTRIES).1
      exact ⟨fun o ho => by simp [hnil] at ho, by simp [hnil, NarCache.bytesAlong]⟩
    · intro x a x' _ hx hspares hstep
      exact hx.step hspares hstep
  refine ⟨fun hquiet => ?_, fun e t x' hspares hstep hres => hok.stays hspares hstep hres⟩
  rw [hok.bytes]
  exact NarCache.bytesAlong_congr fun o _ => (Tables.counted_of_quiet hquiet o.2).symm

namespace Tables

/-- The seek table of a file of one byte. -/
def oneByte : SeekTable := SeekTable.build (.regular false [0x78])

/-- An empty cache of a budget. -/
def fresh (budget : ℕ) : Tables (Lru.ofList ℕ ℕ) :=
  ⟨⟨(Lru.ofList ℕ ℕ).new TABLE_ENTRIES, 0, budget, budget⟩, []⟩

/-- Two tables built, the second in a budget for one. -/
def inTurn : List (Act ℕ) :=
  [.look 7, .resolve 7 oneByte.narSize, .start 0, .walked 0 oneByte, .set 0,
    .look 8, .resolve 8 oneByte.narSize, .start 1, .walked 1 oneByte, .set 1]

/-- The same, but 8 is asked for while 7 is built. -/
def overtaken : List (Act ℕ) :=
  [.look 7, .resolve 7 oneByte.narSize, .start 0, .look 8, .resolve 8 oneByte.narSize]

end Tables

theorem table_bytes_exact_inTurn :
    ∃ x : Tables (Lru.ofList ℕ ℕ), x.Quiet ∧ x.Resident 1 ∧ ¬ x.Resident 0
      ∧ x.nars.tableBytes = x.heldBytes 32 ∧ x.heldBytes 32 = 311 := by
  have hrun : ((tablesSystem (Lru.ofList ℕ ℕ) 32).runIf (Tables.Spares 32) (Tables.fresh 600)
      Tables.inTurn).map (fun x => (decide x.Quiet, decide (x.Resident 1), decide (x.Resident 0),
        x.heldBytes 32)) = some (true, true, false, 311) := by
    decide +kernel
  obtain ⟨x, hx, hobs⟩ := Option.map_eq_some_iff.mp hrun
  simp only [Prod.mk.injEq, decide_eq_true_eq, decide_eq_false_iff_not] at hobs
  obtain ⟨hquiet, hone, hzero, hbytes⟩ := hobs
  have hinit : (tablesSystem (Lru.ofList ℕ ℕ) 32).init (Tables.fresh 600) := ⟨600, rfl⟩
  have hreach := (System.ReachIf.init hinit).runIf hx
  exact ⟨x, hquiet, hone, hzero, (table_bytes_exact _ 32 hreach).1 hquiet, hbytes⟩

/-- An entry used while 7 is built is more recent: counting the table of 7
puts 7 out before its cell is set, and its bytes stay counted. -/
theorem account_evicts_itself :
    ∃ x x' x'' : Tables (Lru.ofList ℕ ℕ), (tablesSystem (Lru.ofList ℕ ℕ) 32).Reach x
      ∧ (tablesSystem (Lru.ofList ℕ ℕ) 32).step x (.walked 0 Tables.oneByte) = some x'
      ∧ x.Resident 0 ∧ ¬ x'.Resident 0
      ∧ (tablesSystem (Lru.ofList ℕ ℕ) 32).step x' (.set 0) = some x''
      ∧ x''.Quiet ∧ x''.nars.tableBytes = 311 ∧ x''.heldBytes 32 = 0 := by
  have hinit : (tablesSystem (Lru.ofList ℕ ℕ) 32).init (Tables.fresh 300) := ⟨300, rfl⟩
  have hrun : (((tablesSystem (Lru.ofList ℕ ℕ) 32).run (Tables.fresh 300) Tables.overtaken).bind
      fun x => ((tablesSystem (Lru.ofList ℕ ℕ) 32).step x (.walked 0 Tables.oneByte)).bind
        fun x' => ((tablesSystem (Lru.ofList ℕ ℕ) 32).step x' (.set 0)).map fun x'' =>
          (decide (x.Resident 0), decide (x'.Resident 0), decide x''.Quiet, x''.nars.tableBytes,
            x''.heldBytes 32)) = some (true, false, true, 311, 0) := by
    decide +kernel
  obtain ⟨x, hx, hrun⟩ := Option.bind_eq_some_iff.mp hrun
  obtain ⟨x', hx', hrun⟩ := Option.bind_eq_some_iff.mp hrun
  obtain ⟨x'', hx'', hobs⟩ := Option.map_eq_some_iff.mp hrun
  simp only [Prod.mk.injEq, decide_eq_true_eq, decide_eq_false_iff_not] at hobs
  exact ⟨x, x', x'', (System.Reach.start hinit).run hx, hx', hobs.1, hobs.2.1, hx'', hobs.2.2.1,
    hobs.2.2.2⟩

end Narshare
