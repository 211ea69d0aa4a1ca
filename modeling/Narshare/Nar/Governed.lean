/-
The seek tables under the memory governor.

# Two tasks

The requests go through the cache of Cache.lean, and the governor of
Steer/Memory.lean sets its budget from another task, between any two of
their steps. It is the only one to call `set_budget`.

# What each leaves the other

No step of a request touches the budget (`Tables.step_budget`). So it is
what the ticks make of it, whatever else goes on, and a run of both
projects to a run of the governor (`Governed.run_eq`). A tick that moves
the budget puts out the oldest tables, as many as it takes: `evictGo_spec`
says which.
-/
import Narshare.Nar.Cache
import Narshare.Steer.Memory

namespace Narshare

variable {K : Type} [DecidableEq K]

-- ================================================================== the caches

/-- `TABLE_BUDGET_FLOOR_SHARE`. -/
def TABLE_BUDGET_FLOOR_SHARE : ℕ := 8

/-- `CACHE_FLOOR_SHARE`. -/
def CACHE_FLOOR_SHARE : ℕ := 4

/-- `ServeState`, as a `Shrinkable`. -/
def tableCache (ceiling : UInt64) : Shrinkable :=
  ⟨ceiling.toNat, ceiling.toNat / TABLE_BUDGET_FLOOR_SHARE, ceiling.toNat_lt⟩

/-- `Index`, as a `Shrinkable`. -/
def blockCache (ceiling : UInt64) : Shrinkable :=
  ⟨ceiling.toNat, ceiling.toNat / CACHE_FLOOR_SHARE, ceiling.toNat_lt⟩

/-- The caches that `main` hands to the governor when it serves; a backend
without a cache has the ceiling 0. -/
def mainCaches (blocks tables : UInt64) : List Shrinkable :=
  (if 0 < blocks then [blockCache blocks] else []) ++ [tableCache tables]

-- ================================================================== the system

/-- The tables and the governor. -/
structure Governed (L : Lru K ℕ) where
  governor : MemGovernor
  tables : Tables L

namespace Governed

variable {L : Lru K ℕ}

/-- A tick of the governor, or a step of the requests. -/
inductive Act (K : Type)
  | tick (s : Signals)
  | serve (a : Tables.Act K)

/-- The ticks of a run. -/
def ticks (as : List (Act K)) : List Signals :=
  as.filterMap fun
    | .tick s => some s
    | .serve _ => none

/-- One action; the tables are the `i`-th of the caches. -/
def step (sizeOfSeg : ℕ) (caches : List Shrinkable) (i : ℕ) (x : Governed L) :
    Act K → Option (Governed L)
  | .tick s =>
      let turn := x.governor.tick caches s
      match turn.calls[i]?.join with
      | some b => (x.tables.step sizeOfSeg (.setBudget b)).map fun t => ⟨turn.governor, t⟩
      | none => some ⟨turn.governor, x.tables⟩
  | .serve (.setBudget _) => none
  | .serve a => (x.tables.step sizeOfSeg a).map fun t => { x with tables := t }

end Governed

/-- Both, from when the cache is made. -/
def governed (L : Lru K ℕ) (sizeOfSeg : ℕ) (blocks tables : UInt64) :
    System (Governed L) (Governed.Act K) where
  init x := x =
    { governor := .new (mainCaches blocks tables)
      tables := { nars := ⟨L.new TABLE_ENTRIES, 0, tables.toNat, tables.toNat⟩ } }
  step := Governed.step sizeOfSeg (mainCaches blocks tables)
    ((mainCaches blocks tables).length - 1)

-- ================================================================== the budget

namespace NarCache

variable {L : Lru K ℕ} {sizeOfSeg : ℕ} {table : ℕ → Option SeekTable}

@[simp] theorem forget_budget (c : NarCache L) (t : Option SeekTable) :
    (forget sizeOfSeg c t).budget = c.budget := by
  rw [forget_eq]

@[simp] theorem evictGo_budget (n : ℕ) (c : NarCache L) :
    (evictGo sizeOfSeg table n c).budget = c.budget := by
  induction n generalizing c with
  | zero => rfl
  | succ n ih =>
      rw [evictGo]
      split
      next =>
        split
        next => rfl
        next => rw [ih, forget_budget]
      next => rfl

@[simp] theorem evictToBudget_budget (c : NarCache L) :
    (c.evictToBudget sizeOfSeg table).budget = c.budget := evictGo_budget _ c

@[simp] theorem insert_budget (c : NarCache L) (hash : K) (entry : ℕ) :
    (c.insert sizeOfSeg table hash entry).budget = c.budget := by
  unfold insert
  split
  next => exact forget_budget _ _
  next => rfl

@[simp] theorem account_budget (c : NarCache L) (hash : K) (entry built : ℕ) :
    (c.account sizeOfSeg table hash entry built).budget = c.budget := by
  unfold account
  split
  next =>
    split
    next => exact evictToBudget_budget _
    next => rfl
  next => rfl

/-- What a new budget puts out: the oldest entries, as long as there are
two and the count is over the budget. -/
theorem setBudget_spec (c : NarCache L) (bytes : ℕ) :
    ∃ m, L.order (c.setBudget sizeOfSeg table bytes).lru = (L.order c.lru).drop m
      ∧ (∀ k < m, bytes + bytesAlong sizeOfSeg table ((L.order c.lru).take k) < c.tableBytes)
      ∧ ((c.setBudget sizeOfSeg table bytes).tableBytes ≤ bytes
        ∨ L.len (c.setBudget sizeOfSeg table bytes).lru ≤ 1) := by
  obtain ⟨m, horder, hout, hbytes, hdone⟩ :=
    evictGo_spec (c := { c with budget := bytes }) sizeOfSeg table (L.len_eq c.lru).ge
  refine ⟨m, horder, fun k hk => (hout k hk).2, ?_⟩
  rcases hdone with hfits | hone
  · left
    rw [setBudget, evictToBudget, hbytes]
    simp only at hfits ⊢
    omega
  · right
    rw [L.len_eq, setBudget, evictToBudget, horder, List.length_drop]
    simp only at hone ⊢
    omega

end NarCache

/-- No step of a request touches the budget. -/
theorem Tables.step_budget {L : Lru K ℕ} {sizeOfSeg : ℕ} {x x' : Tables L} {a : Tables.Act K}
    (hserve : ∀ bytes, a ≠ .setBudget bytes) (h : x.step sizeOfSeg a = some x') :
    x'.nars.budget = x.nars.budget := by
  cases a with
  | look hash =>
      cases h
      rfl
  | resolve hash narSize =>
      simp only [Tables.step] at h
      split at h
      next =>
        cases h
        rfl
      next =>
        cases h
        exact NarCache.insert_budget _ _ _
  | start e =>
      simp only [Tables.step] at h
      split at h
      next =>
        cases h
        rfl
      next => cases h
  | stop e =>
      simp only [Tables.step] at h
      split at h
      next =>
        cases h
        rfl
      next => cases h
  | walked e t =>
      simp only [Tables.step] at h
      split at h
      next =>
        split at h
        next =>
          cases h
          rfl
        next =>
          cases h
          exact NarCache.account_budget _ _ _ _
      next => cases h
  | set e =>
      simp only [Tables.step] at h
      split at h
      next =>
        cases h
        rfl
      next => cases h
  | setBudget bytes => exact absurd rfl (hserve bytes)

-- ===================================================================== the runs

namespace Governed

variable {L : Lru K ℕ} {sizeOfSeg : ℕ} {caches : List Shrinkable} {i : ℕ} {c : Shrinkable}

/-- What a tick does to the tables: nothing, or a new budget. -/
theorem step_tick (hi : caches[i]? = some c) {x : Governed L} {f : Shrinkable → ℕ} {q : Bool}
    (hgov : x.governor = ⟨caches.map f, q⟩) (s : Signals) :
    x.step sizeOfSeg caches i (.tick s) = some
      ⟨(x.governor.tick caches s).governor,
        if c.next (f c) s = f c then x.tables
        else { x.tables with
          nars := x.tables.nars.setBudget sizeOfSeg x.tables.table (c.next (f c) s) }⟩ := by
  have hcall : (x.governor.tick caches s).calls[i]?.join
      = if c.next (f c) s = f c then none else some (c.next (f c) s) := by
    rw [hgov, MemGovernor.calls_tick, List.getElem?_map, hi, Option.map_some, Option.join_some,
      ite_not]
  unfold step
  simp only [hcall]
  by_cases hsame : c.next (f c) s = f c
  · simp only [if_pos hsame]
  · simp only [if_neg hsame]
    rfl

/-- The ticks of a run move the budget, and nothing else does. -/
theorem run_eq (hi : caches[i]? = some c) {S : System (Governed L) (Act K)}
    (hS : S.step = step sizeOfSeg caches i) {x y : Governed L} {as : List (Act K)}
    {f : Shrinkable → ℕ} {q : Bool} (hgov : x.governor = ⟨caches.map f, q⟩)
    (hbudget : x.tables.nars.budget = f c) (hrun : S.run x as = some y) :
    (∃ q', y.governor = ⟨caches.map fun c => (ticks as).foldl c.next (f c), q'⟩)
      ∧ y.tables.nars.budget = (ticks as).foldl c.next (f c) := by
  induction as generalizing x f q with
  | nil =>
      cases hrun
      exact ⟨⟨q, hgov⟩, hbudget⟩
  | cons a as ih =>
      obtain ⟨x', hstep, hrest⟩ := Option.bind_eq_some_iff.mp hrun
      rw [hS] at hstep
      cases a with
      | tick s =>
          rw [step_tick hi hgov s] at hstep
          cases hstep
          have hgov' := @MemGovernor.governor_tick caches f q s
          rw [← hgov] at hgov'
          refine ih hgov' ?_ hrest
          by_cases hsame : c.next (f c) s = f c
          · simp only [if_pos hsame, hbudget]
            exact hsame.symm
          · simp only [if_neg hsame]
            exact NarCache.evictToBudget_budget _
      | serve a =>
          have hserve : ∀ bytes, a ≠ .setBudget bytes := by
            rintro bytes rfl
            cases hstep
          have hstep : (x.tables.step sizeOfSeg a).map (fun t => { x with tables := t })
              = some x' := by
            cases a with
            | setBudget bytes => exact absurd rfl (hserve bytes)
            | look hash => exact hstep
            | resolve hash narSize => exact hstep
            | start e => exact hstep
            | stop e => exact hstep
            | walked e t => exact hstep
            | set e => exact hstep
          obtain ⟨t, ht, rfl⟩ := Option.map_eq_some_iff.mp hstep
          exact ih (x := { x with tables := t }) hgov
            ((Tables.step_budget hserve ht).trans hbudget) hrest

end Governed

/-- The tables are where they are in the list of `main`. -/
theorem mainCaches_last (blocks tables : UInt64) :
    (mainCaches blocks tables)[(mainCaches blocks tables).length - 1]?
      = some (tableCache tables) := by
  unfold mainCaches
  split
  next => rfl
  next => rfl

/-- However requests come in between, the budget of the tables is what the
governor alone makes of the ticks, and three ticks of pressure in a row
bring it to an eighth. A tick that leaves it leaves the tables; one that
moves it puts out the oldest, as long as there are two and they are over
the budget. -/
theorem tables_governed (L : Lru K ℕ) (sizeOfSeg : ℕ) (blocks tables : UInt64)
    {x y : Governed L} {as : List (Governed.Act K)}
    (hinit : (governed L sizeOfSeg blocks tables).init x)
    (hrun : (governed L sizeOfSeg blocks tables).run x as = some y) :
    (MemGovernor.spawn (mainCaches blocks tables) (Governed.ticks as)).1.getLast?
        = some y.tables.nars.budget
      ∧ (∀ recent, recent <:+ Governed.ticks as → 3 ≤ recent.length →
        (∀ s ∈ recent, s.Pressed) →
          y.tables.nars.budget = tables.toNat / TABLE_BUDGET_FLOOR_SHARE)
      ∧ ∀ s, ∃ z, (governed L sizeOfSeg blocks tables).step y (.tick s) = some z
        ∧ (z.tables.nars.budget = y.tables.nars.budget → z.tables = y.tables)
        ∧ (z.tables.nars.budget ≠ y.tables.nars.budget →
          ∃ m, L.order z.tables.nars.lru = (L.order y.tables.nars.lru).drop m
            ∧ (∀ k < m, z.tables.nars.budget + NarCache.bytesAlong sizeOfSeg y.tables.table
              ((L.order y.tables.nars.lru).take k) < y.tables.nars.tableBytes)
            ∧ (z.tables.nars.tableBytes ≤ z.tables.nars.budget
              ∨ L.len z.tables.nars.lru ≤ 1)) := by
  have hlast := mainCaches_last blocks tables
  have hx : x.governor = .new (mainCaches blocks tables)
      ∧ x.tables.nars.budget = tables.toNat := by
    cases hinit
    exact ⟨rfl, rfl⟩
  obtain ⟨⟨q, hgov⟩, hbudget⟩ := Governed.run_eq hlast rfl (f := Shrinkable.ceiling) (q := false)
    hx.1 hx.2 hrun
  refine ⟨?_, fun recent hrecent hlong hpressed => ?_, fun s => ?_⟩
  · have hlt : (mainCaches blocks tables).length - 1 < (mainCaches blocks tables).length :=
      (List.getElem?_eq_some_iff.mp hlast).1
    rw [List.getLast?_eq_getElem?, MemGovernor.spawn_eq ⟨_, hlt⟩, List.length_map,
      List.getElem?_map, hlast, Option.map_some, hbudget]
  · obtain ⟨earlier, happend⟩ := hrecent
    obtain ⟨hleast, hceiling⟩ := (tableCache tables).foldl_mem earlier
      (tableCache tables).least_le le_rfl
    rw [hbudget, ← happend, List.foldl_append,
      (tableCache tables).foldl_pressed hleast hceiling hpressed]
    have hpow : 2 ^ 3 ≤ 2 ^ recent.length := Nat.pow_le_pow_right Nat.zero_lt_two hlong
    have hsmall := (Nat.div_le_div_left hpow (Nat.two_pow_pos 3)).trans
      (Nat.div_le_div_right hceiling)
    have hfloor : (tableCache tables).least = tables.toNat / TABLE_BUDGET_FLOOR_SHARE :=
      min_eq_left (Nat.div_le_self _ _)
    rw [hfloor]
    exact max_eq_left hsmall
  · refine ⟨_, Governed.step_tick hlast hgov s, ?_⟩
    have hold : y.tables.nars.budget = _ := hbudget
    by_cases hsame : (tableCache tables).next ((Governed.ticks as).foldl (tableCache tables).next
        (tableCache tables).ceiling) s = (Governed.ticks as).foldl (tableCache tables).next
        (tableCache tables).ceiling
    · simp only [if_pos hsame]
      exact ⟨fun _ => trivial, fun hne => absurd rfl hne⟩
    · simp only [if_neg hsame]
      have hnew : ∀ b, (y.tables.nars.setBudget sizeOfSeg y.tables.table b).budget = b :=
        fun b => NarCache.evictToBudget_budget _
      rw [hnew, hbudget]
      exact ⟨fun h => absurd h hsame, fun _ => NarCache.setBudget_spec _ _⟩

namespace Governed

/-- A tick of pressure. -/
def stalled : Signals := { ownPsi := some 5 }

/-- Two tables built under pressure, the ceiling eight times as much as one
of them takes. -/
def builtUnderPressure : List (Act ℕ) :=
  .tick stalled :: Tables.inTurn.map .serve ++ [.tick stalled, .tick stalled]

end Governed

theorem tables_governed_stalled :
    ∃ y : Governed (Lru.ofList ℕ ℕ), y.tables.nars.tableBytes = 311
      ∧ y.tables.nars.budget = (2488 : UInt64).toNat / TABLE_BUDGET_FLOOR_SHARE
      ∧ ∃ z, (governed (Lru.ofList ℕ ℕ) 32 0 2488).step y (.tick Governed.stalled) = some z
        ∧ (z.tables.nars.budget = y.tables.nars.budget → z.tables = y.tables) := by
  let x : Governed (Lru.ofList ℕ ℕ) := ⟨.new (mainCaches 0 2488), Tables.fresh 2488⟩
  have hinit : (governed (Lru.ofList ℕ ℕ) 32 0 2488).init x := rfl
  have hrun : ((governed (Lru.ofList ℕ ℕ) 32 0 2488).run x Governed.builtUnderPressure).map
      (fun y => y.tables.nars.tableBytes) = some 311 := by
    decide +kernel
  obtain ⟨y, hy, hbytes⟩ := Option.map_eq_some_iff.mp hrun
  obtain ⟨-, hfloor, hnext⟩ := tables_governed _ 32 0 2488 hinit hy
  have hpressed : ∀ s ∈ Governed.ticks Governed.builtUnderPressure, s.Pressed := by
    decide +kernel
  obtain ⟨z, hz, hsame, -⟩ := hnext Governed.stalled
  exact ⟨y, hbytes, hfloor _ List.suffix_rfl (by decide +kernel) hpressed, z, hz, hsame⟩

end Narshare
