/-
Ordered finite maps: the key-value tables everything below stores its
rows in. An `OrdMap K V` is an association list whose keys ascend
strictly, with that fact as a field, so a table with two rows for one
key cannot be built.

# Shape of the interface

One primitive changes a table: `set m k o` makes the row of `k` be `o`
(`some v` puts, `none` deletes), and `setAll` folds a list of such
writes, later writes winning — a write batch on one table. Everything
a proof needs about the result is read through `get`:

- `get_set` and `get_setAll_of_*` say what a write does to every key;
- `ext` says a table IS its `get`, so two ways of building one are
  compared row by row;
- `mem_entries` crosses between the row view and the list a scan walks;
- `sum_set` says how an additive aggregate over the rows moves when one
  row does — the incremental law an aggregate kept beside the table
  has to follow.
-/
import Mathlib.Order.Basic
import Mathlib.Order.Defs.LinearOrder
import Mathlib.Data.List.Basic
import Mathlib.Data.List.Sort
import Mathlib.Algebra.BigOperators.Group.List.Basic

namespace Narshare

universe u v

/-- A finite map with linearly ordered keys, stored in key order. -/
structure OrdMap (K : Type u) (V : Type v) [LinearOrder K] where
  entries : List (K × V)
  sorted : entries.Pairwise fun a b => a.1 < b.1

/-- Stopping at the first item that fails a test loses nothing when the
test, once failed, keeps failing. -/
theorem takeWhile_eq_filter {α : Type*} {l : List α} {p : α → Bool}
    (hs : l.Pairwise fun a b => p b = true → p a = true) :
    l.takeWhile p = l.filter p := by
  induction l with
  | nil => rfl
  | cons e l ih =>
      obtain ⟨hdown, hs'⟩ := List.pairwise_cons.mp hs
      cases he : p e with
      | true => rw [List.takeWhile_cons_of_pos he, List.filter_cons_of_pos he, ih hs']
      | false =>
          rw [List.takeWhile_cons_of_neg (by simp [he]),
            List.filter_cons_of_neg (by simp [he])]
          symm
          rw [List.filter_eq_nil_iff]
          intro e' he' hp
          rw [hdown e' he' hp] at he
          cases he

/-- Filtering and mapping keeps order: when every kept item still shows
its source's key, the keys kept are a sublist of the keys. -/
theorem map_filterMap_sublist {α β γ : Type*} {f : α → Option β} {g : β → γ} {k : α → γ}
    {l : List α} (h : ∀ x ∈ l, ∀ y, f x = some y → g y = k x) :
    ((l.filterMap f).map g).Sublist (l.map k) := by
  induction l with
  | nil => exact List.Sublist.slnil
  | cons x l ih =>
      have ih' := ih fun x' hx' => h x' (List.mem_cons_of_mem _ hx')
      cases hf : f x with
      | none =>
          rw [List.filterMap_cons_none hf, List.map_cons]
          exact ih'.cons _
      | some y =>
          rw [List.filterMap_cons_some hf, List.map_cons, List.map_cons,
            h x List.mem_cons_self y hf]
          exact ih'.cons_cons _

namespace OrdMap

variable {K : Type u} {V : Type v} [LinearOrder K]

instance [DecidableEq V] : DecidableEq (OrdMap K V) := fun a b =>
  decidable_of_iff (a.entries = b.entries)
    ⟨fun h => by cases a; cases b; cases h; rfl, fun h => by rw [h]⟩

-- ======================================================== reading rows

/-- The row of `k` in an association list. -/
def lookupIn (k : K) : List (K × V) → Option V
  | [] => none
  | (k', v) :: t => if k = k' then some v else lookupIn k t

/-- The row of `k`. -/
def get (m : OrdMap K V) (k : K) : Option V := lookupIn k m.entries

/-- The table with no rows. -/
def empty : OrdMap K V := ⟨[], List.Pairwise.nil⟩

instance : EmptyCollection (OrdMap K V) := ⟨empty⟩

instance : Inhabited (OrdMap K V) := ⟨empty⟩

/-- The keys, ascending. -/
def keys (m : OrdMap K V) : List K := m.entries.map Prod.fst

/-- The rows from `k` on, in key order: where an iterator seeked to `k`
starts. -/
def seek (m : OrdMap K V) (k : K) : List (K × V) :=
  m.entries.dropWhile fun e => decide (e.1 < k)

@[simp] theorem get_empty (k : K) : (∅ : OrdMap K V).get k = none := rfl

theorem lookupIn_none {k : K} {l : List (K × V)}
    (h : ∀ e ∈ l, e.1 ≠ k) : lookupIn k l = none := by
  induction l with
  | nil => rfl
  | cons e l ih =>
      obtain ⟨k', v⟩ := e
      have hne : k ≠ k' := fun he => h (k', v) List.mem_cons_self he.symm
      rw [lookupIn, if_neg hne]
      exact ih fun e he => h e (List.mem_cons_of_mem _ he)

/-- In a list with ascending keys the row found is the row listed. -/
theorem lookupIn_eq_some {l : List (K × V)}
    (hs : l.Pairwise fun a b => a.1 < b.1) {k : K} {v : V} :
    lookupIn k l = some v ↔ (k, v) ∈ l := by
  induction l with
  | nil => simp [lookupIn]
  | cons e l ih =>
      obtain ⟨k', v'⟩ := e
      obtain ⟨hlt, hs⟩ := List.pairwise_cons.mp hs
      by_cases he : k = k'
      · subst he
        rw [lookupIn, if_pos rfl]
        constructor
        · intro h
          cases h
          exact List.mem_cons_self
        · intro h
          rcases List.mem_cons.mp h with h | h
          · cases h
            rfl
          · exact absurd (hlt _ h) (lt_irrefl k)
      · rw [lookupIn, if_neg he, ih hs, List.mem_cons]
        constructor
        · exact Or.inr
        · rintro (h | h)
          · cases h
            exact absurd rfl he
          · exact h

/-- A row is in the table exactly when the scan meets it. -/
theorem mem_entries {m : OrdMap K V} {k : K} {v : V} :
    (k, v) ∈ m.entries ↔ m.get k = some v :=
  (lookupIn_eq_some m.sorted).symm

theorem mem_keys {m : OrdMap K V} {k : K} :
    k ∈ m.keys ↔ (m.get k).isSome = true := by
  rw [keys, List.mem_map, Option.isSome_iff_exists]
  constructor
  · rintro ⟨⟨k', v⟩, hmem, rfl⟩
    exact ⟨v, mem_entries.mp hmem⟩
  · rintro ⟨v, hv⟩
    exact ⟨(k, v), mem_entries.mpr hv, rfl⟩

theorem keys_sorted (m : OrdMap K V) : m.keys.Pairwise (· < ·) :=
  List.pairwise_map.mpr m.sorted

theorem keys_nodup (m : OrdMap K V) : m.keys.Nodup :=
  m.keys_sorted.imp ne_of_lt

theorem entries_nodup (m : OrdMap K V) : m.entries.Nodup :=
  m.sorted.imp fun h he => absurd (he ▸ h) (lt_irrefl _)

/-- Lists with ascending keys are equal when they have the same rows. -/
theorem eq_of_sorted {l l' : List (K × V)} (hs : l.Pairwise fun a b => a.1 < b.1)
    (hs' : l'.Pairwise fun a b => a.1 < b.1) (h : ∀ e, e ∈ l ↔ e ∈ l') : l = l' := by
  have hnodup : ∀ {l : List (K × V)}, (l.Pairwise fun a b => a.1 < b.1) → l.Nodup :=
    fun hs => hs.imp fun hlt he => absurd (he ▸ hlt) (lt_irrefl _)
  refine ((List.perm_ext_iff_of_nodup (hnodup hs) (hnodup hs')).mpr h).eq_of_pairwise ?_ hs hs'
  exact fun a b _ _ hab hba => absurd (hab.trans hba) (lt_irrefl _)

/-- A table is its rows. -/
theorem ext {m m' : OrdMap K V} (h : ∀ k, m.get k = m'.get k) : m = m' := by
  have heq : m.entries = m'.entries := by
    refine eq_of_sorted m.sorted m'.sorted ?_
    rintro ⟨k, v⟩
    rw [mem_entries, mem_entries, h]
  cases m
  cases m'
  cases heq
  rfl

-- ========================================================= one write

/-- Make the row of `k` be `o` in an ascending list. -/
def setIn (k : K) (o : Option V) : List (K × V) → List (K × V)
  | [] => (o.map fun v => (k, v)).toList
  | (k', v') :: t =>
      if k < k' then (o.map fun v => (k, v)).toList ++ (k', v') :: t
      else if k = k' then (o.map fun v => (k, v)).toList ++ t
      else (k', v') :: setIn k o t

theorem mem_setIn {k : K} {o : Option V} {e : K × V} {l : List (K × V)}
    (h : e ∈ setIn k o l) : (e.1 = k ∧ o = some e.2) ∨ e ∈ l := by
  induction l with
  | nil =>
      cases o with
      | none => cases h
      | some v =>
          cases List.mem_singleton.mp h
          exact Or.inl ⟨rfl, rfl⟩
  | cons e' l ih =>
      obtain ⟨k', v'⟩ := e'
      have hhead : e ∈ (o.map fun v => (k, v)).toList → e.1 = k ∧ o = some e.2 := by
        intro h
        cases o with
        | none => cases h
        | some v =>
            cases List.mem_singleton.mp h
            exact ⟨rfl, rfl⟩
      rw [setIn] at h
      split at h
      · rcases List.mem_append.mp h with h | h
        · exact Or.inl (hhead h)
        · exact Or.inr h
      · split at h
        · rcases List.mem_append.mp h with h | h
          · exact Or.inl (hhead h)
          · exact Or.inr (List.mem_cons_of_mem _ h)
        · rcases List.mem_cons.mp h with h | h
          · exact Or.inr (h ▸ List.mem_cons_self)
          · exact (ih h).imp id (List.mem_cons_of_mem _)

theorem setIn_sorted (k : K) (o : Option V) {l : List (K × V)}
    (hs : l.Pairwise fun a b => a.1 < b.1) :
    (setIn k o l).Pairwise fun a b => a.1 < b.1 := by
  induction l with
  | nil => cases o <;> simp [setIn]
  | cons e l ih =>
      obtain ⟨k', v'⟩ := e
      obtain ⟨hlt, hs'⟩ := List.pairwise_cons.mp hs
      rw [setIn]
      split
      next hk =>
        cases o with
        | none => exact hs
        | some v =>
            refine List.pairwise_cons.mpr ⟨fun e he => ?_, hs⟩
            rcases List.mem_cons.mp he with rfl | he
            · exact hk
            · exact hk.trans (hlt e he)
      next hk =>
        split
        next he =>
          subst he
          cases o with
          | none => exact hs'
          | some v => exact List.pairwise_cons.mpr ⟨hlt, hs'⟩
        next he =>
          refine List.pairwise_cons.mpr ⟨fun e hmem => ?_, ih hs'⟩
          rcases mem_setIn hmem with ⟨h1, -⟩ | hmem
          · rw [h1]
            exact lt_of_le_of_ne (not_lt.mp hk) (Ne.symm he)
          · exact hlt e hmem

/-- Make the row of `k` be `o`: a put or a delete. -/
def set (m : OrdMap K V) (k : K) (o : Option V) : OrdMap K V :=
  ⟨setIn k o m.entries, setIn_sorted k o m.sorted⟩

/-- Put the row `k ↦ v`. -/
def put (m : OrdMap K V) (k : K) (v : V) : OrdMap K V := m.set k (some v)

/-- Delete the row of `k`. -/
def erase (m : OrdMap K V) (k : K) : OrdMap K V := m.set k none

theorem lookupIn_setIn (k : K) (o : Option V) (k' : K) {l : List (K × V)}
    (hs : l.Pairwise fun a b => a.1 < b.1) :
    lookupIn k' (setIn k o l) = if k' = k then o else lookupIn k' l := by
  induction l with
  | nil =>
      cases o with
      | none => simp [setIn, lookupIn]
      | some v => simp [setIn, lookupIn]
  | cons e l ih =>
      obtain ⟨k₀, v₀⟩ := e
      obtain ⟨hlt, hs'⟩ := List.pairwise_cons.mp hs
      -- below the head: the head and everything after it have larger keys
      have habove : k ≤ k₀ → lookupIn k l = none := fun hle =>
        lookupIn_none fun e he hek =>
          absurd (hek ▸ hlt e he) (not_lt.mpr hle)
      rw [setIn]
      split
      next hk =>
        cases o with
        | none =>
            by_cases hkk : k' = k
            · subst hkk
              simp [lookupIn, hk.ne, habove hk.le]
            · simp [hkk]
        | some v => by_cases hkk : k' = k <;> simp [lookupIn, hkk]
      next hk =>
        split
        next he =>
          subst he
          by_cases hkk : k' = k
          · subst hkk
            cases o with
            | none => simpa using habove le_rfl
            | some v => simp [lookupIn]
          · cases o <;> simp [lookupIn, hkk]
        next he =>
          rw [lookupIn, ih hs', lookupIn]
          by_cases hkk : k' = k
          · subst hkk
            simp [he]
          · simp [hkk]

/-- A write changes its own row and no other. -/
theorem get_set (m : OrdMap K V) (k : K) (o : Option V) (k' : K) [Decidable (k' = k)] :
    (m.set k o).get k' = if k' = k then o else m.get k' := by
  refine (lookupIn_setIn k o k' m.sorted).trans ?_
  by_cases h : k' = k
  · rw [if_pos h, if_pos h]
  · rw [if_neg h, if_neg h]
    rfl

@[simp] theorem get_set_self (m : OrdMap K V) (k : K) (o : Option V) :
    (m.set k o).get k = o := by
  rw [get_set, if_pos rfl]

theorem get_set_ne (m : OrdMap K V) {k k' : K} (o : Option V) (h : k' ≠ k) :
    (m.set k o).get k' = m.get k' := by
  rw [get_set, if_neg h]

theorem get_put (m : OrdMap K V) (k : K) (v : V) (k' : K) [Decidable (k' = k)] :
    (m.put k v).get k' = if k' = k then some v else m.get k' :=
  m.get_set k (some v) k'

theorem get_erase (m : OrdMap K V) (k k' : K) [Decidable (k' = k)] :
    (m.erase k).get k' = if k' = k then none else m.get k' :=
  m.get_set k none k'

@[simp] theorem get_put_self (m : OrdMap K V) (k : K) (v : V) :
    (m.put k v).get k = some v := m.get_set_self k (some v)

/-- Writing back the row that is there changes nothing. -/
theorem set_get_self (m : OrdMap K V) (k : K) : m.set k (m.get k) = m := by
  apply ext
  intro k'
  rw [get_set]
  split
  next h => rw [h]
  next => rfl

/-- Of two writes to one row the later counts. -/
theorem set_set (m : OrdMap K V) (k : K) (o o' : Option V) :
    (m.set k o).set k o' = m.set k o' := by
  apply ext
  intro k'
  by_cases h : k' = k
  · subst h
    rw [get_set_self, get_set_self]
  · rw [get_set_ne _ _ h, get_set_ne _ _ h, get_set_ne _ _ h]

-- ====================================================== write batches

/-- Apply a list of writes in order. -/
def setAll (m : OrdMap K V) (ws : List (K × Option V)) : OrdMap K V :=
  ws.foldl (fun m w => m.set w.1 w.2) m

@[simp] theorem setAll_nil (m : OrdMap K V) : m.setAll [] = m := rfl

@[simp] theorem setAll_cons (m : OrdMap K V) (w : K × Option V)
    (ws : List (K × Option V)) :
    m.setAll (w :: ws) = (m.set w.1 w.2).setAll ws := rfl

theorem setAll_append (m : OrdMap K V) (ws ws' : List (K × Option V)) :
    m.setAll (ws ++ ws') = (m.setAll ws).setAll ws' :=
  List.foldl_append

/-- What a batch leaves in a row: its last write, or the row as it was. -/
theorem get_setAll [DecidableEq K] (m : OrdMap K V) (ws : List (K × Option V)) (k : K) :
    (m.setAll ws).get k
      = ws.foldl (fun o w => if w.1 = k then w.2 else o) (m.get k) := by
  induction ws generalizing m with
  | nil => rfl
  | cons w ws ih =>
      rw [setAll_cons, ih, List.foldl_cons, get_set]
      by_cases h : w.1 = k
      · rw [if_pos h, if_pos h.symm]
      · rw [if_neg h, if_neg (Ne.symm h)]

/-- A row that is there after a batch was there before, or was put. -/
theorem of_get_setAll {m : OrdMap K V} {ws : List (K × Option V)} {k : K} {v : V}
    (h : (m.setAll ws).get k = some v) : m.get k = some v ∨ (k, some v) ∈ ws := by
  induction ws generalizing m with
  | nil => exact Or.inl h
  | cons w ws ih =>
      rw [setAll_cons] at h
      rcases ih h with hget | hmem
      · by_cases hk : k = w.1
        · rw [hk, get_set_self] at hget
          rw [hk, ← hget]
          exact Or.inr List.mem_cons_self
        · rw [get_set_ne _ _ hk] at hget
          exact Or.inl hget
      · exact Or.inr (List.mem_cons_of_mem _ hmem)

/-- Rows no write names are unchanged. -/
theorem get_setAll_of_forall_ne {m : OrdMap K V} {ws : List (K × Option V)}
    {k : K} (h : ∀ w ∈ ws, w.1 ≠ k) : (m.setAll ws).get k = m.get k := by
  induction ws generalizing m with
  | nil => rfl
  | cons w ws ih =>
      rw [setAll_cons, ih fun w hw => h w (List.mem_cons_of_mem _ hw)]
      exact m.get_set_ne w.2 (h w List.mem_cons_self).symm

/-- A row all of whose writes agree ends as they say. -/
theorem get_setAll_of_forall_eq {m : OrdMap K V} {ws : List (K × Option V)}
    {k : K} {o : Option V} (hmem : (k, o) ∈ ws)
    (h : ∀ w ∈ ws, w.1 = k → w.2 = o) : (m.setAll ws).get k = o := by
  induction ws generalizing m with
  | nil => cases hmem
  | cons w ws ih =>
      rw [setAll_cons]
      by_cases hmem' : (k, o) ∈ ws
      · exact ih hmem' fun w hw => h w (List.mem_cons_of_mem _ hw)
      · have hw : w = (k, o) := by
          rcases List.mem_cons.mp hmem with h | h
          · exact h.symm
          · exact absurd h hmem'
        have hrest : ∀ w ∈ ws, w.1 ≠ k := by
          intro w' hw' hk
          apply hmem'
          rw [← h w' (List.mem_cons_of_mem _ hw') hk, ← hk]
          exact hw'
        rw [get_setAll_of_forall_ne hrest, hw]
        exact m.get_set_self k o

/-- When each key is written at most once, a batch is read off by
membership. -/
theorem get_setAll_of_mem {m : OrdMap K V} {ws : List (K × Option V)}
    (hnd : (ws.map Prod.fst).Nodup) {k : K} {o : Option V}
    (hmem : (k, o) ∈ ws) : (m.setAll ws).get k = o := by
  refine get_setAll_of_forall_eq hmem fun w hw hk => ?_
  have := List.inj_on_of_nodup_map hnd hw hmem hk
  rw [this]

/-- A batch of deletions leaves the rows it does not name. -/
theorem get_setAll_deletes [DecidableEq K] {m : OrdMap K V} {ws : List (K × Option V)}
    (h : ∀ w ∈ ws, w.2 = none) (k : K) :
    (m.setAll ws).get k = if k ∈ ws.map Prod.fst then none else m.get k := by
  split
  next hmem =>
    obtain ⟨⟨k', o⟩, hw, rfl⟩ := List.mem_map.mp hmem
    refine get_setAll_of_forall_eq (o := none) ?_ fun w hw' _ => h w hw'
    have ho : o = none := h _ hw
    exact ho ▸ hw
  next hmem =>
    exact get_setAll_of_forall_ne fun w hw he => hmem (List.mem_map.mpr ⟨w, hw, he⟩)

-- ======================================================= row aggregates

/-- The sum of a quantity over all rows. -/
def sum {M : Type*} [AddCommMonoid M] (m : OrdMap K V) (f : K → V → M) : M :=
  (m.entries.map fun e => f e.1 e.2).sum

section Sum

variable {M : Type*} [AddCommMonoid M] (f : K → V → M)

@[simp] theorem sum_empty : (∅ : OrdMap K V).sum f = 0 := rfl

private theorem sum_setIn (k : K) (o : Option V) {l : List (K × V)}
    (hs : l.Pairwise fun a b => a.1 < b.1) :
    ((setIn k o l).map fun e => f e.1 e.2).sum + (lookupIn k l).elim 0 (f k)
      = (l.map fun e => f e.1 e.2).sum + o.elim 0 (f k) := by
  have hhead : ∀ o : Option V,
      ((o.map fun v => (k, v)).toList.map fun e => f e.1 e.2).sum
        = o.elim 0 (f k) := by
    rintro (_ | v) <;> simp
  induction l with
  | nil => simp [setIn, lookupIn, hhead]
  | cons e l ih =>
      obtain ⟨k₀, v₀⟩ := e
      obtain ⟨hlt, hs'⟩ := List.pairwise_cons.mp hs
      have habove : k ≤ k₀ → lookupIn k l = none := fun hle =>
        lookupIn_none fun e he hek =>
          absurd (hek ▸ hlt e he) (not_lt.mpr hle)
      rw [setIn]
      split
      next hk =>
        have hnone : lookupIn k ((k₀, v₀) :: l) = none := by
          rw [lookupIn, if_neg hk.ne, habove hk.le]
        rw [hnone, List.map_append, List.sum_append, hhead]
        simp [add_comm, add_left_comm]
      next hk =>
        split
        next he =>
          subst he
          rw [List.map_append, List.sum_append, hhead]
          simp [lookupIn, add_comm, add_left_comm]
        next he =>
          rw [lookupIn, if_neg he]
          simp only [List.map_cons, List.sum_cons]
          rw [add_assoc, ih hs', add_assoc]

/-- One write moves an aggregate by its own row alone: the new total
plus what the row counted before is the old total plus what it counts
now. -/
theorem sum_set (m : OrdMap K V) (k : K) (o : Option V) :
    (m.set k o).sum f + (m.get k).elim 0 (f k) = m.sum f + o.elim 0 (f k) :=
  sum_setIn f k o m.sorted

theorem sum_put_of_none {m : OrdMap K V} {k : K} (h : m.get k = none) (v : V) :
    (m.put k v).sum f = m.sum f + f k v := by
  have hsum := m.sum_set f k (some v)
  rw [h, Option.elim_none, add_zero] at hsum
  exact hsum

end Sum

-- ============================================================== seeking

/-- Dropping while below `k` in an ascending list keeps exactly the rows
at or above `k`. -/
theorem seek_eq_filter (m : OrdMap K V) (k : K) :
    m.seek k = m.entries.filter fun e => decide (k ≤ e.1) := by
  unfold seek
  have hs := m.sorted
  generalize m.entries = l at hs ⊢
  induction l with
  | nil => rfl
  | cons e l ih =>
      obtain ⟨hlt, hs'⟩ := List.pairwise_cons.mp hs
      by_cases he : e.1 < k
      · rw [List.dropWhile_cons_of_pos (by simpa using he), ih hs',
          List.filter_cons_of_neg (by simpa using he)]
      · rw [List.dropWhile_cons_of_neg (by simpa using he)]
        symm
        rw [List.filter_eq_self]
        intro e' he'
        rw [decide_eq_true_eq]
        rcases List.mem_cons.mp he' with rfl | he'
        · exact not_lt.mp he
        · exact (not_lt.mp he).trans (hlt e' he').le

theorem mem_seek {m : OrdMap K V} {k : K} {e : K × V} :
    e ∈ m.seek k ↔ m.get e.1 = some e.2 ∧ k ≤ e.1 := by
  rw [seek_eq_filter, List.mem_filter, decide_eq_true_eq]
  exact and_congr_left fun _ => mem_entries

theorem seek_sorted (m : OrdMap K V) (k : K) :
    (m.seek k).Pairwise fun a b => a.1 < b.1 := by
  rw [seek_eq_filter]
  exact m.sorted.filter _

-- =========================================================== the row below

/-- The last row at or below `k`. -/
def floor (m : OrdMap K V) (k : K) : Option (K × V) :=
  (m.entries.takeWhile fun e => decide (e.1 ≤ k)).getLast?

theorem takeWhile_le_eq_filter (m : OrdMap K V) (k : K) :
    (m.entries.takeWhile fun e => decide (e.1 ≤ k))
      = m.entries.filter fun e => decide (e.1 ≤ k) := by
  refine takeWhile_eq_filter (m.sorted.imp fun hab hb => ?_)
  rw [decide_eq_true_eq] at hb ⊢
  exact hab.le.trans hb

theorem floor_eq_none {m : OrdMap K V} {k : K} :
    m.floor k = none ↔ ∀ k' v, m.get k' = some v → k < k' := by
  rw [floor, takeWhile_le_eq_filter, List.getLast?_eq_none_iff, List.filter_eq_nil_iff]
  constructor
  · intro h k' v hv
    have := h _ (mem_entries.mpr hv)
    rwa [decide_eq_true_eq, not_le] at this
  · rintro h ⟨k', v⟩ hmem
    rw [decide_eq_true_eq, not_le]
    exact h k' v (mem_entries.mp hmem)

/-- It is in the table, and every other row below `k` is below it. -/
theorem floor_spec {m : OrdMap K V} {k k' : K} {v : V} (h : m.floor k = some (k', v)) :
    m.get k' = some v ∧ k' ≤ k ∧ ∀ j w, m.get j = some w → j ≤ k → j ≤ k' := by
  rw [floor, takeWhile_le_eq_filter] at h
  have hmem := List.mem_of_getLast? h
  rw [List.mem_filter, decide_eq_true_eq] at hmem
  refine ⟨mem_entries.mp hmem.1, hmem.2, fun j w hj hle => ?_⟩
  have hin : (j, w) ∈ m.entries.filter fun e => decide (e.1 ≤ k) :=
    List.mem_filter.mpr ⟨mem_entries.mpr hj, decide_eq_true hle⟩
  obtain ⟨init, hinit⟩ := List.getLast?_eq_some_iff.mp h
  have hs : (init ++ [(k', v)]).Pairwise fun a b => a.1 < b.1 := hinit ▸ m.sorted.filter _
  rw [hinit] at hin
  rcases List.mem_append.mp hin with hin | hin
  · exact ((List.pairwise_append.mp hs).2.2 _ hin _ (List.mem_singleton.mpr rfl)).le
  · cases List.mem_singleton.mp hin
    exact le_rfl

-- ================================================================== values

/-- Every row's value replaced. -/
def mapVal {W : Type*} (m : OrdMap K V) (g : V → W) : OrdMap K W :=
  ⟨m.entries.map fun e => (e.1, g e.2), List.pairwise_map.mpr m.sorted⟩

@[simp] theorem get_mapVal {W : Type*} (m : OrdMap K V) (g : V → W) (k : K) :
    (m.mapVal g).get k = (m.get k).map g := by
  show lookupIn k (m.entries.map fun e => (e.1, g e.2)) = (lookupIn k m.entries).map g
  induction m.entries with
  | nil => rfl
  | cons e l ih =>
      rw [List.map_cons, lookupIn, lookupIn, ih]
      split
      · rfl
      · rfl

theorem mapVal_set {W : Type*} (m : OrdMap K V) (g : V → W) (k : K) (o : Option V) :
    (m.set k o).mapVal g = (m.mapVal g).set k (o.map g) := by
  apply ext
  intro k'
  rw [get_mapVal, get_set, get_set, get_mapVal]
  split
  · rfl
  · rfl

theorem sum_mapVal {W M : Type*} [AddCommMonoid M] (m : OrdMap K V) (g : V → W)
    (f : K → W → M) : (m.mapVal g).sum f = m.sum fun k v => f k (g v) := by
  rw [sum, sum, mapVal, List.map_map]
  rfl

-- =============================================================== selection

/-- The rows whose key satisfies `p`. -/
def filter (m : OrdMap K V) (p : K → Bool) : OrdMap K V :=
  ⟨m.entries.filter fun e => p e.1, m.sorted.filter _⟩

theorem get_filter (m : OrdMap K V) (p : K → Prop) [DecidablePred p] (k : K) :
    (m.filter fun k => decide (p k)).get k = if p k then m.get k else none := by
  apply Option.ext
  intro v
  rw [← mem_entries]
  show (k, v) ∈ m.entries.filter (fun e => decide (p e.1)) ↔ _
  rw [List.mem_filter, decide_eq_true_eq, mem_entries]
  split
  next hp => exact ⟨And.left, fun h => ⟨h, hp⟩⟩
  next hp => exact ⟨fun h => absurd h.2 hp, fun h => by cases h⟩

end OrdMap

end Narshare
