/-
A slab: a growing table of slots, and the list of those that are free.

# Taking and putting back

`insert` fills the slot that was freed last, or a new one at the end;
`take` empties a slot and frees it; `putBack` fills a slot again and drops
what was freed last. Putting back right after taking is a change in place
(`take_putBack`), so it is only spoken of through `store`.

`Ok` is what the two parts owe each other: the free list is the empty
slots, each once. `Tracks s out` says moreover that `out` names the filled
slots, each once. What an owner keeps a list of (calls made and not yet
answered) is then never free (`Tracks.notMem_free`), and no two of them
share a slot.
-/
import Mathlib.Data.List.ReduceOption
import Mathlib.Data.List.Perm.Basic
import Mathlib.Data.List.Nodup

namespace Narshare

universe u

/-- Slots and the free ones among them, the last freed first. -/
structure Slab (α : Type u) where
  slots : List (Option α)
  free : List ℕ
deriving DecidableEq, Repr

namespace Slab

variable {α : Type u}

/-- No slots. -/
def empty : Slab α := { slots := [], free := [] }

/-- What a slot holds. -/
def get (s : Slab α) (i : ℕ) : Option α := s.slots[i]?.join

/-- Fill a free slot, or a new one; which it was. -/
def insert (s : Slab α) (a : α) : ℕ × Slab α :=
  match s.free with
  | i :: free => (i, { slots := s.slots.set i (some a), free })
  | [] => (s.slots.length, { slots := s.slots ++ [some a], free := [] })

/-- Empty a slot and free it. -/
def take (s : Slab α) (i : ℕ) : Option (α × Slab α) :=
  (s.get i).map fun a => (a, { slots := s.slots.set i none, free := i :: s.free })

/-- Fill a slot and drop the last freed. -/
def putBack (s : Slab α) (i : ℕ) (a : α) : Slab α :=
  { slots := s.slots.set i (some a), free := s.free.tail }

/-- Change what a slot holds. -/
def store (s : Slab α) (i : ℕ) (a : α) : Slab α := { s with slots := s.slots.set i (some a) }

/-- What the slots hold. -/
def toList (s : Slab α) : List α := s.slots.reduceOption

-- ============================================================== the slots

/-- What a slot holds, in terms of the table: the slot is there, and it is
filled. -/
theorem get_eq_some_iff {s : Slab α} {i : ℕ} {a : α} :
    s.get i = some a ↔ s.slots[i]? = some (some a) := Option.join_eq_some_iff

/-- A slot that holds something is one of the table. -/
theorem lt_of_get {s : Slab α} {i : ℕ} {a : α} (h : s.get i = some a) : i < s.slots.length :=
  (List.getElem?_eq_some_iff.mp (get_eq_some_iff.mp h)).1

/-- The contents are those of some slot each; which slot is forgotten. -/
theorem mem_toList {s : Slab α} {a : α} : a ∈ s.toList ↔ ∃ i, s.get i = some a := by
  rw [toList, List.reduceOption_mem_iff, List.mem_iff_getElem?]
  simp only [get_eq_some_iff]

theorem reduceOption_cons (o : Option α) (l : List (Option α)) :
    (o :: l).reduceOption = o.toList ++ l.reduceOption := by
  rw [← List.singleton_append, List.reduceOption_append, List.reduceOption_singleton]

/-- What a change of one slot does to what all of them hold: the old content
goes, the new one comes, and the rest stays in some order. -/
theorem reduceOption_set_perm {l : List (Option α)} {i : ℕ} {o : Option α} (h : l[i]? = some o)
    (o' : Option α) :
    (o.toList ++ (l.set i o').reduceOption).Perm (o'.toList ++ l.reduceOption) := by
  have hswap : ∀ a b c : List α, (a ++ (b ++ c)).Perm (b ++ (a ++ c)) := fun a b c => by
    rw [← List.append_assoc, ← List.append_assoc]
    exact List.perm_append_comm.append_right c
  induction l generalizing i with
  | nil => cases h
  | cons x l ih =>
      cases i with
      | zero =>
          cases h
          rw [List.set_cons_zero, reduceOption_cons, reduceOption_cons]
          exact hswap _ _ _
      | succ i =>
          -- the head stays: it comes to the front on both sides
          rw [List.set_cons_succ, reduceOption_cons, reduceOption_cons]
          exact (hswap _ _ _).trans (((ih h).append_left _).trans (hswap _ _ _))

-- ======================================================== what is well kept

/-- The free list is the empty slots, each once. -/
structure Ok (s : Slab α) : Prop where
  nodup : s.free.Nodup
  mem_free : ∀ i, i ∈ s.free ↔ s.slots[i]? = some none

/-- The table without slots has none free. -/
theorem ok_empty : (empty : Slab α).Ok :=
  ⟨List.nodup_nil, fun i => by simp [empty]⟩

namespace Ok

variable {s : Slab α}

/-- A slot that is listed as free holds nothing. -/
theorem get_of_free (h : s.Ok) {i : ℕ} (hi : i ∈ s.free) : s.get i = none := by
  rw [get, (h.mem_free i).mp hi, Option.join_some]

/-- The slot that an insertion chooses held nothing before, so that nothing is
overwritten. -/
theorem get_insert_fst (h : s.Ok) (a : α) : s.get (s.insert a).1 = none := by
  unfold insert
  split
  next i free hfree => exact h.get_of_free (hfree ▸ List.mem_cons_self)
  next => rw [get, List.getElem?_eq_none (Nat.le_refl _), Option.join_none]

/-- After an insertion the chosen slot holds the new value and every other
slot what it held. -/
theorem get_insert (h : s.Ok) (a : α) (j : ℕ) :
    (s.insert a).2.get j = if j = (s.insert a).1 then some a else s.get j := by
  unfold insert get
  split
  next i free hfree =>
    have hi := (h.mem_free i).mp (hfree ▸ List.mem_cons_self)
    have hlt := (List.getElem?_eq_some_iff.mp hi).1
    split
    next hj =>
      rw [hj, List.getElem?_set_self hlt, Option.join_some]
    next hj => rw [List.getElem?_set_ne (Ne.symm hj)]
  next =>
    split
    next hj => rw [hj, List.getElem?_concat_length, Option.join_some]
    next hj =>
      rcases Nat.lt_or_gt_of_ne hj with hlt | hgt
      · rw [List.getElem?_append_left hlt]
      · rw [List.getElem?_eq_none (by rw [List.length_append, List.length_singleton]; omega),
          List.getElem?_eq_none (by omega)]

/-- An insertion keeps the free list right: the slot it fills was the head of
the list and comes off it, or is new and was never on it. -/
theorem insert (h : s.Ok) (a : α) : (s.insert a).2.Ok := by
  unfold Slab.insert
  split
  next i free hfree =>
    have hnodup := h.nodup
    rw [hfree, List.nodup_cons] at hnodup
    refine ⟨hnodup.2, fun j => ?_⟩
    by_cases hj : i = j
    · rw [← hj]
      refine iff_of_false hnodup.1 fun hset => ?_
      have hlt := (List.getElem?_eq_some_iff.mp ((h.mem_free i).mp (hfree ▸ List.mem_cons_self))).1
      rw [List.getElem?_set_self hlt] at hset
      cases hset
    · rw [List.getElem?_set_ne hj, ← h.mem_free j, hfree, List.mem_cons]
      exact ⟨Or.inr, fun hm => hm.resolve_left (Ne.symm hj)⟩
  next hfree =>
    refine ⟨List.nodup_nil, fun j => iff_of_false List.not_mem_nil fun hset => ?_⟩
    rw [List.getElem?_append] at hset
    split at hset
    · have := (h.mem_free j).mpr hset
      rw [hfree] at this
      cases this
    next =>
      obtain ⟨hlt, heq⟩ := List.getElem?_eq_some_iff.mp hset
      rw [List.getElem_singleton] at heq
      cases heq

/-- An insertion adds its value to the contents and nothing else. -/
theorem toList_insert (h : s.Ok) (a : α) : (s.insert a).2.toList.Perm (a :: s.toList) := by
  unfold Slab.insert toList
  split
  next i free hfree =>
    exact reduceOption_set_perm ((h.mem_free i).mp (hfree ▸ List.mem_cons_self)) (some a)
  next =>
    rw [List.reduceOption_append, List.reduceOption_singleton]
    exact List.perm_append_comm

theorem store (h : s.Ok) {i : ℕ} {a : α} (hi : s.get i = some a) (b : α) : (s.store i b).Ok := by
  refine ⟨h.nodup, fun j => (h.mem_free j).trans ?_⟩
  show s.slots[j]? = some none ↔ (s.slots.set i (some b))[j]? = some none
  by_cases hj : i = j
  · rw [← hj, List.getElem?_set_self (lt_of_get hi), get_eq_some_iff.mp hi]
    exact iff_of_false nofun nofun
  · rw [List.getElem?_set_ne hj]

end Ok

-- ================================================================== taking

variable {s s' : Slab α} {i : ℕ} {a : α}

/-- All that taking does: it gives what the slot holds, empties the slot and
lists it as free. -/
theorem take_eq_some_iff : s.take i = some (a, s') ↔
    s.get i = some a ∧ s' = { slots := s.slots.set i none, free := i :: s.free } := by
  rw [take, Option.map_eq_some_iff]
  constructor
  · rintro ⟨b, hb, heq⟩
    cases heq
    exact ⟨hb, rfl⟩
  · rintro ⟨ha, rfl⟩
    exact ⟨a, ha, rfl⟩

/-- Nothing is taken exactly where nothing is held. -/
theorem take_eq_none_iff : s.take i = none ↔ s.get i = none := Option.map_eq_none_iff

theorem get_of_take (h : s.take i = some (a, s')) : s.get i = some a :=
  (take_eq_some_iff.mp h).1

/-- After taking, the slot is empty and every other one holds what it held. -/
theorem get_take (h : s.take i = some (a, s')) (j : ℕ) :
    s'.get j = if j = i then none else s.get j := by
  obtain ⟨hi, rfl⟩ := take_eq_some_iff.mp h
  unfold get
  split
  next hj => rw [hj, List.getElem?_set_self (lt_of_get hi), Option.join_some]
  next hj => rw [List.getElem?_set_ne (Ne.symm hj)]

/-- Taking removes its value from the contents, once, and nothing else. -/
theorem toList_take (h : s.take i = some (a, s')) : s.toList.Perm (a :: s'.toList) := by
  obtain ⟨hi, rfl⟩ := take_eq_some_iff.mp h
  exact (reduceOption_set_perm (get_eq_some_iff.mp hi) none).symm

/-- Taking keeps the free list right: the slot was not on it, since it held
something. -/
theorem Ok.take (hok : s.Ok) (h : s.take i = some (a, s')) : s'.Ok := by
  obtain ⟨hi, rfl⟩ := take_eq_some_iff.mp h
  have hnot : i ∉ s.free := fun hm => by
    rw [hok.get_of_free hm] at hi
    cases hi
  refine ⟨List.nodup_cons.mpr ⟨hnot, hok.nodup⟩, fun j => ?_⟩
  show j ∈ i :: s.free ↔ (s.slots.set i none)[j]? = some none
  rw [List.mem_cons, hok.mem_free]
  by_cases hj : i = j
  · rw [← hj, List.getElem?_set_self (lt_of_get hi)]
    exact iff_of_true (Or.inl rfl) rfl
  · rw [List.getElem?_set_ne hj, or_iff_right (Ne.symm hj)]

/-- Taking and putting back is a change in place: what is dropped from the
free list is what taking put there. -/
theorem take_putBack (h : s.take i = some (a, s')) (b : α) : s'.putBack i b = s.store i b := by
  obtain ⟨-, rfl⟩ := take_eq_some_iff.mp h
  rw [putBack, store, List.set_set, List.tail_cons]

-- ============================================================ changing one

/-- A change in place is seen at its slot alone. -/
theorem get_store (hi : s.get i = some a) (b : α) (j : ℕ) :
    (s.store i b).get j = if j = i then some b else s.get j := by
  unfold get store
  split
  next hj => rw [hj, List.getElem?_set_self (lt_of_get hi), Option.join_some]
  next hj => rw [List.getElem?_set_ne (Ne.symm hj)]

/-- What the slots hold under a map that does not see the change. -/
theorem map_toList_store {β : Type*} {f : α → β} (hi : s.get i = some a) {b : α}
    (hf : f b = f a) : ((s.store i b).toList.map f).Perm (s.toList.map f) := by
  have h := (reduceOption_set_perm (get_eq_some_iff.mp hi) (some b)).map f
  rw [Option.toList_some, Option.toList_some, List.map_append, List.map_append,
    List.map_singleton, List.map_singleton, hf] at h
  exact (List.perm_append_left_iff _).mp h

-- ============================================================== the owners

/-- The filled slots are the ones named, each once. -/
structure Tracks (s : Slab α) (out : List ℕ) : Prop where
  ok : s.Ok
  nodup : out.Nodup
  mem_iff : ∀ i, i ∈ out ↔ (s.get i).isSome

/-- No slots, and none named. -/
theorem tracks_empty : (empty : Slab α).Tracks [] :=
  ⟨ok_empty, List.nodup_nil, fun i => by simp [get, empty]⟩

namespace Tracks

variable {out out' : List ℕ}

/-- A slot named is not free. -/
theorem notMem_free (h : s.Tracks out) {j : ℕ} (hj : j ∈ out) : j ∉ s.free := by
  intro hm
  have := (h.mem_iff j).mp hj
  rw [h.ok.get_of_free hm] at this
  cases this

/-- A slot named is filled. -/
theorem get_isSome (h : s.Tracks out) {j : ℕ} (hj : j ∈ out) : ∃ b, s.get j = some b :=
  Option.isSome_iff_exists.mp ((h.mem_iff j).mp hj)

/-- In what order the slots are named makes no difference. -/
theorem perm (h : s.Tracks out) (hp : out'.Perm out) : s.Tracks out' :=
  ⟨h.ok, hp.nodup_iff.mpr h.nodup, fun j => hp.mem_iff.trans (h.mem_iff j)⟩

/-- The slot chosen is named from now on; it was not named before, since it
held nothing. -/
theorem insert (h : s.Tracks out) (a : α) : (s.insert a).2.Tracks ((s.insert a).1 :: out) := by
  refine ⟨h.ok.insert a, List.nodup_cons.mpr ⟨fun hm => ?_, h.nodup⟩, fun j => ?_⟩
  · have := (h.mem_iff _).mp hm
    rw [h.ok.get_insert_fst] at this
    cases this
  · rw [h.ok.get_insert, List.mem_cons]
    split
    next hj => exact iff_of_true (Or.inl hj) rfl
    next hj => rw [or_iff_right hj, h.mem_iff]

/-- The slot emptied is named no more. -/
theorem take (h : s.Tracks (i :: out)) (ht : s.take i = some (a, s')) : s'.Tracks out := by
  obtain ⟨hnot, hnodup⟩ := List.nodup_cons.mp h.nodup
  refine ⟨h.ok.take ht, hnodup, fun j => ?_⟩
  rw [get_take ht]
  split
  next hj => exact iff_of_false (fun hm => hnot (hj ▸ hm)) (by simp)
  next hj => rw [← h.mem_iff, List.mem_cons, or_iff_right hj]

theorem store (h : s.Tracks out) (hi : s.get i = some a) (b : α) : (s.store i b).Tracks out := by
  refine ⟨h.ok.store hi b, h.nodup, fun j => ?_⟩
  rw [get_store hi, h.mem_iff]
  split
  next hj =>
    rw [hj, hi]
    exact iff_of_true rfl rfl
  next => exact Iff.rfl

end Tracks

end Slab

end Narshare
