/-
Tables whose keys are written as byte strings: a table over structured
keys, the table a key-value store keeps of it, and what a scan of the
second says about the first.

# Keys that lead with their owner

A store that keeps many small tables in one sorted file gives each row a
key that begins with its owner, and reads an owner's rows by a scan of
that leading part. This is sound when no leading part begins another,
and `Encodes.scanFrom` has it as a hypothesis: the scan then returns the
rows of a predicate on the structured keys, in their own order. The
order only has to agree WITHIN a scan. Across owners the two tables may
be sorted differently, and a walk over everything meets the same keys in
some other order (`Encodes.keys_perm`).
-/
import Mathlib.Data.List.Perm.Basic
import Mathlib.Data.Prod.Lex
import Narshare.Lib.OrdMap
import Narshare.Lib.Paging

namespace Narshare

universe u v w

-- ================================================================== scanning

namespace OrdMap

variable {α : Type u} {V : Type v} [LinearOrder α]

/-- The rows from `start` on, up to the first whose key does not begin
with `front`. -/
def scanFrom (m : OrdMap (List α) V) (start front : List α) : List (List α × V) :=
  (m.seek start).takeWhile fun e => front.isPrefixOf e.1

/-- All rows whose key begins with `front`. -/
def scan (m : OrdMap (List α) V) (front : List α) : List (List α × V) :=
  m.scanFrom front front

/-- A scan that starts inside its range misses none of it. -/
theorem scanFrom_eq_filter (m : OrdMap (List α) V) {start front : List α}
    (h : front <+: start) :
    m.scanFrom start front
      = m.entries.filter fun e => decide (start ≤ e.1) && front.isPrefixOf e.1 := by
  have hcut : m.scanFrom start front
      = (m.seek start).filter fun e => front.isPrefixOf e.1 := by
    refine takeWhile_eq_filter ((m.seek_sorted start).imp_of_mem
      fun {a b} ha hb hab hbf => ?_)
    rw [List.isPrefixOf_iff_prefix] at hbf ⊢
    exact prefix_between h (not_lt.mpr (mem_seek.mp ha).2) (not_lt.mpr hab.le) hbf
  rw [hcut, seek_eq_filter, List.filter_filter]
  exact List.filter_congr fun e _ => Bool.and_comm _ _

end OrdMap

/-- Among the pairs with one first part the second decides. -/
theorem snd_lt_of_lt {α : Type u} {β : Type v} [LinearOrder α] [LinearOrder β] {k k' : α ×ₗ β}
    {a : α} (hk : (ofLex k).1 = a) (hk' : (ofLex k').1 = a) (h : k < k') :
    (ofLex k).2 < (ofLex k').2 := by
  rcases Prod.Lex.lt_iff.mp h with hlt | ⟨-, hlt⟩
  · rw [hk, hk'] at hlt
    exact absurd hlt (lt_irrefl a)
  · exact hlt

/-- Tests that agree on a list stop in the same place. -/
theorem takeWhile_congr {α : Type u} {p q : α → Bool} {l : List α} (h : ∀ a ∈ l, p a = q a) :
    l.takeWhile p = l.takeWhile q := by
  induction l with
  | nil => rfl
  | cons a l ih =>
      rw [List.takeWhile_cons, List.takeWhile_cons, h a List.mem_cons_self,
        ih fun b hb => h b (List.mem_cons_of_mem _ hb)]

/-- A rearrangement of images is the image of a rearrangement. -/
theorem exists_perm_of_map {α : Type u} {β : Type v} {f : α → β} {l : List α} {l' : List β}
    (h : l'.Perm (l.map f)) : ∃ l₁ : List α, l₁.Perm l ∧ l' = l₁.map f := by
  generalize hm : l.map f = m at h
  induction h generalizing l with
  | nil =>
      rw [List.map_eq_nil_iff] at hm
      exact ⟨[], hm ▸ List.Perm.refl _, rfl⟩
  | cons x _ ih =>
      obtain ⟨a, l, rfl, rfl, hrest⟩ := List.map_eq_cons_iff.mp hm
      obtain ⟨l₁, hperm, rfl⟩ := ih hrest
      exact ⟨a :: l₁, hperm.cons a, rfl⟩
  | swap x y l₂ =>
      obtain ⟨a, l, rfl, rfl, hrest⟩ := List.map_eq_cons_iff.mp hm
      obtain ⟨b, l, rfl, rfl, rfl⟩ := List.map_eq_cons_iff.mp hrest
      exact ⟨b :: a :: l, List.Perm.swap a b l, rfl⟩
  | trans _ _ ih ih' =>
      obtain ⟨l₁, hperm, rfl⟩ := ih' hm
      obtain ⟨l₂, hperm', rfl⟩ := ih rfl
      exact ⟨l₂, hperm'.trans hperm, rfl⟩

-- ================================================================== encoding

section Encodes

variable {K : Type u} {B : Type v} {V : Type w} [LinearOrder K] [LinearOrder B]
variable {enc : K → B} {dom : K → Prop}

/-- `m` has the rows of `t` under their encoded keys, and no others. -/
structure Encodes (enc : K → B) (dom : K → Prop) (t : OrdMap K V) (m : OrdMap B V) :
    Prop where
  get : ∀ k, dom k → m.get (enc k) = t.get k
  inDom : ∀ k v, t.get k = some v → dom k
  range : ∀ b v, m.get b = some v → ∃ k, dom k ∧ enc k = b

/-- Different keys are written differently. -/
def KeysApart (enc : K → B) (dom : K → Prop) : Prop :=
  ∀ k k', dom k → dom k' → enc k = enc k' → k = k'

namespace Encodes

variable {t : OrdMap K V} {m : OrdMap B V}

theorem empty : Encodes enc dom (∅ : OrdMap K V) (∅ : OrdMap B V) where
  get _ _ := rfl
  inDom _ _ h := by cases h
  range _ _ h := by cases h

/-- The row behind a row of the store. -/
theorem row (h : Encodes enc dom t m) {b : B} {v : V} (hb : m.get b = some v) :
    ∃ k, dom k ∧ enc k = b ∧ t.get k = some v := by
  obtain ⟨k, hk, rfl⟩ := h.range b v hb
  exact ⟨k, hk, rfl, (h.get k hk).symm.trans hb⟩

/-- A row of the store is there when the row it stands for is. -/
theorem get_eq_none (h : Encodes enc dom t m) {b : B}
    (hb : ∀ k, dom k → enc k = b → t.get k = none) : m.get b = none := by
  cases hget : m.get b with
  | none => rfl
  | some v =>
      obtain ⟨k, hk, he, hv⟩ := h.row hget
      rw [hb k hk he] at hv
      cases hv

/-- A row of the store is the same when the row it stands for is. -/
theorem get_congr {t' : OrdMap K V} {m' : OrdMap B V} (h : Encodes enc dom t m)
    (h' : Encodes enc dom t' m') {b : B} (hb : ∀ k, dom k → enc k = b → t'.get k = t.get k) :
    m'.get b = m.get b := by
  cases hget : m.get b with
  | some v =>
      obtain ⟨k, hk, rfl, hv⟩ := h.row hget
      rw [h'.get k hk, hb k hk rfl, hv]
  | none =>
      refine h'.get_eq_none fun k hk he => ?_
      rw [hb k hk he, ← h.get k hk, he, hget]

/-- One write on either side. -/
theorem set (h : Encodes enc dom t m) (hapart : KeysApart enc dom) {k : K} (hk : dom k)
    (o : Option V) : Encodes enc dom (t.set k o) (m.set (enc k) o) where
  get k' hk' := by
    rw [OrdMap.get_set, OrdMap.get_set]
    by_cases he : k' = k
    · rw [if_pos he, if_pos (congrArg enc he)]
    · rw [if_neg he, if_neg fun henc => he (hapart k' k hk' hk henc), h.get k' hk']
  inDom k' v hv := by
    rw [OrdMap.get_set] at hv
    split at hv
    next he => exact he ▸ hk
    next => exact h.inDom k' v hv
  range b v hv := by
    rw [OrdMap.get_set] at hv
    split at hv
    next he => exact ⟨k, hk, he.symm⟩
    next => exact h.range b v hv

/-- A batch on either side. -/
theorem setAll (h : Encodes enc dom t m) (hapart : KeysApart enc dom)
    {ws : List (K × Option V)} (hws : ∀ w ∈ ws, dom w.1) :
    Encodes enc dom (t.setAll ws) (m.setAll (ws.map fun w => (enc w.1, w.2))) := by
  induction ws generalizing t m with
  | nil => exact h
  | cons w ws ih =>
      exact ih (h.set hapart (hws w List.mem_cons_self) w.2)
        fun w' hw' => hws w' (List.mem_cons_of_mem _ hw')

/-- Rows picked out by a test on either key come in the same order, when
the encoding keeps the order among them. -/
theorem filter (h : Encodes enc dom t m) {p : K → Bool} {q : B → Bool}
    (hpq : ∀ k, dom k → q (enc k) = p k)
    (hmono : ∀ k k', dom k → dom k' → p k = true → p k' = true → k < k' → enc k < enc k') :
    m.entries.filter (fun e => q e.1)
      = (t.entries.filter fun e => p e.1).map fun e => (enc e.1, e.2) := by
  have hleft := m.sorted.filter fun e => q e.1
  have hright : ((t.entries.filter fun e => p e.1).map
      fun e => (enc e.1, e.2)).Pairwise fun a b => a.1 < b.1 := by
    rw [List.pairwise_map]
    refine (t.sorted.filter _).imp_of_mem fun {a b} ha hb hab => ?_
    obtain ⟨hamem, hap⟩ := List.mem_filter.mp ha
    obtain ⟨hbmem, hbp⟩ := List.mem_filter.mp hb
    exact hmono a.1 b.1 (h.inDom _ _ (OrdMap.mem_entries.mp hamem))
      (h.inDom _ _ (OrdMap.mem_entries.mp hbmem)) hap hbp hab
  -- both lists ascend, so it is enough that they have the same rows
  suffices hsame : (⟨_, hleft⟩ : OrdMap B V) = ⟨_, hright⟩ from congrArg OrdMap.entries hsame
  refine OrdMap.ext fun b => Option.ext fun v => ?_
  rw [← OrdMap.mem_entries, ← OrdMap.mem_entries]
  constructor
  · intro hmem
    obtain ⟨hmem, hq⟩ := List.mem_filter.mp hmem
    obtain ⟨k, hk, rfl, hget⟩ := h.row (OrdMap.mem_entries.mp hmem)
    refine List.mem_map.mpr ⟨(k, v), List.mem_filter.mpr ⟨OrdMap.mem_entries.mpr hget, ?_⟩, rfl⟩
    rw [← hpq k hk]
    exact hq
  · intro hmem
    obtain ⟨⟨k, v'⟩, hkv, he⟩ := List.mem_map.mp hmem
    obtain ⟨rfl, rfl⟩ := Prod.mk.inj he
    obtain ⟨hrow, hp⟩ := List.mem_filter.mp hkv
    have hget := OrdMap.mem_entries.mp hrow
    have hk := h.inDom k v' hget
    refine List.mem_filter.mpr ⟨OrdMap.mem_entries.mpr ((h.get k hk).trans hget), ?_⟩
    exact (hpq k hk).trans hp

/-- A walk over everything meets the same keys, in some order. -/
theorem keys_perm (h : Encodes enc dom t m) (hapart : KeysApart enc dom) :
    m.keys.Perm (t.keys.map enc) := by
  have hdom : ∀ k ∈ t.keys, dom k := fun k hk => by
    obtain ⟨v, hv⟩ := Option.isSome_iff_exists.mp (OrdMap.mem_keys.mp hk)
    exact h.inDom k v hv
  refine (List.perm_ext_iff_of_nodup m.keys_nodup ?_).mpr fun b => ?_
  · exact t.keys_nodup.map_on fun k hk k' hk' he => hapart k k' (hdom k hk) (hdom k' hk') he
  · rw [OrdMap.mem_keys, List.mem_map]
    constructor
    · intro hb
      obtain ⟨v, hv⟩ := Option.isSome_iff_exists.mp hb
      obtain ⟨k, -, rfl, hget⟩ := h.row hv
      exact ⟨k, OrdMap.mem_keys.mpr (Option.isSome_iff_exists.mpr ⟨v, hget⟩), rfl⟩
    · rintro ⟨k, hk, rfl⟩
      rw [h.get k (hdom k hk)]
      exact OrdMap.mem_keys.mp hk

end Encodes

/-- A scan in a table of encoded keys returns the rows of a range of
structured keys. -/
theorem Encodes.scanFrom {K : Type u} {V : Type w} {α : Type v} [LinearOrder K] [LinearOrder α]
    {enc : K → List α} {dom : K → Prop} {t : OrdMap K V} {m : OrdMap (List α) V}
    (h : Encodes enc dom t m) {start front : List α} (hstart : front <+: start)
    {p : K → Bool} (hp : ∀ k, dom k → (p k = true ↔ start ≤ enc k ∧ front <+: enc k))
    (hmono : ∀ k k', dom k → dom k' → p k = true → p k' = true → k < k' → enc k < enc k') :
    m.scanFrom start front = (t.entries.filter fun e => p e.1).map fun e => (enc e.1, e.2) := by
  rw [OrdMap.scanFrom_eq_filter m hstart]
  refine h.filter (q := fun b => decide (start ≤ b) && front.isPrefixOf b) (fun k hk => ?_) hmono
  rw [Bool.eq_iff_iff, Bool.and_eq_true, decide_eq_true_eq, List.isPrefixOf_iff_prefix, hp k hk]

theorem Encodes.scan {K : Type u} {V : Type w} {α : Type v} [LinearOrder K] [LinearOrder α]
    {enc : K → List α} {dom : K → Prop} {t : OrdMap K V} {m : OrdMap (List α) V}
    (h : Encodes enc dom t m) {front : List α} {p : K → Bool}
    (hp : ∀ k, dom k → (p k = true ↔ front <+: enc k))
    (hmono : ∀ k k', dom k → dom k' → p k = true → p k' = true → k < k' → enc k < enc k') :
    m.scan front = (t.entries.filter fun e => p e.1).map fun e => (enc e.1, e.2) := by
  refine h.scanFrom (List.prefix_refl front) (fun k hk => ?_) hmono
  rw [hp k hk]
  exact ⟨fun hf => ⟨not_lt.mp (not_lt_below hf), hf⟩, fun hf => hf.2⟩

end Encodes

end Narshare
