/-
A bounded map that keeps its entries in order of use.

# What one promises

`Lru K V` is what a caller relies on, whatever such a map is made of: its
entries in order, the least recently used first (`order`), and what each
operation answers and makes of the order. `used`, `displaced` and `pushed`
say that for lists; keys are never entered twice (`order_nodup`), so that
using an entry moves it and nothing else (`used_perm`). `Lru.ofList` is
the one that is its own order.
-/
import Mathlib.Data.List.Nodup
import Mathlib.Data.List.Perm.Basic

namespace Narshare

variable {K V : Type} [DecidableEq K]

namespace Lru

/-- The entry of a key. -/
def at_ (k : K) (l : List (K × V)) : Option (K × V) := l.find? fun e => decide (e.1 = k)

/-- The order once `k` is used. -/
def used (k : K) (l : List (K × V)) : List (K × V) :=
  l.filter (fun e => decide (e.1 ≠ k)) ++ (at_ k l).toList

/-- What entering `k` puts out: what it was entered with, or, in a full
map, the least recently used. -/
def displaced (cap : ℕ) (k : K) (l : List (K × V)) : Option (K × V) :=
  match at_ k l with
  | some e => some e
  | none => if cap ≤ l.length then l.head? else none

/-- The order once `k` is entered. -/
def pushed (cap : ℕ) (k : K) (v : V) (l : List (K × V)) : List (K × V) :=
  match at_ k l with
  | some _ => l.filter (fun e => decide (e.1 ≠ k)) ++ [(k, v)]
  | none => (if cap ≤ l.length then l.tail else l) ++ [(k, v)]

end Lru

/-- A bounded map with an order of use. -/
structure Lru (K V : Type) [DecidableEq K] where
  Cache : Type
  new : ℕ → Cache
  get : Cache → K → Option V × Cache
  peek : Cache → K → Option V
  push : Cache → K → V → Option (K × V) × Cache
  popLru : Cache → Option (K × V) × Cache
  len : Cache → ℕ
  /-- The entries, the least recently used first. -/
  order : Cache → List (K × V)
  cap : Cache → ℕ
  order_nodup : ∀ c, ((order c).map Prod.fst).Nodup
  new_eq : ∀ n, order (new n) = [] ∧ cap (new n) = n
  get_eq : ∀ c k, (get c k).1 = (Lru.at_ k (order c)).map Prod.snd
    ∧ order (get c k).2 = Lru.used k (order c) ∧ cap (get c k).2 = cap c
  peek_eq : ∀ c k, peek c k = (Lru.at_ k (order c)).map Prod.snd
  push_eq : ∀ c k v, (push c k v).1 = Lru.displaced (cap c) k (order c)
    ∧ order (push c k v).2 = Lru.pushed (cap c) k v (order c) ∧ cap (push c k v).2 = cap c
  popLru_eq : ∀ c, (popLru c).1 = (order c).head? ∧ order (popLru c).2 = (order c).tail
    ∧ cap (popLru c).2 = cap c
  len_eq : ∀ c, len c = (order c).length

namespace Lru

variable {k k' : K} {v : V} {e : K × V} {l : List (K × V)}

-- ================================================================ lookups

/-- What is looked up under a key is an entry of the map, and that key is the
one it was entered with. -/
theorem at_eq_some (h : at_ k l = some e) : e ∈ l ∧ e.1 = k := by
  rw [at_] at h
  exact ⟨List.mem_of_find?_eq_some h, by simpa using List.find?_some h⟩

/-- A look-up finds nothing exactly when no entry has the key; whatever a
client concludes from a miss rests on this. -/
theorem at_eq_none : at_ k l = none ↔ k ∉ l.map Prod.fst := by
  rw [at_, List.find?_eq_none]
  constructor
  · intro h hin
    obtain ⟨e, he, rfl⟩ := List.mem_map.mp hin
    exact h e he (decide_eq_true rfl)
  · intro h e he hk
    exact h (List.mem_map.mpr ⟨e, he, of_decide_eq_true hk⟩)

/-- Where keys are entered once, a look-up finds the entry itself and not
merely one that has its key. -/
theorem at_of_mem (hl : (l.map Prod.fst).Nodup) (he : e ∈ l) : at_ e.1 l = some e := by
  cases hat : at_ e.1 l with
  | none => exact absurd (List.mem_map_of_mem he) (at_eq_none.mp hat)
  | some e' =>
      obtain ⟨he', hk⟩ := at_eq_some hat
      rw [List.inj_on_of_nodup_map hl he' he hk]

-- ================================================================ the order

/-- Taking a key out of a list that does not have it takes nothing out. -/
theorem filter_of_at_eq_none (h : at_ k l = none) :
    l.filter (fun e => decide (e.1 ≠ k)) = l := by
  rw [List.filter_eq_self]
  exact fun e he => decide_eq_true fun hk => at_eq_none.mp h (hk ▸ List.mem_map_of_mem he)

/-- Using an entry moves it and does nothing else: the same entries in another
order, so sizes and sums over them stay. -/
theorem used_perm (hl : (l.map Prod.fst).Nodup) (k : K) : (used k l).Perm l := by
  induction l with
  | nil => exact List.Perm.refl _
  | cons e l ih =>
      rw [List.map_cons, List.nodup_cons] at hl
      rw [used, at_]
      by_cases hk : e.1 = k
      · have hnone : at_ k l = none := at_eq_none.mpr (hk ▸ hl.1)
        rw [List.filter_cons_of_neg (by simp [hk]), List.find?_cons_of_pos (by simp [hk]),
          filter_of_at_eq_none hnone]
        exact List.perm_append_singleton e l
      · rw [List.filter_cons_of_pos (by simp [hk]), List.find?_cons_of_neg (by simp [hk])]
        exact (ih hl.2).cons e

/-- A use keeps keys apart, since it only permutes the entries. -/
theorem nodup_used (hl : (l.map Prod.fst).Nodup) (k : K) : ((used k l).map Prod.fst).Nodup :=
  ((used_perm hl k).map Prod.fst).nodup_iff.mpr hl

omit [DecidableEq K] in
/-- Putting out the least recently used leaves the other keys apart. -/
theorem nodup_tail (hl : (l.map Prod.fst).Nodup) : (l.tail.map Prod.fst).Nodup := by
  rw [List.map_tail]
  exact hl.tail

omit [DecidableEq K] in
/-- A key that no entry has may be entered at the end, which is where the most
recently used stands. -/
theorem nodup_concat (hl : (l.map Prod.fst).Nodup) (hk : k ∉ l.map Prod.fst) (v : V) :
    ((l ++ [(k, v)]).map Prod.fst).Nodup := by
  rw [List.map_append, List.map_singleton, List.nodup_append]
  refine ⟨hl, List.nodup_singleton _, fun a ha b hb => ?_⟩
  rw [List.mem_singleton.mp hb]
  rintro rfl
  exact hk ha

/-- Entering keeps keys apart whether the key was there, the map was full, or
neither: an entry under the same key goes first. -/
theorem nodup_pushed (hl : (l.map Prod.fst).Nodup) (cap : ℕ) (k : K) (v : V) :
    ((pushed cap k v l).map Prod.fst).Nodup := by
  unfold pushed
  split
  -- the old entry of the key is filtered out, so the new one is the only one
  next =>
    refine nodup_concat (hl.sublist (List.filter_sublist.map _)) ?_ v
    intro hin
    obtain ⟨e, he, hk⟩ := List.mem_map.mp hin
    exact of_decide_eq_true (List.mem_filter.mp he).2 hk
  next hnone =>
    rw [at_eq_none] at hnone
    split
    · exact nodup_concat (nodup_tail hl)
        (fun hin => hnone ((l.tail_sublist.map _).mem hin)) v
    · exact nodup_concat hl hnone v

/-- The map that is its own order. -/
def ofList (K V : Type) [DecidableEq K] : Lru K V where
  Cache := ℕ × { l : List (K × V) // (l.map Prod.fst).Nodup }
  new n := (n, ⟨[], List.nodup_nil⟩)
  get c k := ((at_ k c.2.1).map Prod.snd, (c.1, ⟨used k c.2.1, nodup_used c.2.2 k⟩))
  peek c k := (at_ k c.2.1).map Prod.snd
  push c k v := (displaced c.1 k c.2.1, (c.1, ⟨pushed c.1 k v c.2.1, nodup_pushed c.2.2 c.1 k v⟩))
  popLru c := (c.2.1.head?, (c.1, ⟨c.2.1.tail, nodup_tail c.2.2⟩))
  len c := c.2.1.length
  order c := c.2.1
  cap c := c.1
  order_nodup c := c.2.2
  new_eq _ := ⟨rfl, rfl⟩
  get_eq _ _ := ⟨rfl, rfl, rfl⟩
  peek_eq _ _ := rfl
  push_eq _ _ _ := ⟨rfl, rfl, rfl⟩
  popLru_eq _ := ⟨rfl, rfl, rfl⟩
  len_eq _ := rfl

end Lru

end Narshare
