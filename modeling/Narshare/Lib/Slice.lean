/-
Slices of lists, what is written over them (`patch`), and lists of tiles
laid end to end over a range of numbers.

# Tiles

`Tiles off len a b l` says the items of `l` have no gap and no overlap:
the first starts at `a`, each starts where the one before it ends, none
is empty and the last ends at `b`. What is known of single tiles then
adds up: `clip_flatMap` is a range read clipped to each tile it meets,
starting at the first one that reaches past its start, and it is the
slice of everything the tiles hold.
-/
import Mathlib.Data.List.Basic
import Mathlib.Data.List.TakeWhile
import Mathlib.Algebra.Order.Group.Nat

namespace Narshare

universe u v

variable {α : Type u} {σ : Type v}

-- ================================================================ slices

/-- The items of `l` at the places from `s` up to `e`. -/
def slice (l : List α) (s e : ℕ) : List α := (l.take e).drop s

theorem length_slice (l : List α) (s e : ℕ) : (slice l s e).length = min e l.length - s := by
  rw [slice, List.length_drop, List.length_take]

@[simp] theorem slice_nil (s e : ℕ) : slice ([] : List α) s e = [] := by
  rw [slice, List.take_nil, List.drop_nil]

@[simp] theorem slice_self (l : List α) (s : ℕ) : slice l s s = [] := by
  rw [slice, List.drop_eq_nil_iff, List.length_take]
  exact min_le_left _ _

theorem slice_of_ge {l : List α} {s e : ℕ} (h : e ≤ s) : slice l s e = [] := by
  rw [slice, List.drop_eq_nil_iff, List.length_take]
  exact (min_le_left _ _).trans h

theorem slice_zero (l : List α) {e : ℕ} (h : l.length ≤ e) : slice l 0 e = l := by
  rw [slice, List.drop_zero, List.take_of_length_le h]

/-- A slice of two lists end to end. -/
theorem slice_append (l l' : List α) (s e : ℕ) :
    slice (l ++ l') s e = slice l s e ++ slice l' (s - l.length) (e - l.length) := by
  rw [slice, List.take_append, List.drop_append, slice, slice, List.length_take]
  rcases le_or_gt l.length e with h | h
  · rw [Nat.min_eq_right h]
  · rw [Nat.sub_eq_zero_of_le h.le, List.take_zero, List.drop_nil, List.drop_nil]

theorem slice_append_left {l : List α} (l' : List α) {s e : ℕ} (h : e ≤ l.length) :
    slice (l ++ l') s e = slice l s e := by
  rw [slice, List.take_append_of_le_length h, slice]

/-- Two slices that meet make one. -/
theorem slice_append_slice (l : List α) {s m e : ℕ} (hsm : s ≤ m) (hme : m ≤ e) :
    slice l s m ++ slice l m e = slice l s e := by
  rw [slice, slice, slice]
  have hm : l.take m = (l.take e).take m := by
    rw [List.take_take, Nat.min_eq_left hme]
  rw [hm]
  generalize l.take e = k
  conv_rhs => rw [← List.take_append_drop m k]
  rw [List.drop_append]
  rcases le_or_gt m k.length with h | h
  · rw [List.length_take, Nat.min_eq_left h, Nat.sub_eq_zero_of_le hsm, List.drop_zero]
  · rw [List.drop_eq_nil_of_le h.le, List.drop_nil]

theorem slice_isPrefix (l : List α) {s e e' : ℕ} (hee : e ≤ e') : slice l s e <+: slice l s e' := by
  rcases le_total s e with hse | hse
  · rw [← slice_append_slice l hse hee]
    exact List.prefix_append _ _
  · rw [slice_of_ge hse]
    exact List.nil_prefix

/-- A slice of a slice. -/
theorem slice_slice (l : List α) (a b s e : ℕ) :
    slice (slice l a b) s e = slice l (a + s) (min (a + e) b) := by
  rw [slice, slice, slice, List.take_drop, List.take_take, List.drop_drop]

/-- A list that reads as `l` does from place `s` on is a slice of it. -/
theorem eq_slice_of_getElem? {l l' : List α} {s : ℕ}
    (h : ∀ i x, l'[i]? = some x → l[s + i]? = some x) : l' = slice l s (s + l'.length) := by
  apply List.ext_getElem?
  intro i
  rw [slice, List.getElem?_drop]
  by_cases hi : i < l'.length
  · rw [List.getElem?_take_of_lt (by omega), h i _ (List.getElem?_eq_getElem hi),
      List.getElem?_eq_getElem hi]
  · rw [List.getElem?_eq_none (not_lt.mp hi), List.getElem?_eq_none]
    rw [List.length_take]
    omega

-- ============================================================= overwriting

/-- The list with `new` written over it from place `i` on. -/
def patch (l : List α) (i : ℕ) (new : List α) : List α :=
  l.take i ++ new ++ l.drop (i + new.length)

section Patch

variable {l new : List α} {i : ℕ}

theorem length_patch (h : i + new.length ≤ l.length) : (patch l i new).length = l.length := by
  rw [patch, List.length_append, List.length_append, List.length_take, List.length_drop,
    Nat.min_eq_left (by omega)]
  omega

/-- What is before stays. -/
theorem slice_patch_of_le (h : i + new.length ≤ l.length) {s e : ℕ} (he : e ≤ i) :
    slice (patch l i new) s e = slice l s e := by
  have hlen : (l.take i).length = i := by
    rw [List.length_take, Nat.min_eq_left (by omega)]
  rw [patch, List.append_assoc, slice_append_left _ (by omega), slice, List.take_take,
    Nat.min_eq_left he, slice]

/-- What was written is read back. -/
theorem slice_patch (h : i + new.length ≤ l.length) :
    slice (patch l i new) i (i + new.length) = new := by
  have hlen : (l.take i).length = i := by
    rw [List.length_take, Nat.min_eq_left (by omega)]
  have hlen' : (l.take i ++ new).length = i + new.length := by rw [List.length_append, hlen]
  rw [patch, slice_append_left _ hlen'.ge, slice, ← hlen', List.take_length]
  exact List.drop_left' hlen

end Patch

-- ================================================================== tiles

/-- The items start at `a`, end at `b` and follow each other without gap,
none of them empty. -/
def Tiles (off len : σ → ℕ) (a b : ℕ) : List σ → Prop
  | [] => a = b
  | x :: l => off x = a ∧ 0 < len x ∧ Tiles off len (a + len x) b l

variable {off len : σ → ℕ}

@[simp] theorem tiles_nil {a b : ℕ} : Tiles off len a b [] ↔ a = b := Iff.rfl

theorem Tiles.le {a b : ℕ} {l : List σ} (h : Tiles off len a b l) : a ≤ b := by
  induction l generalizing a with
  | nil => exact le_of_eq h
  | cons x l ih => exact (Nat.le_add_right a (len x)).trans (ih h.2.2)

/-- Tiles end to end. -/
theorem Tiles.append {a b c : ℕ} {l l' : List σ} (h : Tiles off len a b l)
    (h' : Tiles off len b c l') : Tiles off len a c (l ++ l') := by
  induction l generalizing a with
  | nil =>
      rw [tiles_nil] at h
      rwa [h, List.nil_append]
  | cons x l ih => exact ⟨h.1, h.2.1, ih h.2.2⟩

/-- A tile lies within what the tiles cover. -/
theorem Tiles.bounds {a b : ℕ} {l : List σ} (h : Tiles off len a b l) {x : σ} (hx : x ∈ l) :
    a ≤ off x ∧ 0 < len x ∧ off x + len x ≤ b := by
  induction l generalizing a with
  | nil => cases hx
  | cons y l ih =>
      obtain ⟨hoff, hpos, hrest⟩ := h
      rcases List.mem_cons.mp hx with rfl | hx
      · exact ⟨hoff.ge, hpos, hoff ▸ hrest.le⟩
      · obtain ⟨hlo, hlen, hhi⟩ := ih hrest hx
        exact ⟨(Nat.le_add_right a (len y)).trans hlo, hlen, hhi⟩

/-- Tiles ascend without overlap. -/
theorem Tiles.pairwise {a b : ℕ} {l : List σ} (h : Tiles off len a b l) :
    l.Pairwise fun x y => off x + len x ≤ off y := by
  induction l generalizing a with
  | nil => exact List.Pairwise.nil
  | cons x l ih =>
      obtain ⟨hoff, -, hrest⟩ := h
      exact List.pairwise_cons.mpr ⟨fun y hy => hoff ▸ (hrest.bounds hy).1, ih hrest⟩

/-- What a tile holds is the slice, of all that the tiles hold, where the
tile is. -/
theorem Tiles.slice_of_mem {bytes : σ → List α} {a b : ℕ} {l : List σ} (h : Tiles off len a b l)
    (hlen : ∀ x ∈ l, (bytes x).length = len x) {x : σ} (hx : x ∈ l) :
    slice (l.flatMap bytes) (off x - a) (off x + len x - a) = bytes x := by
  induction l generalizing a with
  | nil => cases hx
  | cons y l ih =>
      obtain ⟨hoff, -, hrest⟩ := h
      have hy := hlen y List.mem_cons_self
      rw [List.flatMap_cons]
      rcases List.mem_cons.mp hx with rfl | hx
      · rw [hoff, Nat.sub_self, Nat.add_sub_cancel_left, ← hy, slice_append_left _ le_rfl]
        exact slice_zero _ le_rfl
      · have hlo := (hrest.bounds hx).1
        have hnil : slice (bytes y) (off x - a) (off x + len x - a) = [] := by
          rw [slice, List.drop_eq_nil_iff, List.length_take, hy]
          omega
        rw [slice_append, hnil, List.nil_append, hy, Nat.sub_sub, Nat.sub_sub]
        exact ih hrest (fun z hz => hlen z (List.mem_cons_of_mem _ hz)) hx

-- ===================================================== reading over the tiles

section Clip

variable {bytes : σ → List α}

/-- The part of a tile inside a range. -/
def clip (off : σ → ℕ) (bytes : σ → List α) (s e : ℕ) (x : σ) : List α :=
  slice (bytes x) (s - off x) (e - off x)

/-- A range clipped to every tile is the slice of what they hold. -/
theorem Tiles.flatMap_clip {a b : ℕ} {l : List σ} (h : Tiles off len a b l)
    (hlen : ∀ x ∈ l, (bytes x).length = len x) (s e : ℕ) :
    l.flatMap (clip off bytes s e) = slice (l.flatMap bytes) (s - a) (e - a) := by
  induction l generalizing a with
  | nil => rw [List.flatMap_nil, List.flatMap_nil, slice_nil]
  | cons x l ih =>
      obtain ⟨hoff, -, hrest⟩ := h
      rw [List.flatMap_cons, List.flatMap_cons, slice_append, clip, hoff,
        ih hrest fun y hy => hlen y (List.mem_cons_of_mem _ hy), hlen x List.mem_cons_self,
        Nat.sub_sub, Nat.sub_sub]

/-- Tiles that end at or before the range's start give nothing. -/
theorem clip_eq_nil_of_before {x : σ} {s e : ℕ} (hlen : (bytes x).length = len x)
    (h : off x + len x ≤ s) : clip off bytes s e x = [] := by
  rw [clip, slice, List.drop_eq_nil_iff, List.length_take, hlen]
  omega

/-- Nor do those that begin at or past its end. -/
theorem clip_eq_nil_of_after {x : σ} {s e : ℕ} (h : e ≤ off x) :
    clip off bytes s e x = [] := by
  rw [clip, Nat.sub_eq_zero_of_le h]
  exact slice_of_ge (Nat.zero_le _)

/-- Only the tiles from the first that reaches past the start, up to the
first that begins past the end, need be read. -/
theorem Tiles.clip_flatMap {a b : ℕ} {l : List σ} (h : Tiles off len a b l)
    (hlen : ∀ x ∈ l, (bytes x).length = len x) (s e : ℕ) :
    (((l.dropWhile fun x => decide (off x + len x ≤ s)).takeWhile
        fun x => decide (off x < e)).flatMap (clip off bytes s e))
      = slice (l.flatMap bytes) (s - a) (e - a) := by
  have hbefore : ∀ l : List σ, (∀ x ∈ l, (bytes x).length = len x) →
      l.flatMap (clip off bytes s e)
        = (l.dropWhile fun x => decide (off x + len x ≤ s)).flatMap (clip off bytes s e) := by
    intro l hlen
    induction l with
    | nil => rfl
    | cons x l ih =>
        rw [List.dropWhile_cons]
        split
        next hx =>
          rw [List.flatMap_cons, clip_eq_nil_of_before (hlen x List.mem_cons_self)
            (of_decide_eq_true hx), List.nil_append]
          exact ih fun y hy => hlen y (List.mem_cons_of_mem _ hy)
        next => rfl
  have hafter : ∀ l : List σ, (l.Pairwise fun x y => off x ≤ off y) →
      l.flatMap (clip off bytes s e)
        = (l.takeWhile fun x => decide (off x < e)).flatMap (clip off bytes s e) := by
    intro l hasc
    induction l with
    | nil => rfl
    | cons x l ih =>
        obtain ⟨hx, hl⟩ := List.pairwise_cons.mp hasc
        rw [List.takeWhile_cons]
        split
        next => rw [List.flatMap_cons, List.flatMap_cons, ih hl]
        next hge =>
          rw [decide_eq_true_eq, not_lt] at hge
          rw [List.flatMap_nil, List.flatMap_eq_nil_iff]
          intro y hy
          rcases List.mem_cons.mp hy with rfl | hy
          · exact clip_eq_nil_of_after hge
          · exact clip_eq_nil_of_after (hge.trans (hx y hy))
  have hasc : (l.dropWhile fun x => decide (off x + len x ≤ s)).Pairwise
      fun x y => off x ≤ off y :=
    (h.pairwise.imp fun hxy => (Nat.le_add_right _ _).trans hxy).sublist
      (List.dropWhile_sublist _)
  rw [← hafter _ hasc, ← hbefore l hlen, h.flatMap_clip hlen]

end Clip

end Narshare
