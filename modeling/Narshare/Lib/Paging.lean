/-
Reading a sorted table page by page.

# Pages

`PageOf rows page next` says that `page` holds the values of a front part
of `rows`: of all of them, and then there is no `next`, or of a proper
part that is not empty, and then `next` is the last key taken. What
remains is the rows above `next` (`PageOf.rest`), because keys ascend; so
a reader that asks again with `next` as its cursor gets on with exactly
that.

`Serves` says the same of a function that pages, without its keys: it is
what two servers with different orders have in common, and a `Reading`
of either holds all there is, whatever limits the reader asks under.
`Partitions` is the same with the pages kept apart.

# Subtrees

Keys that are lists sort so that the keys with one common prefix stand
together: `prefix_between`. A scan that starts inside a subtree and stops
at the first key outside of it has therefore seen the subtree's end.
-/
import Mathlib.Data.List.Lex
import Mathlib.Data.List.Basic
import Mathlib.Order.Lattice

namespace Narshare

universe u v

section Subtree

variable {α : Type u} [LinearOrder α]

/-- A list does not sort below its prefixes. -/
theorem not_lt_below {node k : List α} (h : node <+: k) : ¬ k < node := by
  induction node generalizing k with
  | nil => exact List.not_lt_nil k
  | cons x node ih =>
      obtain ⟨t, rfl⟩ := h
      rw [List.cons_append, List.cons_lt_cons_iff]
      rintro (hlt | ⟨-, hlt⟩)
      · exact lt_irrefl x hlt
      · exact ih (List.prefix_append node t) hlt

/-- What sorts between two lists of a subtree belongs to it. -/
theorem prefix_between {node a b c : List α} (ha : node <+: a) (hab : ¬ b < a)
    (hbc : ¬ c < b) (hc : node <+: c) : node <+: b := by
  induction node generalizing a b c with
  | nil => exact List.nil_prefix
  | cons x node ih =>
      obtain ⟨a', rfl⟩ := ha
      obtain ⟨c', rfl⟩ := hc
      cases b with
      | nil => exact absurd (List.nil_lt_cons x (node ++ a')) hab
      | cons y b =>
          rw [List.cons_append, List.cons_lt_cons_iff, not_or, not_and] at hab hbc
          have hxy : x = y := le_antisymm (not_lt.mp hab.1) (not_lt.mp hbc.1)
          subst hxy
          rw [List.cons_prefix_cons]
          exact ⟨rfl, ih (List.prefix_append node a') (hab.2 rfl) (hbc.2 rfl)
            (List.prefix_append node c')⟩

/-- Behind a common front the rest decides. -/
theorem lt_of_append_lt {node a b : List α} (h : node ++ a < node ++ b) : a < b := by
  induction node with
  | nil => exact h
  | cons x node ih =>
      rw [List.cons_append, List.cons_append, List.cons_lt_cons_iff] at h
      exact h.elim (fun hlt => absurd hlt (lt_irrefl x)) fun h => ih h.2

end Subtree

section Page

variable {K : Type u} {V : Type v}

/-- The rows above a row of an ascending list are the ones behind it. -/
theorem filter_above [LinearOrder K] {front back : List (K × V)} {e : K × V}
    (hs : (front ++ e :: back).Pairwise fun a b => a.1 < b.1) :
    (front ++ e :: back).filter (fun e' => decide (e.1 < e'.1)) = back := by
  obtain ⟨-, hback, hcross⟩ := List.pairwise_append.mp hs
  have hfront : front.filter (fun e' => decide (e.1 < e'.1)) = [] := by
    rw [List.filter_eq_nil_iff]
    intro a ha
    have := hcross a ha e List.mem_cons_self
    simpa using this.le
  rw [List.filter_append, hfront, List.nil_append, List.filter_cons_of_neg (by simp),
    List.filter_eq_self]
  intro a ha
  exact decide_eq_true ((List.pairwise_cons.mp hback).1 a ha)

/-- A page of rows and the cursor to resume from. -/
inductive PageOf (rows : List (K × V)) : List V → Option K → Prop
  | all : PageOf rows (rows.map Prod.snd) none
  | cut (front back : List (K × V)) (e : K × V) :
      rows = front ++ e :: back → back ≠ [] →
      PageOf rows ((front ++ [e]).map Prod.snd) (some e.1)

namespace PageOf

variable {rows : List (K × V)} {page : List V} {next : Option K}

/-- A page with no cursor holds all rows. -/
theorem eq_all (h : PageOf rows page none) : page = rows.map Prod.snd := by
  cases h
  rfl

/-- The cursor is the key of a row. -/
theorem next_mem {k : K} (h : PageOf rows page (some k)) : ∃ e ∈ rows, e.1 = k := by
  cases h with
  | cut front back e hrows _ =>
      refine ⟨e, ?_, rfl⟩
      rw [hrows]
      exact List.mem_append_right _ List.mem_cons_self

/-- A row is on the page, or there is a cursor and it is above it. -/
theorem mem_or_lt [LinearOrder K] (hs : rows.Pairwise fun a b => a.1 < b.1)
    (h : PageOf rows page next) {e : K × V} (he : e ∈ rows) :
    e.2 ∈ page ∨ ∃ k, next = some k ∧ k < e.1 := by
  cases h with
  | all => exact Or.inl (List.mem_map_of_mem he)
  | cut front back last hrows _ =>
      subst hrows
      rcases List.mem_append.mp he with hfront | hback
      · exact Or.inl (List.mem_map_of_mem (List.mem_append_left _ hfront))
      · rcases List.mem_cons.mp hback with rfl | hback
        · exact Or.inl (List.mem_map_of_mem (List.mem_append_right _ List.mem_cons_self))
        · have hlast := (List.pairwise_cons.mp (List.pairwise_append.mp hs).2.1).1 e hback
          exact Or.inr ⟨last.1, rfl, hlast⟩

/-- A page of some rows has one. -/
theorem ne_nil (h : PageOf rows page next) (hne : rows ≠ []) : page ≠ [] := by
  cases h with
  | all => exact fun h => hne (List.map_eq_nil_iff.mp h)
  | cut front back e _ _ => simp

/-- The page and the rows above its cursor make up all rows. -/
theorem rest [LinearOrder K] (hs : rows.Pairwise fun a b => a.1 < b.1) {k : K}
    (h : PageOf rows page (some k)) :
    rows.map Prod.snd = page ++ (rows.filter fun e => decide (k < e.1)).map Prod.snd := by
  cases h with
  | cut front back e hrows _ =>
      rw [hrows] at hs ⊢
      rw [filter_above hs]
      simp

end PageOf

end Page

section Reading

variable {C : Type u} {V : Type v}

/-- What a reader has once it has followed the cursors from `c` to their
end, each request under a limit of its own. -/
inductive Reading (page : C → ℕ → List V × Option C) : C → List V → Prop
  | last {c : C} {n : ℕ} : (page c n).2 = none → Reading page c (page c n).1
  | more {c c' : C} {n : ℕ} {read : List V} :
      (page c n).2 = some c' → Reading page c' read → Reading page c ((page c n).1 ++ read)

/-- Each page, whatever its limit, is a front of what is left at its
cursor: all of it, or a part that is not empty and the cursor of the
rest. -/
structure Serves (page : C → ℕ → List V × Option C) (left : C → List V)
    (ok : C → Prop) : Prop where
  last : ∀ c n, ok c → (page c n).2 = none → (page c n).1 = left c
  more : ∀ c c' n, ok c → (page c n).2 = some c' →
    ok c' ∧ (page c n).1 ≠ [] ∧ left c = (page c n).1 ++ left c'

namespace Serves

variable {page : C → ℕ → List V × Option C} {left : C → List V} {ok : C → Prop}

/-- Whatever the limits, the reader has all that was left. -/
theorem read_eq (h : Serves page left ok) {c : C} {read : List V} (hc : ok c)
    (hr : Reading page c read) : read = left c := by
  induction hr with
  | last hnext => exact h.last _ _ hc hnext
  | more hnext _ ih =>
      obtain ⟨hok, -, hleft⟩ := h.more _ _ _ hc hnext
      rw [hleft, ih hok]

/-- And it does reach the end, under any limit. -/
theorem reading (h : Serves page left ok) (n : ℕ) {c : C} (hc : ok c) :
    Reading page c (left c) := by
  induction hlen : (left c).length using Nat.strong_induction_on generalizing c with
  | _ len ih =>
      cases hnext : (page c n).2 with
      | none =>
          rw [← h.last c n hc hnext]
          exact Reading.last hnext
      | some c' =>
          obtain ⟨hok, hne, hleft⟩ := h.more c c' n hc hnext
          have hlt : (left c').length < len := by
            rw [← hlen, hleft, List.length_append]
            have := List.length_pos_iff.mpr hne
            omega
          rw [hleft]
          exact Reading.more hnext (ih _ hlt hok rfl)

end Serves

/-- The pages of the requests under these limits, each from the cursor
the one before left; `none` when the limits are used up and there is
still a cursor. -/
def readPages (page : C → ℕ → List V × Option C) : List ℕ → C → Option (List (List V))
  | [], _ => none
  | n :: limits, c =>
      match page c n with
      | (p, none) => some [p]
      | (p, some c') => (readPages page limits c').map (p :: ·)

/-- Following the cursors from `c`, under whatever limits, cuts these
rows into pages: every row is met once and in order, no page that
another follows is empty, and there is an end. -/
structure Partitions (page : C → ℕ → List V × Option C) (c : C) (rows : List V) : Prop where
  once : rows.Nodup
  exact : ∀ limits pages, readPages page limits c = some pages → pages.flatten = rows
  filled : ∀ limits pages, readPages page limits c = some pages →
    ∀ p ∈ pages.dropLast, p ≠ []
  ends : ∀ limits : List ℕ, rows.length < limits.length → (readPages page limits c).isSome

namespace Serves

variable {page : C → ℕ → List V × Option C} {left : C → List V} {ok : C → Prop}

/-- What was read is what was left, and only the last page may be
empty. -/
theorem readPages_eq (h : Serves page left ok) {limits : List ℕ} {c : C}
    {pages : List (List V)} (hc : ok c) (hr : readPages page limits c = some pages) :
    pages.flatten = left c ∧ pages ≠ [] ∧ ∀ p ∈ pages.dropLast, p ≠ [] := by
  induction limits generalizing c pages with
  | nil => cases hr
  | cons n limits ih =>
      rw [readPages] at hr
      cases hpage : page c n with
      | mk p next =>
          have hp : (page c n).1 = p := congrArg Prod.fst hpage
          have hnext : (page c n).2 = next := congrArg Prod.snd hpage
          rw [hpage] at hr
          cases next with
          | none =>
              cases hr
              refine ⟨?_, List.cons_ne_nil _ _, fun q hq => by cases hq⟩
              rw [List.flatten_singleton, ← hp]
              exact h.last c n hc hnext
          | some c' =>
              obtain ⟨rest, hrest, rfl⟩ := Option.map_eq_some_iff.mp hr
              obtain ⟨hok, hne, hleft⟩ := h.more c c' n hc hnext
              obtain ⟨hflat, hsome, hfilled⟩ := ih hok hrest
              refine ⟨?_, List.cons_ne_nil _ _, fun q hq => ?_⟩
              · rw [List.flatten_cons, hflat, hleft, hp]
              · rw [List.dropLast_cons_of_ne_nil hsome] at hq
                rcases List.mem_cons.mp hq with rfl | hq
                · rw [← hp]
                  exact hne
                · exact hfilled q hq

/-- One request more than there are rows is enough. -/
theorem readPages_isSome (h : Serves page left ok) {limits : List ℕ} {c : C} (hc : ok c)
    (hlen : (left c).length < limits.length) : (readPages page limits c).isSome := by
  induction limits generalizing c with
  | nil => exact absurd hlen (Nat.not_lt_zero _)
  | cons n limits ih =>
      rw [readPages]
      cases hpage : page c n with
      | mk p next =>
          cases next with
          | none => rfl
          | some c' =>
              obtain ⟨hok, hne, hleft⟩ := h.more c c' n hc (congrArg Prod.snd hpage)
              have hpos := List.length_pos_iff.mpr hne
              have hshort : (left c').length < limits.length := by
                rw [hleft, List.length_append, List.length_cons] at hlen
                omega
              show ((readPages page limits c').map (p :: ·)).isSome
              rw [Option.isSome_map]
              exact ih hok hshort

/-- A server of rows that are all different cuts them into pages. -/
theorem partitions (h : Serves page left ok) {c : C} (hc : ok c) (hnd : (left c).Nodup) :
    Partitions page c (left c) where
  once := hnd
  exact _ _ hr := (h.readPages_eq hc hr).1
  filled _ _ hr := (h.readPages_eq hc hr).2.2
  ends _ hlen := h.readPages_isSome hc hlen

end Serves

end Reading

end Narshare
