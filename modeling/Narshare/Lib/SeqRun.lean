/-
Consecutively numbered lists. `SeqRun num a l` says the items of `l` are
numbered `a + 1, a + 2, …` by `num`, with no gap and no repeat: a run of
a log directly above position `a`.

The two facts everything else rests on are that runs glue and cut
(`seqRun_append`, `SeqRun.drop`) and that a run whose items all agree
with a log IS the log's own segment (`SeqRun.eq_segment`), which is what
lets a property of single items be turned into one of a whole batch.
-/
import Mathlib.Data.List.Basic
import Mathlib.Data.List.TakeDrop

namespace Narshare

universe u

variable {α : Type u} (num : α → ℕ)

/-- The items of the list are numbered `a + 1, a + 2, …`. -/
def SeqRun (a : ℕ) : List α → Prop
  | [] => True
  | x :: xs => num x = a + 1 ∧ SeqRun (a + 1) xs

variable {num}

instance SeqRun.decidable (a : ℕ) : (l : List α) → Decidable (SeqRun num a l)
  | [] => isTrue trivial
  | x :: xs =>
      match SeqRun.decidable (a + 1) xs with
      | isTrue h =>
          if hx : num x = a + 1 then isTrue ⟨hx, h⟩
          else isFalse fun hr => hx hr.1
      | isFalse h => isFalse fun hr => h hr.2

@[simp] theorem seqRun_nil (a : ℕ) : SeqRun num a [] := trivial

@[simp] theorem seqRun_cons {a : ℕ} {x : α} {xs : List α} :
    SeqRun num a (x :: xs) ↔ num x = a + 1 ∧ SeqRun num (a + 1) xs := Iff.rfl

/-- Runs glue end to end. -/
theorem seqRun_append {a : ℕ} {l l' : List α} :
    SeqRun num a (l ++ l') ↔ SeqRun num a l ∧ SeqRun num (a + l.length) l' := by
  induction l generalizing a with
  | nil => simp
  | cons x xs ih =>
      rw [List.cons_append, seqRun_cons, seqRun_cons, ih, List.length_cons,
        show a + 1 + xs.length = a + (xs.length + 1) by omega, and_assoc]

theorem SeqRun.append {a : ℕ} {l l' : List α} (h : SeqRun num a l)
    (h' : SeqRun num (a + l.length) l') : SeqRun num a (l ++ l') :=
  seqRun_append.mpr ⟨h, h'⟩

theorem seqRun_map {β : Type*} {f : β → α} {a : ℕ} {l : List β} :
    SeqRun num a (l.map f) ↔ SeqRun (fun x => num (f x)) a l := by
  induction l generalizing a with
  | nil => exact Iff.rfl
  | cons x xs ih => rw [List.map_cons, seqRun_cons, seqRun_cons, ih]

/-- Item `i` of a run above `a` is numbered `a + 1 + i`. -/
theorem SeqRun.num_get {a i : ℕ} {l : List α} (h : SeqRun num a l) {x : α}
    (hx : l[i]? = some x) : num x = a + 1 + i := by
  induction l generalizing a i with
  | nil => simp at hx
  | cons y ys ih =>
      cases i with
      | zero =>
          have hxy : y = x := by simpa using hx
          rw [← hxy, h.1]
      | succ i =>
          rw [ih h.2 (by simpa using hx)]
          omega

/-- A run's numbers stay within the run. -/
theorem SeqRun.bounds {a : ℕ} {l : List α} (h : SeqRun num a l) {x : α}
    (hx : x ∈ l) : a < num x ∧ num x ≤ a + l.length := by
  obtain ⟨i, hi, rfl⟩ := List.mem_iff_getElem.mp hx
  have := h.num_get (List.getElem?_eq_getElem hi)
  omega

/-- Every number of the run's span has an item. -/
theorem SeqRun.exists_num {a n : ℕ} {l : List α} (h : SeqRun num a l)
    (hlo : a < n) (hhi : n ≤ a + l.length) : ∃ x ∈ l, num x = n := by
  have hi : n - a - 1 < l.length := by omega
  refine ⟨l[n - a - 1], List.getElem_mem hi, ?_⟩
  rw [h.num_get (List.getElem?_eq_getElem hi)]
  omega

/-- Cutting `k` items off the front raises the base by `k`. -/
theorem SeqRun.drop {a : ℕ} {l : List α} (h : SeqRun num a l) {k : ℕ}
    (hk : k ≤ l.length) : SeqRun num (a + k) (l.drop k) := by
  have hsplit : SeqRun num a (l.take k ++ l.drop k) := by
    rwa [List.take_append_drop]
  have := (seqRun_append.mp hsplit).2
  rwa [List.length_take, Nat.min_eq_left hk] at this

theorem SeqRun.take {a : ℕ} {l : List α} (h : SeqRun num a l) (k : ℕ) :
    SeqRun num a (l.take k) := by
  have hsplit : SeqRun num a (l.take k ++ l.drop k) := by
    rwa [List.take_append_drop]
  exact (seqRun_append.mp hsplit).1

/-- The last number of a nonempty run. -/
theorem SeqRun.num_getLast {a : ℕ} {l : List α} (h : SeqRun num a l)
    (hne : l ≠ []) : num (l.getLast hne) = a + l.length := by
  have hlen : 0 < l.length := List.length_pos_iff.mpr hne
  have hget : l[l.length - 1]? = some (l.getLast hne) := by
    rw [List.getLast_eq_getElem, List.getElem?_eq_getElem (by omega)]
  rw [h.num_get hget]
  omega

/-- A run's numbers ascend strictly. -/
theorem SeqRun.pairwise {a : ℕ} {l : List α} (h : SeqRun num a l) :
    l.Pairwise fun x y => num x < num y := by
  induction l generalizing a with
  | nil => exact List.Pairwise.nil
  | cons x xs ih =>
      refine List.pairwise_cons.mpr ⟨fun y hy => ?_, ih h.2⟩
      have := (SeqRun.bounds h.2 hy).1
      have := h.1
      omega

/-- A strictly ascending list that meets exactly the numbers of a span is
a run of it. -/
theorem SeqRun.of_pairwise {a b : ℕ} {l : List α} (hab : a ≤ b)
    (hasc : l.Pairwise fun x y => num x < num y)
    (hin : ∀ x ∈ l, a < num x ∧ num x ≤ b)
    (hall : ∀ n, a < n → n ≤ b → ∃ x ∈ l, num x = n) :
    SeqRun num a l ∧ a + l.length = b := by
  induction l generalizing a with
  | nil =>
      rcases Nat.eq_or_lt_of_le hab with he | hlt
      · exact ⟨trivial, he⟩
      · obtain ⟨x, hx, -⟩ := hall b hlt (Nat.le_refl b)
        exact (List.not_mem_nil hx).elim
  | cons x xs ih =>
      obtain ⟨hx, hxs⟩ := List.pairwise_cons.mp hasc
      obtain ⟨hlo, hhi⟩ := hin x List.mem_cons_self
      have hnum : num x = a + 1 := by
        obtain ⟨y, hy, hyn⟩ := hall (a + 1) (Nat.lt_succ_self a) (by omega)
        rcases List.mem_cons.mp hy with rfl | hy
        · exact hyn
        · have := hx y hy
          omega
      have hrest : SeqRun num (a + 1) xs ∧ a + 1 + xs.length = b := by
        refine ih (by omega) hxs (fun y hy => ?_) fun n hlt hle => ?_
        · have := hx y hy
          exact ⟨by omega, (hin y (List.mem_cons_of_mem _ hy)).2⟩
        · obtain ⟨y, hy, hyn⟩ := hall n (by omega) hle
          rcases List.mem_cons.mp hy with rfl | hy
          · omega
          · exact ⟨y, hy, hyn⟩
      refine ⟨⟨hnum, hrest.1⟩, ?_⟩
      rw [List.length_cons]
      omega

/-- A run whose items all sit in a log at their own numbers is the log's
segment above the run's base. -/
theorem SeqRun.eq_segment {a : ℕ} {l log : List α} (h : SeqRun num a l)
    (hlog : ∀ x ∈ l, log[num x - 1]? = some x) :
    l = (log.drop a).take l.length := by
  apply List.ext_getElem?
  intro i
  by_cases hi : i < l.length
  · have hx : l[i]? = some l[i] := List.getElem?_eq_getElem hi
    have hnum := h.num_get hx
    have hat := hlog l[i] (List.getElem_mem hi)
    rw [List.getElem?_take, if_pos hi, List.getElem?_drop, hx, ← hat, hnum]
    congr 1
    omega
  · rw [List.getElem?_eq_none (by omega), List.getElem?_take, if_neg hi]

/-- A log numbered from 1 lists each item at its own number. -/
theorem SeqRun.get_num {log : List α} (h : SeqRun num 0 log) {x : α}
    (hx : x ∈ log) : log[num x - 1]? = some x := by
  obtain ⟨i, hi, rfl⟩ := List.mem_iff_getElem.mp hx
  rw [h.num_get (List.getElem?_eq_getElem hi),
    show 0 + 1 + i - 1 = i by omega, List.getElem?_eq_getElem hi]

end Narshare
