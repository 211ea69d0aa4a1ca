/-
What `attestation_page` reads: a page of the rows of a subtree above a
cursor.

`rowsFrom` says which rows those are, without the seek and the early
stop; `attestationPage_spec` is that the walk reads a page of them, and
`Walk` (Lib/Paging.lean) then speaks of reading on to the end.
-/
import Narshare.Lib.Paging
import Narshare.Store.Rocks

namespace Narshare

variable {cd : Codec}

/-- The rows under `node` above `cursor`, in key order. -/
def Db.rowsFrom (db : Db) (node cursor : Bytes) : List (Bytes × Attestation) :=
  db.att.entries.filter fun e => node.isPrefixOf e.1 && decide (cursor < e.1)

theorem Db.rowsFrom_sorted (db : Db) (node cursor : Bytes) :
    (db.rowsFrom node cursor).Pairwise fun a b => a.1 < b.1 := db.att.sorted.filter _

theorem Db.mem_rowsFrom {db : Db} {node cursor : Bytes} {e : Bytes × Attestation} :
    e ∈ db.rowsFrom node cursor
      ↔ db.att.get e.1 = some e.2 ∧ node <+: e.1 ∧ cursor < e.1 := by
  rw [rowsFrom, List.mem_filter, Bool.and_eq_true, decide_eq_true_eq,
    List.isPrefixOf_iff_prefix, OrdMap.mem_entries]

/-- Resuming at a row of the subtree leaves the rows above it. -/
theorem Db.rowsFrom_filter {db : Db} {node cursor k : Bytes} (hk : ¬ k < cursor) :
    (db.rowsFrom node cursor).filter (fun e => decide (k < e.1)) = db.rowsFrom node k := by
  unfold rowsFrom
  rw [List.filter_filter]
  refine List.filter_congr fun e _ => ?_
  rw [Bool.eq_iff_iff]
  simp only [Bool.and_eq_true, decide_eq_true_eq]
  constructor
  · rintro ⟨hlt, hnode, -⟩
    exact ⟨hnode, hlt⟩
  · rintro ⟨hnode, hlt⟩
    exact ⟨hlt, hnode, lt_of_le_of_lt (not_lt.mp hk) hlt⟩

variable (cd) in
/-- The visitor takes every row but the cursor's own, or stops after some
and names the last it took. -/
theorem walkPage_spec (cursor : Bytes) (maxBytes : ℕ) (rows : List (Bytes × Attestation))
    (page : List Attestation) (used : ℕ) (lastKey : Bytes) :
    Db.walkPage cd cursor maxBytes rows page used lastKey
        = (page ++ (rows.filter fun e => decide (e.1 ≠ cursor)).map Prod.snd, none)
      ∨ ∃ front back, rows.filter (fun e => decide (e.1 ≠ cursor)) = front ++ back
        ∧ back ≠ [] ∧ page ++ front.map Prod.snd ≠ []
        ∧ Db.walkPage cd cursor maxBytes rows page used lastKey
          = (page ++ front.map Prod.snd, some (front.getLast?.elim lastKey Prod.fst)) := by
  induction rows generalizing page used lastKey with
  | nil =>
      left
      rw [Db.walkPage, List.filter_nil, List.map_nil, List.append_nil]
  | cons e rows ih =>
      obtain ⟨k, a⟩ := e
      rw [Db.walkPage]
      by_cases hk : k = cursor
      · rw [if_pos hk, List.filter_cons_of_neg (by simpa using hk)]
        exact ih page used lastKey
      · have hkeep : ((k, a) :: rows).filter (fun e => decide (e.1 ≠ cursor))
            = (k, a) :: rows.filter fun e => decide (e.1 ≠ cursor) :=
          List.filter_cons_of_pos (decide_eq_true hk)
        rw [if_neg hk, hkeep]
        simp only
        by_cases hfull : used + (cd.encodeAttestation a).length > maxBytes ∧ page ≠ []
        · rw [if_pos hfull]
          refine Or.inr ⟨[], _, rfl, List.cons_ne_nil _ _, ?_, ?_⟩
          · rw [List.map_nil, List.append_nil]
            exact hfull.2
          · rw [List.map_nil, List.append_nil]
            rfl
        · rw [if_neg hfull]
          rcases ih (page ++ [a]) (used + (cd.encodeAttestation a).length) k with h | h
          · left
            rw [h, List.append_assoc]
            rfl
          · obtain ⟨front, back, hsplit, hback, -, h⟩ := h
            refine Or.inr ⟨(k, a) :: front, back, ?_, hback, ?_, ?_⟩
            · rw [hsplit, List.cons_append]
            · simp
            · rw [h, List.append_assoc, List.getLast?_cons]
              cases front.getLast? <;> rfl

variable (cd) in
/-- `attestation_page` reads a page of the subtree's rows above the
cursor, when the cursor is the subtree's start or lies in it. -/
theorem attestationPage_spec (db : Db) {node cursor : Bytes} (maxBytes : ℕ)
    (h : cursor = [] ∨ node <+: cursor) :
    PageOf (db.rowsFrom node cursor) (db.attestationPage cd node cursor maxBytes).1
      (db.attestationPage cd node cursor maxBytes).2 := by
  obtain ⟨start, hstart⟩ : ∃ s, s = if cursor = [] then node else cursor := ⟨_, rfl⟩
  have hunder : node <+: start := by
    rw [hstart]
    split
    next => exact List.prefix_refl node
    next hne => exact h.resolve_left hne
  -- the seek and the early stop see the subtree's rows from the start on
  have hscan : ((db.att.seek start).takeWhile fun e => node.isPrefixOf e.1)
      = db.att.entries.filter fun e => node.isPrefixOf e.1 && decide (start ≤ e.1) := by
    rw [takeWhile_eq_filter, OrdMap.seek_eq_filter, List.filter_filter]
    refine (db.att.seek_sorted start).imp_of_mem fun {a b} ha _ hab hb => ?_
    rw [List.isPrefixOf_iff_prefix] at hb ⊢
    exact prefix_between hunder (not_lt.mpr (OrdMap.mem_seek.mp ha).2) hab.not_gt hb
  have hrows : ((db.att.seek start).takeWhile fun e => node.isPrefixOf e.1).filter
      (fun e => decide (e.1 ≠ cursor)) = db.rowsFrom node cursor := by
    rw [hscan, List.filter_filter]
    refine List.filter_congr fun e _ => ?_
    rw [Bool.eq_iff_iff]
    simp only [Bool.and_eq_true, decide_eq_true_eq, List.isPrefixOf_iff_prefix]
    rw [hstart]
    by_cases hc : cursor = []
    · rw [if_pos hc, hc]
      constructor
      · rintro ⟨hne, hnode, -⟩
        exact ⟨hnode, lt_of_le_of_ne (not_lt.mp (List.not_lt_nil e.1)) (Ne.symm hne)⟩
      · rintro ⟨hnode, hlt⟩
        exact ⟨hlt.ne', hnode, not_lt.mp (not_lt_below hnode)⟩
    · rw [if_neg hc]
      constructor
      · rintro ⟨hne, hnode, hle⟩
        exact ⟨hnode, lt_of_le_of_ne hle (Ne.symm hne)⟩
      · rintro ⟨hnode, hlt⟩
        exact ⟨hlt.ne', hnode, hlt.le⟩
  rw [Db.attestationPage, ← hstart]
  rcases walkPage_spec cd cursor maxBytes
    ((db.att.seek start).takeWhile fun e => node.isPrefixOf e.1) [] 0 [] with hall | hcut
  · rw [hall, hrows, List.nil_append]
    exact PageOf.all
  · obtain ⟨front, back, hsplit, hback, hne, hpage⟩ := hcut
    rw [hpage, List.nil_append]
    rw [List.nil_append] at hne
    rw [hrows] at hsplit
    rcases List.eq_nil_or_concat front with hnil | ⟨front', e, hfront⟩
    · rw [hnil] at hne
      exact absurd rfl hne
    · subst hfront
      rw [List.concat_eq_append] at hsplit ⊢
      rw [List.getLast?_concat]
      cases back with
      | nil => exact absurd rfl hback
      | cons b back =>
          refine PageOf.cut front' (b :: back) e ?_ (List.cons_ne_nil _ _)
          rw [hsplit, List.append_assoc]
          rfl

variable (cd) in
/-- Wherever the cursor stands, what a page holds are rows under the
node; and an empty page is the last. -/
theorem mem_attestationPage (db : Db) (node cursor : Bytes) (maxBytes : ℕ) :
    (∀ a ∈ (db.attestationPage cd node cursor maxBytes).1,
        ∃ k, db.att.get k = some a ∧ node <+: k)
      ∧ ((db.attestationPage cd node cursor maxBytes).1 = [] →
        (db.attestationPage cd node cursor maxBytes).2 = none) := by
  obtain ⟨start, hstart⟩ : ∃ s, s = if cursor = [] then node else cursor := ⟨_, rfl⟩
  have hrows : ∀ front : List (Bytes × Attestation),
      (∀ e ∈ front, e ∈ ((db.att.seek start).takeWhile
        fun e => node.isPrefixOf e.1).filter fun e => decide (e.1 ≠ cursor)) →
      ∀ a ∈ front.map Prod.snd, ∃ k, db.att.get k = some a ∧ node <+: k := by
    intro front hfront a ha
    obtain ⟨e, he, rfl⟩ := List.mem_map.mp ha
    have hscan := (List.mem_filter.mp (hfront e he)).1
    have hunder := List.all_eq_true.mp List.all_takeWhile e hscan
    refine ⟨e.1, ?_, List.isPrefixOf_iff_prefix.mp hunder⟩
    exact (OrdMap.mem_seek.mp ((List.takeWhile_sublist _).subset hscan)).1
  rw [Db.attestationPage, ← hstart]
  rcases walkPage_spec cd cursor maxBytes
    ((db.att.seek start).takeWhile fun e => node.isPrefixOf e.1) [] 0 [] with hall | hcut
  · rw [hall]
    exact ⟨hrows _ fun _ he => he, fun _ => rfl⟩
  · obtain ⟨front, back, hsplit, -, hne, hpage⟩ := hcut
    rw [hpage]
    refine ⟨hrows front fun e he => ?_, fun hnil => absurd hnil hne⟩
    rw [hsplit]
    exact List.mem_append_left _ he

/-- A page and the rows above its cursor make up the rows it was read
from. -/
theorem Db.rowsFrom_rest {db : Db} {node cursor : Bytes} {page : List Attestation} {k : Bytes}
    (h : PageOf (db.rowsFrom node cursor) page (some k)) :
    (db.rowsFrom node cursor).map Prod.snd = page ++ (db.rowsFrom node k).map Prod.snd := by
  obtain ⟨e, he, hek⟩ := h.next_mem
  have hk : ¬ k < cursor := by
    rw [← hek]
    exact (Db.mem_rowsFrom.mp he).2.2.not_gt
  rw [h.rest (db.rowsFrom_sorted node cursor), ← Db.rowsFrom_filter hk]
  congr!

end Narshare
