/-
What `attestation_page` of the shared store reads: a page of the rows of
a leaf range above a key.

The loop asks for 1024 rows at a time, but a page does not show where
one query ended and the next began: `fillPage_spec` is that it is a
front part of all the rows above its cursor. No condition on the cursor
is needed, because one that was never handed out is read as the start;
one that was handed out is read back as the key it was made of
(`split_join`), the hash part being 32 bytes of valid text. `serves`
puts both into the form in which the two backends are compared.
-/
import Narshare.Lib.Paging
import Narshare.Store.Postgres

namespace Narshare

namespace PgFacts

variable {cd : Codec} {f : PgFacts} {range : ℕ × ℕ}

/-- The fact of a row. -/
def fact (e : PgKey × PgRow) : Attestation := e.2.attestation (ofLex e.1).2

/-- The key of the last of some rows, `k` when there are none. -/
def lastKey (k : PgKey) (rows : List (PgKey × PgRow)) : PgKey :=
  rows.foldl (fun _ e => e.1) k

theorem rowsAbove_sorted (f : PgFacts) (range : ℕ × ℕ) (k : PgKey) :
    (f.rowsAbove range k).Pairwise fun a b => a.1 < b.1 := f.attestations.sorted.filter _

theorem mem_rowsAbove {k : PgKey} {e : PgKey × PgRow} :
    e ∈ f.rowsAbove range k ↔ f.attestations.get e.1 = some e.2
      ∧ k < e.1 ∧ range.1 ≤ e.2.leaf ∧ e.2.leaf < range.2 := by
  rw [rowsAbove, List.mem_filter, decide_eq_true_eq, OrdMap.mem_entries]

/-- Resuming at the last of some rows leaves the ones behind them. -/
theorem rowsAbove_lastKey {k : PgKey} {front back : List (PgKey × PgRow)}
    (h : f.rowsAbove range k = front ++ back) :
    f.rowsAbove range (lastKey k front) = back := by
  rcases List.eq_nil_or_concat front with rfl | ⟨front', e, rfl⟩
  · exact h
  · rw [List.concat_eq_append, List.append_assoc, List.singleton_append] at h
    have he : e ∈ f.rowsAbove range k := by
      rw [h]
      exact List.mem_append_right _ List.mem_cons_self
    have hlast : lastKey k (front'.concat e) = e.1 := by
      rw [lastKey, List.concat_eq_append, List.foldl_append]
      rfl
    have hsorted := f.rowsAbove_sorted range k
    rw [h] at hsorted
    have hfilter := filter_above hsorted
    rw [← h, rowsAbove, List.filter_filter] at hfilter
    rw [hlast, rowsAbove]
    refine Eq.trans (List.filter_congr fun x _ => ?_) hfilter
    rw [Bool.eq_iff_iff, Bool.and_eq_true, decide_eq_true_eq, decide_eq_true_eq,
      decide_eq_true_eq]
    constructor
    · rintro ⟨hlt, hleaf⟩
      exact ⟨hlt, (mem_rowsAbove.mp he).2.1.trans hlt, hleaf⟩
    · rintro ⟨hlt, -, hleaf⟩
      exact ⟨hlt, hleaf⟩

variable (cd) in
/-- The rows of one query are all taken, or some of them until one does
not fit. -/
theorem takeRows_spec (maxBytes : ℕ) (rows : List (PgKey × PgRow)) (st : Filling) :
    (∃ used, takeRows cd maxBytes rows st
        = (false, ⟨st.page ++ rows.map fact, used, lastKey st.last rows⟩))
      ∨ ∃ front back used, rows = front ++ back ∧ st.page ++ front.map fact ≠ []
        ∧ takeRows cd maxBytes rows st
          = (true, ⟨st.page ++ front.map fact, used, lastKey st.last front⟩) := by
  induction rows generalizing st with
  | nil =>
      left
      refine ⟨st.used, ?_⟩
      rw [takeRows, List.map_nil, List.append_nil]
      rfl
  | cons e rows ih =>
      obtain ⟨k, r⟩ := e
      rw [takeRows]
      split
      next hfull =>
        refine Or.inr ⟨[], (k, r) :: rows, st.used, rfl, ?_, ?_⟩
        · rw [List.map_nil, List.append_nil]
          exact hfull.2
        · rw [List.map_nil, List.append_nil]
          rfl
      next =>
        rcases ih ⟨st.page ++ [r.attestation (ofLex k).2],
          st.used + (cd.encodeAttestation (r.attestation (ofLex k).2)).length, k⟩
          with ⟨used, h⟩ | ⟨front, back, used, hrows, hne, h⟩
        · refine Or.inl ⟨used, h.trans ?_⟩
          rw [List.map_cons, List.append_assoc]
          rfl
        · refine Or.inr ⟨(k, r) :: front, back, used, by rw [hrows]; rfl, ?_, h.trans ?_⟩
          · rw [List.map_cons]
            simp
          · rw [List.map_cons, List.append_assoc]
            rfl

variable (cd) in
/-- With queries enough the page is filled from all the rows above its
key: it has every one of them, or a front part and the key of its last
row for a cursor. -/
theorem fillPage_spec (maxBytes : ℕ) {queries : ℕ} {st : Filling}
    (h : (f.rowsAbove range st.last).length < queries) :
    f.fillPage cd range maxBytes queries st
        = (st.page ++ (f.rowsAbove range st.last).map fact, none)
      ∨ ∃ front back, f.rowsAbove range st.last = front ++ back
        ∧ st.page ++ front.map fact ≠ []
        ∧ f.fillPage cd range maxBytes queries st
          = (st.page ++ front.map fact, some (joinCursor (lastKey st.last front))) := by
  induction queries generalizing st with
  | zero => exact absurd h (Nat.not_lt_zero _)
  | succ queries ih =>
      have hsplit := List.take_append_drop FETCH (f.rowsAbove range st.last)
      rw [fillPage]
      rcases takeRows_spec cd maxBytes ((f.rowsAbove range st.last).take FETCH) st with
        ⟨used, hall⟩ | ⟨front, back, used, hrows, hne, hcut⟩
      · rw [hall]
        simp only
        split
        next hshort =>
          -- fewer rows than were asked for: there are no more
          left
          rw [List.take_of_length_le]
          rw [List.length_take] at hshort
          omega
        next hfull =>
          have hrest := rowsAbove_lastKey (hsplit.symm)
          have hless : ((f.rowsAbove range st.last).drop FETCH).length < queries := by
            have hfetch : 0 < FETCH := by decide
            rw [List.length_take] at hfull
            rw [List.length_drop]
            omega
          rw [← hrest] at hless
          rcases @ih ⟨st.page ++ _, used, lastKey st.last _⟩ hless with
            h | ⟨front, back, hrows, hne, h⟩
          · left
            rw [h, hrest, List.append_assoc, ← List.map_append, hsplit]
          · refine Or.inr ⟨(f.rowsAbove range st.last).take FETCH ++ front, back, ?_, ?_, ?_⟩
            · rw [List.append_assoc, ← hrows, hrest, hsplit]
            · rw [List.map_append, ← List.append_assoc]
              exact hne
            · rw [h, List.map_append, ← List.append_assoc, lastKey, lastKey, lastKey,
                List.foldl_append]
      · rw [hcut]
        refine Or.inr ⟨front, back ++ (f.rowsAbove range st.last).drop FETCH, ?_, hne, rfl⟩
        rw [← List.append_assoc, ← hrows, hsplit]

/-- A cursor that was handed out is read back as the key it was made
of. -/
theorem split_join {k : PgKey} (hlen : (ofLex k).1.length = 32)
    (htext : isUtf8 (ofLex k).1 = true) : splitCursor (joinCursor k) = k := by
  have htake : (joinCursor k).take 32 = (ofLex k).1 := by
    rw [joinCursor, ← hlen, List.take_left]
  have hdrop : (joinCursor k).drop 32 = (ofLex k).2 := by
    rw [joinCursor, ← hlen, List.drop_left]
  have hlong : ¬ (joinCursor k).length < 32 := by
    rw [joinCursor, List.length_append]
    omega
  rw [splitCursor, if_neg hlong, htake, if_pos htext, hdrop]
  rfl

variable (cd) in
/-- One page, as a function of its cursor and its limit. -/
def pageFrom (f : PgFacts) (range : ℕ × ℕ) (cursor : Bytes) (maxBytes : ℕ) :
    List Attestation × Option Bytes :=
  f.fillPage cd range maxBytes (f.attestations.entries.length + 1) { last := splitCursor cursor }

variable (cd range) in
/-- Pages from wherever a cursor stands, over rows whose keys can be read
back. -/
theorem serves (hkeys : ∀ k r, f.attestations.get k = some r → splitCursor (joinCursor k) = k) :
    Serves (f.pageFrom cd range) (fun c => (f.rowsAbove range (splitCursor c)).map fact)
      fun _ => True := by
  have hspec := fun (c : Bytes) (n : ℕ) =>
    @fillPage_spec cd f range n _ { last := splitCursor c }
      (Nat.lt_succ_of_le (List.length_filter_le _ f.attestations.entries))
  constructor
  · intro c n _ hnext
    rcases hspec c n with hall | ⟨front, back, -, -, hcut⟩
    · exact (congrArg Prod.fst hall).trans (List.nil_append _)
    · rw [pageFrom, hcut] at hnext
      cases hnext
  · intro c c' n _ hnext
    rcases hspec c n with hall | ⟨front, back, hrows, hne, hcut⟩
    · rw [pageFrom, hall] at hnext
      cases hnext
    · rw [pageFrom, hcut] at hnext ⊢
      cases hnext
      refine ⟨trivial, hne, ?_⟩
      have hrest := rowsAbove_lastKey hrows
      -- the last key is one of a row, because some row was taken
      have hlast : splitCursor (joinCursor (lastKey (splitCursor c) front))
          = lastKey (splitCursor c) front := by
        rcases List.eq_nil_or_concat front with rfl | ⟨front', e, rfl⟩
        · exact absurd rfl hne
        · have he : e ∈ f.rowsAbove range (splitCursor c) := by
            rw [hrows, List.concat_eq_append]
            exact List.mem_append_left _ (List.mem_append_right _ List.mem_cons_self)
          have hkey : lastKey (splitCursor c) (front'.concat e) = e.1 := by
            rw [lastKey, List.concat_eq_append, List.foldl_append]
            rfl
          rw [hkey]
          exact hkeys e.1 e.2 (mem_rowsAbove.mp he).1
      rw [hlast, hrest, hrows, List.map_append]
      rfl

end PgFacts

end Narshare
