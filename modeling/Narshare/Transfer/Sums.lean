/-
The sums of the retention planner, which have 64 bits.

# Where they go round

`plan` (Retention.lean) adds sizes up exactly. The planner adds them in
`u64`s and never checks a sum: `plan64` is the same walk with sums that
go round. A sum is only taken beside the budget at the first occurrence
of a key that comes again, and one that goes round comes out below what
is already retained: whatever it was, it fits. So the planner does what
it should (`Greedy`) as long as no such sum reaches 2^64
(`plan64_greedy_iff`), and so whenever the budget leaves room for one more
segment (`narrow_of_room`).
-/
import Narshare.Lib.Wrap
import Narshare.Transfer.Greedy

namespace Narshare

namespace Dedup

variable {K : Type}

-- ========================================================= the walk in u64

/-- One turn of pass 2. -/
def Residency.next64 (ids : Ids K) (budget p u : ℕ) (r : Residency) : Step × Residency :=
  let size := ids.sizeOf.getD u 0
  if r.seen.getD u false = false then
    let r := { r with seen := r.seen.set u true }
    let later := ids.occurrences.getD u 0 - 1
    if later > 0 ∧ wadd 64 r.residentBytes size ≤ budget then
      (.fetch u later,
        { r with
          resident := r.resident.set u true
          residentBytes := wadd 64 r.residentBytes size })
    else (.fetch u 0, r)
  else if r.resident.getD u false = true then
    (.cached u,
      if p = ids.lastPos.getD u 0 then
        { r with
          resident := r.resident.set u false
          residentBytes := wsub 64 r.residentBytes size }
      else r)
  -- a duplicate the budget could not hold
  else (.fetch u 0, r)

/-- `plan`, pass 2. -/
def reside64 (ids : Ids K) (budget : ℕ) : List ℕ → ℕ → Residency → List Step
  | [], _, _ => []
  | u :: us, p, r =>
      let (step, r) := r.next64 ids budget p u
      step :: reside64 ids budget us (p + 1) r

variable [DecidableEq K]

/-- `plan`. -/
def plan64 (occs : List (K × ℕ)) (budget : ℕ) : List Step :=
  let ids := identify occs
  let n := ids.occurrences.length
  reside64 ids budget ids.uniqueAt 0 ⟨List.replicate n false, List.replicate n false, 0⟩

/-- The sum of one place, where the place takes one, does not go round. -/
def NarrowAt (occs : List (K × ℕ)) (steps : List Step) (p : ℕ) : Prop :=
  ∀ k s, occs[p]? = some (k, s) → k ∉ keys (occs.take p) → k ∈ keys (occs.drop (p + 1)) →
    retainedBytes occs steps p + s < 2 ^ 64

/-- No sum of a plan that is as it should be goes round. -/
def Narrow (occs : List (K × ℕ)) (budget : ℕ) : Prop :=
  ∀ steps, Greedy occs budget steps → ∀ p, NarrowAt occs steps p

-- =============================================================== one turn

section Walk

variable {occs : List (K × ℕ)} {ids : Ids K} {steps steps' : List Step} {budget p u s : ℕ}
  {us : List ℕ} {r : Residency} {h : Stock ℕ} {k : K}

omit [DecidableEq K] in
/-- A turn is the exact one where the sum, if it takes one, does not go
round. -/
theorem Residency.Ok.next64_eq (hids : ids.Ok occs) (ho : r.Ok ids budget (u :: us) p h)
    (hlt : u < ids.occurrences.length) (hsize : ids.sizeOf[u]? = some s)
    (hbudget : budget < 2 ^ 64)
    (hnarrow : u ∉ ids.uniqueAt.take p → 0 < us.count u → h.total + s < 2 ^ 64) :
    r.next64 ids budget p u = r.next ids budget p u := by
  obtain ⟨hsz, hseen, hres, hlater⟩ := ho.reads hids hlt hsize
  have hbytes := ho.bytes
  have hle := ho.le
  unfold Residency.next64 Residency.next
  simp only [hseen, hres, hsz]
  by_cases hin : u ∈ ids.uniqueAt.take p
  · rw [decide_eq_true hin]
    simp only [Bool.true_eq_false, if_false]
    cases hget : h.get u with
    | none => simp only [Option.isSome_none, Bool.false_eq_true, if_false]
    | some e =>
        -- what is freed was added before
        have hes := (ho.held hget).2.2.1
        rw [hsize] at hes
        cases hes
        have hsum := h.sum_set (fun _ e => e.1) u none
        rw [hget, Option.elim_some, Option.elim_none] at hsum
        have hsub : wsub 64 r.residentBytes e.1 = r.residentBytes - e.1 := by
          rw [Stock.total] at hbytes hle
          exact wsub_eq (by omega) (by omega)
        rw [hsub]
  · rw [decide_eq_false hin, hlater hin]
    simp only [if_true]
    by_cases hpos : 0 < us.count u
    · have hsum := hnarrow hin hpos
      rw [← hbytes] at hsum
      rw [wadd_eq hsum]
    · rw [if_neg fun hb => hpos hb.1, if_neg fun hb => hpos hb.1]

omit [DecidableEq K] in
/-- A sum that goes round fits. -/
theorem Residency.Ok.next64_round (hids : ids.Ok occs) (ho : r.Ok ids budget (u :: us) p h)
    (hlt : u < ids.occurrences.length) (hsize : ids.sizeOf[u]? = some s) (hs : s < 2 ^ 64)
    (hin : u ∉ ids.uniqueAt.take p) (hpos : 0 < us.count u) (hround : 2 ^ 64 ≤ h.total + s)
    (hbudget : budget < 2 ^ 64) : (r.next64 ids budget p u).1 = .fetch u (us.count u) := by
  obtain ⟨hsz, hseen, hres, hlater⟩ := ho.reads hids hlt hsize
  have hbytes := ho.bytes
  have hle := ho.le
  unfold Residency.next64
  simp only [hseen, hsz, decide_eq_false hin, hlater hin, if_true]
  have hfits := wadd_lt (hbytes ▸ hle.trans_lt hbudget) hs (hbytes ▸ hround)
  rw [if_pos ⟨hpos, by omega⟩]

-- =============================================================== the walk

/-- As long as no sum goes round the two walks are one. -/
theorem walked64_at (hids : ids.Ok occs) (hnamed : ids.Named occs)
    (hsame : ∀ k s s', (k, s) ∈ occs → (k, s') ∈ occs → s = s')
    (hbudget : budget < 2 ^ 64) (hlen : steps.length = occs.length)
    (ho : r.Ok ids budget ids.uniqueAt 0 ∅)
    (hsteps : steps = reside ids budget ids.uniqueAt 0 r)
    (hsteps' : steps' = reside64 ids budget ids.uniqueAt 0 r) {q : ℕ} (hq : q ≤ occs.length)
    (hnarrow : ∀ p < q, NarrowAt occs steps p) :
    ∃ r h, Residency.Ok ids budget (ids.uniqueAt.drop q) q r h
      ∧ Walked occs ids steps q (ids.uniqueAt.drop q) h
      ∧ steps.drop q = reside ids budget (ids.uniqueAt.drop q) q r
      ∧ steps'.drop q = reside64 ids budget (ids.uniqueAt.drop q) q r
      ∧ steps'.take q = steps.take q := by
  induction q with
  | zero => exact ⟨r, ∅, ho, ⟨nofun, by simp, rfl⟩, hsteps, hsteps', rfl⟩
  | succ q ih =>
      obtain ⟨r, h, ho, hw, hrest, hrest', htake⟩ := ih (Nat.le_of_succ_le hq)
        fun p hp => hnarrow p (hp.trans (Nat.lt_succ_self q))
      have hlt : q < ids.uniqueAt.length := by rw [hids.length]; exact hq
      obtain ⟨hstep, hdrop, h', ho', hw'⟩ := hw.advance hids hnamed hsame hlen hlt ho hrest
      rw [List.drop_eq_getElem_cons hlt] at ho hw hrest'
      obtain ⟨hat, hus, -⟩ := ho.drop_succ
      obtain ⟨⟨k, s⟩, hocc⟩ : ∃ o, occs[q]? = some o := ⟨_, List.getElem?_eq_getElem hq⟩
      obtain ⟨u, hu, hult, hsize⟩ := hids.size hocc
      rw [hat] at hu
      cases hu
      obtain ⟨v, hv, hvat⟩ := hnamed.at_ q k s hocc
      rw [hat] at hvat
      cases hvat
      have hsame64 :
          r.next64 ids budget q ids.uniqueAt[q] = r.next ids budget q ids.uniqueAt[q] := by
        refine ho.next64_eq hids hult hsize hbudget fun hin hpos => ?_
        rw [hnamed.mem_take hids hv] at hin
        rw [count_ahead hids hnamed hat hocc hus, List.count_pos_iff] at hpos
        rw [← hw.bytes]
        exact hnarrow q (Nat.lt_succ_self q) k s hocc hin hpos
      have hstep' : steps'[q]? = steps[q]? := by
        rw [hstep, ← List.head?_drop, hrest', reside64, hsame64]
        rfl
      refine ⟨_, h', ho', hw', hdrop, ?_, ?_⟩
      · rw [← List.drop_drop, hrest', reside64, hsame64]
        rfl
      · rw [List.take_add_one, List.take_add_one, htake, hstep']

/-- The place whose sum is the first to go round retains what does not
fit. -/
theorem retained64_of_round (hids : ids.Ok occs) (hnamed : ids.Named occs)
    (hbudget : budget < 2 ^ 64) (hs : s < 2 ^ 64)
    (ho : r.Ok ids budget (ids.uniqueAt.drop p) p h)
    (hw : Walked occs ids steps p (ids.uniqueAt.drop p) h)
    (hrest : steps'.drop p = reside64 ids budget (ids.uniqueAt.drop p) p r)
    (hocc : occs[p]? = some (k, s)) (hfirst : k ∉ keys (occs.take p))
    (hagain : k ∈ keys (occs.drop (p + 1))) (hround : 2 ^ 64 ≤ retainedBytes occs steps p + s) :
    Retained steps' p := by
  have hlt : p < ids.uniqueAt.length := by
    rw [hids.length]
    exact (List.getElem?_eq_some_iff.mp hocc).1
  rw [List.drop_eq_getElem_cons hlt] at ho hw hrest
  obtain ⟨hat, hus, -⟩ := ho.drop_succ
  obtain ⟨u, hu, hult, hsize⟩ := hids.size hocc
  rw [hat] at hu
  cases hu
  obtain ⟨v, hv, hvat⟩ := hnamed.at_ p k s hocc
  rw [hat] at hvat
  cases hvat
  have hpos : 0 < (ids.uniqueAt.drop (p + 1)).count ids.uniqueAt[p] := by
    rw [count_ahead hids hnamed hat hocc hus, List.count_pos_iff]
    exact hagain
  rw [hw.bytes] at hround
  have hstep := ho.next64_round hids hult hsize hs (fun hin => hfirst
    ((hnamed.mem_take hids hv p).mp hin)) hpos hround hbudget
  refine ⟨.fetch ids.uniqueAt[p] _, ?_, decide_eq_true hpos⟩
  rw [← List.head?_drop, hrest, ← hstep]
  rfl

end Walk

-- =============================================================== the plan

section Plan

variable {occs : List (K × ℕ)} {budget : ℕ}

/-- The planner retains exactly what fits where no sum goes round, and only
there. -/
theorem plan64_greedy_iff (occs : List (K × ℕ)) (budget : ℕ) (hbudget : budget < 2 ^ 64)
    (hsizes : ∀ o ∈ occs, o.2 < 2 ^ 64)
    (hsame : ∀ k s s', (k, s) ∈ occs → (k, s') ∈ occs → s = s') :
    Greedy occs budget (plan64 occs budget) ↔ Narrow occs budget := by
  have hids := ok_identify hsame
  have hnamed := named_identify hsame
  have hgreedy := greedy_plan budget hsame
  have hplan : plan64 occs budget = reside64 (identify occs) budget (identify occs).uniqueAt 0
      ⟨List.replicate (identify occs).occurrences.length false,
        List.replicate (identify occs).occurrences.length false, 0⟩ := rfl
  have hwalk := fun q (hq : q ≤ occs.length)
      (hnarrow : ∀ p < q, NarrowAt occs (plan occs budget) p) =>
    walked64_at hids hnamed hsame hbudget hgreedy.length (start_ok (identify occs) budget) rfl hplan
      hq hnarrow
  constructor
  · intro h64 steps hsteps p
    induction p using Nat.strong_induction_on with
    | _ p ih =>
        intro k s hocc hfirst hagain
        have hlt := (List.getElem?_eq_some_iff.mp hocc).1
        have hbytes : ∀ {steps'}, Greedy occs budget steps' →
            retainedBytes occs steps p = retainedBytes occs steps' p :=
          fun h' => retainedBytes_congr fun i _ => hsteps.retained_iff h' i
        by_contra hround
        rw [Nat.not_lt, hbytes hgreedy] at hround
        obtain ⟨r, h, ho, hw, -, hrest, -⟩ := hwalk p hlt.le fun i hi k' s' hi' hf ha => by
          rw [← retainedBytes_congr fun j _ => hsteps.retained_iff hgreedy j]
          exact ih i hi k' s' hi' hf ha
        have hret := retained64_of_round hids hnamed hbudget
          (hsizes (k, s) (List.mem_of_getElem? hocc)) ho hw hrest hocc hfirst hagain hround
        -- what the planner retains here is more than the budget
        have hle := ((h64.each p k s hocc).retained_iff.mp hret).2.2
        rw [← hbytes h64, hbytes hgreedy] at hle
        omega
  · intro hnarrow
    have heq : plan64 occs budget = plan occs budget := by
      obtain ⟨r, h, -, -, hrest, hrest', htake⟩ := hwalk occs.length le_rfl
        fun p _ => hnarrow _ hgreedy p
      have hnil : (identify occs).uniqueAt.drop occs.length = [] :=
        List.drop_eq_nil_of_le hids.length.le
      rw [hnil] at hrest hrest'
      rw [← List.take_append_drop occs.length (plan64 occs budget), htake, hrest',
        ← List.take_append_drop occs.length (plan occs budget), hrest]
      simp [reside, reside64]
    rw [heq]
    exact hgreedy

/-- No sum goes round where the budget leaves room for one more. -/
theorem narrow_of_room (hroom : ∀ o ∈ occs, budget + o.2 < 2 ^ 64) : Narrow occs budget := by
  intro steps hsteps p k s hocc _ _
  have hle := hsteps.le p
  have hlt := hroom (k, s) (List.mem_of_getElem? hocc)
  simp only at hlt
  omega

end Plan

/-- A segment that comes three times, one that comes twice and does not fit
beside it, and one that fits when the first has gone. -/
theorem plan64_greedy_iff_mixed :
    let occs := [(7, 60), (1, 50), (7, 60), (2, 5), (7, 60), (1, 50), (3, 90), (3, 90)]
    plan64 occs 100 = [.fetch 0 2, .fetch 1 0, .cached 0, .fetch 2 0, .cached 0, .fetch 1 0,
      .fetch 3 1, .cached 3] ∧ Greedy occs 100 (plan64 occs 100) := by
  refine ⟨by decide, (plan64_greedy_iff _ _ (by decide) (by decide) ?_).mpr
    (narrow_of_room (by decide))⟩
  intro k s s' hs hs'
  simp only [List.mem_cons, Prod.mk.injEq, List.not_mem_nil, or_false] at hs hs'
  omega

/-- One byte retained, and the next segment takes the sum to 2^64: the
planner retains both, in a budget that holds either. -/
theorem plan64_round :
    let occs := [(0, 1), (1, 2 ^ 64 - 1), (0, 1), (1, 2 ^ 64 - 1)]
    let budget := 2 ^ 64 - 1
    plan64 occs budget = [.fetch 0 1, .fetch 1 1, .cached 0, .cached 1]
      ∧ retainedBytes occs (plan64 occs budget) 2 = 2 ^ 64
      ∧ ¬ Greedy occs budget (plan64 occs budget) := by
  intro occs budget
  have hsteps : plan64 occs budget = [.fetch 0 1, .fetch 1 1, .cached 0, .cached 1] := by
    decide +kernel
  have hbytes : retainedBytes occs (plan64 occs budget) 2 = 2 ^ 64 := by decide +kernel
  refine ⟨hsteps, hbytes, fun h => ?_⟩
  have hle := h.le 2
  rw [hbytes] at hle
  exact absurd hle (by decide +kernel)

end Dedup

end Narshare
