/-
The plan of a transfer, and that any plan made from a peer's manifest is
in order.

# Plans

A `Plan` says what is emitted, span by span: framing from `lits`, content
that is fetched, or a retained copy replayed; and which ranges are
fetched. `fallbackPlan` fetches all there is. `manifestPlan` lays out a
manifest no one vouches for, retains what comes again under the budget,
and merges ranges across small gaps.

# What is checked

`Plan.Sound` is all that is expected of a plan, and `sound_manifestPlan` that
`manifest_plan` makes no other, whatever the manifest. It is put together
from what each part guarantees: the layout's spans are tiles
(`synthLayout_tiles`), one hash has one length (`occurrences_spec`), the
planner's steps are kept within the budget (`Dedup.plan_keeps`), and
merging loses no range (`Merged.add`).
-/
import Narshare.Lib.Cover
import Narshare.Nar.Manifest
import Narshare.Transfer.Retention

namespace Narshare

-- ==================================================================== plans

/-- `SpanExec`. -/
inductive SpanExec
  | lit (litOff len : ℕ)
  | fetch (len : ℕ) (retain : Option (ℕ × ℕ))
  | replay (unique len : ℕ)
deriving DecidableEq

/-- How many bytes a span emits. -/
def SpanExec.len : SpanExec → ℕ
  | .lit _ len => len
  | .fetch len _ => len
  | .replay _ len => len

/-- `Plan`. -/
structure Plan where
  spans : List (ℕ × SpanExec)
  lits : Bytes
  ranges : List (ℕ × ℕ)
deriving DecidableEq

/-- `fallback_plan`. -/
def fallbackPlan (start end_ : ℕ) : Plan where
  spans := [(start, .fetch (end_ - start) none)]
  lits := []
  ranges := [(start, end_ - start)]

-- ============================================================ manifest plans

/-- `RemoteNarinfo`, what a transfer needs of it. -/
structure RemoteNarinfo where
  narHash : NarHash
  narSize : ℕ
deriving DecidableEq

/-- What `manifest_plan` refuses. -/
inductive PlanError
  | narHash
  | layout (e : LayoutError)
  | narSize (layout narinfo : ℕ)
  | exceedsWindow (len window : ℕ)
  | twoLengths
deriving DecidableEq

/-- `RANGE_MERGE_GAP`. -/
def RANGE_MERGE_GAP : ℕ := 65536

/-- `manifest_plan`, the loop that gathers `keys` and `sizes`. -/
def occurrences (window : ℕ) :
    List (Seg NarHash) → (NarHash → Option ℕ) → Except PlanError (List (NarHash × ℕ))
  | [], _ => .ok []
  | ⟨_, _, .lit _⟩ :: spans, lenOf => occurrences window spans lenOf
  | ⟨_, len, .ext hash⟩ :: spans, lenOf =>
      if len > window then .error (.exceedsWindow len window)
      else
        match lenOf hash with
        | some prev =>
            if prev ≠ len then .error .twoLengths
            else (occurrences window spans lenOf).map fun occs => (hash, len) :: occs
        | none =>
            (occurrences window spans fun h => if h = hash then some len else lenOf h).map
              fun occs => (hash, len) :: occs

/-- `manifest_plan`, one more range. -/
def addRange (ranges : List (ℕ × ℕ)) (off len : ℕ) : List (ℕ × ℕ) :=
  match ranges.getLast? with
  | some (o, l) =>
      if off ≥ o + l ∧ off - (o + l) ≤ RANGE_MERGE_GAP then
        ranges.dropLast ++ [(o, off + len - o)]
      else ranges ++ [(off, len)]
  | none => ranges ++ [(off, len)]

/-- `manifest_plan`, the loop that makes the spans and ranges; it takes
one step for each segment. -/
def planSpans : List (Seg NarHash) → List Dedup.Step → List (ℕ × ℕ) →
    List (ℕ × SpanExec) × List (ℕ × ℕ)
  | [], _, ranges => ([], ranges)
  | ⟨narOff, len, .lit litOff⟩ :: spans, steps, ranges =>
      let (execs, ranges) := planSpans spans steps ranges
      ((narOff, .lit litOff len) :: execs, ranges)
  | ⟨narOff, len, .ext _⟩ :: spans, .fetch unique retainFor :: steps, ranges =>
      let (execs, ranges) := planSpans spans steps (addRange ranges narOff len)
      let retain := if retainFor > 0 then some (unique, retainFor) else none
      ((narOff, .fetch len retain) :: execs, ranges)
  | ⟨narOff, len, .ext _⟩ :: spans, .cached unique :: steps, ranges =>
      let (execs, ranges) := planSpans spans steps ranges
      ((narOff, .replay unique len) :: execs, ranges)
  | ⟨_, _, .ext _⟩ :: _, [], ranges => ([], ranges)

/-- `manifest_plan`. -/
def manifestPlan (m : Manifest) (info : RemoteNarinfo) (budget window : ℕ) :
    Except PlanError Plan :=
  if m.narHash ≠ ascii "sha256:" ++ nixbase32Encode info.narHash.val then .error .narHash
  else
    match synthLayout m with
    | .error e => .error (.layout e)
    | .ok layout =>
        if layout.narSize ≠ info.narSize then .error (.narSize layout.narSize info.narSize)
        else
          (occurrences window layout.spans fun _ => none).map fun occs =>
            let (spans, ranges) := planSpans layout.spans (Dedup.plan occs budget) []
            ⟨spans, layout.lits, ranges⟩

-- ====================================================== what a plan is to be

/-- A span as a turn of the stock of what is retained. -/
def SpanExec.deal : SpanExec → Deal ℕ
  | .lit _ _ => .pass
  | .fetch _ none => .pass
  | .fetch len (some (unique, retainFor)) => .hold unique len retainFor
  | .replay unique len => .use unique len

/-- Some range holds all of a span. -/
def Within (ranges : List (ℕ × ℕ)) (off len : ℕ) : Prop :=
  ∃ r ∈ ranges, r.1 ≤ off ∧ off + len ≤ r.1 + r.2

/-- All that is expected of a plan of a whole NAR. -/
structure Plan.Sound (p : Plan) (size budget window : ℕ) : Prop where
  tiles : Tiles Prod.fst (fun s => s.2.len) 0 size p.spans
  lits : ∀ s ∈ p.spans, ∀ litOff len, s.2 = .lit litOff len → litOff + len ≤ p.lits.length
  sorted : p.ranges.Pairwise fun r r' => r.1 + r.2 ≤ r'.1
  nonempty : ∀ r ∈ p.ranges, 0 < r.2
  inside : ∀ r ∈ p.ranges, r.1 + r.2 ≤ size
  fetched : ∀ s ∈ p.spans, ∀ len retain, s.2 = .fetch len retain →
    len ≤ window ∧ Within p.ranges s.1 len
  kept : Keeps budget ∅ (p.spans.map fun s => s.2.deal)
  once : ((p.spans.map fun s => s.2.deal).filterMap Deal.held).Nodup

-- =========================================================== the occurrences

/-- A layout's segments, with their lengths. -/
def occOf : Seg NarHash → Option (NarHash × ℕ)
  | ⟨_, _, .lit _⟩ => none
  | ⟨_, len, .ext hash⟩ => some (hash, len)

/-- What is gathered is all the segments, none longer than the window and
no hash with two lengths. -/
theorem occurrences_spec {window : ℕ} {spans : List (Seg NarHash)} {lenOf : NarHash → Option ℕ}
    {occs : List (NarHash × ℕ)} (h : occurrences window spans lenOf = .ok occs) :
    occs = spans.filterMap occOf ∧ (∀ o ∈ occs, o.2 ≤ window)
      ∧ (∀ hash len, (hash, len) ∈ occs → ∀ prev ∈ lenOf hash, prev = len)
      ∧ ∀ hash len len', (hash, len) ∈ occs → (hash, len') ∈ occs → len = len' := by
  induction spans generalizing lenOf occs with
  | nil =>
      cases h
      exact ⟨rfl, nofun, nofun, nofun⟩
  | cons s spans ih =>
      obtain ⟨narOff, len, litOff | hash⟩ := s
      · exact ih h
      rw [occurrences] at h
      split at h
      next => cases h
      next hwindow =>
        -- the rest is gathered knowing this hash's length
        have hrest : ∀ {lenOf' : NarHash → Option ℕ} {rest : List (NarHash × ℕ)},
            occurrences window spans lenOf' = .ok rest → lenOf' hash = some len →
            (∀ prev ∈ lenOf hash, prev = len) →
            (∀ k, k ≠ hash → lenOf' k = lenOf k) →
            (hash, len) :: rest = (⟨narOff, len, .ext hash⟩ :: spans).filterMap occOf
              ∧ (∀ o ∈ (hash, len) :: rest, o.2 ≤ window)
              ∧ (∀ k l, (k, l) ∈ (hash, len) :: rest → ∀ prev ∈ lenOf k, prev = l)
              ∧ ∀ k l l', (k, l) ∈ (hash, len) :: rest → (k, l') ∈ (hash, len) :: rest →
                l = l' := by
          intro lenOf' rest hok hhash hprev hother
          obtain ⟨heq, hle, hknown, hsame⟩ := ih hok
          have hlen : ∀ l, (hash, l) ∈ rest → len = l := fun l hl =>
            hknown hash l hl len hhash
          refine ⟨by rw [heq]; rfl, ?_, ?_, ?_⟩
          · exact List.forall_mem_cons.mpr ⟨not_lt.mp hwindow, hle⟩
          · intro k l hkl prev hp
            rcases List.mem_cons.mp hkl with hhead | hin
            · cases hhead
              exact hprev prev hp
            · by_cases hk : k = hash
              · subst hk
                rw [hprev prev hp, hlen l hin]
              · exact hknown k l hin prev (by rwa [hother k hk])
          · intro k l l' hkl hkl'
            rcases List.mem_cons.mp hkl with hhead | hin
            · cases hhead
              rcases List.mem_cons.mp hkl' with hhead' | hin'
              · cases hhead'
                rfl
              · exact hlen l' hin'
            · rcases List.mem_cons.mp hkl' with hhead' | hin'
              · cases hhead'
                exact (hlen l hin).symm
              · exact hsame k l l' hin hin'
        revert h
        cases hlen : lenOf hash with
        | some prev =>
            simp only
            split
            next => exact nofun
            next hne =>
              have hne := not_not.mp hne
              cases hok : occurrences window spans lenOf with
              | error e => exact nofun
              | ok rest =>
                  rintro ⟨⟩
                  refine hrest hok (by rw [hlen, hne]) (fun p hp => ?_) fun _ _ => rfl
                  rw [hlen] at hp
                  cases hp
                  exact hne
        | none =>
            simp only
            cases hok : occurrences window spans
                (fun h => if h = hash then some len else lenOf h) with
            | error e => exact nofun
            | ok rest =>
                rintro ⟨⟩
                refine hrest hok (if_pos rfl) (fun p hp => ?_) fun k hk => if_neg hk
                rw [hlen] at hp
                cases hp

-- ================================================================ the ranges

/-- Ranges so far, all below `a`. -/
structure Merged (ranges : List (ℕ × ℕ)) (a : ℕ) : Prop where
  sorted : ranges.Pairwise fun r r' => r.1 + r.2 ≤ r'.1
  nonempty : ∀ r ∈ ranges, 0 < r.2
  below : ∀ r ∈ ranges, r.1 + r.2 ≤ a

theorem Merged.mono {ranges : List (ℕ × ℕ)} {a a' : ℕ} (h : Merged ranges a) (ha : a ≤ a') :
    Merged ranges a' := ⟨h.sorted, h.nonempty, fun r hr => (h.below r hr).trans ha⟩

/-- One more range at the end: the ranges stay in order, and cover it and
what they covered. -/
theorem Merged.add {ranges : List (ℕ × ℕ)} {a len : ℕ} (h : Merged ranges a) (hlen : 0 < len) :
    Merged (addRange ranges a len) (a + len) ∧ Within (addRange ranges a len) a len
      ∧ ∀ off l, Within ranges off l → Within (addRange ranges a len) off l := by
  have hpush : Merged (ranges ++ [(a, len)]) (a + len) ∧ Within (ranges ++ [(a, len)]) a len
      ∧ ∀ off l, Within ranges off l → Within (ranges ++ [(a, len)]) off l := by
    refine ⟨⟨List.pairwise_append.mpr ⟨h.sorted, List.pairwise_singleton _ _, ?_⟩, ?_, ?_⟩,
      ⟨_, List.mem_append_right _ List.mem_cons_self, le_rfl, le_rfl⟩, ?_⟩
    · intro r hr r' hr'
      cases List.mem_singleton.mp hr'
      exact h.below r hr
    · intro r hr
      rcases List.mem_append.mp hr with hr | hr
      · exact h.nonempty r hr
      · cases List.mem_singleton.mp hr
        exact hlen
    · intro r hr
      rcases List.mem_append.mp hr with hr | hr
      · exact (h.below r hr).trans (Nat.le_add_right _ _)
      · cases List.mem_singleton.mp hr
        exact le_rfl
    · rintro off l ⟨r, hr, hrange⟩
      exact ⟨r, List.mem_append_left _ hr, hrange⟩
  rw [addRange]
  split
  next o l hlast =>
    split
    next hgap =>
      obtain ⟨init, rfl⟩ := List.getLast?_eq_some_iff.mp hlast
      obtain ⟨hinit, -, hpair⟩ := List.pairwise_append.mp h.sorted
      rw [List.dropLast_concat]
      have hpos := h.nonempty (o, l) (List.mem_append_right _ List.mem_cons_self)
      obtain ⟨hge, -⟩ := hgap
      simp only at hpos
      refine ⟨⟨List.pairwise_append.mpr ⟨hinit, List.pairwise_singleton _ _, ?_⟩, ?_, ?_⟩,
        ⟨_, List.mem_append_right _ List.mem_cons_self, ?_, ?_⟩, ?_⟩
      · intro r hr r' hr'
        cases List.mem_singleton.mp hr'
        exact hpair r hr (o, l) List.mem_cons_self
      · intro r hr
        rcases List.mem_append.mp hr with hr | hr
        · exact h.nonempty r (List.mem_append_left _ hr)
        · cases List.mem_singleton.mp hr
          simp only
          omega
      · intro r hr
        rcases List.mem_append.mp hr with hr | hr
        · exact (h.below r (List.mem_append_left _ hr)).trans (Nat.le_add_right _ _)
        · cases List.mem_singleton.mp hr
          simp only
          omega
      · simp only
        omega
      · simp only
        omega
      · rintro off l' ⟨r, hr, hlo, hhi⟩
        rcases List.mem_append.mp hr with hr | hr
        · exact ⟨r, List.mem_append_left _ hr, hlo, hhi⟩
        · cases List.mem_singleton.mp hr
          refine ⟨_, List.mem_append_right _ List.mem_cons_self, hlo, ?_⟩
          simp only at hhi ⊢
          omega
    next => exact hpush
  next => exact hpush

-- ================================================================= the spans

/-- What the spans and ranges are, of a layout that is tiles: the same
tiles, the planner's turns, and every fetched span within a range. -/
theorem planSpans_spec {lits : Bytes} {window : ℕ} {spans : List (Seg NarHash)} {a b : ℕ}
    (htiles : Tiles Seg.narOff Seg.len a b spans) (hwithin : ∀ s ∈ spans, s.Within lits)
    (hwindow : ∀ o ∈ spans.filterMap occOf, o.2 ≤ window) :
    ∀ {steps ranges}, steps.length = (spans.filterMap occOf).length → Merged ranges a →
      let out := planSpans spans steps ranges
      Tiles Prod.fst (fun s => s.2.len) a b out.1
        ∧ (∀ s ∈ out.1, ∀ litOff len, s.2 = .lit litOff len → litOff + len ≤ lits.length)
        ∧ Merged out.2 b
        ∧ (∀ off l, Within ranges off l → Within out.2 off l)
        ∧ (∀ s ∈ out.1, ∀ len retain, s.2 = .fetch len retain →
          len ≤ window ∧ Within out.2 s.1 len)
        ∧ ∀ {budget h}, h.total ≤ budget →
          Keeps budget h (List.zipWith (fun o step => step.deal o.2)
            (spans.filterMap occOf) steps) →
          Keeps budget h (out.1.map fun s => s.2.deal)
            ∧ (out.1.map fun s => s.2.deal).filterMap Deal.held
              = (List.zipWith (fun o step => step.deal o.2) (spans.filterMap occOf)
                steps).filterMap Deal.held := by
  induction spans generalizing a with
  | nil =>
      intro steps ranges hlen hm
      cases htiles
      rw [List.filterMap_nil, List.length_nil, List.length_eq_zero_iff] at hlen
      subst hlen
      exact ⟨rfl, nofun, hm, fun _ _ h => h, nofun, fun _ h => ⟨h, rfl⟩⟩
  | cons s spans ih =>
      obtain ⟨hoff, hpos, hrest⟩ := htiles
      have hwithin' := fun s hs => hwithin s (List.mem_cons_of_mem _ hs)
      obtain ⟨narOff, len, litOff | hash⟩ := s
      · -- framing changes nothing else
        intro steps ranges hlen hm
        obtain ⟨ht, hl, hmr, hw, hf, hk⟩ := ih hrest hwithin' hwindow hlen
          (hm.mono (Nat.le_add_right _ _))
        refine ⟨⟨hoff, hpos, ht⟩, ?_, hmr, hw, ?_, fun hle h => ?_⟩
        · refine List.forall_mem_cons.mpr ⟨?_, hl⟩
          rintro _ _ ⟨⟩
          exact hwithin _ List.mem_cons_self litOff rfl
        · refine List.forall_mem_cons.mpr ⟨fun len retain h => ?_, hf⟩
          cases h
        · obtain ⟨hkeeps, hheld⟩ := hk hle h
          exact ⟨⟨hle, _, rfl, hkeeps⟩, hheld⟩
      · intro steps ranges hlen hm
        have hwindow' : len ≤ window ∧ ∀ o ∈ spans.filterMap occOf, o.2 ≤ window :=
          List.forall_mem_cons.mp hwindow
        cases steps with
        | nil => cases hlen
        | cons step steps =>
            have hlen' : steps.length = (spans.filterMap occOf).length := Nat.succ.inj hlen
            cases step with
            | fetch unique retainFor =>
                obtain ⟨hadd, hself, hold⟩ := hm.add hpos
                rw [← hoff] at hadd hself hold hrest
                obtain ⟨ht, hl, hmr, hw, hf, hk⟩ := ih hrest hwithin' hwindow'.2 hlen' hadd
                have hdeal : (SpanExec.fetch len
                    (if retainFor > 0 then some (unique, retainFor) else none)).deal
                      = (Dedup.Step.fetch unique retainFor).deal len := by
                  rw [Dedup.Step.deal]
                  split
                  · rfl
                  · rfl
                refine ⟨⟨hoff, hpos, hoff ▸ ht⟩, ?_, hmr,
                  fun off l h => hw off l (hold off l h), ?_, fun hle h => ?_⟩
                · refine List.forall_mem_cons.mpr ⟨fun litOff len h => ?_, hl⟩
                  cases h
                · refine List.forall_mem_cons.mpr ⟨?_, hf⟩
                  rintro _ _ ⟨⟩
                  exact ⟨hwindow'.1, hw _ _ hself⟩
                · obtain ⟨-, h', hd, hrestk⟩ := h
                  obtain ⟨hkeeps, hheld⟩ := hk hrestk.total_le hrestk
                  refine ⟨⟨hle, h', (congrArg _ hdeal).trans hd, hkeeps⟩, ?_⟩
                  show List.filterMap Deal.held (_ :: _) = List.filterMap Deal.held (_ :: _)
                  rw [List.filterMap_cons, List.filterMap_cons, hheld]
                  simp only
                  rw [hdeal]
            | cached unique =>
                obtain ⟨ht, hl, hmr, hw, hf, hk⟩ := ih hrest hwithin' hwindow'.2 hlen'
                  (hm.mono (Nat.le_add_right _ _))
                refine ⟨⟨hoff, hpos, ht⟩, ?_, hmr, hw, ?_, fun hle h => ?_⟩
                · refine List.forall_mem_cons.mpr ⟨fun litOff len h => ?_, hl⟩
                  cases h
                · refine List.forall_mem_cons.mpr ⟨fun len retain h => ?_, hf⟩
                  cases h
                · obtain ⟨-, h', hd, hrestk⟩ := h
                  obtain ⟨hkeeps, hheld⟩ := hk hrestk.total_le hrestk
                  exact ⟨⟨hle, h', hd, hkeeps⟩, hheld⟩

/-- Any plan made from a manifest is in order. -/
theorem sound_manifestPlan {m : Manifest} {info : RemoteNarinfo} {budget window : ℕ} {p : Plan}
    (h : manifestPlan m info budget window = .ok p) :
    p.Sound info.narSize budget window := by
  rw [manifestPlan] at h
  split at h
  next => cases h
  next =>
    split at h
    next => cases h
    next layout hlayout =>
      split at h
      next => cases h
      next hsize =>
        revert h
        cases hoccs : occurrences window layout.spans fun _ => none with
        | error e => exact nofun
        | ok occs =>
            rintro ⟨⟩
            obtain ⟨htiles, hwithin⟩ := synthLayout_tiles hlayout
            obtain ⟨rfl, hwindow, -, hsame⟩ := occurrences_spec hoccs
            obtain ⟨hlen, hkeeps, hnodup⟩ := Dedup.plan_keeps budget hsame
            have hstart : Merged [] 0 := ⟨List.Pairwise.nil, nofun, nofun⟩
            obtain ⟨ht, hl, hm, -, hf, hk⟩ :=
              planSpans_spec htiles hwithin hwindow hlen hstart
            obtain ⟨hkept, hheld⟩ := hk (Nat.zero_le _) hkeeps
            rw [not_not.mp hsize] at ht hm
            exact ⟨ht, hl, hm.sorted, hm.nonempty, hm.below, hf, hkept, by rwa [hheld]⟩

end Narshare
