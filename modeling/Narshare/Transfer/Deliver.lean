/-
What a transfer delivers, and what it retains on the way.

# The plan

`choosePlan` is the choice at the head of run_transfer; whatever it
chooses is in order (`wf_choosePlan`).

# The gate

Of a full transfer everything that is sent is hashed, and the piece that
reaches the end is not sent before the hash has agreed (`Gated`). Where
there is a byte to send, all must then pass the gate. A NAR of size zero
has no such piece: its plan finishes with nothing sent and nothing
compared.

# What is retained

A plan made from a manifest retains each segment for as long as it is
replayed (`Plan.Sound.replayed`, `Plan.Sound.retained`), and no longer;
in no run does that exceed the budget, and no plan of that kind is ever
given up as broken.
-/
import Narshare.Transfer.Account

namespace Narshare

-- ================================================================== the choice

/-- `MANIFEST_MIN`. -/
def MANIFEST_MIN : ℕ := 4 * 1024 * 1024

/-- `run_transfer`, the plan; `acquired` is what `acquire_manifest`
returned. -/
def choosePlan (info : RemoteNarinfo) (acquired : Option Manifest) (budget window start end_ : ℕ) :
    Plan :=
  if (start = 0 ∧ end_ = info.narSize) ∧ info.narSize ≥ MANIFEST_MIN then
    match acquired with
    | some m =>
        match manifestPlan m info budget window with
        | .ok p => p
        | .error _ => fallbackPlan start end_
    | none => fallbackPlan start end_
  else fallbackPlan start end_

theorem wf_choosePlan (info : RemoteNarinfo) (acquired : Option Manifest) (budget window : ℕ)
    {start end_ : ℕ} (h : start ≤ end_) :
    (choosePlan info acquired budget window start end_).Wf start end_ := by
  have hfallback := wf_fallbackPlan h
  unfold choosePlan
  split
  next hfull =>
    obtain ⟨⟨rfl, rfl⟩, -⟩ := hfull
    cases acquired with
    | none => exact hfallback
    | some m =>
        simp only
        split
        next p hp => exact (sound_manifestPlan hp).wf
        next => exact hfallback
  next => exact hfallback

namespace Transfer

variable {sha256 : Bytes → NarHash} {window budget : ℕ} {p : Plan} {info : RemoteNarinfo}
  {start end_ : ℕ} {t t' : Transfer} {k : Tick}

-- ==================================================================== the gate

/-- The gate, wherever the transfer stands. -/
structure Guarded (sha256 : Bytes → NarHash) (t : Transfer) : Prop where
  gated : t.Running → t.em.Gated sha256 t.client
  withheld : t.em.Withheld t.client
  finished : t.stage = .completed → t.em.spans[t.em.spanI]? = none

theorem Guarded.congr (h : t.Guarded sha256) (hrun : t.Running) {t' : Transfer}
    (hem : t'.em = { t.em with buffered := t'.em.buffered }) (hclient : t'.client = t.client)
    (hstage : t'.stage ≠ .completed) : t'.Guarded sha256 := by
  refine ⟨fun _ => ?_, ?_, fun hdone => absurd hdone hstage⟩
  · rw [hem, hclient]
    exact h.gated hrun
  · rw [hem, hclient]
    exact h.withheld

theorem waiting_ne_completed {stage : Stage} (h : stage = .waiting) : stage ≠ .completed := by
  intro hc
  rw [h] at hc
  cases hc

/-- No step gets past the gate. -/
theorem Stepped.guarded (hs : Stepped sha256 window t k t') (h : t.Guarded sha256)
    (hfed : t.Fed) : t'.Guarded sha256 := by
  have hrun := hs.running
  cases hs with
  | turned hstage hturned =>
      rename_i r em c
      obtain ⟨hwithheld, hgated⟩ := hturned.gated hfed.placed (h.gated hrun)
      rcases r with _ | (e | (_ | _ | why | _))
      · refine ⟨fun _ => hgated (fun _ h => by cases h), hwithheld, fun hdone => ?_⟩
        rw [pumped, hstage] at hdone
        cases hdone
      · exact ⟨fun hrun => absurd rfl (hrun _), hwithheld, (fun h => by cases h)⟩
      · exact ⟨fun _ => hgated (fun _ h => by cases h), hwithheld, (fun h => by cases h)⟩
      · refine ⟨fun _ => hgated (fun _ h => by cases h), hwithheld, fun _ => ?_⟩
        cases hturned with
        | finished hspan => exact hspan
        | broken _ _ hne => exact absurd rfl hne
      · exact ⟨fun hrun => absurd rfl (hrun _), hwithheld, (fun h => by cases h)⟩
      · exact ⟨fun hrun => absurd rfl (hrun _), hwithheld, (fun h => by cases h)⟩
  | skipped hstage => exact h.congr hrun rfl rfl (waiting_ne_completed hstage)
  | relaunched hstage => exact h.congr hrun rfl rfl (waiting_ne_completed hstage)
  | recarved hstage => exact h.congr hrun rfl rfl (waiting_ne_completed hstage)
  | carved hstage => exact h.congr hrun rfl rfl (waiting_ne_completed hstage)
  | finished hstage hw hget hlen hresult hfin =>
      cases hfin with
      | wasted => exact h.congr hrun rfl rfl (waiting_ne_completed hstage)
      | landed => exact h.congr hrun rfl rfl fun h => by cases h
      | requeued hd hids hst =>
          rcases hst with rfl | rfl
          · exact h.congr hrun rfl rfl fun h => by cases h
          · exact h.congr hrun rfl rfl fun h => by cases h
      | failed htwins hst =>
          rcases hst with rfl | rfl
          · exact h.congr hrun rfl rfl fun h => by cases h
          · exact h.congr hrun rfl rfl fun h => by cases h
  | gaveUp hstage => exact h.congr hrun rfl rfl fun h => by cases h

theorem guarded_of_reach (hp : p.Wf 0 info.narSize) (hpos : 0 < info.narSize)
    (h : (transfer sha256 window p info 0 info.narSize).Reach t) : t.Guarded sha256 := by
  refine h.invariant (I := fun t => t.Guarded sha256) ?_ fun t k t' hr hg hstep => ?_
  · rintro t ⟨patience, rfl⟩
    exact ⟨fun _ _ => ⟨rfl, rfl, Or.inl hpos⟩, fun _ => Or.inl hpos, nofun⟩
  · have hacc := accounted_of_reach hp hr
    have hs := step_cases hacc.crewed hstep
    exact hs.guarded hg (hacc.fed hs.running)

/-- What is retained, wherever the transfer stands. -/
structure Solvent (budget : ℕ) (t : Transfer) : Prop where
  stocked : t.Running → t.em.Stocked budget
  held : t.em.heldBytes ≤ budget
  finished : t.stage = .completed → t.em.held = ∅
  unbroken : ∀ why, t.stage ≠ .aborted (.pump why)

theorem Solvent.congr (h : t.Solvent budget) (hrun : t.Running) {t' : Transfer}
    (hem : t'.em = { t.em with buffered := t'.em.buffered }) (hdone : t'.stage ≠ .completed)
    (hstage : ∀ why, t'.stage ≠ .aborted (.pump why)) : t'.Solvent budget := by
  refine ⟨fun _ => ?_, ?_, fun hc => absurd hc hdone, hstage⟩
  · rw [hem]
    exact h.stocked hrun
  · rw [hem]
    exact h.held

/-- No step retains more than the budget, or finds the plan broken. -/
theorem Stepped.solvent (hs : Stepped sha256 window t k t') (h : t.Solvent budget) (hfed : t.Fed)
    (hlits : ∀ s ∈ t.em.spans, ∀ litOff len, s.2 = .lit litOff len →
      litOff + len ≤ t.em.lits.length) : t'.Solvent budget := by
  have hrun := hs.running
  have hstocked := h.stocked hrun
  cases hs with
  | turned hstage hturned =>
      rename_i r em c
      have hheld := hturned.heldBytes_le hfed.placed hstocked
      have hbroken : ∀ {why em c}, Emitter.Turned sha256 t.em t.client (some (.ok why)) em c →
          why = .needData ∨ why = .finished := by
        intro why em c hturned
        cases hturned with
        | finished => exact Or.inr rfl
        | needData => exact Or.inl rfl
        | broken hb => exact absurd hb (hstocked.not_broken hlits)
      rcases r with _ | (e | (_ | _ | why | _))
      · refine ⟨fun _ => hturned.stocked hfed.placed hstocked, hheld, ?_, ?_⟩
        · intro hdone
          rw [pumped, hstage] at hdone
          cases hdone
        · intro why hbad
          rw [pumped, hstage] at hbad
          cases hbad
      · exact ⟨fun hrun => absurd rfl (hrun _), hheld, (fun h => by cases h), (fun _ h => by cases h)⟩
      · cases hturned with
        | needData => exact ⟨fun _ => hstocked, hheld, (fun h => by cases h), (fun _ h => by cases h)⟩
        | broken _ hne _ => exact absurd rfl hne
      · cases hturned with
        | finished hspan =>
            exact ⟨fun _ => hstocked, hheld, fun _ => hstocked.held_finished hspan,
              (fun _ h => by cases h)⟩
        | broken _ _ hne => exact absurd rfl hne
      · rcases hbroken hturned with hw | hw
        · cases hw
        · cases hw
      · rcases hbroken hturned with hw | hw
        · cases hw
        · cases hw
  | skipped hstage => exact h.congr hrun rfl (waiting_ne_completed hstage) h.unbroken
  | relaunched hstage => exact h.congr hrun rfl (waiting_ne_completed hstage) h.unbroken
  | recarved hstage => exact h.congr hrun rfl (waiting_ne_completed hstage) h.unbroken
  | carved hstage => exact h.congr hrun rfl (waiting_ne_completed hstage) h.unbroken
  | finished hstage hw hget hlen hresult hfin =>
      cases hfin with
      | wasted => exact h.congr hrun rfl (waiting_ne_completed hstage) h.unbroken
      | landed => exact h.congr hrun rfl (fun h => by cases h) fun why h => by cases h
      | requeued hd hids hst =>
          rcases hst with rfl | rfl
          · exact h.congr hrun rfl (fun h => by cases h) fun why h => by cases h
          · exact h.congr hrun rfl (fun h => by cases h) fun why h => by cases h
      | failed htwins hst =>
          rcases hst with rfl | rfl
          · exact h.congr hrun rfl (fun h => by cases h) fun why h => by cases h
          · exact h.congr hrun rfl (fun h => by cases h) fun why h => by cases h
  | gaveUp hstage => exact h.congr hrun rfl (fun h => by cases h) fun why h => by cases h

theorem solvent_of_reach {size : ℕ} (hp : p.Sound size budget window)
    (h : (transfer sha256 window p info 0 size).Reach t) : t.Solvent budget := by
  refine h.invariant (I := fun t => t.Solvent budget) ?_ fun t k t' hr hsol hstep => ?_
  · rintro t ⟨patience, rfl⟩
    exact ⟨fun _ => hp.kept, Nat.zero_le _, nofun, nofun⟩
  · have hacc := accounted_of_reach hp.wf hr
    have hcarries := carries_of_reach hp.wf hr
    have hs := step_cases hacc.crewed hstep
    refine hs.solvent hsol (hacc.fed hs.running) ?_
    rw [hcarries.spans, hcarries.lits]
    exact hp.lits

end Transfer

-- ===================================================== retained for its replays

/-- Does the span replay this segment? -/
def SpanExec.replays (unique : ℕ) : SpanExec → Bool
  | .replay u _ => decide (u = unique)
  | _ => false

theorem uses_deal (unique : ℕ) (s : SpanExec) : Deal.uses unique s.deal = s.replays unique := by
  rcases s with _ | ⟨len, _ | ⟨u, r⟩⟩ | ⟨u, len⟩
  all_goals rfl

/-- A segment that is retained is retained for exactly its replays. -/
theorem Plan.Sound.retained {p : Plan} {size budget window : ℕ} (h : p.Sound size budget window)
    {off len unique retainFor : ℕ} (hs : (off, .fetch len (some (unique, retainFor))) ∈ p.spans) :
    retainFor = p.spans.countP fun s => s.2.replays unique := by
  obtain ⟨j, hj⟩ := List.mem_iff_getElem?.mp hs
  have hdeal : (p.spans.map fun s => s.2.deal)[j]? = some (.hold unique len retainFor) := by
    rw [List.getElem?_map, hj]
    rfl
  rw [← h.kept.uses_of_hold rfl h.once hdeal, List.countP_map]
  exact List.countP_congr fun s _ => by rw [← uses_deal]; rfl

/-- What is replayed was fetched before, at the same length, and retained. -/
theorem Plan.Sound.replayed {p : Plan} {size budget window : ℕ} (h : p.Sound size budget window)
    {i off unique len : ℕ} (hi : p.spans[i]? = some (off, .replay unique len)) :
    ∃ j < i, ∃ off' retainFor,
      p.spans[j]? = some (off', .fetch len (some (unique, retainFor))) := by
  have hdeal : (p.spans.map fun s => s.2.deal)[i]? = some (.use unique len) := by
    rw [List.getElem?_map, hi]
    rfl
  rcases h.kept.hold_of_use hdeal with ⟨uses, hget⟩ | ⟨j, hj, uses, hjd⟩
  · cases hget
  · rw [List.getElem?_map, Option.map_eq_some_iff] at hjd
    obtain ⟨⟨off', s⟩, hget, hs⟩ := hjd
    refine ⟨j, hj, off', uses, hget.trans ?_⟩
    rcases s with _ | ⟨l, _ | ⟨u, r⟩⟩ | ⟨u, l⟩
    · cases hs
    · cases hs
    · cases hs
      rfl
    · cases hs

/-- Any plan made from a manifest, whoever wrote it: it is in order, a
replay has its copy, and no run over it retains more than the budget, ends
with anything retained, or gives the plan up. -/
theorem manifestPlan_runs (m : Manifest) (info : RemoteNarinfo) (budget window : ℕ) (p : Plan)
    (h : manifestPlan m info budget window = .ok p) :
    p.Sound info.narSize budget window
      ∧ (∀ (i : ℕ) off unique len, p.spans[i]? = some (off, .replay unique len) →
        ∃ j < i, ∃ off' retainFor,
          p.spans[j]? = some (off', .fetch len (some (unique, retainFor)))
            ∧ retainFor = p.spans.countP fun s => s.2.replays unique)
      ∧ ∀ sha256 t, (transfer sha256 window p info 0 info.narSize).Reach t →
        t.em.heldBytes ≤ budget ∧ (t.stage = .completed → t.em.held = ∅)
          ∧ ∀ why, t.stage ≠ .aborted (.pump why) := by
  have hsound := sound_manifestPlan h
  refine ⟨hsound, fun i off unique len hi => ?_, fun sha256 t ht => ?_⟩
  · obtain ⟨j, hj, off', retainFor, hget⟩ := hsound.replayed hi
    exact ⟨j, hj, off', retainFor, hget, hsound.retained (List.mem_of_getElem? hget)⟩
  · have hsol := Transfer.solvent_of_reach hsound ht
    exact ⟨hsol.held, hsol.finished, hsol.unbroken⟩

/-- One segment three times over: fetched once, and replayed twice. -/
theorem manifestPlan_runs_repeated :
    let hash : NarHash := ⟨List.replicate 32 0, rfl⟩
    let m : Manifest := ⟨ascii "sha256:" ++ nixbase32Encode hash.val, 120, 1,
      .regular false 3 (List.replicate 3 (hexEncode hash.val))⟩
    ∃ p, manifestPlan m ⟨hash, 120⟩ 10 10 = .ok p
      ∧ p.spans.map Prod.snd
        = [.lit 0 96, .fetch 1 (some (0, 2)), .replay 0 1, .replay 0 1, .lit 96 21]
      ∧ p.Sound 120 10 10
      ∧ ∀ t, (transfer (fun _ => hash) 10 p ⟨hash, 120⟩ 0 120).Reach t → t.em.heldBytes ≤ 10 := by
  intro hash m
  have hplan : (manifestPlan m ⟨hash, 120⟩ 10 10).map (fun p => p.spans.map Prod.snd)
      = .ok [.lit 0 96, .fetch 1 (some (0, 2)), .replay 0 1, .replay 0 1, .lit 96 21] := by
    decide +kernel
  cases hp : manifestPlan m ⟨hash, 120⟩ 10 10 with
  | error e =>
      rw [hp] at hplan
      cases hplan
  | ok p =>
      rw [hp] at hplan
      obtain ⟨hsound, -, hruns⟩ := manifestPlan_runs m ⟨hash, 120⟩ 10 10 p hp
      exact ⟨p, rfl, Except.ok.inj hplan, hsound, fun t ht => (hruns _ t ht).1⟩

end Narshare
