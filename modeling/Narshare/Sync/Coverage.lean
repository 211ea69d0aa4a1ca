/-
Coverage of the catch-up planner: between the cursor and the frontier no
sequence number is out of sight.

# The answers

Here every ticket is used up by `unpick`, by `strike`, or by `complete`
with what `respond_ranges` returns, a run of events directly above the
ask's start and not past its end (`Answers`), and a chunk is taken and
applied in one step, as `drain_applies` does. Answers come in any order
and also after the plan that issued the ask is gone.

# The invariant

Of a live plan, every number in `(cursor, next]` is `Covers`-ed: it is in
a buffered chunk, in a retry interval, or asked for by a ticket of the
plan itself. A plan's own asks cut its ground into disjoint intervals, so
its own answers never meet. The answer to an ask of an EARLIER plan of
the origin knows nothing of these cuts: `complete` buffers it under its
start, over a chunk that may be there already and reach further, or
beyond the frontier, where nothing will connect to it. `Fits` excludes
both.
-/
import Narshare.Sync.Catchup

namespace Narshare

-- =============================================================== the answers

namespace Engine

/-- Replies are what `respond_ranges` returns, and a chunk taken is
applied at once. -/
def Answers (m : Engine) : Act → Prop
  | .complete i events => ∀ t ∈ m.tickets[i]?,
      SeqRun Event.seq t.ask.after events ∧ t.ask.after + events.length ≤ t.ask.til
  | .takeReady _ => False
  | .applied _ _ => False
  | _ => True

instance (m : Engine) (a : Act) : Decidable (m.Answers a) :=
  match a with
  | .complete i events => inferInstanceAs (Decidable (∀ t ∈ m.tickets[i]?,
      SeqRun Event.seq t.ask.after events ∧ t.ask.after + events.length ≤ t.ask.til))
  | .takeReady .. | .applied .. => isFalse id
  | .enroll .. | .nextAsk .. | .unpick .. | .strike .. | .drain .. | .dropOrigin .. =>
      isTrue trivial

/-- The reply a step lands starts within the frontier of the plan it
finds, and the chunk buffered at its start, if there is one, has nothing
of the plan's ground past the end of the ask. -/
def Fits (m : Engine) : Act → Prop
  | .complete i _ => ∀ t ∈ m.tickets[i]?, ∀ p ∈ m.plan.origins.get t.ask.origin,
      t.ask.after ≤ p.next ∧ ∀ chunk ∈ p.buffered.get t.ask.after,
        ∀ e ∈ chunk, e.seq ≤ p.next → e.seq ≤ t.ask.til
  | _ => True

instance (m : Engine) (a : Act) : Decidable (m.Fits a) :=
  match a with
  | .complete i _ => inferInstanceAs (Decidable (∀ t ∈ m.tickets[i]?,
      ∀ p ∈ m.plan.origins.get t.ask.origin,
        t.ask.after ≤ p.next ∧ ∀ chunk ∈ p.buffered.get t.ask.after,
          ∀ e ∈ chunk, e.seq ≤ p.next → e.seq ≤ t.ask.til))
  | .enroll .. | .nextAsk .. | .unpick .. | .strike .. | .takeReady .. | .applied ..
  | .drain .. | .dropOrigin .. => isTrue trivial

end Engine

-- ============================================================== being covered

/-- `n` is in a buffered chunk. -/
def OriginPlan.Buffers (p : OriginPlan) (n : ℕ) : Prop :=
  ∃ after events, p.buffered.get after = some events ∧ ∃ e ∈ events, e.seq = n

/-- `n` is in an interval to be fetched again. -/
def OriginPlan.Retries (p : OriginPlan) (n : ℕ) : Prop :=
  ∃ iv ∈ p.retry, iv.1 < n ∧ n ≤ iv.2

namespace Engine

/-- A ticket of the origin's latest plan. -/
def Issued (m : Engine) (o : Origin) (t : Ticket) : Prop :=
  t ∈ m.tickets ∧ t.serial = m.serial o ∧ t.ask.origin = o

/-- `n` is asked for by the origin's latest plan. -/
def Awaits (m : Engine) (o : Origin) (n : ℕ) : Prop :=
  ∃ t, m.Issued o t ∧ t.ask.after < n ∧ n ≤ t.ask.til

/-- `n` is buffered, queued or asked for. -/
def Covers (m : Engine) (o : Origin) (p : OriginPlan) (n : ℕ) : Prop :=
  p.Buffers n ∨ p.Retries n ∨ m.Awaits o n

/-- What holds whenever replies are what `respond_ranges` returns: the
window counts the tickets, and a chunk is a run above where it is
buffered. -/
structure Bounded (m : Engine) : Prop where
  inflight : m.plan.inflight = m.tickets.length
  window : m.tickets.length ≤ ENGINE_WINDOW
  chunk : ∀ o p after events, m.plan.origins.get o = some p →
    p.buffered.get after = some events →
      events ≠ [] ∧ SeqRun Event.seq after events

/-- A plan with all its ground in sight. The frontier falls behind the
cursor when the end of an ask wraps round, and then the plan has still
something to fetch. -/
structure Sighted (m : Engine) (o : Origin) (p : OriginPlan) : Prop where
  cursor_le : p.cursor ≤ max p.next p.target
  start : ∀ after events, p.buffered.get after = some events → after ≤ max p.next p.target
  covers : ∀ n, p.cursor < n → n ≤ p.next → m.Covers o p n

end Engine

-- ================================================================ the window

namespace Engine

theorem Bounded.step {m m' : Engine} {a : Act} (h : m.Bounded) (hok : m.Answers a)
    (hs : m.step a = some m') : m'.Bounded := by
  obtain ⟨hinflight, hwindow⟩ := inflight_step ⟨h.inflight, h.window⟩ hs
  refine ⟨hinflight, hwindow, fun o p' after events hp' hb => ?_⟩
  rcases step_chunks hs with ⟨hold, -⟩ | ⟨i, reply, t, rfl, hne, ht, hplan, -⟩
  · obtain ⟨p, hp, -, hb'⟩ := hold o p' after events hp' hb
    exact h.chunk o p after events hp hb'
  · rw [hplan] at hp'
    obtain ⟨p, hp, -, hfrom⟩ := Catchup.buffered_complete hp' hb
    rcases hfrom with hb' | ⟨-, rfl, rfl⟩
    · exact h.chunk o p after events hp hb'
    · exact ⟨hne, (hok t ht).1⟩

theorem bounded_of_reachIf {ok : Engine → Act → Prop} (himp : ∀ m a, ok m a → m.Answers a)
    {m : Engine} (h : engineSystem.ReachIf ok m) : m.Bounded := by
  refine System.ReachIf.invariant ?_ ?_ h
  · rintro s rfl
    exact ⟨rfl, Nat.zero_le _, fun o p after events hp => by cases hp⟩
  · intro s a s' _ hb hok hs
    exact hb.step (himp s a hok) hs

end Engine

-- =============================================================== one step

namespace Engine

/-- Coverage survives the landing of a ticket when the plan keeps what it
had and takes in what the ticket asked for. -/
theorem Covers.land {m m' : Engine} {o : Origin} {p p' : OriginPlan} {n : ℕ}
    (h : m.Covers o p n) {i : ℕ} {t : Ticket} (ht : m.tickets[i]? = some t)
    (htickets : m'.tickets = m.tickets.eraseIdx i) (hserial : m'.serial = m.serial)
    (hbuf : p.Buffers n → p'.Buffers n ∨ p'.Retries n)
    (hretry : p.Retries n → p'.Retries n)
    (hask : t.ask.origin = o → t.ask.after < n → n ≤ t.ask.til →
      p'.Buffers n ∨ p'.Retries n) : m'.Covers o p' n := by
  have hin : p'.Buffers n ∨ p'.Retries n → m'.Covers o p' n :=
    fun h => h.imp_right Or.inl
  rcases h with hb | hr | ⟨t', ⟨hmem, hser, ho⟩, hlo, hhi⟩
  · exact hin (hbuf hb)
  · exact hin (Or.inr (hretry hr))
  · obtain ⟨j, hj⟩ := List.mem_iff_getElem?.mp hmem
    by_cases hji : j = i
    · rw [hji, ht] at hj
      cases hj
      exact hin (hask ho hlo hhi)
    · refine Or.inr (Or.inr ⟨t', ⟨?_, hserial ▸ hser, ho⟩, hlo, hhi⟩)
      rw [htickets, List.mem_eraseIdx_iff_getElem?]
      exact ⟨j, hji, hj⟩

/-- Coverage by a step that takes no ticket away and changes neither the
plan's chunks nor its queue. -/
theorem Covers.keep {m m' : Engine} {o : Origin} {p p' : OriginPlan} {n : ℕ}
    (h : m.Covers o p n) (htickets : ∀ t ∈ m.tickets, t ∈ m'.tickets)
    (hserial : m'.serial o = m.serial o) (hbuf : p'.buffered = p.buffered)
    (hretry : p'.retry = p.retry) : m'.Covers o p' n := by
  rcases h with ⟨k, evs, hk, hb⟩ | ⟨iv, hiv, hr⟩ | ⟨t, ⟨hmem, hser, ho⟩, ht⟩
  · exact Or.inl ⟨k, evs, hbuf ▸ hk, hb⟩
  · exact Or.inr (Or.inl ⟨iv, hretry ▸ hiv, hr⟩)
  · exact Or.inr (Or.inr ⟨t, ⟨htickets t hmem, hserial ▸ hser, ho⟩, ht⟩)

/-- The last number of a reply is the end of its run. -/
theorem coveredBy_eq {after : ℕ} (after' : ℕ) {events : List Event} (hne : events ≠ [])
    (hrun : SeqRun Event.seq after events) :
    OriginPlan.coveredBy after' events = after + events.length := by
  rw [OriginPlan.coveredBy, List.getLast?_eq_getLast_of_ne_nil hne]
  exact hrun.num_getLast hne

/-- A reply that fits keeps the plan's ground in sight: what it covers is
buffered, what it falls short of is queued, and a chunk it replaces had
nothing else. -/
theorem Sighted.complete {m m' : Engine} {t : Ticket} {p : OriginPlan}
    (h : m.Sighted t.ask.origin p) {i : ℕ} {events : List Event}
    (ht : m.tickets[i]? = some t) (htickets : m'.tickets = m.tickets.eraseIdx i)
    (hserial : m'.serial = m.serial) (hne : events ≠ [])
    (hrun : SeqRun Event.seq t.ask.after events)
    (hchunk : ∀ chunk, p.buffered.get t.ask.after = some chunk →
      SeqRun Event.seq t.ask.after chunk)
    (hfits : t.ask.after ≤ p.next ∧ ∀ chunk ∈ p.buffered.get t.ask.after,
      ∀ e ∈ chunk, e.seq ≤ p.next → e.seq ≤ t.ask.til) :
    m'.Sighted t.ask.origin (p.complete t.ask.after t.ask.til events) := by
  have hcov := coveredBy_eq t.ask.after hne hrun
  have hbuf : (p.complete t.ask.after t.ask.til events).buffered
      = p.buffered.put t.ask.after events := if_pos hne
  have htake : ∀ n, t.ask.after < n → n ≤ t.ask.til →
      (p.complete t.ask.after t.ask.til events).Buffers n
        ∨ (p.complete t.ask.after t.ask.til events).Retries n := by
    intro n hlo hhi
    rcases le_or_gt n (t.ask.after + events.length) with hin | hout
    · obtain ⟨e, he, hn⟩ := hrun.exists_num hlo hin
      exact Or.inl ⟨t.ask.after, events, by rw [hbuf, OrdMap.get_put_self], e, he, hn⟩
    · have hshort : OriginPlan.coveredBy t.ask.after events < t.ask.til := by omega
      refine Or.inr ⟨(OriginPlan.coveredBy t.ask.after events, t.ask.til), ?_, ?_, hhi⟩
      · simp only [OriginPlan.complete]
        rw [if_pos hshort]
        exact List.mem_append_right _ List.mem_cons_self
      · show OriginPlan.coveredBy t.ask.after events < n
        omega
  refine ⟨h.cursor_le, fun after events' hb => ?_, fun n hlo hhi => ?_⟩
  · rw [hbuf, OrdMap.get_put] at hb
    split at hb
    next he =>
      rw [he]
      exact hfits.1.trans (le_max_left _ _)
    next => exact h.start after events' hb
  · refine (h.covers n hlo hhi).land ht htickets hserial ?_ ?_ (fun _ => htake n)
    · rintro ⟨after, chunk, hb, e, he, hn⟩
      by_cases hafter : after = t.ask.after
      · rw [hafter] at hb
        have hlow := (SeqRun.bounds (hchunk chunk hb) he).1
        have hhigh := hfits.2 chunk hb e he (by rw [hn]; exact hhi)
        exact htake n (by omega) (by omega)
      · refine Or.inl ⟨after, chunk, ?_, e, he, hn⟩
        rw [hbuf, OrdMap.get_put, if_neg hafter]
        exact hb
    · rintro ⟨iv, hiv, hn⟩
      refine ⟨iv, ?_, hn⟩
      simp only [OriginPlan.complete]
      split
      · exact List.mem_append_left _ hiv
      · exact hiv

/-- Taking the head chunk and applying it moves the cursor past all it
covered. -/
theorem Sighted.drain {m m' : Engine} {o : Origin} {p : OriginPlan} (h : m.Sighted o p)
    (htickets : m'.tickets = m.tickets) (hserial : m'.serial = m.serial) {after : ℕ}
    {events : List Event} (hb : p.buffered.get after = some events) (hne : events ≠ [])
    (hrun : SeqRun Event.seq after events) :
    m'.Sighted o { p with
      buffered := p.buffered.erase after
      cursor := max p.cursor (OriginPlan.coveredBy 0 events)
      next := max p.next (max p.cursor (OriginPlan.coveredBy 0 events)) } := by
  have hcov := coveredBy_eq 0 hne hrun
  refine ⟨(le_max_right _ _).trans (le_max_left _ _), fun k chunk hk => ?_, fun n hlo hhi => ?_⟩
  · simp only at hk
    rw [OrdMap.get_erase] at hk
    split at hk
    · cases hk
    · exact (h.start k chunk hk).trans (max_le_max (le_max_left _ _) le_rfl)
  · simp only at hlo hhi
    have hn : p.cursor < n ∧ OriginPlan.coveredBy 0 events < n := max_lt_iff.mp hlo
    have hnext : n ≤ p.next := by
      rcases le_max_iff.mp hhi with hle | hle
      · exact hle
      · omega
    rcases h.covers n hn.1 hnext with ⟨k, chunk, hk, e, he, hen⟩ | hr | ⟨t, ⟨hmem, hser, ho⟩, ht⟩
    · refine Or.inl ⟨k, chunk, ?_, e, he, hen⟩
      have hka : k ≠ after := by
        rintro rfl
        rw [hb] at hk
        cases hk
        have := (hrun.bounds he).2
        omega
      simp only
      rw [OrdMap.get_erase, if_neg hka]
      exact hk
    · exact Or.inr (Or.inl hr)
    · exact Or.inr (Or.inr ⟨t, ⟨htickets ▸ hmem, hserial ▸ hser, ho⟩, ht⟩)

/-- A plan that keeps its cursor, frontier, chunks and queue stays in
sight while no ticket goes. -/
theorem Sighted.keep {m m' : Engine} {o : Origin} {p p' : OriginPlan} (h : m.Sighted o p)
    (htickets : ∀ t ∈ m.tickets, t ∈ m'.tickets) (hserial : m'.serial o = m.serial o)
    (hcursor : p'.cursor = p.cursor) (hnext : p'.next = p.next) (htarget : p.target ≤ p'.target)
    (hbuf : p'.buffered = p.buffered) (hretry : p'.retry = p.retry) : m'.Sighted o p' := by
  have hgrown : max p.next p.target ≤ max p'.next p'.target := max_le_max hnext.ge htarget
  refine ⟨?_, fun after events hb => ?_, fun n hlo hhi => ?_⟩
  · rw [hcursor]
    exact h.cursor_le.trans hgrown
  · rw [hbuf] at hb
    exact (h.start after events hb).trans hgrown
  · rw [hcursor] at hlo
    rw [hnext] at hhi
    exact (h.covers n hlo hhi).keep htickets hserial hbuf hretry

/-- A ticket that another origin's plan issued is no loss. -/
theorem Sighted.land_ne {m m' : Engine} {o : Origin} {p : OriginPlan} (h : m.Sighted o p)
    {i : ℕ} {t : Ticket} (ht : m.tickets[i]? = some t)
    (htickets : m'.tickets = m.tickets.eraseIdx i) (hserial : m'.serial = m.serial)
    (hne : o ≠ t.ask.origin) : m'.Sighted o p :=
  ⟨h.cursor_le, h.start, fun n hlo hhi =>
    (h.covers n hlo hhi).land ht htickets hserial Or.inl id
      fun he => absurd he.symm hne⟩

/-- A failed ask goes back into the queue whole. -/
theorem Sighted.requeue {m m' : Engine} {t : Ticket} {p p' : OriginPlan}
    (h : m.Sighted t.ask.origin p) {i : ℕ} (ht : m.tickets[i]? = some t)
    (htickets : m'.tickets = m.tickets.eraseIdx i) (hserial : m'.serial = m.serial)
    (hcursor : p'.cursor = p.cursor) (hnext : p'.next = p.next) (htarget : p'.target = p.target)
    (hbuf : p'.buffered = p.buffered) (hold : ∀ iv ∈ p.retry, iv ∈ p'.retry)
    (hnew : (t.ask.after, t.ask.til) ∈ p'.retry) : m'.Sighted t.ask.origin p' := by
  refine ⟨?_, fun after events hb => ?_, fun n hlo hhi => ?_⟩
  · rw [hcursor, hnext, htarget]
    exact h.cursor_le
  · rw [hbuf] at hb
    rw [hnext, htarget]
    exact h.start after events hb
  · rw [hcursor] at hlo
    rw [hnext] at hhi
    refine (h.covers n hlo hhi).land ht htickets hserial ?_ ?_ ?_
    · rintro ⟨k, evs, hk, hn⟩
      exact Or.inl ⟨k, evs, hbuf ▸ hk, hn⟩
    · rintro ⟨iv, hiv, hn⟩
      exact ⟨iv, hold iv hiv, hn⟩
    · intro _ hlo hhi
      exact Or.inr ⟨_, hnew, hlo, hhi⟩

/-- What a plan picks to fetch stays in sight as the ticket it becomes. -/
theorem Sighted.pick {m m' : Engine} {o : Origin} {p p' : OriginPlan} (h : m.Sighted o p)
    {iv : ℕ × ℕ} (hpick : p.pick = some (iv, p')) {t : Ticket}
    (hold : ∀ t ∈ m.tickets, t ∈ m'.tickets) (hserial : m'.serial = m.serial) (ht : m'.Issued o t)
    (hiv : (t.ask.after, t.ask.til) = iv) : m'.Sighted o p' := by
  have hnew : ∀ n, iv.1 < n → n ≤ iv.2 → m'.Covers o p' n := by
    intro n hlo hhi
    rw [← hiv] at hlo hhi
    exact Or.inr (Or.inr ⟨t, ht, hlo, hhi⟩)
  rcases OriginPlan.pick_spec hpick with ⟨hretry, hp'⟩ | ⟨hretry, hlo, hlt, hp'⟩
  · refine ⟨by rw [hp']; exact h.cursor_le, by rw [hp']; exact h.start, fun n hlo hhi => ?_⟩
    have hlo' : p.cursor < n := by rw [hp'] at hlo; exact hlo
    have hhi' : n ≤ p.next := by rw [hp'] at hhi; exact hhi
    rcases h.covers n hlo' hhi' with hb | ⟨iv', hiv', hn⟩ | ⟨t', ⟨hmem, hser, ho⟩, hn⟩
    · left
      rw [hp']
      exact hb
    · rw [hretry] at hiv'
      rcases List.mem_cons.mp hiv' with rfl | hin
      · exact hnew n hn.1 hn.2
      · exact Or.inr (Or.inl ⟨iv', hin, hn⟩)
    · exact Or.inr (Or.inr ⟨t', ⟨hold t' hmem, hserial ▸ hser, ho⟩, hn⟩)
  · have hbound : max p.next p.target ≤ max iv.2 p.target :=
      max_le (hlt.le.trans (le_max_right _ _)) (le_max_right _ _)
    refine ⟨?_, fun after events hb => ?_, fun n hlo' hhi' => ?_⟩
    · rw [hp']
      exact h.cursor_le.trans hbound
    · rw [hp'] at hb ⊢
      exact (h.start after events hb).trans hbound
    · rw [hp'] at hlo' hhi'
      rcases le_or_gt n p.next with hn | hn
      · rw [hp']
        exact (h.covers n hlo' hn).keep hold (by rw [hserial]) rfl rfl
      · exact hnew n (by omega) hhi'

/-- Every live plan has all its ground in sight. -/
def AllSighted (m : Engine) : Prop :=
  ∀ o p, m.plan.origins.get o = some p → m.Sighted o p

theorem AllSighted.step {m m' : Engine} {a : Act} (h : m.AllSighted) (hb : m.Bounded)
    (hans : m.Answers a) (hfits : m.Fits a) (hs : m.step a = some m') : m'.AllSighted := by
  -- a landing changes the plan of its ask's origin by `f`, if there is one
  have hland : ∀ {i t} (f : OriginPlan → OriginPlan), m.tickets[i]? = some t →
      m'.plan = m.plan.land.modify t.ask.origin f → m'.tickets = m.tickets.eraseIdx i →
      m'.serial = m.serial →
      (∀ p, m.plan.origins.get t.ask.origin = some p → m'.Sighted t.ask.origin (f p)) →
      m'.AllSighted := by
    intro i t f ht hplan htickets hserial hf o p' hp'
    rw [hplan, Catchup.get_modify] at hp'
    split at hp'
    next he =>
      obtain ⟨p, hp, rfl⟩ := Option.map_eq_some_iff.mp hp'
      rw [he]
      exact hf p hp
    next hne => exact (h o p' hp').land_ne ht htickets hserial hne
  cases a with
  | enroll o generation cursor target =>
      cases hs
      intro o' p' hp'
      rcases Catchup.get_enroll hp' with ⟨hne, hp⟩ | ⟨rfl, q, hq, rfl⟩
      · refine (h o' p' hp).keep (fun _ h => h) ?_ rfl rfl le_rfl rfl rfl
        simp only
        split
        · exact Function.update_of_ne hne ..
        · rfl
      · cases hget : m.plan.origins.get o' with
        | none =>
            rw [hget] at hq
            rw [hq]
            refine ⟨le_max_left _ _, fun after events hb => (by cases hb), fun n hlo hhi => ?_⟩
            have hlo' : cursor < n := hlo
            have hhi' : n ≤ cursor := hhi
            omega
        | some p =>
            rw [hget] at hq
            rw [hq]
            exact (h o' p hget).keep (fun _ h => h) rfl rfl rfl (le_max_left _ _) rfl rfl
  | nextAsk order =>
      simp only [Engine.step] at hs
      split at hs
      next =>
        obtain ⟨⟨ask, c'⟩, hask, rfl⟩ := Option.map_eq_some_iff.mp hs
        obtain ⟨-, p, iv, q, hp, hpick, heq, rfl⟩ := Catchup.nextAsk_spec hask
        intro o' p' hp'
        simp only at hp'
        rw [OrdMap.get_put] at hp'
        split at hp'
        next he =>
          cases hp'
          rw [he]
          refine (h _ p hp).pick hpick (fun t ht => List.mem_append_left _ ht) rfl
            (t := ⟨m.serial ask.origin, ask⟩) ⟨?_, rfl, rfl⟩ ?_
          · exact List.mem_append_right _ List.mem_cons_self
          · rw [heq]
        next =>
          exact (h o' p' hp').keep (fun t ht => List.mem_append_left _ ht)
            rfl rfl rfl le_rfl rfl rfl
      next => cases hs
  | unpick i =>
      obtain ⟨t, ht, rfl⟩ := Option.map_eq_some_iff.mp hs
      refine hland _ ht rfl rfl rfl fun p hp => ?_
      exact (h _ p hp).requeue ht rfl rfl rfl rfl rfl rfl
        (fun _ h => List.mem_cons_of_mem _ h) List.mem_cons_self
  | strike i =>
      obtain ⟨t, ht, rfl⟩ := Option.map_eq_some_iff.mp hs
      refine hland _ ht rfl rfl rfl fun p hp => ?_
      exact (h _ p hp).requeue ht rfl rfl rfl rfl rfl rfl
        (fun _ h => List.mem_append_left _ h) (List.mem_append_right _ List.mem_cons_self)
  | complete i events =>
      simp only [Engine.step] at hs
      split at hs
      next => cases hs
      next hne =>
        obtain ⟨t, ht, rfl⟩ := Option.map_eq_some_iff.mp hs
        refine hland _ ht rfl rfl rfl fun p hp => ?_
        exact (h _ p hp).complete ht rfl rfl hne (hans t ht).1
          (fun chunk hc => (hb.chunk _ p _ chunk hp hc).2) (hfits t ht p hp)
  | takeReady o => exact absurd hans id
  | applied o through => exact absurd hans id
  | drain o =>
      obtain ⟨⟨⟨g, events⟩, c'⟩, htake, rfl⟩ := Option.map_eq_some_iff.mp hs
      obtain ⟨p, after, hp, -, hbuf, -, rfl⟩ := Catchup.takeReady_spec htake
      intro o' p' hp'
      simp only [Catchup.applied] at hp'
      rw [Catchup.get_modify] at hp'
      split at hp'
      next he =>
        rw [Catchup.get_modify, if_pos rfl, hp] at hp'
        cases hp'
        obtain ⟨hne, hrun⟩ := hb.chunk o p after events hp hbuf
        rw [he]
        refine (h o p hp).drain ?_ ?_ hbuf hne hrun
        · rfl
        · rfl
      next hne =>
        rw [Catchup.get_modify, if_neg hne] at hp'
        exact (h o' p' hp').keep (fun _ h => h) rfl rfl rfl le_rfl rfl rfl
  | dropOrigin o =>
      cases hs
      intro o' p' hp'
      simp only at hp'
      rw [Catchup.get_dropOrigin] at hp'
      split at hp'
      · cases hp'
      · exact (h o' p' hp').keep (fun _ h => h) rfl rfl rfl le_rfl rfl rfl

-- ================================================================ whole runs

theorem allSighted_of_reachIf {m : Engine}
    (h : engineSystem.ReachIf (fun m a => m.Answers a ∧ m.Fits a) m) : m.AllSighted := by
  refine System.ReachIf.invariant ?_ ?_ h
  · rintro s rfl o p hp
    cases hp
  · intro s a s' hr hsight hok hs
    exact hsight.step (bounded_of_reachIf (fun _ _ => And.left) hr) hok.1 hok.2 hs

/-- A batch handed out starts at or below the cursor. -/
theorem batch_starts {m : Engine} (h : m.Bounded) {o : Origin} {p : OriginPlan}
    (hp : m.plan.origins.get o = some p) {generation : ℕ} {events : List Event} {c' : Catchup}
    (htake : m.plan.takeReady o = some ((generation, events), c')) :
    ∃ e, events.head? = some e ∧ e.seq ≤ p.cursor + 1 := by
  obtain ⟨q, after, hq, -, hb, hle, -⟩ := Catchup.takeReady_spec htake
  rw [hp] at hq
  cases hq
  obtain ⟨hne, hrun⟩ := h.chunk o p after events hp hb
  cases events with
  | nil => exact absurd rfl hne
  | cons e events =>
      refine ⟨e, rfl, ?_⟩
      have := hrun.1
      omega

/-- A plan in sight that is not finished has something to fetch, to apply
or to wait for. -/
theorem Sighted.busy {m : Engine} {o : Origin} {p : OriginPlan}
    (hp : m.plan.origins.get o = some p) (hb : m.Bounded) (h : m.Sighted o p)
    (hun : m.plan.finished o = false) :
    p.retry ≠ [] ∨ p.next < p.target ∨ (m.plan.takeReady o).isSome ∨ ∃ t, m.Issued o t := by
  by_contra hidle
  simp only [not_or, not_not, not_lt, not_exists] at hidle
  obtain ⟨hretry, htarget, htake, htickets⟩ := hidle
  -- the first chunk, if there is one, does not connect
  have hfirst : ∀ after events, p.buffered.get after = some events → p.cursor < after := by
    intro after events hget
    have hmem := OrdMap.mem_entries.mpr hget
    have hsorted := p.buffered.sorted
    unfold Catchup.takeReady at htake
    rw [hp, Option.bind_some] at htake
    cases hentries : p.buffered.entries with
    | nil =>
        rw [hentries] at hmem
        cases hmem
    | cons e rest =>
        obtain ⟨k, chunk⟩ := e
        rw [hentries] at hmem hsorted htake
        simp only at htake
        have hk : p.cursor < k := by
          by_contra hle
          rw [if_neg hle] at htake
          exact htake rfl
        rcases List.mem_cons.mp hmem with he | hmem
        · cases he
          exact hk
        · exact hk.trans ((List.pairwise_cons.mp hsorted).1 _ hmem)
  -- so nothing above the cursor is covered, and the frontier is at it
  have hnext : p.next = p.cursor := by
    by_contra hne
    have hle : p.cursor ≤ p.next := h.cursor_le.trans_eq (max_eq_left htarget)
    have hlt : p.cursor < p.next := lt_of_le_of_ne hle (Ne.symm hne)
    rcases h.covers (p.cursor + 1) (by omega) hlt with
      ⟨k, chunk, hk, e, he, hn⟩ | ⟨iv, hiv, -⟩ | ⟨t, ht, -⟩
    · have := hfirst k chunk hk
      have := ((hb.chunk o p k chunk hp hk).2.bounds he).1
      omega
    · rw [hretry] at hiv
      cases hiv
    · exact htickets t ht
  have hempty : p.buffered.entries = [] := by
    cases hentries : p.buffered.entries with
    | nil => rfl
    | cons e rest =>
        obtain ⟨k, chunk⟩ := e
        have hget : p.buffered.get k = some chunk := by
          rw [← OrdMap.mem_entries, hentries]
          exact List.mem_cons_self
        have := hfirst k chunk hget
        have := (h.start k chunk hget).trans_eq (max_eq_left htarget)
        omega
  unfold Catchup.finished at hun
  rw [hp] at hun
  simp only [hempty, hretry, List.isEmpty_nil, Bool.and_true, decide_eq_false_iff_not] at hun
  omega

end Engine

/-- Whatever is enrolled, dropped and enrolled again and however the
answers come, the window counts the tickets in flight and no batch
starts past the cursor. Along every run whose replies fit, every number
between the cursor and the frontier of a live plan is buffered, queued
or asked for by the plan, and a plan that is not finished has something
to fetch, to apply or to wait for. -/
theorem catchup_covered (m : Engine) :
    (engineSystem.ReachIf Engine.Answers m →
      m.plan.inflight = m.tickets.length ∧ m.plan.inflight ≤ ENGINE_WINDOW
      ∧ ∀ o p generation events c', m.plan.origins.get o = some p →
        m.plan.takeReady o = some ((generation, events), c') →
          ∃ e, events.head? = some e ∧ e.seq ≤ p.cursor + 1)
    ∧ (engineSystem.ReachIf (fun m a => m.Answers a ∧ m.Fits a) m →
      ∀ o p, m.plan.origins.get o = some p →
        (∀ n, p.cursor < n → n ≤ p.next → m.Covers o p n)
        ∧ (m.plan.finished o = false →
          p.retry ≠ [] ∨ p.next < p.target ∨ (m.plan.takeReady o).isSome
            ∨ ∃ t, m.Issued o t)) := by
  refine ⟨fun h => ?_, fun h o p hp => ?_⟩
  · have hb := Engine.bounded_of_reachIf (fun _ _ => id) h
    refine ⟨hb.inflight, hb.inflight ▸ hb.window, ?_⟩
    intro o p generation events c' hp htake
    exact Engine.batch_starts hb hp htake
  · have hb := Engine.bounded_of_reachIf (fun _ _ => And.left) h
    have hsight := Engine.allSighted_of_reachIf h o p hp
    exact ⟨hsight.covers, hsight.busy hp hb⟩

/-- Two asks of a plan are out, and the second is answered in part. -/
def Engine.partly : List Engine.Act :=
  [.enroll (Origin.ofByte 1) 1 0 5000, .nextAsk [Origin.ofByte 1],
    .nextAsk [Origin.ofByte 1], .complete 1 [⟨4097, none⟩]]

theorem catchup_covered_partly : ∃ (m : Engine) (p : OriginPlan),
    m.plan.origins.get (Origin.ofByte 1) = some p ∧ m.plan.inflight = m.tickets.length
      ∧ ∀ n, 0 < n → n ≤ 5000 → m.Covers (Origin.ofByte 1) p n := by
  have hrun : ((engineSystem.runIf (fun m a => m.Answers a ∧ m.Fits a) {}
        Engine.partly).bind fun m =>
        (m.plan.origins.get (Origin.ofByte 1)).map fun p => (p.cursor, p.next))
      = some (0, 5000) := by decide +kernel
  obtain ⟨m, hm, hread⟩ := Option.bind_eq_some_iff.mp hrun
  obtain ⟨p, hp, hr⟩ := Option.map_eq_some_iff.mp hread
  obtain ⟨hcursor, hnext⟩ := Prod.mk.inj hr
  have hreach : engineSystem.ReachIf (fun m a => m.Answers a ∧ m.Fits a) m :=
    System.ReachIf.runIf (System.ReachIf.init rfl) hm
  obtain ⟨hcount, hcover⟩ := catchup_covered m
  have hans : engineSystem.ReachIf Engine.Answers m := hreach.mono fun _ _ => And.left
  refine ⟨m, p, hp, (hcount hans).1, fun n hlo hhi => ?_⟩
  exact (hcover hreach (Origin.ofByte 1) p hp).1 n (hcursor ▸ hlo) (hnext ▸ hhi)

/-- An ask of a dropped plan is answered after the origin was enrolled
again, over a longer chunk: the second number is buffered nowhere, queued
nowhere and asked for by nobody. -/
theorem late_reply_uncovers : ¬ ∀ m, engineSystem.ReachIf Engine.Answers m →
    ∀ o p, m.plan.origins.get o = some p →
      ∀ n, p.cursor < n → n ≤ p.next → m.Covers o p n := by
  intro hall
  have hrun : ((engineSystem.runIf Engine.Answers {}
        [.enroll (Origin.ofByte 1) 1 0 1, .nextAsk [Origin.ofByte 1],
          .dropOrigin (Origin.ofByte 1), .enroll (Origin.ofByte 1) 1 0 2,
          .nextAsk [Origin.ofByte 1], .complete 1 [⟨1, none⟩, ⟨2, none⟩],
          .complete 0 [⟨1, none⟩]]).bind fun m =>
        (m.plan.origins.get (Origin.ofByte 1)).map fun p =>
          ((p.cursor, p.next), p.buffered.entries, p.retry, m.tickets.length))
      = some ((0, 2), [(0, [⟨1, none⟩])], [], 0) := by decide +kernel
  obtain ⟨m, hm, hread⟩ := Option.bind_eq_some_iff.mp hrun
  obtain ⟨p, hp, hr⟩ := Option.map_eq_some_iff.mp hread
  obtain ⟨hspan, hr⟩ := Prod.mk.inj hr
  obtain ⟨hcursor, hnext⟩ := Prod.mk.inj hspan
  obtain ⟨hbuf, hr⟩ := Prod.mk.inj hr
  obtain ⟨hretry, htickets⟩ := Prod.mk.inj hr
  have hreach : engineSystem.ReachIf Engine.Answers m :=
    System.ReachIf.runIf (System.ReachIf.init rfl) hm
  rcases hall m hreach (Origin.ofByte 1) p hp 2 (by omega) (by omega) with
    ⟨k, chunk, hk, e, he, hn⟩ | ⟨iv, hiv, -⟩ | ⟨t, ⟨ht, -⟩, -⟩
  · have hmem := OrdMap.mem_entries.mpr hk
    rw [hbuf] at hmem
    cases List.mem_singleton.mp hmem
    cases List.mem_singleton.mp he
    exact absurd hn (by decide)
  · rw [hretry] at hiv
    cases hiv
  · rw [List.length_eq_zero_iff.mp htickets] at ht
    cases ht

end Narshare
