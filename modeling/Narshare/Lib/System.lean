/-
Transition systems as guarded step functions: `step s a = some s'` when
action `a` is enabled in `s`, `none` otherwise. One function serves the
proofs and the kernel-run traces alike, so the guards they see are the
same guards.

# Runs under a condition

`ReachIf ok` collects the states of runs whose every step met `ok`, a
condition on the state BEFORE the step and on the action taken. `Reach`
is the unconditional case. A property that holds of every `Reach` state
is an invariant; one that only holds along well-conditioned runs is
stated over `ReachIf`, and the two share one induction
(`ReachIf.invariant`). What happens in the long run is said of an
`Endless` run, a state and an action at every time.
-/
import Mathlib.Data.Nat.Notation
import Mathlib.Logic.Basic

namespace Narshare

universe u v

/-- A transition system: its initial states and its guarded step. -/
structure System (σ : Type u) (α : Type v) where
  init : σ → Prop
  step : σ → α → Option σ

namespace System

variable {σ : Type u} {α : Type v} (S : System σ α)

/-- States of runs whose every step met `ok` where it was taken. -/
inductive ReachIf (ok : σ → α → Prop) : σ → Prop
  | init {s : σ} : S.init s → ReachIf ok s
  | step {s s' : σ} {a : α} : ReachIf ok s → ok s a →
      S.step s a = some s' → ReachIf ok s'

/-- Reachable states. -/
def Reach (s : σ) : Prop := S.ReachIf (fun _ _ => True) s

/-- Run a list of actions, failing on the first disabled one. -/
def run (s : σ) : List α → Option σ
  | [] => some s
  | a :: as => (S.step s a).bind fun s' => run s' as

/-- Run a list of actions, failing on the first that is disabled or
misses the condition. -/
def runIf (ok : σ → α → Prop) [∀ s a, Decidable (ok s a)] (s : σ) :
    List α → Option σ
  | [] => some s
  | a :: as =>
      if ok s a then (S.step s a).bind fun s' => runIf ok s' as else none

variable {S}

theorem Reach.start {s : σ} (h : S.init s) : S.Reach s := ReachIf.init h

theorem Reach.next {s s' : σ} {a : α} (h : S.Reach s)
    (hs : S.step s a = some s') : S.Reach s' := ReachIf.step h trivial hs

/-- A stronger condition reaches no more states. -/
theorem ReachIf.mono {ok ok' : σ → α → Prop}
    (himp : ∀ s a, ok s a → ok' s a) {s : σ} (h : S.ReachIf ok s) :
    S.ReachIf ok' s := by
  induction h with
  | init hi => exact .init hi
  | step _ hok hs ih => exact .step ih (himp _ _ hok) hs

theorem ReachIf.reach {ok : σ → α → Prop} {s : σ} (h : S.ReachIf ok s) :
    S.Reach s := h.mono fun _ _ _ => trivial

/-- The invariant rule: what holds initially and is preserved by every
step that meets the condition holds along every conditioned run. The
step case may use that its source is such a state. -/
theorem ReachIf.invariant {ok : σ → α → Prop} {I : σ → Prop}
    (hinit : ∀ s, S.init s → I s)
    (hstep : ∀ s a s', S.ReachIf ok s → I s → ok s a →
      S.step s a = some s' → I s')
    {s : σ} (h : S.ReachIf ok s) : I s := by
  induction h with
  | init hi => exact hinit _ hi
  | step hr hok hs ih => exact hstep _ _ _ hr ih hok hs

/-- The invariant rule for unconditional runs. -/
theorem Reach.invariant {I : σ → Prop}
    (hinit : ∀ s, S.init s → I s)
    (hstep : ∀ s a s', S.Reach s → I s → S.step s a = some s' → I s')
    {s : σ} (h : S.Reach s) : I s :=
  ReachIf.invariant hinit (fun s a s' hr hi _ hs => hstep s a s' hr hi hs) h

/-- Running from a reachable state stays reachable. -/
theorem Reach.run {s s' : σ} {as : List α} (h : S.Reach s)
    (hrun : S.run s as = some s') : S.Reach s' := by
  induction as generalizing s with
  | nil =>
      cases hrun
      exact h
  | cons a as ih =>
      obtain ⟨s₁, hs₁, hrest⟩ := Option.bind_eq_some_iff.mp hrun
      exact ih (h.next hs₁) hrest

/-- A checked run from a conditioned state stays conditioned. -/
theorem ReachIf.runIf {ok : σ → α → Prop} [∀ s a, Decidable (ok s a)]
    {s s' : σ} {as : List α} (h : S.ReachIf ok s)
    (hrun : S.runIf ok s as = some s') : S.ReachIf ok s' := by
  induction as generalizing s with
  | nil =>
      cases hrun
      exact h
  | cons a as ih =>
      rw [System.runIf] at hrun
      split at hrun
      next hok =>
        obtain ⟨s₁, hs₁, hrest⟩ := Option.bind_eq_some_iff.mp hrun
        exact ih (h.step hok hs₁) hrest
      next => cases hrun

/-- A run without end: the state at every time, and the action taken there. -/
structure Endless (S : System σ α) (ok : α → Bool) (run : ℕ → σ) (acts : ℕ → α) : Prop where
  start : S.Reach (run 0)
  ok : ∀ t, ok (acts t) = true
  step : ∀ t, S.step (run t) (acts t) = some (run (t + 1))

theorem Endless.reach {ok : α → Bool} {run : ℕ → σ} {acts : ℕ → α}
    (h : S.Endless ok run acts) (t : ℕ) : S.Reach (run t) := by
  induction t with
  | zero => exact h.start
  | succ t ih => exact ih.next (h.step t)

end System

end Narshare
