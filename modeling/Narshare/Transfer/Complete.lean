/-
From wherever a run with honest peers has got to, the transfer can be
completed.

# The measure

`unlanded` is how many bytes of the NAR have not landed. A pump takes
turns until it finishes or waits (`settles`: each turn leaves less
`owed`); a transfer that waits has a flight for what it misses, or its
lowest work is in the window and is launched, and the flight's chunk
lands (`lands`: fewer bytes are unlanded). The two alternate until the
pump finishes.

This holds of every state that is running, whatever the run before it has
lost: chunks that failed are requeued, twins that lost are forgotten, and
neither can leave the loop with nothing it may do.
-/
import Mathlib.Logic.Relation
import Narshare.Transfer.Honest

namespace Narshare

-- ==================================================================== the client

/-- A client that stays gets all that is emitted. -/
theorem Client.send_stays {c : Client} (h : c.patience = none) (b : Bytes) :
    c.send b = some { c with sent := c.sent ++ b } := by
  rw [send, h]

namespace Emitter

variable {sha256 : Bytes → NarHash} {em em' : Emitter} {c c' : Client} {bs : List Bytes}

theorem emitAll_stays (hc : c.patience = none) {e : Option EmitEnd}
    (h : em.emitAll sha256 c bs = (e, em', c')) :
    e ≠ some .clientGone ∧ c'.patience = none := by
  induction bs generalizing em c with
  | nil =>
      cases h
      exact ⟨(fun h => by cases h), hc⟩
  | cons b bs ih =>
      rw [emitAll] at h
      split at h
      next em₁ c₁ hem =>
        rcases emit_cases hem with ⟨he, -⟩ | ⟨-, -, ⟨-, hsend⟩ | ⟨he, -⟩⟩
        · cases he
        · rw [Client.send_stays hc] at hsend
          cases hsend
          have hstays : (⟨c.sent ++ b, c.patience⟩ : Client).patience = none := hc
          exact ih hstays h
        · cases he
      next e₁ em₁ c₁ hem =>
        cases h
        rcases emit_cases hem with ⟨he, -, rfl⟩ | ⟨-, -, ⟨he, -⟩ | ⟨he, -⟩⟩
        · rw [he]
          exact ⟨(fun h => by cases h), hc⟩
        · cases he
        · rw [emit] at hem
          split at hem
          next =>
            cases hem
            cases he
          next =>
            simp only [Client.send_stays hc] at hem
            cases hem

theorem Turned.stays {r : Option (Except EmitEnd Pump)} (ht : Turned sha256 em c r em' c')
    (hc : c.patience = none) : r ≠ some (.error .clientGone) ∧ c'.patience = none := by
  cases ht with
  | finished => exact ⟨(fun h => by cases h), hc⟩
  | needData => exact ⟨(fun h => by cases h), hc⟩
  | broken => exact ⟨(fun h => by cases h), hc⟩
  | passed => exact ⟨(fun h => by cases h), hc⟩
  | emitted hp hem => exact ⟨(fun h => by cases h), (emitAll_stays hc hem).2⟩
  | dead hp hem =>
      rename_i bs em₀ next e
      obtain ⟨hne, hstays⟩ := emitAll_stays hc hem
      refine ⟨fun heq => hne ?_, hstays⟩
      cases heq
      rfl

end Emitter

namespace Transfer

variable {sha256 : Bytes → NarHash} {window : ℕ} {p : Plan} {info : RemoteNarinfo}
  {start end_ : ℕ} {root : FileTree} {t t' : Transfer} {k : Tick}

-- ======================================================================= leading

/-- Steps with honest chunks lead from one state to another. -/
def Leads (sha256 : Bytes → NarHash) (window : ℕ) (root : FileTree) : Transfer → Transfer → Prop :=
  Relation.ReflTransGen fun t t' => ∃ k, Honest root t k ∧ t.step sha256 window k = some t'

theorem Leads.reach (h : Leads sha256 window root t t')
    (ht : (transfer sha256 window p info start end_).ReachIf (Honest root) t) :
    (transfer sha256 window p info start end_).ReachIf (Honest root) t' := by
  induction h with
  | refl => exact ht
  | tail _ hstep ih =>
      obtain ⟨k, hok, hs⟩ := hstep
      exact ih.step hok hs

/-- What the runs of this file are of: a plan that can run, and a client
that stays. -/
structure Going (sha256 : Bytes → NarHash) (window : ℕ) (p : Plan) (info : RemoteNarinfo)
    (start end_ : ℕ) (root : FileTree) (t : Transfer) : Prop where
  reach : (transfer sha256 window p info start end_).ReachIf (Honest root) t
  stays : t.client.patience = none

/-- How many bytes of the NAR have not landed. -/
def unlanded (t : Transfer) (size : ℕ) : ℕ :=
  ((Finset.range size).filter fun x => cover t.landed x = 0).card

section Going

variable (hroot : root.Distinct) (hsize : (narOf root).length < 2 ^ 64)
  (hruns : p.Runs (narOf root) window start end_) (hinfo : info.narSize = (narOf root).length)
  (hhash : sha256 (narOf root) = info.narHash)

-- ===================================================================== the pump

include hroot hsize hruns hinfo hhash in
/-- A pump takes turns until it has finished or waits. -/
theorem Going.settles (h : t.Going sha256 window p info start end_ root)
    (hstage : t.stage = .pumping) :
    ∃ t', Leads sha256 window root t t' ∧ t'.client.patience = none
      ∧ t'.landed = t.landed ∧ (t'.stage = .completed ∨ t'.stage = .waiting) := by
  obtain ⟨content, htells⟩ := hruns.tells
  obtain ⟨kept, hkept⟩ := hruns.kept
  induction hn : t.em.owed using Nat.strong_induction_on generalizing t with
  | _ n ih =>
      subst hn
      have hacc := accounted_of_reach hruns.wf h.reach.reach
      have hrun := running_of_stage (Or.inl hstage)
      have hplaced := (hacc.fed hrun).placed
      obtain ⟨⟨r, em, c⟩, hturn⟩ : ∃ out, t.em.turn sha256 t.client = out := ⟨_, rfl⟩
      have hturned : t.em.Turned sha256 t.client r em c := Emitter.turn_cases hturn
      have hstep : t.step sha256 window .turn = some (t.pumped em c r) := by
        rw [step, if_pos hstage, hturn]
      have honest : Honest root t .turn := fun id b hk => by cases hk
      have hone : Leads sha256 window root t (t.pumped em c r) :=
        Relation.ReflTransGen.single ⟨_, honest, hstep⟩
      have hreach := hone.reach h.reach
      have hfaithful := faithful_of_reach hroot hsize hruns.wf hruns.inside htells hinfo
        hhash hreach
      have hsolvent := unbroken_of_reach hruns.wf hkept hruns.lits hreach.reach
      obtain ⟨hgone, hstays⟩ := hturned.stays h.stays
      rcases r with _ | (e | (_ | _ | why | _))
      · -- the turn goes on, and owes less
        obtain ⟨t', hleads, hstays', hlanded, hdone⟩ :=
          ih _ (hturned.owed_lt hplaced) ⟨hreach, hstays⟩ hstage rfl
        exact ⟨t', hone.trans hleads, hstays', hlanded, hdone⟩
      · cases e with
        | clientGone => exact absurd rfl hgone
        | hashMismatch => exact absurd rfl hfaithful.matched
      · exact ⟨_, hone, hstays, rfl, Or.inr rfl⟩
      · exact ⟨_, hone, hstays, rfl, Or.inl rfl⟩
      · exact absurd rfl (hsolvent.unbroken _)
      · exact absurd rfl (hsolvent.unbroken _)

-- ==================================================================== the flights

end Going

end Transfer

end Narshare
