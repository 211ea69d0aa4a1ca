/-
Hints: how news goes round the mesh without waiting for anyone's timer.

# Who tells whom

A node that has something new tells its peers to pull from it: its
exporter when it has written events, and each of its pull loops when a
pull has changed anything, so that news travels on. Every wake-up on the
way is a channel with one place, in which a second message is dropped: the
hint loop's, and one for each pull loop. Between them is a POST that may
get lost. A pull loop that is woken empties its channel first and pulls
afterwards.

# Nothing is stranded

Dropping the second message is fine because the first has not been acted
upon yet. `Noticed` lists where a notice can be, and `Hints.Kept` says
that wherever a node has something that a peer lacks, there is one, or the
last pull between the two did not bring everything, or was not made
(`missed`). So when nothing moves any more, what one has the other has
(`hints_settle`).

# And it ends

A notice is paid for by news: an export, or a pull that changed something.
`Hints.owed` counts what is still to be done about those there are, and
each step that is no news and no timer does some of it.

A round is one step here (Sync/Pull.lean), whatever origins it skips, and
a pull fails between rounds; who holds which lease, and what the catch-up
engine brings, is not part of this. A round that skipped an origin it was
behind on fell short.
-/
import Narshare.Index.Export
import Narshare.Lib.Ledger
import Narshare.Lib.Roster
import Narshare.Sync.Pull

namespace Narshare

variable (cd : Codec) (peers : Origin → List Origin)

-- ================================================================ the states

/-- `MAX_ROUNDS`. -/
def MAX_ROUNDS : ℕ := 64

/-- Where a `peer_loop` is. In `finished` the pull has returned. -/
inductive PullLoop
  | asleep
  | pulling (rounds : ℕ) (changed : Bool)
  | finished (changed : Bool)
deriving DecidableEq

/-- Every node's loops and channels, the posts under way, and the mesh.
`missed` is ghost state: no step reads it. -/
structure Hints where
  mesh : Mesh
  /-- The exporter has written and not yet hinted. -/
  wrote : Origin → Bool
  /-- The channel of the hint loop. -/
  hint : Origin → Bool
  /-- From whom to whom. -/
  posts : List (Origin × Origin)
  /-- A node's channel for its loop on a peer. -/
  kick : Origin → Origin → Bool
  loop : Origin → Origin → PullLoop
  missed : Origin → Origin → Bool

/-- Whether an update keeps the rounds going: it was deferred, or did not
connect. A suffix that brought events is the catch-up engine's. -/
def Outcome.again (up : OriginUpdate) : Outcome → Bool
  | .suffix (.applied _) =>
      up.truncated && (match up.body with
        | some (.suffix events) => events.isEmpty
        | _ => true)
  | .suffix .needSnapshot => up.truncated
  | _ => false

/-- An update of our own origin made us remint. -/
def Outcome.reminted : Outcome → Bool
  | .own reminted => reminted
  | _ => false

/-- Does the body hold a snapshot? -/
def OriginUpdate.isSnapshot (up : OriginUpdate) : Bool :=
  match up.body with
  | some (.snapshot _) => true
  | _ => false

/-- What a round of a pull came to. -/
structure RoundOutcome where
  changed : Bool
  again : Bool
  reminted : Bool
  /-- Nothing was held back or skipped. -/
  whole : Bool

namespace Mesh

/-- `pull_from_inner`, what a round leaves in its variables. -/
def roundOf (m : Mesh) (p : Pull) (b : RespondBundle) : RoundOutcome :=
  let outs := (m.roundBy cd peers p).2.1
  { changed := decide (0 < (mergeAttests cd (m.node p.asker) b.attests).1)
      || outs.any Outcome.changed
    again := b.attsNext.isSome || b.origins.any OriginUpdate.isSnapshot
      || (b.origins.zip outs).any fun u => u.2.again u.1
    reminted := outs.any Outcome.reminted
    whole := b.whole }

end Mesh

namespace Hints

/-- What can happen; `available` says whose breaker is closed. -/
inductive Act
  | exportOwn (n : Origin) (attests : List Attestation) (holds : List HoldOp)
  | tell (n : Origin)
  | fanOut (n : Origin) (available : List Origin)
  | deliver (i : ℕ)
  | discard (i : ℕ)
  | kicked (n p : Origin) (available : Bool)
  | timer (n p : Origin) (available : Bool)
  | round (n p : Origin) (cursor : Bytes) (skip : List Origin) (budget nanos : ℕ)
  | broke (n p : Origin)
  | rest (n p : Origin)
  | upkeep (a : Mesh.Act)

/-- `hint_peers`: a second message is dropped. -/
def hintPeers (s : Hints) (n : Origin) : Hints := { s with hint := Function.update s.hint n true }

/-- `hint_peers`, if there is anything to tell. -/
def hintIf (s : Hints) (news : Bool) (n : Origin) : Hints := if news then s.hintPeers n else s

/-- Where a pull loop goes. -/
def setLoop (s : Hints) (n p : Origin) (l : PullLoop) : Hints :=
  { s with loop := update₂ s.loop n p l }

/-- Whether the channel of a pull loop is full. -/
def setKick (s : Hints) (n p : Origin) (full : Bool) : Hints :=
  { s with kick := update₂ s.kick n p full }

/-- Whether the last pull of `n` from `p` may have left something. -/
def setMissed (s : Hints) (n p : Origin) (missed : Bool) : Hints :=
  { s with missed := update₂ s.missed n p missed }

/-- What `n` has got, it has told nobody. -/
def missAll (s : Hints) (n : Origin) : Hints :=
  { s with missed := fun q p => s.missed q p || decide (p = n) }

/-- What a task does, up to where it waits for something. -/
def step (s : Hints) : Act → Option Hints
  -- `own_db_loop`: `export_own_db`
  | .exportOwn n attests holds =>
      if s.wrote n then none
      else
        (s.mesh.step cd peers (.exportOps n attests holds)).map fun m =>
          match (exportOps cd (nodeConfig peers n) (s.mesh.node n) attests holds).1 with
          | .ok events =>
              { s with mesh := m, wrote := Function.update s.wrote n (decide (0 < events)) }
          | .error _ => { s with mesh := m }.missAll n
  -- `own_db_loop`: `hint_peers`
  | .tell n =>
      if s.wrote n then
        some ({ s with wrote := Function.update s.wrote n false }.hintPeers n)
      else none
  -- `hint_loop`
  | .fanOut n available =>
      if s.hint n then
        some
          { s with
            hint := Function.update s.hint n false
            posts := s.posts ++ ((peers n).filter (· ∈ available)).map fun p => (n, p)
            missed := fun q p => s.missed q p || decide (p = n ∧ q ∉ available) }
      else none
  -- `handle_hint`
  | .deliver i =>
      s.posts[i]?.map fun post =>
        let s := { s with posts := s.posts.eraseIdx i }
        if post.1 ∈ peers post.2 then s.setKick post.2 post.1 true else s
  | .discard i =>
      s.posts[i]?.map fun post =>
        { s with posts := s.posts.eraseIdx i }.setMissed post.2 post.1 true
  -- `peer_loop`: the select, and the test of the breaker
  | .kicked n p available =>
      if s.loop n p = .asleep ∧ s.kick n p then
        let s := s.setKick n p false
        some (if available then s.setLoop n p (.pulling 0 false) else s.setMissed n p true)
      else none
  | .timer n p available =>
      if s.loop n p = .asleep ∧ p ∈ peers n ∧ p ≠ n then
        some (if available then s.setLoop n p (.pulling 0 false) else s)
      else none
  -- `pull_from_inner`, one round
  | .round n p cursor skip budget nanos =>
      match s.loop n p with
      | .pulling rounds changed =>
          if p = n ∨ budget = 0 then none
          else
            let pull : Pull := ⟨n, p, cursor, skip, budget, nanos⟩
            (s.mesh.bundle cd peers pull).map fun b =>
              let round := s.mesh.roundOf cd peers pull b
              let s := { s with mesh := s.mesh.pull cd peers pull }
              let s := s.hintIf round.reminted n
              if round.again && decide (rounds + 1 < MAX_ROUNDS) then
                s.setLoop n p (.pulling (rounds + 1) (changed || round.changed))
              else
                (s.setMissed n p !round.whole).setLoop n p (.finished (changed || round.changed))
      | _ => none
  -- `pull_from`: an error; what has changed is forgotten
  | .broke n p =>
      match s.loop n p with
      | .pulling _ changed =>
          let s := if changed then s.missAll n else s
          some ((s.setMissed n p true).setLoop n p .asleep)
      | _ => none
  -- `peer_loop`: after the pull
  | .rest n p =>
      match s.loop n p with
      | .finished changed =>
          some ((s.hintIf changed n).setLoop n p .asleep)
      | _ => none
  -- the store's other tasks
  | .upkeep a =>
      match a with
      | .mergeAttests _ _ | .recordWatermarks _ _ _ | .compact _ =>
          (s.mesh.step cd peers a).map fun m => { s with mesh := m }
      | _ => none

/-- Every node's loops begin with a pull. -/
def start (m : Mesh) : Hints where
  mesh := m
  wrote _ := false
  hint _ := false
  posts := []
  kick _ _ := false
  loop n p := if p ∈ peers n ∧ p ≠ n then .pulling 0 false else .asleep
  missed _ _ := false

/-- Is it an act of these nodes? -/
def Act.among (members : Finset Origin) : Act → Bool
  | .exportOwn n _ _ | .tell n | .fanOut n _ => decide (n ∈ members)
  | .kicked n p _ | .timer n p _ | .round n p _ _ _ _ | .broke n p | .rest n p =>
      decide (n ∈ members ∧ p ∈ members)
  | .deliver _ | .discard _ | .upkeep _ => true

end Hints

/-- The hints as a transition system, over any state of the mesh. -/
def hintsSystem (members : Finset Origin) : System Hints Hints.Act where
  init s := ∃ m, (meshSystem cd peers).Reach m ∧ s = Hints.start peers m
  step s a := if a.among members then s.step cd peers a else none

variable {cd peers}

@[simp] theorem Hints.mesh_hintIf (s : Hints) (news : Bool) (n : Origin) :
    (s.hintIf news n).mesh = s.mesh := by
  cases news <;> rfl

@[simp] theorem Hints.wrote_hintIf (s : Hints) (news : Bool) (n : Origin) :
    (s.hintIf news n).wrote = s.wrote := by
  cases news <;> rfl

@[simp] theorem Hints.posts_hintIf (s : Hints) (news : Bool) (n : Origin) :
    (s.hintIf news n).posts = s.posts := by
  cases news <;> rfl

@[simp] theorem Hints.kick_hintIf (s : Hints) (news : Bool) (n : Origin) :
    (s.hintIf news n).kick = s.kick := by
  cases news <;> rfl

@[simp] theorem Hints.loop_hintIf (s : Hints) (news : Bool) (n : Origin) :
    (s.hintIf news n).loop = s.loop := by
  cases news <;> rfl

@[simp] theorem Hints.missed_hintIf (s : Hints) (news : Bool) (n : Origin) :
    (s.hintIf news n).missed = s.missed := by
  cases news <;> rfl

theorem Hints.hint_hintIf (s : Hints) (news : Bool) (n x : Origin) :
    (s.hintIf news n).hint x = (s.hint x || (news && decide (x = n))) := by
  cases news with
  | false => simp [Hints.hintIf]
  | true =>
      by_cases hx : x = n
      · simp [Hints.hintIf, Hints.hintPeers, hx]
      · simp [Hints.hintIf, Hints.hintPeers, hx]

-- ============================================================ what a node knows

section Knows

variable {m : Mesh} {members : Finset Origin}

/-- Members are one another's peers. -/
theorem Agreed.mem_peers (h : Agreed peers members) {n o : Origin} (hn : n ∈ members)
    (ho : o ∈ members) (hne : o ≠ n) : o ∈ peers n := by
  have hset := Config.mem_originSet.mp ((h n hn o).mpr ho)
  exact hset.resolve_left hne

/-- An export moves what the node knows of itself, and nothing else. -/
theorem knows_exportOps {n : Origin} {attests : List Attestation} {holds : List HoldOp}
    {m' : Mesh} (hs : m.step cd peers (.exportOps n attests holds) = some m') (n' o : Origin) :
    m.knows n' o ≤ m'.knows n' o
      ∧ (n' ≠ n ∨ attests.length + holds.length = 0 → m'.knows n' o = m.knows n' o) := by
  cases hs
  obtain ⟨-, hout⟩ := exportOps_exported cd (nodeConfig peers n) (m.node n) attests holds
  have hlen : (exportList attests holds).length = attests.length + holds.length := by
    rw [exportList, List.length_append, List.length_map, List.length_map]
  by_cases hn : n' = n
  · subst hn
    simp only [Mesh.knows, Function.update_self]
    by_cases ho : o = n'
    · subst ho
      have hgen := hout.generation
      have hseq := hout.seq
      rw [nodeConfig_selfName] at hgen hseq
      refine ⟨Prod.Lex.toLex_le_toLex.mpr (Or.inr ⟨hgen.symm, ?_⟩), fun hnone => ?_⟩
      · show _ ≤ _
        rw [hseq]
        exact Nat.le_add_right _ _
      · obtain hne | hnone := hnone
        · exact absurd rfl hne
        · rw [Clock.place, Clock.place, hgen, hseq, hlen, hnone, Nat.add_zero]
    · have hsame := congrArg (fun r : Replica => r.clock.place) (hout.others o ho)
      exact ⟨hsame.symm.le, fun _ => hsame⟩
  · simp [Mesh.knows, Function.update_of_ne hn]

/-- What a replica keeps under another store at the node, the node knows. -/
theorem knows_update {n : Origin} {s' : Store}
    (h : ∀ o, (s'.db.clock o).place = ((m.node n).db.clock o).place) (n' o : Origin) :
    Mesh.knows { m with node := Function.update m.node n s' } n' o = m.knows n' o := by
  by_cases hn : n' = n
  · subst hn
    simp only [Mesh.knows, Function.update_self]
    exact h o
  · simp only [Mesh.knows, Function.update_of_ne hn]

end Knows

-- ================================================================== where a notice is

namespace PullLoop

/-- It has changed something and will tell. -/
def changed : PullLoop → Bool
  | .asleep => false
  | .pulling _ changed => changed
  | .finished changed => changed

/-- It has yet to ask. -/
def asks : PullLoop → Bool
  | .pulling _ _ => true
  | _ => false

end PullLoop

/-- Where a notice can be that has `n` pull from `p`. -/
inductive Noticed (members : Finset Origin) (s : Hints) (n p : Origin) : Prop
  | wrote : s.wrote p = true → Noticed members s n p
  | changed (q : Origin) : q ∈ members → (s.loop p q).changed = true → Noticed members s n p
  | hint : s.hint p = true → Noticed members s n p
  | post : (p, n) ∈ s.posts → Noticed members s n p
  | kick : s.kick n p = true → Noticed members s n p
  | asks : (s.loop n p).asks = true → Noticed members s n p

/-- What one member knows the other knows too, or will be told to ask for,
unless the last pull between them fell short. -/
def Told (members : Finset Origin) (s : Hints) (n p : Origin) : Prop :=
  CaughtUp members s.mesh n p ∨ Noticed members s n p ∨ s.missed n p = true

namespace Hints

/-- What every step keeps. -/
structure Kept (members : Finset Origin) (s : Hints) : Prop where
  inv : s.mesh.Inv
  told : ∀ n ∈ members, ∀ p ∈ members, n ≠ p → Told members s n p

end Hints

section Frame

variable {members : Finset Origin} {s s' : Hints} {n p : Origin}

/-- A notice that is not taken away stays. -/
theorem Noticed.stay (h : Noticed members s n p) (hwrote : s.wrote p = true → s'.wrote p = true)
    (hloop : ∀ q, (s.loop p q).changed = true → (s'.loop p q).changed = true)
    (hhint : s.hint p = true → s'.hint p = true) (hpost : (p, n) ∈ s.posts → (p, n) ∈ s'.posts)
    (hkick : s.kick n p = true → s'.kick n p = true)
    (hasks : (s.loop n p).asks = true → (s'.loop n p).asks = true) : Noticed members s' n p := by
  cases h with
  | wrote hs => exact .wrote (hwrote hs)
  | changed q hq hs => exact .changed q hq (hloop q hs)
  | hint hs => exact .hint (hhint hs)
  | post hs => exact .post (hpost hs)
  | kick hs => exact .kick (hkick hs)
  | asks hs => exact .asks (hasks hs)

/-- With the same mesh, what is not taken away stays. -/
theorem Told.stay (h : Told members s n p) (hmesh : s'.mesh = s.mesh)
    (hnote : Noticed members s n p → Told members s' n p)
    (hmissed : s.missed n p = true → s'.missed n p = true) : Told members s' n p := by
  obtain h | h | h := h
  · exact .inl (hmesh ▸ h)
  · exact hnote h
  · exact .inr (.inr (hmissed h))

end Frame

-- ================================================================== one step

namespace Hints.Kept

variable {members : Finset Origin} {s s' : Hints}

theorem exportOwn (h : s.Kept members) {n : Origin} {attests : List Attestation}
    {holds : List HoldOp} (hs : s.step cd peers (.exportOwn n attests holds) = some s') :
    s'.Kept members := by
  obtain ⟨hok, -⟩ := exportOps_exported cd (nodeConfig peers n) (s.mesh.node n) attests holds
  rw [Hints.step] at hs
  split at hs
  next => cases hs
  next hwrote =>
    obtain ⟨m, hm, rfl⟩ := Option.map_eq_some_iff.mp hs
    rw [hok]
    refine ⟨h.inv.step hm, fun a ha p hp hne => ?_⟩
    have hknows := knows_exportOps hm
    by_cases hsame : p ≠ n ∨ attests.length + holds.length = 0
    · obtain htold | hnote | hmissed := h.told a ha p hp hne
      · exact .inl (htold.mono (fun o _ => (hknows a o).1) fun o _ => ((hknows p o).2 hsame).le)
      · refine .inr (.inl (hnote.stay (fun hw => ?_) (fun _ hq => hq) id id id id))
        have hp : p ≠ n := fun heq => by
          rw [heq] at hw
          exact hwrote hw
        exact (Function.update_of_ne hp _ _).trans hw
      · exact .inr (.inr hmissed)
    · -- the exporter has something new, and will tell
      push Not at hsame
      obtain ⟨rfl, hpos⟩ := hsame
      refine .inr (.inl (.wrote ?_))
      exact (Function.update_self _ _ _).trans (decide_eq_true (Nat.pos_of_ne_zero hpos))

theorem tell (h : s.Kept members) {n : Origin} (hs : s.step cd peers (.tell n) = some s') :
    s'.Kept members := by
  rw [Hints.step] at hs
  split at hs
  next hwrote =>
    cases hs
    refine ⟨h.inv, fun a ha p hp hne => ?_⟩
    refine (h.told a ha p hp hne).stay rfl (fun hnote => .inr (.inl ?_)) id
    by_cases heq : p = n
    · subst heq
      exact .hint (Function.update_self _ _ _)
    · exact hnote.stay (fun hw => (Function.update_of_ne heq _ _).trans hw) (fun _ hq => hq)
        (fun hh => (Function.update_of_ne heq _ _).trans hh) id id id
  next => cases hs

theorem fanOut (h : s.Kept members) (hagree : Agreed peers members) {n : Origin}
    {available : List Origin} (hs : s.step cd peers (.fanOut n available) = some s') :
    s'.Kept members := by
  rw [Hints.step] at hs
  split at hs
  next hhint =>
    cases hs
    refine ⟨h.inv, fun a ha p hp hne => ?_⟩
    refine (h.told a ha p hp hne).stay rfl (fun hnote => ?_) fun hm => Bool.or_eq_true_iff.mpr
      (.inl hm)
    by_cases heq : p = n
    · subst heq
      by_cases hav : a ∈ available
      · refine .inr (.inl (.post (List.mem_append_right _ (List.mem_map.mpr ⟨a, ?_, rfl⟩))))
        exact List.mem_filter.mpr ⟨hagree.mem_peers hp ha hne, decide_eq_true hav⟩
      · exact .inr (.inr (Bool.or_eq_true_iff.mpr (.inr (decide_eq_true ⟨rfl, hav⟩))))
    · exact .inr (.inl (hnote.stay id (fun _ hq => hq)
        (fun hh => (Function.update_of_ne heq _ _).trans hh) (List.mem_append_left _) id id))
  next => cases hs

theorem deliver (h : s.Kept members) (hagree : Agreed peers members) {i : ℕ}
    (hs : s.step cd peers (.deliver i) = some s') : s'.Kept members := by
  obtain ⟨post, hpost, rfl⟩ := Option.map_eq_some_iff.mp hs
  obtain ⟨q, b⟩ := post
  dsimp only
  by_cases hq : q ∈ peers b
  · rw [if_pos hq]
    refine ⟨h.inv, fun a ha p hp hne => ?_⟩
    refine (h.told a ha p hp hne).stay rfl (fun hnote => .inr (.inl ?_)) id
    by_cases heq : (p, a) = (q, b)
    · cases heq
      exact .kick (update₂_self _ _ _ _)
    · refine hnote.stay id (fun _ hq => hq) id (fun hmem => ?_) (fun hk => ?_) id
      · exact (mem_eraseIdx_or hpost hmem).resolve_left heq
      · refine (update₂_of_ne _ _ fun hsame => heq ?_).trans hk
        rw [hsame.1, hsame.2]
  · rw [if_neg hq]
    refine ⟨h.inv, fun a ha p hp hne => ?_⟩
    refine (h.told a ha p hp hne).stay rfl (fun hnote => .inr (.inl ?_)) id
    refine hnote.stay id (fun _ hq => hq) id (fun hmem => ?_) id id
    refine (mem_eraseIdx_or hpost hmem).resolve_left fun heq => hq ?_
    cases heq
    exact hagree.mem_peers ha hp hne.symm

theorem discard (h : s.Kept members) {i : ℕ} (hs : s.step cd peers (.discard i) = some s') :
    s'.Kept members := by
  obtain ⟨post, hpost, rfl⟩ := Option.map_eq_some_iff.mp hs
  obtain ⟨q, b⟩ := post
  refine ⟨h.inv, fun a ha p hp hne => ?_⟩
  by_cases heq : (p, a) = (q, b)
  · cases heq
    exact .inr (.inr (update₂_self _ _ _ _))
  · have hsame : ¬ (a = b ∧ p = q) := fun hsame => heq (by rw [hsame.1, hsame.2])
    refine (h.told a ha p hp hne).stay rfl (fun hnote => .inr (.inl ?_))
      fun hm => (update₂_of_ne _ _ hsame).trans hm
    exact hnote.stay id (fun _ hq => hq) id
      (fun hmem => (mem_eraseIdx_or hpost hmem).resolve_left heq) id id

/-- A loop that was asleep had nothing to tell. -/
theorem wake (h : s.Kept members) {n q : Origin} (hasleep : s.loop n q = .asleep) :
    (s.setLoop n q (.pulling 0 false)).Kept members := by
  refine ⟨h.inv, fun a ha p hp hne => ?_⟩
  refine (h.told a ha p hp hne).stay rfl (fun hnote => .inr (.inl ?_)) id
  refine hnote.stay id (fun r hr => ?_) id id id (fun hasks => ?_)
  · by_cases hsame : p = n ∧ r = q
    · rw [hsame.1, hsame.2, hasleep] at hr
      cases hr
    · exact (congrArg _ (update₂_of_ne _ _ hsame)).trans hr
  · by_cases hsame : a = n ∧ p = q
    · rw [hsame.1, hsame.2, hasleep] at hasks
      cases hasks
    · exact (congrArg _ (update₂_of_ne _ _ hsame)).trans hasks

theorem kicked (h : s.Kept members) {n q : Origin} {available : Bool}
    (hs : s.step cd peers (.kicked n q available) = some s') : s'.Kept members := by
  rw [Hints.step] at hs
  split at hs
  next hguard =>
    obtain ⟨hasleep, -⟩ := hguard
    cases hs
    cases available with
    | false =>
        refine ⟨h.inv, fun a ha p hp hne => ?_⟩
        by_cases hsame : a = n ∧ p = q
        · rw [hsame.1, hsame.2]
          exact .inr (.inr (update₂_self _ _ _ _))
        · refine (h.told a ha p hp hne).stay rfl (fun hnote => .inr (.inl ?_))
            fun hm => (update₂_of_ne _ _ hsame).trans hm
          exact hnote.stay id (fun _ hr => hr) id id
            (fun hk => (update₂_of_ne _ _ hsame).trans hk) id
    | true =>
        refine ⟨h.inv, fun a ha p hp hne => ?_⟩
        by_cases hsame : a = n ∧ p = q
        · rw [hsame.1, hsame.2]
          refine .inr (.inl (.asks ?_))
          exact congrArg PullLoop.asks (update₂_self _ _ _ _)
        · have hwoken := (h.wake hasleep).told a ha p hp hne
          obtain hc | hnote | hm := hwoken
          · exact .inl hc
          · refine .inr (.inl (hnote.stay id (fun _ hr => hr) id id (fun hk => ?_) id))
            exact (update₂_of_ne _ _ hsame).trans hk
          · exact .inr (.inr hm)
  next => cases hs

theorem timer (h : s.Kept members) {n q : Origin} {available : Bool}
    (hs : s.step cd peers (.timer n q available) = some s') : s'.Kept members := by
  rw [Hints.step] at hs
  split at hs
  next hguard =>
    cases hs
    cases available with
    | false => exact h
    | true => exact h.wake hguard.1
  next => cases hs

/-- After a round the others are told what they were, when the loop that
made it still knows whether anything has changed. -/
theorem of_round (h : s.Kept members) (hagree : Agreed peers members) {pull : Pull}
    {b : RespondBundle} {rounds : ℕ} {changed : Bool} {l : PullLoop}
    (hasker : pull.asker ∈ members) (hanswerer : pull.answerer ∈ members)
    (hbudget : 0 < pull.budget) (hb : s.mesh.bundle cd peers pull = some b)
    (hloop : s.loop pull.asker pull.answerer = .pulling rounds changed)
    (hmesh : s'.mesh = s.mesh.pull cd peers pull) (hwrote : s'.wrote = s.wrote)
    (hhint : ∀ x, s.hint x = true → s'.hint x = true) (hposts : s'.posts = s.posts)
    (hkick : s'.kick = s.kick) (hloop' : s'.loop = update₂ s.loop pull.asker pull.answerer l)
    (hl : l.changed = (changed || (s.mesh.roundOf cd peers pull b).changed))
    (hmissed : ∀ a p, ¬ (a = pull.asker ∧ p = pull.answerer) → s'.missed a p = s.missed a p)
    (hself : Told members s' pull.asker pull.answerer) : s'.Kept members := by
  refine ⟨hmesh ▸ h.inv.pull pull, fun a ha p hp hap => ?_⟩
  by_cases hsame : a = pull.asker ∧ p = pull.answerer
  · rw [hsame.1, hsame.2]
    exact hself
  have hgrows : ∀ o ∈ members, s.mesh.knows a o ≤ s'.mesh.knows a o := fun o ho => by
    rw [hmesh]
    exact knows_pull_le h.inv hagree hasker hbudget hb a ho
  -- a notice that the loop itself has got nothing to tell of
  have hstay : (p = pull.asker → l.changed = changed) → Noticed members s a p →
      Noticed members s' a p := by
    intro hquiet hnote
    refine hnote.stay (fun x => hwrote ▸ x) (fun r hr => ?_) (hhint p) (fun x => hposts ▸ x)
      (fun x => hkick ▸ x) (fun x => ?_)
    · rw [hloop']
      by_cases hpr : p = pull.asker ∧ r = pull.answerer
      · obtain ⟨rfl, rfl⟩ := hpr
        rw [hloop] at hr
        rw [update₂_self, hquiet rfl]
        exact hr
      · rw [update₂_of_ne _ _ hpr]
        exact hr
    · rw [hloop', update₂_of_ne _ _ hsame]
      exact x
  by_cases hp' : p = pull.asker
  · cases hc : l.changed with
    | true =>
        refine .inr (.inl (.changed pull.answerer hanswerer ?_))
        rw [hp', hloop', update₂_self]
        exact hc
    | false =>
        rw [hc] at hl
        obtain ⟨hchanged, hround⟩ := Bool.or_eq_false_iff.mp hl.symm
        obtain hcaught | hnote | hmiss := h.told a ha p hp hap
        · refine .inl (hcaught.mono hgrows fun o ho => ?_)
          rw [hmesh, hp']
          have hquiet : ∀ out ∈ (s.mesh.roundBy cd peers pull).2.1, out.changed = false :=
            fun out hout => Bool.eq_false_iff.mpr
              (List.any_eq_false.mp (Bool.or_eq_false_iff.mp hround).2 out hout)
          exact (knows_pull_of_unchanged h.inv hagree hasker hbudget hb hquiet ho).le
        · exact .inr (.inl (hstay (fun _ => hc.trans hchanged.symm) hnote))
        · exact .inr (.inr ((hmissed a p hsame).trans hmiss))
  · obtain hcaught | hnote | hmiss := h.told a ha p hp hap
    · refine .inl (hcaught.mono hgrows fun o _ => ?_)
      rw [hmesh, knows_pull_of_ne _ hp']
    · exact .inr (.inl (hstay (fun heq => absurd heq hp') hnote))
    · exact .inr (.inr ((hmissed a p hsame).trans hmiss))

theorem round (h : s.Kept members) (hagree : Agreed peers members) {n q : Origin}
    {cursor : Bytes} {skip : List Origin} {budget nanos : ℕ} (hn : n ∈ members) (hq : q ∈ members)
    (hs : s.step cd peers (.round n q cursor skip budget nanos) = some s') : s'.Kept members := by
  unfold Hints.step at hs
  dsimp only at hs
  split at hs
  next rounds changed hloop =>
    split at hs
    next => cases hs
    next hguard =>
      push Not at hguard
      obtain ⟨hne, hbudget⟩ := hguard
      have hpos : 0 < budget := Nat.pos_of_ne_zero hbudget
      obtain ⟨b, hb, rfl⟩ := Option.map_eq_some_iff.mp hs
      have hhint : ∀ (m : Mesh) (news : Bool) (x : Origin), s.hint x = true →
          ({ s with mesh := m }.hintIf news n).hint x = true := by
        intro m news x hx
        rw [Hints.hint_hintIf]
        exact Bool.or_eq_true_iff.mpr (.inl hx)
      split
      next => -- there is another round
        refine h.of_round hagree hn hq hpos hb hloop
          (l := .pulling (rounds + 1) (changed
            || (s.mesh.roundOf cd peers ⟨n, q, cursor, skip, budget, nanos⟩ b).changed))
          (by simp [setLoop]) (by simp [setLoop]) (hhint _ _) (by simp [setLoop])
          (by simp [setLoop]) (by simp [setLoop]) rfl
          (fun a p _ => by simp [setLoop]) (.inr (.inl (.asks ?_)))
        exact congrArg PullLoop.asks (update₂_self _ _ _ _)
      next => -- it is the last
        refine h.of_round hagree hn hq hpos hb hloop
          (l := .finished (changed
            || (s.mesh.roundOf cd peers ⟨n, q, cursor, skip, budget, nanos⟩ b).changed))
          (by simp [setLoop, setMissed]) (by simp [setLoop, setMissed]) (hhint _ _)
          (by simp [setLoop, setMissed])
          (by simp [setLoop, setMissed]) (by simp [setLoop, setMissed]) rfl (fun a p hap => ?_) ?_
        · refine (update₂_of_ne _ _ hap).trans ?_
          simp
        · cases hwhole : (s.mesh.roundOf cd peers ⟨n, q, cursor, skip, budget, nanos⟩ b).whole with
          | true =>
              have hcaught := caughtUp_pull h.inv hagree hn hq hne hpos hb hwhole
              refine .inl ?_
              simpa [setLoop, setMissed] using hcaught
          | false => exact .inr (.inr (update₂_self _ _ _ _))
  next => cases hs

/-- What has changed is told, or nobody is said to have been told. -/
theorem broke (h : s.Kept members) {n q : Origin}
    (hs : s.step cd peers (.broke n q) = some s') : s'.Kept members := by
  unfold Hints.step at hs
  dsimp only at hs
  split at hs
  next rounds changed hloop =>
    cases hs
    refine ⟨?_, fun a ha p hp hne => ?_⟩
    · cases changed <;> exact h.inv
    by_cases hsame : a = n ∧ p = q
    · rw [hsame.1, hsame.2]
      exact .inr (.inr (update₂_self _ _ _ _))
    by_cases hlost : p = n ∧ changed = true
    · obtain ⟨rfl, rfl⟩ := hlost
      refine .inr (.inr ((update₂_of_ne _ _ hsame).trans ?_))
      exact Bool.or_eq_true_iff.mpr (.inr (decide_eq_true rfl))
    have hstay : ∀ t : Hints, t.wrote = s.wrote → t.hint = s.hint → t.posts = s.posts →
        t.kick = s.kick → t.loop = update₂ s.loop n q .asleep → Noticed members s a p →
        Noticed members t a p := by
      intro t hw hh hp' hk hl hnote
      refine hnote.stay (fun x => hw ▸ x) (fun r hr => ?_) (fun x => hh ▸ x) (fun x => hp' ▸ x)
        (fun x => hk ▸ x) (fun x => ?_)
      · rw [hl]
        by_cases hpr : p = n ∧ r = q
        · obtain ⟨rfl, rfl⟩ := hpr
          rw [hloop] at hr
          exact absurd ⟨rfl, hr⟩ hlost
        · rw [update₂_of_ne _ _ hpr]
          exact hr
      · rw [hl, update₂_of_ne _ _ hsame]
        exact x
    cases changed with
    | false =>
        exact (h.told a ha p hp hne).stay rfl
          (fun hnote => .inr (.inl (hstay _ rfl rfl rfl rfl rfl hnote)))
          fun hm => (update₂_of_ne _ _ hsame).trans hm
    | true =>
        refine (h.told a ha p hp hne).stay rfl
          (fun hnote => .inr (.inl (hstay _ rfl rfl rfl rfl rfl hnote))) fun hm => ?_
        exact (update₂_of_ne _ _ hsame).trans (Bool.or_eq_true_iff.mpr (.inl hm))
  next => cases hs

theorem rest (h : s.Kept members) {n q : Origin}
    (hs : s.step cd peers (.rest n q) = some s') : s'.Kept members := by
  unfold Hints.step at hs
  dsimp only at hs
  split at hs
  next changed hloop =>
    cases hs
    refine ⟨by simpa [setLoop] using h.inv, fun a ha p hp hne => ?_⟩
    refine (h.told a ha p hp hne).stay (by simp [setLoop]) (fun hnote => .inr (.inl ?_))
      (by simp [setLoop])
    by_cases htell : p = n ∧ changed = true
    · refine .hint ?_
      obtain ⟨rfl, rfl⟩ := htell
      exact Function.update_self _ _ _
    · refine hnote.stay (by simp [setLoop]) (fun r hr => ?_) (fun hh => ?_) (by simp [setLoop])
        (by simp [setLoop]) (fun hasks => ?_)
      · by_cases hpr : p = n ∧ r = q
        · obtain ⟨rfl, rfl⟩ := hpr
          rw [hloop] at hr
          exact absurd ⟨rfl, hr⟩ htell
        · refine (congrArg _ (update₂_of_ne _ _ hpr)).trans ?_
          simpa using hr
      · refine (Hints.hint_hintIf s changed n p).trans ?_
        exact Bool.or_eq_true_iff.mpr (.inl hh)
      · by_cases hsame : a = n ∧ p = q
        · rw [hsame.1, hsame.2, hloop] at hasks
          cases hasks
        · refine (congrArg _ (update₂_of_ne _ _ hsame)).trans ?_
          simpa using hasks
  next => cases hs

theorem upkeep (h : s.Kept members) {a : Mesh.Act}
    (hs : s.step cd peers (.upkeep a) = some s') : s'.Kept members := by
  have hkeep : ∀ m, s.mesh.step cd peers a = some m → (∀ n o, m.knows n o = s.mesh.knows n o) →
      Kept members { s with mesh := m } := by
    intro m hm hknows
    refine ⟨h.inv.step hm, fun a ha p hp hne => ?_⟩
    obtain htold | hnote | hmissed := h.told a ha p hp hne
    · exact .inl (htold.mono (fun o _ => (hknows a o).ge) fun o _ => (hknows p o).le)
    · exact .inr (.inl (hnote.stay id (fun _ hq => hq) id id id id))
    · exact .inr (.inr hmissed)
  cases a with
  | mergeAttests n attests =>
    change (s.mesh.step cd peers (.mergeAttests n attests)).map
      (fun m => { s with mesh := m }) = _ at hs
    obtain ⟨m, hm, rfl⟩ := Option.map_eq_some_iff.mp hs
    refine hkeep m hm fun n' o => ?_
    cases hm
    exact knows_update (fun o => congrArg (fun r : Replica => r.clock.place)
      (replica_mergeAttests (s.mesh.node n) attests o)) n' o
  | recordWatermarks n peer clocks =>
    change (s.mesh.step cd peers (.recordWatermarks n peer clocks)).map
      (fun m => { s with mesh := m }) = _ at hs
    obtain ⟨m, hm, rfl⟩ := Option.map_eq_some_iff.mp hs
    refine hkeep m hm fun n' o => ?_
    cases hm
    exact knows_update (fun o => congrArg (fun r : Replica => r.clock.place)
      (replica_recordWatermarks (nodeConfig peers n) (s.mesh.node n) peer clocks o)) n' o
  | compact n =>
    change (s.mesh.step cd peers (.compact n)).map (fun m => { s with mesh := m }) = _ at hs
    obtain ⟨m, hm, rfl⟩ := Option.map_eq_some_iff.mp hs
    refine hkeep m hm fun n' o => ?_
    cases hm
    refine knows_update (fun o => ?_) n' o
    refine compact_preserves _
      (P := fun r => r.clock.place = ((s.mesh.node n).db.clock o).place) (s.mesh.node n)
      (fun r hr => ?_) rfl
    obtain ⟨hgen, hseq⟩ := r.compactTo_clock
      (compactFloor (nodeConfig peers n) (fun peer => (s.mesh.node n).db.watermark peer o) r.clock)
    rw [← hr, Clock.place, Clock.place, hgen, hseq]
  | _ => cases hs

theorem step (h : s.Kept members) (hagree : Agreed peers members) {a : Hints.Act}
    (hs : (hintsSystem cd peers members).step s a = some s') : s'.Kept members := by
  change (if a.among members then s.step cd peers a else none) = some s' at hs
  split at hs
  next hamong =>
    cases a with
    | exportOwn n attests holds => exact h.exportOwn hs
    | tell n => exact h.tell hs
    | fanOut n available => exact h.fanOut hagree hs
    | deliver i => exact h.deliver hagree hs
    | discard i => exact h.discard hs
    | kicked n q available => exact h.kicked hs
    | timer n q available => exact h.timer hs
    | round n q cursor skip budget nanos =>
        obtain ⟨hn, hq⟩ := of_decide_eq_true hamong
        exact h.round hagree hn hq hs
    | broke n q => exact h.broke hs
    | rest n q => exact h.rest hs
    | upkeep a => exact h.upkeep hs
  next => cases hs

theorem reach (hagree : Agreed peers members) (h : (hintsSystem cd peers members).Reach s) :
    s.Kept members := by
  refine System.Reach.invariant (fun s hs => ?_) (fun s a s' _ hk hs => hk.step hagree hs) h
  obtain ⟨m, hm, rfl⟩ := hs
  refine ⟨Mesh.Inv.reach hm, fun n hn p hp hne => .inr (.inl (.asks ?_))⟩
  show PullLoop.asks (if p ∈ peers n ∧ p ≠ n then _ else _) = true
  rw [if_pos ⟨hagree.mem_peers hn hp hne.symm, hne.symm⟩]
  rfl

end Hints.Kept

-- ================================================================== at rest

/-- No notice is anywhere, and nobody pulls. -/
structure Quiet (members : Finset Origin) (s : Hints) : Prop where
  wrote : ∀ n ∈ members, s.wrote n = false
  hint : ∀ n ∈ members, s.hint n = false
  posts : s.posts = []
  kick : ∀ n ∈ members, ∀ p ∈ members, s.kick n p = false
  loop : ∀ n ∈ members, ∀ p ∈ members, s.loop n p = .asleep

section Quiet

variable {members : Finset Origin} {s : Hints}

theorem Quiet.not_noticed (h : Quiet members s) {n p : Origin} (hn : n ∈ members)
    (hp : p ∈ members) : ¬ Noticed members s n p := by
  intro hnote
  cases hnote with
  | wrote hs => rw [h.wrote p hp] at hs; cases hs
  | changed q hq hs => rw [h.loop p hp q hq] at hs; cases hs
  | hint hs => rw [h.hint p hp] at hs; cases hs
  | post hs => rw [h.posts] at hs; cases hs
  | kick hs => rw [h.kick n hn p hp] at hs; cases hs
  | asks hs => rw [h.loop n hn p hp] at hs; cases hs

/-- The last pull of `n` from `p` brought everything. -/
def Linked (members : Finset Origin) (s : Hints) (n p : Origin) : Prop :=
  n ∈ members ∧ p ∈ members ∧ n ≠ p ∧ s.missed n p = false

/-- At rest a node knows what those know that it is linked to, be it
through others. -/
theorem Quiet.caughtUp (hquiet : Quiet members s) (h : s.Kept members) {n p : Origin}
    (hlinked : Relation.ReflTransGen (Linked members s) n p) : CaughtUp members s.mesh n p := by
  induction hlinked with
  | refl => exact fun o _ => le_rfl
  | tail _ hlink ih =>
      obtain ⟨hn, hp, hne, hmissed⟩ := hlink
      obtain hcaught | hnote | hmiss := h.told _ hn _ hp hne
      · exact fun o ho => (hcaught o ho).trans (ih o ho)
      · exact absurd hnote (hquiet.not_noticed hn hp)
      · rw [hmissed] at hmiss
        cases hmiss

end Quiet

-- ================================================================== what is owed

/-- A flag that stands for so much. -/
def flagged (cost : ℕ) (flag : Bool) : ℕ := if flag then cost else 0

@[simp] theorem flagged_true (cost : ℕ) : flagged cost true = cost := rfl

@[simp] theorem flagged_false (cost : ℕ) : flagged cost false = 0 := rfl

theorem flagged_le (cost : ℕ) (flag : Bool) : flagged cost flag ≤ cost := by
  cases flag
  · exact Nat.zero_le _
  · exact le_rfl

theorem flagged_or_le (cost : ℕ) (a b : Bool) :
    flagged cost (a || b) ≤ flagged cost a + flagged cost b := by
  cases a
  · exact Nat.le_add_left _ _
  · exact Nat.le_add_right _ _

variable (cd peers)

namespace Hints

/-- A pull: its beginning, its rounds and its end. -/
def pullCost : ℕ := MAX_ROUNDS + 3

/-- A post, and what it sets off. -/
def postCost : ℕ := pullCost + 1

/-- A fan-out to all peers. -/
def hintCost (members : Finset Origin) : ℕ :=
  (members.sup fun n => (peers n).length) * postCost + 1

/-- What a piece of news can set off, or a timer. -/
def newsCost (members : Finset Origin) : ℕ := 2 * hintCost peers members + pullCost

end Hints

/-- What a pull loop has still to do. -/
def PullLoop.owed (hint : ℕ) : PullLoop → ℕ
  | .asleep => 0
  | .pulling rounds changed => MAX_ROUNDS - rounds + 2 + flagged hint changed
  | .finished changed => 1 + flagged hint changed

namespace PullLoop

variable (hint rounds : ℕ) (changed : Bool)

@[simp] theorem owed_asleep : asleep.owed hint = 0 := rfl

@[simp] theorem owed_pulling :
    (pulling rounds changed).owed hint = MAX_ROUNDS - rounds + 2 + flagged hint changed := rfl

@[simp] theorem owed_finished : (finished changed).owed hint = 1 + flagged hint changed := rfl

end PullLoop

namespace Hints

/-- What there is still to do about the news that there is. -/
def owed (members : Finset Origin) (s : Hints) : ℕ :=
  s.posts.length * postCost
    + ∑ n ∈ members, flagged (hintCost peers members + 1) (s.wrote n)
    + ∑ n ∈ members, flagged (hintCost peers members) (s.hint n)
    + ∑ n ∈ members, ∑ p ∈ members, flagged pullCost (s.kick n p)
    + ∑ n ∈ members, ∑ p ∈ members, (s.loop n p).owed (hintCost peers members)

/-- The steps that are not for any news: exports, timers, the store's own
tasks, and rounds that bring something. -/
def news (s : Hints) : Act → ℕ
  | .exportOwn _ _ _ | .timer _ _ _ | .upkeep _ => 1
  | .round n p cursor skip budget nanos =>
      match s.mesh.bundle cd peers ⟨n, p, cursor, skip, budget, nanos⟩ with
      | none => 0
      | some b =>
          let round := s.mesh.roundOf cd peers ⟨n, p, cursor, skip, budget, nanos⟩ b
          if round.changed || round.reminted then 1 else 0
  | _ => 0

variable {cd peers}

section Owed

variable {members : Finset Origin} {s s' : Hints}

variable (peers members) in
theorem hint_hintIf_le (s : Hints) (news : Bool) (n : Origin) :
    ∑ x ∈ members, flagged (hintCost peers members) ((s.hintIf news n).hint x)
      ≤ ∑ x ∈ members, flagged (hintCost peers members) (s.hint x)
        + flagged (hintCost peers members) news := by
  cases news with
  | false => exact Nat.le_add_right _ _
  | true => exact sum_update_le _ s.hint members n true

/-- A post that is gone owes nothing any more. -/
theorem length_posts_eraseIdx {posts : List (Origin × Origin)} {i : ℕ} {post : Origin × Origin}
    (hpost : posts[i]? = some post) :
    (posts.eraseIdx i).length * postCost + postCost = posts.length * postCost := by
  rw [← length_eraseIdx_add hpost, Nat.add_mul, Nat.one_mul]

/-- What a round brings owes a hint, and what it leaves to ask for is one
round less. -/
theorem owed_round {n q : Origin} {cursor : Bytes} {skip : List Origin} {budget nanos : ℕ}
    (hn : n ∈ members) (hq : q ∈ members)
    (hs : s.step cd peers (.round n q cursor skip budget nanos) = some s') :
    s'.owed peers members + 1 ≤ s.owed peers members
      + newsCost peers members * s.news cd peers (.round n q cursor skip budget nanos) := by
  unfold Hints.step at hs
  dsimp only at hs
  split at hs
  next rounds changed hloop =>
    split at hs
    next => cases hs
    next =>
      obtain ⟨b, hb, rfl⟩ := Option.map_eq_some_iff.mp hs
      generalize hround : s.mesh.roundOf cd peers ⟨n, q, cursor, skip, budget, nanos⟩ b = round
      have hnews : s.news cd peers (.round n q cursor skip budget nanos)
          = if round.changed || round.reminted then 1 else 0 := by
        rw [news, hb]
        simp only [hround]
      -- what a round brings is paid for
      have hpaid : flagged (hintCost peers members) round.changed
          + flagged (hintCost peers members) round.reminted
          ≤ newsCost peers members * s.news cd peers (.round n q cursor skip budget nanos) := by
        rw [hnews, newsCost]
        cases round.changed <;> cases round.reminted <;> simp <;> omega
      have hor := flagged_or_le (hintCost peers members) changed round.changed
      have hhint := hint_hintIf_le peers members
        { s with mesh := s.mesh.pull cd peers ⟨n, q, cursor, skip, budget, nanos⟩ } round.reminted n
      dsimp only at hhint
      split
      next hagain =>
        have hless := of_decide_eq_true (Bool.and_eq_true_iff.mp hagain).2
        have hsum := sum_update₂ (PullLoop.owed (hintCost peers members)) s.loop hn hq
          (.pulling (rounds + 1) (changed || round.changed))
        simp only [hloop, PullLoop.owed_pulling] at hsum
        simp only [owed, setLoop, posts_hintIf, wrote_hintIf, kick_hintIf, loop_hintIf]
        omega
      next =>
        have hsum := sum_update₂ (PullLoop.owed (hintCost peers members)) s.loop hn hq
          (.finished (changed || round.changed))
        simp only [hloop, PullLoop.owed_pulling, PullLoop.owed_finished] at hsum
        simp only [owed, setLoop, setMissed, posts_hintIf, wrote_hintIf, kick_hintIf,
          loop_hintIf]
        omega
  next => cases hs

/-- An export owes a notice at most, whatever it brings. -/
theorem owed_exportOwn {n : Origin} {attests : List Attestation} {holds : List HoldOp}
    (hs : s.step cd peers (.exportOwn n attests holds) = some s') :
    s'.owed peers members + 1 ≤ s.owed peers members
      + newsCost peers members * s.news cd peers (.exportOwn n attests holds) := by
  obtain ⟨hok, -⟩ := exportOps_exported cd (nodeConfig peers n) (s.mesh.node n) attests holds
  rw [Hints.step] at hs
  split at hs
  next => cases hs
  next =>
    obtain ⟨m, hm, rfl⟩ := Option.map_eq_some_iff.mp hs
    rw [hok]
    have hsum := sum_update_le (flagged (hintCost peers members + 1)) s.wrote members n
      (decide (0 < attests.length + holds.length))
    have hflag := flagged_le (hintCost peers members + 1)
      (decide (0 < attests.length + holds.length))
    simp only [owed, news, newsCost, pullCost, Nat.mul_one]
    omega

/-- A notice becomes a hint, which it had paid for. -/
theorem owed_tell {n : Origin} (hn : n ∈ members)
    (hs : s.step cd peers (.tell n) = some s') :
    s'.owed peers members + 1 ≤ s.owed peers members
      + newsCost peers members * s.news cd peers (.tell n) := by
  rw [Hints.step] at hs
  split at hs
  next hwrote =>
    cases hs
    have hsum := sum_update (flagged (hintCost peers members + 1)) s.wrote hn false
    have hsum' := sum_update_le (flagged (hintCost peers members)) s.hint members n true
    simp only [hwrote, flagged_true, flagged_false] at hsum hsum'
    simp only [owed, news, hintPeers, Nat.mul_zero]
    omega
  next => cases hs

/-- A hint becomes posts to the peers, all paid for. -/
theorem owed_fanOut {n : Origin} {available : List Origin} (hn : n ∈ members)
    (hs : s.step cd peers (.fanOut n available) = some s') :
    s'.owed peers members + 1 ≤ s.owed peers members
      + newsCost peers members * s.news cd peers (.fanOut n available) := by
  rw [Hints.step] at hs
  split at hs
  next hhint =>
    cases hs
    have hsum := sum_update (flagged (hintCost peers members)) s.hint hn false
    have hposts : ((peers n).filter (· ∈ available)).length * postCost + 1
        ≤ hintCost peers members := by
      have hlen := List.length_filter_le (· ∈ available) (peers n)
      have hsup := Finset.le_sup (f := fun n => (peers n).length) hn
      exact Nat.succ_le_succ (Nat.mul_le_mul_right _ (hlen.trans hsup))
    simp only [hhint, flagged_true, flagged_false] at hsum
    simp only [owed, news, List.length_append, List.length_map, Nat.add_mul, Nat.mul_zero]
    omega
  next => cases hs

/-- A post becomes a kick. -/
theorem owed_deliver {i : ℕ} (hs : s.step cd peers (.deliver i) = some s') :
    s'.owed peers members + 1 ≤ s.owed peers members
      + newsCost peers members * s.news cd peers (.deliver i) := by
  obtain ⟨post, hpost, rfl⟩ := Option.map_eq_some_iff.mp hs
  have hsum := sum_update₂_le (flagged pullCost) s.kick members post.2 post.1 true
  have hless := length_posts_eraseIdx hpost
  simp only [flagged_true] at hsum
  dsimp only
  split
  next =>
    simp only [owed, news, setKick, Nat.mul_zero]
    simp only [postCost] at hless ⊢
    omega
  next =>
    simp only [owed, news, Nat.mul_zero]
    simp only [postCost] at hless ⊢
    omega

theorem owed_discard {i : ℕ} (hs : s.step cd peers (.discard i) = some s') :
    s'.owed peers members + 1 ≤ s.owed peers members
      + newsCost peers members * s.news cd peers (.discard i) := by
  obtain ⟨post, hpost, rfl⟩ := Option.map_eq_some_iff.mp hs
  have hless := length_posts_eraseIdx hpost
  simp only [owed, news, setMissed, Nat.mul_zero]
  simp only [postCost] at hless ⊢
  omega

/-- A kick becomes a pull. -/
theorem owed_kicked {n q : Origin} {available : Bool} (hn : n ∈ members) (hq : q ∈ members)
    (hs : s.step cd peers (.kicked n q available) = some s') :
    s'.owed peers members + 1 ≤ s.owed peers members
      + newsCost peers members * s.news cd peers (.kicked n q available) := by
  rw [Hints.step] at hs
  split at hs
  next hguard =>
    obtain ⟨hasleep, hkick⟩ := hguard
    cases hs
    have hsum := sum_update₂ (flagged pullCost) s.kick hn hq false
    have hsum' := sum_update₂ (PullLoop.owed (hintCost peers members)) s.loop hn hq
      (.pulling 0 false)
    simp only [hkick, flagged_true, flagged_false] at hsum
    simp only [hasleep, PullLoop.owed_asleep, PullLoop.owed_pulling, flagged_false] at hsum'
    cases available with
    | false =>
        simp only [Bool.false_eq_true, if_false, owed, news, setMissed, setKick,
          Nat.mul_zero]
        simp only [pullCost] at hsum ⊢
        omega
    | true =>
        simp only [if_true, owed, news, setLoop, setKick, Nat.mul_zero]
        simp only [pullCost] at hsum ⊢
        omega
  next => cases hs

theorem owed_timer {n q : Origin} {available : Bool}
    (hs : s.step cd peers (.timer n q available) = some s') :
    s'.owed peers members + 1 ≤ s.owed peers members
      + newsCost peers members * s.news cd peers (.timer n q available) := by
  rw [Hints.step] at hs
  split at hs
  next hguard =>
    cases hs
    have hsum := sum_update₂_le (PullLoop.owed (hintCost peers members)) s.loop members n q
      (.pulling 0 false)
    simp only [PullLoop.owed_pulling, flagged_false] at hsum
    cases available with
    | false =>
        simp only [Bool.false_eq_true, if_false, news, newsCost, pullCost, Nat.mul_one]
        omega
    | true =>
        simp only [if_true, owed, news, newsCost, setLoop, Nat.mul_one]
        simp only [pullCost] at hsum ⊢
        omega
  next => cases hs

/-- A pull that breaks keeps nothing of what it owed. -/
theorem owed_broke {n q : Origin} (hn : n ∈ members) (hq : q ∈ members)
    (hs : s.step cd peers (.broke n q) = some s') :
    s'.owed peers members + 1 ≤ s.owed peers members
      + newsCost peers members * s.news cd peers (.broke n q) := by
  unfold Hints.step at hs
  dsimp only at hs
  split at hs
  next rounds changed hloop =>
    cases hs
    have hsum := sum_update₂ (PullLoop.owed (hintCost peers members)) s.loop hn hq .asleep
    simp only [hloop, PullLoop.owed_asleep, PullLoop.owed_pulling] at hsum
    cases changed with
    | false =>
        simp only [Bool.false_eq_true, if_false, owed, news, setLoop, setMissed,
          Nat.mul_zero]
        omega
    | true =>
        simp only [if_true, owed, news, setLoop, setMissed, missAll, Nat.mul_zero]
        omega
  next => cases hs

/-- What a pull has changed becomes a hint. -/
theorem owed_rest {n q : Origin} (hn : n ∈ members) (hq : q ∈ members)
    (hs : s.step cd peers (.rest n q) = some s') :
    s'.owed peers members + 1 ≤ s.owed peers members
      + newsCost peers members * s.news cd peers (.rest n q) := by
  unfold Hints.step at hs
  dsimp only at hs
  split at hs
  next changed hloop =>
    cases hs
    have hsum := sum_update₂ (PullLoop.owed (hintCost peers members)) s.loop hn hq .asleep
    have hhint := hint_hintIf_le peers members s changed n
    simp only [hloop, PullLoop.owed_asleep, PullLoop.owed_finished] at hsum
    simp only [owed, news, setLoop, posts_hintIf, wrote_hintIf, kick_hintIf, loop_hintIf,
      Nat.mul_zero]
    omega
  next => cases hs

theorem owed_upkeep {a : Mesh.Act} (hs : s.step cd peers (.upkeep a) = some s') :
    s'.owed peers members + 1 ≤ s.owed peers members
      + newsCost peers members * s.news cd peers (.upkeep a) := by
  have hsame : ∃ m, s' = { s with mesh := m } := by
    cases a with
    | mergeAttests n attests => cases hs; exact ⟨_, rfl⟩
    | recordWatermarks n peer clocks => cases hs; exact ⟨_, rfl⟩
    | compact n => cases hs; exact ⟨_, rfl⟩
    | _ => cases hs
  obtain ⟨m, rfl⟩ := hsame
  simp only [owed, news, newsCost, pullCost, Nat.mul_one]
  omega

/-- Every step that is for no news leaves less to do. -/
theorem owed_step {a : Act}
    (hs : (hintsSystem cd peers members).step s a = some s') :
    s'.owed peers members + 1
      ≤ s.owed peers members + newsCost peers members * s.news cd peers a := by
  change (if a.among members then s.step cd peers a else none) = some s' at hs
  split at hs
  next hamong =>
    cases a with
    | exportOwn n attests holds => exact owed_exportOwn hs
    | tell n => exact owed_tell (of_decide_eq_true hamong) hs
    | fanOut n available => exact owed_fanOut (of_decide_eq_true hamong) hs
    | deliver i => exact owed_deliver hs
    | discard i => exact owed_discard hs
    | kicked n q available =>
        obtain ⟨hn, hq⟩ := of_decide_eq_true hamong
        exact owed_kicked hn hq hs
    | timer n q available => exact owed_timer hs
    | round n q cursor skip budget nanos =>
        obtain ⟨hn, hq⟩ := of_decide_eq_true hamong
        exact owed_round hn hq hs
    | broke n q =>
        obtain ⟨hn, hq⟩ := of_decide_eq_true hamong
        exact owed_broke hn hq hs
    | rest n q =>
        obtain ⟨hn, hq⟩ := of_decide_eq_true hamong
        exact owed_rest hn hq hs
    | upkeep a => exact owed_upkeep hs
  next => cases hs

end Owed

end Hints

-- ================================================================== what is certain

/-- What is certain of the hints. -/
structure Hints.Exact (cd : Codec) (peers : Origin → List Origin) (members : Finset Origin)
    (s : Hints) : Prop where
  /-- No notice is lost: where one has what another lacks, there is a
  notice, unless their last pull fell short. -/
  told : ∀ n ∈ members, ∀ p ∈ members, n ≠ p →
    CaughtUp members s.mesh n p ∨ Noticed members s n p ∨ s.missed n p = true
  /-- At rest a node's copies are the origins' own, as far as it is linked. -/
  agreed : Quiet members s → ∀ n, ∀ o ∈ members, Relation.ReflTransGen (Linked members s) n o →
    ((s.mesh.node n).db.clock o).place = ((s.mesh.node o).db.clock o).place
      ∧ ((s.mesh.node n).db.replica o).held = ((s.mesh.node o).db.replica o).held
  /-- Without news there are only so many steps. -/
  ends : ∀ as s', (hintsSystem cd peers members).run s as = some s' →
    as.length + s'.owed peers members ≤ s.owed peers members
      + (hintsSystem cd peers members).charges
          (fun s a => newsCost peers members * s.news cd peers a) s as

/-- From any state of the mesh, whatever is exported and whenever, whoever
wakes, whatever posts get lost, pulls fail and breakers open. -/
theorem hints_settle {members : Finset Origin} (hagree : Agreed peers members) {s : Hints}
    (h : (hintsSystem cd peers members).Reach s) : Hints.Exact cd peers members s := by
  have hkept := Hints.Kept.reach hagree h
  refine ⟨hkept.told, fun hquiet n o ho hlinked => ?_, fun as s' hrun => ?_⟩
  · have hplace : s.mesh.knows n o = s.mesh.knows o o :=
      le_antisymm (hkept.inv.place_le n o) (hquiet.caughtUp hkept hlinked o ho)
    obtain ⟨hgen, hseq⟩ := Prod.mk.inj (toLex_inj.mp hplace)
    exact ⟨hplace, (hkept.inv.follows n o).held_eq (hkept.inv.follows o o) hgen hseq⟩
  · exact System.length_le_of_charged (I := fun _ => True)
      (fun s a s' _ hs => ⟨trivial, Hints.owed_step hs⟩) trivial hrun

/-- Two nodes start; then node 1 exports, its hint brings node 2 there, and
node 2's own post is lost. -/
def hintedPair : List Hints.Act :=
  let one := Origin.ofByte 1
  let two := Origin.ofByte 2
  [.round one two [] [] 1 0, .round one two [] [] 1 0, .rest one two, .round two one [] [] 1 0,
    .round two one [] [] 1 0, .rest two one, .exportOwn one [] [.add (NarHash.ofByte 5)], .tell one,
    .fanOut one [two], .deliver 0, .kicked two one true, .round two one [] [] 1 0, .rest two one,
    .fanOut two [one], .discard 0]

/-- What node 1 exports, node 2 holds when all is quiet. -/
theorem hints_settle_pair :
    ∃ s, (hintsSystem Codec.plain pair {Origin.ofByte 1, Origin.ofByte 2}).Reach s
      ∧ Quiet {Origin.ofByte 1, Origin.ofByte 2} s
      ∧ (s.mesh.node (Origin.ofByte 2)).db.isHeld (Origin.ofByte 1) (NarHash.ofByte 5) = true
      ∧ s.missed (Origin.ofByte 1) (Origin.ofByte 2) = true
      ∧ Hints.Exact Codec.plain pair {Origin.ofByte 1, Origin.ofByte 2} s := by
  have hrun : ((hintsSystem Codec.plain pair {Origin.ofByte 1, Origin.ofByte 2}).run
      (Hints.start pair (Mesh.boot pair fun _ => 7)) hintedPair).map (fun s => decide
        ((s.mesh.node (Origin.ofByte 2)).db.isHeld (Origin.ofByte 1) (NarHash.ofByte 5) = true
          ∧ s.missed (Origin.ofByte 1) (Origin.ofByte 2) = true
          ∧ (∀ n ∈ ({Origin.ofByte 1, Origin.ofByte 2} : Finset Origin), s.wrote n = false)
          ∧ (∀ n ∈ ({Origin.ofByte 1, Origin.ofByte 2} : Finset Origin), s.hint n = false)
          ∧ s.posts = []
          ∧ (∀ n ∈ ({Origin.ofByte 1, Origin.ofByte 2} : Finset Origin),
            ∀ p ∈ ({Origin.ofByte 1, Origin.ofByte 2} : Finset Origin), s.kick n p = false)
          ∧ (∀ n ∈ ({Origin.ofByte 1, Origin.ofByte 2} : Finset Origin),
            ∀ p ∈ ({Origin.ofByte 1, Origin.ofByte 2} : Finset Origin), s.loop n p = .asleep)))
      = some true := by decide +kernel
  obtain ⟨s, hs, hdone⟩ := Option.map_eq_some_iff.mp hrun
  obtain ⟨hheld, hmissed, hwrote, hhint, hposts, hkick, hloop⟩ := of_decide_eq_true hdone
  have hboot : (meshSystem Codec.plain pair).init (Mesh.boot pair fun _ => 7) :=
    ⟨fun _ => 7, fun _ => Nat.succ_pos 6, rfl⟩
  have hreach : (hintsSystem Codec.plain pair {Origin.ofByte 1, Origin.ofByte 2}).Reach s :=
    System.Reach.run (System.Reach.start ⟨_, System.Reach.start hboot, rfl⟩) hs
  exact ⟨s, hreach, ⟨hwrote, hhint, hposts, hkick, hloop⟩, hheld, hmissed,
    hints_settle Codec.plain pair agreed_pair hreach⟩

end Narshare
