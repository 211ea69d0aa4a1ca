/-
Who builds a manifest: requests for one come and go, and a build outlives
the request that started it.

# Single flight

`get_manifest` looks into the cache, and then, under the lock of
`building`, joins the build of its hash or starts it. The task of
`spawn_manifest_build` takes one of two permits, builds, publishes the
outcome, a failure too, removes its entry and drops its sender, which
wakes whoever waits. `Manifests` has all of them, and a step is what one
does under one lock; the builds are kept in the order they were started,
so a build's number is its channel.

# What is certain

An entry of `building` and a build in flight are the same thing
(`Kept.building`), so there is one to a hash. The cache has room for a
fixed number of outcomes, and a build may have been started by a request
that looked before the last one was published: a hash may be built again,
but never twice at a time. Whatever an answer is, a build of that hash has
come to it; `good` is what is known of the outcomes.
-/
import Mathlib.Data.List.Nodup
import Narshare.Lib.Lru
import Narshare.Lib.Roster
import Narshare.Lib.System

namespace Narshare

/-- `MANIFEST_BUILD_CONCURRENCY`. -/
def MANIFEST_BUILD_CONCURRENCY : ℕ := 2

/-- The room that `ServeState::new` gives the manifests cache. -/
def MANIFESTS_CAP : ℕ := 64

-- ================================================================== the parties

/-- Where the task of `spawn_manifest_build` stands: it waits for a permit,
builds, has its outcome, has put it into the cache, has removed the entry,
or has dropped its sender, and its permit. -/
inductive BuildStage (M : Type)
  | queued
  | running
  | built (outcome : Option M)
  | published (outcome : Option M)
  | removed (outcome : Option M)
  | closed (outcome : Option M)
deriving DecidableEq

namespace BuildStage

variable {M : Type}

/-- Its entry is there. -/
def inFlight : BuildStage M → Bool
  | .queued => true
  | .running => true
  | .built _ => true
  | .published _ => true
  | .removed _ => false
  | .closed _ => false

/-- It has a permit. -/
def permitted : BuildStage M → Bool
  | .queued => false
  | .closed _ => false
  | _ => true

/-- What it has come to. -/
def outcome : BuildStage M → Option (Option M)
  | .queued => none
  | .running => none
  | .built o => some o
  | .published o => some o
  | .removed o => some o
  | .closed o => some o

/-- The steps it has left. -/
def left : BuildStage M → ℕ
  | .queued => 5
  | .running => 4
  | .built _ => 3
  | .published _ => 2
  | .removed _ => 1
  | .closed _ => 0

end BuildStage

/-- A task of `spawn_manifest_build`. -/
structure Build (H M : Type) where
  hash : H
  stage : BuildStage M
deriving DecidableEq

/-- Where a request is in `get_manifest`: at the head of its loop, past the
cache without an outcome, waiting for a build, or answered. -/
inductive ReqStage (H M : Type)
  | away
  | looking (hash : H)
  | missed (hash : H)
  | waiting (hash : H) (build : ℕ)
  | answered (hash : H) (outcome : Option M)
deriving DecidableEq

/-- What `ServeState` keeps for manifests, with the tasks and the requests.
An outcome of `none` is answered with 404. -/
structure Manifests (H M : Type) where
  manifests : List (H × Option M) := []
  building : H → Option ℕ := fun _ => none
  builds : List (Build H M) := []
  requests : ℕ → ReqStage H M := fun _ => .away

/-- A request comes, for a path that is there; looks; joins or starts a
build; is woken; leaves. A build gets its permit, comes to its outcome,
publishes it, removes its entry and drops its sender. -/
inductive ManifestAct (H M : Type)
  | ask (r : ℕ) (h : H)
  | look (r : ℕ)
  | join (r : ℕ)
  | wake (r : ℕ)
  | leave (r : ℕ)
  | permit (i : ℕ)
  | finish (i : ℕ) (outcome : Option M)
  | publish (i : ℕ)
  | remove (i : ℕ)
  | close (i : ℕ)
deriving DecidableEq

/-- It is a build's. -/
def ManifestAct.isBuild {H M : Type} : ManifestAct H M → Bool
  | .permit _ => true
  | .finish _ _ => true
  | .publish _ => true
  | .remove _ => true
  | .close _ => true
  | _ => false

namespace Manifests

variable {H M : Type} [DecidableEq H]

/-- The permits that are taken. -/
def permits (s : Manifests H M) : ℕ := s.builds.countP fun b => b.stage.permitted

/-- The request `r` is at `q`. -/
def setReq (s : Manifests H M) (r : ℕ) (q : ReqStage H M) : Manifests H M :=
  { s with requests := fun r' => if r' = r then q else s.requests r' }

/-- The build `i`, of the hash `h`, is at `stage`. -/
def setBuild (s : Manifests H M) (i : ℕ) (h : H) (stage : BuildStage M) : Manifests H M :=
  { s with builds := s.builds.set i ⟨h, stage⟩ }

/-- What one of them does under one lock. -/
def step (s : Manifests H M) : ManifestAct H M → Option (Manifests H M)
  | .ask r h => some (s.setReq r (.looking h))
  | .look r =>
      match s.requests r with
      | .looking h =>
          match Lru.at_ h s.manifests with
          | some (_, outcome) =>
              some { s.setReq r (.answered h outcome) with manifests := Lru.used h s.manifests }
          | none => some (s.setReq r (.missed h))
      | _ => none
  | .join r =>
      match s.requests r with
      | .missed h =>
          match s.building h with
          | some i => some (s.setReq r (.waiting h i))
          | none =>
              some { s.setReq r (.looking h) with
                building := fun h' => if h' = h then some s.builds.length else s.building h'
                builds := s.builds ++ [⟨h, .queued⟩] }
      | _ => none
  | .wake r =>
      match s.requests r with
      | .waiting h i =>
          match s.builds[i]? with
          | some ⟨_, .closed _⟩ => some (s.setReq r (.looking h))
          | _ => none
      | _ => none
  | .leave r => some (s.setReq r .away)
  | .permit i =>
      match s.builds[i]? with
      | some ⟨h, .queued⟩ =>
          if s.permits < MANIFEST_BUILD_CONCURRENCY then some (s.setBuild i h .running) else none
      | _ => none
  | .finish i outcome =>
      match s.builds[i]? with
      | some ⟨h, .running⟩ => some (s.setBuild i h (.built outcome))
      | _ => none
  | .publish i =>
      match s.builds[i]? with
      | some ⟨h, .built outcome⟩ =>
          some { s.setBuild i h (.published outcome) with
            manifests := Lru.pushed MANIFESTS_CAP h outcome s.manifests }
      | _ => none
  | .remove i =>
      match s.builds[i]? with
      | some ⟨h, .published outcome⟩ =>
          some { s.setBuild i h (.removed outcome) with
            building := fun h' => if h' = h then none else s.building h' }
      | _ => none
  | .close i =>
      match s.builds[i]? with
      | some ⟨h, .removed outcome⟩ => some (s.setBuild i h (.closed outcome))
      | _ => none

end Manifests

/-- The runs of a server's requests for manifests. -/
def manifestRuns (H M : Type) [DecidableEq H] : System (Manifests H M) (ManifestAct H M) where
  init s := s = {}
  step := Manifests.step

namespace Manifests

variable {H M : Type} [DecidableEq H]

-- ================================================================ what is kept

/-- The outcome a build comes to is one that its hash may have. -/
def rightBuilds (good : H → Option M → Bool) (s : Manifests H M) : ManifestAct H M → Bool
  | .finish i outcome => s.builds[i]?.all fun b => good b.hash outcome
  | _ => true

/-- What every run keeps. -/
structure Kept (good : H → Option M → Bool) (s : Manifests H M) : Prop where
  building : ∀ h i, s.building h = some i ↔
    ∃ stage, s.builds[i]? = some ⟨h, stage⟩ ∧ stage.inFlight = true
  permits : s.permits ≤ MANIFEST_BUILD_CONCURRENCY
  outcomes : ∀ b ∈ s.builds, ∀ o, b.stage.outcome = some o → good b.hash o = true
  nodup : (s.manifests.map Prod.fst).Nodup
  size : s.manifests.length ≤ MANIFESTS_CAP
  cached : ∀ e ∈ s.manifests, good e.1 e.2 = true
  answered : ∀ r h o, s.requests r = .answered h o → good h o = true
  waiting : ∀ r h i, s.requests r = .waiting h i → ∃ stage, s.builds[i]? = some ⟨h, stage⟩

variable {good : H → Option M → Bool} {s s' : Manifests H M} {a : ManifestAct H M}

theorem mem_pushed {h : H} {o : Option M} {l : List (H × Option M)} {e : H × Option M} {cap : ℕ}
    (he : e ∈ Lru.pushed cap h o l) : e ∈ l ∨ e = (h, o) := by
  unfold Lru.pushed at he
  split at he
  next =>
    rcases List.mem_append.mp he with he | he
    · exact Or.inl (List.mem_of_mem_filter he)
    · exact Or.inr (List.mem_singleton.mp he)
  next =>
    rcases List.mem_append.mp he with he | he
    · split at he
      next => exact Or.inl (List.mem_of_mem_tail he)
      next => exact Or.inl he
    · exact Or.inr (List.mem_singleton.mp he)

theorem length_pushed_le {h : H} {o : Option M} {l : List (H × Option M)} {cap : ℕ}
    (hcap : 0 < cap) (hl : l.length ≤ cap) : (Lru.pushed cap h o l).length ≤ cap := by
  unfold Lru.pushed
  split
  next e hat =>
    obtain ⟨he, hk⟩ := Lru.at_eq_some hat
    have hlt : (l.filter fun e => decide (e.1 ≠ h)).length < l.length :=
      List.length_filter_lt_length_iff_exists.mpr ⟨e, he, by simp [hk]⟩
    rw [List.length_append, List.length_singleton]
    omega
  next =>
    rw [List.length_append, List.length_singleton]
    split
    next =>
      rw [List.length_tail]
      omega
    next hlt => omega

omit [DecidableEq H] in
/-- A request goes on. -/
theorem Kept.setReq (hk : s.Kept good) (r : ℕ) {q : ReqStage H M}
    (hanswered : ∀ h o, q = .answered h o → good h o = true)
    (hwaiting : ∀ h i, q = .waiting h i → ∃ stage, s.builds[i]? = some ⟨h, stage⟩) :
    (s.setReq r q).Kept good := by
  refine ⟨hk.building, hk.permits, hk.outcomes, hk.nodup, hk.size, hk.cached,
    fun r' h o hr => ?_, fun r' h i hr => ?_⟩
  · simp only [Manifests.setReq] at hr
    split at hr
    next => exact hanswered h o hr
    next => exact hk.answered r' h o hr
  · simp only [Manifests.setReq] at hr
    split at hr
    next => exact hwaiting h i hr
    next => exact hk.waiting r' h i hr

omit [DecidableEq H] in
/-- A build goes on, and its entry is there as long as it is in flight. -/
theorem Kept.setBuild (hk : s.Kept good) (building : H → Option ℕ) {i : ℕ} {h : H}
    {old stage : BuildStage M} (hi : s.builds[i]? = some ⟨h, old⟩)
    (hbuilding : ∀ h' j, building h' = some j ↔
      if j = i then h' = h ∧ stage.inFlight = true else s.building h' = some j)
    (hpermits : s.permits + stage.permitted.toNat
      ≤ MANIFEST_BUILD_CONCURRENCY + old.permitted.toNat)
    (hgood : ∀ o, stage.outcome = some o → good h o = true) :
    Kept good { s.setBuild i h stage with building := building } := by
  have hlt : i < s.builds.length := (List.getElem?_eq_some_iff.mp hi).1
  have hself : (s.builds.set i ⟨h, stage⟩)[i]? = some ⟨h, stage⟩ := List.getElem?_set_self hlt
  refine ⟨fun h' j => ?_, ?_, fun b hb o ho => ?_, hk.nodup, hk.size, hk.cached, hk.answered,
    fun r h' j hr => ?_⟩
  · rw [hbuilding]
    show _ ↔ ∃ stage', (s.builds.set i ⟨h, stage⟩)[j]? = some ⟨h', stage'⟩ ∧ _
    split
    next hij =>
      subst hij
      rw [hself]
      constructor
      · rintro ⟨rfl, hflight⟩
        exact ⟨stage, rfl, hflight⟩
      · rintro ⟨stage', heq, hflight⟩
        cases heq
        exact ⟨rfl, hflight⟩
    next hij =>
      rw [List.getElem?_set_ne (Ne.symm hij)]
      exact hk.building h' j
  · have hcount := countP_set (fun b : Build H M => b.stage.permitted) hi ⟨h, stage⟩
    show (s.builds.set i ⟨h, stage⟩).countP (fun b => b.stage.permitted) ≤ _
    rw [Manifests.permits] at hpermits
    simp only at hcount
    omega
  · rcases List.mem_or_eq_of_mem_set hb with hb | rfl
    · exact hk.outcomes b hb o ho
    · exact hgood o ho
  · obtain ⟨stage', hstage⟩ := hk.waiting r h' j hr
    show ∃ stage', (s.builds.set i ⟨h, stage⟩)[j]? = some ⟨h', stage'⟩
    by_cases hij : j = i
    · subst hij
      rw [hi] at hstage
      cases hstage
      exact ⟨stage, hself⟩
    · exact ⟨stage', by rw [List.getElem?_set_ne (Ne.symm hij)]; exact hstage⟩

omit [DecidableEq H] in
/-- A build goes on in flight. -/
theorem Kept.advance (hk : s.Kept good) {i : ℕ} {h : H} {old stage : BuildStage M}
    (hi : s.builds[i]? = some ⟨h, old⟩) (hflight : stage.inFlight = old.inFlight)
    (hpermits : s.permits + stage.permitted.toNat
      ≤ MANIFEST_BUILD_CONCURRENCY + old.permitted.toNat)
    (hgood : ∀ o, stage.outcome = some o → good h o = true) : (s.setBuild i h stage).Kept good := by
  refine hk.setBuild s.building hi (fun h' j => ?_) hpermits hgood
  split
  next hij =>
    subst hij
    rw [hk.building, hi]
    constructor
    · rintro ⟨stage', heq, hin⟩
      cases heq
      exact ⟨rfl, hflight.trans hin⟩
    · rintro ⟨rfl, hin⟩
      exact ⟨old, rfl, hflight.symm.trans hin⟩
  next => exact Iff.rfl

/-- A look at the cache that finds the hash: its entry is the one last used. -/
theorem Kept.found (hk : s.Kept good) (r : ℕ) {h k : H} {outcome : Option M}
    (hat : Lru.at_ h s.manifests = some (k, outcome)) :
    Kept good
      { s.setReq r (.answered h outcome) with manifests := Lru.used h s.manifests } := by
  obtain ⟨hmem, hkey⟩ := Lru.at_eq_some hat
  have hgood : good h outcome = true := by
    have := hk.cached _ hmem
    rwa [hkey] at this
  have hnew := hk.setReq r (q := .answered h outcome)
    (fun h' o heq => by cases heq; exact hgood) fun _ _ h => by cases h
  have hperm := Lru.used_perm hk.nodup h
  exact ⟨hnew.building, hnew.permits, hnew.outcomes, Lru.nodup_used hk.nodup h,
    hperm.length_eq.trans_le hk.size, fun e he => hk.cached e (hperm.mem_iff.mp he),
    hnew.answered, hnew.waiting⟩

/-- The entry of a build that is started is the last one of the list, and
the others are where they were. -/
theorem Kept.building_concat (hk : s.Kept good) {h : H} (hnone : s.building h = none) (h' : H)
    (j : ℕ) :
    (if h' = h then some s.builds.length else s.building h') = some j ↔
      ∃ stage, (s.builds ++ [⟨h, .queued⟩])[j]? = some ⟨h', stage⟩
        ∧ stage.inFlight = true := by
  have hlast : (s.builds ++ [⟨h, .queued⟩])[s.builds.length]? = some ⟨h, .queued⟩ :=
    List.getElem?_concat_length
  by_cases hj : j < s.builds.length
  · rw [List.getElem?_append_left hj, ← hk.building]
    split
    next heq =>
      rw [heq, hnone]
      constructor
      · intro hlen
        cases hlen
        exact absurd hj (lt_irrefl _)
      · exact fun h => by cases h
    next => exact Iff.rfl
  · constructor
    · intro hsome
      split at hsome
      next heq =>
        cases hsome
        exact ⟨.queued, by rw [hlast, heq], rfl⟩
      next =>
        obtain ⟨stage, hstage, -⟩ := (hk.building h' j).mp hsome
        exact absurd (List.getElem?_eq_some_iff.mp hstage).1 hj
    · rintro ⟨stage, hstage, -⟩
      have hlt := (List.getElem?_eq_some_iff.mp hstage).1
      rw [List.length_append, List.length_singleton] at hlt
      have hlen : j = s.builds.length := by omega
      subst hlen
      rw [hlast] at hstage
      cases hstage
      exact if_pos rfl

/-- A build of a hash that none is in flight for. -/
theorem Kept.started (hk : s.Kept good) (r : ℕ) {h : H} (hnone : s.building h = none) :
    Kept good { s.setReq r (.looking h) with
      building := fun h' => if h' = h then some s.builds.length else s.building h'
      builds := s.builds ++ [⟨h, .queued⟩] } := by
  have hnew := hk.setReq r (q := .looking h) (fun _ _ h => by cases h) fun _ _ h => by cases h
  refine ⟨hk.building_concat hnone, ?_, fun b hb o ho => ?_, hk.nodup, hk.size, hk.cached,
    hnew.answered, fun r' h' i hr => ?_⟩
  · show (s.builds ++ [(⟨h, .queued⟩ : Build H M)]).countP (fun b => b.stage.permitted) ≤ _
    rw [List.countP_append]
    exact hk.permits
  · rcases List.mem_append.mp hb with hb | hb
    · exact hk.outcomes b hb o ho
    · cases List.mem_singleton.mp hb
      cases ho
  · obtain ⟨stage, hstage⟩ : ∃ stage, s.builds[i]? = some ⟨h', stage⟩ := hnew.waiting r' h' i hr
    refine ⟨stage, ?_⟩
    show (s.builds ++ [⟨h, .queued⟩])[i]? = _
    rw [List.getElem?_append_left (List.getElem?_eq_some_iff.mp hstage).1]
    exact hstage

/-- An outcome goes to the cache before the build's entry is removed, so
that whoever finds neither starts a build. -/
theorem Kept.published (hk : s.Kept good) {i : ℕ} {h : H} {outcome : Option M}
    (hi : s.builds[i]? = some ⟨h, .built outcome⟩) :
    Kept good { s.setBuild i h (.published outcome) with
      manifests := Lru.pushed MANIFESTS_CAP h outcome s.manifests } := by
  have hgood : good h outcome = true := hk.outcomes _ (List.mem_of_getElem? hi) _ rfl
  have hnew : (s.setBuild i h (.published outcome)).Kept good :=
    hk.advance hi rfl (Nat.add_le_add_right hk.permits _) fun o ho => by
      cases ho
      exact hgood
  refine ⟨hnew.building, hnew.permits, hnew.outcomes, Lru.nodup_pushed hk.nodup _ _ _,
    length_pushed_le (by decide) hk.size, fun e he => ?_, hnew.answered, hnew.waiting⟩
  rcases mem_pushed he with he | rfl
  · exact hk.cached e he
  · exact hgood

/-- A build removes the entry of its hash, which is its own. -/
theorem Kept.removed (hk : s.Kept good) {i : ℕ} {h : H} {outcome : Option M}
    (hi : s.builds[i]? = some ⟨h, .published outcome⟩) :
    Kept good { s.setBuild i h (.removed outcome) with
      building := fun h' => if h' = h then none else s.building h' } := by
  have hthis := (hk.building h i).mpr ⟨_, hi, rfl⟩
  refine hk.setBuild _ hi (fun h' j => ?_) (Nat.add_le_add_right hk.permits _) fun o ho => ?_
  · by_cases hij : j = i
    · rw [if_pos hij, hij]
      constructor
      · intro hsome
        split at hsome
        next => cases hsome
        next hne =>
          -- the build of another hash is another build
          obtain ⟨stage, hstage, -⟩ := (hk.building h' i).mp hsome
          rw [hi] at hstage
          cases hstage
          exact absurd rfl hne
      · rintro ⟨-, hflight⟩
        cases hflight
    · rw [if_neg hij]
      split
      next heq =>
        rw [heq, hthis]
        constructor
        · exact fun h => by cases h
        · intro hsome
          exact absurd (Option.some.inj hsome).symm hij
      next => exact Iff.rfl
  · cases ho
    exact hk.outcomes _ (List.mem_of_getElem? hi) _ rfl

theorem Kept.step (hk : s.Kept good) (hok : rightBuilds good s a = true) (hs : s.step a = some s') :
    s'.Kept good := by
  cases a with
  | ask r h =>
      cases hs
      exact hk.setReq r (fun _ _ h => by cases h) fun _ _ h => by cases h
  | leave r =>
      cases hs
      exact hk.setReq r (fun _ _ h => by cases h) fun _ _ h => by cases h
  | look r =>
      rw [Manifests.step] at hs
      split at hs
      next h hreq =>
        split at hs
        next k outcome hat =>
          cases hs
          exact hk.found r hat
        next =>
          cases hs
          exact hk.setReq r (fun _ _ h => by cases h) fun _ _ h => by cases h
      next => cases hs
  | join r =>
      rw [Manifests.step] at hs
      split at hs
      next h hreq =>
        split at hs
        next i hi =>
          cases hs
          obtain ⟨stage, hstage, -⟩ := (hk.building h i).mp hi
          exact hk.setReq r (fun _ _ h => by cases h) fun h' i' heq => by
            cases heq
            exact ⟨stage, hstage⟩
        next hnone =>
          cases hs
          exact hk.started r hnone
      next => cases hs
  | wake r =>
      rw [Manifests.step] at hs
      split at hs
      next h i hreq =>
        split at hs
        next =>
          cases hs
          exact hk.setReq r (fun _ _ h => by cases h) fun _ _ h => by cases h
        next => cases hs
      next => cases hs
  | permit i =>
      rw [Manifests.step] at hs
      split at hs
      next h hi =>
        split at hs
        next hlt =>
          cases hs
          exact hk.advance hi rfl (Nat.succ_le_of_lt hlt) fun o h => by cases h
        next => cases hs
      next => cases hs
  | finish i outcome =>
      rw [Manifests.step] at hs
      split at hs
      next h hi =>
        cases hs
        refine hk.advance hi rfl (Nat.add_le_add_right hk.permits _) fun o ho => ?_
        cases ho
        rw [rightBuilds, hi] at hok
        exact hok
      next => cases hs
  | publish i =>
      rw [Manifests.step] at hs
      split at hs
      next h outcome hi =>
        cases hs
        exact hk.published hi
      next => cases hs
  | remove i =>
      rw [Manifests.step] at hs
      split at hs
      next h outcome hi =>
        cases hs
        exact hk.removed hi
      next => cases hs
  | close i =>
      rw [Manifests.step] at hs
      split at hs
      next h outcome hi =>
        cases hs
        refine hk.advance hi rfl (Nat.le_succ_of_le hk.permits) fun o ho => ?_
        cases ho
        exact hk.outcomes _ (List.mem_of_getElem? hi) _ rfl
      next => cases hs

-- ============================================================== how builds go on

/-- The steps that the builds have left. -/
def left (s : Manifests H M) : ℕ := (s.builds.map fun b => b.stage.left).sum

omit [DecidableEq H] in
theorem left_setBuild {i : ℕ} {h : H} {old : BuildStage M}
    (hi : s.builds[i]? = some ⟨h, old⟩) (stage : BuildStage M) :
    (s.setBuild i h stage).left + old.left = s.left + stage.left :=
  sum_map_set (fun b : Build H M => b.stage.left) hi ⟨h, stage⟩

/-- A build that has a permit goes on, and no request is touched. -/
theorem goesOn_of_permitted (hgood : ∀ h, ∃ o, good h o = true) {i : ℕ} {b : Build H M}
    (hi : s.builds[i]? = some b) (hpermitted : b.stage.permitted = true) :
    ∃ a s', a.isBuild = true ∧ rightBuilds good s a = true ∧ s.step a = some s'
      ∧ s'.requests = s.requests ∧ s'.left < s.left := by
  obtain ⟨h, stage⟩ := b
  cases stage with
  | queued => cases hpermitted
  | closed o => cases hpermitted
  | running =>
      obtain ⟨o, ho⟩ := hgood h
      have hless := left_setBuild hi (.built o)
      refine ⟨.finish i o, s.setBuild i h (.built o), rfl, ?_, ?_, rfl, ?_⟩
      · rw [rightBuilds, hi]
        exact ho
      · rw [Manifests.step, hi]
      · simp only [BuildStage.left] at hless
        omega
  | built o =>
      have hless := left_setBuild hi (.published o)
      have hstep : s.step (.publish i) = some { s.setBuild i h (.published o) with
          manifests := Lru.pushed MANIFESTS_CAP h o s.manifests } := by
        rw [Manifests.step, hi]
      refine ⟨.publish i, _, rfl, rfl, hstep, rfl, ?_⟩
      show (s.setBuild i h (.published o)).left < s.left
      simp only [BuildStage.left] at hless
      omega
  | published o =>
      have hless := left_setBuild hi (.removed o)
      have hstep : s.step (.remove i) = some { s.setBuild i h (.removed o) with
          building := fun h' => if h' = h then none else s.building h' } := by
        rw [Manifests.step, hi]
      refine ⟨.remove i, _, rfl, rfl, hstep, rfl, ?_⟩
      show (s.setBuild i h (.removed o)).left < s.left
      simp only [BuildStage.left] at hless
      omega
  | removed o =>
      have hless := left_setBuild hi (.closed o)
      have hstep : s.step (.close i) = some (s.setBuild i h (.closed o)) := by
        rw [Manifests.step, hi]
      refine ⟨.close i, _, rfl, rfl, hstep, rfl, ?_⟩
      simp only [BuildStage.left] at hless
      omega

/-- While a build is not closed, some build goes on. -/
theorem goesOn (hgood : ∀ h, ∃ o, good h o = true) {i : ℕ} {b : Build H M}
    (hi : s.builds[i]? = some b) (hleft : b.stage.left ≠ 0) :
    ∃ a s', a.isBuild = true ∧ rightBuilds good s a = true ∧ s.step a = some s'
      ∧ s'.requests = s.requests ∧ s'.left < s.left := by
  by_cases hpermitted : b.stage.permitted = true
  · exact goesOn_of_permitted hgood hi hpermitted
  obtain ⟨h, stage⟩ := b
  cases stage with
  | queued =>
      by_cases hfree : s.permits < MANIFEST_BUILD_CONCURRENCY
      · have hless := left_setBuild hi .running
        refine ⟨.permit i, s.setBuild i h .running, rfl, rfl, ?_, rfl, ?_⟩
        · rw [Manifests.step, hi]
          exact if_pos hfree
        · simp only [BuildStage.left] at hless
          omega
      · -- someone has the permits
        have hpos : 0 < s.builds.countP fun b => b.stage.permitted :=
          Nat.lt_of_lt_of_le (by decide : 0 < MANIFEST_BUILD_CONCURRENCY) (not_lt.mp hfree)
        obtain ⟨c, hc, hhas⟩ := List.countP_pos_iff.mp hpos
        obtain ⟨j, hj⟩ := List.mem_iff_getElem?.mp hc
        exact goesOn_of_permitted hgood hj hhas
  | closed o => exact absurd rfl hleft
  | _ => exact absurd rfl hpermitted

/-- The builds alone come to their ends. -/
theorem Kept.settles (hk : s.Kept good) (hgood : ∀ h, ∃ o, good h o = true) :
    ∃ as s', (∀ a ∈ as, a.isBuild = true) ∧ (manifestRuns H M).run s as = some s'
      ∧ s'.requests = s.requests ∧ s'.Kept good ∧ ∀ b ∈ s'.builds, b.stage.left = 0 := by
  induction hn : s.left using Nat.strong_induction_on generalizing s with
  | _ n ih =>
      by_cases hall : ∀ b ∈ s.builds, b.stage.left = 0
      · exact ⟨[], s, fun a ha => absurd ha List.not_mem_nil, rfl, rfl, hk, hall⟩
      push Not at hall
      obtain ⟨b, hb, hleft⟩ := hall
      obtain ⟨i, hi⟩ := List.mem_iff_getElem?.mp hb
      obtain ⟨a, s₁, hbuild, hright, hstep, hreq, hless⟩ := goesOn hgood hi hleft
      obtain ⟨as, s', has, hrun, hreq', hkept, hclosed⟩ :=
        ih s₁.left (hn ▸ hless) (hk.step hright hstep) rfl
      refine ⟨a :: as, s', fun a' ha' => ?_, ?_, hreq'.trans hreq, hkept, hclosed⟩
      · rcases List.mem_cons.mp ha' with rfl | ha'
        · exact hbuild
        · exact has a' ha'
      · show ((manifestRuns H M).step s a).bind _ = _
        rw [show (manifestRuns H M).step s a = some s₁ from hstep]
        exact hrun

/-- Where a run has got to. -/
structure Exact (good : H → Option M → Bool) (s : Manifests H M) : Prop where
  single : ∀ (i j : ℕ) (b c : Build H M), s.builds[i]? = some b → s.builds[j]? = some c →
    b.stage.inFlight = true →
    c.stage.inFlight = true → b.hash = c.hash → i = j
  building : ∀ h i, s.building h = some i ↔
    ∃ stage, s.builds[i]? = some ⟨h, stage⟩ ∧ stage.inFlight = true
  permits : s.permits ≤ MANIFEST_BUILD_CONCURRENCY
  cache : (s.manifests.map Prod.fst).Nodup ∧ s.manifests.length ≤ MANIFESTS_CAP
    ∧ ∀ e ∈ s.manifests, good e.1 e.2 = true
  answered : ∀ r h o, s.requests r = .answered h o → good h o = true
  settles : ∃ as s', (∀ a ∈ as, a.isBuild = true) ∧ (manifestRuns H M).run s as = some s'
    ∧ s'.requests = s.requests
    ∧ ∀ r h i, s.requests r = .waiting h i → (s'.step (.wake r)).isSome = true

end Manifests

/-- Whoever asks, waits and leaves: one build of a hash at a time, at most
`MANIFEST_BUILD_CONCURRENCY` at work, each answer the outcome of a build
of its hash, and the builds alone bring every wait to its end. -/
theorem manifests_single_flight {H M : Type} [DecidableEq H] {good : H → Option M → Bool}
    (hgood : ∀ h, ∃ o, good h o = true) {s : Manifests H M}
    (h : (manifestRuns H M).ReachIf
      (fun s a => Manifests.rightBuilds good s a = true) s) : s.Exact good := by
  have hk : s.Kept good := by
    refine h.invariant (I := fun s => s.Kept good) ?_ fun _ _ _ _ hold hok hstep =>
      hold.step hok hstep
    rintro s rfl
    refine ⟨fun h i => ⟨(fun h => by cases h), fun h => ?_⟩, Nat.zero_le _,
      fun b hb => absurd hb List.not_mem_nil, List.nodup_nil, Nat.zero_le _,
      fun e he => absurd he List.not_mem_nil, (fun r h o hr => by cases hr),
      fun r h i hr => by cases hr⟩
    obtain ⟨stage, hstage, -⟩ := h
    rw [List.getElem?_nil] at hstage
    cases hstage
  refine ⟨fun i j b c hb hc hbin hcin hsame => ?_, hk.building, hk.permits,
    ⟨hk.nodup, hk.size, hk.cached⟩, hk.answered, ?_⟩
  · obtain ⟨h, bstage⟩ := b
    obtain ⟨h', cstage⟩ := c
    cases hsame
    have hone := (hk.building h i).mpr ⟨bstage, hb, hbin⟩
    have htwo := (hk.building h j).mpr ⟨cstage, hc, hcin⟩
    exact Option.some.inj (hone.symm.trans htwo)
  · obtain ⟨as, s', hbuild, hrun, hreq, hkept, hclosed⟩ := hk.settles hgood
    refine ⟨as, s', hbuild, hrun, hreq, fun r h i hr => ?_⟩
    rw [← hreq] at hr
    obtain ⟨stage, hstage⟩ := hkept.waiting r h i hr
    have hleft := hclosed _ (List.mem_of_getElem? hstage)
    rw [Manifests.step, hr]
    cases stage with
    | closed o =>
        simp only [hstage]
        rfl
    | _ => cases hleft

/-- The second request for a hash joins the build of the first, which
leaves; it gets what the build came to. -/
theorem manifests_single_flight_joined :
    ∃ s : Manifests ℕ ℕ, s.Exact (fun h o => o == some (h + 1))
      ∧ s.requests 1 = .answered 7 (some 8) ∧ s.builds.length = 1 := by
  have hrun : ((manifestRuns ℕ ℕ).runIf
      (fun s a => Manifests.rightBuilds (fun h o => o == some (h + 1)) s a = true) {}
      [.ask 0 7, .ask 1 7, .look 0, .look 1, .join 0, .join 1, .leave 0, .permit 0,
        .finish 0 (some 8), .publish 0, .remove 0, .close 0, .wake 1, .look 1]).map
          (fun s => (s.requests 1, s.builds.length)) = some (.answered 7 (some 8), 1) := by
    decide +kernel
  obtain ⟨s, hs, hat⟩ := Option.map_eq_some_iff.mp hrun
  rw [Prod.mk.injEq] at hat
  have hgood : ∀ h, ∃ o, (fun (h : ℕ) (o : Option ℕ) => o == some (h + 1)) h o = true :=
    fun h => ⟨some (h + 1), beq_self_eq_true _⟩
  exact ⟨s, manifests_single_flight hgood ((System.ReachIf.init rfl).runIf hs), hat⟩

end Narshare
