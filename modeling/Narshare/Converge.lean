/-
The mesh comes to agree: nodes that answer one another's requests, in
whatever order the requests, the answers and their updates arrive, end
with the same copy of every origin, its own.

# The run

An endless run of the mesh's own steps (Mesh.lean), in which nobody
exports, remints or loses its store. A pull round is several steps: the
answer is given when it is given, to the clocks the asker had when it
asked, and each update of it is applied later, if at all, with anything in
between. A round that is broken off is one whose updates are never
applied; a relayed or repeated one is applied elsewhere or again.
`Hears` is a round that is completed at last, with a certain origin not
among those it skipped.

# Why it ends, and where

A clock only moves forward, in the generations and up to the numbers that
its origin's log has (`finite_places`), so after some time no clock moves
any more. A round that begins then and is completed had nothing to hand
over: the budget always lets one origin through that is not skipped
(`exists_shipped`), and its body, coming to clocks that are still those of
the request, would have moved one (`Taken.place_lt`). What an origin knows
of itself has then come to everyone that hears of it, through whomever;
and copies with one clock hold the same.

What is assumed of the nodes is that they agree on who is in the mesh:
against a peer that knows more origins than the requester does, the budget
can go to those for ever.
-/
import Mathlib.Data.Finite.Prod
import Narshare.Index.Rounds
import Narshare.Lib.Gossip
import Narshare.Mesh

namespace Narshare

variable {cd : Codec} {peers : Origin → List Origin}

-- ============================================================ a clock's place

/-- The asker is behind, as far as places can be compared. -/
theorem Wants.of_place_lt {c c' : Clock} (hzero : c.generation = 0 → c.seq = 0)
    (h : c'.place < c.place) : Wants c (c'.generation, c'.seq) := by
  have hlt : c'.generation < c.generation
      ∨ c'.generation = c.generation ∧ c'.seq < c.seq := Prod.Lex.toLex_lt_toLex.mp h
  refine ⟨fun hg => ?_, hlt⟩
  have := hzero hg
  omega

theorem Wants.place_lt {c c' : Clock} (h : Wants c (c'.generation, c'.seq)) :
    c'.place < c.place := Prod.Lex.toLex_lt_toLex.mpr h.2

/-- A copy that follows a numbered log is sound. -/
theorem Follows.sound {log : EventLog} {r : Replica} (h : Follows log r)
    (hnum : ∀ g, SeqRun Event.seq 0 (log g)) : r.Sound where
  tail_le := h.tail_le
  row n hlo hhi := by
    have hlt : n - 1 < (log r.clock.generation).length := by
      have := h.seq_le
      omega
    have hget := List.getElem?_eq_getElem hlt
    refine ⟨_, (h.journal n _).mpr ⟨⟨hlo, hhi⟩, hget⟩, ?_⟩
    rw [(hnum _).num_get hget]
    omega
  outside n hout := by
    cases hj : r.journal n with
    | none => rfl
    | some e => exact absurd ((h.journal n e).mp hj).1 hout

/-- The places that a log has up to a generation. -/
def placesOf (log : EventLog) (gen : ℕ) : Set (ℕ ×ₗ ℕ) :=
  {p | (ofLex p).1 ≤ gen ∧ (ofLex p).2 ≤ (log (ofLex p).1).length}

theorem finite_placesOf (log : EventLog) (gen : ℕ) : (placesOf log gen).Finite := by
  let most := (Finset.range (gen + 1)).sup fun g => (log g).length
  refine Set.Finite.subset (((Set.finite_Iic gen).prod (Set.finite_Iic most)).image toLex) ?_
  rintro p ⟨hgen, hseq⟩
  refine ⟨ofLex p, ⟨hgen, hseq.trans ?_⟩, rfl⟩
  exact Finset.le_sup (f := fun g => (log g).length) (Finset.mem_range_succ_iff.mpr hgen)

/-- Where a node's copy of an origin stands. -/
def Mesh.knows (m : Mesh) (n o : Origin) : ℕ ×ₗ ℕ := ((m.node n).db.clock o).place

namespace Mesh.Inv

variable {m : Mesh}

/-- What an origin knows of itself is where its log ends. -/
theorem knows_self (h : Inv m) (o : Origin) :
    m.knows o o = toLex (m.gen o, (m.log o (m.gen o)).length) := by
  rw [← h.ownSeq, ← h.ownGen]
  rfl

/-- Nobody knows more of an origin than it does itself. -/
theorem place_le (h : Inv m) (n o : Origin) : m.knows n o ≤ m.knows o o := by
  have hgen := h.known n o
  have hseq := (h.follows n o).seq_le
  rw [Db.replica_clock] at hseq
  refine Prod.Lex.toLex_le_toLex.mpr ?_
  rw [h.ownGen, h.ownSeq]
  rcases hgen.lt_or_eq with hlt | heq
  · exact Or.inl hlt
  · rw [heq] at hseq
    exact Or.inr ⟨heq, hseq⟩

theorem seq_eq_zero (h : Inv m) {n o : Origin} (hg : ((m.node n).db.clock o).generation = 0) :
    ((m.node n).db.clock o).seq = 0 := by
  have hseq := (h.follows n o).seq_le
  rw [Db.replica_clock, hg, h.zero] at hseq
  exact Nat.le_zero.mp hseq

/-- Two nodes at one place hold the same. -/
theorem held_eq (h : Inv m) {n n' o : Origin} (hplace : m.knows n o = m.knows n' o) :
    ((m.node n).db.replica o).held = ((m.node n').db.replica o).held := by
  obtain ⟨hgen, hseq⟩ := Prod.mk.inj (toLex_inj.mp hplace)
  exact (h.follows n o).held_eq (h.follows n' o) hgen hseq

end Mesh.Inv

-- ================================================================== one step

section Steps

variable {cfg : Config} {s s' : Store} {o o' : Origin} {generation seq : ℕ}

/-- No suffix moves a clock back. -/
theorem place_le_applySuffix {events : List Event} {out : Apply}
    (h : applySuffix cd cfg s o generation events = .ok (out, s')) :
    (s.db.clock o').place ≤ (s'.db.clock o').place := by
  rcases replica_applySuffix h with rfl | ⟨-, taken, r, hfrom, hrep⟩
  · exact le_rfl
  rw [← Db.replica_clock, ← Db.replica_clock, hrep]
  split
  next he =>
    subst he
    refine Prod.Lex.toLex_le_toLex.mpr ?_
    rcases hfrom.generation with hgen | ⟨hlt, -, -⟩
    · exact Or.inr ⟨hgen.symm, Nat.le_add_right _ _⟩
    · exact Or.inl hlt
  next => exact le_rfl

/-- Nor does a snapshot. -/
theorem place_le_applySnapshot {held : List Bytes} {n : ℕ}
    (h : applySnapshot cfg s o generation seq held = .ok (n, s')) :
    (s.db.clock o').place ≤ (s'.db.clock o').place := by
  rw [← Db.replica_clock, ← Db.replica_clock, (replica_applySnapshot h).2]
  split
  next he =>
    obtain ⟨rfl, hfresh⟩ := he
    rw [staleSnapshot, Bool.or_eq_false_iff, Bool.and_eq_false_iff] at hfresh
    simp only [decide_eq_false_iff_not] at hfresh
    refine Prod.Lex.toLex_le_toLex.mpr ?_
    simp only [Replica.replace, Db.replica_clock]
    omega
  next => exact le_rfl

theorem place_le_applyReply (reply : Reply) :
    (s.db.clock o').place ≤ ((applyReply cd cfg s reply).db.clock o').place := by
  cases reply with
  | update up =>
      obtain ⟨o, g, seq, body, truncated⟩ := up
      match body with
      | none => exact le_rfl
      | some .upToDate => exact le_rfl
      | some (.suffix events) =>
          cases hap : applySuffix cd cfg s o g events with
          | error err => simp only [applyReply, hap]; exact le_rfl
          | ok done => simp only [applyReply, hap]; exact place_le_applySuffix hap
      | some (.snapshot held) =>
          cases hap : applySnapshot cfg s o g seq held with
          | error err => simp only [applyReply, hap]; exact le_rfl
          | ok done => simp only [applyReply, hap]; exact place_le_applySnapshot hap
  | range r =>
      cases hap : applySuffix cd cfg s r.origin r.generation r.events with
      | error err => simp only [applyReply, hap]; exact le_rfl
      | ok done => simp only [applyReply, hap]; exact place_le_applySuffix hap

/-- A pull takes an update as any reply is applied. -/
theorem takeUpdate_of_takes_eq {nanos : ℕ} {up : OriginUpdate} (h : cfg.takes up.origin) :
    (takeUpdate cd cfg nanos s up).2 = applyReply cd cfg s (.update up) := by
  rw [takeUpdate_of_takes h]
  obtain ⟨o, g, seq, body, truncated⟩ := up
  match body with
  | none => rfl
  | some .upToDate => rfl
  | some (.suffix events) =>
      cases hap : applySuffix cd cfg s o g events with
      | error err => simp only [applyReply, hap]
      | ok done => simp only [applyReply, hap]
  | some (.snapshot held) =>
      cases hap : applySnapshot cfg s o g seq held with
      | error err => simp only [applyReply, hap]
      | ok done => simp only [applyReply, hap]

end Steps

namespace Mesh

variable {m m' : Mesh} {a : Act}

/-- The steps that are neither an export nor a remint nor a loss. -/
def Act.quiet : Act → Bool
  | .exportOps _ _ _ | .remint _ _ _ | .lose _ _ => false
  | _ => true

/-- What the origins have said stays as it is. -/
theorem said_step (hquiet : a.quiet = true) (hs : m.step cd peers a = some m') :
    m'.log = m.log ∧ m'.gen = m.gen := by
  cases a with
  | exportOps n attests holds => cases hquiet
  | remint n floor nanos => cases hquiet
  | lose n nanos => cases hquiet
  | answer n req =>
      obtain ⟨b, -, rfl⟩ := Option.map_eq_some_iff.mp hs
      exact ⟨rfl, rfl⟩
  | apply n i =>
      obtain ⟨reply, -, rfl⟩ := Option.map_eq_some_iff.mp hs
      exact ⟨rfl, rfl⟩
  | mergeAttests n attests => cases hs; exact ⟨rfl, rfl⟩
  | recordWatermarks n peer clocks => cases hs; exact ⟨rfl, rfl⟩
  | compact n => cases hs; exact ⟨rfl, rfl⟩

theorem knows_setNode {s : Store} {n o : Origin} (n' : Origin)
    (h : ((m.node n).db.clock o).place ≤ (s.db.clock o).place) :
    m.knows n' o ≤ { m with node := Function.update m.node n s }.knows n' o := by
  by_cases hn : n' = n
  · subst hn
    simp only [knows, Function.update_self]
    exact h
  · simp only [knows, Function.update_of_ne hn]
    exact le_rfl

/-- No step moves a clock back. -/
theorem knows_step (hquiet : a.quiet = true) (hs : m.step cd peers a = some m')
    (n' o : Origin) : m.knows n' o ≤ m'.knows n' o := by
  have hsame : ∀ n (s' : Store), (∀ o, s'.db.replica o = (m.node n).db.replica o) →
      m.knows n' o ≤ { m with node := Function.update m.node n s' }.knows n' o := by
    intro n s' heq
    exact knows_setNode n' (congrArg (fun r : Replica => r.clock.place) (heq o)).ge
  cases a with
  | exportOps n attests holds => cases hquiet
  | remint n floor nanos => cases hquiet
  | lose n nanos => cases hquiet
  | answer n req =>
      obtain ⟨b, -, rfl⟩ := Option.map_eq_some_iff.mp hs
      exact le_rfl
  | apply n i =>
      obtain ⟨reply, -, rfl⟩ := Option.map_eq_some_iff.mp hs
      exact knows_setNode n' (place_le_applyReply reply)
  | mergeAttests n attests =>
      cases hs
      exact hsame n _ (replica_mergeAttests (m.node n) attests)
  | recordWatermarks n peer clocks =>
      cases hs
      exact hsame n _ (replica_recordWatermarks _ (m.node n) peer clocks)
  | compact n =>
      cases hs
      refine knows_setNode n' ?_
      exact compact_preserves _ (o := o)
        (P := fun r => ((m.node n).db.clock o).place ≤ r.clock.place) (m.node n)
        (fun r hr => hr.trans_eq (by
          rw [Clock.place, Clock.place, (r.compactTo_clock _).1, (r.compactTo_clock _).2]))
        le_rfl

end Mesh

-- ============================================================ a completed round

/-- Who is in the mesh, in everyone's configuration. -/
def Agreed (peers : Origin → List Origin) (members : Finset Origin) : Prop :=
  ∀ n ∈ members, ∀ o, o ∈ (nodeConfig peers n).originSet ↔ o ∈ members

/-- A member takes every member's updates but its own. -/
theorem Agreed.takes {members : Finset Origin} (h : Agreed peers members) {n o : Origin}
    (hn : n ∈ members) (ho : o ∈ members) (hne : o ≠ n) : (nodeConfig peers n).takes o :=
  ⟨hne, decide_eq_true ((h n hn o).mpr ho)⟩

/-- A run of the mesh in which nobody exports, remints or loses anything. -/
abbrev QuietRun (cd : Codec) (peers : Origin → List Origin) (run : ℕ → Mesh)
    (acts : ℕ → Mesh.Act) : Prop :=
  (meshSystem cd peers).Endless Mesh.Act.quiet run acts

/-- After time `T` node `n` begins a round with `r` that does not skip `o`,
and that is completed: `r` answers it, with what it has by then, and each
update that `n` takes is applied at `n` at some time after that. -/
def Hears (cd : Codec) (peers : Origin → List Origin) (run : ℕ → Mesh) (acts : ℕ → Mesh.Act)
    (o n r : Origin) (T : ℕ) : Prop :=
  ∃ asked ≥ T, ∃ answered ≥ asked, ∃ cursor skip, o ∉ skip
    ∧ acts answered
      = .answer r (roundRequest (nodeConfig peers n) ((run asked).node n) cursor skip)
    ∧ ∀ b, respond cd (nodeConfig peers r) ((run answered).node r)
        (roundRequest (nodeConfig peers n) ((run asked).node n) cursor skip) = some b →
      ∀ up ∈ b.origins, (nodeConfig peers n).takes up.origin →
        ∃ applied > answered, ∃ i, acts applied = .apply n i
          ∧ (run applied).net[i]? = some (.update up)

namespace QuietRun

variable {run : ℕ → Mesh} {acts : ℕ → Mesh.Act} {members : Finset Origin}

theorem inv (h : QuietRun cd peers run acts) (t : ℕ) : (run t).Inv := Mesh.Inv.reach (h.reach t)

theorem said (h : QuietRun cd peers run acts) (t : ℕ) :
    (run t).log = (run 0).log ∧ (run t).gen = (run 0).gen := by
  induction t with
  | zero => exact ⟨rfl, rfl⟩
  | succ t ih =>
      obtain ⟨hlog, hgen⟩ := Mesh.said_step (h.ok t) (h.step t)
      exact ⟨hlog.trans ih.1, hgen.trans ih.2⟩

/-- Every node's own copy stays where it is, and holds what it held. -/
theorem own (h : QuietRun cd peers run acts) (t : ℕ) (o : Origin) :
    (run t).knows o o = (run 0).knows o o
      ∧ (((run t).node o).db.replica o).held = (((run 0).node o).db.replica o).held := by
  obtain ⟨hlog, hgen⟩ := h.said t
  have hplace : (run t).knows o o = (run 0).knows o o := by
    rw [(h.inv t).knows_self, (h.inv 0).knows_self, hlog, hgen]
  obtain ⟨hg, hs⟩ := Prod.mk.inj (toLex_inj.mp hplace)
  refine ⟨hplace, Follows.held_eq ?_ ((h.inv 0).follows o o) hg hs⟩
  rw [← hlog]
  exact (h.inv t).follows o o

/-- A clock only ever has places that its origin's log has. -/
theorem finite_places (h : QuietRun cd peers run acts) (n o : Origin) :
    (Set.range fun t => (run t).knows n o).Finite := by
  refine (finite_placesOf ((run 0).log o) ((run 0).gen o)).subset ?_
  rintro p ⟨t, rfl⟩
  obtain ⟨hlog, hgen⟩ := h.said t
  have hknown := (h.inv t).known n o
  have hseq := ((h.inv t).follows n o).seq_le
  rw [hgen] at hknown
  rw [hlog] at hseq
  exact ⟨hknown, hseq⟩

/-- Where the members' clocks stand. -/
def standing (run : ℕ → Mesh) (t : ℕ) (n o : {o // o ∈ members}) : ℕ ×ₗ ℕ := (run t).knows n o

/-- A round that begins at rest and is completed had nothing to bring. -/
theorem knows_le_of_hears (h : QuietRun cd peers run acts) (hagree : Agreed peers members)
    {N : ℕ} (hrest : ∀ t ≥ N, ∀ n ∈ members, ∀ o ∈ members, (run t).knows n o = (run N).knows n o)
    {o n r : Origin} (ho : o ∈ members) (hn : n ∈ members) (hr : r ∈ members)
    (hhears : Hears cd peers run acts o n r N) : (run N).knows r o ≤ (run N).knows n o := by
  obtain ⟨asked, hasked, answered, hanswered, cursor, skip, hskip, -, happlied⟩ := hhears
  set req := roundRequest (nodeConfig peers n) ((run asked).node n) cursor skip with hreq
  by_contra hnot
  have hlt := not_le.mp hnot
  have hinv := h.inv answered
  have hrest' : ∀ n ∈ members, ∀ o ∈ members, (run answered).knows n o = (run N).knows n o :=
    hrest answered (hasked.trans hanswered)
  have htheirs : ∀ x ∈ members, theirClock req x = (((run asked).node n).db.clock x |>.generation,
      ((run asked).node n).db.clock x |>.seq) := by
    intro x hx
    rw [hreq, theirClock_roundRequest, sentClock, if_pos ((hagree n hn x).mpr hx)]
  -- what the answerer has above the request, it has above where the asker stands
  have hwants : ∀ x ∈ members, Wants (((run answered).node r).db.clock x) (theirClock req x) ↔
      (run N).knows n x < (run N).knows r x := by
    intro x hx
    rw [htheirs x hx, ← hrest asked hasked n hn x hx, ← hrest' r hr x hx]
    exact ⟨Wants.place_lt, Wants.of_place_lt fun hg => hinv.seq_eq_zero hg⟩
  obtain ⟨b, hb, -, horigins⟩ := respondBudgeted_origins cd (nodeConfig peers r)
    ((run answered).node r) req RESPONSE_BYTES_CAP rfl rfl
  obtain ⟨up, hup, hin, ⟨hw, hask⟩, hshipped⟩ := exists_shipped cd
    ((hagree r hr o).mpr ho) ⟨(hwants o ho).mpr hlt, hskip⟩
    (show 0 < RESPONSE_BYTES_CAP by decide)
  have hmem : up.origin ∈ members := (hagree r hr _).mp hin
  have hbehind := (hwants _ hmem).mp hw
  have htakes : (nodeConfig peers n).takes up.origin := by
    refine hagree.takes hn hmem fun hself => ?_
    rw [hself] at hbehind
    exact absurd ((h.inv N).place_le r n) (not_le.mpr hbehind)
  obtain ⟨applied, hlater, i, hact, hnet⟩ := happlied b hb up (horigins ▸ hup) htakes
  have hN : N ≤ applied := (hasked.trans hanswered).trans hlater.le
  -- the asker's clock is still the one it asked with
  obtain ⟨hgen, hseq⟩ := Prod.mk.inj (toLex_inj.mp
    ((hrest asked hasked n hn _ hmem).trans (hrest applied hN n hn _ hmem).symm))
  have htaken := taken_takeUpdate 0 ((run applied).node n) hshipped htakes
    ((hinv.follows r _).sound (hinv.numbered _)) (by rw [htheirs _ hmem, hgen, hseq])
  have hmoved := htaken.place_lt
    (body_ne_nil hshipped ((hinv.follows r _).sound (hinv.numbered _))) hask
    (by rw [Db.replica_clock, ← hgen, ← hseq, ← htheirs _ hmem]; exact hw)
  have hnext : (run (applied + 1)).node n
      = (takeUpdate cd (nodeConfig peers n) 0 ((run applied).node n) up).2 := by
    have hstep := h.step applied
    rw [hact] at hstep
    obtain ⟨reply, hreply, hnew⟩ := Option.map_eq_some_iff.mp hstep
    cases hnet.symm.trans hreply
    rw [← hnew, takeUpdate_of_takes_eq htakes]
    exact Function.update_self _ _ _
  rw [← hnext] at hmoved
  have hstill : (run (applied + 1)).knows n up.origin = (run applied).knows n up.origin :=
    (hrest _ (Nat.le_succ_of_le hN) n hn _ hmem).trans (hrest applied hN n hn _ hmem).symm
  exact absurd hstill (ne_of_gt hmoved)

/-- The run is gossip about where the clocks stand. -/
theorem gossip (h : QuietRun cd peers run acts) (hagree : Agreed peers members) :
    Gossip (@standing members run)
      fun o n r T => Hears cd peers run acts o n r T where
  grows t n o := Mesh.knows_step (h.ok t) (h.step t) n o
  learns _ hrest o n r hhears := h.knows_le_of_hears hagree
    (fun t ht n hn o ho => congrFun (congrFun (hrest t ht) ⟨n, hn⟩) ⟨o, ho⟩) o.2 n.2 r.2 hhears

end QuietRun

-- ============================================================== agreement

/-- Between members: who hears of `o` from whom, again and again. -/
abbrev HearsOf (cd : Codec) (peers : Origin → List Origin) (run : ℕ → Mesh)
    (acts : ℕ → Mesh.Act) {members : Finset Origin} :
    {o // o ∈ members} → {o // o ∈ members} → {o // o ∈ members} → Prop :=
  Recurs fun o n r => Hears cd peers run acts o n r

/-- From any state of the mesh, in whatever order requests are answered and
updates arrive, get lost, come late or twice: while nobody exports, remints
or loses its store, every node's own copy stays where it is, nobody knows
more of an origin than the origin, so that no pull makes it remint, and if
every member hears of every other, again and again, be it through third
ones, then from some time on every member has every origin's own clock and
holds exactly what the origin holds. -/
theorem mesh_converges {run : ℕ → Mesh} {acts : ℕ → Mesh.Act} (h : QuietRun cd peers run acts)
    {members : Finset Origin} (hagree : Agreed peers members)
    (hlinked : ∀ n o : {o // o ∈ members},
      Relation.ReflTransGen (HearsOf cd peers run acts o) n o) :
    (∀ t o, (run t).knows o o = (run 0).knows o o
        ∧ (((run t).node o).db.replica o).held = (((run 0).node o).db.replica o).held)
      ∧ (∀ t n o, (run t).knows n o ≤ (run t).knows o o)
      ∧ ∃ N, ∀ t ≥ N, ∀ n ∈ members, ∀ o ∈ members,
        (run t).knows n o = (run 0).knows o o
          ∧ (((run t).node n).db.replica o).held = (((run 0).node o).db.replica o).held := by
  refine ⟨h.own, fun t => (h.inv t).place_le, ?_⟩
  have hgossip := h.gossip hagree
  obtain ⟨N, hrest⟩ := hgossip.settles fun n o => h.finite_places n o
  refine ⟨N, fun t ht n hn o ho => ?_⟩
  have hle : (run N).knows o o ≤ (run N).knows n o :=
    hgossip.spreads hrest (hlinked ⟨n, hn⟩ ⟨o, ho⟩)
  have hrestn : (run t).knows n o = (run N).knows n o :=
    congrFun (congrFun (hrest t ht) ⟨n, hn⟩) ⟨o, ho⟩
  obtain ⟨hown, hheld⟩ := h.own t o
  have hplace : (run t).knows n o = (run t).knows o o := by
    rw [hrestn, hown, ← (h.own N o).1]
    exact le_antisymm ((h.inv N).place_le n o) hle
  exact ⟨hplace.trans hown, ((h.inv t).held_eq hplace).trans hheld⟩

-- ==================================================================== a pair

section Turns

/-- Who asks and who answers, three steps each. -/
def asking₂ (t : ℕ) : Origin := if t % 6 < 3 then Origin.ofByte 2 else Origin.ofByte 1

def answering₂ (t : ℕ) : Origin := if t % 6 < 3 then Origin.ofByte 1 else Origin.ofByte 2

/-- An answer, then its updates, the last one first. -/
def inTurns (m : Mesh) (t : ℕ) : Mesh.Act :=
  if t % 3 = 0 then
    .answer (answering₂ t) (roundRequest (nodeConfig pair (asking₂ t)) (m.node (asking₂ t)) [] [])
  else if m.net.length < t % 3 then .mergeAttests (asking₂ t) []
  else .apply (asking₂ t) (m.net.length - t % 3)

/-- The two nodes take turns. -/
def turns (m : Mesh) : ℕ → Mesh
  | 0 => m
  | t + 1 => ((turns m t).step Codec.plain pair (inTurns (turns m t) t)).getD (turns m t)

variable {m : Mesh}

theorem quietRun_turns (h : (meshSystem Codec.plain pair).Reach m) :
    QuietRun Codec.plain pair (turns m) fun t => inTurns (turns m t) t where
  start := h
  ok t := by
    rw [inTurns]
    split
    · rfl
    split
    · rfl
    · rfl
  step t := by
    have henabled : ∃ m', (turns m t).step Codec.plain pair (inTurns (turns m t) t) = some m' := by
      rw [inTurns]
      split
      · rw [Mesh.step]
        obtain ⟨b, hb, -⟩ := respondBudgeted_origins Codec.plain (nodeConfig pair (answering₂ t))
          ((turns m t).node (answering₂ t))
          (roundRequest (nodeConfig pair (asking₂ t)) ((turns m t).node (asking₂ t)) [] [])
          RESPONSE_BYTES_CAP rfl rfl
        exact ⟨_, congrArg (Option.map _) hb⟩
      split
      · exact ⟨_, rfl⟩
      next hturn hnet =>
        have hlt : (turns m t).net.length - t % 3 < (turns m t).net.length := by omega
        exact ⟨_, congrArg (Option.map _) (List.getElem?_eq_getElem hlt)⟩
    obtain ⟨m', hm'⟩ := henabled
    change (turns m t).step Codec.plain pair (inTurns (turns m t) t) = some (turns m (t + 1))
    rw [turns, hm']
    rfl

/-- Between answers nothing new is in flight. -/
theorem net_turns (h : (meshSystem Codec.plain pair).Reach m) {t : ℕ} (ht : t % 3 ≠ 0) :
    (turns m (t + 1)).net = (turns m t).net := by
  have hstep := (quietRun_turns h).step t
  change (turns m t).step Codec.plain pair (inTurns (turns m t) t) = _ at hstep
  rw [inTurns, if_neg ht] at hstep
  split at hstep
  · rw [← Option.some.inj hstep]
  · obtain ⟨reply, -, hnew⟩ := Option.map_eq_some_iff.mp hstep
    rw [← hnew]

theorem length_originSet_pair (n : Origin) : (nodeConfig pair n).originSet.length ≤ 2 := by
  have hmem : (nodeConfig pair n).originSet ⊆ n :: pair n := fun o ho =>
    List.mem_cons.mpr (Config.mem_originSet.mp ho)
  have hlen := (List.subperm_of_subset Config.nodup_originSet hmem).length_le
  refine hlen.trans ?_
  rw [pair]
  split
  · rfl
  · rfl

/-- Every turn is a round that is completed. -/
theorem hears_turns (h : (meshSystem Codec.plain pair).Reach m) {t T : ℕ} (hturn : t % 3 = 0)
    (ht : T ≤ t) (o : Origin) :
    Hears Codec.plain pair (turns m) (fun t => inTurns (turns m t) t) o (asking₂ t)
      (answering₂ t) T := by
  refine ⟨t, ht, t, le_rfl, [], [], List.not_mem_nil, if_pos hturn, fun b hb up hup _ => ?_⟩
  obtain ⟨b', hb', hranges, horigins⟩ := respondBudgeted_origins Codec.plain
    (nodeConfig pair (answering₂ t)) ((turns m t).node (answering₂ t))
    (roundRequest (nodeConfig pair (asking₂ t)) ((turns m t).node (asking₂ t)) [] [])
    RESPONSE_BYTES_CAP rfl rfl
  cases hb.symm.trans hb'
  -- what is in flight after the answer, and how far from the end the update is
  have hnet : (turns m (t + 1)).net = (turns m t).net ++ b.origins.map Reply.update := by
    have hstep := (quietRun_turns h).step t
    change (turns m t).step Codec.plain pair (inTurns (turns m t) t) = _ at hstep
    rw [inTurns, if_pos hturn, Mesh.step] at hstep
    obtain ⟨b', hb', hnew⟩ := Option.map_eq_some_iff.mp hstep
    cases hb.symm.trans hb'
    rw [← hnew, hranges]
    exact List.append_nil _
  obtain ⟨j, hj, hget⟩ := List.mem_iff_getElem.mp hup
  have hfew : b.origins.length ≤ 2 := by
    rw [horigins, answerUpdates]
    exact (List.length_filterMap_le _ _).trans (length_originSet_pair _)
  obtain ⟨k, hk⟩ : ∃ k, b.origins.length = j + k := ⟨b.origins.length - j, by omega⟩
  have hnetk : (turns m (t + k)).net = (turns m t).net ++ b.origins.map Reply.update := by
    rcases (by omega : k = 1 ∨ k = 2) with rfl | rfl
    · exact hnet
    · exact (net_turns h (by omega)).trans hnet
  have hlen : (turns m (t + k)).net.length = (turns m t).net.length + b.origins.length := by
    rw [hnetk, List.length_append, List.length_map]
  have hasker : asking₂ (t + k) = asking₂ t := by
    rw [asking₂, asking₂]
    congr 1
    exact propext ⟨fun _ => by omega, fun _ => by omega⟩
  refine ⟨t + k, by omega, (turns m t).net.length + j, ?_, ?_⟩
  · show inTurns (turns m (t + k)) (t + k) = _
    rw [inTurns, if_neg (by omega), if_neg (by omega), hasker, hlen]
    congr 1
    omega
  · rw [hnetk, List.getElem?_append_right (by omega), Nat.add_sub_cancel_left, List.getElem?_map,
      List.getElem?_eq_getElem hj, hget]
    rfl

end Turns

theorem agreed_pair : Agreed pair {Origin.ofByte 1, Origin.ofByte 2} := by
  intro n hn o
  rw [Config.mem_originSet]
  rcases Finset.mem_insert.mp hn with rfl | hn
  · show o = Origin.ofByte 1 ∨ o ∈ [Origin.ofByte 2] ↔ _
    rw [List.mem_singleton, Finset.mem_insert, Finset.mem_singleton]
  · rw [Finset.mem_singleton.mp hn]
    show o = Origin.ofByte 2 ∨ o ∈ [Origin.ofByte 1] ↔ _
    rw [List.mem_singleton, Finset.mem_insert, Finset.mem_singleton, or_comm]

/-- What node 1 of a pair has exported, node 2 comes to hold. -/
theorem mesh_converges_pair :
    ∃ m, (meshSystem Codec.plain pair).Reach m
      ∧ (m.node (Origin.ofByte 1)).db.isHeld (Origin.ofByte 1) (NarHash.ofByte 5) = true
      ∧ (m.node (Origin.ofByte 2)).db.isHeld (Origin.ofByte 1) (NarHash.ofByte 5) = false
      ∧ ∃ N, ∀ t ≥ N, ((turns m t).node (Origin.ofByte 2)).db.isHeld
        (Origin.ofByte 1) (NarHash.ofByte 5) = true := by
  have hrun : ((meshSystem Codec.plain pair).run (Mesh.boot pair fun _ => 7)
      [.exportOps (Origin.ofByte 1) [] [.add (NarHash.ofByte 5)]]).map (fun m => decide
        ((m.node (Origin.ofByte 1)).db.isHeld (Origin.ofByte 1) (NarHash.ofByte 5) = true
          ∧ (m.node (Origin.ofByte 2)).db.isHeld (Origin.ofByte 1) (NarHash.ofByte 5) = false))
      = some true := by decide +kernel
  obtain ⟨m, hm, hdone⟩ := Option.map_eq_some_iff.mp hrun
  obtain ⟨hone, htwo⟩ := of_decide_eq_true hdone
  have hboot : (meshSystem Codec.plain pair).init (Mesh.boot pair fun _ => 7) :=
    ⟨fun _ => 7, fun _ => Nat.succ_pos 6, rfl⟩
  have hreach : (meshSystem Codec.plain pair).Reach m := (System.Reach.start hboot).run hm
  have hlinked : ∀ n o : {o // o ∈ ({Origin.ofByte 1, Origin.ofByte 2} : Finset Origin)},
      Relation.ReflTransGen (HearsOf Codec.plain pair (turns m)
        (fun t => inTurns (turns m t) t) o) n o := by
    rintro ⟨n, hn⟩ ⟨o, ho⟩
    by_cases heq : n = o
    · subst heq
      exact .refl
    refine .single fun T => ?_
    rcases Finset.mem_insert.mp hn with rfl | hn
    · rcases Finset.mem_insert.mp ho with rfl | ho
      · exact absurd rfl heq
      · cases Finset.mem_singleton.mp ho
        have hhears := hears_turns hreach (t := 6 * T + 3) (T := T) (by omega) (by omega)
          (Origin.ofByte 2)
        rw [asking₂, answering₂, if_neg (by omega), if_neg (by omega)] at hhears
        exact hhears
    · cases Finset.mem_singleton.mp hn
      rcases Finset.mem_insert.mp ho with rfl | ho
      · have hhears := hears_turns hreach (t := 6 * T) (T := T) (by omega) (by omega)
          (Origin.ofByte 1)
        rw [asking₂, answering₂, if_pos (by omega), if_pos (by omega)] at hhears
        exact hhears
      · exact absurd (Finset.mem_singleton.mp ho).symm heq
  obtain ⟨-, -, N, hN⟩ := mesh_converges (quietRun_turns hreach) agreed_pair hlinked
  refine ⟨m, hreach, hone, htwo, N, fun t ht => ?_⟩
  obtain ⟨-, hheld⟩ := hN t ht (Origin.ofByte 2) (by decide) (Origin.ofByte 1) (by decide)
  exact (congrFun hheld _).trans hone

end Narshare
