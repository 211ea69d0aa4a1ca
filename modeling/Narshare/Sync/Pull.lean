/-
A whole pull round of one node against another as one step of the mesh:
the request with the asker's clocks and the origins it skips, the answer,
and every update taken.

The logs stay as they are, and so does every node's own copy: what others
know of it is no later than what it knows itself, so no round remints
(`takeUpdate_own`). A round that holds nothing back and is asked for
everything brings all that the answerer knows (`caughtUp_pull`).
-/
import Narshare.Converge

namespace Narshare

variable (cd : Codec) (peers : Origin → List Origin)

/-- Who pulls from whom: where the fact dump resumes, whose bodies are not
wanted, how much is answered at once, and what the asker's wall clock
shows. -/
structure Pull where
  asker : Origin
  answerer : Origin
  cursor : Bytes
  skip : List Origin
  budget : ℕ
  nanos : ℕ

namespace Mesh

/-- The updates of a round, what became of them, and the asker's store. -/
def roundBy (m : Mesh) (p : Pull) : List OriginUpdate × List Outcome × Store :=
  pullRound cd (nodeConfig peers p.asker) (nodeConfig peers p.answerer) (m.node p.answerer)
    (m.node p.asker) p.cursor p.skip p.budget p.nanos

/-- One pull round, as a step of the mesh. -/
def pull (m : Mesh) (p : Pull) : Mesh :=
  { m with node := Function.update m.node p.asker (m.roundBy cd peers p).2.2 }

theorem node_pull_asker (m : Mesh) (p : Pull) :
    (m.pull cd peers p).node p.asker = (m.roundBy cd peers p).2.2 := Function.update_self _ _ _

theorem node_pull_of_ne (m : Mesh) {p : Pull} {n : Origin} (h : n ≠ p.asker) :
    (m.pull cd peers p).node n = m.node n := Function.update_of_ne h _ _

/-- The answer to a round. -/
def bundle (m : Mesh) (p : Pull) : Option RespondBundle :=
  respondBudgeted cd (nodeConfig peers p.answerer) (m.node p.answerer)
    (roundRequest (nodeConfig peers p.asker) (m.node p.asker) p.cursor p.skip) p.budget

end Mesh

variable {cd peers}

-- ============================================================== the updates

section TakeUpdates

variable {cfg : Config} {s : Store} {log : Origin → EventLog} {gen : Origin → ℕ}

/-- The update is not about a later life of the node itself. -/
def Unsurprising (cfg : Config) (s : Store) (up : OriginUpdate) : Prop :=
  up.origin = cfg.selfName →
    ¬ (up.generation > (s.db.clock cfg.selfName).generation
      ∨ (up.generation = (s.db.clock cfg.selfName).generation
        ∧ up.seq > (s.db.clock cfg.selfName).seq))

/-- Such an update about the node itself changes nothing. -/
theorem takeUpdate_own (cd : Codec) {nanos : ℕ} {up : OriginUpdate}
    (hself : up.origin = cfg.selfName) (h : Unsurprising cfg s up) :
    takeUpdate cd cfg nanos s up = (.own false, s) := by
  rw [takeUpdate, if_pos hself]
  exact if_neg (h hself)

theorem NodeOk.trans {s' s'' : Store} (h : NodeOk cfg log gen s s')
    (h' : NodeOk cfg log gen s' s'') : NodeOk cfg log gen s s'' where
  follows := h'.follows
  known := h'.known
  ownGen := h'.ownGen.trans h.ownGen
  ownSeq := h'.ownSeq.trans h.ownSeq

/-- Taking an update that its origin's log bears out keeps a node right. -/
theorem nodeOk_takeUpdate (h : ∀ o, Follows (log o) (s.db.replica o))
    (hk : ∀ o, (s.db.clock o).generation ≤ gen o) (nanos : ℕ) {up : OriginUpdate}
    (hown : Unsurprising cfg s up) (hok : ReplyOk log (.update up))
    (hg : up.generation ≤ gen up.origin) :
    NodeOk cfg log gen s (takeUpdate cd cfg nanos s up).2 := by
  have hid : NodeOk cfg log gen s s := .of_eq h hk fun _ => rfl
  by_cases hself : up.origin = cfg.selfName
  · rw [takeUpdate_own cd hself hown]
    exact hid
  by_cases hknown : cfg.isKnownOrigin up.origin = true
  · rw [takeUpdate_of_takes_eq ⟨hself, hknown⟩]
    exact nodeOk_applyReply h hk hok hg
  · rw [takeUpdate, if_neg hself, if_pos (Bool.eq_false_iff.mpr hknown)]
    exact hid

theorem nodeOk_takeUpdates (cd : Codec) (nanos : ℕ) {ups : List OriginUpdate}
    (h : ∀ o, Follows (log o) (s.db.replica o))
    (hk : ∀ o, (s.db.clock o).generation ≤ gen o)
    (hups : ∀ up ∈ ups, Unsurprising cfg s up ∧ ReplyOk log (.update up)
      ∧ up.generation ≤ gen up.origin) :
    NodeOk cfg log gen s (takeUpdates cd cfg nanos s ups).2
      ∧ (takeUpdates cd cfg nanos s ups).2.db.replica cfg.selfName
        = s.db.replica cfg.selfName := by
  induction ups generalizing s with
  | nil => exact ⟨.of_eq h hk fun _ => rfl, rfl⟩
  | cons up ups ih =>
      obtain ⟨hown, hok, hg⟩ := hups up List.mem_cons_self
      have hone : NodeOk cfg log gen s (takeUpdate cd cfg nanos s up).2 :=
        nodeOk_takeUpdate h hk nanos hown hok hg
      have hself : (takeUpdate cd cfg nanos s up).2.db.replica cfg.selfName
          = s.db.replica cfg.selfName := by
        by_cases hname : up.origin = cfg.selfName
        · rw [takeUpdate_own cd hname hown]
        · exact replica_takeUpdate_of_ne nanos s (Ne.symm hname)
      obtain ⟨hrest, hselves⟩ := ih hone.follows hone.known fun up' hup' => by
        obtain ⟨hown', hrest'⟩ := hups up' (List.mem_cons_of_mem _ hup')
        refine ⟨fun hname => ?_, hrest'⟩
        rw [hone.ownGen, hone.ownSeq]
        exact hown' hname
      exact ⟨hone.trans hrest, hselves.trans hself⟩

end TakeUpdates

-- ================================================================= one round

/-- A round moves no clock back. -/
theorem Taken.place_le {responder : Db} {skip : List Origin} {o : Origin} {r r' : Replica}
    {up : OriginUpdate} {out : Outcome} (h : Taken responder skip o r up out r') :
    r.clock.place ≤ r'.clock.place := by
  cases h with
  | upToDate => exact le_rfl
  | clockOnly => exact le_rfl
  | deferred => exact le_rfl
  | snapshot _ hw => exact hw.place_lt.le
  | suffix events _ hne hgen =>
      refine Prod.Lex.toLex_le_toLex.mpr (Or.inr ⟨hgen, ?_⟩)
      simp only [Replica.extend]
      omega

/-- What becomes of an update is told beside it. -/
theorem outcome_of_mem {ups : List OriginUpdate} {outs : List Outcome}
    (hlen : outs.length = ups.length) {o : Origin} (ho : o ∈ ups.map OriginUpdate.origin) :
    ∃ up out, (up, out) ∈ ups.zip outs ∧ up.origin = o ∧ up ∈ ups ∧ out ∈ outs := by
  obtain ⟨up, hup, rfl⟩ := List.mem_map.mp ho
  obtain ⟨i, hi, hget⟩ := List.mem_iff_getElem.mp hup
  have hout : i < outs.length := hlen ▸ hi
  have hboth : i < (ups.zip outs).length := by
    rw [List.length_zip]
    exact lt_min hi hout
  refine ⟨up, outs[i], ?_, rfl, hup, List.getElem_mem hout⟩
  exact List.mem_iff_getElem.mpr ⟨i, hboth, by rw [List.getElem_zip, hget]⟩

theorem RoundOk.place_le {cfg rcfg : Config} {responder s s' : Store} {skip : List Origin}
    {ups : List OriginUpdate} {outs : List Outcome}
    (h : RoundOk cfg rcfg responder s skip ups outs s') {o : Origin} (ho : cfg.takes o) :
    (s.db.clock o).place ≤ (s'.db.clock o).place := by
  by_cases hin : o ∈ ups.map OriginUpdate.origin
  · obtain ⟨up, out, hmem, rfl, -⟩ := outcome_of_mem h.length hin
    exact (h.taken up out hmem ho).place_le
  · rw [← Db.replica_clock, ← Db.replica_clock, (h.silent o ho hin).1]

namespace Mesh.Inv

variable {m : Mesh}

variable (cd peers) in
/-- What a pull makes of the asker. -/
theorem nodeOk_pull (h : Inv m) (p : Pull) :
    NodeOk (nodeConfig peers p.asker) m.log m.gen (m.node p.asker)
        ((m.pull cd peers p).node p.asker)
      ∧ ((m.pull cd peers p).node p.asker).db.replica p.asker
        = (m.node p.asker).db.replica p.asker := by
  rw [Mesh.node_pull_asker, roundBy, pullRound]
  split
  next b hb =>
    have hmerge : ∀ o, (mergeAttests cd (m.node p.asker) b.attests).2.db.replica o
        = (m.node p.asker).db.replica o :=
      fun o => replica_mergeAttests (m.node p.asker) b.attests o
    have hclock : ∀ o, (mergeAttests cd (m.node p.asker) b.attests).2.db.clock o
        = (m.node p.asker).db.clock o := fun o => congrArg Replica.clock (hmerge o)
    have hfirst : NodeOk (nodeConfig peers p.asker) m.log m.gen (m.node p.asker)
        (mergeAttests cd (m.node p.asker) b.attests).2 :=
      .of_eq (h.follows p.asker) (h.known p.asker) hmerge
    have hups : ∀ up ∈ b.origins,
        Unsurprising (nodeConfig peers p.asker) (mergeAttests cd (m.node p.asker) b.attests).2 up
          ∧ ReplyOk m.log (.update up) ∧ up.generation ≤ m.gen up.origin := by
      intro up hup
      have hship := shipped_respond hb up hup
      refine ⟨fun hname hnew => ?_, replyOk_shipped (h.follows p.answerer) h.numbered hship, ?_⟩
      · -- the answerer does not know more of us than we do
        have hle := Prod.Lex.toLex_le_toLex.mp (h.place_le p.answerer p.asker)
        rw [hship.generation, hship.seq, hname, hclock, nodeConfig_selfName] at hnew
        omega
      · rw [hship.generation]
        exact h.known p.answerer up.origin
    obtain ⟨hrest, hself⟩ :=
      nodeOk_takeUpdates cd p.nanos hfirst.follows hfirst.known hups
    exact ⟨hfirst.trans hrest, hself.trans (hmerge p.asker)⟩
  next => exact ⟨.of_eq (h.follows p.asker) (h.known p.asker) fun _ => rfl, rfl⟩

theorem pull (h : Inv m) (p : Pull) : Inv (m.pull cd peers p) := by
  have hok := (h.nodeOk_pull cd peers p).1
  rw [Mesh.node_pull_asker] at hok
  exact h.setNode hok

/-- A pull leaves every node's own copy alone. -/
theorem own_pull (h : Inv m) (p : Pull) (o : Origin) :
    ((m.pull cd peers p).node o).db.replica o = (m.node o).db.replica o := by
  by_cases ho : o = p.asker
  · subst ho
    exact (h.nodeOk_pull cd peers p).2
  · rw [Mesh.node_pull_of_ne cd peers m ho]

/-- What a pull does at the asker, with the answerer's clocks in order. -/
theorem roundOk_pull (h : Inv m) {p : Pull} (hbudget : 0 < p.budget) {b : RespondBundle}
    (hb : m.bundle cd peers p = some b) :
    RoundOk (nodeConfig peers p.asker) (nodeConfig peers p.answerer) (m.node p.answerer)
      (m.node p.asker) p.skip b.origins (m.roundBy cd peers p).2.1
      ((m.pull cd peers p).node p.asker) := by
  have hround := @roundOk_pullRound cd (nodeConfig peers p.asker) (nodeConfig peers p.answerer)
    (m.node p.answerer) (m.node p.asker) p.cursor p.skip p.budget p.nanos
    (fun o => (h.follows p.answerer o).sound (h.numbered o)) hbudget
  have horigins : (m.roundBy cd peers p).1 = b.origins := by
    rw [Mesh.bundle] at hb
    rw [roundBy, pullRound, hb]
  rw [← horigins, Mesh.node_pull_asker]
  exact hround

end Mesh.Inv

-- ============================================================ what is learnt

/-- Whatever `p` knows of the members, `n` knows. -/
def CaughtUp (members : Finset Origin) (m : Mesh) (n p : Origin) : Prop :=
  ∀ o ∈ members, m.knows p o ≤ m.knows n o

/-- Where someone learns, and `p` does not, everyone stays caught up. -/
theorem CaughtUp.mono {members : Finset Origin} {m m' : Mesh} {n p : Origin}
    (h : CaughtUp members m n p) (hn : ∀ o ∈ members, m.knows n o ≤ m'.knows n o)
    (hp : ∀ o ∈ members, m'.knows p o ≤ m.knows p o) : CaughtUp members m' n p :=
  fun o ho => (hp o ho).trans ((h o ho).trans (hn o ho))

section Knows

variable {m : Mesh} {members : Finset Origin}

theorem knows_pull_of_ne (m : Mesh) {p : Pull} {n : Origin} (h : n ≠ p.asker) (o : Origin) :
    (m.pull cd peers p).knows n o = m.knows n o := by
  rw [Mesh.knows, Mesh.node_pull_of_ne cd peers m h]
  rfl

/-- What a node knows of itself, no pull moves. -/
theorem knows_own_pull (h : m.Inv) (p : Pull) (o : Origin) :
    (m.pull cd peers p).knows o o = m.knows o o :=
  congrArg (fun r : Replica => r.clock.place) (h.own_pull p o)

theorem knows_pull_le (h : m.Inv) (hagree : Agreed peers members) {p : Pull}
    (hasker : p.asker ∈ members) (hbudget : 0 < p.budget) {b : RespondBundle}
    (hb : m.bundle cd peers p = some b) (n : Origin) {o : Origin} (ho : o ∈ members) :
    m.knows n o ≤ (m.pull cd peers p).knows n o := by
  by_cases hname : n = p.asker
  · subst hname
    by_cases hself : o = p.asker
    · subst hself
      exact (knows_own_pull h p p.asker).ge
    · exact (h.roundOk_pull hbudget hb).place_le (hagree.takes hasker ho hself)
  · exact (knows_pull_of_ne m hname o).ge

/-- Nothing was deferred, cut short or skipped. -/
def RespondBundle.whole (b : RespondBundle) : Bool :=
  b.origins.all fun up => !up.truncated && up.body.isSome

/-- A round that holds nothing back brings all that the answerer knows. -/
theorem caughtUp_pull (h : m.Inv) (hagree : Agreed peers members) {p : Pull}
    (hasker : p.asker ∈ members) (hanswerer : p.answerer ∈ members) (hne : p.answerer ≠ p.asker)
    (hbudget : 0 < p.budget) {b : RespondBundle} (hb : m.bundle cd peers p = some b)
    (hwhole : b.whole = true) :
    CaughtUp members (m.pull cd peers p) p.asker p.answerer := by
  intro o ho
  rw [knows_pull_of_ne m hne]
  by_cases hself : o = p.asker
  · -- nobody knows more of the asker than it does
    subst hself
    rw [knows_own_pull h]
    exact h.place_le p.answerer p.asker
  have htakes := hagree.takes hasker ho hself
  have hround := h.roundOk_pull hbudget hb
  have hle : ¬ Wants ((m.node p.answerer).db.clock o)
      (((m.node p.asker).db.clock o).generation, ((m.node p.asker).db.clock o).seq) →
      m.knows p.answerer o ≤ m.knows p.asker o := by
    intro hnot
    by_contra hlt
    exact hnot (Wants.of_place_lt (fun hg => h.seq_eq_zero hg) (not_le.mp hlt))
  by_cases hin : o ∈ b.origins.map OriginUpdate.origin
  · obtain ⟨up, out, hmem, rfl, hup, -⟩ := outcome_of_mem hround.length hin
    obtain ⟨htrunc, hbody⟩ : up.truncated = false ∧ up.body.isSome = true := by
      have hall := List.all_eq_true.mp hwhole up hup
      simpa using hall
    have htaken := hround.taken up out hmem htakes
    generalize hr : (m.node p.asker).db.replica up.origin = r at htaken
    generalize hr' : ((m.pull cd peers p).node p.asker).db.replica up.origin = r' at htaken
    have hafter : (m.pull cd peers p).knows p.asker up.origin = r'.clock.place := by
      rw [← hr']
      rfl
    rw [hafter]
    cases htaken with
    | upToDate _ hnot =>
        rw [← hr] at hnot ⊢
        exact hle hnot
    | clockOnly hnone => rw [hnone] at hbody; cases hbody
    | deferred _ _ htr => rw [htrunc] at htr; cases htr
    | snapshot => exact le_rfl
    | suffix events _ hne hgen hend =>
        rw [htrunc, if_neg Bool.false_ne_true] at hend
        refine le_of_eq ?_
        rw [Replica.extend, hend]
        rfl
  · obtain ⟨hsame, hnot⟩ := hround.silent o htakes hin
    have hset : o ∈ (nodeConfig peers p.answerer).originSet := (hagree _ hanswerer o).mpr ho
    have hset' : o ∈ (nodeConfig peers p.asker).originSet := (hagree _ hasker o).mpr ho
    have hnot' := hnot hset
    rw [sentClock, if_pos hset'] at hnot'
    have hsame' := congrArg (fun r => r.clock.place) hsame
    exact (hle hnot').trans_eq hsame'.symm

/-- Whether an update changed anything (`pull_from_inner`, `changed`). -/
def Outcome.changed : Outcome → Bool
  | .suffix (.applied n) => decide (0 < n)
  | .snapshot _ => true
  | _ => false

/-- A round whose updates changed nothing leaves the asker as it was. -/
theorem knows_pull_of_unchanged (h : m.Inv) (hagree : Agreed peers members) {p : Pull}
    (hasker : p.asker ∈ members) (hbudget : 0 < p.budget) {b : RespondBundle}
    (hb : m.bundle cd peers p = some b)
    (hsame : ∀ out ∈ (m.roundBy cd peers p).2.1, out.changed = false) {o : Origin}
    (ho : o ∈ members) : (m.pull cd peers p).knows p.asker o = m.knows p.asker o := by
  by_cases hself : o = p.asker
  · rw [hself]
    exact knows_own_pull h p p.asker
  have htakes := hagree.takes hasker ho hself
  have hround := h.roundOk_pull hbudget hb
  by_cases hin : o ∈ b.origins.map OriginUpdate.origin
  · obtain ⟨up, out, hmem, rfl, -, hout⟩ := outcome_of_mem hround.length hin
    have hquiet : out.changed = false := hsame out hout
    have htaken := hround.taken up out hmem htakes
    generalize hr : (m.node p.asker).db.replica up.origin = r at htaken
    generalize hr' : ((m.pull cd peers p).node p.asker).db.replica up.origin = r' at htaken
    have hafter : (m.pull cd peers p).knows p.asker up.origin = r'.clock.place := by
      rw [← hr']
      rfl
    have hbefore : m.knows p.asker up.origin = r.clock.place := by
      rw [← hr]
      rfl
    rw [hafter, hbefore]
    cases htaken with
    | upToDate => rfl
    | clockOnly => rfl
    | deferred => rfl
    | snapshot => cases hquiet
    | suffix events _ hne =>
        have hpos := List.length_pos_of_ne_nil hne
        exact absurd hquiet (by simp [Outcome.changed, hpos])
  · exact congrArg (fun r => r.clock.place) (hround.silent o htakes hin).1

end Knows

end Narshare
