/-
What a store is for, with no backend in it.

# The catalog

A `Catalog` has what the index asks a store about: a replica for each
origin, which origins it has a clock of, how far each peer has seen each
origin, and the table of facts. `Catalog.step` is the meaning of a call;
a backend refines the catalog when its tables can be read as one and its
calls, answer and effect, are this (Rocks.lean and Postgres.lean hold
the two backends, Backends.lean both refinements).

Two things are left to the backends here. The order in which a
replacement makes its changes does not matter. And a watermark row of 0
is no watermark row: the index reads one that is missing as 0.

# Calls as the index issues them

`Issued` is what the index keeps to: the journal rows it hands over are
numbered exactly from the expected clock to the new one, it compacts to
a floor within the clock, and every fact has passed `well_formed` and
has a path that is a string. `Catalog.Inv` is what a catalog is like that
has had no other calls. A journal then has no row at or below its tail,
so a backend that deletes everything through a floor deletes no more
than one that starts at the tail; and every fact has a hash part of 32
bytes, so that a hash part and a NAR hash written one behind the other
can be told apart again.
-/
import Narshare.Text
import Narshare.Lib.SeqRun
import Narshare.Store.Raw

namespace Narshare

-- ================================================================ the catalog

/-- An origin that nothing is known of. -/
def Replica.blank : Replica := ⟨{}, fun _ => none, fun _ => false⟩

/-- What a store holds. -/
structure Catalog where
  known : Origin → Bool := fun _ => false
  replica : Origin → Replica := fun _ => Replica.blank
  marks : Origin → Origin → ℕ := fun _ _ => 0
  facts : FactTable := FactTable.empty

namespace Catalog

/-- One origin's replica replaced. -/
def write (l : Catalog) (o : Origin) (r : Replica) : Catalog :=
  { l with
    known := fun o' => if o' = o then true else l.known o'
    replica := fun o' => if o' = o then r else l.replica o' }

/-- What a call answers, where it answers at all, and what it leaves. -/
def step (l : Catalog) : RawOp → Bool × Catalog
  | .applyEvents o expect set journal holds attests =>
      let r := l.replica o
      if (r.clock.generation, r.clock.seq) ≠ expect then (false, l)
      else (true, { l.write o (r.extend set journal holds) with
        facts := l.facts.absorbAll attests })
  | .mergeAttestations attests => (true, { l with facts := l.facts.absorbAll attests })
  | .setGeneration o generation => (true, l.write o ((l.replica o).stamp generation))
  | .replaceHoldings o generation seq held _ =>
      if staleSnapshot (l.replica o).clock generation seq then (false, l)
      else (true, l.write o (.replace generation seq held))
  | .compactJournal o floor =>
      let r := l.replica o
      (true, if floor ≤ r.clock.tailSeq then l else l.write o (r.compactTo floor))
  | .retainOrigins keep =>
      (true, { l with
        known := fun o => if l.known o = true ∧ o ∉ keep then false else l.known o
        replica := fun o =>
          if l.known o = true ∧ o ∉ keep then Replica.blank else l.replica o
        marks := fun p o => if p ∈ keep ∧ o ∈ keep then l.marks p o else 0 })
  | .advanceWatermark peer o seq =>
      (true, { l with
        marks := fun p o' =>
          if p = peer ∧ o' = o then max (l.marks p o') seq else l.marks p o' })

end Catalog

-- ===================================================== calls of the index

/-- A fact the index hands to a store. -/
structure Admissible (a : Attestation) : Prop where
  wellFormed : wellFormed a = true
  path : isUtf8 a.storePath = true

/-- The facts that a call hands over. -/
def RawOp.attests : RawOp → List Attestation
  | .applyEvents _ _ _ _ _ attests => attests
  | .mergeAttestations attests => attests
  | _ => []

/-- A call as the index makes it, with `seq` the sequence numbers of the
store's clocks. -/
def RawOp.Issued (seq : Origin → ℕ) : RawOp → Prop
  | .applyEvents _ expect set journal _ attests =>
      SeqRun Prod.fst expect.2 journal ∧ set.2 = expect.2 + journal.length
        ∧ ∀ a ∈ attests, Admissible a
  | .mergeAttestations attests => ∀ a ∈ attests, Admissible a
  | .compactJournal o floor => floor ≤ seq o
  | _ => True

instance (a : Attestation) : Decidable (Admissible a) :=
  decidable_of_iff (wellFormed a = true ∧ isUtf8 a.storePath = true)
    ⟨fun h => ⟨h.1, h.2⟩, fun h => ⟨h.wellFormed, h.path⟩⟩

instance (seq : Origin → ℕ) : (op : RawOp) → Decidable (op.Issued seq)
  | .applyEvents _ expect set journal _ attests =>
      inferInstanceAs (Decidable (SeqRun Prod.fst expect.2 journal
        ∧ set.2 = expect.2 + journal.length ∧ ∀ a ∈ attests, Admissible a))
  | .mergeAttestations attests => inferInstanceAs (Decidable (∀ a ∈ attests, Admissible a))
  | .compactJournal o floor => inferInstanceAs (Decidable (floor ≤ seq o))
  | .setGeneration .. | .replaceHoldings .. | .retainOrigins _ | .advanceWatermark .. =>
      inferInstanceAs (Decidable True)

/-- The facts of a call that is issued have been admitted. -/
theorem RawOp.Issued.admissible {seq : Origin → ℕ} {op : RawOp} (h : op.Issued seq) :
    ∀ a ∈ op.attests, Admissible a := by
  cases op with
  | applyEvents o expect set journal holds attests => exact h.2.2
  | mergeAttestations attests => exact h
  | _ => exact fun a ha => absurd ha List.not_mem_nil

/-- The sequence numbers of a catalog. -/
def Catalog.seq (l : Catalog) (o : Origin) : ℕ := (l.replica o).clock.seq

-- ============================================================= the invariant

/-- A replica whose history begins above its tail. -/
structure Replica.Trimmed (r : Replica) : Prop where
  tail_le : r.clock.tailSeq ≤ r.clock.seq
  low : ∀ n, n ≤ r.clock.tailSeq → r.journal n = none

namespace Replica.Trimmed

variable {r : Replica}

/-- A copy with nothing in it is trimmed. -/
theorem blank : Replica.blank.Trimmed := ⟨le_rfl, fun _ _ => rfl⟩

/-- So is one that a snapshot has just replaced: its tail is its seq. -/
theorem replace (generation seq : ℕ) (held : List NarHash) :
    (Replica.replace generation seq held).Trimmed := ⟨le_rfl, fun _ _ => rfl⟩

/-- A new generation changes neither the tail nor the journal. -/
theorem stamp (h : r.Trimmed) (generation : ℕ) : (r.stamp generation).Trimmed :=
  ⟨h.tail_le, h.low⟩

/-- New rows are above the clock, and so above the tail. -/
theorem extend (h : r.Trimmed) {set : ℕ × ℕ} {journal : List (ℕ × Event)}
    (holds : List HoldOp) (hrun : SeqRun Prod.fst r.clock.seq journal)
    (hset : set.2 = r.clock.seq + journal.length) :
    (r.extend set journal holds).Trimmed := by
  have htail := h.tail_le
  constructor
  · show r.clock.tailSeq ≤ set.2
    omega
  · intro n hn
    change n ≤ r.clock.tailSeq at hn
    have habove : ∀ e ∈ journal, e.1 ≠ n := fun e he heq => by
      have := (hrun.bounds he).1
      omega
    have hkeep : ∀ (rows : List (ℕ × Event)) (b : Option Event), (∀ e ∈ rows, e.1 ≠ n) →
        rows.foldl (fun o e => if e.1 = n then some e.2 else o) b = b := by
      intro rows b hrows
      induction rows generalizing b with
      | nil => rfl
      | cons e rows ih =>
          rw [List.foldl_cons, if_neg (hrows e List.mem_cons_self)]
          exact ih b fun e' he' => hrows e' (List.mem_cons_of_mem _ he')
    exact (hkeep journal _ habove).trans (h.low n hn)

/-- Compaction up to a floor the clock has reached leaves nothing at or below
the new tail. -/
theorem compactTo (h : r.Trimmed) {floor : ℕ} (hfloor : floor ≤ r.clock.seq) :
    (r.compactTo floor).Trimmed := by
  rcases le_or_gt floor r.clock.tailSeq with hle | hlt
  · rw [Replica.compactTo_of_le hle]
    exact h
  · rw [Replica.compactTo_of_lt hlt]
    refine ⟨hfloor, fun n hn => ?_⟩
    change n ≤ floor at hn
    simp only
    split
    next => rfl
    next hout => exact h.low n (by omega)

end Replica.Trimmed

/-- What the calls of the index make of a catalog, `taken` being every
fact handed over so far. -/
structure Catalog.Inv (l : Catalog) (taken : List Attestation) : Prop where
  trimmed : ∀ o, (l.replica o).Trimmed
  stems : ∀ pathKey a, l.facts.rows.get pathKey = some a → Stems taken a
  admissible : ∀ a ∈ taken, Admissible a

namespace Catalog

variable {l : Catalog} {taken : List Attestation}

@[simp] theorem write_known (o : Origin) (r : Replica) (o' : Origin) :
    (l.write o r).known o' = if o' = o then true else l.known o' := rfl

@[simp] theorem write_replica (o : Origin) (r : Replica) (o' : Origin) :
    (l.write o r).replica o' = if o' = o then r else l.replica o' := rfl

/-- Every fact a call leaves stems from what has been handed over. -/
theorem stems_step {op : RawOp} (h : l.Inv taken) {pathKey : Bytes} {a : Attestation}
    (ha : (l.step op).2.facts.rows.get pathKey = some a) : Stems (taken ++ op.attests) a := by
  have hold : ∀ pk b, l.facts.rows.get pk = some b → Stems (taken ++ op.attests) b :=
    fun pk b hb => (h.stems pk b hb).mono fun _ => List.mem_append_left _
  have hnew : ∀ attests, op.attests = attests →
      (l.facts.absorbAll attests).rows.get pathKey = some a → Stems (taken ++ op.attests) a :=
    fun attests hop hget => FactTable.stems_absorbAll hold
      (fun b hb => Stems.of_mem (List.mem_append_right _ (hop ▸ hb))) hget
  cases op with
  | applyEvents o expect set journal holds attests =>
      rw [step] at ha
      split at ha
      · exact hold pathKey a ha
      · exact hnew attests rfl ha
  | mergeAttestations attests => exact hnew attests rfl ha
  | setGeneration o generation => exact hold pathKey a ha
  | replaceHoldings o generation seq held order =>
      rw [step] at ha
      split at ha
      · exact hold pathKey a ha
      · exact hold pathKey a ha
  | compactJournal o floor =>
      rw [step] at ha
      simp only at ha
      split at ha
      · exact hold pathKey a ha
      · exact hold pathKey a ha
  | retainOrigins keep => exact hold pathKey a ha
  | advanceWatermark peer o seq => exact hold pathKey a ha

/-- A replica that a call writes is trimmed. -/
theorem trimmed_write (h : l.Inv taken) {o : Origin} {r : Replica} (hr : r.Trimmed)
    (o' : Origin) : ((l.write o r).replica o').Trimmed := by
  rw [write_replica]
  split
  · exact hr
  · exact h.trimmed o'

/-- Every issued call keeps every copy trimmed. -/
theorem trimmed_step {op : RawOp} (h : l.Inv taken) (hop : op.Issued l.seq) (o' : Origin) :
    ((l.step op).2.replica o').Trimmed := by
  cases op with
  | applyEvents o expect set journal holds attests =>
      rw [step]
      simp only
      split
      next => exact h.trimmed o'
      next hexpect =>
        obtain ⟨hrun, hset, -⟩ := hop
        rw [not_not] at hexpect
        subst hexpect
        exact trimmed_write h ((h.trimmed o).extend holds hrun hset) o'
  | mergeAttestations attests => exact h.trimmed o'
  | setGeneration o generation => exact trimmed_write h ((h.trimmed o).stamp generation) o'
  | replaceHoldings o generation seq held order =>
      rw [step]
      split
      · exact h.trimmed o'
      · exact trimmed_write h (Replica.Trimmed.replace generation seq held) o'
  | compactJournal o floor =>
      rw [step]
      simp only
      split
      · exact h.trimmed o'
      · exact trimmed_write h ((h.trimmed o).compactTo hop) o'
  | retainOrigins keep =>
      show (if _ then Replica.blank else l.replica o').Trimmed
      split
      · exact Replica.Trimmed.blank
      · exact h.trimmed o'
  | advanceWatermark peer o seq => exact h.trimmed o'

namespace Inv

theorem empty : Inv {} [] where
  trimmed _ := Replica.Trimmed.blank
  stems _ _ h := by cases h
  admissible _ h := absurd h List.not_mem_nil

/-- Calls of the index keep the invariant. -/
theorem step {op : RawOp} (h : l.Inv taken) (hop : op.Issued l.seq) :
    (l.step op).2.Inv (taken ++ op.attests) where
  trimmed := trimmed_step h hop
  stems _ _ ha := stems_step h ha
  admissible a ha := (List.mem_append.mp ha).elim (h.admissible a) (hop.admissible a)

/-- Every fact has a full hash part, and it is a string. -/
theorem hashPart (h : l.Inv taken) {pathKey : Bytes} {a : Attestation}
    (ha : l.facts.rows.get pathKey = some a) :
    (hashPartOf a.storePath).length = 32 ∧ isUtf8 (hashPartOf a.storePath) = true := by
  obtain ⟨b, hb, -, hbody⟩ := (h.stems pathKey a ha).body
  have hpath : b.storePath = a.storePath := congrArg (fun x => (ofLex x).1) hbody
  obtain ⟨hwf, htext⟩ := h.admissible b hb
  exact hpath ▸ ⟨wellFormed_hashPart hwf, isUtf8_hashPartOf htext⟩

end Inv

end Catalog

end Narshare
