/-
A plan that tells the truth about a NAR.

# Plans and bytes

A plan says of some spans what they hold: framing is in `lits`, and a
replay is what was retained under its number. `Plan.Tells` is that all of
it is so of one NAR, given what each number stands for.

# Plans from an honest manifest

The fallback plan says nothing, so it tells the truth of any NAR. A
manifest built from a tree lays out the tree's own seek table
(`synthLayout_buildTree`), whose segments hold what the NAR has where
they are (`tells_cutSeg`). The planner knows a piece by its hash and the
emitter by its number, so that one number stands for one piece takes two
facts: no two pieces of the tree have one hash, which is asked of BLAKE3
for the pieces of this tree alone, and no two hashes one number
(`Ids.Named`).
-/
import Narshare.Transfer.Deliver
import Narshare.Transfer.Greedy

namespace Narshare

-- ==================================================== what a plan says of a NAR

/-- What a span says of its place in a NAR. -/
def SpanExec.Tells (nar lits : Bytes) (content : ℕ → Bytes) (off : ℕ) : SpanExec → Prop
  | .lit litOff len => slice nar off (off + len) = slice lits litOff (litOff + len)
  | .fetch len retain => ∀ held ∈ retain, slice nar off (off + len) = content held.1
  | .replay unique len => slice nar off (off + len) = content unique

/-- All that a plan says is so; `content` is what the numbers stand for. -/
def Plan.Tells (p : Plan) (nar : Bytes) (content : ℕ → Bytes) : Prop :=
  ∀ s ∈ p.spans, s.2.Tells nar p.lits content s.1

theorem tells_fallbackPlan (nar : Bytes) (content : ℕ → Bytes) (start end_ : ℕ) :
    (fallbackPlan start end_).Tells nar content := by
  intro s hs
  cases List.mem_singleton.mp hs
  exact nofun

-- ========================================================== a tree's manifest

/-- The pieces that a tree's files are cut into. -/
def FileTree.pieces (root : FileTree) (segmentBytes : ℕ) : List Bytes :=
  (SeekTable.build root).segs.flatMap fun s =>
    match s.src with
    | .lit _ => []
    | .ext f => chunks segmentBytes (root.read f s.len)

/-- The piece a hash is of. -/
def pieceOf (cd : Codec) (pieces : List Bytes) (hash : NarHash) : Bytes :=
  (pieces.find? fun piece => decide (segmentHash cd piece = hash)).getD []

/-- No two of these pieces have one hash. -/
def Codec.Separates (cd : Codec) (pieces : List Bytes) : Prop :=
  ∀ piece ∈ pieces, ∀ piece' ∈ pieces, segmentHash cd piece = segmentHash cd piece' →
    piece = piece'

variable {cd : Codec} {nar lits : Bytes}

theorem pieceOf_segmentHash {pieces : List Bytes} (hsep : cd.Separates pieces) {piece : Bytes}
    (hmem : piece ∈ pieces) : pieceOf cd pieces (segmentHash cd piece) = piece := by
  rw [pieceOf]
  cases hfind : pieces.find? fun q => decide (segmentHash cd q = segmentHash cd piece) with
  | none =>
      have := List.find?_eq_none.mp hfind piece hmem
      exact absurd (decide_eq_true rfl) this
  | some q =>
      have hhash := List.find?_some hfind
      rw [decide_eq_true_eq] at hhash
      exact hsep q (List.mem_of_find?_eq_some hfind) piece hmem hhash

/-- What a segment of a layout says of its place in a NAR. -/
def Seg.Tells (nar lits : Bytes) (piece : NarHash → Bytes) (s : Seg NarHash) : Prop :=
  slice nar s.narOff (s.narOff + s.len) = s.bytes lits fun hash _ => piece hash

/-- Pieces cut from a place are what the place holds. -/
theorem mem_cutPieces {pieces : List Bytes} {off : ℕ}
    (h : slice nar off (off + pieces.flatten.length) = pieces.flatten) {s : Seg NarHash}
    (hs : s ∈ cutPieces cd off pieces) :
    ∃ piece ∈ pieces, s.src = .ext (segmentHash cd piece)
      ∧ slice nar s.narOff (s.narOff + s.len) = piece := by
  induction pieces generalizing off with
  | nil => cases hs
  | cons piece pieces ih =>
      rw [List.flatten_cons, List.length_append, ← Nat.add_assoc,
        ← slice_append_slice nar (Nat.le_add_right off piece.length)
          (Nat.le_add_right _ pieces.flatten.length)] at h
      have hlen : (slice nar off (off + piece.length)).length = piece.length := by
        have := congrArg List.length h
        rw [List.length_append, List.length_append, length_slice, length_slice] at this
        rw [length_slice]
        omega
      obtain ⟨hhead, hrest⟩ := List.append_inj h hlen
      rw [cutPieces] at hs
      rcases List.mem_cons.mp hs with rfl | hs
      · exact ⟨piece, List.mem_cons_self, rfl, hhead⟩
      · obtain ⟨q, hq, hsrc, hslice⟩ := ih hrest hs
        exact ⟨q, List.mem_cons_of_mem _ hq, hsrc, hslice⟩

/-- A tree's layout tells the truth of the tree's NAR. -/
theorem tells_cutSeg {root : FileTree} (hroot : root.Distinct) {segmentBytes : ℕ}
    (hsb : 1 ≤ segmentBytes) (hsep : cd.Separates (root.pieces segmentBytes)) {s : Seg NarHash}
    (hs : s ∈ (SeekTable.build root).segs.flatMap (cutSeg cd root segmentBytes)) :
    s.Tells (narOf root) (SeekTable.build root).lits
      (pieceOf cd (root.pieces segmentBytes)) := by
  have hcovers := SeekTable.covers_build hroot
  obtain ⟨seg, hseg, hs⟩ := List.mem_flatMap.mp hs
  have hslice := hcovers.tiles.slice_of_mem hcovers.length hseg
  rw [hcovers.bytes, Nat.sub_zero, Nat.sub_zero] at hslice
  rw [cutSeg] at hs
  split at hs
  next litOff hsrc =>
    cases List.mem_singleton.mp hs
    rw [Seg.bytes, hsrc] at hslice
    exact hslice
  next f hsrc =>
    have hread : seg.bytes (SeekTable.build root).lits root.read = root.read f seg.len := by
      rw [Seg.bytes, hsrc]
    have hlen := hcovers.length seg hseg
    rw [hread] at hslice hlen
    have hflat := flatten_chunks hsb (root.read f seg.len)
    have hcut : slice (narOf root) seg.narOff
        (seg.narOff + (chunks segmentBytes (root.read f seg.len)).flatten.length)
          = (chunks segmentBytes (root.read f seg.len)).flatten := by
      rw [hflat, hlen, hslice]
    obtain ⟨piece, hpiece, hext, htells⟩ := mem_cutPieces hcut hs
    have hmem : piece ∈ root.pieces segmentBytes := by
      refine List.mem_flatMap.mpr ⟨seg, hseg, ?_⟩
      rw [hsrc]
      exact hpiece
    rw [Seg.Tells, htells, Seg.bytes, hext]
    exact (pieceOf_segmentHash hsep hmem).symm

-- ============================================================ pieces by number

/-- The number a step is about. -/
def Dedup.Step.unique : Dedup.Step → ℕ
  | .fetch unique _ => unique
  | .cached unique => unique

namespace Dedup

variable {K : Type}

theorem unique_next (ids : Ids K) (budget p u : ℕ) (r : Residency) :
    (r.next ids budget p u).1.unique = u := by
  unfold Residency.next
  split
  · simp only
    split
    · rfl
    · rfl
  · split
    · rfl
    · rfl

/-- Steps come in the order of their occurrences. -/
theorem unique_reside (ids : Ids K) (budget : ℕ) (us : List ℕ) (p : ℕ) (r : Residency) :
    (reside ids budget us p r).map Step.unique = us := by
  induction us generalizing p r with
  | nil => rfl
  | cons u us ih =>
      rw [reside]
      simp only [List.map_cons]
      rw [unique_next, ih]

/-- A number stands for one piece. -/
theorem exists_content [DecidableEq K] {occs : List (K × ℕ)} (budget : ℕ)
    (hsame : ∀ k s s', (k, s) ∈ occs → (k, s') ∈ occs → s = s') (piece : K → Bytes) :
    ∃ content : ℕ → Bytes, ∀ o ∈ occs.zip (plan occs budget),
      content o.2.unique = piece o.1.1 := by
  classical
  have hnamed := named_identify hsame
  refine ⟨fun u => if h : ∃ k, (identify occs).idOf k = some u then piece h.choose else [],
    fun o ho => ?_⟩
  obtain ⟨i, hi⟩ := List.mem_iff_getElem?.mp ho
  obtain ⟨hocc, hstep⟩ := List.getElem?_zip_eq_some.mp hi
  obtain ⟨u, hid, hat⟩ := hnamed.at_ i o.1.1 o.1.2 hocc
  have hunique : o.2.unique = u := by
    have hmap : ((plan occs budget).map Step.unique)[i]? = some o.2.unique := by
      rw [List.getElem?_map, hstep]
      rfl
    rw [plan, unique_reside, hat] at hmap
    exact (Option.some.inj hmap).symm
  have hex : ∃ k, (identify occs).idOf k = some o.2.unique := ⟨o.1.1, hunique ▸ hid⟩
  simp only [dif_pos hex]
  rw [hnamed.inj _ _ _ hex.choose_spec (hunique ▸ hid)]

end Dedup

/-- The spans say of the NAR what the layout says. -/
theorem tells_planSpans {piece : NarHash → Bytes} {content : ℕ → Bytes}
    {spans : List (Seg NarHash)} (htells : ∀ s ∈ spans, s.Tells nar lits piece) :
    ∀ {steps ranges}, (∀ o ∈ (spans.filterMap occOf).zip steps,
        content o.2.unique = piece o.1.1) →
      ∀ s ∈ (planSpans spans steps ranges).1, s.2.Tells nar lits content s.1 := by
  induction spans with
  | nil =>
      intro steps ranges _ s hs
      cases hs
  | cons seg spans ih =>
      have hhead := htells seg List.mem_cons_self
      have hrest := @ih fun s hs => htells s (List.mem_cons_of_mem _ hs)
      obtain ⟨narOff, len, litOff | hash⟩ := seg
      · intro steps ranges hnamed
        refine List.forall_mem_cons.mpr ⟨hhead, ?_⟩
        exact hrest hnamed
      · have hhead : slice nar narOff (narOff + len) = piece hash := hhead
        intro steps ranges hnamed
        cases steps with
        | nil => exact fun s hs => by cases hs
        | cons step steps =>
            have hnamed : content step.unique = piece hash
                ∧ ∀ o ∈ (spans.filterMap occOf).zip steps, content o.2.unique = piece o.1.1 :=
              List.forall_mem_cons.mp hnamed
            cases step with
            | fetch unique retainFor =>
                refine List.forall_mem_cons.mpr ⟨fun held hheld => ?_, hrest hnamed.2⟩
                split at hheld
                next =>
                  cases hheld
                  exact hhead.trans hnamed.1.symm
                next => cases hheld
            | cached unique =>
                exact List.forall_mem_cons.mpr ⟨hhead.trans hnamed.1.symm, hrest hnamed.2⟩

-- ================================================================= both plans

/-- A manifest built from a tree. -/
structure Manifest.Of (cd : Codec) (root : FileTree) (m : Manifest) : Prop where
  cut : 1 ≤ m.segmentBytes
  built : buildTree cd m.segmentBytes root = .ok m.root
  separates : cd.Separates (root.pieces m.segmentBytes)

/-- A manifest that can be laid out is of a tree no deeper than a layout
goes, and claims the size that the layout has. -/
theorem Manifest.Of.laid {root : FileTree} {m : Manifest} (hm : m.Of cd root) {layout : Layout}
    (h : synthLayout m = .ok layout) : root.depth ≤ MAX_DEPTH ∧ m.narSize = layout.narSize := by
  rw [synthLayout] at h
  split at h
  next => cases h
  next =>
    cases hb : Synth.node m.segmentBytes m.root 0
        (Framing.tok ({} : Synth) (ascii "nix-archive-1")) with
    | error e =>
        rw [hb] at h
        cases h
    | ok b =>
        rw [hb] at h
        simp only [Except.bind] at h
        split at h
        next => cases h
        next heq =>
          cases h
          have hdepth := Synth.depth_le_of_node hm.built hb
          rw [Nat.zero_add] at hdepth
          exact ⟨hdepth, (not_not.mp heq).symm⟩

/-- Whatever plan is made of an honest manifest tells the truth. -/
theorem tells_manifestPlan {root : FileTree} (hroot : root.Distinct) {m : Manifest}
    (hm : m.Of cd root) {info : RemoteNarinfo} (hsize : info.narSize = (narOf root).length)
    {budget window : ℕ} {p : Plan} (hp : manifestPlan m info budget window = .ok p) :
    ∃ content, p.Tells (narOf root) content := by
  rw [manifestPlan] at hp
  split at hp
  next => cases hp
  next =>
    split at hp
    next => cases hp
    next layout hlayout =>
      obtain ⟨hdepth, hclaims⟩ := hm.laid hlayout
      obtain ⟨node, hnode, hlays⟩ :=
        synthLayout_buildTree cd hroot (utf8_of_buildTree hm.built) hdepth hm.cut
      have hsame : m.root = node := by
        have := hm.built
        rw [hnode] at this
        exact (Except.ok.inj this).symm
      split at hp
      next => cases hp
      next hne =>
        have htable := (SeekTable.covers_build hroot).narSize
        have hlaid := hlays m hsame rfl (by rw [hclaims, not_not.mp hne, hsize, htable])
        rw [hlayout] at hlaid
        cases hlaid
        revert hp
        cases hoccs : occurrences window _ fun _ => none with
        | error e => exact fun h => by cases h
        | ok occs =>
            rintro ⟨⟩
            obtain ⟨rfl, -, -, honce⟩ := occurrences_spec hoccs
            obtain ⟨content, hcontent⟩ :=
              Dedup.exists_content budget honce (pieceOf cd (root.pieces m.segmentBytes))
            exact ⟨content, tells_planSpans (fun s hs => tells_cutSeg hroot hm.cut hm.separates hs)
              hcontent⟩

/-- Whatever plan is chosen tells the truth. -/
theorem tells_choosePlan {root : FileTree} (hroot : root.Distinct) {info : RemoteNarinfo}
    (hsize : info.narSize = (narOf root).length) {acquired : Option Manifest}
    (hacquired : ∀ m ∈ acquired, m.Of cd root) (budget window start end_ : ℕ) :
    ∃ content, (choosePlan info acquired budget window start end_).Tells (narOf root) content := by
  have hfallback : ∃ content, (fallbackPlan start end_).Tells (narOf root) content :=
    ⟨fun _ => [], tells_fallbackPlan _ _ start end_⟩
  unfold choosePlan
  split
  next =>
    cases acquired with
    | none => exact hfallback
    | some m =>
        simp only
        split
        next p hp => exact tells_manifestPlan hroot (hacquired m rfl) hsize hp
        next => exact hfallback
  next => exact hfallback

end Narshare
