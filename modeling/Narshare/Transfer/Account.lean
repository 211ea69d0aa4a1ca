/-
Every byte of a transfer's ranges is in one place.

# The four places

What a plan's ranges hold is not yet carved, requeued, in an undelivered
flight or has landed in the buffer, and `Tallied` counts it: place by
place, the four together cover what the ranges cover. Each step moves
one range from one of them to another. Where the plan's ranges have no
overlap that count is at most one, which is what keeps a flight from
starting where one is (`Tallied.free`) and a chunk from landing where
bytes are (`Fed.land`).

# Waiting

`Ordered`: all that is requeued or flies lies below what is uncarved, so
that the launch loop's candidate is the lowest work there is. The first
byte a waiting emitter misses is within the window; if no flight brings
it then the lowest work starts no later.
-/
import Narshare.Transfer.Loop

namespace Narshare

-- ================================================================ the cursor

@[simp] theorem remaining_zero (l : List (ℕ × ℕ)) : remaining l 0 = l := by
  cases l with
  | nil => rfl
  | cons r rs => rfl

/-- The cursor passes only what is empty. -/
theorem remaining_advance {l l' : List (ℕ × ℕ)} {pos pos' : ℕ} (h : advance l pos = (l', pos')) :
    remaining l' pos' <:+ remaining l pos
      ∧ (∀ x, cover (remaining l' pos') x = cover (remaining l pos) x)
      ∧ ∀ r ∈ l'.head?, pos' < r.2 := by
  induction l generalizing pos with
  | nil =>
      cases h
      exact ⟨List.suffix_rfl, fun _ => rfl, nofun⟩
  | cons r rs ih =>
      rw [advance] at h
      split at h
      next hge =>
        obtain ⟨hsuffix, hcover, hpos⟩ := ih h
        rw [remaining_zero] at hsuffix hcover
        refine ⟨hsuffix.trans (List.suffix_cons _ _), fun x => ?_, hpos⟩
        rw [hcover, remaining, cover_cons, Nat.sub_eq_zero_of_le hge, hits_empty, Nat.zero_add]
      next hlt =>
        cases h
        refine ⟨List.suffix_rfl, fun _ => rfl, ?_⟩
        rintro _ ⟨⟩
        exact not_le.mp hlt

-- ============================================================= what is given

/-- What the source says of any plan of `[start, end_)`: the spans are
contiguous, the ranges in order and disjoint, and they hold all that is
fetched. -/
structure Plan.Wf (p : Plan) (start end_ : ℕ) : Prop where
  spans : Contiguous start end_ p.spans
  ranges : p.ranges.Pairwise fun r r' => r.1 + r.2 ≤ r'.1
  fetched : ∀ s ∈ p.spans, ∀ len retain, s.2 = .fetch len retain →
    ∀ x, s.1 ≤ x → x < s.1 + len → InRange p.ranges x

theorem wf_fallbackPlan {start end_ : ℕ} (h : start ≤ end_) :
    (fallbackPlan start end_).Wf start end_ where
  spans := ⟨rfl, Nat.add_sub_cancel' h⟩
  ranges := List.pairwise_singleton _ _
  fetched := by
    intro s hs len retain heq x hlo hhi
    cases List.mem_singleton.mp hs
    cases heq
    exact ⟨_, List.mem_cons_self, hlo, hhi⟩

theorem Plan.Sound.wf {p : Plan} {size budget window : ℕ} (h : p.Sound size budget window) :
    p.Wf 0 size where
  spans := .of_tiles h.tiles
  ranges := h.sorted
  fetched := by
    intro s hs len retain heq x hlo hhi
    obtain ⟨-, r, hr, hrlo, hrhi⟩ := h.fetched s hs len retain heq
    exact ⟨r, hr, hrlo.trans hlo, by omega⟩

namespace Transfer

variable {sha256 : Bytes → NarHash} {window : ℕ} {p : Plan} {t t' t₁ : Transfer} {w : Attempt}
  {fl : Flight} {k : Tick}

-- ================================================================ the places

/-- What is not yet carved. -/
def uncarved (t : Transfer) : List (ℕ × ℕ) := remaining t.left t.rangePos

/-- The undelivered flights. -/
def aloft (t : Transfer) : List (ℕ × ℕ) :=
  t.inflight.entries.filterMap fun e => if e.2.delivered then none else some (e.1, e.2.len)

theorem mem_aloft {r : ℕ × ℕ} :
    r ∈ t.aloft ↔ ∃ fl, t.inflight.get r.1 = some fl ∧ fl.delivered = false ∧ r.2 = fl.len := by
  rw [aloft, List.mem_filterMap]
  constructor
  · rintro ⟨⟨off, fl⟩, hmem, h⟩
    simp only at h
    split at h
    next => cases h
    next hd =>
      cases h
      exact ⟨fl, OrdMap.mem_entries.mp hmem, Bool.not_eq_true _ ▸ hd, rfl⟩
  · rintro ⟨fl, hget, hd, hlen⟩
    refine ⟨(r.1, fl), OrdMap.mem_entries.mpr hget, ?_⟩
    simp only [hd, Bool.false_eq_true, if_false, ← hlen]

/-- How a flight counts. -/
def airborne (x off : ℕ) (fl : Flight) : ℕ := if fl.delivered then 0 else hits (off, fl.len) x

theorem cover_aloft (x : ℕ) : cover t.aloft x = t.inflight.sum (airborne x) := by
  rw [aloft, OrdMap.sum]
  induction t.inflight.entries with
  | nil => rfl
  | cons e l ih =>
      rw [List.map_cons, List.sum_cons, ← ih, airborne, List.filterMap_cons]
      split
      next h =>
        split at h
        next hd => rw [if_pos hd, Nat.zero_add]
        next => cases h
      next r h =>
        split at h
        next => cases h
        next hd =>
          cases h
          rw [if_neg hd, cover_cons]

/-- The ranges of the plan, wherever they are now. -/
structure Tallied (p : Plan) (t : Transfer) : Prop where
  total : ∀ x, cover t.uncarved x + cover t.requeue x + cover t.aloft x + cover t.landed x
    = cover p.ranges x
  requeued : ∀ r ∈ t.requeue, 0 < r.2
  flights : ∀ {off fl}, t.inflight.get off = some fl →
    0 < fl.len ∧ (fl.delivered = true → (off, fl.len) ∈ t.landed)
  landed : ∀ r ∈ t.landed, 0 < r.2

theorem Tallied.congr (h : t.Tallied p) (huncarved : ∀ x, cover t'.uncarved x = cover t.uncarved x)
    (hrequeue : t'.requeue = t.requeue) (hinflight : t'.inflight = t.inflight)
    (hlanded : t'.landed = t.landed) : t'.Tallied p where
  total x := by rw [huncarved, hrequeue, aloft, hinflight, hlanded]; exact h.total x
  requeued := hrequeue ▸ h.requeued
  flights := by rw [hinflight, hlanded]; exact h.flights
  landed := hlanded ▸ h.landed

/-- No flight is where work is left. -/
theorem Tallied.free (h : t.Tallied p) (hone : ∀ x, cover p.ranges x ≤ 1) {off : ℕ}
    (hwork : 0 < cover t.uncarved off + cover t.requeue off) : t.inflight.get off = none := by
  cases hget : t.inflight.get off with
  | none => rfl
  | some fl =>
      have htotal := h.total off
      have := hone off
      obtain ⟨hpos, hdelivered⟩ := h.flights hget
      have hhits : hits (off, fl.len) off = 1 :=
        hits_eq_one.mpr ⟨le_rfl, Nat.lt_add_of_pos_right hpos⟩
      cases hd : fl.delivered with
      | true =>
          have := hits_le_cover (hdelivered hd) off
          omega
      | false =>
          have hmem : (off, fl.len) ∈ t.aloft := mem_aloft.mpr ⟨fl, hget, hd, rfl⟩
          have := hits_le_cover hmem off
          omega

theorem Tallied.free_requeued (h : t.Tallied p) (hone : ∀ x, cover p.ranges x ≤ 1) {off l : ℕ}
    (hr : (off, l) ∈ t.requeue) : t.inflight.get off = none := by
  refine h.free hone ?_
  have hpos : 0 < l := h.requeued _ hr
  have := hits_le_cover hr off
  rw [hits_eq_one.mpr ⟨le_rfl, Nat.lt_add_of_pos_right hpos⟩] at this
  omega

theorem Tallied.free_uncarved (h : t.Tallied p) (hone : ∀ x, cover p.ranges x ≤ 1) {r : ℕ × ℕ}
    {rs : List (ℕ × ℕ)} {pos : ℕ} (hadv : advance t.left t.rangePos = (r :: rs, pos)) :
    t.inflight.get (r.1 + pos) = none := by
  refine h.free hone ?_
  obtain ⟨-, hcover, hpos⟩ := remaining_advance hadv
  have hlt : pos < r.2 := hpos r rfl
  rw [uncarved, ← hcover, remaining, cover_cons, hits_eq_one.mpr ⟨le_rfl, by simp only; omega⟩]
  omega

/-- Work takes off. -/
theorem Tallied.spawn (h : t.Tallied p) {off len slots : ℕ} (hinflight : t₁.inflight = t.inflight)
    (hlanded : t₁.landed = t.landed) (hnone : t.inflight.get off = none) (hlen : 0 < len)
    (hrequeue : ∀ r ∈ t₁.requeue, 0 < r.2)
    (hwork : ∀ x, cover t₁.uncarved x + cover t₁.requeue x + hits (off, len) x
      = cover t.uncarved x + cover t.requeue x) : (t₁.spawn off len slots).Tallied p := by
  have hnone₁ : t₁.inflight.get off = none := hinflight ▸ hnone
  rw [spawn_of_none hnone₁]
  refine ⟨fun x => ?_, hrequeue, fun {off' fl} hget => ?_, hlanded ▸ h.landed⟩
  · have haloft : cover (aloft { t₁ with
        inflight := t₁.inflight.put off ⟨t₁.nextIds slots, false, len⟩
        air := t₁.air ++ (t₁.nextIds slots).map fun id => ⟨id, off, len⟩
        nextAttempt := t₁.nextAttempt + slots }) x = cover t.aloft x + hits (off, len) x := by
      rw [cover_aloft, cover_aloft, OrdMap.sum_put_of_none _ hnone₁, hinflight]
      rfl
    rw [haloft, ← h.total x]
    have := hwork x
    rw [hlanded]
    show cover t₁.uncarved x + cover t₁.requeue x + _ + _ = _
    omega
  · rw [OrdMap.get_put] at hget
    split at hget
    next =>
      cases hget
      exact ⟨hlen, nofun⟩
    next =>
      rw [hinflight] at hget
      exact ⟨(h.flights hget).1, hlanded ▸ (h.flights hget).2⟩

/-- An attempt is retired: what its flight counted, and counts now. -/
theorem cover_retired (hget : t.inflight.get w.off = some fl) (d : Bool) (x : ℕ) :
    cover (t.retired w fl d).aloft x + airborne x w.off fl
      = cover t.aloft x + if (fl.retire w.id).attempts = [] then 0
        else if d then 0 else hits (w.off, fl.len) x := by
  rw [cover_aloft, cover_aloft]
  have hsum := t.inflight.sum_set (airborne x) w.off
    (if (fl.retire w.id).attempts = [] then none
      else some { fl.retire w.id with delivered := d })
  rw [hget, Option.elim_some] at hsum
  rw [retired, hsum]
  split
  · rfl
  · rfl

/-- What an attempt leaves, when it is retired. -/
theorem Tallied.retired (h : t.Tallied p) (hget : t.inflight.get w.off = some fl) {d : Bool}
    {landed : List (ℕ × ℕ)} (hd : d = true → (w.off, fl.len) ∈ landed)
    (hlanded : ∀ r ∈ t.landed, r ∈ landed) {off : ℕ} {fl' : Flight}
    (hget' : (t.retired w fl d).inflight.get off = some fl') :
    0 < fl'.len ∧ (fl'.delivered = true → (off, fl'.len) ∈ landed) := by
  rw [Transfer.retired, OrdMap.get_set] at hget'
  split at hget'
  next heq =>
    subst heq
    split at hget'
    next => cases hget'
    next =>
      cases hget'
      exact ⟨(h.flights hget).1, hd⟩
  next =>
    obtain ⟨hpos, hdelivered⟩ := h.flights hget'
    exact ⟨hpos, fun hd => hlanded _ (hdelivered hd)⟩

/-- A `Done` moves what it was for, or nothing. -/
theorem Finished.tallied {result : Option Bytes} (hf : t.Finished w fl result t')
    (hget : t.inflight.get w.off = some fl) (hlen : fl.len = w.len) (h : t.Tallied p) :
    t'.Tallied p := by
  obtain ⟨hpos, hdelivered⟩ := h.flights hget
  cases hf with
  | wasted hd =>
      refine ⟨fun x => ?_, h.requeued, h.retired hget (fun _ => hdelivered hd) fun _ hr => hr,
        h.landed⟩
      have hair := cover_retired hget true x
      rw [airborne, if_pos hd, if_pos rfl, ite_self] at hair
      have htotal := h.total x
      show cover t.uncarved x + cover t.requeue x + cover (t.retired w fl true).aloft x
        + cover t.landed x = _
      omega
  | landed hd =>
      refine ⟨fun x => ?_, h.requeued,
        h.retired hget (fun _ => hlen ▸ List.mem_cons_self) fun _ hr => List.mem_cons_of_mem _ hr,
        List.forall_mem_cons.mpr ⟨hlen ▸ hpos, h.landed⟩⟩
      have hair := cover_retired hget true x
      rw [airborne, hd, if_neg Bool.false_ne_true, if_pos rfl, ite_self, hlen] at hair
      have htotal := h.total x
      show cover t.uncarved x + cover t.requeue x + cover (t.retired w fl true).aloft x
        + cover ((w.off, w.len) :: t.landed) x = _
      rw [cover_cons]
      omega
  | requeued hd hids =>
      have hmem := List.perm_orderedInsert Sooner (w.off, w.len) t.requeue
      refine ⟨fun x => ?_, fun r hr => ?_, h.retired (d := false) hget nofun fun _ hr => hr,
        h.landed⟩
      · have hair := cover_retired hget false x
        rw [airborne, hd, if_neg Bool.false_ne_true, if_pos hids, hlen] at hair
        have htotal := h.total x
        show cover t.uncarved x + cover (List.orderedInsert Sooner (w.off, w.len) t.requeue) x
          + cover (t.retired w fl false).aloft x + cover t.landed x = _
        rw [cover_perm hmem, cover_cons]
        omega
      · rcases List.mem_cons.mp (hmem.mem_iff.mp hr) with rfl | hr
        · exact hlen ▸ hpos
        · exact h.requeued r hr
  | failed htwins =>
      refine ⟨fun x => ?_, h.requeued, h.retired hget hdelivered fun _ hr => hr, h.landed⟩
      have hair := cover_retired hget fl.delivered x
      have hsame : (if (fl.retire w.id).attempts = [] then 0
          else if fl.delivered then 0 else hits (w.off, fl.len) x) = airborne x w.off fl := by
        rw [airborne]
        split
        next hids =>
          rcases htwins with hd | hne
          · rw [if_pos hd]
          · exact absurd hids hne
        next => rfl
      rw [hsame] at hair
      have htotal := h.total x
      show cover t.uncarved x + cover t.requeue x + cover (t.retired w fl fl.delivered).aloft x
        + cover t.landed x = _
      omega

/-- A pump leaves all but the emitter as it is. -/
theorem pumped_same (em : Emitter) (c : Client) (r : Option (Except EmitEnd Pump)) :
    ∃ em' stage, t.pumped em c r = { t with em := em', client := c, stage := stage } := by
  rcases r with _ | (e | (_ | _ | why | _))
  all_goals exact ⟨_, _, rfl⟩

theorem Stepped.tallied (hs : Stepped sha256 window t k t') (h : t.Tallied p)
    (hone : ∀ x, cover p.ranges x ≤ 1) : t'.Tallied p := by
  cases hs with
  | turned hstage hturned =>
      rename_i r em c
      obtain ⟨em', stage, heq⟩ := t.pumped_same em c r
      rw [heq]
      exact h.congr (fun _ => rfl) rfl rfl rfl
  | skipped hstage hcursor =>
      refine h.congr (fun x => ?_) rfl rfl rfl
      rcases hcursor with heq | heq
      · cases heq
        rfl
      · exact (remaining_advance heq.symm).2.1 x
  | relaunched hstage hqueue hslots =>
      rename_i chunk slots off l rest
      have hmem : (off, l) ∈ t.requeue := hqueue ▸ List.mem_cons_self
      refine h.spawn rfl rfl (h.free_requeued hone hmem) (h.requeued _ hmem) (fun r hr => ?_)
        fun x => ?_
      · exact h.requeued r (hqueue ▸ List.mem_cons_of_mem _ hr)
      · show cover t.uncarved x + cover rest x + _ = _
        rw [hqueue, cover_cons]
        omega
  | recarved hstage hqueue hslots hchunk hlong =>
      rename_i chunk slots off l rest
      have hmem : (off, l) ∈ t.requeue := hqueue ▸ List.mem_cons_self
      have hperm := List.perm_orderedInsert Sooner (off + chunk, l - chunk) rest
      refine h.spawn rfl rfl (h.free_requeued hone hmem) hchunk (fun r hr => ?_) fun x => ?_
      · rcases List.mem_cons.mp (hperm.mem_iff.mp hr) with rfl | hr
        · exact Nat.sub_pos_of_lt (by omega)
        · exact h.requeued r (hqueue ▸ List.mem_cons_of_mem _ hr)
      · show cover t.uncarved x
          + cover (List.orderedInsert Sooner (off + chunk, l - chunk) rest) x + _ = _
        have hsplit := hits_split off chunk (l - chunk) x
        rw [Nat.add_sub_cancel' (by omega)] at hsplit
        rw [cover_perm hperm, hqueue, cover_cons, cover_cons]
        omega
  | carved hstage hadv hslots hchunk =>
      rename_i gated chunk slots pos r rs
      obtain ⟨-, hcover, hpos⟩ := remaining_advance hadv
      have hlt : pos < r.2 := hpos r rfl
      refine h.spawn rfl rfl (h.free_uncarved hone hadv) (lt_min hchunk (Nat.sub_pos_of_lt hlt))
        h.requeued fun x => ?_
      have hsplit := hits_split (r.1 + pos) (min chunk (r.2 - pos))
        (r.2 - (pos + min chunk (r.2 - pos))) x
      have hlen : min chunk (r.2 - pos) + (r.2 - (pos + min chunk (r.2 - pos))) = r.2 - pos := by
        omega
      have hrest := hcover x
      rw [remaining, cover_cons] at hrest
      rw [hlen, Nat.add_assoc r.1] at hsplit
      show cover (remaining (r :: rs) (pos + min chunk (r.2 - pos))) x + cover t.requeue x + _
        = cover (remaining t.left t.rangePos) x + _
      rw [remaining, cover_cons]
      omega
  | finished hstage hw hget hlen hresult hfin => exact hfin.tallied hget hlen h
  | gaveUp hstage => exact h.congr (fun _ => rfl) rfl rfl rfl

-- ================================================================= the order

/-- All that is requeued or flies lies below what is uncarved. -/
structure Ordered (t : Transfer) : Prop where
  heap : t.requeue.Pairwise Sooner
  carving : t.uncarved.Pairwise fun r r' => r.1 + r.2 ≤ r'.1
  requeued : ∀ r ∈ t.requeue, ∀ u ∈ t.uncarved, r.1 + r.2 ≤ u.1
  flown : ∀ {off fl}, t.inflight.get off = some fl → ∀ u ∈ t.uncarved, off + fl.len ≤ u.1

theorem Ordered.congr (h : t.Ordered) (huncarved : t'.uncarved = t.uncarved)
    (hrequeue : t'.requeue = t.requeue) (hinflight : t'.inflight = t.inflight) : t'.Ordered := by
  obtain ⟨heap, carving, requeued, flown⟩ := h
  exact ⟨hrequeue ▸ heap, huncarved ▸ carving, hrequeue ▸ huncarved ▸ requeued,
    fun hget => huncarved ▸ flown (hinflight ▸ hget)⟩

/-- Work takes off that lies below what is then uncarved. -/
theorem Ordered.spawn (h : t₁.Ordered) {off len slots : ℕ}
    (hnone : t₁.inflight.get off = none) (hbelow : ∀ u ∈ t₁.uncarved, off + len ≤ u.1) :
    (t₁.spawn off len slots).Ordered := by
  rw [spawn_of_none hnone]
  refine ⟨h.heap, h.carving, h.requeued, fun {off' fl} hget => ?_⟩
  rw [OrdMap.get_put] at hget
  split at hget
  next heq =>
    cases hget
    subst heq
    exact hbelow
  next => exact h.flown hget

/-- What is left of a flight lies where the flight did. -/
theorem Ordered.retired (h : t.Ordered) (hget : t.inflight.get w.off = some fl) (d : Bool) :
    (t.retired w fl d).Ordered := by
  refine ⟨h.heap, h.carving, h.requeued, fun {off fl'} hget' => ?_⟩
  rw [Transfer.retired, OrdMap.get_set] at hget'
  split at hget'
  next heq =>
    subst heq
    split at hget'
    next => cases hget'
    next =>
      cases hget'
      have hbelow : ∀ u ∈ t.uncarved, w.off + fl.len ≤ u.1 := h.flown hget
      exact hbelow
  next => exact h.flown hget'

theorem Finished.ordered {result : Option Bytes} (hf : t.Finished w fl result t')
    (hget : t.inflight.get w.off = some fl) (hlen : fl.len = w.len) (h : t.Ordered) :
    t'.Ordered := by
  cases hf with
  | wasted => exact (h.retired hget true).congr rfl rfl rfl
  | landed => exact (h.retired hget true).congr rfl rfl rfl
  | requeued =>
      have hret := h.retired hget false
      have hperm := List.perm_orderedInsert Sooner (w.off, w.len) t.requeue
      refine ⟨h.heap.orderedInsert _ _, hret.carving, fun r hr => ?_, hret.flown⟩
      rcases List.mem_cons.mp (hperm.mem_iff.mp hr) with rfl | hr
      · exact hlen ▸ h.flown hget
      · exact h.requeued r hr
  | failed => exact (h.retired hget _).congr rfl rfl rfl

theorem Stepped.ordered (hs : Stepped sha256 window t k t') (h : t.Ordered) (htally : t.Tallied p)
    (hone : ∀ x, cover p.ranges x ≤ 1) : t'.Ordered := by
  cases hs with
  | turned hstage hturned =>
      rename_i r em c
      obtain ⟨em', stage, heq⟩ := t.pumped_same em c r
      rw [heq]
      exact h.congr rfl rfl rfl
  | skipped hstage hcursor =>
      rcases hcursor with heq | heq
      · cases heq
        exact h
      · obtain ⟨hsuffix, -⟩ := remaining_advance heq.symm
        exact ⟨h.heap, h.carving.sublist hsuffix.sublist,
          fun r hr u hu => h.requeued r hr u (hsuffix.mem hu),
          fun hget u hu => h.flown hget u (hsuffix.mem hu)⟩
  | relaunched hstage hqueue hslots =>
      rename_i chunk slots off l rest
      have hmem : (off, l) ∈ t.requeue := hqueue ▸ List.mem_cons_self
      have hheap := h.heap
      rw [hqueue] at hheap
      have hrest : Ordered { t with requeue := rest } :=
        ⟨hheap.of_cons, h.carving, fun r hr => h.requeued r (hqueue ▸ List.mem_cons_of_mem _ hr),
          h.flown⟩
      exact hrest.spawn (htally.free_requeued hone hmem) (h.requeued _ hmem)
  | recarved hstage hqueue hslots hchunk hlong =>
      rename_i chunk slots off l rest
      have hmem : (off, l) ∈ t.requeue := hqueue ▸ List.mem_cons_self
      have hbelow := h.requeued _ hmem
      simp only at hbelow
      have hheap := h.heap
      rw [hqueue] at hheap
      have hperm := List.perm_orderedInsert Sooner (off + chunk, l - chunk) rest
      have hrest : Ordered { t with
          requeue := List.orderedInsert Sooner (off + chunk, l - chunk) rest } := by
        refine ⟨hheap.of_cons.orderedInsert _ _, h.carving, fun r hr u hu => ?_, h.flown⟩
        rcases List.mem_cons.mp (hperm.mem_iff.mp hr) with rfl | hr
        · have := hbelow u hu
          simp only
          omega
        · exact h.requeued r (hqueue ▸ List.mem_cons_of_mem _ hr) u hu
      refine hrest.spawn (htally.free_requeued hone hmem) fun u hu => ?_
      have := hbelow u hu
      omega
  | carved hstage hadv hslots hchunk =>
      rename_i gated chunk slots pos r rs
      obtain ⟨hsuffix, -, hpos⟩ := remaining_advance hadv
      have hlt : pos < r.2 := hpos r rfl
      have hcarving := List.pairwise_cons.mp (h.carving.sublist hsuffix.sublist)
      have hin : (r.1 + pos, r.2 - pos) ∈ t.uncarved := hsuffix.mem List.mem_cons_self
      have hrest : Ordered { t with
          left := r :: rs
          rangePos := pos + min chunk (r.2 - pos) } := by
        refine ⟨h.heap, ?_, fun q hq => ?_, fun {off fl} hget => ?_⟩
        · refine List.pairwise_cons.mpr ⟨fun r' hr' => ?_, hcarving.2⟩
          have := hcarving.1 r' hr'
          simp only at this ⊢
          omega
        · refine List.forall_mem_cons.mpr ⟨?_, fun u hu => ?_⟩
          · have := h.requeued q hq _ hin
            simp only at this ⊢
            omega
          · exact h.requeued q hq u (hsuffix.mem (List.mem_cons_of_mem _ hu))
        · refine List.forall_mem_cons.mpr ⟨?_, fun u hu => ?_⟩
          · have := h.flown hget _ hin
            simp only at this ⊢
            omega
          · exact h.flown hget u (hsuffix.mem (List.mem_cons_of_mem _ hu))
      refine hrest.spawn (htally.free_uncarved hone hadv)
        (List.forall_mem_cons.mpr ⟨?_, fun u hu => ?_⟩)
      · simp only
        omega
      · have := hcarving.1 u hu
        simp only at this
        omega
  | finished hstage hw hget hlen hresult hfin => exact hfin.ordered hget hlen h
  | gaveUp hstage => exact h.congr rfl rfl rfl

-- ============================================================ what is buffered

/-- It has not returned for good. -/
def Running (t : Transfer) : Prop := ∀ why, t.stage ≠ .aborted why

/-- The emitter has this plan. -/
structure Carries (t : Transfer) (p : Plan) (info : RemoteNarinfo) (start end_ : ℕ) : Prop where
  spans : t.em.spans = p.spans
  lits : t.em.lits = p.lits
  full : t.em.full = decide (start = 0 ∧ end_ = info.narSize)
  narHash : t.em.narHash = info.narHash
  end_ : t.em.end_ = end_

/-- `x` is the first place that the emitter misses of what it emits next:
of a span that streams, the next byte; of one that is retained, any. -/
structure Awaits (t : Transfer) (x : ℕ) : Prop where
  ahead : t.em.emitPos ≤ x
  missing : ¬ InRange t.em.buffered.ranges x
  first : ∀ y, t.em.emitPos ≤ y → y < x → InRange t.em.buffered.ranges y
  span : ∃ off len retain, t.em.spans[t.em.spanI]? = some (off, .fetch len retain)
    ∧ off ≤ x ∧ x < off + len ∧ (retain = none → x = t.em.emitPos)
    ∧ (retain ≠ none → off = t.em.emitPos)

/-- The emitter stands in its place, and of what is ahead of it the buffer
has all that has landed. -/
structure Fed (t : Transfer) : Prop where
  placed : t.em.Placed
  buffer_le : ∀ x, cover t.em.buffered.ranges x ≤ cover t.landed x
  buffer_eq : ∀ x, t.em.emitPos ≤ x → cover t.em.buffered.ranges x = cover t.landed x
  awaits : t.stage = .waiting → ∃ x, t.Awaits x

theorem Fed.congr (h : t.Fed) (hem : t'.em = t.em) (hlanded : t'.landed = t.landed)
    (hstage : t'.stage = .waiting → t.stage = .waiting) : t'.Fed := by
  obtain ⟨placed, buffer_le, buffer_eq, awaits⟩ := h
  refine ⟨hem ▸ placed, hem ▸ hlanded ▸ buffer_le, hem ▸ hlanded ▸ buffer_eq, fun hwait => ?_⟩
  obtain ⟨x, ahead, missing, first, span⟩ := awaits (hstage hwait)
  exact ⟨x, hem ▸ ahead, hem ▸ missing, hem ▸ first, hem ▸ span⟩

/-- The pump waits, and what it has passed is dropped. -/
theorem Fed.rest (h : t.Fed) (hwaits : t.em.Waits) :
    (t.pumped t.em t.client (some (.ok .needData))).Fed := by
  obtain ⟨hok, hle, heq⟩ := Buffer.prune_spec h.placed.buffer t.em.emitPos
  have hin : ∀ y, t.em.emitPos ≤ y →
      (InRange (t.em.buffered.prune t.em.emitPos).ranges y ↔ InRange t.em.buffered.ranges y) := by
    intro y hy
    rw [← cover_pos, ← cover_pos, heq y hy]
  refine ⟨⟨h.placed.rest, h.placed.inner, hok⟩, fun x => (hle x).trans (h.buffer_le x),
    fun x hx => (heq x hx).trans (h.buffer_eq x hx), fun _ => ?_⟩
  obtain ⟨off, len, retain, hspan, x, hpos, hlo, hhi, hstream, hretain, hmiss, hfirst⟩ :=
    hwaits.missing h.placed
  exact ⟨x, hpos, fun hx => hmiss ((hin x hpos).mp hx),
    fun y hlo hhi => (hin y hlo).mpr (hfirst y hlo hhi),
    off, len, retain, hspan, hlo, hhi, hstream, hretain⟩

/-- A chunk lands where nothing is. -/
theorem Fed.land (h : t.Fed) (htally : t.Tallied p) (hone : ∀ x, cover p.ranges x ≤ 1)
    (hget : t.inflight.get w.off = some fl) (hlen : fl.len = w.len) (hd : fl.delivered = false)
    {b : Bytes} (hb : b.length = w.len) (ht' : t'.em =
      { t.em with buffered := t.em.buffered.put w.off b })
    (hlanded : t'.landed = (w.off, w.len) :: t.landed) (hstage : t'.stage = .pumping) :
    t'.Fed := by
  have hfree : ∀ x, w.off ≤ x → x < w.off + b.length → cover t.em.buffered.ranges x = 0 := by
    intro x hlo hhi
    have hmem : (w.off, fl.len) ∈ t.aloft := mem_aloft.mpr ⟨fl, hget, hd, rfl⟩
    have haloft := hits_le_cover hmem x
    rw [hits_eq_one.mpr ⟨hlo, by rw [hlen, ← hb]; exact hhi⟩] at haloft
    have htotal := htally.total x
    have := hone x
    have := h.buffer_le x
    omega
  have hpos : 0 < b.length := by
    rw [hb, ← hlen]
    exact (htally.flights hget).1
  obtain ⟨hok, hcover⟩ := Buffer.put_spec h.placed.buffer hpos hfree
  rw [hb] at hcover
  refine ⟨?_, fun x => ?_, fun x hx => ?_, fun hwait => ?_⟩
  · rw [ht']
    exact ⟨h.placed.rest, h.placed.inner, hok⟩
  · rw [ht', hlanded, cover_cons, hcover x]
    have := h.buffer_le x
    omega
  · rw [ht'] at hx
    rw [ht', hlanded, cover_cons, hcover x, h.buffer_eq x hx]
    exact Nat.add_comm _ _
  · rw [hstage] at hwait
    cases hwait

theorem Stepped.fed (hs : Stepped sha256 window t k t') (h : t.Fed) (htally : t.Tallied p)
    (hone : ∀ x, cover p.ranges x ≤ 1) (hrun : t'.Running) : t'.Fed := by
  cases hs with
  | turned hstage hturned =>
      rename_i r em c
      have hnot : t.stage ≠ .waiting := hstage ▸ nofun
      rcases r with _ | (e | (_ | _ | why | _))
      · obtain ⟨hplaced, hforward⟩ := hturned.placed h.placed
        exact ⟨hplaced, fun x => (hforward.cover_le x).trans (h.buffer_le x),
          fun x hx => (hforward.cover_eq x hx).trans
            (h.buffer_eq x (hforward.emitPos.trans hx)),
          fun hwait => absurd hwait hnot⟩
      · exact absurd rfl (hrun _)
      · cases hturned with
        | needData hwaits => exact h.rest hwaits
        | broken _ hne _ => exact absurd rfl hne
      · cases hturned with
        | finished => exact h.congr rfl rfl nofun
        | broken _ _ hne => exact absurd rfl hne
      · exact absurd rfl (hrun _)
      · exact absurd rfl (hrun _)
  | skipped hstage => exact h.congr rfl rfl id
  | relaunched => exact h.congr rfl rfl id
  | recarved => exact h.congr rfl rfl id
  | carved => exact h.congr rfl rfl id
  | finished hstage hw hget hlen hresult hfin =>
      cases hfin with
      | wasted => exact h.congr rfl rfl id
      | landed hd => exact h.land htally hone hget hlen hd (hresult _ rfl) rfl rfl rfl
      | requeued => exact h.congr rfl rfl fun _ => hstage
      | failed => exact h.congr rfl rfl fun _ => hstage
  | gaveUp => exact absurd rfl (hrun _)

-- ============================================================ the whole account

/-- All that holds of a transfer of a plan in order. -/
structure Accounted (t : Transfer) (p : Plan) : Prop where
  crewed : t.Crewed
  tallied : t.Tallied p
  ordered : t.Ordered
  fed : t.Running → t.Fed

theorem running_of_stage (h : t.stage = .pumping ∨ t.stage = .waiting) : t.Running := by
  intro why hwhy
  rcases h with h | h
  all_goals
    rw [h] at hwhy
    cases hwhy

theorem Stepped.running (hs : Stepped sha256 window t k t') : t.Running := by
  cases hs with
  | turned hstage => exact running_of_stage (Or.inl hstage)
  | skipped hstage => exact running_of_stage (Or.inr hstage)
  | relaunched hstage => exact running_of_stage (Or.inr hstage)
  | recarved hstage => exact running_of_stage (Or.inr hstage)
  | carved hstage => exact running_of_stage (Or.inr hstage)
  | finished hstage => exact running_of_stage (Or.inr hstage)
  | gaveUp hstage => exact running_of_stage (Or.inr hstage)

theorem Accounted.step (h : t.Accounted p) (hone : ∀ x, cover p.ranges x ≤ 1)
    (hstep : t.step sha256 window k = some t') : t'.Accounted p := by
  have hs := step_cases h.crewed hstep
  refine ⟨hs.crewed h.crewed ?_, hs.tallied h.tallied hone,
    hs.ordered h.ordered h.tallied hone, hs.fed (h.fed hs.running) h.tallied hone⟩
  rintro off (⟨l, hmem⟩ | ⟨r, rs, pos, hadv, rfl⟩)
  · exact h.tallied.free_requeued hone hmem
  · exact h.tallied.free_uncarved hone hadv

theorem accounted_start {info : RemoteNarinfo} {start end_ : ℕ} (hp : p.Wf start end_)
    (c : Client) : (Transfer.start p info start end_ c).Accounted p := by
  have huncarved : (Transfer.start p info start end_ c).uncarved = p.ranges := remaining_zero _
  refine ⟨⟨nofun, nofun, nofun, List.Pairwise.nil, nofun⟩, ⟨fun x => ?_, nofun, nofun, nofun⟩,
    ⟨List.Pairwise.nil, huncarved ▸ hp.ranges, nofun, nofun⟩,
    fun _ => ⟨⟨⟨start, hp.spans, rfl⟩, Or.inl rfl, Buffer.ok_empty⟩, fun _ => le_rfl,
      fun _ _ => rfl, nofun⟩⟩
  rw [huncarved]
  rfl

theorem accounted_of_reach {info : RemoteNarinfo} {start end_ : ℕ} (hp : p.Wf start end_)
    (h : (transfer sha256 window p info start end_).Reach t) : t.Accounted p := by
  refine h.invariant (I := fun t => t.Accounted p) ?_ fun t k t' _ hacc hstep =>
    hacc.step (cover_le_one hp.ranges) hstep
  rintro t ⟨patience, rfl⟩
  exact accounted_start hp _

theorem Stepped.carries {info : RemoteNarinfo} {start end_ : ℕ}
    (hs : Stepped sha256 window t k t') (h : t.Carries p info start end_) :
    t'.Carries p info start end_ := by
  cases hs with
  | turned hstage hturned =>
      rename_i r em c
      obtain ⟨hspans, hlits, hfull, hhash, hend⟩ := hturned.same
      have hem : ∀ {t' : Transfer}, t'.em.spans = em.spans → t'.em.lits = em.lits →
          t'.em.full = em.full → t'.em.narHash = em.narHash → t'.em.end_ = em.end_ →
          t'.Carries p info start end_ := by
        intro t' hspans' hlits' hfull' hhash' hend'
        exact ⟨hspans'.trans (hspans.trans h.spans), hlits'.trans (hlits.trans h.lits),
          hfull'.trans (hfull.trans h.full), hhash'.trans (hhash.trans h.narHash),
          hend'.trans (hend.trans h.end_)⟩
      rcases r with _ | (e | (_ | _ | why | _))
      all_goals exact hem rfl rfl rfl rfl rfl
  | skipped => exact ⟨h.spans, h.lits, h.full, h.narHash, h.end_⟩
  | relaunched => exact ⟨h.spans, h.lits, h.full, h.narHash, h.end_⟩
  | recarved => exact ⟨h.spans, h.lits, h.full, h.narHash, h.end_⟩
  | carved => exact ⟨h.spans, h.lits, h.full, h.narHash, h.end_⟩
  | finished hstage hw hget hlen hresult hfin =>
      cases hfin with
      | wasted => exact ⟨h.spans, h.lits, h.full, h.narHash, h.end_⟩
      | landed => exact ⟨h.spans, h.lits, h.full, h.narHash, h.end_⟩
      | requeued => exact ⟨h.spans, h.lits, h.full, h.narHash, h.end_⟩
      | failed => exact ⟨h.spans, h.lits, h.full, h.narHash, h.end_⟩
  | gaveUp => exact ⟨h.spans, h.lits, h.full, h.narHash, h.end_⟩

theorem carries_of_reach {info : RemoteNarinfo} {start end_ : ℕ} (hp : p.Wf start end_)
    (h : (transfer sha256 window p info start end_).Reach t) : t.Carries p info start end_ := by
  refine h.invariant (I := fun t => t.Carries p info start end_) ?_
    fun t k t' hr hcarries hstep => ?_
  · rintro t ⟨patience, rfl⟩
    exact ⟨rfl, rfl, rfl, rfl, rfl⟩
  · exact (step_cases (accounted_of_reach hp hr).crewed hstep).carries hcarries

-- ============================================================ the lowest work

/-- What the launch loop takes next, when no gate is up. -/
def candidate (t : Transfer) : Option ℕ :=
  match t.requeue with
  | (off, _) :: _ => some off
  | [] =>
      match advance t.left t.rangePos with
      | (r :: _, pos) => some (r.1 + pos)
      | ([], _) => none

/-- The candidate is the lowest work there is. -/
theorem Accounted.candidate (h : t.Accounted p) {x : ℕ}
    (hx : InRange (t.requeue ++ t.uncarved) x) :
    ∃ low ∈ t.requeue ++ t.uncarved, t.candidate = some low.1 ∧ 0 < low.2
      ∧ ∀ r ∈ t.requeue ++ t.uncarved, 0 < r.2 → low.1 ≤ r.1 := by
  cases hqueue : t.requeue with
  | cons low rest =>
      have hmem : low ∈ t.requeue := hqueue ▸ List.mem_cons_self
      refine ⟨low, List.mem_cons_self, ?_, h.tallied.requeued low hmem, fun r hr _ => ?_⟩
      · rw [Transfer.candidate, hqueue]
      · have hheap := h.ordered.heap
        rw [hqueue] at hheap
        rcases List.mem_append.mp hr with hr | hr
        · rcases List.mem_cons.mp hr with rfl | hr
          · exact le_rfl
          · rcases List.rel_of_pairwise_cons hheap hr with hlt | ⟨heq, -⟩
            · exact hlt.le
            · exact heq.le
        · exact (Nat.le_add_right _ _).trans (h.ordered.requeued low hmem r hr)
  | nil =>
      rw [hqueue, List.nil_append] at hx
      cases hadv : advance t.left t.rangePos with
      | mk l pos =>
          obtain ⟨hsuffix, hcover, hpos⟩ := remaining_advance hadv
          -- what is uncarved is what the cursor has not passed
          have hin : ∀ {y}, InRange t.uncarved y → InRange (remaining l pos) y := fun {y} hy => by
            rw [← cover_pos, hcover y]
            exact cover_pos.mpr hy
          cases l with
          | nil =>
              obtain ⟨_, hr, -⟩ := hin hx
              cases hr
          | cons r rs =>
              have hlt : pos < r.2 := hpos r rfl
              have hcarving := h.ordered.carving.sublist hsuffix.sublist
              refine ⟨(r.1 + pos, r.2 - pos), hsuffix.mem List.mem_cons_self, ?_,
                Nat.sub_pos_of_lt hlt, fun r' hr' hne => ?_⟩
              · rw [Transfer.candidate, hqueue, hadv]
              · have hself : InRange t.uncarved r'.1 :=
                  ⟨r', hr', le_rfl, Nat.lt_add_of_pos_right hne⟩
                obtain ⟨r'', hr'', hle, -⟩ := hin hself
                rcases List.mem_cons.mp hr'' with rfl | hr''
                · exact hle
                · have := List.rel_of_pairwise_cons hcarving hr''
                  simp only at this ⊢
                  omega

/-- The candidate takes off, when it is within the window. -/
theorem Accounted.launch (h : t.Accounted p) (hone : ∀ x, cover p.ranges x ≤ 1)
    (hstage : t.stage = .waiting) {off : ℕ} (hcand : t.candidate = some off)
    (hwindow : off < t.em.emitPos + window) {chunk slots : ℕ} (hchunk : 0 < chunk)
    (hslots : 0 < slots) (htwo : slots ≤ 2) :
    ∃ t', t.step sha256 window (.launch false chunk slots) = some t'
      ∧ ∃ len, (off, len) ∈ t'.aloft := by
  refine ⟨_, if_pos ⟨hstage, hchunk, htwo⟩, ?_⟩
  have hgo : ¬ (off ≥ t.em.emitPos + window ∨ slots = 0) := by omega
  have hspawn : ∀ {t₁ : Transfer} {len}, t₁.inflight = t.inflight → t.inflight.get off = none →
      (off, len) ∈ (t₁.spawn off len slots).aloft := by
    intro t₁ len hinflight hnone
    rw [← hinflight] at hnone
    rw [spawn_of_none hnone]
    exact mem_aloft.mpr ⟨_, OrdMap.get_put_self _ _ _, rfl, rfl⟩
  cases hqueue : t.requeue with
  | cons r rest =>
      obtain ⟨off', l⟩ := r
      rw [Transfer.candidate, hqueue] at hcand
      cases hcand
      have hnone := h.tallied.free_requeued hone (hqueue ▸ List.mem_cons_self)
      unfold Transfer.launch
      simp only [hqueue, if_neg hgo]
      split
      next => exact ⟨_, hspawn rfl hnone⟩
      next => exact ⟨_, hspawn rfl hnone⟩
  | nil =>
      rw [Transfer.candidate, hqueue] at hcand
      unfold Transfer.launch
      simp only [hqueue] at hcand ⊢
      revert hcand
      cases hadv : advance t.left t.rangePos with
      | mk l pos =>
          cases l with
          | nil => exact nofun
          | cons r rs =>
              rintro ⟨⟩
              simp only [if_neg hgo]
              exact ⟨_, hspawn rfl (h.tallied.free_uncarved hone hadv)⟩

-- =============================================================== exactly once

/-- Where a byte of a range can be, until the emitter has passed it. -/
inductive Place
  | uncarved
  | requeued
  | flying
  | buffered
deriving DecidableEq

/-- The ranges that are there. -/
def rangesAt (t : Transfer) : Place → List (ℕ × ℕ)
  | .uncarved => t.uncarved
  | .requeued => t.requeue
  | .flying => t.aloft
  | .buffered => t.em.buffered.ranges

/-- The last live attempt of a range, of which nothing has landed. -/
structure LastLive (t : Transfer) (w : Attempt) : Prop where
  live : w ∈ t.air
  last : ∀ w' ∈ t.air, w'.off = w.off → w' = w
  unlanded : ∀ x, w.off ≤ x → x < w.off + w.len → ¬ InRange t.landed x

theorem Accounted.place (h : t.Accounted p) (hone : ∀ x, cover p.ranges x ≤ 1) (hrun : t.Running)
    {x : ℕ} (hx : InRange p.ranges x) (hpos : t.em.emitPos ≤ x) :
    ∃! place, InRange (t.rangesAt place) x := by
  have htotal := h.tallied.total x
  rw [← (h.fed hrun).buffer_eq x hpos] at htotal
  have hcover : cover p.ranges x = 1 := Nat.le_antisymm (hone x) (cover_pos.mpr hx)
  have hapart : ∀ place other, other ≠ place →
      cover (t.rangesAt place) x + cover (t.rangesAt other) x ≤ 1 := by
    intro place other hne
    cases place <;> cases other
    all_goals first
      | exact absurd rfl hne
      | simp only [rangesAt]; omega
  have hthere : ∀ place, cover (t.rangesAt place) x = 1 →
      ∃! place, InRange (t.rangesAt place) x := by
    intro place hone
    refine ⟨place, cover_pos.mp (by rw [hone]; exact Nat.one_pos), fun other hother => ?_⟩
    by_contra hne
    have := hapart place other hne
    have := cover_pos.mpr hother
    omega
  have hcases : cover t.uncarved x = 1 ∨ cover t.requeue x = 1 ∨ cover t.aloft x = 1
      ∨ cover t.em.buffered.ranges x = 1 := by omega
  rcases hcases with hc | hc | hc | hc
  · exact hthere .uncarved hc
  · exact hthere .requeued hc
  · exact hthere .flying hc
  · exact hthere .buffered hc

/-- What a step adds to the heap: the rest of a range carved again, or the
range whose last live attempt has failed. -/
theorem Accounted.requeue (h : t.Accounted p) (hone : ∀ x, cover p.ranges x ≤ 1)
    (hstep : t.step sha256 window k = some t') {r : ℕ × ℕ} (hr : r ∈ t'.requeue) :
    r ∈ t.requeue
      ∨ (∃ chunk slots off l, k = .launch false chunk slots ∧ (off, l) ∈ t.requeue
        ∧ r = (off + chunk, l - chunk))
      ∨ ∃ w, k = .done w.id none ∧ t.LastLive w ∧ r = (w.off, w.len) := by
  have hs := step_cases h.crewed hstep
  cases hs with
  | turned hstage hturned =>
      rename_i r em c
      obtain ⟨em', stage, heq⟩ := t.pumped_same em c r
      rw [heq] at hr
      exact Or.inl hr
  | skipped => exact Or.inl hr
  | relaunched hstage hqueue => exact Or.inl (hqueue ▸ List.mem_cons_of_mem _ hr)
  | recarved hstage hqueue hslots hchunk hlong =>
      rename_i chunk slots off l rest
      rcases (List.mem_orderedInsert Sooner).mp hr with rfl | hr
      · exact Or.inr (Or.inl ⟨_, _, off, l, rfl, hqueue ▸ List.mem_cons_self, rfl⟩)
      · exact Or.inl (hqueue ▸ List.mem_cons_of_mem _ hr)
  | carved => exact Or.inl hr
  | finished hstage hw hget hlen hresult hfin =>
      rename_i result w fl
      cases hfin with
      | wasted => exact Or.inl hr
      | landed => exact Or.inl hr
      | requeued hd hids =>
          rcases (List.mem_orderedInsert Sooner).mp hr with rfl | hr
          · refine Or.inr (Or.inr ⟨w, rfl, ⟨hw, fun w' hw' hoff => ?_, fun x hlo hhi hin => ?_⟩,
              rfl⟩)
            · by_contra hne
              have hmem : w'.id ∈ (fl.retire w.id).attempts :=
                List.mem_filter.mpr ⟨(h.crewed.crew hget _).mpr ⟨w', hw', rfl, hoff⟩,
                  decide_eq_true fun hid => hne (h.crewed.eq_of_id hw' hw hid)⟩
              rw [hids] at hmem
              cases hmem
            · have hmem : (w.off, fl.len) ∈ t.aloft := mem_aloft.mpr ⟨fl, hget, hd, rfl⟩
              have haloft := hits_le_cover hmem x
              rw [hits_eq_one.mpr ⟨hlo, by rw [hlen]; exact hhi⟩] at haloft
              have hlanded := cover_pos.mpr hin
              have htotal := h.tallied.total x
              have := hone x
              omega
          · exact Or.inl hr
      | failed => exact Or.inl hr
  | gaveUp => exact Or.inl hr

end Transfer

end Narshare
