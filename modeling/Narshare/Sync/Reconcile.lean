/-
`reconcile_facts` of sync.rs: compare roots, walk the depth-two tree to
where two fact tables differ, and merge what the peer has there.

# The plan

A pass looks at the first `RECONCILE_COARSE_MAX` buckets that differ and
keeps the first `RECONCILE_FETCH_MAX` nodes worth fetching
(`planTargets`). Both are cut from the front of an ascending list, so
what is kept can be said by counting: a bucket is looked at when fewer
than `RECONCILE_COARSE_MAX` differ below it (`looks`), and a node is
fetched when fewer than `RECONCILE_FETCH_MAX` fetches are `ahead` of it.

# Progress

An aggregate differs whichever side has the extra row, so buckets where
WE hold more than the peer take up the pass's budget, and nothing is ever
fetched there that would make them agree. `Admitted` says which rows of
the peer are within the budget; a pass changes our table exactly when a
row worth merging is (`pass_changes_iff`), and passes for which that is so
come to an end (`passes_converge`).
-/
import Narshare.Lib.Front
import Narshare.Sync.Fetch

namespace Narshare

variable (cd : Codec) (cfg : Config)

-- ================================================================ constants

/-- `RECONCILE_COARSE_MAX`. -/
def RECONCILE_COARSE_MAX : ℕ := 32

/-- `RECONCILE_FETCH_MAX`. -/
def RECONCILE_FETCH_MAX : ℕ := 64

/-- `RECONCILE_WHOLESALE`. -/
def RECONCILE_WHOLESALE : ℕ := 32

-- ================================================================= the pass

/-- `ask_children`. -/
def askChildren (peer : Store) (node : Bytes) : Option (List Digest) :=
  (respond cd cfg peer ⟨[], [], [], [], [⟨node, true, false⟩]⟩).bind fun resp =>
    (resp.merkle.find? fun n => decide (n.node = node)).map MerkleNode.children

/-- `ask_children_many`. -/
def askChildrenMany (peer : Store) (buckets : List UInt8) : Option (List (List Digest)) :=
  (respond cd cfg peer ⟨[], [], [], [], buckets.map fun c => ⟨[c], true, false⟩⟩).bind
    fun resp => buckets.mapM fun c =>
      (resp.merkle.find? fun n => decide (n.node = [c])).map MerkleNode.children

/-- The children in which two expansions of a node differ. -/
def differing (ours theirs : List Digest) : List UInt8 :=
  ((List.range ours.length).filter fun i => decide (ours[i]? ≠ theirs[i]?)).map UInt8.ofNat

/-- What is worth fetching in an expanded bucket. -/
def bucketTargets (c : UInt8) (leaves : List UInt8) : List Bytes :=
  if RECONCILE_WHOLESALE ≤ leaves.length then [[c]] else leaves.map fun j => [c, j]

/-- One chunk of level two: the expansions asked for in one request,
against ours. -/
def expandChunk (peer s : Store) (chunk : List UInt8) : Option (List Bytes) :=
  (askChildrenMany cd cfg peer chunk).bind fun answers =>
    ((chunk.zip answers).mapM fun e =>
      (s.merkleChildren [e.1]).map fun ours => bucketTargets e.1 (differing ours e.2)).map
        List.flatten

/-- Both levels of the walk: the nodes to fetch. A bucket we hold nothing
under is taken whole, unexpanded. -/
def planTargets (peer s : Store) : Option (List Bytes) :=
  (s.merkleChildren []).bind fun ours =>
    (askChildren cd cfg peer []).bind fun theirs =>
      let looked := (differing ours theirs).take RECONCILE_COARSE_MAX
      let whole := looked.filter fun c => decide (ours[c.toNat]? = some 0)
      let expand := looked.filter fun c => !decide (ours[c.toNat]? = some 0)
      ((chunks MERKLE_ASKS_MAX expand).mapM (expandChunk cd cfg peer s)).map fun found =>
        (whole.map (fun c => [c]) ++ found.flatten).take RECONCILE_FETCH_MAX

/-- `reconcile_facts`, its fetches taking their turns by a schedule:
whether anything was merged, and the store. -/
def reconcileFacts (peer s : Store) (peerRoot : Option Digest) (schedule : List ℕ) :
    Option (Bool × Store) :=
  match peerRoot with
  | none => some (false, s)
  | some peerRoot =>
      if s.merkleRoot = peerRoot then some (false, s)
      else if s.merkleRoot = 0 then
        -- nothing at all locally: the whole table is one subtree
        Window.drain cd cfg peer { store := s, queue := [], running := [{ node := [] }] } schedule
      else
        (planTargets cd cfg peer s).bind fun targets =>
          if targets = [] then some (false, s)
          else (Window.start s targets).drain cd cfg peer schedule

-- ================================================================= counting

/-- Do the two trees differ at the node? -/
def differAt (s peer : Store) (n : Node) : Bool := decide (s.agg.cell n ≠ peer.agg.cell n)

/-- How many of the first `n` buckets differ. -/
def coarseBelow (s peer : Store) (n : ℕ) : ℕ :=
  (List.range n).countP fun c => differAt s peer (.coarse c)

/-- The bucket differs, and is among the first that do. -/
def looks (s peer : Store) (c : ℕ) : Bool :=
  differAt s peer (.coarse c) && decide (coarseBelow s peer c < RECONCILE_COARSE_MAX)

/-- Do we hold nothing under the bucket? -/
def bare (s : Store) (c : ℕ) : Bool := decide (s.agg.cell (.coarse c) = 0)

/-- How many of the first `n` leaves of a bucket differ. -/
def leavesBelow (s peer : Store) (c n : ℕ) : ℕ :=
  (List.range n).countP fun j => differAt s peer (.leaf c j)

/-- Is the bucket fetched whole although we hold something under it? -/
def wholesale (s peer : Store) (c : ℕ) : Bool :=
  decide (RECONCILE_WHOLESALE ≤ leavesBelow s peer c 256)

/-- How many fetches an expanded bucket asks for. -/
def fetchesOf (s peer : Store) (c : ℕ) : ℕ :=
  if wholesale s peer c then 1 else leavesBelow s peer c 256

/-- How many fetches come before those of an expanded bucket: one for
each bucket we hold nothing under, and those of the expanded buckets
below. -/
def ahead (s peer : Store) (c : ℕ) : ℕ :=
  (List.range 256).countP (fun c' => looks s peer c' && bare s c')
    + (((List.range c).filter fun c' => looks s peer c' && !bare s c').map
        (fetchesOf s peer)).sum

/-- A row of the peer is within what a pass fetches. -/
def Admitted (s peer : Store) (a : Attestation) : Prop :=
  let c := (attestationHash cd a).bytes 0
  let j := (attestationHash cd a).bytes 1
  let reads := fun node => a ∈ peer.db.readPages cd node SUBTREE_PAGES_MAX []
  if s.merkleRoot = 0 then reads []
  else coarseBelow s peer c.toNat < RECONCILE_COARSE_MAX ∧
    if bare s c.toNat then reads [c]
    else if wholesale s peer c.toNat then
      ahead s peer c.toNat < RECONCILE_FETCH_MAX ∧ reads [c]
    else
      ahead s peer c.toNat + leavesBelow s peer c.toNat j.toNat < RECONCILE_FETCH_MAX
        ∧ reads [c, j]

/-- The fetches of an expanded bucket. -/
def bucketFetches (s peer : Store) (c : ℕ) : List Bytes :=
  if wholesale s peer c then [[UInt8.ofNat c]]
  else ((List.range 256).filter fun j => differAt s peer (.leaf c j)).map fun j =>
    [UInt8.ofNat c, UInt8.ofNat j]

/-- The nodes a pass fetches. -/
def targetsOf (s peer : Store) : List Bytes :=
  (((List.range 256).filter fun c => looks s peer c && bare s c).map (fun c => [UInt8.ofNat c])
    ++ ((List.range 256).filter fun c => looks s peer c && !bare s c).flatMap
      (bucketFetches s peer)).take RECONCILE_FETCH_MAX

-- ================================================================= the plan

variable {cd cfg} {s peer : Store}

theorem differing_map (f g : ℕ → Digest) :
    differing ((List.range 256).map f) ((List.range 256).map g)
      = ((List.range 256).filter fun i => decide (f i ≠ g i)).map UInt8.ofNat := by
  rw [differing, List.length_map, List.length_range]
  refine congrArg (List.map UInt8.ofNat) (List.filter_congr fun i hi => ?_)
  have hlt := List.mem_range.mp hi
  simp [hlt]

/-- A peer answers an expansion of the root with its coarse level. -/
theorem askChildren_root :
    askChildren cd cfg peer [] = some ((List.range 256).map peer.agg.coarse) := rfl

/-- What a peer makes of a few expansions of buckets. -/
theorem respondMerkle_expand (buckets : List UInt8) (ans : MerkleAnswer) :
    (buckets.map fun c => (⟨[c], true, false⟩ : MerkleAsk)).foldlM
        (respondMerkleOne cd peer []) ans
      = some { ans with nodes := ans.nodes
          ++ buckets.map fun c => ⟨[c], peer.agg.leaves c.toNat⟩ } := by
  induction buckets generalizing ans with
  | nil =>
      rw [List.map_nil, List.map_nil, List.append_nil]
      rfl
  | cons c buckets ih =>
      have hone : respondMerkleOne cd peer [] ans ⟨[c], true, false⟩
          = some { ans with nodes := ans.nodes ++ [⟨[c], peer.agg.leaves c.toNat⟩] } := rfl
      rw [List.map_cons, List.foldlM_cons, hone, Option.bind_eq_bind, Option.bind_some, ih,
        List.map_cons]
      simp only [List.append_assoc, List.singleton_append]

theorem mapM_eq_map {α β : Type*} {f : α → Option β} {g : α → β} {l : List α}
    (h : ∀ x ∈ l, f x = some (g x)) : l.mapM f = some (l.map g) := by
  induction l with
  | nil => rfl
  | cons x l ih =>
      rw [List.mapM_cons, h x List.mem_cons_self, ih fun y hy => h y (List.mem_cons_of_mem _ hy)]
      rfl

/-- Up to a request's worth of buckets are all expanded. -/
theorem askChildrenMany_eq {buckets : List UInt8} (h : buckets.length ≤ MERKLE_ASKS_MAX) :
    askChildrenMany cd cfg peer buckets
      = some (buckets.map fun c => peer.agg.leaves c.toNat) := by
  cases hb : buckets with
  | nil => rfl
  | cons b bs =>
      have hne : buckets.map (fun c => (⟨[c], true, false⟩ : MerkleAsk)) ≠ [] := by
        rw [hb]
        exact List.cons_ne_nil _ _
      have hall : (buckets.map fun c => (⟨[c], true, false⟩ : MerkleAsk)).take MERKLE_ASKS_MAX
          = buckets.map fun c => ⟨[c], true, false⟩ := by
        rw [List.take_of_length_le]
        rw [List.length_map]
        exact h
      rw [← hb, askChildrenMany, respond, respondBudgeted, if_neg (not_not.mpr rfl),
        if_pos hne, respondMerkle, hall, respondMerkle_expand, Option.map_some,
        Option.bind_some]
      refine mapM_eq_map fun c hc => ?_
      simp only [List.nil_append]
      rw [List.find?_map, Option.map_map]
      cases hf : buckets.find? ((fun n : MerkleNode => decide (n.node = [c]))
          ∘ fun c => ⟨[c], peer.agg.leaves c.toNat⟩) with
      | none =>
          have hmiss := List.find?_eq_none.mp hf c hc
          simp at hmiss
      | some c' =>
          have hc' := List.find?_some hf
          simp only [Function.comp_apply, decide_eq_true_eq, List.cons.injEq, and_true] at hc'
          rw [hc']
          rfl

theorem bucketTargets_eq (c : UInt8) :
    bucketTargets c (differing (s.agg.leaves c.toNat) (peer.agg.leaves c.toNat))
      = bucketFetches s peer c.toNat := by
  have hcount : (differing (s.agg.leaves c.toNat) (peer.agg.leaves c.toNat)).length
      = leavesBelow s peer c.toNat 256 := by
    rw [Aggregates.leaves_eq, Aggregates.leaves_eq, differing_map, List.length_map,
      ← List.countP_eq_length_filter]
    rfl
  rw [bucketTargets, hcount, bucketFetches, wholesale, UInt8.ofNat_toNat]
  simp only [decide_eq_true_eq]
  split
  next => rfl
  next =>
    rw [Aggregates.leaves_eq, Aggregates.leaves_eq, differing_map, List.map_map]
    rfl

theorem expandChunk_eq {chunk : List UInt8} (h : chunk.length ≤ MERKLE_ASKS_MAX) :
    expandChunk cd cfg peer s chunk
      = some (chunk.flatMap fun c => bucketFetches s peer c.toNat) := by
  rw [expandChunk, askChildrenMany_eq h, Option.bind_some, ← List.map_prod_left_eq_zip]
  have hone : ∀ e ∈ chunk.map fun c => (c, peer.agg.leaves c.toNat),
      (s.merkleChildren [e.1]).map (fun ours => bucketTargets e.1 (differing ours e.2))
        = some (bucketFetches s peer e.1.toNat) := by
    intro e he
    obtain ⟨c, -, rfl⟩ := List.mem_map.mp he
    rw [← bucketTargets_eq]
    rfl
  rw [mapM_eq_map hone, Option.map_some, List.map_map]
  rfl

theorem toNat_ofNat_of_mem {c : ℕ} {p : ℕ → Bool} (h : c ∈ (List.range 256).filter p) :
    (UInt8.ofNat c).toNat = c :=
  UInt8.toNat_ofNat_of_lt' (List.mem_range.mp (List.mem_filter.mp h).1)

/-- What a pass plans to fetch. -/
theorem planTargets_eq : planTargets cd cfg peer s = some (targetsOf s peer) := by
  have hcoarse : ∀ c : ℕ, c < 256 →
      decide ((((List.range 256).map s.agg.coarse)[(UInt8.ofNat c).toNat]? = some 0))
        = bare s c := by
    intro c hc
    rw [UInt8.toNat_ofNat_of_lt' hc, bare, Bool.eq_iff_iff, decide_eq_true_iff,
      decide_eq_true_iff, List.getElem?_map, List.getElem?_range hc]
    exact Option.some_inj
  have hlooked : (differing ((List.range 256).map s.agg.coarse)
      ((List.range 256).map peer.agg.coarse)).take RECONCILE_COARSE_MAX
      = ((List.range 256).filter (looks s peer)).map UInt8.ofNat := by
    rw [differing_map, ← List.map_take, take_filter_range]
    rfl
  have hpart : ∀ q : Bool → Bool,
      (((List.range 256).filter (looks s peer)).map UInt8.ofNat).filter (fun c =>
          q (decide (((List.range 256).map s.agg.coarse)[c.toNat]? = some 0)))
        = ((List.range 256).filter fun c => looks s peer c && q (bare s c)).map
            UInt8.ofNat := by
    intro q
    rw [List.filter_map, List.filter_filter]
    refine congrArg (List.map UInt8.ofNat) (List.filter_congr fun c hc => ?_)
    rw [Function.comp_apply, hcoarse c (List.mem_range.mp hc), Bool.and_comm]
  rw [planTargets, Store.merkleChildren, Option.bind_some, askChildren_root, Option.bind_some]
  simp only
  -- chunk by chunk is bucket by bucket
  have hflat : ∀ l : List (List UInt8),
      l.flatMap (fun chunk => chunk.flatMap fun c => bucketFetches s peer c.toNat)
        = l.flatten.flatMap fun c => bucketFetches s peer c.toNat := fun l => by
    rw [← List.flatMap_id, List.flatMap_assoc]
    rfl
  have hwhole := hpart fun b => b
  have hexpand := hpart fun b => !b
  rw [hlooked, hwhole, hexpand, mapM_eq_map fun chunk hchunk =>
    expandChunk_eq (length_le_of_mem_chunks hchunk), Option.map_some, targetsOf,
    ← List.flatMap_def, hflat, flatten_chunks (by decide), List.map_map,
    List.flatMap_map]
  refine congrArg (fun l => some (List.take RECONCILE_FETCH_MAX (_ ++ l))) ?_
  refine List.flatMap_congr fun c hc => ?_
  rw [toNat_ofNat_of_mem hc]

-- ============================================================== the targets

theorem ofNat_inj {c c' : ℕ} (hc : c < 256) (hc' : c' < 256)
    (h : UInt8.ofNat c = UInt8.ofNat c') : c = c' := by
  rw [← UInt8.toNat_ofNat_of_lt' hc, h, UInt8.toNat_ofNat_of_lt' hc']

/-- The fetches of a bucket lie in it. -/
theorem head_bucketFetches {c : ℕ} {x : Bytes} (h : x ∈ bucketFetches s peer c) :
    x.head? = some (UInt8.ofNat c) := by
  rw [bucketFetches] at h
  split at h
  next =>
    rw [List.mem_singleton.mp h]
    rfl
  next =>
    obtain ⟨j, -, rfl⟩ := List.mem_map.mp h
    rfl

theorem length_bucketFetches (c : ℕ) :
    (bucketFetches s peer c).length = fetchesOf s peer c := by
  rw [bucketFetches, fetchesOf]
  split
  next => rfl
  next =>
    rw [List.length_map, ← List.countP_eq_length_filter]
    rfl

/-- Every target lies in a bucket looked at, and is the bucket itself
when we hold nothing under it. -/
theorem exists_of_mem_targetsOf {x : Bytes} (h : x ∈ targetsOf s peer) :
    ∃ c < 256, looks s peer c = true ∧ x.head? = some (UInt8.ofNat c)
      ∧ (bare s c = true → x = [UInt8.ofNat c]) := by
  rcases List.mem_append.mp (List.mem_of_mem_take h) with h | h
  · obtain ⟨c, hc, rfl⟩ := List.mem_map.mp h
    obtain ⟨hlt, hc⟩ := List.mem_filter.mp hc
    exact ⟨c, List.mem_range.mp hlt, (Bool.and_eq_true _ _ ▸ hc).1, rfl, fun _ => rfl⟩
  · obtain ⟨c, hc, hx⟩ := List.mem_flatMap.mp h
    obtain ⟨hlt, hc⟩ := List.mem_filter.mp hc
    rw [Bool.and_eq_true, Bool.not_eq_true'] at hc
    refine ⟨c, List.mem_range.mp hlt, hc.1, head_bucketFetches hx, fun hb => ?_⟩
    rw [hc.2] at hb
    cases hb

/-- No more buckets are looked at than the cap. -/
theorem count_looks_le :
    (List.range 256).countP (fun c => looks s peer c && bare s c) ≤ RECONCILE_COARSE_MAX := by
  have hlooks : (List.range 256).filter (looks s peer)
      = ((List.range 256).filter fun c => differAt s peer (.coarse c)).take
          RECONCILE_COARSE_MAX := (take_filter_range _ _ _).symm
  calc (List.range 256).countP (fun c => looks s peer c && bare s c)
      ≤ (List.range 256).countP (looks s peer) :=
        List.countP_mono_left fun c _ hc => (Bool.and_eq_true _ _ ▸ hc).1
    _ ≤ RECONCILE_COARSE_MAX := by
        rw [List.countP_eq_length_filter, hlooks]
        exact List.length_take_le _ _

/-- A bucket we hold nothing under is fetched whole. -/
theorem mem_targetsOf_bare {c : ℕ} (hc : c < 256) (hl : looks s peer c = true)
    (hb : bare s c = true) : [UInt8.ofNat c] ∈ targetsOf s peer := by
  rw [targetsOf, List.take_append, List.mem_append, List.take_of_length_le]
  · refine Or.inl (List.mem_map.mpr ⟨c, List.mem_filter.mpr ⟨List.mem_range.mpr hc, ?_⟩, rfl⟩)
    rw [hl, hb]
    rfl
  · rw [List.length_map, ← List.countP_eq_length_filter]
    exact count_looks_le.trans (by decide)

/-- Of an expanded bucket, what is fetched are the first of its fetches,
as many as those ahead leave room for. -/
theorem mem_targetsOf_expanded {c : ℕ} {x : Bytes} (hc : c < 256)
    (hl : looks s peer c = true) (hb : bare s c = false)
    (hx : x.head? = some (UInt8.ofNat c)) :
    x ∈ targetsOf s peer
      ↔ x ∈ (bucketFetches s peer c).take (RECONCILE_FETCH_MAX - ahead s peer c) := by
  have hsame : ∀ c' < 256, x.head? = some (UInt8.ofNat c') → c' = c := by
    intro c' hc' hx'
    rw [hx] at hx'
    exact ofNat_inj hc' hc (Option.some.inj hx').symm
  have hnot : x ∉ ((List.range 256).filter fun c => looks s peer c && bare s c).map
      fun c => [UInt8.ofNat c] := by
    intro hmem
    obtain ⟨c', hc', rfl⟩ := List.mem_map.mp hmem
    obtain ⟨hlt, hc'⟩ := List.mem_filter.mp hc'
    rw [hsame c' (List.mem_range.mp hlt) rfl, hb, Bool.and_false] at hc'
    cases hc'
  have hkeep : (looks s peer c && !bare s c) = true := by
    rw [hl, hb]
    rfl
  rw [targetsOf, mem_take_append_right hnot, mem_take_flatMap_range hc hkeep
    fun c' hc' hxc => hsame c' hc' (head_bucketFetches hxc), Nat.sub_sub, List.length_map,
    ← List.countP_eq_length_filter, ahead]
  simp only [length_bucketFetches]

-- ============================================================ what is fetched

variable (cd) in
/-- What a pass reads of the peer's table. -/
def fetchedOf (s peer : Store) : List Attestation :=
  if s.merkleRoot = 0 then peer.db.readPages cd [] SUBTREE_PAGES_MAX []
  else (targetsOf s peer).flatMap fun node => peer.db.readPages cd node SUBTREE_PAGES_MAX []

/-- A row whose nodes differ is read exactly when it is within the
budget. -/
theorem mem_fetchedOf {u : FactTable} (hrep : Rep cd peer.db u) {a : Attestation}
    (hcoarse : differAt s peer (.coarse ((attestationHash cd a).bytes 0).toNat) = true)
    (hleaf : differAt s peer (.leaf ((attestationHash cd a).bytes 0).toNat
      ((attestationHash cd a).bytes 1).toNat) = true) :
    a ∈ fetchedOf cd s peer ↔ Admitted cd s peer a := by
  have hkey : ∀ {node}, a ∈ peer.db.readPages cd node SUBTREE_PAGES_MAX [] →
      ∃ rest,
        node <+: (attestationHash cd a).bytes 0 :: (attestationHash cd a).bytes 1 :: rest := by
    intro node hread
    obtain ⟨k, hk, hunder⟩ := Db.mem_readPages hread
    obtain ⟨rest, hrest⟩ := attKey_eq (attestationHash cd a) (pathKeyOf a)
    rw [((hrep.att k a).mp hk).2, hrest] at hunder
    exact ⟨rest, hunder⟩
  rw [fetchedOf, Admitted]
  simp only
  generalize (attestationHash cd a).bytes 0 = c at hcoarse hleaf hkey ⊢
  generalize (attestationHash cd a).bytes 1 = j at hleaf hkey ⊢
  have hc : c.toNat < 256 := c.toNat_lt
  by_cases hroot : s.merkleRoot = 0
  · rw [if_pos hroot, if_pos hroot]
  rw [if_neg hroot, if_neg hroot, List.mem_flatMap]
  -- a target the row is under lies in the row's bucket
  have hhead : ∀ {node}, node ∈ targetsOf s peer →
      a ∈ peer.db.readPages cd node SUBTREE_PAGES_MAX [] →
      looks s peer c.toNat = true ∧ node.head? = some c
        ∧ (bare s c.toNat = true → node = [c]) := by
    intro node hnode hread
    obtain ⟨c', hc', hl, hx, hwhole⟩ := exists_of_mem_targetsOf hnode
    obtain ⟨rest, hunder⟩ := hkey hread
    cases node with
    | nil => cases hx
    | cons b node =>
        have hb : b = c := (List.cons_prefix_cons.mp hunder).1
        have hbc : c' = c.toNat := by
          rw [← hb, ← UInt8.toNat_ofNat_of_lt' hc', Option.some.inj hx]
        rw [hbc] at hl hx hwhole
        rw [UInt8.ofNat_toNat] at hx hwhole
        exact ⟨hl, hx, hwhole⟩
  by_cases hrank : coarseBelow s peer c.toNat < RECONCILE_COARSE_MAX
  swap
  · refine iff_of_false ?_ fun h => hrank h.1
    rintro ⟨node, hnode, hread⟩
    have hl := (hhead hnode hread).1
    rw [looks, Bool.and_eq_true, decide_eq_true_iff] at hl
    exact hrank hl.2
  rw [and_iff_right hrank]
  have hl : looks s peer c.toNat = true := by
    rw [looks, hcoarse, decide_eq_true hrank]
    rfl
  by_cases hb : bare s c.toNat = true
  · rw [if_pos hb]
    constructor
    · rintro ⟨node, hnode, hread⟩
      exact (hhead hnode hread).2.2 hb ▸ hread
    · intro hread
      have := mem_targetsOf_bare hc hl hb
      rw [UInt8.ofNat_toNat] at this
      exact ⟨[c], this, hread⟩
  rw [if_neg hb]
  rw [Bool.not_eq_true] at hb
  -- in an expanded bucket, the targets are its first fetches
  have hmem : ∀ {node : Bytes}, node.head? = some c → (node ∈ targetsOf s peer
      ↔ node ∈ (bucketFetches s peer c.toNat).take
          (RECONCILE_FETCH_MAX - ahead s peer c.toNat)) := by
    intro node hx
    exact mem_targetsOf_expanded hc hl hb (by rw [hx, UInt8.ofNat_toNat])
  by_cases hw : wholesale s peer c.toNat = true
  · rw [if_pos hw]
    have hfetches : bucketFetches s peer c.toNat = [[c]] := by
      rw [bucketFetches, if_pos hw, UInt8.ofNat_toNat]
    rw [hfetches] at hmem
    constructor
    · rintro ⟨node, hnode, hread⟩
      have htake := (hmem (hhead hnode hread).2.1).mp hnode
      have hone := List.mem_singleton.mp (List.mem_of_mem_take htake)
      refine ⟨?_, hone ▸ hread⟩
      by_contra hfull
      rw [show RECONCILE_FETCH_MAX - ahead s peer c.toNat = 0 by omega, List.take_zero] at htake
      exact List.not_mem_nil htake
    · rintro ⟨hroom, hread⟩
      refine ⟨[c], (hmem rfl).mpr ?_, hread⟩
      rw [List.take_of_length_le]
      · exact List.mem_singleton_self _
      · rw [List.length_singleton]
        omega
  · rw [if_neg hw]
    have hfetches : (bucketFetches s peer c.toNat).take
        (RECONCILE_FETCH_MAX - ahead s peer c.toNat)
        = ((List.range 256).filter fun j => differAt s peer (.leaf c.toNat j)
            && decide (leavesBelow s peer c.toNat j
              < RECONCILE_FETCH_MAX - ahead s peer c.toNat)).map
          fun j => [c, UInt8.ofNat j] := by
      rw [bucketFetches, if_neg hw, UInt8.ofNat_toNat, ← List.map_take, take_filter_range]
      rfl
    rw [hfetches] at hmem
    constructor
    · rintro ⟨node, hnode, hread⟩
      obtain ⟨j', hj', rfl⟩ := List.mem_map.mp ((hmem (hhead hnode hread).2.1).mp hnode)
      obtain ⟨hlt, hj'⟩ := List.mem_filter.mp hj'
      rw [Bool.and_eq_true, decide_eq_true_iff] at hj'
      obtain ⟨rest, hunder⟩ := hkey hread
      have hjj : UInt8.ofNat j' = j :=
        (List.cons_prefix_cons.mp (List.cons_prefix_cons.mp hunder).2).1
      have hjn : j' = j.toNat := by
        rw [← hjj, UInt8.toNat_ofNat_of_lt' (List.mem_range.mp hlt)]
      rw [hjj] at hread
      rw [hjn] at hj'
      exact ⟨by omega, hread⟩
    · rintro ⟨hroom, hread⟩
      refine ⟨[c, j], (hmem rfl).mpr ?_, hread⟩
      refine List.mem_map.mpr ⟨j.toNat, List.mem_filter.mpr ⟨?_, ?_⟩, by rw [UInt8.ofNat_toNat]⟩
      · exact List.mem_range.mpr j.toNat_lt
      · rw [hleaf, Bool.true_and, decide_eq_true_iff]
        omega

-- ================================================================= one pass

/-- Where the two trees agree, the tables hold the same hashes. -/
def Separated (s peer : Store) : Prop :=
  ∀ n : Node, s.agg.cell n = peer.agg.cell n → ∀ h, n.covers h = true →
    ((∃ pathKey, s.db.attPath.get pathKey = some h)
      ↔ ∃ pathKey, peer.db.attPath.get pathKey = some h)

variable (cd) in
/-- A row of the peer whose merge would change our table. -/
def Useful (s peer : Store) (a : Attestation) : Prop :=
  peer.holdsRow a ∧ (mergeAttests cd s [a]).2.db.att ≠ s.db.att

section Pass

variable {given : List Attestation} {t u : FactTable}

/-- A row is useful when it contributes what we do not have. -/
theorem useful_iff (hs : Learned cd given s t) (hp : Learned cd given peer u)
    (hcf : CollisionFree cd given) {a : Attestation} :
    Useful cd s peer a ↔ peer.holdsRow a ∧ ¬ taken a ≤ t.facts := by
  refine and_congr_right fun ha => ?_
  have hstem : ∀ b ∈ [a], Stems given b := fun b hb =>
    List.mem_singleton.mp hb ▸ hp.stems _ _ (hp.rep.holdsRow_iff.mp ha)
  obtain ⟨t', ht', hfacts, -⟩ := hs.mergeAttests hcf hstem
  rw [ne_eq, ← ht'.rep.eq_iff hs.rep]
  refine not_congr ⟨fun heq => ?_, fun hle => ?_⟩
  · rw [← heq, hfacts]
    exact le_absorb_of_mem (List.mem_singleton_self a)
  · refine FactTable.ext_facts (hfacts.trans (absorb_of_le fun b hb => ?_))
    rw [List.mem_singleton.mp hb]
    exact hle

/-- Above a useful row, every node differs. -/
theorem differAt_of_useful (hs : Learned cd given s t) (hp : Learned cd given peer u)
    (hcf : CollisionFree cd given) (hsep : Separated s peer) {a : Attestation}
    (ha : peer.holdsRow a) (hnew : ¬ taken a ≤ t.facts) {n : Node}
    (hn : n.covers (attestationHash cd a) = true) : differAt s peer n = true := by
  rw [differAt, decide_eq_true_iff]
  intro hcell
  have hrow := hp.rep.holdsRow_iff.mp ha
  obtain ⟨pathKey, hpk⟩ := (hsep n hcell _ hn).mpr ⟨pathKeyOf a, by
    rw [hp.rep.path, hrow]
    rfl⟩
  rw [hs.rep.path] at hpk
  obtain ⟨b, hb, hhash⟩ := Option.map_eq_some_iff.mp hpk
  have hba : b = a := hcf b a (t.ok _ _ hb).canonical (u.ok _ _ hrow).canonical
    (hs.stems _ _ hb) (hp.stems _ _ hrow) hhash
  subst hba
  refine hnew ?_
  rw [taken]
  split
  · refine FactTable.facts_le_iff.mp le_rfl b ?_
    rw [(t.ok _ _ hb).key]
    exact hb
  · exact bot_le

/-- The rows a pass reads are the peer's. -/
theorem holdsRow_of_mem_fetchedOf {a : Attestation} (h : a ∈ fetchedOf cd s peer) :
    peer.holdsRow a := by
  rw [fetchedOf] at h
  split at h
  next =>
    obtain ⟨k, hk, -⟩ := Db.mem_readPages h
    exact ⟨k, hk⟩
  next =>
    obtain ⟨node, -, h⟩ := List.mem_flatMap.mp h
    obtain ⟨k, hk, -⟩ := Db.mem_readPages h
    exact ⟨k, hk⟩

/-- The window of a pass, when it opens one: the whole table, or the
targets. -/
theorem inv_open (hs : Learned cd given s t) (hroot : s.merkleRoot = 0) :
    Window.Inv cd given peer t (fetchedOf cd s peer)
      { store := s, queue := [], running := [{ node := [] }] } := by
  refine ⟨⟨⟨t, hs, ?_, le_rfl, iff_of_false (lt_irrefl 0) (not_not.mpr rfl)⟩, ?_⟩, fun _ => rfl⟩
  · rw [fetchedOf, if_pos hroot, Window.rest, List.flatMap_nil, List.append_nil,
      List.flatMap_singleton]
    rfl
  · intro f hf
    rw [List.mem_singleton.mp hf]
    decide

theorem inv_targets (hs : Learned cd given s t) (hroot : s.merkleRoot ≠ 0) :
    Window.Inv cd given peer t (fetchedOf cd s peer)
      (Window.start s (targetsOf s peer)) := by
  rw [fetchedOf, if_neg hroot]
  exact Window.inv_start hs

/-- What a pass over differing tables does: it merges what it reads. -/
theorem reconcileFacts_spec (hs : Learned cd given s t) (hp : Learned cd given peer u)
    (hcf : CollisionFree cd given) (hdiff : s.merkleRoot ≠ peer.merkleRoot)
    {schedule : List ℕ} {done : Bool × Store}
    (h : reconcileFacts cd cfg peer s (some peer.merkleRoot) schedule = some done) :
    ∃ t', Learned cd given done.2 t' ∧ t'.facts = absorb taken t.facts (fetchedOf cd s peer)
      ∧ (done.1 = true ↔ t' ≠ t) := by
  have hpeer : ∀ a, peer.holdsRow a → Stems given a := fun a ha =>
    hp.stems _ _ (hp.rep.holdsRow_iff.mp ha)
  rw [reconcileFacts, if_neg hdiff] at h
  by_cases hroot : s.merkleRoot = 0
  · rw [if_pos hroot] at h
    exact (inv_open hs hroot).drain hcf hpeer h
  · rw [if_neg hroot, planTargets_eq, Option.bind_some] at h
    split at h
    next hnil =>
      cases h
      refine ⟨t, hs, ?_, iff_of_false Bool.false_ne_true (not_not.mpr rfl)⟩
      rw [fetchedOf, if_neg hroot, hnil]
      rfl
    next => exact (inv_targets hs hroot).drain hcf hpeer h

/-- Every pass can be carried through. -/
theorem reconcileFacts_finishes (hs : Learned cd given s t) (hp : Learned cd given peer u)
    (hcf : CollisionFree cd given) (cfg : Config) :
    ∃ schedule done, reconcileFacts cd cfg peer s (some peer.merkleRoot) schedule
      = some done := by
  have hpeer : ∀ a, peer.holdsRow a → Stems given a := fun a ha =>
    hp.stems _ _ (hp.rep.holdsRow_iff.mp ha)
  simp only [reconcileFacts]
  by_cases hdiff : s.merkleRoot = peer.merkleRoot
  · simp only [if_pos hdiff]
    exact ⟨[], _, rfl⟩
  by_cases hroot : s.merkleRoot = 0
  · simp only [if_neg hdiff, if_pos hroot]
    exact (inv_open hs hroot).finishes cfg hcf hpeer
  · simp only [if_neg hdiff, if_neg hroot, planTargets_eq, Option.bind_some]
    by_cases hnil : targetsOf s peer = []
    · simp only [if_pos hnil]
      exact ⟨[], _, rfl⟩
    · simp only [if_neg hnil]
      exact (inv_targets hs hroot).finishes cfg hcf hpeer

/-- A pass changes our table exactly when some useful row of the peer is
within its budget; and it says so. -/
theorem pass_changes_iff (hs : Learned cd given s t) (hp : Learned cd given peer u)
    (hcf : CollisionFree cd given) (hsep : Separated s peer) {schedule : List ℕ}
    {done : Bool × Store}
    (h : reconcileFacts cd cfg peer s (some peer.merkleRoot) schedule = some done) :
    ∃ t', Learned cd given done.2 t' ∧ t.facts ≤ t'.facts
      ∧ (done.1 = true ↔ done.2.db.att ≠ s.db.att)
      ∧ (done.2.db.att ≠ s.db.att ↔ ∃ a, Useful cd s peer a ∧ Admitted cd s peer a)
      ∧ ∀ a, Useful cd s peer a → Admitted cd s peer a → taken a ≤ t'.facts := by
  -- useful rows are read exactly when they are admitted
  have hread : ∀ a, Useful cd s peer a →
      (a ∈ fetchedOf cd s peer ↔ Admitted cd s peer a) := by
    intro a ha
    obtain ⟨hrow, hnew⟩ := (useful_iff hs hp hcf).mp ha
    refine mem_fetchedOf hp.rep ?_ ?_
    · refine differAt_of_useful hs hp hcf hsep hrow hnew ?_
      rw [Node.covers, leafOf_div, beq_self_eq_true]
    · refine differAt_of_useful hs hp hcf hsep hrow hnew ?_
      rw [Node.covers, leafOf_div, leafOf_mod, beq_self_eq_true, beq_self_eq_true]
      rfl
  by_cases hdiff : s.merkleRoot = peer.merkleRoot
  · have hnone : ∀ a, ¬ Useful cd s peer a := by
      intro a ha
      obtain ⟨hrow, hnew⟩ := (useful_iff hs hp hcf).mp ha
      have hroot : differAt s peer .root = true :=
        differAt_of_useful hs hp hcf hsep hrow hnew rfl
      rw [differAt, decide_eq_true_iff] at hroot
      exact hroot hdiff
    rw [reconcileFacts, if_pos hdiff] at h
    cases h
    refine ⟨t, hs, le_rfl, iff_of_false Bool.false_ne_true (not_not.mpr rfl),
      iff_of_false (not_not.mpr rfl) ?_, fun a ha => absurd ha (hnone a)⟩
    rintro ⟨a, ha, -⟩
    exact hnone a ha
  · obtain ⟨t', ht', hfacts, hcount⟩ := reconcileFacts_spec hs hp hcf hdiff h
    rw [ne_eq, ht'.rep.eq_iff hs.rep] at hcount
    refine ⟨t', ht', hfacts ▸ le_absorb _ _, hcount, ?_, fun a ha hadm => ?_⟩
    · rw [ne_eq, ← ht'.rep.eq_iff hs.rep]
      constructor
      · intro hne
        by_contra hnone
        refine hne (FactTable.ext_facts (hfacts.trans (absorb_of_le fun a ha => ?_)))
        by_contra hnew
        have huse := (useful_iff hs hp hcf).mpr ⟨holdsRow_of_mem_fetchedOf ha, hnew⟩
        exact hnone ⟨a, huse, (hread a huse).mp ha⟩
      · rintro ⟨a, huse, hadm⟩ heq
        have hnew := ((useful_iff hs hp hcf).mp huse).2
        refine absorb_ne_of_mem ((hread a huse).mpr hadm) hnew ?_
        rw [← hfacts, heq]
    · rw [hfacts]
      exact le_absorb_of_mem ((hread a ha).mpr hadm)

end Pass

-- ============================================================== convergence

/-- Would the row still change the table? -/
noncomputable def isMissing (t : FactTable) (a : Attestation) : Bool :=
  @decide (¬ taken a ≤ t.facts) (Classical.propDecidable _)

theorem isMissing_iff {t : FactTable} {a : Attestation} :
    isMissing t a = true ↔ ¬ taken a ≤ t.facts :=
  @decide_eq_true_iff _ (Classical.propDecidable _)

/-- The rows of the peer that still would. -/
noncomputable def missing (peer : Store) (t : FactTable) : List Attestation :=
  peer.rows.filter (isMissing t)

theorem mem_missing {t : FactTable} {a : Attestation} :
    a ∈ missing peer t ↔ peer.holdsRow a ∧ ¬ taken a ≤ t.facts := by
  rw [missing, List.mem_filter, isMissing_iff, Store.mem_rows]

/-- Learning something that was missing leaves less missing. -/
theorem length_missing_lt {t t' : FactTable} (hle : t.facts ≤ t'.facts) {a : Attestation}
    (ha : a ∈ missing peer t) (hlearned : taken a ≤ t'.facts) :
    (missing peer t').length < (missing peer t).length := by
  have hsub : missing peer t' = (missing peer t).filter (isMissing t') := by
    rw [missing, missing, List.filter_filter]
    refine List.filter_congr fun b _ => ?_
    rw [Bool.eq_iff_iff, Bool.and_eq_true, isMissing_iff, isMissing_iff]
    exact ⟨fun h => ⟨h, fun hb => h (hb.trans hle)⟩, fun h => h.1⟩
  rw [hsub, List.length_filter_lt_length_iff_exists]
  refine ⟨a, ha, ?_⟩
  rw [isMissing_iff, not_not]
  exact hlearned

variable {given : List Attestation} {t u : FactTable}

/-- Passes that each have something useful within their budget, as long
as there is something useful, learn all there is. -/
theorem passes_converge (hp : Learned cd given peer u) (hcf : CollisionFree cd given)
    {σ : ℕ → Store} (h₀ : Learned cd given (σ 0) t)
    (hpass : ∀ i, ∃ schedule b,
      reconcileFacts cd cfg peer (σ i) (some peer.merkleRoot) schedule = some (b, σ (i + 1)))
    (hsep : ∀ i, Separated (σ i) peer)
    (hbudget : ∀ i, (∃ a, Useful cd (σ i) peer a) →
      ∃ a, Useful cd (σ i) peer a ∧ Admitted cd (σ i) peer a) :
    ∃ n ≤ peer.rows.length, ∀ a, ¬ Useful cd (σ n) peer a := by
  -- after i passes without coming to an end, i rows less are missing
  have key : ∀ i, (∃ n ≤ i, ∀ a, ¬ Useful cd (σ n) peer a)
      ∨ ∃ ti, Learned cd given (σ i) ti ∧ (missing peer ti).length + i ≤ peer.rows.length := by
    intro i
    induction i with
    | zero =>
        refine Or.inr ⟨t, h₀, ?_⟩
        exact List.length_filter_le _ _
    | succ i ih =>
        rcases ih with ⟨n, hn, hdone⟩ | ⟨ti, hti, hcount⟩
        · exact Or.inl ⟨n, hn.trans (Nat.le_succ i), hdone⟩
        · by_cases hmore : ∃ a, Useful cd (σ i) peer a
          · obtain ⟨a, huse, hadm⟩ := hbudget i hmore
            obtain ⟨schedule, b, hrun⟩ := hpass i
            obtain ⟨t', ht', hle, -, -, hlearn⟩ := pass_changes_iff hti hp hcf (hsep i) hrun
            have hlt := length_missing_lt hle
              (mem_missing.mpr ((useful_iff hti hp hcf).mp huse)) (hlearn a huse hadm)
            exact Or.inr ⟨t', ht', by omega⟩
          · exact Or.inl ⟨i, Nat.le_succ i, not_exists.mp hmore⟩
  rcases key peer.rows.length with hdone | ⟨ti, hti, hcount⟩
  · exact hdone
  · refine ⟨_, le_rfl, fun a ha => ?_⟩
    have hmem := mem_missing.mpr ((useful_iff hti hp hcf).mp ha)
    have := List.length_pos_of_mem hmem
    omega

/-- Idle stores have learned what they hold. -/
theorem Machine.learned_of_idle {m : Machine} (h : (storeSystem cd).Reach m)
    (hidle : m.tasks = ∅) (hin : ∀ a ∈ m.store.rows, a ∈ given) :
    ∃ t, Learned cd given m.store t := by
  obtain ⟨t, hrep, htracks⟩ := Machine.idle_rep h hidle
  refine ⟨t, hrep, htracks, fun pathKey a ha => Stems.of_mem (hin a ?_)⟩
  exact Store.mem_rows.mpr (hrep.holdsRow_iff.mpr ((t.ok _ _ ha).key.symm ▸ ha))

variable (cfg) in
/-- A pass can be carried through; it learns something whenever there is
something to learn, if and only if something to learn is within its
budget; and passes of which that is true come to an end. -/
theorem reconcile_progress {m m' : Machine} (hm : (storeSystem cd).Reach m)
    (hidle : m.tasks = ∅) (hm' : (storeSystem cd).Reach m') (hidle' : m'.tasks = ∅)
    (hcf : CollisionFree cd (m.store.rows ++ m'.store.rows)) :
    (∃ schedule done, reconcileFacts cd cfg m'.store m.store (some m'.store.merkleRoot)
      schedule = some done)
    ∧ (Separated m.store m'.store → ∀ schedule done,
      reconcileFacts cd cfg m'.store m.store (some m'.store.merkleRoot) schedule = some done →
      (((∃ a, Useful cd m.store m'.store a) →
          done.1 = true ∧ done.2.db.att ≠ m.store.db.att)
        ↔ ((∃ a, Useful cd m.store m'.store a) →
          ∃ a, Useful cd m.store m'.store a ∧ Admitted cd m.store m'.store a)))
    ∧ ∀ σ : ℕ → Store, σ 0 = m.store →
      (∀ i, ∃ schedule b, reconcileFacts cd cfg m'.store (σ i) (some m'.store.merkleRoot)
        schedule = some (b, σ (i + 1))) →
      (∀ i, Separated (σ i) m'.store) →
      (∀ i, (∃ a, Useful cd (σ i) m'.store a) →
        ∃ a, Useful cd (σ i) m'.store a ∧ Admitted cd (σ i) m'.store a) →
      ∃ n ≤ m'.store.rows.length, ∀ a, ¬ Useful cd (σ n) m'.store a := by
  obtain ⟨t, hs⟩ := Machine.learned_of_idle hm hidle fun a ha =>
    List.mem_append_left m'.store.rows ha
  obtain ⟨u, hp⟩ := Machine.learned_of_idle hm' hidle' fun a ha =>
    List.mem_append_right m.store.rows ha
  refine ⟨reconcileFacts_finishes hs hp hcf cfg, fun hsep schedule done h => ?_,
    fun σ h₀ hpass hsep hbudget => ?_⟩
  · obtain ⟨-, -, -, hsaid, hchanges, -⟩ := pass_changes_iff hs hp hcf hsep h
    rw [hsaid, and_self]
    exact imp_congr_right fun _ => hchanges
  · have hfirst : Learned cd (m.store.rows ++ m'.store.rows) (σ 0) t := by
      rw [h₀]
      exact hs
    exact passes_converge hp hcf hfirst hpass hsep hbudget

-- --------------------------------------------------------- two fact tables

/-- A codec whose hash is the front of what it hashes. -/
def Codec.leading : Codec where
  encodeAttestation _ := []
  encodeEvent _ := []
  blake3 b i := b.getD i.val 0

/-- Attestations told apart by the front of their hash do not collide. -/
theorem collisionFree_addressed {l : List UInt8}
    (hl : ∀ b ∈ l, (attestationHash Codec.leading (addressed b)).bytes 0 = b) :
    CollisionFree Codec.leading (l.map addressed) := by
  refine collisionFree_unsigned ?_ ?_
  · intro a ha
    obtain ⟨b, -, rfl⟩ := List.mem_map.mp ha
    rfl
  · intro a ha b hb hhash
    obtain ⟨x, hx, rfl⟩ := List.mem_map.mp ha
    obtain ⟨y, hy, rfl⟩ := List.mem_map.mp hb
    rw [← hl x hx, hhash, hl y hy]

/-- The nodes above a hash. -/
def Node.above (h : Digest) : List Node :=
  [.root, .coarse (h.bytes 0).toNat, .leaf (h.bytes 0).toNat (h.bytes 1).toNat]

theorem Node.mem_above {n : Node} {h : Digest} (hn : n.covers h = true) : n ∈ Node.above h := by
  cases n with
  | root => exact List.mem_cons_self
  | coarse block =>
      rw [covers, leafOf_div, beq_iff_eq] at hn
      rw [← hn]
      exact List.mem_cons_of_mem _ List.mem_cons_self
  | leaf block slot =>
      rw [covers, leafOf_div, leafOf_mod, Bool.and_eq_true, beq_iff_eq, beq_iff_eq] at hn
      rw [← hn.1, ← hn.2]
      exact List.mem_cons_of_mem _ (List.mem_cons_of_mem _ (List.mem_singleton_self _))

/-- The hashes a store's tree is made of. -/
def Store.hashes (s : Store) : List Digest := s.db.attPath.entries.map Prod.snd

theorem Store.mem_hashes {s : Store} {h : Digest} :
    h ∈ s.hashes ↔ ∃ pathKey, s.db.attPath.get pathKey = some h := by
  constructor
  · intro hmem
    obtain ⟨e, he, rfl⟩ := List.mem_map.mp hmem
    exact ⟨e.1, OrdMap.mem_entries.mp he⟩
  · rintro ⟨pathKey, hpk⟩
    exact List.mem_map.mpr ⟨(pathKey, h), OrdMap.mem_entries.mpr hpk, rfl⟩

/-- Tables are separated when above each hash that only one of them has
all nodes differ. -/
theorem separated_of_forall (hall : ∀ h ∈ s.hashes ++ peer.hashes,
    (h ∈ s.hashes ∧ h ∈ peer.hashes) ∨ ∀ n ∈ Node.above h, differAt s peer n = true) :
    Separated s peer := by
  intro n hcell h hn
  rw [← Store.mem_hashes, ← Store.mem_hashes]
  by_cases hmem : h ∈ s.hashes ++ peer.hashes
  · rcases hall h hmem with hboth | hdiffer
    · exact iff_of_true hboth.1 hboth.2
    · have hd := hdiffer n (Node.mem_above hn)
      rw [differAt, decide_eq_true_iff] at hd
      exact absurd hcell hd
  · rw [List.mem_append, not_or] at hmem
    exact iff_of_false hmem.1 hmem.2

instance (cd : Codec) (s peer : Store) (a : Attestation) : Decidable (Admitted cd s peer a) := by
  unfold Admitted
  infer_instance

/-- A store that merges these attestations in one call. -/
def mergeAddressed (l : List UInt8) : List Machine.Act :=
  .call 0 (.mergeAttestations (l.map addressed)) :: List.replicate l.length (.read 0)
    ++ [.commit 0, .fold 0]

/-- Node 2 serves what it has. -/
def Config.served : Config := ⟨Origin.ofByte 2, [Origin.ofByte 1]⟩

/-- A node that lacks one of its peer's two rows gets it in one pass, and
has then all of them. -/
theorem reconcile_progress_lacking : ∃ s peer s' : Store, ∃ a,
    Useful Codec.leading s peer a
      ∧ reconcileFacts Codec.leading .served peer s (some peer.merkleRoot) [0] = some (true, s')
      ∧ s'.db.att ≠ s.db.att
      ∧ ∃ n ≤ 2, ∀ a, ¬ Useful Codec.leading (if n = 0 then s else s') peer a := by
  have hrun : ((storeSystem Codec.leading).run {} (mergeAddressed [1])).bind (fun m =>
      ((storeSystem Codec.leading).run {} (mergeAddressed [1, 2])).bind fun m' =>
        (reconcileFacts Codec.leading .served m'.store m.store (some m'.store.merkleRoot)
          [0]).map fun done =>
            decide ((m.tasks = ∅ ∧ m'.tasks = ∅ ∧ m.store.rows = [1].map addressed
              ∧ m'.store.rows = [1, 2].map addressed)
            ∧ ((∀ h ∈ m.store.hashes ++ m'.store.hashes,
                (h ∈ m.store.hashes ∧ h ∈ m'.store.hashes)
                  ∨ ∀ n ∈ Node.above h, differAt m.store m'.store n = true)
              ∧ ∀ h ∈ done.2.hashes ++ m'.store.hashes,
                (h ∈ done.2.hashes ∧ h ∈ m'.store.hashes)
                  ∨ ∀ n ∈ Node.above h, differAt done.2 m'.store n = true)
            ∧ done.2.merkleRoot = m'.store.merkleRoot
            ∧ (mergeAttests Codec.leading m.store [addressed 2]).2.db.att ≠ m.store.db.att
            ∧ Admitted Codec.leading m.store m'.store (addressed 2)
            ∧ ∀ a ∈ [1, 2].map addressed,
              (mergeAttests Codec.leading done.2 [a]).2.db.att = done.2.db.att))
      = some true := by decide +kernel
  obtain ⟨m, hm, hrun⟩ := Option.bind_eq_some_iff.mp hrun
  obtain ⟨m', hm', hrun⟩ := Option.bind_eq_some_iff.mp hrun
  obtain ⟨⟨b, s'⟩, hpass, hrun⟩ := Option.map_eq_some_iff.mp hrun
  obtain ⟨⟨hidle, hidle', hrows, hrows'⟩, ⟨hsep, hsep'⟩, hroot, hnew, hadm, hdone⟩ :=
    of_decide_eq_true hrun
  have hcf : CollisionFree Codec.leading (m.store.rows ++ m'.store.rows) := by
    rw [hrows, hrows', ← List.map_append]
    exact collisionFree_addressed (by decide +kernel)
  have hlack : Useful Codec.leading m.store m'.store (addressed 2) :=
    ⟨Store.mem_rows.mp (by rw [hrows']; simp), hnew⟩
  have hnone : ∀ a, ¬ Useful Codec.leading s' m'.store a := by
    rintro a ⟨hrow, hmoves⟩
    rw [← Store.mem_rows, hrows'] at hrow
    exact hmoves (hdone a hrow)
  obtain ⟨-, hone, hrest⟩ := reconcile_progress .served ((System.Reach.start rfl).run hm) hidle
    ((System.Reach.start rfl).run hm') hidle' hcf
  obtain ⟨hb, hmoved⟩ := (hone (separated_of_forall hsep) [0] _ hpass).mpr
    (fun _ => ⟨_, hlack, hadm⟩) ⟨_, hlack⟩
  have hb : b = true := hb
  subst hb
  refine ⟨m.store, m'.store, s', addressed 2, hlack, hpass, hmoved, ?_⟩
  have hconverge := hrest (fun i => if i = 0 then m.store else s') rfl
  rw [hrows'] at hconverge
  refine hconverge (fun i => ?_) (fun i => ?_) (fun i => ?_)
  · rcases Nat.eq_zero_or_pos i with rfl | hpos
    · exact ⟨[0], true, hpass⟩
    · refine ⟨[], false, ?_⟩
      simp only [if_neg hpos.ne', if_neg (Nat.succ_ne_zero i), reconcileFacts, if_pos hroot]
  · rcases Nat.eq_zero_or_pos i with rfl | hpos
    · exact separated_of_forall hsep
    · simp only [if_neg hpos.ne']
      exact separated_of_forall hsep'
  · rcases Nat.eq_zero_or_pos i with rfl | hpos
    · exact fun _ => ⟨_, hlack, hadm⟩
    · simp only [if_neg hpos.ne']
      exact fun ⟨a, ha⟩ => absurd ha (hnone a)

/-- Thirty-three rows of ours that the peer lacks keep a pass from the
row of the peer that we lack. -/
theorem extra_rows_starve : ¬ ∀ m m' : Machine,
    (storeSystem Codec.leading).Reach m → m.tasks = ∅ →
    (storeSystem Codec.leading).Reach m' → m'.tasks = ∅ →
    CollisionFree Codec.leading (m.store.rows ++ m'.store.rows) →
    Separated m.store m'.store → ∀ schedule done,
    reconcileFacts Codec.leading .served m'.store m.store (some m'.store.merkleRoot) schedule
      = some done →
    (∃ a, Useful Codec.leading m.store m'.store a) →
    done.2.db.att ≠ m.store.db.att := by
  intro hall
  have hrun : ((storeSystem Codec.leading).run {}
        (mergeAddressed ((List.range 33).map UInt8.ofNat))).bind (fun m =>
      ((storeSystem Codec.leading).run {} (mergeAddressed [40])).map fun m' =>
        decide ((m.tasks = ∅ ∧ m'.tasks = ∅
            ∧ m.store.rows = ((List.range 33).map UInt8.ofNat).map addressed
            ∧ m'.store.rows = [40].map addressed)
          ∧ (∀ h ∈ m.store.hashes ++ m'.store.hashes,
              (h ∈ m.store.hashes ∧ h ∈ m'.store.hashes)
                ∨ ∀ n ∈ Node.above h, differAt m.store m'.store n = true)
          ∧ (mergeAttests Codec.leading m.store [addressed 40]).2.db.att ≠ m.store.db.att
          ∧ ∀ a ∈ [40].map addressed, ¬ Admitted Codec.leading m.store m'.store a))
      = some true := by decide +kernel
  obtain ⟨m, hm, hrun⟩ := Option.bind_eq_some_iff.mp hrun
  obtain ⟨m', hm', hrun⟩ := Option.map_eq_some_iff.mp hrun
  obtain ⟨⟨hidle, hidle', hrows, hrows'⟩, hsep, hnew, hnot⟩ := of_decide_eq_true hrun
  have hcf : CollisionFree Codec.leading (m.store.rows ++ m'.store.rows) := by
    rw [hrows, hrows', ← List.map_append]
    exact collisionFree_addressed (by decide +kernel)
  have hreach := (System.Reach.start rfl).run hm
  have hreach' := (System.Reach.start rfl).run hm'
  obtain ⟨t, hs⟩ := Machine.learned_of_idle hreach hidle fun a ha =>
    List.mem_append_left m'.store.rows ha
  obtain ⟨u, hp⟩ := Machine.learned_of_idle hreach' hidle' fun a ha =>
    List.mem_append_right m.store.rows ha
  obtain ⟨schedule, done, hpass⟩ := reconcileFacts_finishes hs hp hcf .served
  obtain ⟨-, -, -, -, hchanges, -⟩ :=
    pass_changes_iff hs hp hcf (separated_of_forall hsep) hpass
  have hlack : Useful Codec.leading m.store m'.store (addressed 40) :=
    ⟨Store.mem_rows.mp (by rw [hrows']; exact List.mem_singleton_self _), hnew⟩
  obtain ⟨a, ⟨hrow, -⟩, hadm⟩ := hchanges.mp (hall m m' hreach hidle hreach' hidle' hcf
    (separated_of_forall hsep) schedule done hpass ⟨_, hlack⟩)
  rw [← Store.mem_rows, hrows'] at hrow
  exact hnot a hrow hadm

end Narshare
