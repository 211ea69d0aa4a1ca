/-
`fetch_subtree` of sync.rs, and the sliding window of fetches that a
reconciliation pass keeps in flight.

# Learning

What a merge of received attestations does is joining their facts:
`Learned` is what a store holds, `taken` what one attestation contributes
once `merge_attests` has looked at it, and `Learned.mergeAttests` the one
lemma about merging that the rest of reconciliation uses.

# The window

A fetch reads its subtree page after page; `readPages` is all it will
read. The fetches of a window take their turns in any order, which a
schedule fixes: an index into the running fetches per turn. Whatever the
schedule, what has been merged and what is still to be read together stay
what the window set out with (`Window.Inv`), so a window that has run dry
has merged exactly the pages of its targets; and every window can run dry
(`Inv.finishes`).
-/
import Mathlib.Data.List.Perm.Basic
import Narshare.Store.Join
import Narshare.Store.Page
import Narshare.Index.Apply

namespace Narshare

variable (cd : Codec) (cfg : Config)

-- ================================================================ constants

/-- `SUBTREE_PAGES_MAX`. -/
def SUBTREE_PAGES_MAX : ℕ := 4096

/-- `RECONCILE_WINDOW`. -/
def RECONCILE_WINDOW : ℕ := 4

-- ================================================================== a fetch

/-- `fetch_subtree` under way: its node, where it resumes, and the turns
its loop has left. -/
structure Fetch where
  node : Bytes
  cursor : Bytes := []
  left : ℕ := SUBTREE_PAGES_MAX

/-- One turn of the loop of `fetch_subtree`: the facts merged, the store,
and the fetch as it goes on, if it does. `peer` answers under `cfg`. -/
def Fetch.turn (peer s : Store) (f : Fetch) : Option (ℕ × Store × Option Fetch) :=
  (respond cd cfg peer ⟨[], f.cursor, [], [], [⟨f.node, false, true⟩]⟩).map fun resp =>
    if resp.attests = [] then (0, s, none)
    else
      let done := mergeAttests cd s resp.attests
      (done.1, done.2, resp.attsNext.bind fun next =>
        if f.left ≤ 1 then none else some { f with cursor := next, left := f.left - 1 })

/-- The fetches of a pass: the targets not yet launched, the fetches
under way, and the facts merged so far. -/
structure Window where
  store : Store
  queue : List Bytes
  running : List Fetch := []
  merged : ℕ := 0

namespace Window

/-- `launch`. -/
def launch (w : Window) : Window :=
  match w.queue with
  | [] => w
  | node :: queue => { w with queue := queue, running := w.running ++ [{ node := node }] }

/-- The window as the pass opens it. -/
def start (s : Store) (targets : List Bytes) : Window :=
  launch^[RECONCILE_WINDOW] { store := s, queue := targets }

/-- The running fetch at `i` takes its turn; when it is done, the next
target is launched. -/
def turn (peer : Store) (w : Window) (i : ℕ) : Option Window :=
  match w.running[i]? with
  | none => none
  | some f =>
      (f.turn cd cfg peer w.store).map fun done =>
        let w := { w with store := done.2.1, merged := w.merged + done.1 }
        match done.2.2 with
        | some f => { w with running := w.running.set i f }
        | none => launch { w with running := w.running.eraseIdx i }

/-- The window run dry under a schedule: whether anything was merged, and
the store. -/
def drain (peer : Store) (w : Window) (schedule : List ℕ) : Option (Bool × Store) :=
  (schedule.foldlM (turn cd cfg peer) w).bind fun w =>
    if w.running = [] then some (decide (0 < w.merged), w.store) else none

end Window

/-- What a fetch of `node` reads in `n` turns from `cursor`. -/
def Db.readPages (db : Db) (node : Bytes) : ℕ → Bytes → List Attestation
  | 0, _ => []
  | n + 1, cursor =>
      let page := db.attestationPage cd node cursor MERKLE_FACTS_CAP
      page.1 ++ page.2.elim [] (readPages db node n)

-- ================================================================= learning

/-- What an attestation contributes to a store that receives it. -/
def taken (a : Attestation) : Facts := if wellFormed a then factAt a else ⊥

/-- The store holds the table `t`, its aggregates are exact, and its rows
are put together from `given`. -/
structure Learned (given : List Attestation) (s : Store) (t : FactTable) : Prop where
  rep : Rep cd s.db t
  tracks : s.agg.Tracks s.db
  stems : ∀ pathKey a, t.rows.get pathKey = some a → Stems given a

variable {cd cfg} {given : List Attestation} {s : Store} {t : FactTable}

/-- Absorbing the well-formed of a list is absorbing what each
contributes. -/
theorem absorb_filter_wellFormed (f : Facts) (attests : List Attestation) :
    absorb factAt f (attests.filter fun a => wellFormed a) = absorb taken f attests := by
  induction attests generalizing f with
  | nil => rfl
  | cons a attests ih =>
      rw [absorb_cons, taken]
      by_cases h : wellFormed a = true
      · rw [List.filter_cons_of_pos h, if_pos h, absorb_cons, ih]
      · rw [List.filter_cons_of_neg h, if_neg h, sup_bot_eq, ih]

/-- The rows of one family fix the table. -/
theorem Rep.eq_iff {db db' : Db} {t t' : FactTable} (h : Rep cd db t) (h' : Rep cd db' t') :
    t = t' ↔ db.att = db'.att := by
  constructor
  · intro heq
    subst heq
    exact (h.sameRows h').1
  · intro hatt
    refine FactTable.ext (OrdMap.ext fun pathKey => Option.ext fun a => ?_)
    have hrow : ∀ {t : FactTable} {db : Db}, Rep cd db t →
        (t.rows.get pathKey = some a ↔ pathKeyOf a = pathKey
          ∧ ∃ k, db.att.get k = some a) := by
      intro t db h
      constructor
      · intro ha
        have hkey := (t.ok _ _ ha).key
        exact ⟨hkey, _, (h.att _ a).mpr ⟨hkey.symm ▸ ha, rfl⟩⟩
      · rintro ⟨rfl, k, hk⟩
        exact ((h.att k a).mp hk).1
    rw [hrow h, hrow h', hatt]

/-- `merge_attestations` counts something exactly when the table
changes. -/
theorem Rep.mergeAttestations_pos {t' : FactTable} (h : Rep cd s.db t)
    {attests : List Attestation} (h' : Rep cd (s.mergeAttestations cd attests).2.db t') :
    0 < (s.mergeAttestations cd attests).1 ↔ t' ≠ t := by
  obtain ⟨hok, hnd⟩ := h.mergeAtts attests
  obtain ⟨t₁, hrep, hrows⟩ := h.write_moves hok hnd
  rw [Store.mergeAttestations] at h' ⊢
  split at h'
  next hpos =>
    rw [if_pos hpos]
    refine iff_of_true hpos ?_
    have ht : t' = t₁ := h'.unique hrep
    obtain ⟨mv, hmv⟩ := List.exists_mem_of_length_pos hpos
    have hget : t₁.rows.get mv.pathKey = some mv.row := by
      rw [hrows]
      refine OrdMap.get_setAll_of_mem (by rw [List.map_map]; exact hnd) ?_
      exact List.mem_map.mpr ⟨mv, hmv, rfl⟩
    intro heq
    have hmoved := (hok mv hmv).moved
    rw [(hok mv hmv).old, ← heq, ht, hget] at hmoved
    exact hmoved rfl
  next hpos =>
    rw [if_neg hpos]
    refine iff_of_false (lt_irrefl 0) ?_
    rw [not_not]
    exact h'.unique h

/-- A merge joins what the attestations contribute, keeps the aggregates
exact, and counts something exactly when the table changes. -/
theorem Learned.mergeAttests (h : Learned cd given s t) (hcf : CollisionFree cd given)
    {attests : List Attestation} (hin : ∀ a ∈ attests, Stems given a) :
    ∃ t', Learned cd given (mergeAttests cd s attests).2 t'
      ∧ t'.facts = absorb taken t.facts attests
      ∧ (0 < (Narshare.mergeAttests cd s attests).1 ↔ t' ≠ t) := by
  have hfacts : (t.absorbAll (attests.filter fun a => wellFormed a)).facts
      = absorb taken t.facts attests := by
    rw [FactTable.facts_absorbAll, absorb_filter_wellFormed]
  have hvalid : ∀ a ∈ attests.filter fun a => wellFormed a, Stems given a := fun a ha =>
    hin a (List.mem_filter.mp ha).1
  refine ⟨t.absorbAll (attests.filter fun a => wellFormed a), ?_, hfacts, ?_⟩
  · have hstems : ∀ pathKey a, (t.absorbAll (attests.filter fun a => wellFormed a)).rows.get
        pathKey = some a → Stems given a := fun _ _ ha =>
      FactTable.stems_absorbAll h.stems hvalid ha
    rw [Narshare.mergeAttests]
    split
    next hnil =>
      rw [hnil] at hstems ⊢
      exact ⟨h.rep, h.tracks, hstems⟩
    next =>
      exact ⟨h.rep.mergeAttestations hcf h.stems hvalid,
        h.rep.tracks_mergeAttestations h.tracks _, hstems⟩
  · rw [Narshare.mergeAttests]
    split
    next hnil =>
      rw [hnil]
      exact iff_of_false (lt_irrefl 0) (not_not.mpr rfl)
    next => exact h.rep.mergeAttestations_pos (h.rep.mergeAttestations hcf h.stems hvalid)

-- =================================================================== a turn

/-- What a fetch reads are rows of the peer under its node. -/
theorem Db.mem_readPages {db : Db} {node : Bytes} {n : ℕ} {cursor : Bytes} {a : Attestation}
    (h : a ∈ db.readPages cd node n cursor) : ∃ k, db.att.get k = some a ∧ node <+: k := by
  induction n generalizing cursor with
  | zero => exact (List.not_mem_nil h).elim
  | succ n ih =>
      rw [Db.readPages] at h
      rcases List.mem_append.mp h with h | h
      · exact (mem_attestationPage cd db node cursor MERKLE_FACTS_CAP).1 a h
      · cases hnext : (db.attestationPage cd node cursor MERKLE_FACTS_CAP).2 with
        | none =>
            rw [hnext] at h
            exact (List.not_mem_nil h).elim
        | some k =>
            rw [hnext] at h
            exact ih h

/-- What a fetch still reads. -/
def Fetch.rest (cd : Codec) (peer : Store) (f : Fetch) : List Attestation :=
  peer.db.readPages cd f.node f.left f.cursor

/-- A peer answers a fetch with a page. -/
theorem respond_fetch (peer : Store) (node cursor : Bytes) :
    respond cd cfg peer ⟨[], cursor, [], [], [⟨node, false, true⟩]⟩
      = some
        { attests := (peer.db.attestationPage cd node cursor MERKLE_FACTS_CAP).1
          attsNext := (peer.db.attestationPage cd node cursor MERKLE_FACTS_CAP).2 } := rfl

variable (cd cfg) in
/-- A turn merges the front of what the fetch still reads. -/
theorem Fetch.turn_spec (peer s : Store) {f : Fetch} (hleft : 0 < f.left) :
    ∃ page next, f.turn cd cfg peer s
        = some ((mergeAttests cd s page).1, (mergeAttests cd s page).2, next)
      ∧ f.rest cd peer = page ++ next.elim [] (Fetch.rest cd peer)
      ∧ ∀ g, next = some g → 0 < g.left ∧ g.left < f.left := by
  obtain ⟨n, hn⟩ := Nat.exists_eq_add_of_lt hleft
  rw [Nat.zero_add] at hn
  rw [Fetch.rest, hn, Db.readPages, Fetch.turn, respond_fetch, Option.map_some]
  obtain ⟨-, hlast⟩ := mem_attestationPage cd peer.db f.node f.cursor MERKLE_FACTS_CAP
  generalize peer.db.attestationPage cd f.node f.cursor MERKLE_FACTS_CAP = page at hlast ⊢
  obtain ⟨attests, next⟩ := page
  simp only at hlast ⊢
  by_cases hnil : attests = []
  · rw [if_pos hnil, hlast hnil]
    refine ⟨attests, none, ?_, rfl, fun g hg => by cases hg⟩
    rw [hnil]
    rfl
  · rw [if_neg hnil]
    refine ⟨attests, _, rfl, ?_, ?_⟩
    · cases next with
      | none => rfl
      | some k =>
          rw [Option.elim_some, Option.bind_some]
          by_cases hzero : f.left ≤ 1
          · rw [if_pos hzero, show n = 0 by omega]
            rfl
          · rw [if_neg hzero, Option.elim_some, Fetch.rest, hn]
            rfl
    · intro g hg
      obtain ⟨k, -, hg⟩ := Option.bind_eq_some_iff.mp hg
      split at hg
      next => cases hg
      next hmore =>
        cases hg
        exact ⟨by simp only; omega, by simp only; omega⟩

-- ================================================================= a window

namespace Window

variable {peer : Store} {t₀ : FactTable} {all : List Attestation} {w w' : Window}

/-- What a window still reads. -/
def rest (cd : Codec) (peer : Store) (w : Window) : List Attestation :=
  w.running.flatMap (Fetch.rest cd peer)
    ++ w.queue.flatMap fun node => peer.db.readPages cd node SUBTREE_PAGES_MAX []

/-- The turns a window has left. -/
def todo (w : Window) : ℕ :=
  (w.running.map Fetch.left).sum + w.queue.length * SUBTREE_PAGES_MAX

/-- What has been merged and what is still to be read make up what the
window set out with. -/
structure Holds (cd : Codec) (given : List Attestation) (peer : Store) (t₀ : FactTable)
    (all : List Attestation) (w : Window) : Prop where
  table : ∃ t, Learned cd given w.store t
    ∧ absorb taken t.facts (w.rest cd peer) = absorb taken t₀.facts all
    ∧ t₀.facts ≤ t.facts ∧ (0 < w.merged ↔ t ≠ t₀)
  left : ∀ f ∈ w.running, 0 < f.left

/-- Between turns, moreover, a window with nothing running has nothing
queued. -/
structure Inv (cd : Codec) (given : List Attestation) (peer : Store) (t₀ : FactTable)
    (all : List Attestation) (w : Window) : Prop
    extends Holds cd given peer t₀ all w where
  dry : w.running = [] → w.queue = []

variable (cd peer) in
/-- Launching moves a target over. -/
theorem launch_spec (w : Window) :
    (w.launch).store = w.store ∧ (w.launch).merged = w.merged
      ∧ (∀ a, a ∈ w.launch.rest cd peer ↔ a ∈ w.rest cd peer)
      ∧ w.launch.todo = w.todo
      ∧ (w.launch.running = [] → w.launch.queue = [])
      ∧ ∀ f ∈ w.launch.running, f ∈ w.running ∨ f.left = SUBTREE_PAGES_MAX := by
  obtain ⟨store, queue, running, merged⟩ := w
  cases queue with
  | nil => exact ⟨rfl, rfl, fun _ => Iff.rfl, rfl, fun _ => rfl, fun _ hf => Or.inl hf⟩
  | cons node queue =>
      refine ⟨rfl, rfl, fun a => ?_, ?_, fun hnil => ?_, fun f hf => ?_⟩
      · simp only [launch, rest, List.flatMap_append, List.flatMap_cons, List.flatMap_nil,
          List.append_nil, List.append_assoc]
        exact Iff.rfl
      · simp only [launch, todo, List.map_append, List.sum_append, List.map_cons, List.map_nil,
          List.sum_cons, List.sum_nil, List.length_cons, Nat.add_zero, Nat.succ_mul]
        omega
      · exact absurd hnil (List.append_ne_nil_of_right_ne_nil _ (List.cons_ne_nil _ _))
      · rcases List.mem_append.mp hf with hf | hf
        · exact Or.inl hf
        · exact Or.inr (congrArg Fetch.left (List.mem_singleton.mp hf))

theorem Holds.launch (h : Holds cd given peer t₀ all w) :
    Inv cd given peer t₀ all w.launch := by
  obtain ⟨hstore, hmerged, hrest, -, hdry, hrunning⟩ := launch_spec cd peer w
  obtain ⟨t, hlearned, hall, hle, hcount⟩ := h.table
  refine ⟨⟨⟨t, hstore ▸ hlearned, ?_, hle, hmerged ▸ hcount⟩, fun f hf => ?_⟩, hdry⟩
  · rw [← hall]
    exact absorb_congr hrest
  · rcases hrunning f hf with hf | hf
    · exact h.left f hf
    · rw [hf]
      decide

/-- A window opens with its targets ahead of it. -/
theorem inv_start (h : Learned cd given s t) {targets : List Bytes} :
    Inv cd given peer t
      (targets.flatMap fun node => peer.db.readPages cd node SUBTREE_PAGES_MAX [])
      (start s targets) := by
  have hopen : Holds cd given peer t
      (targets.flatMap fun node => peer.db.readPages cd node SUBTREE_PAGES_MAX [])
      { store := s, queue := targets } := by
    refine ⟨⟨t, h, rfl, le_rfl, ?_⟩, fun _ hf => (List.not_mem_nil hf).elim⟩
    exact iff_of_false (lt_irrefl 0) (not_not.mpr rfl)
  have key : ∀ n, Inv cd given peer t
      (targets.flatMap fun node => peer.db.readPages cd node SUBTREE_PAGES_MAX [])
      (launch^[n + 1] { store := s, queue := targets }) := by
    intro n
    induction n with
    | zero => exact hopen.launch
    | succ n ih =>
        rw [Function.iterate_succ_apply']
        exact ih.toHolds.launch
  exact key 3

variable (cfg) in
/-- One turn keeps what the window holds, and there is one turn less to
take. -/
theorem Inv.turn (h : Inv cd given peer t₀ all w) (hcf : CollisionFree cd given)
    (hpeer : ∀ a, peer.holdsRow a → Stems given a) {i : ℕ} (hi : i < w.running.length) :
    ∃ w', w.turn cd cfg peer i = some w' ∧ Inv cd given peer t₀ all w' ∧ w'.todo < w.todo := by
  obtain ⟨t, hlearned, hall, hle, hcount⟩ := h.table
  obtain ⟨f, hf⟩ : ∃ f, w.running[i]? = some f := ⟨_, List.getElem?_eq_getElem hi⟩
  have hmem : f ∈ w.running := List.mem_of_getElem? hf
  obtain ⟨page, next, hturn, hrest, hnext⟩ :=
    Fetch.turn_spec cd cfg peer w.store (h.left f hmem)
  have hpage : ∀ a ∈ page, Stems given a := by
    intro a ha
    obtain ⟨k, hk, -⟩ := Db.mem_readPages (hrest ▸ List.mem_append_left _ ha)
    exact hpeer a ⟨k, hk⟩
  obtain ⟨t', hlearned', hfacts, hmoved⟩ := hlearned.mergeAttests hcf hpage
  -- the fetch whose turn it is, and the others
  have hsplit : (f :: w.running.eraseIdx i).Perm w.running := by
    have := List.getElem_cons_eraseIdx_perm hi
    rwa [show w.running[i] = f from Option.some.inj ((List.getElem?_eq_getElem hi) ▸ hf)] at this
  have hcount' : 0 < w.merged + (mergeAttests cd w.store page).1 ↔ t' ≠ t₀ := by
    have hge : t.facts ≤ t'.facts := hfacts ▸ le_absorb t.facts page
    by_cases hsame : t = t₀
    · rw [Nat.add_pos_iff_pos_or_pos, hcount, hmoved, hsame]
      exact or_iff_right (not_not.mpr rfl)
    · refine iff_of_true (Nat.add_pos_left (hcount.mpr hsame) _) fun heq => hsame ?_
      exact FactTable.ext_facts (le_antisymm (heq ▸ hge) hle)
  have hle' : t₀.facts ≤ t'.facts := hle.trans (hfacts ▸ le_absorb t.facts page)
  -- what is left to read once the page is merged
  have hrest' : ∀ l : List Attestation, (∀ a, a ∈ w.rest cd peer ↔ a ∈ page ∨ a ∈ l) →
      absorb taken t'.facts l = absorb taken t₀.facts all := by
    intro l hl
    rw [hfacts, ← absorb_append, ← hall]
    exact absorb_congr fun a => (List.mem_append.trans (hl a).symm)
  have hread : ∀ a, a ∈ w.rest cd peer ↔ a ∈ f.rest cd peer
      ∨ a ∈ (w.running.eraseIdx i).flatMap (Fetch.rest cd peer)
      ∨ a ∈ w.queue.flatMap fun node => peer.db.readPages cd node SUBTREE_PAGES_MAX [] := by
    intro a
    rw [rest, List.mem_append, ← (hsplit.flatMap_right _).mem_iff, List.flatMap_cons,
      List.mem_append, or_assoc]
  have htodo : w.todo = f.left + ((w.running.eraseIdx i).map Fetch.left).sum
      + w.queue.length * SUBTREE_PAGES_MAX := by
    rw [todo, ← (hsplit.map Fetch.left).sum_eq]
    rfl
  rw [Window.turn, hf]
  simp only [hturn, Option.map_some]
  cases next with
  | none =>
      refine ⟨_, rfl, Holds.launch ⟨⟨t', hlearned', hrest' _ fun a => ?_, hle', hcount'⟩, ?_⟩, ?_⟩
      · rw [hread, hrest, List.mem_append, rest, List.mem_append]
        simp
      · exact fun g hg => h.left g (List.mem_of_mem_eraseIdx hg)
      · rw [(launch_spec cd peer _).2.2.2.1, htodo]
        simp only [todo]
        have := h.left f hmem
        omega
  | some g =>
      obtain ⟨hpos, hlt⟩ := hnext g rfl
      have hset : (w.running.set i g).Perm (g :: w.running.eraseIdx i) :=
        List.set_perm_cons_eraseIdx hi g
      refine ⟨_, rfl, ⟨⟨⟨t', hlearned', hrest' _ fun a => ?_, hle', hcount'⟩, ?_⟩, ?_⟩, ?_⟩
      · rw [hread, hrest, List.mem_append, Option.elim_some, rest, List.mem_append]
        simp only
        rw [(hset.flatMap_right _).mem_iff, List.flatMap_cons, List.mem_append, or_assoc, or_assoc]
      · intro g' hg'
        rcases List.mem_or_eq_of_mem_set hg' with hg' | rfl
        · exact h.left g' hg'
        · exact hpos
      · intro hnil
        have hlen : (w.running.set i g).length = 0 := congrArg List.length hnil
        rw [List.length_set] at hlen
        omega
      · rw [htodo]
        simp only [todo]
        rw [(hset.map Fetch.left).sum_eq, List.map_cons, List.sum_cons]
        omega

/-- Under any schedule, a window that has run dry has merged what it set
out to read. -/
theorem Inv.drain (h : Inv cd given peer t₀ all w) (hcf : CollisionFree cd given)
    (hpeer : ∀ a, peer.holdsRow a → Stems given a) {schedule : List ℕ} {done : Bool × Store}
    (hdrain : w.drain cd cfg peer schedule = some done) :
    ∃ t, Learned cd given done.2 t ∧ t.facts = absorb taken t₀.facts all
      ∧ (done.1 = true ↔ t ≠ t₀) := by
  obtain ⟨w', hrun, hdone⟩ := Option.bind_eq_some_iff.mp hdrain
  have hinv : Inv cd given peer t₀ all w' := by
    clear hdrain hdone
    induction schedule generalizing w with
    | nil =>
        cases hrun
        exact h
    | cons i schedule ih =>
        obtain ⟨w₁, hw₁, hrun⟩ := Option.bind_eq_some_iff.mp hrun
        have hi : i < w.running.length := by
          by_contra hge
          rw [Window.turn, List.getElem?_eq_none (not_lt.mp hge)] at hw₁
          cases hw₁
        obtain ⟨w₂, hw₂, hinv, -⟩ := h.turn cfg hcf hpeer hi
        rw [hw₂] at hw₁
        cases hw₁
        exact ih hinv hrun
  split at hdone
  next hnil =>
    cases hdone
    obtain ⟨t, hlearned, hall, -, hcount⟩ := hinv.table
    refine ⟨t, hlearned, ?_, by rw [decide_eq_true_iff]; exact hcount⟩
    rw [← hall, rest, hnil, hinv.dry hnil]
    rfl
  next => cases hdone

variable (cfg) in
/-- Every window can run dry. -/
theorem Inv.finishes (h : Inv cd given peer t₀ all w) (hcf : CollisionFree cd given)
    (hpeer : ∀ a, peer.holdsRow a → Stems given a) :
    ∃ schedule done, w.drain cd cfg peer schedule = some done := by
  obtain ⟨n, hn⟩ : ∃ n, w.todo < n := ⟨_, Nat.lt_succ_self _⟩
  induction n generalizing w with
  | zero => exact absurd hn (Nat.not_lt_zero _)
  | succ n ih =>
      cases hr : w.running with
      | nil =>
          refine ⟨[], (decide (0 < w.merged), w.store), ?_⟩
          rw [Window.drain, List.foldlM_nil, Option.pure_def, Option.bind_some, if_pos hr]
      | cons f running =>
          have hi : 0 < w.running.length := by
            rw [hr]
            exact Nat.succ_pos _
          obtain ⟨w', hw', hinv, hlt⟩ := h.turn cfg hcf hpeer hi
          obtain ⟨schedule, done, hdone⟩ := ih hinv (by omega)
          refine ⟨0 :: schedule, done, ?_⟩
          rw [Window.drain, List.foldlM_cons, hw']
          exact hdone

end Window

end Narshare
