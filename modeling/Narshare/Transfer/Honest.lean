/-
A transfer from peers that have the NAR: what is sent is the NAR. That
the transfer can always be completed is Complete.lean.

# Runs with honest chunks

`Honest` is a condition on a step: a chunk that arrives is what a peer
with the tree answers. All the rest is as bad as before. Peers are slow,
fail and are raced against each other, chunks come in any order, the
client hangs up and the loop gives up.

# What is sent

`Faithful` is the invariant: whatever is buffered, retained or sent is
what the NAR has there. It needs the plan to tell the truth and the
account of Account.lean, by which a flight lies within the plan's ranges
and so within the NAR. No run then ends in a mismatch of the hash.
-/
import Narshare.Nar.Request
import Narshare.Transfer.Contents
import Narshare.Transfer.Tells

namespace Narshare

-- ================================================================= one turn

namespace Emitter

variable {sha256 : Bytes → NarHash} {em em' em₀ : Emitter} {c c' : Client} {bs : List Bytes}
  {next : Bool} {nar : Bytes} {content : ℕ → Bytes}

/-- What is buffered or retained is what the NAR has, and the plan tells
the truth. -/
structure Agrees (nar : Bytes) (content : ℕ → Bytes) (em : Emitter) : Prop where
  spans : ∀ s ∈ em.spans, s.2.Tells nar em.lits content s.1
  buffered : ∀ x v, em.buffered.byteAt x = some v → nar[x]? = some v
  held : ∀ u b uses, em.held.get u = some (b, uses) → b = content u

theorem takeSpanMut_of_takeSpan {buf buf' : Buffer} {off end_ : ℕ} {out : List Bytes}
    (h : buf.takeSpan off end_ = some (out, buf')) :
    buf.takeSpanMut off end_ = (some out, buf') := by
  rw [Buffer.takeSpan_eq, Option.map_eq_some_iff] at h
  obtain ⟨out', hout, heq⟩ := h
  cases heq
  exact Prod.ext hout rfl

theorem takePrefixMut_of_takePrefix {buf buf' : Buffer} {pos max : ℕ} {b : Bytes}
    (h : buf.takePrefix pos max = some (b, buf')) :
    buf.takePrefixMut pos max = (some b, buf') := by
  rw [Buffer.takePrefix_eq, Option.map_eq_some_iff] at h
  obtain ⟨b', hb, heq⟩ := h
  cases heq
  exact Prod.ext hb rfl

/-- What a turn has to emit is what the NAR has next. -/
theorem Prep.agrees (hp : em.Prep bs em₀ next) (hplaced : em.Placed) (h : em.Agrees nar content) :
    bs.flatten = slice nar em.emitPos (em.emitPos + bs.flatten.length)
      ∧ em₀.Agrees nar content := by
  -- what is read off the buffer, place by place
  have hread : ∀ {l : Bytes} {off : ℕ},
      (∀ i v, l[i]? = some v → em.buffered.byteAt (off + i) = some v) →
      l = slice nar off (off + l.length) := fun hl =>
    eq_slice_of_getElem? fun i v hi => h.buffered _ _ (hl i v hi)
  cases hp with
  | lit hspan hin =>
      rename_i off litOff len
      obtain ⟨hpos, -⟩ := hplaced.current hspan
      rw [hplaced.unemitted hspan nofun, Nat.add_zero] at hpos
      have htells : slice nar off (off + len) = slice em.lits litOff (litOff + len) :=
        h.spans _ (List.mem_of_getElem? hspan)
      have hlen : (slice em.lits litOff (litOff + len)).length = len := by
        rw [length_slice]
        omega
      refine ⟨?_, h⟩
      rw [List.flatten_singleton, hlen, hpos, htells]
  | replay hspan hget hlen =>
      rename_i off unique len bytes uses
      obtain ⟨hpos, -⟩ := hplaced.current hspan
      rw [hplaced.unemitted hspan nofun, Nat.add_zero] at hpos
      have htells : slice nar off (off + len) = content unique :=
        h.spans _ (List.mem_of_getElem? hspan)
      refine ⟨?_, h.spans, h.buffered, fun u b n hb => ?_⟩
      · rw [List.flatten_singleton, hlen, hpos, htells]
        exact h.held _ _ _ hget
      · rw [OrdMap.get_set] at hb
        split at hb
        next hu =>
          split at hb
          next => cases hb
          next =>
            cases hb
            rw [hu]
            exact h.held _ _ _ hget
        next => exact h.held u b n hb
  | stream hspan hlt htake =>
      rename_i off len b buffered
      have htaken := Buffer.prefixTaken hplaced.buffer em.emitPos (Nat.sub_pos_of_lt hlt)
      rw [takePrefixMut_of_takePrefix htake] at htaken
      obtain ⟨-, -, hbytes, hrest⟩ := htaken.bytes b rfl
      refine ⟨?_, h.spans, fun x v hx => ?_, h.held⟩
      · rw [List.flatten_singleton]
        refine hread fun i v hi => ?_
        rw [← hbytes i (List.getElem?_eq_some_iff.mp hi).1]
        exact hi
      · simp only at hrest
        rw [hrest] at hx
        split at hx
        next => cases hx
        next => exact h.buffered x v hx
  | retain hspan htake =>
      rename_i off len unique retainFor buffered
      obtain ⟨hpos, -⟩ := hplaced.current hspan
      rw [hplaced.unemitted hspan nofun, Nat.add_zero] at hpos
      have htaken := Buffer.spanTaken hplaced.buffer off (off + len)
      rw [takeSpanMut_of_takeSpan htake] at htaken
      obtain ⟨hlen, hbytes⟩ := htaken.bytes bs rfl
      rw [Nat.add_sub_cancel_left] at hlen hbytes
      have hflat : bs.flatten = slice nar off (off + bs.flatten.length) := by
        refine hread fun i v hi => ?_
        rw [← hbytes i (hlen ▸ (List.getElem?_eq_some_iff.mp hi).1)]
        exact hi
      have htells : slice nar off (off + len) = content unique :=
        h.spans _ (List.mem_of_getElem? hspan) (unique, retainFor) rfl
      refine ⟨hpos ▸ hflat, h.spans, fun x v hx => ?_, fun u b n hb => ?_⟩
      · have hrest := htaken.rest rfl x
        simp only at hrest
        rw [hrest] at hx
        split at hx
        next => cases hx
        next => exact h.buffered x v hx
      · rw [OrdMap.get_put] at hb
        split at hb
        next hu =>
          cases hb
          rw [hu, hflat, hlen, htells]
        next => exact h.held u b n hb

/-- However emitting ends, what is sent of the pieces is a part they begin
with. -/
theorem emitAll_isPrefix {e : Option EmitEnd} (h : em.emitAll sha256 c bs = (e, em', c')) :
    ∃ pre, pre <+: bs.flatten ∧ c'.sent = c.sent ++ pre := by
  induction bs generalizing em c with
  | nil =>
      cases h
      exact ⟨[], List.nil_prefix, (List.append_nil _).symm⟩
  | cons b bs ih =>
      rw [emitAll] at h
      split at h
      next em₁ c₁ hem =>
        rcases emit_cases hem with ⟨he, -⟩ | ⟨-, -, ⟨-, hsend⟩ | ⟨he, -⟩⟩
        · cases he
        · obtain ⟨pre, hpre, hsent⟩ := ih h
          refine ⟨b ++ pre, ?_, ?_⟩
          · rw [List.flatten_cons]
            exact (List.prefix_append_right_inj b).mpr hpre
          · rw [hsent, Client.send_sent hsend, List.append_assoc]
        · cases he
      next e₁ em₁ c₁ hem =>
        cases h
        refine ⟨[], List.nil_prefix, ?_⟩
        rw [List.append_nil]
        rcases emit_cases hem with ⟨-, -, rfl⟩ | ⟨-, -, ⟨he, -⟩ | ⟨-, rfl⟩⟩
        · rfl
        · cases he
        · rfl

/-- A mismatch is found at the end of a full transfer, of all that was
hashed. -/
theorem emitAll_mismatch (h : em.emitAll sha256 c bs = (some .hashMismatch, em', c')) :
    em.full = true ∧ ∃ pre, pre <+: bs.flatten ∧ em.emitPos + pre.length = em.end_
      ∧ sha256 (em.hasher ++ pre) ≠ em.narHash := by
  induction bs generalizing em c with
  | nil => cases h
  | cons b bs ih =>
      rw [emitAll] at h
      split at h
      next em₁ c₁ hem =>
        rcases emit_cases hem with ⟨he, -⟩ | ⟨rfl, -, -⟩
        · cases he
        · obtain ⟨hfull, pre, hpre, hend, hne⟩ := ih h
          have hfull : em.full = true := hfull
          refine ⟨hfull, b ++ pre, ?_, ?_, ?_⟩
          · rw [List.flatten_cons]
            exact (List.prefix_append_right_inj b).mpr hpre
          · rw [List.length_append, ← Nat.add_assoc]
            exact hend
          · rw [← List.append_assoc]
            simp only [hashed, if_pos hfull] at hne
            exact hne
      next e₁ em₁ c₁ hem =>
        cases h
        rw [emit] at hem
        split at hem
        next hbad =>
          obtain ⟨hlast, hne⟩ := hbad
          rw [last, Bool.and_eq_true, decide_eq_true_eq] at hlast
          rw [hashed, if_pos hlast.1] at hne
          exact ⟨hlast.1, b, List.flatten_cons ▸ List.prefix_append _ _, hlast.2, hne⟩
        next =>
          simp only at hem
          split at hem
          next => cases hem
          next => cases hem

/-- A turn that goes on has sent what the NAR has. -/
theorem Turned.agrees (ht : Turned sha256 em c none em' c') (hplaced : em.Placed)
    (h : em.Agrees nar content) {start : ℕ} (hstart : start ≤ em.emitPos)
    (hsent : c.sent = slice nar start em.emitPos) :
    em'.Agrees nar content ∧ start ≤ em'.emitPos ∧ c'.sent = slice nar start em'.emitPos := by
  cases ht with
  | passed => exact ⟨⟨h.spans, h.buffered, h.held⟩, hstart, hsent⟩
  | emitted hp hem =>
      rename_i bs em₀ next em₁
      obtain ⟨hflat, hagrees⟩ := hp.agrees hplaced h
      have hsame := (hp.spec hplaced).same
      have hpos : em₀.emitPos = em.emitPos := by rw [hsame]
      obtain ⟨hmore, v, rfl⟩ := emitAll_ok hem
      have hall : c'.sent = slice nar start (em₀.emitPos + bs.flatten.length) := by
        rw [hmore, hsent, hpos, ← slice_append_slice nar hstart (Nat.le_add_right _ _), ← hflat]
      have hle : start ≤ em₀.emitPos + bs.flatten.length := by omega
      cases next with
      | true => exact ⟨⟨hagrees.spans, hagrees.buffered, hagrees.held⟩, hle, hall⟩
      | false => exact ⟨⟨hagrees.spans, hagrees.buffered, hagrees.held⟩, hle, hall⟩

/-- And one that does not, a part of it. -/
theorem Turned.sent_isPrefix {r : Option (Except EmitEnd Pump)} (ht : Turned sha256 em c r em' c')
    (hplaced : em.Placed) (h : em.Agrees nar content) {start : ℕ} (hstart : start ≤ em.emitPos)
    (hsent : c.sent = slice nar start em.emitPos) : c'.sent <+: slice nar start em.end_ := by
  obtain ⟨a, hrest, hpos⟩ := hplaced.rest
  have hprep : ∀ {bs em₀ next e em₁ c₁}, em.Prep bs em₀ next →
      em₀.emitAll sha256 c bs = (e, em₁, c₁) → c₁.sent <+: slice nar start em.end_ := by
    intro bs em₀ next e em₁ c₁ hp hem
    obtain ⟨hflat, -⟩ := hp.agrees hplaced h
    have hle := (hp.spec hplaced).le_end hplaced
    obtain ⟨pre, hpre, hmore⟩ := emitAll_isPrefix hem
    rw [hflat] at hpre
    refine List.IsPrefix.trans ?_ (slice_isPrefix nar hle)
    rw [hmore, hsent, ← slice_append_slice nar hstart (Nat.le_add_right _ _)]
    exact (List.prefix_append_right_inj _).mpr hpre
  have hstays : c.sent <+: slice nar start em.end_ := by
    rw [hsent]
    refine slice_isPrefix nar ?_
    have hend := hrest.le
    rcases hplaced.inner with hzero | ⟨off, len, hspan, hle⟩
    · omega
    · obtain ⟨hpos', hrest'⟩ := hplaced.current hspan
      have := hrest'.le
      rw [SpanExec.len] at this
      omega
  cases ht with
  | finished => exact hstays
  | needData => exact hstays
  | broken => exact hstays
  | passed => exact hstays
  | emitted hp hem => exact hprep hp hem
  | dead hp hem => exact hprep hp hem

/-- The NAR's own hash does not fail. -/
theorem Turned.no_mismatch {e : EmitEnd} (ht : Turned sha256 em c (some (.error e)) em' c')
    (hplaced : em.Placed) (h : em.Agrees nar content) (hgated : em.Gated sha256 c)
    (hhash : sha256 nar = em.narHash) (hfull : em.full = true → em.end_ = nar.length)
    (hsent : em.full = true → c.sent = slice nar 0 em.emitPos) : e = .clientGone := by
  cases ht with
  | dead hp hem =>
      rename_i bs em₀ next
      cases e with
      | clientGone => rfl
      | hashMismatch =>
          have hsame := (hp.spec hplaced).same
          obtain ⟨hflat, -⟩ := hp.agrees hplaced h
          obtain ⟨hall, pre, hpre, hend, hne⟩ := emitAll_mismatch hem
          rw [hsame] at hall hend hne
          simp only at hall hend hne
          have hwhole : em.hasher ++ pre = nar := by
            obtain ⟨post, hpost⟩ := hpre
            rw [hflat] at hpost
            have htake : pre = slice nar em.emitPos (em.emitPos + pre.length) := by
              refine eq_slice_of_getElem? fun i v hi => ?_
              have hget : (pre ++ post)[i]? = some v := by
                rw [List.getElem?_append_left (List.getElem?_eq_some_iff.mp hi).1, hi]
              rw [hpost, slice, List.getElem?_drop, List.getElem?_take] at hget
              split at hget
              next => exact hget
              next => cases hget
            rw [(hgated hall).1, hsent hall, htake,
              slice_append_slice nar (Nat.zero_le _) (Nat.le_add_right _ _), hend, hfull hall]
            exact slice_zero nar le_rfl
          exact absurd (hwhole ▸ hhash) hne

end Emitter

-- ============================================================== what is buffered

namespace Buffer

variable {buf : Buffer} {nar : Bytes}

/-- What is read is in an entry. -/
theorem exists_of_byteAt {x : ℕ} {v : UInt8} (h : buf.byteAt x = some v) :
    ∃ k b, buf.get k = some b ∧ k ≤ x ∧ b[x - k]? = some v := by
  obtain ⟨e, hfloor, hv⟩ := Option.bind_eq_some_iff.mp h
  obtain ⟨hget, hle, -⟩ := OrdMap.floor_spec hfloor
  exact ⟨e.1, e.2, hget, hle, hv⟩

/-- A chunk of the NAR is put among what is of the NAR. -/
theorem byteAt_put (hok : buf.Ok) {k : ℕ} {b : Bytes} (hb : b = slice nar k (k + b.length))
    (hold : ∀ x v, buf.byteAt x = some v → nar[x]? = some v) (x : ℕ) (v : UInt8)
    (h : Buffer.byteAt (buf.put k b) x = some v) : nar[x]? = some v := by
  obtain ⟨k', b', hget, hle, hv⟩ := exists_of_byteAt h
  rw [OrdMap.get_put] at hget
  split at hget
  next hk =>
    cases hget
    subst hk
    rw [hb, slice, List.getElem?_drop, List.getElem?_take] at hv
    split at hv
    next => rwa [Nat.add_sub_cancel' hle] at hv
    next => cases hv
  next =>
    have hlt := (List.getElem?_eq_some_iff.mp hv).1
    refine hold x v ?_
    rw [hok.byteAt_eq hget hle (by omega), hv]

theorem byteAt_prune (hok : buf.Ok) {pos x : ℕ} {v : UInt8}
    (h : (buf.prune pos).byteAt x = some v) : buf.byteAt x = some v := by
  obtain ⟨k, b, hget, hle, hv⟩ := exists_of_byteAt h
  have hold : buf.get k = some b :=
    OrdMap.mem_entries.mp ((List.dropWhile_sublist _).subset (OrdMap.mem_entries.mpr hget))
  have hlt := (List.getElem?_eq_some_iff.mp hv).1
  rw [hok.byteAt_eq hold hle (by omega), hv]

end Buffer

namespace Transfer

variable {cd : Codec} {sha256 : Bytes → NarHash} {window : ℕ} {p : Plan} {info : RemoteNarinfo}
  {start end_ : ℕ} {root : FileTree} {nar : Bytes} {content : ℕ → Bytes} {t t' : Transfer}
  {w : Attempt} {k : Tick}

-- ============================================================ the conditioned runs

/-- A chunk that arrives is what a peer with the tree answers. -/
def Honest (root : FileTree) (t : Transfer) (k : Tick) : Prop :=
  ∀ id b, k = .done id (some b) → ∀ w ∈ t.air, w.id = id → Answers root w.off w.len b

/-- Is the chunk that arrives what the NAR has there? -/
def exactChunk (nar : Bytes) (t : Transfer) : Tick → Bool
  | .done id (some b) => t.air.all fun w => decide (w.id = id →
      0 < w.len ∧ w.off + w.len ≤ nar.length ∧ b = slice nar w.off (w.off + w.len))
  | _ => true

/-- Then a peer answers it. -/
theorem honest_of_exactChunk (hroot : root.Distinct) (hsize : (narOf root).length < 2 ^ 64)
    (h : exactChunk (narOf root) t k = true) : Honest root t k := by
  rintro id b rfl w hw hid
  obtain ⟨hpos, hle, hb⟩ := of_decide_eq_true (List.all_eq_true.mp h w hw) hid
  exact (answers_iff hroot hsize hpos hle).mpr hb

/-- An attempt asks for a range of the plan's. -/
theorem Accounted.inside (h : t.Accounted p) (hw : w ∈ t.air) :
    0 < w.len ∧ InRange p.ranges (w.off + w.len - 1) := by
  obtain ⟨fl, hget, hlen⟩ := h.crewed.aboard w hw
  obtain ⟨hpos, hdelivered⟩ := h.tallied.flights hget
  refine ⟨hlen ▸ hpos, ?_⟩
  have htotal := h.tallied.total (w.off + w.len - 1)
  have hhits : hits (w.off, fl.len) (w.off + w.len - 1) = 1 :=
    hits_eq_one.mpr ⟨by simp only; omega, by simp only; omega⟩
  rw [← cover_pos]
  cases hd : fl.delivered with
  | true =>
      have := hits_le_cover (hdelivered hd) (w.off + w.len - 1)
      omega
  | false =>
      have hmem : (w.off, fl.len) ∈ t.aloft := mem_aloft.mpr ⟨fl, hget, hd, rfl⟩
      have := hits_le_cover hmem (w.off + w.len - 1)
      omega

-- ================================================================ the invariant

/-- Whatever is buffered, retained or sent is what the NAR has there. -/
structure Faithful (nar : Bytes) (content : ℕ → Bytes) (start : ℕ) (t : Transfer) : Prop where
  agrees : t.Running → t.em.Agrees nar content
  emitted : t.Running → start ≤ t.em.emitPos ∧ t.client.sent = slice nar start t.em.emitPos
  sent : t.client.sent <+: slice nar start t.em.end_
  matched : t.stage ≠ .aborted (.emit .hashMismatch)
  finished : t.stage = .completed → t.em.spans[t.em.spanI]? = none

/-- Steps that neither emit nor land. -/
theorem Faithful.congr (h : t.Faithful nar content start) (hrun : t.Running)
    (hem : t'.em = t.em) (hclient : t'.client = t.client)
    (hstage : t'.stage = .waiting ∨ ∃ why, t'.stage = .aborted why ∧ why ≠ .emit .hashMismatch) :
    t'.Faithful nar content start := by
  refine ⟨fun _ => hem ▸ h.agrees hrun, fun _ => ?_, ?_, ?_, ?_⟩
  · rw [hem, hclient]
    exact h.emitted hrun
  · rw [hem, hclient]
    exact h.sent
  · rcases hstage with hs | ⟨why, hs, hne⟩
    · rw [hs]
      exact fun h => by cases h
    · rw [hs]
      exact fun heq => hne (Stage.aborted.inj heq)
  · rcases hstage with hs | ⟨why, hs, -⟩
    · rw [hs]
      exact fun h => by cases h
    · rw [hs]
      exact fun h => by cases h

/-- No step emits or buffers anything else. -/
theorem Stepped.faithful (hs : Stepped sha256 window t k t') (h : t.Faithful nar content start)
    (hfed : t.Fed) (hgated : t.em.Gated sha256 t.client) (hhash : sha256 nar = t.em.narHash)
    (hfull : t.em.full = true → start = 0 ∧ t.em.end_ = nar.length)
    (hchunk : ∀ id b, k = .done id (some b) → ∀ w ∈ t.air, w.id = id →
      b = slice nar w.off (w.off + w.len)) : t'.Faithful nar content start := by
  have hrun := hs.running
  have hagrees := h.agrees hrun
  obtain ⟨hstart, hsent⟩ := h.emitted hrun
  cases hs with
  | turned hstage hturned =>
      rename_i r em c
      have hprefix := hturned.sent_isPrefix hfed.placed hagrees hstart hsent
      rw [← hturned.same.2.2.2.2] at hprefix
      rcases r with _ | (e | (_ | _ | why | _))
      · obtain ⟨hag, hle, hall⟩ := hturned.agrees hfed.placed hagrees hstart hsent
        refine ⟨fun _ => hag, fun _ => ⟨hle, hall⟩, hprefix, ?_, ?_⟩
        · rw [pumped, hstage]
          exact fun h => by cases h
        · rw [pumped, hstage]
          exact fun h => by cases h
      · have hgone := hturned.no_mismatch hfed.placed hagrees hgated hhash
          (fun hf => (hfull hf).2) fun hf => (hfull hf).1 ▸ hsent
        subst hgone
        exact ⟨fun hr => absurd rfl (hr _), fun hr => absurd rfl (hr _), hprefix,
          (fun h => by cases h), (fun h => by cases h)⟩
      · cases hturned with
        | needData =>
            refine ⟨fun _ => ⟨hagrees.spans, fun x v hx => ?_, hagrees.held⟩,
              fun _ => ⟨hstart, hsent⟩, hprefix, (fun h => by cases h), (fun h => by cases h)⟩
            exact hagrees.buffered x v (Buffer.byteAt_prune hfed.placed.buffer hx)
        | broken _ hne _ => exact absurd rfl hne
      · cases hturned with
        | finished hspan =>
            exact ⟨fun _ => hagrees, fun _ => ⟨hstart, hsent⟩, hprefix,
              (fun h => by cases h), fun _ => hspan⟩
        | broken _ _ hne => exact absurd rfl hne
      · exact ⟨fun hr => absurd rfl (hr _), fun hr => absurd rfl (hr _), hprefix,
          (fun h => by cases h), (fun h => by cases h)⟩
      · exact ⟨fun hr => absurd rfl (hr _), fun hr => absurd rfl (hr _), hprefix,
          (fun h => by cases h), (fun h => by cases h)⟩
  | skipped hstage => exact h.congr hrun rfl rfl (Or.inl hstage)
  | relaunched hstage => exact h.congr hrun rfl rfl (Or.inl hstage)
  | recarved hstage => exact h.congr hrun rfl rfl (Or.inl hstage)
  | carved hstage => exact h.congr hrun rfl rfl (Or.inl hstage)
  | finished hstage hw hget hlen hresult hfin =>
      rename_i result w fl
      have haborts : ∀ {stage : Stage}, stage = .waiting ∨ stage = .aborted .streak →
          stage = .waiting ∨ ∃ why, stage = .aborted why ∧ why ≠ .emit .hashMismatch := by
        rintro stage (hst | hst)
        · exact Or.inl hst
        · exact Or.inr ⟨_, hst, (fun h => by cases h)⟩
      cases hfin with
      | wasted => exact h.congr hrun rfl rfl (Or.inl hstage)
      | landed hd =>
          rename_i b
          have hb := hchunk w.id b rfl w hw rfl
          refine ⟨fun _ => ⟨hagrees.spans, ?_, hagrees.held⟩, fun _ => ⟨hstart, hsent⟩, h.sent,
            (fun h => by cases h), (fun h => by cases h)⟩
          refine Buffer.byteAt_put hfed.placed.buffer ?_ hagrees.buffered
          rw [hresult b rfl]
          exact hb
      | requeued hd hids hst => exact h.congr hrun rfl rfl (haborts hst)
      | failed htwins hst => exact h.congr hrun rfl rfl (haborts hst)
  | gaveUp hstage => exact h.congr hrun rfl rfl (Or.inr ⟨_, rfl, (fun h => by cases h)⟩)

/-- A plan's ranges lie in the NAR. -/
def Inside (p : Plan) (nar : Bytes) : Prop := ∀ x, InRange p.ranges x → x < nar.length

/-- What an attempt asks for lies in the NAR. -/
theorem Accounted.end_le (h : t.Accounted p) (hinside : Inside p nar) (hw : w ∈ t.air) :
    0 < w.len ∧ w.off + w.len ≤ nar.length := by
  obtain ⟨hpos, hin⟩ := h.inside hw
  have := hinside _ hin
  exact ⟨hpos, by omega⟩

/-- All along a run whose chunks are honest. -/
theorem faithful_of_reach (hroot : root.Distinct) (hsize : (narOf root).length < 2 ^ 64)
    (hp : p.Wf start end_) (hinside : Inside p (narOf root))
    (htells : p.Tells (narOf root) content) (hinfo : info.narSize = (narOf root).length)
    (hhash : sha256 (narOf root) = info.narHash)
    (h : (transfer sha256 window p info start end_).ReachIf (Honest root) t) :
    t.Faithful (narOf root) content start := by
  refine h.invariant (I := fun t => t.Faithful (narOf root) content start) ?_
    fun t k t' hr hold hok hstep => ?_
  · rintro t ⟨patience, rfl⟩
    refine ⟨fun _ => ⟨htells, nofun, nofun⟩, fun _ => ⟨le_rfl, ?_⟩, List.nil_prefix, nofun, nofun⟩
    exact (slice_self _ _).symm
  · have hreach := hr.reach
    have hacc := accounted_of_reach hp hreach
    have hcarries := carries_of_reach hp hreach
    have hs := step_cases hacc.crewed hstep
    have hfull : t.em.full = true → start = 0 ∧ end_ = info.narSize := by
      rw [hcarries.full]
      exact of_decide_eq_true
    have hgated : t.em.Gated sha256 t.client := by
      intro hf
      obtain ⟨rfl, rfl⟩ := hfull hf
      have hpos : 0 < info.narSize := by
        rw [hinfo, narOf, narStr]
        simp only [List.length_append, length_leBytes]
        omega
      exact (guarded_of_reach hp hpos hreach).gated hs.running hf
    refine hs.faithful hold (hacc.fed hs.running) hgated ?_ ?_ fun id b hk w hw hid => ?_
    · rw [hcarries.narHash, hhash]
    · intro hf
      obtain ⟨hzero, hend⟩ := hfull hf
      exact ⟨hzero, by rw [hcarries.end_, hend, hinfo]⟩
    · obtain ⟨hpos, hle⟩ := hacc.end_le hinside hw
      exact (answers_iff hroot hsize hpos hle).mp (hok id b hk w hw hid)

/-- The emitter that has no span left stands at the end. -/
theorem emitPos_of_finished {em : Emitter} (h : em.Placed) (hspan : em.spans[em.spanI]? = none) :
    em.emitPos = em.end_ := by
  obtain ⟨a, hrest, hpos⟩ := h.rest
  rw [List.drop_eq_nil_of_le (List.getElem?_eq_none_iff.mp hspan)] at hrest
  have hzero : em.spanEmitted = 0 := by
    rcases h.inner with hzero | ⟨off, len, hsome, -⟩
    · exact hzero
    · rw [hspan] at hsome
      cases hsome
  rw [hpos, hzero, Nat.add_zero]
  exact hrest

/-- A transfer that completes has sent the whole range. -/
theorem Faithful.sent_of_completed (h : t.Faithful nar content start) (hp : p.Wf start end_)
    (hreach : (transfer sha256 window p info start end_).Reach t) (hdone : t.stage = .completed) :
    t.client.sent = slice nar start end_ := by
  have hrun : t.Running := fun why hwhy => by rw [hdone] at hwhy; cases hwhy
  have hplaced := ((accounted_of_reach hp hreach).fed hrun).placed
  have hend := emitPos_of_finished hplaced (h.finished hdone)
  rw [(h.emitted hrun).2, hend, (carries_of_reach hp hreach).end_]

/-- No run gives up on a plan whose retention is kept and whose framing is
there. -/
theorem unbroken_of_reach {budget : ℕ} (hp : p.Wf start end_)
    (hkept : Keeps budget ∅ (p.spans.map fun s => s.2.deal))
    (hlits : ∀ s ∈ p.spans, ∀ litOff len, s.2 = .lit litOff len → litOff + len ≤ p.lits.length)
    (h : (transfer sha256 window p info start end_).Reach t) : t.Solvent budget := by
  refine h.invariant (I := fun t => t.Solvent budget) ?_ fun t k t' hr hsol hstep => ?_
  · rintro t ⟨patience, rfl⟩
    exact ⟨fun _ => hkept, Nat.zero_le _, nofun, nofun⟩
  · have hacc := accounted_of_reach hp hr
    have hcarries := carries_of_reach hp hr
    have hs := step_cases hacc.crewed hstep
    refine hs.solvent hsol (hacc.fed hs.running) ?_
    rw [hcarries.spans, hcarries.lits]
    exact hlits

end Transfer

-- ============================================================ whatever is chosen

/-- A tree that a store holds. Whether a manifest can name it is another
matter: one that cannot be named is fetched by the fallback plan. -/
structure FileTree.Storable (root : FileTree) : Prop where
  distinct : root.Distinct
  size : (narOf root).length < 2 ^ 64

/-- What the narinfo says of a NAR. -/
def RemoteNarinfo.of (sha256 : Bytes → NarHash) (nar : Bytes) : RemoteNarinfo :=
  ⟨sha256 nar, nar.length⟩

/-- What the runs need of the plan that is chosen. -/
structure Plan.Runs (p : Plan) (nar : Bytes) (window start end_ : ℕ) : Prop where
  wf : p.Wf start end_
  inside : Transfer.Inside p nar
  tells : ∃ content, p.Tells nar content
  kept : ∃ budget, Keeps budget ∅ (p.spans.map fun s => s.2.deal)
  lits : ∀ s ∈ p.spans, ∀ litOff len, s.2 = .lit litOff len → litOff + len ≤ p.lits.length
  retained : ∀ s ∈ p.spans, ∀ len held, s.2 = .fetch len (some held) → len ≤ window

theorem runs_choosePlan {cd : Codec} {root : FileTree} (hroot : root.Storable)
    (info : RemoteNarinfo) (hinfo : info.narSize = (narOf root).length)
    {acquired : Option Manifest} (hacquired : ∀ m ∈ acquired, m.Of cd root)
    (budget window : ℕ) {start end_ : ℕ} (hle : start ≤ end_)
    (hend : end_ ≤ (narOf root).length) :
    (choosePlan info acquired budget window start end_).Runs (narOf root) window start end_ := by
  have htells := tells_choosePlan hroot.distinct hinfo hacquired budget window start end_
  have hwf := wf_choosePlan info acquired budget window hle
  have hfallback : (∀ x, InRange (fallbackPlan start end_).ranges x → x < (narOf root).length)
      ∧ (∃ budget, Keeps budget ∅ ((fallbackPlan start end_).spans.map fun s => s.2.deal))
      ∧ (∀ s ∈ (fallbackPlan start end_).spans, ∀ litOff len, s.2 = .lit litOff len →
        litOff + len ≤ (fallbackPlan start end_).lits.length)
      ∧ ∀ s ∈ (fallbackPlan start end_).spans, ∀ len held, s.2 = .fetch len (some held) →
        len ≤ window := by
    refine ⟨?_, ⟨0, le_rfl, ∅, rfl, le_rfl, rfl⟩, ?_, ?_⟩
    · rintro x ⟨r, hr, hlo, hhi⟩
      cases List.mem_singleton.mp hr
      simp only at hlo hhi
      omega
    · intro s hs litOff len heq
      cases List.mem_singleton.mp hs
      cases heq
    · intro s hs len held heq
      cases List.mem_singleton.mp hs
      cases heq
  suffices hrest : Transfer.Inside (choosePlan info acquired budget window start end_) (narOf root)
      ∧ (∃ b, Keeps b ∅ ((choosePlan info acquired budget window start end_).spans.map
          fun s => s.2.deal))
      ∧ (∀ s ∈ (choosePlan info acquired budget window start end_).spans, ∀ litOff len,
        s.2 = .lit litOff len →
          litOff + len ≤ (choosePlan info acquired budget window start end_).lits.length)
      ∧ ∀ s ∈ (choosePlan info acquired budget window start end_).spans, ∀ len held,
        s.2 = .fetch len (some held) → len ≤ window from
    ⟨hwf, hrest.1, htells, hrest.2.1, hrest.2.2.1, hrest.2.2.2⟩
  clear htells hwf
  unfold choosePlan
  split
  next hfull =>
    obtain ⟨⟨rfl, rfl⟩, -⟩ := hfull
    cases acquired with
    | none => exact hfallback
    | some m =>
        simp only
        split
        next p hp =>
          have hsound := sound_manifestPlan hp
          refine ⟨?_, ⟨budget, hsound.kept⟩, hsound.lits,
            fun s hs len held heq => (hsound.fetched s hs len _ heq).1⟩
          rintro x ⟨r, hr, hlo, hhi⟩
          have := hsound.inside r hr
          omega
        next => exact hfallback
  next => exact hfallback

/-- A transfer of any range, with whatever plan, from peers that have the
NAR: what has been sent is at all times the start of the range, and it is
the range when the transfer completes; its hash does not fail, and its
plan is not given up. -/
theorem sends_the_nar {cd : Codec} {root : FileTree} (hroot : root.Storable)
    {acquired : Option Manifest} (hacquired : ∀ m ∈ acquired, m.Of cd root)
    (sha256 : Bytes → NarHash) (budget window : ℕ) {start end_ : ℕ} (hle : start ≤ end_)
    (hend : end_ ≤ (narOf root).length) {t : Transfer}
    (h : (transfer sha256 window
      (choosePlan (.of sha256 (narOf root)) acquired budget window start end_)
      (.of sha256 (narOf root)) start end_).ReachIf (Transfer.Honest root) t) :
    t.client.sent <+: slice (narOf root) start end_
      ∧ (t.stage = .completed → t.client.sent = slice (narOf root) start end_)
      ∧ (∀ e, t.stage = .aborted (.emit e) → e = .clientGone)
      ∧ ∀ why, t.stage ≠ .aborted (.pump why) := by
  have hruns := runs_choosePlan hroot (.of sha256 (narOf root)) rfl hacquired budget window
    hle hend
  obtain ⟨content, htells⟩ := hruns.tells
  obtain ⟨kept, hkept⟩ := hruns.kept
  have hfaithful := Transfer.faithful_of_reach hroot.distinct hroot.size hruns.wf hruns.inside
    htells rfl rfl h
  have hcarries := Transfer.carries_of_reach hruns.wf h.reach
  refine ⟨?_, hfaithful.sent_of_completed hruns.wf h.reach, ?_,
    (Transfer.unbroken_of_reach hruns.wf hkept hruns.lits h.reach).unbroken⟩
  · have hsent := hfaithful.sent
    rwa [hcarries.end_] at hsent
  · intro e hstage
    cases e with
    | clientGone => rfl
    | hashMismatch => exact absurd hstage hfaithful.matched

theorem storable_smallTree : smallTree.Storable := ⟨distinct_smallTree, by decide +kernel⟩

/-- The manifest of the small tree, in segments of two bytes. -/
theorem exists_of_smallTree : ∃ m : Manifest, m.Of Codec.plain smallTree := by
  obtain ⟨node, hnode, -⟩ := synthLayout_buildTree Codec.plain distinct_smallTree utf8_smallTree
    (show smallTree.depth ≤ MAX_DEPTH by decide) (show 1 ≤ 2 by decide)
  refine ⟨⟨[], 0, 2, node⟩, Nat.le_succ 1, hnode, ?_⟩
  show ∀ piece ∈ smallTree.pieces 2, ∀ piece' ∈ smallTree.pieces 2, _
  decide +kernel

/-- Ticks along which each chunk is the NAR's reach what honest runs do. -/
theorem reach_smallTree {window start end_ : ℕ} {p : Plan} {info : RemoteNarinfo} {ks : List Tick}
    {sha256 : Bytes → NarHash} {t : Transfer}
    (hrun : (transfer sha256 window p info start end_).runIf
      (fun t k => Transfer.exactChunk (narOf smallTree) t k = true)
      (.start p info start end_ {}) ks = some t) :
    (transfer sha256 window p info start end_).ReachIf (Transfer.Honest smallTree) t := by
  have hstart : (transfer sha256 window p info start end_).ReachIf
      (fun t k => Transfer.exactChunk (narOf smallTree) t k = true)
      (.start p info start end_ {}) := .init ⟨none, rfl⟩
  exact (hstart.runIf hrun).mono fun _ _ =>
    Transfer.honest_of_exactChunk distinct_smallTree storable_smallTree.size

/-- The first attempt fails, its twin lands, and 100 bytes are sent. -/
theorem sends_the_nar_smallTree :
    ∃ t : Transfer, t.client.sent.length = 100
      ∧ t.client.sent <+: slice (narOf smallTree) 0 (narOf smallTree).length := by
  obtain ⟨m, hm⟩ := exists_of_smallTree
  have hacquired : ∀ m' ∈ some m, m'.Of Codec.plain smallTree := by
    rintro m' ⟨⟩
    exact hm
  have hplan : choosePlan (.of (fun _ => .ofByte 0) (narOf smallTree)) (some m) 10 64 0
      (narOf smallTree).length = fallbackPlan 0 (narOf smallTree).length := by
    rw [choosePlan, if_neg]
    rintro ⟨-, hmin⟩
    exact absurd hmin (by decide +kernel)
  have hrun : ((transfer (fun _ => .ofByte 0) 64
        (choosePlan (.of (fun _ => .ofByte 0) (narOf smallTree)) (some m) 10 64 0
          (narOf smallTree).length) (.of (fun _ => .ofByte 0) (narOf smallTree)) 0
        (narOf smallTree).length).runIf
        (fun t k => Transfer.exactChunk (narOf smallTree) t k = true)
      (.start (choosePlan (.of (fun _ => .ofByte 0) (narOf smallTree)) (some m) 10 64 0
          (narOf smallTree).length) (.of (fun _ => .ofByte 0) (narOf smallTree)) 0
        (narOf smallTree).length {})
      [.turn, .launch false 100 2, .done 1 none,
        .done 2 (some (slice (narOf smallTree) 0 100)), .turn]).map
        (fun t => t.client.sent.length) = some 100 := by
    rw [hplan]
    decide +kernel
  obtain ⟨t, ht, hread⟩ := Option.map_eq_some_iff.mp hrun
  exact ⟨t, hread, (sends_the_nar storable_smallTree hacquired _ 10 64 (Nat.zero_le _) le_rfl
    (reach_smallTree ht)).1⟩

end Narshare
