/-
The narinfo that the local nix reads, written from a peer's attestation,
and what it says when it is read again.

The format is lines of a key, a colon and a value; the references are
words on one line. Nothing is escaped, and `well_formed` asks of a path
that it begins with a slash and of the other texts nothing at all, so a
peer's text may hold a line of its own (`ca_replaces_size`). What is
read back is just what was attested when every text stays within its
line, and every reference is one word and every signature something:
`Renderable`. That is not only enough (`rendered_iff_renderable`). What
is read is always free of line feeds and cut into words, so an
attestation that comes back whole is free of them too; then the lines
are those written, and each can only have lost a carriage return.
-/
import Narshare.Index.NixDb
import Narshare.Words

namespace Narshare

-- ================================================================ the format

/-- `str::parse::<u64>`. -/
def Bytes.parseU64 (s : Bytes) : Option ℕ :=
  let digits := match s with
    | 0x2B :: rest => rest
    | _ => s
  if digits = [] ∨ ∃ c ∈ digits, ¬ (48 ≤ c.toNat ∧ c.toNat ≤ 57) then none
  else if digitsValue digits < 2 ^ 64 then some (digitsValue digits)
  else none

/-- `RemoteNarinfo`, whole. -/
structure Narinfo where
  storePath : Bytes
  compression : Bytes
  narHash : NarHash
  narSize : ℕ
  references : List Bytes
  deriver : Option Bytes
  ca : Option Bytes
  sigs : List Bytes

/-- `att_to_remote`. -/
def attToRemote (a : Attestation) : Narinfo where
  storePath := a.storePath
  compression := ascii "none"
  narHash := (NarHash.tryFrom a.narHash).getD ⟨List.replicate 32 0, List.length_replicate⟩
  narSize := a.narSize
  references := a.references
  deriver := none
  ca := if a.ca.isEmpty then none else some a.ca
  sigs := a.sigs

/-- The lines of `rewrite_for_client`, key and value. -/
def Narinfo.items (info : Narinfo) : List (Bytes × Bytes) :=
  let nar32 := nixbase32Encode info.narHash.val
  [(ascii "StorePath", info.storePath),
    (ascii "URL", ascii "nar/" ++ nar32 ++ ascii ".nar"),
    (ascii "Compression", ascii "none"),
    (ascii "FileHash", ascii "sha256:" ++ nar32),
    (ascii "FileSize", decimal info.narSize),
    (ascii "NarHash", ascii "sha256:" ++ nar32),
    (ascii "NarSize", decimal info.narSize),
    (ascii "References", (info.references.intersperse (ascii " ")).flatten)]
  ++ info.deriver.toList.map (fun d => (ascii "Deriver", d))
  ++ info.sigs.map (fun s => (ascii "Sig", s))
  ++ info.ca.toList.map fun ca => (ascii "CA", ca)

/-- `writeln!("{key}: {value}")`, for each item. -/
def renderItems (items : List (Bytes × Bytes)) : Bytes :=
  (items.map fun e => e.1 ++ ascii ": " ++ e.2 ++ ascii "\n").flatten

/-- `rewrite_for_client`. -/
def rewriteForClient (info : Narinfo) : Bytes := renderItems info.items

/-- What a line can be refused for, and what may be missing at the
end. -/
inductive NarinfoError
  | noColon
  | unsupportedNarHash (value : Bytes)
  | badNix32 (value : Bytes)
  | badNarSize
  | missing (key : Bytes)
deriving DecidableEq

/-- The variables of `parse_narinfo`; without a line for it the
compression is bzip2. -/
structure NarinfoDraft where
  storePath : Option Bytes := none
  urlSeen : Bool := false
  compression : Bytes := ascii "bzip2"
  narHash : Option NarHash := none
  narSize : Option ℕ := none
  references : List Bytes := []
  deriver : Option Bytes := none
  ca : Option Bytes := none
  sigs : List Bytes := []

namespace NarinfoDraft

/-- `parse_narinfo`, what a key does with its value. -/
def field (d : NarinfoDraft) (key value : Bytes) : Except NarinfoError NarinfoDraft :=
  if key = ascii "StorePath" then .ok { d with storePath := some value }
  else if key = ascii "URL" then .ok { d with urlSeen := true }
  else if key = ascii "Compression" then .ok { d with compression := value }
  else if key = ascii "NarHash" then
    if (ascii "sha256:").isPrefixOf value then
      match (nixbase32Decode (value.drop 7) 32).bind NarHash.tryFrom with
      | some h => .ok { d with narHash := some h }
      | none => .error (.badNix32 value)
    else .error (.unsupportedNarHash value)
  else if key = ascii "NarSize" then
    match value.parseU64 with
    | some n => .ok { d with narSize := some n }
    | none => .error .badNarSize
  else if key = ascii "References" then .ok { d with references := value.splitWhitespace }
  else if key = ascii "Deriver" then
    .ok { d with deriver := if value.isEmpty then none else some value }
  else if key = ascii "CA" then .ok { d with ca := if value.isEmpty then none else some value }
  else if key = ascii "Sig" ∧ value ≠ [] then .ok { d with sigs := d.sigs ++ [value] }
  else .ok d

/-- `parse_narinfo`, one turn of the loop. -/
def line (d : NarinfoDraft) (line : Bytes) : Except NarinfoError NarinfoDraft :=
  if line = [] then .ok d
  else
    match line.splitOnce 0x3A with
    | none => .error .noColon
    | some (key, value) =>
        d.field key (match value with
          | 0x20 :: rest => rest
          | _ => value)

/-- `parse_narinfo`, its end. -/
def finish (d : NarinfoDraft) : Except NarinfoError Narinfo :=
  if !d.urlSeen then .error (.missing (ascii "URL"))
  else
    match d.storePath, d.narHash, d.narSize with
    | none, _, _ => .error (.missing (ascii "StorePath"))
    | some _, none, _ => .error (.missing (ascii "NarHash"))
    | some _, some _, none => .error (.missing (ascii "NarSize"))
    | some storePath, some narHash, some narSize =>
        .ok ⟨storePath, d.compression, narHash, narSize, d.references, d.deriver, d.ca, d.sigs⟩

end NarinfoDraft

/-- `parse_narinfo`. -/
def parseNarinfo (text : Bytes) : Except NarinfoError Narinfo :=
  (text.lines.foldlM NarinfoDraft.line {}).bind NarinfoDraft.finish

-- ============================================================ what is asked

/-- What the local nix reads is the attestation's path, hash, size,
references, content address and signatures. -/
def Rendered (a : Attestation) : Prop :=
  ∃ info, parseNarinfo (rewriteForClient (attToRemote a)) = .ok info
    ∧ info.storePath = a.storePath ∧ info.narHash.val = a.narHash ∧ info.narSize = a.narSize
    ∧ info.references = a.references ∧ info.ca = (attToRemote a).ca ∧ info.sigs = a.sigs

/-- No text leaves its line, no reference its word, and no signature is
empty. -/
structure Renderable (a : Attestation) : Prop where
  path : Bytes.LineSafe a.storePath
  refs : ∀ r ∈ a.references, Bytes.Word r
  ca : Bytes.LineSafe a.ca
  sigs : ∀ s ∈ a.sigs, s ≠ [] ∧ Bytes.LineSafe s

-- ======================================================== what a line becomes

namespace Bytes

theorem splitOnce_append {c : UInt8} {k : Bytes} (hk : c ∉ k) (v : Bytes) :
    splitOnce c (k ++ c :: v) = some (k, v) := by
  have hne : ∀ x ∈ k, (decide (x ≠ c)) = true := fun x hx =>
    decide_eq_true fun he => hk (he ▸ hx)
  rw [splitOnce, List.dropWhile_append_of_pos hne, List.takeWhile_append_of_pos hne,
    List.dropWhile_cons_of_neg (by simp), List.takeWhile_cons_of_neg (by simp), List.append_nil]

theorem subset_of_splitOnce {c : UInt8} {s k v : Bytes} (h : splitOnce c s = some (k, v)) :
    ∀ x ∈ v, x ∈ s := by
  unfold splitOnce at h
  split at h
  · cases h
  next hd =>
    cases h
    intro x hx
    exact (List.dropWhile_sublist _).subset (hd ▸ List.mem_cons_of_mem _ hx)

theorem parseU64_decimal {n : ℕ} (h : n < 2 ^ 64) : parseU64 (decimal n) = some n := by
  have hsame : (match decimal n with
      | 0x2B :: rest => rest
      | _ => decimal n) = decimal n := by
    split
    next rest he =>
      have := (isDigit_decimal (n := n) (c := 0x2B) (he ▸ List.mem_cons_self)).1
      exact absurd this (by decide)
    next => rfl
  unfold parseU64
  rw [hsame]
  simp only
  rw [if_neg, digitsValue_decimal, if_pos h]
  rintro (hnil | ⟨c, hc, hdig⟩)
  · exact decimal_ne_nil n hnil
  · exact hdig (isDigit_decimal hc)

end Bytes

/-- Items whose keys have no colon, and that stay within their lines. -/
def Itemised (items : List (Bytes × Bytes)) : Prop :=
  ∀ e ∈ items, ((0x3A : UInt8) ∉ e.1 ∧ (0x0A : UInt8) ∉ e.1) ∧ (0x0A : UInt8) ∉ e.2

/-- Read again, such items lose a carriage return each at most. -/
theorem foldlM_line_renderItems {items : List (Bytes × Bytes)} (h : Itemised items)
    (d : NarinfoDraft) :
    (renderItems items).lines.foldlM NarinfoDraft.line d
      = items.foldlM (fun d e => d.field e.1 (Bytes.stripCr e.2)) d := by
  induction items generalizing d with
  | nil => rfl
  | cons e items ih =>
      obtain ⟨⟨hcolon, hkey⟩, hvalue⟩ := h e List.mem_cons_self
      have hsplit : renderItems (e :: items)
          = (e.1 ++ ascii ": " ++ e.2) ++ 0x0A :: renderItems items := by
        unfold renderItems
        rw [List.map_cons, List.flatten_cons, List.append_assoc _ (ascii "\n")]
        rfl
      have hfree : (0x0A : UInt8) ∉ e.1 ++ ascii ": " ++ e.2 := by
        rw [List.mem_append, List.mem_append]
        rintro ((hm | hm) | hm)
        · exact hkey hm
        · exact absurd hm (by decide)
        · exact hvalue hm
      have hcr : Bytes.stripCr (e.1 ++ ascii ": " ++ e.2)
          = e.1 ++ 0x3A :: 0x20 :: Bytes.stripCr e.2 := by
        rw [Bytes.stripCr_append, List.append_assoc]
        · rfl
        · rw [List.getLast?_append, show (ascii ": ").getLast? = some 0x20 by decide,
            Option.some_or]
          decide
      rw [hsplit, Bytes.lines_cons _ hfree, List.foldlM_cons, List.foldlM_cons, hcr]
      have hline : d.line (e.1 ++ 0x3A :: 0x20 :: Bytes.stripCr e.2)
          = d.field e.1 (Bytes.stripCr e.2) := by
        unfold NarinfoDraft.line
        rw [if_neg (by simp), Bytes.splitOnce_append hcolon]
        rfl
      rw [hline]
      refine bind_congr fun d' => ?_
      exact ih (fun e' he' => h e' (List.mem_cons_of_mem _ he')) d'

namespace NarinfoDraft

theorem field_storePath (d : NarinfoDraft) (v : Bytes) :
    d.field (ascii "StorePath") v = .ok { d with storePath := some v } := by
  unfold field
  rw [if_pos rfl]

theorem field_url (d : NarinfoDraft) (v : Bytes) :
    d.field (ascii "URL") v = .ok { d with urlSeen := true } := by
  unfold field
  rw [if_neg (by decide), if_pos rfl]

theorem field_compression (d : NarinfoDraft) (v : Bytes) :
    d.field (ascii "Compression") v = .ok { d with compression := v } := by
  unfold field
  rw [if_neg (by decide), if_neg (by decide), if_pos rfl]

theorem field_references (d : NarinfoDraft) (v : Bytes) :
    d.field (ascii "References") v = .ok { d with references := v.splitWhitespace } := by
  unfold field
  rw [if_neg (by decide), if_neg (by decide), if_neg (by decide), if_neg (by decide),
    if_neg (by decide), if_pos rfl]

theorem field_ca (d : NarinfoDraft) (v : Bytes) :
    d.field (ascii "CA") v = .ok { d with ca := if v.isEmpty then none else some v } := by
  unfold field
  rw [if_neg (by decide), if_neg (by decide), if_neg (by decide), if_neg (by decide),
    if_neg (by decide), if_neg (by decide), if_neg (by decide), if_pos rfl]

/-- The sizes and hashes of the file are not read. -/
theorem field_ignored (d : NarinfoDraft) {k : Bytes} (v : Bytes)
    (hk : k = ascii "FileHash" ∨ k = ascii "FileSize") : d.field k v = .ok d := by
  unfold field
  rcases hk with rfl | rfl
  all_goals
    rw [if_neg (by decide), if_neg (by decide), if_neg (by decide), if_neg (by decide),
      if_neg (by decide), if_neg (by decide), if_neg (by decide), if_neg (by decide),
      if_neg (fun h => absurd h.1 (by decide))]

theorem field_narHash (d : NarinfoDraft) (h : NarHash) :
    d.field (ascii "NarHash") (ascii "sha256:" ++ nixbase32Encode h.val)
      = .ok { d with narHash := some h } := by
  have hback := nixbase32Decode_encode h.val
  rw [h.property] at hback
  unfold field
  rw [if_neg (by decide), if_neg (by decide), if_neg (by decide), if_pos rfl,
    if_pos (List.isPrefixOf_iff_prefix.mpr (List.prefix_append _ _)),
    show (ascii "sha256:" ++ nixbase32Encode h.val).drop 7 = nixbase32Encode h.val from
      List.drop_left' rfl, hback, Option.bind_some, NarHash.tryFrom_val]

theorem field_narSize (d : NarinfoDraft) {n : ℕ} (hn : n < 2 ^ 64) :
    d.field (ascii "NarSize") (decimal n) = .ok { d with narSize := some n } := by
  unfold field
  rw [if_neg (by decide), if_neg (by decide), if_neg (by decide), if_neg (by decide), if_pos rfl,
    Bytes.parseU64_decimal hn]

theorem field_sig (d : NarinfoDraft) (v : Bytes) :
    d.field (ascii "Sig") v = .ok (if v = [] then d else { d with sigs := d.sigs ++ [v] }) := by
  unfold field
  rw [if_neg (by decide), if_neg (by decide), if_neg (by decide), if_neg (by decide),
    if_neg (by decide), if_neg (by decide), if_neg (by decide), if_neg (by decide)]
  by_cases hv : v = []
  · rw [if_neg (fun h => h.2 hv), if_pos hv]
  · rw [if_pos ⟨rfl, hv⟩, if_neg hv]

/-- The signature lines, one after the other. -/
theorem foldlM_sigs (d : NarinfoDraft) (sigs : List Bytes) :
    (sigs.map fun s => (ascii "Sig", s)).foldlM (fun d e => d.field e.1 (Bytes.stripCr e.2)) d
      = (.ok { d with
          sigs := d.sigs ++ (sigs.map Bytes.stripCr).filter fun s => decide (s ≠ []) } :
        Except NarinfoError NarinfoDraft) := by
  induction sigs generalizing d with
  | nil =>
      rw [List.map_nil, List.map_nil, List.filter_nil, List.append_nil]
      rfl
  | cons s sigs ih =>
      rw [List.map_cons, List.foldlM_cons, field_sig]
      show List.foldlM _ _ _ = _
      rw [ih, List.map_cons]
      by_cases hs : Bytes.stripCr s = []
      · rw [if_pos hs, List.filter_cons_of_neg (by simpa using hs)]
      · rw [if_neg hs, List.filter_cons_of_pos (by simpa using hs), List.append_assoc,
          List.singleton_append]

end NarinfoDraft

/-- The hashes and sizes are spelled in digits and letters. -/
theorem lineSafe_hash (h : NarHash) :
    ∀ c ∈ ascii "sha256:" ++ nixbase32Encode h.val, c ≠ 0x0A ∧ c ≠ 0x0D := by
  intro c hc
  have hfixed : ∀ c ∈ ascii "sha256:" ++ nixbase32Alphabet, c ≠ 0x0A ∧ c ≠ 0x0D := by
    decide +kernel
  rcases List.mem_append.mp hc with hc | hc
  · exact hfixed c (List.mem_append_left _ hc)
  · exact hfixed c (List.mem_append_right _ (mem_nixbase32Encode hc))

theorem lineSafe_decimal (n : ℕ) : ∀ c ∈ decimal n, c ≠ 0x0A ∧ c ≠ 0x0D := by
  intro c hc
  obtain ⟨hlo, -⟩ := isDigit_decimal hc
  constructor
  · rintro rfl
    exact absurd hlo (by decide)
  · rintro rfl
    exact absurd hlo (by decide)

/-- No text of the attestation has a line feed. -/
structure NoLineFeed (a : Attestation) : Prop where
  path : (0x0A : UInt8) ∉ a.storePath
  refs : ∀ r ∈ a.references, (0x0A : UInt8) ∉ r
  ca : (0x0A : UInt8) ∉ a.ca
  sigs : ∀ s ∈ a.sigs, (0x0A : UInt8) ∉ s

theorem NoLineFeed.itemised {a : Attestation} (h : NoLineFeed a) :
    Itemised (attToRemote a).items := by
  have item : ∀ k v : Bytes, (0x3A : UInt8) ∉ k ∧ (0x0A : UInt8) ∉ k → (0x0A : UInt8) ∉ v →
      ((0x3A : UInt8) ∉ (k, v).1 ∧ (0x0A : UInt8) ∉ (k, v).1) ∧ (0x0A : UInt8) ∉ (k, v).2 :=
    fun k v hk hv => ⟨hk, hv⟩
  have hhash := lineSafe_hash (attToRemote a).narHash
  have hsize := lineSafe_decimal a.narSize
  intro e he
  rcases List.mem_append.mp he with he | he
  · rcases List.mem_append.mp he with he | he
    · rcases List.mem_append.mp he with he | he
      · simp only [List.mem_cons, List.not_mem_nil, or_false] at he
        rcases he with rfl | rfl | rfl | rfl | rfl | rfl | rfl | rfl
        · exact item _ _ (by decide) h.path
        · refine item _ _ (by decide) fun hm => ?_
          rcases List.mem_append.mp hm with hm | hm
          · rcases List.mem_append.mp hm with hm | hm
            · exact absurd hm (by decide)
            · exact (hhash _ (List.mem_append_right _ hm)).1 rfl
          · exact absurd hm (by decide)
        · exact item _ _ (by decide) (by decide)
        · exact item _ _ (by decide) fun hm => (hhash _ hm).1 rfl
        · exact item _ _ (by decide) fun hm => (hsize _ hm).1 rfl
        · exact item _ _ (by decide) fun hm => (hhash _ hm).1 rfl
        · exact item _ _ (by decide) fun hm => (hsize _ hm).1 rfl
        · refine item _ _ (by decide) fun hm => ?_
          rcases Bytes.mem_joined hm with hm | ⟨r, hr, hm⟩
          · exact absurd hm (by decide)
          · exact h.refs r hr hm
      · cases he
    · obtain ⟨s, hs, rfl⟩ := List.mem_map.mp he
      exact item _ _ (by decide) (h.sigs s hs)
  · obtain ⟨ca, hmem, rfl⟩ := List.mem_map.mp he
    refine item _ _ (by decide) ?_
    rw [Option.mem_toList, attToRemote] at hmem
    split at hmem
    · cases hmem
    · cases hmem
      exact h.ca

/-- What is read from an attestation's narinfo when no text has a line
feed. -/
theorem NoLineFeed.parseNarinfo_rewriteForClient {a : Attestation} (h : NoLineFeed a)
    (hsize : a.narSize < 2 ^ 64) :
    parseNarinfo (rewriteForClient (attToRemote a)) = .ok
      { attToRemote a with
        storePath := Bytes.stripCr a.storePath
        references := (Bytes.stripCr
          ((a.references.intersperse (ascii " ")).flatten)).splitWhitespace
        ca := if (Bytes.stripCr a.ca).isEmpty then none else some (Bytes.stripCr a.ca)
        sigs := (a.sigs.map Bytes.stripCr).filter fun s => decide (s ≠ []) } := by
  have hstrip : ∀ v : Bytes, (∀ c ∈ v, c ≠ 0x0A ∧ c ≠ 0x0D) → Bytes.stripCr v = v := fun v hv =>
    Bytes.stripCr_eq_self_iff.mpr (Bytes.LineSafe.of_forall hv).2
  have hbind : ∀ (d : NarinfoDraft) (f : NarinfoDraft → Except NarinfoError NarinfoDraft),
      ((.ok d : Except NarinfoError NarinfoDraft) >>= f) = f d := fun _ _ => rfl
  have hfits : (attToRemote a).narSize < 2 ^ 64 := hsize
  have hpure : ∀ d : NarinfoDraft, (pure d : Except NarinfoError NarinfoDraft) = .ok d :=
    fun _ => rfl
  have hderiver : (attToRemote a).deriver.toList = [] := rfl
  have hhash := hstrip _ (lineSafe_hash (attToRemote a).narHash)
  have hdec := hstrip _ (lineSafe_decimal (attToRemote a).narSize)
  unfold parseNarinfo rewriteForClient
  rw [foldlM_line_renderItems h.itemised]
  unfold Narinfo.items
  rw [List.foldlM_append, List.foldlM_append, List.foldlM_append]
  simp only [List.foldlM_cons, hhash, hdec, NarinfoDraft.field_storePath, NarinfoDraft.field_url,
    NarinfoDraft.field_compression, NarinfoDraft.field_ignored _ _ (Or.inl rfl),
    NarinfoDraft.field_ignored _ _ (Or.inr rfl), NarinfoDraft.field_narHash,
    NarinfoDraft.field_narSize _ hfits, NarinfoDraft.field_references, hbind, List.foldlM_nil,
    hpure, hderiver, List.map_nil, NarinfoDraft.foldlM_sigs, List.nil_append]
  cases hca : a.ca.isEmpty with
  | true =>
      have hnone : (attToRemote a).ca = none := by
        rw [attToRemote, hca]
        rfl
      rw [List.isEmpty_iff.mp hca, hnone]
      rfl
  | false =>
      have hsome : (attToRemote a).ca = some a.ca := by
        rw [attToRemote, hca]
        rfl
      rw [hsome, Option.toList_some, List.map_singleton, List.foldlM_cons,
        NarinfoDraft.field_ca, hbind, List.foldlM_nil, hpure]
      rfl

-- ============================================================ what is ever read

namespace NarinfoDraft

/-- What has been read is within lines, and cut into words. -/
structure Cut (d : NarinfoDraft) : Prop where
  path : ∀ p, d.storePath = some p → (0x0A : UInt8) ∉ p
  refs : ∀ r ∈ d.references, Bytes.Word r
  ca : ∀ c, d.ca = some c → (0x0A : UInt8) ∉ c
  sigs : ∀ s ∈ d.sigs, s ≠ [] ∧ (0x0A : UInt8) ∉ s

variable {d d' : NarinfoDraft}

theorem Cut.field (h : d.Cut) {key value : Bytes} (hv : (0x0A : UInt8) ∉ value)
    (hs : d.field key value = .ok d') : d'.Cut := by
  unfold NarinfoDraft.field at hs
  split at hs
  · cases hs
    refine ⟨fun p hp => ?_, h.refs, h.ca, h.sigs⟩
    cases hp
    exact hv
  split at hs
  · cases hs
    exact ⟨h.path, h.refs, h.ca, h.sigs⟩
  split at hs
  · cases hs
    exact ⟨h.path, h.refs, h.ca, h.sigs⟩
  split at hs
  · split at hs
    · split at hs
      · cases hs
        exact ⟨h.path, h.refs, h.ca, h.sigs⟩
      · cases hs
    · cases hs
  split at hs
  · split at hs
    · cases hs
      exact ⟨h.path, h.refs, h.ca, h.sigs⟩
    · cases hs
  split at hs
  · cases hs
    exact ⟨h.path, fun r hr => Bytes.splitWhitespace_mem hr, h.ca, h.sigs⟩
  split at hs
  · cases hs
    exact ⟨h.path, h.refs, h.ca, h.sigs⟩
  split at hs
  · cases hs
    refine ⟨h.path, h.refs, fun c hc => ?_, h.sigs⟩
    simp only at hc
    split at hc
    · cases hc
    · cases hc
      exact hv
  split at hs
  next hsig =>
    cases hs
    refine ⟨h.path, h.refs, h.ca, fun s hs => ?_⟩
    rcases List.mem_append.mp hs with hs | hs
    · exact h.sigs s hs
    · rw [List.mem_singleton.mp hs]
      exact ⟨hsig.2, hv⟩
  next =>
    cases hs
    exact h

theorem Cut.line (h : d.Cut) {l : Bytes} (hl : (0x0A : UInt8) ∉ l) (hs : d.line l = .ok d') :
    d'.Cut := by
  unfold NarinfoDraft.line at hs
  split at hs
  · cases hs
    exact h
  split at hs
  · cases hs
  next key value hsplit =>
    refine h.field (fun hm => ?_) hs
    have hin : (0x0A : UInt8) ∈ value := by
      split at hm
      · exact List.mem_cons_of_mem _ hm
      · exact hm
    exact hl (Bytes.subset_of_splitOnce hsplit _ hin)

theorem Cut.lines {ls : List Bytes} (h : d.Cut) (hls : ∀ l ∈ ls, (0x0A : UInt8) ∉ l)
    (hs : ls.foldlM NarinfoDraft.line d = .ok d') : d'.Cut := by
  induction ls generalizing d with
  | nil =>
      cases hs
      exact h
  | cons l ls ih =>
      rw [List.foldlM_cons] at hs
      cases hl : d.line l with
      | error e =>
          rw [hl] at hs
          cases hs
      | ok d₁ =>
          rw [hl] at hs
          exact ih (h.line (hls l List.mem_cons_self) hl)
            (fun x hx => hls x (List.mem_cons_of_mem _ hx)) hs

end NarinfoDraft

/-- Whatever the text, what is read from it is within lines, and cut into
words. -/
theorem cut_of_parseNarinfo {text : Bytes} {info : Narinfo} (h : parseNarinfo text = .ok info) :
    (0x0A : UInt8) ∉ info.storePath ∧ (∀ r ∈ info.references, Bytes.Word r)
      ∧ (∀ c, info.ca = some c → (0x0A : UInt8) ∉ c)
      ∧ ∀ s ∈ info.sigs, s ≠ [] ∧ (0x0A : UInt8) ∉ s := by
  unfold parseNarinfo at h
  cases hd : text.lines.foldlM NarinfoDraft.line {} with
  | error e =>
      rw [hd] at h
      cases h
  | ok d =>
      rw [hd] at h
      have hcut : d.Cut := by
        refine NarinfoDraft.Cut.lines ⟨fun p hp => ?_, fun r hr => ?_, fun c hc => ?_,
          fun s hs => ?_⟩ (fun l hl => Bytes.lineFeed_notMem_lines hl) hd
        · cases hp
        · cases hr
        · cases hc
        · cases hs
      change d.finish = .ok info at h
      unfold NarinfoDraft.finish at h
      split at h
      · cases h
      split at h
      · cases h
      · cases h
      · cases h
      next hpath hnar hsize =>
        cases h
        exact ⟨hcut.path _ hpath, hcut.refs, hcut.ca, hcut.sigs⟩

-- ============================================================== the main result

theorem Renderable.noLineFeed {a : Attestation} (h : Renderable a) : NoLineFeed a :=
  ⟨h.path.1, fun r hr hm => ((h.refs r hr).lineSafe _ hm).1 rfl, h.ca.1,
    fun s hs => (h.sigs s hs).2.1⟩

/-- Dropping what is empty from texts that may have lost their last
character leaves them all only if none lost any. -/
theorem stripCr_eq_self_of_filter {sigs : List Bytes}
    (h : ((sigs.map Bytes.stripCr).filter fun s => decide (s ≠ [])) = sigs) :
    ∀ s ∈ sigs, Bytes.stripCr s = s := by
  have hlen := congrArg List.length h
  have hall := List.length_filter_eq_length_iff.mp (by
    rw [hlen, List.length_map] : ((sigs.map Bytes.stripCr).filter
      fun s => decide (s ≠ [])).length = (sigs.map Bytes.stripCr).length)
  rw [List.filter_eq_self.mpr hall] at h
  exact List.map_inj_left.mp (h.trans (List.map_id sigs).symm)

/-- The narinfo of a well-formed attestation says what was attested if
and only if no text leaves its place. -/
theorem rendered_iff_renderable (a : Attestation) (hwf : wellFormed a = true)
    (hsize : a.narSize < 2 ^ 64) : Rendered a ↔ Renderable a := by
  have hca : (attToRemote a).ca = if a.ca.isEmpty then none else some a.ca := rfl
  have hnar : (attToRemote a).narHash.val = a.narHash := by
    rw [attToRemote, NarHash.tryFrom, dif_pos (wellFormed_narHash hwf)]
    rfl
  constructor
  · rintro ⟨info, hparse, hpath, -, -, hrefs, hinfo, hsigs⟩
    obtain ⟨hcutPath, hcutRefs, hcutCa, hcutSigs⟩ := cut_of_parseNarinfo hparse
    rw [hpath] at hcutPath
    rw [hrefs] at hcutRefs
    rw [hsigs] at hcutSigs
    have hfree : NoLineFeed a := by
      refine ⟨hcutPath, fun r hr hm => ((hcutRefs r hr).lineSafe _ hm).1 rfl, ?_,
        fun s hs => (hcutSigs s hs).2⟩
      cases he : a.ca.isEmpty with
      | true =>
          rw [List.isEmpty_iff.mp he]
          exact List.not_mem_nil
      | false => exact hcutCa a.ca (by rw [hinfo, hca, he]; rfl)
    rw [hfree.parseNarinfo_rewriteForClient hsize] at hparse
    cases hparse
    refine ⟨⟨hcutPath, Bytes.stripCr_eq_self_iff.mp hpath⟩, hcutRefs, ⟨hfree.ca, ?_⟩,
      fun s hs => ⟨(hcutSigs s hs).1, (hcutSigs s hs).2, ?_⟩⟩
    · cases he : a.ca.isEmpty with
      | true =>
          rw [List.isEmpty_iff.mp he]
          exact fun hl => by cases hl
      | false =>
          rw [hca, he] at hinfo
          simp only [Bool.false_eq_true, if_false] at hinfo
          split at hinfo
          · cases hinfo
          · exact Bytes.stripCr_eq_self_iff.mp (Option.some.inj hinfo)
    · exact Bytes.stripCr_eq_self_iff.mp (stripCr_eq_self_of_filter hsigs s hs)
  · intro h
    refine ⟨_, h.noLineFeed.parseNarinfo_rewriteForClient hsize, ?_, hnar, rfl, ?_, ?_, ?_⟩
    · exact Bytes.stripCr_eq_self_iff.mpr h.path.2
    · have hjoined : ∀ c ∈ (a.references.intersperse (ascii " ")).flatten,
          c ≠ 0x0A ∧ c ≠ 0x0D := by
        intro c hc
        rcases Bytes.mem_joined hc with hc | ⟨r, hr, hc⟩
        · rw [show ascii " " = [0x20] by decide, List.mem_singleton] at hc
          rw [hc]
          decide
        · exact (h.refs r hr).lineSafe c hc
      simp only
      rw [Bytes.stripCr_eq_self_iff.mpr (Bytes.LineSafe.of_forall hjoined).2]
      exact Bytes.splitWhitespace_joined h.refs
    · simp only
      rw [Bytes.stripCr_eq_self_iff.mpr h.ca.2, hca]
    · simp only
      have hself : a.sigs.map Bytes.stripCr = a.sigs.map id :=
        List.map_congr_left fun s hs => Bytes.stripCr_eq_self_iff.mpr (h.sigs s hs).2.2
      rw [hself, List.map_id, List.filter_eq_self]
      exact fun s hs => decide_eq_true (h.sigs s hs).1

/-- A content address that carries a line of its own. -/
def injecting : Attestation :=
  { Attestation.ofBytes 65 5 [] with ca := ascii "fixed:x\nNarSize: 2" }

/-- The attestation of a path with one reference and one signature. -/
theorem rendered_iff_renderable_plain : Renderable
    { Attestation.ofBytes 65 5 [ascii "k:x"] with references := [ascii "b"] } := by
  refine (rendered_iff_renderable _ (by decide +kernel) (by decide)).mp ?_
  have hread : (parseNarinfo (rewriteForClient (attToRemote
      { Attestation.ofBytes 65 5 [ascii "k:x"] with references := [ascii "b"] }))).toOption.map
      (fun info => decide (info.storePath = (Attestation.ofBytes 65 5 []).storePath
        ∧ info.narHash.val = (NarHash.ofByte 5).val ∧ info.narSize = 1
        ∧ info.references = [ascii "b"] ∧ info.ca = none ∧ info.sigs = [ascii "k:x"]))
      = some true := by decide +kernel
  obtain ⟨info, hinfo, hdone⟩ := Option.map_eq_some_iff.mp hread
  refine ⟨info, ?_, of_decide_eq_true hdone⟩
  cases hp : parseNarinfo (rewriteForClient (attToRemote
      { Attestation.ofBytes 65 5 [ascii "k:x"] with references := [ascii "b"] })) with
  | error e =>
      rw [hp] at hinfo
      cases hinfo
  | ok info' =>
      rw [hp] at hinfo
      cases hinfo
      rfl

/-- The local nix reads the size that the content address brought. -/
theorem ca_replaces_size : ¬ ∀ (keys : TrustedKeys) (a : Attestation), wellFormed a = true →
    feasible keys a = true → a.narSize < 2 ^ 64 → Rendered a := by
  intro hall
  obtain ⟨info, hparse, -, -, hsize, -⟩ := hall .none injecting (by decide +kernel)
    (by decide +kernel) (by decide)
  have hread : (parseNarinfo (rewriteForClient (attToRemote injecting))).toOption.map
      Narinfo.narSize = some 2 := by decide +kernel
  rw [hparse] at hread
  have htwo : info.narSize = 2 := Option.some.inj hread
  rw [hsize] at htwo
  exact absurd htwo (by decide)

end Narshare
