/-
The seek table of nar.rs, and the serialisation it stands for.

# File trees

A `FileTree` is what `nar::build` walks: what `symlink_metadata`,
`read_link` and `read_dir` say, with a regular file's content in place
of its length. A directory lists its entries in the order `read_dir`
happens to give them. `node` recurses on the tree and not on paths, so a
directory first makes the walks of its entries, each waiting for its
path and the writer (`nodes`), and then sorts and runs them.

# The table stands for the serialisation

`narOf` is the canonical serialisation, without a writer, offsets or
segments: tokens, and a directory's entries in byte order of their
names. What a built table's segments hold, file content read back from
the tree, is `narOf` (`bytes_build`), and they are tiles of its whole length
(`tiles_build`).
-/
import Narshare.Nar.Framing
import Mathlib.Data.List.Sort

namespace Narshare

-- =============================================================== file trees

/-- A file tree; `executable` is the owner's bit. -/
inductive FileTree
  | symlink (target : Bytes)
  | regular (executable : Bool) (contents : Bytes)
  | directory (entries : List (Bytes × FileTree))

namespace FileTree

mutual

/-- Induction over file trees. -/
theorem induction {P : FileTree → Prop} (symlink : ∀ target, P (.symlink target))
    (regular : ∀ executable contents, P (.regular executable contents))
    (directory : ∀ entries, (∀ e ∈ entries, P e.2) → P (.directory entries)) :
    ∀ t, P t
  | .symlink target => symlink target
  | .regular executable contents => regular executable contents
  | .directory entries => directory entries (induction_entries symlink regular directory entries)

theorem induction_entries {P : FileTree → Prop} (symlink : ∀ target, P (.symlink target))
    (regular : ∀ executable contents, P (.regular executable contents))
    (directory : ∀ entries, (∀ e ∈ entries, P e.2) → P (.directory entries)) :
    ∀ entries : List (Bytes × FileTree), ∀ e ∈ entries, P e.2
  | [], _, h => nomatch h
  | (_, t) :: _, _, .head _ => induction symlink regular directory t
  | _ :: entries, e, .tail _ h =>
      induction_entries symlink regular directory entries e h

end

/-- The node at a path below the root. -/
def lookup : FileTree → List Bytes → Option FileTree
  | t, [] => some t
  | .directory entries, name :: path =>
      (entries.find? fun e => decide (e.1 = name)).bind fun e => e.2.lookup path
  | .symlink _, _ :: _ => none
  | .regular _ _, _ :: _ => none

/-- What the file at a path holds. -/
def contentsAt (t : FileTree) (path : List Bytes) : Bytes :=
  match t.lookup path with
  | some (.regular _ contents) => contents
  | _ => []

end FileTree

/-- `names.sort_by`: byte order of the names. -/
def sortByName {β : Type} (l : List (Bytes × β)) : List (Bytes × β) :=
  l.insertionSort fun a b => a.1 ≤ b.1

-- ============================================================ the seek table

/-- `Src::File`. -/
structure FileRef where
  path : List Bytes
  fileOff : ℕ
deriving DecidableEq

/-- `Builder` of nar.rs. -/
abbrev Builder := Framing FileRef

namespace Builder

/-- `file_seg`. -/
def fileSeg (b : Builder) (path : List Bytes) (len : ℕ) : Builder := b.ext ⟨path, 0⟩ len

/-- `node`, what surrounds a directory entry's own node. -/
def entry (path : List Bytes) (b : Builder)
    (e : Bytes × (List Bytes → Builder → Builder)) : Builder :=
  let b := (b.tok (ascii "entry")).tok (ascii "(")
  let b := ((b.tok (ascii "name")).tok e.1).tok (ascii "node")
  (e.2 (path ++ [e.1]) b).tok (ascii ")")

mutual

/-- `Builder::node`. -/
def node : FileTree → List Bytes → Builder → Builder
  | .symlink target => fun _ b =>
      let b := (b.tok (ascii "(")).tok (ascii "type")
      let b := ((b.tok (ascii "symlink")).tok (ascii "target")).tok target
      b.tok (ascii ")")
  | .regular executable contents => fun path b =>
      let b := ((b.tok (ascii "(")).tok (ascii "type")).tok (ascii "regular")
      let b := if executable then (b.tok (ascii "executable")).tok [] else b
      let b := b.tok (ascii "contents")
      -- str(contents), framed by hand so the payload is a file segment
      let len := contents.length
      let b := b.rawLit (leBytes len)
      let b := if len > 0 then fileSeg b path len else b
      let b := b.rawLit (pad len)
      b.tok (ascii ")")
  | .directory entries => fun path b =>
      let b := ((b.tok (ascii "(")).tok (ascii "type")).tok (ascii "directory")
      let b := (sortByName (nodes entries)).foldl (entry path) b
      b.tok (ascii ")")

/-- The walks of a directory's entries. -/
def nodes : List (Bytes × FileTree) → List (Bytes × (List Bytes → Builder → Builder))
  | [] => []
  | (name, t) :: entries => (name, node t) :: nodes entries

end

end Builder

/-- `SeekTable`. -/
structure SeekTable where
  narSize : ℕ
  lits : Bytes
  segs : List (Seg FileRef)
deriving DecidableEq

/-- `nar::build`. -/
def SeekTable.build (root : FileTree) : SeekTable :=
  let b := (Builder.node root [] (({} : Builder).tok (ascii "nix-archive-1"))).closeLit
  ⟨b.off, b.lits, b.segs⟩

-- ========================================================= the serialisation

mutual

/-- The canonical serialisation of a node. -/
def narNode : FileTree → Bytes
  | .symlink target =>
      narStr (ascii "(") ++ narStr (ascii "type") ++ narStr (ascii "symlink")
        ++ narStr (ascii "target") ++ narStr target ++ narStr (ascii ")")
  | .regular executable contents =>
      narStr (ascii "(") ++ narStr (ascii "type") ++ narStr (ascii "regular")
        ++ (if executable then narStr (ascii "executable") ++ narStr [] else [])
        ++ narStr (ascii "contents") ++ narStr contents ++ narStr (ascii ")")
  | .directory entries =>
      narStr (ascii "(") ++ narStr (ascii "type") ++ narStr (ascii "directory")
        ++ ((sortByName (narNodes entries)).flatMap fun e =>
          narStr (ascii "entry") ++ narStr (ascii "(") ++ narStr (ascii "name") ++ narStr e.1
            ++ narStr (ascii "node") ++ e.2 ++ narStr (ascii ")"))
        ++ narStr (ascii ")")

/-- Those of a directory's entries. -/
def narNodes : List (Bytes × FileTree) → List (Bytes × Bytes)
  | [] => []
  | (name, t) :: entries => (name, narNode t) :: narNodes entries

end

/-- The canonical NAR of a file tree. -/
def narOf (root : FileTree) : Bytes := narStr (ascii "nix-archive-1") ++ narNode root

-- ============================================================ sorting entries

theorem Builder.nodes_eq (entries : List (Bytes × FileTree)) :
    Builder.nodes entries = entries.map fun e => (e.1, Builder.node e.2) := by
  induction entries with
  | nil => rfl
  | cons e entries ih => rw [Builder.nodes, ih, List.map_cons]

theorem narNodes_eq (entries : List (Bytes × FileTree)) :
    narNodes entries = entries.map fun e => (e.1, narNode e.2) := by
  induction entries with
  | nil => rfl
  | cons e entries ih => rw [narNodes, ih, List.map_cons]

/-- Sorting looks at names only. -/
theorem sortByName_map {β γ : Type} (f : β → γ) (l : List (Bytes × β)) :
    sortByName (l.map fun e => (e.1, f e.2)) = (sortByName l).map fun e => (e.1, f e.2) :=
  (List.map_insertionSort (r := fun a b : Bytes × β => a.1 ≤ b.1)
    (s := fun a b : Bytes × γ => a.1 ≤ b.1) (fun e => (e.1, f e.2)) l
    fun _ _ _ _ => Iff.rfl).symm

theorem mem_sortByName {β : Type} {l : List (Bytes × β)} {e : Bytes × β} :
    e ∈ sortByName l ↔ e ∈ l := List.mem_insertionSort _

/-- The order is strict where no name comes twice. -/
theorem sortByName_strict {β : Type} {l : List (Bytes × β)} (h : (l.map Prod.fst).Nodup) :
    (sortByName l).Pairwise fun a b => a.1 < b.1 := by
  have hle : (sortByName l).Pairwise fun a b => a.1 ≤ b.1 := List.pairwise_insertionSort _ l
  have hne : (sortByName l).Pairwise fun a b => a.1 ≠ b.1 :=
    List.pairwise_map.mp (((List.perm_insertionSort _ l).map Prod.fst).nodup_iff.mpr h)
  exact hle.imp₂ (fun _ _ => lt_of_le_of_ne) hne

/-- A directory's entries are walked in the order of their names. -/
theorem Builder.node_directory (entries : List (Bytes × FileTree)) (path : List Bytes)
    (b : Builder) :
    Builder.node (.directory entries) path b
      = ((sortByName entries).foldl (fun b e => Builder.entry path b (e.1, Builder.node e.2))
          (((b.tok (ascii "(")).tok (ascii "type")).tok (ascii "directory"))).tok
            (ascii ")") := by
  rw [Builder.node, Builder.nodes_eq, sortByName_map]
  simp only [List.foldl_map]

theorem narNode_directory (entries : List (Bytes × FileTree)) :
    narNode (.directory entries)
      = narStr (ascii "(") ++ narStr (ascii "type") ++ narStr (ascii "directory")
        ++ ((sortByName entries).flatMap fun e =>
          narStr (ascii "entry") ++ narStr (ascii "(") ++ narStr (ascii "name") ++ narStr e.1
            ++ narStr (ascii "node") ++ narNode e.2 ++ narStr (ascii ")"))
        ++ narStr (ascii ")") := by
  rw [narNode, narNodes_eq, sortByName_map, List.flatMap_map]

/-- A file system's directory: no two entries of one name, at any
level. -/
inductive FileTree.Distinct : FileTree → Prop
  | symlink (target : Bytes) : Distinct (.symlink target)
  | regular (executable : Bool) (contents : Bytes) : Distinct (.regular executable contents)
  | directory (entries : List (Bytes × FileTree)) : (entries.map Prod.fst).Nodup →
      (∀ e ∈ entries, Distinct e.2) → Distinct (.directory entries)

namespace FileTree

theorem lookup_append (t : FileTree) (path path' : List Bytes) :
    t.lookup (path ++ path') = (t.lookup path).bind fun t' => t'.lookup path' := by
  induction path generalizing t with
  | nil => rfl
  | cons name path ih =>
      rw [List.cons_append]
      cases t with
      | symlink target => rfl
      | regular executable contents => rfl
      | directory entries =>
          rw [lookup, lookup]
          cases entries.find? fun e => decide (e.1 = name) with
          | none => rfl
          | some e => exact ih e.2

/-- An entry is found under its name. -/
theorem Distinct.lookup_entry {root : FileTree} {path : List Bytes}
    {entries : List (Bytes × FileTree)} (hroot : root.lookup path = some (.directory entries))
    (h : (entries.map Prod.fst).Nodup) {e : Bytes × FileTree} (he : e ∈ entries) :
    root.lookup (path ++ [e.1]) = some e.2 := by
  have hfind : (entries.find? fun x => decide (x.1 = e.1)) = some e := by
    clear hroot
    induction entries with
    | nil => cases he
    | cons x entries ih =>
        obtain ⟨hx, hrest⟩ := List.nodup_cons.mp h
        rw [List.find?_cons]
        rcases List.mem_cons.mp he with rfl | he
        · rw [decide_eq_true rfl]
        · have hne : x.1 ≠ e.1 := fun heq => hx (heq ▸ List.mem_map_of_mem he)
          rw [decide_eq_false hne]
          exact ih hrest he
  rw [lookup_append, hroot, Option.bind_some, lookup, hfind]
  rfl

/-- What is read of a piece of a file. -/
def read (root : FileTree) (f : FileRef) (len : ℕ) : Bytes :=
  slice (root.contentsAt f.path) f.fileOff (f.fileOff + len)

end FileTree

-- ======================================================== what the walk writes

/-- Walking a node writes its serialisation. -/
theorem Builder.holds_node {root : FileTree} {t : FileTree} (hd : t.Distinct)
    {path : List Bytes} (hpath : root.lookup path = some t) {b : Builder} {d : Bytes}
    (h : b.Holds root.read d) :
    (Builder.node t path b).Holds root.read (d ++ narNode t) := by
  induction t using FileTree.induction generalizing path b d with
  | symlink target =>
      rw [Builder.node, narNode]
      simp only [← List.append_assoc]
      exact (((((h.tok _).tok _).tok _).tok _).tok _).tok _
  | regular executable contents =>
      have hlen : ∀ {b : Builder} {d : Bytes}, b.Holds root.read d →
          (((if contents.length > 0 then fileSeg (b.rawLit (leBytes contents.length)) path
              contents.length else b.rawLit (leBytes contents.length)).rawLit
                (pad contents.length)).tok (ascii ")")).Holds root.read
            (d ++ narStr contents ++ narStr (ascii ")")) := by
        intro b d h
        refine Framing.Holds.tok ?_ _
        rw [narStr]
        simp only [← List.append_assoc]
        refine Framing.Holds.rawLit ?_ _
        split
        next hpos =>
          have hcontents : root.read ⟨path, 0⟩ contents.length = contents := by
            rw [FileTree.read, FileTree.contentsAt, hpath]
            exact slice_zero _ (Nat.zero_add _).ge
          have := (h.rawLit (leBytes contents.length)).ext (e := ⟨path, 0⟩) hpos
            (by rw [hcontents])
          rwa [hcontents] at this
        next hzero =>
          rw [List.length_eq_zero_iff.mp (Nat.eq_zero_of_not_pos hzero), List.append_nil]
          exact h.rawLit _
      rw [Builder.node, narNode]
      simp only [← List.append_assoc]
      cases executable with
      | true =>
          simp only [if_true, ← List.append_assoc]
          exact hlen ((((((h.tok _).tok _).tok _).tok _).tok _).tok _)
      | false =>
          simp only [Bool.false_eq_true, if_false, List.append_nil]
          exact hlen ((((h.tok _).tok _).tok _).tok _)
  | directory entries ih =>
      obtain _ | _ | ⟨_, hnodup, hentries⟩ := hd
      rw [Builder.node_directory, narNode_directory]
      simp only [← List.append_assoc]
      refine Framing.Holds.tok ?_ _
      have hall : ∀ e ∈ sortByName entries, e ∈ entries := fun _ he => mem_sortByName.mp he
      generalize hopen : ((b.tok (ascii "(")).tok (ascii "type")).tok (ascii "directory") = b₀
      have h₀ : b₀.Holds root.read (d ++ narStr (ascii "(") ++ narStr (ascii "type")
          ++ narStr (ascii "directory")) := hopen ▸ ((h.tok _).tok _).tok _
      clear hopen
      generalize d ++ narStr (ascii "(") ++ narStr (ascii "type")
        ++ narStr (ascii "directory") = d₀ at h₀ ⊢
      generalize sortByName entries = sorted at hall ⊢
      induction sorted generalizing b₀ d₀ with
      | nil => simpa using h₀
      | cons e sorted ih' =>
          have he := hall e List.mem_cons_self
          rw [List.foldl_cons, List.flatMap_cons, ← List.append_assoc]
          refine ih' _ _ ?_ fun e' he' => hall e' (List.mem_cons_of_mem _ he')
          rw [Builder.entry]
          simp only [← List.append_assoc]
          refine Framing.Holds.tok ?_ _
          exact ih e he (hentries e he) (FileTree.Distinct.lookup_entry hpath hnodup he)
            (((((h₀.tok _).tok _).tok _).tok _).tok _)

/-- A built table's segments are tiles of the whole serialisation, and
hold it. -/
structure SeekTable.Covers (t : SeekTable) (root : FileTree) : Prop where
  tiles : Tiles Seg.narOff Seg.len 0 t.narSize t.segs
  bytes : t.segs.flatMap (Seg.bytes t.lits root.read) = narOf root
  length : ∀ s ∈ t.segs, (s.bytes t.lits root.read).length = s.len
  within : ∀ s ∈ t.segs, s.Within t.lits
  narSize : t.narSize = (narOf root).length

theorem SeekTable.covers_build {root : FileTree} (h : root.Distinct) :
    (SeekTable.build root).Covers root := by
  have hstart : (({} : Builder).tok (ascii "nix-archive-1")).Holds root.read
      (narStr (ascii "nix-archive-1")) := Framing.Holds.empty.tok _
  have hwalk : (Builder.node root [] (({} : Builder).tok (ascii "nix-archive-1"))).closeLit.Holds
      root.read (narOf root) := (Builder.holds_node h rfl hstart).closeLit
  have hclosed := Framing.openLit_closeLit
    (Builder.node root [] (({} : Builder).tok (ascii "nix-archive-1")))
  have htiles := hwalk.ok.tiles
  have hbytes := hwalk.written
  rw [Framing.closedTo, hclosed] at htiles
  rw [Framing.written, hclosed, Option.elim_none, List.append_nil] at hbytes
  exact ⟨htiles, hbytes, fun s hs => hwalk.length_bytes hs, hwalk.ok.within, hwalk.off⟩

/-- A script and a link to it, listed out of order. -/
def smallTree : FileTree :=
  .directory [([98], .regular true [35, 33, 10]), ([97], .symlink [98])]

theorem distinct_smallTree : smallTree.Distinct := by
  refine .directory _ (by decide) fun e he => ?_
  rcases List.mem_cons.mp he with rfl | he
  · exact .regular _ _
  · cases List.mem_singleton.mp he
    exact .symlink _

end Narshare
