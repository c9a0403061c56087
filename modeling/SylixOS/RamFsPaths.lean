import SylixOS.ParentForest
import SylixOS.RamFsVolume

/-! The directory tree as a map from paths to nodes. The calls of `ramFs.c` that create,
delete and rename entries have every exit of `__ram_open` they tell apart, or fail to tell
apart; what each does to the entries is compared with the entry its path names. -/

namespace SylixOS.RamFs
open SylixOS.ByteBuffer SylixOS.ParentForest Relation

variable (c : Config)

def fileErrorNameStr : List Char := ['\\', '*', '?', '<', '>', '"', '|', '\t', '\r', '\n']

def fsCheckFileName (pcName : List Char) : Bool :=
  (if '/' ∈ pcName then fileName pcName ≠ [] ∧ fileName pcName ≠ ['.'] ∧ fileName pcName ≠ ['.', '.']
    else pcName ≠ []) ∧
    pcName.all fun ch => ch ∉ fileErrorNameStr

inductive Errno where
  | ENOENT
  | ERROR_IO_DISK_NOT_PRESENT
  | EEXIST
  | ENOTDIR
  | EINVAL
  | ENOMEM
  | noFdNode
  deriving DecidableEq, Repr

structure OpenFlags where
  creat : Bool
  excl : Bool
  directory : Bool
  trunc : Bool
  write : Bool
  deriving DecidableEq, Repr

/-- The type bits of `iMode`: a regular file or none, a directory, or a FIFO, block or character
device. -/
inductive OpenMode where
  | reg
  | dir
  | special
  deriving DecidableEq, Repr

def OpenMode.kind : OpenMode → Kind
  | .dir => .dir
  | _ => .file

/-- What `__ramFsOpen` returns: a file node (of no node for the root) and whether the node was
created, a link to follow with what is behind it, or an error. -/
inductive OpenResult where
  | fdNode (pramn : Option Nat) (bCreate : Bool)
  | followLink (pcLink : List Char) (tail : List (List Char))
  | error (errno : Errno)
  deriving DecidableEq, Repr

def fileOpenOk (V : Volume) (pramn : Option Nat) (iFlags : OpenFlags) (bCreate bFdNode : Bool) :
    OpenResult × Volume :=
  if ¬ bFdNode then
    match pramn with
    | some id => (.error .noFdNode, if bCreate then (ramUnlink V id).2 else V)
    | none => (.error .noFdNode, V)
  else
    match pramn with
    | some id =>
      (.fdNode pramn bCreate,
        if iFlags.trunc ∧ iFlags.write then V.setFile id (ramTruncate c V.store (V.node id).file 0)
        else V)
    | none => (.fdNode pramn bCreate, V)

def ramFsOpen (V : Volume) (pcName : List Char) (iFlags : OpenFlags) (iMode : OpenMode)
    (new : Option Nat) (bFdNode : Bool) : OpenResult × Volume :=
  if iFlags.creat ∧ ¬ fsCheckFileName pcName then (.error .ENOENT, V)
  else if iFlags.creat ∧ iMode = .special then (.error .ERROR_IO_DISK_NOT_PRESENT, V)
  else
    let opened := ramOpen V pcName
    match opened.node with
    | some id =>
      if (V.node id).kind = .lnk then (.followLink (V.node id).link opened.tail, V)
      else if iFlags.creat ∧ iFlags.excl then (.error .EEXIST, V)
      else if iFlags.directory ∧ (V.node id).kind ≠ .dir then (.error .ENOTDIR, V)
      else fileOpenOk c V (some id) iFlags false bFdNode
    | none =>
      if iFlags.creat ∧ opened.bLast then
        match ramMaken V pcName opened.father iMode.kind [] new with
        | (none, V) => (.error .ENOMEM, V)
        | (some id, V) => fileOpenOk c V (some id) iFlags true bFdNode
      else if opened.bRoot then fileOpenOk c V none iFlags false bFdNode
      else (.error .ENOENT, V)

def ramFsSymlink (V : Volume) (pcName pcLinkDst : List Char) (new : Option Nat) :
    Except Errno Nat × Volume :=
  if ¬ fsCheckFileName pcName then (.error .EINVAL, V)
  else
    let opened := ramOpen V pcName
    if opened.node ≠ none ∨ opened.bRoot then (.error .EEXIST, V)
    else
      match ramMaken V pcName opened.father .lnk pcLinkDst new with
      | (none, V) => (.error .ENOMEM, V)
      | (some id, V) => (.ok id, V)

inductive TreeOp where
  | open (pcName : List Char) (iFlags : OpenFlags) (iMode : OpenMode) (new : Option Nat)
      (bFdNode : Bool)
  | symlink (pcName pcLinkDst : List Char) (new : Option Nat)
  | unlink (id : Nat)
  | move (id : Nat) (pcNewName : List Char) (bAlloc : Bool)

def treeApply (V : Volume) : TreeOp → Volume
  | .open pcName iFlags iMode new bFdNode => (ramFsOpen c V pcName iFlags iMode new bFdNode).2
  | .symlink pcName pcLinkDst new => (ramFsSymlink V pcName pcLinkDst new).2
  | .unlink id => (ramUnlink V id).2
  | .move id pcNewName bAlloc => (ramMove V id pcNewName bAlloc).2

def TreeLegal (V : Volume) : TreeOp → Prop
  | .open _ _ _ new _ => ∀ i, new = some i → i ∉ V.nodes
  | .symlink _ _ new => ∀ i, new = some i → i ∉ V.nodes
  | .unlink id => id ∈ V.nodes
  | .move id _ _ => id ∈ V.nodes

def EachTreeStep (P : Volume → TreeOp → Prop) (V : Volume) : List TreeOp → Prop
  | [] => True
  | op :: ops => P V op ∧ EachTreeStep P (treeApply c V op) ops

def Volume.lookup (V : Volume) (d : Option Nat) (name : List Char) : Option Nat :=
  (V.sonsOf d).find? fun id => (V.node id).name = name

def resolveDirs (V : Volume) : (d : Option Nat) → List (List Char) → Option (Option Nat)
  | d, [] => some d
  | d, name :: rest =>
    match V.lookup d name with
    | none => none
    | some id => if (V.node id).kind = .dir then resolveDirs V (some id) rest else none

def dirPath (pcName : List Char) : List (List Char) := (components pcName).dropLast

def dirOf (V : Volume) (pcName : List Char) : Option (Option Nat) :=
  resolveDirs V none (dirPath pcName)

/-- Every node is in the son list of its father, the names in a directory are distinct and not
empty, and no node is above itself. -/
structure TreeRight (V : Volume) : Prop where
  tree : TreeOk V
  distinct : ∀ d, V.HasDir d → ((V.sonsOf d).map fun x => (V.node x).name).Nodup
  nonempty : ∀ x ∈ V.nodes, (V.node x).name ≠ []
  acyclic : ∀ x ∈ V.nodes, ¬ TransGen (fun a b => (V.node a).father = some b) x x

def KeepsEntries (V V' : Volume) (changed : Option Nat → List Char → Prop) : Prop :=
  ∀ d name, V.HasDir d → V'.HasDir d → ¬ changed d name → V'.lookup d name = V.lookup d name

/-- The path names a missing entry of a directory, which becomes `id`; nothing else changes. -/
def CreatesAt (V V' : Volume) (pcName : List Char) (id : Nat) : Prop :=
  ∃ d, dirOf V pcName = some d ∧ V.lookup d (fileName pcName) = none ∧
    V'.lookup d (fileName pcName) = some id ∧ V'.sonsOf (some id) = [] ∧
    KeepsEntries V V' fun d' name => d' = d ∧ name = fileName pcName

/-- The path names an entry of a directory, which becomes `id`; the entry `id` had is gone and
nothing else changes. -/
def RenamesTo (V V' : Volume) (pcName : List Char) (id : Nat) : Prop :=
  ∃ d, dirOf V pcName = some d ∧ V'.lookup d (fileName pcName) = some id ∧
    (¬ ((V.node id).father = d ∧ (V.node id).name = fileName pcName) →
      V'.lookup (V.node id).father (V.node id).name = none) ∧
    KeepsEntries V V' fun d' name => (d' = d ∧ name = fileName pcName) ∨
      (d' = (V.node id).father ∧ name = (V.node id).name)

def RemovesEntry (V V' : Volume) (id : Nat) : Prop :=
  V'.lookup (V.node id).father (V.node id).name = none ∧
    KeepsEntries V V' fun d name => d = (V.node id).father ∧ name = (V.node id).name

def StepRight (V : Volume) : TreeOp → Prop
  | .open pcName iFlags iMode new bFdNode =>
    match ramFsOpen c V pcName iFlags iMode new bFdNode with
    | (.fdNode (some id) true, V') => CreatesAt V V' pcName id
    | (_, V') => KeepsEntries V V' fun _ _ => False
  | .symlink pcName pcLinkDst new =>
    match ramFsSymlink V pcName pcLinkDst new with
    | (.ok id, V') => CreatesAt V V' pcName id
    | (.error _, V') => KeepsEntries V V' fun _ _ => False
  | .unlink id =>
    match ramUnlink V id with
    | (true, V') => RemovesEntry V V' id
    | (false, V') => KeepsEntries V V' fun _ _ => False
  | .move id pcNewName bAlloc =>
    match ramMove V id pcNewName bAlloc with
    | (true, V') => RenamesTo V V' pcNewName id
    | (false, V') => KeepsEntries V V' fun _ _ => False

/-- A link is not created below a component that is missing or no directory. A node that is no
directory is not renamed to a path that goes on behind a link, and no node to a path that ends in
a divider; such calls are in order only where they fail for another reason. -/
def PathOk (V : Volume) : TreeOp → Prop
  | .open .. => True
  | .symlink pcName _ new =>
    fsCheckFileName pcName → new ≠ none → (ramOpen V pcName).node = none → (ramOpen V pcName).bLast
  | .unlink _ => True
  | .move id pcNewName bAlloc =>
    let target := ramOpen V pcNewName
    (target.tail ≠ [] → (V.node id).kind = .dir ∨ (target.node ≠ some id ∧ ¬ bAlloc)) ∧
      (target.bLast → fileName pcNewName = [] → ¬ bAlloc ∨ ((V.node id).kind = .dir ∧
        (target.father.any fun newFather => moveCheck V id (V.nodes.length + 1) newFather)))

variable {V : Volume}

theorem components_eq (pcName : List Char) :
    components pcName = dirPath pcName ++ [fileName pcName] := by
  have hne : components pcName ≠ [] := List.splitOn_ne_nil _ _
  have hlast : (components pcName).getLastD [] = fileName pcName := by
    rw [components, fileName]
    split
    · rename_i hhead
      obtain ⟨name, rfl⟩ := List.head?_eq_some_iff.mp hhead
      rw [List.tail_cons, List.splitOn_cons_eq_if_modifyHead, if_pos (beq_self_eq_true _)]
      obtain ⟨a, l, hsplit⟩ := List.exists_cons_of_ne_nil (List.splitOn_ne_nil '/' name)
      rw [hsplit]
      rfl
    · rfl
  have hlast' : (components pcName).getLast hne = fileName pcName := by
    rw [← hlast, List.getLastD_eq_getLast?, List.getLast?_eq_some_getLast hne]
    rfl
  rw [dirPath, ← hlast', List.dropLast_append_getLast hne]

theorem openFrom_cons (d : Option Nat) (pcNode : List Char) (rest : List (List Char)) :
    openFrom V d (pcNode :: rest) =
      match V.lookup d pcNode with
      | none => ⟨none, d, false, rest = [], []⟩
      | some id =>
        match (V.node id).kind with
        | .lnk => ⟨some id, (V.node id).father, false, false, rest⟩
        | .dir =>
          if rest = [] then ⟨some id, (V.node id).father, false, false, []⟩
          else openFrom V (some id) rest
        | .file =>
          if rest = [] then ⟨some id, (V.node id).father, false, false, []⟩
          else ⟨none, d, false, false, []⟩ := rfl

theorem openFrom_dirs {d d' : Option Nat} (path : List (List Char)) (name : List Char)
    (h : resolveDirs V d path = some d') :
    openFrom V d (path ++ [name]) =
      match V.lookup d' name with
      | none => ⟨none, d', false, true, []⟩
      | some id => ⟨some id, (V.node id).father, false, false, []⟩ := by
  induction path generalizing d with
  | nil =>
    cases h
    rw [List.nil_append, openFrom_cons]
    cases V.lookup d' name with
    | none => rfl
    | some id => cases hkind : (V.node id).kind <;> simp [hkind]
  | cons pcNode rest ih =>
    have hrest : rest ++ [name] ≠ [] := by simp
    rw [resolveDirs] at h
    rw [List.cons_append, openFrom_cons]
    cases hfind : V.lookup d pcNode with
    | none =>
      rw [hfind] at h
      cases h
    | some id =>
      rw [hfind] at h
      dsimp only at h ⊢
      split at h
      · rename_i hkind
        simp only [hkind, if_neg hrest]
        exact ih h
      · cases h

theorem openFrom_not_dirs {d : Option Nat} (path : List (List Char)) (name : List Char)
    (h : resolveDirs V d path = none) :
    (∃ father, openFrom V d (path ++ [name]) = ⟨none, father, false, false, []⟩) ∨
      ∃ id father tail, (V.node id).kind = .lnk ∧ tail ≠ [] ∧
        openFrom V d (path ++ [name]) = ⟨some id, father, false, false, tail⟩ := by
  induction path generalizing d with
  | nil => cases h
  | cons pcNode rest ih =>
    have hrest : rest ++ [name] ≠ [] := by simp
    rw [resolveDirs] at h
    rw [List.cons_append, openFrom_cons]
    cases hfind : V.lookup d pcNode with
    | none =>
      apply Or.inl
      exact ⟨d, by simp⟩
    | some id =>
      rw [hfind] at h
      dsimp only at h ⊢
      cases hkind : (V.node id).kind with
      | lnk => exact Or.inr ⟨id, _, _, hkind, hrest, rfl⟩
      | dir =>
        rw [if_pos hkind] at h
        simp only [if_neg hrest]
        exact ih h
      | file =>
        apply Or.inl
        exact ⟨d, by simp⟩

inductive Resolves (V : Volume) (pcName : List Char) : Opened → Prop where
  | root (hroot : pcName = [] ∨ pcName = ['/']) : Resolves V pcName ⟨none, none, true, false, []⟩
  | missing (d : Option Nat) (hdir : dirOf V pcName = some d)
      (hfind : V.lookup d (fileName pcName) = none) : Resolves V pcName ⟨none, d, false, true, []⟩
  | found (d : Option Nat) (id : Nat) (hdir : dirOf V pcName = some d)
      (hfind : V.lookup d (fileName pcName) = some id) :
      Resolves V pcName ⟨some id, (V.node id).father, false, false, []⟩
  | noDir (father : Option Nat) (hdir : dirOf V pcName = none) :
      Resolves V pcName ⟨none, father, false, false, []⟩
  | link (id : Nat) (father : Option Nat) (tail : List (List Char)) (hdir : dirOf V pcName = none)
      (hkind : (V.node id).kind = .lnk) (htail : tail ≠ []) :
      Resolves V pcName ⟨some id, father, false, false, tail⟩

theorem ramOpen_resolves (V : Volume) (pcName : List Char) :
    Resolves V pcName (ramOpen V pcName) := by
  rw [ramOpen]
  split
  · rename_i hroot
    exact Resolves.root hroot
  rw [components_eq]
  cases hdir : resolveDirs V none (dirPath pcName) with
  | some d =>
    rw [openFrom_dirs _ _ hdir]
    cases hfind : V.lookup d (fileName pcName) with
    | none => exact Resolves.missing d hdir hfind
    | some id => exact Resolves.found d id hdir hfind
  | none =>
    rcases openFrom_not_dirs _ (fileName pcName) hdir with ⟨father, h⟩ | ⟨id, father, tail, hkind, htail, h⟩
    · rw [h]
      exact Resolves.noDir father hdir
    · rw [h]
      exact Resolves.link id father tail hdir hkind htail

theorem hasDir_resolveDirs (hV : TreeOk V) (path : List (List Char)) {d d' : Option Nat}
    (hd : V.HasDir d) (h : resolveDirs V d path = some d') : V.HasDir d' := by
  induction path generalizing d with
  | nil =>
    cases h
    exact hd
  | cons pcNode rest ih =>
    rw [resolveDirs] at h
    cases hfind : V.lookup d pcNode with
    | none =>
      rw [hfind] at h
      cases h
    | some id =>
      rw [hfind] at h
      dsimp only at h
      split at h
      · rename_i hkind
        have hid := hV.of_mem d hd id (List.mem_of_find?_eq_some hfind)
        have hdir : V.HasDir (some id) := ⟨hid.1, hkind⟩
        exact ih hdir h
      · cases h

structure TreeInv (V : Volume) : Prop where
  tree : TreeOk V
  unique : ∀ x ∈ V.nodes, ∀ y ∈ V.nodes, (V.node x).father = (V.node y).father →
    (V.node x).name = (V.node y).name → x = y
  nonempty : ∀ x ∈ V.nodes, (V.node x).name ≠ []
  grounded : ∀ x ∈ V.nodes, Grounded (fun a => (V.node a).father) x

theorem TreeInv.treeRight (h : TreeInv V) : TreeRight V where
  tree := h.tree
  distinct := by
    intro d hd
    apply (h.tree.sons_nodup d hd).map_on
    intro x hx y hy hname
    have hx' := h.tree.of_mem d hd x hx
    have hy' := h.tree.of_mem d hd y hy
    exact h.unique x hx'.1 y hy'.1 (hx'.2.trans hy'.2.symm) hname
  nonempty := h.nonempty
  acyclic := fun x hx => (h.grounded x hx).acyclic

theorem TreeInv.lookup_eq_some (h : TreeInv V) {d : Option Nat} (hd : V.HasDir d) {name : List Char}
    {x : Nat} :
    V.lookup d name = some x ↔ x ∈ V.nodes ∧ (V.node x).father = d ∧ (V.node x).name = name := by
  constructor
  · intro hfind
    have hx := h.tree.of_mem d hd x (List.mem_of_find?_eq_some hfind)
    exact ⟨hx.1, hx.2, by simpa using List.find?_some hfind⟩
  · rintro ⟨hx, rfl, rfl⟩
    have hmem := h.tree.mem_sons x hx
    cases hfind : V.lookup (V.node x).father (V.node x).name with
    | none =>
      have hno := List.find?_eq_none.mp hfind x hmem
      simp at hno
    | some y =>
      have hy := h.tree.of_mem _ hd y (List.mem_of_find?_eq_some hfind)
      have hname : (V.node y).name = (V.node x).name := by simpa using List.find?_some hfind
      rw [h.unique y hy.1 x hx hy.2 hname]

theorem TreeInv.lookup_eq_none (h : TreeInv V) {d : Option Nat} (hd : V.HasDir d) {name : List Char} :
    V.lookup d name = none ↔ ∀ x ∈ V.nodes, (V.node x).father = d → (V.node x).name ≠ name := by
  rw [Option.eq_none_iff_forall_ne_some]
  constructor
  · intro hno x hx hf hname
    exact hno x ((h.lookup_eq_some hd).mpr ⟨hx, hf, hname⟩)
  · intro hno x hfind
    obtain ⟨hx, hf, hname⟩ := (h.lookup_eq_some hd).mp hfind
    exact hno x hx hf hname

theorem TreeInv.keepsEntries {V' : Volume} (h : TreeInv V) (h' : TreeInv V')
    {changed : Option Nat → List Char → Prop}
    (hsame : ∀ d name, ¬ changed d name → ∀ x,
      (x ∈ V'.nodes ∧ (V'.node x).father = d ∧ (V'.node x).name = name) ↔
        (x ∈ V.nodes ∧ (V.node x).father = d ∧ (V.node x).name = name)) :
    KeepsEntries V V' changed := by
  intro d name hd hd' hchanged
  apply Option.ext
  intro x
  rw [h'.lookup_eq_some hd', h.lookup_eq_some hd]
  exact hsame d name hchanged x

theorem keepsEntries_refl (V : Volume) (changed : Option Nat → List Char → Prop) :
    KeepsEntries V V changed := fun _ _ _ _ _ => rfl

theorem TreeOk.hasDir_above (hV : TreeOk V) {a b : Nat} (ha : V.HasDir (some a))
    (h : ReflTransGen (Up fun a => (V.node a).father) a b) : V.HasDir (some b) := by
  induction h with
  | refl => exact ha
  | tail _ hup ih =>
    have hdir := hV.hasDir _ ih.1
    rw [show (V.node _).father = _ from hup] at hdir
    exact hdir

theorem TreeOk.mem_above (hV : TreeOk V) {a b : Nat} (ha : a ∈ V.nodes)
    (h : ReflTransGen (Up fun a => (V.node a).father) a b) : b ∈ V.nodes := by
  induction h with
  | refl => exact ha
  | tail _ hup ih =>
    have hdir := hV.hasDir _ ih
    rw [show (V.node _).father = _ from hup] at hdir
    exact hdir.1

@[simp] theorem setFile_name (V : Volume) (id : Nat) (r : Store × File) (x : Nat) :
    ((V.setFile id r).node x).name = (V.node x).name := by
  by_cases hx : x = id
  · simp [Volume.setFile, hx]
  · simp [Volume.setFile, hx]

theorem lookup_setFile (V : Volume) (id : Nat) (r : Store × File) (d : Option Nat) (name : List Char) :
    (V.setFile id r).lookup d name = V.lookup d name := by
  simp only [Volume.lookup, (sameTree_setFile V id r).sonsOf, setFile_name]

theorem TreeInv.setFile (h : TreeInv V) (id : Nat) (r : Store × File) : TreeInv (V.setFile id r) := by
  have htree := sameTree_setFile V id r
  refine ⟨htree.treeOk h.tree, ?_, ?_, ?_⟩
  · intro x hx y hy hf hn
    rw [htree.father, htree.father] at hf
    rw [setFile_name, setFile_name] at hn
    exact h.unique x hx y hy hf hn
  · intro x hx
    rw [setFile_name]
    exact h.nonempty x hx
  · intro x hx
    simp only [htree.father]
    exact h.grounded x hx

theorem KeepsEntries.setFile {V' : Volume} {changed : Option Nat → List Char → Prop}
    (h : KeepsEntries V V' changed) (id : Nat) (r : Store × File) :
    KeepsEntries V (V'.setFile id r) changed := by
  intro d name hd hd' hchanged
  rw [lookup_setFile]
  exact h d name hd (((sameTree_setFile V' id r).hasDir d).mp hd') hchanged

theorem CreatesAt.setFile {V' : Volume} {pcName : List Char} {new : Nat}
    (h : CreatesAt V V' pcName new) (id : Nat) (r : Store × File) :
    CreatesAt V (V'.setFile id r) pcName new := by
  obtain ⟨d, hdir, hfree, hthere, hsons, hkeep⟩ := h
  refine ⟨d, hdir, hfree, ?_, ?_, hkeep.setFile id r⟩
  · rw [lookup_setFile]
    exact hthere
  · rw [(sameTree_setFile V' id r).sonsOf]
    exact hsons

section Maken

variable {pcName pcLink : List Char} {father : Option Nat} {kind : Kind} {new : Nat}

variable (pcLink kind) in
theorem TreeInv.maken (h : TreeInv V) (hf : V.HasDir father) (hnew : new ∉ V.nodes)
    (hfree : V.lookup father (fileName pcName) = none) (hname : fileName pcName ≠ []) :
    TreeInv (ramMaken V pcName father kind pcLink (some new)).2 := by
  have hold : ∀ x ∈ V.nodes, x ≠ new := fun x hx e => hnew (e ▸ hx)
  have hfree' := (h.lookup_eq_none hf).mp hfree
  have hground : ∀ x ∈ V.nodes,
      Grounded (fun a => ((ramMaken V pcName father kind pcLink (some new)).2.node a).father) x := by
    intro x hx
    apply (h.grounded x hx).congr
    intro b hb
    exact (ramMaken_old (hold b (h.tree.mem_above hx hb))).2.2.1
  refine ⟨h.tree.maken hf hnew, ?_, ?_, ?_⟩
  · intro x hx y hy hxy hn
    rw [ramMaken_nodes, List.mem_cons] at hx hy
    rcases hx with rfl | hx <;> rcases hy with rfl | hy
    · rfl
    · rw [ramMaken_new.2.2.1, (ramMaken_old (hold y hy)).2.2.1] at hxy
      rw [ramMaken_new.1, (ramMaken_old (hold y hy)).1] at hn
      exact absurd hn.symm (hfree' y hy hxy.symm)
    · rw [ramMaken_new.2.2.1, (ramMaken_old (hold x hx)).2.2.1] at hxy
      rw [ramMaken_new.1, (ramMaken_old (hold x hx)).1] at hn
      exact absurd hn (hfree' x hx hxy)
    · rw [(ramMaken_old (hold x hx)).2.2.1, (ramMaken_old (hold y hy)).2.2.1] at hxy
      rw [(ramMaken_old (hold x hx)).1, (ramMaken_old (hold y hy)).1] at hn
      exact h.unique x hx y hy hxy hn
  · intro x hx
    rw [ramMaken_nodes, List.mem_cons] at hx
    rcases hx with rfl | hx
    · rw [ramMaken_new.1]
      exact hname
    · rw [(ramMaken_old (hold x hx)).1]
      exact h.nonempty x hx
  · intro x hx
    rw [ramMaken_nodes, List.mem_cons] at hx
    rcases hx with rfl | hx
    · apply Grounded.intro
      intro b hb
      rw [ramMaken_new.2.2.1] at hb
      rw [hb] at hf
      exact hground b hf.1
    · exact hground x hx

variable (pcLink kind) in
theorem createsAt_maken (h : TreeInv V) (hnew : new ∉ V.nodes) (hdir : dirOf V pcName = some father)
    (hfree : V.lookup father (fileName pcName) = none) (hname : fileName pcName ≠ []) :
    CreatesAt V (ramMaken V pcName father kind pcLink (some new)).2 pcName new := by
  have hf : V.HasDir father := hasDir_resolveDirs h.tree _ (d := none) trivial hdir
  have h' := h.maken pcLink kind hf hnew hfree hname
  have hf' : (ramMaken V pcName father kind pcLink (some new)).2.HasDir father :=
    (ramMaken_hasDir hnew father).mpr (Or.inl hf)
  have hne : father ≠ some new := by
    rintro rfl
    exact hnew hf.1
  refine ⟨father, hdir, hfree, ?_, ?_, ?_⟩
  · apply (h'.lookup_eq_some hf').mpr
    exact ⟨by simp [ramMaken_nodes], ramMaken_new.2.2.1, ramMaken_new.1⟩
  · rw [ramMaken_sonsOf hne, if_neg hne.symm, if_pos rfl]
  · apply h.keepsEntries h'
    intro d name hchanged x
    rw [ramMaken_nodes, List.mem_cons]
    by_cases hx : x = new
    · subst hx
      rw [ramMaken_new.2.2.1, ramMaken_new.1]
      constructor
      · rintro ⟨-, rfl, rfl⟩
        exact absurd ⟨rfl, rfl⟩ hchanged
      · rintro ⟨hmem, -⟩
        exact absurd hmem hnew
    · rw [(ramMaken_old hx).2.2.1, (ramMaken_old hx).1]
      simp [hx]

end Maken

section Unlink

variable {id : Nat}

theorem ramUnlink_ok (hdel : ¬ ((V.node id).kind = .dir ∧ (V.node id).sons ≠ [])) :
    ramUnlink V id = (true, (ramUnlink V id).2) := by
  rw [← (ramUnlink_spec hdel).1]

theorem TreeInv.unlink (h : TreeInv V) (hid : id ∈ V.nodes) : TreeInv (ramUnlink V id).2 := by
  by_cases hdel : (V.node id).kind = .dir ∧ (V.node id).sons ≠ []
  · rw [ramUnlink_fail hdel]
    exact h
  obtain ⟨-, hnodes, -, hfather, -, hname, -, -⟩ := ramUnlink_spec hdel
  have hmem : ∀ x, x ∈ (ramUnlink V id).2.nodes → x ∈ V.nodes := by
    intro x hx
    rw [hnodes] at hx
    exact List.mem_of_mem_erase hx
  refine ⟨h.tree.unlink hid, ?_, ?_, ?_⟩
  · intro x hx y hy hf hn
    rw [hfather, hfather] at hf
    rw [hname, hname] at hn
    exact h.unique x (hmem x hx) y (hmem y hy) hf hn
  · intro x hx
    rw [hname]
    exact h.nonempty x (hmem x hx)
  · intro x hx
    simp only [hfather]
    exact h.grounded x (hmem x hx)

theorem removesEntry_unlink (h : TreeInv V) (hid : id ∈ V.nodes)
    (hdel : ¬ ((V.node id).kind = .dir ∧ (V.node id).sons ≠ [])) :
    RemovesEntry V (ramUnlink V id).2 id := by
  obtain ⟨-, hnodes, -, hfather, -, hname, -, -⟩ := ramUnlink_spec hdel
  have h' := h.unlink hid
  have hmem : ∀ x, x ∈ (ramUnlink V id).2.nodes ↔ x ≠ id ∧ x ∈ V.nodes := by
    intro x
    rw [hnodes, h.tree.nodup.mem_erase_iff]
  constructor
  · apply (h'.lookup_eq_none (hasDir_unlink h.tree hid hdel (h.tree.hasDir id hid) rfl)).mpr
    intro x hx hf hn
    rw [hfather] at hf
    rw [hname] at hn
    obtain ⟨hne, hx⟩ := (hmem x).mp hx
    exact hne (h.unique x hx id hid hf hn)
  · apply h.keepsEntries h'
    intro d name hchanged x
    rw [hmem, hfather, hname]
    constructor
    · rintro ⟨⟨-, hx⟩, hf, hn⟩
      exact ⟨hx, hf, hn⟩
    · rintro ⟨hx, hf, hn⟩
      refine ⟨⟨?_, hx⟩, hf, hn⟩
      rintro rfl
      exact hchanged ⟨hf.symm, hn.symm⟩

end Unlink

section Move

variable {id : Nat} {newFather : Option Nat} {name : List Char}

theorem moveCheck_eq_climb (pramn1 fuel pramn2 : Nat) :
    moveCheck V pramn1 fuel pramn2 = climb (fun a => (V.node a).father) pramn1 fuel pramn2 := by
  induction fuel generalizing pramn2 with
  | zero => rfl
  | succ fuel ih =>
    rw [moveCheck, climb]
    cases (V.node pramn2).father with
    | none => rfl
    | some father => simp only [ih]

theorem TreeInv.not_above (h : TreeInv V) {d : Nat} (hd : V.HasDir (some d))
    (hcheck : ¬ ((V.node id).kind = .dir ∧ moveCheck V id (V.nodes.length + 1) d = true)) :
    ¬ ReflTransGen (Up fun a => (V.node a).father) d id := by
  intro habove
  have hdir := (h.tree.hasDir_above hd habove).2
  have hfail : climb (fun a => (V.node a).father) id (V.nodes.length + 1) d = false := by
    rw [← moveCheck_eq_climb]
    exact eq_false_of_ne_true fun htrue => hcheck ⟨hdir, htrue⟩
  apply not_above_of_climb ?_ hd.1 (h.grounded d hd.1) hfail habove
  intro a ha b hb
  have hup := h.tree.hasDir a ha
  rw [show (V.node a).father = some b from hb] at hup
  exact hup.1

theorem TreeInv.relocate (h : TreeInv V) (hid : id ∈ V.nodes) (hf : V.HasDir newFather)
    (hup : ∀ b, newFather = some b → ¬ ReflTransGen (Up fun a => (V.node a).father) b id)
    (hfree : V.lookup newFather name = none) (hname : name ≠ []) :
    TreeInv (relocate V id newFather name) := by
  obtain ⟨hnodes, -, -, hfather, -, hname', -⟩ := relocate_spec V _ _ _
  have hfree' := (h.lookup_eq_none hf).mp hfree
  refine ⟨h.tree.relocate hid hf, ?_, ?_, ?_⟩
  · intro x hx y hy hxy hn
    rw [hnodes] at hx hy
    rw [hfather, hfather] at hxy
    rw [hname', hname'] at hn
    by_cases hxi : x = id <;> by_cases hyi : y = id
    · rw [hxi, hyi]
    · rw [if_pos hxi, if_neg hyi] at hxy hn
      exact absurd hn.symm (hfree' y hy hxy.symm)
    · rw [if_neg hxi, if_pos hyi] at hxy hn
      exact absurd hn (hfree' x hx hxy)
    · rw [if_neg hxi, if_neg hyi] at hxy hn
      exact h.unique x hx y hy hxy hn
  · intro x hx
    rw [hnodes] at hx
    rw [hname']
    split
    · exact hname
    · exact h.nonempty x hx
  · intro x hx
    rw [hnodes] at hx
    apply Grounded.reparent (x := id) ?_ ?_ (h.grounded x hx)
    · intro b hb
      rw [hfather, if_neg hb]
    · intro b hb
      rw [hfather, if_pos rfl] at hb
      rw [hb] at hf
      exact ⟨h.grounded b hf.1, hup b hb⟩

theorem TreeInv.renamesTo {V' : Volume} (h : TreeInv V) (h' : TreeInv V') {pcNewName : List Char}
    {d : Option Nat} (hdir : dirOf V pcNewName = some d) (hid : id ∈ V.nodes)
    (hd' : V'.HasDir d) (hold : V'.HasDir (V.node id).father)
    (hmem : ∀ x, x ∈ V'.nodes ↔ x ∈ V.nodes ∧ (x = id ∨ V.lookup d (fileName pcNewName) ≠ some x))
    (hfather : ∀ x, (V'.node x).father = if x = id then d else (V.node x).father)
    (hname : ∀ x, (V'.node x).name = if x = id then fileName pcNewName else (V.node x).name) :
    RenamesTo V V' pcNewName id := by
  have hd : V.HasDir d := hasDir_resolveDirs h.tree _ (d := none) trivial hdir
  refine ⟨d, hdir, ?_, ?_, ?_⟩
  · apply (h'.lookup_eq_some hd').mpr
    rw [hfather, hname, if_pos rfl, if_pos rfl]
    exact ⟨(hmem id).mpr ⟨hid, Or.inl rfl⟩, rfl, rfl⟩
  · intro hother
    apply (h'.lookup_eq_none hold).mpr
    intro x hx hf hn
    rw [hfather] at hf
    rw [hname] at hn
    by_cases hxi : x = id
    · rw [if_pos hxi] at hf hn
      exact hother ⟨hf.symm, hn.symm⟩
    · rw [if_neg hxi] at hf hn
      exact hxi (h.unique x ((hmem x).mp hx).1 id hid hf hn)
  · apply h.keepsEntries h'
    intro d' n hchanged x
    rw [hmem, hfather, hname]
    by_cases hxi : x = id
    · subst hxi
      rw [if_pos rfl, if_pos rfl]
      constructor
      · rintro ⟨-, rfl, rfl⟩
        exact absurd (Or.inl ⟨rfl, rfl⟩) hchanged
      · rintro ⟨-, rfl, rfl⟩
        exact absurd (Or.inr ⟨rfl, rfl⟩) hchanged
    · rw [if_neg hxi, if_neg hxi]
      constructor
      · rintro ⟨⟨hx, -⟩, hf, hn⟩
        exact ⟨hx, hf, hn⟩
      · rintro ⟨hx, hf, hn⟩
        refine ⟨⟨hx, Or.inr ?_⟩, hf, hn⟩
        intro hfind
        obtain ⟨-, hf', hn'⟩ := (h.lookup_eq_some hd).mp hfind
        exact hchanged (Or.inl ⟨hf.symm.trans hf', hn.symm.trans hn'⟩)

theorem TreeInv.move_free (h : TreeInv V) {pcNewName : List Char} {d : Option Nat}
    (hdir : dirOf V pcNewName = some d) (hid : id ∈ V.nodes)
    (hfree : V.lookup d (fileName pcNewName) = none) (hname : fileName pcNewName ≠ [])
    (hup : ∀ b, d = some b → ¬ ReflTransGen (Up fun a => (V.node a).father) b id) :
    TreeInv (RamFs.relocate V id d (fileName pcNewName)) ∧
      RenamesTo V (RamFs.relocate V id d (fileName pcNewName)) pcNewName id := by
  have hd : V.HasDir d := hasDir_resolveDirs h.tree _ (d := none) trivial hdir
  have h' := h.relocate hid hd hup hfree hname
  obtain ⟨hnodes, -, -, hfather, hkind, hname', -⟩ := relocate_spec V _ _ _
  have hsame : ∀ d', V.HasDir d' → (RamFs.relocate V id d (fileName pcNewName)).HasDir d' := by
    intro d' hd'
    cases d' with
    | none => trivial
    | some d' =>
      refine ⟨?_, (hkind d').trans hd'.2⟩
      rw [hnodes]
      exact hd'.1
  refine ⟨h', h.renamesTo h' hdir hid (hsame d hd) (hsame _ (h.tree.hasDir id hid)) ?_ hfather hname'⟩
  intro x
  rw [hnodes, hfree]
  simp

theorem TreeInv.move_over (h : TreeInv V) {pcNewName : List Char} {d : Option Nat} {temp : Nat}
    (hdir : dirOf V pcNewName = some d) (hid : id ∈ V.nodes) (hne : temp ≠ id)
    (hfind : V.lookup d (fileName pcNewName) = some temp)
    (hdel : ¬ ((V.node temp).kind = .dir ∧ (V.node temp).sons ≠ []))
    (hup : ∀ b, d = some b → ¬ ReflTransGen (Up fun a => (V.node a).father) b id) :
    TreeInv (RamFs.relocate (ramUnlink V temp).2 id d (fileName pcNewName)) ∧
      RenamesTo V (RamFs.relocate (ramUnlink V temp).2 id d (fileName pcNewName)) pcNewName id := by
  have hd : V.HasDir d := hasDir_resolveDirs h.tree _ (d := none) trivial hdir
  obtain ⟨htemp, hfather, hname⟩ := (h.lookup_eq_some hd).mp hfind
  obtain ⟨-, hnodes₁, -, hfather₁, hkind₁, hname₁, -, -⟩ := ramUnlink_spec hdel
  have h₁ := h.unlink htemp
  have hmem₁ : ∀ x, x ∈ (ramUnlink V temp).2.nodes ↔ x ≠ temp ∧ x ∈ V.nodes := by
    intro x
    rw [hnodes₁, h.tree.nodup.mem_erase_iff]
  have hdir₁ : (ramUnlink V temp).2.HasDir d := hasDir_unlink h.tree htemp hdel hd hfather
  have hfree₁ : (ramUnlink V temp).2.lookup d (fileName pcNewName) = none := by
    have hrem := (removesEntry_unlink h htemp hdel).1
    rw [hfather, hname] at hrem
    exact hrem
  have hup₁ : ∀ b, d = some b →
      ¬ ReflTransGen (Up fun a => ((ramUnlink V temp).2.node a).father) b id := by
    simp only [hfather₁]
    exact hup
  have hid₁ : id ∈ (ramUnlink V temp).2.nodes := (hmem₁ id).mpr ⟨hne.symm, hid⟩
  have hname' : fileName pcNewName ≠ [] := by
    rw [← hname]
    exact h.nonempty temp htemp
  have h' := h₁.relocate hid₁ hdir₁ hup₁ hfree₁ hname'
  obtain ⟨hnodes₂, -, -, hfather₂, hkind₂, hname₂, -⟩ := relocate_spec (ramUnlink V temp).2 _ _ _
  have hsame : ∀ d', (ramUnlink V temp).2.HasDir d' →
      (RamFs.relocate (ramUnlink V temp).2 id d (fileName pcNewName)).HasDir d' := by
    intro d' hd'
    cases d' with
    | none => trivial
    | some d' =>
      refine ⟨?_, (hkind₂ d').trans hd'.2⟩
      rw [hnodes₂]
      exact hd'.1
  have hold : (ramUnlink V temp).2.HasDir (V.node id).father := by
    rw [← hfather₁]
    exact h₁.tree.hasDir id hid₁
  refine ⟨h', h.renamesTo h' hdir hid (hsame d hdir₁) (hsame _ hold) ?_ ?_ ?_⟩
  · intro x
    rw [hnodes₂, hmem₁, hfind]
    constructor
    · rintro ⟨hxt, hx⟩
      exact ⟨hx, Or.inr fun e => hxt (Option.some.inj e).symm⟩
    · rintro ⟨hx, rfl | hxt⟩
      · exact ⟨hne.symm, hx⟩
      · exact ⟨fun e => hxt (congrArg some e.symm), hx⟩
  · intro x
    rw [hfather₂, hfather₁]
  · intro x
    rw [hname₂, hname₁]

end Move

theorem TreeInv.open_old (h : TreeInv V) (pramn : Option Nat) (iFlags : OpenFlags) (bFdNode : Bool) :
    TreeInv (fileOpenOk c V pramn iFlags false bFdNode).2 ∧
      KeepsEntries V (fileOpenOk c V pramn iFlags false bFdNode).2 (fun _ _ => False) ∧
      ∀ id, (fileOpenOk c V pramn iFlags false bFdNode).1 ≠ .fdNode (some id) true := by
  have hkeep := keepsEntries_refl V fun _ _ => False
  unfold fileOpenOk
  split
  · cases pramn with
    | none => exact ⟨h, hkeep, fun _ e => nomatch e⟩
    | some id => exact ⟨h, hkeep, fun _ e => nomatch e⟩
  · cases pramn with
    | none => exact ⟨h, hkeep, fun _ e => nomatch e⟩
    | some id =>
      dsimp only
      split
      · exact ⟨h.setFile id _, hkeep.setFile id _, fun _ e => nomatch e⟩
      · exact ⟨h, hkeep, fun _ e => nomatch e⟩

section New

variable {pcName pcLink : List Char} {father : Option Nat} {kind : Kind} {new : Nat}

theorem keepsEntries_maken_unlink (h : TreeInv V) (hf : V.HasDir father) (hnew : new ∉ V.nodes)
    (hfree : V.lookup father (fileName pcName) = none) (hname : fileName pcName ≠ []) :
    TreeInv (ramUnlink (ramMaken V pcName father kind pcLink (some new)).2 new).2 ∧
      KeepsEntries V (ramUnlink (ramMaken V pcName father kind pcLink (some new)).2 new).2
        fun _ _ => False := by
  have hne : father ≠ some new := by
    rintro rfl
    exact hnew hf.1
  have hmem : new ∈ (ramMaken V pcName father kind pcLink (some new)).2.nodes := by
    rw [ramMaken_nodes]
    exact List.mem_cons_self
  have hdel : ¬ (((ramMaken V pcName father kind pcLink (some new)).2.node new).kind = .dir ∧
      ((ramMaken V pcName father kind pcLink (some new)).2.node new).sons ≠ []) := by
    rintro ⟨-, hsons⟩
    apply hsons
    have hnone : (ramMaken V pcName father kind pcLink (some new)).2.sonsOf (some new) = [] := by
      rw [ramMaken_sonsOf hne, if_neg hne.symm, if_pos rfl]
    exact hnone
  have h' := (h.maken _ _ hf hnew hfree hname).unlink hmem
  refine ⟨h', ?_⟩
  obtain ⟨-, hnodes, -, hfather, -, hname', -, -⟩ := ramUnlink_spec hdel
  apply h.keepsEntries h'
  intro d name _ x
  rw [hnodes, ramMaken_nodes, List.erase_cons_head, hfather, hname']
  by_cases hx : x = new
  · subst hx
    simp [hnew]
  · rw [(ramMaken_old hx).2.2.1, (ramMaken_old hx).1]

theorem TreeInv.open_new (h : TreeInv V) (hnew : new ∉ V.nodes) (hdir : dirOf V pcName = some father)
    (hfree : V.lookup father (fileName pcName) = none) (hname : fileName pcName ≠ [])
    (iFlags : OpenFlags) (bFdNode : Bool) :
    TreeInv (fileOpenOk c (ramMaken V pcName father kind pcLink (some new)).2 (some new) iFlags true
        bFdNode).2 ∧
      match fileOpenOk c (ramMaken V pcName father kind pcLink (some new)).2 (some new) iFlags true
          bFdNode with
      | (.fdNode (some id) true, V') => CreatesAt V V' pcName id
      | (_, V') => KeepsEntries V V' fun _ _ => False := by
  have hf : V.HasDir father := hasDir_resolveDirs h.tree _ (d := none) trivial hdir
  have h₁ := h.maken pcLink kind hf hnew hfree hname
  have hcreate := createsAt_maken pcLink kind h hnew hdir hfree hname
  unfold fileOpenOk
  split
  · exact keepsEntries_maken_unlink h hf hnew hfree hname
  · dsimp only
    split
    · exact ⟨h₁.setFile new _, hcreate.setFile new _⟩
    · exact ⟨h₁, hcreate⟩

end New

theorem fileName_of_check {pcName : List Char} (h : fsCheckFileName pcName) : fileName pcName ≠ [] := by
  have hcheck := (of_decide_eq_true h).1
  split at hcheck
  · exact hcheck.1
  · rename_i hdiv
    rw [fileName, List.splitOn_eq_singleton hdiv]
    exact hcheck

theorem TreeInv.step_open (h : TreeInv V) (pcName : List Char) (iFlags : OpenFlags) (iMode : OpenMode)
    {new : Option Nat} (hnew : ∀ i, new = some i → i ∉ V.nodes) (bFdNode : Bool) :
    TreeInv (ramFsOpen c V pcName iFlags iMode new bFdNode).2 ∧
      StepRight c V (.open pcName iFlags iMode new bFdNode) := by
  have hkeep := keepsEntries_refl V fun _ _ => False
  have hold : ∀ pramn, TreeInv (fileOpenOk c V pramn iFlags false bFdNode).2 ∧
      match fileOpenOk c V pramn iFlags false bFdNode with
      | (.fdNode (some id) true, V') => CreatesAt V V' pcName id
      | (_, V') => KeepsEntries V V' fun _ _ => False := by
    intro pramn
    obtain ⟨hinv, hsame, hno⟩ := h.open_old c pramn iFlags bFdNode
    refine ⟨hinv, ?_⟩
    split
    · rename_i id V' heq
      exact absurd (congrArg Prod.fst heq) (hno id)
    · rename_i heq
      rw [heq] at hsame
      exact hsame
  simp only [StepRight, ramFsOpen]
  split
  · exact ⟨h, hkeep⟩
  split
  · exact ⟨h, hkeep⟩
  rename_i hcheck _
  have hres := ramOpen_resolves V pcName
  generalize ramOpen V pcName = opened at hres
  cases hres with
  | root hroot =>
    simp only [Bool.false_eq_true, and_false, if_false, if_true]
    exact hold none
  | missing d hdir hfind =>
    dsimp only
    split
    · rename_i hcreat
      have hname : fileName pcName ≠ [] := by
        apply fileName_of_check
        by_contra hbad
        exact hcheck ⟨hcreat.1, hbad⟩
      cases hn : new with
      | none => exact ⟨h, hkeep⟩
      | some i => exact h.open_new c (hnew i hn) hdir hfind hname iFlags bFdNode
    · exact ⟨h, hkeep⟩
  | found d id hdir hfind =>
    dsimp only
    split
    · exact ⟨h, hkeep⟩
    split
    · exact ⟨h, hkeep⟩
    split
    · exact ⟨h, hkeep⟩
    exact hold (some id)
  | noDir father hdir =>
    simp only [Bool.false_eq_true, and_false, if_false]
    exact ⟨h, hkeep⟩
  | link id father tail hdir hkind htail =>
    simp only [if_pos hkind]
    exact ⟨h, hkeep⟩

theorem TreeInv.step_symlink (h : TreeInv V) (pcName pcLinkDst : List Char) {new : Option Nat}
    (hnew : ∀ i, new = some i → i ∉ V.nodes) :
    (PathOk V (.symlink pcName pcLinkDst new) →
      TreeInv (ramFsSymlink V pcName pcLinkDst new).2 ∧
        StepRight c V (.symlink pcName pcLinkDst new)) ∧
      (StepRight c V (.symlink pcName pcLinkDst new) → PathOk V (.symlink pcName pcLinkDst new)) := by
  have hkeep := keepsEntries_refl V fun _ _ => False
  simp only [StepRight, ramFsSymlink, PathOk]
  by_cases hcheck : fsCheckFileName pcName
  swap
  · simp only [hcheck]
    exact ⟨fun _ => ⟨h, hkeep⟩, fun _ hbad => nomatch hbad⟩
  have hname := fileName_of_check hcheck
  have hres := ramOpen_resolves V pcName
  generalize ramOpen V pcName = opened at hres
  rw [if_neg (not_not_intro hcheck)]
  cases hres with
  | root hroot =>
    rcases hroot with rfl | rfl
    · exact absurd rfl hname
    · exact absurd rfl hname
  | missing d hdir hfind =>
    refine ⟨fun _ => ?_, fun _ _ _ _ => rfl⟩
    cases hn : new with
    | none => exact ⟨h, hkeep⟩
    | some i =>
      have hf : V.HasDir d := hasDir_resolveDirs h.tree _ (d := none) trivial hdir
      exact ⟨h.maken _ _ hf (hnew i hn) hfind hname, createsAt_maken _ _ h (hnew i hn) hdir hfind hname⟩
  | found d id hdir hfind => exact ⟨fun _ => ⟨h, hkeep⟩, fun _ _ _ hnone => nomatch hnone⟩
  | noDir father hdir =>
    cases hn : new with
    | none => exact ⟨fun _ => ⟨h, hkeep⟩, fun _ _ hsome => absurd rfl hsome⟩
    | some i =>
      constructor
      · intro hok
        exact absurd (hok hcheck (by simp) rfl) (by simp)
      · rintro ⟨d, hdir', -⟩
        rw [hdir] at hdir'
        cases hdir'
  | link id father tail hdir hkind htail =>
    exact ⟨fun _ => ⟨h, hkeep⟩, fun _ _ _ hnone => nomatch hnone⟩

theorem TreeInv.step_unlink (h : TreeInv V) {id : Nat} (hid : id ∈ V.nodes) :
    TreeInv (ramUnlink V id).2 ∧ StepRight c V (.unlink id) := by
  refine ⟨h.unlink hid, ?_⟩
  simp only [StepRight]
  by_cases hdel : (V.node id).kind = .dir ∧ (V.node id).sons ≠ []
  · rw [ramUnlink_fail hdel]
    exact keepsEntries_refl V _
  · rw [ramUnlink_ok hdel]
    exact removesEntry_unlink h hid hdel

section Move

variable {id : Nat} {pcNewName : List Char} {d : Option Nat} {temp : Nat}

attribute [local simp] StepRight

theorem TreeInv.not_above_of_check (h : TreeInv V) (hdir : dirOf V pcNewName = some d)
    (hcheck : ¬ ((V.node id).kind = .dir ∧
      (d.any fun newFather => moveCheck V id (V.nodes.length + 1) newFather))) :
    ∀ b, d = some b → ¬ ReflTransGen (Up fun a => (V.node a).father) b id := by
  rintro b rfl
  exact h.not_above (hasDir_resolveDirs h.tree _ (d := none) trivial hdir) hcheck

theorem TreeInv.step_move_missing (h : TreeInv V) (hid : id ∈ V.nodes)
    (hdir : dirOf V pcNewName = some d) (hfind : V.lookup d (fileName pcNewName) = none)
    (hopen : ramOpen V pcNewName = ⟨none, d, false, true, []⟩) (bAlloc : Bool) :
    (PathOk V (.move id pcNewName bAlloc) →
      TreeInv (ramMove V id pcNewName bAlloc).2 ∧ StepRight c V (.move id pcNewName bAlloc)) ∧
      (StepRight c V (.move id pcNewName bAlloc) → TreeRight (ramMove V id pcNewName bAlloc).2 →
        PathOk V (.move id pcNewName bAlloc)) := by
  have hkeep := keepsEntries_refl V fun _ _ => False
  simp only [StepRight, ramMove, PathOk, hopen]
  simp only [Bool.false_eq_true, not_true_eq_false, or_self, and_false, if_false, reduceCtorEq,
    ne_eq, IsEmpty.forall_iff, true_and, forall_true_left]
  by_cases hcheck : (V.node id).kind = .dir ∧
      (d.any fun newFather => moveCheck V id (V.nodes.length + 1) newFather)
  · simp only [if_pos hcheck]
    exact ⟨fun _ => ⟨h, hkeep⟩, fun _ _ _ => Or.inr hcheck⟩
  simp only [if_neg hcheck]
  cases bAlloc with
  | false => exact ⟨fun _ => ⟨h, hkeep⟩, fun _ _ _ => Or.inl (by simp)⟩
  | true =>
    simp only [not_true_eq_false, if_false, false_or]
    constructor
    · intro hok
      have hname : fileName pcNewName ≠ [] := fun e => hcheck (hok e)
      exact h.move_free hdir hid hfind hname (h.not_above_of_check hdir hcheck)
    · intro _ hright hname
      have hspec := relocate_spec V id d (fileName pcNewName)
      have hbad := hright.nonempty id (by rw [hspec.1]; exact hid)
      rw [hspec.2.2.2.2.2.1, if_pos rfl] at hbad
      exact absurd hname hbad

theorem TreeInv.step_move_found (h : TreeInv V) (hid : id ∈ V.nodes)
    (hdir : dirOf V pcNewName = some d) (hfind : V.lookup d (fileName pcNewName) = some temp)
    (hopen : ramOpen V pcNewName = ⟨some temp, (V.node temp).father, false, false, []⟩)
    (bAlloc : Bool) :
    TreeInv (ramMove V id pcNewName bAlloc).2 ∧ StepRight c V (.move id pcNewName bAlloc) := by
  have hkeep := keepsEntries_refl V fun _ _ => False
  have hd : V.HasDir d := hasDir_resolveDirs h.tree _ (d := none) trivial hdir
  obtain ⟨htemp, hfather, hname⟩ := (h.lookup_eq_some hd).mp hfind
  simp only [StepRight, ramMove, hopen, hfather]
  simp only [reduceCtorEq, Bool.false_eq_true, not_false_eq_true, or_true, and_true, if_false]
  split
  · rename_i heq
    cases heq
    refine ⟨h, d, hdir, hfind, ?_, keepsEntries_refl V _⟩
    intro hother
    exact absurd ⟨hfather, hname⟩ hother
  rename_i hne
  split
  · exact ⟨h, hkeep⟩
  rename_i hcheck
  split
  · exact ⟨h, hkeep⟩
  split
  · exact ⟨h, hkeep⟩
  split
  · exact ⟨h, hkeep⟩
  by_cases hdel : (V.node temp).kind = .dir ∧ (V.node temp).sons ≠ []
  · rw [ramUnlink_fail hdel]
    exact ⟨h, hkeep⟩
  · have hne' : temp ≠ id := fun e => hne (congrArg some e)
    rw [ramUnlink_ok hdel]
    exact h.move_over hdir hid hne' hfind hdel (h.not_above_of_check hdir hcheck)

variable (id) in
theorem TreeInv.step_move_link (h : TreeInv V) {father : Option Nat} {tail : List (List Char)}
    (hdir : dirOf V pcNewName = none) (hkind : (V.node temp).kind = .lnk) (htail : tail ≠ [])
    (hopen : ramOpen V pcNewName = ⟨some temp, father, false, false, tail⟩) (bAlloc : Bool) :
    (PathOk V (.move id pcNewName bAlloc) →
      TreeInv (ramMove V id pcNewName bAlloc).2 ∧ StepRight c V (.move id pcNewName bAlloc)) ∧
      (StepRight c V (.move id pcNewName bAlloc) → PathOk V (.move id pcNewName bAlloc)) := by
  have hkeep := keepsEntries_refl V fun _ _ => False
  have hno : ∀ V', ¬ RenamesTo V V' pcNewName id := by
    rintro V' ⟨d, hdir', -⟩
    rw [hdir] at hdir'
    cases hdir'
  simp only [StepRight, ramMove, PathOk, hopen]
  simp only [reduceCtorEq, Bool.false_eq_true, not_false_eq_true, or_true, and_true, if_false,
    ne_eq, htail, forall_true_left, IsEmpty.forall_iff]
  by_cases hself : temp = id
  · have hfile : (V.node id).kind ≠ .dir := by
      rw [← hself, hkind]
      simp
    simp only [hself, if_true]
    exact ⟨fun hok => absurd hok (by simp [hfile]), fun hbad => absurd hbad (hno V)⟩
  have hne : ¬ some temp = some id := fun e => hself (Option.some.inj e)
  simp only [if_neg hne]
  by_cases hfile : (V.node id).kind = .dir
  · refine ⟨fun _ => ?_, fun _ => Or.inl hfile⟩
    split
    · exact ⟨h, hkeep⟩
    split
    · exact ⟨h, hkeep⟩
    simp only [hfile, hkind]
    exact ⟨h, hkeep⟩
  · have hcheck : ¬ ((V.node id).kind = .dir ∧
        (father.any fun newFather => moveCheck V id (V.nodes.length + 1) newFather)) :=
      fun hc => hfile hc.1
    simp only [if_neg hcheck]
    cases bAlloc with
    | false => exact ⟨fun _ => ⟨h, hkeep⟩, fun _ => Or.inr ⟨hne, by simp⟩⟩
    | true =>
      have hdel : ¬ ((V.node temp).kind = .dir ∧ (V.node temp).sons ≠ []) := by
        rw [hkind]
        simp
      simp only [hkind, hfile, not_true_eq_false, if_false, reduceCtorEq, and_false, false_and,
        false_or]
      rw [ramUnlink_ok hdel]
      exact ⟨fun hok => hok.elim, fun hbad => absurd hbad (hno _)⟩

theorem TreeInv.step_move (h : TreeInv V) (hid : id ∈ V.nodes) (pcNewName : List Char)
    (bAlloc : Bool) :
    (PathOk V (.move id pcNewName bAlloc) →
      TreeInv (ramMove V id pcNewName bAlloc).2 ∧ StepRight c V (.move id pcNewName bAlloc)) ∧
      (StepRight c V (.move id pcNewName bAlloc) → TreeRight (ramMove V id pcNewName bAlloc).2 →
        PathOk V (.move id pcNewName bAlloc)) := by
  have hkeep := keepsEntries_refl V fun _ _ => False
  have hfail : ∀ opened, ramOpen V pcNewName = opened → opened.node = none → opened.bLast = false →
      opened.tail = [] → PathOk V (.move id pcNewName bAlloc) ∧
        TreeInv (ramMove V id pcNewName bAlloc).2 ∧ StepRight c V (.move id pcNewName bAlloc) := by
    intro opened hopen hnode hlast htail
    simp only [StepRight, ramMove, PathOk, hopen, hnode, hlast, htail]
    simp [h, hkeep]
  have hres := ramOpen_resolves V pcNewName
  generalize hopen : ramOpen V pcNewName = opened at hres
  cases hres with
  | root hroot =>
    have hgood := hfail _ hopen rfl rfl rfl
    exact ⟨fun _ => hgood.2, fun _ _ => hgood.1⟩
  | missing d hdir hfind => exact h.step_move_missing c hid hdir hfind hopen bAlloc
  | found d temp hdir hfind =>
    refine ⟨fun _ => h.step_move_found c hid hdir hfind hopen bAlloc, fun _ _ => ?_⟩
    simp only [PathOk, hopen]
    simp
  | noDir father hdir =>
    have hgood := hfail _ hopen rfl rfl rfl
    exact ⟨fun _ => hgood.2, fun _ _ => hgood.1⟩
  | link temp father tail hdir hkind htail =>
    have hlink := h.step_move_link c id hdir hkind htail hopen bAlloc
    exact ⟨hlink.1, fun hstep _ => hlink.2 hstep⟩

end Move

theorem TreeInv.step_iff (h : TreeInv V) {op : TreeOp} (hlegal : TreeLegal V op) :
    (PathOk V op → TreeInv (treeApply c V op)) ∧
      (StepRight c V op ∧ TreeRight (treeApply c V op) ↔ PathOk V op) := by
  cases op with
  | «open» pcName iFlags iMode new bFdNode =>
    have hstep := h.step_open c pcName iFlags iMode hlegal bFdNode
    exact ⟨fun _ => hstep.1, fun _ => trivial, fun _ => ⟨hstep.2, hstep.1.treeRight⟩⟩
  | symlink pcName pcLinkDst new =>
    have hstep := h.step_symlink c pcName pcLinkDst hlegal
    exact ⟨fun hok => (hstep.1 hok).1, fun hright => hstep.2 hright.1,
      fun hok => ⟨(hstep.1 hok).2, (hstep.1 hok).1.treeRight⟩⟩
  | unlink id =>
    have hstep := h.step_unlink c hlegal
    exact ⟨fun _ => hstep.1, fun _ => trivial, fun _ => ⟨hstep.2, hstep.1.treeRight⟩⟩
  | move id pcNewName bAlloc =>
    have hstep := h.step_move c hlegal pcNewName bAlloc
    exact ⟨fun hok => (hstep.1 hok).1, fun hright => hstep.2 hright.1 hright.2,
      fun hok => ⟨(hstep.1 hok).2, (hstep.1 hok).1.treeRight⟩⟩

def PathsRight (V : Volume) (ops : List TreeOp) : Prop :=
  TreeRight V ∧ EachTreeStep c (fun V op => StepRight c V op ∧ TreeRight (treeApply c V op)) V ops

theorem TreeInv.run_iff (h : TreeInv V) (ops : List TreeOp) (hlegal : EachTreeStep c TreeLegal V ops) :
    PathsRight c V ops ↔ EachTreeStep c PathOk V ops := by
  rw [PathsRight, and_iff_right h.treeRight]
  induction ops generalizing V with
  | nil => exact Iff.rfl
  | cons op ops ih =>
    obtain ⟨hkeep, hstep⟩ := h.step_iff c hlegal.1
    constructor
    · rintro ⟨hright, hrest⟩
      have hok := hstep.mp hright
      exact ⟨hok, (ih (hkeep hok) hlegal.2).mp hrest⟩
    · rintro ⟨hok, hrest⟩
      exact ⟨hstep.mpr hok, (ih (hkeep hok) hlegal.2).mpr hrest⟩

theorem treeInv_mounted (maxBlk : Nat) : TreeInv (mounted maxBlk) where
  tree := treeOk_mounted maxBlk
  unique := fun _ hx => nomatch hx
  nonempty := fun _ hx => nomatch hx
  grounded := fun _ hx => nomatch hx

/-- Over every sequence of calls on a new volume, the directory tree is a map from paths to nodes
and each call affects the entry its path names exactly if every call is in order. -/
theorem ram_paths_iff (c : Config) (maxBlk : Nat) (ops : List TreeOp)
    (hlegal : EachTreeStep c TreeLegal (mounted maxBlk) ops) :
    PathsRight c (mounted maxBlk) ops ↔ EachTreeStep c PathOk (mounted maxBlk) ops :=
  (treeInv_mounted maxBlk).run_iff c ops hlegal

/-! A directory `d`, a link `l` to it and a file `f` that is renamed. -/

def creatExcl : OpenFlags := ⟨true, true, false, false, true⟩

def renameRun (pcNewName : List Char) : List TreeOp :=
  [.open "/d".toList creatExcl .dir (some 0) true, .symlink "/l".toList "d".toList (some 1),
    .open "/f".toList creatExcl .reg (some 2) true, .move 2 pcNewName true]

theorem legal_renameRun (pcNewName : List Char) :
    EachTreeStep pageConfig TreeLegal (mounted 100) (renameRun pcNewName) := by
  refine ⟨?_, ?_, ?_, ?_, trivial⟩
  · rintro i ⟨⟩
    decide +kernel
  · rintro i ⟨⟩
    decide +kernel
  · rintro i ⟨⟩
    decide +kernel
  · change 2 ∈ _
    decide +kernel

/-- The file becomes `d/g`. -/
theorem ram_paths_iff_into_dir :
    PathsRight pageConfig (mounted 100) (renameRun "/d/g".toList) := by
  apply (ram_paths_iff pageConfig 100 _ (legal_renameRun _)).mpr
  refine ⟨trivial, ?_, trivial, ⟨?_, ?_⟩, trivial⟩
  · intro _ _ _
    decide +kernel
  · intro htail
    exact absurd (by decide +kernel) htail
  · intro _ hname
    exact absurd hname (by decide +kernel)

/-- The new name leads through the link: the link is deleted and the file becomes `g` beside it. -/
theorem ram_move_deletes_link :
    EachTreeStep pageConfig TreeLegal (mounted 100) (renameRun "/l/g".toList) ∧
      ¬ PathsRight pageConfig (mounted 100) (renameRun "/l/g".toList) := by
  refine ⟨legal_renameRun _, ?_⟩
  intro hright
  obtain ⟨-, -, -, hmove, -⟩ :=
    ((treeInv_mounted 100).run_iff pageConfig _ (legal_renameRun _)).mp hright
  rcases hmove.1 (by decide +kernel) with hdir | ⟨-, halloc⟩
  · revert hdir
    decide +kernel
  · exact halloc rfl

end SylixOS.RamFs
