import Libchop.Backup.Directory

/-!
# File trees and `file-system-fold`

The part of the file system that is backed up, as a tree, and the fold of `(ice-9 ftw)` over it:
the files of a directory are visited in the order of `readdir`, then its sub-directories in the
opposite order.  A directory seen before is not visited again.
-/

namespace Libchop

structure FileId where
  ino : Nat
  dev : Nat
deriving DecidableEq, Repr

structure FileMeta where
  id : FileId
  mtime : Int
  perms : Nat
deriving DecidableEq, Repr

/-- A file with its data, which is the target of a symbolic link, or a directory. -/
inductive FileTree where
  | leaf (kind : FileKind) (info : FileMeta) (data : Bytes)
  | directory (info : FileMeta) (size : Nat) (entries : List (String × FileTree))

def FileTree.isDirectory : FileTree → Bool
  | .leaf _ _ _ => false
  | .directory _ _ _ => true

/-- One tree is another one or lies below it. -/
inductive FileTree.Contains : FileTree → FileTree → Prop where
  | refl (tree : FileTree) : Contains tree tree
  | entry {info : FileMeta} {size : Nat} {entries : List (String × FileTree)} {name : String}
      {sub inner : FileTree} (hmem : (name, sub) ∈ entries) (h : Contains sub inner) :
      Contains (.directory info size entries) inner

/-- Directories are nested less deep than the given number. -/
def FileTree.Within : Nat → FileTree → Prop
  | 0, _ => False
  | _ + 1, .leaf _ _ _ => True
  | depth + 1, .directory _ _ entries => ∀ e ∈ entries, e.2.Within depth

theorem FileTree.Within.mono {depth depth' : Nat} {tree : FileTree} (h : tree.Within depth)
    (hle : depth ≤ depth') : tree.Within depth' := by
  induction depth generalizing depth' tree with
  | zero => exact h.elim
  | succ depth ih =>
    cases depth' with
    | zero => exact (Nat.not_succ_le_zero _ hle).elim
    | succ depth' =>
      cases tree with
      | leaf kind info data => trivial
      | directory info size entries =>
        intro e hmem
        exact ih (h e hmem) (Nat.le_of_succ_le_succ hle)

/-- The trees of a list have a common depth if each has one. -/
theorem FileTree.exists_within_list {entries : List (String × FileTree)}
    (h : ∀ e ∈ entries, ∃ depth, e.2.Within depth) :
    ∃ depth, ∀ e ∈ entries, e.2.Within depth := by
  induction entries with
  | nil => exact ⟨0, fun _ hmem => by cases hmem⟩
  | cons e entries ih =>
    obtain ⟨depth, hdepth⟩ := h e List.mem_cons_self
    obtain ⟨depth', hdepth'⟩ := ih fun e' hmem => h e' (List.mem_cons_of_mem e hmem)
    refine ⟨max depth depth', ?_⟩
    intro e' hmem
    cases hmem with
    | head => exact hdepth.mono (Nat.le_max_left _ _)
    | tail _ hmem => exact (hdepth' e' hmem).mono (Nat.le_max_right _ _)

/-- Every tree is finite. -/
theorem FileTree.exists_within : ∀ tree : FileTree, ∃ depth, tree.Within depth
  | .leaf _ _ _ => ⟨1, trivial⟩
  | .directory info size entries => by
    have hentries : ∀ e ∈ entries, ∃ depth, e.2.Within depth := by
      intro e hmem
      exact FileTree.exists_within e.2
    obtain ⟨depth, hdepth⟩ := FileTree.exists_within_list hentries
    exact ⟨depth + 1, hdepth⟩
termination_by tree => sizeOf tree
decreasing_by
  have hlt := List.sizeOf_lt_of_mem hmem
  cases e
  simp only [FileTree.directory.sizeOf_spec, Prod.mk.sizeOf_spec] at hlt ⊢
  omega

structure Stat where
  kind : FileKind
  id : FileId
  mtime : Int
  size : Nat
  perms : Nat
deriving DecidableEq, Repr

def FileTree.stat : FileTree → Stat
  | .leaf kind info data => ⟨kind, info.id, info.mtime, data.length, info.perms⟩
  | .directory info size _ => ⟨.directory, info.id, info.mtime, size, info.perms⟩

abbrev Path := List String

def basename (path : Path) : String := path.getLastD ""

def worthlessSuffixes : List String :=
  [".o", ".lo", ".la", ".a", ".so", ".gcda", ".gcno", ".gcda.info", ".tmp", ".swp", "~"]

def worthlessDirectories : List String := [".libs", ".deps", "autom4te.cache", "CVS", ".svn"]

/-- `worthless-file?`.  No suffix of the regular expression has a slash, so the last component
decides. -/
def worthlessFile (path : Path) (stat : Stat) : Bool :=
  if stat.kind = .directory then worthlessDirectories.contains (basename path)
  else worthlessSuffixes.any fun suffix => suffix.toList.isSuffixOf (basename path).toList

section Fold

variable {α : Type} (enter : Path → Stat → Bool) (leaf : Path → Stat → Bytes → α → Outcome α)
  (down up skip : Path → Stat → α → Outcome α)

/-- The loop over the entries of a directory, which collects its sub-directories. -/
def foldLeaves (path : Path) : List (String × FileTree) → α → List (String × FileTree) →
    Outcome (α × List (String × FileTree))
  | [], result, subdirs => .done (result, subdirs)
  | (name, .leaf kind info data) :: entries, result, subdirs => do
    let result ← leaf (path ++ [name]) (FileTree.leaf kind info data).stat data result
    foldLeaves path entries result subdirs
  | (name, .directory info size children) :: entries, result, subdirs =>
    foldLeaves path entries result ((name, .directory info size children) :: subdirs)

def foldSubdirs (loop : Path → FileTree → α → List FileId → Outcome (α × List FileId))
    (path : Path) : List (String × FileTree) → α → List FileId → Outcome (α × List FileId)
  | [], result, visited => .done (result, visited)
  | (name, sub) :: subdirs, result, visited => do
    let (result, visited) ← loop (path ++ [name]) sub result visited
    foldSubdirs loop path subdirs result visited

/-- The loop of `file-system-fold`; files that cannot be read are not modelled. -/
def fileSystemFoldLoop :
    Nat → Path → FileTree → α → List FileId → Outcome (α × List FileId)
  | 0, _, _, _, _ => .outOfFuel
  | fuel + 1, path, tree, result, visited =>
    if tree.stat.id ∈ visited then .done (result, visited)
    else
      match tree with
      | .leaf _ _ data => do
        let result ← leaf path tree.stat data result
        return (result, visited)
      | .directory info _ entries =>
        if enter path tree.stat then do
          let result ← down path tree.stat result
          let (result, subdirs) ← foldLeaves leaf path entries result []
          let (result, visited) ←
            foldSubdirs (fileSystemFoldLoop fuel) path subdirs result (info.id :: visited)
          let result ← up path tree.stat result
          return (result, visited)
        else do
          let result ← skip path tree.stat result
          return (result, info.id :: visited)

def fileSystemFold (fuel : Nat) (init : α) (path : Path) (tree : FileTree) : Outcome α := do
  let (result, _) ← fileSystemFoldLoop enter leaf down up skip fuel path tree init []
  return result

end Fold

end Libchop
