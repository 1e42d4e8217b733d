import Mathlib.Data.List.Infix

/-!
# File systems

A tree of directories, regular files and symbolic links, given by what each path leads to, and
the system calls that build one.  Files belong to the caller: whether something can be made in a
directory is up to the permissions that directory gives its owner.
-/

/-- What is found under a path. -/
inductive FileNode where
  | directory (perms : Nat)
  | file (contents : List UInt8) (perms : Nat)
  | symlink (target : List UInt8)
deriving DecidableEq, Repr

/-- A file system: whatever exists lies in a directory. -/
structure FileSystem where
  node : List String → Option FileNode
  parent : ∀ path name, node (path ++ [name]) ≠ none → ∃ perms, node path = some (.directory perms)

namespace FileSystem

/-- The owner may make files in a directory with these permissions. -/
def ownerMayWrite (perms : Nat) : Bool := perms &&& 0o300 = 0o300

/-- The permissions of what is made with a mode. -/
def applyUmask (umask mode : Nat) : Nat := mode &&& (0o777 ^^^ umask)

def isWritable (fs : FileSystem) (path : List String) : Bool :=
  match fs.node path with
  | some (.directory perms) => ownerMayWrite perms
  | _ => false

theorem exists_directory_of_isWritable {fs : FileSystem} {path : List String}
    (h : fs.isWritable path = true) : ∃ perms, fs.node path = some (.directory perms) := by
  rw [isWritable] at h
  split at h
  · next perms hnode => exact ⟨perms, hnode⟩
  · cases h

/-- The path does not exist and can be made. -/
def Creatable (fs : FileSystem) (path : List String) : Prop :=
  path ≠ [] ∧ fs.node path = none ∧ fs.isWritable path.dropLast = true

instance (fs : FileSystem) (path : List String) : Decidable (fs.Creatable path) :=
  inferInstanceAs (Decidable (_ ∧ _ ∧ _))

theorem creatable_child {fs : FileSystem} {path : List String} {name : String}
    (hpath : fs.isWritable path = true) (hnone : fs.node (path ++ [name]) = none) :
    fs.Creatable (path ++ [name]) := by
  refine ⟨List.concat_ne_nil name path, hnone, ?_⟩
  rw [List.dropLast_concat]
  exact hpath

/-- Nothing lies below what does not exist or is not a directory. -/
theorem node_below_eq_none {fs : FileSystem} {path : List String}
    (h : ∀ perms, fs.node path ≠ some (.directory perms)) {rest : List String} (hrest : rest ≠ []) :
    fs.node (path ++ rest) = none := by
  induction rest using List.reverseRecOn with
  | nil => exact (hrest rfl).elim
  | append_singleton rest name ih =>
    by_contra hnode
    rw [← List.append_assoc] at hnode
    obtain ⟨perms, hperms⟩ := fs.parent _ name hnode
    by_cases hnil : rest = []
    · rw [hnil, List.append_nil] at hperms
      exact h perms hperms
    · rw [ih hnil] at hperms
      cases hperms

/-- The file system with something else under one path.  What was a directory stays one. -/
def set (fs : FileSystem) (path : List String) (node : FileNode)
    (hparent : ∀ q name, path = q ++ [name] → ∃ perms, fs.node q = some (.directory perms))
    (hkind : ∀ perms, fs.node path = some (.directory perms) → ∃ perms', node = .directory perms') :
    FileSystem where
  node := Function.update fs.node path (some node)
  parent := by
    intro q name hnode
    have hdir : ∃ perms, fs.node q = some (.directory perms) := by
      by_cases hpath : q ++ [name] = path
      · exact hparent q name hpath.symm
      · rw [Function.update_of_ne hpath] at hnode
        exact fs.parent q name hnode
    obtain ⟨perms, hperms⟩ := hdir
    by_cases hq : q = path
    · rw [hq] at hperms ⊢
      obtain ⟨perms', rfl⟩ := hkind perms hperms
      exact ⟨perms', Function.update_self _ _ _⟩
    · exact ⟨perms, by rw [Function.update_of_ne hq, hperms]⟩

private theorem parent_of_exists {fs : FileSystem} {path : List String} {node : FileNode}
    (h : fs.node path = some node) (q : List String) (name : String) (hq : path = q ++ [name]) :
    ∃ perms, fs.node q = some (.directory perms) := by
  apply fs.parent q name
  rw [← hq, h]
  exact Option.some_ne_none node

private theorem parent_of_creatable {fs : FileSystem} {path : List String} (h : fs.Creatable path)
    (q : List String) (name : String) (hq : path = q ++ [name]) :
    ∃ perms, fs.node q = some (.directory perms) := by
  have hparent := h.2.2
  rw [hq, List.dropLast_concat] at hparent
  exact exists_directory_of_isWritable hparent

private theorem kind_of_none {fs : FileSystem} {path : List String} {node : FileNode}
    (h : fs.node path = none) (perms : Nat) (hdir : fs.node path = some (.directory perms)) :
    ∃ perms', node = .directory perms' := by
  rw [h] at hdir
  cases hdir

private theorem kind_of_file {fs : FileSystem} {path : List String} {node : FileNode}
    {contents : List UInt8} {perms : Nat} (h : fs.node path = some (.file contents perms))
    (perms : Nat) (hdir : fs.node path = some (.directory perms)) :
    ∃ perms', node = .directory perms' := by
  rw [h] at hdir
  cases hdir

def create (fs : FileSystem) (path : List String) (node : FileNode) : Option FileSystem :=
  if h : fs.Creatable path then
    some (fs.set path node (parent_of_creatable h) (kind_of_none h.2.1))
  else
    none

def mkdir (fs : FileSystem) (umask : Nat) (path : List String) : Option FileSystem :=
  fs.create path (.directory (applyUmask umask 0o777))

def symlink (fs : FileSystem) (target : List UInt8) (path : List String) : Option FileSystem :=
  fs.create path (.symlink target)

/-- Changing the permissions of what a link leads to is not modelled. -/
def chmod (fs : FileSystem) (path : List String) (perms : Nat) : Option FileSystem :=
  match h : fs.node path with
  | some (.directory _) =>
    some (fs.set path (.directory perms) (parent_of_exists h) fun _ _ => ⟨perms, rfl⟩)
  | some (.file contents _) =>
    some (fs.set path (.file contents perms) (parent_of_exists h) (kind_of_file h))
  | _ => none

/-- Open a file for output: it is made, or emptied if it exists already. -/
def openOutputFile (fs : FileSystem) (umask : Nat) (path : List String) : Option FileSystem :=
  match h : fs.node path with
  | none => fs.create path (.file [] (applyUmask umask 0o666))
  | some (.file _ perms) =>
    if perms &&& 0o200 = 0o200 then
      some (fs.set path (.file [] perms) (parent_of_exists h) (kind_of_file h))
    else
      none
  | _ => none

/-- Write to the end of an open file. -/
def write (fs : FileSystem) (path : List String) (bytes : List UInt8) : Option FileSystem :=
  match h : fs.node path with
  | some (.file contents perms) =>
    some (fs.set path (.file (contents ++ bytes) perms) (parent_of_exists h) (kind_of_file h))
  | _ => none

theorem create_eq {fs : FileSystem} {path : List String} (h : fs.Creatable path) (node : FileNode) :
    ∃ fs', fs.create path node = some fs' ∧ fs'.node = Function.update fs.node path (some node) :=
  ⟨_, dif_pos h, rfl⟩

theorem chmod_directory {fs : FileSystem} {path : List String} {perms : Nat}
    (h : fs.node path = some (.directory perms)) (perms' : Nat) :
    ∃ fs', fs.chmod path perms' = some fs' ∧
      fs'.node = Function.update fs.node path (some (.directory perms')) := by
  rw [chmod]
  split
  · exact ⟨_, rfl, rfl⟩
  · next hfile =>
    rw [h] at hfile
    cases hfile
  · next hother _ => exact (hother perms h).elim

theorem chmod_file {fs : FileSystem} {path : List String} {contents : List UInt8} {perms : Nat}
    (h : fs.node path = some (.file contents perms)) (perms' : Nat) :
    ∃ fs', fs.chmod path perms' = some fs' ∧
      fs'.node = Function.update fs.node path (some (.file contents perms')) := by
  rw [chmod]
  split
  · next hdir =>
    rw [h] at hdir
    cases hdir
  · next contents' perms' hfile =>
    rw [h] at hfile
    cases hfile
    exact ⟨_, rfl, rfl⟩
  · next hother => exact (hother contents perms h).elim

theorem openOutputFile_new {fs : FileSystem} {path : List String} (h : fs.Creatable path)
    (umask : Nat) : ∃ fs', fs.openOutputFile umask path = some fs' ∧
      fs'.node = Function.update fs.node path (some (.file [] (applyUmask umask 0o666))) := by
  rw [openOutputFile]
  split
  · exact create_eq h _
  · next hfile =>
    rw [h.2.1] at hfile
    cases hfile
  · next hother _ => exact (hother h.2.1).elim

theorem write_file {fs : FileSystem} {path : List String} {contents : List UInt8} {perms : Nat}
    (h : fs.node path = some (.file contents perms)) (bytes : List UInt8) :
    ∃ fs', fs.write path bytes = some fs' ∧
      fs'.node = Function.update fs.node path (some (.file (contents ++ bytes) perms)) := by
  rw [write]
  split
  · next contents' perms' hfile =>
    rw [h] at hfile
    cases hfile
    exact ⟨_, rfl, rfl⟩
  · next hother => exact (hother contents perms h).elim

end FileSystem
