import Libchop.Backup.FileTree
import Libchop.Framework.FileSystem

/-!
# Restoring a backup

`restore-tree` makes a directory and then what its entries lead to, directory by directory.  If
the entries describe a tree of files, that tree is what it makes.
-/

namespace Libchop

section Model

variable (port : SexpPort BackupSymbol) (retrieve : IndexTuple → Except ChopError Bytes)
  (umask : Nat)

/-- A system call that fails ends the run. -/
def systemCall {α : Type} : Option α → Outcome α
  | some a => .done a
  | none => .abort

/-- The data of a tuple; a retriever that fails ends the run. -/
def retrieved (tuple : Option IndexTuple) : Outcome Bytes :=
  match tuple.map retrieve with
  | some (.ok data) => .done data
  | _ => .abort

/-- The `directory` case of the inner loop of `restore-tree`. -/
def restoreDirectory (loop : IndexTuple → Path → FileSystem → Outcome FileSystem) (file : Path)
    (perms : Nat) (tuple : Option IndexTuple) (fs : FileSystem) : Outcome FileSystem := do
  let fs ← systemCall (fs.mkdir umask file)
  let fs ← systemCall (fs.chmod file 0o700)
  let fs ← (match tuple with
    | some tuple => loop tuple file fs
    | none => .abort)
  systemCall (fs.chmod file perms)

/-- The `regular` case; a file without a tuple is empty. -/
def restoreFile (file : Path) (perms : Nat) (tuple : Option IndexTuple) (fs : FileSystem) :
    Outcome FileSystem := do
  let fs ← systemCall (fs.openOutputFile umask file)
  let fs ← (if tuple.isSome then do
      let contents ← retrieved retrieve tuple
      let fs ← systemCall (fs.write file contents)
      systemCall (fs.chmod file perms)
    else .done fs)
  systemCall (fs.chmod file perms)

def restoreSymlink (file : Path) (tuple : Option IndexTuple) (fs : FileSystem) :
    Outcome FileSystem := do
  let target ← retrieved retrieve tuple
  systemCall (fs.symlink target file)

/-- Files of other types are not restored. -/
def restoreEntry (loop : IndexTuple → Path → FileSystem → Outcome FileSystem) (dir : Path)
    (e : DirectoryEntry) (fs : FileSystem) : Outcome FileSystem :=
  let file := dir ++ [e.name]
  match e.kind with
  | .directory => restoreDirectory umask loop file e.perms e.tuple fs
  | .regular => restoreFile retrieve umask file e.perms e.tuple fs
  | .symlink => restoreSymlink retrieve file e.tuple fs
  | _ => .done fs

/-- The inner loop of `restore-tree`. -/
def restoreEntries (loop : IndexTuple → Path → FileSystem → Outcome FileSystem) (dir : Path) :
    List DirectoryEntry → FileSystem → Outcome FileSystem
  | [], fs => .done fs
  | e :: entries, fs => do
    let fs ← restoreEntry retrieve umask loop dir e fs
    restoreEntries loop dir entries fs

/-- The outer loop of `restore-tree`. -/
def restoreTreeLoop : Nat → IndexTuple → Path → FileSystem → Outcome FileSystem
  | 0, _, _, _ => .outOfFuel
  | fuel + 1, tuple, dir, fs => do
    let bytes ← retrieved retrieve (some tuple)
    match readDirectory port bytes with
    | .ok directory =>
      restoreEntries retrieve umask (restoreTreeLoop fuel) dir directory.entries fs
    | .error _ => .abort

def restoreTree (fuel : Nat) (tuple : IndexTuple) (dir : Path) (fs : FileSystem) :
    Outcome FileSystem := do
  let fs ← systemCall (fs.mkdir umask dir)
  restoreTreeLoop port retrieve umask fuel tuple dir fs

end Model

def FileTree.node : FileTree → FileNode
  | .leaf .symlink _ data => .symlink data
  | .leaf _ info data => .file data info.perms
  | .directory info _ _ => .directory info.perms

def FileTree.nodeAt : Path → FileTree → Option FileNode
  | [], tree => some tree.node
  | _ :: _, .leaf _ _ _ => none
  | name :: path, .directory _ _ files => (files.lookup name).bind (FileTree.nodeAt path)

/-- Some files in the order of the entries of their directory: sub-directories, then files in the
opposite order. -/
def listing (files : List (String × FileTree)) : List (String × FileTree) :=
  files.filter (fun file => file.2.isDirectory) ++
    (files.filter fun file => !file.2.isDirectory).reverse

theorem listing_perm (files : List (String × FileTree)) : (listing files).Perm files := by
  apply List.Perm.trans (List.Perm.append_left _ (List.reverse_perm _))
  exact List.filter_append_perm _ files

/-- An entry describes a file or a directory, given what tuples lead to. -/
def EntryFor (port : SexpPort BackupSymbol) (retrieve : IndexTuple → Except ChopError Bytes) :
    Nat → String × FileTree → DirectoryEntry → Prop
  | 0, _, _ => False
  | _ + 1, (name, .leaf kind info data), e =>
    e.name = name ∧ e.kind = kind ∧ e.perms = info.perms ∧
      (kind = .regular ∧ data = [] ∧ e.tuple = none ∨
        (kind = .regular ∨ kind = .symlink) ∧ ∃ tuple, e.tuple = some tuple ∧
          retrieve tuple = .ok data)
  | depth + 1, (name, .directory info _ files), e =>
    e.name = name ∧ e.kind = .directory ∧ e.perms = info.perms ∧ ∃ tuple bytes dir,
      e.tuple = some tuple ∧ retrieve tuple = .ok bytes ∧ readDirectory port bytes = .ok dir ∧
        List.Forall₂ (EntryFor port retrieve depth) (listing files) dir.entries

/-- No directory has two files of one name. -/
def FileTree.DistinctNames (tree : FileTree) : Prop :=
  ∀ info size files, tree.Contains (.directory info size files) → (files.map Prod.fst).Nodup

theorem FileTree.DistinctNames.entry {info : FileMeta} {size : Nat}
    {files : List (String × FileTree)} (h : (FileTree.directory info size files).DistinctNames)
    {file : String × FileTree} (hmem : file ∈ files) : file.2.DistinctNames :=
  fun info size files hinner => h info size files (.entry hmem hinner)

/-- The tree was made under a path, where nothing was before. -/
structure Restored (fs fs' : FileSystem) (path : Path) (tree : FileTree) : Prop where
  inside : ∀ q, fs'.node (path ++ q) = tree.nodeAt q
  outside : ∀ q, ¬ path <+: q → fs'.node q = fs.node q

/-- The contents of a directory were made in the directory of the given path. -/
structure RestoredBelow (fs fs' : FileSystem) (path : Path) (tree : FileTree) : Prop where
  inside : ∀ name q, fs'.node (path ++ name :: q) = tree.nodeAt (name :: q)
  outside : ∀ q, (∀ name, ¬ path ++ [name] <+: q) → fs'.node q = fs.node q

/-- What the outer loop does for directories nested less deep than the given number. -/
def LoopRestores (port : SexpPort BackupSymbol) (retrieve : IndexTuple → Except ChopError Bytes)
    (depth : Nat) (loop : IndexTuple → Path → FileSystem → Outcome FileSystem) : Prop :=
  ∀ tuple bytes dir info size files path fs, retrieve tuple = .ok bytes →
    readDirectory port bytes = .ok dir →
    List.Forall₂ (EntryFor port retrieve depth) (listing files) dir.entries →
    (FileTree.directory info size files).DistinctNames → fs.isWritable path = true →
    (∀ name, fs.node (path ++ [name]) = none) →
    ∃ fs', loop tuple path fs = .done fs' ∧
      RestoredBelow fs fs' path (.directory info size files)

variable {port : SexpPort BackupSymbol} {retrieve : IndexTuple → Except ChopError Bytes}
  {umask : Nat}

private theorem not_below_of_ne {path : Path} {name name' : String} (h : name ≠ name') (q : Path) :
    ¬ path ++ [name] <+: path ++ name' :: q := by
  intro hprefix
  rw [List.prefix_append_right_inj, List.cons_prefix_cons] at hprefix
  exact h hprefix.1

private theorem not_below_child (path : Path) (name : String) : ¬ path ++ [name] <+: path := by
  intro hprefix
  have hlength := hprefix.length_le
  rw [List.length_append, List.length_singleton] at hlength
  omega

private theorem child_ne (path : Path) (name : String) (q : Path) : path ++ name :: q ≠ path := by
  intro heq
  have hlength := congrArg List.length heq
  rw [List.length_append, List.length_cons] at hlength
  omega

private theorem node_child_eq_none {fs : FileSystem} {path : Path} (h : fs.node path = none)
    {q : Path} (hq : q ≠ []) : fs.node (path ++ q) = none := by
  apply FileSystem.node_below_eq_none _ hq
  intro perms hdir
  rw [h] at hdir
  cases hdir

private theorem restored_leaf {fs fs' : FileSystem} {path : Path} {kind : FileKind}
    {info : FileMeta} {data : Bytes} (hnone : fs.node path = none)
    (hupdate : fs'.node =
      Function.update fs.node path (some (FileTree.leaf kind info data).node)) :
    Restored fs fs' path (.leaf kind info data) where
  inside := by
    intro q
    rw [hupdate]
    cases q with
    | nil =>
      rw [List.append_nil, Function.update_self]
      rfl
    | cons name q =>
      rw [Function.update_of_ne (child_ne path name q),
        node_child_eq_none hnone (List.cons_ne_nil name q)]
      rfl
  outside := by
    intro q hq
    rw [hupdate, Function.update_of_ne]
    intro heq
    rw [heq] at hq
    exact hq (List.prefix_refl path)

private theorem systemCall_eq {fs : Option FileSystem} {node : Path → Option FileNode}
    (h : ∃ fs', fs = some fs' ∧ fs'.node = node) :
    ∃ fs', systemCall fs = .done fs' ∧ fs'.node = node := by
  obtain ⟨fs', rfl, hnode⟩ := h
  exact ⟨fs', rfl, hnode⟩

private theorem restoreSymlink_restores {fs : FileSystem} {path : Path} (hpath : fs.Creatable path)
    {tuple : IndexTuple} {info : FileMeta} {data : Bytes} (hdata : retrieve tuple = .ok data) :
    ∃ fs', restoreSymlink retrieve path (some tuple) fs = .done fs' ∧
      Restored fs fs' path (.leaf .symlink info data) := by
  obtain ⟨fs', hcall, hnode⟩ := systemCall_eq (FileSystem.create_eq hpath (.symlink data))
  refine ⟨fs', ?_, restored_leaf hpath.2.1 hnode⟩
  simp only [restoreSymlink, retrieved, Option.map_some, hdata, Outcome.done_bind]
  exact hcall

private theorem restoreFile_empty {fs : FileSystem} {path : Path} (hpath : fs.Creatable path)
    (info : FileMeta) :
    ∃ fs', restoreFile retrieve umask path info.perms none fs = .done fs' ∧
      Restored fs fs' path (.leaf .regular info []) := by
  obtain ⟨fs₁, hopen, hnode₁⟩ := systemCall_eq (FileSystem.openOutputFile_new hpath umask)
  have hfile : fs₁.node path = some (.file [] (FileSystem.applyUmask umask 0o666)) := by
    rw [hnode₁, Function.update_self]
  obtain ⟨fs₂, hchmod, hnode₂⟩ := systemCall_eq (FileSystem.chmod_file hfile info.perms)
  rw [hnode₁, Function.update_idem] at hnode₂
  refine ⟨fs₂, ?_, restored_leaf hpath.2.1 hnode₂⟩
  rw [restoreFile, hopen]
  exact hchmod

private theorem restoreFile_contents {fs : FileSystem} {path : Path} (hpath : fs.Creatable path)
    {tuple : IndexTuple} (info : FileMeta) {data : Bytes} (hdata : retrieve tuple = .ok data) :
    ∃ fs', restoreFile retrieve umask path info.perms (some tuple) fs = .done fs' ∧
      Restored fs fs' path (.leaf .regular info data) := by
  obtain ⟨fs₁, hopen, hnode₁⟩ := systemCall_eq (FileSystem.openOutputFile_new hpath umask)
  have hfile₁ : fs₁.node path = some (.file [] (FileSystem.applyUmask umask 0o666)) := by
    rw [hnode₁, Function.update_self]
  obtain ⟨fs₂, hwrite, hnode₂⟩ := systemCall_eq (FileSystem.write_file hfile₁ data)
  rw [hnode₁, Function.update_idem, List.nil_append] at hnode₂
  have hfile₂ : fs₂.node path = some (.file data (FileSystem.applyUmask umask 0o666)) := by
    rw [hnode₂, Function.update_self]
  obtain ⟨fs₃, hchmod₃, hnode₃⟩ := systemCall_eq (FileSystem.chmod_file hfile₂ info.perms)
  rw [hnode₂, Function.update_idem] at hnode₃
  have hfile₃ : fs₃.node path = some (.file data info.perms) := by
    rw [hnode₃, Function.update_self]
  obtain ⟨fs₄, hchmod₄, hnode₄⟩ := systemCall_eq (FileSystem.chmod_file hfile₃ info.perms)
  rw [hnode₃, Function.update_idem] at hnode₄
  refine ⟨fs₄, ?_, restored_leaf hpath.2.1 hnode₄⟩
  rw [restoreFile, hopen]
  simp only [Option.isSome_some, if_true, retrieved, Option.map_some, hdata, Outcome.done_bind,
    hwrite, hchmod₃]
  exact hchmod₄

private theorem isWritable_of_node {fs : FileSystem} {path : Path} {perms : Nat}
    (h : fs.node path = some (.directory perms)) (hperms : FileSystem.ownerMayWrite perms = true) :
    fs.isWritable path = true := by
  rw [FileSystem.isWritable, h]
  exact hperms

private theorem restoreDirectory_restores {depth : Nat}
    {loop : IndexTuple → Path → FileSystem → Outcome FileSystem}
    (hloop : LoopRestores port retrieve depth loop) {fs : FileSystem} {path : Path}
    (hpath : fs.Creatable path) {tuple : IndexTuple} {bytes : Bytes} {dir : Directory}
    {info : FileMeta} {size : Nat} {files : List (String × FileTree)}
    (hbytes : retrieve tuple = .ok bytes) (hdir : readDirectory port bytes = .ok dir)
    (hentries : List.Forall₂ (EntryFor port retrieve depth) (listing files) dir.entries)
    (hnames : (FileTree.directory info size files).DistinctNames) :
    ∃ fs', restoreDirectory umask loop path info.perms (some tuple) fs = .done fs' ∧
      Restored fs fs' path (.directory info size files) := by
  obtain ⟨fs₁, hmkdir, hnode₁⟩ := systemCall_eq (FileSystem.create_eq hpath
    (.directory (FileSystem.applyUmask umask 0o777)))
  have hdir₁ : fs₁.node path = some (.directory (FileSystem.applyUmask umask 0o777)) := by
    rw [hnode₁, Function.update_self]
  obtain ⟨fs₂, hchmod₂, hnode₂⟩ := systemCall_eq (FileSystem.chmod_directory hdir₁ 0o700)
  rw [hnode₁, Function.update_idem] at hnode₂
  have hdir₂ : fs₂.node path = some (.directory 0o700) := by
    rw [hnode₂, Function.update_self]
  have hnone : ∀ name, fs₂.node (path ++ [name]) = none := by
    intro name
    rw [hnode₂, Function.update_of_ne (child_ne path name []),
      node_child_eq_none hpath.2.1 (List.cons_ne_nil name [])]
  obtain ⟨fs₃, hrun, hbelow⟩ := hloop tuple bytes dir info size files path fs₂ hbytes hdir hentries
    hnames (isWritable_of_node hdir₂ rfl) hnone
  have hdir₃ : fs₃.node path = some (.directory 0o700) := by
    rw [hbelow.outside path (not_below_child path), hdir₂]
  obtain ⟨fs₄, hchmod₄, hnode₄⟩ := systemCall_eq (FileSystem.chmod_directory hdir₃ info.perms)
  refine ⟨fs₄, ?_, ?_⟩
  · rw [restoreDirectory, FileSystem.mkdir, hmkdir]
    simp only [Outcome.done_bind, hchmod₂, hrun]
    exact hchmod₄
  · constructor
    · intro q
      rw [hnode₄]
      cases q with
      | nil =>
        rw [List.append_nil, Function.update_self]
        rfl
      | cons name q =>
        rw [Function.update_of_ne (child_ne path name q), hbelow.inside name q]
    · intro q hq
      have hne : q ≠ path := by
        intro heq
        rw [heq] at hq
        exact hq (List.prefix_refl path)
      rw [hnode₄, Function.update_of_ne hne, hbelow.outside q, hnode₂, Function.update_of_ne hne]
      intro name hprefix
      exact hq ((List.prefix_append path [name]).trans hprefix)

private theorem restoreEntry_restores (umask : Nat) {depth : Nat}
    {loop : IndexTuple → Path → FileSystem → Outcome FileSystem}
    (hloop : ∀ inner, depth = inner + 1 → LoopRestores port retrieve inner loop)
    {file : String × FileTree} {e : DirectoryEntry} (hentry : EntryFor port retrieve depth file e)
    (hnames : file.2.DistinctNames) {dir : Path} {fs : FileSystem}
    (hdir : fs.isWritable dir = true) (hnone : fs.node (dir ++ [file.1]) = none) :
    ∃ fs', restoreEntry retrieve umask loop dir e fs = .done fs' ∧
      Restored fs fs' (dir ++ [file.1]) file.2 := by
  have hpath := FileSystem.creatable_child hdir hnone
  obtain ⟨name, tree⟩ := file
  cases depth with
  | zero => exact hentry.elim
  | succ depth =>
    cases tree with
    | leaf kind info data =>
      obtain ⟨hname, hkind, hperms, htuple⟩ := hentry
      simp only [restoreEntry, hname, hkind, hperms]
      rcases htuple with ⟨rfl, rfl, htuple⟩ | ⟨hkind, tuple, htuple, hdata⟩
      · rw [htuple]
        exact restoreFile_empty hpath info
      · rw [htuple]
        cases hkind with
        | inl hregular =>
          rw [hregular]
          exact restoreFile_contents hpath info hdata
        | inr hsymlink =>
          rw [hsymlink]
          exact restoreSymlink_restores hpath hdata
    | directory info size files =>
      obtain ⟨hname, hkind, hperms, tuple, bytes, directory, htuple, hbytes, hread, hentries⟩ := hentry
      simp only [restoreEntry, hname, hkind, hperms, htuple]
      exact restoreDirectory_restores (hloop depth rfl) hpath hbytes hread hentries hnames

private theorem restoreEntries_restores (umask : Nat) {depth : Nat}
    {loop : IndexTuple → Path → FileSystem → Outcome FileSystem}
    (hloop : ∀ inner, depth = inner + 1 → LoopRestores port retrieve inner loop)
    {files : List (String × FileTree)} {entries : List DirectoryEntry}
    (hentries : List.Forall₂ (EntryFor port retrieve depth) files entries)
    (hnodup : (files.map Prod.fst).Nodup) (hnames : ∀ file ∈ files, file.2.DistinctNames)
    {dir : Path} {fs : FileSystem} (hdir : fs.isWritable dir = true)
    (hnone : ∀ file ∈ files, fs.node (dir ++ [file.1]) = none) :
    ∃ fs', restoreEntries retrieve umask loop dir entries fs = .done fs' ∧
      (∀ file ∈ files, ∀ q, fs'.node (dir ++ file.1 :: q) = file.2.nodeAt q) ∧
      ∀ q, (∀ file ∈ files, ¬ dir ++ [file.1] <+: q) → fs'.node q = fs.node q := by
  induction hentries generalizing fs with
  | nil => exact ⟨fs, rfl, fun _ hmem => (List.not_mem_nil hmem).elim, fun _ _ => rfl⟩
  | @cons file e files entries hentry hrest ih =>
    rw [List.map_cons, List.nodup_cons] at hnodup
    have hother : ∀ file' ∈ files, file.1 ≠ file'.1 := by
      intro file' hmem heq
      apply hnodup.1
      rw [heq]
      exact List.mem_map_of_mem hmem
    obtain ⟨fs₁, hrun, hrestored⟩ := restoreEntry_restores umask hloop hentry
      (hnames file List.mem_cons_self) hdir (hnone file List.mem_cons_self)
    have hdir₁ : fs₁.isWritable dir = true := by
      rw [FileSystem.isWritable, hrestored.outside dir (not_below_child dir file.1)]
      exact hdir
    have hnone₁ : ∀ file' ∈ files, fs₁.node (dir ++ [file'.1]) = none := by
      intro file' hmem
      rw [hrestored.outside _ (not_below_of_ne (hother file' hmem) [])]
      exact hnone file' (List.mem_cons_of_mem file hmem)
    obtain ⟨fs', hruns, hinside, houtside⟩ := ih hnodup.2
      (fun file' hmem => hnames file' (List.mem_cons_of_mem file hmem)) hdir₁ hnone₁
    refine ⟨fs', ?_, ?_, ?_⟩
    · rw [restoreEntries, hrun]
      exact hruns
    · intro file' hmem q
      cases hmem with
      | head =>
        rw [houtside]
        · rw [← hrestored.inside q, List.append_assoc, List.singleton_append]
        · intro file' hmem
          exact not_below_of_ne (hother file' hmem).symm q
      | tail _ hmem => exact hinside file' hmem q
    · intro q hq
      rw [houtside q fun file' hmem => hq file' (List.mem_cons_of_mem file hmem),
        hrestored.outside q (hq file List.mem_cons_self)]

private theorem restoredBelow_of_listing {fs fs' : FileSystem} {path : Path} {info : FileMeta}
    {size : Nat} {files : List (String × FileTree)}
    (hnone : ∀ name, fs.node (path ++ [name]) = none)
    (hinside : ∀ file ∈ listing files, ∀ q, fs'.node (path ++ file.1 :: q) = file.2.nodeAt q)
    (houtside : ∀ q, (∀ file ∈ listing files, ¬ path ++ [file.1] <+: q) →
      fs'.node q = fs.node q) :
    RestoredBelow fs fs' path (.directory info size files) where
  inside := by
    intro name q
    rw [FileTree.nodeAt]
    cases hlookup : files.lookup name with
    | some tree =>
      have hmem : (name, tree) ∈ listing files := by
        apply (listing_perm files).mem_iff.mpr
        obtain ⟨before, after, hfiles, _⟩ := List.lookup_eq_some_iff.mp hlookup
        rw [hfiles]
        exact List.mem_append_right before List.mem_cons_self
      exact hinside (name, tree) hmem q
    | none =>
      rw [houtside]
      · have hbelow := hnone name
        rw [← List.singleton_append, ← List.append_assoc]
        cases q with
        | nil =>
          rw [List.append_nil]
          exact hbelow
        | cons name' q => exact node_child_eq_none hbelow (List.cons_ne_nil name' q)
      · intro file hmem
        apply not_below_of_ne
        intro heq
        have hne := List.lookup_eq_none_iff.mp hlookup file ((listing_perm files).mem_iff.mp hmem)
        rw [heq] at hne
        simp at hne
  outside := by
    intro q hq
    exact houtside q fun file _ => hq file.1

/-- The outer loop restores what lies below a directory. -/
theorem restoreTreeLoop_restores {depth fuel : Nat} (hfuel : depth < fuel) :
    LoopRestores port retrieve depth (restoreTreeLoop port retrieve umask fuel) := by
  induction fuel generalizing depth with
  | zero => exact (Nat.not_lt_zero depth hfuel).elim
  | succ fuel ih =>
    intro tuple bytes dir info size files path fs hbytes hdir hentries hnames hpath hnone
    have hloop : ∀ inner, depth = inner + 1 →
        LoopRestores port retrieve inner (restoreTreeLoop port retrieve umask fuel) := by
      intro inner hinner
      apply ih
      omega
    have hperm := listing_perm files
    have hnodup : ((listing files).map Prod.fst).Nodup :=
      (hperm.map Prod.fst).nodup_iff.mpr (hnames info size files (.refl _))
    obtain ⟨fs', hrun, hinside, houtside⟩ := restoreEntries_restores umask hloop hentries
      hnodup (fun file hmem => hnames.entry (hperm.mem_iff.mp hmem)) hpath
      (fun file _ => hnone file.1)
    refine ⟨fs', ?_, restoredBelow_of_listing hnone hinside houtside⟩
    rw [restoreTreeLoop]
    simp only [retrieved, Option.map_some, hbytes, Outcome.done_bind, hdir]
    exact hrun

end Libchop
