import Libchop.Backup.Recursive

/-!
# The backup without its stack

The fold builds the entries of nested directories on a stack.  Each directory's entries are those
of its files, last file first, after those of its sub-directories, which a direct recursion
computes without a stack.
-/

namespace Libchop

/-- The sub-directories among some files, in the order in which the fold visits them. -/
def subdirectories (files : List (String × FileTree)) : List (String × FileTree) :=
  (files.filter fun file => file.2.isDirectory).reverse

section Recursion

variable {σ Pl : Type} (port : SexpPort BackupSymbol) (cs : ContentStore σ Pl)
  (choosePipeline : Path → Stat → Pl) (repair : Bool)

def fileEntries (path : Path) (stat : Stat) (data : Bytes) (st : BackupState σ) :
    Outcome (List DirectoryEntry × BackupState σ) :=
  if worthlessFile path stat then .done ([], st)
  else do
    let (tuple, st) ← fileTuple port cs choosePipeline repair path stat data st
    return ([directoryEntry path stat tuple], st)

def leafEntries (path : Path) : List (String × FileTree) → BackupState σ →
    Outcome (List DirectoryEntry × BackupState σ)
  | [], st => .done ([], st)
  | (name, .leaf kind info data) :: files, st => do
    let (new, st) ← fileEntries port cs choosePipeline repair (path ++ [name])
      (FileTree.leaf kind info data).stat data st
    let (rest, st) ← leafEntries path files st
    return (rest ++ new, st)
  | (_, .directory _ _ _) :: files, st => leafEntries path files st

def subdirEntries (loop : Path → FileTree → List FileId → BackupState σ →
      Outcome (List DirectoryEntry × List FileId × BackupState σ)) (path : Path) :
    List (String × FileTree) → List FileId → BackupState σ →
      Outcome (List DirectoryEntry × List FileId × BackupState σ)
  | [], visited, st => .done ([], visited, st)
  | (name, sub) :: subdirs, visited, st => do
    let (new, visited, st) ← loop (path ++ [name]) sub visited st
    let (rest, visited, st) ← subdirEntries loop path subdirs visited st
    return (rest ++ new, visited, st)

def contentsEntries (loop : Path → FileTree → List FileId → BackupState σ →
      Outcome (List DirectoryEntry × List FileId × BackupState σ)) (path : Path)
    (files : List (String × FileTree)) (visited : List FileId) (st : BackupState σ) :
    Outcome (List DirectoryEntry × List FileId × BackupState σ) := do
  let (leaves, st) ← leafEntries port cs choosePipeline repair path files st
  let (subdirs, visited, st) ← subdirEntries loop path (subdirectories files) visited st
  return (subdirs ++ leaves, visited, st)

/-- The entry of a file or directory, if it gets one, after everything below it is stored. -/
def treeEntries : Nat → Path → FileTree → List FileId → BackupState σ →
    Outcome (List DirectoryEntry × List FileId × BackupState σ)
  | 0, _, _, _, _ => .outOfFuel
  | fuel + 1, path, tree, visited, st =>
    if tree.stat.id ∈ visited then .done ([], visited, st)
    else
      match tree with
      | .leaf _ _ data => do
        let (new, st) ← fileEntries port cs choosePipeline repair path tree.stat data st
        return (new, visited, st)
      | .directory info _ files =>
        if enterDirectory? path tree.stat then do
          let (entries, visited, st) ← contentsEntries port cs choosePipeline repair
            (treeEntries fuel) path files (info.id :: visited) st
          let (tuple, st) ← storeDirectoryVersion port cs repair tree.stat entries st
          return ([directoryEntry path tree.stat (some tuple)], visited, st)
        else
          .done ([], info.id :: visited, st)

end Recursion

variable {σ Pl : Type} {port : SexpPort BackupSymbol} {cs : ContentStore σ Pl}
  {choosePipeline : Path → Stat → Pl} {repair : Bool}

private theorem processFile_eq (path : Path) (stat : Stat) (data : Bytes)
    (entries : List DirectoryEntry) (result : EntryStack) (st : BackupState σ) :
    processFile port cs choosePipeline repair path stat data (entries :: result, st) = (do
      let (new, st) ← fileEntries port cs choosePipeline repair path stat data st
      return ((new ++ entries) :: result, st)) := by
  rw [processFile, fileEntries]
  by_cases hworth : worthlessFile path stat = true
  · rw [if_pos hworth, if_pos hworth]
    rfl
  · rw [if_neg hworth, if_neg hworth, Outcome.bind_assoc]
    rfl

private theorem foldLeaves_eq (path : Path) (files subdirs : List (String × FileTree))
    (entries : List DirectoryEntry) (result : EntryStack) (st : BackupState σ) :
    foldLeaves (processFile port cs choosePipeline repair) path files (entries :: result, st)
        subdirs = (do
      let (new, st) ← leafEntries port cs choosePipeline repair path files st
      return (((new ++ entries) :: result, st), subdirectories files ++ subdirs)) := by
  induction files generalizing subdirs entries st with
  | nil => rfl
  | cons file files ih =>
    obtain ⟨name, tree⟩ := file
    cases tree with
    | leaf kind info data =>
      simp only [foldLeaves, leafEntries, processFile_eq, Outcome.bind_assoc, Outcome.pure_eq_done,
        Outcome.done_bind, ih, List.append_assoc]
      rfl
    | directory info size children =>
      simp only [foldLeaves, leafEntries, ih]
      have hsubdirs : subdirectories ((name, .directory info size children) :: files) =
          subdirectories files ++ [(name, .directory info size children)] := by
        simp [subdirectories, FileTree.isDirectory]
      rw [hsubdirs, List.append_assoc]
      rfl

private theorem foldSubdirs_eq
    {foldLoop : Path → FileTree → EntryStack × BackupState σ → List FileId →
      Outcome ((EntryStack × BackupState σ) × List FileId)}
    {loop : Path → FileTree → List FileId → BackupState σ →
      Outcome (List DirectoryEntry × List FileId × BackupState σ)}
    (hloop : ∀ path tree entries result st visited,
      foldLoop path tree (entries :: result, st) visited = (do
        let (new, visited, st) ← loop path tree visited st
        return (((new ++ entries) :: result, st), visited)))
    (path : Path) (subdirs : List (String × FileTree)) (entries : List DirectoryEntry)
    (result : EntryStack) (st : BackupState σ) (visited : List FileId) :
    foldSubdirs foldLoop path subdirs (entries :: result, st) visited = (do
      let (new, visited, st) ← subdirEntries loop path subdirs visited st
      return (((new ++ entries) :: result, st), visited)) := by
  induction subdirs generalizing entries st visited with
  | nil => rfl
  | cons subdir subdirs ih =>
    simp only [foldSubdirs, subdirEntries, hloop, Outcome.bind_assoc, Outcome.pure_eq_done,
      Outcome.done_bind, ih, List.append_assoc]

/-- The fold leaves on its stack what the direct recursion returns. -/
theorem fileSystemFoldLoop_eq (fuel : Nat) (path : Path) (tree : FileTree)
    (entries : List DirectoryEntry) (result : EntryStack) (st : BackupState σ)
    (visited : List FileId) :
    fileSystemFoldLoop enterDirectory? (processFile port cs choosePipeline repair) enterDirectory
        (leaveDirectory port cs repair) skipDirectory fuel path tree (entries :: result, st)
        visited = (do
      let (new, visited, st) ← treeEntries port cs choosePipeline repair fuel path tree visited st
      return (((new ++ entries) :: result, st), visited)) := by
  induction fuel generalizing path tree entries result st visited with
  | zero => rfl
  | succ fuel ih =>
    unfold fileSystemFoldLoop treeEntries
    by_cases hvisited : tree.stat.id ∈ visited
    · rw [if_pos hvisited, if_pos hvisited]
      rfl
    · rw [if_neg hvisited, if_neg hvisited]
      cases tree with
      | leaf kind info data =>
        simp only [processFile_eq, Outcome.bind_assoc, Outcome.pure_eq_done, Outcome.done_bind]
      | directory info size files =>
        simp only
        by_cases henter : enterDirectory? path (FileTree.directory info size files).stat = true
        · rw [if_pos henter, if_pos henter]
          simp only [enterDirectory, contentsEntries, foldLeaves_eq, foldSubdirs_eq ih,
            leaveDirectory, Outcome.bind_assoc, Outcome.pure_eq_done, Outcome.done_bind,
            List.append_nil, List.singleton_append]
        · rw [if_neg henter, if_neg henter]
          rfl

/-- A backup of a directory stores what is below it and then the directory itself; a worthless
directory makes it fail. -/
theorem runStoragePipelineRecursive_directory (fuel : Nat) (path : Path) (info : FileMeta)
    (size : Nat) (files : List (String × FileTree)) (st : BackupState σ) :
    runStoragePipelineRecursive port cs choosePipeline repair (fuel + 1) path
        (.directory info size files) st =
      if enterDirectory? path (FileTree.directory info size files).stat then do
        let (entries, _, st) ← contentsEntries port cs choosePipeline repair
          (treeEntries port cs choosePipeline repair fuel) path files [info.id] st
        let (tuple, st) ← storeDirectoryVersion port cs repair
          (FileTree.directory info size files).stat entries st
        return (some tuple, st)
      else .abort := by
  rw [runStoragePipelineRecursive, fileSystemFold, fileSystemFoldLoop_eq]
  unfold treeEntries
  rw [if_neg List.not_mem_nil]
  simp only
  by_cases henter : enterDirectory? path (FileTree.directory info size files).stat = true
  · rw [if_pos henter, if_pos henter]
    simp only [Outcome.bind_assoc, Outcome.pure_eq_done, Outcome.done_bind, List.append_nil,
      directoryEntry]
  · rw [if_neg henter, if_neg henter]
    rfl

end Libchop
