import Libchop.Backup.FileTree

/-!
# Recursive backups

`run-storage-pipeline/recursive` stores the files of a directory tree bottom up.  A persistent
mapping from files to their tuples spares files that did not change, and tells each directory
its previous version.
-/

namespace Libchop

/-- What the storage pipelines and the store they write to do: `put` is `run-storage-pipeline`
followed by `pipeline-index-handle->tuple`. -/
structure ContentStore (σ Pl : Type) where
  put : Pl → Bytes → σ → Except SchemeError IndexTuple × σ
  retrieve : σ → IndexTuple → Except ChopError Bytes
  indexedBlockExists : σ → String → Bool
  directoryStoragePipeline : Pl

structure BackupState (σ : Type) where
  store : σ
  mapping : FileId → Option Bytes

/-- The lists of entries under construction, innermost directory first. -/
abbrev EntryStack := List (List DirectoryEntry)

def maxDirectoryPreviousTuples : Nat := 10

def strip {α : Type} (lst : List α) (max : Nat) : List α :=
  if lst.length ≤ max then lst else lst.take max

/-- `lset=` on entries. -/
def lsetEq (xs ys : List DirectoryEntry) : Bool :=
  xs.all (fun x => decide (x ∈ ys)) && ys.all (fun y => decide (y ∈ xs))

variable {σ Pl : Type} (port : SexpPort BackupSymbol) (cs : ContentStore σ Pl)
  (choosePipeline : Path → Stat → Pl) (repair : Bool)

def statToCachedEntry (st : BackupState σ) (stat : Stat) : Option BackupSexp :=
  (st.mapping stat.id).bind port.read

def statToIndexTuple (st : BackupState σ) (stat : Stat) : Option BackupSexp :=
  match statToCachedEntry port st stat with
  | some (.pair (.atom (.integer mtime)) tuple) => if mtime = stat.mtime then some tuple else none
  | _ => none

def cacheIndex (st : BackupState σ) (stat : Stat) (tuple : IndexTuple) (stamp : BackupSexp) :
    BackupState σ :=
  { st with mapping := fun id =>
      if id = stat.id then some (port.write (.pair stamp (tupleToSexp tuple))) else st.mapping id }

def tipExists (st : BackupState σ) (tuple : IndexTuple) : Bool :=
  if repair then false else cs.indexedBlockExists st.store tuple.index

/-- A pipeline run; an error ends the whole backup. -/
def putContents (pipeline : Pl) (data : Bytes) (st : BackupState σ) :
    Outcome (IndexTuple × BackupState σ) :=
  match cs.put pipeline data st.store with
  | (.ok tuple, store) => .done (tuple, { st with store })
  | (.error _, _) => .abort

/-- `store/cache`; files other than regular files and symbolic links are not saved. -/
def storeCache (path : Path) (stat : Stat) (data : Bytes) (st : BackupState σ) :
    Outcome (Option IndexTuple × BackupState σ) :=
  if stat.kind = .symlink ∨ stat.kind = .regular then do
    let (tuple, st) ← putContents cs (choosePipeline path stat) data st
    return (some tuple, cacheIndex port st stat tuple (.atom (.integer stat.mtime)))
  else
    .done (none, st)

def cachedTuple (st : BackupState σ) (stat : Stat) : Option IndexTuple :=
  match (statToIndexTuple port st stat).bind sexpToTuple with
  | some tuple => if tipExists cs repair st tuple then some tuple else none
  | none => none

def directoryEntry (path : Path) (stat : Stat) (tuple : Option IndexTuple) : DirectoryEntry :=
  ⟨basename path, stat.kind, stat.mtime, stat.size, stat.perms, tuple⟩

/-- The index of `process-file`: an empty file has none. -/
def fileTuple (path : Path) (stat : Stat) (data : Bytes) (st : BackupState σ) :
    Outcome (Option IndexTuple × BackupState σ) :=
  if stat.size = 0 then .done (none, st)
  else
    match cachedTuple port cs repair st stat with
    | some tuple => .done (some tuple, st)
    | none => storeCache port cs choosePipeline path stat data st

def processFile (path : Path) (stat : Stat) (data : Bytes) :
    EntryStack × BackupState σ → Outcome (EntryStack × BackupState σ)
  | (result, st) =>
    if worthlessFile path stat then .done (result, st)
    else do
      let (tuple, st) ← fileTuple port cs choosePipeline repair path stat data st
      match result with
      | entries :: result => return ((directoryEntry path stat tuple :: entries) :: result, st)
      | [] => .abort

def storeDirectory (dir : Directory) (st : BackupState σ) : Outcome (IndexTuple × BackupState σ) :=
  putContents cs cs.directoryStoragePipeline (writeDirectory port dir) st

/-- The local procedure `do-store` of `store-directory*`. -/
def doStore (stat : Stat) (entries : List DirectoryEntry) (prevTuples : List IndexTuple)
    (st : BackupState σ) : Outcome (IndexTuple × BackupState σ) := do
  let dir : Directory := ⟨prevTuples, entries⟩
  let (tuple, st) ← storeDirectory port cs dir st
  return (tuple, cacheIndex port st stat tuple (directoryToSexp dir))

/-- A cached entry whose stamp is a serialized directory. -/
def cachedDirectory (st : BackupState σ) (stat : Stat) : Option (BackupSexp × BackupSexp) :=
  match statToCachedEntry port st stat with
  | some (.pair (.pair (.atom (.symbol (.kind .directory))) fields) prevTuple) =>
    (Sexp.toList? fields).map fun _ =>
      (.pair (.atom (.symbol (.kind .directory))) fields, prevTuple)
  | _ => none

def storeDirectoryVersion (stat : Stat) (entries : List DirectoryEntry) (st : BackupState σ) :
    Outcome (IndexTuple × BackupState σ) :=
  match cachedDirectory port st stat with
  | some (dirSexp, prevTuple) =>
    match sexpToDirectory dirSexp, sexpToTuple prevTuple with
    | .ok prevDir, some prevTuple =>
      if lsetEq prevDir.entries entries then
        if tipExists cs repair st prevTuple then .done (prevTuple, st)
        else do
          let (tuple, st) ← storeDirectory port cs prevDir st
          return (tuple,
            if tuple = prevTuple then st else cacheIndex port st stat tuple (directoryToSexp prevDir))
      else
        doStore port cs stat entries
          (strip (prevTuple :: prevDir.previous) maxDirectoryPreviousTuples) st
    | _, _ => .abort
  | none => doStore port cs stat entries [] st

def enterDirectory? (path : Path) (stat : Stat) : Bool := !worthlessFile path stat

def enterDirectory (_ : Path) (_ : Stat) :
    EntryStack × BackupState σ → Outcome (EntryStack × BackupState σ)
  | (result, st) => .done ([] :: result, st)

def leaveDirectory (path : Path) (stat : Stat) :
    EntryStack × BackupState σ → Outcome (EntryStack × BackupState σ)
  | (entries :: siblings :: result, st) => do
    let (tuple, st) ← storeDirectoryVersion port cs repair stat entries st
    return ((directoryEntry path stat (some tuple) :: siblings) :: result, st)
  | _ => .abort

def skipDirectory (_ : Path) (_ : Stat) (a : EntryStack × BackupState σ) :
    Outcome (EntryStack × BackupState σ) := .done a

def runStoragePipelineRecursive (fuel : Nat) (path : Path) (tree : FileTree) (st : BackupState σ) :
    Outcome (Option IndexTuple × BackupState σ) := do
  let (result, st) ← fileSystemFold enterDirectory?
    (processFile port cs choosePipeline repair) enterDirectory
    (leaveDirectory port cs repair) skipDirectory fuel ([[]], st) path tree
  match result with
  | [[dir]] => return (dir.tuple, st)
  | _ => .abort

end Libchop
