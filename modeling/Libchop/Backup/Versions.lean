import Libchop.Backup.RecursiveSteps

/-!
# Directory versions over many backups

The mapping outlives a backup: it tells the next one which version of the directory was stored
last, and that version becomes the first of the new one's previous versions.  Blocks may vanish
from the store in between.
-/

namespace Libchop

/-- One backup of a directory: its arguments, and the directory and the store as they are then. -/
structure BackupRun (σ Pl : Type) where
  choosePipeline : Path → Stat → Pl
  repair : Bool
  path : Path
  info : FileMeta
  size : Nat
  files : List (String × FileTree)
  store : σ

def BackupRun.tree {σ Pl : Type} (run : BackupRun σ Pl) : FileTree :=
  .directory run.info run.size run.files

/-- The entries a backup found in the directory, the tuple it returned, and what it left. -/
structure BackupResult (σ : Type) where
  entries : List DirectoryEntry
  tuple : IndexTuple
  state : BackupState σ

section Runs

variable {σ Pl : Type} (port : SexpPort BackupSymbol) (cs : ContentStore σ Pl)

/-- The entries that a backup hands to `store-directory*` for the directory itself. -/
def foundEntries (run : BackupRun σ Pl) (mapping : FileId → Option Bytes) :
    Nat → Outcome (List DirectoryEntry)
  | 0 => .outOfFuel
  | fuel + 1 => do
    let (entries, _) ← contentsEntries port cs run.choosePipeline run.repair
      (treeEntries port cs run.choosePipeline run.repair fuel) run.path run.files [run.info.id]
      ⟨run.store, mapping⟩
    return entries

def backupRun (fuel : Nat) (run : BackupRun σ Pl) (mapping : FileId → Option Bytes) :
    Outcome (BackupResult σ) := do
  let entries ← foundEntries port cs run mapping fuel
  let (tuple, state) ← runStoragePipelineRecursive port cs run.choosePipeline run.repair fuel
    run.path run.tree ⟨run.store, mapping⟩
  match tuple with
  | some tuple => return ⟨entries, tuple, state⟩
  | none => .abort

/-- Backups one after the other; each finds the mapping that the one before it left. -/
def backupRuns (fuel : Nat) : List (BackupRun σ Pl) → (FileId → Option Bytes) →
    Outcome (List (BackupResult σ))
  | [], _ => .done []
  | run :: runs, mapping => do
    let result ← backupRun port cs fuel run mapping
    let results ← backupRuns fuel runs result.state.mapping
    return result :: results

/-- The directory that the mapping has under an identifier, with its tuple. -/
def knownVersion (mapping : FileId → Option Bytes) (id : FileId) : Option (Directory × IndexTuple) :=
  match (mapping id).bind port.read with
  | some (.pair dirSexp tuple) => do
    return (← (sexpToDirectory dirSexp).toOption, ← sexpToTuple tuple)
  | _ => none

def storedDirectory (result : BackupResult σ) : Option Directory :=
  match cs.retrieve result.state.store result.tuple with
  | .ok bytes => (readDirectory port bytes).toOption
  | .error _ => none

end Runs

/-- Directories are stored under tuples that depend on nothing but the data, as with a block
indexer that takes keys from contents. -/
structure Convergent {σ Pl : Type} (cs : ContentStore σ Pl) (tupleOf : Bytes → IndexTuple) :
    Prop where
  tuple : ∀ {data w tuple w'}, cs.put cs.directoryStoragePipeline data w = (.ok tuple, w') →
    tuple = tupleOf data
  root_exists : ∀ {data w tuple w'}, cs.put cs.directoryStoragePipeline data w = (.ok tuple, w') →
    cs.indexedBlockExists w' tuple.index = true
  retrieve : ∀ {data w tuple w'}, cs.put cs.directoryStoragePipeline data w = (.ok tuple, w') →
    cs.retrieve w' tuple = .ok data

def SameEntries (xs ys : List DirectoryEntry) : Prop := ∀ x, x ∈ xs ↔ x ∈ ys

theorem lsetEq_iff {xs ys : List DirectoryEntry} : lsetEq xs ys = true ↔ SameEntries xs ys := by
  simp only [lsetEq, Bool.and_eq_true, List.all_eq_true, decide_eq_true_eq]
  constructor
  · intro ⟨hxy, hyx⟩ x
    exact ⟨hxy x, hyx x⟩
  · intro h
    exact ⟨fun x => (h x).mp, fun y => (h y).mpr⟩

/-- The directory that is stored for some entries, given the version before. -/
def nextDirectory (tupleOf : Directory → IndexTuple) :
    Option Directory → List DirectoryEntry → Directory
  | none, entries => ⟨[], entries⟩
  | some dir, entries =>
    if lsetEq dir.entries entries then dir
    else ⟨(tupleOf dir :: dir.previous).take maxDirectoryPreviousTuples, entries⟩

theorem nextDirectory_entries (tupleOf : Directory → IndexTuple) (last : Option Directory)
    (entries : List DirectoryEntry) :
    SameEntries (nextDirectory tupleOf last entries).entries entries := by
  cases last with
  | none =>
    intro x
    exact Iff.rfl
  | some dir =>
    rw [nextDirectory]
    split
    · next hsame => exact lsetEq_iff.mp hsame
    · intro x
      exact Iff.rfl

private theorem strip_eq_take {α : Type} (xs : List α) (max : Nat) : strip xs max = xs.take max := by
  rw [strip]
  split
  · next hle => rw [List.take_of_length_le hle]
  · rfl

/-- The mapping knows of the given version of a directory and of no other. -/
def Tracks (port : SexpPort BackupSymbol) (tupleOf : Directory → IndexTuple)
    (mapping : FileId → Option Bytes) (id : FileId) : Option Directory → Prop
  | none => NoDirectory port mapping id
  | some dir => mapping id = some (mappingEntry port (directoryToSexp dir) (tupleOf dir))

variable {σ Pl : Type} {port : SexpPort BackupSymbol} {cs : ContentStore σ Pl}
  {choosePipeline : Path → Stat → Pl} {repair : Bool} {tupleOf : Bytes → IndexTuple}

private theorem directory_mappingEntry_inj {dir dir' : Directory} {tuple tuple' : IndexTuple}
    (h : mappingEntry port (directoryToSexp dir) tuple =
      mappingEntry port (directoryToSexp dir') tuple') : dir = dir' ∧ tuple = tuple' := by
  have hread := congrArg port.read h
  rw [mappingEntry, mappingEntry, port.read_write, port.read_write, Option.some.injEq,
    Sexp.pair.injEq] at hread
  constructor
  · have hdir := congrArg sexpToDirectory hread.1
    rw [sexpToDirectory_directoryToSexp, sexpToDirectory_directoryToSexp] at hdir
    exact Except.ok.inj hdir
  · have htuple := congrArg sexpToTuple hread.2
    rw [sexpToTuple_tupleToSexp, sexpToTuple_tupleToSexp] at htuple
    exact Option.some.inj htuple

theorem knownVersion_of_tracks {versionTuple : Directory → IndexTuple}
    {mapping : FileId → Option Bytes} {id : FileId} {dir : Directory}
    (h : Tracks port versionTuple mapping id (some dir)) :
    knownVersion port mapping id = some (dir, versionTuple dir) := by
  rw [Tracks] at h
  rw [knownVersion, h, Option.bind_some, mappingEntry, port.read_write]
  simp only [sexpToDirectory_directoryToSexp, sexpToTuple_tupleToSexp]
  rfl

/-- The directory is not the one that is known already. -/
def Fresh (last : Option Directory) (entries : List DirectoryEntry) : Prop :=
  ∀ dir, last = some dir → ¬ SameEntries dir.entries entries

/-- What one backup of a directory does, given the version that was stored before. -/
structure VersionStep (port : SexpPort BackupSymbol) (cs : ContentStore σ Pl)
    (tupleOf : Directory → IndexTuple) (id : FileId) (last : Option Directory)
    (result : BackupResult σ) : Prop where
  tuple : result.tuple = tupleOf (nextDirectory tupleOf last result.entries)
  tracks : Tracks port tupleOf result.state.mapping id
    (some (nextDirectory tupleOf last result.entries))
  root_exists : cs.indexedBlockExists result.state.store result.tuple.index = true
  stored : Fresh last result.entries →
    storedDirectory port cs result = some (nextDirectory tupleOf last result.entries)

private theorem storedDirectory_of_retrieve {result : BackupResult σ} {dir : Directory}
    (h : cs.retrieve result.state.store result.tuple = .ok (writeDirectory port dir)) :
    storedDirectory port cs result = some dir := by
  rw [storedDirectory, h]
  simp only [readDirectory_writeDirectory]
  rfl

section Step

variable (hconv : Convergent cs tupleOf)
include hconv

private theorem versionStep_of_put {stat : Stat} {entries : List DirectoryEntry}
    {st : BackupState σ} {last : Option Directory} {tuple : IndexTuple} {w : σ} {dir : Directory}
    (hdir : nextDirectory (fun dir => tupleOf (writeDirectory port dir)) last entries = dir)
    (hput : cs.put cs.directoryStoragePipeline (writeDirectory port dir) st.store =
      (.ok tuple, w)) :
    VersionStep port cs (fun dir => tupleOf (writeDirectory port dir)) stat.id last
      ⟨entries, tuple, cacheIndex port { st with store := w } stat tuple (directoryToSexp dir)⟩ where
  tuple := by
    simp only [hdir]
    exact hconv.tuple hput
  tracks := by
    simp only [hdir, Tracks]
    rw [cacheIndex_mapping, hconv.tuple hput]
  root_exists := hconv.root_exists hput
  stored := by
    intro _
    rw [hdir]
    exact storedDirectory_of_retrieve (hconv.retrieve hput)

/-- What `store-directory*` does is a step of the abstract version history. -/
theorem DirectoryStored.versionStep {stat : Stat} {entries : List DirectoryEntry}
    {st st' : BackupState σ} {tuple : IndexTuple} {last : Option Directory}
    (hlast : Tracks port (fun dir => tupleOf (writeDirectory port dir)) st.mapping stat.id last)
    (h : DirectoryStored port cs stat entries st tuple st') :
    VersionStep port cs (fun dir => tupleOf (writeDirectory port dir)) stat.id last
      ⟨entries, tuple, st'⟩ := by
  cases last with
  | none =>
    cases h with
    | first hunknown hput => exact versionStep_of_put hconv rfl hput
    | unchanged hknown hsame hexists => exact (hlast _ _ hknown).elim
    | restored hknown hsame hput => exact (hlast _ _ hknown).elim
    | changed hknown hdiffer hput => exact (hlast _ _ hknown).elim
  | some dir =>
    rw [Tracks] at hlast
    cases h with
    | first hunknown hput => exact (hunknown _ _ hlast).elim
    | unchanged hknown hsame hexists =>
      rw [hlast, Option.some.injEq] at hknown
      obtain ⟨rfl, rfl⟩ := directory_mappingEntry_inj hknown
      constructor
      · simp only [nextDirectory, if_pos hsame]
      · simp only [nextDirectory, if_pos hsame]
        exact hlast
      · exact hexists
      · intro hfresh
        exact (hfresh dir rfl (lsetEq_iff.mp hsame)).elim
    | @restored dir' prevTuple tuple w hknown hsame hput =>
      rw [hlast, Option.some.injEq] at hknown
      obtain ⟨rfl, rfl⟩ := directory_mappingEntry_inj hknown
      have htuple := hconv.tuple hput
      rw [if_pos htuple]
      constructor
      · simp only [nextDirectory, if_pos hsame]
        exact htuple
      · simp only [nextDirectory, if_pos hsame]
        exact hlast
      · exact hconv.root_exists hput
      · intro hfresh
        exact (hfresh dir rfl (lsetEq_iff.mp hsame)).elim
    | changed hknown hdiffer hput =>
      rw [hlast, Option.some.injEq] at hknown
      obtain ⟨rfl, rfl⟩ := directory_mappingEntry_inj hknown
      apply versionStep_of_put hconv _ hput
      rw [nextDirectory, hdiffer, if_neg Bool.false_ne_true, strip_eq_take]

end Step

/-- A part of a backup writes to the mapping only under the given identifiers. -/
def Touches (port : SexpPort BackupSymbol) (ids : FileId → Prop) (st st' : BackupState σ) : Prop :=
  MappingOk port st'.mapping ∧ ∀ id, ¬ ids id → st'.mapping id = st.mapping id

private theorem Touches.trans {ids : FileId → Prop} {st st' st'' : BackupState σ}
    (h : Touches port ids st st') (h' : Touches port ids st' st'') : Touches port ids st st'' := by
  constructor
  · exact h'.1
  · intro id hid
    rw [h'.2 id hid, h.2 id hid]

private theorem fileEntries_touches {ids : FileId → Prop} {path : Path} {kind : FileKind}
    {info : FileMeta} {data : Bytes} {st : BackupState σ} (hid : ids info.id)
    (hok : MappingOk port st.mapping) :
    (fileEntries port cs choosePipeline repair path (FileTree.leaf kind info data).stat data
      st).Ensures (StoresData cs) fun r => Touches port ids st r.2 := by
  rw [fileEntries]
  split
  · exact .done ⟨hok, fun _ _ => rfl⟩
  · apply (fileTuple_ensures rfl hok).bind
    intro r hr
    apply Outcome.Ensures.done
    constructor
    · exact hr.mappingOk hok
    · intro id hne
      apply hr.mapping_of_ne
      intro heq
      rw [heq] at hne
      exact hne hid

private theorem leafEntries_touches {ids : FileId → Prop} {path : Path}
    {files : List (String × FileTree)} {st : BackupState σ}
    (hids : ∀ file ∈ files, ids file.2.stat.id) (hok : MappingOk port st.mapping) :
    (leafEntries port cs choosePipeline repair path files st).Ensures (StoresData cs) fun r =>
      Touches port ids st r.2 := by
  induction files generalizing st with
  | nil => exact .done ⟨hok, fun _ _ => rfl⟩
  | cons file files ih =>
    obtain ⟨name, tree⟩ := file
    have hrest : ∀ file ∈ files, ids file.2.stat.id :=
      fun file hmem => hids file (List.mem_cons_of_mem _ hmem)
    cases tree with
    | leaf kind info data =>
      apply (fileEntries_touches (hids _ List.mem_cons_self) hok).bind
      intro r hr
      apply (ih hrest hr.1).bind
      intro r' hr'
      exact .done (hr.trans hr')
    | directory info size children => exact ih hrest hok

private theorem subdirEntries_touches {ids : FileId → Prop}
    {loop : Path → FileTree → List FileId → BackupState σ →
      Outcome (List DirectoryEntry × List FileId × BackupState σ)} (path : Path)
    {subdirs : List (String × FileTree)} (visited : List FileId) {st : BackupState σ}
    (hloop : ∀ subdir ∈ subdirs, ∀ path visited st, MappingOk port st.mapping →
      (loop path subdir.2 visited st).Ensures (StoresData cs) fun r => Touches port ids st r.2.2)
    (hok : MappingOk port st.mapping) :
    (subdirEntries loop path subdirs visited st).Ensures (StoresData cs) fun r =>
      Touches port ids st r.2.2 := by
  induction subdirs generalizing visited st with
  | nil => exact .done ⟨hok, fun _ _ => rfl⟩
  | cons subdir subdirs ih =>
    apply (hloop subdir List.mem_cons_self _ _ _ hok).bind
    intro r hr
    apply (ih r.2.1 (fun subdir hmem => hloop subdir (List.mem_cons_of_mem _ hmem)) hr.1).bind
    intro r' hr'
    exact .done (hr.trans hr')

private theorem mem_of_mem_subdirectories {files : List (String × FileTree)}
    {file : String × FileTree} (h : file ∈ subdirectories files) : file ∈ files :=
  List.mem_of_mem_filter (List.mem_reverse.mp h)

private theorem contentsEntries_touches {ids : FileId → Prop}
    {loop : Path → FileTree → List FileId → BackupState σ →
      Outcome (List DirectoryEntry × List FileId × BackupState σ)} (path : Path)
    {files : List (String × FileTree)} (visited : List FileId) {st : BackupState σ}
    (hids : ∀ file ∈ files, ids file.2.stat.id)
    (hloop : ∀ file ∈ files, ∀ path visited st, MappingOk port st.mapping →
      (loop path file.2 visited st).Ensures (StoresData cs) fun r => Touches port ids st r.2.2)
    (hok : MappingOk port st.mapping) :
    (contentsEntries port cs choosePipeline repair loop path files visited st).Ensures
      (StoresData cs) fun r => Touches port ids st r.2.2 := by
  apply (leafEntries_touches hids hok).bind
  intro r hr
  apply (subdirEntries_touches path visited
    (fun subdir hmem => hloop subdir (mem_of_mem_subdirectories hmem)) hr.1).bind
  intro r' hr'
  exact .done (hr.trans hr')

/-- What is stored of a tree leaves the mapping alone for files that are not in it. -/
theorem treeEntries_touches {ids : FileId → Prop} {fuel : Nat} (path : Path) {tree : FileTree}
    (visited : List FileId) {st : BackupState σ} (hwithin : tree.Within fuel)
    (hids : ∀ inner, tree.Contains inner → ids inner.stat.id) (hok : MappingOk port st.mapping) :
    (treeEntries port cs choosePipeline repair fuel path tree visited st).Ensures (StoresData cs)
      fun r => Touches port ids st r.2.2 := by
  induction fuel generalizing path tree visited st with
  | zero => exact hwithin.elim
  | succ fuel ih =>
    unfold treeEntries
    split
    · exact .done ⟨hok, fun _ _ => rfl⟩
    · cases tree with
      | leaf kind info data =>
        apply (fileEntries_touches (hids _ (.refl _)) hok).bind
        intro r hr
        exact .done hr
      | directory info size files =>
        simp only
        split
        · have hfiles : ∀ file ∈ files, ids file.2.stat.id :=
            fun file hmem => hids _ (.entry hmem (.refl _))
          have hloop : ∀ file ∈ files, ∀ path visited st, MappingOk port st.mapping →
              (treeEntries port cs choosePipeline repair fuel path file.2 visited st).Ensures
                (StoresData cs) fun r => Touches port ids st r.2.2 := by
            intro file hmem path visited st hok
            apply ih path visited (hwithin file hmem) _ hok
            intro inner hinner
            exact hids inner (.entry hmem hinner)
          apply (contentsEntries_touches path (info.id :: visited) hfiles hloop hok).bind
          intro r hr
          apply (storeDirectoryVersion_ensures hr.1).bind
          intro r' hr'
          apply Outcome.Ensures.done
          apply hr.trans
          constructor
          · exact hr'.mappingOk hr.1
          · intro id hne
            apply hr'.mapping_of_ne
            intro heq
            rw [heq] at hne
            exact hne (hids _ (.refl _))
        · exact .done ⟨hok, fun _ _ => rfl⟩

private theorem backupRun_eq (fuel : Nat) (run : BackupRun σ Pl)
    (mapping : FileId → Option Bytes) :
    backupRun port cs (fuel + 1) run mapping = (do
      let (entries, _, st) ← contentsEntries port cs run.choosePipeline run.repair
        (treeEntries port cs run.choosePipeline run.repair fuel) run.path run.files [run.info.id]
        ⟨run.store, mapping⟩
      if enterDirectory? run.path run.tree.stat then do
        let (tuple, st) ← storeDirectoryVersion port cs run.repair run.tree.stat entries st
        return ⟨entries, tuple, st⟩
      else .abort) := by
  rw [backupRun, foundEntries, BackupRun.tree, runStoragePipelineRecursive_directory]
  cases contentsEntries port cs run.choosePipeline run.repair
    (treeEntries port cs run.choosePipeline run.repair fuel) run.path run.files [run.info.id]
    ⟨run.store, mapping⟩ with
  | abort => rfl
  | outOfFuel => rfl
  | done r =>
    simp only [Outcome.done_bind, Outcome.pure_eq_done]
    split
    · simp only [Outcome.bind_assoc, Outcome.done_bind]
    · rfl

/-- The directory has no other name below itself. -/
def BackupRun.Proper (run : BackupRun σ Pl) : Prop :=
  ∀ file ∈ run.files, ∀ inner, file.2.Contains inner → inner.stat.id ≠ run.info.id

section Runs

variable (hconv : Convergent cs tupleOf)
include hconv

private theorem backupRun_ensures {run : BackupRun σ Pl} (hproper : run.Proper) {fuel : Nat}
    (hwithin : run.tree.Within fuel) {mapping : FileId → Option Bytes}
    (hok : MappingOk port mapping) {last : Option Directory}
    (hlast : Tracks port (fun dir => tupleOf (writeDirectory port dir)) mapping run.info.id last) :
    (backupRun port cs fuel run mapping).Ensures
      (StoresData cs ∧ enterDirectory? run.path run.tree.stat = true) fun result =>
        VersionStep port cs (fun dir => tupleOf (writeDirectory port dir)) run.info.id last result ∧
          MappingOk port result.state.mapping := by
  cases fuel with
  | zero => exact hwithin.elim
  | succ fuel =>
    rw [backupRun_eq]
    have hloop : ∀ file ∈ run.files, ∀ path visited st, MappingOk port st.mapping →
        (treeEntries port cs run.choosePipeline run.repair fuel path file.2 visited st).Ensures
          (StoresData cs) fun r => Touches port (· ≠ run.info.id) st r.2.2 := by
      intro file hmem path visited st hok
      exact treeEntries_touches path visited (hwithin file hmem) (hproper file hmem) hok
    have hcontents : (contentsEntries port cs run.choosePipeline run.repair
        (treeEntries port cs run.choosePipeline run.repair fuel) run.path run.files [run.info.id]
        ⟨run.store, mapping⟩).Ensures (StoresData cs) fun r =>
          Touches port (· ≠ run.info.id) ⟨run.store, mapping⟩ r.2.2 :=
      contentsEntries_touches run.path [run.info.id]
        (fun file hmem => hproper file hmem _ (.refl _)) hloop hok
    apply (hcontents.imp_total And.left).bind
    intro r hr
    simp only
    split
    · have hkept : r.2.2.mapping run.info.id = mapping run.info.id :=
        hr.2 run.info.id (not_not.mpr rfl)
      have htracks : Tracks port (fun dir => tupleOf (writeDirectory port dir)) r.2.2.mapping
          run.tree.stat.id last := by
        cases last with
        | none =>
          intro dir tuple
          rw [BackupRun.tree, FileTree.stat, hkept]
          exact hlast dir tuple
        | some dir => exact hkept.trans hlast
      apply ((storeDirectoryVersion_ensures hr.1).imp_total And.left).bind
      intro r' hr'
      exact .done ⟨hr'.versionStep hconv htracks, hr'.mappingOk hr.1⟩
    · next hskip =>
      apply Outcome.Ensures.of_not_total
      · exact fun htotal => hskip htotal.2
      · intro ⟨result, hresult⟩
        cases hresult

end Runs

/-- Backups one after the other take the steps of the abstract version history. -/
inductive Versions (port : SexpPort BackupSymbol) (cs : ContentStore σ Pl)
    (tupleOf : Directory → IndexTuple) (id : FileId) :
    Option Directory → List (BackupResult σ) → Prop where
  | nil (last : Option Directory) : Versions port cs tupleOf id last []
  | cons {last : Option Directory} {result : BackupResult σ} {results : List (BackupResult σ)}
      (h : VersionStep port cs tupleOf id last result)
      (hrest : Versions port cs tupleOf id (some (nextDirectory tupleOf last result.entries))
        results) :
      Versions port cs tupleOf id last (result :: results)

/-- The runs refine the abstract version history. -/
theorem backupRuns_ensures (hconv : Convergent cs tupleOf) {runs : List (BackupRun σ Pl)}
    {id : FileId} (hid : ∀ run ∈ runs, run.info.id = id) (hproper : ∀ run ∈ runs, run.Proper)
    {fuel : Nat} (hwithin : ∀ run ∈ runs, run.tree.Within fuel) {mapping : FileId → Option Bytes}
    (hok : MappingOk port mapping) {last : Option Directory}
    (hlast : Tracks port (fun dir => tupleOf (writeDirectory port dir)) mapping id last) :
    (backupRuns port cs fuel runs mapping).Ensures
      (StoresData cs ∧ ∀ run ∈ runs, enterDirectory? run.path run.tree.stat = true) fun results =>
        results.length = runs.length ∧
          Versions port cs (fun dir => tupleOf (writeDirectory port dir)) id last results := by
  induction runs generalizing mapping last with
  | nil => exact .done ⟨rfl, .nil last⟩
  | cons run runs ih =>
    have hrun := hid run List.mem_cons_self
    rw [← hrun] at hlast
    apply ((backupRun_ensures hconv (hproper run List.mem_cons_self)
      (hwithin run List.mem_cons_self) hok hlast).imp_total fun htotal =>
        ⟨htotal.1, htotal.2 run List.mem_cons_self⟩).bind
    intro result ⟨hstep, hok'⟩
    rw [hrun] at hstep
    apply ((ih (fun run hmem => hid run (List.mem_cons_of_mem _ hmem))
      (fun run hmem => hproper run (List.mem_cons_of_mem _ hmem))
      (fun run hmem => hwithin run (List.mem_cons_of_mem _ hmem)) hok' hstep.tracks).imp_total
        fun htotal => ⟨htotal.1, fun run hmem => htotal.2 run (List.mem_cons_of_mem _ hmem)⟩).bind
    intro results ⟨hlength, hrest⟩
    exact .done ⟨congrArg (· + 1) hlength, .cons hstep hrest⟩

/-- How the results of two consecutive backups are related. -/
structure NextVersion (port : SexpPort BackupSymbol) (cs : ContentStore σ Pl) (id : FileId)
    (result next : BackupResult σ) : Prop where
  unchanged : SameEntries result.entries next.entries → next.tuple = result.tuple ∧
    cs.indexedBlockExists next.state.store next.tuple.index = true
  changed : ¬ SameEntries result.entries next.entries → ∃ dir dir',
    knownVersion port result.state.mapping id = some (dir, result.tuple) ∧
      storedDirectory port cs next = some dir' ∧ dir'.entries = next.entries ∧
      dir'.previous = (result.tuple :: dir.previous).take maxDirectoryPreviousTuples

private theorem SameEntries.trans {xs ys zs : List DirectoryEntry} (h : SameEntries xs ys)
    (h' : SameEntries ys zs) : SameEntries xs zs := fun x => (h x).trans (h' x)

private theorem SameEntries.symm {xs ys : List DirectoryEntry} (h : SameEntries xs ys) :
    SameEntries ys xs := fun x => (h x).symm

section History

variable {versionTuple : Directory → IndexTuple} {id : FileId} {last : Option Directory}

private theorem fresh_next_iff {result : BackupResult σ} {entries : List DirectoryEntry} :
    Fresh (some (nextDirectory versionTuple last result.entries)) entries ↔
      ¬ SameEntries result.entries entries := by
  have hsame := nextDirectory_entries versionTuple last result.entries
  constructor
  · intro hfresh hentries
    exact hfresh _ rfl (hsame.trans hentries)
  · intro hdiffer dir hdir
    cases hdir
    intro hentries
    exact hdiffer (hsame.symm.trans hentries)

/-- What a new version remembers: the tuples of the versions before it. -/
def remembered (versionTuple : Directory → IndexTuple) : Option Directory → List IndexTuple
  | none => []
  | some dir => versionTuple dir :: dir.previous

private theorem nextDirectory_of_fresh {entries : List DirectoryEntry} (h : Fresh last entries) :
    nextDirectory versionTuple last entries =
      ⟨(remembered versionTuple last).take maxDirectoryPreviousTuples, entries⟩ := by
  cases last with
  | none => rfl
  | some dir =>
    rw [nextDirectory, if_neg]
    · rfl
    · intro hsame
      exact h dir rfl (lsetEq_iff.mp hsame)

private theorem nextVersion_of_steps {result next : BackupResult σ}
    (h : VersionStep port cs versionTuple id last result)
    (h' : VersionStep port cs versionTuple id
      (some (nextDirectory versionTuple last result.entries)) next) :
    NextVersion port cs id result next where
  unchanged := by
    intro hsame
    constructor
    · rw [h'.tuple, h.tuple]
      apply congrArg
      rw [nextDirectory, if_pos]
      apply lsetEq_iff.mpr
      exact (nextDirectory_entries versionTuple last result.entries).trans hsame
    · exact h'.root_exists
  changed := by
    intro hdiffer
    have hfresh : Fresh (some (nextDirectory versionTuple last result.entries)) next.entries :=
      fresh_next_iff.mpr hdiffer
    have hknown := knownVersion_of_tracks h.tracks
    have hstored := h'.stored hfresh
    rw [← h.tuple] at hknown
    rw [nextDirectory_of_fresh hfresh, remembered, ← h.tuple] at hstored
    exact ⟨_, _, hknown, hstored, rfl, rfl⟩

theorem Versions.isChain {results : List (BackupResult σ)}
    (h : Versions port cs versionTuple id last results) :
    results.IsChain (NextVersion port cs id) := by
  induction h with
  | nil last => exact .nil
  | cons h hrest ih =>
    cases hrest with
    | nil last => exact .singleton _
    | cons h' hrest' => exact .cons_cons (nextVersion_of_steps h h') ih

private theorem take_append_cons_take {α : Type} (n : Nat) (xs : List α) (y : α) (zs : List α) :
    (xs ++ y :: zs.take n).take n = (xs ++ y :: zs).take n := by
  rw [List.take_append, List.take_append]
  apply congrArg
  cases hm : n - xs.length with
  | zero => rfl
  | succ m => rw [List.take_succ_cons, List.take_succ_cons, List.take_take, min_eq_left (by omega)]

/-- As long as the directory changes every time, each version remembers those before it, the most
recent one first. -/
theorem Versions.previous {results : List (BackupResult σ)}
    (h : Versions port cs versionTuple id last results)
    (hfirst : ∀ result ∈ results.head?, Fresh last result.entries)
    {k : Nat} (hchanges : (results.take (k + 1)).IsChain fun result next =>
      ¬ SameEntries result.entries next.entries)
    {result : BackupResult σ} (hk : results[k]? = some result) :
    storedDirectory port cs result = some
      ⟨(((results.take k).map BackupResult.tuple).reverse ++
        remembered versionTuple last).take maxDirectoryPreviousTuples, result.entries⟩ := by
  induction h generalizing k with
  | nil last => cases hk
  | @cons last first results h hrest ih =>
    have hfresh : Fresh last first.entries := hfirst first rfl
    cases k with
    | zero =>
      cases hk
      rw [h.stored hfresh, nextDirectory_of_fresh hfresh]
      rfl
    | succ k =>
      rw [List.take_succ_cons] at hchanges
      have hnext : ∀ next ∈ results.head?,
          Fresh (some (nextDirectory versionTuple last first.entries)) next.entries := by
        intro next hmem
        apply fresh_next_iff.mpr
        cases results with
        | nil => cases hmem
        | cons next' results =>
          cases hmem
          exact hchanges.rel
      have hdir := ih hnext hchanges.tail hk
      rw [remembered, ← h.tuple, nextDirectory_of_fresh hfresh, take_append_cons_take] at hdir
      rw [hdir, List.take_succ_cons, List.map_cons, List.reverse_cons, List.append_assoc,
        List.singleton_append]

end History

/-- Whatever becomes of the directory and of the store between backups: a backup that finds the
same entries as the one before returns its tuple and leaves its root block in the store, and one
that finds others stores a directory that remembers the version before and what that one
remembered.  So the previous versions are the ten most recent ones as long as the directory keeps
changing. -/
theorem backupRuns_keep_versions (hconv : Convergent cs tupleOf) {runs : List (BackupRun σ Pl)}
    {id : FileId} (hid : ∀ run ∈ runs, run.info.id = id) (hproper : ∀ run ∈ runs, run.Proper)
    {mapping : FileId → Option Bytes} (hok : MappingOk port mapping)
    (hunknown : NoDirectory port mapping id) :
    ∃ bound, ∀ fuel, bound ≤ fuel → (backupRuns port cs fuel runs mapping).Ensures
      (StoresData cs ∧ ∀ run ∈ runs, enterDirectory? run.path run.tree.stat = true) fun results =>
        results.length = runs.length ∧ results.IsChain (NextVersion port cs id) ∧
        ∀ k result, results[k]? = some result →
          ((results.take (k + 1)).IsChain fun result next =>
            ¬ SameEntries result.entries next.entries) →
          storedDirectory port cs result = some
            ⟨(((results.take k).map BackupResult.tuple).reverse).take maxDirectoryPreviousTuples,
              result.entries⟩ := by
  have hdepth : ∀ e ∈ runs.map fun run => ("", run.tree), ∃ depth, e.2.Within depth :=
    fun e _ => e.2.exists_within
  obtain ⟨bound, hbound⟩ := FileTree.exists_within_list hdepth
  refine ⟨bound, fun fuel hfuel => ?_⟩
  have hwithin : ∀ run ∈ runs, run.tree.Within fuel :=
    fun run hmem => (hbound _ (List.mem_map_of_mem hmem)).mono hfuel
  have hlast : Tracks port (fun dir => tupleOf (writeDirectory port dir)) mapping id none := hunknown
  apply (backupRuns_ensures hconv hid hproper hwithin hok hlast).mono
  intro results ⟨hlength, hversions⟩
  refine ⟨hlength, hversions.isChain, ?_⟩
  intro k result hk hchanges
  have hstored := hversions.previous (fun _ _ _ h => by cases h) hchanges hk
  rw [remembered, List.append_nil] at hstored
  exact hstored

theorem memoryStore_convergent : Convergent memoryStore memoryTuple where
  tuple := by
    intro data w tuple w' hput
    cases hput
    rfl
  root_exists := by
    intro data w tuple w' hput
    cases hput
    simp [memoryStore, memoryData_memoryTuple]
  retrieve := memoryStore_retrieve_put

/-- A directory that is empty at first, then has a file and a store without any block, and is not
changed after that. -/
def sampleRuns : List (BackupRun (Bytes → Bool) Unit) :=
  let run (files : List (String × FileTree)) : BackupRun (Bytes → Bool) Unit :=
    ⟨fun _ _ => (), false, ["root"], ⟨⟨1, 1⟩, 1325376000, 0o755⟩, 4096, files, fun _ => false⟩
  let file : FileTree := .leaf .regular ⟨⟨2, 1⟩, 1325376000, 0o644⟩ [104, 105]
  [run [], run [("a", file)], run [("a", file)]]

theorem sampleRuns_proper : ∀ run ∈ sampleRuns, run.Proper := by
  have hfiles : ∀ run ∈ sampleRuns, ∀ file ∈ run.files,
      file = ("a", .leaf .regular ⟨⟨2, 1⟩, 1325376000, 0o644⟩ [104, 105]) := by
    simp [sampleRuns]
  have hid : ∀ run ∈ sampleRuns, run.info.id = ⟨1, 1⟩ := by decide
  intro run hrun file hfile inner hinner
  rw [hfiles run hrun file hfile] at hinner
  rw [hid run hrun]
  cases hinner with
  | refl => decide

/-- Three backups, with a different store each time. -/
theorem sampleRuns_keep_versions : ∃ bound, ∀ fuel, bound ≤ fuel →
    ∃ results, backupRuns (Sexp.plainPort _) memoryStore fuel sampleRuns (fun _ => none) =
        .done results ∧
      results.length = 3 ∧ results.IsChain (NextVersion (Sexp.plainPort _) memoryStore ⟨1, 1⟩) := by
  have hid : ∀ run ∈ sampleRuns, run.info.id = ⟨1, 1⟩ := by decide
  have hok : MappingOk (Sexp.plainPort _) fun _ => none := by
    intro id bytes h
    cases h
  have hunknown : NoDirectory (Sexp.plainPort _) (fun _ => none) ⟨1, 1⟩ := by
    intro dir tuple h
    cases h
  have hversions := backupRuns_keep_versions memoryStore_convergent hid sampleRuns_proper hok hunknown
  obtain ⟨bound, hversions⟩ := hversions
  refine ⟨bound, fun fuel hfuel => ?_⟩
  have hruns := hversions fuel hfuel
  obtain ⟨results, hresults⟩ := hruns.returns ⟨memoryStore_stores, by decide⟩
  have hpost := hruns.post results hresults
  exact ⟨results, hresults, hpost.1, hpost.2.1⟩

end Libchop
