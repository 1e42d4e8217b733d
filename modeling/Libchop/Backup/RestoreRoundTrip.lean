import Libchop.Backup.RecursiveSteps
import Libchop.Backup.Restore

/-!
# What was backed up is restored

A backup that starts with an empty mapping leaves, for every directory of the tree, entries that
describe its files.  The mapping only ever spares a file that the same backup has stored before,
under another of its names.
-/

namespace Libchop

mutual

def FileTree.directoryIds : FileTree → List FileId
  | .leaf _ _ _ => []
  | .directory info _ files => info.id :: directoryIdsOfFiles files

def directoryIdsOfFiles : List (String × FileTree) → List FileId
  | [] => []
  | file :: files => directoryIdsOfFile file ++ directoryIdsOfFiles files

def directoryIdsOfFile : String × FileTree → List FileId
  | (_, tree) => tree.directoryIds

end

theorem directoryIdsOfFiles_eq (files : List (String × FileTree)) :
    directoryIdsOfFiles files = files.flatMap fun file => file.2.directoryIds := by
  induction files with
  | nil => rfl
  | cons file files ih => rw [directoryIdsOfFiles, ih, List.flatMap_cons, directoryIdsOfFile]

/-- A tree of directories, regular files and symbolic links as file systems have them: the names
in a directory differ, so do the identifiers of directories, and files with one identifier are
links to the same file.  None of it is worthless. -/
structure FileTree.Storable (inode : FileId → Bytes) (tree : FileTree) : Prop where
  kind : ∀ kind info data, tree.Contains (.leaf kind info data) →
    kind = .regular ∨ kind = .symlink ∧ data ≠ []
  data : ∀ kind info data, tree.Contains (.leaf kind info data) → inode info.id = data
  names : tree.DistinctNames
  worthy : ∀ info size files, tree.Contains (.directory info size files) → ∀ file ∈ files,
    ∀ path, worthlessFile (path ++ [file.1]) file.2.stat = false
  ids : tree.directoryIds.Nodup

theorem FileTree.Storable.entry {inode : FileId → Bytes} {info : FileMeta} {size : Nat}
    {files : List (String × FileTree)} (h : (FileTree.directory info size files).Storable inode)
    {file : String × FileTree} (hmem : file ∈ files) : file.2.Storable inode where
  kind := fun kind info data hinner => h.kind kind info data (.entry hmem hinner)
  data := fun kind info data hinner => h.data kind info data (.entry hmem hinner)
  names := h.names.entry hmem
  worthy := fun info size files hinner => h.worthy info size files (.entry hmem hinner)
  ids := by
    have hids := h.ids
    rw [FileTree.directoryIds, directoryIdsOfFiles_eq] at hids
    exact (List.nodup_flatMap.mp (List.nodup_cons.mp hids).2).1 file hmem

/-- Retrieving undoes storing, and goes on doing so. -/
structure Undoes {σ Pl : Type} (cs : ContentStore σ Pl) : Prop where
  retrieve : ∀ {pipeline data w tuple w'}, cs.put pipeline data w = (.ok tuple, w') →
    cs.retrieve w' tuple = .ok data
  keeps : ∀ {pipeline data w tuple w'}, cs.put pipeline data w = (.ok tuple, w') →
    ∀ {tuple' data'}, cs.retrieve w tuple' = .ok data' → cs.retrieve w' tuple' = .ok data'

variable {σ Pl : Type} {port : SexpPort BackupSymbol} {cs : ContentStore σ Pl}
  {choosePipeline : Path → Stat → Pl} {repair : Bool} {inode : FileId → Bytes}

/-- Everything that could be retrieved still can. -/
def Grows (cs : ContentStore σ Pl) (w w' : σ) : Prop :=
  ∀ tuple data, cs.retrieve w tuple = .ok data → cs.retrieve w' tuple = .ok data

theorem EntryFor.mono {retrieve retrieve' : IndexTuple → Except ChopError Bytes}
    (h : ∀ tuple data, retrieve tuple = .ok data → retrieve' tuple = .ok data) {depth : Nat}
    {file : String × FileTree} {e : DirectoryEntry} (hentry : EntryFor port retrieve depth file e) :
    EntryFor port retrieve' depth file e := by
  induction depth generalizing file e with
  | zero => exact hentry
  | succ depth ih =>
    obtain ⟨name, tree⟩ := file
    cases tree with
    | leaf kind info data =>
      obtain ⟨hname, hkind, hperms, htuple⟩ := hentry
      refine ⟨hname, hkind, hperms, ?_⟩
      rcases htuple with hempty | ⟨hkind, tuple, htuple, hdata⟩
      · exact .inl hempty
      · exact .inr ⟨hkind, tuple, htuple, h tuple data hdata⟩
    | directory info size files =>
      obtain ⟨hname, hkind, hperms, tuple, bytes, dir, htuple, hbytes, hdir, hentries⟩ := hentry
      exact ⟨hname, hkind, hperms, tuple, bytes, dir, htuple, h tuple bytes hbytes, hdir,
        hentries.imp fun _ _ => ih⟩

/-- What the mapping knows of a file leads to its data. -/
structure CacheOk (port : SexpPort BackupSymbol) (cs : ContentStore σ Pl)
    (inode : FileId → Bytes) (st : BackupState σ) : Prop where
  mappingOk : MappingOk port st.mapping
  data : ∀ id mtime tuple, st.mapping id = some (mappingEntry port (timeStamp mtime) tuple) →
    cs.retrieve st.store tuple = .ok (inode id)

/-- What a part of the backup does that stores the given directories. -/
structure Progress (port : SexpPort BackupSymbol) (cs : ContentStore σ Pl)
    (inode : FileId → Bytes) (ids : List FileId) (st st' : BackupState σ) : Prop where
  cache : CacheOk port cs inode st'
  grows : Grows cs st.store st'.store
  unknown : ∀ id, id ∉ ids → NoDirectory port st.mapping id → NoDirectory port st'.mapping id

private theorem Progress.refl {st : BackupState σ} (h : CacheOk port cs inode st) :
    Progress port cs inode [] st st where
  cache := h
  grows := fun _ _ hdata => hdata
  unknown := fun _ _ hunknown => hunknown

private theorem Progress.trans {ids ids' : List FileId} {st st' st'' : BackupState σ}
    (h : Progress port cs inode ids st st') (h' : Progress port cs inode ids' st' st'') :
    Progress port cs inode (ids ++ ids') st st'' where
  cache := h'.cache
  grows := fun tuple data hdata => h'.grows tuple data (h.grows tuple data hdata)
  unknown := by
    intro id hid hunknown
    rw [List.mem_append, not_or] at hid
    exact h'.unknown id hid.2 (h.unknown id hid.1 hunknown)

private theorem Progress.mono {ids ids' : List FileId} {st st' : BackupState σ}
    (h : Progress port cs inode ids st st') (hsub : ids ⊆ ids') :
    Progress port cs inode ids' st st' where
  cache := h.cache
  grows := h.grows
  unknown := fun id hid => h.unknown id fun hmem => hid (hsub hmem)

private theorem timeStamp_mappingEntry_ne {mtime : Int} {dir : Directory}
    {tuple tuple' : IndexTuple} : mappingEntry port (timeStamp mtime) tuple ≠
      mappingEntry port (directoryToSexp dir) tuple' := by
  intro heq
  have hread := congrArg port.read heq
  rw [mappingEntry, mappingEntry, port.read_write, port.read_write] at hread
  cases hread

private theorem timeStamp_mappingEntry_inj {mtime mtime' : Int} {tuple tuple' : IndexTuple}
    (h : mappingEntry port (timeStamp mtime) tuple = mappingEntry port (timeStamp mtime') tuple') :
    tuple = tuple' := by
  have hread := congrArg port.read h
  rw [mappingEntry, mappingEntry, port.read_write, port.read_write, Option.some.injEq,
    Sexp.pair.injEq] at hread
  have htuple := congrArg sexpToTuple hread.2
  rw [sexpToTuple_tupleToSexp, sexpToTuple_tupleToSexp] at htuple
  exact Option.some.inj htuple

def allDirectoryIds (files : List (String × FileTree)) : List FileId :=
  files.flatMap fun file => file.2.directoryIds

private theorem allDirectoryIds_singleton (file : String × FileTree) :
    allDirectoryIds [file] = file.2.directoryIds := by
  rw [allDirectoryIds, List.flatMap_singleton]

/-- Some files can be stored next: none of their directories has been visited or is known. -/
structure Ready (port : SexpPort BackupSymbol) (cs : ContentStore σ Pl) (inode : FileId → Bytes)
    (files : List (String × FileTree)) (visited : List FileId) (st : BackupState σ) : Prop where
  cache : CacheOk port cs inode st
  unvisited : ∀ id ∈ allDirectoryIds files, id ∉ visited
  unknown : ∀ id ∈ allDirectoryIds files, NoDirectory port st.mapping id

private theorem Ready.mono {files files' : List (String × FileTree)} {visited : List FileId}
    {st : BackupState σ} (h : Ready port cs inode files visited st) (hsub : files' ⊆ files) :
    Ready port cs inode files' visited st := by
  have hids : allDirectoryIds files' ⊆ allDirectoryIds files := by
    intro id hid
    obtain ⟨file, hfile, hid⟩ := List.mem_flatMap.mp hid
    exact List.mem_flatMap.mpr ⟨file, hsub hfile, hid⟩
  exact ⟨h.cache, fun id hid => h.unvisited id (hids hid), fun id hid => h.unknown id (hids hid)⟩

private theorem Ready.empty (files : List (String × FileTree)) (w : σ) :
    Ready port cs inode files [] ⟨w, fun _ => none⟩ where
  cache := by
    constructor
    · intro id bytes h
      cases h
    · intro id mtime tuple h
      cases h
  unvisited := fun _ _ => List.not_mem_nil
  unknown := by
    intro id _ dir tuple h
    cases h

private theorem Ready.below {name : String} {info : FileMeta} {size : Nat}
    {files : List (String × FileTree)} {visited : List FileId} {st : BackupState σ}
    (h : Ready port cs inode [(name, .directory info size files)] visited st)
    (hids : (FileTree.directory info size files).directoryIds.Nodup) :
    Ready port cs inode files (info.id :: visited) st := by
  rw [FileTree.directoryIds, directoryIdsOfFiles_eq, List.nodup_cons] at hids
  have hmem : ∀ id ∈ allDirectoryIds files,
      id ∈ allDirectoryIds [(name, FileTree.directory info size files)] := by
    intro id hid
    rw [allDirectoryIds_singleton, FileTree.directoryIds, directoryIdsOfFiles_eq]
    exact List.mem_cons_of_mem _ hid
  refine ⟨h.cache, ?_, fun id hid => h.unknown id (hmem id hid)⟩
  intro id hid hvisited
  cases hvisited with
  | head => exact hids.1 hid
  | tail _ hvisited => exact h.unvisited id (hmem id hid) hvisited

/-- What the part of a backup that stores some files returns. -/
structure Described (port : SexpPort BackupSymbol) (cs : ContentStore σ Pl)
    (inode : FileId → Bytes) (depth : Nat) (files : List (String × FileTree))
    (visited : List FileId) (st : BackupState σ)
    (r : List DirectoryEntry × List FileId × BackupState σ) : Prop where
  entries : List.Forall₂ (EntryFor port (cs.retrieve r.2.2.store) depth) files r.1
  progress : Progress port cs inode (allDirectoryIds files) st r.2.2
  visited : ∀ id ∈ r.2.1, id ∈ visited ∨ id ∈ allDirectoryIds files

section Described

variable {depth : Nat} {files files' : List (String × FileTree)} {visited : List FileId}
  {st : BackupState σ} {r r' : List DirectoryEntry × List FileId × BackupState σ}

private theorem Described.nil (h : CacheOk port cs inode st) :
    Described port cs inode depth [] visited st ([], visited, st) where
  entries := .nil
  progress := .refl h
  visited := fun _ hmem => .inl hmem

private theorem Described.append (h : Described port cs inode depth files visited st r)
    (h' : Described port cs inode depth files' r.2.1 r.2.2 r') :
    Described port cs inode depth (files' ++ files) visited st (r'.1 ++ r.1, r'.2) where
  entries := by
    apply List.rel_append h'.entries
    exact h.entries.imp fun _ _ => EntryFor.mono h'.progress.grows
  progress := by
    apply (h.progress.trans h'.progress).mono
    intro id hmem
    rw [allDirectoryIds, List.flatMap_append, List.mem_append]
    exact (List.mem_append.mp hmem).symm
  visited := by
    intro id hmem
    rw [allDirectoryIds, List.flatMap_append, List.mem_append]
    cases h'.visited id hmem with
    | inr hids => exact .inr (.inl hids)
    | inl hmem =>
      cases h.visited id hmem with
      | inl hvisited => exact .inl hvisited
      | inr hids => exact .inr (.inr hids)

private theorem Described.ready (h : Described port cs inode depth files visited st r)
    (hready : Ready port cs inode files' visited st)
    (hdisjoint : ∀ id ∈ allDirectoryIds files', id ∉ allDirectoryIds files) :
    Ready port cs inode files' r.2.1 r.2.2 where
  cache := h.progress.cache
  unvisited := by
    intro id hid hmem
    cases h.visited id hmem with
    | inl hvisited => exact hready.unvisited id hid hvisited
    | inr hids => exact hdisjoint id hid hids
  unknown := by
    intro id hid
    exact h.progress.unknown id (hdisjoint id hid) (hready.unknown id hid)

end Described

private theorem subdirEntries_describes {depth : Nat}
    {loop : Path → FileTree → List FileId → BackupState σ →
      Outcome (List DirectoryEntry × List FileId × BackupState σ)} {path : Path}
    {subdirs : List (String × FileTree)}
    (hloop : ∀ subdir ∈ subdirs, ∀ visited st, Ready port cs inode [subdir] visited st →
      (loop (path ++ [subdir.1]) subdir.2 visited st).Ensures (StoresData cs)
        (Described port cs inode depth [subdir] visited st))
    (hdisjoint : subdirs.Pairwise fun subdir subdir' =>
      subdir.2.directoryIds.Disjoint subdir'.2.directoryIds)
    {visited : List FileId} {st : BackupState σ} (hready : Ready port cs inode subdirs visited st) :
    (subdirEntries loop path subdirs visited st).Ensures (StoresData cs)
      (Described port cs inode depth subdirs.reverse visited st) := by
  induction subdirs generalizing visited st with
  | nil => exact .done (.nil hready.cache)
  | cons subdir subdirs ih =>
    rw [List.pairwise_cons] at hdisjoint
    have hfirst : Ready port cs inode [subdir] visited st :=
      hready.mono (List.cons_subset_cons subdir (List.nil_subset subdirs))
    have hrest : Ready port cs inode subdirs visited st :=
      hready.mono (List.subset_cons_self subdir subdirs)
    apply (hloop subdir List.mem_cons_self visited st hfirst).bind
    intro r hr
    have hready' : Ready port cs inode subdirs r.2.1 r.2.2 := by
      apply hr.ready hrest
      intro id hid hmem
      obtain ⟨subdir', hsubdir', hid'⟩ := List.mem_flatMap.mp hid
      rw [allDirectoryIds_singleton] at hmem
      exact hdisjoint.1 subdir' hsubdir' hmem hid'
    apply (ih (fun subdir hmem => hloop subdir (List.mem_cons_of_mem _ hmem)) hdisjoint.2
      hready').bind
    intro r' hr'
    have happend := hr.append hr'
    apply Outcome.Ensures.done
    rw [List.reverse_cons]
    exact happend

private theorem basename_concat (path : Path) (name : String) :
    basename (path ++ [name]) = name := by
  rw [basename, List.getLastD_concat]

private theorem mem_subdirectories {files : List (String × FileTree)} {file : String × FileTree}
    (h : file ∈ subdirectories files) : file ∈ files ∧ file.2.isDirectory = true := by
  rw [subdirectories, List.mem_reverse, List.mem_filter] at h
  exact h

private theorem allDirectoryIds_leaves (files : List (String × FileTree)) :
    allDirectoryIds (files.filter fun file => !file.2.isDirectory).reverse = [] := by
  rw [allDirectoryIds, List.flatMap_eq_nil_iff]
  intro file hmem
  obtain ⟨name, tree⟩ := file
  rw [List.mem_reverse, List.mem_filter] at hmem
  cases tree with
  | leaf kind info data => rfl
  | directory info size children => cases hmem.2

private theorem subdirectories_disjoint {info : FileMeta} {size : Nat}
    {files : List (String × FileTree)} (h : (FileTree.directory info size files).Storable inode) :
    (subdirectories files).Pairwise fun subdir subdir' =>
      subdir.2.directoryIds.Disjoint subdir'.2.directoryIds := by
  have hids := h.ids
  rw [FileTree.directoryIds, directoryIdsOfFiles_eq] at hids
  have hpairwise := (List.nodup_flatMap.mp (List.nodup_cons.mp hids).2).2
  rw [subdirectories, List.pairwise_reverse]
  apply (hpairwise.filter _).imp
  intro file file' hdisjoint
  exact hdisjoint.symm

section Steps

variable (hundoes : Undoes cs)
include hundoes

private theorem FileStored.progress {path : Path} {stat : Stat} {data : Bytes}
    {st st' : BackupState σ} {tuple : Option IndexTuple}
    (h : FileStored port cs choosePipeline path stat data st tuple st')
    (hcache : CacheOk port cs inode st) (hdata : inode stat.id = data) :
    Progress port cs inode [] st st' := by
  have hmapping := h.mappingOk hcache.mappingOk
  cases h with
  | unsaved hkind => exact .refl hcache
  | reused hsize hcached => exact .refl hcache
  | stored hsize hput =>
    constructor
    · refine ⟨hmapping, ?_⟩
      intro id mtime tuple' hid
      by_cases heq : id = stat.id
      · rw [heq, cacheIndex_mapping, Option.some.injEq] at hid
        rw [← timeStamp_mappingEntry_inj hid, heq, hdata]
        exact hundoes.retrieve hput
      · rw [cacheIndex_mapping_of_ne _ _ _ heq] at hid
        exact hundoes.keeps hput (hcache.data id mtime tuple' hid)
    · intro tuple' data' hdata'
      exact hundoes.keeps hput hdata'
    · intro id _ hunknown dir tuple' hid
      by_cases heq : id = stat.id
      · rw [heq, cacheIndex_mapping, Option.some.injEq] at hid
        exact timeStamp_mappingEntry_ne hid
      · rw [cacheIndex_mapping_of_ne _ _ _ heq] at hid
        exact hunknown dir tuple' hid

private theorem FileStored.retrieves {path : Path} {stat : Stat} {data : Bytes}
    {st st' : BackupState σ} {tuple : Option IndexTuple}
    (h : FileStored port cs choosePipeline path stat data st tuple st')
    (hcache : CacheOk port cs inode st) (hdata : inode stat.id = data)
    (hkind : stat.kind = .regular ∨ stat.kind = .symlink) (hsize : stat.size = data.length) :
    data = [] ∧ tuple = none ∨
      ∃ tuple', tuple = some tuple' ∧ cs.retrieve st'.store tuple' = .ok data := by
  cases h with
  | unsaved hnot =>
    cases hnot with
    | inl hzero =>
      rw [hsize, List.length_eq_zero_iff] at hzero
      exact .inl ⟨hzero, rfl⟩
    | inr hnot => exact (hnot hkind.symm).elim
  | @reused tuple' hsize hcached =>
    have hretrieve := hcache.data _ _ _ hcached
    rw [hdata] at hretrieve
    exact .inr ⟨tuple', rfl, hretrieve⟩
  | @stored tuple' w hsize hput => exact .inr ⟨tuple', rfl, hundoes.retrieve hput⟩

private theorem DirectoryStored.progress {stat : Stat} {entries : List DirectoryEntry}
    {st st' : BackupState σ} {tuple : IndexTuple}
    (h : DirectoryStored port cs stat entries st tuple st') (hcache : CacheOk port cs inode st)
    (hunknown : NoDirectory port st.mapping stat.id) :
    Progress port cs inode [stat.id] st st' ∧
      cs.retrieve st'.store tuple = .ok (writeDirectory port ⟨[], entries⟩) := by
  have hmapping := h.mappingOk hcache.mappingOk
  cases h with
  | unchanged hknown hsame hexists => exact (hunknown _ _ hknown).elim
  | restored hknown hsame hput => exact (hunknown _ _ hknown).elim
  | changed hknown hdiffer hput => exact (hunknown _ _ hknown).elim
  | first hunknown hput =>
    refine ⟨⟨⟨hmapping, ?_⟩, ?_, ?_⟩, hundoes.retrieve hput⟩
    · intro id mtime tuple' hid
      by_cases heq : id = stat.id
      · rw [heq, cacheIndex_mapping, Option.some.injEq] at hid
        exact (timeStamp_mappingEntry_ne hid.symm).elim
      · rw [cacheIndex_mapping_of_ne _ _ _ heq] at hid
        exact hundoes.keeps hput (hcache.data id mtime tuple' hid)
    · intro tuple' data' hdata'
      exact hundoes.keeps hput hdata'
    · intro id hid hunknown' dir tuple' hmap
      rw [cacheIndex_mapping_of_ne _ _ _ (List.ne_of_not_mem_cons hid)] at hmap
      exact hunknown' dir tuple' hmap

private theorem fileEntries_describes {name : String} {kind : FileKind} {info : FileMeta}
    {data : Bytes} (hstorable : (FileTree.leaf kind info data).Storable inode) (path : Path)
    (hworth : worthlessFile (path ++ [name]) (FileTree.leaf kind info data).stat = false)
    (depth : Nat) (visited : List FileId) {st : BackupState σ}
    (hcache : CacheOk port cs inode st) :
    (fileEntries port cs choosePipeline repair (path ++ [name])
      (FileTree.leaf kind info data).stat data st).Ensures (StoresData cs) fun r =>
        Described port cs inode (depth + 1) [(name, .leaf kind info data)] visited st
          (r.1, visited, r.2) := by
  rw [fileEntries, hworth, if_neg Bool.false_ne_true]
  apply (fileTuple_ensures rfl hcache.mappingOk).bind
  intro r hr
  have hdata := hstorable.data kind info data (.refl _)
  have hkind := hstorable.kind kind info data (.refl _)
  have hsaved : kind = .regular ∨ kind = .symlink := hkind.imp id And.left
  apply Outcome.Ensures.done
  constructor
  · apply List.Forall₂.cons _ .nil
    refine ⟨basename_concat path name, rfl, rfl, ?_⟩
    cases hr.retrieves hundoes hcache hdata hsaved rfl with
    | inr hretrieve => exact .inr ⟨hsaved, hretrieve⟩
    | inl hempty =>
      cases hkind with
      | inl hregular => exact .inl ⟨hregular, hempty.1, hempty.2⟩
      | inr hsymlink => exact (hsymlink.2 hempty.1).elim
  · exact hr.progress hundoes hcache hdata
  · intro id hmem
    exact .inl hmem

private theorem leafEntries_describes {files : List (String × FileTree)}
    (hstorable : ∀ file ∈ files, file.2.Storable inode) (path : Path)
    (hworth : ∀ file ∈ files, worthlessFile (path ++ [file.1]) file.2.stat = false)
    (depth : Nat) (visited : List FileId) {st : BackupState σ}
    (hcache : CacheOk port cs inode st) :
    (leafEntries port cs choosePipeline repair path files st).Ensures (StoresData cs) fun r =>
      Described port cs inode (depth + 1) (files.filter fun file => !file.2.isDirectory).reverse
        visited st (r.1, visited, r.2) := by
  induction files generalizing st with
  | nil => exact .done (.nil hcache)
  | cons file files ih =>
    obtain ⟨name, tree⟩ := file
    have hrest := fun file hmem => hstorable file (List.mem_cons_of_mem _ hmem)
    have hworth' := fun file hmem => hworth file (List.mem_cons_of_mem _ hmem)
    cases tree with
    | leaf kind info data =>
      apply (fileEntries_describes hundoes (hstorable _ List.mem_cons_self) path
        (hworth _ List.mem_cons_self) depth visited hcache).bind
      intro r hr
      apply (ih hrest hworth' hr.progress.cache).bind
      intro r' hr'
      have happend := hr.append hr'
      apply Outcome.Ensures.done
      rw [List.filter_cons_of_pos rfl, List.reverse_cons]
      exact happend
    | directory info size children => exact ih hrest hworth' hcache

private theorem contentsEntries_describes {info : FileMeta} {size : Nat}
    {files : List (String × FileTree)}
    (hstorable : (FileTree.directory info size files).Storable inode) (path : Path) {depth : Nat}
    {loop : Path → FileTree → List FileId → BackupState σ →
      Outcome (List DirectoryEntry × List FileId × BackupState σ)}
    (hloop : ∀ file ∈ files, file.2.isDirectory = true → ∀ visited st,
      Ready port cs inode [file] visited st →
      (loop (path ++ [file.1]) file.2 visited st).Ensures (StoresData cs)
        (Described port cs inode (depth + 1) [file] visited st))
    {visited : List FileId} {st : BackupState σ} (hready : Ready port cs inode files visited st) :
    (contentsEntries port cs choosePipeline repair loop path files visited st).Ensures
      (StoresData cs) (Described port cs inode (depth + 1) (listing files) visited st) := by
  have hworth : ∀ file ∈ files, worthlessFile (path ++ [file.1]) file.2.stat = false :=
    fun file hmem => hstorable.worthy info size files (.refl _) file hmem path
  have hfiles : ∀ file ∈ files, file.2.Storable inode := fun file hmem => hstorable.entry hmem
  apply (leafEntries_describes hundoes hfiles path hworth depth visited hready.cache).bind
  intro r hr
  have hsubdirs : Ready port cs inode (subdirectories files) visited r.2 := by
    apply hr.ready (hready.mono fun file hmem => (mem_subdirectories hmem).1)
    intro id _ hmem
    rw [allDirectoryIds_leaves] at hmem
    cases hmem
  apply (subdirEntries_describes (fun subdir hmem => hloop subdir (mem_subdirectories hmem).1
    (mem_subdirectories hmem).2) (subdirectories_disjoint hstorable) hsubdirs).bind
  intro r' hr'
  have happend := hr.append hr'
  apply Outcome.Ensures.done
  rw [subdirectories, List.reverse_reverse] at happend
  exact happend

private theorem storeDirectory_describes {info : FileMeta} {size : Nat}
    {files : List (String × FileTree)}
    (hstorable : (FileTree.directory info size files).Storable inode) {name : String} (path : Path)
    {depth : Nat} {visited : List FileId} {st : BackupState σ}
    {r : List DirectoryEntry × List FileId × BackupState σ}
    (hready : Ready port cs inode [(name, .directory info size files)] visited st)
    (hr : Described port cs inode depth (listing files) (info.id :: visited) st r) :
    (storeDirectoryVersion port cs repair (FileTree.directory info size files).stat r.1
      r.2.2).Ensures (StoresData cs) fun r' =>
        Described port cs inode (depth + 1) [(name, .directory info size files)] visited st
          ([directoryEntry (path ++ [name]) (FileTree.directory info size files).stat (some r'.1)],
            r.2.1, r'.2) ∧
        cs.retrieve r'.2.store r'.1 = .ok (writeDirectory port ⟨[], r.1⟩) ∧
        Grows cs r.2.2.store r'.2.store := by
  have hids : allDirectoryIds [(name, FileTree.directory info size files)] =
      info.id :: allDirectoryIds files := by
    rw [allDirectoryIds_singleton, FileTree.directoryIds, directoryIdsOfFiles_eq]
    rfl
  have hperm : ∀ id, id ∈ allDirectoryIds (listing files) ↔ id ∈ allDirectoryIds files :=
    fun id => ((listing_perm files).flatMap_right _).mem_iff
  have hunknown : NoDirectory port r.2.2.mapping info.id := by
    apply hr.progress.unknown
    · intro hmem
      have hnodup := hstorable.ids
      rw [FileTree.directoryIds, directoryIdsOfFiles_eq] at hnodup
      exact (List.nodup_cons.mp hnodup).1 ((hperm info.id).mp hmem)
    · exact hready.unknown info.id (by rw [hids]; exact List.mem_cons_self)
  apply (storeDirectoryVersion_ensures hr.progress.cache.mappingOk).mono
  intro r' hr'
  obtain ⟨hprogress, hretrieve⟩ := hr'.progress hundoes hr.progress.cache hunknown
  refine ⟨⟨?_, ?_, ?_⟩, hretrieve, hprogress.grows⟩
  · apply List.Forall₂.cons _ .nil
    refine ⟨basename_concat path name, rfl, rfl, r'.1, _, _, rfl, hretrieve,
      readDirectory_writeDirectory port _, ?_⟩
    exact hr.entries.imp fun _ _ => EntryFor.mono hprogress.grows
  · apply (hr.progress.trans hprogress).mono
    intro id hmem
    rw [hids]
    cases List.mem_append.mp hmem with
    | inl hbelow => exact List.mem_cons_of_mem _ ((hperm id).mp hbelow)
    | inr hself => rw [List.mem_singleton.mp hself]; exact List.mem_cons_self
  · intro id hmem
    rw [hids]
    cases hr.visited id hmem with
    | inr hbelow => exact .inr (List.mem_cons_of_mem _ ((hperm id).mp hbelow))
    | inl hbefore =>
      cases hbefore with
      | head => exact .inr List.mem_cons_self
      | tail _ hbefore => exact .inl hbefore

private theorem treeEntries_describes {fuel depth : Nat} {path : Path} {file : String × FileTree}
    (hstorable : file.2.Storable inode) (hwithin : file.2.Within depth) (hfuel : depth ≤ fuel)
    (hdirectory : file.2.isDirectory = true)
    (hworth : ∀ path, worthlessFile (path ++ [file.1]) file.2.stat = false)
    {visited : List FileId} {st : BackupState σ} (hready : Ready port cs inode [file] visited st) :
    (treeEntries port cs choosePipeline repair fuel (path ++ [file.1]) file.2 visited st).Ensures
      (StoresData cs) (Described port cs inode (depth + 1) [file] visited st) := by
  induction depth generalizing fuel path file visited st with
  | zero => exact hwithin.elim
  | succ depth ih =>
    obtain ⟨fuel, rfl⟩ : ∃ k, fuel = k + 1 := Nat.exists_eq_add_of_le' (by omega)
    obtain ⟨name, tree⟩ := file
    cases tree with
    | leaf kind info data => cases hdirectory
    | directory info size files =>
      have hunvisited : (FileTree.directory info size files).stat.id ∉ visited :=
        hready.unvisited info.id List.mem_cons_self
      have hfiles : Ready port cs inode files (info.id :: visited) st :=
        hready.below hstorable.ids
      have hloop : ∀ file ∈ files, file.2.isDirectory = true → ∀ visited st,
          Ready port cs inode [file] visited st →
          (treeEntries port cs choosePipeline repair fuel (path ++ [name] ++ [file.1]) file.2
            visited st).Ensures (StoresData cs)
              (Described port cs inode (depth + 1) [file] visited st) := by
        intro file hmem hdirectory visited st hready
        exact ih (hstorable.entry hmem) (hwithin file hmem) (by omega) hdirectory
          (hstorable.worthy info size files (.refl _) file hmem) hready
      unfold treeEntries
      rw [if_neg hunvisited]
      simp only [enterDirectory?, hworth path, Bool.not_false, if_true]
      apply (contentsEntries_describes hundoes hstorable (path ++ [name]) hloop hfiles).bind
      intro r hr
      apply (storeDirectory_describes hundoes hstorable path hready hr).bind
      intro r' hr'
      exact .done hr'.1

private theorem runStoragePipelineRecursive_describes {fuel depth : Nat} {path : Path} {info : FileMeta}
    {size : Nat} {files : List (String × FileTree)}
    (hstorable : (FileTree.directory info size files).Storable inode)
    (hwithin : (FileTree.directory info size files).Within (depth + 1)) (hfuel : depth ≤ fuel)
    (hworth : worthlessFile path (FileTree.directory info size files).stat = false) (w : σ) :
    (runStoragePipelineRecursive port cs choosePipeline repair (fuel + 1) path
      (.directory info size files) ⟨w, fun _ => none⟩).Ensures (StoresData cs) fun r =>
        ∃ tuple bytes dir, r.1 = some tuple ∧ cs.retrieve r.2.store tuple = .ok bytes ∧
          readDirectory port bytes = .ok dir ∧
          List.Forall₂ (EntryFor port (cs.retrieve r.2.store) (depth + 1)) (listing files)
            dir.entries := by
  have hready : Ready port cs inode [("", .directory info size files)] [] ⟨w, fun _ => none⟩ :=
    Ready.empty _ w
  have hloop : ∀ file ∈ files, file.2.isDirectory = true → ∀ visited st,
      Ready port cs inode [file] visited st →
      (treeEntries port cs choosePipeline repair fuel (path ++ [file.1]) file.2 visited
        st).Ensures (StoresData cs) (Described port cs inode (depth + 1) [file] visited st) := by
    intro file hmem hdirectory visited st hready
    exact treeEntries_describes hundoes (hstorable.entry hmem) (hwithin file hmem) hfuel hdirectory
      (hstorable.worthy info size files (.refl _) file hmem) hready
  rw [runStoragePipelineRecursive_directory]
  simp only [enterDirectory?, hworth, Bool.not_false, if_true]
  apply (contentsEntries_describes hundoes hstorable path hloop
    (hready.below hstorable.ids)).bind
  intro r hr
  apply (storeDirectory_describes hundoes hstorable path hready hr).bind
  intro r' ⟨_, hretrieve, hgrows⟩
  apply Outcome.Ensures.done
  refine ⟨r'.1, _, _, rfl, hretrieve, readDirectory_writeDirectory port _, ?_⟩
  exact hr.entries.imp fun _ _ => EntryFor.mono hgrows

end Steps

theorem memoryStore_undoes : Undoes memoryStore where
  retrieve := memoryStore_retrieve_put
  keeps := by
    intro pipeline data w tuple w' hput tuple' data' hdata
    cases hput
    simp only [memoryStore] at hdata
    split at hdata
    · next hmem =>
      cases hdata
      simp [memoryStore, hmem]
    · cases hdata

/-- An empty directory, an empty file, a file with data and a link to it. -/
def sampleFiles : List (String × FileTree) :=
  [("empty", .directory ⟨⟨2, 1⟩, 1325376000, 0o750⟩ 4096 []),
    ("a", .leaf .regular ⟨⟨3, 1⟩, 1325376000, 0o644⟩ []),
    ("b", .leaf .regular ⟨⟨4, 1⟩, 1325376000, 0o600⟩ [104, 105]),
    ("c", .leaf .symlink ⟨⟨5, 1⟩, 1325376000, 0o777⟩ [98])]

def sampleInode (id : FileId) : Bytes :=
  if id = ⟨4, 1⟩ then [104, 105] else if id = ⟨5, 1⟩ then [98] else []

def rootOnly : FileSystem where
  node path := if path = [] then some (.directory 0o755) else none
  parent := by
    intro path name h
    rw [if_neg (List.concat_ne_nil name path)] at h
    exact (h rfl).elim

private theorem sampleFiles_contains {info : FileMeta} {size : Nat} {inner : FileTree}
    (h : (FileTree.directory info size sampleFiles).Contains inner) :
    inner = .directory info size sampleFiles ∨ inner ∈ sampleFiles.map Prod.snd := by
  cases h with
  | refl => exact .inl rfl
  | @entry _ _ _ name sub _ hmem hinner =>
    right
    simp only [sampleFiles, List.mem_cons, Prod.mk.injEq, List.not_mem_nil, or_false] at hmem
    rcases hmem with ⟨rfl, rfl⟩ | ⟨rfl, rfl⟩ | ⟨rfl, rfl⟩ | ⟨rfl, rfl⟩
    · cases hinner with
      | refl => simp [sampleFiles]
      | entry hmem _ => cases hmem
    all_goals
      cases hinner
      simp [sampleFiles]

private theorem sampleFiles_storable :
    (FileTree.directory ⟨⟨1, 1⟩, 1325376000, 0o755⟩ 4096 sampleFiles).Storable sampleInode where
  kind := by
    intro kind info data h
    have hmem := sampleFiles_contains h
    simp [sampleFiles] at hmem
    rcases hmem with ⟨rfl, _⟩ | ⟨rfl, _⟩ | ⟨rfl, _, rfl⟩
    · exact .inl rfl
    · exact .inl rfl
    · exact .inr ⟨rfl, by decide⟩
  data := by
    intro kind info data h
    have hmem := sampleFiles_contains h
    simp [sampleFiles] at hmem
    rcases hmem with ⟨_, rfl, rfl⟩ | ⟨_, rfl, rfl⟩ | ⟨_, rfl, rfl⟩
    · rfl
    · rfl
    · rfl
  names := by
    intro info size files h
    have hmem := sampleFiles_contains h
    simp [sampleFiles] at hmem
    rcases hmem with ⟨_, _, rfl⟩ | ⟨_, _, rfl⟩
    · decide
    · decide
  worthy := by
    intro info size files h file hfile path
    have hmem := sampleFiles_contains h
    simp [sampleFiles] at hmem
    rw [worthlessFile, basename_concat]
    rcases hmem with ⟨_, _, rfl⟩ | ⟨_, _, rfl⟩
    · simp only [List.mem_cons, List.not_mem_nil, or_false] at hfile
      rcases hfile with rfl | rfl | rfl | rfl
      all_goals decide
    · cases hfile
  ids := by decide

end Libchop
