import Libchop.Backup.DirectRecursion
import Libchop.Backup.PipelineRoundTrip

/-!
# What the steps of a recursive backup do

The mapping only ever holds tuples stamped with a modification time or with a directory.  Given
that, each step is one of a few: a file is not saved, found in the mapping, or stored; a directory
is unchanged, stored again, or stored as a new version.
-/

namespace Libchop

variable {σ Pl : Type} {port : SexpPort BackupSymbol} {cs : ContentStore σ Pl}
  {choosePipeline : Path → Stat → Pl} {repair : Bool}

def mappingEntry (port : SexpPort BackupSymbol) (stamp : BackupSexp) (tuple : IndexTuple) : Bytes :=
  port.write (.pair stamp (tupleToSexp tuple))

def timeStamp (mtime : Int) : BackupSexp := .atom (.integer mtime)

/-- The entries of the mapping are those that `cache-index` makes. -/
def MappingOk (port : SexpPort BackupSymbol) (mapping : FileId → Option Bytes) : Prop :=
  ∀ id bytes, mapping id = some bytes → ∃ tuple,
    (∃ mtime, bytes = mappingEntry port (timeStamp mtime) tuple) ∨
      ∃ dir, bytes = mappingEntry port (directoryToSexp dir) tuple

/-- No directory is known under the given identifier. -/
def NoDirectory (port : SexpPort BackupSymbol) (mapping : FileId → Option Bytes) (id : FileId) :
    Prop :=
  ∀ dir tuple, mapping id ≠ some (mappingEntry port (directoryToSexp dir) tuple)

/-- Every non-empty input can be stored. -/
def StoresData (cs : ContentStore σ Pl) : Prop :=
  ∀ pipeline data w, data ≠ [] → ∃ tuple w', cs.put pipeline data w = (.ok tuple, w')

theorem cacheIndex_mapping (st : BackupState σ) (stat : Stat) (tuple : IndexTuple)
    (stamp : BackupSexp) :
    (cacheIndex port st stat tuple stamp).mapping stat.id = some (mappingEntry port stamp tuple) :=
  if_pos rfl

theorem cacheIndex_mapping_of_ne (st : BackupState σ) {stat : Stat} (tuple : IndexTuple)
    (stamp : BackupSexp) {id : FileId} (hne : id ≠ stat.id) :
    (cacheIndex port st stat tuple stamp).mapping id = st.mapping id :=
  if_neg hne

private theorem mappingOk_cacheIndex {st : BackupState σ} (h : MappingOk port st.mapping)
    (stat : Stat) {tuple : IndexTuple} {stamp : BackupSexp}
    (hstamp : (∃ mtime, stamp = timeStamp mtime) ∨ ∃ dir, stamp = directoryToSexp dir) :
    MappingOk port (cacheIndex port st stat tuple stamp).mapping := by
  intro id bytes hbytes
  by_cases hid : id = stat.id
  · rw [hid, cacheIndex_mapping, Option.some.injEq] at hbytes
    refine ⟨tuple, ?_⟩
    rw [← hbytes]
    cases hstamp with
    | inl htime =>
      obtain ⟨mtime, rfl⟩ := htime
      exact .inl ⟨mtime, rfl⟩
    | inr hdir =>
      obtain ⟨dir, rfl⟩ := hdir
      exact .inr ⟨dir, rfl⟩
  · rw [cacheIndex_mapping_of_ne st tuple stamp hid] at hbytes
    exact h id bytes hbytes

private theorem statToCachedEntry_eq {st : BackupState σ} {stat : Stat} {stamp : BackupSexp}
    {tuple : IndexTuple} (h : st.mapping stat.id = some (mappingEntry port stamp tuple)) :
    statToCachedEntry port st stat = some (.pair stamp (tupleToSexp tuple)) := by
  rw [statToCachedEntry, h, Option.bind_some, mappingEntry, port.read_write]

private theorem cachedDirectory_directory {st : BackupState σ} {stat : Stat} {dir : Directory}
    {tuple : IndexTuple}
    (h : st.mapping stat.id = some (mappingEntry port (directoryToSexp dir) tuple)) :
    cachedDirectory port st stat = some (directoryToSexp dir, tupleToSexp tuple) := by
  rw [cachedDirectory, statToCachedEntry_eq h]
  simp [directoryToSexp, Sexp.ofList, symbolSexp, Sexp.toList?]

private theorem cachedDirectory_of_time {st : BackupState σ} {stat : Stat} {mtime : Int}
    {tuple : IndexTuple}
    (h : st.mapping stat.id = some (mappingEntry port (timeStamp mtime) tuple)) :
    cachedDirectory port st stat = none := by
  rw [cachedDirectory, statToCachedEntry_eq h]
  rfl

private theorem cachedDirectory_none {st : BackupState σ} {stat : Stat}
    (hok : MappingOk port st.mapping) (h : NoDirectory port st.mapping stat.id) :
    cachedDirectory port st stat = none := by
  cases hbytes : st.mapping stat.id with
  | none => simp [cachedDirectory, statToCachedEntry, hbytes]
  | some bytes =>
    obtain ⟨tuple, htime | hdir⟩ := hok _ _ hbytes
    · obtain ⟨mtime, rfl⟩ := htime
      exact cachedDirectory_of_time hbytes
    · obtain ⟨dir, rfl⟩ := hdir
      exact (h dir tuple hbytes).elim

private theorem cachedTuple_some {st : BackupState σ} {stat : Stat} {tuple : IndexTuple}
    (hok : MappingOk port st.mapping) (h : cachedTuple port cs repair st stat = some tuple) :
    st.mapping stat.id = some (mappingEntry port (timeStamp stat.mtime) tuple) := by
  -- A tuple that `process-file` finds in the mapping was cached for the file's modification time.
  rw [cachedTuple] at h
  cases hbytes : st.mapping stat.id with
  | none => simp [statToIndexTuple, statToCachedEntry, hbytes] at h
  | some bytes =>
    obtain ⟨tuple', htime | hdir⟩ := hok _ _ hbytes
    · obtain ⟨mtime, rfl⟩ := htime
      rw [statToIndexTuple, statToCachedEntry_eq hbytes] at h
      simp only [timeStamp] at h
      by_cases hmtime : mtime = stat.mtime
      · rw [if_pos hmtime, Option.bind_some, sexpToTuple_tupleToSexp] at h
        simp only at h
        split at h
        · rw [← Option.some.inj h, ← hmtime]
        · cases h
      · rw [if_neg hmtime] at h
        cases h
    · obtain ⟨dir, rfl⟩ := hdir
      rw [statToIndexTuple, statToCachedEntry_eq hbytes] at h
      cases h

/-- What becomes of a file: its tuple and the state after it. -/
inductive FileStored (port : SexpPort BackupSymbol) (cs : ContentStore σ Pl)
    (choosePipeline : Path → Stat → Pl) (path : Path) (stat : Stat) (data : Bytes)
    (st : BackupState σ) : Option IndexTuple → BackupState σ → Prop where
  | unsaved (hkind : stat.size = 0 ∨ ¬ (stat.kind = .symlink ∨ stat.kind = .regular)) :
      FileStored port cs choosePipeline path stat data st none st
  | reused {tuple : IndexTuple} (hsize : stat.size ≠ 0)
      (hcached : st.mapping stat.id = some (mappingEntry port (timeStamp stat.mtime) tuple)) :
      FileStored port cs choosePipeline path stat data st (some tuple) st
  | stored {tuple : IndexTuple} {w : σ} (hsize : stat.size ≠ 0)
      (hput : cs.put (choosePipeline path stat) data st.store = (.ok tuple, w)) :
      FileStored port cs choosePipeline path stat data st (some tuple)
        (cacheIndex port { st with store := w } stat tuple (timeStamp stat.mtime))

theorem FileStored.mappingOk {path : Path} {stat : Stat} {data : Bytes} {st st' : BackupState σ}
    {tuple : Option IndexTuple}
    (h : FileStored port cs choosePipeline path stat data st tuple st')
    (hok : MappingOk port st.mapping) : MappingOk port st'.mapping := by
  cases h with
  | unsaved hkind => exact hok
  | reused hsize hcached => exact hok
  | stored hsize hput => exact mappingOk_cacheIndex hok stat (.inl ⟨_, rfl⟩)

theorem FileStored.mapping_of_ne {path : Path} {stat : Stat} {data : Bytes}
    {st st' : BackupState σ} {tuple : Option IndexTuple}
    (h : FileStored port cs choosePipeline path stat data st tuple st') {id : FileId}
    (hne : id ≠ stat.id) : st'.mapping id = st.mapping id := by
  cases h with
  | unsaved hkind => rfl
  | reused hsize hcached => rfl
  | stored hsize hput => exact cacheIndex_mapping_of_ne _ _ _ hne

private theorem putContents_ensures {pipeline : Pl} {data : Bytes} (hdata : data ≠ [])
    (st : BackupState σ) :
    (putContents cs pipeline data st).Ensures (StoresData cs) fun r =>
      ∃ w, cs.put pipeline data st.store = (.ok r.1, w) ∧ r.2 = { st with store := w } where
  returns := by
    intro hstores
    obtain ⟨tuple, w, hput⟩ := hstores pipeline data st.store hdata
    exact ⟨_, by rw [putContents, hput]⟩
  post := by
    intro r hr
    rw [putContents] at hr
    split at hr
    · next tuple w hput =>
      cases hr
      exact ⟨w, hput, rfl⟩
    · cases hr

theorem fileTuple_ensures {path : Path} {stat : Stat} {data : Bytes}
    (hsize : stat.size = data.length) {st : BackupState σ} (hok : MappingOk port st.mapping) :
    (fileTuple port cs choosePipeline repair path stat data st).Ensures (StoresData cs) fun r =>
      FileStored port cs choosePipeline path stat data st r.1 r.2 := by
  rw [fileTuple]
  by_cases hzero : stat.size = 0
  · rw [if_pos hzero]
    exact .done (.unsaved (.inl hzero))
  · rw [if_neg hzero]
    cases hcached : cachedTuple port cs repair st stat with
    | some tuple => exact .done (.reused hzero (cachedTuple_some hok hcached))
    | none =>
      simp only
      rw [storeCache]
      by_cases hkind : stat.kind = .symlink ∨ stat.kind = .regular
      · have hdata : data ≠ [] := by
          intro hnil
          rw [hnil] at hsize
          exact hzero hsize
        rw [if_pos hkind]
        apply (putContents_ensures hdata st).bind
        rintro ⟨tuple, _⟩ ⟨w, hput, rfl⟩
        exact .done (.stored hzero hput)
      · rw [if_neg hkind]
        exact .done (.unsaved (.inr hkind))

/-- What becomes of a directory: its tuple and the state after it. -/
inductive DirectoryStored (port : SexpPort BackupSymbol) (cs : ContentStore σ Pl) (stat : Stat)
    (entries : List DirectoryEntry) (st : BackupState σ) : IndexTuple → BackupState σ → Prop where
  | first {tuple : IndexTuple} {w : σ} (hunknown : NoDirectory port st.mapping stat.id)
      (hput : cs.put cs.directoryStoragePipeline (writeDirectory port ⟨[], entries⟩) st.store =
        (.ok tuple, w)) :
      DirectoryStored port cs stat entries st tuple
        (cacheIndex port { st with store := w } stat tuple (directoryToSexp ⟨[], entries⟩))
  | unchanged {dir : Directory} {tuple : IndexTuple}
      (hknown : st.mapping stat.id = some (mappingEntry port (directoryToSexp dir) tuple))
      (hsame : lsetEq dir.entries entries = true)
      (hexists : cs.indexedBlockExists st.store tuple.index = true) :
      DirectoryStored port cs stat entries st tuple st
  | restored {dir : Directory} {prevTuple tuple : IndexTuple} {w : σ}
      (hknown : st.mapping stat.id = some (mappingEntry port (directoryToSexp dir) prevTuple))
      (hsame : lsetEq dir.entries entries = true)
      (hput : cs.put cs.directoryStoragePipeline (writeDirectory port dir) st.store =
        (.ok tuple, w)) :
      DirectoryStored port cs stat entries st tuple
        (if tuple = prevTuple then { st with store := w }
          else cacheIndex port { st with store := w } stat tuple (directoryToSexp dir))
  | changed {dir : Directory} {prevTuple tuple : IndexTuple} {w : σ}
      (hknown : st.mapping stat.id = some (mappingEntry port (directoryToSexp dir) prevTuple))
      (hdiffer : lsetEq dir.entries entries = false)
      (hput : cs.put cs.directoryStoragePipeline (writeDirectory port
          ⟨strip (prevTuple :: dir.previous) maxDirectoryPreviousTuples, entries⟩) st.store =
        (.ok tuple, w)) :
      DirectoryStored port cs stat entries st tuple
        (cacheIndex port { st with store := w } stat tuple (directoryToSexp
          ⟨strip (prevTuple :: dir.previous) maxDirectoryPreviousTuples, entries⟩))

theorem DirectoryStored.mappingOk {stat : Stat} {entries : List DirectoryEntry}
    {st st' : BackupState σ} {tuple : IndexTuple}
    (h : DirectoryStored port cs stat entries st tuple st') (hok : MappingOk port st.mapping) :
    MappingOk port st'.mapping := by
  cases h with
  | first hunknown hput => exact mappingOk_cacheIndex hok stat (.inr ⟨_, rfl⟩)
  | unchanged hknown hsame hexists => exact hok
  | restored hknown hsame hput =>
    split
    · exact hok
    · exact mappingOk_cacheIndex hok stat (.inr ⟨_, rfl⟩)
  | changed hknown hdiffer hput => exact mappingOk_cacheIndex hok stat (.inr ⟨_, rfl⟩)

theorem DirectoryStored.mapping_of_ne {stat : Stat} {entries : List DirectoryEntry}
    {st st' : BackupState σ} {tuple : IndexTuple}
    (h : DirectoryStored port cs stat entries st tuple st') {id : FileId} (hne : id ≠ stat.id) :
    st'.mapping id = st.mapping id := by
  cases h with
  | first hunknown hput => exact cacheIndex_mapping_of_ne _ _ _ hne
  | unchanged hknown hsame hexists => rfl
  | restored hknown hsame hput =>
    split
    · rfl
    · exact cacheIndex_mapping_of_ne _ _ _ hne
  | changed hknown hdiffer hput => exact cacheIndex_mapping_of_ne _ _ _ hne

private theorem writeDirectory_ne_nil (dir : Directory) : writeDirectory port dir ≠ [] :=
  port.write_ne_nil _

private theorem doStore_ensures {stat : Stat} {entries : List DirectoryEntry}
    {prevTuples : List IndexTuple} (st : BackupState σ) :
    (doStore port cs stat entries prevTuples st).Ensures (StoresData cs) fun r => ∃ w,
      cs.put cs.directoryStoragePipeline (writeDirectory port ⟨prevTuples, entries⟩) st.store =
        (.ok r.1, w) ∧
      r.2 = cacheIndex port { st with store := w } stat r.1
        (directoryToSexp ⟨prevTuples, entries⟩) := by
  apply (putContents_ensures (writeDirectory_ne_nil _) st).bind
  rintro ⟨tuple, _⟩ ⟨w, hput, rfl⟩
  exact .done ⟨w, hput, rfl⟩

private theorem storeDirectoryVersion_first {stat : Stat} {entries : List DirectoryEntry}
    {st : BackupState σ} (hok : MappingOk port st.mapping)
    (hunknown : NoDirectory port st.mapping stat.id) :
    (storeDirectoryVersion port cs repair stat entries st).Ensures (StoresData cs) fun r =>
      DirectoryStored port cs stat entries st r.1 r.2 := by
  rw [storeDirectoryVersion, cachedDirectory_none hok hunknown]
  apply (doStore_ensures st).mono
  intro r ⟨w, hput, hr⟩
  rw [hr]
  exact .first hunknown hput

private theorem storeDirectoryVersion_known {stat : Stat} {entries : List DirectoryEntry}
    {st : BackupState σ} {dir : Directory} {prevTuple : IndexTuple}
    (hknown : st.mapping stat.id = some (mappingEntry port (directoryToSexp dir) prevTuple)) :
    (storeDirectoryVersion port cs repair stat entries st).Ensures (StoresData cs) fun r =>
      DirectoryStored port cs stat entries st r.1 r.2 := by
  rw [storeDirectoryVersion, cachedDirectory_directory hknown]
  simp only [sexpToDirectory_directoryToSexp, sexpToTuple_tupleToSexp]
  by_cases hsame : lsetEq dir.entries entries = true
  · rw [if_pos hsame]
    by_cases hexists : tipExists cs repair st prevTuple = true
    · rw [if_pos hexists]
      rw [tipExists] at hexists
      split at hexists
      · cases hexists
      · exact .done (.unchanged hknown hsame hexists)
    · rw [if_neg hexists]
      apply (putContents_ensures (writeDirectory_ne_nil _) st).bind
      rintro ⟨tuple, _⟩ ⟨w, hput, rfl⟩
      exact .done (.restored hknown hsame hput)
  · rw [if_neg hsame]
    apply (doStore_ensures st).mono
    intro r ⟨w, hput, hr⟩
    rw [hr]
    exact .changed hknown (Bool.eq_false_of_not_eq_true hsame) hput

theorem storeDirectoryVersion_ensures {stat : Stat} {entries : List DirectoryEntry}
    {st : BackupState σ} (hok : MappingOk port st.mapping) :
    (storeDirectoryVersion port cs repair stat entries st).Ensures (StoresData cs) fun r =>
      DirectoryStored port cs stat entries st r.1 r.2 := by
  by_cases hknown : NoDirectory port st.mapping stat.id
  · exact storeDirectoryVersion_first hok hknown
  · simp only [NoDirectory, ne_eq, not_forall, not_not] at hknown
    obtain ⟨dir, tuple, hknown⟩ := hknown
    exact storeDirectoryVersion_known hknown

/-- The tuple that spells the data out. -/
def memoryTuple (data : Bytes) : IndexTuple := ⟨[], (selfIndexing Unit).serializeAscii data, []⟩

def memoryData (index : String) : Bytes := ((selfIndexing Unit).deserializeAscii index).getD []

theorem memoryData_memoryTuple (data : Bytes) : memoryData (memoryTuple data).index = data := by
  rw [memoryData, memoryTuple, (selfIndexing Unit).deserialize_serialize, Option.getD_some]

/-- A store of whole files, each under a tuple of its own. -/
def memoryStore : ContentStore (Bytes → Bool) Unit where
  put _ data w := (.ok (memoryTuple data), fun data' => decide (data' = data) || w data')
  retrieve w tuple :=
    if w (memoryData tuple.index) then .ok (memoryData tuple.index) else .error .storeBlockUnavail
  indexedBlockExists w index := w (memoryData index)
  directoryStoragePipeline := ()

theorem memoryStore_stores : StoresData memoryStore :=
  fun _ data _ _ => ⟨memoryTuple data, _, rfl⟩

theorem memoryStore_retrieve_put {pipeline : Unit} {data : Bytes} {w w' : Bytes → Bool}
    {tuple : IndexTuple} (hput : memoryStore.put pipeline data w = (.ok tuple, w')) :
    memoryStore.retrieve w' tuple = .ok data := by
  cases hput
  simp [memoryStore, memoryData_memoryTuple]

end Libchop
