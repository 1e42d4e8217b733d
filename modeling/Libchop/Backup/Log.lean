import Libchop.Backup.Listing
import Libchop.Backup.ScopedChanges
import Libchop.Backup.Versions

/-!
# The change log of a directory

`show-log` goes from a version of a directory to the most recent of its previous versions that is available,
and shows what changed between them.  A version remembers ten others, so that some of them may be gone.
-/

namespace Libchop

structure LogEntry where
  tuple : Option IndexTuple
  changes : DirectoryChanges
deriving DecidableEq, Repr

/-- `directory-changes*`: a recursive log has a `fetch`. -/
def directoryChangesStar (fetch : Option (Option IndexTuple → Option Directory)) (fuel : Nat)
    (new old : Directory) : Outcome DirectoryChanges :=
  match fetch with
  | none => .done (directoryChanges new old)
  | some fetch => do
    match ← directoryChangesRecursiveStar fetch fuel new old with
    | .ok changes => return changes
    | .error _ => .abort

section Log

variable {σ Pl : Type} (port : SexpPort BackupSymbol) (cs : ContentStore σ Pl) (store : σ)

/-- `read-directory` of what `retrieve` gives, or nothing if a block is unavailable.  Any other error ends
the program. -/
def readVersion (tuple : IndexTuple) : Outcome (Option Directory) :=
  match cs.retrieve store tuple with
  | .ok bytes =>
    match readDirectory port bytes with
    | .ok dir => .done (some dir)
    | .error _ => .abort
  | .error .storeBlockUnavail => .done none
  | .error _ => .abort

def readPrevious (dir : Directory) : Outcome (Option Directory) :=
  match directoryPreviousVersion (cs.indexedBlockExists store) dir with
  | some prev => readVersion port cs store prev
  | none => .done none

variable (compare : Directory → Directory → Outcome DirectoryChanges)

/-- The loop of `show-log`.  It also ends when the previous version turns out to be unavailable, as
`false-if-block-unavailable` is around the whole. -/
def showLogLoop : Nat → Option IndexTuple → Directory → Option Directory → Outcome (List LogEntry)
  | 0, _, _, _ => .outOfFuel
  | _ + 1, _, _, none => .done []
  | fuel + 1, tuple, current, some previous => do
    let changes ← compare current previous
    let next ← readPrevious port cs store previous
    let log ← showLogLoop fuel (directoryPreviousVersion (cs.indexedBlockExists store) current) previous next
    return ⟨tuple, changes⟩ :: log

def showLog (fuel : Nat) (tuple : IndexTuple) : Outcome (List LogEntry) := do
  match ← readVersion port cs store tuple with
  | none => return []
  | some dir =>
    let previous ← readPrevious port cs store dir
    showLogLoop port cs store compare fuel (some tuple) dir previous

end Log

section Histories

/-- The versions of a directory so far, the newest one first, after one more backup. -/
def nextHistory (tupleOf : Directory → IndexTuple) (history : List Directory)
    (entries : List DirectoryEntry) : List Directory :=
  match history with
  | [] => [nextDirectory tupleOf none entries]
  | dir :: older =>
    if lsetEq dir.entries entries then dir :: older
    else nextDirectory tupleOf (some dir) entries :: dir :: older

/-- The versions that backups with these entries make. -/
def versionHistory (tupleOf : Directory → IndexTuple) (backups : List (List DirectoryEntry)) :
    List Directory :=
  backups.foldl (nextHistory tupleOf) []

/-- What is reached by going on to the first one that is available out of the next `max`, as often as there
is one; `gap` is how many may still be looked at. -/
def linked {α : Type} (max : Nat) (available : α → Bool) : Nat → List α → List α
  | _, [] => []
  | 0, _ :: _ => []
  | gap + 1, v :: older =>
    if available v then v :: linked max available max older else linked max available gap older

/-- The changes from each version to the one after it in the list. -/
def changeLog (compare : Directory → Directory → Outcome DirectoryChanges)
    (tupleOf : Directory → IndexTuple) : List Directory → Outcome (List LogEntry)
  | new :: old :: older => do
    let changes ← compare new old
    let log ← changeLog compare tupleOf (old :: older)
    return ⟨some (tupleOf new), changes⟩ :: log
  | _ => .done []

section Linked

variable {α : Type} {max : Nat} {available : α → Bool}

theorem head?_linked (gap : Nat) (vs : List α) :
    (linked max available gap vs).head? = (vs.take gap).find? available := by
  induction vs generalizing gap with
  | nil =>
    rw [List.take_nil]
    cases gap with
    | zero => rfl
    | succ gap => rfl
  | cons v older ih =>
    cases gap with
    | zero => rfl
    | succ gap =>
      rw [linked, List.take_succ_cons, List.find?_cons]
      cases available v with
      | true => rfl
      | false => exact ih gap

/-- Behind the first one that is reached, the search starts again. -/
theorem linked_cons {gap : Nat} {vs rest : List α} {v : α}
    (h : linked max available gap vs = v :: rest) :
    ∃ skipped older, vs = skipped ++ v :: older ∧ rest = linked max available max older := by
  induction vs generalizing gap with
  | nil =>
    cases gap with
    | zero => cases h
    | succ gap => cases h
  | cons w older ih =>
    cases gap with
    | zero => cases h
    | succ gap =>
      rw [linked] at h
      split at h
      · cases h
        exact ⟨[], older, rfl, rfl⟩
      · obtain ⟨skipped, older', hvs, hrest⟩ := ih h
        exact ⟨w :: skipped, older', by rw [hvs, List.cons_append], hrest⟩

end Linked

/-- Each version has the tuples of those before it. -/
def Remembers (tupleOf : Directory → IndexTuple) : List Directory → Prop
  | [] => True
  | dir :: older =>
    dir.previous = (older.map tupleOf).take maxDirectoryPreviousTuples ∧ Remembers tupleOf older

variable {tupleOf : Directory → IndexTuple}

theorem Remembers.of_append {newer older : List Directory} (h : Remembers tupleOf (newer ++ older)) :
    Remembers tupleOf older := by
  induction newer with
  | nil => exact h
  | cons dir newer ih => exact ih h.2

theorem head?_nextHistory (tupleOf : Directory → IndexTuple) (history : List Directory)
    (entries : List DirectoryEntry) :
    (nextHistory tupleOf history entries).head? = some (nextDirectory tupleOf history.head? entries) := by
  cases history with
  | nil => rfl
  | cons dir older =>
    rw [nextHistory, List.head?_cons]
    split
    · next hsame => rw [List.head?_cons, nextDirectory, if_pos hsame]
    · rfl

theorem length_nextHistory_le (tupleOf : Directory → IndexTuple) (history : List Directory)
    (entries : List DirectoryEntry) :
    (nextHistory tupleOf history entries).length ≤ history.length + 1 := by
  cases history with
  | nil => exact le_refl 1
  | cons dir older =>
    rw [nextHistory]
    split
    · exact Nat.le_succ _
    · exact le_refl _

/-- A new version has the tuple of the one before and the tuples that that one had. -/
theorem Remembers.next {history : List Directory} (h : Remembers tupleOf history)
    (entries : List DirectoryEntry) : Remembers tupleOf (nextHistory tupleOf history entries) := by
  cases history with
  | nil => exact ⟨rfl, trivial⟩
  | cons dir older =>
    rw [nextHistory]
    split
    · exact h
    · next hdiffer =>
      refine ⟨?_, h⟩
      have hprevious : (tupleOf dir :: dir.previous).take maxDirectoryPreviousTuples =
          ((dir :: older).map tupleOf).take maxDirectoryPreviousTuples := by
        rw [h.1, List.map_cons, maxDirectoryPreviousTuples, List.take_succ_cons, List.take_succ_cons,
          List.take_take]
        rfl
      rw [nextDirectory, if_neg hdiffer]
      exact hprevious

/-- What the results of some backups make of a history. -/
structure Continues (tupleOf : Directory → IndexTuple) (history : List Directory) {σ : Type}
    (results : List (BackupResult σ)) (history' : List Directory) : Prop where
  remembers : Remembers tupleOf history'
  short : history'.length ≤ history.length + results.length
  newest : ∀ result ∈ results.getLast?, history'.head?.map tupleOf = some result.tuple

variable {σ Pl : Type} {port : SexpPort BackupSymbol} {cs : ContentStore σ Pl} {id : FileId}

theorem Versions.continues {results : List (BackupResult σ)} {last : Option Directory}
    (h : Versions port cs tupleOf id last results) {history : List Directory}
    (hlast : history.head? = last) (hremembers : Remembers tupleOf history) :
    Continues tupleOf history results
      ((results.map BackupResult.entries).foldl (nextHistory tupleOf) history) := by
  induction h generalizing history with
  | nil last => exact ⟨hremembers, le_refl _, fun result hresult => by cases hresult⟩
  | @cons last result results hstep hrest ih =>
    have hhead := head?_nextHistory tupleOf history result.entries
    rw [hlast] at hhead
    have hcontinues := ih hhead (hremembers.next result.entries)
    refine ⟨hcontinues.remembers, ?_, ?_⟩
    · have hshort := hcontinues.short
      have hnext := length_nextHistory_le tupleOf history result.entries
      rw [List.map_cons, List.foldl_cons, List.length_cons]
      omega
    · intro final hfinal
      cases results with
      | nil =>
        cases hfinal
        rw [List.getLast_singleton, hstep.tuple, List.map_cons, List.map_nil, List.foldl_cons,
          List.foldl_nil, hhead, Option.map_some]
      | cons next results =>
        rw [List.getLast?_cons_cons] at hfinal
        exact hcontinues.newest final hfinal

end Histories

section Shown

variable {σ Pl : Type} {port : SexpPort BackupSymbol} {cs : ContentStore σ Pl} {store : σ}
  {compare : Directory → Directory → Outcome DirectoryChanges} {tupleOf : Bytes → IndexTuple}

abbrev versionTuple (port : SexpPort BackupSymbol) (tupleOf : Bytes → IndexTuple) (dir : Directory) :
    IndexTuple :=
  tupleOf (writeDirectory port dir)

/-- A version is as it was, or some block of it is gone. -/
def RightOrGone (port : SexpPort BackupSymbol) (cs : ContentStore σ Pl) (tupleOf : Bytes → IndexTuple)
    (store : σ) (dir : Directory) : Prop :=
  cs.retrieve store (versionTuple port tupleOf dir) = .ok (writeDirectory port dir) ∨
    cs.retrieve store (versionTuple port tupleOf dir) = .error .storeBlockUnavail

/-- `indexed-block-exists?` on the tuple of a version. -/
def versionExists (port : SexpPort BackupSymbol) (cs : ContentStore σ Pl) (tupleOf : Bytes → IndexTuple)
    (store : σ) (dir : Directory) : Bool :=
  cs.indexedBlockExists store (versionTuple port tupleOf dir).index

/-- No block of a version is gone. -/
def versionComplete (port : SexpPort BackupSymbol) (cs : ContentStore σ Pl)
    (tupleOf : Bytes → IndexTuple) (store : σ) (dir : Directory) : Bool :=
  (cs.retrieve store (versionTuple port tupleOf dir)).isOk

/-- The older versions that a log goes through. -/
def loggedVersions (port : SexpPort BackupSymbol) (cs : ContentStore σ Pl)
    (tupleOf : Bytes → IndexTuple) (store : σ) (older : List Directory) : List Directory :=
  (linked maxDirectoryPreviousTuples (versionExists port cs tupleOf store) maxDirectoryPreviousTuples
    older).takeWhile (versionComplete port cs tupleOf store)

theorem readVersion_eq {dir : Directory} (h : RightOrGone port cs tupleOf store dir) :
    readVersion port cs store (versionTuple port tupleOf dir) =
      .done (if versionComplete port cs tupleOf store dir then some dir else none) := by
  rw [readVersion, versionComplete]
  rcases h with h | h
  · rw [h]
    simp only [readDirectory_writeDirectory]
    rfl
  · rw [h]
    rfl

theorem directoryPreviousVersion_eq {dir : Directory} {older : List Directory}
    (h : Remembers (versionTuple port tupleOf) (dir :: older)) :
    directoryPreviousVersion (cs.indexedBlockExists store) dir =
      (linked maxDirectoryPreviousTuples (versionExists port cs tupleOf store) maxDirectoryPreviousTuples
        older).head?.map (versionTuple port tupleOf) := by
  rw [directoryPreviousVersion, h.1, ← List.map_take, List.find?_map, head?_linked]
  rfl

theorem readPrevious_eq {dir : Directory} {older : List Directory}
    (h : Remembers (versionTuple port tupleOf) (dir :: older))
    (hright : ∀ dir ∈ older, RightOrGone port cs tupleOf store dir) :
    readPrevious port cs store dir = .done (loggedVersions port cs tupleOf store older).head? := by
  rw [readPrevious, directoryPreviousVersion_eq h, loggedVersions]
  cases hlinked : linked maxDirectoryPreviousTuples (versionExists port cs tupleOf store)
      maxDirectoryPreviousTuples older with
  | nil => rfl
  | cons v rest =>
    obtain ⟨skipped, older', rfl, -⟩ := linked_cons hlinked
    simp only [List.head?_cons, Option.map_some]
    rw [readVersion_eq (hright v (List.mem_append_right _ List.mem_cons_self)), List.takeWhile_cons]
    cases versionComplete port cs tupleOf store v with
    | true => rfl
    | false => rfl

/-- By induction on the budget: the loop stands at a version and those before it. -/
theorem showLogLoop_eq (fuel : Nat) {dir : Directory} {older : List Directory}
    (hremembers : Remembers (versionTuple port tupleOf) (dir :: older))
    (hright : ∀ dir ∈ older, RightOrGone port cs tupleOf store dir) (hfuel : older.length < fuel) :
    showLogLoop port cs store compare fuel (some (versionTuple port tupleOf dir)) dir
        (loggedVersions port cs tupleOf store older).head? =
      changeLog compare (versionTuple port tupleOf)
        (dir :: loggedVersions port cs tupleOf store older) := by
  induction fuel generalizing dir older with
  | zero => exact absurd hfuel (Nat.not_lt_zero _)
  | succ fuel ih =>
    cases hlogged : loggedVersions port cs tupleOf store older with
    | nil => rfl
    | cons v rest =>
      rw [loggedVersions] at hlogged
      cases hlinked : linked maxDirectoryPreviousTuples (versionExists port cs tupleOf store)
          maxDirectoryPreviousTuples older with
      | nil =>
        rw [hlinked] at hlogged
        cases hlogged
      | cons w reached =>
        have hprevious : directoryPreviousVersion (cs.indexedBlockExists store) dir =
            some (versionTuple port tupleOf w) := by
          rw [directoryPreviousVersion_eq hremembers, hlinked]
          rfl
        obtain ⟨skipped, older', rfl, hreached⟩ := linked_cons hlinked
        rw [hlinked, List.takeWhile_cons] at hlogged
        split at hlogged
        · cases hlogged
          have hremembers' : Remembers (versionTuple port tupleOf) (v :: older') :=
            Remembers.of_append hremembers.2
          have hright' : ∀ dir ∈ older', RightOrGone port cs tupleOf store dir := fun dir hmem =>
            hright dir (List.mem_append_right _ (List.mem_cons_of_mem _ hmem))
          have hfuel' : older'.length < fuel := by
            rw [List.length_append, List.length_cons] at hfuel
            omega
          rw [List.head?_cons, showLogLoop, readPrevious_eq hremembers' hright', hprevious, changeLog,
            hreached]
          simp only [Outcome.done_bind]
          rw [ih hremembers' hright' hfuel']
          rfl
        · cases hlogged

theorem showLog_eq (fuel : Nat) {dir : Directory} {older : List Directory}
    (hremembers : Remembers (versionTuple port tupleOf) (dir :: older))
    (hright : ∀ dir' ∈ dir :: older, RightOrGone port cs tupleOf store dir')
    (hfuel : older.length < fuel) :
    showLog port cs store compare fuel (versionTuple port tupleOf dir) =
      if versionComplete port cs tupleOf store dir then
        changeLog compare (versionTuple port tupleOf)
          (dir :: loggedVersions port cs tupleOf store older)
      else .done [] := by
  have holder : ∀ dir ∈ older, RightOrGone port cs tupleOf store dir :=
    fun dir hmem => hright dir (List.mem_cons_of_mem _ hmem)
  rw [showLog, readVersion_eq (hright dir List.mem_cons_self), Outcome.done_bind]
  cases versionComplete port cs tupleOf store dir with
  | true =>
    simp only [if_true, readPrevious_eq hremembers holder, Outcome.done_bind]
    exact showLogLoop_eq fuel hremembers holder hfuel
  | false => rfl

end Shown

section Runs

variable {σ Pl : Type} {port : SexpPort BackupSymbol} {cs : ContentStore σ Pl}
  {tupleOf : Bytes → IndexTuple}

/-- The versions that some backups made, the newest one first. -/
def storedVersions (port : SexpPort BackupSymbol) (tupleOf : Bytes → IndexTuple)
    (results : List (BackupResult σ)) : List Directory :=
  versionHistory (versionTuple port tupleOf) (results.map BackupResult.entries)

def versionLog (port : SexpPort BackupSymbol) (cs : ContentStore σ Pl) (tupleOf : Bytes → IndexTuple)
    (store : σ) (compare : Directory → Directory → Outcome DirectoryChanges) :
    List Directory → Outcome (List LogEntry)
  | [] => .done []
  | dir :: older =>
    if versionComplete port cs tupleOf store dir then
      changeLog compare (versionTuple port tupleOf) (dir :: loggedVersions port cs tupleOf store older)
    else .done []

/-- After any backups of a directory, whatever became of the store: from the tuple of the last backup, the
log shows the changes between one version and the next, for the newest version, the most recent one of the
ten before it that exists, the most recent one of the ten before that, and so on up to the first one that is
not complete. -/
theorem showLog_tells_history (hconv : Convergent cs tupleOf) {runs : List (BackupRun σ Pl)}
    {id : FileId} (hid : ∀ run ∈ runs, run.info.id = id) (hproper : ∀ run ∈ runs, run.Proper)
    {mapping : FileId → Option Bytes} (hok : MappingOk port mapping)
    (hunknown : NoDirectory port mapping id) :
    ∃ bound, ∀ fuel, bound ≤ fuel → (backupRuns port cs fuel runs mapping).Ensures
      (StoresData cs ∧ ∀ run ∈ runs, enterDirectory? run.path run.tree.stat = true) fun results =>
        results.length = runs.length ∧ ∀ last ∈ results.getLast?, ∀ store : σ,
          (∀ dir ∈ storedVersions port tupleOf results, RightOrGone port cs tupleOf store dir) →
          ∀ compare fuel', runs.length ≤ fuel' →
            showLog port cs store compare fuel' last.tuple =
              versionLog port cs tupleOf store compare (storedVersions port tupleOf results) := by
  have hdepth : ∀ e ∈ runs.map fun run => ("", run.tree), ∃ depth, e.2.Within depth :=
    fun e _ => e.2.exists_within
  obtain ⟨bound, hbound⟩ := FileTree.exists_within_list hdepth
  refine ⟨bound, fun fuel hfuel => ?_⟩
  have hwithin : ∀ run ∈ runs, run.tree.Within fuel :=
    fun run hmem => (hbound _ (List.mem_map_of_mem hmem)).mono hfuel
  have hlast : Tracks port (fun dir => tupleOf (writeDirectory port dir)) mapping id none := hunknown
  apply (backupRuns_ensures hconv hid hproper hwithin hok hlast).mono
  intro results ⟨hlength, hversions⟩
  refine ⟨hlength, ?_⟩
  intro last hmem store hright compare fuel' hfuel'
  have hcontinues : Continues (versionTuple port tupleOf) [] results (storedVersions port tupleOf results) :=
    hversions.continues rfl trivial
  have hnewest := hcontinues.newest last hmem
  have hshort := hcontinues.short
  have hremembers := hcontinues.remembers
  cases hhistory : storedVersions port tupleOf results with
  | nil =>
    rw [hhistory] at hnewest
    cases hnewest
  | cons dir older =>
    rw [hhistory] at hnewest hshort hremembers hright
    rw [List.head?_cons, Option.map_some, Option.some.injEq] at hnewest
    rw [List.length_cons, List.length_nil] at hshort
    rw [← hnewest]
    exact showLog_eq fuel' hremembers hright (by omega)

end Runs

theorem memoryStore_rightOrGone {port : SexpPort BackupSymbol} (store : Bytes → Bool) (dir : Directory) :
    RightOrGone port memoryStore memoryTuple store dir := by
  simp only [RightOrGone, versionTuple, memoryStore, memoryData_memoryTuple]
  cases store (writeDirectory port dir) with
  | true => exact .inl rfl
  | false => exact .inr rfl

/-- The three backups from above, when a later store has everything. -/
theorem sampleRuns_told : ∃ bound, ∀ fuel, bound ≤ fuel →
    ∃ results last, backupRuns (Sexp.plainPort _) memoryStore fuel sampleRuns (fun _ => none) =
        .done results ∧ results.getLast? = some last ∧
      showLog (Sexp.plainPort _) memoryStore (fun _ => true) (directoryChangesStar none 0) 3 last.tuple =
        versionLog (Sexp.plainPort _) memoryStore memoryTuple (fun _ => true) (directoryChangesStar none 0)
          (storedVersions (Sexp.plainPort _) memoryTuple results) := by
  have hid : ∀ run ∈ sampleRuns, run.info.id = ⟨1, 1⟩ := by decide
  have hok : MappingOk (Sexp.plainPort _) fun _ => none := by
    intro id bytes h
    cases h
  have hunknown : NoDirectory (Sexp.plainPort _) (fun _ => none) ⟨1, 1⟩ := by
    intro dir tuple h
    cases h
  obtain ⟨bound, htold⟩ :=
    showLog_tells_history memoryStore_convergent hid sampleRuns_proper hok hunknown
  refine ⟨bound, fun fuel hfuel => ?_⟩
  have hruns := htold fuel hfuel
  obtain ⟨results, hresults⟩ := hruns.returns ⟨memoryStore_stores, by decide⟩
  obtain ⟨hlength, hlast⟩ := hruns.post results hresults
  cases hlog : results.getLast? with
  | none =>
    rw [List.getLast?_eq_none_iff.mp hlog] at hlength
    cases hlength
  | some last =>
    exact ⟨results, last, hresults, hlog, hlast last hlog _ (fun dir _ => memoryStore_rightOrGone _ dir) _ 3
      (le_refl 3)⟩

end Libchop
