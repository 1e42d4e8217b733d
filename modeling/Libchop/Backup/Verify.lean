import Libchop.Backup.Directory

/-!
# Verifying a backup

`verify-tree` retrieves every file and directory that a tuple leads to and reports on each.  Its
verdict, however, is that of the root alone: the loop over the entries of a directory drops what
it learned about them.
-/

namespace Libchop

open Sexp

/-- What `index-tuple->verifier` finds of a tuple. -/
inductive VerifyStatus where
  | ok
  | missing
  | corrupt
deriving DecidableEq, Repr

structure ReportLine where
  file : String
  tuple : Option IndexTuple
  status : VerifyStatus
deriving DecidableEq, Repr

variable (port : SexpPort BackupSymbol) (retrieve : IndexTuple → Except ChopError Bytes)

/-- `index-tuple->verifier`, where `retrieve` is what the retriever of a tuple delivers from the
store. -/
def indexTupleVerify (tuple : IndexTuple) : VerifyStatus :=
  match retrieve tuple with
  | .ok _ => .ok
  | .error e =>
    if e = .storeBlockUnavail then .missing
    else if e = .blockIndexerError then .corrupt
    else .corrupt

/-- The inner loop of `verify-tree`, over the entries of a directory.  It is given the status of
the previous entry, and ends with `(null? entries)`. -/
def verifyEntries (loop : IndexTuple → String → Outcome (Bool × List ReportLine)) (file : String) :
    List DirectoryEntry → Bool → Outcome (Bool × List ReportLine)
  | [], _ => .done (true, [])
  | e :: entries, _ => do
    let path := file ++ "/" ++ e.name
    let (status, lines) ←
      (match e.kind, e.tuple with
      | .directory, some tuple => loop tuple path
      | .directory, none => .abort
      | _, some tuple =>
        .done (indexTupleVerify retrieve tuple = .ok,
          [⟨path, some tuple, indexTupleVerify retrieve tuple⟩])
      | _, none => .done (true, [⟨path, none, .ok⟩]))
    let (result, rest) ← verifyEntries loop file entries status
    return (result, lines ++ rest)

/-- The outer loop of `verify-tree`.  An error other than those of the library ends the run. -/
def verifyTreeLoop : Nat → IndexTuple → String → Outcome (Bool × List ReportLine)
  | 0, _, _ => .outOfFuel
  | fuel + 1, tuple, file =>
    let status := indexTupleVerify retrieve tuple
    let line : ReportLine := ⟨if file = "" then "/" else file, some tuple, status⟩
    if status = .ok then
      match (retrieve tuple).toOption.map (readDirectory port) with
      | some (.ok dir) => do
        let (result, lines) ←
          verifyEntries retrieve (verifyTreeLoop fuel) file dir.entries true
        return (result, line :: lines)
      | _ => .abort
    else
      .done (false, [line])

def verifyTree (fuel : Nat) (tuple : IndexTuple) : Outcome (Bool × List ReportLine) :=
  verifyTreeLoop port retrieve fuel tuple ""

/-- The directories that were backed up below a root, where `dirAt` is the directory stored under
each tuple. -/
inductive ReachableDirectory (dirAt : IndexTuple → Directory) (root : IndexTuple) :
    IndexTuple → Prop where
  | root : ReachableDirectory dirAt root root
  | entry {tuple tuple' : IndexTuple} {e : DirectoryEntry}
      (h : ReachableDirectory dirAt root tuple) (hmem : e ∈ (dirAt tuple).entries)
      (hkind : e.kind = .directory) (htuple : e.tuple = some tuple') :
      ReachableDirectory dirAt root tuple'

/-- The directories below a tuple are nested at most that deep. -/
def NestedWithin (dirAt : IndexTuple → Directory) : Nat → IndexTuple → Prop
  | 0, _ => False
  | depth + 1, tuple => ∀ e ∈ (dirAt tuple).entries, e.kind = .directory →
      ∃ tuple', e.tuple = some tuple' ∧ NestedWithin dirAt depth tuple'

/-- Every tuple that can be reached from the root verifies. -/
def AllVerify (dirAt : IndexTuple → Directory) (root : IndexTuple) : Prop :=
  ∀ tuple, ReachableDirectory dirAt root tuple → indexTupleVerify retrieve tuple = .ok ∧
    ∀ e ∈ (dirAt tuple).entries, ∀ tuple', e.tuple = some tuple' →
      indexTupleVerify retrieve tuple' = .ok

variable {port retrieve} {dirAt : IndexTuple → Directory} {root : IndexTuple}

private theorem verifyEntries_true (retrieve : IndexTuple → Except ChopError Bytes)
    {loop : IndexTuple → String → Outcome (Bool × List ReportLine)}
    {entries : List DirectoryEntry}
    (hloop : ∀ e ∈ entries, e.kind = .directory → ∃ tuple, e.tuple = some tuple ∧
      ∀ file, (loop tuple file).Returns) (file : String) (status : Bool) :
    ∃ lines, verifyEntries retrieve loop file entries status = .done (true, lines) := by
  induction entries generalizing status with
  | nil => exact ⟨[], rfl⟩
  | cons e entries ih =>
    have hrest := ih fun e' hmem => hloop e' (List.mem_cons_of_mem e hmem)
    have hentry : ∃ status lines, (match e.kind, e.tuple with
        | .directory, some tuple => loop tuple (file ++ "/" ++ e.name)
        | .directory, none => .abort
        | _, some tuple =>
          .done (indexTupleVerify retrieve tuple = .ok,
            [⟨file ++ "/" ++ e.name, some tuple, indexTupleVerify retrieve tuple⟩])
        | _, none => .done (true, [⟨file ++ "/" ++ e.name, none, .ok⟩])) =
          Outcome.done (status, lines) := by
      by_cases hkind : e.kind = .directory
      · obtain ⟨tuple, htuple, hreturns⟩ := hloop e List.mem_cons_self hkind
        obtain ⟨r, hr⟩ := hreturns (file ++ "/" ++ e.name)
        rw [hkind, htuple]
        exact ⟨r.1, r.2, hr⟩
      · cases htuple : e.tuple with
        | none => cases hk : e.kind <;> first | exact (hkind hk).elim | exact ⟨_, _, rfl⟩
        | some tuple => cases hk : e.kind <;> first | exact (hkind hk).elim | exact ⟨_, _, rfl⟩
    obtain ⟨status', lines, hentry⟩ := hentry
    obtain ⟨rest, hrest⟩ := hrest status'
    rw [verifyEntries]
    simp only [hentry, hrest, Outcome.done_bind, Outcome.pure_eq_done]
    exact ⟨_, rfl⟩

private theorem ReachableDirectory.trans {tuple tuple' : IndexTuple}
    (h : ReachableDirectory dirAt root tuple) (h' : ReachableDirectory dirAt tuple tuple') :
    ReachableDirectory dirAt root tuple' := by
  induction h' with
  | root => exact h
  | entry _ hmem hkind htuple ih => exact .entry ih hmem hkind htuple

/-- The verdict is that of the tuple it starts with, whatever is found below. -/
theorem verifyTreeLoop_eq {depth fuel : Nat}
    (hstored : ∀ tuple bytes, ReachableDirectory dirAt root tuple → retrieve tuple = .ok bytes →
      readDirectory port bytes = .ok (dirAt tuple))
    (hdepth : NestedWithin dirAt depth root) (hfuel : depth ≤ fuel) (file : String) :
    ∃ lines, verifyTreeLoop port retrieve fuel root file =
      .done (decide (indexTupleVerify retrieve root = .ok), lines) := by
  induction fuel generalizing depth root file with
  | zero =>
    have hzero : depth = 0 := Nat.le_zero.mp hfuel
    rw [hzero] at hdepth
    exact hdepth.elim
  | succ fuel ih =>
    rw [verifyTreeLoop]
    by_cases hok : indexTupleVerify retrieve root = .ok
    · cases hbytes : retrieve root with
      | error e =>
        rw [indexTupleVerify, hbytes] at hok
        simp only at hok
        split at hok
        · cases hok
        · split at hok
          · cases hok
          · cases hok
      | ok bytes =>
        have hread := hstored root bytes .root hbytes
        have hloop : ∀ e ∈ (dirAt root).entries, e.kind = .directory →
            ∃ tuple, e.tuple = some tuple ∧
              ∀ file, (verifyTreeLoop port retrieve fuel tuple file).Returns := by
          intro e hmem hkind
          cases depth with
          | zero => exact hdepth.elim
          | succ depth =>
            obtain ⟨tuple, htuple, hnested⟩ := hdepth e hmem hkind
            refine ⟨tuple, htuple, fun file => ?_⟩
            have hreach : ReachableDirectory dirAt root tuple := .entry .root hmem hkind htuple
            obtain ⟨lines, hrun⟩ := ih (fun tuple' bytes h => hstored tuple' bytes (hreach.trans h))
              hnested (Nat.le_of_succ_le_succ hfuel) file
            exact ⟨_, hrun⟩
        obtain ⟨lines, hentries⟩ := verifyEntries_true retrieve hloop file true
        simp only [hok, if_true, Except.toOption, Option.map_some, hread, hentries,
          Outcome.done_bind, Outcome.pure_eq_done, decide_true]
        exact ⟨_, rfl⟩
    · simp only [hok, if_false, decide_false]
      exact ⟨_, rfl⟩

/-- `verify-tree` answers for the whole tree exactly when the root is bad or all of the tree is
good: a bad entry below a good root goes unnoticed. -/
theorem verifyTree_sound_iff {depth fuel : Nat}
    (hstored : ∀ tuple bytes, ReachableDirectory dirAt root tuple → retrieve tuple = .ok bytes →
      readDirectory port bytes = .ok (dirAt tuple))
    (hdepth : NestedWithin dirAt depth root) (hfuel : depth ≤ fuel) :
    ∃ result report, verifyTree port retrieve fuel root = .done (result, report) ∧
      ((result = true ↔ AllVerify retrieve dirAt root) ↔
        (indexTupleVerify retrieve root ≠ .ok ∨ AllVerify retrieve dirAt root)) := by
  obtain ⟨report, hrun⟩ := verifyTreeLoop_eq hstored hdepth hfuel ""
  refine ⟨_, report, hrun, ?_⟩
  have hroot : AllVerify retrieve dirAt root → indexTupleVerify retrieve root = .ok :=
    fun h => (h root .root).1
  rw [decide_eq_true_eq]
  by_cases hall : AllVerify retrieve dirAt root
  · simp [hall, hroot hall]
  · simp [hall]

def sampleDirectory : Directory :=
  ⟨[], [⟨"a", .regular, 1325376000, 5, 0o644, some ⟨[], "file", []⟩⟩]⟩

def retrieveDirectoryOnly (tuple : IndexTuple) : Except ChopError Bytes :=
  if tuple = ⟨[], "root", []⟩ then .ok (writeDirectory (plainPort _) sampleDirectory)
  else .error .storeBlockUnavail

private theorem sampleDirectory_stored (tuple : IndexTuple) (bytes : Bytes)
    (h : retrieveDirectoryOnly tuple = .ok bytes) :
    readDirectory (plainPort _) bytes = .ok sampleDirectory := by
  rw [retrieveDirectoryOnly] at h
  split at h
  · cases h
    exact readDirectory_writeDirectory _ _
  · cases h

private theorem sampleDirectory_nested (tuple : IndexTuple) :
    NestedWithin (fun _ => sampleDirectory) 1 tuple := by
  intro e hmem hkind
  rw [List.mem_singleton.mp hmem] at hkind
  cases hkind

def retrieveBoth (tuple : IndexTuple) : Except ChopError Bytes :=
  if tuple = ⟨[], "root", []⟩ then .ok (writeDirectory (plainPort _) sampleDirectory)
  else .ok [1, 2, 3]

private theorem sampleDirectory_reachable {tuple : IndexTuple}
    (h : ReachableDirectory (fun _ => sampleDirectory) ⟨[], "root", []⟩ tuple) :
    tuple = ⟨[], "root", []⟩ := by
  cases h with
  | root => rfl
  | entry _ hmem hkind _ =>
    rw [List.mem_singleton.mp hmem] at hkind
    cases hkind

private theorem retrieveBoth_ok (tuple : IndexTuple) : indexTupleVerify retrieveBoth tuple = .ok := by
  rw [indexTupleVerify, retrieveBoth]
  split
  · rfl
  · next e herr =>
    split at herr
    · cases herr
    · cases herr

theorem missing_file_verdict :
    (∃ result report,
      verifyTree (plainPort _) retrieveDirectoryOnly 1 ⟨[], "root", []⟩ = .done (result, report) ∧
      ((result = true ↔ AllVerify retrieveDirectoryOnly (fun _ => sampleDirectory)
          ⟨[], "root", []⟩) ↔
        (indexTupleVerify retrieveDirectoryOnly ⟨[], "root", []⟩ ≠ .ok ∨
          AllVerify retrieveDirectoryOnly (fun _ => sampleDirectory) ⟨[], "root", []⟩))) ∧
    ∃ report, verifyTree (plainPort _) retrieveBoth 1 ⟨[], "root", []⟩ = .done (true, report) ∧
      AllVerify retrieveBoth (fun _ => sampleDirectory) ⟨[], "root", []⟩ := by
  refine ⟨verifyTree_sound_iff (fun tuple bytes _ => sampleDirectory_stored tuple bytes)
    (sampleDirectory_nested _) le_rfl, ?_⟩
  have hstored : ∀ tuple bytes, ReachableDirectory (fun _ => sampleDirectory) ⟨[], "root", []⟩ tuple →
      retrieveBoth tuple = .ok bytes → readDirectory (plainPort _) bytes = .ok sampleDirectory := by
    intro tuple bytes hreachable hbytes
    rw [sampleDirectory_reachable hreachable, retrieveBoth, if_pos rfl] at hbytes
    cases hbytes
    exact readDirectory_writeDirectory _ _
  have hall : AllVerify retrieveBoth (fun _ => sampleDirectory) ⟨[], "root", []⟩ :=
    fun tuple _ => ⟨retrieveBoth_ok tuple, fun _ _ tuple' _ => retrieveBoth_ok tuple'⟩
  obtain ⟨result, report, hverify, hsound⟩ :=
    verifyTree_sound_iff hstored (sampleDirectory_nested _) le_rfl
  have hresult : result = true := (hsound.mpr (.inr hall)).mpr hall
  exact ⟨report, hresult ▸ hverify, hall⟩

/-- The file of the directory is missing, and `verify-tree` returns true. -/
theorem missing_file_unnoticed :
    (∃ report, verifyTree (plainPort _) retrieveDirectoryOnly 1 ⟨[], "root", []⟩ =
      .done (true, report)) ∧
    ¬ AllVerify retrieveDirectoryOnly (fun _ => sampleDirectory) ⟨[], "root", []⟩ := by
  constructor
  · have hroot : indexTupleVerify retrieveDirectoryOnly ⟨[], "root", []⟩ = .ok := by
      rw [indexTupleVerify, retrieveDirectoryOnly, if_pos rfl]
    have hrun : ∃ report, verifyTree (plainPort _) retrieveDirectoryOnly 1 ⟨[], "root", []⟩ =
        .done (decide (indexTupleVerify retrieveDirectoryOnly ⟨[], "root", []⟩ = .ok), report) :=
      verifyTreeLoop_eq (fun tuple bytes _ => sampleDirectory_stored tuple bytes)
        (sampleDirectory_nested _) le_rfl ""
    rw [hroot] at hrun
    exact hrun
  · intro hall
    have hfile := (hall _ .root).2 _ List.mem_cons_self _ rfl
    rw [indexTupleVerify, retrieveDirectoryOnly, if_neg (by decide)] at hfile
    cases hfile

end Libchop
