import Libchop.Backup.Recursive
import Libchop.Framework.Recency

/-!
# Recent backups

A file in the cache directory lists the tuples of recent backups for each directory that was backed up.
Without a tuple on its command line, `chop-backup` takes one from this list.
-/

namespace Libchop

open Sexp Recency

abbrev Backups := List (String × List IndexTuple)

def maxRecentBackupTuples : Nat := 50

def backupsToSexp (backups : Backups) : BackupSexp :=
  ofList (backups.map fun (dir, tuples) => .pair (stringSexp dir) (ofList (tuples.map tupleToSexp)))

def sexpToBackup : BackupSexp → Option (String × List IndexTuple)
  | .pair dir tuples => do return (← sexpToString dir, ← sexpToList sexpToTuple tuples)
  | _ => none

/-- `recent-backups`, which may find no file.  A file with anything but backups in it is an error. -/
def recentBackups (port : SexpPort BackupSymbol) : Option Bytes → Except SchemeError Backups
  | none => .ok []
  | some bytes =>
    match (port.read bytes).bind (sexpToList sexpToBackup) with
    | some backups => .ok backups
    | none => .error .matchError

def assocRef (backups : Backups) (dir : String) : Option (List IndexTuple) :=
  (backups.find? fun entry => entry.1 = dir).map Prod.snd

def alistDelete (dir : String) (backups : Backups) : Backups := backups.filter fun entry => !entry.1 == dir

/-- `save-backup-tuple`: what the file contains then. -/
def saveBackupTuple (port : SexpPort BackupSymbol) (dir : String) (tuple : IndexTuple)
    (file : Option Bytes) : Except SchemeError (Option Bytes) := do
  let backups ← recentBackups port file
  let prev := (assocRef backups dir).getD []
  return some (port.write (backupsToSexp
    ((dir, strip (tuple :: prev).eraseDups maxRecentBackupTuples) :: alistDelete dir backups)))

/-- `most-recent-backup-tuple`, where `exists?` is `indexed-block-exists?` on a store. -/
def mostRecentBackupTuple (port : SexpPort BackupSymbol) (exists? : String → Bool)
    (file : Option Bytes) : Except SchemeError (Option (String × IndexTuple)) := do
  let backups ← recentBackups port file
  return backups.findSome? fun (dir, tuples) =>
    (tuples.find? fun tuple => exists? tuple.index).map fun tuple => (dir, tuple)

def saveBackupTuples (port : SexpPort BackupSymbol) (saves : List (String × IndexTuple)) :
    Except SchemeError (Option Bytes) :=
  saves.foldlM (fun file (dir, tuple) => saveBackupTuple port dir tuple file) none

variable {port : SexpPort BackupSymbol}

theorem recentBackups_write (backups : Backups) :
    recentBackups port (some (port.write (backupsToSexp backups))) = .ok backups := by
  have htuples := sexpToList_ofList sexpToTuple tupleToSexp sexpToTuple_tupleToSexp
  have hbackups := sexpToList_ofList sexpToBackup
    (fun backup : String × List IndexTuple =>
      .pair (stringSexp backup.1) (ofList (backup.2.map tupleToSexp)))
    (fun backup => by simp [sexpToBackup, htuples, sexpToString, stringSexp]) backups
  rw [recentBackups, port.read_write, Option.bind_some, backupsToSexp, hbackups]

/-- One call prepends to the history. -/
theorem saveBackupTuple_table {file : Option Bytes} {history : List (String × IndexTuple)}
    (h : recentBackups port file = .ok (table maxRecentBackupTuples history)) (dir : String)
    (tuple : IndexTuple) :
    ∃ file', saveBackupTuple port dir tuple file = .ok file' ∧
      recentBackups port file' = .ok (table maxRecentBackupTuples ((dir, tuple) :: history)) := by
  refine ⟨_, ?_, recentBackups_write _⟩
  have hstrip : ∀ tuples : List IndexTuple,
      strip tuples maxRecentBackupTuples = tuples.take maxRecentBackupTuples := by
    intro tuples
    rw [strip]
    split
    · next hle => rw [List.take_of_length_le hle]
    · rfl
  rw [saveBackupTuple, h, table_cons]
  refine congrArg (fun backups => Except.ok (some (port.write (backupsToSexp backups)))) ?_
  rw [hstrip]
  rfl

/-- By induction on the calls, the last one first. -/
theorem saveBackupTuples_run (port : SexpPort BackupSymbol) (saves : List (String × IndexTuple)) :
    ∃ file, saveBackupTuples port saves = .ok file ∧
      recentBackups port file = .ok (table maxRecentBackupTuples saves.reverse) := by
  induction saves using List.reverseRecOn with
  | nil => exact ⟨none, rfl, rfl⟩
  | append_singleton saves save ih =>
    obtain ⟨file, hrun, hfile⟩ := ih
    obtain ⟨file', hsave, hfile'⟩ := saveBackupTuple_table hfile save.1 save.2
    refine ⟨file', ?_, ?_⟩
    · rw [saveBackupTuples] at hrun ⊢
      rw [List.foldlM_append, hrun]
      change (saveBackupTuple port save.1 save.2 file >>= pure) = _
      rw [hsave]
      rfl
    · rw [List.reverse_append]
      exact hfile'

/-- After any calls of `save-backup-tuple`, the file lists the directories, the one that was backed up last
first, each with the last fifty different tuples of its own, the most recent first. -/
theorem saveBackupTuples_table (port : SexpPort BackupSymbol) (saves : List (String × IndexTuple)) :
    ∃ file, saveBackupTuples port saves = .ok file ∧
      recentBackups port file =
        .ok ((saves.reverse.map Prod.fst).eraseDups.map fun dir =>
          (dir, ((saves.reverse.filter fun save => save.1 = dir).map Prod.snd).eraseDups.take 50)) :=
  saveBackupTuples_run port saves

/-- The tuple that is taken without one on the command line is the one of the most recent backup that is
available if and only if it is still listed, and nothing is available of the backups listed for directories
that were backed up after its own. -/
theorem mostRecentBackupTuple_newest_iff (port : SexpPort BackupSymbol)
    (saves : List (String × IndexTuple)) (exists? : String → Bool) {dir : String} {tuple : IndexTuple}
    (hnewest : (saves.reverse.find? fun save => exists? save.2.index) = some (dir, tuple)) :
    ∃ file, saveBackupTuples port saves = .ok file ∧
      (mostRecentBackupTuple port exists? file = .ok (some (dir, tuple)) ↔
        tuple ∈ recent maxRecentBackupTuples (values dir saves.reverse) ∧
          ∀ later ∈ (saves.reverse.map Prod.fst).takeWhile (fun other => !other == dir),
            ∀ listed ∈ recent maxRecentBackupTuples (values later saves.reverse),
              exists? listed.index = false) := by
  obtain ⟨file, hrun, hfile⟩ := saveBackupTuples_run port saves
  refine ⟨file, hrun, ?_⟩
  have hdir : dir ∈ saves.reverse.map Prod.fst :=
    List.mem_map.mpr ⟨(dir, tuple), List.mem_of_find?_eq_some hnewest, rfl⟩
  have hfirst : (values dir saves.reverse).find? (fun tuple => exists? tuple.index) = some tuple :=
    find?_values hnewest
  have hsearch : mostRecentBackupTuple port exists? file = .ok
      ((table maxRecentBackupTuples saves.reverse).findSome? fun entry =>
        (entry.2.find? fun tuple => exists? tuple.index).map fun tuple => (entry.1, tuple)) := by
    rw [mostRecentBackupTuple, hfile]
    rfl
  rw [hsearch, Except.ok.injEq, findSome?_table hdir]
  refine and_congr_left fun _ => ⟨fun hfound => ?_, fun hlisted => ?_⟩
  · exact List.mem_of_find?_eq_some hfound
  · exact find?_recent hfirst hlisted

/-- Two backups of `/home` with one of `/etc` in between.  The last one of `/home` is gone, so that its first
one is taken before the one of `/etc`. -/
def sampleSaves : List (String × IndexTuple) :=
  [("/home", ⟨[], "first", []⟩), ("/etc", ⟨[], "second", []⟩), ("/home", ⟨[], "third", []⟩)]

theorem sampleSaves_newest :
    ∃ file, saveBackupTuples (plainPort _) sampleSaves = .ok file ∧
      mostRecentBackupTuple (plainPort _) (fun index => index ≠ "third") file ≠
        .ok (some ("/etc", ⟨[], "second", []⟩)) := by
  have hnewest : (sampleSaves.reverse.find? fun save => decide (save.2.index ≠ "third")) =
      some ("/etc", ⟨[], "second", []⟩) := by decide
  obtain ⟨file, hrun, hiff⟩ := mostRecentBackupTuple_newest_iff (plainPort _) sampleSaves
    (fun index => index ≠ "third") hnewest
  refine ⟨file, hrun, fun htaken => ?_⟩
  have hlater := (hiff.mp htaken).2 "/home" (by decide) ⟨[], "first", []⟩ (by decide)
  exact absurd hlater (by decide)

end Libchop
