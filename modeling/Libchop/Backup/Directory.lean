import Libchop.Backup.Pipeline
import Libchop.Framework.Sexp

/-!
# Directory meta-data

The records that describe a stored directory, and the s-expressions they are serialized as.
-/

namespace Libchop

open Sexp

inductive FileKind where
  | regular
  | directory
  | symlink
  | blockSpecial
  | charSpecial
  | fifo
  | socket
  | unknown
deriving DecidableEq, Repr

inductive BackupSymbol where
  | kind (k : FileKind)
  | version
  | previous
  | entries
deriving DecidableEq, Repr

def symbolName : BackupSymbol → List Char
  | .kind .regular => "regular".toList
  | .kind .directory => "directory".toList
  | .kind .symlink => "symlink".toList
  | .kind .blockSpecial => "block-special".toList
  | .kind .charSpecial => "char-special".toList
  | .kind .fifo => "fifo".toList
  | .kind .socket => "socket".toList
  | .kind .unknown => "unknown".toList
  | .version => "version".toList
  | .previous => "previous".toList
  | .entries => "entries".toList

def backupSymbols : List BackupSymbol :=
  [.kind .regular, .kind .directory, .kind .symlink, .kind .blockSpecial, .kind .charSpecial,
    .kind .fifo, .kind .socket, .kind .unknown, .version, .previous, .entries]

theorem mem_backupSymbols (s : BackupSymbol) : s ∈ backupSymbols := by
  cases s with
  | kind k => cases k <;> decide
  | version => decide
  | previous => decide
  | entries => decide

instance : SymbolNames BackupSymbol where
  name := symbolName
  ofName name := backupSymbols.find? fun s => symbolName s = name
  ofName_name := by
    intro s
    have h : ∀ s ∈ backupSymbols,
        (backupSymbols.find? fun s' => symbolName s' = symbolName s) = some s := by decide
    exact h s (mem_backupSymbols s)
  head_isAlpha := by
    intro s
    have h : ∀ s ∈ backupSymbols, ((symbolName s).head?.map Char.isAlpha) = some true := by decide
    have hs := h s (mem_backupSymbols s)
    cases hname : symbolName s with
    | nil =>
      rw [hname] at hs
      cases hs
    | cons c cs =>
      rw [hname] at hs
      exact ⟨c, cs, rfl, Option.some.inj hs⟩
  symbolChars := by
    intro s
    have h : ∀ s ∈ backupSymbols,
        ((symbolName s).all fun c => c.isAlphanum || c = '-') = true := by decide
    exact List.all_eq_true.mp (h s (mem_backupSymbols s))

abbrev BackupSexp := Sexp BackupSymbol

/-- `<directory-entry>`; an entry without a tuple is an empty file. -/
structure DirectoryEntry where
  name : String
  kind : FileKind
  mtime : Int
  size : Nat
  perms : Nat
  tuple : Option IndexTuple
deriving DecidableEq, Repr

/-- `<directory>`, with the tuples of its previous versions, most recent first. -/
structure Directory where
  previous : List IndexTuple
  entries : List DirectoryEntry
deriving DecidableEq, Repr

def symbolSexp (s : BackupSymbol) : BackupSexp := .atom (.symbol s)

def stringSexp (s : String) : BackupSexp := .atom (.string s)

def tupleToSexp (tuple : IndexTuple) : BackupSexp :=
  ofList [ofList (tuple.streamFilters.map stringSexp), stringSexp tuple.index,
    ofList (tuple.storeFilters.map stringSexp)]

def optionTupleToSexp : Option IndexTuple → BackupSexp
  | some tuple => tupleToSexp tuple
  | none => .atom (.boolean false)

def entryToSexp (entry : DirectoryEntry) : BackupSexp :=
  ofList [stringSexp entry.name, symbolSexp (.kind entry.kind), .atom (.integer entry.mtime),
    .atom (.integer entry.size), .atom (.integer entry.perms), optionTupleToSexp entry.tuple]

def directoryToSexp (dir : Directory) : BackupSexp :=
  ofList [symbolSexp (.kind .directory),
    ofList [symbolSexp .version, .atom (.integer 1)],
    ofList [symbolSexp .previous, ofList (dir.previous.map tupleToSexp)],
    ofList [symbolSexp .entries, ofList (dir.entries.map entryToSexp)]]

def sexpToString : BackupSexp → Option String
  | .atom (.string s) => some s
  | _ => none

def sexpToNat : BackupSexp → Option Nat
  | .atom (.integer (.ofNat n)) => some n
  | _ => none

/-- A list all of whose items can be converted. -/
def sexpToList {α : Type} (convert : BackupSexp → Option α) (exp : BackupSexp) :
    Option (List α) := do
  (← toList? exp).mapM convert

def sexpToTuple (exp : BackupSexp) : Option IndexTuple :=
  match toList? exp with
  | some [streamFilters, index, storeFilters] => do
    return ⟨← sexpToList sexpToString streamFilters, ← sexpToString index,
      ← sexpToList sexpToString storeFilters⟩
  | _ => none

def sexpToOptionTuple : BackupSexp → Option (Option IndexTuple)
  | .atom (.boolean false) => some none
  | exp => (sexpToTuple exp).map some

/-- `sexp->entry`, for fields of the right types. -/
def sexpToEntry (exp : BackupSexp) : Option DirectoryEntry :=
  match toList? exp with
  | some [name, .atom (.symbol (.kind kind)), .atom (.integer mtime), size, perms, tuple] => do
    return ⟨← sexpToString name, kind, mtime, ← sexpToNat size, ← sexpToNat perms,
      ← sexpToOptionTuple tuple⟩
  | _ => none

def directoryFields (exp : BackupSexp) : Option (BackupSexp × BackupSexp) :=
  match toList? exp with
  | some [.pair (.atom (.symbol .previous)) (.pair previous .nil),
      .pair (.atom (.symbol .entries)) (.pair entries .nil)] => some (previous, entries)
  | _ => none

/-- `sexp->directory`.  In version 0 there was at most one previous version. -/
def sexpToDirectory : BackupSexp → Except SchemeError Directory
  | .pair (.atom (.symbol (.kind .directory))) (.pair (.pair (.atom (.symbol .version)) v) fields) =>
    match toList? v, directoryFields fields with
    | some [.atom (.integer 0)], some (previous, entries) =>
      match sexpToOptionTuple previous, sexpToList sexpToEntry entries with
      | some previous, some entries => .ok ⟨previous.toList, entries⟩
      | _, _ => .error .matchError
    | some (.atom (.integer 1) :: _), some (previous, entries) =>
      match sexpToList sexpToTuple previous, sexpToList sexpToEntry entries with
      | some previous, some entries => .ok ⟨previous, entries⟩
      | _, _ => .error .matchError
    | some _, _ => .error .directoryVersionError
    | none, _ => .error .matchError
  | _ => .error .matchError

/-- `write-directory`, through a port. -/
def writeDirectory (port : SexpPort BackupSymbol) (dir : Directory) : Bytes :=
  port.write (directoryToSexp dir)

def readDirectory (port : SexpPort BackupSymbol) (bytes : Bytes) : Except SchemeError Directory :=
  match port.read bytes with
  | some exp => sexpToDirectory exp
  | none => .error .matchError

theorem sexpToList_ofList {α : Type} (convert : BackupSexp → Option α)
    (write : α → BackupSexp) (hconvert : ∀ x, convert (write x) = some x) (xs : List α) :
    sexpToList convert (ofList (xs.map write)) = some xs := by
  rw [sexpToList, toList?_ofList]
  induction xs with
  | nil => rfl
  | cons x xs ih =>
    simp only [Option.bind_eq_bind, Option.bind_some] at ih ⊢
    rw [List.map_cons, List.mapM_cons, hconvert, ih]
    rfl

theorem sexpToTuple_tupleToSexp (tuple : IndexTuple) :
    sexpToTuple (tupleToSexp tuple) = some tuple := by
  have hstrings := sexpToList_ofList sexpToString stringSexp fun _ => rfl
  rw [sexpToTuple, tupleToSexp, toList?_ofList]
  simp only [hstrings]
  rfl

theorem sexpToOptionTuple_optionTupleToSexp (tuple : Option IndexTuple) :
    sexpToOptionTuple (optionTupleToSexp tuple) = some tuple := by
  cases tuple with
  | none => rfl
  | some tuple =>
    have htuple := sexpToTuple_tupleToSexp tuple
    rw [tupleToSexp] at htuple
    simp only [optionTupleToSexp, tupleToSexp]
    unfold sexpToOptionTuple
    simp only [ofList] at htuple ⊢
    rw [htuple]
    rfl

theorem sexpToEntry_entryToSexp (entry : DirectoryEntry) :
    sexpToEntry (entryToSexp entry) = some entry := by
  rw [sexpToEntry, entryToSexp, toList?_ofList]
  simp only [symbolSexp, sexpToOptionTuple_optionTupleToSexp]
  rfl

/-- Directories are read back as they were written. -/
theorem sexpToDirectory_directoryToSexp (dir : Directory) :
    sexpToDirectory (directoryToSexp dir) = .ok dir := by
  have hprevious := sexpToList_ofList sexpToTuple tupleToSexp sexpToTuple_tupleToSexp dir.previous
  have hentries := sexpToList_ofList sexpToEntry entryToSexp sexpToEntry_entryToSexp dir.entries
  simp [directoryToSexp, ofList, symbolSexp, sexpToDirectory, directoryFields, toList?, hprevious,
    hentries]

theorem readDirectory_writeDirectory (port : SexpPort BackupSymbol) (dir : Directory) :
    readDirectory port (writeDirectory port dir) = .ok dir := by
  rw [readDirectory, writeDirectory, port.read_write]
  exact sexpToDirectory_directoryToSexp dir

end Libchop
