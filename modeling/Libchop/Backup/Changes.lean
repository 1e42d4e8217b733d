import Libchop.Backup.Directory
import Mathlib.Data.List.Nodup

/-!
# Changes between two versions of a directory

`directory-changes` compares the entries of a directory with those of an older version.  Each new entry
is compared with the old entry of its name or, if there is none, with an old entry of the same contents.
-/

namespace Libchop

/-- `make-lookup-proc`: entries are put into a `vhash`, where later ones hide earlier ones. -/
def makeLookupProc {α κ : Type} [DecidableEq κ] (key : α → κ) (entries : List α) (k : κ) : Option α :=
  let table := entries.foldl (fun r e => (key e, e) :: r) []
  (table.find? fun association => association.1 = k).map Prod.snd

inductive ChangeTag where
  | new
  | renamed
  | modified
  | touched
  | permissions
deriving DecidableEq, Repr

/-- An entry of the old directory as an object, which its position tells from equal ones. -/
abbrev EntryObject := DirectoryEntry × Nat

structure EntryChange where
  new : DirectoryEntry
  old : DirectoryEntry
  props : List ChangeTag
deriving DecidableEq, Repr

structure DirectoryChanges where
  added : List DirectoryEntry
  changed : List EntryChange
  deleted : List DirectoryEntry
deriving DecidableEq, Repr

def entryModified (old new : DirectoryEntry) : Bool :=
  if new.kind ≠ old.kind then true else if new.tuple ≠ old.tuple then true else false

def entryTouched (old new : DirectoryEntry) : Bool :=
  if new.kind ≠ old.kind then false
  else if new.kind = old.kind ∧ new.mtime ≠ old.mtime ∧ new.tuple = old.tuple then true
  else false

def permissionsChanged (old new : DirectoryEntry) : Bool :=
  if new.perms ≠ old.perms then true else false

section Comparison

variable (newDir oldDir : Directory)

def sameNamedOldEntry (e : DirectoryEntry) : Option EntryObject :=
  makeLookupProc (fun old : EntryObject => old.1.name) oldDir.entries.zipIdx e.name

def sameTupleOldEntry (e : DirectoryEntry) : Option EntryObject :=
  makeLookupProc (fun old : EntryObject => old.1.tuple) oldDir.entries.zipIdx e.tuple

def sameNamedNewEntry (e : DirectoryEntry) : Option DirectoryEntry :=
  makeLookupProc DirectoryEntry.name newDir.entries e.name

def entryRenamed (old new : DirectoryEntry) : Bool :=
  old.name ≠ new.name && (sameNamedNewEntry newDir old).isNone

def tagPredicates : List (ChangeTag × (DirectoryEntry → DirectoryEntry → Bool)) :=
  [(.renamed, entryRenamed newDir), (.modified, entryModified), (.touched, entryTouched),
    (.permissions, permissionsChanged)]

def entryProperties (old : Option DirectoryEntry) (new : DirectoryEntry) : List ChangeTag :=
  match old with
  | some old =>
    (tagPredicates newDir).foldl
      (fun r tagPredicate => if tagPredicate.2 old new then tagPredicate.1 :: r else r) []
  | none => [.new]

def comparedOldEntry (new : DirectoryEntry) : Option EntryObject :=
  (sameNamedOldEntry oldDir new).or
    (if new.tuple.isSome then sameTupleOldEntry oldDir new else none)

/-- What is done with each new entry, where the lists of added and changed entries are these. -/
def collectChange (r : List DirectoryEntry × List (DirectoryEntry × EntryObject × List ChangeTag))
    (new : DirectoryEntry) :
    List DirectoryEntry × List (DirectoryEntry × EntryObject × List ChangeTag) :=
  match comparedOldEntry oldDir new with
  | some old =>
    let props := entryProperties newDir (some old.1) new
    if props = [] then r else (r.1, (new, old, props) :: r.2)
  | none => (new :: r.1, r.2)

def newAndChanged : List DirectoryEntry × List (DirectoryEntry × EntryObject × List ChangeTag) :=
  newDir.entries.foldl (collectChange newDir oldDir) ([], [])

/-- The entry is as it was, or it was compared with a new one that differs. -/
def notDeleted (old : EntryObject) : Bool :=
  sameNamedNewEntry newDir old.1 = some old.1 ||
    (newAndChanged newDir oldDir).2.any fun change => change.2.1.2 = old.2

def directoryChanges : DirectoryChanges where
  added := (newAndChanged newDir oldDir).1
  changed := (newAndChanged newDir oldDir).2.map fun (new, old, props) => ⟨new, old.1, props⟩
  deleted := (oldDir.entries.zipIdx.filter fun old => !notDeleted newDir oldDir old).map Prod.fst

end Comparison

theorem makeLookupProc_eq {α κ : Type} [DecidableEq κ] (key : α → κ) (entries : List α) (k : κ) :
    makeLookupProc key entries k = entries.reverse.find? fun e => key e = k := by
  have htable : ∀ r : List (κ × α), entries.foldl (fun r e => (key e, e) :: r) r =
      entries.reverse.map (fun e => (key e, e)) ++ r := by
    induction entries with
    | nil => exact fun r => rfl
    | cons e entries ih => simp [ih]
  rw [makeLookupProc, htable, List.append_nil, List.find?_map, Option.map_map]
  exact Option.map_id'

theorem makeLookupProc_eq_some {α κ : Type} [DecidableEq κ] {key : α → κ} {entries : List α} {k : κ}
    {e : α} (h : makeLookupProc key entries k = some e) : e ∈ entries ∧ key e = k := by
  rw [makeLookupProc_eq] at h
  exact ⟨List.mem_reverse.mp (List.mem_of_find?_eq_some h), by simpa using List.find?_some h⟩

theorem makeLookupProc_eq_none {α κ : Type} [DecidableEq κ] {key : α → κ} {entries : List α} {k : κ} :
    makeLookupProc key entries k = none ↔ k ∉ entries.map key := by
  simp [makeLookupProc_eq]

/-- Among entries with distinct keys, each is found by its key. -/
theorem makeLookupProc_of_nodup {α κ : Type} [DecidableEq κ] {key : α → κ} {entries : List α}
    (hnodup : (entries.map key).Nodup) {e : α} (he : e ∈ entries) :
    makeLookupProc key entries (key e) = some e := by
  cases h : makeLookupProc key entries (key e) with
  | none => exact (makeLookupProc_eq_none.mp h (List.mem_map_of_mem he)).elim
  | some e' =>
    obtain ⟨he', hkey⟩ := makeLookupProc_eq_some h
    rw [List.inj_on_of_nodup_map hnodup he' he hkey]

/-- The search among objects finds what a search among entries finds. -/
theorem map_makeLookupProc_zipIdx {κ : Type} [DecidableEq κ] (key : DirectoryEntry → κ)
    (entries : List DirectoryEntry) (k : κ) :
    (makeLookupProc (fun old : EntryObject => key old.1) entries.zipIdx k).map Prod.fst =
      makeLookupProc key entries k := by
  rw [makeLookupProc_eq, makeLookupProc_eq]
  conv_rhs => rw [← List.zipIdx_map_fst 0 entries, ← List.map_reverse, List.find?_map]
  rfl

def reportedChange (newDir oldDir : Directory) (new : DirectoryEntry) :
    Option (DirectoryEntry × EntryObject × List ChangeTag) :=
  (comparedOldEntry oldDir new).bind fun old =>
    if entryProperties newDir (some old.1) new = [] then none
    else some (new, old, entryProperties newDir (some old.1) new)

def Directory.names (dir : Directory) : List String := dir.entries.map DirectoryEntry.name

section Lists

variable {newDir oldDir : Directory} {e : DirectoryEntry}

theorem foldl_collectChange (entries added : List DirectoryEntry)
    (changed : List (DirectoryEntry × EntryObject × List ChangeTag)) :
    entries.foldl (collectChange newDir oldDir) (added, changed) =
      ((entries.filter fun e => (comparedOldEntry oldDir e).isNone).reverse ++ added,
        (entries.filterMap (reportedChange newDir oldDir)).reverse ++ changed) := by
  induction entries generalizing added changed with
  | nil => rfl
  | cons e entries ih =>
    rw [List.foldl_cons, collectChange, List.filterMap_cons, List.filter_cons, reportedChange]
    cases comparedOldEntry oldDir e with
    | none => simp [ih]
    | some old =>
      by_cases hprops : entryProperties newDir (some old.1) e = []
      · simp [hprops, ih]
      · simp [hprops, ih]

theorem newAndChanged_eq :
    newAndChanged newDir oldDir =
      ((newDir.entries.filter fun e => (comparedOldEntry oldDir e).isNone).reverse,
        (newDir.entries.filterMap (reportedChange newDir oldDir)).reverse) := by
  simp [newAndChanged, foldl_collectChange]

theorem mem_added :
    e ∈ (directoryChanges newDir oldDir).added ↔
      e ∈ newDir.entries ∧ comparedOldEntry oldDir e = none := by
  simp [directoryChanges, newAndChanged_eq]

theorem mem_changed {change : EntryChange} :
    change ∈ (directoryChanges newDir oldDir).changed ↔
      change.new ∈ newDir.entries ∧
        (comparedOldEntry oldDir change.new).map Prod.fst = some change.old ∧
        change.props = entryProperties newDir (some change.old) change.new ∧ change.props ≠ [] := by
  obtain ⟨new, old, props⟩ := change
  simp only [directoryChanges, newAndChanged_eq, List.map_reverse, List.mem_reverse, List.mem_map,
    List.mem_filterMap, reportedChange, Option.bind_eq_some_iff, Option.map_eq_some_iff]
  constructor
  · rintro ⟨change, ⟨e, he, object, hobject, hchange⟩, hfields⟩
    split at hchange
    · cases hchange
    · next hprops =>
      cases hchange
      cases hfields
      exact ⟨he, ⟨object, hobject, rfl⟩, rfl, hprops⟩
  · rintro ⟨hnew, ⟨object, hobject, rfl⟩, rfl, hprops⟩
    exact ⟨_, ⟨new, hnew, object, hobject, if_neg hprops⟩, rfl⟩

/-- Each new entry is in the list of changed entries once or not at all. -/
theorem map_new_changed :
    (directoryChanges newDir oldDir).changed.map EntryChange.new =
      (newDir.entries.filter fun e => (reportedChange newDir oldDir e).isSome).reverse := by
  simp only [directoryChanges, newAndChanged_eq, List.map_reverse, List.map_map]
  congr 1
  induction newDir.entries with
  | nil => rfl
  | cons e entries ih =>
    cases h : reportedChange newDir oldDir e with
    | none => simp [h, ih]
    | some change =>
      have hnew : change.1 = e := by
        rw [reportedChange, Option.bind_eq_some_iff] at h
        obtain ⟨old, -, h⟩ := h
        split at h
        · cases h
        · cases h
          rfl
      simp [h, ih, hnew]

theorem count_filter_of_nodup {entries : List DirectoryEntry} (hnodup : entries.Nodup)
    (he : e ∈ entries) (p : DirectoryEntry → Bool) :
    (entries.filter p).count e = if p e then 1 else 0 := by
  split
  · next hp => exact List.count_eq_one_of_mem (hnodup.filter p) (List.mem_filter.mpr ⟨he, hp⟩)
  · next hp => exact List.count_eq_zero.mpr fun hmem => hp (List.mem_filter.mp hmem).2

/-- How often a new entry is reported. -/
theorem count_reported (hnodup : newDir.names.Nodup) (he : e ∈ newDir.entries) :
    ((directoryChanges newDir oldDir).added ++
        (directoryChanges newDir oldDir).changed.map EntryChange.new).count e =
      (if comparedOldEntry oldDir e = none then 1 else 0) +
        if (reportedChange newDir oldDir e).isSome then 1 else 0 := by
  rw [List.count_append, map_new_changed, directoryChanges, newAndChanged_eq, List.count_reverse,
    List.count_reverse, count_filter_of_nodup hnodup.of_map he,
    count_filter_of_nodup hnodup.of_map he]
  simp only [Option.isNone_iff_eq_none]

end Lists

section Properties

variable {newDir : Directory} {old new : DirectoryEntry}

theorem entryRenamed_iff :
    entryRenamed newDir old new = true ↔ old.name ≠ new.name ∧ old.name ∉ newDir.names := by
  simp [entryRenamed, sameNamedNewEntry, Option.isNone_iff_eq_none, makeLookupProc_eq_none,
    Directory.names]

theorem entryProperties_eq :
    entryProperties newDir (some old) new =
      (if permissionsChanged old new then [.permissions] else []) ++
        ((if entryTouched old new then [.touched] else []) ++
          ((if entryModified old new then [.modified] else []) ++
            if entryRenamed newDir old new then [.renamed] else [])) := by
  simp only [entryProperties, tagPredicates, List.foldl_cons, List.foldl_nil]
  split <;> split <;> split <;> split <;> rfl

theorem renamed_mem_iff :
    .renamed ∈ entryProperties newDir (some old) new ↔
      old.name ≠ new.name ∧ old.name ∉ newDir.names := by
  rw [← entryRenamed_iff, entryProperties_eq]
  simp

/-- Sizes are not compared. -/
theorem entryProperties_eq_nil_iff :
    entryProperties newDir (some old) new = [] ↔
      ¬ (old.name ≠ new.name ∧ old.name ∉ newDir.names) ∧ new.kind = old.kind ∧
        new.mtime = old.mtime ∧ new.perms = old.perms ∧ new.tuple = old.tuple := by
  rw [← entryRenamed_iff, entryProperties_eq]
  simp only [List.append_eq_nil_iff, ite_eq_right_iff, List.cons_ne_nil, imp_false]
  grind [permissionsChanged, entryTouched, entryModified]

end Properties

def lastSameTuple (oldDir : Directory) (e : DirectoryEntry) : Option DirectoryEntry :=
  if e.tuple.isSome then oldDir.entries.reverse.find? fun old => old.tuple = e.tuple else none

section Compared

variable {oldDir : Directory} {e old : DirectoryEntry}

/-- An entry is compared with the old one of its name. -/
theorem comparedOldEntry_sameName (hnodup : oldDir.names.Nodup) (hold : old ∈ oldDir.entries)
    (hname : old.name = e.name) : (comparedOldEntry oldDir e).map Prod.fst = some old := by
  have hfound := makeLookupProc_of_nodup hnodup hold
  rw [hname, ← map_makeLookupProc_zipIdx] at hfound
  obtain ⟨object, hobject, hentry⟩ := Option.map_eq_some_iff.mp hfound
  rw [comparedOldEntry, sameNamedOldEntry, hobject, Option.some_or, Option.map_some, hentry]

/-- An entry with a new name is compared with the last old one of its contents. -/
theorem comparedOldEntry_newName (hname : e.name ∉ oldDir.names) :
    (comparedOldEntry oldDir e).map Prod.fst = lastSameTuple oldDir e := by
  have hnone : sameNamedOldEntry oldDir e = none := by
    rw [Directory.names, ← makeLookupProc_eq_none, ← map_makeLookupProc_zipIdx] at hname
    exact Option.map_eq_none_iff.mp hname
  rw [comparedOldEntry, hnone, Option.none_or, lastSameTuple]
  split
  · rw [← makeLookupProc_eq, ← map_makeLookupProc_zipIdx]
    rfl
  · rfl

end Compared

structure ReportsAdditions (newDir oldDir : Directory) (changes : DirectoryChanges) : Prop where
  /-- An entry with a new name is reported once, as new or as an old one that has lost its name. -/
  newName : ∀ e ∈ newDir.entries, e.name ∉ oldDir.names →
    (changes.added ++ changes.changed.map EntryChange.new).count e = 1 ∧
      ∀ change ∈ changes.changed, change.new = e →
        .renamed ∈ change.props ∧ change.old ∈ oldDir.entries ∧ change.old.name ∉ newDir.names
  /-- An entry that keeps its name is reported if it differs. -/
  sameName : ∀ e ∈ newDir.entries, ∀ old ∈ oldDir.entries, old.name = e.name →
    e ∉ changes.added ∧
      ((∃ change ∈ changes.changed, change.new = e) ↔
        e.kind ≠ old.kind ∨ e.mtime ≠ old.mtime ∨ e.perms ≠ old.perms ∨ e.tuple ≠ old.tuple) ∧
      ∀ change ∈ changes.changed, change.new = e → change.old = old

/-- No entry with a new name has the contents of an old one that is still there.  Of several old
entries with these contents, the last one counts. -/
def NoCopies (newDir oldDir : Directory) : Prop :=
  ∀ e ∈ newDir.entries, e.name ∉ oldDir.names →
    ∀ old ∈ lastSameTuple oldDir e, old.name ∉ newDir.names

instance (newDir oldDir : Directory) : Decidable (NoCopies newDir oldDir) := by
  unfold NoCopies
  infer_instance

section Additions

variable {newDir oldDir : Directory} {e old : DirectoryEntry}

theorem lastSameTuple_mem (h : lastSameTuple oldDir e = some old) :
    old ∈ oldDir.entries ∧ old.tuple = e.tuple := by
  rw [lastSameTuple] at h
  split at h
  · exact ⟨List.mem_reverse.mp (List.mem_of_find?_eq_some h), by simpa using List.find?_some h⟩
  · cases h

/-- A new entry that is compared with an old one is reported if there is a difference. -/
theorem reported_iff (hold : (comparedOldEntry oldDir e).map Prod.fst = some old) :
    (reportedChange newDir oldDir e).isSome ↔ entryProperties newDir (some old) e ≠ [] := by
  obtain ⟨object, hobject, rfl⟩ := Option.map_eq_some_iff.mp hold
  rw [reportedChange, hobject, Option.bind_some]
  split
  · next hprops => simp [hprops]
  · next hprops => simp [hprops]

/-- An entry with a new name is rightly reported just when it is not a copy. -/
theorem newName_iff (hnodup : newDir.names.Nodup) (he : e ∈ newDir.entries)
    (hname : e.name ∉ oldDir.names) :
    (((directoryChanges newDir oldDir).added ++
        (directoryChanges newDir oldDir).changed.map EntryChange.new).count e = 1 ∧
      ∀ change ∈ (directoryChanges newDir oldDir).changed, change.new = e →
        .renamed ∈ change.props ∧ change.old ∈ oldDir.entries ∧ change.old.name ∉ newDir.names) ↔
    ∀ old ∈ lastSameTuple oldDir e, old.name ∉ newDir.names := by
  rw [count_reported hnodup he]
  have hcompared := comparedOldEntry_newName hname
  cases hlast : lastSameTuple oldDir e with
  | none =>
    rw [hlast, Option.map_eq_none_iff] at hcompared
    simp only [hcompared, reportedChange]
    refine iff_of_true ⟨rfl, ?_⟩ nofun
    intro change hchange hnew
    have hold := (mem_changed.mp hchange).2.1
    rw [hnew, hcompared] at hold
    cases hold
  | some old =>
    rw [hlast] at hcompared
    obtain ⟨hold, -⟩ := lastSameTuple_mem hlast
    have hne : old.name ≠ e.name := fun heq => hname (heq ▸ List.mem_map_of_mem hold)
    have hsome : comparedOldEntry oldDir e ≠ none := by
      intro hnone
      rw [hnone] at hcompared
      cases hcompared
    have hchanges : ∀ change ∈ (directoryChanges newDir oldDir).changed, change.new = e →
        change.old = old ∧ change.props = entryProperties newDir (some old) e := by
      intro change hchange hnew
      obtain ⟨-, hchangeOld, hprops, -⟩ := mem_changed.mp hchange
      rw [hnew, hcompared] at hchangeOld
      cases hchangeOld
      rw [hnew] at hprops
      exact ⟨rfl, hprops⟩
    simp only [if_neg hsome, reported_iff hcompared, Option.mem_def, Option.some.injEq, forall_eq',
      Nat.zero_add]
    constructor
    · rintro ⟨hcount, hright⟩
      have hprops : entryProperties newDir (some old) e ≠ [] := by
        intro hnil
        simp [hnil] at hcount
      have hmem : ⟨e, old, entryProperties newDir (some old) e⟩ ∈
          (directoryChanges newDir oldDir).changed := mem_changed.mpr ⟨he, hcompared, rfl, hprops⟩
      exact (hright _ hmem rfl).2.2
    · intro hgone
      have hrenamed := renamed_mem_iff.mpr ⟨hne, hgone⟩
      refine ⟨if_pos (List.ne_nil_of_mem hrenamed), ?_⟩
      intro change hchange hnew
      obtain ⟨hchangeOld, hprops⟩ := hchanges change hchange hnew
      rw [hchangeOld, hprops]
      exact ⟨hrenamed, hold, hgone⟩

/-- What is said of an entry that keeps its name is always right. -/
theorem sameName_reported (hnodup : oldDir.names.Nodup) (he : e ∈ newDir.entries)
    (hold : old ∈ oldDir.entries) (hname : old.name = e.name) :
    e ∉ (directoryChanges newDir oldDir).added ∧
      ((∃ change ∈ (directoryChanges newDir oldDir).changed, change.new = e) ↔
        e.kind ≠ old.kind ∨ e.mtime ≠ old.mtime ∨ e.perms ≠ old.perms ∨ e.tuple ≠ old.tuple) ∧
      ∀ change ∈ (directoryChanges newDir oldDir).changed, change.new = e → change.old = old := by
  have hcompared := comparedOldEntry_sameName hnodup hold hname
  have hchanges : ∀ change ∈ (directoryChanges newDir oldDir).changed, change.new = e →
      change.old = old := by
    intro change hchange hnew
    have hchangeOld := (mem_changed.mp hchange).2.1
    rw [hnew, hcompared] at hchangeOld
    exact (Option.some.inj hchangeOld).symm
  have hdiffers : entryProperties newDir (some old) e ≠ [] ↔
      e.kind ≠ old.kind ∨ e.mtime ≠ old.mtime ∨ e.perms ≠ old.perms ∨ e.tuple ≠ old.tuple := by
    rw [Ne, entryProperties_eq_nil_iff]
    grind
  refine ⟨?_, ?_, hchanges⟩
  · intro hadded
    have hnone := (mem_added.mp hadded).2
    rw [hnone] at hcompared
    cases hcompared
  · rw [← hdiffers]
    constructor
    · rintro ⟨change, hchange, rfl⟩
      obtain ⟨-, -, hprops, hne⟩ := mem_changed.mp hchange
      rw [hchanges change hchange rfl] at hprops
      rwa [← hprops]
    · intro hprops
      exact ⟨⟨e, old, entryProperties newDir (some old) e⟩,
        mem_changed.mpr ⟨he, hcompared, rfl, hprops⟩, rfl⟩

/-- `directory-changes` reports what was added just when nothing was copied. -/
theorem directoryChanges_reportsAdditions_iff (hnew : newDir.names.Nodup)
    (hold : oldDir.names.Nodup) :
    ReportsAdditions newDir oldDir (directoryChanges newDir oldDir) ↔ NoCopies newDir oldDir := by
  constructor
  · intro h e he hname
    exact (newName_iff hnew he hname).mp (h.newName e he hname)
  · intro h
    refine ⟨?_, ?_⟩
    · intro e he hname
      exact (newName_iff hnew he hname).mpr (h e he hname)
    · intro e he old hmem hname
      exact sameName_reported hold he hmem hname

end Additions

def sampleEntry (name : String) (kind : FileKind) (size : Nat) : DirectoryEntry :=
  ⟨name, kind, 123, size, 420, some ⟨[], "some-tuple", []⟩⟩

def equalFiles (names : List String) : Directory :=
  ⟨[], names.map fun name => sampleEntry name .regular 1⟩

theorem directoryChanges_reportsAdditions_renamed :
    ReportsAdditions (equalFiles ["z"]) (equalFiles ["a"])
      (directoryChanges (equalFiles ["z"]) (equalFiles ["a"])) :=
  (directoryChanges_reportsAdditions_iff (by decide) (by decide)).mpr (by decide)

/-- A copy with the same time and permissions is not reported at all. -/
theorem directoryChanges_misses_copy :
    ¬ ReportsAdditions (equalFiles ["a", "b"]) (equalFiles ["a"])
      (directoryChanges (equalFiles ["a", "b"]) (equalFiles ["a"])) := by
  intro h
  have hcount := (h.newName (sampleEntry "b" .regular 1) (by decide) (by decide)).1
  revert hcount
  decide

def ReportsDeletions (newDir oldDir : Directory) (changes : DirectoryChanges) : Prop :=
  ∀ old ∈ oldDir.entries, old ∈ changes.deleted ↔
    old.name ∉ newDir.names ∧
      ¬ ∃ change ∈ changes.changed, change.old = old ∧ .renamed ∈ change.props

/-- The entry is still there and differs in nothing but its size. -/
def OnlySizeDiffers (newDir : Directory) (old : DirectoryEntry) : Prop :=
  ∃ e ∈ newDir.entries, e.name = old.name ∧ e.kind = old.kind ∧ e.mtime = old.mtime ∧
    e.perms = old.perms ∧ e.tuple = old.tuple ∧ e.size ≠ old.size

/-- An entry with a new name is compared with this one and differs from it in more than the name. -/
def DiffersFromCopy (newDir oldDir : Directory) (old : DirectoryEntry) : Prop :=
  ∃ e ∈ newDir.entries, e.name ∉ oldDir.names ∧ lastSameTuple oldDir e = some old ∧
    (e.kind ≠ old.kind ∨ e.mtime ≠ old.mtime ∨ e.perms ≠ old.perms)

instance (newDir : Directory) (old : DirectoryEntry) : Decidable (OnlySizeDiffers newDir old) := by
  unfold OnlySizeDiffers
  infer_instance

instance (newDir oldDir : Directory) (old : DirectoryEntry) :
    Decidable (DiffersFromCopy newDir oldDir old) := by
  unfold DiffersFromCopy
  infer_instance

section Deletions

variable {newDir oldDir : Directory} {e old : DirectoryEntry}

theorem comparedOldEntry_mem {object : EntryObject} (h : comparedOldEntry oldDir e = some object) :
    object ∈ oldDir.entries.zipIdx := by
  rw [comparedOldEntry, Option.or_eq_some_iff] at h
  rcases h with h | ⟨-, h⟩
  · exact (makeLookupProc_eq_some h).1
  · split at h
    · exact (makeLookupProc_eq_some h).1
    · cases h

/-- Objects are told apart by their entries, as names are distinct. -/
theorem object_eq_iff (hnodup : oldDir.names.Nodup) {first second : EntryObject}
    (hfirst : first ∈ oldDir.entries.zipIdx) (hsecond : second ∈ oldDir.entries.zipIdx) :
    first.2 = second.2 ↔ first.1 = second.1 := by
  obtain ⟨entry, i⟩ := first
  obtain ⟨entry', j⟩ := second
  rw [List.mk_mem_zipIdx_iff_getElem?] at hfirst hsecond
  constructor
  · rintro rfl
    exact Option.some.inj (hfirst.symm.trans hsecond)
  · rintro rfl
    have hi := (List.getElem?_eq_some_iff.mp hfirst).1
    exact (List.getElem?_inj hi hnodup.of_map).mp (hfirst.trans hsecond.symm)

/-- What makes an entry stay out of the list of deleted ones. -/
theorem notDeleted_iff (hnodup : oldDir.names.Nodup) {object : EntryObject}
    (hobject : object ∈ oldDir.entries.zipIdx) :
    notDeleted newDir oldDir object = true ↔
      sameNamedNewEntry newDir object.1 = some object.1 ∨
        ∃ change ∈ (directoryChanges newDir oldDir).changed, change.old = object.1 := by
  have hobjects : ∀ change ∈ (newAndChanged newDir oldDir).2,
      (change.2.1.2 = object.2 ↔ change.2.1.1 = object.1) := by
    intro change hchange
    rw [newAndChanged_eq, List.mem_reverse, List.mem_filterMap] at hchange
    obtain ⟨e, -, hchange⟩ := hchange
    obtain ⟨old, hold, hchange⟩ := Option.bind_eq_some_iff.mp hchange
    split at hchange
    · cases hchange
    · cases hchange
      exact object_eq_iff hnodup (comparedOldEntry_mem hold) hobject
  simp only [notDeleted, Bool.or_eq_true, decide_eq_true_eq, List.any_eq_true, directoryChanges,
    List.mem_map]
  refine or_congr_right ?_
  constructor
  · rintro ⟨change, hchange, hsame⟩
    exact ⟨_, ⟨change, hchange, rfl⟩, (hobjects change hchange).mp hsame⟩
  · rintro ⟨-, ⟨change, hchange, rfl⟩, hsame⟩
    exact ⟨change, hchange, (hobjects change hchange).mpr hsame⟩

theorem mem_deleted (hnodup : oldDir.names.Nodup) (hold : old ∈ oldDir.entries) :
    old ∈ (directoryChanges newDir oldDir).deleted ↔
      ¬ (sameNamedNewEntry newDir old = some old ∨
        ∃ change ∈ (directoryChanges newDir oldDir).changed, change.old = old) := by
  constructor
  · intro h
    obtain ⟨object, hobject, rfl⟩ := List.mem_map.mp h
    obtain ⟨hobject, hdeleted⟩ := List.mem_filter.mp hobject
    rw [← notDeleted_iff hnodup hobject]
    simpa using hdeleted
  · intro h
    obtain ⟨i, hi⟩ := List.mem_iff_getElem?.mp hold
    have hobject : (old, i) ∈ oldDir.entries.zipIdx := List.mk_mem_zipIdx_iff_getElem?.mpr hi
    have hdeleted := mt (notDeleted_iff hnodup hobject).mp h
    exact List.mem_map.mpr ⟨(old, i), List.mem_filter.mpr ⟨hobject, by simpa using hdeleted⟩, rfl⟩

/-- An entry whose name is gone is reported as deleted or as renamed. -/
theorem goneName_deleted_iff (hnodup : oldDir.names.Nodup) (hold : old ∈ oldDir.entries)
    (hgone : old.name ∉ newDir.names) :
    old ∈ (directoryChanges newDir oldDir).deleted ↔
      ¬ ∃ change ∈ (directoryChanges newDir oldDir).changed,
        change.old = old ∧ .renamed ∈ change.props := by
  have hnone : sameNamedNewEntry newDir old = none := makeLookupProc_eq_none.mpr hgone
  rw [mem_deleted hnodup hold, hnone]
  simp only [reduceCtorEq, false_or]
  refine not_congr (exists_congr fun change => and_congr_right fun hchange => ?_)
  refine (and_iff_left_of_imp ?_).symm
  rintro rfl
  obtain ⟨hnew, -, hprops, -⟩ := mem_changed.mp hchange
  rw [hprops, renamed_mem_iff]
  exact ⟨fun heq => hgone (heq ▸ List.mem_map_of_mem hnew), hgone⟩

/-- When an entry that keeps its name is the old side of a change. -/
theorem keptName_changed_iff (hnew : newDir.names.Nodup) (hold : oldDir.names.Nodup)
    (hmem : old ∈ oldDir.entries) (he : e ∈ newDir.entries) (hname : old.name = e.name) :
    (∃ change ∈ (directoryChanges newDir oldDir).changed, change.old = old) ↔
      (e.kind ≠ old.kind ∨ e.mtime ≠ old.mtime ∨ e.perms ≠ old.perms ∨ e.tuple ≠ old.tuple) ∨
        DiffersFromCopy newDir oldDir old := by
  obtain ⟨-, hreported, hpaired⟩ := sameName_reported hold he hmem hname
  have hkept : old.name ∈ newDir.names := hname ▸ List.mem_map_of_mem he
  constructor
  · rintro ⟨change, hchange, rfl⟩
    obtain ⟨hchangeNew, hcompared, hprops, hne⟩ := mem_changed.mp hchange
    by_cases hchangeName : change.new.name ∈ oldDir.names
    · obtain ⟨other, hother, hotherName⟩ := List.mem_map.mp hchangeName
      have hsame := (sameName_reported hold hchangeNew hother hotherName).2.2 change hchange rfl
      subst hsame
      have hnames : change.new.name = e.name := hotherName.symm.trans hname
      have heq := List.inj_on_of_nodup_map hnew hchangeNew he hnames
      exact .inl (hreported.mp ⟨change, hchange, heq⟩)
    · rw [comparedOldEntry_newName hchangeName] at hcompared
      have htuple := (lastSameTuple_mem hcompared).2
      rw [hprops, Ne, entryProperties_eq_nil_iff] at hne
      refine .inr ⟨change.new, hchangeNew, hchangeName, hcompared, ?_⟩
      grind
  · rintro (hdiffers | ⟨copy, hcopy, hcopyName, hlast, hdiffers⟩)
    · obtain ⟨change, hchange, hchangeNew⟩ := hreported.mpr hdiffers
      exact ⟨change, hchange, hpaired change hchange hchangeNew⟩
    · have hcompared := (comparedOldEntry_newName hcopyName).trans hlast
      have hprops : entryProperties newDir (some old) copy ≠ [] := by
        rw [Ne, entryProperties_eq_nil_iff]
        grind
      exact ⟨⟨copy, old, _⟩, mem_changed.mpr ⟨hcopy, hcompared, rfl, hprops⟩, rfl⟩

/-- `directory-changes` reports what was deleted just when no entry that is still there differs in its
size only, unless it is compared with another one as well. -/
theorem directoryChanges_reportsDeletions_iff (hnew : newDir.names.Nodup)
    (hold : oldDir.names.Nodup) :
    ReportsDeletions newDir oldDir (directoryChanges newDir oldDir) ↔
      ∀ old ∈ oldDir.entries, OnlySizeDiffers newDir old → DiffersFromCopy newDir oldDir old := by
  refine forall_congr' fun old => forall_congr' fun hmem => ?_
  by_cases hname : old.name ∈ newDir.names
  · obtain ⟨e, he, hename⟩ := List.mem_map.mp hname
    have hfound : sameNamedNewEntry newDir old = some e := by
      rw [sameNamedNewEntry, ← hename]
      exact makeLookupProc_of_nodup hnew he
    have hunique : ∀ e' ∈ newDir.entries, e'.name = old.name → e' = e := by
      intro e' he' hename'
      exact List.inj_on_of_nodup_map hnew he' he (hename'.trans hename.symm)
    have hsize : OnlySizeDiffers newDir old ↔ (e.kind = old.kind ∧ e.mtime = old.mtime ∧
        e.perms = old.perms ∧ e.tuple = old.tuple) ∧ e.size ≠ old.size := by
      constructor
      · rintro ⟨e', he', hename', hkind, hmtime, hperms, htuple, hne⟩
        cases hunique e' he' hename'
        exact ⟨⟨hkind, hmtime, hperms, htuple⟩, hne⟩
      · rintro ⟨⟨hkind, hmtime, hperms, htuple⟩, hne⟩
        exact ⟨e, he, hename, hkind, hmtime, hperms, htuple, hne⟩
    have hequal : e = old ↔ (e.kind = old.kind ∧ e.mtime = old.mtime ∧ e.perms = old.perms ∧
        e.tuple = old.tuple) ∧ e.size = old.size := by
      cases e
      cases old
      grind
    rw [mem_deleted hold hmem, hfound, keptName_changed_iff hnew hold hmem he hename.symm,
      Option.some.injEq, hsize, hequal]
    grind
  · have hnotSize : ¬ OnlySizeDiffers newDir old := by
      rintro ⟨e, he, hename, -⟩
      exact hname (hename ▸ List.mem_map_of_mem he)
    rw [goneName_deleted_iff hold hmem hname]
    exact iff_of_true (and_iff_right hname).symm fun h => (hnotSize h).elim

end Deletions

theorem directoryChanges_reportsDeletions_renamed :
    ReportsDeletions (equalFiles ["z"]) (equalFiles ["a", "b"])
      (directoryChanges (equalFiles ["z"]) (equalFiles ["a", "b"])) :=
  (directoryChanges_reportsDeletions_iff (by decide) (by decide)).mpr (by decide)

/-- A sub-directory whose size is another one is reported as deleted. -/
theorem directoryChanges_deletes_resized :
    ¬ ReportsDeletions ⟨[], [sampleEntry "a" .directory 2]⟩ ⟨[], [sampleEntry "a" .directory 1]⟩
      (directoryChanges ⟨[], [sampleEntry "a" .directory 2]⟩ ⟨[], [sampleEntry "a" .directory 1]⟩) := by
  intro h
  have hdeleted := (h (sampleEntry "a" .directory 1) (by decide)).mp (by decide)
  exact hdeleted.1 (by decide)

end Libchop
