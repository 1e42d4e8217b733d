import Libchop.Backup.Changes
import Libchop.Framework.Outcome

/-!
# Changes of directories and of their sub-directories

`directory-changes/recursive` fetches the sub-directories that changed, and reports each entry with the
entries of the directories above it.  When a sub-directory cannot be fetched, what was to be fetched stands
in the place of the entry.
-/

namespace Libchop

open Outcome (Settles)

/-- An element of a reported path. -/
inductive PathItem where
  | entry (e : DirectoryEntry)
  | directory (dir : Directory)
  | false
deriving DecidableEq, Repr

def PathItem.fetched : Option Directory → PathItem
  | some dir => .directory dir
  | none => .false

abbrev ScopedPath := List PathItem

structure ScopedChange where
  new : ScopedPath
  old : ScopedPath
  props : List ChangeTag
deriving DecidableEq, Repr

structure ScopedChanges where
  added : List ScopedPath
  changed : List ScopedChange
  deleted : List ScopedPath
deriving DecidableEq, Repr

/-- The reverse of a reverse path with one more item. -/
def scope (item : PathItem) (rpath : List DirectoryEntry) : ScopedPath :=
  (item :: rpath.map .entry).reverse

/-- `directory-changes/recursive` for two directories at these reverse paths. -/
abbrev ScopedLoop :=
  Directory → Directory → ScopedChanges → List DirectoryEntry → List DirectoryEntry →
    Outcome ScopedChanges

section Recursion

variable (fetch : Option IndexTuple → Option Directory)

/-- What is done with each change.  In the branch where a directory is missing, the names `new` and
`old` stand for what was fetched. -/
def collectScoped (loop : ScopedLoop) (rpathNew rpathOld : List DirectoryEntry)
    (acc : ScopedChanges) (change : EntryChange) : Outcome ScopedChanges :=
  if change.new.kind = .directory ∧ change.old.kind = .directory then
    match fetch change.new.tuple, fetch change.old.tuple with
    | some new, some old => loop new old acc (change.new :: rpathNew) (change.old :: rpathOld)
    | new, old =>
      .done { acc with changed :=
        ⟨scope (.fetched new) rpathNew, scope (.fetched old) rpathOld, change.props⟩ :: acc.changed }
  else
    .done { acc with changed :=
      ⟨scope (.entry change.new) rpathNew, scope (.entry change.old) rpathOld, change.props⟩ ::
        acc.changed }

def foldScoped (loop : ScopedLoop) (rpathNew rpathOld : List DirectoryEntry) :
    ScopedChanges → List EntryChange → Outcome ScopedChanges
  | acc, [] => .done acc
  | acc, change :: changes =>
    collectScoped fetch loop rpathNew rpathOld acc change >>= fun acc =>
      foldScoped loop rpathNew rpathOld acc changes

def scopedLoop : Nat → ScopedLoop
  | 0, _, _, _, _, _ => .outOfFuel
  | fuel + 1, new, old, acc, rpathNew, rpathOld =>
    let changes := directoryChanges new old
    foldScoped fetch (scopedLoop fuel) rpathNew rpathOld
      ⟨(changes.added.map fun e => scope (.entry e) rpathNew) ++ acc.added, acc.changed,
        (changes.deleted.map fun e => scope (.entry e) rpathOld) ++ acc.deleted⟩
      changes.changed

def directoryChangesRecursive (fuel : Nat) (new old : Directory) : Outcome ScopedChanges :=
  scopedLoop fetch fuel new old ⟨[], [], []⟩ [] []

end Recursion

def PathItem.entryName : PathItem → Except SchemeError String
  | .entry e => .ok e.name
  | _ => .error .wrongTypeArg

def flattenEntry (path : ScopedPath) : Except SchemeError DirectoryEntry :=
  match path.getLast? with
  | some (.entry e) =>
    (path.dropLast.mapM PathItem.entryName).map fun names =>
      { e with name := "/".intercalate (names ++ [e.name]) }
  | _ => .error .matchError

def flattenChange (change : ScopedChange) : Except SchemeError EntryChange := do
  let new ← flattenEntry change.new
  let old ← flattenEntry change.old
  return ⟨new, old, change.props⟩

def flattenChanges (changes : ScopedChanges) : Except SchemeError DirectoryChanges := do
  let added ← changes.added.mapM flattenEntry
  let changed ← changes.changed.mapM flattenChange
  let deleted ← changes.deleted.mapM flattenEntry
  return ⟨added, changed, deleted⟩

def directoryChangesRecursiveStar (fetch : Option IndexTuple → Option Directory) (fuel : Nat)
    (new old : Directory) : Outcome (Except SchemeError DirectoryChanges) :=
  directoryChangesRecursive fetch fuel new old >>= fun changes => .done (flattenChanges changes)

section Paths

variable (fetch : Option IndexTuple → Option Directory)

/-- A path goes from an entry of the directory down to the last entry, through directories that can be
fetched. -/
inductive PathFrom : Directory → ScopedPath → Prop where
  | last {dir : Directory} {e : DirectoryEntry} (he : e ∈ dir.entries) : PathFrom dir [.entry e]
  | down {dir sub : Directory} {e : DirectoryEntry} {path : ScopedPath} (he : e ∈ dir.entries)
      (hkind : e.kind = .directory) (hfetch : fetch e.tuple = some sub) (hpath : PathFrom sub path) :
      PathFrom dir (.entry e :: path)

/-- The recursion comes to these directories, below these entries. -/
inductive Visited (new old : Directory) :
    List DirectoryEntry → List DirectoryEntry → Directory → Directory → Prop where
  | top : Visited new old [] [] new old
  | sub {pathNew pathOld : List DirectoryEntry} {dirNew dirOld subNew subOld : Directory}
      {change : EntryChange} (h : Visited new old pathNew pathOld dirNew dirOld)
      (hchange : change ∈ (directoryChanges dirNew dirOld).changed)
      (hkinds : change.new.kind = .directory ∧ change.old.kind = .directory)
      (hnew : fetch change.new.tuple = some subNew) (hold : fetch change.old.tuple = some subOld) :
      Visited new old (pathNew ++ [change.new]) (pathOld ++ [change.old]) subNew subOld

/-- All reported paths are paths from the two directories. -/
structure PathsFrom (new old : Directory) (changes : ScopedChanges) : Prop where
  added : ∀ path ∈ changes.added, PathFrom fetch new path
  changed : ∀ change ∈ changes.changed, PathFrom fetch new change.new ∧ PathFrom fetch old change.old
  deleted : ∀ path ∈ changes.deleted, PathFrom fetch old path

/-- What the lists of scoped changes should be like. -/
structure WellScoped (new old : Directory) (changes : ScopedChanges) : Prop
    extends PathsFrom fetch new old changes where
  /-- A sub-directory that cannot be fetched is reported with its own entries. -/
  unavailable : ∀ pathNew pathOld dirNew dirOld, Visited fetch new old pathNew pathOld dirNew dirOld →
    ∀ change ∈ (directoryChanges dirNew dirOld).changed,
      change.new.kind = .directory ∧ change.old.kind = .directory →
      fetch change.new.tuple = none ∨ fetch change.old.tuple = none →
        ⟨(pathNew ++ [change.new]).map .entry, (pathOld ++ [change.old]).map .entry,
          change.props⟩ ∈ changes.changed

/-- Both versions of every sub-directory that changed can be fetched, and so on below them, which comes
to an end. -/
inductive Fetchable : Directory → Directory → Prop where
  | intro {new old : Directory}
      (havailable : ∀ change ∈ (directoryChanges new old).changed,
        change.new.kind = .directory ∧ change.old.kind = .directory →
          (fetch change.new.tuple).isSome ∧ (fetch change.old.tuple).isSome)
      (hbelow : ∀ change ∈ (directoryChanges new old).changed,
        change.new.kind = .directory ∧ change.old.kind = .directory →
          ∀ subNew subOld, fetch change.new.tuple = some subNew → fetch change.old.tuple = some subOld →
            Fetchable subNew subOld) :
      Fetchable new old

end Paths

namespace ScopedChanges

/-- The changes of two directories at these reverse paths. -/
def under (rpathNew rpathOld : List DirectoryEntry) (changes : ScopedChanges) : ScopedChanges where
  added := changes.added.map fun path => rpathNew.reverse.map .entry ++ path
  changed := changes.changed.map fun change =>
    ⟨rpathNew.reverse.map .entry ++ change.new, rpathOld.reverse.map .entry ++ change.old, change.props⟩
  deleted := changes.deleted.map fun path => rpathOld.reverse.map .entry ++ path

def append (changes changes' : ScopedChanges) : ScopedChanges :=
  ⟨changes.added ++ changes'.added, changes.changed ++ changes'.changed,
    changes.deleted ++ changes'.deleted⟩

theorem under_nil (changes : ScopedChanges) : changes.under [] [] = changes := by
  simp [under]

theorem under_cons (new old : DirectoryEntry) (rpathNew rpathOld : List DirectoryEntry)
    (changes : ScopedChanges) :
    changes.under (new :: rpathNew) (old :: rpathOld) =
      (changes.under [new] [old]).under rpathNew rpathOld := by
  simp [under]

theorem under_append (rpathNew rpathOld : List DirectoryEntry) (changes changes' : ScopedChanges) :
    (changes.append changes').under rpathNew rpathOld =
      (changes.under rpathNew rpathOld).append (changes'.under rpathNew rpathOld) := by
  simp [under, append]

theorem append_assoc (first second third : ScopedChanges) :
    (first.append second).append third = first.append (second.append third) := by
  simp [append]

theorem append_empty (changes : ScopedChanges) : changes.append ⟨[], [], []⟩ = changes := by
  simp [append]

end ScopedChanges

theorem scope_eq (item : PathItem) (rpath : List DirectoryEntry) :
    scope item rpath = rpath.reverse.map .entry ++ [item] := by
  simp [scope]

section Fetched

variable {fetch : Option IndexTuple → Option Directory} {new old : Directory}

theorem mem_changed_entries {change : EntryChange} (h : change ∈ (directoryChanges new old).changed) :
    change.new ∈ new.entries ∧ change.old ∈ old.entries := by
  obtain ⟨hnew, hold, -⟩ := mem_changed.mp h
  obtain ⟨object, hobject, hentry⟩ := Option.map_eq_some_iff.mp hold
  rw [← hentry]
  exact ⟨hnew, List.fst_mem_of_mem_zipIdx (comparedOldEntry_mem hobject)⟩

theorem PathsFrom.append {changes changes' : ScopedChanges} (h : PathsFrom fetch new old changes)
    (h' : PathsFrom fetch new old changes') : PathsFrom fetch new old (changes.append changes') where
  added := List.forall_mem_append.mpr ⟨h.added, h'.added⟩
  changed := List.forall_mem_append.mpr ⟨h.changed, h'.changed⟩
  deleted := List.forall_mem_append.mpr ⟨h.deleted, h'.deleted⟩

/-- Paths from sub-directories are paths from the directories. -/
theorem PathsFrom.under {e e' : DirectoryEntry} (he : e ∈ new.entries) (he' : e' ∈ old.entries)
    (hkind : e.kind = .directory) (hkind' : e'.kind = .directory) {subNew subOld : Directory}
    (hnew : fetch e.tuple = some subNew) (hold : fetch e'.tuple = some subOld)
    {changes : ScopedChanges} (h : PathsFrom fetch subNew subOld changes) :
    PathsFrom fetch new old (changes.under [e] [e']) where
  added := by
    intro whole hwhole
    obtain ⟨path, hpath, rfl⟩ := List.mem_map.mp hwhole
    exact .down he hkind hnew (h.added path hpath)
  changed := by
    intro whole hwhole
    obtain ⟨change, hchange, rfl⟩ := List.mem_map.mp hwhole
    obtain ⟨hpathNew, hpathOld⟩ := h.changed change hchange
    exact ⟨.down he hkind hnew hpathNew, .down he' hkind' hold hpathOld⟩
  deleted := by
    intro whole hwhole
    obtain ⟨path, hpath, rfl⟩ := List.mem_map.mp hwhole
    exact .down he' hkind' hold (h.deleted path hpath)

/-- With any accumulators and at any paths, these changes are found. -/
def Finds (run : Nat → ScopedChanges → List DirectoryEntry → List DirectoryEntry →
    Outcome ScopedChanges) (changes : ScopedChanges) : Prop :=
  ∀ acc rpathNew rpathOld, Settles (fun fuel => run fuel acc rpathNew rpathOld)
    ((changes.under rpathNew rpathOld).append acc)

/-- A change is reported as it is, or its sub-directories are compared. -/
theorem collectScoped_finds {change : EntryChange}
    (hchange : change ∈ (directoryChanges new old).changed)
    (hbelow : change.new.kind = .directory ∧ change.old.kind = .directory →
      ∃ subNew subOld changes, fetch change.new.tuple = some subNew ∧
        fetch change.old.tuple = some subOld ∧
        Finds (fun fuel => scopedLoop fetch fuel subNew subOld) changes ∧
        PathsFrom fetch subNew subOld changes) :
    ∃ changes, Finds (fun fuel acc rpathNew rpathOld =>
        collectScoped fetch (scopedLoop fetch fuel) rpathNew rpathOld acc change) changes ∧
      PathsFrom fetch new old changes := by
  obtain ⟨hnew, hold⟩ := mem_changed_entries hchange
  by_cases hkinds : change.new.kind = .directory ∧ change.old.kind = .directory
  · obtain ⟨subNew, subOld, changes, hsubNew, hsubOld, hfinds, hpaths⟩ := hbelow hkinds
    refine ⟨changes.under [change.new] [change.old], ?_,
      hpaths.under hnew hold hkinds.1 hkinds.2 hsubNew hsubOld⟩
    intro acc rpathNew rpathOld
    rw [← ScopedChanges.under_cons]
    refine (hfinds acc (change.new :: rpathNew) (change.old :: rpathOld)).imp fun fuel hloop => ?_
    simp only [collectScoped, if_pos hkinds, hsubNew, hsubOld]
    exact hloop
  · refine ⟨⟨[], [⟨[.entry change.new], [.entry change.old], change.props⟩], []⟩, ?_, ?_⟩
    · intro acc rpathNew rpathOld
      refine .of_eq fun fuel => ?_
      simp only [collectScoped, if_neg hkinds, scope_eq]
      rfl
    · refine ⟨nofun, ?_, nofun⟩
      intro change' hchange'
      cases List.mem_singleton.mp hchange'
      exact ⟨.last hnew, .last hold⟩

theorem foldScoped_finds {changes : List EntryChange}
    (hchanges : ∀ change ∈ changes, change ∈ (directoryChanges new old).changed)
    (hbelow : ∀ change ∈ changes, change.new.kind = .directory ∧ change.old.kind = .directory →
      ∃ subNew subOld changes, fetch change.new.tuple = some subNew ∧
        fetch change.old.tuple = some subOld ∧
        Finds (fun fuel => scopedLoop fetch fuel subNew subOld) changes ∧
        PathsFrom fetch subNew subOld changes) :
    ∃ found, Finds (fun fuel acc rpathNew rpathOld =>
        foldScoped fetch (scopedLoop fetch fuel) rpathNew rpathOld acc changes) found ∧
      PathsFrom fetch new old found := by
  induction changes with
  | nil => exact ⟨⟨[], [], []⟩, fun acc _ _ => .of_eq fun _ => rfl, nofun, nofun, nofun⟩
  | cons change changes ih =>
    obtain ⟨hchange, hchanges⟩ := List.forall_mem_cons.mp hchanges
    obtain ⟨hfirst, hbelow⟩ := List.forall_mem_cons.mp hbelow
    obtain ⟨first, hfirst, hfirstPaths⟩ := collectScoped_finds hchange hfirst
    obtain ⟨rest, hrest, hrestPaths⟩ := ih hchanges hbelow
    refine ⟨rest.append first, ?_, hrestPaths.append hfirstPaths⟩
    intro acc rpathNew rpathOld
    rw [ScopedChanges.under_append, ScopedChanges.append_assoc]
    exact (hfirst acc rpathNew rpathOld).bind (hrest _ rpathNew rpathOld)

def ownChanges (new old : Directory) : ScopedChanges where
  added := (directoryChanges new old).added.map fun e => [.entry e]
  changed := []
  deleted := (directoryChanges new old).deleted.map fun e => [.entry e]

theorem ownChanges_paths (new old : Directory) : PathsFrom fetch new old (ownChanges new old) where
  added := by
    intro path hpath
    obtain ⟨e, he, rfl⟩ := List.mem_map.mp hpath
    exact .last (mem_added.mp he).1
  changed := nofun
  deleted := by
    intro path hpath
    obtain ⟨e, he, rfl⟩ := List.mem_map.mp hpath
    obtain ⟨object, hobject, rfl⟩ := List.mem_map.mp he
    exact .last (List.fst_mem_of_mem_zipIdx (List.mem_filter.mp hobject).1)

theorem scopedLoop_succ (acc : ScopedChanges) (rpathNew rpathOld : List DirectoryEntry)
    (fuel : Nat) :
    scopedLoop fetch (fuel + 1) new old acc rpathNew rpathOld =
      foldScoped fetch (scopedLoop fetch fuel) rpathNew rpathOld
        (((ownChanges new old).under rpathNew rpathOld).append acc)
        (directoryChanges new old).changed := by
  simp [scopedLoop, ownChanges, ScopedChanges.under, ScopedChanges.append, scope_eq,
    Function.comp_def]

/-- Where all sub-directories can be fetched, the recursion ends and reports paths. -/
theorem Fetchable.finds (h : Fetchable fetch new old) :
    ∃ changes, Finds (fun fuel => scopedLoop fetch fuel new old) changes ∧
      PathsFrom fetch new old changes := by
  induction h with
  | @intro new old havailable hbelow ih =>
    have hsub : ∀ change ∈ (directoryChanges new old).changed,
        change.new.kind = .directory ∧ change.old.kind = .directory →
        ∃ subNew subOld changes, fetch change.new.tuple = some subNew ∧
          fetch change.old.tuple = some subOld ∧
          Finds (fun fuel => scopedLoop fetch fuel subNew subOld) changes ∧
          PathsFrom fetch subNew subOld changes := by
      intro change hchange hkinds
      obtain ⟨hnew, hold⟩ := havailable change hchange hkinds
      obtain ⟨subNew, hnew⟩ := Option.isSome_iff_exists.mp hnew
      obtain ⟨subOld, hold⟩ := Option.isSome_iff_exists.mp hold
      obtain ⟨changes, hfinds, hpaths⟩ := ih change hchange hkinds subNew subOld hnew hold
      exact ⟨subNew, subOld, changes, hnew, hold, hfinds, hpaths⟩
    obtain ⟨found, hfound, hpaths⟩ := foldScoped_finds (fun change hchange => hchange) hsub
    refine ⟨found.append (ownChanges new old), ?_, hpaths.append (ownChanges_paths new old)⟩
    intro acc rpathNew rpathOld
    rw [ScopedChanges.under_append, ScopedChanges.append_assoc]
    exact .succ (scopedLoop_succ acc rpathNew rpathOld) (hfound _ rpathNew rpathOld)

end Fetched

/-- All items of the paths of the changed entries are entries. -/
def OnEntries (changed : List ScopedChange) : Prop :=
  ∀ change ∈ changed, (∀ item ∈ change.new, ∃ e, item = .entry e) ∧
    ∀ item ∈ change.old, ∃ e, item = .entry e

section Converse

variable {fetch : Option IndexTuple → Option Directory}

theorem PathFrom.items {dir : Directory} {path : ScopedPath} (h : PathFrom fetch dir path) :
    ∀ item ∈ path, ∃ e, item = .entry e := by
  induction h with
  | last he => simp
  | down he hkind hfetch hpath ih => simpa using ih

theorem fetched_ne_entry (fetched : Option Directory) (e : DirectoryEntry) :
    PathItem.fetched fetched ≠ .entry e := by
  cases fetched with
  | none => nofun
  | some dir => nofun

/-- The sub-directories of a change can be fetched, and so on. -/
def ChangeFetchable (fetch : Option IndexTuple → Option Directory) (change : EntryChange) : Prop :=
  change.new.kind = .directory ∧ change.old.kind = .directory →
    ((fetch change.new.tuple).isSome ∧ (fetch change.old.tuple).isSome) ∧
      ∀ subNew subOld, fetch change.new.tuple = some subNew → fetch change.old.tuple = some subOld →
        Fetchable fetch subNew subOld

/-- A run keeps the changes it was given, and reports entries only if `good` holds. -/
def Reveals (run : ScopedChanges → Outcome ScopedChanges) (good : Prop) : Prop :=
  ∀ acc result, run acc = .done result →
    (∀ change ∈ acc.changed, change ∈ result.changed) ∧ (OnEntries result.changed → good)

theorem collectScoped_reveals {loop : ScopedLoop} {rpathNew rpathOld : List DirectoryEntry}
    (hloop : ∀ new old rpathNew rpathOld,
      Reveals (fun acc => loop new old acc rpathNew rpathOld) (Fetchable fetch new old))
    (change : EntryChange) :
    Reveals (fun acc => collectScoped fetch loop rpathNew rpathOld acc change)
      (ChangeFetchable fetch change) := by
  intro acc result h
  by_cases hkinds : change.new.kind = .directory ∧ change.old.kind = .directory
  · simp only [collectScoped, if_pos hkinds] at h
    split at h
    · next subNew subOld hnew hold =>
      obtain ⟨hkeep, hfetchable⟩ := hloop _ _ _ _ acc result h
      refine ⟨hkeep, fun hentries _ => ⟨by simp [hnew, hold], ?_⟩⟩
      intro subNew' subOld' hnew' hold'
      cases hnew.symm.trans hnew'
      cases hold.symm.trans hold'
      exact hfetchable hentries
    · cases h
      refine ⟨fun change' hchange' => List.mem_cons_of_mem _ hchange', ?_⟩
      intro hentries
      -- The last item of the new path is what was fetched.
      have hitem :=
        (hentries _ List.mem_cons_self).1 (.fetched (fetch change.new.tuple)) (by simp [scope_eq])
      obtain ⟨e, he⟩ := hitem
      exact (fetched_ne_entry _ e he).elim
  · simp only [collectScoped, if_neg hkinds] at h
    cases h
    exact ⟨fun change' hchange' => List.mem_cons_of_mem _ hchange', fun _ h => (hkinds h).elim⟩

theorem foldScoped_reveals {loop : ScopedLoop} {rpathNew rpathOld : List DirectoryEntry}
    (hloop : ∀ new old rpathNew rpathOld,
      Reveals (fun acc => loop new old acc rpathNew rpathOld) (Fetchable fetch new old))
    (changes : List EntryChange) :
    Reveals (fun acc => foldScoped fetch loop rpathNew rpathOld acc changes)
      (∀ change ∈ changes, ChangeFetchable fetch change) := by
  induction changes with
  | nil =>
    intro acc result h
    cases h
    exact ⟨fun change hchange => hchange, fun _ => List.forall_mem_nil _⟩
  | cons change changes ih =>
    intro acc result h
    obtain ⟨between, hbetween, h⟩ := Outcome.bind_eq_done.mp h
    obtain ⟨hkeep, hfirst⟩ := collectScoped_reveals hloop change acc between hbetween
    obtain ⟨hkeepRest, hrest⟩ := ih between result h
    refine ⟨fun change' hchange' => hkeepRest _ (hkeep _ hchange'), ?_⟩
    intro hentries
    have hbefore : OnEntries between.changed := fun change' hchange' =>
      hentries change' (hkeepRest change' hchange')
    exact List.forall_mem_cons.mpr ⟨hfirst hbefore, hrest hentries⟩

theorem scopedLoop_reveals (fuel : Nat) (new old : Directory)
    (rpathNew rpathOld : List DirectoryEntry) :
    Reveals (fun acc => scopedLoop fetch fuel new old acc rpathNew rpathOld)
      (Fetchable fetch new old) := by
  induction fuel generalizing new old rpathNew rpathOld with
  | zero =>
    intro acc result h
    cases h
  | succ fuel ih =>
    intro acc result h
    simp only [scopedLoop_succ] at h
    obtain ⟨hkeep, hchanges⟩ := foldScoped_reveals ih _ _ result h
    refine ⟨fun change hchange => hkeep change (List.mem_append_right _ hchange), ?_⟩
    intro hentries
    refine .intro ?_ ?_
    · intro change hchange hkinds
      exact (hchanges hentries change hchange hkinds).1
    · intro change hchange hkinds
      exact (hchanges hentries change hchange hkinds).2

end Converse

section Visiting

variable {fetch : Option IndexTuple → Option Directory} {new old : Directory}

theorem Visited.fetchable {pathNew pathOld : List DirectoryEntry} {dirNew dirOld : Directory}
    (h : Visited fetch new old pathNew pathOld dirNew dirOld) (hfetchable : Fetchable fetch new old) :
    Fetchable fetch dirNew dirOld := by
  induction h with
  | top => exact hfetchable
  | sub h hchange hkinds hnew hold ih =>
    obtain ⟨-, hbelow⟩ := ih
    exact hbelow _ hchange hkinds _ _ hnew hold

/-- A path from a directory is made of entries, and is not empty. -/
theorem PathFrom.eq_map {dir : Directory} {path : ScopedPath} (h : PathFrom fetch dir path) :
    ∃ (parents : List DirectoryEntry) (e : DirectoryEntry),
      path = parents.map .entry ++ [.entry e] := by
  induction h with
  | @last dir e he => exact ⟨[], e, rfl⟩
  | @down dir sub e path he hkind hfetch hpath ih =>
    obtain ⟨parents, last, rfl⟩ := ih
    exact ⟨e :: parents, last, rfl⟩

theorem mapM_entryName (parents : List DirectoryEntry) :
    (parents.map PathItem.entry).mapM PathItem.entryName = .ok (parents.map DirectoryEntry.name) := by
  induction parents with
  | nil => rfl
  | cons e parents ih =>
    rw [List.map_cons, List.mapM_cons, ih]
    rfl

/-- Paths can be flattened. -/
theorem flattenEntry_path {dir : Directory} {path : ScopedPath} (h : PathFrom fetch dir path) :
    ∃ e, flattenEntry path = .ok e := by
  obtain ⟨parents, e, rfl⟩ := h.eq_map
  refine ⟨{ e with name := "/".intercalate (parents.map DirectoryEntry.name ++ [e.name]) }, ?_⟩
  simp only [flattenEntry, List.getLast?_append, List.getLast?_singleton, Option.some_or,
    List.dropLast_concat, mapM_entryName]
  rfl

theorem exists_mapM_ok {α β : Type} {f : α → Except SchemeError β} {l : List α}
    (h : ∀ x ∈ l, ∃ y, f x = .ok y) : ∃ ys, l.mapM f = .ok ys := by
  induction l with
  | nil => exact ⟨[], rfl⟩
  | cons x l ih =>
    obtain ⟨⟨y, hy⟩, hl⟩ := List.forall_mem_cons.mp h
    obtain ⟨ys, hys⟩ := ih hl
    refine ⟨y :: ys, ?_⟩
    rw [List.mapM_cons, hy, hys]
    rfl

theorem PathsFrom.flattens {changes : ScopedChanges} (h : PathsFrom fetch new old changes) :
    ∃ flat, flattenChanges changes = .ok flat := by
  have hpairs : ∀ change ∈ changes.changed, ∃ flat, flattenChange change = .ok flat := by
    intro change hchange
    obtain ⟨hnew, hold⟩ := h.changed change hchange
    obtain ⟨new, hnew⟩ := flattenEntry_path hnew
    obtain ⟨old, hold⟩ := flattenEntry_path hold
    refine ⟨⟨new, old, change.props⟩, ?_⟩
    rw [flattenChange, hnew, hold]
    rfl
  obtain ⟨added, hadded⟩ := exists_mapM_ok fun path hpath => flattenEntry_path (h.added path hpath)
  obtain ⟨changed, hchanged⟩ := exists_mapM_ok hpairs
  obtain ⟨deleted, hdeleted⟩ :=
    exists_mapM_ok fun path hpath => flattenEntry_path (h.deleted path hpath)
  refine ⟨⟨added, changed, deleted⟩, ?_⟩
  rw [flattenChanges, hadded, hchanged, hdeleted]
  rfl

/-- The recursion returns, with lists of paths that can be flattened, just when both versions of each
sub-directory that changed can be fetched. -/
theorem directoryChangesRecursive_wellScoped_iff (fetch : Option IndexTuple → Option Directory)
    (new old : Directory) :
    (∃ changes flat, Settles (fun fuel => directoryChangesRecursive fetch fuel new old) changes ∧
        WellScoped fetch new old changes ∧
        Settles (fun fuel => directoryChangesRecursiveStar fetch fuel new old) (.ok flat)) ↔
      Fetchable fetch new old := by
  constructor
  · rintro ⟨changes, -, ⟨bound, hchanges⟩, hscoped, -⟩
    refine (scopedLoop_reveals bound new old [] [] _ changes (hchanges bound (Nat.le_refl _))).2 ?_
    intro change hchange
    obtain ⟨hnew, hold⟩ := hscoped.changed change hchange
    exact ⟨hnew.items, hold.items⟩
  · intro hfetchable
    obtain ⟨changes, hfinds, hpaths⟩ := hfetchable.finds
    have hsettles := hfinds ⟨[], [], []⟩ [] []
    rw [ScopedChanges.under_nil, ScopedChanges.append_empty] at hsettles
    obtain ⟨flat, hflat⟩ := hpaths.flattens
    have hstar : Settles (fun fuel => directoryChangesRecursiveStar fetch fuel new old) (.ok flat) :=
      hsettles.bind (.of_eq fun _ => by rw [hflat])
    refine ⟨changes, flat, hsettles, ⟨hpaths, ?_⟩, hstar⟩
    intro pathNew pathOld dirNew dirOld hvisited change hchange hkinds hmissing
    obtain ⟨havailable, -⟩ := hvisited.fetchable hfetchable
    obtain ⟨hnew, hold⟩ := havailable change hchange hkinds
    rcases hmissing with hnone | hnone
    · simp [hnone] at hnew
    · simp [hnone] at hold

end Visiting

def parentOf (tuple : String) : Directory :=
  ⟨[], [⟨"sub", .directory, 0, 0, 448, some ⟨[], tuple, []⟩⟩]⟩

def fileDirectory (mtime : Int) (perms : Nat) : Directory :=
  ⟨[], [⟨"a", .regular, mtime, 123, perms, some ⟨[], "something", []⟩⟩]⟩

example :
    directoryChangesRecursiveStar
      (fun tuple => if tuple = some ⟨[], "new", []⟩ then some (fileDirectory 234 272)
        else some (fileDirectory 123 256)) 2 (parentOf "new") (parentOf "old") =
    .done (.ok ⟨[], [⟨⟨"sub/a", .regular, 234, 123, 272, some ⟨[], "something", []⟩⟩,
      ⟨"sub/a", .regular, 123, 123, 256, some ⟨[], "something", []⟩⟩, [.permissions, .touched]⟩],
      []⟩) := by
  decide

/-- The change of a sub-directory that cannot be fetched is reported on no entry. -/
theorem directoryChangesRecursive_not_wellScoped :
    ¬ ∃ changes flat,
      Settles (fun fuel =>
        directoryChangesRecursive (fun _ => none) fuel (parentOf "new") (parentOf "old")) changes ∧
      WellScoped (fun _ => none) (parentOf "new") (parentOf "old") changes ∧
      Settles (fun fuel =>
        directoryChangesRecursiveStar (fun _ => none) fuel (parentOf "new") (parentOf "old"))
        (.ok flat) := by
  rintro ⟨changes, -, hsettles, hscoped, -⟩
  have hresult : changes = ⟨[], [⟨[.false], [.false], [.modified]⟩], []⟩ :=
    hsettles.unique (.of_add 1 fun fuel => rfl)
  subst hresult
  have hpath := (hscoped.changed _ List.mem_cons_self).1
  cases hpath

end Libchop
