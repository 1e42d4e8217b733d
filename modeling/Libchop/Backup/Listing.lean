import Libchop.Backup.Directory
import Libchop.Framework.Traversal

/-!
# Listing the contents of a directory

`list-directory-contents` shows the entries of a directory, and those of its subdirectories and previous
versions if it is asked to.  It remembers the directories it went on from.
-/

namespace Libchop

open Traversal

/-- `directory-previous-version*`, where `exists?` is `indexed-block-exists?` on a store. -/
def directoryPreviousVersion (exists? : String → Bool) (dir : Directory) : Option IndexTuple :=
  dir.previous.find? fun tuple => exists? tuple.index

def makePreviousVersionEntry (prev : IndexTuple) : DirectoryEntry :=
  ⟨"//previous-version//", .directory, 0, 0, 0, some prev⟩

/-- What a listing does: it reads the directory of a tuple, or displays an entry with some indentation. -/
inductive ListingEvent where
  | read (tuple : IndexTuple)
  | display (indent : String) (entry : DirectoryEntry)
deriving DecidableEq, Repr

def nest (indent : String) : String := indent ++ "    "

/-- The arguments of `list-directory-contents`, with what `tuple->directory` makes of a tuple. -/
structure Listing where
  tupleToDirectory : IndexTuple → Option Directory
  exists? : String → Bool
  recursive : Bool
  history : Bool

/-- The inner loop, over the entries of the directory of `tuple`. -/
def listEntries (listing : Listing)
    (loop : IndexTuple → String → List IndexTuple → Outcome (List IndexTuple × List ListingEvent))
    (tuple : IndexTuple) (indent : String) :
    List DirectoryEntry → List IndexTuple → Outcome (List IndexTuple × List ListingEvent)
  | [], visited => .done (visited, [])
  | e :: entries, visited => do
    let (visited, inner) ←
      (if e.kind = .directory ∧ listing.recursive = true then
        match e.tuple with
        | some subdir => loop subdir (nest indent) (tuple :: visited)
        | none => .abort
      else .done (visited, []))
    let (visited, rest) ← listEntries listing loop tuple indent entries visited
    return (visited, .display indent e :: (inner ++ rest))

/-- The outer loop: the tuples that were visited, and what was done.  A directory that cannot be read ends
the program. -/
def listLoop (listing : Listing) : Nat → IndexTuple → String → List IndexTuple →
    Outcome (List IndexTuple × List ListingEvent)
  | 0, _, _, _ => .outOfFuel
  | fuel + 1, tuple, indent, visited =>
    if tuple ∈ visited then .done (visited, [])
    else
      match listing.tupleToDirectory tuple with
      | none => .abort
      | some dir => do
        let (visited, entries) ← listEntries listing (listLoop listing fuel) tuple indent dir.entries visited
        match directoryPreviousVersion listing.exists? dir with
        | none => return (visited, .read tuple :: entries)
        | some prev =>
          let line := ListingEvent.display indent (makePreviousVersionEntry prev)
          if listing.history then do
            let (visited, rest) ← listLoop listing fuel prev (nest indent) (tuple :: visited)
            return (visited, .read tuple :: (entries ++ line :: rest))
          else return (visited, .read tuple :: line :: entries)

def listDirectoryContents (listing : Listing) (fuel : Nat) (tuple : IndexTuple) :
    Outcome (List ListingEvent) := do
  let (_, events) ← listLoop listing fuel tuple "" []
  return events

section Events

def readTuples (events : List ListingEvent) : List IndexTuple :=
  events.filterMap fun event =>
    match event with
    | .read tuple => some tuple
    | .display _ _ => none

@[simp] theorem readTuples_append (events rest : List ListingEvent) :
    readTuples (events ++ rest) = readTuples events ++ readTuples rest := List.filterMap_append

@[simp] theorem readTuples_read (tuple : IndexTuple) (events : List ListingEvent) :
    readTuples (.read tuple :: events) = tuple :: readTuples events := rfl

@[simp] theorem readTuples_display (indent : String) (e : DirectoryEntry) (events : List ListingEvent) :
    readTuples (.display indent e :: events) = readTuples events := rfl

theorem mem_readTuples {tuple : IndexTuple} {events : List ListingEvent} :
    tuple ∈ readTuples events ↔ .read tuple ∈ events := by
  rw [readTuples, List.mem_filterMap]
  constructor
  · rintro ⟨event, hmem, hread⟩
    cases event with
    | read tuple' =>
      cases hread
      exact hmem
    | display indent e => cases hread
  · exact fun hmem => ⟨_, hmem, rfl⟩

theorem count_readTuples (tuple : IndexTuple) (events : List ListingEvent) :
    (readTuples events).count tuple = events.count (.read tuple) := by
  induction events with
  | nil => rfl
  | cons event events ih =>
    cases event with
    | read tuple' =>
      rw [readTuples_read, List.count_cons, List.count_cons, ih]
      simp
    | display indent e =>
      rw [readTuples_display, List.count_cons_of_ne (fun heq => by cases heq), ih]

end Events

section Listed

variable (listing : Listing) (dirAt : IndexTuple → Directory)

def subdirectoryTuples (entries : List DirectoryEntry) : List IndexTuple :=
  if listing.recursive then
    entries.filterMap fun e => if e.kind = .directory then e.tuple else none
  else []

/-- Where a listing goes on from a directory. -/
def nextTuples (tuple : IndexTuple) : List IndexTuple :=
  subdirectoryTuples listing (dirAt tuple).entries ++
    if listing.history then (directoryPreviousVersion listing.exists? (dirAt tuple)).toList else []

/-- A directory that can be read, with a tuple for each subdirectory. -/
structure Readable (tuple : IndexTuple) : Prop where
  directory : listing.tupleToDirectory tuple = some (dirAt tuple)
  subdirectory : listing.recursive = true → ∀ e ∈ (dirAt tuple).entries, e.kind = .directory →
    e.tuple.isSome

def Shown (tuple : IndexTuple) (e : DirectoryEntry) : Prop :=
  e ∈ (dirAt tuple).entries ∨
    ∃ prev, directoryPreviousVersion listing.exists? (dirAt tuple) = some prev ∧
      e = makePreviousVersionEntry prev

/-- What is displayed: all that belongs to the directories that were read, and some entries of its own. -/
structure Displays (own : List DirectoryEntry) (events : List ListingEvent) : Prop where
  complete : ∀ tuple, .read tuple ∈ events → ∀ e, Shown listing dirAt tuple e →
    ∃ indent, .display indent e ∈ events
  sound : ∀ indent e, .display indent e ∈ events →
    e ∈ own ∨ ∃ tuple, .read tuple ∈ events ∧ Shown listing dirAt tuple e

variable {listing dirAt}

theorem Displays.append {own own' : List DirectoryEntry} {events rest : List ListingEvent}
    (h : Displays listing dirAt own events) (h' : Displays listing dirAt own' rest) :
    Displays listing dirAt (own ++ own') (events ++ rest) where
  complete := by
    intro tuple hread e he
    rcases List.mem_append.mp hread with hread | hread
    · obtain ⟨indent, hmem⟩ := h.complete tuple hread e he
      exact ⟨indent, List.mem_append_left _ hmem⟩
    · obtain ⟨indent, hmem⟩ := h'.complete tuple hread e he
      exact ⟨indent, List.mem_append_right _ hmem⟩
  sound := by
    intro indent e hmem
    rw [List.mem_append]
    rcases List.mem_append.mp hmem with hmem | hmem
    · rcases h.sound indent e hmem with hown | ⟨tuple, hread, he⟩
      · exact .inl (.inl hown)
      · exact .inr ⟨tuple, List.mem_append_left _ hread, he⟩
    · rcases h'.sound indent e hmem with hown | ⟨tuple, hread, he⟩
      · exact .inl (.inr hown)
      · exact .inr ⟨tuple, List.mem_append_right _ hread, he⟩

theorem displays_nil : Displays listing dirAt [] [] where
  complete := by
    intro tuple hread
    cases hread
  sound := by
    intro indent e hmem
    cases hmem

theorem displays_line (indent : String) (e : DirectoryEntry) :
    Displays listing dirAt [e] [.display indent e] where
  complete := by
    intro tuple hread
    cases List.mem_singleton.mp hread
  sound := by
    intro indent' e' hmem
    cases List.mem_singleton.mp hmem
    exact .inl List.mem_cons_self

/-- The directory of the entries is read first. -/
theorem Displays.read {own : List DirectoryEntry} {events : List ListingEvent} {tuple : IndexTuple}
    (h : Displays listing dirAt own events) (hown : ∀ e, e ∈ own ↔ Shown listing dirAt tuple e)
    (hlines : ∀ e ∈ own, ∃ indent, .display indent e ∈ events) :
    Displays listing dirAt [] (.read tuple :: events) where
  complete := by
    intro tuple' hread e he
    rcases List.mem_cons.mp hread with hsame | hread
    · cases hsame
      obtain ⟨indent, hmem⟩ := hlines e ((hown e).mpr he)
      exact ⟨indent, List.mem_cons_of_mem _ hmem⟩
    · obtain ⟨indent, hmem⟩ := h.complete tuple' hread e he
      exact ⟨indent, List.mem_cons_of_mem _ hmem⟩
  sound := by
    intro indent e hmem
    have hmem := (List.mem_cons.mp hmem).resolve_left fun heq => by cases heq
    rcases h.sound indent e hmem with he | ⟨tuple', hread, he⟩
    · exact .inr ⟨tuple, List.mem_cons_self, (hown e).mp he⟩
    · exact .inr ⟨tuple', List.mem_cons_of_mem _ hread, he⟩

/-- The results of a search and of a listing, which displays some entries of its own. -/
structure Lists (listing : Listing) (dirAt : IndexTuple → Directory) (own : List DirectoryEntry)
    (search : List IndexTuple × List IndexTuple) (list : List IndexTuple × List ListingEvent) : Prop where
  visited : list.1 = search.1
  reads : readTuples list.2 = search.2
  displays : Displays listing dirAt own list.2
  lines : ∀ e ∈ own, ∃ indent, .display indent e ∈ list.2

/-- An entry with what is listed below it, before the rest. -/
theorem Lists.line {own : List DirectoryEntry} {marked opened visited visited' : List IndexTuple}
    {inner rest : List ListingEvent} {search : List IndexTuple × List IndexTuple}
    (hinner : Lists listing dirAt [] (marked, opened) (visited, inner)) (e : DirectoryEntry)
    (indent : String) (hrest : Lists listing dirAt own search (visited', rest)) :
    Lists listing dirAt (e :: own) (search.1, opened ++ search.2)
      (visited', .display indent e :: (inner ++ rest)) where
  visited := hrest.visited
  reads := by
    rw [readTuples_display, readTuples_append, hinner.reads, hrest.reads]
  displays := (displays_line indent e).append (hinner.displays.append hrest.displays)
  lines := by
    intro e' he'
    rcases List.mem_cons.mp he' with rfl | he'
    · exact ⟨indent, List.mem_cons_self⟩
    · obtain ⟨indent', hmem⟩ := hrest.lines e' he'
      exact ⟨indent', List.mem_cons_of_mem _ (List.mem_append_right _ hmem)⟩

theorem Lists.append {own own' : List DirectoryEntry} {marked opened visited visited' : List IndexTuple}
    {events rest : List ListingEvent} {search : List IndexTuple × List IndexTuple}
    (h : Lists listing dirAt own (marked, opened) (visited, events))
    (h' : Lists listing dirAt own' search (visited', rest)) :
    Lists listing dirAt (own ++ own') (search.1, opened ++ search.2) (visited', events ++ rest) where
  visited := h'.visited
  reads := by
    rw [readTuples_append, h.reads, h'.reads]
  displays := h.displays.append h'.displays
  lines := by
    intro e he
    rcases List.mem_append.mp he with he | he
    · obtain ⟨indent, hmem⟩ := h.lines e he
      exact ⟨indent, List.mem_append_left _ hmem⟩
    · obtain ⟨indent, hmem⟩ := h'.lines e he
      exact ⟨indent, List.mem_append_right _ hmem⟩

theorem lists_nil (marked : List IndexTuple) : Lists listing dirAt [] (marked, []) (marked, []) :=
  ⟨rfl, rfl, displays_nil, fun _ he => by cases he⟩

theorem subdirectoryTuples_cons {e : DirectoryEntry} {subdir : IndexTuple}
    (he : e.kind = .directory ∧ listing.recursive = true) (htuple : e.tuple = some subdir)
    (entries : List DirectoryEntry) :
    subdirectoryTuples listing (e :: entries) = subdir :: subdirectoryTuples listing entries := by
  simp only [subdirectoryTuples, he.2, if_true, List.filterMap_cons, he.1, htuple]

theorem subdirectoryTuples_cons_of_not {e : DirectoryEntry}
    (he : ¬ (e.kind = .directory ∧ listing.recursive = true)) (entries : List DirectoryEntry) :
    subdirectoryTuples listing (e :: entries) = subdirectoryTuples listing entries := by
  by_cases hrecursive : listing.recursive = true
  · have hkind : ¬ e.kind = .directory := fun hkind => he ⟨hkind, hrecursive⟩
    simp only [subdirectoryTuples, hrecursive, if_true, List.filterMap_cons, if_neg hkind]
  · simp only [subdirectoryTuples, if_neg hrecursive]

/-- The loop over the entries is a search of the subdirectories. -/
theorem listEntries_related
    {search : IndexTuple → List IndexTuple → Outcome (List IndexTuple × List IndexTuple)}
    {loop : IndexTuple → String → List IndexTuple → Outcome (List IndexTuple × List ListingEvent)}
    (tuple : IndexTuple) (indent : String) {entries : List DirectoryEntry}
    (hloop : ∀ subdir ∈ subdirectoryTuples listing entries, ∀ indent marked,
      Outcome.Related (Lists listing dirAt []) (search subdir marked) (loop subdir indent marked))
    (htuples : listing.recursive = true → ∀ e ∈ entries, e.kind = .directory → e.tuple.isSome)
    (marked : List IndexTuple) :
    Outcome.Related (Lists listing dirAt entries)
      (visitAll search tuple (subdirectoryTuples listing entries) marked)
      (listEntries listing loop tuple indent entries marked) := by
  induction entries generalizing marked with
  | nil =>
    have hnone : subdirectoryTuples listing [] = [] := by
      rw [subdirectoryTuples]
      split
      · rfl
      · rfl
    rw [hnone]
    exact .done (lists_nil marked)
  | cons e entries ih =>
    have htuples' : listing.recursive = true → ∀ e ∈ entries, e.kind = .directory → e.tuple.isSome :=
      fun hrecursive e' he' => htuples hrecursive e' (List.mem_cons_of_mem _ he')
    rw [listEntries]
    by_cases he : e.kind = .directory ∧ listing.recursive = true
    · obtain ⟨subdir, hsubdir⟩ := Option.isSome_iff_exists.mp (htuples he.2 e List.mem_cons_self he.1)
      rw [subdirectoryTuples_cons he hsubdir] at hloop ⊢
      rw [if_pos he, hsubdir, visitAll]
      refine (hloop subdir List.mem_cons_self (nest indent) (tuple :: marked)).bind ?_
      rintro ⟨marked₁, first⟩ ⟨visited₁, inner⟩ hinner
      obtain rfl : visited₁ = marked₁ := hinner.visited
      refine (ih (fun subdir' hmem => hloop subdir' (List.mem_cons_of_mem _ hmem)) htuples' visited₁).bind ?_
      rintro search ⟨visited₂, rest⟩ hrest
      exact .done (hinner.line e indent hrest)
    · rw [subdirectoryTuples_cons_of_not he] at hloop ⊢
      rw [if_neg he]
      have hrest := ih hloop htuples' marked
      rw [Outcome.done_bind]
      generalize visitAll search tuple (subdirectoryTuples listing entries) marked = searched at hrest ⊢
      dsimp only
      generalize listEntries listing loop tuple indent entries marked = listed at hrest ⊢
      cases hrest with
      | done hlists => exact .done ((lists_nil marked).line e indent hlists)
      | abort => exact .abort
      | outOfFuel => exact .outOfFuel

/-- A directory is read, and then what belongs to it is listed. -/
theorem Lists.read {own : List DirectoryEntry} {search : List IndexTuple × List IndexTuple}
    {visited : List IndexTuple} {events : List ListingEvent} {tuple : IndexTuple}
    (h : Lists listing dirAt own search (visited, events))
    (hown : ∀ e, e ∈ own ↔ Shown listing dirAt tuple e) :
    Lists listing dirAt [] (search.1, tuple :: search.2) (visited, .read tuple :: events) where
  visited := h.visited
  reads := congrArg (tuple :: ·) h.reads
  displays := h.displays.read hown h.lines
  lines := by
    intro e he
    cases he

theorem shown_iff_of_none {tuple : IndexTuple}
    (hprev : directoryPreviousVersion listing.exists? (dirAt tuple) = none) (e : DirectoryEntry) :
    e ∈ (dirAt tuple).entries ↔ Shown listing dirAt tuple e := by
  refine ⟨.inl, ?_⟩
  rintro (he | ⟨prev, hsome, -⟩)
  · exact he
  · rw [hprev] at hsome
    cases hsome

theorem shown_iff_of_some {tuple prev : IndexTuple}
    (hprev : directoryPreviousVersion listing.exists? (dirAt tuple) = some prev) (e : DirectoryEntry) :
    e = makePreviousVersionEntry prev ∨ e ∈ (dirAt tuple).entries ↔ Shown listing dirAt tuple e := by
  constructor
  · rintro (he | he)
    · exact .inr ⟨prev, hprev, he⟩
    · exact .inl he
  · rintro (he | ⟨prev', hsome, he⟩)
    · exact .inr he
    · rw [hprev] at hsome
      cases hsome
      exact .inl he

/-- A listing is a search.  By induction on the fuel. -/
theorem listLoop_related (fuel : Nat) {tuple : IndexTuple} (indent : String) (marked : List IndexTuple)
    (hreadable : ∀ z, Reaches (nextTuples listing dirAt) tuple z → Readable listing dirAt z) :
    Outcome.Related (Lists listing dirAt []) (visit (nextTuples listing dirAt) fuel tuple marked)
      (listLoop listing fuel tuple indent marked) := by
  induction fuel generalizing tuple indent marked with
  | zero => exact .outOfFuel
  | succ fuel ih =>
    rw [visit, listLoop]
    by_cases hmarked : tuple ∈ marked
    · rw [if_pos hmarked, if_pos hmarked]
      exact .done (lists_nil marked)
    · rw [if_neg hmarked, if_neg hmarked, (hreadable tuple .refl).directory]
      have hentries := listEntries_related tuple indent
        (fun subdir hsubdir indent marked => ih indent marked fun z hz =>
          hreadable z (.head (List.mem_append_left _ hsubdir) hz))
        (hreadable tuple .refl).subdirectory marked
      rw [nextTuples, visitAll_append, Outcome.bind_assoc]
      refine hentries.bind ?_
      rintro ⟨marked₁, opened⟩ ⟨visited₁, entries⟩ hlists
      obtain rfl : visited₁ = marked₁ := hlists.visited
      cases hprev : directoryPreviousVersion listing.exists? (dirAt tuple) with
      | none =>
        have hlast : (if listing.history = true then (none : Option IndexTuple).toList else []) = [] := by
          split
          · rfl
          · rfl
        rw [hlast]
        have hread := hlists.read (shown_iff_of_none hprev)
        rw [← List.append_nil opened] at hread
        exact .done hread
      | some prev =>
        dsimp only
        by_cases hhistory : listing.history = true
        · rw [if_pos hhistory, if_pos hhistory, Option.toList_some, visitAll]
          simp only [Outcome.bind_assoc]
          have hnext : prev ∈ nextTuples listing dirAt tuple := by
            rw [nextTuples, if_pos hhistory, hprev]
            exact List.mem_append_right _ (List.mem_singleton_self prev)
          refine (ih (nest indent) (tuple :: visited₁) fun z hz => hreadable z (.head hnext hz)).bind ?_
          rintro ⟨marked₂, first⟩ ⟨visited₂, rest⟩ hrest
          obtain rfl : visited₂ = marked₂ := hrest.visited
          have hline := (lists_nil visited₁).line (makePreviousVersionEntry prev) indent hrest
          have hread := (hlists.append hline).read fun e => by
            rw [List.mem_append, List.mem_singleton, or_comm]
            exact shown_iff_of_some hprev e
          rw [← List.append_nil first] at hread
          exact .done hread
        · rw [if_neg hhistory, if_neg hhistory]
          have hline := (lists_nil visited₁).line (makePreviousVersionEntry prev) indent hlists
          have hread := hline.read fun e => by
            rw [List.mem_cons]
            exact shown_iff_of_some hprev e
          rw [← List.append_nil opened] at hread
          exact .done hread

/-- A listing comes to its end also where directories lead back to one another.  It reads those that can be
reached, each of which that leads on to another one only once, and displays what belongs to them. -/
theorem listDirectoryContents_reaches (listing : Listing) (dirAt : IndexTuple → Directory)
    (root : IndexTuple) {tuples : List IndexTuple}
    (hreadable : ∀ tuple, Reaches (nextTuples listing dirAt) root tuple →
      Readable listing dirAt tuple ∧ tuple ∈ tuples)
    {fuel : Nat} (hfuel : tuples.length < fuel) :
    ∃ events, listDirectoryContents listing fuel root = .done events ∧
      (∀ tuple, .read tuple ∈ events ↔ Reaches (nextTuples listing dirAt) root tuple) ∧
      (∀ tuple, Reaches (nextTuples listing dirAt) root tuple → nextTuples listing dirAt tuple ≠ [] →
        events.count (.read tuple) = 1) ∧
      ∀ e, (∃ indent, .display indent e ∈ events) ↔
        ∃ tuple, Reaches (nextTuples listing dirAt) root tuple ∧ Shown listing dirAt tuple e := by
  obtain ⟨marked, opened, hvisit, hopened, honce⟩ :=
    visit_opens (fun z hz => (hreadable z hz).2) hfuel
  have hrelated := listLoop_related fuel "" [] fun z hz => (hreadable z hz).1
  rw [hvisit] at hrelated
  generalize hlisted : listLoop listing fuel root "" [] = listed at hrelated
  cases hrelated with
  | @done _ list hlists =>
    obtain ⟨visited, events⟩ := list
    have hreads : readTuples events = opened := hlists.reads
    have hread : ∀ tuple, .read tuple ∈ events ↔ Reaches (nextTuples listing dirAt) root tuple := by
      intro tuple
      rw [← mem_readTuples, hreads]
      exact hopened tuple
    refine ⟨events, ?_, hread, fun tuple hreaches hnext => ?_, fun e => ⟨?_, ?_⟩⟩
    · rw [listDirectoryContents, hlisted]
      rfl
    · have hcount := honce tuple ((hopened tuple).mpr hreaches) hnext
      rw [← hreads, count_readTuples] at hcount
      exact hcount
    · rintro ⟨indent, hmem⟩
      rcases hlists.displays.sound indent e hmem with hown | ⟨tuple, hmem, he⟩
      · cases hown
      · exact ⟨tuple, (hread tuple).mp hmem, he⟩
    · rintro ⟨tuple, hreaches, he⟩
      exact hlists.displays.complete tuple ((hread tuple).mpr hreaches) e he

end Listed

section Sample

def sampleRoot : IndexTuple := ⟨[], "root", []⟩

def cyclicDirectory : Directory := ⟨[], [⟨"again", .directory, 0, 0, 0o755, some sampleRoot⟩]⟩

def cyclicListing : Listing := ⟨fun _ => some cyclicDirectory, fun _ => true, true, true⟩

theorem cyclicListing_ends :
    ∃ events, listDirectoryContents cyclicListing 2 sampleRoot = .done events ∧
      events.count (.read sampleRoot) = 1 := by
  have hroot : ∀ tuple, Reaches (nextTuples cyclicListing fun _ => cyclicDirectory) sampleRoot tuple →
      tuple = sampleRoot := by
    intro tuple hreaches
    induction hreaches with
    | refl => rfl
    | tail _ hnext _ => exact List.mem_singleton.mp hnext
  have hreadable : ∀ tuple,
      Reaches (nextTuples cyclicListing fun _ => cyclicDirectory) sampleRoot tuple →
        Readable cyclicListing (fun _ => cyclicDirectory) tuple ∧ tuple ∈ [sampleRoot] := by
    intro tuple hreaches
    refine ⟨⟨rfl, fun _ e he _ => ?_⟩, List.mem_singleton.mpr (hroot tuple hreaches)⟩
    rw [List.mem_singleton.mp he]
    rfl
  obtain ⟨events, hrun, -, honce, -⟩ :=
    listDirectoryContents_reaches cyclicListing (fun _ => cyclicDirectory) sampleRoot hreadable
      (Nat.lt_succ_self 1)
  exact ⟨events, hrun, honce sampleRoot .refl (List.cons_ne_nil _ _)⟩

end Sample

end Libchop
