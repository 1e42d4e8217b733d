import Libchop.Store.FsStore
import Mathlib.Data.List.Nodup

/-!
# Iterating over the file-system store

An iterator reads the directory of the store through a duplicate of its descriptor, and one
sub-directory after the other.
-/

namespace Libchop

def dotOrDotDot (name : FileName) : Bool := name = [46] || name = [46, 46]

/-- What is left to the file system and the C library: the order of directory entries, how many are
read ahead, and what follows a name in its record. -/
structure FsEnvironment where
  order : FileName → List FileName → List FileName
  perm : ∀ d names, (order d names).Perm ([46] :: [46, 46] :: names)
  ahead : Nat
  slack : FileName → Bytes

/-- The entries of the store's directory. -/
def FsEnvironment.listing (env : FsEnvironment) (dir : Directory) : List FileName :=
  env.order [] dir.keys

/-- An `fs` store: its directory, and the position in its descriptor. -/
structure FsBlockStore where
  dir : Directory
  position : Option (List FileName)

/-- A `chop_fs_block_iterator_t`.  Once destroyed it has no `next` method. -/
structure FsBlockIterator where
  topDir : DirStream
  subdir : Option (List FileName)
  subdirName : FileName
  key : Bytes
  nil : Bool
  destroyed : Bool
deriving DecidableEq

/-- The loops over a stream of one's own that skip `.` and `..`. -/
def readEntry : List FileName → Option (FileName × List FileName)
  | [] => none
  | name :: rest => if dotOrDotDot name then readEntry rest else some (name, rest)

/-- The loops over the stream of the store's directory that skip `.` and `..`. -/
def readTopEntry (env : FsEnvironment) (dir : Directory) :
    Nat → DirStream → Outcome (Option FileName × DirStream)
  | 0, _ => .outOfFuel
  | fuel + 1, topDir =>
    match topDir.readdir env.ahead (env.listing dir) with
    | (none, topDir) => .done (none, topDir)
    | (some name, topDir) =>
      if dotOrDotDot name then readTopEntry env dir fuel topDir else .done (some name, topDir)

/-- The key of an entry, whose record is read beyond the end of the name. -/
def entryKey (env : FsEnvironment) (subdirName entry : FileName) : Bytes :=
  (chopBase32StringToBuffer (subdirName ++ entry ++ 0 :: env.slack entry)).1

/-- More than the number of times a stream can be read. -/
def topFuel (env : FsEnvironment) (dir : Directory) (topDir : DirStream) : Nat :=
  (topDir.remaining (env.listing dir)).length + 1

def chopFsFirstBlock (env : FsEnvironment) (store : FsBlockStore) :
    Outcome (Status × FsBlockIterator) :=
  let opened : DirStream := ⟨[], store.position⟩
  readTopEntry env store.dir (topFuel env store.dir opened) opened >>= fun (name, topDir) =>
    let destroyed : FsBlockIterator := ⟨topDir, none, [], [], true, true⟩
    match name with
    | none => .done (.error .storeEnd, destroyed)
    | some name =>
      match store.dir.lookup name with
      | none => .done (.error (Errno.toError .enoent), destroyed)
      | some files =>
        match readEntry (env.order name files.keys) with
        | none => .done (.error .storeEnd, destroyed)
        | some (entry, rest) =>
          .done (.ok (), ⟨topDir, some rest, name.take 2, entryKey env (name.take 2) entry, false,
            false⟩)

/-- The loop of `chop_fs_next_block` over sub-directories.  There is none to read after the end. -/
def chopFsNextLoop (env : FsEnvironment) (dir : Directory) :
    Nat → FsBlockIterator → Outcome (Status × FsBlockIterator)
  | 0, _ => .outOfFuel
  | fuel + 1, it =>
    match it.subdir with
    | none => .abort
    | some entries =>
      match readEntry entries with
      | some (entry, rest) =>
        .done (.ok (), { it with subdir := some rest, key := entryKey env it.subdirName entry })
      | none =>
        readTopEntry env dir (topFuel env dir it.topDir) it.topDir >>= fun (name, topDir) =>
          match name with
          | none => .done (.error .storeEnd, { it with topDir, subdir := none, nil := true })
          | some name =>
            match dir.lookup name with
            | none =>
              .done (.error (Errno.toError .enoent),
                { it with topDir, subdir := none, subdirName := name.take 2 })
            | some files =>
              chopFsNextLoop env dir fuel
                { it with
                  topDir, subdir := some (env.order name files.keys), subdirName := name.take 2 }

def chopFsNextBlock (env : FsEnvironment) (dir : Directory) (it : FsBlockIterator) :
    Outcome (Status × FsBlockIterator) :=
  if it.destroyed then .abort else chopFsNextLoop env dir (topFuel env dir it.topDir) it

def fileCount (dir : Directory) : Nat := (dir.entries.map fun entry => entry.2.entries.length).sum

def chopFsTraverse (env : FsEnvironment) (store : FsBlockStore) (again : Nat) :
    Outcome (StoreReply × FsBlockStore) :=
  chopFsFirstBlock env store >>= fun first =>
    Iteration.traverse (chopFsNextBlock env store.dir) FsBlockIterator.key
        (fileCount store.dir + 1) first >>= fun (keys, last, it) =>
      Iteration.nextAgain (chopFsNextBlock env store.dir) again it >>= fun ends =>
        .done (.traversal keys (.error last :: ends), { store with position := it.topDir.unread })

/-- The entries other than `.` and `..`. -/
def properEntries (names : List FileName) : List FileName :=
  names.filter fun name => !dotOrDotDot name

private theorem readEntry_eq (names : List FileName) :
    ∃ rest, readEntry names = (properEntries names).head?.map (fun entry => (entry, rest)) ∧
      properEntries rest = (properEntries names).tail := by
  induction names with
  | nil => exact ⟨[], rfl, rfl⟩
  | cons name names ih =>
    cases hdot : dotOrDotDot name with
    | false =>
      exact ⟨names, by simp [readEntry, properEntries, hdot], by simp [properEntries, hdot]⟩
    | true =>
      have hentries : properEntries (name :: names) = properEntries names := by
        simp [properEntries, hdot]
      rw [readEntry, if_pos hdot, hentries]
      exact ih

private theorem readEntry_nil {names : List FileName} (h : properEntries names = []) :
    readEntry names = none := by
  obtain ⟨rest, hread, -⟩ := readEntry_eq names
  rw [hread, h]
  rfl

private theorem readEntry_cons {names entries : List FileName} {entry : FileName}
    (h : properEntries names = entry :: entries) :
    ∃ rest, readEntry names = some (entry, rest) ∧ properEntries rest = entries := by
  obtain ⟨rest, hread, hrest⟩ := readEntry_eq names
  rw [h] at hread hrest
  exact ⟨rest, hread, hrest⟩

section Top

variable {env : FsEnvironment} {dir : Directory} {topDir : DirStream} {fuel : Nat}
  (hfuel : (topDir.remaining (env.listing dir)).length < fuel)

include hfuel

private theorem readTopEntry_eq :
    ∃ topDir', readTopEntry env dir fuel topDir =
        .done ((properEntries (topDir.remaining (env.listing dir))).head?, topDir') ∧
      properEntries (topDir'.remaining (env.listing dir)) =
        (properEntries (topDir.remaining (env.listing dir))).tail := by
  induction fuel generalizing topDir with
  | zero => exact absurd hfuel (Nat.not_lt_zero _)
  | succ fuel ih =>
    rw [readTopEntry]
    cases hremaining : topDir.remaining (env.listing dir) with
    | nil =>
      rw [DirStream.readdir_nil hremaining]
      exact ⟨_, rfl, rfl⟩
    | cons name rest =>
      obtain ⟨topDir', hread, hrest⟩ := DirStream.readdir_cons hremaining env.ahead
      rw [hremaining] at hfuel
      cases hdot : dotOrDotDot name with
      | false =>
        refine ⟨topDir', by simp [hread, hdot, properEntries], ?_⟩
        rw [hrest]
        simp [properEntries, hdot]
      | true =>
        have hentries : properEntries (name :: rest) = properEntries rest := by
          simp [properEntries, hdot]
        rw [hentries, ← hrest]
        simp only [hread, hdot, if_true]
        refine ih ?_
        rw [hrest]
        exact Nat.lt_of_succ_lt_succ hfuel

private theorem readTopEntry_nil (h : properEntries (topDir.remaining (env.listing dir)) = []) :
    ∃ topDir', readTopEntry env dir fuel topDir = .done (none, topDir') := by
  obtain ⟨topDir', hread, -⟩ := readTopEntry_eq hfuel
  rw [h] at hread
  exact ⟨topDir', hread⟩

private theorem readTopEntry_cons {entry : FileName} {entries : List FileName}
    (h : properEntries (topDir.remaining (env.listing dir)) = entry :: entries) :
    ∃ topDir', readTopEntry env dir fuel topDir = .done (some entry, topDir') ∧
      properEntries (topDir'.remaining (env.listing dir)) = entries := by
  obtain ⟨topDir', hread, hrest⟩ := readTopEntry_eq hfuel
  rw [h] at hread hrest
  exact ⟨topDir', hread, hrest⟩

end Top

/-- The keys of a sub-directory, in the order of its entries. -/
def subdirKeys (env : FsEnvironment) (dir : Directory) (d : FileName) : List Bytes :=
  match dir.lookup d with
  | none => []
  | some files => (properEntries (env.order d files.keys)).map (entryKey env (d.take 2))

/-- The keys an iterator has not come to yet. -/
def upcomingKeys (env : FsEnvironment) (dir : Directory) (it : FsBlockIterator) : List Bytes :=
  (properEntries (it.subdir.getD [])).map (entryKey env it.subdirName) ++
    (properEntries (it.topDir.remaining (env.listing dir))).flatMap (subdirKeys env dir)

/-- An iterator in the middle of a traversal. -/
structure Reading (env : FsEnvironment) (dir : Directory) (it : FsBlockIterator) : Prop where
  live : it.destroyed = false
  subdir : it.subdir.isSome
  top : ∀ d ∈ properEntries (it.topDir.remaining (env.listing dir)), d ∈ dir

/-- What moving an iterator does: it comes to the next key, or to the end. -/
def MovesTo (env : FsEnvironment) (dir : Directory) (moved : Outcome (Status × FsBlockIterator)) :
    List Bytes → Prop
  | [] => ∃ it, moved = .done (.error .storeEnd, it)
  | key :: keys =>
    ∃ it, moved = .done (.ok (), it) ∧ it.key = key ∧ upcomingKeys env dir it = keys ∧
      Reading env dir it

private theorem chopFsNextLoop_movesTo {env : FsEnvironment} {dir : Directory}
    {it : FsBlockIterator} {fuel : Nat} (h : Reading env dir it)
    (hfuel : (properEntries (it.topDir.remaining (env.listing dir))).length < fuel) :
    MovesTo env dir (chopFsNextLoop env dir fuel it) (upcomingKeys env dir it) := by
  induction fuel generalizing it with
  | zero => exact absurd hfuel (Nat.not_lt_zero _)
  | succ fuel ih =>
    obtain ⟨names, hnames⟩ := Option.isSome_iff_exists.mp h.subdir
    rw [chopFsNextLoop, hnames, upcomingKeys, hnames, Option.getD_some]
    cases hentries : properEntries names with
    | cons entry entries =>
      obtain ⟨rest, hread, hrest⟩ := readEntry_cons hentries
      simp only [hread]
      refine ⟨_, rfl, rfl, ?_, h.live, rfl, h.top⟩
      rw [upcomingKeys, Option.getD_some, hrest]
      rfl
    | nil =>
      simp only [readEntry_nil hentries, List.map_nil, List.nil_append]
      have htop : (it.topDir.remaining (env.listing dir)).length < topFuel env dir it.topDir :=
        Nat.lt_succ_self _
      cases hremaining : properEntries (it.topDir.remaining (env.listing dir)) with
      | nil =>
        obtain ⟨topDir', hread⟩ := readTopEntry_nil htop hremaining
        simp only [hread, Outcome.done_bind]
        exact ⟨_, rfl⟩
      | cons name rest =>
        obtain ⟨topDir', hread, hrest⟩ := readTopEntry_cons htop hremaining
        have hname : name ∈ dir := h.top name (by rw [hremaining]; exact List.mem_cons_self)
        obtain ⟨files, hfiles⟩ := Option.isSome_iff_exists.mp (AList.lookup_isSome.mpr hname)
        have hreading : Reading env dir
            { it with
              topDir := topDir', subdir := some (env.order name files.keys),
              subdirName := name.take 2 } := by
          refine ⟨h.live, rfl, ?_⟩
          intro d hd
          rw [hrest] at hd
          refine h.top d ?_
          rw [hremaining]
          exact List.mem_cons_of_mem name hd
        have hmoves := ih hreading (by
          rw [hremaining] at hfuel
          rw [hrest]
          exact Nat.lt_of_succ_lt_succ hfuel)
        rw [upcomingKeys, Option.getD_some, hrest] at hmoves
        simp only [hread, Outcome.done_bind, hfiles, List.flatMap_cons, subdirKeys]
        exact hmoves

theorem chopFsNextBlock_movesTo {env : FsEnvironment} {dir : Directory} {it : FsBlockIterator}
    (h : Reading env dir it) :
    MovesTo env dir (chopFsNextBlock env dir it) (upcomingKeys env dir it) := by
  have hlive : ¬ it.destroyed = true := by simp [h.live]
  rw [chopFsNextBlock, if_neg hlive]
  refine chopFsNextLoop_movesTo h ?_
  exact Nat.lt_succ_of_le (List.length_filter_le _ _)

/-- From its first key on, an iterator comes to all upcoming ones. -/
theorem chopFsNextBlock_enumerates {env : FsEnvironment} {dir : Directory} {it : FsBlockIterator}
    (h : Reading env dir it) :
    Iteration.Enumerates (chopFsNextBlock env dir) FsBlockIterator.key ChopError.storeEnd
      (fun _ => True) (.ok (), it) (it.key :: upcomingKeys env dir it) := by
  generalize hkeys : upcomingKeys env dir it = keys
  induction keys generalizing it with
  | nil =>
    have hmoves := chopFsNextBlock_movesTo h
    rw [hkeys] at hmoves
    obtain ⟨it', hnext⟩ := hmoves
    exact ⟨rfl, rfl, _, hnext, rfl, trivial⟩
  | cons key keys ih =>
    have hmoves := chopFsNextBlock_movesTo h
    rw [hkeys] at hmoves
    obtain ⟨it', hnext, rfl, hkeys', hreading⟩ := hmoves
    exact ⟨rfl, rfl, _, hnext, ih hreading hkeys'⟩

/-- Only names of keys occur in the directory of a store. -/
structure OnlyBlocks (dir : Directory) : Prop where
  dirs : ∀ d ∈ dir, ∃ key : Bytes, d = blockDir key
  files : ∀ d f, (dir.contents d f).isSome → ∃ key : Bytes, d = blockDir key ∧ f = blockFile key

private theorem not_dotOrDotDot {name : FileName} (h : ∀ c ∈ name, isBase32Text c = true) :
    dotOrDotDot name = false := by
  have hdot : isBase32Text 46 = false := by decide
  have hmem : 46 ∉ name := by
    intro hmem
    rw [h 46 hmem] at hdot
    cases hdot
  rw [dotOrDotDot, Bool.or_eq_false_iff, decide_eq_false_iff_not, decide_eq_false_iff_not]
  constructor
  · rintro rfl
    exact hmem List.mem_cons_self
  · rintro rfl
    exact hmem List.mem_cons_self

private theorem properEntries_perm {env : FsEnvironment} (d : FileName) {names : List FileName}
    (h : ∀ name ∈ names, dotOrDotDot name = false) :
    (properEntries (env.order d names)).Perm names := by
  have hperm := (env.perm d names).filter fun name => !dotOrDotDot name
  have hdots : List.filter (fun name => !dotOrDotDot name) ([46] :: [46, 46] :: names) = names := by
    rw [List.filter_cons_of_neg (by decide), List.filter_cons_of_neg (by decide),
      List.filter_eq_self]
    intro name hname
    rw [h name hname, Bool.not_false]
  rwa [hdots] at hperm

private theorem blockDir_take (key : Bytes) : (blockDir key).take 2 = blockDir key := by
  rw [blockDir, List.take_take, Nat.min_self]

private theorem entryKey_block (env : FsEnvironment) (key : Bytes) :
    entryKey env ((blockDir key).take 2) (blockFile key) = key := by
  have hend : EndsBase32 (0 :: env.slack (blockFile key)) :=
    .inr ⟨0, rfl, by decide, by decide⟩
  rw [entryKey, blockDir_take, blockDir_append_blockFile, chopBase32StringToBuffer_string key hend]

section Complete

variable (env : FsEnvironment) {dir : Directory} (h : OnlyBlocks dir)

include h

private theorem properEntries_top : (properEntries (env.listing dir)).Perm dir.keys := by
  refine properEntries_perm [] ?_
  intro d hd
  obtain ⟨key, rfl⟩ := h.dirs d (AList.mem_keys.mpr hd)
  exact not_dotOrDotDot fun c hc => mem_chopBufferToBase32String (List.mem_of_mem_take hc)

private theorem properEntries_sub {d : FileName} {files : Files} (hfiles : dir.lookup d = some files) :
    (properEntries (env.order d files.keys)).Perm files.keys := by
  refine properEntries_perm d ?_
  intro f hf
  have hsome : (dir.contents d f).isSome := by
    rw [Directory.contents_eq hfiles]
    exact AList.lookup_isSome.mpr (AList.mem_keys.mpr hf)
  obtain ⟨key, -, rfl⟩ := h.files d f hsome
  exact not_dotOrDotDot fun c hc => mem_chopBufferToBase32String (List.mem_of_mem_drop hc)

private theorem mem_subdirKeys {d : FileName} {key : Bytes} :
    key ∈ subdirKeys env dir d ↔ d = blockDir key ∧ (fsBlockMap dir key).isSome := by
  rw [subdirKeys]
  cases hfiles : dir.lookup d with
  | none =>
    refine ⟨fun hmem => (List.not_mem_nil hmem).elim, ?_⟩
    rintro ⟨rfl, hsome⟩
    rw [fsBlockMap, Directory.contents_eq_none hfiles] at hsome
    cases hsome
  | some files =>
    have hentry : ∀ f, f ∈ properEntries (env.order d files.keys) ↔ (dir.contents d f).isSome := by
      intro f
      rw [(properEntries_sub env h hfiles).mem_iff, Directory.contents_eq hfiles, AList.lookup_isSome,
        AList.mem_keys]
    rw [List.mem_map]
    constructor
    · rintro ⟨f, hf, hkey⟩
      have hsome := (hentry f).mp hf
      obtain ⟨key', rfl, rfl⟩ := h.files d f hsome
      rw [entryKey_block] at hkey
      subst hkey
      exact ⟨rfl, hsome⟩
    · rintro ⟨rfl, hsome⟩
      exact ⟨blockFile key, (hentry _).mpr hsome, entryKey_block env key⟩

private theorem nodup_subdirKeys (d : FileName) : (subdirKeys env dir d).Nodup := by
  rw [subdirKeys]
  cases hfiles : dir.lookup d with
  | none => exact List.nodup_nil
  | some files =>
    have hperm : (properEntries (env.order d files.keys)).Perm files.keys :=
      properEntries_sub env h hfiles
    have hblock : ∀ f ∈ properEntries (env.order d files.keys), ∃ key : Bytes, d = blockDir key ∧
        f = blockFile key := by
      intro f hf
      refine h.files d f ?_
      rw [Directory.contents_eq hfiles, AList.lookup_isSome, AList.mem_keys]
      exact hperm.mem_iff.mp hf
    refine List.Nodup.map_on ?_ (hperm.nodup_iff.mpr files.keys_nodup)
    intro f hf f' hf' hkey
    obtain ⟨key, hd, rfl⟩ := hblock f hf
    obtain ⟨key', hd', rfl⟩ := hblock f' hf'
    rw [hd, entryKey_block, ← hd, hd', entryKey_block] at hkey
    rw [hkey]

/-- All keys of a store, in the order of a traversal. -/
theorem nodup_traversal_keys :
    ((properEntries (env.listing dir)).flatMap (subdirKeys env dir)).Nodup := by
  have hnames : (properEntries (env.listing dir)).Nodup :=
    (properEntries_top env h).nodup_iff.mpr dir.keys_nodup
  refine List.nodup_flatMap.mpr ⟨fun d _ => nodup_subdirKeys env h d, ?_⟩
  refine hnames.imp ?_
  intro d d' hne key hkey hkey'
  exact hne (((mem_subdirKeys env h).mp hkey).1.trans ((mem_subdirKeys env h).mp hkey').1.symm)

theorem mem_traversal_keys {key : Bytes} :
    key ∈ (properEntries (env.listing dir)).flatMap (subdirKeys env dir) ↔
      (fsBlockMap dir key).isSome := by
  rw [List.mem_flatMap]
  constructor
  · rintro ⟨d, -, hkey⟩
    exact ((mem_subdirKeys env h).mp hkey).2
  · intro hsome
    refine ⟨blockDir key, ?_, (mem_subdirKeys env h).mpr ⟨rfl, hsome⟩⟩
    rw [(properEntries_top env h).mem_iff, ← AList.mem_keys]
    by_contra habsent
    rw [fsBlockMap, Directory.contents_eq_none (AList.lookup_eq_none.mpr habsent)] at hsome
    cases hsome

private theorem length_traversal_keys :
    ((properEntries (env.listing dir)).flatMap (subdirKeys env dir)).length = fileCount dir := by
  have hlength : ∀ entry ∈ dir.entries,
      (subdirKeys env dir entry.1).length = entry.2.entries.length := by
    intro entry hentry
    have hfiles : dir.lookup entry.1 = some entry.2 := AList.mem_lookup_iff.mpr hentry
    rw [subdirKeys, hfiles]
    show (List.map _ _).length = _
    rw [List.length_map, (properEntries_sub env h hfiles).length_eq, AList.keys, List.keys,
      List.length_map]
  have hkeys : dir.keys.map (fun d => (subdirKeys env dir d).length) =
      dir.entries.map fun entry => entry.2.entries.length := by
    rw [AList.keys, List.keys, List.map_map]
    exact List.map_congr_left hlength
  rw [List.length_flatMap, ((properEntries_top env h).map _).sum_nat, hkeys, fileCount]

private theorem chopFsFirstBlock_cons {d : FileName} {rest : List FileName}
    (hlisting : properEntries (env.listing dir) = d :: rest) {key : Bytes} {keys : List Bytes}
    (hkeys : subdirKeys env dir d = key :: keys) :
    ∃ it, chopFsFirstBlock env ⟨dir, none⟩ = .done (.ok (), it) ∧ it.key = key ∧
      upcomingKeys env dir it = keys ++ rest.flatMap (subdirKeys env dir) ∧ Reading env dir it := by
  have hopened : DirStream.remaining (env.listing dir) ⟨[], none⟩ = env.listing dir := rfl
  have hfuel : (DirStream.remaining (env.listing dir) ⟨[], none⟩).length <
      topFuel env dir ⟨[], none⟩ := Nat.lt_succ_self _
  obtain ⟨topDir, hread, hrest⟩ := readTopEntry_cons hfuel (hopened ▸ hlisting)
  have hmem : ∀ name ∈ d :: rest, name ∈ dir := by
    intro name hname
    rw [← hlisting, (properEntries_top env h).mem_iff] at hname
    exact AList.mem_keys.mpr hname
  obtain ⟨files, hfiles⟩ :=
    Option.isSome_iff_exists.mp (AList.lookup_isSome.mpr (hmem d List.mem_cons_self))
  rw [subdirKeys, hfiles] at hkeys
  obtain ⟨entry, entries, hentries, hkey, hkeys⟩ := List.map_eq_cons_iff.mp hkeys
  obtain ⟨unread, hentry, hunread⟩ := readEntry_cons hentries
  refine ⟨⟨topDir, some unread, d.take 2, entryKey env (d.take 2) entry, false, false⟩, ?_, hkey, ?_,
    rfl, rfl, ?_⟩
  · rw [chopFsFirstBlock]
    simp only [hread, Outcome.done_bind, hfiles, hentry]
  · rw [upcomingKeys, Option.getD_some, hunread, hrest, ← hkeys]
  · intro name hname
    rw [hrest] at hname
    exact hmem name (List.mem_cons_of_mem d hname)

private theorem chopFsFirstBlock_nil (hnone : ∀ key, fsBlockMap dir key = none) :
    ∃ it, chopFsFirstBlock env ⟨dir, none⟩ = .done (.error .storeEnd, it) := by
  have hopened : DirStream.remaining (env.listing dir) ⟨[], none⟩ = env.listing dir := rfl
  have hfuel : (DirStream.remaining (env.listing dir) ⟨[], none⟩).length <
      topFuel env dir ⟨[], none⟩ := Nat.lt_succ_self _
  cases hlisting : properEntries (env.listing dir) with
  | nil =>
    obtain ⟨topDir, hread⟩ := readTopEntry_nil hfuel (hopened ▸ hlisting)
    rw [chopFsFirstBlock]
    simp only [hread, Outcome.done_bind]
    exact ⟨_, rfl⟩
  | cons d rest =>
    obtain ⟨topDir, hread, -⟩ := readTopEntry_cons hfuel (hopened ▸ hlisting)
    have hd : d ∈ dir := by
      rw [AList.mem_keys, ← (properEntries_top env h).mem_iff, hlisting]
      exact List.mem_cons_self
    obtain ⟨files, hfiles⟩ := Option.isSome_iff_exists.mp (AList.lookup_isSome.mpr hd)
    have hempty : properEntries (env.order d files.keys) = [] := by
      rw [List.eq_nil_iff_forall_not_mem]
      intro f hf
      rw [(properEntries_sub env h hfiles).mem_iff, ← AList.mem_keys, ← AList.lookup_isSome,
        ← Directory.contents_eq hfiles] at hf
      obtain ⟨key, rfl, rfl⟩ := h.files d f hf
      have hkey : dir.contents (blockDir key) (blockFile key) = none := hnone key
      rw [hkey] at hf
      cases hf
    rw [chopFsFirstBlock]
    simp only [hread, Outcome.done_bind, hfiles, readEntry_nil hempty]
    exact ⟨_, rfl⟩

/-- A traversal from the start of the descriptor comes to every key once, provided that the first
sub-directory holds a block or that there is no block at all. -/
theorem chopFsTraverse_complete
    (hfirst : ∀ d, (properEntries (env.listing dir)).head? = some d →
      (∃ f, (dir.contents d f).isSome) ∨ ∀ key, fsBlockMap dir key = none) :
    ∃ keys store', chopFsTraverse env ⟨dir, none⟩ 0 =
        .done (.traversal keys [.error .storeEnd], store') ∧ store'.dir = dir ∧ keys.Nodup ∧
      ∀ key, key ∈ keys ↔ (fsBlockMap dir key).isSome := by
  by_cases hnone : ∀ key, fsBlockMap dir key = none
  · obtain ⟨it, hit⟩ := chopFsFirstBlock_nil env h hnone
    refine ⟨[], ⟨dir, it.topDir.unread⟩, ?_, rfl, List.nodup_nil, ?_⟩
    · simp only [chopFsTraverse, hit, Outcome.done_bind, Iteration.traverse, Iteration.nextAgain]
    · intro key
      simp [hnone key]
  · cases hlisting : properEntries (env.listing dir) with
    | nil =>
      refine absurd ?_ hnone
      intro key
      by_contra hsome
      have hmem := (mem_traversal_keys env h).mpr (Option.isSome_iff_ne_none.mpr hsome)
      rw [hlisting] at hmem
      exact List.not_mem_nil hmem
    | cons d rest =>
      have hfile : ∃ f, (dir.contents d f).isSome :=
        (hfirst d (by rw [hlisting]; rfl)).resolve_right hnone
      obtain ⟨f, hf⟩ := hfile
      obtain ⟨key₀, rfl, rfl⟩ := h.files d f hf
      have hkey₀ : key₀ ∈ subdirKeys env dir (blockDir key₀) := (mem_subdirKeys env h).mpr ⟨rfl, hf⟩
      cases hkeys : subdirKeys env dir (blockDir key₀) with
      | nil =>
        rw [hkeys] at hkey₀
        exact (List.not_mem_nil hkey₀).elim
      | cons key keys =>
        obtain ⟨it, hit, hkey, hupcoming, hreading⟩ := chopFsFirstBlock_cons env h hlisting hkeys
        have hall : it.key :: upcomingKeys env dir it =
            (properEntries (env.listing dir)).flatMap (subdirKeys env dir) := by
          rw [hkey, hupcoming, hlisting, List.flatMap_cons, hkeys, List.cons_append]
        have henumerates := chopFsNextBlock_enumerates hreading
        rw [hall] at henumerates
        obtain ⟨it', htraverse, -⟩ := Iteration.traverse_enumerates henumerates
          (Nat.lt_succ_of_le (length_traversal_keys env h).le)
        refine ⟨_, ⟨dir, it'.topDir.unread⟩, ?_, rfl, nodup_traversal_keys env h,
          fun key => mem_traversal_keys env h⟩
        simp only [chopFsTraverse, hit, Outcome.done_bind, htraverse, Iteration.nextAgain]

end Complete

end Libchop
