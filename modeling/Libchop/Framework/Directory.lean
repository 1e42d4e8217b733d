import Mathlib.Data.List.AList
import Mathlib.Data.List.Perm.Basic

/-!
# A directory of directories

A directory whose entries are directories of regular files, and the system calls that work on a
path of at most two names.  Calls that fail leave everything as it was.
-/

/-- Why a system call failed; `io` is a failure that the directory does not account for. -/
inductive Errno where
  | enoent
  | eexist
  | enotempty
  | enametoolong
  | io (number : Nat)
deriving DecidableEq, Repr

def Errno.number : Errno → Nat
  | .enoent => 2
  | .eexist => 17
  | .enotempty => 39
  | .enametoolong => 36
  | .io number => number

abbrev FileName := List UInt8

/-- Regular files and their contents. -/
abbrev Files := AList fun _ : FileName => List UInt8

abbrev Directory := AList fun _ : FileName => Files

def slash : UInt8 := 47

def nameMax : Nat := 255

def splitPath (path : FileName) : FileName × FileName :=
  (path.takeWhile (· ≠ slash), (path.dropWhile (· ≠ slash)).tail)

def dirname (path : FileName) : FileName :=
  (path.reverse.dropWhile (· ≠ slash)).tail.reverse

theorem splitPath_join {d f : FileName} (h : slash ∉ d) : splitPath (d ++ slash :: f) = (d, f) := by
  have hd : ∀ c ∈ d, decide (c ≠ slash) = true :=
    fun c hc => decide_eq_true fun hslash => h (hslash ▸ hc)
  rw [splitPath, List.takeWhile_append_of_pos hd, List.dropWhile_append_of_pos hd]
  simp

theorem dirname_join {d f : FileName} (h : slash ∉ f) : dirname (d ++ slash :: f) = d := by
  have hf : ∀ c ∈ f.reverse, decide (c ≠ slash) = true :=
    fun c hc => decide_eq_true fun hslash => h (List.mem_reverse.mp (hslash ▸ hc))
  have hreverse : (d ++ slash :: f).reverse = f.reverse ++ slash :: d.reverse := by simp
  rw [dirname, hreverse, List.dropWhile_append_of_pos hf]
  simp

namespace Directory

def contents (dir : Directory) (d f : FileName) : Option (List UInt8) :=
  (dir.lookup d).bind fun files => files.lookup f

/-- `fstatat`, or `openat` for reading: the contents under a path. -/
def find (dir : Directory) (path : FileName) : Except Errno (List UInt8) :=
  match dir.lookup (splitPath path).1 with
  | none => .error .enoent
  | some files =>
    if nameMax < (splitPath path).2.length then .error .enametoolong
    else
      match files.lookup (splitPath path).2 with
      | none => .error .enoent
      | some contents => .ok contents

/-- `openat` with `O_CREAT`: the file exists afterwards. -/
def create (dir : Directory) (path : FileName) : Except Errno Directory :=
  match dir.lookup (splitPath path).1 with
  | none => .error .enoent
  | some files =>
    if nameMax < (splitPath path).2.length then .error .enametoolong
    else
      match files.lookup (splitPath path).2 with
      | none => .ok (dir.insert (splitPath path).1 (files.insert (splitPath path).2 []))
      | some _ => .ok dir

/-- Change the contents of a file that is open. -/
def modify (dir : Directory) (path : FileName) (change : List UInt8 → List UInt8) : Directory :=
  match dir.lookup (splitPath path).1 with
  | none => dir
  | some files =>
    match files.lookup (splitPath path).2 with
    | none => dir
    | some contents =>
      dir.insert (splitPath path).1 (files.insert (splitPath path).2 (change contents))

/-- `ftruncate` to nothing. -/
def truncate (dir : Directory) (path : FileName) : Directory := dir.modify path fun _ => []

/-- Write at the beginning of a file. -/
def write (dir : Directory) (path : FileName) (data : List UInt8) : Directory :=
  dir.modify path fun contents => data ++ contents.drop data.length

def mkdir (dir : Directory) (d : FileName) : Except Errno Directory :=
  if d ∈ dir then .error .eexist else .ok (dir.insert d ∅)

/-- `unlinkat` on a file. -/
def unlink (dir : Directory) (path : FileName) : Except Errno Directory :=
  match dir.find path with
  | .error e => .error e
  | .ok _ =>
    match dir.lookup (splitPath path).1 with
    | none => .error .enoent
    | some files => .ok (dir.insert (splitPath path).1 (files.erase (splitPath path).2))

/-- `unlinkat` with `AT_REMOVEDIR`. -/
def rmdir (dir : Directory) (d : FileName) : Except Errno Directory :=
  match dir.lookup d with
  | none => .error .enoent
  | some files => if files.entries = [] then .ok (dir.erase d) else .error .enotempty

/-- Every sub-directory has a file. -/
def NoEmpty (dir : Directory) : Prop := ∀ d ∈ dir, ∃ f, (dir.contents d f).isSome

theorem contents_eq {dir : Directory} {d : FileName} {files : Files} (h : dir.lookup d = some files)
    (f : FileName) : dir.contents d f = files.lookup f := by
  rw [contents, h, Option.bind_some]

theorem contents_eq_none {dir : Directory} {d : FileName} (h : dir.lookup d = none)
    (f : FileName) : dir.contents d f = none := by
  rw [contents, h, Option.bind_none]

theorem contents_insert (dir : Directory) (d : FileName) (files : Files) (d' f' : FileName) :
    contents (dir.insert d files) d' f' =
      if d' = d then files.lookup f' else dir.contents d' f' := by
  by_cases hd : d' = d
  · rw [if_pos hd, hd]
    exact contents_eq (AList.lookup_insert dir) f'
  · rw [if_neg hd, contents, contents, AList.lookup_insert_ne hd]

theorem contents_erase (dir : Directory) (d d' f' : FileName) :
    contents (dir.erase d) d' f' =
      if d' = d then none else dir.contents d' f' := by
  by_cases hd : d' = d
  · rw [if_pos hd, hd]
    exact contents_eq_none (AList.lookup_erase d dir) f'
  · rw [if_neg hd, contents, contents, AList.lookup_erase_ne hd]

/-- The second directory has the given contents in one file, and is the same elsewhere. -/
structure Updated (dir dir' : Directory) (d f : FileName) (data : Option (List UInt8)) : Prop where
  contents : ∀ d' f', dir'.contents d' f' = if d' = d ∧ f' = f then data else dir.contents d' f'
  mem : ∀ d', d' ∈ dir' ↔ d' ∈ dir

theorem Updated.refl {dir : Directory} {d f : FileName} {data : Option (List UInt8)}
    (h : dir.contents d f = data) : Updated dir dir d f data where
  contents := by
    intro d' f'
    split
    · next heq => rw [heq.1, heq.2, h]
    · rfl
  mem := fun _ => Iff.rfl

theorem Updated.contents_self {dir dir' : Directory} {d f : FileName} {data : Option (List UInt8)}
    (h : Updated dir dir' d f data) : dir'.contents d f = data := by
  rw [h.contents, if_pos ⟨rfl, rfl⟩]

theorem Updated.trans {dir dir' dir'' : Directory} {d f : FileName} {data data' : Option (List UInt8)}
    (h : Updated dir dir' d f data) (h' : Updated dir' dir'' d f data') :
    Updated dir dir'' d f data' where
  contents := by
    intro d' f'
    rw [h'.contents d' f', h.contents d' f']
    split
    · rfl
    · rfl
  mem := fun d' => (h'.mem d').trans (h.mem d')

theorem updated_insert {dir : Directory} {d : FileName} {files : Files}
    (h : dir.lookup d = some files) (f : FileName) (data : List UInt8) :
    Updated dir (dir.insert d (files.insert f data)) d f (some data) where
  contents := by
    intro d' f'
    rw [contents_insert]
    by_cases hd : d' = d
    · rw [if_pos hd]
      by_cases hf : f' = f
      · rw [if_pos ⟨hd, hf⟩, hf, AList.lookup_insert]
      · rw [if_neg (fun hboth => hf hboth.2), AList.lookup_insert_ne hf, hd, contents_eq h]
    · rw [if_neg hd, if_neg (fun hboth => hd hboth.1)]
  mem := by
    intro d'
    rw [AList.mem_insert]
    constructor
    · rintro (rfl | hmem)
      · exact AList.lookup_isSome.mp (by rw [h]; rfl)
      · exact hmem
    · exact .inr

section Calls

variable {dir dir' : Directory} {d f : FileName}

theorem find_join (hd : slash ∉ d) (hf : f.length ≤ nameMax) :
    dir.find (d ++ slash :: f) =
      match dir.contents d f with
      | none => .error .enoent
      | some contents => .ok contents := by
  rw [find, splitPath_join hd]
  cases hfiles : dir.lookup d with
  | none => simp only [contents_eq_none hfiles]
  | some files => simp only [contents_eq hfiles, if_neg (Nat.not_lt.mpr hf)]

theorem create_absent (hd : slash ∉ d) (h : d ∉ dir) :
    dir.create (d ++ slash :: f) = .error .enoent := by
  rw [create, splitPath_join hd, AList.lookup_eq_none.mpr h]

theorem create_isOk (hd : slash ∉ d) (hf : f.length ≤ nameMax) (h : d ∈ dir) :
    ∃ dir', dir.create (d ++ slash :: f) = .ok dir' := by
  obtain ⟨files, hfiles⟩ := Option.isSome_iff_exists.mp (AList.lookup_isSome.mpr h)
  rw [create, splitPath_join hd]
  simp only [hfiles, if_neg (Nat.not_lt.mpr hf)]
  split
  · exact ⟨_, rfl⟩
  · exact ⟨dir, rfl⟩

theorem create_updated (hd : slash ∉ d) (h : dir.create (d ++ slash :: f) = .ok dir') :
    d ∈ dir ∧ Updated dir dir' d f (some ((dir.contents d f).getD [])) := by
  rw [create, splitPath_join hd] at h
  cases hfiles : dir.lookup d with
  | none =>
    rw [hfiles] at h
    cases h
  | some files =>
    refine ⟨AList.lookup_isSome.mp (by rw [hfiles]; rfl), ?_⟩
    simp only [hfiles] at h
    split at h
    · cases h
    · cases hcontents : files.lookup f with
      | none =>
        simp only [hcontents, Except.ok.injEq] at h
        rw [← h, contents_eq hfiles, hcontents]
        exact updated_insert hfiles f []
      | some data =>
        simp only [hcontents, Except.ok.injEq] at h
        rw [← h, contents_eq hfiles, hcontents]
        exact .refl (by rw [contents_eq hfiles, hcontents]; rfl)

theorem modify_updated (hd : slash ∉ d) (change : List UInt8 → List UInt8) :
    Updated dir (dir.modify (d ++ slash :: f) change) d f ((dir.contents d f).map change) := by
  rw [modify, splitPath_join hd]
  cases hfiles : dir.lookup d with
  | none => exact .refl (by rw [contents_eq_none hfiles]; rfl)
  | some files =>
    rw [contents_eq hfiles]
    cases hcontents : files.lookup f with
    | none =>
      simp only [hcontents]
      exact .refl (by rw [contents_eq hfiles, hcontents]; rfl)
    | some data =>
      simp only [hcontents]
      exact updated_insert hfiles f (change data)

/-- Change what an update left in the file. -/
theorem Updated.modify (hd : slash ∉ d) {data : List UInt8} (h : Updated dir dir' d f (some data))
    (change : List UInt8 → List UInt8) :
    Updated dir (dir'.modify (d ++ slash :: f) change) d f (some (change data)) := by
  have hmodify : Updated dir' (dir'.modify (d ++ slash :: f) change) d f
      ((dir'.contents d f).map change) := modify_updated hd change
  rw [h.contents_self, Option.map_some] at hmodify
  exact h.trans hmodify

theorem unlink_error {e : Errno} (h : dir.find (d ++ slash :: f) = .error e) :
    dir.unlink (d ++ slash :: f) = .error e := by
  rw [unlink, h]

theorem unlink_isOk (hd : slash ∉ d) {data : List UInt8}
    (h : dir.find (d ++ slash :: f) = .ok data) : ∃ dir', dir.unlink (d ++ slash :: f) = .ok dir' := by
  rw [unlink, h, splitPath_join hd]
  rw [find, splitPath_join hd] at h
  cases hfiles : dir.lookup d with
  | none =>
    rw [hfiles] at h
    cases h
  | some files => exact ⟨_, rfl⟩

theorem unlink_updated (hd : slash ∉ d) (h : dir.unlink (d ++ slash :: f) = .ok dir') :
    d ∈ dir ∧ Updated dir dir' d f none := by
  rw [unlink, splitPath_join hd] at h
  split at h
  · cases h
  · cases hfiles : dir.lookup d with
    | none =>
      rw [hfiles] at h
      cases h
    | some files =>
      have hmem : d ∈ dir := AList.lookup_isSome.mp (by rw [hfiles]; rfl)
      simp only [hfiles, Except.ok.injEq] at h
      rw [← h]
      refine ⟨hmem, ?_, ?_⟩
      · intro d' f'
        rw [contents_insert]
        by_cases hdd : d' = d
        · rw [if_pos hdd]
          by_cases hff : f' = f
          · rw [if_pos ⟨hdd, hff⟩, hff, AList.lookup_erase]
          · rw [if_neg (fun hboth => hff hboth.2), AList.lookup_erase_ne hff, hdd,
              contents_eq hfiles]
        · rw [if_neg hdd, if_neg (fun hboth => hdd hboth.1)]
      · intro d'
        rw [AList.mem_insert]
        constructor
        · rintro (rfl | hd')
          · exact hmem
          · exact hd'
        · exact .inr

theorem mkdir_absent (h : d ∉ dir) : dir.mkdir d = .ok (dir.insert d ∅) := by
  rw [mkdir, if_neg h]

theorem contents_mkdir (h : d ∉ dir) (d' f' : FileName) :
    contents (dir.insert d ∅) d' f' = dir.contents d' f' := by
  rw [contents_insert]
  split
  · next hd =>
    rw [hd, contents_eq_none (AList.lookup_eq_none.mpr h)]
    rfl
  · rfl

theorem rmdir_eq_ok (h : dir.rmdir d = .ok dir') : dir' = dir.erase d := by
  rw [rmdir] at h
  split at h
  · cases h
  · split at h
    · cases h
      rfl
    · cases h

/-- A directory is removed just when it has no file. -/
theorem rmdir_eq (h : d ∈ dir) :
    ((∀ f, dir.contents d f = none) ∧ dir.rmdir d = .ok (dir.erase d)) ∨
      ((∃ f, (dir.contents d f).isSome) ∧ dir.rmdir d = .error .enotempty) := by
  obtain ⟨files, hfiles⟩ := Option.isSome_iff_exists.mp (AList.lookup_isSome.mpr h)
  rw [rmdir, hfiles]
  by_cases hempty : files.entries = []
  · refine .inl ⟨?_, if_pos hempty⟩
    intro f
    rw [contents_eq hfiles, AList.lookup_eq_none, AList.mem_keys, AList.keys, hempty]
    exact List.not_mem_nil
  · refine .inr ⟨?_, if_neg hempty⟩
    obtain ⟨⟨f, data⟩, hentry⟩ := List.exists_mem_of_ne_nil _ hempty
    refine ⟨f, ?_⟩
    rw [contents_eq hfiles, AList.lookup_isSome, AList.mem_keys]
    exact List.mem_map_of_mem hentry

end Calls

end Directory

/-- An open directory.  Entries are read ahead; how far is a matter of the file description, which
a duplicated descriptor shares.  It is at the start as long as nothing was read. -/
structure DirStream where
  buffered : List FileName
  unread : Option (List FileName)
deriving DecidableEq, Repr

namespace DirStream

/-- The next entry of a directory with the given listing. -/
def readdir (ahead : Nat) (listing : List FileName) (stream : DirStream) :
    Option FileName × DirStream :=
  match stream.buffered with
  | name :: buffered => (some name, ⟨buffered, stream.unread⟩)
  | [] =>
    match stream.unread.getD listing with
    | [] => (none, ⟨[], some []⟩)
    | name :: unread => (some name, ⟨unread.take ahead, some (unread.drop ahead)⟩)

/-- The entries a stream still comes to. -/
def remaining (listing : List FileName) (stream : DirStream) : List FileName :=
  stream.buffered ++ stream.unread.getD listing

theorem readdir_nil {listing : List FileName} {stream : DirStream}
    (h : stream.remaining listing = []) (ahead : Nat) :
    stream.readdir ahead listing = (none, ⟨[], some []⟩) := by
  obtain ⟨hbuffered, hunread⟩ := List.append_eq_nil_iff.mp h
  rw [readdir, hbuffered, hunread]

theorem readdir_cons {listing rest : List FileName} {name : FileName} {stream : DirStream}
    (h : stream.remaining listing = name :: rest) (ahead : Nat) :
    ∃ stream', stream.readdir ahead listing = (some name, stream') ∧
      stream'.remaining listing = rest := by
  obtain ⟨buffered, unread⟩ := stream
  cases buffered with
  | nil =>
    have hunread : unread.getD listing = name :: rest := h
    refine ⟨⟨rest.take ahead, some (rest.drop ahead)⟩, ?_, List.take_append_drop ahead rest⟩
    simp only [readdir, hunread]
  | cons first buffered =>
    have hcons : first :: (buffered ++ unread.getD listing) = name :: rest := h
    cases hcons
    exact ⟨⟨buffered, unread⟩, rfl, rfl⟩

end DirStream
