import Libchop.Framework.Directory
import Libchop.Indexer.Base32
import Libchop.Store.BlockMap

/-!
# The file-system store

`store-fs.c` keeps each block in a file named after its key in base32.  The first two characters
name a sub-directory, which is made when it is first needed and removed with its last block.
-/

namespace Libchop

/-- An `errno` value as an error code. -/
def Errno.toError (e : Errno) : ChopError := .code e.number

/-- `block_file_name`.  Its buffer is twice as long as the key, which is checked after the name was
written there. -/
def blockFileName (key : Bytes) : Outcome FileName :=
  let buffer := chopBufferToBase32String key
  Outcome.assert (2 < buffer.length) >>= fun _ =>
    Outcome.assert (buffer.length < key.length * 2 + 1) >>= fun _ =>
      .done (buffer.take 2 ++ slash :: buffer.drop 2)

/-- The system calls of a request that fail for reasons of their own. -/
structure IoFaults where
  /-- `openat`, before and after a sub-directory was made. -/
  openat : Bool → Option Nat
  mkdirat : Option Nat
  /-- How much is written before `write` fails. -/
  write : Option (Nat × Nat)
  unlinkat : Option Nat
  rmdir : Option Nat

def IoFaults.none : IoFaults := ⟨fun _ => .none, .none, .none, .none, .none⟩

/-- A system call that may fail before it does anything. -/
def orFault {α : Type} (fault : Option Nat) (call : Except Errno α) : Except Errno α :=
  match fault with
  | .none => call
  | some number => .error (.io number)

/-- The flags that were set, and how the loop ended. -/
def chopFsBlocksExist (dir : Directory) : List Bytes → Outcome (Status × List Bool)
  | [] => .done (.ok (), [])
  | key :: keys =>
    blockFileName key >>= fun fileName =>
      match dir.find fileName with
      | .ok _ =>
        chopFsBlocksExist dir keys >>= fun (err, exist) => .done (err, true :: exist)
      | .error .enoent =>
        chopFsBlocksExist dir keys >>= fun (err, exist) => .done (err, false :: exist)
      | .error e => .done (.error (Errno.toError e), [false])

/-- Read a file in pieces of 1024 bytes and append them to the buffer.  At the end of the file,
`full_read` returns nothing and clears `errno`. -/
def chopFsReadLoop : Nat → Bytes → Bytes → Nat → Outcome (Bytes × Nat)
  | 0, _, _, _ => .outOfFuel
  | fuel + 1, file, buffer, total =>
    let data := file.take 1024
    if 0 < data.length then
      chopFsReadLoop fuel (file.drop 1024) (buffer ++ data) (total + data.length)
    else .done (buffer, total)

def chopFsReadBlock (dir : Directory) (key buffer : Bytes) : Outcome (Status × Bytes × Nat) :=
  blockFileName key >>= fun fileName =>
    match dir.find fileName with
    | .error .enoent => .done (.error .storeBlockUnavail, buffer, 0)
    | .error e => .done (.error (Errno.toError e), buffer, 0)
    | .ok file =>
      chopFsReadLoop (file.length + 1) file buffer 0 >>= fun (buffer, total) =>
        .done (.ok (), buffer, total)

/-- `full_write` and the error code after it. -/
def fullWrite (faults : IoFaults) (dir : Directory) (fileName block : Bytes) : Status × Directory :=
  match faults.write with
  | .none => (.ok (), dir.write fileName block)
  | some (count, number) =>
    if count < block.length then (.error (.code number), dir.write fileName (block.take count))
    else (.ok (), dir.write fileName block)

/-- The attempts at opening the file.  After a sub-directory was made the file is not truncated. -/
def chopFsTryWrite (faults : IoFaults) (fileName block : Bytes) :
    Nat → Bool → Directory → Outcome (Status × Directory)
  | 0, _, _ => .outOfFuel
  | fuel + 1, newDir, dir =>
    match orFault (faults.openat newDir) (dir.create fileName) with
    | .ok dir =>
      let dir := if newDir then dir else dir.truncate fileName
      .done (fullWrite faults dir fileName block)
    | .error .enoent =>
      match orFault faults.mkdirat (dir.mkdir (dirname fileName)) with
      | .ok dir => chopFsTryWrite faults fileName block fuel true dir
      | .error .eexist => chopFsTryWrite faults fileName block fuel true dir
      | .error e => .done (.error (Errno.toError e), dir)
    | .error e => .done (.error (Errno.toError e), dir)

def chopFsWriteBlock (faults : IoFaults) (dir : Directory) (key block : Bytes) :
    Outcome (Status × Directory) :=
  blockFileName key >>= fun fileName => chopFsTryWrite faults fileName block 2 false dir

def chopFsDeleteBlock (faults : IoFaults) (dir : Directory) (key : Bytes) :
    Outcome (Status × Directory) :=
  blockFileName key >>= fun fileName =>
    match orFault faults.unlinkat (dir.unlink fileName) with
    | .error .enoent => .done (.error .storeBlockUnavail, dir)
    | .error e => .done (.error (Errno.toError e), dir)
    | .ok dir =>
      match orFault faults.rmdir (dir.rmdir (dirname fileName)) with
      | .ok dir => .done (.ok (), dir)
      | .error .enotempty | .error .eexist => .done (.ok (), dir)
      | .error e => .done (.error (Errno.toError e), dir)

def blockDir (key : Bytes) : FileName := (chopBufferToBase32String key).take 2

def blockFile (key : Bytes) : FileName := (chopBufferToBase32String key).drop 2

def FitsBuffer (key : Bytes) : Prop := 8 * ((key.length + 4) / 5) ≤ 2 * key.length

instance (key : Bytes) : Decidable (FitsBuffer key) := inferInstanceAs (Decidable (_ ≤ _))

theorem blockDir_append_blockFile (key : Bytes) :
    blockDir key ++ blockFile key = chopBufferToBase32String key := List.take_append_drop 2 _

theorem block_names_inj {key key' : Bytes} (hdir : blockDir key = blockDir key')
    (hfile : blockFile key = blockFile key') : key = key' := by
  apply chopBufferToBase32String_injective
  rw [← blockDir_append_blockFile, hdir, hfile, blockDir_append_blockFile]

theorem slash_notMem_blockDir (key : Bytes) : slash ∉ blockDir key := by
  intro h
  exact absurd (mem_chopBufferToBase32String (List.mem_of_mem_take h)) (by decide)

theorem slash_notMem_blockFile (key : Bytes) : slash ∉ blockFile key := by
  intro h
  exact absurd (mem_chopBufferToBase32String (List.mem_of_mem_drop h)) (by decide)

theorem blockFileName_of_fitsBuffer {key : Bytes} (hkey : key ≠ []) (h : FitsBuffer key) :
    blockFileName key = .done (blockDir key ++ slash :: blockFile key) := by
  have hpos : 0 < key.length := List.length_pos_of_ne_nil hkey
  have hlength := length_chopBufferToBase32String key
  rw [FitsBuffer] at h
  rw [blockFileName, Outcome.assert_of (by omega), Outcome.done_bind,
    Outcome.assert_of (by omega), Outcome.done_bind]
  rfl

theorem blockFileName_of_not_fitsBuffer {key : Bytes} (hkey : key ≠ []) (h : ¬ FitsBuffer key) :
    blockFileName key = .abort := by
  have hpos : 0 < key.length := List.length_pos_of_ne_nil hkey
  have hlength := length_chopBufferToBase32String key
  rw [FitsBuffer] at h
  rw [blockFileName, Outcome.assert_of (by omega), Outcome.done_bind,
    Outcome.assert_of_not (by omega), Outcome.abort_bind]

/-- The map a directory stands for. -/
def fsBlockMap (dir : Directory) : BlockMap := fun key => dir.contents (blockDir key) (blockFile key)

theorem fsBlockMap_updated {dir dir' : Directory} {key : Bytes} {data : Option Bytes}
    (h : ∀ d f, dir'.contents d f =
      if d = blockDir key ∧ f = blockFile key then data else dir.contents d f) :
    fsBlockMap dir' = Function.update (fsBlockMap dir) key data := by
  funext key'
  rw [fsBlockMap, h]
  by_cases hkey : key' = key
  · rw [hkey, if_pos ⟨rfl, rfl⟩, Function.update_self]
  · rw [if_neg (fun hnames => hkey (block_names_inj hnames.1 hnames.2)), Function.update_of_ne hkey,
      fsBlockMap]

private theorem chopFsReadLoop_eq {fuel : Nat} {file : Bytes} (hfuel : file.length < fuel)
    (buffer : Bytes) (total : Nat) :
    chopFsReadLoop fuel file buffer total = .done (buffer ++ file, total + file.length) := by
  induction fuel generalizing file buffer total with
  | zero => exact absurd hfuel (Nat.not_lt_zero _)
  | succ fuel ih =>
    rw [chopFsReadLoop]
    by_cases hfile : file = []
    · simp [hfile]
    · have hpos : 0 < file.length := List.length_pos_of_ne_nil hfile
      have hdata : 0 < (file.take 1024).length := by
        rw [List.length_take]
        omega
      have hdrop : (file.drop 1024).length < fuel := by
        rw [List.length_drop]
        omega
      simp only [hdata, if_true]
      rw [ih hdrop, List.append_assoc, List.take_append_drop, Nat.add_assoc, ← List.length_append,
        List.take_append_drop]

section Requests

variable {dir : Directory} {key : Bytes} (hkey : key ≠ []) (hbuffer : FitsBuffer key)
  (hname : (blockFile key).length ≤ nameMax)

include hkey hbuffer hname

theorem chopFsReadBlock_eq (buffer : Bytes) :
    chopFsReadBlock dir key buffer =
      match fsBlockMap dir key with
      | some block => .done (.ok (), buffer ++ block, block.length)
      | none => .done (.error .storeBlockUnavail, buffer, 0) := by
  rw [chopFsReadBlock, blockFileName_of_fitsBuffer hkey hbuffer, Outcome.done_bind,
    Directory.find_join (slash_notMem_blockDir key) hname, fsBlockMap]
  cases dir.contents (blockDir key) (blockFile key) with
  | none => rfl
  | some block => simp only [chopFsReadLoop_eq (Nat.lt_succ_self _), Outcome.done_bind, Nat.zero_add]

/-- A write leaves the block under its key and makes no difference elsewhere, but for the
sub-directory of the key. -/
theorem chopFsWriteBlock_eq (block : Bytes) :
    ∃ dir', chopFsWriteBlock .none dir key block = .done (.ok (), dir') ∧
      (∀ d f, dir'.contents d f =
        if d = blockDir key ∧ f = blockFile key then some block else dir.contents d f) ∧
      ∀ d, d ∈ dir' ↔ d = blockDir key ∨ d ∈ dir := by
  have hd := slash_notMem_blockDir key
  have hf := slash_notMem_blockFile key
  rw [chopFsWriteBlock, blockFileName_of_fitsBuffer hkey hbuffer, Outcome.done_bind]
  by_cases hdir : blockDir key ∈ dir
  · obtain ⟨created, hcreate⟩ := Directory.create_isOk hd hname hdir
    have hupdated := (Directory.create_updated hd hcreate).2
    have hwritten := (hupdated.modify hd fun _ => []).modify hd
      fun contents => block ++ contents.drop block.length
    rw [List.drop_nil, List.append_nil] at hwritten
    refine ⟨_, ?_, hwritten.contents, ?_⟩
    · rw [chopFsTryWrite]
      simp only [IoFaults.none, orFault, hcreate]
      rfl
    · intro d
      rw [hwritten.mem]
      exact ⟨.inr, fun h => h.elim (fun hself => hself ▸ hdir) id⟩
  · have hmem : blockDir key ∈ (dir.insert (blockDir key) ∅ : Directory) :=
      (AList.mem_insert dir).mpr (.inl rfl)
    obtain ⟨created, hcreate⟩ := Directory.create_isOk hd hname hmem
    have hupdated := (Directory.create_updated hd hcreate).2
    have hnone : dir.contents (blockDir key) (blockFile key) = none :=
      Directory.contents_eq_none (AList.lookup_eq_none.mpr hdir) _
    rw [Directory.contents_mkdir hdir, hnone, Option.getD_none] at hupdated
    have hwritten := hupdated.modify hd fun contents => block ++ contents.drop block.length
    rw [List.drop_nil, List.append_nil] at hwritten
    refine ⟨created.write (blockDir key ++ slash :: blockFile key) block, ?_, ?_, ?_⟩
    · rw [chopFsTryWrite]
      simp only [IoFaults.none, orFault, Directory.create_absent hd hdir, dirname_join hf,
        Directory.mkdir_absent hdir, chopFsTryWrite, hcreate]
      rfl
    · intro d f
      rw [← Directory.contents_mkdir hdir d f]
      exact hwritten.contents d f
    · intro d
      rw [← AList.mem_insert]
      exact hwritten.mem d

/-- Deleting a block takes it from under its key, and its sub-directory with it if nothing else is
there. -/
theorem chopFsDeleteBlock_bound (hbound : (fsBlockMap dir key).isSome) :
    ∃ dir', chopFsDeleteBlock .none dir key = .done (.ok (), dir') ∧
      (∀ d f, dir'.contents d f =
        if d = blockDir key ∧ f = blockFile key then none else dir.contents d f) ∧
      ∀ d, d ∈ dir' ↔ d ∈ dir ∧ (d = blockDir key → ∃ f, (dir'.contents d f).isSome) := by
  have hd := slash_notMem_blockDir key
  obtain ⟨block, hblock⟩ := Option.isSome_iff_exists.mp hbound
  have hfind : dir.find (blockDir key ++ slash :: blockFile key) = .ok block := by
    rw [Directory.find_join hd hname, show dir.contents _ _ = some block from hblock]
  obtain ⟨unlinked, hunlink⟩ := Directory.unlink_isOk hd hfind
  obtain ⟨hdir, hupdated⟩ := Directory.unlink_updated hd hunlink
  have hmem : blockDir key ∈ unlinked := (hupdated.mem _).mpr hdir
  rw [chopFsDeleteBlock, blockFileName_of_fitsBuffer hkey hbuffer, Outcome.done_bind]
  simp only [IoFaults.none, orFault, hunlink, dirname_join (slash_notMem_blockFile key)]
  cases Directory.rmdir_eq hmem with
  | inl hremoved =>
    obtain ⟨hempty, hrmdir⟩ := hremoved
    have hcontents : ∀ d f, Directory.contents (unlinked.erase (blockDir key)) d f =
        unlinked.contents d f := by
      intro d f
      rw [Directory.contents_erase]
      split
      · next hd' => rw [hd', hempty]
      · rfl
    refine ⟨unlinked.erase (blockDir key), by simp only [hrmdir], ?_, ?_⟩
    · intro d f
      rw [hcontents]
      exact hupdated.contents d f
    · intro d
      rw [AList.mem_erase, hupdated.mem]
      constructor
      · exact fun h => ⟨h.2, fun hself => (h.1 hself).elim⟩
      · intro h
        refine ⟨?_, h.1⟩
        intro hself
        obtain ⟨f, hsome⟩ := h.2 hself
        rw [hcontents, hself, hempty] at hsome
        cases hsome
  | inr hkept =>
    obtain ⟨hfile, hrmdir⟩ := hkept
    refine ⟨unlinked, by simp only [hrmdir], hupdated.contents, ?_⟩
    intro d
    rw [hupdated.mem]
    exact ⟨fun h => ⟨h, fun hself => hself ▸ hfile⟩, fun h => h.1⟩

theorem chopFsDeleteBlock_unbound (hunbound : fsBlockMap dir key = none) :
    chopFsDeleteBlock .none dir key = .done (.error .storeBlockUnavail, dir) := by
  have hfind : dir.find (blockDir key ++ slash :: blockFile key) = .error .enoent := by
    rw [Directory.find_join (slash_notMem_blockDir key) hname,
      show dir.contents _ _ = none from hunbound]
  rw [chopFsDeleteBlock, blockFileName_of_fitsBuffer hkey hbuffer, Outcome.done_bind]
  simp only [IoFaults.none, orFault, Directory.unlink_error hfind]

end Requests

theorem chopFsBlocksExist_eq (dir : Directory) {keys : List Bytes}
    (h : ∀ key ∈ keys, key ≠ [] ∧ FitsBuffer key ∧ (blockFile key).length ≤ nameMax) :
    chopFsBlocksExist dir keys =
      .done (.ok (), keys.map fun key => (fsBlockMap dir key).isSome) := by
  induction keys with
  | nil => rfl
  | cons key keys ih =>
    obtain ⟨hkey, hbuffer, hname⟩ := h key List.mem_cons_self
    have hkeys := ih fun key hmem => h key (List.mem_cons_of_mem _ hmem)
    rw [chopFsBlocksExist, blockFileName_of_fitsBuffer hkey hbuffer, Outcome.done_bind,
      Directory.find_join (slash_notMem_blockDir key) hname, List.map_cons, fsBlockMap]
    cases dir.contents (blockDir key) (blockFile key) with
    | none => simp only [hkeys, Outcome.done_bind, Option.isSome_none]
    | some block => simp only [hkeys, Outcome.done_bind, Option.isSome_some]

end Libchop
