import Libchop.Store.BerkeleyDb
import Mathlib.Algebra.Group.Int.Defs

/-!
# The stores on GDBM, TDB and QDBM

`store-generic-db.c` is a template over the functions of a database library.  These libraries have no
cursors: an iterator holds a key, from which the library finds the next one.
-/

namespace Libchop

/-- A `datum`, whose size may be signed. -/
structure Datum where
  dptr : Bytes
  dsize : Int
deriving DecidableEq, Repr

def Datum.content (datum : Datum) : Bytes := datum.dptr.take datum.dsize.toNat

/-- The functions of a database library, and what `dsize` becomes when a size is assigned to it.  Statuses
are zero on success, and a null pointer is `none`. -/
structure DbLibrary (δ : Type) where
  dsize : Nat → Int
  exist : δ → Datum → Bool
  read : δ → Datum → Option Bytes
  write : δ → Datum → Datum → Int × δ
  delete : δ → Datum → Int × δ
  firstKey : δ → Option Bytes
  nextKey : δ → Datum → Option Bytes
  sync : δ → δ

/-- An `int` that is assigned a size. -/
def intSize (n : Nat) : Int :=
  if n % 2 ^ 32 < 2 ^ 31 then (n % 2 ^ 32 : Nat) else (n % 2 ^ 32 : Nat) - 2 ^ 32

/-- A block iterator that was initialized.  Its key was freed at the end. -/
structure DbBlockIterator where
  nil : Bool
  key : Bytes
deriving DecidableEq, Repr

variable {δ : Type}

section Methods

variable (lib : DbLibrary δ)

/-- `CHOP_KEY_TO_DB`, and what is done with a block. -/
def chopKeyToDb (bytes : Bytes) : Datum := ⟨bytes, lib.dsize bytes.length⟩

def dbBlocksExist (keys : List Bytes) (db : δ) : Status × List Bool :=
  (.ok (), keys.map fun key => lib.exist db (chopKeyToDb lib key))

/-- The buffer is pushed the content in place of what it holds. -/
def dbReadBlock (key buffer : Bytes) (db : δ) : Status × Bytes × Nat :=
  match lib.read db (chopKeyToDb lib key) with
  | none => (.error .storeBlockUnavail, buffer, 0)
  | some content => (.ok (), content, content.length)

def dbWriteBlock (key block : Bytes) (db : δ) : Status × δ :=
  let result := lib.write db (chopKeyToDb lib key) (chopKeyToDb lib block)
  (if result.1 = 0 then .ok () else .error .storeError, result.2)

def dbDeleteBlock (key : Bytes) (db : δ) : Status × δ :=
  let result := lib.delete db (chopKeyToDb lib key)
  (if result.1 = 0 then .ok () else .error .storeBlockUnavail, result.2)

/-- The iterator is initialized if there is a key. -/
def dbFirstBlock (db : δ) : Status × Option DbBlockIterator :=
  match lib.firstKey db with
  | some key => (.ok (), some ⟨false, key⟩)
  | none => (.error .storeEnd, none)

def dbItNext (db : δ) (it : DbBlockIterator) : Status × DbBlockIterator :=
  if it.nil then (.error .storeEnd, it)
  else
    match lib.nextKey db (chopKeyToDb lib it.key) with
    | some key => (.ok (), ⟨false, key⟩)
    | none => (.error .storeEnd, ⟨true, []⟩)

def dbSync (db : δ) : Status × δ := (.ok (), lib.sync db)

end Methods

/-- The methods of an open store. -/
structure DbBlockStore (δ : Type) where
  blocksExist : List Bytes → δ → Status × List Bool
  readBlock : Bytes → Bytes → δ → Status × Bytes × Nat
  writeBlock : Bytes → Bytes → δ → Status × δ
  deleteBlock : Bytes → δ → Status × δ
  firstBlock : δ → Status × Option DbBlockIterator
  itNext : δ → DbBlockIterator → Status × DbBlockIterator
  sync : δ → Status × δ

def dbBlockStore (lib : DbLibrary δ) : DbBlockStore δ where
  blocksExist := dbBlocksExist lib
  readBlock := dbReadBlock lib
  writeBlock := dbWriteBlock lib
  deleteBlock := dbDeleteBlock lib
  firstBlock := dbFirstBlock lib
  itNext := dbItNext lib
  sync := dbSync lib

def chopGdbmStoreOpen (gdbm : DbLibrary δ) : DbBlockStore δ := dbBlockStore { gdbm with dsize := intSize }

/-- TDB has sizes without a sign and no function to synchronize. -/
def chopTdbStoreOpen (tdb : DbLibrary δ) : DbBlockStore δ :=
  dbBlockStore { tdb with dsize := Int.ofNat, sync := id }

/-- The interface of QDBM that is compatible with GDBM. -/
def chopQdbmStoreOpen (qdbm : DbLibrary δ) : DbBlockStore δ := dbBlockStore qdbm

inductive DbRequest where
  | store (request : StoreRequest)
  | sync
deriving DecidableEq, Repr

def DbRequest.data : DbRequest → List Bytes
  | .store request => request.data
  | .sync => []

section Clients

variable (store : DbBlockStore δ)

def dbStep (fuel : Nat) (db : δ) : DbRequest → Outcome (StoreReply × δ)
  | .store (.writeBlock key block) =>
    .done (.status (store.writeBlock key block db).1, (store.writeBlock key block db).2)
  | .store (.readBlock key) => .done (.ofRead (store.readBlock key [] db), db)
  | .store (.deleteBlock key) =>
    .done (.status (store.deleteBlock key db).1, (store.deleteBlock key db).2)
  | .store (.blocksExist keys) =>
    .done (.flags (store.blocksExist keys db).1 (store.blocksExist keys db).2, db)
  | .store (.traverse again) =>
    traversalReply (fun it => .done (store.itNext db it)) DbBlockIterator.key fuel again
      (store.firstBlock db) >>= fun reply => .done (reply, db)
  | .sync => .done (.status (store.sync db).1, (store.sync db).2)

end Clients

/-- A size that `dsize` can hold. -/
def DbLibrary.FitsSize (lib : DbLibrary δ) (n : Nat) : Prop := lib.dsize n = n

/-- In GDBM these are the sizes below `2 ^ 31`. -/
theorem DbLibrary.fitsSize_int_iff {lib : DbLibrary δ} (h : lib.dsize = intSize) {n : Nat} :
    lib.FitsSize n ↔ n < 2 ^ 31 := by
  rw [FitsSize, h, intSize]
  split <;> omega

def DbLibrary.Valid (lib : DbLibrary δ) (datum : Datum) : Prop :=
  ∃ n : Nat, datum.dsize = n ∧ lib.FitsSize n

/-- What the manual of such a library says.  The pairs of a database form a map, in which a pair is
stored as a whole or not at all, and its keys have an order of their own. -/
structure DbLibrary.Documented (lib : DbLibrary δ) (pairs : δ → BlockMap) (order : δ → List Bytes) :
    Prop where
  fits : ∀ db key block, pairs db key = some block → lib.FitsSize key.length ∧ lib.FitsSize block.length
  exist : ∀ db key, lib.Valid key → lib.exist db key = (pairs db key.content).isSome
  read : ∀ db key, lib.Valid key → lib.read db key = pairs db key.content
  write : ∀ db key data, lib.Valid key → lib.Valid data →
    ((lib.write db key data).1 = 0 ∧
      pairs (lib.write db key data).2 = Function.update (pairs db) key.content (some data.content)) ∨
    ((lib.write db key data).1 ≠ 0 ∧ pairs (lib.write db key data).2 = pairs db)
  delete_present : ∀ db key, lib.Valid key → (pairs db key.content).isSome →
    (lib.delete db key).1 = 0 ∧
      pairs (lib.delete db key).2 = Function.update (pairs db) key.content none
  delete_absent : ∀ db key, lib.Valid key → pairs db key.content = none →
    (lib.delete db key).1 ≠ 0 ∧ pairs (lib.delete db key).2 = pairs db
  nodup : ∀ db, (order db).Nodup
  mem : ∀ db key, key ∈ order db ↔ (pairs db key).isSome
  firstKey : ∀ db, lib.firstKey db = (order db).head?
  nextKey : ∀ db before key after, lib.Valid key → order db = before ++ key.content :: after →
    lib.nextKey db key = after.head?
  sync : ∀ db, pairs (lib.sync db) = pairs db

/-- The reply of the map to a request to the store, which does not change it when it is synchronized. -/
def BlockMap.RepliesToDb (m : BlockMap) : DbRequest → StoreReply → BlockMap → Prop
  | .store request, reply, m' => m.RepliesOrFails request reply m'
  | .sync, reply, m' => reply = .status (.ok ()) ∧ m' = m

section Proof

variable {lib : DbLibrary δ} {pairs : δ → BlockMap} {order : δ → List Bytes}

def DbBlockIterator.Ended (it : DbBlockIterator) : Prop := it.nil = true

private theorem dbItNext_ended (db : δ) {it : DbBlockIterator} (h : it.Ended) :
    dbItNext lib db it = (.error .storeEnd, it) := by
  rw [DbBlockIterator.Ended] at h
  rw [dbItNext, if_pos h]

theorem DbLibrary.Documented.without_sync (h : lib.Documented pairs order) :
    { lib with sync := id }.Documented pairs order :=
  { h with sync := fun _ => rfl }

theorem chopGdbmStoreOpen_eq (hdsize : lib.dsize = intSize) : chopGdbmStoreOpen lib = dbBlockStore lib := by
  rw [chopGdbmStoreOpen, ← hdsize]

theorem chopTdbStoreOpen_eq (hdsize : lib.dsize = Int.ofNat) :
    chopTdbStoreOpen lib = dbBlockStore { lib with sync := id } := by
  rw [chopTdbStoreOpen, ← hdsize]

theorem chopKeyToDb_valid {bytes : Bytes} (hfits : lib.FitsSize bytes.length) :
    lib.Valid (chopKeyToDb lib bytes) ∧ (chopKeyToDb lib bytes).content = bytes := by
  have hsize : lib.dsize bytes.length = bytes.length := hfits
  refine ⟨⟨bytes.length, hsize, hfits⟩, ?_⟩
  rw [Datum.content, chopKeyToDb, hsize, Int.toNat_natCast, List.take_length]

variable (h : lib.Documented pairs order)

include h

theorem dbReadBlock_eq {key : Bytes} (hkey : lib.FitsSize key.length) (buffer : Bytes) (db : δ) :
    dbReadBlock lib key buffer db =
      match pairs db key with
      | some block => (.ok (), block, block.length)
      | none => (.error .storeBlockUnavail, buffer, 0) := by
  obtain ⟨hvalid, hcontent⟩ := chopKeyToDb_valid hkey
  rw [dbReadBlock, h.read db _ hvalid, hcontent]
  cases pairs db key with
  | none => rfl
  | some block => rfl

theorem dbWriteBlock_cases {key block : Bytes} (hkey : lib.FitsSize key.length)
    (hblock : lib.FitsSize block.length) (db : δ) :
    ((dbWriteBlock lib key block db).1 = .ok () ∧
      pairs (dbWriteBlock lib key block db).2 = Function.update (pairs db) key (some block)) ∨
    ((dbWriteBlock lib key block db).1 = .error .storeError ∧
      pairs (dbWriteBlock lib key block db).2 = pairs db) := by
  obtain ⟨hvalid, hcontent⟩ := chopKeyToDb_valid hkey
  obtain ⟨hvalid', hcontent'⟩ := chopKeyToDb_valid hblock
  have hwrite := h.write db _ _ hvalid hvalid'
  rw [hcontent, hcontent'] at hwrite
  rcases hwrite with ⟨hzero, hpairs⟩ | ⟨hnonzero, hpairs⟩
  · exact .inl ⟨by rw [dbWriteBlock, if_pos hzero], hpairs⟩
  · exact .inr ⟨by rw [dbWriteBlock, if_neg hnonzero], hpairs⟩

theorem dbDeleteBlock_cases {key : Bytes} (hkey : lib.FitsSize key.length) (db : δ) :
    ((pairs db key).isSome = true ∧ (dbDeleteBlock lib key db).1 = .ok () ∧
      pairs (dbDeleteBlock lib key db).2 = Function.update (pairs db) key none) ∨
    ((pairs db key).isSome = false ∧ (dbDeleteBlock lib key db).1 = .error .storeBlockUnavail ∧
      pairs (dbDeleteBlock lib key db).2 = pairs db) := by
  obtain ⟨hvalid, hcontent⟩ := chopKeyToDb_valid hkey
  have hpresent := h.delete_present db _ hvalid
  have habsent := h.delete_absent db _ hvalid
  rw [hcontent] at hpresent habsent
  cases hpair : pairs db key with
  | some block =>
    obtain ⟨hzero, hpairs⟩ := hpresent (by rw [hpair]; rfl)
    exact .inl ⟨rfl, by rw [dbDeleteBlock, if_pos hzero], hpairs⟩
  | none =>
    obtain ⟨hnonzero, hpairs⟩ := habsent hpair
    exact .inr ⟨rfl, by rw [dbDeleteBlock, if_neg hnonzero], hpairs⟩

/-- The key after one that the database has. -/
theorem dbNextKey_eq {db : δ} {before after : List Bytes} {key : Bytes}
    (horder : order db = before ++ key :: after) :
    lib.nextKey db (chopKeyToDb lib key) = after.head? := by
  have hmem : key ∈ order db := by
    rw [horder]
    exact List.mem_append_right before (List.mem_cons_self ..)
  obtain ⟨block, hblock⟩ := Option.isSome_iff_exists.mp ((h.mem db key).mp hmem)
  obtain ⟨hvalid, hcontent⟩ := chopKeyToDb_valid (h.fits db key block hblock).1
  exact h.nextKey db before _ after hvalid (by rw [hcontent]; exact horder)

private theorem dbItNext_enumerates (db : δ) (before : List Bytes) (key : Bytes)
    (after : List Bytes) (horder : order db = before ++ key :: after) :
    Iteration.Enumerates (fun it => .done (dbItNext lib db it)) DbBlockIterator.key
      ChopError.storeEnd DbBlockIterator.Ended (.ok (), ⟨false, key⟩) (key :: after) := by
  have hnext := dbNextKey_eq h horder
  induction after generalizing before key with
  | nil =>
    refine ⟨rfl, rfl, (.error .storeEnd, ⟨true, []⟩), ?_, rfl, rfl⟩
    rw [List.head?_nil] at hnext
    simp only [dbItNext, Bool.false_eq_true, if_false, hnext]
  | cons next after ih =>
    refine ⟨rfl, rfl, (.ok (), ⟨false, next⟩), ?_, ?_⟩
    · rw [List.head?_cons] at hnext
      simp only [dbItNext, Bool.false_eq_true, if_false, hnext]
    · have hafter : order db = (before ++ [key]) ++ next :: after := by
        rw [horder, List.append_assoc, List.singleton_append]
      exact ih (before ++ [key]) next hafter (dbNextKey_eq h hafter)

/-- The first key, and those after it. -/
theorem dbFirstBlock_enumerates (db : δ) :
    (order db = [] ∧ dbFirstBlock lib db = (.error .storeEnd, none)) ∨
      ∃ it, dbFirstBlock lib db = (.ok (), some it) ∧
        Iteration.Enumerates (fun it => .done (dbItNext lib db it)) DbBlockIterator.key
          ChopError.storeEnd DbBlockIterator.Ended (.ok (), it) (order db) := by
  cases horder : order db with
  | nil =>
    have hfirst := h.firstKey db
    rw [horder, List.head?_nil] at hfirst
    exact .inl ⟨rfl, by rw [dbFirstBlock, hfirst]⟩
  | cons key after =>
    have hfirst := h.firstKey db
    rw [horder, List.head?_cons] at hfirst
    refine .inr ⟨⟨false, key⟩, by rw [dbFirstBlock, hfirst], ?_⟩
    exact dbItNext_enumerates h db [] key after horder

private theorem dbStep_traverse (db : δ) (again : Nat) :
    Outcome.Settles (fun fuel => dbStep (dbBlockStore lib) fuel db (.store (.traverse again)))
      (.traversal (order db) (List.replicate (again + 1) (.error .storeEnd)), db) := by
  rcases dbFirstBlock_enumerates h db with ⟨hempty, hfirst⟩ | ⟨it, hfirst, henumerates⟩
  · refine .of_eq fun fuel => ?_
    simp only [dbStep, dbBlockStore, hfirst, hempty, traversalReply, Outcome.done_bind]
  · have hended (it : DbBlockIterator) (hit : it.Ended) :
        Outcome.done (dbItNext lib db it) = .done (.error .storeEnd, it) :=
      congrArg Outcome.done (dbItNext_ended db hit)
    have htraversal := traversalReply_enumerates hended henumerates again
    rw [← hfirst] at htraversal
    exact htraversal.bind (.of_eq fun _ => rfl)

private theorem dbStep_replies (m : BlockMap) (db : δ) (request : DbRequest) (hm : m = pairs db)
    (hsizes : ∀ bytes ∈ request.data, lib.FitsSize bytes.length) :
    ∃ reply db' m', Outcome.Settles (fun fuel => dbStep (dbBlockStore lib) fuel db request)
        (reply, db') ∧ m.RepliesToDb request reply m' ∧ m' = pairs db' := by
  subst hm
  cases request with
  | sync => exact ⟨_, _, _, .of_eq fun _ => rfl, ⟨rfl, h.sync db⟩, rfl⟩
  | store request =>
    cases request with
    | writeBlock key block =>
      obtain ⟨hkey, hsizes⟩ := List.forall_mem_cons.mp hsizes
      have hblock := List.forall_mem_singleton.mp hsizes
      refine ⟨_, _, _, .of_eq fun _ => rfl, ?_, rfl⟩
      rcases dbWriteBlock_cases h hkey hblock db with ⟨hok, hpairs⟩ | ⟨herr, hpairs⟩
      · exact .inl ⟨congrArg StoreReply.status hok, hpairs⟩
      · exact .inr ⟨key, block, rfl, congrArg StoreReply.status herr, hpairs⟩
    | readBlock key =>
      have hkey : lib.FitsSize key.length := hsizes key (List.mem_singleton_self key)
      have hread : (dbBlockStore lib).readBlock key [] db = _ := dbReadBlock_eq h hkey [] db
      refine ⟨_, db, _, .of_eq fun _ => rfl, .inl ⟨rfl, ?_⟩, rfl⟩
      rw [hread]
      cases pairs db key with
      | none => rfl
      | some block => rfl
    | deleteBlock key =>
      have hkey : lib.FitsSize key.length := hsizes key (List.mem_singleton_self key)
      refine ⟨_, _, _, .of_eq fun _ => rfl, .inl ?_, rfl⟩
      rw [BlockMap.Replies]
      rcases dbDeleteBlock_cases h hkey db with
        ⟨hpresent, hok, hpairs⟩ | ⟨habsent, herr, hpairs⟩
      · rw [if_pos hpresent]
        exact ⟨congrArg StoreReply.status hok, hpairs⟩
      · rw [habsent, if_neg Bool.false_ne_true]
        exact ⟨congrArg StoreReply.status herr, hpairs⟩
    | blocksExist keys =>
      refine ⟨_, db, _, .of_eq fun _ => rfl, .inl ⟨rfl, ?_⟩, rfl⟩
      refine congrArg (StoreReply.flags (.ok ())) (List.map_congr_left fun key hkey => ?_)
      obtain ⟨hvalid, hcontent⟩ := chopKeyToDb_valid (hsizes key hkey)
      rw [h.exist db _ hvalid, hcontent]
    | traverse again =>
      exact ⟨_, db, _, dbStep_traverse h db again,
        .inl ⟨rfl, order db, h.nodup db, h.mem db, rfl⟩, rfl⟩

theorem dbRun_replies (db : δ) {requests : List DbRequest}
    (hsizes : ∀ request ∈ requests, ∀ bytes ∈ request.data, lib.FitsSize bytes.length) :
    ∃ replies db', Outcome.Settles
        (fun fuel => Refinement.run (dbStep (dbBlockStore lib) fuel) db requests) (replies, db') ∧
      Refinement.Allows BlockMap.RepliesToDb (pairs db) requests replies (pairs db') := by
  have hmeets : Refinement.Meets (dbStep (dbBlockStore lib))
      (fun _ request => ∀ bytes ∈ request.data, lib.FitsSize bytes.length) db requests :=
    Refinement.Meets.of_forall (R := fun m db => m = pairs db) (dbStep_replies h)
      (fun _ _ _ hrequest _ => hrequest) rfl hsizes
  obtain ⟨replies, db', m', hrun, hallows, rfl⟩ :=
    Refinement.run_settles (R := fun m db => m = pairs db) (dbStep_replies h) (m := pairs db) rfl hmeets
  exact ⟨replies, db', hrun, hallows⟩

end Proof

/-- Each of the three stores replies as a finite map does, in every run on any database, if the sizes of the
keys and blocks fit in a `datum`.  Only a write may fail, which then changes nothing. -/
theorem genericDbStores_refine_blockMap {lib : DbLibrary δ} {pairs : δ → BlockMap}
    {order : δ → List Bytes} (h : lib.Documented pairs order) {store : DbBlockStore δ}
    (hstore : (lib.dsize = intSize ∧ store = chopGdbmStoreOpen lib) ∨
      (lib.dsize = Int.ofNat ∧ store = chopTdbStoreOpen lib) ∨ store = chopQdbmStoreOpen lib)
    (db : δ) {requests : List DbRequest}
    (hsizes : ∀ request ∈ requests, ∀ bytes ∈ request.data, lib.FitsSize bytes.length) :
    (∃ replies db',
      Outcome.Settles (fun fuel => Refinement.run (dbStep store fuel) db requests) (replies, db') ∧
      Refinement.Allows BlockMap.RepliesToDb (pairs db) requests replies (pairs db')) ∧
    (lib.dsize = intSize → ∀ n, lib.FitsSize n ↔ n < 2 ^ 31) := by
  refine ⟨?_, fun hdsize _ => DbLibrary.fitsSize_int_iff hdsize⟩
  rcases hstore with ⟨hdsize, rfl⟩ | ⟨hdsize, rfl⟩ | rfl
  · rw [chopGdbmStoreOpen_eq hdsize]
    exact dbRun_replies h db hsizes
  · rw [chopTdbStoreOpen_eq hdsize]
    exact dbRun_replies h.without_sync db hsizes
  · exact dbRun_replies h db hsizes

section Sample

/-- Pairs in a list, in the order of the list. -/
def listLibrary : DbLibrary PairList where
  dsize := Int.ofNat
  exist db key := (db.lookup key.content).isSome
  read db key := db.lookup key.content
  write db key data := (0, db.insert key.content data.content)
  delete db key := if (db.lookup key.content).isSome then (0, db.erase key.content) else (-1, db)
  firstKey db := db.keys.head?
  nextKey db key := (db.keys.dropWhile (· ≠ key.content)).tail.head?
  sync := id

private theorem dropWhile_ne_append {before after : List Bytes} {key : Bytes} (h : key ∉ before) :
    (before ++ key :: after).dropWhile (· ≠ key) = key :: after := by
  rw [List.dropWhile_append_of_pos]
  · simp
  · intro other hother
    simp only [decide_eq_true_eq]
    rintro rfl
    exact h hother

theorem listLibrary_documented : listLibrary.Documented PairList.blockMap AList.keys where
  fits _ _ _ _ := ⟨rfl, rfl⟩
  exist db key _ := rfl
  read db key _ := rfl
  write db key data _ _ := .inl ⟨rfl, PairList.blockMap_insert db key.content data.content⟩
  delete_present db key _ hkey := by
    have hdelete : listLibrary.delete db key = (0, db.erase key.content) := if_pos hkey
    rw [hdelete]
    exact ⟨rfl, PairList.blockMap_erase db key.content⟩
  delete_absent db key _ hkey := by
    have hnone : ¬ (db.lookup key.content).isSome := Option.not_isSome_iff_eq_none.mpr hkey
    have hdelete : listLibrary.delete db key = (-1, db) := if_neg hnone
    rw [hdelete]
    exact ⟨Int.neg_ne_zero.mpr Int.one_ne_zero, rfl⟩
  nodup db := db.keys_nodup
  mem db key := PairList.isSome_blockMap.symm
  firstKey db := rfl
  nextKey db before key after _ horder := by
    have hnodup : db.keys.Nodup := db.keys_nodup
    rw [horder] at hnodup
    have hnotin : key.content ∉ before := fun hmem =>
      (List.nodup_append.mp hnodup).2.2 key.content hmem key.content List.mem_cons_self rfl
    simp only [listLibrary, horder, dropWhile_ne_append hnotin, List.tail_cons]
  sync db := rfl

/-- Two blocks, of which one is empty, and a traversal before and after one of them is deleted. -/
theorem sampleTdbStore_refines :
    ∃ replies db',
      Outcome.Settles (fun fuel => Refinement.run (dbStep (chopTdbStoreOpen listLibrary) fuel) ∅
        [.store (.writeBlock [1] [2]), .store (.writeBlock [3] []), .store (.traverse 1), .sync,
          .store (.deleteBlock [1]), .store (.deleteBlock [1]), .store (.traverse 0)])
        (replies, db') ∧
      Refinement.Allows BlockMap.RepliesToDb (PairList.blockMap ∅)
        [.store (.writeBlock [1] [2]), .store (.writeBlock [3] []), .store (.traverse 1), .sync,
          .store (.deleteBlock [1]), .store (.deleteBlock [1]), .store (.traverse 0)]
        replies db'.blockMap :=
  (genericDbStores_refine_blockMap listLibrary_documented (.inr (.inl ⟨rfl, rfl⟩)) ∅
    fun _ _ _ _ => rfl).1

end Sample

end Libchop
