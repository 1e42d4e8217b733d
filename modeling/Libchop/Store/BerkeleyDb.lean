import Libchop.Store.BlockMap
import Mathlib.Algebra.Group.Nat.Defs
import Mathlib.Data.List.AList

/-!
# The Berkeley DB store

`store-bdb.c` over the functions of a database.  Data is returned in memory that the database allocates or
in memory of the caller, which may be too small; a cursor does not move where it is.
-/

namespace Libchop

/-- What the functions of the database return. -/
inductive DbStatus where
  | success
  | notFound
  | bufferSmall
  | einval
  | other (err : Int)
deriving DecidableEq, Repr

/-- The data and size fields of a `DBT`. -/
structure Dbt where
  data : Option Bytes
  size : UInt32
deriving DecidableEq, Repr

namespace Dbt

/-- A `DBT` for a key or a block, whose size is assigned to a field of 32 bits. -/
def of (bytes : Bytes) : Dbt := ⟨some bytes, UInt32.ofNat bytes.length⟩

/-- The bytes that a `DBT` stands for. -/
def content (dbt : Dbt) : Bytes := (dbt.data.getD []).take dbt.size.toNat

theorem content_of (bytes : Bytes) : (of bytes).content = bytes.take (bytes.length % 2 ^ 32) := by
  rw [content, of, UInt32.toNat_ofNat']
  rfl

theorem content_of_short {bytes : Bytes} (h : bytes.length < 2 ^ 32) : (of bytes).content = bytes := by
  rw [content_of, Nat.mod_eq_of_lt h, List.take_length]

end Dbt

/-- Where the data of a `DBT` is put: `DB_DBT_USERMEM` with its `ulen`, or `DB_DBT_MALLOC`. -/
inductive DbtMemory where
  | usermem (ulen : Nat)
  | malloc
deriving DecidableEq, Repr

def DbtMemory.holds : DbtMemory → Bytes → Bool
  | .usermem ulen, data => data.length ≤ ulen
  | .malloc, _ => true

/-- The functions of a `DB` handle, and of its `DBC` cursors. -/
structure BerkeleyDb (δ κ : Type) where
  get : δ → Dbt → DbtMemory → DbStatus × Dbt
  put : δ → Dbt → Dbt → DbStatus × δ
  del : δ → Dbt → DbStatus × δ
  cursor : δ → DbStatus × κ
  /-- `c_get` with `DB_NEXT_NODUP`: the key, whose data is put into the given memory. -/
  cGet : κ → DbtMemory → DbStatus × Dbt × κ

abbrev KeyDataPair := Sigma fun _ : Bytes => Bytes

/-- What the manual says.  The pairs of a database form a map.  A cursor has some of them ahead, one for
each key, and stays where it is if the memory is too small. -/
structure BerkeleyDb.Documented {δ κ : Type} (lib : BerkeleyDb δ κ) (pairs : δ → BlockMap)
    (ahead : κ → List KeyDataPair) : Prop where
  get_absent : ∀ db key memory, pairs db key.content = none → (lib.get db key memory).1 = .notFound
  get_present : ∀ db key memory data, pairs db key.content = some data → memory.holds data = true →
    lib.get db key memory = (.success, .of data)
  get_small : ∀ db key memory data, pairs db key.content = some data → memory.holds data = false →
    (lib.get db key memory).1 = .bufferSmall
  put : ∀ db key data,
    ((lib.put db key data).1 = .success ∧
      pairs (lib.put db key data).2 = Function.update (pairs db) key.content (some data.content)) ∨
    ((lib.put db key data).1 ≠ .success ∧ pairs (lib.put db key data).2 = pairs db)
  del_present : ∀ db key, (pairs db key.content).isSome →
    (lib.del db key).1 = .success ∧
      pairs (lib.del db key).2 = Function.update (pairs db) key.content none
  del_absent : ∀ db key, pairs db key.content = none →
    (lib.del db key).1 = .notFound ∧ pairs (lib.del db key).2 = pairs db
  cursor : ∀ db, (lib.cursor db).1 = .success ∧ (ahead (lib.cursor db).2).NodupKeys ∧
    ∀ key data, ⟨key, data⟩ ∈ ahead (lib.cursor db).2 ↔ pairs db key = some data
  next_end : ∀ cursor memory, ahead cursor = [] → (lib.cGet cursor memory).1 = .notFound
  next : ∀ cursor memory key data rest, ahead cursor = ⟨key, data⟩ :: rest → memory.holds data = true →
    ∃ cursor', lib.cGet cursor memory = (.success, .of key, cursor') ∧ ahead cursor' = rest
  next_small : ∀ cursor memory key data rest, ahead cursor = ⟨key, data⟩ :: rest →
    memory.holds data = false →
    ∃ dbt cursor', lib.cGet cursor memory = (.bufferSmall, dbt, cursor') ∧ ahead cursor' = ahead cursor

structure BdbBlockIterator (κ : Type) where
  nil : Bool
  cursor : Option κ
  key : Bytes

section Methods

variable {δ κ : Type} (lib : BerkeleyDb δ κ)

def bdbCursorNextify (cursor : κ) : Except ChopError Bytes × κ :=
  match lib.cGet cursor (.usermem 2048) with
  | (.success, key, cursor) => (.ok key.content, cursor)
  | (.bufferSmall, _, cursor) =>
    match lib.cGet cursor .malloc with
    | (.success, key, cursor) => (.ok key.content, cursor)
    | (.notFound, _, cursor) => (.error .storeEnd, cursor)
    | (_, _, cursor) => (.error .storeError, cursor)
  | (.notFound, _, cursor) => (.error .storeEnd, cursor)
  | (_, _, cursor) => (.error .storeError, cursor)

/-- The iterator is not initialized if there is no cursor. -/
def chopBdbFirstBlock (db : δ) : Status × Option (BdbBlockIterator κ) :=
  match lib.cursor db with
  | (.success, cursor) =>
    match bdbCursorNextify lib cursor with
    | (.ok key, cursor) => (.ok (), some ⟨false, some cursor, key⟩)
    | (.error err, _) => (.error err, some ⟨true, none, []⟩)
  | (_, _) => (.error .invalidArg, none)

def chopBdbItNext (it : BdbBlockIterator κ) : Status × BdbBlockIterator κ :=
  match it.nil, it.cursor with
  | false, some cursor =>
    match bdbCursorNextify lib cursor with
    | (.ok key, cursor) => (.ok (), ⟨false, some cursor, key⟩)
    | (.error err, cursor) =>
      (.error err, ⟨err = .storeEnd, if err = .storeEnd then some cursor else none, []⟩)
  | _, _ => (.error .storeEnd, it)

/-- The flags that were set, and whether all of them were. -/
def chopBdbBlocksExist (db : δ) : List Bytes → Status × List Bool
  | [] => (.ok (), [])
  | key :: keys =>
    match (lib.get db (.of key) (.usermem 0)).1 with
    | .success | .bufferSmall =>
      let (err, exist) := chopBdbBlocksExist db keys
      (err, true :: exist)
    | .notFound =>
      let (err, exist) := chopBdbBlocksExist db keys
      (err, false :: exist)
    | _ => (.error .storeError, [])

/-- The buffer is pushed the block in place of what it holds. -/
def chopBdbReadBlock (key buffer : Bytes) (db : δ) : Status × Bytes × Nat :=
  let (err, thing) := lib.get db (.of key) .malloc
  if err = .notFound ∨ thing.data = none ∨ thing.size = 0 then (.error .storeBlockUnavail, buffer, 0)
  else (.ok (), thing.content, thing.size.toNat)

def chopBdbWriteBlock (key block : Bytes) (db : δ) : Status × δ :=
  match lib.put db (.of key) (.of block) with
  | (.success, db) => (.ok (), db)
  | (_, db) => (.error .storeError, db)

def chopBdbDeleteBlock (key : Bytes) (db : δ) : Status × δ :=
  match lib.del db (.of key) with
  | (.einval, db) => (.error .storeBlockUnavail, db)
  | (.success, db) => (.ok (), db)
  | (_, db) => (.error .storeError, db)

/-- The store's reply to a request, and the database after it. -/
def chopBdbStep (fuel : Nat) (db : δ) : StoreRequest → Outcome (StoreReply × δ)
  | .writeBlock key block =>
    .done (.status (chopBdbWriteBlock lib key block db).1, (chopBdbWriteBlock lib key block db).2)
  | .readBlock key => .done (.ofRead (chopBdbReadBlock lib key [] db), db)
  | .deleteBlock key =>
    .done (.status (chopBdbDeleteBlock lib key db).1, (chopBdbDeleteBlock lib key db).2)
  | .blocksExist keys =>
    .done (.flags (chopBdbBlocksExist lib db keys).1 (chopBdbBlocksExist lib db keys).2, db)
  | .traverse again =>
    traversalReply (fun it => .done (chopBdbItNext lib it)) BdbBlockIterator.key fuel again
      (chopBdbFirstBlock lib db) >>= fun reply => .done (reply, db)

end Methods

/-- No empty block is read, and nothing is deleted that is not there. -/
def BdbAdmits {δ : Type} (pairs : δ → BlockMap) (db : δ) : StoreRequest → Prop
  | .readBlock key => pairs db key ≠ some []
  | .deleteBlock key => (pairs db key).isSome
  | _ => True

def BdbBlockIterator.Ended {κ : Type} (it : BdbBlockIterator κ) : Prop := it.nil = true

section Proof

variable {δ κ : Type} {lib : BerkeleyDb δ κ} {pairs : δ → BlockMap} {ahead : κ → List KeyDataPair}

theorem chopBdbItNext_ended {it : BdbBlockIterator κ} (h : it.Ended) :
    chopBdbItNext lib it = (.error .storeEnd, it) := by
  rw [BdbBlockIterator.Ended] at h
  rw [chopBdbItNext, h]

variable (h : lib.Documented pairs ahead)

include h

/-- A block of any size is passed over, in the stack buffer or in memory of its own. -/
theorem bdbCursorNextify_cons {cursor : κ} {key data : Bytes} {rest : List KeyDataPair}
    (hcursor : ahead cursor = ⟨key, data⟩ :: rest) (hkey : key.length < 2 ^ 32) :
    ∃ cursor', bdbCursorNextify lib cursor = (.ok key, cursor') ∧ ahead cursor' = rest := by
  cases hdata : DbtMemory.holds (.usermem 2048) data with
  | true =>
    obtain ⟨cursor', hnext, hrest⟩ := h.next cursor _ key data rest hcursor hdata
    refine ⟨cursor', ?_, hrest⟩
    simp only [bdbCursorNextify, hnext, Dbt.content_of_short hkey]
  | false =>
    obtain ⟨dbt, cursor₁, hsmall, hsame⟩ := h.next_small cursor _ key data rest hcursor hdata
    obtain ⟨cursor', hnext, hrest⟩ := h.next cursor₁ .malloc key data rest (hsame.trans hcursor) rfl
    refine ⟨cursor', ?_, hrest⟩
    simp only [bdbCursorNextify, hsmall, hnext, Dbt.content_of_short hkey]

theorem bdbCursorNextify_nil {cursor : κ} (hcursor : ahead cursor = []) :
    ∃ cursor', bdbCursorNextify lib cursor = (.error .storeEnd, cursor') := by
  have hend := h.next_end cursor (.usermem 2048) hcursor
  rcases hnext : lib.cGet cursor (.usermem 2048) with ⟨status, key, cursor'⟩
  rw [hnext] at hend
  have hstatus : status = .notFound := hend
  subst hstatus
  exact ⟨cursor', by simp only [bdbCursorNextify, hnext]⟩

private theorem chopBdbItNext_enumerates {cursor : κ} {rest : List KeyDataPair}
    (hcursor : ahead cursor = rest) (hkeys : ∀ pair ∈ rest, pair.1.length < 2 ^ 32) (key : Bytes) :
    Iteration.Enumerates (fun it => .done (chopBdbItNext lib it)) BdbBlockIterator.key
      ChopError.storeEnd BdbBlockIterator.Ended (.ok (), ⟨false, some cursor, key⟩)
      (key :: rest.keys) := by
  induction rest generalizing cursor key with
  | nil =>
    obtain ⟨cursor', hnext⟩ := bdbCursorNextify_nil h hcursor
    refine ⟨rfl, rfl, (.error .storeEnd, ⟨true, some cursor', []⟩), ?_, rfl, rfl⟩
    simp only [chopBdbItNext, hnext, decide_true, if_true]
  | cons pair rest ih =>
    obtain ⟨next, data⟩ := pair
    obtain ⟨hnext, hkeys⟩ := List.forall_mem_cons.mp hkeys
    obtain ⟨cursor', hmoved, hrest⟩ := bdbCursorNextify_cons h hcursor hnext
    refine ⟨rfl, rfl, (.ok (), ⟨false, some cursor', next⟩), ?_, ih hrest hkeys next⟩
    simp only [chopBdbItNext, hmoved]

/-- The keys that a new cursor has ahead. -/
theorem mem_cursor_keys {db : δ} {key : Bytes} :
    key ∈ (ahead (lib.cursor db).2).keys ↔ (pairs db key).isSome := by
  rw [List.mem_keys, Option.isSome_iff_exists]
  exact exists_congr fun data => (h.cursor db).2.2 key data

theorem cursor_keys_short {db : δ} (hshort : (pairs db).Shorter (2 ^ 32)) :
    ∀ pair ∈ ahead (lib.cursor db).2, pair.1.length < 2 ^ 32 := by
  intro pair hpair
  exact (hshort pair.1 pair.2 (((h.cursor db).2.2 pair.1 pair.2).mp hpair)).1

/-- There is nothing, or the iterator is at the first key, and its cursor before those after it. -/
theorem chopBdbFirstBlock_cases {db : δ} (hshort : (pairs db).Shorter (2 ^ 32)) :
    (ahead (lib.cursor db).2 = [] ∧
      chopBdbFirstBlock lib db = (.error .storeEnd, some ⟨true, none, []⟩)) ∨
    ∃ key data rest cursor, ahead (lib.cursor db).2 = ⟨key, data⟩ :: rest ∧ ahead cursor = rest ∧
      chopBdbFirstBlock lib db = (.ok (), some ⟨false, some cursor, key⟩) := by
  have hlengths := cursor_keys_short h hshort
  have hsuccess := (h.cursor db).1
  rw [chopBdbFirstBlock]
  rcases hopen : lib.cursor db with ⟨opened, cursor⟩
  rw [hopen] at hsuccess hlengths
  have hopened : opened = .success := hsuccess
  subst hopened
  dsimp only at hlengths ⊢
  cases hahead : ahead cursor with
  | nil =>
    obtain ⟨cursor', hnext⟩ := bdbCursorNextify_nil h hahead
    exact .inl ⟨rfl, by rw [hnext]⟩
  | cons pair rest =>
    obtain ⟨key, data⟩ := pair
    rw [hahead] at hlengths
    obtain ⟨cursor', hnext, hrest⟩ :=
      bdbCursorNextify_cons h hahead (List.forall_mem_cons.mp hlengths).1
    exact .inr ⟨key, data, rest, cursor', rfl, hrest, by rw [hnext]⟩

/-- The first key, and those after it. -/
theorem chopBdbFirstBlock_enumerates {db : δ} (hshort : (pairs db).Shorter (2 ^ 32)) :
    ∃ status it, chopBdbFirstBlock lib db = (status, some it) ∧
      Iteration.Enumerates (fun it => .done (chopBdbItNext lib it)) BdbBlockIterator.key
        ChopError.storeEnd BdbBlockIterator.Ended (status, it) (ahead (lib.cursor db).2).keys := by
  have hlengths := cursor_keys_short h hshort
  rcases chopBdbFirstBlock_cases h hshort with
    ⟨hahead, hfirst⟩ | ⟨key, data, rest, cursor, hahead, hrest, hfirst⟩
  · rw [hahead]
    exact ⟨_, _, hfirst, rfl, rfl⟩
  · rw [hahead] at hlengths ⊢
    exact ⟨_, _, hfirst,
      chopBdbItNext_enumerates h hrest (List.forall_mem_cons.mp hlengths).2 key⟩

private theorem chopBdbBlocksExist_eq (db : δ) {keys : List Bytes}
    (hkeys : ∀ key ∈ keys, key.length < 2 ^ 32) :
    chopBdbBlocksExist lib db keys = (.ok (), keys.map fun key => (pairs db key).isSome) := by
  induction keys with
  | nil => rfl
  | cons key keys ih =>
    obtain ⟨hkey, hkeys⟩ := List.forall_mem_cons.mp hkeys
    have hcontent : pairs db (Dbt.of key).content = pairs db key := by rw [Dbt.content_of_short hkey]
    cases hpair : pairs db key with
    | none =>
      have hget := h.get_absent db (.of key) (.usermem 0) (hcontent.trans hpair)
      simp [chopBdbBlocksExist, hget, ih hkeys, hpair]
    | some data =>
      cases hdata : DbtMemory.holds (.usermem 0) data with
      | true =>
        have hget := h.get_present db (.of key) _ data (hcontent.trans hpair) hdata
        simp [chopBdbBlocksExist, hget, ih hkeys, hpair]
      | false =>
        have hget := h.get_small db (.of key) _ data (hcontent.trans hpair) hdata
        simp [chopBdbBlocksExist, hget, ih hkeys, hpair]

/-- Empty blocks are not read. -/
theorem chopBdbReadBlock_eq {db : δ} (hshort : (pairs db).Shorter (2 ^ 32)) {key : Bytes}
    (hkey : key.length < 2 ^ 32) (buffer : Bytes) :
    chopBdbReadBlock lib key buffer db =
      match pairs db key with
      | some (byte :: block) => (.ok (), byte :: block, block.length + 1)
      | _ => (.error .storeBlockUnavail, buffer, 0) := by
  have hcontent : pairs db (Dbt.of key).content = pairs db key := by rw [Dbt.content_of_short hkey]
  cases hpair : pairs db key with
  | none =>
    have hget := h.get_absent db (.of key) .malloc (hcontent.trans hpair)
    simp [chopBdbReadBlock, hget]
  | some block =>
    have hget := h.get_present db (.of key) .malloc block (hcontent.trans hpair) rfl
    have hlength := (hshort key block hpair).2
    cases block with
    | nil =>
      have hzero : (Dbt.of []).size = 0 := rfl
      simp [chopBdbReadBlock, hget, hzero]
    | cons byte block =>
      have hsize : (UInt32.ofNat (byte :: block).length).toNat = block.length + 1 := by
        rw [UInt32.toNat_ofNat', Nat.mod_eq_of_lt hlength]
        rfl
      have hsome : (Dbt.of (byte :: block)).size ≠ 0 := by
        intro hzero
        rw [Dbt.of] at hzero
        rw [show UInt32.ofNat (byte :: block).length = 0 from hzero] at hsize
        cases hsize
      have hdata : (Dbt.of (byte :: block)).data ≠ none := Option.some_ne_none _
      simp only [chopBdbReadBlock, hget, reduceCtorEq, hdata, hsome, or_self, if_false,
        Dbt.content_of_short hlength]
      exact congrArg (fun size => (Except.ok (), byte :: block, size)) hsize

theorem chopBdbWriteBlock_cases {key block : Bytes} (hkey : key.length < 2 ^ 32)
    (hblock : block.length < 2 ^ 32) (db : δ) :
    ((chopBdbWriteBlock lib key block db).1 = .ok () ∧
      pairs (chopBdbWriteBlock lib key block db).2 = Function.update (pairs db) key (some block)) ∨
    ((chopBdbWriteBlock lib key block db).1 = .error .storeError ∧
      pairs (chopBdbWriteBlock lib key block db).2 = pairs db) := by
  have hput := h.put db (.of key) (.of block)
  rw [Dbt.content_of_short hkey, Dbt.content_of_short hblock] at hput
  rw [chopBdbWriteBlock]
  rcases hwrite : lib.put db (.of key) (.of block) with ⟨status, db'⟩
  rw [hwrite] at hput
  rcases hput with ⟨hsuccess, hpairs⟩ | ⟨hfails, hpairs⟩
  · have hstatus : status = .success := hsuccess
    subst hstatus
    exact .inl ⟨rfl, hpairs⟩
  · cases status with
    | success => exact absurd rfl hfails
    | notFound => exact .inr ⟨rfl, hpairs⟩
    | bufferSmall => exact .inr ⟨rfl, hpairs⟩
    | einval => exact .inr ⟨rfl, hpairs⟩
    | other err => exact .inr ⟨rfl, hpairs⟩

theorem chopBdbDeleteBlock_cases {key : Bytes} (hkey : key.length < 2 ^ 32) (db : δ) :
    ((pairs db key).isSome = true ∧ (chopBdbDeleteBlock lib key db).1 = .ok () ∧
      pairs (chopBdbDeleteBlock lib key db).2 = Function.update (pairs db) key none) ∨
    ((pairs db key).isSome = false ∧ (chopBdbDeleteBlock lib key db).1 = .error .storeError ∧
      pairs (chopBdbDeleteBlock lib key db).2 = pairs db) := by
  have hpresent := h.del_present db (.of key)
  have habsent := h.del_absent db (.of key)
  rw [Dbt.content_of_short hkey] at hpresent habsent
  rw [chopBdbDeleteBlock]
  rcases hdel : lib.del db (.of key) with ⟨status, db'⟩
  rw [hdel] at hpresent habsent
  cases hpair : pairs db key with
  | some block =>
    obtain ⟨hsuccess, hpairs⟩ := hpresent (by rw [hpair]; rfl)
    have hstatus : status = .success := hsuccess
    subst hstatus
    exact .inl ⟨rfl, rfl, hpairs⟩
  | none =>
    obtain ⟨hnone, hpairs⟩ := habsent hpair
    have hstatus : status = .notFound := hnone
    subst hstatus
    exact .inr ⟨rfl, rfl, hpairs⟩

theorem chopBdbStep_traverse {db : δ} (hshort : (pairs db).Shorter (2 ^ 32)) (again : Nat) :
    Outcome.Settles (fun fuel => chopBdbStep lib fuel db (.traverse again))
      (.traversal (ahead (lib.cursor db).2).keys (List.replicate (again + 1) (.error .storeEnd)), db) := by
  obtain ⟨status, it, hfirst, henumerates⟩ := chopBdbFirstBlock_enumerates h hshort
  have hended (it : BdbBlockIterator κ) (hit : it.Ended) :
      Outcome.done (chopBdbItNext lib it) = .done (.error .storeEnd, it) :=
    congrArg Outcome.done (chopBdbItNext_ended hit)
  have htraversal := traversalReply_enumerates hended henumerates again
  rw [← hfirst] at htraversal
  exact htraversal.bind (.of_eq fun _ => rfl)

private theorem chopBdbStep_replies (db : δ) (request : StoreRequest)
    (hsizes : ∀ bytes ∈ request.data, bytes.length < 2 ^ 32) (hshort : (pairs db).Shorter (2 ^ 32)) :
    ∃ reply db', Outcome.Settles (fun fuel => chopBdbStep lib fuel db request) (reply, db') ∧
      (BdbAdmits pairs db request → ∃ m', (pairs db).RepliesOrFails request reply m') ∧
      ∀ m', (pairs db).RepliesOrFails request reply m' →
        BdbAdmits pairs db request ∧ m' = pairs db' ∧ m'.Shorter (2 ^ 32) := by
  cases request with
  | writeBlock key block =>
    obtain ⟨hkey, hsizes⟩ := List.forall_mem_cons.mp hsizes
    have hblock := List.forall_mem_singleton.mp hsizes
    refine ⟨_, _, .of_eq fun _ => rfl, fun _ => ?_, fun m' hreplies => ⟨trivial, ?_⟩⟩
    · rcases chopBdbWriteBlock_cases h hkey hblock db with ⟨hok, -⟩ | ⟨herr, -⟩
      · exact ⟨_, .inl ⟨congrArg StoreReply.status hok, rfl⟩⟩
      · exact ⟨_, .inr ⟨key, block, rfl, congrArg StoreReply.status herr, rfl⟩⟩
    · rcases chopBdbWriteBlock_cases h hkey hblock db with ⟨hok, hpairs⟩ | ⟨herr, hpairs⟩
      · rcases hreplies with ⟨-, rfl⟩ | ⟨_, _, -, hfails, -⟩
        · exact ⟨hpairs.symm, hshort.update hkey hblock⟩
        · rw [hok] at hfails
          cases hfails
      · rcases hreplies with ⟨hdone, -⟩ | ⟨_, _, -, -, rfl⟩
        · rw [herr] at hdone
          cases hdone
        · exact ⟨hpairs.symm, hshort⟩
  | readBlock key =>
    have hkey := List.forall_mem_singleton.mp hsizes
    have hread := chopBdbReadBlock_eq h hshort hkey []
    refine ⟨_, db, .of_eq fun _ => rfl, fun hadmits => ?_, fun m' hreplies => ?_⟩
    · refine ⟨pairs db, .inl ⟨rfl, ?_⟩⟩
      rw [hread]
      cases hpair : pairs db key with
      | none => rfl
      | some block =>
        cases block with
        | nil => exact absurd hpair hadmits
        | cons byte block => rfl
    · rcases hreplies with ⟨rfl, hreply⟩ | ⟨_, _, hwrite, -⟩
      · refine ⟨fun hempty => ?_, rfl, hshort⟩
        rw [hread, hempty] at hreply
        cases hreply
      · cases hwrite
  | deleteBlock key =>
    have hkey := List.forall_mem_singleton.mp hsizes
    refine ⟨_, _, .of_eq fun _ => rfl, fun hadmits => ?_, fun m' hreplies => ?_⟩
    · rcases chopBdbDeleteBlock_cases h hkey db with ⟨hpresent, hok, -⟩ | ⟨habsent, -⟩
      · refine ⟨Function.update (pairs db) key none, .inl ?_⟩
        rw [BlockMap.Replies, if_pos hpresent]
        exact ⟨congrArg StoreReply.status hok, rfl⟩
      · rw [BdbAdmits, habsent] at hadmits
        cases hadmits
    · rcases hreplies with hreplies | ⟨_, _, hwrite, -⟩
      · rw [BlockMap.Replies] at hreplies
        rcases chopBdbDeleteBlock_cases h hkey db with
          ⟨hpresent, -, hpairs⟩ | ⟨habsent, herr, -⟩
        · rw [if_pos hpresent] at hreplies
          obtain ⟨-, rfl⟩ := hreplies
          exact ⟨hpresent, hpairs.symm, hshort.erase key⟩
        · rw [habsent, if_neg Bool.false_ne_true, herr] at hreplies
          cases hreplies.1
      · cases hwrite
  | blocksExist keys =>
    have hexist : chopBdbBlocksExist lib db keys = _ := chopBdbBlocksExist_eq h db hsizes
    refine ⟨_, db, .of_eq fun _ => rfl, fun _ => ⟨pairs db, .inl ⟨rfl, ?_⟩⟩, fun m' hreplies => ?_⟩
    · rw [hexist]
    · rcases hreplies with ⟨rfl, -⟩ | ⟨_, _, hwrite, -⟩
      · exact ⟨trivial, rfl, hshort⟩
      · cases hwrite
  | traverse again =>
    refine ⟨_, db, chopBdbStep_traverse h hshort again, fun _ => ⟨pairs db, .inl ⟨rfl, _,
      (h.cursor db).2.1, fun key => mem_cursor_keys h, rfl⟩⟩, fun m' hreplies => ?_⟩
    rcases hreplies with ⟨rfl, -⟩ | ⟨_, _, hwrite, -⟩
    · exact ⟨trivial, rfl, hshort⟩
    · cases hwrite

end Proof

/-- Over a database that behaves as its manual says, and with keys and blocks whose sizes have 32 bits, the
replies are those of a finite map, whose writes may fail, if and only if no empty block is read and nothing
is deleted that is not there. -/
theorem chopBdb_refines_blockMap {δ κ : Type} {lib : BerkeleyDb δ κ} {pairs : δ → BlockMap}
    {ahead : κ → List KeyDataPair} (h : lib.Documented pairs ahead) {db : δ}
    (hshort : (pairs db).Shorter (2 ^ 32)) {requests : List StoreRequest}
    (hsizes : ∀ request ∈ requests, ∀ bytes ∈ request.data, bytes.length < 2 ^ 32) :
    (∃ replies db' m,
        Outcome.Settles (fun fuel => Refinement.run (chopBdbStep lib fuel) db requests) (replies, db') ∧
        Refinement.Allows BlockMap.RepliesOrFails (pairs db) requests replies m) ↔
      Refinement.Meets (chopBdbStep lib) (BdbAdmits pairs) db requests := by
  have hR : pairs db = pairs db ∧ (pairs db).Shorter (2 ^ 32) := ⟨rfl, hshort⟩
  refine Refinement.run_settles_iff (R := fun m db => m = pairs db ∧ m.Shorter (2 ^ 32)) ?_ hsizes hR
  rintro m db request hsizes ⟨rfl, hshort⟩
  exact chopBdbStep_replies h db request hsizes hshort

section Sample

/-- Pairs in a list, one for each key. -/
abbrev PairList := AList fun _ : Bytes => Bytes

def PairList.blockMap (db : PairList) : BlockMap := fun key => db.lookup key

theorem PairList.blockMap_insert (db : PairList) (key block : Bytes) :
    PairList.blockMap (db.insert key block) = Function.update db.blockMap key (some block) := by
  funext key'
  by_cases hkey : key' = key
  · rw [hkey, Function.update_self]
    exact AList.lookup_insert db
  · rw [Function.update_of_ne hkey]
    exact AList.lookup_insert_ne hkey

theorem PairList.blockMap_erase (db : PairList) (key : Bytes) :
    PairList.blockMap (db.erase key) = Function.update db.blockMap key none := by
  funext key'
  by_cases hkey : key' = key
  · rw [hkey, Function.update_self]
    exact AList.lookup_erase key db
  · rw [Function.update_of_ne hkey]
    exact AList.lookup_erase_ne hkey

theorem PairList.isSome_blockMap {db : PairList} {key : Bytes} :
    (db.blockMap key).isSome ↔ key ∈ db := AList.lookup_isSome

/-- A database that goes through its pairs in the order of the list. -/
def listDatabase : BerkeleyDb PairList (List KeyDataPair) where
  get db key memory :=
    match db.lookup key.content with
    | none => (.notFound, ⟨none, 0⟩)
    | some data => if memory.holds data then (.success, .of data) else (.bufferSmall, ⟨none, 0⟩)
  put db key data := (.success, db.insert key.content data.content)
  del db key :=
    if (db.lookup key.content).isSome then (.success, db.erase key.content) else (.notFound, db)
  cursor db := (.success, db.entries)
  cGet cursor memory :=
    match cursor with
    | [] => (.notFound, ⟨none, 0⟩, [])
    | ⟨key, data⟩ :: rest =>
      if memory.holds data then (.success, .of key, rest) else (.bufferSmall, .of key, cursor)

theorem listDatabase_documented : listDatabase.Documented PairList.blockMap id where
  get_absent db key memory hnone := by
    have hlookup : db.lookup key.content = none := hnone
    simp only [listDatabase, hlookup]
  get_present db key memory data hsome hholds := by
    have hlookup : db.lookup key.content = some data := hsome
    simp only [listDatabase, hlookup, hholds, if_true]
  get_small db key memory data hsome hholds := by
    have hlookup : db.lookup key.content = some data := hsome
    simp only [listDatabase, hlookup, hholds, Bool.false_eq_true, if_false]
  put db key data := .inl ⟨rfl, PairList.blockMap_insert db key.content data.content⟩
  del_present db key hsome := by
    have hdel : listDatabase.del db key = (.success, db.erase key.content) := if_pos hsome
    rw [hdel]
    exact ⟨rfl, PairList.blockMap_erase db key.content⟩
  del_absent db key hnone := by
    have habsent : ¬ (db.lookup key.content).isSome := Option.not_isSome_iff_eq_none.mpr hnone
    have hdel : listDatabase.del db key = (.notFound, db) := if_neg habsent
    rw [hdel]
    exact ⟨rfl, rfl⟩
  cursor db := ⟨rfl, db.nodupKeys, fun key data => AList.mem_lookup_iff.symm⟩
  next_end cursor memory hend := by
    have hcursor : cursor = [] := hend
    subst hcursor
    rfl
  next cursor memory key data rest hcursor hholds := by
    have hcursor : cursor = ⟨key, data⟩ :: rest := hcursor
    subst hcursor
    exact ⟨rest, if_pos hholds, rfl⟩
  next_small cursor memory key data rest hcursor hholds := by
    have hcursor : cursor = ⟨key, data⟩ :: rest := hcursor
    subst hcursor
    refine ⟨.of key, ⟨key, data⟩ :: rest, ?_, rfl⟩
    simp only [listDatabase, hholds, Bool.false_eq_true, if_false]

theorem PairList.shorter_empty (bound : Nat) : (PairList.blockMap ∅).Shorter bound := nofun

/-- A block that is written, read and deleted, and a traversal. -/
theorem listDatabase_refines :
    (∃ replies db' m,
        Outcome.Settles (fun fuel => Refinement.run (chopBdbStep listDatabase fuel) ∅
          [.writeBlock [1] [2], .readBlock [1], .traverse 1, .deleteBlock [1], .readBlock [1]])
          (replies, db') ∧
        Refinement.Allows BlockMap.RepliesOrFails (PairList.blockMap ∅)
          [.writeBlock [1] [2], .readBlock [1], .traverse 1, .deleteBlock [1], .readBlock [1]]
          replies m) ↔
      Refinement.Meets (chopBdbStep listDatabase) (BdbAdmits PairList.blockMap) ∅
        [.writeBlock [1] [2], .readBlock [1], .traverse 1, .deleteBlock [1], .readBlock [1]] :=
  chopBdb_refines_blockMap listDatabase_documented (PairList.shorter_empty _) (by decide)

/-- A block that reads back as unavailable after it was written. -/
theorem chopBdb_unread {block : Bytes}
    (hwrite : chopBdbWriteBlock listDatabase [1] block ∅ = (.ok (), AList.insert [1] [] ∅)) :
    ¬ ∃ replies db m,
      Outcome.Settles (fun fuel => Refinement.run (chopBdbStep listDatabase fuel) ∅
          [.writeBlock [1] block, .readBlock [1]]) (replies, db) ∧
        Refinement.Allows BlockMap.RepliesOrFails (fun _ => none)
          [.writeBlock [1] block, .readBlock [1]] replies m := by
  rintro ⟨replies, db, m, hrun, hallows⟩
  have hfirst : Outcome.Settles (fun fuel => chopBdbStep listDatabase fuel ∅ (.writeBlock [1] block))
      (.status (.ok ()), AList.insert [1] [] ∅) := by
    refine .of_eq fun fuel => ?_
    rw [chopBdbStep, hwrite]
  have hreplies : Outcome.Settles (fun fuel => Refinement.run (chopBdbStep listDatabase fuel) ∅
      [.writeBlock [1] block, .readBlock [1]])
      ([.status (.ok ()), .block (.error .storeBlockUnavail) [] 0], AList.insert [1] [] ∅) :=
    Refinement.settles_cons hfirst (.of_eq fun _ => rfl)
  cases hrun.unique hreplies
  obtain ⟨m₁, hwritten, m₂, hread, -⟩ := hallows
  rcases hwritten with ⟨-, rfl⟩ | ⟨_, _, -, hfails, -⟩
  · rcases hread with ⟨-, hread⟩ | ⟨_, _, hwrite, -⟩
    · rw [Function.update_self] at hread
      cases hread
    · cases hwrite
  · cases hfails

/-- Nothing is stored of a block of `2 ^ 32` bytes. -/
theorem chopBdbWriteBlock_wrapped {block : Bytes} (hblock : block.length = 2 ^ 32) :
    chopBdbWriteBlock listDatabase [1] block ∅ = (.ok (), AList.insert [1] [] ∅) := by
  have hcontent : (Dbt.of block).content = [] := by
    rw [Dbt.content_of, hblock, Nat.mod_self, List.take_zero]
  simp only [chopBdbWriteBlock, listDatabase, hcontent]
  rfl

/-- An empty block that was written is said to be unavailable, a long one is stored as an empty one, and
deleting what is not there is a generic error. -/
theorem chopBdb_empty_block_and_absent_key :
    (¬ ∃ replies db m,
      Outcome.Settles (fun fuel => Refinement.run (chopBdbStep listDatabase fuel) ∅
          [.writeBlock [1] [], .readBlock [1]]) (replies, db) ∧
        Refinement.Allows BlockMap.RepliesOrFails (fun _ => none) [.writeBlock [1] [], .readBlock [1]]
          replies m) ∧
    (¬ ∃ replies db m,
      Outcome.Settles (fun fuel => Refinement.run (chopBdbStep listDatabase fuel) ∅
          [.writeBlock [1] (List.replicate (2 ^ 32) 0), .readBlock [1]]) (replies, db) ∧
        Refinement.Allows BlockMap.RepliesOrFails (fun _ => none)
          [.writeBlock [1] (List.replicate (2 ^ 32) 0), .readBlock [1]] replies m) ∧
    ¬ ∃ replies db m,
      Outcome.Settles (fun fuel => Refinement.run (chopBdbStep listDatabase fuel) ∅ [.deleteBlock [1]])
          (replies, db) ∧
        Refinement.Allows BlockMap.RepliesOrFails (fun _ => none) [.deleteBlock [1]] replies m := by
  refine ⟨chopBdb_unread rfl, chopBdb_unread (chopBdbWriteBlock_wrapped List.length_replicate), ?_⟩
  rintro ⟨replies, db, m, hrun, hallows⟩
  have hreplies : Outcome.Settles (fun fuel => Refinement.run (chopBdbStep listDatabase fuel) ∅
      [.deleteBlock [1]]) ([.status (.error .storeError)], ∅) := .of_eq fun _ => rfl
  cases hrun.unique hreplies
  obtain ⟨m₁, hdelete | ⟨_, _, hwrite, -⟩, -⟩ := hallows
  · cases hdelete.1
  · cases hwrite

end Sample

end Libchop
