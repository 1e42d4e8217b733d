import Libchop.Indexer.HandleSize

/-!
# Existence of several blocks

The `blocks_exist` methods of fetchers collect the keys of all handles, as pointers, and ask the store
once.  The keys of hash and CHK handles are arrays of the handles.  Those of integer and UUID handles are
made in a variable of the loop that collects them.
-/

namespace Libchop

/-- What the `key` field of a `chop_block_key_t` points to. -/
inductive KeyPointer where
  | handleField (contents : Bytes)
  | loopVariable
deriving DecidableEq, Repr

structure KeyReference where
  key : KeyPointer
  size : Nat
deriving DecidableEq, Repr

/-- The bytes of a key, when the variable of the loop holds these bytes. -/
def KeyReference.bytes (loopVariable : Bytes) (key : KeyReference) : Bytes :=
  match key.key with
  | .handleField contents => contents.take key.size
  | .loopVariable => loopVariable.take key.size

/-- The key that a round of the loop makes, with what it writes to its variable.  Handles of other
classes have none. -/
abbrev InitKey := HandleValue → Option (KeyReference × Option Bytes)

/-- The loop of the `blocks_exist` methods.  The variable that is declared in its body has one place in
the stack frame for all rounds. -/
def collectKeys (initKey : InitKey) : Bytes → List HandleValue → Option (List KeyReference × Bytes)
  | loopVariable, [] => some ([], loopVariable)
  | loopVariable, handle :: indices =>
    match initKey handle with
    | none => none
    | some (key, written) =>
      (collectKeys initKey (written.getD loopVariable) indices).map fun (keys, loopVariable) =>
        (key :: keys, loopVariable)

section Methods

variable {σ : Type} (methods : StoreMethods σ) (uuids : UuidLibrary)

/-- A `blocks_exist` method: the flags of the blocks, or an error. -/
def blocksExist (initKey : InitKey) (loopVariable : Bytes) (indices : List HandleValue) (store : σ) :
    Except ChopError (List Bool) × σ :=
  match collectKeys initKey loopVariable indices with
  | none => (.error .invalidArg, store)
  | some (keys, loopVariable) =>
    let result := methods.blocksExist (keys.map (KeyReference.bytes loopVariable)) store
    (result.1.map List.ofFn, result.2)

def hashBlocksExist : Bytes → List HandleValue → σ → Except ChopError (List Bool) × σ :=
  blocksExist methods fun
    | .index (.hash handle) => some (⟨.handleField handle.content, handle.content.length⟩, none)
    | _ => none

def chkBlocksExist : Bytes → List HandleValue → σ → Except ChopError (List Bool) × σ :=
  blocksExist methods fun
    | .index (.chk handle) => some (⟨.handleField handle.blockId, handle.blockId.length⟩, none)
    | _ => none

def integerBlocksExist : Bytes → List HandleValue → σ → Except ChopError (List Bool) × σ :=
  blocksExist methods fun
    | .index (.integer id) => some (⟨.loopVariable, 4⟩, some (integerKey id))
    | _ => none

def uuidBlocksExist : Bytes → List HandleValue → σ → Except ChopError (List Bool) × σ :=
  blocksExist methods fun
    | .uuid uuid => some (⟨.loopVariable, chopUuidSize⟩, some (uuids.unparse uuid))
    | _ => none

/-- `chop_block_fetcher_exist`, for a fetcher that belongs to handles of this class. -/
def chopBlockFetcherExist (handleClass : HandleClass) :
    Bytes → List HandleValue → σ → Except ChopError (List Bool) × σ :=
  match handleClass with
  | .hash => hashBlocksExist methods
  | .chk => chkBlocksExist methods
  | .integer => integerBlocksExist methods
  | .uuid => uuidBlocksExist methods uuids

/-- The key that the fetch methods read the block of a handle under. -/
def HandleValue.blockKey (value : HandleValue) : Bytes :=
  match value with
  | .index (.hash handle) => handle.content
  | .index (.chk handle) => handle.blockId
  | .index (.integer id) => integerKey id
  | .uuid identifier => uuids.unparse identifier

/-- The flags say of each handle whether its block is there, and so do queries for one handle. -/
def ExistenceAgrees (contents : σ → BlockMap) (handleClass : HandleClass) (loopVariable : Bytes)
    (indices : List HandleValue) (store : σ) : Prop :=
  (chopBlockFetcherExist methods uuids handleClass loopVariable indices store).1 =
      .ok (indices.map fun handle => (contents store (handle.blockKey uuids)).isSome) ∧
    ∀ handle ∈ indices,
      (chopBlockFetcherExist methods uuids handleClass loopVariable [handle] store).1 =
        .ok [(contents store (handle.blockKey uuids)).isSome]

end Methods

/-- Keys that are arrays of their handles. -/
theorem collectKeys_handleField {initKey : InitKey} {blockKey : HandleValue → Bytes}
    {loopVariable : Bytes} {indices : List HandleValue}
    (h : ∀ handle ∈ indices, initKey handle =
      some (⟨.handleField (blockKey handle), (blockKey handle).length⟩, none)) :
    collectKeys initKey loopVariable indices =
      some (indices.map fun handle => ⟨.handleField (blockKey handle), (blockKey handle).length⟩,
        loopVariable) := by
  induction indices with
  | nil => rfl
  | cons handle indices ih =>
    obtain ⟨hhandle, hindices⟩ := List.forall_mem_cons.mp h
    simp [collectKeys, hhandle, ih hindices]

/-- Keys that are made in the variable.  In the end it holds that of the last handle. -/
theorem collectKeys_loopVariable {initKey : InitKey} {blockKey : HandleValue → Bytes} {size : Nat}
    {loopVariable : Bytes} {indices : List HandleValue}
    (h : ∀ handle ∈ indices, initKey handle = some (⟨.loopVariable, size⟩, some (blockKey handle))) :
    collectKeys initKey loopVariable indices =
      some (indices.map fun _ => ⟨.loopVariable, size⟩,
        (indices.getLast?.map blockKey).getD loopVariable) := by
  induction indices generalizing loopVariable with
  | nil => rfl
  | cons handle indices ih =>
    obtain ⟨hhandle, hindices⟩ := List.forall_mem_cons.mp h
    simp only [collectKeys, hhandle, Option.getD_some, ih hindices, Option.map_some, List.map_cons]
    cases hlast : indices.getLast? with
    | none => simp [List.getLast?_cons, hlast]
    | some last => simp [List.getLast?_cons, hlast]

section Queries

variable {σ : Type} {methods : StoreMethods σ} {contents : σ → BlockMap}

/-- The store says which blocks it has. -/
def ReportsExistence (methods : StoreMethods σ) (contents : σ → BlockMap) : Prop :=
  ∀ keys store, (methods.blocksExist keys store).1 =
    .ok fun i => (contents store (keys.get i)).isSome

theorem reported_eq_map (hexist : ReportsExistence methods contents) (keys : List Bytes) (store : σ) :
    (methods.blocksExist keys store).1.map List.ofFn =
      .ok (keys.map fun key => (contents store key).isSome) := by
  rw [hexist keys store]
  simp only [Except.map]
  congr 1
  apply List.ext_get
  · simp
  · intro i hi hi'
    simp

variable (hexist : ReportsExistence methods contents) {initKey : InitKey}
  (blockKey : HandleValue → Bytes) {loopVariable : Bytes} {indices : List HandleValue} {store : σ}

include hexist

theorem blocksExist_handleField (h : ∀ handle ∈ indices, initKey handle =
      some (⟨.handleField (blockKey handle), (blockKey handle).length⟩, none)) :
    (blocksExist methods initKey loopVariable indices store).1 =
      .ok (indices.map fun handle => (contents store (blockKey handle)).isSome) := by
  simp only [blocksExist, collectKeys_handleField h, reported_eq_map hexist, List.map_map]
  simp [Function.comp_def, KeyReference.bytes]

theorem blocksExist_loopVariable (size : Nat)
    (hsize : ∀ handle ∈ indices, (blockKey handle).length = size)
    (h : ∀ handle ∈ indices, initKey handle = some (⟨.loopVariable, size⟩, some (blockKey handle))) :
    (blocksExist methods initKey loopVariable indices store).1 =
      .ok (indices.map fun _ => indices.getLast?.any fun last =>
        (contents store (blockKey last)).isSome) := by
  simp only [blocksExist, collectKeys_loopVariable h, reported_eq_map hexist, List.map_map]
  cases hlast : indices.getLast? with
  | none =>
    rw [List.getLast?_eq_none_iff.mp hlast]
    rfl
  | some last =>
    have hlength := hsize last (List.mem_of_getLast? hlast)
    simp [Function.comp_def, KeyReference.bytes, ← hlength]

end Queries

/-- The keys of the handles of this class are made in a variable. -/
def HandleClass.keysInVariable : HandleClass → Bool
  | .hash | .chk => false
  | .integer | .uuid => true

section Classes

variable {σ : Type} {methods : StoreMethods σ} {contents : σ → BlockMap}
  (hexist : ReportsExistence methods contents) (uuids : UuidLibrary) {handleClass : HandleClass}
  {indices : List HandleValue} (hclass : ∀ handle ∈ indices, handle.handleClass = handleClass)
  (loopVariable : Bytes) (store : σ)

include hexist hclass

/-- Hash and CHK fetchers ask for the block of each handle. -/
theorem chopBlockFetcherExist_handleField (hplace : handleClass.keysInVariable = false) :
    (chopBlockFetcherExist methods uuids handleClass loopVariable indices store).1 =
      .ok (indices.map fun handle => (contents store (handle.blockKey uuids)).isSome) := by
  cases handleClass with
  | integer => cases hplace
  | uuid => cases hplace
  | hash =>
    apply blocksExist_handleField hexist (HandleValue.blockKey uuids)
    intro handle hhandle
    have hvalue := hclass handle hhandle
    match handle with
    | .index (.hash handle) => rfl
  | chk =>
    apply blocksExist_handleField hexist (HandleValue.blockKey uuids)
    intro handle hhandle
    have hvalue := hclass handle hhandle
    match handle with
    | .index (.chk handle) => rfl

/-- Integer and UUID fetchers ask for the block of the last handle, over and over. -/
theorem chopBlockFetcherExist_loopVariable (hplace : handleClass.keysInVariable = true) :
    (chopBlockFetcherExist methods uuids handleClass loopVariable indices store).1 =
      .ok (indices.map fun _ => indices.getLast?.any fun last =>
        (contents store (last.blockKey uuids)).isSome) := by
  cases handleClass with
  | hash => cases hplace
  | chk => cases hplace
  | integer =>
    refine blocksExist_loopVariable hexist (HandleValue.blockKey uuids) 4 ?_ ?_
    · intro handle hhandle
      have hvalue := hclass handle hhandle
      match handle with
      | .index (.integer id) => rfl
    · intro handle hhandle
      have hvalue := hclass handle hhandle
      match handle with
      | .index (.integer id) => rfl
  | uuid =>
    refine blocksExist_loopVariable hexist (HandleValue.blockKey uuids) chopUuidSize ?_ ?_
    · intro handle hhandle
      have hvalue := hclass handle hhandle
      match handle with
      | .uuid uuid => exact uuids.length_unparse uuid
    · intro handle hhandle
      have hvalue := hclass handle hhandle
      match handle with
      | .uuid uuid => rfl

/-- The flags of several blocks are right just when the keys are arrays of the handles, or the store
has all of the blocks or none, as it has the last one or not. -/
theorem blocksExist_agrees_iff :
    ExistenceAgrees methods uuids contents handleClass loopVariable indices store ↔
      handleClass = .hash ∨ handleClass = .chk ∨
        ∀ handle ∈ indices, ∀ last ∈ indices.getLast?,
          (contents store (handle.blockKey uuids)).isSome =
            (contents store (last.blockKey uuids)).isSome := by
  have hsingle : ∀ handle ∈ indices,
      (chopBlockFetcherExist methods uuids handleClass loopVariable [handle] store).1 =
        .ok [(contents store (handle.blockKey uuids)).isSome] := by
    intro handle hhandle
    have hone : ∀ handle' ∈ [handle], handle'.handleClass = handleClass := by
      simpa using hclass handle hhandle
    cases hplace : handleClass.keysInVariable with
    | false => exact chopBlockFetcherExist_handleField hexist uuids hone loopVariable store hplace
    | true => exact chopBlockFetcherExist_loopVariable hexist uuids hone loopVariable store hplace
  rw [ExistenceAgrees, and_iff_left hsingle]
  cases hplace : handleClass.keysInVariable with
  | false =>
    have hfield : handleClass = .hash ∨ handleClass = .chk := by
      cases handleClass with
      | hash => exact .inl rfl
      | chk => exact .inr rfl
      | integer => cases hplace
      | uuid => cases hplace
    rw [← or_assoc]
    exact iff_of_true
      (chopBlockFetcherExist_handleField hexist uuids hclass loopVariable store hplace) (.inl hfield)
  | true =>
    have hhash : handleClass ≠ .hash := by
      rintro rfl
      cases hplace
    have hchk : handleClass ≠ .chk := by
      rintro rfl
      cases hplace
    rw [chopBlockFetcherExist_loopVariable hexist uuids hclass loopVariable store hplace,
      Except.ok.injEq, List.map_inj_left]
    simp only [hhash, hchk, false_or]
    cases hlast : indices.getLast? with
    | none => simp [List.getLast?_eq_none_iff.mp hlast]
    | some last => simp [eq_comm]

end Classes

theorem BlockMap.reportsExistence : ReportsExistence BlockMap.methods id := fun _ _ => rfl

def oneIntegerBlock (id : UInt32) : BlockMap := Function.update (fun _ => none) (integerKey id) (some [])

/-- Identifiers that are not written as text. -/
def blankUuids : UuidLibrary where
  unparse _ := List.replicate chopUuidSize 0
  parse _ := none
  length_unparse _ := List.length_replicate

theorem blocksExist_agrees_iff_hashes :
    ReportsExistence BlockMap.methods id ∧
      ExistenceAgrees BlockMap.methods blankUuids id .hash []
        [.index (.hash ⟨3, [0, 0, 0, 0]⟩), .index (.hash ⟨5, integerKey 1⟩)] (oneIntegerBlock 1) := by
  refine ⟨BlockMap.reportsExistence, ?_⟩
  refine (blocksExist_agrees_iff BlockMap.reportsExistence blankUuids ?_ [] _).mpr (.inl rfl)
  simp [HandleValue.handleClass]

/-- The block of the first handle is not there, and the flags say that it is. -/
theorem integerBlocksExist_wrong :
    ¬ ExistenceAgrees BlockMap.methods blankUuids id .integer []
      [.index (.integer 0), .index (.integer 1)] (oneIntegerBlock 1) := by
  intro h
  have hflags := h.1
  revert hflags
  decide

end Libchop
