import Libchop.Indexer.FieldBounds

/-!
# The size of index handles

A handle records the size of its binary form when it is made, and `chop_key_block_add_index` relies
on it.  Handles are made by indexing a block, by reading them from text or bytes, and by copying.
The code that reads CHK handles leaves out the block identifier, and the code that copies integer
handles leaves the size as it was in the memory of the copy.
-/

namespace Libchop

def chopUuidSize : Nat := 37

/-- The functions of libuuid.  An identifier is written as 36 characters and a null character. -/
structure UuidLibrary where
  unparse : Bytes → Bytes
  parse : Bytes → Option Bytes
  length_unparse : ∀ uuid, (unparse uuid).length = chopUuidSize

inductive HandleClass where
  | hash
  | chk
  | integer
  | uuid
deriving DecidableEq, Repr

/-- What a handle holds after the fields of `chop_index_handle_t`. -/
inductive HandleValue where
  | index (index : IndexHandle)
  | uuid (uuid : Bytes)
deriving DecidableEq, Repr

structure HandleObject where
  size : Nat
  value : HandleValue
deriving DecidableEq, Repr

def HandleValue.handleClass : HandleValue → HandleClass
  | .index (.hash _) => .hash
  | .index (.chk _) => .chk
  | .index (.integer _) => .integer
  | .uuid _ => .uuid

def chopIndexHandleBinarySize (object : HandleObject) : Nat := object.size

section Objects

variable (uuids : UuidLibrary)

def uihSerialize (uuid : Bytes) : Bytes := uuids.unparse uuid

def uihDeserialize (input : Bytes) : Except ChopError (Bytes × Nat) :=
  if input.length < 37 then .error .deserialTooShort
  else
    match uuids.parse input with
    | none => .error .deserialCorruptInput
    | some uuid => .ok (uuid, 37)

def HandleObject.serializeBinary (object : HandleObject) : Outcome Bytes :=
  match object.value with
  | .index handle => handle.serializeBinary
  | .uuid uuid => .done (uihSerialize uuids uuid)

def iihDeserializeBy (method : SerialMethod) (input : Bytes) : Except ChopError (UInt32 × Nat) :=
  match method with
  | .ascii => iihDeserialize input input.length
  | .binary => iihDeserializeBinary input

/-- The handle that was read, with the size that the deserializer of its class gives it. -/
def deserializeHandle (handleClass : HandleClass) (method : SerialMethod) (input : Bytes) :
    Outcome (Except ChopError HandleObject) :=
  match handleClass with
  | .hash =>
    hihDeserializeBy method input >>= fun result =>
      .done (result.map fun (handle, _) =>
        ⟨handle.content.length + hihHeaderSize, .index (.hash handle)⟩)
  | .chk =>
    chkDeserializeBy method input >>= fun result =>
      .done (result.map fun (handle, _) => ⟨handle.key.length + chkHeaderSize, .index (.chk handle)⟩)
  | .integer =>
    .done ((iihDeserializeBy method input).map fun (id, _) => ⟨4, .index (.integer id)⟩)
  | .uuid =>
    .done ((uihDeserialize uuids input).map fun (uuid, _) => ⟨chopUuidSize, .uuid uuid⟩)

def indexedSize : IndexHandle → Nat
  | .hash handle => handle.content.length + hihHeaderSize
  | .chk handle => handle.key.length + handle.blockId.length + chkHeaderSize
  | .integer _ => 4

def iihCopy (id : UInt32) (destination : HandleObject) : HandleObject :=
  { destination with value := .index (.integer id) }

def uihCopy (uuid : Bytes) (destination : HandleObject) : HandleObject :=
  { destination with size := chopUuidSize, value := .uuid uuid }

/-- `chop_object_copy`.  Of the classes above the handle's own only that of all objects has a copy
constructor, and it copies the class.  The rest is copied by the class of the handle, or byte for
byte. -/
def chopObjectCopy (source destination : HandleObject) : HandleObject :=
  match source.value with
  | .index (.integer id) => iihCopy id destination
  | .uuid uuid => uihCopy uuid destination
  | _ => source

end Objects

/-- How a handle was made. -/
inductive Origin (σ : Type) where
  | indexed (blockIndexer : BlockIndexerObject) (randoms : List (Nat → UInt8)) (block : Bytes)
    (store : σ)
  | indexedByUuid (uuid block : Bytes) (store : σ)
  | deserialized (handleClass : HandleClass) (method : SerialMethod) (input : Bytes)
  | copied (source : Origin σ) (destination : HandleObject)

namespace Origin

variable {σ : Type} (methods : StoreMethods σ) (hash : HashFunctions) (ciphers : Ciphers)
  (uuids : UuidLibrary)

def handle : Origin σ → Outcome (Except ChopError HandleObject)
  | .indexed blockIndexer randoms block store =>
    blockIndexer.indexBlock methods hash ciphers randoms block store >>= fun (result, _, _) =>
      .done (result.map fun index => ⟨indexedSize index, .index index⟩)
  | .indexedByUuid uuid block store =>
    match methods.writeBlock (uuids.unparse uuid) block store with
    | (.error err, _) => .done (.error err)
    | (.ok _, _) => .done (.ok ⟨chopUuidSize, .uuid uuid⟩)
  | .deserialized handleClass method input => deserializeHandle uuids handleClass method input
  | .copied source destination =>
    source.handle >>= fun result => .done (result.map (chopObjectCopy · destination))

def handleClass : Origin σ → HandleClass
  | .indexed (.hash _) _ _ _ => .hash
  | .indexed (.chk _) _ _ _ => .chk
  | .indexed (.integer _) _ _ _ => .integer
  | .indexedByUuid _ _ _ => .uuid
  | .deserialized handleClass _ _ => handleClass
  | .copied source _ => source.handleClass

/-- The block identifier that stands in the input of a CHK handle. -/
def encodedBlockId (method : SerialMethod) (input : Bytes) : Bytes :=
  match method with
  | .binary =>
    (input.drop (chkHeaderSize + ByteOrder.loadLe (input.drop 4))).take
      (ByteOrder.loadLe (input.drop 8))
  | .ascii =>
    match CText.splitAt CText.comma (input.take 1023) with
    | none => []
    | some (_, afterComma) =>
      match CText.splitAt CText.slash afterComma with
      | none => []
      | some (blockId, _) => (chopBase32StringToBuffer blockId).1

/-- CHK handles are not read from input with a block identifier, and integer handles are copied to
memory that happens to hold their size. -/
def KeepsSize : Origin σ → Prop
  | .indexed _ _ _ _ => True
  | .indexedByUuid _ _ _ => True
  | .deserialized handleClass method input =>
    handleClass = .chk → encodedBlockId method input = []
  | .copied source destination =>
    match source.handleClass with
    | .integer => destination.size = 4
    | .uuid => True
    | _ => source.KeepsSize

end Origin

def HandleValue.binarySize : HandleValue → Nat
  | .index handle => indexedSize handle
  | .uuid _ => chopUuidSize

def HandleValue.blockSize : HandleValue → Nat
  | .index (.hash handle) => handle.blockSize
  | .index (.chk handle) => handle.blockSize
  | _ => 0

/-- The fields are not longer than the arrays they are in. -/
def HandleValue.FieldsFit : HandleValue → Prop
  | .index (.hash handle) => ∀ size ∈ handle.sizes, size ≤ handleFieldSize
  | .index (.chk handle) => ∀ size ∈ handle.sizes, size ≤ handleFieldSize
  | _ => True

section Serialized

private theorem serializeSize_returns_iff {size : Nat} :
    (serializeSize size).Returns ↔ size < 2 ^ 32 := by
  constructor
  · rintro ⟨bytes, hbytes⟩
    exact (serializeSize_eq_done hbytes).1
  · intro hsize
    exact ⟨_, serializeSize_of_lt hsize⟩

theorem length_serializeBinary {index : IndexHandle} {bytes : Bytes}
    (h : index.serializeBinary = .done bytes) : bytes.length = indexedSize index := by
  cases index with
  | hash handle =>
    obtain ⟨blockSize, hblock, h⟩ := Outcome.bind_eq_done.mp h
    obtain ⟨keySize, hkey, h⟩ := Outcome.bind_eq_done.mp h
    cases h
    simp only [(serializeSize_eq_done hblock).2, (serializeSize_eq_done hkey).2, indexedSize,
      List.length_append, ByteOrder.length_storeLe, hihHeaderSize]
    omega
  | chk handle =>
    obtain ⟨blockSize, hblock, h⟩ := Outcome.bind_eq_done.mp h
    obtain ⟨keySize, hkey, h⟩ := Outcome.bind_eq_done.mp h
    obtain ⟨blockIdSize, hblockId, h⟩ := Outcome.bind_eq_done.mp h
    cases h
    simp only [(serializeSize_eq_done hblock).2, (serializeSize_eq_done hkey).2,
      (serializeSize_eq_done hblockId).2, indexedSize, List.length_append,
      ByteOrder.length_storeLe, chkHeaderSize]
    omega
  | integer id =>
    cases h
    rfl

private theorem bind_returns {α β : Type} {x : Outcome α} {f : α → Outcome β}
    (h : (x >>= f).Returns) : x.Returns := by
  obtain ⟨b, hb⟩ := h
  obtain ⟨a, ha, -⟩ := Outcome.bind_eq_done.mp hb
  exact ⟨a, ha⟩

/-- A handle is written unless its block is too large. -/
theorem serializeBinary_returns_iff {uuids : UuidLibrary} {object : HandleObject}
    (h : object.value.FieldsFit) :
    (object.serializeBinary uuids).Returns ↔ object.value.blockSize < 2 ^ 32 := by
  obtain ⟨size, value⟩ := object
  cases value with
  | uuid uuid => exact iff_of_true ⟨_, rfl⟩ (by decide : (0 : Nat) < 2 ^ 32)
  | index index =>
    cases index with
    | integer id => exact iff_of_true ⟨_, rfl⟩ (by decide : (0 : Nat) < 2 ^ 32)
    | hash handle =>
      constructor
      · intro hreturns
        exact serializeSize_returns_iff.mp (bind_returns hreturns)
      · intro hblock
        exact ⟨_, (hash_readFrom hblock (h _ (List.mem_singleton.mpr rfl))).1⟩
    | chk handle =>
      have hkey := h _ List.mem_cons_self
      have hblockId := h _ (List.mem_cons_of_mem _ (List.mem_singleton.mpr rfl))
      constructor
      · intro hreturns
        exact serializeSize_returns_iff.mp (bind_returns hreturns)
      · intro hblock
        exact ⟨_, (chk_readFrom hblock hkey hblockId).1⟩

theorem length_objectSerializeBinary {uuids : UuidLibrary} {object : HandleObject} {bytes : Bytes}
    (h : object.serializeBinary uuids = .done bytes) : bytes.length = object.value.binarySize := by
  obtain ⟨size, value⟩ := object
  cases value with
  | index index => exact length_serializeBinary h
  | uuid uuid =>
    cases h
    exact uuids.length_unparse uuid

end Serialized

section ChkInput

private theorem blockId_of_ascii {input : Bytes} {handle : ChkIndexHandle} {count : Nat}
    (h : chkDeserialize input input.length = .ok (handle, count)) :
    handle.blockId = Origin.encodedBlockId .ascii input := by
  have hinput : input.take (if input.length > 1023 then 1023 else input.length) =
      input.take 1023 := by
    split
    · rfl
    · next hshort => rw [List.take_length, List.take_of_length_le (by omega)]
  simp only [chkDeserialize, hinput] at h
  simp only [Origin.encodedBlockId, CText.splitAt]
  generalize input.take 1023 = text at h
  cases hcomma : CText.strchr CText.comma text with
  | none =>
    rw [hcomma] at h
    cases h
  | some commaPosition =>
    simp only [hcomma] at h
    split at h
    · cases h
    · simp only [Option.map_some]
      cases hslash : CText.strchr CText.slash (text.drop (commaPosition + 1)) with
      | none =>
        rw [hslash] at h
        cases h
      | some slashPosition =>
        simp only [hslash] at h
        split at h
        · cases h
        · obtain ⟨number, -, hhandle⟩ := except_map_eq_ok.mp h
          cases hhandle
          rfl

private theorem blockId_of_binary {input : Bytes} {handle : ChkIndexHandle} {count : Nat}
    (h : chkDeserializeBinary input = .done (.ok (handle, count))) :
    handle.blockId = Origin.encodedBlockId .binary input := by
  simp only [chkDeserializeBinary] at h
  split at h
  · cases h
  · split at h
    · cases h
    · obtain ⟨key, hkey, h⟩ := Outcome.bind_eq_done.mp h
      obtain ⟨blockId, hblockId, h⟩ := Outcome.bind_eq_done.mp h
      cases h
      exact (copyToField_eq_done hblockId).1

/-- The block identifier of a CHK handle is the one in the input it was read from. -/
theorem blockId_of_chkDeserializeBy {method : SerialMethod} {input : Bytes}
    {handle : ChkIndexHandle} {count : Nat}
    (h : chkDeserializeBy method input = .done (.ok (handle, count))) :
    handle.blockId = Origin.encodedBlockId method input := by
  cases method with
  | ascii =>
    rw [chkDeserializeBy, chkDeserializeAscii_eq] at h
    exact blockId_of_ascii (Outcome.done.inj h)
  | binary => exact blockId_of_binary h

end ChkInput

/-- What holds of a handle by the way it was made. -/
structure Origin.Made {σ : Type} (origin : Origin σ) (object : HandleObject) : Prop where
  handleClass : object.value.handleClass = origin.handleClass
  fieldsFit : object.value.FieldsFit
  size : object.size = object.value.binarySize ↔ origin.KeepsSize

section Made

variable {σ : Type} {methods : StoreMethods σ} {hash : HashFunctions} {ciphers : Ciphers}
  {uuids : UuidLibrary}

private theorem made_indexed {blockIndexer : BlockIndexerObject} {randoms : List (Nat → UInt8)}
    {block : Bytes} {store : σ} {object : HandleObject}
    (h : (Origin.indexed blockIndexer randoms block store).handle methods hash ciphers uuids =
      .done (.ok object)) : (Origin.indexed blockIndexer randoms block store).Made object := by
  obtain ⟨⟨result, blockIndexer', store'⟩, hindexed, h⟩ := Outcome.bind_eq_done.mp h
  obtain ⟨index, rfl, rfl⟩ := except_map_eq_ok.mp (Outcome.done.inj h)
  obtain ⟨hdescribes, hclass, -⟩ := indexBlock_describes hindexed
  have hfield : ∀ {n : Nat}, n ≤ 64 → n ≤ handleFieldSize := fun h => h.trans (by decide)
  refine ⟨?_, ?_, iff_of_true rfl trivial⟩
  · cases blockIndexer <;> cases index <;> first | rfl | cases hclass
  · cases index with
    | hash handle =>
      simp only [HandleValue.FieldsFit, HashIndexHandle.sizes, List.mem_singleton, forall_eq]
      exact hfield hdescribes.2
    | chk handle =>
      simp only [HandleValue.FieldsFit, ChkIndexHandle.sizes, List.forall_mem_cons]
      exact ⟨hfield hdescribes.2.1, hfield hdescribes.2.2, by simp⟩
    | integer id => trivial

private theorem made_indexedByUuid {uuid block : Bytes} {store : σ} {object : HandleObject}
    (h : (Origin.indexedByUuid uuid block store).handle methods hash ciphers uuids =
      .done (.ok object)) : (Origin.indexedByUuid uuid block store).Made object := by
  simp only [Origin.handle] at h
  split at h
  · cases h
  · cases h
    exact ⟨rfl, trivial, iff_of_true rfl trivial⟩

private theorem made_deserialized {handleClass : HandleClass} {method : SerialMethod}
    {input : Bytes} {object : HandleObject}
    (h : deserializeHandle uuids handleClass method input = .done (.ok object)) :
    (Origin.deserialized handleClass method input : Origin σ).Made object := by
  cases handleClass with
  | hash =>
    obtain ⟨result, hresult, h⟩ := Outcome.bind_eq_done.mp h
    obtain ⟨⟨handle, count⟩, rfl, rfl⟩ := except_map_eq_ok.mp (Outcome.done.inj h)
    exact ⟨rfl, hihDeserializeBy_sizes hresult, iff_of_true rfl fun hchk => by cases hchk⟩
  | chk =>
    obtain ⟨result, hresult, h⟩ := Outcome.bind_eq_done.mp h
    obtain ⟨⟨handle, count⟩, rfl, rfl⟩ := except_map_eq_ok.mp (Outcome.done.inj h)
    refine ⟨rfl, chkDeserializeBy_sizes hresult, ?_⟩
    simp only [Origin.KeepsSize, forall_const, ← blockId_of_chkDeserializeBy hresult,
      HandleValue.binarySize, indexedSize, ← List.length_eq_zero_iff]
    omega
  | integer =>
    obtain ⟨⟨id, count⟩, -, rfl⟩ := except_map_eq_ok.mp (Outcome.done.inj h)
    exact ⟨rfl, trivial, iff_of_true rfl fun hchk => by cases hchk⟩
  | uuid =>
    obtain ⟨⟨uuid, count⟩, -, rfl⟩ := except_map_eq_ok.mp (Outcome.done.inj h)
    exact ⟨rfl, trivial, iff_of_true rfl fun hchk => by cases hchk⟩

private theorem Origin.Made.copy {source : Origin σ} {object : HandleObject}
    (h : source.Made object) (destination : HandleObject) :
    (Origin.copied source destination).Made (chopObjectCopy object destination) := by
  obtain ⟨size, value⟩ := object
  have hclass := h.handleClass
  have hfields := h.fieldsFit
  have hsize := h.size
  cases value with
  | uuid uuid =>
    refine ⟨hclass, trivial, iff_of_true rfl ?_⟩
    simp only [Origin.KeepsSize, ← hclass, HandleValue.handleClass]
  | index index =>
    cases index with
    | hash handle =>
      refine ⟨hclass, hfields, ?_⟩
      simp only [Origin.KeepsSize, ← hclass, HandleValue.handleClass]
      exact hsize
    | chk handle =>
      refine ⟨hclass, hfields, ?_⟩
      simp only [Origin.KeepsSize, ← hclass, HandleValue.handleClass]
      exact hsize
    | integer id =>
      refine ⟨hclass, trivial, ?_⟩
      simp only [Origin.KeepsSize, ← hclass, HandleValue.handleClass]
      exact Iff.rfl

/-- Induction over the ways to make a handle. -/
theorem Origin.made_of_handle {origin : Origin σ} {object : HandleObject}
    (h : origin.handle methods hash ciphers uuids = .done (.ok object)) : origin.Made object := by
  induction origin generalizing object with
  | indexed blockIndexer randoms block store => exact made_indexed h
  | indexedByUuid uuid block store => exact made_indexedByUuid h
  | deserialized handleClass method input => exact made_deserialized h
  | copied source destination ih =>
    obtain ⟨result, hresult, h⟩ := Outcome.bind_eq_done.mp h
    obtain ⟨original, rfl, rfl⟩ := except_map_eq_ok.mp (Outcome.done.inj h)
    exact (ih hresult).copy destination

/-- Every handle can be written in binary form unless its block is too large for that, and its size
is the length of this form exactly when it was neither read as a CHK handle with a block identifier
nor copied as an integer handle to memory with another size. -/
theorem handleSize_eq_iff {origin : Origin σ} {object : HandleObject}
    (h : origin.handle methods hash ciphers uuids = .done (.ok object)) :
    ((object.serializeBinary uuids).Returns ↔ object.value.blockSize < 2 ^ 32) ∧
      ∀ bytes, object.serializeBinary uuids = .done bytes →
        (chopIndexHandleBinarySize object = bytes.length ↔ origin.KeepsSize) := by
  have hmade := Origin.made_of_handle h
  refine ⟨serializeBinary_returns_iff hmade.fieldsFit, ?_⟩
  intro bytes hbytes
  rw [length_objectSerializeBinary hbytes]
  exact hmade.size

end Made

/-- Identifiers as they are, cut or filled to the right length. -/
def sampleUuids : UuidLibrary where
  unparse uuid := (uuid ++ List.replicate 37 0).take 37
  parse input := some (input.take 16)
  length_unparse uuid := by simp [chopUuidSize]

/-- Bytes of a CHK handle with an empty key and a block identifier of one byte. -/
def sampleChkInput : Bytes := [3, 0, 0, 0, 0, 0, 0, 0, 1, 0, 0, 0, 7]

/-- A CHK handle that was read, and its copy. -/
theorem sampleChkInput_size :
    (Origin.copied (.deserialized .chk .binary sampleChkInput) ⟨0, .uuid []⟩).handle blockMapStore
        sampleDigests sampleCiphers sampleUuids = .done (.ok ⟨12, .index (.chk ⟨3, [], [7]⟩)⟩) ∧
      ((⟨12, .index (.chk ⟨3, [], [7]⟩)⟩ : HandleObject).serializeBinary sampleUuids).Returns ∧
      ∀ bytes, (⟨12, .index (.chk ⟨3, [], [7]⟩)⟩ : HandleObject).serializeBinary sampleUuids =
          .done bytes → (12 = bytes.length ↔
            (Origin.copied (.deserialized .chk .binary sampleChkInput) ⟨0, .uuid []⟩ :
              Origin (Bytes → Option Bytes)).KeepsSize) := by
  have hhandle : (Origin.copied (.deserialized .chk .binary sampleChkInput) ⟨0, .uuid []⟩).handle
      blockMapStore sampleDigests sampleCiphers sampleUuids =
        .done (.ok ⟨12, .index (.chk ⟨3, [], [7]⟩)⟩) := rfl
  have hsize := handleSize_eq_iff hhandle
  exact ⟨hhandle, hsize.1.mpr (by decide), hsize.2⟩

/-- The handle needs one byte more than it says, and an integer handle that was copied to memory full
of zeros needs four. -/
theorem deserializedChk_size_ne :
    (Origin.deserialized .chk .binary sampleChkInput).handle blockMapStore sampleDigests
        sampleCiphers sampleUuids = .done (.ok ⟨12, .index (.chk ⟨3, [], [7]⟩)⟩) ∧
      (⟨12, .index (.chk ⟨3, [], [7]⟩)⟩ : HandleObject).serializeBinary sampleUuids =
        .done sampleChkInput ∧
      chopIndexHandleBinarySize ⟨12, .index (.chk ⟨3, [], [7]⟩)⟩ ≠ sampleChkInput.length ∧
      (Origin.copied (.deserialized .integer .binary [0, 0, 0, 5]) ⟨0, .uuid []⟩).handle
          blockMapStore sampleDigests sampleCiphers sampleUuids =
        .done (.ok ⟨0, .index (.integer 5)⟩) ∧
      (⟨0, .index (.integer 5)⟩ : HandleObject).serializeBinary sampleUuids =
        .done [0, 0, 0, 5] ∧
      chopIndexHandleBinarySize ⟨0, .index (.integer 5)⟩ ≠ List.length [0, 0, 0, 5] := by
  refine ⟨rfl, rfl, by decide, rfl, rfl, by decide⟩

end Libchop
