import Libchop.Framework.ByteOrder
import Libchop.Indexer.IndexTuple

/-!
# Index handles in binary form

Key blocks hold handles one after the other without separators.  Hash and CHK handles have a header
with the sizes of their fields, the least significant byte first, and integer handles are four bytes
with the most significant one first.  Deserializers copy the fields into arrays of 1024 bytes.
-/

namespace Libchop

/-- The size of the arrays `content`, `key` and `block_id`. -/
def handleFieldSize : Nat := 1024

/-- `memcpy` into an array of a handle.  A copy that is longer than the array is an abort. -/
def copyToField (bytes : Bytes) : Outcome Bytes :=
  Outcome.assert (bytes.length ≤ handleFieldSize) >>= fun _ => .done bytes

def hihHeaderSize : Nat := 8

def chkHeaderSize : Nat := 12

/-- Four bytes of a size, which has to fit. -/
def serializeSize (size : Nat) : Outcome Bytes :=
  Outcome.assert (size >>> 32 = 0) >>= fun _ => .done (ByteOrder.storeLe size)

def hihSerializeBinary (handle : HashIndexHandle) : Outcome Bytes :=
  serializeSize handle.blockSize >>= fun blockSize =>
  serializeSize handle.content.length >>= fun keySize =>
    .done (blockSize ++ keySize ++ handle.content)

def chkSerializeBinary (handle : ChkIndexHandle) : Outcome Bytes :=
  serializeSize handle.blockSize >>= fun blockSize =>
  serializeSize handle.key.length >>= fun keySize =>
  serializeSize handle.blockId.length >>= fun blockIdSize =>
    .done (blockSize ++ keySize ++ blockIdSize ++ handle.key ++ handle.blockId)

def iihSerializeBinary (id : UInt32) : Bytes := integerKey id

def IndexHandle.serializeBinary : IndexHandle → Outcome Bytes
  | .hash handle => hihSerializeBinary handle
  | .chk handle => chkSerializeBinary handle
  | .integer id => .done (iihSerializeBinary id)

/-- The handle and the number of bytes that were read. -/
def hihDeserializeBinary (input : Bytes) : Outcome (Except ChopError (HashIndexHandle × Nat)) :=
  if input.length < hihHeaderSize then .done (.error .deserialCorruptInput)
  else
    let blockSize := ByteOrder.loadLe input
    let indexSize := ByteOrder.loadLe (input.drop 4)
    if input.length - hihHeaderSize < indexSize then .done (.error .deserialTooShort)
    else
      copyToField ((input.drop 8).take indexSize) >>= fun content =>
        .done (.ok (⟨blockSize, content⟩, indexSize + 8))

def chkDeserializeBinary (input : Bytes) : Outcome (Except ChopError (ChkIndexHandle × Nat)) :=
  if input.length < chkHeaderSize then .done (.error .deserialCorruptInput)
  else
    let blockSize := ByteOrder.loadLe input
    let keySize := ByteOrder.loadLe (input.drop 4)
    let blockIdSize := ByteOrder.loadLe (input.drop 8)
    if input.length - chkHeaderSize < keySize + blockIdSize then .done (.error .deserialTooShort)
    else
      copyToField ((input.drop chkHeaderSize).take keySize) >>= fun key =>
      copyToField ((input.drop (chkHeaderSize + keySize)).take blockIdSize) >>= fun blockId =>
        .done (.ok (⟨blockSize, key, blockId⟩, keySize + blockIdSize + chkHeaderSize))

def iihDeserializeBinary (input : Bytes) : Except ChopError (UInt32 × Nat) :=
  if input.length < 4 then .error .deserialTooShort
  else .ok (UInt32.ofNat (ByteOrder.loadBe input), 4)

def deserializeIndexHandleBinary (indexClass : RtClass) (input : Bytes) :
    Outcome (Except ChopError (IndexHandle × Nat)) :=
  match indexClass with
  | .hashIndexHandle =>
    hihDeserializeBinary input >>= fun result =>
      .done (result.map fun (handle, count) => (.hash handle, count))
  | .chkIndexHandle =>
    chkDeserializeBinary input >>= fun result =>
      .done (result.map fun (handle, count) => (.chk handle, count))
  | .integerIndexHandle =>
    .done ((iihDeserializeBinary input).map fun (id, count) => (.integer id, count))
  | _ => .done (.error .notImpl)

/-- The handles that `chop_decoded_block_next_child` reads from a key block, call after call: there
are still as many children as this, and the next handle stands at the offset. -/
def keyBlockHandles (indexClass : RtClass) (buffer : Bytes) :
    Nat → Nat → Outcome (Except ChopError (List IndexHandle))
  | 0, _ => .done (.ok [])
  | children + 1, offset =>
    if offset ≥ buffer.length then .done (.ok [])
    else
      deserializeIndexHandleBinary indexClass (buffer.drop offset) >>= fun result =>
        match result with
        | .error err => .done (.error err)
        | .ok (index, serializedSize) =>
          keyBlockHandles indexClass buffer children (offset + serializedSize) >>= fun rest =>
            .done (rest.map (index :: ·))

section Fields

theorem copyToField_of_le {bytes : Bytes} (h : bytes.length ≤ handleFieldSize) :
    copyToField bytes = .done bytes := by
  rw [copyToField, Outcome.assert_of h, Outcome.done_bind]

theorem copyToField_eq_done {bytes field : Bytes} (h : copyToField bytes = .done field) :
    field = bytes ∧ bytes.length ≤ handleFieldSize := by
  by_cases hfits : bytes.length ≤ handleFieldSize
  · rw [copyToField_of_le hfits] at h
    exact ⟨(Outcome.done.inj h).symm, hfits⟩
  · rw [copyToField, Outcome.assert_of_not hfits] at h
    cases h

theorem serializeSize_of_lt {size : Nat} (h : size < 2 ^ 32) :
    serializeSize size = .done (ByteOrder.storeLe size) := by
  have hshift : size >>> 32 = 0 := by
    rw [Nat.shiftRight_eq_div_pow]
    exact Nat.div_eq_of_lt h
  rw [serializeSize, Outcome.assert_of hshift, Outcome.done_bind]

theorem serializeSize_eq_done {size : Nat} {bytes : Bytes} (h : serializeSize size = .done bytes) :
    size < 2 ^ 32 ∧ bytes = ByteOrder.storeLe size := by
  by_cases hsize : size < 2 ^ 32
  · rw [serializeSize_of_lt hsize] at h
    exact ⟨hsize, (Outcome.done.inj h).symm⟩
  · have hshift : ¬ size >>> 32 = 0 := by
      rw [Nat.shiftRight_eq_div_pow]
      omega
    rw [serializeSize, Outcome.assert_of_not hshift] at h
    cases h

theorem loadBe_integerKey (id : UInt32) (rest : Bytes) :
    ByteOrder.loadBe (integerKey id ++ rest) = id.toNat := by
  have hlt := id.toNat_lt
  simp only [integerKey, List.cons_append, List.nil_append, ByteOrder.loadBe, ByteOrder.combine_eq,
    UInt32.toNat_toUInt8, UInt32.toNat_shiftRight, Nat.shiftRight_eq_div_pow]
  simp only [show (24 : UInt32).toNat % 32 = 24 from rfl, show (16 : UInt32).toNat % 32 = 16 from rfl,
    show (8 : UInt32).toNat % 32 = 8 from rfl]
  omega

end Fields

section Headers

variable {blockSize keySize blockIdSize : Nat}

/-- A hash handle is read from what stands after its header. -/
theorem hihDeserializeBinary_header (hblock : blockSize < 2 ^ 32) (hkey : keySize < 2 ^ 32)
    (body : Bytes) :
    hihDeserializeBinary (ByteOrder.storeLe blockSize ++ (ByteOrder.storeLe keySize ++ body)) =
      if body.length < keySize then .done (.error .deserialTooShort)
      else
        copyToField (body.take keySize) >>= fun content =>
          .done (.ok (⟨blockSize, content⟩, keySize + 8)) := by
  have hlong : ¬ (ByteOrder.storeLe blockSize ++ (ByteOrder.storeLe keySize ++ body)).length <
      hihHeaderSize := by
    simp [hihHeaderSize]
    omega
  have hbody : (ByteOrder.storeLe blockSize ++ (ByteOrder.storeLe keySize ++ body)).length -
      hihHeaderSize = body.length := by
    simp [hihHeaderSize]
    omega
  have hdrop : (ByteOrder.storeLe blockSize ++ (ByteOrder.storeLe keySize ++ body)).drop 4 =
      ByteOrder.storeLe keySize ++ body := rfl
  have hdrop' : (ByteOrder.storeLe blockSize ++ (ByteOrder.storeLe keySize ++ body)).drop 8 =
      body := rfl
  simp only [hihDeserializeBinary, if_neg hlong, hbody, hdrop, hdrop', ByteOrder.loadLe_storeLe hblock,
    ByteOrder.loadLe_storeLe hkey]

/-- A CHK handle is read from what stands after its header. -/
theorem chkDeserializeBinary_header (hblock : blockSize < 2 ^ 32) (hkey : keySize < 2 ^ 32)
    (hblockId : blockIdSize < 2 ^ 32) (body : Bytes) :
    chkDeserializeBinary (ByteOrder.storeLe blockSize ++
        (ByteOrder.storeLe keySize ++ (ByteOrder.storeLe blockIdSize ++ body))) =
      if body.length < keySize + blockIdSize then .done (.error .deserialTooShort)
      else
        copyToField (body.take keySize) >>= fun key =>
        copyToField ((body.drop keySize).take blockIdSize) >>= fun blockId =>
          .done (.ok (⟨blockSize, key, blockId⟩, keySize + blockIdSize + 12)) := by
  let input := ByteOrder.storeLe blockSize ++
    (ByteOrder.storeLe keySize ++ (ByteOrder.storeLe blockIdSize ++ body))
  have hlong : ¬ input.length < chkHeaderSize := by
    simp [input, chkHeaderSize]
    omega
  have hbody : input.length - chkHeaderSize = body.length := by
    simp [input, chkHeaderSize]
    omega
  have hkeyAt : input.drop 4 = ByteOrder.storeLe keySize ++ (ByteOrder.storeLe blockIdSize ++ body) :=
    rfl
  have hblockIdAt : input.drop 8 = ByteOrder.storeLe blockIdSize ++ body := rfl
  have hbodyAt : input.drop chkHeaderSize = body := rfl
  have hblockIdBody : input.drop (chkHeaderSize + keySize) = body.drop keySize := by
    rw [← List.drop_drop, hbodyAt]
  change chkDeserializeBinary input = _
  simp only [chkDeserializeBinary, if_neg hlong, hbody, hkeyAt, hblockIdAt, hbodyAt, hblockIdBody,
    ByteOrder.loadLe_storeLe hkey, ByteOrder.loadLe_storeLe hblockId]
  simp only [input, ByteOrder.loadLe_storeLe hblock, chkHeaderSize]

end Headers

/-- Sizes that fit in the headers, and fields that fit in the arrays. -/
def IndexHandle.FitsBinary : IndexHandle → Prop
  | .hash handle => handle.blockSize < 2 ^ 32 ∧ handle.content.length ≤ handleFieldSize
  | .chk handle =>
    handle.blockSize < 2 ^ 32 ∧ handle.key.length ≤ handleFieldSize ∧
      handle.blockId.length ≤ handleFieldSize
  | .integer _ => True

/-- The handle is read from these bytes whatever follows them, and from no shorter prefix. -/
structure ReadFrom (index : IndexHandle) (bytes : Bytes) : Prop where
  append : ∀ rest, deserializeIndexHandleBinary index.rtClass (bytes ++ rest) =
    .done (.ok (index, bytes.length))
  truncated : ∀ n, n < bytes.length →
    ∃ err, deserializeIndexHandleBinary index.rtClass (bytes.take n) = .done (.error err)

section Codecs

private theorem handleFieldSize_lt {n : Nat} (h : n ≤ handleFieldSize) : n < 2 ^ 32 :=
  h.trans_lt (by decide)

private theorem take_header {header body : Bytes} {n : Nat} (h : header.length ≤ n) :
    (header ++ body).take n = header ++ body.take (n - header.length) := by
  rw [List.take_append, List.take_of_length_le h]

theorem hash_readFrom {handle : HashIndexHandle} (hblock : handle.blockSize < 2 ^ 32)
    (hcontent : handle.content.length ≤ handleFieldSize) :
    hihSerializeBinary handle = .done (ByteOrder.storeLe handle.blockSize ++
        (ByteOrder.storeLe handle.content.length ++ handle.content)) ∧
      ReadFrom (.hash handle) (ByteOrder.storeLe handle.blockSize ++
        (ByteOrder.storeLe handle.content.length ++ handle.content)) := by
  have hkey := handleFieldSize_lt hcontent
  refine ⟨?_, ?_, ?_⟩
  · simp only [hihSerializeBinary, serializeSize_of_lt hblock, serializeSize_of_lt hkey,
      Outcome.done_bind, List.append_assoc]
  · intro rest
    have hlong : ¬ (handle.content ++ rest).length < handle.content.length := by simp
    simp only [IndexHandle.rtClass, deserializeIndexHandleBinary, List.append_assoc,
      hihDeserializeBinary_header hblock hkey, if_neg hlong, List.take_left,
      copyToField_of_le hcontent, Outcome.done_bind, Except.map]
    simp
    omega
  · intro n hn
    by_cases hheader : n < 8
    · have hshort : ((ByteOrder.storeLe handle.blockSize ++
          (ByteOrder.storeLe handle.content.length ++ handle.content)).take n).length <
            hihHeaderSize := (List.length_take_le _ _).trans_lt hheader
      refine ⟨.deserialCorruptInput, ?_⟩
      simp only [IndexHandle.rtClass, deserializeIndexHandleBinary, hihDeserializeBinary,
        if_pos hshort, Outcome.done_bind, Except.map]
    · have hshort : (handle.content.take (n - 4 - 4)).length < handle.content.length := by
        simp at hn ⊢
        omega
      refine ⟨.deserialTooShort, ?_⟩
      rw [take_header (by simp; omega), take_header (by simp; omega)]
      simp only [IndexHandle.rtClass, deserializeIndexHandleBinary,
        hihDeserializeBinary_header hblock hkey, ByteOrder.length_storeLe, if_pos hshort,
        Outcome.done_bind, Except.map]

theorem chk_readFrom {handle : ChkIndexHandle} (hblock : handle.blockSize < 2 ^ 32)
    (hkey : handle.key.length ≤ handleFieldSize)
    (hblockId : handle.blockId.length ≤ handleFieldSize) :
    chkSerializeBinary handle = .done (ByteOrder.storeLe handle.blockSize ++
        (ByteOrder.storeLe handle.key.length ++ (ByteOrder.storeLe handle.blockId.length ++
          (handle.key ++ handle.blockId)))) ∧
      ReadFrom (.chk handle) (ByteOrder.storeLe handle.blockSize ++
        (ByteOrder.storeLe handle.key.length ++ (ByteOrder.storeLe handle.blockId.length ++
          (handle.key ++ handle.blockId)))) := by
  have hkeySize := handleFieldSize_lt hkey
  have hblockIdSize := handleFieldSize_lt hblockId
  refine ⟨?_, ?_, ?_⟩
  · simp only [chkSerializeBinary, serializeSize_of_lt hblock, serializeSize_of_lt hkeySize,
      serializeSize_of_lt hblockIdSize, Outcome.done_bind, List.append_assoc]
  · intro rest
    have hlong : ¬ (handle.key ++ (handle.blockId ++ rest)).length <
        handle.key.length + handle.blockId.length := by
      simp
    simp only [IndexHandle.rtClass, deserializeIndexHandleBinary, List.append_assoc,
      chkDeserializeBinary_header hblock hkeySize hblockIdSize, if_neg hlong, List.take_left,
      List.drop_left, copyToField_of_le hkey, copyToField_of_le hblockId, Outcome.done_bind,
      Except.map]
    simp
    omega
  · intro n hn
    by_cases hheader : n < 12
    · have hshort : ((ByteOrder.storeLe handle.blockSize ++
          (ByteOrder.storeLe handle.key.length ++ (ByteOrder.storeLe handle.blockId.length ++
            (handle.key ++ handle.blockId)))).take n).length < chkHeaderSize :=
        (List.length_take_le _ _).trans_lt hheader
      refine ⟨.deserialCorruptInput, ?_⟩
      simp only [IndexHandle.rtClass, deserializeIndexHandleBinary, chkDeserializeBinary,
        if_pos hshort, Outcome.done_bind, Except.map]
    · have hshort : ((handle.key ++ handle.blockId).take (n - 4 - 4 - 4)).length <
          handle.key.length + handle.blockId.length := by
        simp at hn ⊢
        omega
      refine ⟨.deserialTooShort, ?_⟩
      rw [take_header (by simp; omega), take_header (by simp; omega), take_header (by simp; omega)]
      simp only [IndexHandle.rtClass, deserializeIndexHandleBinary,
        chkDeserializeBinary_header hblock hkeySize hblockIdSize, ByteOrder.length_storeLe,
        if_pos hshort, Outcome.done_bind, Except.map]

theorem integer_readFrom (id : UInt32) : ReadFrom (.integer id) (iihSerializeBinary id) where
  append := by
    intro rest
    have hlong : ¬ (integerKey id ++ rest).length < 4 := by simp [integerKey]
    simp only [IndexHandle.rtClass, deserializeIndexHandleBinary, iihDeserializeBinary,
      iihSerializeBinary, if_neg hlong, loadBe_integerKey, UInt32.ofNat_toNat, Except.map]
    rfl
  truncated := by
    intro n hn
    have hshort : ((iihSerializeBinary id).take n).length < 4 :=
      (List.length_take_le _ _).trans_lt hn
    refine ⟨.deserialTooShort, ?_⟩
    simp only [IndexHandle.rtClass, deserializeIndexHandleBinary, iihDeserializeBinary,
      if_pos hshort, Except.map]

/-- Handles are written, and read back from what was written. -/
theorem IndexHandle.FitsBinary.readFrom {index : IndexHandle} (h : index.FitsBinary) :
    ∃ bytes, index.serializeBinary = .done bytes ∧ ReadFrom index bytes := by
  cases index with
  | hash handle => exact ⟨_, hash_readFrom h.1 h.2⟩
  | chk handle => exact ⟨_, chk_readFrom h.1 h.2.1 h.2.2⟩
  | integer id => exact ⟨_, rfl, integer_readFrom id⟩

theorem IndexHandle.Describes.fitsBinary {block : Bytes} {index : IndexHandle}
    (h : index.Describes block) (hblock : block.length < 2 ^ 32) : index.FitsBinary := by
  have hfield : ∀ {n : Nat}, n ≤ 64 → n ≤ handleFieldSize := fun h => h.trans (by decide)
  cases index with
  | hash handle => exact ⟨h.1 ▸ hblock, hfield h.2⟩
  | chk handle => exact ⟨h.1 ▸ hblock, hfield h.2.1, hfield h.2.2⟩
  | integer id => trivial

end Codecs

/-- No handle is written as nothing: nothing is read from nothing. -/
theorem ReadFrom.ne_nil {index : IndexHandle} {bytes : Bytes} (h : ReadFrom index bytes) :
    bytes ≠ [] := by
  rintro rfl
  have happend := h.append []
  cases index with
  | hash handle => cases happend
  | chk handle => cases happend
  | integer id => cases happend

/-- The handles of a key block from any of them on. -/
theorem keyBlockHandles_flatMap {indexClass : RtClass} {serialized : IndexHandle → Bytes}
    (before : Bytes) (indexes : List IndexHandle)
    (h : ∀ index ∈ indexes, index.rtClass = indexClass ∧ ReadFrom index (serialized index)) :
    keyBlockHandles indexClass (before ++ indexes.flatMap serialized) indexes.length before.length =
      .done (.ok indexes) := by
  induction indexes generalizing before with
  | nil => rfl
  | cons index indexes ih =>
    obtain ⟨⟨hclass, hread⟩, hrest⟩ := List.forall_mem_cons.mp h
    have hlength := List.length_pos_of_ne_nil hread.ne_nil
    have hmore : ¬ before.length ≥ (before ++ (index :: indexes).flatMap serialized).length := by
      simp only [List.flatMap_cons, List.length_append]
      omega
    have hread := hread.append (indexes.flatMap serialized)
    have ih := ih (before ++ serialized index) hrest
    rw [List.append_assoc, List.length_append] at ih
    rw [hclass] at hread
    rw [List.length_cons, keyBlockHandles, if_neg hmore, List.drop_left]
    simp only [List.flatMap_cons, hread, Outcome.done_bind, ih, Except.map]

/-- The handle was returned by a block indexer for a block whose size fits in four bytes. -/
def IndexHandle.Indexed (index : IndexHandle) : Prop :=
  ∃ (σ : Type) (methods : StoreMethods σ) (hash : HashFunctions) (ciphers : Ciphers)
    (blockIndexer blockIndexer' : BlockIndexerObject) (randoms : List (Nat → UInt8)) (block : Bytes)
    (store store' : σ),
    block.length < 2 ^ 32 ∧ blockIndexer.indexBlock methods hash ciphers randoms block store =
      .done (.ok index, blockIndexer', store')

theorem IndexHandle.Indexed.fitsBinary {index : IndexHandle} (h : index.Indexed) :
    index.FitsBinary := by
  obtain ⟨_, _, _, _, _, _, _, _, _, _, hblock, h⟩ := h
  exact (indexBlock_describes h).1.fitsBinary hblock

/-- Handles that block indexers returned are written in binary form, read back from it whatever
follows, and from nothing shorter.  So the body of a key block is read back as its handles. -/
theorem binaryHandles_roundTrip {indexClass : RtClass} {indexes : List IndexHandle}
    (h : ∀ index ∈ indexes, index.rtClass = indexClass ∧ index.Indexed) :
    ∃ serialized : IndexHandle → Bytes,
      (∀ index ∈ indexes, index.serializeBinary = .done (serialized index) ∧
        (∀ rest, deserializeIndexHandleBinary indexClass (serialized index ++ rest) =
          .done (.ok (index, (serialized index).length))) ∧
        ∀ n, n < (serialized index).length →
          ∃ err, deserializeIndexHandleBinary indexClass ((serialized index).take n) =
            .done (.error err)) ∧
      ∀ header, keyBlockHandles indexClass (header ++ indexes.flatMap serialized) indexes.length
        header.length = .done (.ok indexes) := by
  have hread : ∀ index, ∃ bytes, index ∈ indexes →
      index.serializeBinary = .done bytes ∧ ReadFrom index bytes := by
    intro index
    by_cases hmem : index ∈ indexes
    · obtain ⟨bytes, hbytes⟩ := (h index hmem).2.fitsBinary.readFrom
      exact ⟨bytes, fun _ => hbytes⟩
    · exact ⟨[], fun hmem' => (hmem hmem').elim⟩
  choose serialized hserialized using hread
  refine ⟨serialized, ?_, ?_⟩
  · intro index hmem
    obtain ⟨hwritten, hback⟩ := hserialized index hmem
    rw [← (h index hmem).1]
    exact ⟨hwritten, hback.append, hback.truncated⟩
  · intro header
    apply keyBlockHandles_flatMap
    intro index hmem
    exact ⟨(h index hmem).1, (hserialized index hmem).2⟩

/-- An encrypted block and two handles of it in a key block. -/
theorem sampleHandles_roundTrip :
    ∃ index blockIndexer store,
      (BlockIndexerObject.chk sampleChkIndexer).indexBlock blockMapStore sampleDigests sampleCiphers []
          (cString "abc") (fun _ => none) = .done (.ok index, blockIndexer, store) ∧
      ∃ serialized : IndexHandle → Bytes,
        (∀ index' ∈ [index, index], index'.serializeBinary = .done (serialized index') ∧
          (∀ rest, deserializeIndexHandleBinary .chkIndexHandle (serialized index' ++ rest) =
            .done (.ok (index', (serialized index').length))) ∧
          ∀ n, n < (serialized index').length →
            ∃ err, deserializeIndexHandleBinary .chkIndexHandle ((serialized index').take n) =
              .done (.error err)) ∧
        ∀ header, keyBlockHandles .chkIndexHandle (header ++ [index, index].flatMap serialized) 2
          header.length = .done (.ok [index, index]) := by
  have hindex : ∃ index blockIndexer store,
      (BlockIndexerObject.chk sampleChkIndexer).indexBlock blockMapStore sampleDigests sampleCiphers []
          (cString "abc") (fun _ => none) = .done (.ok index, blockIndexer, store) ∧
        index.rtClass = .chkIndexHandle := ⟨_, _, _, rfl, rfl⟩
  obtain ⟨index, blockIndexer, store, hindex, hclass⟩ := hindex
  refine ⟨index, blockIndexer, store, hindex, ?_⟩
  apply binaryHandles_roundTrip
  intro index' hmem
  rw [List.mem_pair, or_self] at hmem
  rw [hmem]
  exact ⟨hclass, _, _, _, _, _, _, _, _, _, _, by decide, hindex⟩

end Libchop
