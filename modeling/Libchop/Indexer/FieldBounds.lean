import Libchop.Indexer.BinaryHandles

/-!
# Writes of the deserializers

The deserializers of handles fill arrays of 1024 bytes, and that of hash block indexers a name of 512
characters.  ASCII input is cut to what the arrays hold.  Binary input says itself how much to copy,
and the null character after a name is written without a check.
-/

namespace Libchop

inductive SerialMethod where
  | ascii
  | binary
deriving DecidableEq, Repr

/-- Where the quintet at a position of its group writes, when this many bytes are complete. -/
def quintetWrites (position written : Nat) : List Nat :=
  match position with
  | 1 | 3 | 4 | 6 => [written, written + 1]
  | _ => [written]

/-- The offsets that the loops of `chop_base32_string_to_buffer` write to. -/
def base32Writes (position : Nat) (out : UInt8) (written : Nat) : Bytes → List Nat
  | [] => []
  | c :: b32 =>
    if position = 0 ∧ b32.length + 1 < 8 then []
    else if c = base32Pad then []
    else if isBase32 c = false then []
    else
      let consumed := consumeQuintet position (base32Value c) out
      quintetWrites position written ++
        base32Writes ((position + 1) % 8) consumed.2 (written + consumed.1.toList.length) b32

/-- `chop_base32_string_to_buffer` into an array of a handle. -/
def chopBase32StringToField (b32 : Bytes) : Outcome (Bytes × Nat) :=
  Outcome.assert (∀ offset ∈ base32Writes 0 0 0 b32, offset < handleFieldSize) >>= fun _ =>
    .done (chopBase32StringToBuffer b32)

/-- The ASCII part of `hih_deserialize`, with the accesses it makes to the handle. -/
def hihDeserializeAscii (buffer : Bytes) (size : Nat) :
    Outcome (Except ChopError (HashIndexHandle × Nat)) :=
  let input := buffer.take (if size > 1023 then 1023 else size)
  match CText.strchr CText.slash input with
  | none => .done (.error .deserialCorruptInput)
  | some slashPosition =>
    Outcome.assert (slashPosition ≤ handleFieldSize) >>= fun _ =>
    chopBase32StringToField (input.take slashPosition) >>= fun (content, keyEnd) =>
      if keyEnd ≠ slashPosition then .done (.error .deserialCorruptInput)
      else
        .done ((readBlockSize (slashPosition + 1) (input.drop (slashPosition + 1))).map
          fun (blockSize, count) => (⟨blockSize, content⟩, count))

/-- The ASCII part of `chk_deserialize`, with the accesses it makes to the handle. -/
def chkDeserializeAscii (buffer : Bytes) (size : Nat) :
    Outcome (Except ChopError (ChkIndexHandle × Nat)) :=
  let input := buffer.take (if size > 1023 then 1023 else size)
  match CText.strchr CText.comma input with
  | none => .done (.error .deserialCorruptInput)
  | some commaPosition =>
    Outcome.assert (commaPosition ≤ handleFieldSize) >>= fun _ =>
    chopBase32StringToField (input.take commaPosition) >>= fun (key, keyEnd) =>
      if keyEnd ≠ commaPosition then .done (.error .deserialCorruptInput)
      else
        let afterComma := input.drop (commaPosition + 1)
        match CText.strchr CText.slash afterComma with
        | none => .done (.error .deserialCorruptInput)
        | some slashPosition =>
          Outcome.assert (slashPosition + 1 + 1 ≤ handleFieldSize) >>= fun _ =>
          chopBase32StringToField (afterComma.take slashPosition) >>= fun (blockId, blockIdEnd) =>
            if blockIdEnd ≠ slashPosition then .done (.error .deserialCorruptInput)
            else
              .done ((readBlockSize (commaPosition + 1 + slashPosition + 1)
                (afterComma.drop (slashPosition + 1))).map
                  fun (blockSize, count) => (⟨blockSize, key, blockId⟩, count))

/-- What a deserializer returns.  The number of bytes that were read is `none` where the code leaves
it as it was. -/
structure Deserialized (α : Type) where
  result : Except ChopError α
  bytesRead : Option Nat
deriving Repr

/-- The size of the array `name`. -/
def hbiNameSize : Nat := 512

/-- The loop of `hbi_deserialize`: the name it copied, or nothing if there was no room. -/
def hbiReadName (name : Bytes) : Bytes → Option Bytes
  | [] => some name
  | c :: text =>
    if CText.isAlnum c = true then
      if name.length ≥ hbiNameSize then none else hbiReadName (name ++ [c]) text
    else some name

/-- `hbi_deserialize`.  The null character after the name has to be inside the array. -/
def hbiDeserialize (method : SerialMethod) (buffer : Bytes) (size : Nat) :
    Outcome (Deserialized HashMethod) :=
  match method with
  | .ascii =>
    match hbiReadName [] (buffer.take size) with
    | none => .done ⟨.error .deserialCorruptInput, none⟩
    | some name =>
      Outcome.assert (name.length < hbiNameSize) >>= fun _ =>
        match chopHashMethodLookup name with
        | none => .done ⟨.error .invalidArg, some name.length⟩
        | some hashMethod => .done ⟨.ok hashMethod, some name.length⟩
  | .binary => .done ⟨.error .notImpl, none⟩

def hihDeserializeBy (method : SerialMethod) (input : Bytes) :
    Outcome (Except ChopError (HashIndexHandle × Nat)) :=
  match method with
  | .ascii => hihDeserializeAscii input input.length
  | .binary => hihDeserializeBinary input

def chkDeserializeBy (method : SerialMethod) (input : Bytes) :
    Outcome (Except ChopError (ChkIndexHandle × Nat)) :=
  match method with
  | .ascii => chkDeserializeAscii input input.length
  | .binary => chkDeserializeBinary input

section Base32

private theorem length_toList_le (byte : Option UInt8) : byte.toList.length ≤ 1 := by
  cases byte with
  | none => exact Nat.zero_le 1
  | some byte => exact Nat.le_refl 1

private theorem quintetWrites_le {position written offset : Nat}
    (h : offset ∈ quintetWrites position written) : offset ≤ written + 1 := by
  rw [quintetWrites.eq_def] at h
  split at h
  all_goals
    simp at h
    omega

/-- A character writes at most one byte further than the one before it. -/
theorem base32Writes_le {b32 : Bytes} {position written offset : Nat} {out : UInt8}
    (h : offset ∈ base32Writes position out written b32) : offset ≤ written + b32.length := by
  induction b32 generalizing position written out with
  | nil => cases h
  | cons c b32 ih =>
    rw [base32Writes] at h
    split at h
    · cases h
    · split at h
      · cases h
      · split at h
        · cases h
        · rw [List.length_cons]
          rcases List.mem_append.mp h with hquintet | hrest
          · have hle := quintetWrites_le hquintet
            omega
          · have hle := ih hrest
            have hbyte := length_toList_le (consumeQuintet position (base32Value c) out).1
            omega

theorem length_base32Decode_le (b32 : Bytes) (position : Nat) (out : UInt8) :
    (base32Decode position out b32).1.length ≤ b32.length := by
  induction b32 generalizing position out with
  | nil => exact Nat.le_refl 0
  | cons c b32 ih =>
    rw [base32Decode]
    split
    · exact Nat.zero_le _
    · split
      · exact Nat.zero_le _
      · split
        · exact Nat.zero_le _
        · have hbyte := length_toList_le (consumeQuintet position (base32Value c) out).1
          have hrest := ih ((position + 1) % 8) (consumeQuintet position (base32Value c) out).2
          simp only [List.length_append, List.length_cons]
          omega

theorem chopBase32StringToField_of_lt {b32 : Bytes} (h : b32.length < handleFieldSize) :
    chopBase32StringToField b32 = .done (chopBase32StringToBuffer b32) := by
  have hwrites : ∀ offset ∈ base32Writes 0 0 0 b32, offset < handleFieldSize := by
    intro offset hoffset
    have hle := base32Writes_le hoffset
    omega
  rw [chopBase32StringToField, Outcome.assert_of hwrites, Outcome.done_bind]

end Base32

section Ascii

private theorem length_asciiInput (buffer : Bytes) (size : Nat) :
    (buffer.take (if size > 1023 then 1023 else size)).length ≤ 1023 := by
  rw [List.length_take]
  split
  all_goals omega

/-- Hash handles are read from text without leaving their array. -/
theorem hihDeserializeAscii_eq (buffer : Bytes) (size : Nat) :
    hihDeserializeAscii buffer size = .done (hihDeserialize buffer size) := by
  have hinput := length_asciiInput buffer size
  simp only [hihDeserializeAscii, hihDeserialize]
  generalize buffer.take (if size > 1023 then 1023 else size) = input at hinput ⊢
  cases hslash : CText.strchr CText.slash input with
  | none => rfl
  | some slashPosition =>
    have hposition : slashPosition < 1023 := (CText.strchr_lt hslash).trans_le hinput
    have hfield : (input.take slashPosition).length < handleFieldSize :=
      (List.length_take_le _ _).trans_lt (hposition.trans (by decide))
    have hassert : slashPosition ≤ handleFieldSize := hposition.le.trans (by decide)
    simp only [Outcome.assert_of hassert, chopBase32StringToField_of_lt hfield, Outcome.done_bind]
    split
    · rfl
    · rfl

/-- CHK handles are read from text without leaving their arrays. -/
theorem chkDeserializeAscii_eq (buffer : Bytes) (size : Nat) :
    chkDeserializeAscii buffer size = .done (chkDeserialize buffer size) := by
  have hinput := length_asciiInput buffer size
  simp only [chkDeserializeAscii, chkDeserialize]
  generalize buffer.take (if size > 1023 then 1023 else size) = input at hinput ⊢
  cases hcomma : CText.strchr CText.comma input with
  | none => rfl
  | some commaPosition =>
    have hposition : commaPosition < 1023 := (CText.strchr_lt hcomma).trans_le hinput
    have hkey : (input.take commaPosition).length < handleFieldSize :=
      (List.length_take_le _ _).trans_lt (hposition.trans (by decide))
    have hassert : commaPosition ≤ handleFieldSize := hposition.le.trans (by decide)
    simp only [Outcome.assert_of hassert, chopBase32StringToField_of_lt hkey, Outcome.done_bind]
    split
    · rfl
    · cases hslash : CText.strchr CText.slash (input.drop (commaPosition + 1)) with
      | none => rfl
      | some slashPosition =>
        have hposition : slashPosition < 1022 := by
          have hlt := CText.strchr_lt hslash
          rw [List.length_drop] at hlt
          omega
        have hblockId : ((input.drop (commaPosition + 1)).take slashPosition).length <
            handleFieldSize := (List.length_take_le _ _).trans_lt (hposition.trans (by decide))
        have hassert : slashPosition + 1 + 1 ≤ handleFieldSize :=
          (Nat.add_le_add_right hposition.le 2).trans (by decide)
        simp only [Outcome.assert_of hassert, chopBase32StringToField_of_lt hblockId,
          Outcome.done_bind]
        split
        · rfl
        · rfl

end Ascii

/-- The deserializer returns without leaving the arrays, and with sizes that the arrays have. -/
def StaysInBounds {α : Type} (sizes : α → List Nat) (outcome : Outcome (Except ChopError (α × Nat))) :
    Prop :=
  ∃ result, outcome = .done result ∧
    ∀ handle count, result = .ok (handle, count) → ∀ size ∈ sizes handle, size ≤ handleFieldSize

def HashIndexHandle.sizes (handle : HashIndexHandle) : List Nat := [handle.content.length]

def ChkIndexHandle.sizes (handle : ChkIndexHandle) : List Nat :=
  [handle.key.length, handle.blockId.length]

section Returned

private theorem decoded_le {text : Bytes} (h : text.length ≤ 1023) (n : Nat) :
    (chopBase32StringToBuffer (text.take n)).1.length ≤ handleFieldSize := by
  have hdecoded := length_base32Decode_le (text.take n) 0 0
  have htake := List.length_take_le' n text
  exact (hdecoded.trans (htake.trans h)).trans (by decide)

theorem hihDeserialize_sizes {buffer : Bytes} {size count : Nat} {handle : HashIndexHandle}
    (h : hihDeserialize buffer size = .ok (handle, count)) :
    ∀ n ∈ handle.sizes, n ≤ handleFieldSize := by
  have hinput := length_asciiInput buffer size
  simp only [hihDeserialize] at h
  generalize buffer.take (if size > 1023 then 1023 else size) = input at hinput h
  split at h
  · cases h
  · split at h
    · cases h
    · obtain ⟨number, -, hhandle⟩ := except_map_eq_ok.mp h
      cases hhandle
      simp only [HashIndexHandle.sizes, List.mem_singleton, forall_eq]
      exact decoded_le hinput _

theorem chkDeserialize_sizes {buffer : Bytes} {size count : Nat} {handle : ChkIndexHandle}
    (h : chkDeserialize buffer size = .ok (handle, count)) :
    ∀ n ∈ handle.sizes, n ≤ handleFieldSize := by
  have hinput := length_asciiInput buffer size
  simp only [chkDeserialize] at h
  generalize buffer.take (if size > 1023 then 1023 else size) = input at hinput h
  split at h
  · cases h
  · next commaPosition _ =>
    split at h
    · cases h
    · split at h
      · cases h
      · split at h
        · cases h
        · obtain ⟨number, -, hhandle⟩ := except_map_eq_ok.mp h
          cases hhandle
          have hrest : (input.drop (commaPosition + 1)).length ≤ 1023 := by
            rw [List.length_drop]
            omega
          simp only [ChkIndexHandle.sizes, List.forall_mem_cons]
          exact ⟨decoded_le hinput _, decoded_le hrest _, by simp⟩

private theorem hihDeserializeBinary_sizes {input : Bytes} {handle : HashIndexHandle} {count : Nat}
    (h : hihDeserializeBinary input = .done (.ok (handle, count))) :
    ∀ n ∈ handle.sizes, n ≤ handleFieldSize := by
  simp only [hihDeserializeBinary] at h
  split at h
  · cases h
  · split at h
    · cases h
    · obtain ⟨content, hcontent, h⟩ := Outcome.bind_eq_done.mp h
      obtain ⟨rfl, hfits⟩ := copyToField_eq_done hcontent
      cases h
      simp only [HashIndexHandle.sizes, List.mem_singleton, forall_eq]
      exact hfits

private theorem chkDeserializeBinary_sizes {input : Bytes} {handle : ChkIndexHandle} {count : Nat}
    (h : chkDeserializeBinary input = .done (.ok (handle, count))) :
    ∀ n ∈ handle.sizes, n ≤ handleFieldSize := by
  simp only [chkDeserializeBinary] at h
  split at h
  · cases h
  · split at h
    · cases h
    · obtain ⟨key, hkey, h⟩ := Outcome.bind_eq_done.mp h
      obtain ⟨blockId, hblockId, h⟩ := Outcome.bind_eq_done.mp h
      obtain ⟨rfl, hkeyFits⟩ := copyToField_eq_done hkey
      obtain ⟨rfl, hblockIdFits⟩ := copyToField_eq_done hblockId
      cases h
      simp only [ChkIndexHandle.sizes, List.forall_mem_cons]
      exact ⟨hkeyFits, hblockIdFits, by simp⟩

/-- A hash handle that was read fits in its array. -/
theorem hihDeserializeBy_sizes {method : SerialMethod} {input : Bytes} {handle : HashIndexHandle}
    {count : Nat} (h : hihDeserializeBy method input = .done (.ok (handle, count))) :
    ∀ n ∈ handle.sizes, n ≤ handleFieldSize := by
  cases method with
  | ascii =>
    rw [hihDeserializeBy, hihDeserializeAscii_eq] at h
    exact hihDeserialize_sizes (Outcome.done.inj h)
  | binary => exact hihDeserializeBinary_sizes h

/-- A CHK handle that was read fits in its arrays. -/
theorem chkDeserializeBy_sizes {method : SerialMethod} {input : Bytes} {handle : ChkIndexHandle}
    {count : Nat} (h : chkDeserializeBy method input = .done (.ok (handle, count))) :
    ∀ n ∈ handle.sizes, n ≤ handleFieldSize := by
  cases method with
  | ascii =>
    rw [chkDeserializeBy, chkDeserializeAscii_eq] at h
    exact chkDeserialize_sizes (Outcome.done.inj h)
  | binary => exact chkDeserializeBinary_sizes h

end Returned

/-- The array is as large as the header of a hash handle says, or the input ends before that. -/
def HashHeaderFits (input : Bytes) : Prop :=
  hihHeaderSize + ByteOrder.loadLe (input.drop 4) ≤ input.length →
    ByteOrder.loadLe (input.drop 4) ≤ handleFieldSize

/-- The arrays are as large as the header of a CHK handle says, or the input ends before that. -/
def ChkHeaderFits (input : Bytes) : Prop :=
  chkHeaderSize + (ByteOrder.loadLe (input.drop 4) + ByteOrder.loadLe (input.drop 8)) ≤ input.length →
    ByteOrder.loadLe (input.drop 4) ≤ handleFieldSize ∧
      ByteOrder.loadLe (input.drop 8) ≤ handleFieldSize

section Binary

theorem copyToField_of_not_le {bytes : Bytes} (h : ¬ bytes.length ≤ handleFieldSize) :
    copyToField bytes = .abort := by
  rw [copyToField, Outcome.assert_of_not h, Outcome.abort_bind]

/-- What is returned has the right sizes anyway. -/
theorem staysInBounds_iff_returns {α : Type} {sizes : α → List Nat}
    {outcome : Outcome (Except ChopError (α × Nat))}
    (h : ∀ {handle count}, outcome = .done (.ok (handle, count)) →
      ∀ size ∈ sizes handle, size ≤ handleFieldSize) :
    StaysInBounds sizes outcome ↔ outcome.Returns := by
  constructor
  · rintro ⟨result, hresult, -⟩
    exact ⟨result, hresult⟩
  · rintro ⟨result, hresult⟩
    refine ⟨result, hresult, ?_⟩
    rintro handle count rfl
    exact h hresult

private theorem not_returns_abort {α : Type} : ¬ (Outcome.abort : Outcome α).Returns := by
  rintro ⟨a, ha⟩
  cases ha

theorem hihDeserializeBinary_returns_iff (input : Bytes) :
    (hihDeserializeBinary input).Returns ↔ HashHeaderFits input := by
  simp only [hihDeserializeBinary]
  by_cases hheader : input.length < hihHeaderSize
  · rw [if_pos hheader]
    exact iff_of_true ⟨_, rfl⟩ fun hlong => by omega
  · rw [if_neg hheader]
    by_cases hshort : input.length - hihHeaderSize < ByteOrder.loadLe (input.drop 4)
    · rw [if_pos hshort]
      exact iff_of_true ⟨_, rfl⟩ fun hlong => by omega
    · have hlength : ((input.drop 8).take (ByteOrder.loadLe (input.drop 4))).length =
          ByteOrder.loadLe (input.drop 4) := by
        simp only [hihHeaderSize] at hshort
        rw [List.length_take, List.length_drop]
        omega
      rw [if_neg hshort]
      by_cases hfits : ByteOrder.loadLe (input.drop 4) ≤ handleFieldSize
      · rw [copyToField_of_le (hlength.trans_le hfits), Outcome.done_bind]
        exact iff_of_true ⟨_, rfl⟩ fun _ => hfits
      · rw [copyToField_of_not_le (by rw [hlength]; exact hfits), Outcome.abort_bind]
        exact iff_of_false not_returns_abort fun h => hfits (h (by omega))

theorem chkDeserializeBinary_returns_iff (input : Bytes) :
    (chkDeserializeBinary input).Returns ↔ ChkHeaderFits input := by
  simp only [chkDeserializeBinary]
  by_cases hheader : input.length < chkHeaderSize
  · rw [if_pos hheader]
    exact iff_of_true ⟨_, rfl⟩ fun hlong => by omega
  · rw [if_neg hheader]
    by_cases hshort : input.length - chkHeaderSize <
        ByteOrder.loadLe (input.drop 4) + ByteOrder.loadLe (input.drop 8)
    · rw [if_pos hshort]
      exact iff_of_true ⟨_, rfl⟩ fun hlong => by omega
    · have hkey : ((input.drop chkHeaderSize).take (ByteOrder.loadLe (input.drop 4))).length =
          ByteOrder.loadLe (input.drop 4) := by
        rw [List.length_take, List.length_drop]
        omega
      have hblockId : ((input.drop (chkHeaderSize + ByteOrder.loadLe (input.drop 4))).take
          (ByteOrder.loadLe (input.drop 8))).length = ByteOrder.loadLe (input.drop 8) := by
        rw [List.length_take, List.length_drop]
        omega
      rw [if_neg hshort]
      by_cases hkeyFits : ByteOrder.loadLe (input.drop 4) ≤ handleFieldSize
      · rw [copyToField_of_le (hkey.trans_le hkeyFits), Outcome.done_bind]
        by_cases hblockIdFits : ByteOrder.loadLe (input.drop 8) ≤ handleFieldSize
        · rw [copyToField_of_le (hblockId.trans_le hblockIdFits), Outcome.done_bind]
          exact iff_of_true ⟨_, rfl⟩ fun _ => ⟨hkeyFits, hblockIdFits⟩
        · rw [copyToField_of_not_le (by rw [hblockId]; exact hblockIdFits), Outcome.abort_bind]
          exact iff_of_false not_returns_abort fun h => hblockIdFits (h (by omega)).2
      · rw [copyToField_of_not_le (by rw [hkey]; exact hkeyFits), Outcome.abort_bind]
        exact iff_of_false not_returns_abort fun h => hkeyFits (h (by omega)).1

end Binary

section Names

/-- The loop copies letters and digits as long as there is room. -/
theorem hbiReadName_eq (text name : Bytes) (hname : name.length ≤ hbiNameSize) :
    hbiReadName name text =
      if name.length + (text.takeWhile CText.isAlnum).length ≤ hbiNameSize then
        some (name ++ text.takeWhile CText.isAlnum)
      else none := by
  induction text generalizing name with
  | nil => simp [hbiReadName, hname]
  | cons c text ih =>
    rw [hbiReadName, List.takeWhile_cons]
    by_cases hc : CText.isAlnum c = true
    · rw [if_pos hc, if_pos hc]
      by_cases hfull : name.length ≥ hbiNameSize
      · rw [if_pos hfull, if_neg]
        rw [List.length_cons]
        omega
      · rw [if_neg hfull, ih _ (by simp; omega)]
        simp only [List.length_append, List.length_cons, List.length_nil, List.append_assoc,
          List.cons_append, List.nil_append, Nat.add_assoc, Nat.add_comm 1]
    · rw [if_neg hc, if_neg hc]
      simp [hname]

theorem hbiDeserialize_returns_iff (method : SerialMethod) (input : Bytes) :
    (hbiDeserialize method input input.length).Returns ↔
      (method = .ascii → (input.takeWhile CText.isAlnum).length ≠ hbiNameSize) := by
  cases method with
  | binary => exact iff_of_true ⟨_, rfl⟩ fun h => by cases h
  | ascii =>
    simp only [hbiDeserialize, List.take_length, hbiReadName_eq input [] (Nat.zero_le _),
      List.length_nil, Nat.zero_add, List.nil_append, forall_const]
    by_cases hroom : (input.takeWhile CText.isAlnum).length ≤ hbiNameSize
    · rw [if_pos hroom]
      by_cases hfull : (input.takeWhile CText.isAlnum).length < hbiNameSize
      · simp only [Outcome.assert_of hfull, Outcome.done_bind]
        refine iff_of_true ?_ (by omega)
        split
        · exact ⟨_, rfl⟩
        · exact ⟨_, rfl⟩
      · simp only [Outcome.assert_of_not hfull, Outcome.abort_bind]
        exact iff_of_false not_returns_abort (by omega)
    · rw [if_neg hroom]
      exact iff_of_true ⟨_, rfl⟩ (by omega)

end Names

/-- Text never takes the deserializers of handles out of their arrays, and binary input does exactly
when it holds a field that is too long.  The name of a hash method ends outside its array exactly
when it fills it. -/
theorem deserializers_staysInBounds_iff (method : SerialMethod) (input : Bytes) :
    (StaysInBounds HashIndexHandle.sizes (hihDeserializeBy method input) ↔
      (method = .binary → HashHeaderFits input)) ∧
    (StaysInBounds ChkIndexHandle.sizes (chkDeserializeBy method input) ↔
      (method = .binary → ChkHeaderFits input)) ∧
    ((hbiDeserialize method input input.length).Returns ↔
      (method = .ascii → (input.takeWhile CText.isAlnum).length ≠ hbiNameSize)) := by
  rw [staysInBounds_iff_returns hihDeserializeBy_sizes,
    staysInBounds_iff_returns chkDeserializeBy_sizes]
  refine ⟨?_, ?_, hbiDeserialize_returns_iff method input⟩
  · cases method with
    | ascii => exact iff_of_true ⟨_, hihDeserializeAscii_eq input input.length⟩ fun h => by cases h
    | binary =>
      simp only [hihDeserializeBy, forall_const]
      exact hihDeserializeBinary_returns_iff input
  · cases method with
    | ascii => exact iff_of_true ⟨_, chkDeserializeAscii_eq input input.length⟩ fun h => by cases h
    | binary =>
      simp only [chkDeserializeBy, forall_const]
      exact chkDeserializeBinary_returns_iff input

/-- A handle with one byte too many, and a name of 512 letters. -/
theorem longInput_leavesBounds :
    ¬ StaysInBounds HashIndexHandle.sizes (hihDeserializeBy .binary
        (ByteOrder.storeLe 0 ++ (ByteOrder.storeLe 1025 ++ List.replicate 1025 0))) ∧
      ¬ (hbiDeserialize .ascii (List.replicate 512 97) 512).Returns := by
  refine ⟨?_, ?_⟩
  · rw [hihDeserializeBy, hihDeserializeBinary_header (by decide) (by decide),
      if_neg (by rw [List.length_replicate]; decide), List.take_replicate,
      copyToField_of_not_le (by rw [List.length_replicate]; decide), Outcome.abort_bind]
    rintro ⟨result, hresult, -⟩
    cases hresult
  · have hreturns := hbiDeserialize_returns_iff .ascii (List.replicate 512 97)
    rw [List.length_replicate] at hreturns
    rw [hreturns]
    intro h
    apply h rfl
    rw [List.takeWhile_replicate, if_pos (by decide), List.length_replicate]
    rfl

end Libchop
