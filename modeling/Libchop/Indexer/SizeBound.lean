import Libchop.Framework.TextExtent
import Libchop.Indexer.FieldBounds

/-!
# The size of ASCII input

Deserializers are given a buffer and the number of bytes they may read.  Some copy or scan only these
bytes.  Others look for the end of a number or of a name, and go on after these bytes if it is not
among them.
-/

namespace Libchop

inductive AsciiClass where
  | treeIndexer
  | hashIndexHandle
  | chkIndexHandle
  | integerIndexHandle
  | hashBlockIndexer
  | chkBlockIndexer
  | integerBlockIndexer
  | hashBlockFetcher
  | chkBlockFetcher
deriving DecidableEq, Repr

/-- What the deserializers make.  A CHK fetcher may be without its cipher. -/
inductive AsciiObject where
  | treeIndexer (indexesPerBlock : Nat)
  | indexHandle (index : IndexHandle)
  | blockIndexer (blockIndexer : BlockIndexerObject)
  | hashBlockFetcher (method : HashMethod)
  | chkBlockFetcher (cipher : Option CipherHandle) (method : HashMethod)
deriving DecidableEq, Repr

/-- `FETCH_NAME`: the name before the next comma, and where the comma is. -/
def fetchName (buffer : Bytes) (size : Nat) : Option (Bytes × Nat) :=
  (CText.memchr CText.comma buffer size).map fun position =>
    ((buffer.take position).takeWhile (· ≠ 0), position)

/-- The lookups at the end of `cbi_deserialize`. -/
def cbiLookup (ciphers : Ciphers) (algoName modeName keyHashName blockIdHashName : Bytes) :
    Except ChopError ChkBlockIndexer :=
  match chopCipherAlgoLookup algoName, chopCipherModeLookup modeName,
    chopHashMethodLookup keyHashName, chopHashMethodLookup blockIdHashName with
  | some algo, some mode, some keyHashMethod, some blockIdHashMethod =>
    if ciphers.opens ⟨algo, mode⟩ then .ok ⟨⟨algo, mode⟩, keyHashMethod, blockIdHashMethod⟩
    else .error .deserialCorruptInput
  | _, _, _, _ => .error .deserialCorruptInput

def cbiDeserialize (ciphers : Ciphers) (buffer : Bytes) (size : Nat) :
    Deserialized ChkBlockIndexer :=
  match fetchName buffer size with
  | none => ⟨.error .deserialCorruptInput, some 0⟩
  | some (algoName, algoEnd) =>
    let modeStart := algoEnd + 1
    match fetchName (buffer.drop modeStart) (size - modeStart) with
    | none => ⟨.error .deserialCorruptInput, some modeStart⟩
    | some (modeName, modeEnd) =>
      let keyHashStart := modeStart + modeEnd + 1
      match fetchName (buffer.drop keyHashStart) (size - keyHashStart) with
      | none => ⟨.error .deserialCorruptInput, some keyHashStart⟩
      | some (keyHashName, keyHashEnd) =>
        let blockIdHashStart := keyHashStart + keyHashEnd + 1
        let blockIdHashName :=
          ((buffer.drop blockIdHashStart).take (size - blockIdHashStart)).takeWhile CText.isAlnum
        ⟨cbiLookup ciphers algoName modeName keyHashName blockIdHashName,
          some (blockIdHashStart + blockIdHashName.length)⟩

/-- Without a number, the indexer starts with zero. -/
def ibiDeserialize (buffer : Bytes) (size : Nat) : UInt32 × Nat :=
  if size > 0 then
    match CText.strtoul buffer with
    | (_, 0) => (0, 0)
    | (id, count) => (UInt32.ofNat id, count)
  else (0, 0)

/-- `cbf_deserialize` sets the number of bytes to zero when the cipher mode was found and the hash
method was not. -/
def cbfFailedBytesRead (buffer : Bytes) (size : Nat) : Option Nat :=
  match CText.memchr CText.comma buffer size with
  | none => none
  | some position =>
    match chopCipherAlgoLookup ((buffer.take position).takeWhile (· ≠ 0)) with
    | none => none
    | some _ =>
      match chopCipherModeLookup (CText.token (buffer.drop (position + 1))) with
      | none => none
      | some _ => some 0

/-- The object and the number of bytes, which is this one after a failure. -/
def deserialized {α : Type} (failedBytesRead : Option Nat) (object : α → AsciiObject)
    (result : Except ChopError (α × Nat)) : Outcome (Deserialized AsciiObject) :=
  match result with
  | .error err => .done ⟨.error err, failedBytesRead⟩
  | .ok (a, bytesRead) => .done ⟨.ok (object a), some bytesRead⟩

/-- `chop_object_deserialize` with `CHOP_SERIAL_ASCII`. -/
def asciiDeserialize (ciphers : Ciphers) (asciiClass : AsciiClass) (buffer : Bytes) (size : Nat) :
    Outcome (Deserialized AsciiObject) :=
  match asciiClass with
  | .treeIndexer => deserialized none .treeIndexer (ihtDeserialize buffer)
  | .hashIndexHandle =>
    hihDeserializeAscii buffer size >>= deserialized (some 0) (.indexHandle ∘ .hash)
  | .chkIndexHandle =>
    chkDeserializeAscii buffer size >>= deserialized (some 0) (.indexHandle ∘ .chk)
  | .integerIndexHandle =>
    deserialized (some 0) (.indexHandle ∘ .integer) (iihDeserialize buffer size)
  | .hashBlockIndexer =>
    hbiDeserialize .ascii buffer size >>= fun read =>
      .done ⟨read.result.map (.blockIndexer ∘ .hash), read.bytesRead⟩
  | .chkBlockIndexer =>
    let read := cbiDeserialize ciphers buffer size
    .done ⟨read.result.map (.blockIndexer ∘ .chk), read.bytesRead⟩
  | .integerBlockIndexer =>
    let (id, bytesRead) := ibiDeserialize buffer size
    .done ⟨.ok (.blockIndexer (.integer id)), some bytesRead⟩
  | .hashBlockFetcher => deserialized none .hashBlockFetcher (hbfDeserialize buffer)
  | .chkBlockFetcher =>
    deserialized (cbfFailedBytesRead buffer size)
      (fun (cipher, method) => .chkBlockFetcher cipher method)
      ((cbfDeserialize ciphers buffer size).map fun (cipher, method, count) =>
        ((cipher, method), count))

/-- Any two buffers that begin with the text are read in the same way, and not beyond the text. -/
def HonoursSize (deserialize : Bytes → Nat → Outcome (Deserialized AsciiObject)) (text : Bytes) :
    Prop :=
  ∀ buffer buffer', text <+: buffer → text <+: buffer' →
    deserialize buffer text.length = deserialize buffer' text.length ∧
      ∀ read bytesRead, deserialize buffer text.length = .done read →
        read.bytesRead = some bytesRead → bytesRead ≤ text.length

/-- The name of an entry ends inside the text, or the text does not begin a name of the table. -/
def NameEnds {α : Type} (table : List α) (name : α → Bytes) (text : Bytes) : Prop :=
  (CText.token text).length < text.length ∨
    ∀ entry ∈ table, ¬ text.map toLower <+: (name entry).map toLower

/-- The names of a CHK fetcher that are looked for end inside the text. -/
def CipherNamesEnd (text : Bytes) : Prop :=
  match CText.memchr CText.comma text text.length with
  | none => True
  | some position =>
    match chopCipherAlgoLookup ((text.take position).takeWhile (· ≠ 0)) with
    | none => True
    | some _ =>
      let modeName := CText.token (text.drop (position + 1))
      NameEnds cipherModes chopCipherModeName (text.drop (position + 1)) ∧
        (chopCipherModeLookup modeName ≠ none →
          NameEnds hashMethods chopHashMethodName
            (text.drop (position + 1 + modeName.length + 1)))

/-- What is looked for in the text ends inside it. -/
def EndsInside (asciiClass : AsciiClass) (text : Bytes) : Prop :=
  match asciiClass with
  | .treeIndexer => CText.NumberEnds text
  | .integerIndexHandle => text.length < 8 ∨ CText.NumberEnds text
  | .integerBlockIndexer => text = [] ∨ CText.NumberEnds text
  | .hashBlockFetcher => NameEnds hashMethods chopHashMethodName text
  | .chkBlockFetcher => CipherNamesEnd text
  | _ => True

section Honouring

variable {deserialize : Bytes → Nat → Outcome (Deserialized AsciiObject)} {text : Bytes}

/-- It is enough to look at what follows the text. -/
theorem honoursSize_of_append (happend : ∀ rest,
    deserialize (text ++ rest) text.length = deserialize text text.length)
    (hle : ∀ read bytesRead, deserialize text text.length = .done read →
      read.bytesRead = some bytesRead → bytesRead ≤ text.length) : HonoursSize deserialize text := by
  rintro _ _ ⟨rest, rfl⟩ ⟨rest', rfl⟩
  rw [happend rest, happend rest']
  exact ⟨rfl, hle⟩

theorem HonoursSize.append_eq (h : HonoursSize deserialize text) (rest rest' : Bytes) :
    deserialize (text ++ rest) text.length = deserialize (text ++ rest') text.length :=
  (h _ _ ⟨rest, rfl⟩ ⟨rest', rfl⟩).1

/-- Reading more than there is shows that the size is not honoured. -/
theorem not_honoursSize_of_lt {rest : Bytes} {read : Deserialized AsciiObject} {bytesRead : Nat}
    (hread : deserialize (text ++ rest) text.length = .done read)
    (hbytes : read.bytesRead = some bytesRead) (hlt : text.length < bytesRead) :
    ¬ HonoursSize deserialize text := by
  intro h
  have hle := (h _ _ ⟨rest, rfl⟩ ⟨rest, rfl⟩).2 read bytesRead hread hbytes
  omega

theorem deserialized_bytesRead {α : Type} {object : α → AsciiObject}
    {result : Except ChopError (α × Nat)} {failedBytesRead : Option Nat} {n : Nat}
    (hfailed : ∀ bytesRead, failedBytesRead = some bytesRead → bytesRead ≤ n)
    (hresult : ∀ a bytesRead, result = .ok (a, bytesRead) → bytesRead ≤ n)
    {read : Deserialized AsciiObject} {bytesRead : Nat}
    (hread : deserialized failedBytesRead object result = .done read)
    (hbytes : read.bytesRead = some bytesRead) : bytesRead ≤ n := by
  cases result with
  | error err =>
    cases hread
    exact hfailed bytesRead hbytes
  | ok result =>
    cases hread
    cases hbytes
    exact hresult _ _ rfl

end Honouring

section Copied

variable {text : Bytes}

private theorem take_asciiInput (rest : Bytes) :
    (text ++ rest).take (if text.length > 1023 then 1023 else text.length) =
      text.take (if text.length > 1023 then 1023 else text.length) := by
  apply List.take_append_of_le_length
  split
  all_goals omega

private theorem readBlockSize_le {start count : Nat} {number : Bytes} {blockSize : Nat}
    (h : readBlockSize start number = .ok (blockSize, count)) : count ≤ start + number.length := by
  have hle := CText.strtoul_snd_le number
  rw [readBlockSize] at h
  split at h
  · cases h
  · next hstrtoul =>
    cases h
    rw [hstrtoul] at hle
    omega

theorem hihDeserialize_count_le {handle : HashIndexHandle} {count : Nat}
    (h : hihDeserialize text text.length = .ok (handle, count)) : count ≤ text.length := by
  have hinput := List.length_take_le' (if text.length > 1023 then 1023 else text.length) text
  simp only [hihDeserialize] at h
  generalize text.take (if text.length > 1023 then 1023 else text.length) = input at hinput h
  split at h
  · cases h
  · next slashPosition hslash =>
    split at h
    · cases h
    · obtain ⟨⟨blockSize, count'⟩, hnumber, heq⟩ := except_map_eq_ok.mp h
      cases heq
      have hle := readBlockSize_le hnumber
      have hlt := CText.strchr_lt hslash
      rw [List.length_drop] at hle
      omega

theorem chkDeserialize_count_le {handle : ChkIndexHandle} {count : Nat}
    (h : chkDeserialize text text.length = .ok (handle, count)) : count ≤ text.length := by
  have hinput := List.length_take_le' (if text.length > 1023 then 1023 else text.length) text
  simp only [chkDeserialize] at h
  generalize text.take (if text.length > 1023 then 1023 else text.length) = input at hinput h
  split at h
  · cases h
  · next commaPosition hcomma =>
    split at h
    · cases h
    · split at h
      · cases h
      · next slashPosition hslash =>
        split at h
        · cases h
        · obtain ⟨⟨blockSize, count'⟩, hnumber, heq⟩ := except_map_eq_ok.mp h
          cases heq
          have hle := readBlockSize_le hnumber
          have hcommaLt := CText.strchr_lt hcomma
          have hslashLt := CText.strchr_lt hslash
          simp only [List.length_drop] at hle hslashLt
          omega

theorem honoursSize_hashIndexHandle (ciphers : Ciphers) :
    HonoursSize (asciiDeserialize ciphers .hashIndexHandle) text := by
  apply honoursSize_of_append
  · intro rest
    simp only [asciiDeserialize, hihDeserializeAscii_eq, hihDeserialize, take_asciiInput]
  · intro read bytesRead hread hbytes
    simp only [asciiDeserialize, hihDeserializeAscii_eq, Outcome.done_bind] at hread
    refine deserialized_bytesRead ?_ ?_ hread hbytes
    · intro bytesRead h
      cases h
      exact Nat.zero_le _
    · intro handle count h
      exact hihDeserialize_count_le h

theorem honoursSize_chkIndexHandle (ciphers : Ciphers) :
    HonoursSize (asciiDeserialize ciphers .chkIndexHandle) text := by
  apply honoursSize_of_append
  · intro rest
    simp only [asciiDeserialize, chkDeserializeAscii_eq, chkDeserialize, take_asciiInput]
  · intro read bytesRead hread hbytes
    simp only [asciiDeserialize, chkDeserializeAscii_eq, Outcome.done_bind] at hread
    refine deserialized_bytesRead ?_ ?_ hread hbytes
    · intro bytesRead h
      cases h
      exact Nat.zero_le _
    · intro handle count h
      exact chkDeserialize_count_le h

theorem honoursSize_hashBlockIndexer (ciphers : Ciphers) :
    HonoursSize (asciiDeserialize ciphers .hashBlockIndexer) text := by
  apply honoursSize_of_append
  · intro rest
    simp only [asciiDeserialize, hbiDeserialize, List.take_left, List.take_length]
  · intro read bytesRead hread hbytes
    obtain ⟨read', hread', heq⟩ := Outcome.bind_eq_done.mp hread
    cases heq
    simp only [hbiDeserialize, List.take_length, hbiReadName_eq text [] (Nat.zero_le _),
      List.nil_append] at hread'
    have hname := (List.takeWhile_prefix CText.isAlnum :
      text.takeWhile CText.isAlnum <+: text).length_le
    split at hread'
    · cases hread'
      cases hbytes
    · next name hname' =>
      split at hname'
      · cases hname'
        obtain ⟨-, -, hread'⟩ := Outcome.bind_eq_done.mp hread'
        split at hread'
        · cases hread'
          cases hbytes
          exact hname
        · cases hread'
          cases hbytes
          exact hname
      · cases hname'

end Copied

section Fetched

variable {text : Bytes}

private theorem fetchName_append (rest : Bytes) :
    fetchName (text ++ rest) text.length = fetchName text text.length := by
  have htake : (text ++ rest).take text.length = text.take text.length := by
    rw [List.take_left, List.take_length]
  simp only [fetchName, CText.memchr, htake]
  cases hposition : (text.take text.length).findIdx? (· = CText.comma) with
  | none => rfl
  | some position =>
    have hlt := (List.findIdx?_eq_some_iff_findIdx_eq.mp hposition).1
    rw [List.take_length] at hlt
    simp only [Option.map_some, List.take_append_of_le_length hlt.le]

private theorem fetchName_lt {name : Bytes} {position : Nat}
    (h : fetchName text text.length = some (name, position)) : position < text.length := by
  obtain ⟨position', hposition, heq⟩ := Option.map_eq_some_iff.mp h
  cases heq
  have hlt := (List.findIdx?_eq_some_iff_findIdx_eq.mp hposition).1
  rw [List.take_length] at hlt
  exact hlt

private theorem fetchName_drop {start : Nat} (h : start ≤ text.length) (rest : Bytes) :
    fetchName ((text ++ rest).drop start) (text.length - start) =
      fetchName (text.drop start) (text.drop start).length := by
  rw [CText.drop_append_of_le h, ← List.length_drop]
  exact fetchName_append rest

theorem cbiDeserialize_append (ciphers : Ciphers) (rest : Bytes) :
    cbiDeserialize ciphers (text ++ rest) text.length = cbiDeserialize ciphers text text.length ∧
      ∀ bytesRead, (cbiDeserialize ciphers text text.length).bytesRead = some bytesRead →
        bytesRead ≤ text.length := by
  simp only [cbiDeserialize, fetchName_append]
  cases halgo : fetchName text text.length with
  | none => simp
  | some algo =>
    obtain ⟨algoName, algoEnd⟩ := algo
    have hmodeStart : algoEnd + 1 ≤ text.length := fetchName_lt halgo
    have hmodeName := fetchName_drop hmodeStart []
    rw [List.append_nil] at hmodeName
    simp only [fetchName_drop hmodeStart rest, hmodeName]
    cases hmode : fetchName (text.drop (algoEnd + 1)) (text.drop (algoEnd + 1)).length with
    | none => simpa using hmodeStart
    | some mode =>
      obtain ⟨modeName, modeEnd⟩ := mode
      have hkeyHashStart : algoEnd + 1 + modeEnd + 1 ≤ text.length := by
        have hlt := fetchName_lt hmode
        rw [List.length_drop] at hlt
        omega
      have hkeyHashName := fetchName_drop hkeyHashStart []
      rw [List.append_nil] at hkeyHashName
      simp only [fetchName_drop hkeyHashStart rest, hkeyHashName]
      cases hkeyHash : fetchName (text.drop (algoEnd + 1 + modeEnd + 1))
          (text.drop (algoEnd + 1 + modeEnd + 1)).length with
      | none => simpa using hkeyHashStart
      | some keyHash =>
        obtain ⟨keyHashName, keyHashEnd⟩ := keyHash
        have hstart : algoEnd + 1 + modeEnd + 1 + keyHashEnd + 1 ≤ text.length := by
          have hlt := fetchName_lt hkeyHash
          rw [List.length_drop] at hlt
          omega
        have htake : ((text ++ rest).drop (algoEnd + 1 + modeEnd + 1 + keyHashEnd + 1)).take
            (text.length - (algoEnd + 1 + modeEnd + 1 + keyHashEnd + 1)) =
              (text.drop (algoEnd + 1 + modeEnd + 1 + keyHashEnd + 1)).take
                (text.length - (algoEnd + 1 + modeEnd + 1 + keyHashEnd + 1)) := by
          rw [CText.drop_append_of_le hstart, List.take_append_of_le_length]
          rw [List.length_drop]
        simp only [htake, Option.some.injEq, forall_eq', true_and]
        have hname := (List.takeWhile_prefix CText.isAlnum :
          ((text.drop (algoEnd + 1 + modeEnd + 1 + keyHashEnd + 1)).take
            (text.length - (algoEnd + 1 + modeEnd + 1 + keyHashEnd + 1))).takeWhile CText.isAlnum
              <+: _).length_le
        rw [List.length_take, List.length_drop] at hname
        omega

theorem honoursSize_chkBlockIndexer (ciphers : Ciphers) :
    HonoursSize (asciiDeserialize ciphers .chkBlockIndexer) text := by
  apply honoursSize_of_append
  · intro rest
    simp only [asciiDeserialize, (cbiDeserialize_append ciphers rest).1]
  · intro read bytesRead hread hbytes
    cases hread
    exact (cbiDeserialize_append ciphers []).2 bytesRead hbytes

end Fetched

section Numbers

variable {text : Bytes}

/-- A deserializer of a number honours the size exactly when the number ends inside the text. -/
theorem honoursSize_number_iff (read : Nat × Nat → Outcome (Deserialized AsciiObject))
    {deserialize : Bytes → Nat → Outcome (Deserialized AsciiObject)}
    (hdeserialize : ∀ buffer, deserialize buffer text.length = read (CText.strtoul buffer))
    (hread : ∀ number result, read number = .done result →
      ∀ bytesRead, result.bytesRead = some bytesRead → bytesRead = number.2)
    (hnumber : ∀ number, 0 < number.2 →
      ∃ result, read number = .done result ∧ result.bytesRead = some number.2) :
    HonoursSize deserialize text ↔ CText.NumberEnds text := by
  constructor
  · intro h
    by_contra hopen
    have hcount := CText.strtoul_open hopen
    obtain ⟨result, hresult, hbytes⟩ := hnumber (CText.strtoul (text ++ [49])) (by omega)
    rw [← hdeserialize] at hresult
    exact not_honoursSize_of_lt hresult hbytes (by omega) h
  · intro hends
    apply honoursSize_of_append
    · intro rest
      rw [hdeserialize, hdeserialize, CText.strtoul_append hends]
    · intro result bytesRead hresult hbytes
      rw [hdeserialize] at hresult
      rw [hread _ _ hresult bytesRead hbytes]
      exact CText.strtoul_snd_le text

private def readNumber {α : Type} (convert : Nat → α) : Nat × Nat → Except ChopError (α × Nat)
  | (_, 0) => .error .deserialCorruptInput
  | (value, count + 1) => .ok (convert value, count + 1)

private theorem honoursSize_readNumber_iff {α : Type} (convert : Nat → α)
    {object : α → AsciiObject} {failedBytesRead : Option Nat}
    (hfailed : ∀ n, failedBytesRead = some n → n = 0)
    {deserialize : Bytes → Nat → Outcome (Deserialized AsciiObject)}
    (hdeserialize : ∀ buffer, deserialize buffer text.length =
      deserialized failedBytesRead object (readNumber convert (CText.strtoul buffer))) :
    HonoursSize deserialize text ↔ CText.NumberEnds text := by
  apply honoursSize_number_iff
    (fun number => deserialized failedBytesRead object (readNumber convert number)) hdeserialize
  · rintro ⟨value, count⟩ result hresult bytesRead hbytes
    cases count with
    | zero =>
      cases hresult
      exact hfailed bytesRead hbytes
    | succ count =>
      cases hresult
      cases hbytes
      rfl
  · rintro ⟨value, count⟩ hcount
    obtain ⟨count, rfl⟩ := Nat.exists_eq_succ_of_ne_zero hcount.ne'
    exact ⟨_, rfl, rfl⟩

theorem honoursSize_treeIndexer_iff (ciphers : Ciphers) :
    HonoursSize (asciiDeserialize ciphers .treeIndexer) text ↔ CText.NumberEnds text := by
  have hfailed : ∀ n : Nat, none = some n → n = 0 := by
    intro n hn
    cases hn
  apply honoursSize_readNumber_iff id hfailed
  · intro buffer
    rw [asciiDeserialize, ihtDeserialize]
    rcases CText.strtoul buffer with ⟨value, _ | count⟩
    · rfl
    · rfl

theorem honoursSize_integerIndexHandle_iff (ciphers : Ciphers) :
    HonoursSize (asciiDeserialize ciphers .integerIndexHandle) text ↔
      text.length < 8 ∨ CText.NumberEnds text := by
  by_cases hshort : text.length < 8
  · refine iff_of_true ?_ (.inl hshort)
    apply honoursSize_of_append
    · intro rest
      simp only [asciiDeserialize, iihDeserialize, if_pos hshort]
    · intro read bytesRead hread hbytes
      simp only [asciiDeserialize, iihDeserialize, if_pos hshort] at hread
      cases hread
      cases hbytes
      exact Nat.zero_le _
  · rw [or_iff_right hshort]
    have hfailed : ∀ n : Nat, some 0 = some n → n = 0 := by
      intro n hn
      cases hn
      rfl
    apply honoursSize_readNumber_iff UInt32.ofNat hfailed
    · intro buffer
      rw [asciiDeserialize, iihDeserialize, if_neg hshort]
      rcases CText.strtoul buffer with ⟨value, _ | count⟩
      · rfl
      · rfl

theorem honoursSize_integerBlockIndexer_iff (ciphers : Ciphers) :
    HonoursSize (asciiDeserialize ciphers .integerBlockIndexer) text ↔
      text = [] ∨ CText.NumberEnds text := by
  by_cases hempty : text = []
  · rw [hempty]
    refine iff_of_true ?_ (.inl rfl)
    apply honoursSize_of_append
    · intro rest
      rfl
    · intro read bytesRead hread hbytes
      cases hread
      cases hbytes
      exact Nat.zero_le _
  · have hsize : text.length > 0 := List.length_pos_of_ne_nil hempty
    rw [or_iff_right hempty]
    apply honoursSize_number_iff (fun number =>
      .done ⟨.ok (.blockIndexer (.integer (if number.2 = 0 then 0 else UInt32.ofNat number.1))),
        some number.2⟩)
    · intro buffer
      simp only [asciiDeserialize, ibiDeserialize, if_pos hsize]
      rcases CText.strtoul buffer with ⟨value, _ | count⟩
      · rfl
      · rfl
    · intro number result hresult bytesRead hbytes
      cases hresult
      cases hbytes
      rfl
    · intro number _
      exact ⟨_, rfl, rfl⟩

end Numbers

end Libchop
