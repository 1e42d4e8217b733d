import Libchop.Indexer.ContentStore
import Libchop.Indexer.Serialization
import Mathlib.Data.List.TakeWhile

/-!
# Round trip of index tuples

The scanners of the fields stop at different characters.  None of these stands in the text of its
field, so each field is read up to where it was written.
-/

namespace Libchop

/-- Text without colons and null characters. -/
def IsField (text : Bytes) : Prop := (text.all fun c => c ≠ CText.colon && c ≠ 0) = true

/-- Text without any character a token ends at. -/
def IsToken (text : Bytes) : Prop :=
  (text.all fun c => c ≠ 0 && !CText.isPunct c && !CText.isSpace c) = true

theorem isField_iff {text : Bytes} : IsField text ↔ ∀ c ∈ text, c ≠ CText.colon ∧ c ≠ 0 := by
  simp [IsField]

theorem IsToken.isField {text : Bytes} (h : IsToken text) : IsField text := by
  refine isField_iff.mpr fun c hc => ?_
  have hc := List.all_eq_true.mp h c hc
  refine ⟨?_, ?_⟩
  · rintro rfl
    exact absurd hc (by decide)
  · rintro rfl
    exact absurd hc (by decide)

section Names

theorem isField_chopClassName (rtClass : RtClass) : IsField (chopClassName rtClass) := by
  cases rtClass <;> rfl

theorem isToken_hashMethodName (method : HashMethod) :
    IsToken ((chopHashMethodName method).map toLower) := by
  cases method <;> rfl

theorem isToken_cipherModeName (mode : CipherMode) :
    IsToken ((chopCipherModeName mode).map toLower) := by
  cases mode <;> rfl

theorem isField_cipherAlgoName (algo : CipherAlgo) :
    IsField ((chopCipherAlgoName algo).map toLower) := by
  cases algo <;> rfl

theorem comma_notMem_cipherAlgoName (algo : CipherAlgo) :
    CText.comma ∉ (chopCipherAlgoName algo).map toLower := by
  cases algo <;> decide

theorem chopHashMethodLookup_lower (method : HashMethod) :
    chopHashMethodLookup ((chopHashMethodName method).map toLower) = some method := by
  cases method <;> rfl

theorem hashMethodName_ne_nil (method : HashMethod) :
    (chopHashMethodName method).map toLower ≠ [] := by
  cases method <;> decide

theorem chopCipherAlgoLookup_lower (algo : CipherAlgo) :
    chopCipherAlgoLookup ((chopCipherAlgoName algo).map toLower) = some algo := by
  cases algo <;> rfl

theorem chopCipherModeLookup_lower (mode : CipherMode) :
    chopCipherModeLookup ((chopCipherModeName mode).map toLower) = some mode := by
  cases mode <;> rfl

end Names

section Readers

theorem readClass_name {chopClassLookup : Bytes → Option RtClass} {inherits : RtClass → Bool}
    {rtClass : RtClass} (hlookup : chopClassLookup (chopClassName rtClass) = some rtClass)
    (hinherits : inherits rtClass = true) (rest : Bytes) :
    readClass chopClassLookup inherits (chopClassName rtClass ++ CText.colon :: rest) =
      .ok (rtClass, rest) := by
  simp only [readClass, CText.splitAt_append (isField_iff.mp (isField_chopClassName rtClass)),
    hlookup, hinherits, if_true]

theorem readObject_field {α : Type} {deserialize : Bytes → Nat → Except ChopError (α × Nat)}
    {text rest : Bytes} {object : α} (htext : IsField text)
    (h : deserialize (text ++ CText.colon :: rest) text.length = .ok (object, text.length)) :
    readObject deserialize (text ++ CText.colon :: rest) = .ok (object, rest) := by
  simp only [readObject, CText.strchr_append (isField_iff.mp htext), h, CText.drop_past, ne_eq,
    not_true_eq_false, if_false]

theorem endsNumber_colon (rest : Bytes) : CText.EndsNumber (CText.colon :: rest) := by
  intro c hc
  cases hc
  decide

theorem endsNumber_null : CText.EndsNumber [0] := by
  intro c hc
  cases hc
  decide

end Readers

section Fields

theorem isField_hexDigits (n : Nat) : IsField (CText.hexDigits n) := by
  refine isField_iff.mpr fun c hc => ?_
  have hdigit := CText.isHexDigit_of_mem_hexDigits hc
  refine ⟨?_, ?_⟩
  · rintro rfl
    exact absurd hdigit (by decide)
  · rintro rfl
    exact absurd hdigit (by decide)

private theorem length_eq_succ {text : Bytes} (h : text ≠ []) : ∃ n, text.length = n + 1 :=
  ⟨text.length - 1, by have := List.length_pos_of_ne_nil h; omega⟩

theorem ihtDeserialize_serialize {n : Nat} (hn : n < 2 ^ 64) (rest : Bytes) :
    ihtDeserialize (CText.hexDigits n ++ CText.colon :: rest) =
      .ok (n, (CText.hexDigits n).length) := by
  obtain ⟨count, hcount⟩ := length_eq_succ (CText.hexDigits_ne_nil n)
  rw [ihtDeserialize, CText.strtoul_hexDigits hn (endsNumber_colon rest), hcount]
  rfl

theorem hbfDeserialize_serialize (method : HashMethod) (rest : Bytes) :
    hbfDeserialize ((hbfSerialize method).dropLast ++ CText.colon :: rest) =
      .ok (method, (hbfSerialize method).dropLast.length) := by
  by_cases hmethod : method = .none
  · rw [hmethod]
    rfl
  · have hname : CText.token ((chopHashMethodName method).map toLower ++ CText.colon :: rest) =
        (chopHashMethodName method).map toLower :=
      CText.token_append (List.all_eq_true.mp (isToken_hashMethodName method)) rfl rest
    rw [hbfSerialize, if_pos hmethod, List.dropLast_concat]
    simp only [hbfDeserialize, hname, hashMethodName_ne_nil, if_false, chopHashMethodLookup_lower]

private theorem cbfDeserialize_names {ciphers : Ciphers} {algoName modeName methodName : Bytes}
    {cipher : CipherHandle} {method : HashMethod} (halgo : IsField algoName)
    (hcomma : CText.comma ∉ algoName) (hmode : IsToken modeName) (hmethod : IsToken methodName)
    (hne : methodName ≠ []) (hopens : ciphers.opens cipher = true)
    (halgoLookup : chopCipherAlgoLookup algoName = some cipher.algo)
    (hmodeLookup : chopCipherModeLookup modeName = some cipher.mode)
    (hmethodLookup : chopHashMethodLookup methodName = some method) (rest : Bytes) {size : Nat}
    (hsize : algoName.length < size) :
    cbfDeserialize ciphers
        (algoName ++ CText.comma ::
          (modeName ++ CText.comma :: (methodName ++ CText.colon :: rest))) size =
      .ok (some cipher, method, algoName.length + 1 + modeName.length + 1 + methodName.length) := by
  have hnull : algoName.takeWhile (· ≠ 0) = algoName := by
    rw [List.takeWhile_eq_self_iff]
    intro c hc
    exact decide_eq_true (isField_iff.mp halgo c hc).2
  have hdrop : (algoName ++ CText.comma ::
      (modeName ++ CText.comma :: (methodName ++ CText.colon :: rest))).drop
        (algoName.length + 1 + modeName.length + 1) = methodName ++ CText.colon :: rest := by
    rw [Nat.add_assoc _ modeName.length, ← List.drop_drop, CText.drop_past, CText.drop_past]
  have hmodeEnd : CText.isPunct CText.comma = true := rfl
  have hmethodEnd : CText.isPunct CText.colon = true := rfl
  simp only [cbfDeserialize, CText.memchr_append hcomma _ hsize, List.take_left, hnull, halgoLookup,
    CText.drop_past, CText.token_append (List.all_eq_true.mp hmode) hmodeEnd, hmodeLookup, hdrop,
    CText.token_append (List.all_eq_true.mp hmethod) hmethodEnd, hne, if_false, hmethodLookup,
    hopens, if_true]

private theorem cbfSerialize_text (cipher : CipherHandle) {method : HashMethod}
    (hmethod : method ≠ .none) :
    (cbfSerialize cipher method).dropLast =
      (chopCipherAlgoName cipher.algo).map toLower ++ CText.comma ::
        ((chopCipherModeName cipher.mode).map toLower ++ CText.comma ::
          (chopHashMethodName method).map toLower) := by
  rw [cbfSerialize, if_pos hmethod, ← List.append_assoc _ _ [0], ← List.cons_append,
    ← List.append_assoc, List.dropLast_concat]

theorem cbfDeserialize_serialize {ciphers : Ciphers} {cipher : CipherHandle}
    (hopens : ciphers.opens cipher = true) {method : HashMethod} (hmethod : method ≠ .none)
    (rest : Bytes) :
    cbfDeserialize ciphers ((cbfSerialize cipher method).dropLast ++ CText.colon :: rest)
        (cbfSerialize cipher method).dropLast.length =
      .ok (some cipher, method, (cbfSerialize cipher method).dropLast.length) := by
  rw [cbfSerialize_text cipher hmethod]
  simp only [List.append_assoc, List.cons_append]
  rw [cbfDeserialize_names (isField_cipherAlgoName _) (comma_notMem_cipherAlgoName _)
    (isToken_cipherModeName _) (isToken_hashMethodName _) (hashMethodName_ne_nil _) hopens
    (chopCipherAlgoLookup_lower _) (chopCipherModeLookup_lower _) (chopHashMethodLookup_lower _)]
  · simp only [List.length_append, List.length_cons, Nat.add_comm, Nat.add_left_comm]
  · rw [List.length_append, List.length_cons]
    omega

/-- A CHK fetcher has a hash method and a cipher that can be opened. -/
def BlockFetcherObject.Complete (ciphers : Ciphers) : BlockFetcherObject → Prop
  | .chk cipher method => ciphers.opens cipher = true ∧ method ≠ .none
  | _ => True

theorem isField_serialize {ciphers : Ciphers} {fetcher : BlockFetcherObject}
    (h : fetcher.Complete ciphers) : IsField fetcher.serialize.dropLast := by
  cases fetcher with
  | hash method =>
    by_cases hmethod : method = .none
    · rw [hmethod]
      rfl
    · rw [BlockFetcherObject.serialize, hbfSerialize, if_pos hmethod, List.dropLast_concat]
      exact (isToken_hashMethodName method).isField
  | chk cipher method =>
    have halgo : IsField _ := isField_cipherAlgoName cipher.algo
    have hmode : IsField _ := (isToken_cipherModeName cipher.mode).isField
    have hmethod : IsField _ := (isToken_hashMethodName method).isField
    have hcomma : (CText.comma ≠ CText.colon && CText.comma ≠ 0) = true := rfl
    rw [IsField] at halgo hmode hmethod
    rw [BlockFetcherObject.serialize, cbfSerialize_text cipher h.2, IsField]
    simp only [List.all_append, List.all_cons, halgo, hmode, hmethod, hcomma, Bool.and_self]
  | integer => rfl

theorem deserializeFetcher_serialize {ciphers : Ciphers} {fetcher : BlockFetcherObject}
    (h : fetcher.Complete ciphers) (rest : Bytes) :
    deserializeFetcher ciphers fetcher.rtClass (fetcher.serialize.dropLast ++ CText.colon :: rest)
        fetcher.serialize.dropLast.length =
      .ok (some fetcher, fetcher.serialize.dropLast.length) := by
  cases fetcher with
  | hash method =>
    simp only [deserializeFetcher, BlockFetcherObject.rtClass, BlockFetcherObject.serialize,
      hbfDeserialize_serialize, Except.map]
  | chk cipher method =>
    simp only [deserializeFetcher, BlockFetcherObject.rtClass, BlockFetcherObject.serialize,
      cbfDeserialize_serialize h.1 h.2, Except.map, Option.map_some]
  | integer => rfl

end Fields

section Handles

/-- Sizes as block indexers make them. -/
def IndexHandle.Fits : IndexHandle → Prop
  | .hash handle => handle.content.length ≤ 64 ∧ handle.blockSize < 2 ^ 64
  | .chk handle =>
    handle.key.length ≤ 64 ∧ handle.blockId.length ≤ 64 ∧ handle.blockSize < 2 ^ 64
  | .integer _ => True

theorem base32_stops {buffer : Bytes} {stop : UInt8} (hstop : isBase32Text stop = false) :
    ∀ c ∈ chopBufferToBase32String buffer, c ≠ stop ∧ c ≠ 0 := by
  intro c hc
  have hbase32 := mem_chopBufferToBase32String hc
  refine ⟨?_, ?_⟩
  · rintro rfl
    rw [hstop] at hbase32
    cases hbase32
  · rintro rfl
    exact absurd hbase32 (by decide)

private theorem base32_decode (buffer : Bytes) :
    chopBase32StringToBuffer (chopBufferToBase32String buffer) =
      (buffer, (chopBufferToBase32String buffer).length) := by
  have hnil : EndsBase32 [] := .inl (by decide)
  have hread := chopBase32StringToBuffer_string buffer hnil
  rw [List.append_nil] at hread
  exact hread

private theorem readBlockSize_hexDigits {n : Nat} (hn : n < 2 ^ 64) (start : Nat) :
    readBlockSize start (CText.hexDigits n ++ [0]) =
      .ok (n, start + (CText.hexDigits n).length) := by
  obtain ⟨count, hcount⟩ := length_eq_succ (CText.hexDigits_ne_nil n)
  rw [readBlockSize, CText.strtoul_hexDigits hn endsNumber_null, hcount]
  rfl

theorem hihDeserialize_serialize {handle : HashIndexHandle} (hsize : handle.content.length ≤ 64)
    (hblock : handle.blockSize < 2 ^ 64) :
    ∃ count, hihDeserialize (hihSerialize handle) (hihSerialize handle).length =
      .ok (handle, count) := by
  have hdigits : (CText.hexDigits handle.blockSize).length ≤ 16 :=
    CText.length_hexDigits_le (by decide) hblock
  have hshort : ¬ (hihSerialize handle).length > 1023 := by
    simp only [hihSerialize, List.length_append, List.length_cons, List.length_nil,
      length_chopBufferToBase32String]
    omega
  have hslash : ∀ c ∈ chopBufferToBase32String handle.content, c ≠ CText.slash ∧ c ≠ 0 :=
    base32_stops rfl
  refine ⟨(chopBufferToBase32String handle.content).length + 1 +
    (CText.hexDigits handle.blockSize).length, ?_⟩
  simp only [hihDeserialize, if_neg hshort, List.take_length]
  simp only [hihSerialize, CText.strchr_append hslash, List.take_left, base32_decode,
    CText.drop_past, readBlockSize_hexDigits hblock, ne_eq, not_true_eq_false, if_false, Except.map]

theorem chkDeserialize_serialize {handle : ChkIndexHandle} (hkey : handle.key.length ≤ 64)
    (hblockId : handle.blockId.length ≤ 64) (hblock : handle.blockSize < 2 ^ 64) :
    ∃ count, chkDeserialize (chkSerialize handle) (chkSerialize handle).length =
      .ok (handle, count) := by
  have hdigits : (CText.hexDigits handle.blockSize).length ≤ 16 :=
    CText.length_hexDigits_le (by decide) hblock
  have hshort : ¬ (chkSerialize handle).length > 1023 := by
    simp only [chkSerialize, List.length_append, List.length_cons, List.length_nil,
      length_chopBufferToBase32String]
    omega
  have hcomma : ∀ c ∈ chopBufferToBase32String handle.key, c ≠ CText.comma ∧ c ≠ 0 :=
    base32_stops rfl
  have hslash : ∀ c ∈ chopBufferToBase32String handle.blockId, c ≠ CText.slash ∧ c ≠ 0 :=
    base32_stops rfl
  refine ⟨(chopBufferToBase32String handle.key).length + 1 +
    (chopBufferToBase32String handle.blockId).length + 1 +
    (CText.hexDigits handle.blockSize).length, ?_⟩
  simp only [chkDeserialize, if_neg hshort, List.take_length]
  simp only [chkSerialize, CText.strchr_append hcomma, CText.strchr_append hslash, List.take_left,
    base32_decode, CText.drop_past, readBlockSize_hexDigits hblock, ne_eq, not_true_eq_false,
    if_false, Except.map]

theorem iihDeserialize_serialize (id : UInt32) :
    ∃ count, iihDeserialize (iihSerialize id) (iihSerialize id).length = .ok (id, count) := by
  have hid : id.toNat < 16 ^ 8 := id.toNat_lt
  have hlength := CText.length_hexDigitsWide (by decide) hid
  have htext : iihSerialize id = CText.hexDigitsWide 8 id.toNat ++ [0] := by
    rw [iihSerialize, List.take_of_length_le]
    rw [List.length_append, hlength]
    rfl
  have hsize : ¬ (CText.hexDigitsWide 8 id.toNat ++ [0]).length < 8 := by
    rw [List.length_append, hlength]
    decide
  have hread := CText.strtoul_hexDigitsWide (hid.trans (by decide)) 8 endsNumber_null
  refine ⟨8, ?_⟩
  rw [htext, iihDeserialize, if_neg hsize, hread, hlength]
  exact congrArg (fun id => Except.ok (id, 8)) (UInt32.ofNat_toNat)

/-- Handles are read back in full. -/
theorem deserializeIndexHandle_serialize {index : IndexHandle} (h : index.Fits) :
    ∃ count, deserializeIndexHandle index.rtClass index.serialize index.serialize.length =
      .ok (index, count) := by
  cases index with
  | hash handle =>
    obtain ⟨count, hcount⟩ := hihDeserialize_serialize h.1 h.2
    refine ⟨count, ?_⟩
    simp only [deserializeIndexHandle, IndexHandle.rtClass, IndexHandle.serialize, hcount, Except.map]
  | chk handle =>
    obtain ⟨count, hcount⟩ := chkDeserialize_serialize h.1 h.2.1 h.2.2
    refine ⟨count, ?_⟩
    simp only [deserializeIndexHandle, IndexHandle.rtClass, IndexHandle.serialize, hcount, Except.map]
  | integer id =>
    obtain ⟨count, hcount⟩ := iihDeserialize_serialize id
    refine ⟨count, ?_⟩
    simp only [deserializeIndexHandle, IndexHandle.rtClass, IndexHandle.serialize, hcount, Except.map]

end Handles

section Tuples

def serializedObjects (index : IndexHandle) (n : Nat) (fetcher : BlockFetcherObject) : Bytes :=
  CText.hexDigits n ++ CText.colon :: (fetcher.serialize.dropLast ++ CText.colon :: index.serialize)

theorem indexTupleS2_objects {ciphers : Ciphers} {fetcher : BlockFetcherObject}
    {index : IndexHandle} (hfetcher : fetcher.Complete ciphers) (hindex : index.Fits) {n : Nat}
    (hn : n < 2 ^ 64) :
    ∃ total, chopAsciiDeserializeIndexTupleS2 ciphers (serializedObjects index n fetcher)
        (serializedObjects index n fetcher).length .treeIndexer fetcher.rtClass index.rtClass =
      .ok (n, some fetcher, index, total) := by
  obtain ⟨count, hcount⟩ := deserializeIndexHandle_serialize hindex
  have hindexer : readObject (deserializeIndexer .treeIndexer) (serializedObjects index n fetcher) =
      .ok (n, fetcher.serialize.dropLast ++ CText.colon :: index.serialize) := by
    have hnumber := ihtDeserialize_serialize hn (fetcher.serialize.dropLast ++ CText.colon :: index.serialize)
    rw [serializedObjects]
    exact readObject_field (isField_hexDigits n) hnumber
  have hread := readObject_field (isField_serialize hfetcher)
    (deserializeFetcher_serialize hfetcher index.serialize)
  have hle : index.serialize.length ≤ (serializedObjects index n fetcher).length := by
    simp only [serializedObjects, List.length_append, List.length_cons]
    omega
  refine ⟨(serializedObjects index n fetcher).length - index.serialize.length + count, ?_⟩
  simp only [chopAsciiDeserializeIndexTupleS2, hindexer, hread, Nat.sub_sub_self hle, hcount]

def serializedClasses (index : IndexHandle) (fetcher : BlockFetcherObject) : Bytes :=
  chopClassName .treeIndexer ++ CText.colon ::
    (chopClassName fetcher.rtClass ++ CText.colon :: (chopClassName index.rtClass ++ [CText.colon]))

theorem indexTupleS1_classes {chopClassLookup : Bytes → Option RtClass}
    (hlookup : ∀ rtClass, chopClassLookup (chopClassName rtClass) = some rtClass)
    (index : IndexHandle) (fetcher : BlockFetcherObject) (rest : Bytes) :
    chopAsciiDeserializeIndexTupleS1 chopClassLookup (serializedClasses index fetcher ++ rest) =
      .ok (.treeIndexer, fetcher.rtClass, index.rtClass,
        (serializedClasses index fetcher).length) := by
  have hindexer : RtClass.treeIndexer.inheritsIndexer = true := rfl
  have hfetcher : fetcher.rtClass.inheritsBlockFetcher = true := by
    cases fetcher with
    | hash method => rfl
    | chk cipher method => rfl
    | integer => rfl
  have hindex : index.rtClass.inheritsIndexHandle = true := by
    cases index with
    | hash handle => rfl
    | chk handle => rfl
    | integer id => rfl
  have hlength : (serializedClasses index fetcher ++ rest).length - rest.length =
      (serializedClasses index fetcher).length := by
    rw [List.length_append, Nat.add_sub_cancel]
  rw [← hlength]
  simp only [serializedClasses, List.append_assoc, List.cons_append, List.nil_append,
    chopAsciiDeserializeIndexTupleS1, readClass_name (hlookup _) hindexer,
    readClass_name (hlookup _) hfetcher, readClass_name (hlookup _) hindex]

theorem indexTuple_eq (index : IndexHandle) (n : Nat) (blockIndexer : BlockIndexerObject) :
    chopAsciiSerializeIndexTuple index n blockIndexer =
      serializedClasses index blockIndexer.fetcher ++
        serializedObjects index n blockIndexer.fetcher := by
  simp only [chopAsciiSerializeIndexTuple, serializedClasses, serializedObjects, ihtSerialize,
    List.dropLast_concat, List.append_assoc, List.cons_append, List.nil_append]

/-- `chop_chk_block_indexer_open` and `cbi_deserialize` want an open cipher.  Hash and integer
indexers are accepted with whatever they are given. -/
def BlockIndexerObject.accepted (ciphers : Ciphers) : BlockIndexerObject → Bool
  | .chk indexer => ciphers.opens indexer.cipher
  | _ => true

private theorem chopHashSize_le (method : HashMethod) : chopHashSize method ≤ 64 := by
  cases method <;> decide

section Produced

variable {σ : Type} {methods : StoreMethods σ} {hash : HashFunctions} {ciphers : Ciphers}

private theorem handle_of_writeIndexed {key content : Bytes} {handle handle' : IndexHandle}
    {store store' : σ}
    (h : writeIndexed methods key content handle store = (.ok handle', store')) :
    handle' = handle := by
  rw [writeIndexed] at h
  split at h
  · cases h
  · cases h
    rfl

def BlockIndexerObject.indexHandleClass : BlockIndexerObject → RtClass
  | .hash _ => .hashIndexHandle
  | .chk _ => .chkIndexHandle
  | .integer _ => .integerIndexHandle

/-- What a handle says about its block. -/
def IndexHandle.Describes (block : Bytes) : IndexHandle → Prop
  | .hash handle => handle.blockSize = block.length ∧ handle.content.length ≤ 64
  | .chk handle =>
    handle.blockSize = block.length ∧ handle.key.length ≤ 64 ∧ handle.blockId.length ≤ 64
  | .integer _ => True

theorem IndexHandle.Describes.fits {block : Bytes} {index : IndexHandle}
    (h : index.Describes block) (hblock : block.length < 2 ^ 64) : index.Fits := by
  cases index with
  | hash handle => exact ⟨h.2, h.1 ▸ hblock⟩
  | chk handle => exact ⟨h.2.1, h.2.2, h.1 ▸ hblock⟩
  | integer id => trivial

/-- A handle holds what its block was indexed with, and an indexer that returns one had hash methods
that libgcrypt has. -/
theorem indexBlock_describes {blockIndexer blockIndexer' : BlockIndexerObject}
    {randoms : List (Nat → UInt8)} {block : Bytes} {store store' : σ} {index : IndexHandle}
    (h : blockIndexer.indexBlock methods hash ciphers randoms block store =
      .done (.ok index, blockIndexer', store')) :
    index.Describes block ∧ index.rtClass = blockIndexer.indexHandleClass ∧
      (blockIndexer.accepted ciphers = true → blockIndexer.fetcher.Complete ciphers) := by
  have hrequest : indexRequest methods hash ciphers store ⟨blockIndexer, randoms, block⟩ =
      .done (.ok index, store') := by
    rw [indexRequest, h, Outcome.done_bind]
  cases blockIndexer with
  | integer id =>
    have hwrite := congrArg Prod.fst (Outcome.done.inj h)
    have hindex : index = .integer id :=
      handle_of_writeIndexed (Prod.ext hwrite rfl)
    rw [hindex]
    exact ⟨trivial, rfl, fun _ => trivial⟩
  | hash method =>
    rcases indexRequest_cases rfl hrequest with
      ⟨⟨err, herr⟩, -⟩ | ⟨handle, method', key, content, hindexed, hwrite⟩
    · cases herr
    · rw [handle_of_writeIndexed hwrite]
      cases hindexed with
      | hash _ hkey =>
        refine ⟨⟨rfl, ?_⟩, rfl, fun _ => trivial⟩
        rw [length_chopHashBuffer hkey]
        exact chopHashSize_le method
  | chk indexer =>
    rcases indexRequest_cases rfl hrequest with
      ⟨⟨err, herr⟩, -⟩ | ⟨handle, method', key, content, hindexed, hwrite⟩
    · cases herr
    · rw [handle_of_writeIndexed hwrite]
      cases hindexed with
      | chk hencrypt hkey =>
        refine ⟨⟨rfl, ?_, ?_⟩, rfl, fun haccepted => ⟨haccepted, chopHashBuffer_ne_none hkey⟩⟩
        · rw [(chkEncryptBlock_spec hencrypt).1]
          exact ciphers.keySize_le _
        · rw [length_chopHashBuffer hkey]
          exact chopHashSize_le _

/-- The tuple of any tree indexer, block indexer and handle that it returned is read back. -/
theorem indexTuple_roundTrip {chopClassLookup : Bytes → Option RtClass}
    (hlookup : ∀ rtClass, chopClassLookup (chopClassName rtClass) = some rtClass)
    {blockIndexer blockIndexer' : BlockIndexerObject} {randoms : List (Nat → UInt8)} {block : Bytes}
    {store store' : σ} {index : IndexHandle} (haccepted : blockIndexer.accepted ciphers = true)
    (hblock : block.length < 2 ^ 64)
    (hindex : blockIndexer.indexBlock methods hash ciphers randoms block store =
      .done (.ok index, blockIndexer', store'))
    {indexesPerBlock : Nat} (hindexes : indexesPerBlock < 2 ^ 64) :
    ∃ count total,
      chopAsciiDeserializeIndexTupleS1 chopClassLookup
          (chopAsciiSerializeIndexTuple index indexesPerBlock blockIndexer) =
        .ok (.treeIndexer, blockIndexer.fetcher.rtClass, index.rtClass, count) ∧
      chopAsciiDeserializeIndexTupleS2 ciphers
          ((chopAsciiSerializeIndexTuple index indexesPerBlock blockIndexer).drop count)
          ((chopAsciiSerializeIndexTuple index indexesPerBlock blockIndexer).length - count)
          .treeIndexer blockIndexer.fetcher.rtClass index.rtClass =
        .ok (indexesPerBlock, some blockIndexer.fetcher, index, total) := by
  obtain ⟨hdescribes, -, hcomplete⟩ := indexBlock_describes hindex
  have hfetcher := hcomplete haccepted
  have hfits := hdescribes.fits hblock
  obtain ⟨total, htotal⟩ := indexTupleS2_objects hfetcher hfits hindexes
  refine ⟨(serializedClasses index blockIndexer.fetcher).length, total, ?_, ?_⟩
  · rw [indexTuple_eq]
    exact indexTupleS1_classes hlookup index blockIndexer.fetcher _
  · rw [indexTuple_eq, List.drop_left, List.length_append, Nat.add_sub_cancel_left]
    exact htotal

end Produced

end Tuples

def rtClasses : List RtClass :=
  [.object, .treeIndexer, .hashBlockFetcher, .chkBlockFetcher, .integerBlockFetcher,
    .hashIndexHandle, .chkIndexHandle, .integerIndexHandle]

/-- Names are compared one after the other. -/
def lookupByName (name : Bytes) : Option RtClass :=
  rtClasses.find? fun rtClass => chopClassName rtClass = name

theorem lookupByName_chopClassName (rtClass : RtClass) :
    lookupByName (chopClassName rtClass) = some rtClass := by
  cases rtClass <;> decide

/-- An encrypted block and a tree with a hundred indexes in a block. -/
theorem sampleIndexer_roundTrip :
    ∃ index blockIndexer store,
      (BlockIndexerObject.chk sampleChkIndexer).indexBlock blockMapStore sampleDigests sampleCiphers []
          (cString "abc") (fun _ => none) = .done (.ok index, blockIndexer, store) ∧
      ∃ count total,
        chopAsciiDeserializeIndexTupleS1 lookupByName
            (chopAsciiSerializeIndexTuple index 100 (.chk sampleChkIndexer)) =
          .ok (.treeIndexer, .chkBlockFetcher, index.rtClass, count) ∧
        chopAsciiDeserializeIndexTupleS2 sampleCiphers
            ((chopAsciiSerializeIndexTuple index 100 (.chk sampleChkIndexer)).drop count)
            ((chopAsciiSerializeIndexTuple index 100 (.chk sampleChkIndexer)).length - count)
            .treeIndexer .chkBlockFetcher index.rtClass =
          .ok (100, some (.chk ⟨.aes, .cbc⟩ .sha1), index, total) := by
  have hindex : ∃ index blockIndexer store,
      (BlockIndexerObject.chk sampleChkIndexer).indexBlock blockMapStore sampleDigests sampleCiphers []
          (cString "abc") (fun _ => none) = .done (.ok index, blockIndexer, store) := ⟨_, _, _, rfl⟩
  obtain ⟨index, blockIndexer, store, hindex⟩ := hindex
  exact ⟨index, blockIndexer, store, hindex,
    indexTuple_roundTrip lookupByName_chopClassName rfl (by decide) hindex (by decide)⟩

end Libchop
