import Libchop.Framework.CText
import Libchop.Indexer.BlockIndexer

/-!
# Index tuples as text

`chop_ascii_serialize_index_tuple` writes the names of three classes and then an indexer, a fetcher
and a handle, with colons between them.  They are read in two steps: the classes, and then the
objects of these classes.
-/

namespace Libchop

/-- The classes of the objects in a tuple; `object` stands for every other class. -/
inductive RtClass where
  | object
  | treeIndexer
  | hashBlockFetcher
  | chkBlockFetcher
  | integerBlockFetcher
  | hashIndexHandle
  | chkIndexHandle
  | integerIndexHandle
deriving DecidableEq, Repr

def chopClassName : RtClass → Bytes
  | .object => cString "object"
  | .treeIndexer => cString "tree_indexer"
  | .hashBlockFetcher => cString "hash_block_fetcher"
  | .chkBlockFetcher => cString "chk_block_fetcher"
  | .integerBlockFetcher => cString "integer_block_fetcher"
  | .hashIndexHandle => cString "hash_index_handle"
  | .chkIndexHandle => cString "chk_index_handle"
  | .integerIndexHandle => cString "integer_index_handle"

namespace RtClass

def inheritsIndexer : RtClass → Bool
  | .treeIndexer => true
  | _ => false

def inheritsBlockFetcher : RtClass → Bool
  | .hashBlockFetcher | .chkBlockFetcher | .integerBlockFetcher => true
  | _ => false

def inheritsIndexHandle : RtClass → Bool
  | .hashIndexHandle | .chkIndexHandle | .integerIndexHandle => true
  | _ => false

end RtClass

def BlockFetcherObject.rtClass : BlockFetcherObject → RtClass
  | .hash _ => .hashBlockFetcher
  | .chk _ _ => .chkBlockFetcher
  | .integer => .integerBlockFetcher

def IndexHandle.rtClass : IndexHandle → RtClass
  | .hash _ => .hashIndexHandle
  | .chk _ => .chkIndexHandle
  | .integer _ => .integerIndexHandle

def ihtSerialize (indexesPerBlock : Nat) : Bytes := CText.hexDigits indexesPerBlock ++ [0]

def hbfSerialize (method : HashMethod) : Bytes :=
  if method ≠ .none then (chopHashMethodName method).map toLower ++ [0] else []

def cbfSerialize (cipher : CipherHandle) (method : HashMethod) : Bytes :=
  (chopCipherAlgoName cipher.algo).map toLower ++ CText.comma ::
    ((chopCipherModeName cipher.mode).map toLower ++
      ((if method ≠ .none then CText.comma :: (chopHashMethodName method).map toLower else []) ++ [0]))

def ibfSerialize : Bytes := []

def BlockFetcherObject.serialize : BlockFetcherObject → Bytes
  | .hash method => hbfSerialize method
  | .chk cipher method => cbfSerialize cipher method
  | .integer => ibfSerialize

def hihSerialize (handle : HashIndexHandle) : Bytes :=
  chopBufferToBase32String handle.content ++ CText.slash ::
    (CText.hexDigits handle.blockSize ++ [0])

def chkSerialize (handle : ChkIndexHandle) : Bytes :=
  chopBufferToBase32String handle.key ++ CText.comma ::
    (chopBufferToBase32String handle.blockId ++ CText.slash ::
      (CText.hexDigits handle.blockSize ++ [0]))

def iihSerialize (id : UInt32) : Bytes := (CText.hexDigitsWide 8 id.toNat ++ [0]).take 9

def IndexHandle.serialize : IndexHandle → Bytes
  | .hash handle => hihSerialize handle
  | .chk handle => chkSerialize handle
  | .integer id => iihSerialize id

/-- The null characters at the end of the indexer and of the fetcher are left out. -/
def chopAsciiSerializeIndexTuple (index : IndexHandle) (indexesPerBlock : Nat)
    (blockIndexer : BlockIndexerObject) : Bytes :=
  chopClassName .treeIndexer ++ CText.colon ::
    (chopClassName blockIndexer.fetcher.rtClass ++ CText.colon ::
      (chopClassName index.rtClass ++ CText.colon ::
        ((ihtSerialize indexesPerBlock).dropLast ++ CText.colon ::
          (blockIndexer.fetcher.serialize.dropLast ++ CText.colon :: index.serialize))))

/-- A class name up to the next colon, and what stands after it. -/
def readClass (chopClassLookup : Bytes → Option RtClass) (inherits : RtClass → Bool)
    (buffer : Bytes) : Except ChopError (RtClass × Bytes) :=
  match CText.splitAt CText.colon buffer with
  | none => .error .deserialCorruptInput
  | some (name, rest) =>
    match chopClassLookup name with
    | none => .error .deserialCorruptInput
    | some rtClass => if inherits rtClass then .ok (rtClass, rest) else .error .invalidArg

/-- The three classes and the number of bytes that were read. -/
def chopAsciiDeserializeIndexTupleS1 (chopClassLookup : Bytes → Option RtClass) (buffer : Bytes) :
    Except ChopError (RtClass × RtClass × RtClass × Nat) :=
  match readClass chopClassLookup RtClass.inheritsIndexer buffer with
  | .error err => .error err
  | .ok (indexerClass, afterIndexer) =>
    match readClass chopClassLookup RtClass.inheritsBlockFetcher afterIndexer with
    | .error err => .error err
    | .ok (fetcherClass, afterFetcher) =>
      match readClass chopClassLookup RtClass.inheritsIndexHandle afterFetcher with
      | .error err => .error err
      | .ok (handleClass, rest) =>
        .ok (indexerClass, fetcherClass, handleClass, buffer.length - rest.length)

/-- The number and its length. -/
def ihtDeserialize (buffer : Bytes) : Except ChopError (Nat × Nat) :=
  match CText.strtoul buffer with
  | (_, 0) => .error .deserialCorruptInput
  | (indexesPerBlock, count) => .ok (indexesPerBlock, count)

/-- Without a name, blocks will not be checked. -/
def hbfDeserialize (buffer : Bytes) : Except ChopError (HashMethod × Nat) :=
  let name := CText.token buffer
  if name = [] then .ok (.none, 0)
  else
    match chopHashMethodLookup name with
    | none => .error .deserialCorruptInput
    | some method => .ok (method, name.length)

/-- The cipher, the method and the number of bytes that were read.  The character after the mode is
skipped, whatever it is.  The cipher is `none` if it cannot be opened, which is not checked. -/
def cbfDeserialize (ciphers : Ciphers) (buffer : Bytes) (size : Nat) :
    Except ChopError (Option CipherHandle × HashMethod × Nat) :=
  match CText.memchr CText.comma buffer size with
  | none => .error .deserialCorruptInput
  | some position =>
    match chopCipherAlgoLookup ((buffer.take position).takeWhile (· ≠ 0)) with
    | none => .error .deserialCorruptInput
    | some algo =>
      let modeName := CText.token (buffer.drop (position + 1))
      match chopCipherModeLookup modeName with
      | none => .error .deserialCorruptInput
      | some mode =>
        let start := position + 1 + modeName.length + 1
        let cipher := if ciphers.opens ⟨algo, mode⟩ then some ⟨algo, mode⟩ else none
        let methodName := CText.token (buffer.drop start)
        if methodName = [] then .ok (cipher, .none, start)
        else
          match chopHashMethodLookup methodName with
          | none => .error .deserialCorruptInput
          | some method => .ok (cipher, method, start + methodName.length)

/-- A fetcher without its cipher is `none`. -/
def deserializeFetcher (ciphers : Ciphers) (fetcherClass : RtClass) (buffer : Bytes) (size : Nat) :
    Except ChopError (Option BlockFetcherObject × Nat) :=
  match fetcherClass with
  | .hashBlockFetcher => (hbfDeserialize buffer).map fun (method, count) => (some (.hash method), count)
  | .chkBlockFetcher =>
    (cbfDeserialize ciphers buffer size).map fun (cipher, method, count) =>
      (cipher.map fun cipher => .chk cipher method, count)
  | .integerBlockFetcher => .ok (some .integer, 0)
  | _ => .error .notImpl

/-- The size of a block at the end of a handle, where the text before it is as long as this. -/
def readBlockSize (start : Nat) (text : Bytes) : Except ChopError (Nat × Nat) :=
  match CText.strtoul text with
  | (_, 0) => .error .deserialCorruptInput
  | (blockSize, count) => .ok (blockSize, start + count)

/-- At most 1023 bytes are looked at, so that what they encode fits into the handle. -/
def hihDeserialize (buffer : Bytes) (size : Nat) : Except ChopError (HashIndexHandle × Nat) :=
  let input := buffer.take (if size > 1023 then 1023 else size)
  match CText.strchr CText.slash input with
  | none => .error .deserialCorruptInput
  | some slashPosition =>
    let (content, keyEnd) := chopBase32StringToBuffer (input.take slashPosition)
    if keyEnd ≠ slashPosition then .error .deserialCorruptInput
    else
      (readBlockSize (slashPosition + 1) (input.drop (slashPosition + 1))).map
        fun (blockSize, count) => (⟨blockSize, content⟩, count)

def chkDeserialize (buffer : Bytes) (size : Nat) : Except ChopError (ChkIndexHandle × Nat) :=
  let input := buffer.take (if size > 1023 then 1023 else size)
  match CText.strchr CText.comma input with
  | none => .error .deserialCorruptInput
  | some commaPosition =>
    let (key, keyEnd) := chopBase32StringToBuffer (input.take commaPosition)
    if keyEnd ≠ commaPosition then .error .deserialCorruptInput
    else
      let afterComma := input.drop (commaPosition + 1)
      match CText.strchr CText.slash afterComma with
      | none => .error .deserialCorruptInput
      | some slashPosition =>
        let (blockId, blockIdEnd) := chopBase32StringToBuffer (afterComma.take slashPosition)
        if blockIdEnd ≠ slashPosition then .error .deserialCorruptInput
        else
          (readBlockSize (commaPosition + 1 + slashPosition + 1)
            (afterComma.drop (slashPosition + 1))).map
              fun (blockSize, count) => (⟨blockSize, key, blockId⟩, count)

def iihDeserialize (buffer : Bytes) (size : Nat) : Except ChopError (UInt32 × Nat) :=
  if size < 8 then .error .deserialTooShort
  else
    match CText.strtoul buffer with
    | (_, 0) => .error .deserialCorruptInput
    | (id, count) => .ok (UInt32.ofNat id, count)

def deserializeIndexHandle (indexClass : RtClass) (buffer : Bytes) (size : Nat) :
    Except ChopError (IndexHandle × Nat) :=
  match indexClass with
  | .hashIndexHandle => (hihDeserialize buffer size).map fun (handle, count) => (.hash handle, count)
  | .chkIndexHandle => (chkDeserialize buffer size).map fun (handle, count) => (.chk handle, count)
  | .integerIndexHandle => (iihDeserialize buffer size).map fun (id, count) => (.integer id, count)
  | _ => .error .notImpl

/-- An object whose text reaches to the next colon, and what stands after it. -/
def readObject {α : Type} (deserialize : Bytes → Nat → Except ChopError (α × Nat))
    (buffer : Bytes) : Except ChopError (α × Bytes) :=
  match CText.strchr CText.colon buffer with
  | none => .error .deserialCorruptInput
  | some position =>
    match deserialize buffer position with
    | .error err => .error err
    | .ok (object, count) =>
      if count ≠ position then .error .deserialCorruptInput
      else .ok (object, buffer.drop (position + 1))

def deserializeIndexer (indexerClass : RtClass) (buffer : Bytes) (_size : Nat) :
    Except ChopError (Nat × Nat) :=
  match indexerClass with
  | .treeIndexer => ihtDeserialize buffer
  | _ => .error .notImpl

/-- The number of indexes in a block, the fetcher, the handle and the number of bytes that were
read. -/
def chopAsciiDeserializeIndexTupleS2 (ciphers : Ciphers) (buffer : Bytes) (size : Nat)
    (indexerClass fetcherClass indexClass : RtClass) :
    Except ChopError (Nat × Option BlockFetcherObject × IndexHandle × Nat) :=
  match readObject (deserializeIndexer indexerClass) buffer with
  | .error err => .error err
  | .ok (indexesPerBlock, afterIndexer) =>
    match readObject (deserializeFetcher ciphers fetcherClass) afterIndexer with
    | .error err => .error err
    | .ok (fetcher, afterFetcher) =>
      let bytesRead := buffer.length - afterFetcher.length
      match deserializeIndexHandle indexClass afterFetcher (size - bytesRead) with
      | .error err => .error err
      | .ok (handle, count) => .ok (indexesPerBlock, fetcher, handle, bytesRead + count)

end Libchop
