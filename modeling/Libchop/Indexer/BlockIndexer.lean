import Libchop.Indexer.Methods
import Libchop.Store.BlockMap

/-!
# Block indexers and fetchers

A block indexer writes a block to a store and returns a handle, from which its fetcher reads the
block back.  Hash indexers use the digest of the block as its key.  CHK indexers encrypt the block
under its digest first.  Integer indexers count.
-/

namespace Libchop

structure CipherHandle where
  algo : CipherAlgo
  mode : CipherMode
deriving DecidableEq, Repr

/-- The ciphers of libgcrypt.  Data is encrypted and decrypted under a key after a reset, into a
buffer of its own size. -/
structure Ciphers where
  opens : CipherHandle → Bool
  keySize : CipherAlgo → Nat
  keySize_le : ∀ algo, keySize algo ≤ 64
  blockSize : CipherAlgo → Nat
  setKey : CipherHandle → Bytes → Status
  encrypt : CipherHandle → Bytes → Bytes → Except ChopError Bytes
  decrypt : CipherHandle → Bytes → Bytes → Except ChopError Bytes
  length_encrypt : ∀ {cipher key input output},
    encrypt cipher key input = .ok output → output.length = input.length
  length_decrypt : ∀ {cipher key input output},
    decrypt cipher key input = .ok output → output.length = input.length

structure HashIndexHandle where
  blockSize : Nat
  content : Bytes
deriving DecidableEq, Repr

structure ChkIndexHandle where
  blockSize : Nat
  key : Bytes
  blockId : Bytes
deriving DecidableEq, Repr

inductive IndexHandle where
  | hash (handle : HashIndexHandle)
  | chk (handle : ChkIndexHandle)
  | integer (id : UInt32)
deriving DecidableEq, Repr

structure ChkBlockIndexer where
  cipher : CipherHandle
  keyHashMethod : HashMethod
  blockIdHashMethod : HashMethod
deriving DecidableEq, Repr

inductive BlockIndexerObject where
  | hash (method : HashMethod)
  | chk (indexer : ChkBlockIndexer)
  | integer (id : UInt32)
deriving DecidableEq, Repr

inductive BlockFetcherObject where
  | hash (method : HashMethod)
  | chk (cipher : CipherHandle) (blockIdHashMethod : HashMethod)
  | integer
deriving DecidableEq, Repr

/-- `chop_block_indexer_initialize_fetcher`. -/
def BlockIndexerObject.fetcher : BlockIndexerObject → BlockFetcherObject
  | .hash method => .hash method
  | .chk indexer => .chk indexer.cipher indexer.blockIdHashMethod
  | .integer _ => .integer

/-- `htonl`, as the bytes of a key. -/
def integerKey (id : UInt32) : Bytes :=
  [(id >>> 24).toUInt8, (id >>> 16).toUInt8, (id >>> 8).toUInt8, id.toUInt8]

/-- The loop that fills a key from a source that is too short.  The remainder by the size of an
empty source stops the program. -/
def cycleKey (keySize : Nat) (source : Bytes) : Nat → Nat → Bytes → Outcome Bytes
  | 0, _, _ => .outOfFuel
  | fuel + 1, sourceOffset, key =>
    if keySize > key.length then
      let amount := min (source.length - sourceOffset) (keySize - key.length)
      Outcome.assert (source.length ≠ 0) >>= fun _ =>
        cycleKey keySize source fuel ((sourceOffset + amount) % source.length)
          (key ++ (source.drop sourceOffset).take amount)
    else .done key

def cipherMakeSuitableKey (keySize : Nat) (source : Bytes) : Outcome Bytes :=
  if source.length ≥ keySize then .done (source.take keySize)
  else cycleKey keySize source (keySize + 1) 0 []

def chopRandomize (random : Nat → UInt8) (size : Nat) : Bytes := (List.range size).map random

/-- A weak key is replaced by random keys until the cipher takes one. -/
def setSuitableKey (ciphers : Ciphers) (cipher : CipherHandle) :
    Bytes → List (Nat → UInt8) → Outcome (Status × Bytes)
  | key, [] =>
    match ciphers.setKey cipher key with
    | .error .cipherWeakKey => .outOfFuel
    | err => .done (err, key)
  | key, random :: randoms =>
    match ciphers.setKey cipher key with
    | .error .cipherWeakKey =>
      setSuitableKey ciphers cipher (chopRandomize random (ciphers.keySize cipher.algo)) randoms
    | err => .done (err, key)

/-- The block with zeros up to a multiple of the block size of the cipher. -/
def zeroPadded (blockSize : Nat) (block : Bytes) : Bytes :=
  block ++ List.replicate
    (if block.length % blockSize ≠ 0 then blockSize - block.length % blockSize else 0) 0

/-- The first part of `chk_index_block`: the key that was used and the block encrypted under it. -/
def chkEncryptBlock (hash : HashFunctions) (ciphers : Ciphers) (indexer : ChkBlockIndexer)
    (randoms : List (Nat → UInt8)) (block : Bytes) : Outcome (Except ChopError (Bytes × Bytes)) :=
  Outcome.assert (0 < ciphers.blockSize indexer.cipher.algo) >>= fun _ =>
  Outcome.assert (0 < ciphers.keySize indexer.cipher.algo) >>= fun _ =>
  chopHashBuffer hash indexer.keyHashMethod block >>= fun hashKey =>
  cipherMakeSuitableKey (ciphers.keySize indexer.cipher.algo) hashKey >>= fun key =>
  setSuitableKey ciphers indexer.cipher key randoms >>= fun (err, key) =>
    match err with
    | .error err => .done (.error err)
    | .ok _ =>
      .done ((ciphers.encrypt indexer.cipher key
        (zeroPadded (ciphers.blockSize indexer.cipher.algo) block)).map fun content =>
          (key, content))

private theorem cycleKey_returns {keySize : Nat} {source : Bytes} (fuel sourceOffset : Nat)
    (key : Bytes) (hoffset : sourceOffset < source.length) (hkey : key.length ≤ keySize)
    (hfuel : keySize - key.length < fuel) :
    ∃ filled, cycleKey keySize source fuel sourceOffset key = .done filled ∧
      filled.length = keySize := by
  -- The loop fills the key, as every round takes something from the source.
  induction fuel generalizing sourceOffset key with
  | zero => omega
  | succ fuel ih =>
    rw [cycleKey]
    split
    · next hmore =>
      rw [Outcome.assert_of (by omega), Outcome.done_bind]
      have hamount : ((source.drop sourceOffset).take
          (min (source.length - sourceOffset) (keySize - key.length))).length =
            min (source.length - sourceOffset) (keySize - key.length) := by
        rw [List.length_take, List.length_drop]
        omega
      refine ih _ _ (Nat.mod_lt _ (by omega)) ?_ ?_
      · rw [List.length_append, hamount]
        omega
      · rw [List.length_append, hamount]
        omega
    · exact ⟨key, rfl, by omega⟩

/-- A digest that is not empty makes a key of any size. -/
theorem cipherMakeSuitableKey_returns (keySize : Nat) {source : Bytes} (h : source ≠ []) :
    ∃ key, cipherMakeSuitableKey keySize source = .done key ∧ key.length = keySize := by
  rw [cipherMakeSuitableKey]
  split
  · next hlong => exact ⟨_, rfl, List.length_take_of_le hlong⟩
  · exact cycleKey_returns _ _ _ (List.length_pos_of_ne_nil h) (Nat.zero_le _) (by simp)

theorem length_cipherMakeSuitableKey {keySize : Nat} {source key : Bytes}
    (h : cipherMakeSuitableKey keySize source = .done key) : key.length = keySize := by
  by_cases hsource : source = []
  · subst hsource
    rw [cipherMakeSuitableKey] at h
    split at h
    · next hzero =>
      cases h
      exact List.length_take_of_le hzero
    · next hpos =>
      have hmore : keySize > List.length ([] : Bytes) := by omega
      rw [cycleKey, if_pos hmore, Outcome.assert_of_not (by simp)] at h
      cases h
  · obtain ⟨key', hkey', hlength⟩ := cipherMakeSuitableKey_returns keySize hsource
    rw [h] at hkey'
    cases hkey'
    exact hlength

private theorem setSuitableKey_spec {ciphers : Ciphers} {cipher : CipherHandle} {key key' : Bytes}
    {randoms : List (Nat → UInt8)} {err : Status}
    (h : setSuitableKey ciphers cipher key randoms = .done (err, key'))
    (hkey : key.length = ciphers.keySize cipher.algo) :
    ciphers.setKey cipher key' = err ∧ key'.length = ciphers.keySize cipher.algo := by
  induction randoms generalizing key with
  | nil =>
    rw [setSuitableKey] at h
    split at h
    · cases h
    · cases h
      exact ⟨rfl, hkey⟩
  | cons random randoms ih =>
    rw [setSuitableKey] at h
    split at h
    · refine ih h ?_
      rw [chopRandomize, List.length_map, List.length_range]
    · cases h
      exact ⟨rfl, hkey⟩

private theorem setSuitableKey_of_strong {ciphers : Ciphers} {cipher : CipherHandle} {key : Bytes}
    (h : ciphers.setKey cipher key ≠ .error .cipherWeakKey) (randoms : List (Nat → UInt8)) :
    setSuitableKey ciphers cipher key randoms = .done (ciphers.setKey cipher key, key) := by
  cases randoms with
  | nil =>
    rw [setSuitableKey]
    split
    · next hweak => exact (h hweak).elim
    · rfl
  | cons random randoms =>
    rw [setSuitableKey]
    split
    · next hweak => exact (h hweak).elim
    · rfl

section Encryption

variable {hash : HashFunctions} {ciphers : Ciphers} {indexer : ChkBlockIndexer} {block : Bytes}
  {randoms : List (Nat → UInt8)}

/-- What `chk_index_block` has done when it computes the block key. -/
theorem chkEncryptBlock_spec {key content : Bytes}
    (h : chkEncryptBlock hash ciphers indexer randoms block = .done (.ok (key, content))) :
    key.length = ciphers.keySize indexer.cipher.algo ∧
      ciphers.setKey indexer.cipher key = .ok () ∧
      ciphers.encrypt indexer.cipher key
        (zeroPadded (ciphers.blockSize indexer.cipher.algo) block) = .ok content := by
  obtain ⟨-, -, h⟩ := Outcome.bind_eq_done.mp h
  obtain ⟨-, -, h⟩ := Outcome.bind_eq_done.mp h
  obtain ⟨hashKey, -, h⟩ := Outcome.bind_eq_done.mp h
  obtain ⟨suitable, hsuitable, h⟩ := Outcome.bind_eq_done.mp h
  obtain ⟨⟨err, used⟩, hused, h⟩ := Outcome.bind_eq_done.mp h
  obtain ⟨hset, hlength⟩ := setSuitableKey_spec hused (length_cipherMakeSuitableKey hsuitable)
  cases err with
  | error err => cases h
  | ok _ =>
    have h := Outcome.done.inj h
    cases hencrypt : ciphers.encrypt indexer.cipher used
        (zeroPadded (ciphers.blockSize indexer.cipher.algo) block) with
    | error err =>
      rw [hencrypt] at h
      cases h
    | ok ciphertext =>
      rw [hencrypt] at h
      cases h
      exact ⟨hlength, hset, hencrypt⟩

/-- The key that the block has from its digest is weak. -/
def WeakKey (hash : HashFunctions) (ciphers : Ciphers) (indexer : ChkBlockIndexer) (block : Bytes) :
    Prop :=
  ∃ hashKey key, chopHashBuffer hash indexer.keyHashMethod block = .done hashKey ∧
    cipherMakeSuitableKey (ciphers.keySize indexer.cipher.algo) hashKey = .done key ∧
    ciphers.setKey indexer.cipher key = .error .cipherWeakKey

/-- Without a weak key there is no randomness. -/
theorem chkEncryptBlock_randoms (hweak : ¬ WeakKey hash ciphers indexer block)
    (randoms' : List (Nat → UInt8)) :
    chkEncryptBlock hash ciphers indexer randoms block =
      chkEncryptBlock hash ciphers indexer randoms' block := by
  simp only [chkEncryptBlock]
  cases hhash : chopHashBuffer hash indexer.keyHashMethod block with
  | abort => rfl
  | outOfFuel => rfl
  | done hashKey =>
    cases hkey : cipherMakeSuitableKey (ciphers.keySize indexer.cipher.algo) hashKey with
    | abort => simp only [Outcome.done_bind, hkey, Outcome.abort_bind]
    | outOfFuel => simp only [Outcome.done_bind, hkey, Outcome.outOfFuel_bind]
    | done key =>
      have hstrong : ciphers.setKey indexer.cipher key ≠ .error .cipherWeakKey :=
        fun hset => hweak ⟨hashKey, key, hhash, hkey, hset⟩
      simp only [Outcome.done_bind, hkey, setSuitableKey_of_strong hstrong]

end Encryption

section Indexing

variable {σ : Type} (methods : StoreMethods σ) (hash : HashFunctions) (ciphers : Ciphers)

/-- Write a block under its key, and return the handle unless that fails. -/
def writeIndexed (key content : Bytes) (handle : IndexHandle) (store : σ) :
    Except ChopError IndexHandle × σ :=
  match methods.writeBlock key content store with
  | (.error err, store) => (.error err, store)
  | (.ok _, store) => (.ok handle, store)

def hashBlockIndex (method : HashMethod) (block : Bytes) (store : σ) :
    Outcome (Except ChopError IndexHandle × σ) :=
  if chopHashSize method = 0 ∨ chopHashSize method > 1024 then .done (.error .invalidArg, store)
  else
    chopHashBuffer hash method block >>= fun key =>
      .done (writeIndexed methods key block (.hash ⟨block.length, key⟩) store)

def chkIndexBlock (indexer : ChkBlockIndexer) (randoms : List (Nat → UInt8)) (block : Bytes)
    (store : σ) : Outcome (Except ChopError IndexHandle × σ) :=
  chkEncryptBlock hash ciphers indexer randoms block >>= fun encrypted =>
    match encrypted with
    | .error err => .done (.error err, store)
    | .ok (key, content) =>
      chopHashBuffer hash indexer.blockIdHashMethod content >>= fun blockId =>
        .done (writeIndexed methods blockId content (.chk ⟨block.length, key, blockId⟩) store)

def integerBlockIndex (id : UInt32) (block : Bytes) (store : σ) :
    Except ChopError IndexHandle × σ :=
  writeIndexed methods (integerKey id) block (.integer id) store

/-- `chop_block_indexer_index`: the result, the indexer after it, and the store. -/
def BlockIndexerObject.indexBlock (indexer : BlockIndexerObject) (randoms : List (Nat → UInt8))
    (block : Bytes) (store : σ) :
    Outcome (Except ChopError IndexHandle × BlockIndexerObject × σ) :=
  match indexer with
  | .hash method =>
    hashBlockIndex methods hash method block store >>= fun (result, store) =>
      .done (result, indexer, store)
  | .chk chkIndexer =>
    chkIndexBlock methods hash ciphers chkIndexer randoms block store >>= fun (result, store) =>
      .done (result, indexer, store)
  | .integer id =>
    let (result, store) := integerBlockIndex methods id block store
    .done (result, .integer (id + 1), store)

end Indexing

/-- How a store fills the buffer it reads into: `chop_buffer_append` or `chop_buffer_push`. -/
inductive BufferFilling where
  | append
  | push
deriving DecidableEq, Repr

def BufferFilling.fill : BufferFilling → Bytes → Bytes → Bytes
  | .append, buffer, data => buffer ++ data
  | .push, _, data => data

/-- Only an empty buffer is the same before new contents as without. -/
theorem BufferFilling.length_fill_eq_iff {filling : BufferFilling} {buffer data : Bytes} :
    (filling.fill buffer data).length = data.length ↔ filling = .push ∨ buffer = [] := by
  cases filling with
  | append => simp [fill]
  | push => simp [fill]

theorem BufferFilling.fill_eq {filling : BufferFilling} {buffer : Bytes}
    (h : filling = .push ∨ buffer = []) (data : Bytes) : filling.fill buffer data = data := by
  rcases h with rfl | rfl
  · rfl
  · cases filling with
    | append => rfl
    | push => rfl

/-- The error code, the buffer and the size that `chop_store_read_block` leaves, for an answer of
the store. -/
def chopStoreReadBlock (filling : BufferFilling) (answer : Except ChopError Bytes)
    (buffer : Bytes) : Status × Bytes × Nat :=
  match answer with
  | .error err => (.error err, buffer, 0)
  | .ok data => (.ok (), filling.fill buffer data, data.length)

section Fetching

variable (hash : HashFunctions) (ciphers : Ciphers) (filling : BufferFilling)
  (answer : Bytes → Except ChopError Bytes)

def hashBlockFetch (method : HashMethod) (index : IndexHandle) (buffer : Bytes) :
    Outcome (Status × Bytes × Nat) :=
  match index with
  | .hash handle =>
    match chopStoreReadBlock filling (answer handle.content) buffer with
    | (.error err, buffer, size) => .done (.error err, buffer, size)
    | (.ok _, buffer, size) =>
      if size ≠ handle.blockSize then .done (.error .blockIndexerError, buffer, 0)
      else if method ≠ .none then
        if handle.content.length = chopHashSize method then
          chopHashBuffer hash method buffer >>= fun digest =>
            if digest ≠ handle.content then .done (.error .blockIndexerError, buffer, 0)
            else .done (.ok (), buffer, size)
        else .done (.error .blockIndexerError, buffer, size)
      else .done (.ok (), buffer, size)
  | _ => .done (.error .invalidArg, buffer, 0)

/-- The check of the stored bytes in `chk_block_fetch`. -/
def chkCheckBlockId (method : HashMethod) (blockId ciphertext : Bytes) : Outcome Bool :=
  if method ≠ .none then
    if blockId.length = chopHashSize method then
      chopHashBuffer hash method ciphertext >>= fun digest => .done (digest = blockId)
    else .done false
  else .done true

/-- The block is read into a buffer of its own. -/
def chkBlockFetch (cipher : CipherHandle) (method : HashMethod) (index : IndexHandle)
    (buffer : Bytes) : Outcome (Status × Bytes × Nat) :=
  match index with
  | .chk handle =>
    match chopStoreReadBlock filling (answer handle.blockId) [] with
    | (.error err, _, size) => .done (.error err, buffer, size)
    | (.ok _, ciphertext, size) =>
      if size < handle.blockSize then .done (.error .blockFetcherError, buffer, 0)
      else
        chkCheckBlockId hash method handle.blockId ciphertext >>= fun valid =>
          if valid = false then .done (.error .blockFetcherError, buffer, 0)
          else if ciphers.keySize cipher.algo ≠ handle.key.length then
            .done (.error .blockFetcherError, buffer, size)
          else
            match ciphers.setKey cipher handle.key with
            | .error err => .done (.error err, buffer, size)
            | .ok _ =>
              match ciphers.decrypt cipher handle.key ciphertext with
              | .error err => .done (.error err, buffer, size)
              | .ok cleartext => .done (.ok (), cleartext.take handle.blockSize, handle.blockSize)
  | _ => .done (.error .invalidArg, buffer, 0)

def integerBlockFetch (index : IndexHandle) (buffer : Bytes) : Status × Bytes × Nat :=
  match index with
  | .integer id => chopStoreReadBlock filling (answer (integerKey id)) buffer
  | _ => (.error .invalidArg, buffer, 0)

/-- `chop_block_fetcher_fetch`: the error code, the buffer and the size. -/
def BlockFetcherObject.fetchBlock (fetcher : BlockFetcherObject) (index : IndexHandle)
    (buffer : Bytes) : Outcome (Status × Bytes × Nat) :=
  match fetcher with
  | .hash method => hashBlockFetch hash filling answer method index buffer
  | .chk cipher method => chkBlockFetch hash ciphers filling answer cipher method index buffer
  | .integer => .done (integerBlockFetch filling answer index buffer)

end Fetching

end Libchop
