import Libchop.Indexer.BlockIndexer

/-!
# Content-addressed storage

Hash and CHK indexers write to one store.  Unless digests collide, a key only ever gets the bytes
it is the digest of, so that handles keep their blocks.
-/

namespace Libchop

/-- A call of `chop_block_indexer_index`, with the random bytes that are there for it. -/
structure IndexRequest where
  indexer : BlockIndexerObject
  randoms : List (Nat → UInt8)
  block : Bytes

/-- The key of a block is a digest. -/
def BlockIndexerObject.contentBased : BlockIndexerObject → Bool
  | .hash _ => true
  | .chk _ => true
  | .integer _ => false

section Requests

variable {σ : Type} (methods : StoreMethods σ) (hash : HashFunctions) (ciphers : Ciphers)

def indexRequest (store : σ) (request : IndexRequest) :
    Outcome (Except ChopError IndexHandle × σ) :=
  request.indexer.indexBlock methods hash ciphers request.randoms request.block store >>=
    fun (result, _, store) => .done (result, store)

/-- The request gives these bytes to the store, under their digest by this method. -/
def WritesContent (request : IndexRequest) (method : HashMethod) (content : Bytes) : Prop :=
  match request.indexer with
  | .hash indexerMethod => method = indexerMethod ∧ content = request.block
  | .chk indexer =>
    method = indexer.blockIdHashMethod ∧
      ∃ key, chkEncryptBlock hash ciphers indexer request.randoms request.block =
        .done (.ok (key, content))
  | .integer _ => False

/-- Different bytes that the requests write have different digests. -/
def CollisionFree (requests : List IndexRequest) : Prop :=
  ∀ first ∈ requests, ∀ second ∈ requests, ∀ method₁ method₂ content₁ content₂,
    WritesContent hash ciphers first method₁ content₁ →
    WritesContent hash ciphers second method₂ content₂ →
      hash.digest method₁ content₁ = hash.digest method₂ content₂ → content₁ = content₂

/-- The block is encrypted under a random key. -/
def IndexRequest.weak (request : IndexRequest) : Prop :=
  match request.indexer with
  | .chk indexer => WeakKey hash ciphers indexer request.block
  | _ => False

/-- What a request comes to before its write: the handle, and the method, key and contents of what
is written. -/
inductive Indexed : IndexRequest → IndexHandle → HashMethod → Bytes → Bytes → Prop where
  | hash {method : HashMethod} {randoms : List (Nat → UInt8)} {block key : Bytes} :
    ¬ (chopHashSize method = 0 ∨ chopHashSize method > 1024) →
    chopHashBuffer hash method block = .done key →
    Indexed ⟨.hash method, randoms, block⟩ (.hash ⟨block.length, key⟩) method key block
  | chk {indexer : ChkBlockIndexer} {randoms : List (Nat → UInt8)}
      {block cipherKey content key : Bytes} :
    chkEncryptBlock hash ciphers indexer randoms block = .done (.ok (cipherKey, content)) →
    chopHashBuffer hash indexer.blockIdHashMethod content = .done key →
    Indexed ⟨.chk indexer, randoms, block⟩ (.chk ⟨block.length, cipherKey, key⟩)
      indexer.blockIdHashMethod key content

variable {methods hash ciphers}

theorem Indexed.writes {request : IndexRequest} {handle : IndexHandle} {method : HashMethod}
    {key content : Bytes} (h : Indexed hash ciphers request handle method key content) :
    WritesContent hash ciphers request method content ∧
      chopHashBuffer hash method content = .done key := by
  cases h with
  | hash _ hkey => exact ⟨⟨rfl, rfl⟩, hkey⟩
  | chk hencrypt hkey => exact ⟨⟨rfl, _, hencrypt⟩, hkey⟩

/-- Without a weak key, random bytes do not matter. -/
theorem Indexed.randoms {request : IndexRequest} {handle : IndexHandle} {method : HashMethod}
    {key content : Bytes} (h : Indexed hash ciphers request handle method key content)
    (hweak : ¬ request.weak hash ciphers) (randoms : List (Nat → UInt8)) :
    Indexed hash ciphers { request with randoms } handle method key content := by
  cases h with
  | hash hsize hkey => exact .hash hsize hkey
  | chk hencrypt hkey =>
    rw [chkEncryptBlock_randoms hweak randoms] at hencrypt
    exact .chk hencrypt hkey

theorem indexRequest_of_indexed {request : IndexRequest} {handle : IndexHandle}
    {method : HashMethod} {key content : Bytes}
    (h : Indexed hash ciphers request handle method key content) (store : σ) :
    indexRequest methods hash ciphers store request =
      .done (writeIndexed methods key content handle store) := by
  cases h with
  | hash hsize hkey =>
    simp only [indexRequest, BlockIndexerObject.indexBlock, hashBlockIndex, if_neg hsize, hkey,
      Outcome.done_bind]
  | chk hencrypt hkey =>
    simp only [indexRequest, BlockIndexerObject.indexBlock, chkIndexBlock, hencrypt, hkey,
      Outcome.done_bind]

/-- A request fails before its write, or makes its write. -/
theorem indexRequest_cases {request : IndexRequest}
    (hrequest : request.indexer.contentBased = true) {store store' : σ}
    {result : Except ChopError IndexHandle}
    (h : indexRequest methods hash ciphers store request = .done (result, store')) :
    ((∃ err, result = .error err) ∧ store' = store) ∨
      ∃ handle method key content, Indexed hash ciphers request handle method key content ∧
        writeIndexed methods key content handle store = (result, store') := by
  obtain ⟨⟨result', indexer', after⟩, hindex, h⟩ := Outcome.bind_eq_done.mp h
  cases h
  obtain ⟨indexer, randoms, block⟩ := request
  cases indexer with
  | integer id => cases hrequest
  | hash method =>
    obtain ⟨⟨result, after⟩, hindex, h⟩ := Outcome.bind_eq_done.mp hindex
    cases h
    rw [hashBlockIndex] at hindex
    split at hindex
    · cases hindex
      exact .inl ⟨⟨_, rfl⟩, rfl⟩
    · next hsize =>
      obtain ⟨key, hkey, h⟩ := Outcome.bind_eq_done.mp hindex
      exact .inr ⟨_, _, _, _, .hash hsize hkey, Outcome.done.inj h⟩
  | chk indexer =>
    obtain ⟨⟨result, after⟩, hindex, h⟩ := Outcome.bind_eq_done.mp hindex
    cases h
    obtain ⟨encrypted, hencrypt, h⟩ := Outcome.bind_eq_done.mp hindex
    cases encrypted with
    | error err =>
      cases h
      exact .inl ⟨⟨_, rfl⟩, rfl⟩
    | ok encrypted =>
      obtain ⟨key, hkey, h⟩ := Outcome.bind_eq_done.mp h
      exact .inr ⟨_, _, _, _, .chk hencrypt hkey, Outcome.done.inj h⟩

end Requests

section Fetching

variable {hash : HashFunctions} {ciphers : Ciphers}

/-- Decryption, after a reset and `set_key`, undoes encryption under the same key. -/
def Ciphers.Inverts (ciphers : Ciphers) : Prop :=
  ∀ cipher key input output, ciphers.setKey cipher key = .ok () →
    ciphers.encrypt cipher key input = .ok output → ciphers.decrypt cipher key output = .ok input

theorem take_zeroPadded (blockSize : Nat) (block : Bytes) :
    (zeroPadded blockSize block).take block.length = block := List.take_left

theorem length_zeroPadded (blockSize : Nat) (block : Bytes) :
    block.length ≤ (zeroPadded blockSize block).length := by
  rw [zeroPadded, List.length_append]
  exact Nat.le_add_right _ _

/-- A handle gets the block back wherever its key has the bytes that were written. -/
theorem Indexed.fetchBlock {request : IndexRequest} {handle : IndexHandle} {method : HashMethod}
    {key content : Bytes} (h : Indexed hash ciphers request handle method key content)
    (hinverts : ciphers.Inverts) {filling : BufferFilling} {buffer : Bytes}
    (hbuffer : filling = .push ∨ buffer = []) {answer : Bytes → Except ChopError Bytes}
    (hanswer : answer key = .ok content) :
    request.indexer.fetcher.fetchBlock hash ciphers filling answer handle buffer =
      .done (.ok (), request.block, request.block.length) := by
  cases h with
  | @hash method randoms block key hsize hkey =>
    have hlength := length_chopHashBuffer hkey
    simp only [BlockIndexerObject.fetcher, BlockFetcherObject.fetchBlock, hashBlockFetch, hanswer,
      chopStoreReadBlock, BufferFilling.fill_eq hbuffer, hkey, hlength, Outcome.done_bind, ne_eq,
      not_true_eq_false, if_false, if_true, ite_self]
  | @chk indexer randoms block cipherKey content key hencrypt hkey =>
    obtain ⟨hsize, hset, hcontent⟩ := chkEncryptBlock_spec hencrypt
    have hshort : ¬ content.length < block.length := by
      rw [ciphers.length_encrypt hcontent, Nat.not_lt]
      exact length_zeroPadded _ _
    have hvalid : chkCheckBlockId hash indexer.blockIdHashMethod key content = .done true := by
      rw [chkCheckBlockId, if_pos (chopHashBuffer_ne_none hkey), if_pos (length_chopHashBuffer hkey),
        hkey, Outcome.done_bind, decide_eq_true rfl]
    simp only [BlockIndexerObject.fetcher, BlockFetcherObject.fetchBlock, chkBlockFetch, hanswer,
      chopStoreReadBlock, BufferFilling.fill_eq (.inr rfl), if_neg hshort, hvalid, Outcome.done_bind,
      hsize, hset, hinverts _ _ _ _ hset hcontent, take_zeroPadded, ne_eq, not_true_eq_false,
      if_false, Bool.true_eq_false]

end Fetching

section Runs

variable {σ : Type} {methods : StoreMethods σ} {contents : σ → BlockMap} {hash : HashFunctions}
  {ciphers : Ciphers}

/-- Every key that is bound is the digest of its contents, which one of the requests wrote. -/
def KeysAreDigests (hash : HashFunctions) (ciphers : Ciphers) (requests : List IndexRequest)
    (m : BlockMap) : Prop :=
  ∀ key content, m key = some content → ∃ request ∈ requests, ∃ method,
    WritesContent hash ciphers request method content ∧ chopHashBuffer hash method content = .done key

private theorem writeIndexed_cases (hstore : MapStore methods contents) (key content : Bytes)
    (handle : IndexHandle) (store : σ) :
    (∃ store', writeIndexed methods key content handle store = (.ok handle, store') ∧
      contents store' = Function.update (contents store) key (some content)) ∨
    ∃ err store', writeIndexed methods key content handle store = (.error err, store') ∧
      contents store' = contents store ∧
      (methods.writeBlock key content store).1 = .error err := by
  rcases hstore.write_cases key content store with
    ⟨store', hwrite, hcontents⟩ | ⟨err, store', hwrite, hcontents⟩
  · exact .inl ⟨store', by rw [writeIndexed, hwrite], hcontents⟩
  · exact .inr ⟨err, store', by rw [writeIndexed, hwrite], hcontents, by rw [hwrite]⟩

private theorem content_of_bound {requests : List IndexRequest}
    (hfree : CollisionFree hash ciphers requests) {m : BlockMap}
    (hkeys : KeysAreDigests hash ciphers requests m) {request : IndexRequest}
    (hrequest : request ∈ requests) {handle : IndexHandle} {method : HashMethod}
    {key content bound : Bytes} (h : Indexed hash ciphers request handle method key content)
    (hbound : m key = some bound) : bound = content := by
  obtain ⟨writer, hwriter, method', hwrites', hdigest'⟩ := hkeys key bound hbound
  obtain ⟨hwrites, hdigest⟩ := h.writes
  refine hfree writer hwriter request hrequest method' method bound content hwrites' hwrites ?_
  rw [(chopHashBuffer_eq_done.mp hdigest').2, (chopHashBuffer_eq_done.mp hdigest).2]

section Step

variable (hstore : MapStore methods contents) {requests : List IndexRequest}
  (hfree : CollisionFree hash ciphers requests) {request : IndexRequest}
  (hrequest : request ∈ requests) (hcontent : request.indexer.contentBased = true)
  {store store' : σ} {result : Except ChopError IndexHandle}
  (h : indexRequest methods hash ciphers store request = .done (result, store'))

include hstore hcontent h

private theorem indexRequest_contents :
    (contents store' = contents store ∧ ∃ err, result = .error err) ∨
      ∃ handle method key content, result = .ok handle ∧
        Indexed hash ciphers request handle method key content ∧
        contents store' = Function.update (contents store) key (some content) := by
  rcases indexRequest_cases hcontent h with
    ⟨herr, hsame⟩ | ⟨handle, method, key, content, hindexed, hwrite⟩
  · rw [hsame]
    exact .inl ⟨rfl, herr⟩
  · rcases writeIndexed_cases hstore key content handle store with
      ⟨after, hafter, hcontents⟩ | ⟨err, after, hafter, hcontents, -⟩
    · rw [hwrite] at hafter
      cases hafter
      exact .inr ⟨handle, method, key, content, rfl, hindexed, hcontents⟩
    · rw [hwrite] at hafter
      cases hafter
      exact .inl ⟨hcontents, err, rfl⟩

include hrequest

private theorem indexRequest_keysAreDigests
    (hkeys : KeysAreDigests hash ciphers requests (contents store)) :
    KeysAreDigests hash ciphers requests (contents store') := by
  rcases indexRequest_contents hstore hcontent h with
    ⟨hsame, -⟩ | ⟨handle, method, key, content, -, hindexed, hcontents⟩
  · rw [hsame]
    exact hkeys
  · intro key' content' hbound
    rw [hcontents] at hbound
    by_cases hkey : key' = key
    · rw [hkey, Function.update_self] at hbound
      cases hbound
      rw [hkey]
      exact ⟨request, hrequest, method, hindexed.writes⟩
    · rw [Function.update_of_ne hkey] at hbound
      exact hkeys key' content' hbound

include hfree

private theorem indexRequest_keeps
    (hkeys : KeysAreDigests hash ciphers requests (contents store)) {key content : Bytes}
    (hbound : contents store key = some content) : contents store' key = some content := by
  rcases indexRequest_contents hstore hcontent h with
    ⟨hsame, -⟩ | ⟨handle, method, key', content', -, hindexed, hcontents⟩
  · rw [hsame, hbound]
  · rw [hcontents]
    by_cases hkey : key = key'
    · rw [hkey] at hbound ⊢
      rw [Function.update_self, content_of_bound hfree hkeys hrequest hindexed hbound]
    · rw [Function.update_of_ne hkey, hbound]

end Step

/-- A handle that was returned has its bytes under its key. -/
def HandleHolds (hash : HashFunctions) (ciphers : Ciphers) (contents : σ → BlockMap)
    (request : IndexRequest) (result : Except ChopError IndexHandle) (store : σ) : Prop :=
  ∀ handle, result = .ok handle → ∃ method key content,
    Indexed hash ciphers request handle method key content ∧ contents store key = some content

private theorem indexRequest_handleHolds (hstore : MapStore methods contents)
    {requests : List IndexRequest} (hfree : CollisionFree hash ciphers requests) (store : σ)
    (request : IndexRequest) (result : Except ChopError IndexHandle) (store' : σ)
    (hrequest : request ∈ requests ∧ request.indexer.contentBased = true)
    (hkeys : KeysAreDigests hash ciphers requests (contents store))
    (h : indexRequest methods hash ciphers store request = .done (result, store')) :
    KeysAreDigests hash ciphers requests (contents store') ∧
      HandleHolds hash ciphers contents request result store' ∧
      ∀ request₀ result₀, HandleHolds hash ciphers contents request₀ result₀ store →
        HandleHolds hash ciphers contents request₀ result₀ store' := by
  obtain ⟨hmem, hcontent⟩ := hrequest
  refine ⟨indexRequest_keysAreDigests hstore hmem hcontent h hkeys, ?_, ?_⟩
  · rintro handle rfl
    rcases indexRequest_contents hstore hcontent h with
      ⟨-, err, herr⟩ | ⟨handle', method, key, content, hok, hindexed, hcontents⟩
    · cases herr
    · cases hok
      refine ⟨method, key, content, hindexed, ?_⟩
      rw [hcontents, Function.update_self]
  · intro request₀ result₀ hbefore handle hok
    obtain ⟨method, key, content, hindexed, hbound⟩ := hbefore handle hok
    exact ⟨method, key, content, hindexed,
      indexRequest_keeps hstore hfree hmem hcontent h hkeys hbound⟩

private theorem writeIndexed_again (hstore : MapStore methods contents) {key content : Bytes}
    (handle : IndexHandle) {store : σ} (hbound : contents store key = some content)
    (hwrite : (methods.writeBlock key content store).1 = .ok ()) :
    ∃ store', writeIndexed methods key content handle store = (.ok handle, store') ∧
      contents store' = contents store := by
  rcases writeIndexed_cases hstore key content handle store with
    ⟨store', hafter, hcontents⟩ | ⟨err, -, -, -, herr⟩
  · refine ⟨store', hafter, ?_⟩
    rw [hcontents, ← hbound, Function.update_eq_self]
  · rw [hwrite] at herr
    cases herr

/-- After every run of hash and CHK indexers on a store that was empty, keys are the digests of
their contents; a block that is indexed again has the same handle and leaves the store as it is; and
each handle that was returned fetches its block. -/
theorem contentIndexers_run (hstore : MapStore methods contents) (hinverts : ciphers.Inverts)
    {requests : List IndexRequest}
    (hcontent : ∀ request ∈ requests, request.indexer.contentBased = true)
    (hfree : CollisionFree hash ciphers requests) {store store' : σ}
    (hempty : ∀ key, contents store key = none) {replies : List (Except ChopError IndexHandle)}
    (hrun : Refinement.run (indexRequest methods hash ciphers) store requests =
      .done (replies, store')) :
    (∀ key content, contents store' key = some content → ∃ request ∈ requests, ∃ method,
      WritesContent hash ciphers request method content ∧
        chopHashBuffer hash method content = .done key) ∧
    (∀ (i : Nat) (request : IndexRequest) (handle : IndexHandle), requests[i]? = some request →
      replies[i]? = some (.ok handle) → ¬ request.weak hash ciphers →
        (∀ key content, (methods.writeBlock key content store').1 = .ok ()) →
          ∀ randoms, ∃ store'', indexRequest methods hash ciphers store' { request with randoms } =
            .done (.ok handle, store'') ∧ contents store'' = contents store') ∧
    (∀ (i : Nat) (request : IndexRequest) (handle : IndexHandle), requests[i]? = some request →
      replies[i]? = some (.ok handle) → ∀ (filling : BufferFilling) (buffer : Bytes),
        (filling = .push ∨ buffer = []) →
          request.indexer.fetcher.fetchBlock hash ciphers filling
              (fun key => (methods.readBlock key store').1) handle buffer =
            .done (.ok (), request.block, request.block.length)) := by
  have hkeys : KeysAreDigests hash ciphers requests (contents store) := by
    intro key content hbound
    rw [hempty key] at hbound
    cases hbound
  have hstep := indexRequest_handleHolds hstore hfree
  have hdom : ∀ request ∈ requests,
      request ∈ requests ∧ request.indexer.contentBased = true :=
    fun request hrequest => ⟨hrequest, hcontent request hrequest⟩
  have hhandles : ∀ (i : Nat) (request : IndexRequest) (handle : IndexHandle),
      requests[i]? = some request → replies[i]? = some (.ok handle) → ∃ method key content,
        Indexed hash ciphers request handle method key content ∧
          contents store' key = some content := by
    intro i request handle hi hreply
    exact Refinement.run_lasting hstep hdom hkeys hrun hi hreply handle rfl
  refine ⟨?_, ?_, ?_⟩
  · exact Refinement.run_invariant
      (fun s request result s' hrequest hs h => (hstep s request result s' hrequest hs h).1)
      hdom hkeys hrun
  · intro i request handle hi hreply hweak hwrite randoms
    obtain ⟨method, key, content, hindexed, hbound⟩ := hhandles i request handle hi hreply
    obtain ⟨store'', hagain, hsame⟩ :=
      writeIndexed_again hstore handle hbound (hwrite key content)
    refine ⟨store'', ?_, hsame⟩
    rw [indexRequest_of_indexed (hindexed.randoms hweak randoms), hagain]
  · intro i request handle hi hreply filling buffer hbuffer
    obtain ⟨method, key, content, hindexed, hbound⟩ := hhandles i request handle hi hreply
    refine hindexed.fetchBlock hinverts hbuffer ?_
    rw [(hstore.readBlock key store').2, hbound]

end Runs

def blockMapStore : StoreMethods BlockMap where
  blocksExist keys m := (.ok fun i => (m (keys.get i)).isSome, m)
  readBlock key m :=
    match m key with
    | some block => (.ok block, m)
    | none => (.error .storeBlockUnavail, m)
  writeBlock key block m := (.ok (), Function.update m key (some block))
  sync m := (.ok (), m)

theorem blockMapStore_mapStore : MapStore blockMapStore id := BlockMap.mapStore

/-- The string `abc` with zeros. -/
def sampleCleartext : Bytes := cString "abc" ++ List.replicate 13 0

def sampleKey : Bytes := [169, 153, 62, 54, 71, 6, 129, 106, 186, 62, 37, 113, 120, 80, 194, 108]

def sampleCiphertext : Bytes :=
  [62, 137, 192, 61, 205, 65, 221, 218, 114, 244, 123, 133, 188, 45, 44, 59]

def sampleDigests : HashFunctions :=
  .sha1Table
    [(cString "abc", sampleKey ++ [156, 208, 216, 157]),
      (sampleCiphertext, [217, 174, 165, 96, 98, 82, 207, 92, 60, 129, 190, 156, 24, 47, 5, 200, 4,
        167, 127, 19])]
    (by decide)

/-- AES in CBC mode on one block. -/
def sampleCiphers : Ciphers where
  opens cipher := cipher = ⟨.aes, .cbc⟩
  keySize algo := if algo = .aes then 16 else 0
  keySize_le algo := by
    split
    · decide
    · decide
  blockSize algo := if algo = .aes then 16 else 0
  setKey _ key := if key.length = 16 then .ok () else .error (.code 1)
  encrypt _ key input :=
    if key = sampleKey ∧ input = sampleCleartext then .ok sampleCiphertext else .error .invalidArg
  decrypt _ key input :=
    if key = sampleKey ∧ input = sampleCiphertext then .ok sampleCleartext else .error .invalidArg
  length_encrypt := by
    intro cipher key input output h
    split at h
    · next hinput =>
      cases h
      rw [hinput.2]
      rfl
    · cases h
  length_decrypt := by
    intro cipher key input output h
    split at h
    · next hinput =>
      cases h
      rw [hinput.2]
      rfl
    · cases h

theorem sampleCiphers_inverts : sampleCiphers.Inverts := by
  intro cipher key input output _ hencrypt
  simp only [sampleCiphers] at hencrypt ⊢
  split at hencrypt
  · next hinput =>
    cases hencrypt
    rw [if_pos ⟨hinput.1, rfl⟩, hinput.2]
  · cases hencrypt

def sampleChkIndexer : ChkBlockIndexer := ⟨⟨.aes, .cbc⟩, .sha1, .sha1⟩

/-- One block, indexed by its hash, encrypted, and by its hash again. -/
def sampleIndexRequests : List IndexRequest :=
  [⟨.hash .sha1, [], cString "abc"⟩, ⟨.chk sampleChkIndexer, [], cString "abc"⟩,
    ⟨.hash .sha1, [], cString "abc"⟩]

private theorem sampleIndexRequests_writes {request : IndexRequest}
    (hrequest : request ∈ sampleIndexRequests) {method : HashMethod} {content : Bytes}
    (h : WritesContent sampleDigests sampleCiphers request method content) :
    method = .sha1 ∧ (content = cString "abc" ∨ content = sampleCiphertext) := by
  have hencrypt : chkEncryptBlock sampleDigests sampleCiphers sampleChkIndexer [] (cString "abc") =
      .done (.ok (sampleKey, sampleCiphertext)) := rfl
  simp only [sampleIndexRequests, List.mem_cons, List.not_mem_nil, or_false] at hrequest
  rcases hrequest with rfl | rfl | rfl
  · exact ⟨h.1, .inl h.2⟩
  · obtain ⟨hmethod, key, hkey⟩ := h
    rw [hencrypt] at hkey
    cases hkey
    exact ⟨hmethod, .inr rfl⟩
  · exact ⟨h.1, .inl h.2⟩

private theorem sampleIndexRequests_collisionFree :
    CollisionFree sampleDigests sampleCiphers sampleIndexRequests := by
  intro first hfirst second hsecond method₁ method₂ content₁ content₂ hwrites₁ hwrites₂ hdigest
  obtain ⟨rfl, hcontent₁⟩ := sampleIndexRequests_writes hfirst hwrites₁
  obtain ⟨rfl, hcontent₂⟩ := sampleIndexRequests_writes hsecond hwrites₂
  have hdistinct : sampleDigests.digest .sha1 (cString "abc") ≠
      sampleDigests.digest .sha1 sampleCiphertext := by decide
  rcases hcontent₁ with rfl | rfl
  · rcases hcontent₂ with rfl | rfl
    · rfl
    · exact (hdistinct hdigest).elim
  · rcases hcontent₂ with rfl | rfl
    · exact (hdistinct hdigest.symm).elim
    · rfl

theorem sampleIndexRequests_fetch :
    ∃ replies store, Refinement.run (indexRequest blockMapStore sampleDigests sampleCiphers)
        (fun _ => none) sampleIndexRequests = .done (replies, store) ∧
      ∃ handle, replies[1]? = some (.ok handle) ∧
        (BlockFetcherObject.chk ⟨.aes, .cbc⟩ .sha1).fetchBlock sampleDigests sampleCiphers .append
            (fun key => (blockMapStore.readBlock key store).1) handle [] =
          .done (.ok (), cString "abc", 3) := by
  have hrun : ∃ replies store,
      Refinement.run (indexRequest blockMapStore sampleDigests sampleCiphers) (fun _ => none)
        sampleIndexRequests = .done (replies, store) ∧
      ∃ handle, replies[1]? = some (.ok handle) := ⟨_, _, rfl, _, rfl⟩
  obtain ⟨replies, store, hrun, handle, hhandle⟩ := hrun
  have hcontent : ∀ request ∈ sampleIndexRequests, request.indexer.contentBased = true := by
    simp [sampleIndexRequests, BlockIndexerObject.contentBased]
  have hfetch := (contentIndexers_run blockMapStore_mapStore sampleCiphers_inverts hcontent
    sampleIndexRequests_collisionFree (fun _ => rfl) hrun).2.2
  exact ⟨replies, store, hrun, handle, hhandle,
    hfetch 1 _ handle rfl hhandle .append [] (.inr rfl)⟩

end Libchop
