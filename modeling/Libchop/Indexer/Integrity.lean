import Libchop.Indexer.ContentStore

/-!
# Integrity of fetched blocks

A fetcher checks what the store gives it against the handle.  `chk_block_fetch` reads into a buffer
of its own.  `hash_block_fetch` reads into the buffer of the caller, and compares the digest of all
of it but the size of what was read.
-/

namespace Libchop

section Fetchers

variable {hash : HashFunctions} {ciphers : Ciphers} {filling : BufferFilling}
  {answer : Bytes → Except ChopError Bytes} {index : IndexHandle} {buffer delivered : Bytes}
  {size : Nat}

/-- What `hash_block_fetch` has checked when it succeeds. -/
theorem hashBlockFetch_ok {method : HashMethod} (hmethod : method ≠ .none)
    (h : hashBlockFetch hash filling answer method index buffer = .done (.ok (), delivered, size)) :
    ∃ handle data, index = .hash handle ∧ answer handle.content = .ok data ∧
      data.length = handle.blockSize ∧ delivered = filling.fill buffer data ∧
      chopHashBuffer hash method delivered = .done handle.content := by
  cases index with
  | chk handle => cases h
  | integer id => cases h
  | hash handle =>
    cases hanswer : answer handle.content with
    | error err =>
      simp only [hashBlockFetch, hanswer, chopStoreReadBlock] at h
      cases h
    | ok data =>
      simp only [hashBlockFetch, hanswer, chopStoreReadBlock, if_pos hmethod] at h
      split at h
      · cases h
      · next hsize =>
        have hsize : data.length = handle.blockSize := Decidable.not_not.mp hsize
        split at h
        · obtain ⟨digest, hdigest, h⟩ := Outcome.bind_eq_done.mp h
          split at h
          · cases h
          · next hsame =>
            cases h
            rw [Decidable.not_not.mp hsame] at hdigest
            exact ⟨handle, data, rfl, hanswer, hsize, rfl, hdigest⟩
        · cases h

/-- A digest of whatever the buffer holds is accepted. -/
theorem hashBlockFetch_of_digest {method : HashMethod} (hmethod : method ≠ .none)
    {handle : HashIndexHandle} {data : Bytes} (hanswer : answer handle.content = .ok data)
    (hsize : data.length = handle.blockSize)
    (hdigest : chopHashBuffer hash method (filling.fill buffer data) = .done handle.content) :
    hashBlockFetch hash filling answer method (.hash handle) buffer =
      .done (.ok (), filling.fill buffer data, data.length) := by
  have hlength := length_chopHashBuffer hdigest
  simp only [hashBlockFetch, hanswer, chopStoreReadBlock, if_pos hmethod, hsize, hlength, hdigest,
    Outcome.done_bind, ne_eq, not_true_eq_false, if_false, if_true]

private theorem digest_of_chkCheckBlockId {method : HashMethod} (hmethod : method ≠ .none)
    {blockId ciphertext : Bytes}
    (h : chkCheckBlockId hash method blockId ciphertext = .done true) :
    chopHashBuffer hash method ciphertext = .done blockId := by
  rw [chkCheckBlockId, if_pos hmethod] at h
  split at h
  · obtain ⟨digest, hdigest, h⟩ := Outcome.bind_eq_done.mp h
    rw [hdigest, of_decide_eq_true (Outcome.done.inj h)]
  · cases h

/-- What `chk_block_fetch` has checked when it succeeds, and what it delivers. -/
theorem chkBlockFetch_ok {cipher : CipherHandle} {method : HashMethod} (hmethod : method ≠ .none)
    (h : chkBlockFetch hash ciphers filling answer cipher method index buffer =
      .done (.ok (), delivered, size)) :
    ∃ handle ciphertext cleartext, index = .chk handle ∧ answer handle.blockId = .ok ciphertext ∧
      chopHashBuffer hash method ciphertext = .done handle.blockId ∧
      handle.key.length = ciphers.keySize cipher.algo ∧
      ciphers.decrypt cipher handle.key ciphertext = .ok cleartext ∧
      delivered = cleartext.take handle.blockSize ∧ delivered.length = handle.blockSize := by
  cases index with
  | hash handle => cases h
  | integer id => cases h
  | chk handle =>
    cases hanswer : answer handle.blockId with
    | error err =>
      simp only [chkBlockFetch, hanswer, chopStoreReadBlock] at h
      cases h
    | ok ciphertext =>
      simp only [chkBlockFetch, hanswer, chopStoreReadBlock, BufferFilling.fill_eq (.inr rfl)] at h
      split at h
      · cases h
      · next hsize =>
        obtain ⟨valid, hvalid, h⟩ := Outcome.bind_eq_done.mp h
        cases valid with
        | false => cases h
        | true =>
          rw [if_neg Bool.noConfusion] at h
          split at h
          · cases h
          · next hkey =>
            split at h
            · cases h
            · split at h
              · cases h
              · next cleartext hdecrypt =>
                cases h
                refine ⟨handle, ciphertext, cleartext, rfl, hanswer,
                  digest_of_chkCheckBlockId hmethod hvalid, (Decidable.not_not.mp hkey).symm,
                  hdecrypt, rfl, List.length_take_of_le ?_⟩
                rw [ciphers.length_decrypt hdecrypt]
                exact Nat.not_lt.mp hsize

end Fetchers

/-- Whatever the store answers, a fetch with a hash method succeeds only with the block of its
handle. -/
def FetchIntegrity (hash : HashFunctions) (ciphers : Ciphers) (filling : BufferFilling)
    (buffer : Bytes) : Prop :=
  (∀ (method : HashMethod) (answer : Bytes → Except ChopError Bytes) (index : IndexHandle)
      (delivered : Bytes) (size : Nat), method ≠ .none →
    hashBlockFetch hash filling answer method index buffer = .done (.ok (), delivered, size) →
      ∃ handle, index = .hash handle ∧ delivered.length = handle.blockSize ∧
        chopHashBuffer hash method delivered = .done handle.content) ∧
  (∀ (cipher : CipherHandle) (method : HashMethod) (answer : Bytes → Except ChopError Bytes)
      (index : IndexHandle) (delivered : Bytes) (size : Nat), method ≠ .none →
    chkBlockFetch hash ciphers filling answer cipher method index buffer =
        .done (.ok (), delivered, size) →
      ∃ handle ciphertext cleartext, index = .chk handle ∧ answer handle.blockId = .ok ciphertext ∧
        chopHashBuffer hash method ciphertext = .done handle.blockId ∧
        handle.key.length = ciphers.keySize cipher.algo ∧
        ciphers.decrypt cipher handle.key ciphertext = .ok cleartext ∧
        delivered = cleartext.take handle.blockSize ∧ delivered.length = handle.blockSize)

/-- Fetched blocks are what their handles say if and only if the store replaces what is in the
buffer or there is nothing in it. -/
theorem fetchIntegrity_iff {hash : HashFunctions} {method : HashMethod}
    (havailable : hash.available method = true) (ciphers : Ciphers) (filling : BufferFilling)
    (buffer : Bytes) :
    FetchIntegrity hash ciphers filling buffer ↔ filling = .push ∨ buffer = [] := by
  constructor
  · rintro ⟨hhash, -⟩
    have hdigest : chopHashBuffer hash method (filling.fill buffer []) =
        .done (hash.digest method (filling.fill buffer [])) :=
      chopHashBuffer_eq_done.mpr ⟨havailable, rfl⟩
    have hmethod := chopHashBuffer_ne_none hdigest
    have hfetch : hashBlockFetch hash filling (fun _ => .ok []) method
        (.hash ⟨0, hash.digest method (filling.fill buffer [])⟩) buffer =
          .done (.ok (), filling.fill buffer [], 0) :=
      hashBlockFetch_of_digest hmethod rfl rfl hdigest
    obtain ⟨handle, hhandle, hlength, -⟩ := hhash method _ _ _ _ hmethod hfetch
    cases hhandle
    exact BufferFilling.length_fill_eq_iff.mp hlength
  · intro hbuffer
    refine ⟨?_, fun _ _ _ _ _ _ hmethod => chkBlockFetch_ok hmethod⟩
    intro method answer index delivered size hmethod hfetch
    obtain ⟨handle, data, hindex, -, hsize, hdelivered, hdigest⟩ := hashBlockFetch_ok hmethod hfetch
    refine ⟨handle, hindex, ?_, hdigest⟩
    rw [hdelivered, BufferFilling.fill_eq hbuffer, hsize]

theorem sampleDigests_fetchIntegrity :
    sampleDigests.available .sha1 = true ∧ FetchIntegrity sampleDigests sampleCiphers .append [] := by
  have havailable : sampleDigests.available .sha1 = true := rfl
  exact ⟨havailable, (fetchIntegrity_iff havailable sampleCiphers .append []).mpr (.inr rfl)⟩

/-- The string `ab` was in the buffer, the store has `c`, and the handle is for a block of one byte
with the digest of `abc`. -/
theorem digest_of_whole_buffer :
    hashBlockFetch sampleDigests .append (fun _ => .ok (cString "c")) .sha1
        (.hash ⟨1, sampleDigests.digest .sha1 (cString "abc")⟩) (cString "ab") =
      .done (.ok (), cString "abc", 1) ∧
    ¬ FetchIntegrity sampleDigests sampleCiphers .append (cString "ab") := by
  have hfetch : hashBlockFetch sampleDigests .append (fun _ => .ok (cString "c")) .sha1
      (.hash ⟨1, sampleDigests.digest .sha1 (cString "abc")⟩) (cString "ab") =
        .done (.ok (), cString "abc", 1) := rfl
  refine ⟨hfetch, ?_⟩
  rintro ⟨hhash, -⟩
  obtain ⟨handle, hhandle, hlength, -⟩ := hhash _ _ _ _ _ (by decide) hfetch
  cases hhandle
  cases hlength

end Libchop
