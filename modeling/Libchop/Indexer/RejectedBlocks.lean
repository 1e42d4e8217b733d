import Libchop.Indexer.ContentStore

/-!
# Blocks that a fetcher rejects

A fetcher that finds something wrong with a block that it has read sets the size to zero.  It does not
do so where the key of a handle is too short or too long, or when the cipher fails.
-/

namespace Libchop

def FailsEmpty (fetched : Outcome (Status × Bytes × Nat)) : Prop :=
  ∀ err buffer size, fetched = .done (.error err, buffer, size) → size = 0

section FailsEmpty

variable {buffer : Bytes} {size : Nat}

theorem failsEmpty_error {err : ChopError} :
    FailsEmpty (.done (.error err, buffer, size)) ↔ size = 0 := by
  constructor
  · intro h
    exact h err buffer size rfl
  · rintro h err' buffer' size' heq
    cases heq
    exact h

theorem failsEmpty_ok : FailsEmpty (.done (.ok (), buffer, size)) := by
  intro err buffer' size' heq
  cases heq

theorem failsEmpty_bind {α : Type} {x : Outcome α} {f : α → Outcome (Status × Bytes × Nat)}
    (h : ∀ a, x = .done a → FailsEmpty (f a)) : FailsEmpty (x >>= f) := by
  intro err buffer' size' heq
  obtain ⟨a, hx, hf⟩ := Outcome.bind_eq_done.mp heq
  exact h a hx err buffer' size' hf

end FailsEmpty

section Fetchers

variable (hash : HashFunctions) (ciphers : Ciphers) (filling : BufferFilling)
  {answer : Bytes → Except ChopError Bytes} (buffer : Bytes) {data : Bytes}

/-- `hash_block_fetch` leaves the size as it is where the handle's key cannot be a digest. -/
theorem hashBlockFetch_failsEmpty_iff (method : HashMethod) {handle : HashIndexHandle}
    (hread : answer handle.content = .ok data) :
    FailsEmpty (hashBlockFetch hash filling answer method (.hash handle) buffer) ↔
      data = [] ∨ data.length ≠ handle.blockSize ∨ method = .none ∨
        handle.content.length = chopHashSize method := by
  simp only [hashBlockFetch, hread, chopStoreReadBlock]
  by_cases hsize : data.length = handle.blockSize
  case neg =>
    rw [if_pos hsize, failsEmpty_error]
    simp [hsize]
  rw [if_neg (not_not.mpr hsize)]
  by_cases hmethod : method = .none
  case pos =>
    rw [if_neg (not_not.mpr hmethod)]
    simp [hmethod, failsEmpty_ok]
  rw [if_pos hmethod]
  by_cases hkey : handle.content.length = chopHashSize method
  case neg =>
    rw [if_neg hkey, failsEmpty_error, List.length_eq_zero_iff]
    simp [hsize, hmethod, hkey]
  rw [if_pos hkey]
  simp only [hkey, or_true, iff_true]
  refine failsEmpty_bind fun digest _ => ?_
  split
  · exact failsEmpty_error.mpr rfl
  · exact failsEmpty_ok

/-- `chk_block_fetch` leaves the size as it is where the block is what the handle says and the cipher does
not take the key or fails. -/
theorem chkBlockFetch_failsEmpty_iff (cipher : CipherHandle) (method : HashMethod)
    {handle : ChkIndexHandle} (hread : answer handle.blockId = .ok data) :
    FailsEmpty (chkBlockFetch hash ciphers filling answer cipher method (.chk handle) buffer) ↔
      data = [] ∨ data.length < handle.blockSize ∨
        chkCheckBlockId hash method handle.blockId data ≠ .done true ∨
        handle.key.length = ciphers.keySize cipher.algo ∧ ciphers.setKey cipher handle.key = .ok () ∧
          (ciphers.decrypt cipher handle.key data).isOk := by
  simp only [chkBlockFetch, hread, chopStoreReadBlock, BufferFilling.fill_eq (.inr rfl)]
  by_cases hsize : data.length < handle.blockSize
  case pos =>
    rw [if_pos hsize, failsEmpty_error]
    simp [hsize]
  rw [if_neg hsize]
  by_cases hvalid : chkCheckBlockId hash method handle.blockId data = .done true
  case neg =>
    simp only [hvalid, ne_eq, not_false_eq_true, true_or, or_true, iff_true]
    refine failsEmpty_bind fun valid hcheck => ?_
    cases valid with
    | true => exact absurd hcheck hvalid
    | false => exact failsEmpty_error.mpr rfl
  rw [hvalid, Outcome.done_bind, if_neg Bool.noConfusion]
  by_cases hkey : handle.key.length = ciphers.keySize cipher.algo
  case neg =>
    rw [if_pos (Ne.symm hkey), failsEmpty_error]
    simp [hsize, hkey]
  rw [if_neg (not_not.mpr hkey.symm)]
  cases hset : ciphers.setKey cipher handle.key with
  | error err =>
    rw [failsEmpty_error]
    simp [hsize]
  | ok _ =>
    dsimp only
    cases hdecrypt : ciphers.decrypt cipher handle.key data with
    | error err =>
      rw [failsEmpty_error]
      simp [hsize, Except.isOk, Except.toBool]
    | ok cleartext => simp [hkey, failsEmpty_ok, Except.isOk, Except.toBool]

end Fetchers

/-- What a fetcher reports when it rejects a block that the store gave it. -/
theorem fetchers_failEmpty_iff (hash : HashFunctions) (ciphers : Ciphers) (filling : BufferFilling)
    (answer : Bytes → Except ChopError Bytes) (buffer data : Bytes) :
    (∀ (method : HashMethod) (handle : HashIndexHandle), answer handle.content = .ok data →
      (FailsEmpty (hashBlockFetch hash filling answer method (.hash handle) buffer) ↔
        data = [] ∨ data.length ≠ handle.blockSize ∨ method = .none ∨
          handle.content.length = chopHashSize method)) ∧
    ∀ (cipher : CipherHandle) (method : HashMethod) (handle : ChkIndexHandle),
      answer handle.blockId = .ok data →
      (FailsEmpty (chkBlockFetch hash ciphers filling answer cipher method (.chk handle) buffer) ↔
        data = [] ∨ data.length < handle.blockSize ∨
          chkCheckBlockId hash method handle.blockId data ≠ .done true ∨
          handle.key.length = ciphers.keySize cipher.algo ∧
            ciphers.setKey cipher handle.key = .ok () ∧
            (ciphers.decrypt cipher handle.key data).isOk) := by
  constructor
  · intro method handle hread
    exact hashBlockFetch_failsEmpty_iff hash filling buffer method hread
  · intro cipher method handle hread
    exact chkBlockFetch_failsEmpty_iff hash ciphers filling buffer cipher method hread

/-- A block of one byte, whose digest is not in the table, is rejected with an empty result. -/
theorem sampleDigests_failEmpty :
    FailsEmpty (hashBlockFetch sampleDigests .push (fun _ => .ok [7]) .sha1
      (.hash ⟨1, sampleKey ++ [156, 208, 216, 157]⟩) []) := by
  refine ((fetchers_failEmpty_iff sampleDigests sampleCiphers .push (fun _ => .ok [7]) [] [7]).1 .sha1
    ⟨1, sampleKey ++ [156, 208, 216, 157]⟩ rfl).mpr ?_
  exact .inr (.inr (.inr rfl))

/-- A hash of one byte for a handle, and a key of no bytes for a cipher. -/
theorem wrong_key_sizes_not_empty :
    hashBlockFetch sampleDigests .push (fun _ => .ok [7]) .sha1 (.hash ⟨1, [1]⟩) [] =
        .done (.error .blockIndexerError, [7], 1) ∧
      chkBlockFetch sampleDigests sampleCiphers .push (fun _ => .ok sampleCiphertext) ⟨.aes, .cbc⟩ .sha1
          (.chk ⟨3, [], sampleDigests.digest .sha1 sampleCiphertext⟩) [] =
        .done (.error .blockFetcherError, [], 16) ∧
      ¬ FailsEmpty (hashBlockFetch sampleDigests .push (fun _ => .ok [7]) .sha1 (.hash ⟨1, [1]⟩) []) ∧
      ¬ FailsEmpty (chkBlockFetch sampleDigests sampleCiphers .push (fun _ => .ok sampleCiphertext)
        ⟨.aes, .cbc⟩ .sha1 (.chk ⟨3, [], sampleDigests.digest .sha1 sampleCiphertext⟩) []) := by
  have hhash : hashBlockFetch sampleDigests .push (fun _ => .ok [7]) .sha1 (.hash ⟨1, [1]⟩) [] =
      .done (.error .blockIndexerError, [7], 1) := rfl
  have hchk : chkBlockFetch sampleDigests sampleCiphers .push (fun _ => .ok sampleCiphertext)
      ⟨.aes, .cbc⟩ .sha1 (.chk ⟨3, [], sampleDigests.digest .sha1 sampleCiphertext⟩) [] =
        .done (.error .blockFetcherError, [], 16) := rfl
  refine ⟨hhash, hchk, ?_, ?_⟩
  · rw [hhash, failsEmpty_error]
    decide
  · rw [hchk, failsEmpty_error]
    decide

end Libchop
