import Libchop.Indexer.SizeBound

/-!
# Keys from digests

`cipher_make_suitable_key` goes round the digest of a block until the key of its cipher is full.  The two
ways to make a CHK indexer let different hash methods through, and some of them have digests of no bytes.
-/

namespace Libchop

def chopChkBlockIndexerOpen (cipher : Option CipherHandle) (keyHashMethod blockIdHashMethod : HashMethod) :
    Except ChopError ChkBlockIndexer :=
  match cipher with
  | none => .error .invalidArg
  | some cipher =>
    if keyHashMethod = .none ∨ blockIdHashMethod = .none then .error .invalidArg
    else .ok ⟨cipher, keyHashMethod, blockIdHashMethod⟩

theorem chopChkBlockIndexerOpen_eq_ok {cipher : Option CipherHandle}
    {keyHashMethod blockIdHashMethod : HashMethod} {indexer : ChkBlockIndexer}
    (h : chopChkBlockIndexerOpen cipher keyHashMethod blockIdHashMethod = .ok indexer) :
    indexer.keyHashMethod ≠ .none := by
  cases cipher with
  | none => cases h
  | some cipher =>
    rw [chopChkBlockIndexerOpen] at h
    split at h
    · cases h
    · next hnone =>
      cases h
      exact fun hkey => hnone (.inl hkey)

/-- The key goes round the source. -/
structure Cycles (source key : Bytes) : Prop where
  getElem_eq : ∀ i < key.length, key[i]? = source[i % source.length]?

theorem Cycles.nil (source : Bytes) : Cycles source [] where
  getElem_eq := by
    intro i hi
    cases hi

theorem Cycles.take {source : Bytes} {n : Nat} (h : n ≤ source.length) : Cycles source (source.take n) where
  getElem_eq := by
    intro i hi
    rw [List.length_take_of_le h] at hi
    rw [List.getElem?_take_of_lt hi, Nat.mod_eq_of_lt (Nat.lt_of_lt_of_le hi h)]

/-- A copy goes on where the key ends in its round. -/
theorem Cycles.append {source key : Bytes} (h : Cycles source key) {amount : Nat}
    (hle : amount ≤ source.length - key.length % source.length) :
    Cycles source (key ++ (source.drop (key.length % source.length)).take amount) where
  getElem_eq := by
    intro i hi
    by_cases hbefore : i < key.length
    · rw [List.getElem?_append_left hbefore]
      exact h.getElem_eq i hbefore
    · obtain ⟨j, rfl⟩ := Nat.exists_eq_add_of_le (Nat.le_of_not_lt hbefore)
      rw [List.length_append, List.length_take, List.length_drop] at hi
      have hj : j < amount := by omega
      have hround : (key.length + j) % source.length = key.length % source.length + j := by
        rw [← Nat.mod_add_mod, Nat.mod_eq_of_lt (by omega)]
      rw [List.getElem?_append_right (Nat.le_add_right _ _), Nat.add_sub_cancel_left,
        List.getElem?_take_of_lt hj, List.getElem?_drop, hround]

/-- The loop keeps the source offset at the place of the key's end in its round. -/
theorem cycleKey_cycles {keySize : Nat} {source : Bytes} (fuel : Nat) {key filled : Bytes}
    (hkey : Cycles source key)
    (h : cycleKey keySize source fuel (key.length % source.length) key = .done filled) :
    Cycles source filled := by
  induction fuel generalizing key with
  | zero => cases h
  | succ fuel ih =>
    rw [cycleKey] at h
    split at h
    · obtain ⟨u, hsource, h⟩ := Outcome.bind_eq_done.mp h
      have hamount : min (source.length - key.length % source.length) (keySize - key.length) ≤
          source.length - key.length % source.length := Nat.min_le_left _ _
      refine ih (hkey.append hamount) ?_
      rw [List.length_append, List.length_take_of_le, ← Nat.mod_add_mod]
      · exact h
      · rw [List.length_drop]
        exact hamount
    · cases h
      exact hkey

/-- A key of a size is made of a digest. -/
def DerivesKey (keySize : Nat) (digest : Bytes) : Prop :=
  ∃ key, cipherMakeSuitableKey keySize digest = .done key ∧ key.length = keySize ∧
    ∀ i < keySize, key[i]? = digest[i % digest.length]?

theorem derivesKey_iff (keySize : Nat) (digest : Bytes) :
    DerivesKey keySize digest ↔ keySize = 0 ∨ digest ≠ [] := by
  constructor
  · rintro ⟨key, hkey, -⟩
    by_contra hnot
    obtain ⟨hsize, hdigest⟩ := not_or.mp hnot
    rw [not_not.mp hdigest, cipherMakeSuitableKey, if_neg (by simpa using hsize), cycleKey,
      if_pos (by simpa using Nat.pos_of_ne_zero hsize), Outcome.assert_of_not (by simp)] at hkey
    cases hkey
  · intro h
    by_cases hlong : digest.length ≥ keySize
    · refine ⟨digest.take keySize, ?_, List.length_take_of_le hlong, ?_⟩
      · rw [cipherMakeSuitableKey, if_pos hlong]
      · intro i hi
        refine (Cycles.take hlong).getElem_eq i ?_
        rwa [List.length_take_of_le hlong]
    · have hdigest : digest ≠ [] := h.resolve_left (by omega)
      obtain ⟨key, hkey, hlength⟩ := cipherMakeSuitableKey_returns keySize hdigest
      refine ⟨key, hkey, hlength, ?_⟩
      intro i hi
      rw [cipherMakeSuitableKey, if_neg hlong] at hkey
      have hloop : cycleKey keySize digest (keySize + 1) (([] : Bytes).length % digest.length) [] =
          .done key := by
        rwa [List.length_nil, Nat.zero_mod]
      exact (cycleKey_cycles (keySize + 1) (Cycles.nil digest) hloop).getElem_eq i (by omega)

theorem digest_ne_nil_iff (hash : HashFunctions) (method : HashMethod) (block : Bytes) :
    hash.digest method block ≠ [] ↔ method ≠ .none ∧ method ≠ .md2 := by
  rw [← List.length_pos_iff, hash.length_digest]
  cases method <;> decide

/-- The key of a block comes from its digest for every indexer that was opened with a hash method other
than MD2, and for every one that was deserialized with a hash method other than this and none.  Otherwise
only a key of no bytes can be made. -/
theorem chkIndexer_derivesKey_iff (hash : HashFunctions) (ciphers : Ciphers) (indexer : ChkBlockIndexer)
    (keySize : Nat) (block : Bytes) :
    ((∃ cipher keyHashMethod blockIdHashMethod,
        chopChkBlockIndexerOpen cipher keyHashMethod blockIdHashMethod = .ok indexer) →
      (DerivesKey keySize (hash.digest indexer.keyHashMethod block) ↔
        keySize = 0 ∨ indexer.keyHashMethod ≠ .md2)) ∧
    ((∃ buffer size, (cbiDeserialize ciphers buffer size).result = .ok indexer) →
      (DerivesKey keySize (hash.digest indexer.keyHashMethod block) ↔
        keySize = 0 ∨ indexer.keyHashMethod ≠ .none ∧ indexer.keyHashMethod ≠ .md2)) := by
  rw [derivesKey_iff, digest_ne_nil_iff]
  constructor
  · rintro ⟨cipher, keyHashMethod, blockIdHashMethod, hopen⟩
    rw [and_iff_right (chopChkBlockIndexerOpen_eq_ok hopen)]
  · rintro -
    rfl

/-- A key of 32 bytes from a SHA-1 digest. -/
theorem sampleChkIndexer_derivesKey :
    DerivesKey 32 (sampleDigests.digest .sha1 (cString "abc")) := by
  have hopen : chopChkBlockIndexerOpen (some ⟨.aes, .cbc⟩) .sha1 .sha1 = .ok ⟨⟨.aes, .cbc⟩, .sha1, .sha1⟩ :=
    rfl
  exact ((chkIndexer_derivesKey_iff sampleDigests sampleCiphers ⟨⟨.aes, .cbc⟩, .sha1, .sha1⟩ 32
    (cString "abc")).1 ⟨_, _, _, hopen⟩).mpr (.inr (by decide))

/-- An indexer that is opened with MD2, and one that is deserialized without a hash for its keys. -/
theorem empty_digests_derive_no_key :
    chopChkBlockIndexerOpen (some ⟨.aes, .cbc⟩) .md2 .sha1 = .ok ⟨⟨.aes, .cbc⟩, .md2, .sha1⟩ ∧
      (cbiDeserialize sampleCiphers (cString "aes,cbc,none,sha1") 17).result =
        .ok ⟨⟨.aes, .cbc⟩, .none, .sha1⟩ ∧
      cipherMakeSuitableKey 16 (sampleDigests.digest .md2 []) = .abort ∧
      cipherMakeSuitableKey 16 (sampleDigests.digest .none []) = .abort ∧
      ¬ DerivesKey 16 (sampleDigests.digest .md2 []) ∧ ¬ DerivesKey 16 (sampleDigests.digest .none []) := by
  refine ⟨rfl, rfl, rfl, rfl, ?_, ?_⟩
  · rw [derivesKey_iff, digest_ne_nil_iff]
    decide
  · rw [derivesKey_iff, digest_ne_nil_iff]
    decide

end Libchop
