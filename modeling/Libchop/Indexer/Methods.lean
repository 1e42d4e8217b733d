import Libchop.Indexer.Base32

/-!
# Hash methods and ciphers

The tables of `hash.c` and `cipher.c`: names, sizes and the lookup by name, which ignores case.
Digests themselves are computed by libgcrypt.
-/

namespace Libchop

def toLower (c : UInt8) : UInt8 := if 65 ≤ c ∧ c ≤ 90 then c + 32 else c

/-- `strcasecmp` says that two strings are equal. -/
def equalIgnoringCase (a b : Bytes) : Bool := a.map toLower = b.map toLower

/-- The lookup functions of `gcrypt-enum-mapping.h`: the first entry of a table with the name. -/
def enumLookup {α : Type} (table : List α) (name : α → Bytes) (wanted : Bytes) : Option α :=
  table.find? fun entry => equalIgnoringCase (name entry) wanted

inductive HashMethod where
  | none
  | sha1
  | rmd160
  | md5
  | md4
  | md2
  | tiger
  | haval
  | sha256
  | sha384
  | sha512
deriving DecidableEq, Repr

def hashMethods : List HashMethod :=
  [.none, .sha1, .rmd160, .md5, .md4, .md2, .tiger, .haval, .sha256, .sha384, .sha512]

def chopHashMethodName : HashMethod → Bytes
  | .none => cString "NONE"
  | .sha1 => cString "SHA1"
  | .rmd160 => cString "RMD160"
  | .md5 => cString "MD5"
  | .md4 => cString "MD4"
  | .md2 => cString "MD2"
  | .tiger => cString "TIGER"
  | .haval => cString "HAVAL"
  | .sha256 => cString "SHA256"
  | .sha384 => cString "SHA384"
  | .sha512 => cString "SHA512"

def chopHashSize : HashMethod → Nat
  | .none => 0
  | .sha1 => 20
  | .rmd160 => 20
  | .md5 => 16
  | .md4 => 16
  | .md2 => 0
  | .tiger => 24
  | .haval => 20
  | .sha256 => 32
  | .sha384 => 48
  | .sha512 => 64

def chopHashMethodLookup : Bytes → Option HashMethod := enumLookup hashMethods chopHashMethodName

inductive CipherAlgo where
  | none
  | idea
  | tripleDes
  | cast5
  | blowfish
  | saferSk128
  | desSk
  | aes
  | aes192
  | aes256
  | twofish
  | twofish128
  | arcfour
  | des
deriving DecidableEq, Repr

def cipherAlgos : List CipherAlgo :=
  [.none, .idea, .tripleDes, .cast5, .blowfish, .saferSk128, .desSk, .aes, .aes192, .aes256,
    .twofish, .twofish128, .arcfour, .des]

def chopCipherAlgoName : CipherAlgo → Bytes
  | .none => cString "NONE"
  | .idea => cString "IDEA"
  | .tripleDes => cString "3DES"
  | .cast5 => cString "CAST5"
  | .blowfish => cString "BLOWFISH"
  | .saferSk128 => cString "SAFER_SK128"
  | .desSk => cString "DES_SK"
  | .aes => cString "AES"
  | .aes192 => cString "AES192"
  | .aes256 => cString "AES256"
  | .twofish => cString "TWOFISH"
  | .twofish128 => cString "TWOFISH128"
  | .arcfour => cString "ARCFOUR"
  | .des => cString "DES"

def chopCipherAlgoLookup : Bytes → Option CipherAlgo := enumLookup cipherAlgos chopCipherAlgoName

inductive CipherMode where
  | none
  | ecb
  | cfb
  | cbc
  | stream
  | ofb
  | ctr
  | aeswrap
deriving DecidableEq, Repr

def cipherModes : List CipherMode := [.none, .ecb, .cfb, .cbc, .stream, .ofb, .ctr, .aeswrap]

def chopCipherModeName : CipherMode → Bytes
  | .none => cString "NONE"
  | .ecb => cString "ECB"
  | .cfb => cString "CFB"
  | .cbc => cString "CBC"
  | .stream => cString "STREAM"
  | .ofb => cString "OFB"
  | .ctr => cString "CTR"
  | .aeswrap => cString "AESWRAP"

def chopCipherModeLookup : Bytes → Option CipherMode := enumLookup cipherModes chopCipherModeName

/-- The message digests of libgcrypt.  They are as long as the table says, and `GCRY_MD_NONE` is not
an algorithm. -/
structure HashFunctions where
  available : HashMethod → Bool
  none_unavailable : available .none = false
  digest : HashMethod → Bytes → Bytes
  length_digest : ∀ method buffer, (digest method buffer).length = chopHashSize method

/-- `gcry_md_hash_buffer` ends the process where the algorithm is not available. -/
def chopHashBuffer (hash : HashFunctions) (method : HashMethod) (buffer : Bytes) : Outcome Bytes :=
  Outcome.assert (hash.available method = true) >>= fun _ => .done (hash.digest method buffer)

section Hashing

variable {hash : HashFunctions} {method : HashMethod} {buffer digest : Bytes}

theorem chopHashBuffer_eq_done :
    chopHashBuffer hash method buffer = .done digest ↔
      hash.available method = true ∧ hash.digest method buffer = digest := by
  rw [chopHashBuffer]
  by_cases h : hash.available method = true
  · rw [Outcome.assert_of h, Outcome.done_bind, Outcome.done.injEq]
    exact (and_iff_right h).symm
  · rw [Outcome.assert_of_not h, Outcome.abort_bind]
    constructor
    · intro habort
      cases habort
    · exact fun hdigest => (h hdigest.1).elim

theorem length_chopHashBuffer (h : chopHashBuffer hash method buffer = .done digest) :
    digest.length = chopHashSize method := by
  rw [← (chopHashBuffer_eq_done.mp h).2]
  exact hash.length_digest method buffer

theorem chopHashBuffer_ne_none (h : chopHashBuffer hash method buffer = .done digest) :
    method ≠ .none := by
  rintro rfl
  have havailable := (chopHashBuffer_eq_done.mp h).1
  rw [hash.none_unavailable] at havailable
  cases havailable

end Hashing

/-- SHA-1 where a table says what it is. -/
def HashFunctions.sha1Table (table : List (Bytes × Bytes))
    (htable : ∀ entry ∈ table, entry.2.length = 20) : HashFunctions where
  available method := method = .sha1
  none_unavailable := rfl
  digest method buffer :=
    match method, table.find? fun entry => entry.1 = buffer with
    | .sha1, some entry => entry.2
    | method, _ => List.replicate (chopHashSize method) 0
  length_digest method buffer := by
    split
    · next hentry => exact htable _ (List.mem_of_find?_eq_some hentry)
    · exact List.length_replicate

end Libchop
