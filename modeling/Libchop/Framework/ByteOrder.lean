import Mathlib.Data.Nat.Bitwise
import Mathlib.Tactic.Common

/-!
# Numbers in four bytes

Numbers are written as four bytes, the least or the most significant one first, and read from the
front of a list of bytes.
-/

namespace ByteOrder

def storeLe (n : Nat) : List UInt8 :=
  [UInt8.ofNat (n &&& 0xff), UInt8.ofNat ((n >>> 8) &&& 0xff),
    UInt8.ofNat ((n >>> 16) &&& 0xff), UInt8.ofNat ((n >>> 24) &&& 0xff)]

def storeBe (n : Nat) : List UInt8 := (storeLe n).reverse

/-- Four bytes from the most significant one on. -/
def combine (b3 b2 b1 b0 : UInt8) : Nat :=
  (((b3.toNat <<< 8 ||| b2.toNat) <<< 8) ||| b1.toNat) <<< 8 ||| b0.toNat

def loadLe : List UInt8 → Nat
  | b0 :: b1 :: b2 :: b3 :: _ => combine b3 b2 b1 b0
  | _ => 0

def loadBe : List UInt8 → Nat
  | b3 :: b2 :: b1 :: b0 :: _ => combine b3 b2 b1 b0
  | _ => 0

@[simp] theorem length_storeLe (n : Nat) : (storeLe n).length = 4 := by
  simp [storeLe]

@[simp] theorem length_storeBe (n : Nat) : (storeBe n).length = 4 := rfl

private theorem shift_or (a : Nat) (b : UInt8) : a <<< 8 ||| b.toNat = a * 256 + b.toNat := by
  rw [← Nat.shiftLeft_add_eq_or_of_lt b.toNat_lt, Nat.shiftLeft_eq]

theorem combine_eq (b3 b2 b1 b0 : UInt8) :
    combine b3 b2 b1 b0 =
      b3.toNat * 2 ^ 24 + b2.toNat * 2 ^ 16 + b1.toNat * 2 ^ 8 + b0.toNat := by
  simp only [combine, shift_or]
  omega

private theorem toNat_byte (n : Nat) : (UInt8.ofNat (n &&& 0xff)).toNat = n % 256 := by
  have hmask : n &&& 0xff = n % 256 := Nat.and_two_pow_sub_one_eq_mod n 8
  rw [hmask, UInt8.toNat_ofNat']
  omega

private theorem combine_bytes {n : Nat} (h : n < 2 ^ 32) :
    combine (UInt8.ofNat ((n >>> 24) &&& 0xff)) (UInt8.ofNat ((n >>> 16) &&& 0xff))
      (UInt8.ofNat ((n >>> 8) &&& 0xff)) (UInt8.ofNat (n &&& 0xff)) = n := by
  simp only [combine_eq, toNat_byte, Nat.shiftRight_eq_div_pow]
  omega

theorem loadLe_storeLe {n : Nat} (h : n < 2 ^ 32) (rest : List UInt8) :
    loadLe (storeLe n ++ rest) = n := combine_bytes h

theorem loadBe_storeBe {n : Nat} (h : n < 2 ^ 32) (rest : List UInt8) :
    loadBe (storeBe n ++ rest) = n := combine_bytes h

theorem loadBe_append {b : List UInt8} (h : 4 ≤ b.length) (rest : List UInt8) :
    loadBe (b ++ rest) = loadBe b := by
  match b, h with
  | _ :: _ :: _ :: _ :: _, _ => rfl

end ByteOrder
