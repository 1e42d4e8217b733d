import Libchop.Indexer.Base32
import Mathlib.Data.List.TakeWhile

/-!
# Hexadecimal strings

`chop_buffer_to_hex_string` writes two digits for each byte, and `chop_hex_string_to_buffer` reads pairs of digits
back.  Whether a character is a digit, which number it stands for and how many characters there are is decided
by three expressions of their own.
-/

namespace Libchop

/-- `tochar`. -/
def hexChar (num : UInt8) : UInt8 := if num < 10 then 48 + num else 97 - 10 + num

/-- `chop_buffer_to_hex_string`, without the null character at the end. -/
def chopBufferToHexString (buffer : Bytes) : Bytes :=
  buffer.flatMap fun byte : UInt8 => [hexChar (byte >>> 4), hexChar (byte &&& 0xf)]

def isxdigit (c : UInt8) : Bool := (48 ≤ c && c ≤ 57) || (65 ≤ c && c ≤ 70) || (97 ≤ c && c ≤ 102)

/-- `tonum`. -/
def hexNum (chr : UInt8) : UInt8 := if chr ≥ 97 then chr - 97 + 10 else chr - 48

section Decoder

variable (hex : Nat → UInt8)

/-- The loop of `chop_hex_string_to_buffer` from a position on. -/
def hexLoop (endOfBuf : Nat) : Nat → Nat → Bytes × Nat
  | 0, p => ([], p)
  | fuel + 1, p =>
    if p < endOfBuf then
      if isxdigit (hex p) = false ∨ isxdigit (hex (p + 1)) = false then ([], p)
      else
        let (buffer, stop) := hexLoop endOfBuf fuel (p + 2)
        (((hexNum (hex p) <<< 4) ||| hexNum (hex (p + 1))) :: buffer, stop)
    else ([], p)

/-- `chop_hex_string_to_buffer`: the bytes, and where reading stopped.  `hex` is what is in memory, and the end of
the buffer is computed before an odd size is decreased. -/
def chopHexStringToBuffer (size : Nat) : Bytes × Nat := hexLoop hex size (size + 1) 0

end Decoder

/-- The number that a hexadecimal digit in either case stands for. -/
def hexDigit (c : UInt8) : Option UInt8 :=
  if 48 ≤ toUpper c ∧ toUpper c ≤ 57 then some (toUpper c - 48)
  else if 65 ≤ toUpper c ∧ toUpper c ≤ 70 then some (toUpper c - 65 + 10)
  else none

/-- The bytes of the longest prefix of pairs of digits, and its length. -/
def decodeHex : Bytes → Bytes × Nat
  | high :: low :: text =>
    match hexDigit high, hexDigit low with
    | some high, some low => ((16 * high + low) :: (decodeHex text).1, (decodeHex text).2 + 2)
    | _, _ => ([], 0)
  | _ => ([], 0)

def charsAt (hex : Nat → UInt8) (p size : Nat) : Bytes := (List.range' p size).map hex

def isUpperDigit (c : UInt8) : Bool := 65 ≤ c && c ≤ 70

/-- The pairs of digits that a text begins with. -/
def hexPairs (text : Bytes) : Bytes :=
  let digits := text.takeWhile isxdigit
  digits.take (2 * (digits.length / 2))

/-- No digit that is decoded is in upper case, and an odd number of digits does not end before another one. -/
def HexReadable (hex : Nat → UInt8) (p size : Nat) : Prop :=
  (∀ c ∈ hexPairs (charsAt hex p size), isUpperDigit c = false) ∧
    ¬ (size % 2 = 1 ∧ (∀ c ∈ charsAt hex p size, isxdigit c = true) ∧ isxdigit (hex (p + size)) = true)

section Digits

theorem isSome_hexDigit (c : UInt8) : (hexDigit c).isSome = isxdigit c := by
  unfold hexDigit isxdigit toUpper
  grind

/-- A digit in upper case is off by seven. -/
theorem hexDigit_eq_some {c x : UInt8} (h : hexDigit c = some x) :
    x < 16 ∧ hexNum c = if isUpperDigit c = true then x + 7 else x := by
  unfold hexDigit toUpper at h
  unfold hexNum isUpperDigit
  grind

private theorem toNat_shift_or (a b : UInt8) :
    ((a <<< 4) ||| b).toNat = (16 * a.toNat % 256) ||| b.toNat := by
  rw [UInt8.toNat_or, UInt8.toNat_shiftLeft, Nat.shiftLeft_eq]
  simp [Nat.mul_comm]

private theorem shift_or_low {b : UInt8} (a : UInt8) (hb : b < 16) : (a <<< 4) ||| b = 16 * a + b := by
  have hlt : b.toNat < 2 ^ 4 := hb
  have hsum := Nat.two_pow_add_eq_or_of_lt hlt (a.toNat % 16)
  have hshift : 16 * a.toNat % 256 = 2 ^ 4 * (a.toNat % 16) := by omega
  apply UInt8.toNat_inj.mp
  rw [toNat_shift_or, UInt8.toNat_add, UInt8.toNat_mul, hshift, ← hsum]
  simp only [UInt8.reduceToNat]
  omega

private theorem shift_or_mod (a b : UInt8) : ((a <<< 4) ||| b) % 16 = b % 16 := by
  have hor := @Nat.or_mod_two_pow (16 * a.toNat % 256) b.toNat 4
  have hhigh : 16 * a.toNat % 256 % 2 ^ 4 = 0 := by omega
  rw [hhigh, Nat.zero_or] at hor
  apply UInt8.toNat_inj.mp
  rw [UInt8.toNat_mod, UInt8.toNat_mod, toNat_shift_or]
  exact hor

/-- Two digits make up their byte just in case neither is in upper case. -/
theorem hexNum_eq_iff {high low : UInt8} (hhigh : isxdigit high = true) (hlow : isxdigit low = true) :
    ∃ x y, hexDigit high = some x ∧ hexDigit low = some y ∧
      ((hexNum high <<< 4) ||| hexNum low = 16 * x + y ↔
        isUpperDigit high = false ∧ isUpperDigit low = false) := by
  obtain ⟨x, hx⟩ := Option.isSome_iff_exists.mp ((isSome_hexDigit high).trans hhigh)
  obtain ⟨y, hy⟩ := Option.isSome_iff_exists.mp ((isSome_hexDigit low).trans hlow)
  obtain ⟨-, hhigh⟩ := hexDigit_eq_some hx
  obtain ⟨hylt, hlow⟩ := hexDigit_eq_some hy
  refine ⟨x, y, hx, hy, ?_⟩
  cases hupper : isUpperDigit low with
  | true =>
    -- The low digits of both sides differ.
    have hmod := shift_or_mod (hexNum high) (hexNum low)
    rw [hupper, if_pos rfl] at hlow
    rw [hlow] at hmod ⊢
    have hne : (hexNum high <<< 4) ||| (y + 7) ≠ 16 * x + y := by
      intro heq
      rw [heq] at hmod
      grind
    simp [hne]
  | false =>
    rw [hupper, if_neg Bool.false_ne_true] at hlow
    rw [hlow, shift_or_low _ hylt, hhigh]
    cases isUpperDigit high with
    | true =>
      have hne : 16 * (x + 7) + y ≠ 16 * x + y := by grind
      simpa using hne
    | false => simp

end Digits

section Correctness

variable {hex : Nat → UInt8}

private theorem charsAt_succ (p size : Nat) :
    charsAt hex p (size + 1) = hex p :: charsAt hex (p + 1) size := by
  rw [charsAt, List.range'_succ, List.map_cons]
  rfl

private theorem takeWhile_digits {high : UInt8} {text : Bytes} (hhigh : isxdigit high = true) :
    (high :: text).takeWhile isxdigit = high :: text.takeWhile isxdigit :=
  List.takeWhile_cons_of_pos hhigh

private theorem hexPairs_cons {high low : UInt8} {text : Bytes} (hhigh : isxdigit high = true)
    (hlow : isxdigit low = true) : hexPairs (high :: low :: text) = high :: low :: hexPairs text := by
  have hhalf (n : Nat) : 2 * ((n + 1 + 1) / 2) = 2 * (n / 2) + 1 + 1 := by omega
  rw [hexPairs, takeWhile_digits hhigh, takeWhile_digits hlow, List.length_cons, List.length_cons, hhalf,
    List.take_succ_cons, List.take_succ_cons]
  rfl

private theorem hexPairs_nil {high low : UInt8} {text : Bytes} (h : isxdigit high = false ∨ isxdigit low = false) :
    hexPairs (high :: low :: text) = [] := by
  rw [hexPairs]
  cases hhigh : isxdigit high with
  | false =>
    rw [List.takeWhile_cons_of_neg (by simp [hhigh])]
    rfl
  | true =>
    have hlow : isxdigit low = false := by simpa [hhigh] using h
    rw [takeWhile_digits hhigh, List.takeWhile_cons_of_neg (by simp [hlow]), List.length_singleton,
      Nat.div_eq_of_lt (by decide), Nat.mul_zero, List.take_zero]

private theorem decodeHex_nil {high low : UInt8} {text : Bytes}
    (h : isxdigit high = false ∨ isxdigit low = false) : decodeHex (high :: low :: text) = ([], 0) := by
  rw [← isSome_hexDigit, ← isSome_hexDigit, Option.isSome_eq_false_iff, Option.isSome_eq_false_iff,
    Option.isNone_iff_eq_none, Option.isNone_iff_eq_none] at h
  rw [decodeHex]
  rcases h with hhigh | hlow
  · rw [hhigh]
  · rw [hlow]
    cases hexDigit high with
    | none => rfl
    | some x => rfl

private theorem decodeHex_cons {high low x y : UInt8} {text : Bytes} (hhigh : hexDigit high = some x)
    (hlow : hexDigit low = some y) :
    decodeHex (high :: low :: text) =
      ((16 * x + y) :: (decodeHex text).1, 2 + (decodeHex text).2) := by
  rw [decodeHex, hhigh, hlow, Nat.add_comm]

/-- From a position on, the loop decodes the pairs of digits just in case they are readable. -/
theorem hexLoop_eq_iff {fuel p size : Nat} (hfuel : size < fuel) :
    hexLoop hex (p + size) fuel p =
        ((decodeHex (charsAt hex p size)).1, p + (decodeHex (charsAt hex p size)).2) ↔
      HexReadable hex p size := by
  induction size using Nat.twoStepInduction generalizing fuel p with
  | zero =>
    obtain ⟨fuel, rfl⟩ := Nat.exists_eq_add_one_of_ne_zero (Nat.ne_of_gt hfuel)
    rw [hexLoop, if_neg (by omega)]
    simp [charsAt, decodeHex, HexReadable, hexPairs]
  | one =>
    obtain ⟨fuel, rfl⟩ := Nat.exists_eq_add_one_of_ne_zero (Nat.ne_of_gt (Nat.zero_lt_of_lt hfuel))
    have hchars : charsAt hex p 1 = [hex p] := rfl
    have hpairs : hexPairs [hex p] = [] := by
      have hone : ([hex p].takeWhile isxdigit).length ≤ 1 := (List.takeWhile_prefix _).length_le
      rw [hexPairs, Nat.div_eq_of_lt (by omega), Nat.mul_zero, List.take_zero]
    have hnone : decodeHex [hex p] = ([], 0) := rfl
    rw [hexLoop, if_pos (by omega), HexReadable, hchars, hpairs, hnone]
    by_cases hdigits : isxdigit (hex p) = false ∨ isxdigit (hex (p + 1)) = false
    · rw [if_pos hdigits]
      simpa [← Bool.not_eq_true, ← not_and_or] using hdigits
    · rw [if_neg hdigits]
      simpa [← Bool.not_eq_true, ← not_and_or] using hdigits
  | more size ih _ =>
    obtain ⟨fuel, rfl⟩ := Nat.exists_eq_add_one_of_ne_zero (Nat.ne_of_gt (Nat.zero_lt_of_lt hfuel))
    have hrest := ih (show size < fuel by omega) (p := p + 2)
    rw [show p + 2 + size = p + (size + 2) by omega] at hrest
    rw [hexLoop, if_pos (by omega), HexReadable, charsAt_succ, charsAt_succ, Nat.add_assoc]
    by_cases hdigits : isxdigit (hex p) = false ∨ isxdigit (hex (p + 1)) = false
    · rw [if_pos hdigits, hexPairs_nil hdigits, decodeHex_nil hdigits]
      have hnone : ¬ (isxdigit (hex p) = true ∧ isxdigit (hex (p + 1)) = true) := by
        simpa [← Bool.not_eq_true, ← not_and_or] using hdigits
      refine ⟨fun _ => ⟨List.forall_mem_nil _, ?_⟩, fun _ => rfl⟩
      rintro ⟨-, hall, -⟩
      obtain ⟨hhigh, hall⟩ := List.forall_mem_cons.mp hall
      exact hnone ⟨hhigh, (List.forall_mem_cons.mp hall).1⟩
    · obtain ⟨hhigh, hlow⟩ : isxdigit (hex p) = true ∧ isxdigit (hex (p + 1)) = true := by
        simpa [← Bool.not_eq_true, ← not_and_or] using hdigits
      obtain ⟨x, y, hx, hy, hbyte⟩ := hexNum_eq_iff hhigh hlow
      have hodd : (size + 2) % 2 = size % 2 := Nat.add_mod_right size 2
      have hend : p + 2 + size = p + (size + 2) := by omega
      rw [if_neg hdigits, hexPairs_cons hhigh hlow, decodeHex_cons hx hy, hodd]
      rw [HexReadable, Prod.ext_iff, hend] at hrest
      simp only [Prod.mk.injEq, List.cons.injEq, List.forall_mem_cons, hbyte, hhigh, hlow, true_and,
        Nat.reduceAdd] at hrest ⊢
      rw [← Nat.add_assoc p 2, and_assoc, hrest, and_assoc, and_assoc, and_assoc]

end Correctness

section LetterCase

variable {text text' buffer : Bytes}

private theorem hexDigit_letterCase {c c' : UInt8} (h : toUpper c = toUpper c') : hexDigit c = hexDigit c' := by
  rw [hexDigit, hexDigit, h]

private theorem toUpper_toUpper (c : UInt8) : toUpper (toUpper c) = toUpper c := by
  unfold toUpper
  grind

private theorem decodeHex_map_toUpper (text : Bytes) : decodeHex (text.map toUpper) = decodeHex text := by
  fun_induction decodeHex text with
  | case1 high low text x y hlow hhigh ih =>
    rw [← hexDigit_letterCase (toUpper_toUpper high)] at hhigh
    rw [← hexDigit_letterCase (toUpper_toUpper low)] at hlow
    rw [List.map_cons, List.map_cons, decodeHex, hhigh, hlow, ih]
  | case2 high low text hnone =>
    rw [List.map_cons, List.map_cons, decodeHex, hexDigit_letterCase (toUpper_toUpper high),
      hexDigit_letterCase (toUpper_toUpper low)]
    split
    · rename_i x y hhigh hlow
      exact absurd hlow (hnone x y hhigh)
    · rfl
  | case3 text hshort =>
    match text with
    | [] => rfl
    | [_] => rfl
    | high :: low :: text => exact absurd rfl (hshort high low text)

theorem decodeHex_letterCase (h : text.map toUpper = text'.map toUpper) : decodeHex text = decodeHex text' := by
  rw [← decodeHex_map_toUpper, h, decodeHex_map_toUpper]

private theorem hexDigit_hexChar {num : UInt8} (h : num < 16) : hexDigit (hexChar num) = some num := by
  unfold hexDigit hexChar toUpper
  grind

private theorem hexDigits_byte (byte : UInt8) :
    hexDigit (hexChar (byte >>> 4)) = some (byte >>> 4) ∧
      hexDigit (hexChar (byte &&& 0xf)) = some (byte &&& 0xf) ∧
        (16 : UInt8) * (byte >>> 4) + (byte &&& 0xf) = byte := by
  have hbyte := byte.toNat_lt
  have hhigh : (byte >>> 4).toNat = byte.toNat / 16 := by
    rw [UInt8.toNat_shiftRight, Nat.shiftRight_eq_div_pow]
    rfl
  have hlow : (byte &&& 0xf).toNat = byte.toNat % 16 :=
    (UInt8.toNat_and byte 0xf).trans (Nat.and_two_pow_sub_one_eq_mod byte.toNat 4)
  refine ⟨hexDigit_hexChar ?_, hexDigit_hexChar ?_, ?_⟩
  · rw [UInt8.lt_iff_toNat_lt, hhigh]
    exact Nat.div_lt_of_lt_mul hbyte
  · rw [UInt8.lt_iff_toNat_lt, hlow]
    exact Nat.mod_lt _ (by decide)
  · apply UInt8.toNat_inj.mp
    rw [UInt8.toNat_add, UInt8.toNat_mul, hhigh, hlow]
    simp only [UInt8.reduceToNat]
    omega

theorem decodeHex_string (buffer : Bytes) :
    decodeHex (chopBufferToHexString buffer) = (buffer, (chopBufferToHexString buffer).length) := by
  induction buffer with
  | nil => rfl
  | cons byte buffer ih =>
    obtain ⟨hhigh, hlow, hbyte⟩ := hexDigits_byte byte
    have hsplit : chopBufferToHexString (byte :: buffer) =
        hexChar (byte >>> 4) :: hexChar (byte &&& 0xf) :: chopBufferToHexString buffer := rfl
    rw [hsplit, decodeHex_cons hhigh hlow, ih, hbyte, Nat.add_comm]
    rfl

theorem isxdigit_of_mem_string {c : UInt8} (h : c ∈ chopBufferToHexString buffer) : isxdigit c = true := by
  obtain ⟨byte, _, hc⟩ := List.mem_flatMap.mp h
  obtain ⟨hhigh, hlow, _⟩ := hexDigits_byte byte
  rw [← isSome_hexDigit]
  simp only [List.mem_cons, List.not_mem_nil, or_false] at hc
  rcases hc with rfl | rfl
  · rw [hhigh]
    rfl
  · rw [hlow]
    rfl

theorem length_chopBufferToHexString (buffer : Bytes) :
    (chopBufferToHexString buffer).length = 2 * buffer.length := by
  simp [chopBufferToHexString, List.length_flatMap, Nat.mul_comm]

/-- A text of digits is readable just in case none of them is in upper case. -/
theorem hexReadable_digits {hex : Nat → UInt8} (hhex : charsAt hex 0 text.length = text)
    (hdigits : ∀ c ∈ text, isxdigit c = true) (heven : text.length % 2 = 0) :
    HexReadable hex 0 text.length ↔ ∀ c ∈ text, isUpperDigit c = false := by
  have hpairs : hexPairs text = text := by
    rw [hexPairs, List.takeWhile_eq_self_iff.mpr hdigits, List.take_of_length_le (by omega)]
  rw [HexReadable, hhex, hpairs, heven]
  simp

end LetterCase

private theorem chopHexStringToBuffer_eq_iff (hex : Nat → UInt8) (size : Nat) :
    chopHexStringToBuffer hex size = decodeHex (charsAt hex 0 size) ↔ HexReadable hex 0 size := by
  have hloop := @hexLoop_eq_iff hex (size + 1) 0 size (Nat.lt_succ_self size)
  rw [Nat.zero_add, Nat.zero_add] at hloop
  exact hloop

/-- The decoder decodes the longest prefix of pairs of digits among its characters just in case they are readable,
and reads a buffer back from its hexadecimal form in either case just in case no digit is in upper case. -/
theorem hexString_decodes_iff (hex : Nat → UInt8) (size : Nat) :
    (chopHexStringToBuffer hex size = decodeHex (charsAt hex 0 size) ↔ HexReadable hex 0 size) ∧
    ∀ buffer text : Bytes, charsAt hex 0 text.length = text →
      text.map toUpper = (chopBufferToHexString buffer).map toUpper →
        (chopHexStringToBuffer hex text.length = (buffer, text.length) ↔ ∀ c ∈ text, isUpperDigit c = false) := by
  refine ⟨chopHexStringToBuffer_eq_iff hex size, fun buffer text hhex htext => ?_⟩
  have hlength : text.length = (chopBufferToHexString buffer).length := by
    simpa only [List.length_map] using congrArg List.length htext
  have hdigits : ∀ c ∈ text, isxdigit c = true := by
    intro c hc
    have hmem : toUpper c ∈ (chopBufferToHexString buffer).map toUpper := htext ▸ List.mem_map_of_mem hc
    obtain ⟨c', hc', hcase⟩ := List.mem_map.mp hmem
    rw [← isSome_hexDigit, ← hexDigit_letterCase hcase, isSome_hexDigit]
    exact isxdigit_of_mem_string hc'
  have hdecoded : decodeHex text = (buffer, text.length) := by
    rw [decodeHex_letterCase htext, decodeHex_string, hlength]
  have heven : text.length % 2 = 0 := by
    rw [hlength, length_chopBufferToHexString]
    omega
  rw [← hexReadable_digits hhex hdigits heven, ← chopHexStringToBuffer_eq_iff, hhex, hdecoded]

set_option maxRecDepth 2000 in
/-- A text in lower case is decoded, and one with an upper-case digit is not. -/
theorem hexString_decodes_iff_digits :
    chopHexStringToBuffer (fun i => (cString "00a7ff3c").getD i 0) 8 = ([0, 0xa7, 0xff, 0x3c], 8) ∧
      chopHexStringToBuffer (fun i => (cString "00a7FF3c").getD i 0) 8 ≠ ([0, 0xa7, 0xff, 0x3c], 8) := by
  constructor
  · exact ((hexString_decodes_iff (fun i => (cString "00a7ff3c").getD i 0) 8).2 [0, 0xa7, 0xff, 0x3c]
      (cString "00a7ff3c") rfl rfl).mpr (by decide)
  · intro hdecoded
    have hlower := ((hexString_decodes_iff (fun i => (cString "00a7FF3c").getD i 0) 8).2
      [0, 0xa7, 0xff, 0x3c] (cString "00a7FF3c") rfl rfl).mp hdecoded
    revert hlower
    decide

/-- Digits in upper case are not decoded to the byte they stand for. -/
theorem upper_case_not_decoded : ¬ ∀ (hex : Nat → UInt8) (size : Nat),
    chopHexStringToBuffer hex size = decodeHex (charsAt hex 0 size) := by
  intro h
  have hupper := h (fun i => (cString "AB").getD i 0) 2
  revert hupper
  decide

end Libchop
