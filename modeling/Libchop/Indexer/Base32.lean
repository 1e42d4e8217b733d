import Libchop.Basic
import Mathlib.Data.List.Basic
import Mathlib.Tactic.IntervalCases

/-!
# Base32

`chop_buffer_to_base32_string` writes a buffer five bits at a time, with `=` up to a multiple of
eight characters.  `chop_base32_string_to_buffer` reads such a string back, and stops at the
padding or at the first character that does not belong to the alphabet.
-/

namespace Libchop

def cString (s : String) : Bytes := s.toList.map fun c => UInt8.ofNat c.toNat

def base32Chars : Bytes := cString "abcdefghijklmnopqrstuvwxyz234567"

def base32Group (b0 b1 b2 b3 b4 : UInt8) : List UInt8 :=
  [(b0 &&& 0xf8) >>> 3,
    ((b1 &&& 0xc0) >>> 6) ||| ((b0 &&& 0x07) <<< 2),
    (b1 &&& 0x3e) >>> 1,
    ((b2 &&& 0xf0) >>> 4) ||| ((b1 &&& 0x01) <<< 4),
    ((b3 &&& 0x80) >>> 7) ||| ((b2 &&& 0x0f) <<< 1),
    (b3 &&& 0x7c) >>> 2,
    ((b4 &&& 0xe0) >>> 5) ||| ((b3 &&& 0x03) <<< 3),
    b4 &&& 0x1f]

/-- The quintets of a buffer.  The source reads it from right to left and enters its unrolled loop
in the middle for a last group of less than five bytes, with nothing carried over from a byte to
the right. -/
def base32Quintets : Bytes → List UInt8
  | [] => []
  | [b0] => (base32Group b0 0 0 0 0).take 2
  | [b0, b1] => (base32Group b0 b1 0 0 0).take 4
  | [b0, b1, b2] => (base32Group b0 b1 b2 0 0).take 5
  | [b0, b1, b2, b3] => (base32Group b0 b1 b2 b3 0).take 7
  | b0 :: b1 :: b2 :: b3 :: b4 :: rest => base32Group b0 b1 b2 b3 b4 ++ base32Quintets rest

def base32Char (value : UInt8) : UInt8 := base32Chars.getD value.toNat 0

def base32Pad : UInt8 := 61

/-- `chop_buffer_to_base32_string`, without the null character at the end. -/
def chopBufferToBase32String (buffer : Bytes) : Bytes :=
  let quintets := (base32Quintets buffer).length
  let padding := if quintets % 8 ≠ 0 then 8 - quintets % 8 else 0
  (base32Quintets buffer).map base32Char ++ List.replicate padding base32Pad

def toUpper (c : UInt8) : UInt8 := if 97 ≤ c ∧ c ≤ 122 then c - 32 else c

def isBase32 (c : UInt8) : Bool :=
  (65 ≤ toUpper c && toUpper c ≤ 90) || (50 ≤ toUpper c && toUpper c ≤ 55)

def base32Value (c : UInt8) : UInt8 :=
  if toUpper c ≤ 55 then toUpper c - 50 + 26 else toUpper c - 65

/-- What the quintet at a position of its group does to the output: the byte it completes, if any,
and the beginning of the byte after. -/
def consumeQuintet (position : Nat) (value out : UInt8) : Option UInt8 × UInt8 :=
  match position with
  | 0 => (none, value <<< 3)
  | 1 => (some (out ||| ((value &&& 0x1c) >>> 2)), (value &&& 0x03) <<< 6)
  | 2 => (none, out ||| (value <<< 1))
  | 3 => (some (out ||| ((value &&& 0x10) >>> 4)), (value &&& 0x0f) <<< 4)
  | 4 => (some (out ||| ((value &&& 0x1e) >>> 1)), (value &&& 0x01) <<< 7)
  | 5 => (none, out ||| (value <<< 2))
  | 6 => (some (out ||| ((value &&& 0x18) >>> 3)), (value &&& 0x07) <<< 5)
  | _ => (some (out ||| value), 0)

/-- The loops of `chop_base32_string_to_buffer` from a position in a group on, with the bytes they
complete and the number of characters they consume.  Only whole groups are read, and padding ends
with its group. -/
def base32Decode (position : Nat) (out : UInt8) : Bytes → Bytes × Nat
  | [] => ([], 0)
  | c :: b32 =>
    if position = 0 ∧ b32.length + 1 < 8 then ([], 0)
    else if c = base32Pad then
      ([], (((c :: b32).take (8 - position)).takeWhile (· = base32Pad)).length)
    else if isBase32 c = false then ([], 0)
    else
      let (byte, out) := consumeQuintet position (base32Value c) out
      let (bytes, count) := base32Decode ((position + 1) % 8) out b32
      (byte.toList ++ bytes, count + 1)

/-- `chop_base32_string_to_buffer`: the bytes, and where the string ends. -/
def chopBase32StringToBuffer (b32 : Bytes) : Bytes × Nat := base32Decode 0 0 b32

theorem eq_of_bits {a b : UInt8}
    (h : ∀ i < 8, a.toBitVec.getLsbD i = b.toBitVec.getLsbD i) : a = b :=
  UInt8.eq_of_toBitVec_eq (BitVec.eq_of_getLsbD_eq h)

theorem base32Group_quintet {b0 b1 b2 b3 b4 value : UInt8}
    (h : value ∈ base32Group b0 b1 b2 b3 b4) : value &&& 0x1f = value := by
  simp only [base32Group, List.mem_cons, List.not_mem_nil, or_false] at h
  apply eq_of_bits
  intro i hi
  rcases h with rfl | rfl | rfl | rfl | rfl | rfl | rfl | rfl
  all_goals
    interval_cases i <;> simp

private theorem group_byte0 (b0 b1 : UInt8) : (((b0 &&& 0xf8) >>> 3) <<< 3) |||
    (((((b1 &&& 0xc0) >>> 6) ||| ((b0 &&& 0x07) <<< 2)) &&& 0x1c) >>> 2) = b0 := by
  apply eq_of_bits
  intro i hi
  interval_cases i <;> simp

private theorem group_byte1 (b0 b1 b2 : UInt8) :
    ((((((b1 &&& 0xc0) >>> 6) ||| ((b0 &&& 0x07) <<< 2)) &&& 0x03) <<< 6) |||
      (((b1 &&& 0x3e) >>> 1) <<< 1)) |||
        (((((b2 &&& 0xf0) >>> 4) ||| ((b1 &&& 0x01) <<< 4)) &&& 0x10) >>> 4) = b1 := by
  apply eq_of_bits
  intro i hi
  interval_cases i <;> simp

private theorem group_byte2 (b1 b2 b3 : UInt8) :
    (((((b2 &&& 0xf0) >>> 4) ||| ((b1 &&& 0x01) <<< 4)) &&& 0x0f) <<< 4) |||
      (((((b3 &&& 0x80) >>> 7) ||| ((b2 &&& 0x0f) <<< 1)) &&& 0x1e) >>> 1) = b2 := by
  apply eq_of_bits
  intro i hi
  interval_cases i <;> simp

private theorem group_byte3 (b2 b3 b4 : UInt8) :
    ((((((b3 &&& 0x80) >>> 7) ||| ((b2 &&& 0x0f) <<< 1)) &&& 0x01) <<< 7) |||
      (((b3 &&& 0x7c) >>> 2) <<< 2)) |||
        (((((b4 &&& 0xe0) >>> 5) ||| ((b3 &&& 0x03) <<< 3)) &&& 0x18) >>> 3) = b3 := by
  apply eq_of_bits
  intro i hi
  interval_cases i <;> simp

private theorem group_byte4 (b3 b4 : UInt8) :
    (((((b4 &&& 0xe0) >>> 5) ||| ((b3 &&& 0x03) <<< 3)) &&& 0x07) <<< 5) ||| (b4 &&& 0x1f) = b4 := by
  apply eq_of_bits
  intro i hi
  interval_cases i <;> simp

theorem base32Char_spec {value : UInt8} (h : value &&& 0x1f = value) :
    isBase32 (base32Char value) = true ∧ base32Char value ≠ base32Pad ∧
      base32Value (base32Char value) = value := by
  have hall : ∀ n : Fin 32, isBase32 (base32Chars.getD n.val 0) = true ∧
      base32Chars.getD n.val 0 ≠ base32Pad ∧
        base32Value (base32Chars.getD n.val 0) = UInt8.ofNat n.val := by
    decide
  have hlt : value.toNat < 32 := by
    rw [← h, UInt8.toNat_and]
    exact Nat.lt_of_le_of_lt Nat.and_le_right (by decide)
  have hvalue := hall ⟨value.toNat, hlt⟩
  simp only [UInt8.ofNat_toNat] at hvalue
  exact hvalue

private theorem base32Decode_char {value : UInt8} (h : value &&& 0x1f = value) {position : Nat}
    (out : UInt8) {rest : Bytes} (hrest : position = 0 → 7 ≤ rest.length) :
    base32Decode position out (base32Char value :: rest) =
      ((consumeQuintet position value out).1.toList ++
          (base32Decode ((position + 1) % 8) (consumeQuintet position value out).2 rest).1,
        (base32Decode ((position + 1) % 8) (consumeQuintet position value out).2 rest).2 + 1) := by
  obtain ⟨hchar, hpad, hvalue⟩ := base32Char_spec h
  have hgroup : ¬ (position = 0 ∧ rest.length + 1 < 8) := by
    intro hshort
    have hlong := hrest hshort.1
    omega
  have hbase : ¬ isBase32 (base32Char value) = false := by simp [hchar]
  rw [base32Decode, if_neg hgroup, if_neg hpad, if_neg hbase, hvalue]

private theorem base32Decode_pad {position count : Nat} (out : UInt8) (rest : Bytes)
    (hcount : 0 < count) (hposition : 0 < position) (h : position + count = 8) :
    base32Decode position out (List.replicate count base32Pad ++ rest) = ([], count) := by
  have hposition : position ≠ 0 := Nat.ne_of_gt hposition
  obtain ⟨count, rfl⟩ := Nat.exists_eq_succ_of_ne_zero (Nat.ne_of_gt hcount)
  have htake : 8 - position = (List.replicate (count + 1) base32Pad).length := by
    rw [List.length_replicate]
    omega
  rw [List.replicate_succ, List.cons_append, base32Decode, if_neg (by simp [hposition]), if_pos rfl,
    ← List.cons_append, ← List.replicate_succ, htake, List.take_left]
  simp

/-- The rest of a string is not read as base32. -/
def EndsBase32 (rest : Bytes) : Prop :=
  rest.length < 8 ∨ ∃ c, rest.head? = some c ∧ c ≠ base32Pad ∧ isBase32 c = false

theorem base32Decode_end {rest : Bytes} (h : EndsBase32 rest) (out : UInt8) :
    base32Decode 0 out rest = ([], 0) := by
  cases rest with
  | nil => rfl
  | cons c rest =>
    cases h with
    | inl h =>
      rw [List.length_cons] at h
      rw [base32Decode, if_pos ⟨rfl, h⟩]
    | inr h =>
      obtain ⟨c', hc', hpad, hbase⟩ := h
      cases hc'
      rw [base32Decode, if_neg hpad, if_pos hbase, ite_self]

/-- The bytes that the quintets from a position in a group on complete, and the beginning of the
byte after. -/
def consumeQuintets (position : Nat) (out : UInt8) : List UInt8 → Bytes × UInt8
  | [] => ([], out)
  | value :: values =>
    let (byte, out) := consumeQuintet position value out
    let (bytes, out) := consumeQuintets (position + 1) out values
    (byte.toList ++ bytes, out)

theorem base32Decode_quintets {values : List UInt8}
    (hvalues : ∀ value ∈ values, value &&& 0x1f = value) (position : Nat) (out : UInt8)
    (rest : Bytes) (hgroup : position + values.length ≤ 8)
    (hlong : position = 0 → 8 ≤ values.length + rest.length) :
    base32Decode (position % 8) out (values.map base32Char ++ rest) =
      ((consumeQuintets position out values).1 ++
          (base32Decode ((position + values.length) % 8)
            (consumeQuintets position out values).2 rest).1,
        (base32Decode ((position + values.length) % 8)
          (consumeQuintets position out values).2 rest).2 + values.length) := by
  induction values generalizing position out with
  | nil => rfl
  | cons value values ih =>
    rw [List.length_cons] at hgroup hlong
    have hposition : position % 8 = position := Nat.mod_eq_of_lt (by omega)
    have hrest : position = 0 → 7 ≤ (values.map base32Char ++ rest).length := by
      intro hzero
      rw [List.length_append, List.length_map]
      have hlong := hlong hzero
      omega
    rw [hposition, List.map_cons, List.cons_append,
      base32Decode_char (hvalues value List.mem_cons_self) out hrest,
      ih (fun value hvalue => hvalues value (List.mem_cons_of_mem _ hvalue)) _ _ (by omega)
        (by omega)]
    simp only [consumeQuintets, List.length_cons, List.append_assoc, Nat.add_assoc,
      Nat.add_comm 1]

theorem base32Decode_group (b0 b1 b2 b3 b4 out : UInt8) (rest : Bytes) :
    base32Decode 0 out ((base32Group b0 b1 b2 b3 b4).map base32Char ++ rest) =
      (b0 :: b1 :: b2 :: b3 :: b4 :: (base32Decode 0 0 rest).1, (base32Decode 0 0 rest).2 + 8) := by
  have hlength : (base32Group b0 b1 b2 b3 b4).length = 8 := rfl
  have hbytes : consumeQuintets 0 out (base32Group b0 b1 b2 b3 b4) = ([b0, b1, b2, b3, b4], 0) := by
    simp only [base32Group, consumeQuintets, consumeQuintet, group_byte0, group_byte1, group_byte2,
      group_byte3, group_byte4, Option.toList_some, Option.toList_none, List.nil_append,
      List.cons_append]
  have hquintet : ∀ value ∈ base32Group b0 b1 b2 b3 b4, value &&& 0x1f = value :=
    fun _ => base32Group_quintet
  have hread := base32Decode_quintets hquintet 0 out rest hlength.le
    (fun _ => Nat.le_add_right 8 rest.length)
  rw [hlength, hbytes] at hread
  exact hread

theorem base32Quintets_quintet {buffer : Bytes} {value : UInt8}
    (h : value ∈ base32Quintets buffer) : value &&& 0x1f = value := by
  fun_induction base32Quintets buffer with
  | case1 => cases h
  | case2 b0 => exact base32Group_quintet (List.mem_of_mem_take h)
  | case3 b0 b1 => exact base32Group_quintet (List.mem_of_mem_take h)
  | case4 b0 b1 b2 => exact base32Group_quintet (List.mem_of_mem_take h)
  | case5 b0 b1 b2 b3 => exact base32Group_quintet (List.mem_of_mem_take h)
  | case6 b0 b1 b2 b3 b4 rest ih =>
    cases List.mem_append.mp h with
    | inl h => exact base32Group_quintet h
    | inr h => exact ih h

/-- The quintets of a last group complete the bytes they were made from. -/
theorem consumeQuintets_short {buffer : Bytes} (hlength : buffer.length < 5) :
    (consumeQuintets 0 0 (base32Quintets buffer)).1 = buffer := by
  fun_cases base32Quintets buffer with
  | case1 => rfl
  | case2 b0 =>
    simp only [base32Group, List.take_succ_cons, List.take_zero, consumeQuintets, consumeQuintet,
      group_byte0, Option.toList_some, Option.toList_none, List.nil_append, List.cons_append]
  | case3 b0 b1 =>
    simp only [base32Group, List.take_succ_cons, List.take_zero, consumeQuintets, consumeQuintet,
      group_byte0, group_byte1, Option.toList_some, Option.toList_none, List.nil_append,
      List.cons_append]
  | case4 b0 b1 b2 =>
    simp only [base32Group, List.take_succ_cons, List.take_zero, consumeQuintets, consumeQuintet,
      group_byte0, group_byte1, group_byte2, Option.toList_some, Option.toList_none,
      List.nil_append, List.cons_append]
  | case5 b0 b1 b2 b3 =>
    simp only [base32Group, List.take_succ_cons, List.take_zero, consumeQuintets, consumeQuintet,
      group_byte0, group_byte1, group_byte2, group_byte3, Option.toList_some, Option.toList_none,
      List.nil_append, List.cons_append]
  | case6 b0 b1 b2 b3 b4 rest =>
    simp only [List.length_cons] at hlength
    omega

theorem length_base32Quintets_short {buffer : Bytes} (hne : buffer ≠ [])
    (hlength : buffer.length < 5) :
    0 < (base32Quintets buffer).length ∧ (base32Quintets buffer).length < 8 := by
  fun_cases base32Quintets buffer with
  | case1 => exact absurd rfl hne
  | case2 b0 => simp [base32Group]
  | case3 b0 b1 => simp [base32Group]
  | case4 b0 b1 b2 => simp [base32Group]
  | case5 b0 b1 b2 b3 => simp [base32Group]
  | case6 b0 b1 b2 b3 b4 rest =>
    simp only [List.length_cons] at hlength
    omega

theorem base32Decode_short {buffer : Bytes} (hne : buffer ≠ [])
    (hlength : buffer.length < 5) (rest : Bytes) :
    base32Decode 0 0 (chopBufferToBase32String buffer ++ rest) = (buffer, 8) := by
  obtain ⟨hpos, hlt⟩ := length_base32Quintets_short hne hlength
  have hquintet : ∀ value ∈ base32Quintets buffer, value &&& 0x1f = value :=
    fun _ => base32Quintets_quintet
  have hread := base32Decode_quintets hquintet 0 0
    (List.replicate (8 - (base32Quintets buffer).length) base32Pad ++ rest) (by omega)
    (by simp; omega)
  rw [Nat.zero_add, Nat.mod_eq_of_lt hlt, base32Decode_pad _ _ (by omega) hpos (by omega),
    List.append_nil, Nat.sub_add_cancel hlt.le, consumeQuintets_short hlength] at hread
  have hpadding : (base32Quintets buffer).length % 8 ≠ 0 := by
    rw [Nat.mod_eq_of_lt hlt]
    exact hpos.ne'
  rw [chopBufferToBase32String, if_pos hpadding, Nat.mod_eq_of_lt hlt, List.append_assoc]
  exact hread

private theorem base32String_group (b0 b1 b2 b3 b4 : UInt8) (buffer : Bytes) :
    chopBufferToBase32String (b0 :: b1 :: b2 :: b3 :: b4 :: buffer) =
      (base32Group b0 b1 b2 b3 b4).map base32Char ++ chopBufferToBase32String buffer := by
  have hlength : (base32Group b0 b1 b2 b3 b4).length = 8 := rfl
  simp only [chopBufferToBase32String, base32Quintets, List.map_append, List.length_append, hlength,
    Nat.add_mod_left, List.append_assoc]

theorem length_chopBufferToBase32String (buffer : Bytes) :
    (chopBufferToBase32String buffer).length = 8 * ((buffer.length + 4) / 5) := by
  fun_induction base32Quintets buffer with
  | case1 => rfl
  | case2 b0 => simp [chopBufferToBase32String, base32Quintets, base32Group]
  | case3 b0 b1 => simp [chopBufferToBase32String, base32Quintets, base32Group]
  | case4 b0 b1 b2 => simp [chopBufferToBase32String, base32Quintets, base32Group]
  | case5 b0 b1 b2 b3 => simp [chopBufferToBase32String, base32Quintets, base32Group]
  | case6 b0 b1 b2 b3 b4 rest ih =>
    have hgroup : ((base32Group b0 b1 b2 b3 b4).map base32Char).length = 8 := rfl
    rw [base32String_group, List.length_append, hgroup, ih]
    simp only [List.length_cons]
    omega

/-- A buffer is read back from its base32 form, with anything behind it where the last group is padded. -/
theorem chopBase32StringToBuffer_padded (buffer : Bytes) {rest : Bytes}
    (hrest : buffer.length % 5 = 0 → EndsBase32 rest) :
    chopBase32StringToBuffer (chopBufferToBase32String buffer ++ rest) =
      (buffer, (chopBufferToBase32String buffer).length) := by
  rw [chopBase32StringToBuffer]
  fun_induction base32Quintets buffer with
  | case1 => exact base32Decode_end (hrest rfl) 0
  | case2 b0 => exact base32Decode_short (by simp) (by simp) rest
  | case3 b0 b1 => exact base32Decode_short (by simp) (by simp) rest
  | case4 b0 b1 b2 => exact base32Decode_short (by simp) (by simp) rest
  | case5 b0 b1 b2 b3 => exact base32Decode_short (by simp) (by simp) rest
  | case6 b0 b1 b2 b3 b4 buffer ih =>
    have hshort : buffer.length % 5 = 0 → EndsBase32 rest := by
      intro hmod
      apply hrest
      simp only [List.length_cons]
      omega
    rw [base32String_group, List.append_assoc, base32Decode_group, ih hshort, List.length_append,
      Nat.add_comm]
    rfl

/-- A buffer is read back from its base32 form. -/
theorem chopBase32StringToBuffer_string (buffer : Bytes) {rest : Bytes} (hrest : EndsBase32 rest) :
    chopBase32StringToBuffer (chopBufferToBase32String buffer ++ rest) =
      (buffer, (chopBufferToBase32String buffer).length) :=
  chopBase32StringToBuffer_padded buffer fun _ => hrest

theorem chopBufferToBase32String_injective : Function.Injective chopBufferToBase32String := by
  intro buffer buffer' h
  have hnil : EndsBase32 [] := .inl (by decide)
  have hread := chopBase32StringToBuffer_string buffer hnil
  rw [h, chopBase32StringToBuffer_string buffer' hnil] at hread
  exact (congrArg Prod.fst hread).symm

def isBase32Text (c : UInt8) : Bool := isBase32 c || c == base32Pad

theorem mem_chopBufferToBase32String {buffer : Bytes} {c : UInt8}
    (h : c ∈ chopBufferToBase32String buffer) : isBase32Text c = true := by
  have hquintets : ∀ value ∈ base32Quintets buffer, isBase32 (base32Char value) = true :=
    fun value hvalue => (base32Char_spec (base32Quintets_quintet hvalue)).1
  rw [chopBufferToBase32String] at h
  cases List.mem_append.mp h with
  | inl h =>
    obtain ⟨value, hvalue, rfl⟩ := List.mem_map.mp h
    rw [isBase32Text, hquintets value hvalue, Bool.true_or]
  | inr h =>
    rw [List.eq_of_mem_replicate h]
    rfl

end Libchop
