import Libchop.Indexer.Base32Encoder
import Mathlib.Data.List.GetD

/-!
# The base32 decoder

`chop_base32_string_to_buffer` reads groups of eight characters in an unrolled loop, which it leaves at
padding or at a character that is not in the alphabet.  A second loop skips the padding.
-/

namespace Libchop

/-- How a group is left: after its last quintet, for the label `skip_padding`, or with `break`. -/
inductive GroupExit where
  | whole
  | skipPadding (i : Nat)
  | invalid (i : Nat)
deriving DecidableEq, Repr

section Decoder

variable (b32 : Bytes)

/-- `CONSUME_QUINTET` for each of the quintets that are left in a group that begins at `i`. -/
def consumeGroup (i : Nat) : Nat → Nat → UInt8 → Bytes × GroupExit
  | 0, _, _ => ([], .whole)
  | left + 1, position, out =>
    let c := b32.getD (i + position) 0
    if c = base32Pad then ([], .skipPadding (i + position))
    else if isBase32 c = false then ([], .invalid (i + position))
    else
      let (byte, out) := consumeQuintet position (base32Value c) out
      let (bytes, exit) := consumeGroup i left (position + 1) out
      (byte.toList ++ bytes, exit)

/-- The body of the second loop, and what follows it. -/
def skipPadding : Nat → Nat → Nat → Nat
  | 0, i, _ => i
  | fuel + 1, i, left =>
    if b32.getD i 0 ≠ base32Pad then i
    else if (i + 1) % 8 ≠ 0 ∧ left - 1 > 0 then skipPadding fuel (i + 1) (left - 1)
    else i + 1

/-- The second loop.  It has at most eight rounds. -/
def paddingLoop (i left : Nat) : Nat := if i % 8 ≠ 0 ∧ left > 0 then skipPadding b32 8 i left else i

/-- The first loop, and what follows it. -/
def groupLoop (size : Nat) : Nat → Nat → Nat → Bytes × Nat
  | 0, i, _ => ([], i)
  | fuel + 1, i, left =>
    if i < size ∧ left ≥ 8 then
      match consumeGroup b32 i 8 0 0 with
      | (bytes, .whole) =>
        let (more, stop) := groupLoop size fuel (i + 8) (left - 8)
        (bytes ++ more, stop)
      | (bytes, .skipPadding i) => (bytes, skipPadding b32 8 i left)
      | (bytes, .invalid i) => (bytes, paddingLoop b32 i left)
    else ([], paddingLoop b32 i left)

/-- `chop_base32_string_to_buffer`, for a whole string. -/
def loadBase32String : Bytes × Nat := groupLoop b32 b32.length (b32.length + 1) 0 b32.length

end Decoder

section Correctness

variable {b32 : Bytes}

private theorem drop_eq_getD_cons {i : Nat} (h : i < b32.length) :
    b32.drop i = b32.getD i 0 :: b32.drop (i + 1) := by
  rw [List.drop_eq_getElem_cons h, List.getD_eq_getElem _ _ h]

/-- The second loop skips the padding up to the end of its group. -/
theorem skipPadding_eq {count fuel i left : Nat} (hcount : count + 1 = 8 - i % 8) (hfuel : count < fuel)
    (hleft : count < left) (hi : i + count < b32.length) :
    skipPadding b32 fuel i left =
      i + (((b32.drop i).take (8 - i % 8)).takeWhile (· = base32Pad)).length := by
  obtain ⟨fuel, rfl⟩ := Nat.exists_eq_add_one_of_ne_zero (Nat.ne_of_gt (Nat.zero_lt_of_lt hfuel))
  induction count generalizing fuel i left with
  | zero =>
    rw [skipPadding, ← hcount, drop_eq_getD_cons (Nat.lt_of_le_of_lt (Nat.le_add_right i 0) hi),
      List.take_succ_cons, List.take_zero]
    by_cases hpad : b32.getD i 0 = base32Pad
    · rw [if_neg (not_not.mpr hpad), if_neg (by omega), hpad]
      rfl
    · rw [if_pos hpad, List.takeWhile_cons_of_neg (by simpa using hpad)]
      rfl
  | succ count ih =>
    rw [skipPadding, ← hcount, drop_eq_getD_cons (by omega), List.take_succ_cons]
    by_cases hpad : b32.getD i 0 = base32Pad
    · have hnext : count + 1 = 8 - (i + 1) % 8 := by omega
      obtain ⟨fuel, rfl⟩ := Nat.exists_eq_add_one_of_ne_zero (show fuel ≠ 0 by omega)
      rw [if_neg (not_not.mpr hpad), if_pos (by omega), ih hnext (by omega) (by omega) fuel (by omega),
        ← hnext, hpad, List.takeWhile_cons_of_pos (by simp), List.length_cons]
      omega
    · rw [if_pos hpad, List.takeWhile_cons_of_neg (by simpa using hpad)]
      rfl

/-- A group begins with nothing carried over. -/
theorem base32Decode_zero (out : UInt8) (b32 : Bytes) : base32Decode 0 out b32 = base32Decode 0 0 b32 := by
  cases b32 with
  | nil => rfl
  | cons c b32 => rfl

/-- What is decoded from a position of a group on, by the way the group is left. -/
theorem consumeGroup_spec {i left position : Nat} (out : UInt8) (hposition : position + left = 8)
    (hi : i + 8 ≤ b32.length) (hgroup : i % 8 = 0) :
    let decoded := base32Decode (position % 8) out (b32.drop (i + position))
    let rest := base32Decode 0 0 (b32.drop (i + 8))
    match consumeGroup b32 i left position out with
    | (bytes, .whole) => decoded.1 = bytes ++ rest.1 ∧ position + decoded.2 = 8 + rest.2
    | (bytes, .skipPadding stop) =>
      decoded.1 = bytes ∧ ∀ left ≥ 8, i + position + decoded.2 = skipPadding b32 8 stop left
    | (bytes, .invalid stop) =>
      decoded.1 = bytes ∧ i + position + decoded.2 = stop ∧ b32.getD stop 0 ≠ base32Pad := by
  induction left generalizing position out with
  | zero =>
    obtain rfl : position = 8 := hposition
    rw [consumeGroup, Nat.mod_self, base32Decode_zero]
    exact ⟨rfl, rfl⟩
  | succ left ih =>
    have hlt : position < 8 := by omega
    have hgroup' : ¬ (position = 0 ∧ (b32.drop (i + position + 1)).length + 1 < 8) := by
      rw [List.length_drop]
      omega
    have hdrop := drop_eq_getD_cons (show i + position < b32.length by omega)
    rw [Nat.mod_eq_of_lt hlt, hdrop, consumeGroup, base32Decode, if_neg hgroup']
    generalize hc : b32.getD (i + position) 0 = c at hdrop
    by_cases hpad : c = base32Pad
    · rw [if_pos hpad, if_pos hpad]
      refine ⟨rfl, fun left hleft => ?_⟩
      have hmod : (i + position) % 8 = position := by omega
      have hcount : 7 - position + 1 = 8 - (i + position) % 8 := by omega
      rw [skipPadding_eq hcount (by omega) (by omega) (by omega), hmod, hdrop]
    by_cases hbase : isBase32 c = false
    · rw [if_neg hpad, if_neg hpad, if_pos hbase, if_pos hbase]
      exact ⟨rfl, rfl, hc ▸ hpad⟩
    rw [if_neg hpad, if_neg hpad, if_neg hbase, if_neg hbase]
    obtain ⟨byte, next⟩ := consumeQuintet position (base32Value c) out
    have hrest := ih next (show position + 1 + left = 8 by omega)
    rw [← Nat.add_assoc] at hrest
    rcases hconsume : consumeGroup b32 i left (position + 1) next with ⟨bytes, exit⟩
    simp only [hconsume] at hrest ⊢
    cases exit with
    | whole =>
      obtain ⟨hbytes, hcount⟩ := hrest
      refine ⟨?_, ?_⟩
      · rw [hbytes, List.append_assoc]
      · omega
    | skipPadding stop =>
      obtain ⟨hbytes, hcount⟩ := hrest
      refine ⟨by rw [hbytes], fun left hleft => ?_⟩
      rw [← hcount left hleft]
      omega
    | invalid stop =>
      obtain ⟨hbytes, hcount, hstop⟩ := hrest
      refine ⟨by rw [hbytes], ?_, hstop⟩
      rw [← hcount]
      omega

/-- Groups are decoded one after the other, from left to right. -/
theorem groupLoop_eq {fuel i left : Nat} (hfuel : left < fuel) (hleft : i + left = b32.length)
    (hgroup : i % 8 = 0) :
    groupLoop b32 b32.length fuel i left =
      ((base32Decode 0 0 (b32.drop i)).1, i + (base32Decode 0 0 (b32.drop i)).2) := by
  induction fuel generalizing i left with
  | zero => cases hfuel
  | succ fuel ih =>
    rw [groupLoop]
    by_cases hwhole : i < b32.length ∧ left ≥ 8
    · rw [if_pos hwhole]
      have hconsume := consumeGroup_spec 0 (Nat.zero_add 8) (show i + 8 ≤ b32.length by omega) hgroup
      rcases hexit : consumeGroup b32 i 8 0 0 with ⟨bytes, exit⟩
      simp only [hexit, Nat.zero_mod, Nat.add_zero] at hconsume ⊢
      cases exit with
      | whole =>
        obtain ⟨hbytes, hcount⟩ := hconsume
        rw [ih (show left - 8 < fuel by omega) (show i + 8 + (left - 8) = b32.length by omega) (by omega)]
        rw [hbytes, Nat.add_assoc, ← hcount, Nat.zero_add]
      | skipPadding stop =>
        obtain ⟨hbytes, hcount⟩ := hconsume
        rw [hbytes, hcount left hwhole.2]
      | invalid stop =>
        obtain ⟨hbytes, hcount, hstop⟩ := hconsume
        have hnone : paddingLoop b32 stop left = stop := by
          rw [paddingLoop, skipPadding, if_pos hstop, ite_self]
        rw [hbytes, hcount]
        exact congrArg (Prod.mk bytes) hnone
    · have hshort : (b32.drop i).length < 8 := by
        rw [List.length_drop]
        omega
      rw [if_neg hwhole, paddingLoop, if_neg (by omega), base32Decode_end (.inl hshort)]
      rfl

/-- The two loops decode as one pass over the characters does. -/
theorem loadBase32String_eq (b32 : Bytes) : loadBase32String b32 = chopBase32StringToBuffer b32 := by
  have hwhole := groupLoop_eq (Nat.lt_succ_self b32.length) (Nat.zero_add _) (Nat.zero_mod 8)
  rw [List.drop_zero, Nat.zero_add] at hwhole
  exact hwhole

end Correctness

section Length

private theorem length_consumeQuintet {position : Nat} (hposition : position < 8) (value out : UInt8) :
    (consumeQuintet position value out).1.toList.length + 5 * position / 8 = 5 * (position + 1) / 8 := by
  interval_cases position <;> rfl

/-- Eight characters are read for five bytes, and none behind the string. -/
theorem base32Decode_length (b32 : Bytes) {position : Nat} (hposition : position < 8) (out : UInt8) :
    8 * ((base32Decode position out b32).1.length + 5 * position / 8) ≤
        5 * (position + (base32Decode position out b32).2) ∧
      (base32Decode position out b32).2 ≤ b32.length := by
  induction b32 generalizing position out with
  | nil =>
    refine ⟨?_, Nat.le_refl _⟩
    change 8 * (0 + 5 * position / 8) ≤ 5 * (position + 0)
    omega
  | cons c b32 ih =>
    rw [base32Decode]
    split
    · refine ⟨?_, Nat.zero_le _⟩
      change 8 * (0 + 5 * position / 8) ≤ 5 * (position + 0)
      omega
    · split
      · have hcount : (((c :: b32).take (8 - position)).takeWhile (· = base32Pad)).length ≤
            (c :: b32).length :=
          ((List.takeWhile_prefix _).length_le).trans (List.length_take_le' _ _)
        refine ⟨?_, hcount⟩
        change 8 * (0 + 5 * position / 8) ≤ 5 * (position + _)
        omega
      · split
        · refine ⟨?_, Nat.zero_le _⟩
          change 8 * (0 + 5 * position / 8) ≤ 5 * (position + 0)
          omega
        · have hbyte := length_consumeQuintet hposition (base32Value c) out
          obtain ⟨hbytes, hcount⟩ := ih (Nat.mod_lt (position + 1) (by decide : 8 > 0))
            (consumeQuintet position (base32Value c) out).2
          simp only [List.length_append, List.length_cons]
          rcases Nat.lt_or_ge (position + 1) 8 with hnext | hnext
          · rw [Nat.mod_eq_of_lt hnext] at hbytes hcount ⊢
            omega
          · obtain rfl : position = 7 := by omega
            omega

end Length

section LetterCase

private theorem toUpper_eq_pad (c : UInt8) : toUpper c = base32Pad ↔ c = base32Pad := by
  rw [toUpper]
  split
  · rename_i hletter
    have hupper : c - 32 = base32Pad → c = 93 := by
      intro h
      rw [← UInt8.sub_add_cancel c 32, h]
      rfl
    constructor
    · intro h
      rw [hupper h] at hletter
      exact absurd hletter (by decide)
    · intro h
      rw [h] at hletter
      exact absurd hletter (by decide)
  · rfl

/-- A letter and its other case are read the same way. -/
theorem base32Decode_letterCase {b32 b32' : Bytes} (h : b32.map toUpper = b32'.map toUpper) (position : Nat)
    (out : UInt8) : base32Decode position out b32 = base32Decode position out b32' := by
  induction b32 generalizing b32' position out with
  | nil =>
    obtain rfl : b32' = [] := List.map_eq_nil_iff.mp h.symm
    rfl
  | cons c b32 ih =>
    cases b32' with
    | nil => cases h
    | cons c' b32' =>
      obtain ⟨hc, hrest⟩ := List.cons.inj h
      have hlength : b32.length = b32'.length := by
        simpa only [List.length_map] using congrArg List.length hrest
      have hpad : c = base32Pad ↔ c' = base32Pad := by rw [← toUpper_eq_pad, hc, toUpper_eq_pad]
      have hskip (n : Nat) : (((c :: b32).take n).takeWhile (· = base32Pad)).length =
          (((c' :: b32').take n).takeWhile (· = base32Pad)).length := by
        have hupper (text : Bytes) : (text.takeWhile (· = base32Pad)).length =
            ((text.map toUpper).takeWhile (· = base32Pad)).length := by
          simp only [List.takeWhile_map, List.length_map, Function.comp_def, toUpper_eq_pad]
        rw [hupper, hupper ((c' :: b32').take n), List.map_take, List.map_take, h]
      have hbase : isBase32 c = isBase32 c' := by rw [isBase32, isBase32, hc]
      have hvalue : base32Value c = base32Value c' := by rw [base32Value, base32Value, hc]
      rw [base32Decode, base32Decode, hlength, hskip, hbase, hvalue]
      by_cases hpad' : c' = base32Pad
      · rw [if_pos hpad', if_pos (hpad.mpr hpad')]
      · rw [if_neg hpad', if_neg (mt hpad.mp hpad')]
        simp only [ih hrest]

end LetterCase

/-- A text that is empty or begins with neither a base32 character nor `=`. -/
def EndsText (text : Bytes) : Prop := ∀ c ∈ text.head?, isBase32 c = false ∧ c ≠ base32Pad

instance : (text : Bytes) → Decidable (EndsText text)
  | [] => isTrue nofun
  | c :: _ => decidable_of_iff (isBase32 c = false ∧ c ≠ base32Pad) (by simp [EndsText])

theorem EndsText.endsBase32 {text : Bytes} (h : EndsText text) : EndsBase32 text := by
  cases text with
  | nil => exact .inl (by decide)
  | cons c text =>
    obtain ⟨hbase, hpad⟩ := h c rfl
    exact .inr ⟨c, rfl, hpad, hbase⟩

/-- The characters of a base32 string before its padding. -/
def unpadded (b32 : Bytes) : Bytes := b32.filter (· ≠ base32Pad)

section Padding

variable {buffer : Bytes}

theorem unpadded_string (buffer : Bytes) :
    unpadded (chopBufferToBase32String buffer) = (base32Quintets buffer).map base32Char := by
  have hchars : ∀ c ∈ (base32Quintets buffer).map base32Char, decide (c ≠ base32Pad) = true := by
    intro c hc
    obtain ⟨value, hvalue, rfl⟩ := List.mem_map.mp hc
    exact decide_eq_true (base32Char_spec (base32Quintets_quintet hvalue)).2.1
  rw [unpadded, chopBufferToBase32String, List.filter_append, List.filter_eq_self.mpr hchars,
    List.filter_replicate]
  simp

/-- Only a last group of less than five bytes is padded. -/
theorem length_mod_of_pad_mem (h : base32Pad ∈ chopBufferToBase32String buffer) :
    buffer.length % 5 ≠ 0 := by
  intro hmod
  have hquintets : (base32Quintets buffer).length % 8 = 0 := by
    rw [length_base32Quintets]
    omega
  rw [chopBufferToBase32String, hquintets, if_neg (by decide), List.replicate_zero, List.append_nil] at h
  obtain ⟨value, hvalue, hpad⟩ := List.mem_map.mp h
  exact (base32Char_spec (base32Quintets_quintet hvalue)).2.1 hpad

/-- Without padding, the last group is read only if eight characters are left for it. -/
theorem chopBase32StringToBuffer_unpadded (buffer : Bytes) {rest : Bytes} (hrest : EndsText rest)
    (hgroup : buffer.length % 5 = 0 ∨ 8 ≤ (base32Quintets buffer).length % 8 + rest.length) :
    chopBase32StringToBuffer ((base32Quintets buffer).map base32Char ++ rest) =
      (buffer, (base32Quintets buffer).length) := by
  rw [chopBase32StringToBuffer]
  have hlast (buffer : Bytes) (hne : buffer ≠ []) (hshort : buffer.length < 5)
      (hgroup : buffer.length % 5 = 0 ∨ 8 ≤ (base32Quintets buffer).length % 8 + rest.length) :
      base32Decode 0 0 ((base32Quintets buffer).map base32Char ++ rest) =
        (buffer, (base32Quintets buffer).length) := by
    obtain ⟨hpos, hlt⟩ := length_base32Quintets_short hne hshort
    have hbuffer : 0 < buffer.length := List.length_pos_of_ne_nil hne
    have hlong : 8 ≤ (base32Quintets buffer).length + rest.length := by omega
    have hread := base32Decode_quintets (fun _ => base32Quintets_quintet) 0 0 rest (by omega)
      fun _ => hlong
    rw [Nat.zero_add, Nat.mod_eq_of_lt hlt, consumeQuintets_short hshort] at hread
    obtain ⟨c, rest, rfl⟩ := List.exists_cons_of_length_pos (show 0 < rest.length by omega)
    obtain ⟨hbase, hpad⟩ := hrest c rfl
    rw [base32Decode, if_neg (by omega), if_neg hpad, if_pos hbase, List.append_nil, Nat.zero_add] at hread
    exact hread
  fun_induction base32Quintets buffer with
  | case1 => exact base32Decode_end hrest.endsBase32 0
  | case2 b0 => exact hlast [b0] (by simp) (by simp) hgroup
  | case3 b0 b1 => exact hlast [b0, b1] (by simp) (by simp) hgroup
  | case4 b0 b1 b2 => exact hlast [b0, b1, b2] (by simp) (by simp) hgroup
  | case5 b0 b1 b2 b3 => exact hlast [b0, b1, b2, b3] (by simp) (by simp) hgroup
  | case6 b0 b1 b2 b3 b4 buffer ih =>
    have hlength : (base32Group b0 b1 b2 b3 b4).length = 8 := rfl
    rw [List.length_append, hlength] at hgroup ⊢
    simp only [List.length_cons] at hgroup
    rw [List.map_append, List.append_assoc, base32Decode_group, ih (by omega), Nat.add_comm]

/-- A last group that is too short is not read. -/
theorem chopBase32StringToBuffer_short (buffer : Bytes) {rest : Bytes} (hlast : buffer.length % 5 ≠ 0)
    (hgroup : (base32Quintets buffer).length % 8 + rest.length < 8) :
    (chopBase32StringToBuffer ((base32Quintets buffer).map base32Char ++ rest)).2 <
      (base32Quintets buffer).length := by
  rw [chopBase32StringToBuffer]
  have hnone (buffer : Bytes) (hne : buffer ≠ []) (hshort : buffer.length < 5)
      (hgroup : (base32Quintets buffer).length % 8 + rest.length < 8) :
      (base32Decode 0 0 ((base32Quintets buffer).map base32Char ++ rest)).2 <
        (base32Quintets buffer).length := by
    obtain ⟨hpos, hlt⟩ := length_base32Quintets_short hne hshort
    have hend : EndsBase32 ((base32Quintets buffer).map base32Char ++ rest) := by
      left
      rw [List.length_append, List.length_map]
      omega
    rw [base32Decode_end hend]
    exact hpos
  fun_induction base32Quintets buffer with
  | case1 => exact absurd rfl hlast
  | case2 b0 => exact hnone [b0] (by simp) (by simp) hgroup
  | case3 b0 b1 => exact hnone [b0, b1] (by simp) (by simp) hgroup
  | case4 b0 b1 b2 => exact hnone [b0, b1, b2] (by simp) (by simp) hgroup
  | case5 b0 b1 b2 b3 => exact hnone [b0, b1, b2, b3] (by simp) (by simp) hgroup
  | case6 b0 b1 b2 b3 b4 buffer ih =>
    have hlength : (base32Group b0 b1 b2 b3 b4).length = 8 := rfl
    rw [List.length_append, hlength] at hgroup ⊢
    simp only [List.length_cons] at hlast
    rw [List.map_append, List.append_assoc, base32Decode_group]
    have hrest := ih (by omega) (by omega)
    omega

end Padding

section RoundTrip

/-- The encoder writes the encoding of the RFC and a null character, and the decoder reads the encoding back
in any letter case, up to where it ends. -/
theorem base32_round_trip {buffer array : Bytes} (hshort : buffer.length < 2 ^ 29)
    (hroom : (rfc4648Base32 buffer).length < array.length) :
    (∀ fuel > buffer.length / 5, storeBase32String fuel buffer array =
      .done (rfc4648Base32 buffer ++ 0 :: array.drop ((rfc4648Base32 buffer).length + 1))) ∧
    ∀ text rest, text.map toUpper = (rfc4648Base32 buffer).map toUpper →
      base32Pad ∈ rfc4648Base32 buffer ∨ EndsText rest →
        loadBase32String (text ++ rest) = (buffer, text.length) := by
  have hlength := length_chopBufferToBase32String buffer
  rw [← chopBufferToBase32String_eq_rfc] at hroom ⊢
  constructor
  · intro fuel hfuel
    exact storeBase32String_eq hfuel (by omega) (by omega)
  · intro text rest htext hrest
    have hcase : (text ++ rest).map toUpper = (chopBufferToBase32String buffer ++ rest).map toUpper := by
      rw [List.map_append, List.map_append, htext]
    have hcount : text.length = (chopBufferToBase32String buffer).length := by
      simpa only [List.length_map] using congrArg List.length htext
    have hends : buffer.length % 5 = 0 → EndsBase32 rest := by
      intro hmod
      rcases hrest with hpad | hends
      · exact absurd hmod (length_mod_of_pad_mem hpad)
      · exact hends.endsBase32
    rw [loadBase32String_eq, chopBase32StringToBuffer, base32Decode_letterCase hcase, hcount]
    exact chopBase32StringToBuffer_padded buffer hends

theorem base32_round_trip_fo :
    (∀ fuel > 0, storeBase32String fuel (cString "fo") (List.replicate 9 255) =
      .done (cString "mzxq====" ++ [0])) ∧
    loadBase32String (cString "MzXq====" ++ cString "=garbage") = (cString "fo", 8) := by
  have hcode : rfc4648Base32 (cString "fo") = cString "mzxq====" :=
    (chopBufferToBase32String_eq_rfc (cString "fo")).symm.trans (by decide)
  have hroom : (rfc4648Base32 (cString "fo")).length < (List.replicate 9 (255 : UInt8)).length := by
    rw [hcode]
    decide
  have hround := base32_round_trip (show (cString "fo").length < 2 ^ 29 by decide) hroom
  rw [hcode] at hround
  exact ⟨hround.1, hround.2 (cString "MzXq====") (cString "=garbage") (by decide) (.inl (by decide))⟩

/-- Without its padding an encoding is read back just in case its last group is whole or what follows fills
it up to eight characters. -/
theorem unpadded_decodes_iff (buffer : Bytes) {rest : Bytes} (hrest : EndsText rest) :
    loadBase32String (unpadded (rfc4648Base32 buffer) ++ rest) =
        (buffer, (unpadded (rfc4648Base32 buffer)).length) ↔
      buffer.length % 5 = 0 ∨ 8 ≤ (8 * buffer.length + 4) / 5 % 8 + rest.length := by
  have hlength : (base32Quintets buffer).length = (8 * buffer.length + 4) / 5 := by
    rw [length_base32Quintets, Nat.mul_comm]
  rw [← chopBufferToBase32String_eq_rfc, unpadded_string, loadBase32String_eq, List.length_map, ← hlength]
  constructor
  · intro hread
    by_contra hgroup
    obtain ⟨hlast, hshort⟩ := not_or.mp hgroup
    have hless := chopBase32StringToBuffer_short buffer hlast (Nat.lt_of_not_le hshort)
    rw [hread] at hless
    exact absurd hless (Nat.lt_irrefl _)
  · exact chopBase32StringToBuffer_unpadded buffer hrest

theorem unpadded_decodes_iff_comma :
    loadBase32String (unpadded (rfc4648Base32 (cString "foobar")) ++ cString ",hello") =
        (cString "foobar", (unpadded (rfc4648Base32 (cString "foobar"))).length) ↔
      6 % 5 = 0 ∨ 8 ≤ (8 * 6 + 4) / 5 % 8 + 6 :=
  unpadded_decodes_iff (cString "foobar") (show EndsText (cString ",hello") by decide)

/-- An encoding without its padding is not read back at the end of a string. -/
theorem unpadded_f_not_decoded : ¬ ∀ buffer rest : Bytes, EndsText rest →
    loadBase32String (unpadded (rfc4648Base32 buffer) ++ rest) =
      (buffer, (unpadded (rfc4648Base32 buffer)).length) := by
  intro h
  have hread := h (cString "f") [] (by decide)
  rw [← chopBufferToBase32String_eq_rfc] at hread
  revert hread
  decide

end RoundTrip

end Libchop
