import Libchop.Framework.CText
import Mathlib.Data.List.TakeWhile

/-!
# How far scanners look

Scanners stop at the first character that does not belong to what they read.  A scanner that stops
inside a text reads the same whatever follows, and one that does not goes on into what follows.
-/

namespace CText

section Scanners

variable {p : UInt8 → Bool} {text : List UInt8}

theorem takeWhile_append_of_lt (h : (text.takeWhile p).length < text.length) (rest : List UInt8) :
    (text ++ rest).takeWhile p = text.takeWhile p := by
  rw [List.takeWhile_append, if_neg h.ne]

theorem takeWhile_append_of_not_lt (h : ¬ (text.takeWhile p).length < text.length)
    (rest : List UInt8) : (text ++ rest).takeWhile p = text ++ rest.takeWhile p := by
  have hle := (List.takeWhile_prefix p : text.takeWhile p <+: text).length_le
  rw [List.takeWhile_append, if_pos (by omega)]

theorem drop_append_of_le {n : Nat} (h : n ≤ text.length) (rest : List UInt8) :
    (text ++ rest).drop n = text.drop n ++ rest := List.drop_append_of_le_length h

end Scanners

/-- The first character after blanks. -/
def numberSign (text : List UInt8) : Option UInt8 :=
  (text.drop (text.takeWhile isSpace).length).head?

/-- Where a number begins, after blanks and a sign. -/
def numberStart (text : List UInt8) : Nat :=
  (text.takeWhile isSpace).length +
    if numberSign text = some 43 ∨ numberSign text = some 45 then 1 else 0

/-- The digits of a number, and where they begin. -/
def numberDigits (text : List UInt8) : Nat × List UInt8 :=
  let start := numberStart text + hexMark (text.drop (numberStart text))
  (start, (text.drop start).takeWhile isHexDigit)

/-- `strtoul` depends on the sign and on the digits. -/
theorem strtoul_eq (text : List UInt8) :
    strtoul text =
      if (numberDigits text).2 = [] then (0, 0)
      else if ofHexDigits (numberDigits text).2 ≥ 2 ^ 64 then
        (2 ^ 64 - 1, (numberDigits text).1 + (numberDigits text).2.length)
      else
        (if numberSign text = some 45 then (2 ^ 64 - ofHexDigits (numberDigits text).2) % 2 ^ 64
          else ofHexDigits (numberDigits text).2,
          (numberDigits text).1 + (numberDigits text).2.length) := rfl

theorem strtoul_snd (text : List UInt8) :
    (strtoul text).2 =
      if (numberDigits text).2 = [] then 0
      else (numberDigits text).1 + (numberDigits text).2.length := by
  rw [strtoul_eq]
  split
  · rfl
  · split
    · rfl
    · rfl

/-- The number of a text ends inside it: a character that does not belong to it follows, and it is
not left open whether the text ends with a mark. -/
def NumberEnds (text : List UInt8) : Prop :=
  (numberDigits text).1 + (numberDigits text).2.length < text.length ∧
    ∀ x, text.drop (numberStart text) = [48, x] → x ≠ 120 ∧ x ≠ 88

section Numbers

variable {text : List UInt8}

private theorem hexMark_le (number : List UInt8) : hexMark number ≤ number.length := by
  rw [hexMark.eq_def]
  split
  · split
    · simp
    · exact Nat.zero_le _
  · exact Nat.zero_le _

theorem numberDigits_le (h : numberStart text ≤ text.length) :
    (numberDigits text).1 + (numberDigits text).2.length ≤ text.length := by
  have hmark := hexMark_le (text.drop (numberStart text))
  have hdigits := (List.takeWhile_prefix isHexDigit :
    (text.drop (numberDigits text).1).takeWhile isHexDigit <+: _).length_le
  simp only [List.length_drop] at hmark hdigits
  simp only [numberDigits] at hdigits ⊢
  omega

private theorem blanks_le (text : List UInt8) : (text.takeWhile isSpace).length ≤ text.length :=
  (List.takeWhile_prefix isSpace : text.takeWhile isSpace <+: text).length_le

theorem numberStart_le (text : List UInt8) : numberStart text ≤ text.length := by
  have hblanks := blanks_le text
  simp only [numberStart]
  split
  · next hsign =>
    have hne : text.drop (text.takeWhile isSpace).length ≠ [] := by
      intro hnil
      rw [numberSign, hnil] at hsign
      simp at hsign
    have hlt := List.length_pos_of_ne_nil hne
    rw [List.length_drop] at hlt
    omega
  · omega

theorem strtoul_snd_le (text : List UInt8) : (strtoul text).2 ≤ text.length := by
  rw [strtoul_snd]
  split
  · exact Nat.zero_le _
  · exact numberDigits_le (numberStart_le text)

private theorem numberSign_append (h : (text.takeWhile isSpace).length < text.length)
    (rest : List UInt8) : numberSign (text ++ rest) = numberSign text := by
  have hne : text.drop (text.takeWhile isSpace).length ≠ [] := by
    rw [← List.length_pos_iff, List.length_drop]
    omega
  simp only [numberSign, takeWhile_append_of_lt h, drop_append_of_le h.le,
    List.head?_append_of_ne_nil _ hne]

private theorem numberStart_append (h : (text.takeWhile isSpace).length < text.length)
    (rest : List UInt8) : numberStart (text ++ rest) = numberStart text := by
  simp only [numberStart, numberSign_append h, takeWhile_append_of_lt h]

private theorem blanks_le_numberStart (text : List UInt8) :
    (text.takeWhile isSpace).length ≤ numberStart text := Nat.le_add_right _ _

private theorem hexMark_append {number : List UInt8} (hne : number ≠ [])
    (hends : hexMark number + ((number.drop (hexMark number)).takeWhile isHexDigit).length <
      number.length)
    (hopen : ∀ x, number = [48, x] → x ≠ 120 ∧ x ≠ 88) (rest : List UInt8) :
    hexMark (number ++ rest) = hexMark number := by
  match number, hne with
  | [a], _ =>
    have ha : a ≠ 48 := by
      rintro rfl
      exact absurd hends (by decide)
    match rest with
    | [] => rfl
    | [b] => rfl
    | b :: c :: rest => simp [hexMark, ha]
  | [a, b], _ =>
    match rest with
    | [] => rfl
    | c :: rest =>
      by_cases ha : a = 48
      · have hb := hopen b (by rw [ha])
        simp [hexMark, hb.1, hb.2]
      · simp [hexMark, ha]
  | a :: b :: c :: number, _ => rfl

private theorem hexMark_open {number : List UInt8} (hne : number ≠ [])
    (hdigits : (number.drop (hexMark number)).takeWhile isHexDigit =
      number.drop (hexMark number)) :
    hexMark (number ++ [49]) = hexMark number := by
  match number, hne with
  | [a], _ => rfl
  | [a, b], _ =>
    have hb : isHexDigit b = true := by
      have hall := List.takeWhile_eq_self_iff.mp hdigits
      exact hall b (List.mem_cons_of_mem _ (List.mem_singleton.mpr rfl))
    have hx : b ≠ 120 ∧ b ≠ 88 := by
      refine ⟨?_, ?_⟩
      · rintro rfl
        exact absurd hb (by decide)
      · rintro rfl
        exact absurd hb (by decide)
    simp [hexMark, hx.1, hx.2]
  | a :: b :: c :: number, _ => rfl

/-- A number that ends inside a text is read whatever follows. -/
theorem strtoul_append (h : NumberEnds text) (rest : List UInt8) :
    strtoul (text ++ rest) = strtoul text := by
  obtain ⟨hends, hopen⟩ := h
  simp only [numberDigits] at hends
  have hblanks : (text.takeWhile isSpace).length < text.length :=
    (blanks_le_numberStart text).trans_lt (by omega)
  have hne : text.drop (numberStart text) ≠ [] := by
    rw [← List.length_pos_iff, List.length_drop]
    omega
  have hmark : hexMark (text.drop (numberStart text) ++ rest) =
      hexMark (text.drop (numberStart text)) := by
    refine hexMark_append hne ?_ hopen rest
    rw [List.drop_drop, List.length_drop]
    omega
  have hlt : ((text.drop (numberDigits text).1).takeWhile isHexDigit).length <
      (text.drop (numberDigits text).1).length := by
    rw [List.length_drop]
    simp only [numberDigits]
    omega
  have hdigits : numberDigits (text ++ rest) = numberDigits text := by
    simp only [numberDigits] at hlt ⊢
    rw [numberStart_append hblanks, drop_append_of_le (numberStart_le text), hmark,
      drop_append_of_le (by omega), takeWhile_append_of_lt hlt]
  rw [strtoul_eq, strtoul_eq, hdigits, numberSign_append hblanks]

private theorem numberStart_open (h : numberStart text = text.length) :
    numberStart (text ++ [49]) = text.length := by
  by_cases hblanks : (text.takeWhile isSpace).length < text.length
  · rw [numberStart_append hblanks, h]
  · have hlength : ((text ++ [49]).takeWhile isSpace).length = text.length := by
      rw [takeWhile_append_of_not_lt hblanks]
      simp [isSpace]
    have hsign : numberSign (text ++ [49]) = some 49 := by
      rw [numberSign, hlength, List.drop_left]
      rfl
    rw [numberStart, hlength, hsign]
    rfl

private theorem numberDigits_open (h : ¬ NumberEnds text) :
    (numberDigits (text ++ [49])).2 ≠ [] ∧
      (numberDigits (text ++ [49])).1 + (numberDigits (text ++ [49])).2.length =
        text.length + 1 := by
  rcases (numberStart_le text).eq_or_lt with hstart | hstart
  · have hmark : hexMark [49] = 0 := rfl
    simp only [numberDigits, numberStart_open hstart, List.drop_left, hmark, Nat.add_zero]
    exact ⟨by decide, rfl⟩
  · have hblanks := (blanks_le_numberStart text).trans_lt hstart
    have hne : text.drop (numberStart text) ≠ [] := by
      rw [← List.length_pos_iff, List.length_drop]
      omega
    by_cases hopen : ∀ x, text.drop (numberStart text) = [48, x] → x ≠ 120 ∧ x ≠ 88
    · have hle := numberDigits_le (numberStart_le text)
      have hend : ¬ (numberDigits text).1 + (numberDigits text).2.length < text.length :=
        fun hends => h ⟨hends, hopen⟩
      simp only [numberDigits] at hle hend
      have hall : ¬ ((text.drop (numberDigits text).1).takeWhile isHexDigit).length <
          (text.drop (numberDigits text).1).length := by
        simp only [numberDigits, List.length_drop]
        omega
      have hself : (text.drop (numberDigits text).1).takeWhile isHexDigit =
          text.drop (numberDigits text).1 :=
        (List.takeWhile_prefix isHexDigit).eq_of_length_le (Nat.le_of_not_lt hall)
      simp only [numberDigits] at hself hall ⊢
      rw [numberStart_append hblanks, drop_append_of_le hstart.le,
        hexMark_open hne (by rw [List.drop_drop]; exact hself), drop_append_of_le (by omega),
        takeWhile_append_of_not_lt hall]
      simp only [List.length_append, List.length_drop]
      refine ⟨by simp [isHexDigit, hexValue], ?_⟩
      simp [isHexDigit, hexValue]
      omega
    · push Not at hopen
      obtain ⟨x, hnumber, hx⟩ := hopen
      have hlength := congrArg List.length hnumber
      rw [List.length_drop] at hlength
      have hmark : hexMark ([48, x] ++ [49]) = 2 := by
        by_cases h120 : x = 120
        · rw [h120]
          decide
        · rw [hx h120]
          decide
      simp only [numberDigits]
      rw [numberStart_append hblanks, drop_append_of_le hstart.le, hnumber, hmark,
        ← List.drop_drop, drop_append_of_le hstart.le, hnumber]
      refine ⟨by simp [isHexDigit, hexValue], ?_⟩
      simp at hlength
      simp [isHexDigit, hexValue]
      omega

/-- A number that does not end inside a text goes on with a digit that follows. -/
theorem strtoul_open (h : ¬ NumberEnds text) : (strtoul (text ++ [49])).2 = text.length + 1 := by
  obtain ⟨hne, hlength⟩ := numberDigits_open h
  rw [strtoul_snd, if_neg hne, hlength]

end Numbers

end CText
