import Mathlib.Data.Nat.Digits.Lemmas

/-!
# Text in C

Characters and numbers as functions of the C library find, print and read them.  A text ends with a
null character or with the list.
-/

namespace CText

def comma : UInt8 := 44

def slash : UInt8 := 47

def colon : UInt8 := 58

def isSpace (c : UInt8) : Bool := c = 32 || (9 ≤ c && c ≤ 13)

def isPunct (c : UInt8) : Bool :=
  (33 ≤ c && c ≤ 47) || (58 ≤ c && c ≤ 64) || (91 ≤ c && c ≤ 96) || (123 ≤ c && c ≤ 126)

def isAlnum (c : UInt8) : Bool := (48 ≤ c && c ≤ 57) || (65 ≤ c && c ≤ 90) || (97 ≤ c && c ≤ 122)

/-- The position of a character. -/
def strchr (wanted : UInt8) : List UInt8 → Option Nat
  | [] => none
  | c :: text =>
    if c = wanted then some 0
    else if c = 0 then none
    else (strchr wanted text).map (· + 1)

theorem strchr_append {wanted : UInt8} {before : List UInt8}
    (h : ∀ c ∈ before, c ≠ wanted ∧ c ≠ 0) (rest : List UInt8) :
    strchr wanted (before ++ wanted :: rest) = some before.length := by
  induction before with
  | nil => simp [strchr]
  | cons c before ih =>
    obtain ⟨⟨hwanted, hzero⟩, hbefore⟩ := List.forall_mem_cons.mp h
    rw [List.cons_append, strchr, if_neg hwanted, if_neg hzero, ih hbefore]
    rfl

theorem strchr_lt {wanted : UInt8} {text : List UInt8} {i : Nat} (h : strchr wanted text = some i) :
    i < text.length := by
  induction text generalizing i with
  | nil => cases h
  | cons c text ih =>
    rw [strchr] at h
    split at h
    · cases h
      exact Nat.succ_pos _
    · split at h
      · cases h
      · obtain ⟨j, hj, rfl⟩ := Option.map_eq_some_iff.mp h
        exact Nat.succ_lt_succ (ih hj)

/-- The position of a character among the first bytes, null characters or not. -/
def memchr (wanted : UInt8) (text : List UInt8) (size : Nat) : Option Nat :=
  (text.take size).findIdx? (· = wanted)

theorem memchr_append {wanted : UInt8} {before : List UInt8} (h : wanted ∉ before)
    (rest : List UInt8) {size : Nat} (hsize : before.length < size) :
    memchr wanted (before ++ wanted :: rest) size = some before.length := by
  have hnone : before.findIdx? (· = wanted) = none := by
    rw [List.findIdx?_eq_none_iff]
    intro c hc
    exact decide_eq_false fun heq => h (heq ▸ hc)
  obtain ⟨more, rfl⟩ : ∃ more, size = before.length + (more + 1) :=
    ⟨size - before.length - 1, by omega⟩
  rw [memchr, List.take_length_add_append, List.take_succ_cons, List.findIdx?_append, hnone,
    List.findIdx?_cons]
  simp

/-- The characters up to a null, punctuation or white-space character. -/
def token (text : List UInt8) : List UInt8 :=
  text.takeWhile fun c => c ≠ 0 && !isPunct c && !isSpace c

theorem token_append {name : List UInt8}
    (h : ∀ c ∈ name, (c ≠ 0 && !isPunct c && !isSpace c) = true) {stop : UInt8}
    (hstop : isPunct stop = true) (rest : List UInt8) : token (name ++ stop :: rest) = name := by
  rw [token, List.takeWhile_append_of_pos h, List.takeWhile_cons_of_neg (by simp [hstop]),
    List.append_nil]

theorem drop_past (before : List UInt8) (c : UInt8) (rest : List UInt8) :
    (before ++ c :: rest).drop (before.length + 1) = rest := by
  rw [List.drop_append, List.drop_of_length_le (Nat.le_succ _), Nat.add_sub_cancel_left]
  rfl

/-- What stands before a character, and what stands after it. -/
def splitAt (wanted : UInt8) (text : List UInt8) : Option (List UInt8 × List UInt8) :=
  (strchr wanted text).map fun i => (text.take i, text.drop (i + 1))

theorem splitAt_append {wanted : UInt8} {before : List UInt8}
    (h : ∀ c ∈ before, c ≠ wanted ∧ c ≠ 0) (rest : List UInt8) :
    splitAt wanted (before ++ wanted :: rest) = some (before, rest) := by
  rw [splitAt, strchr_append h, Option.map_some, List.take_left, drop_past]

def hexValue (c : UInt8) : Option Nat :=
  if 48 ≤ c ∧ c ≤ 57 then some (c.toNat - 48)
  else if 97 ≤ c ∧ c ≤ 102 then some (c.toNat - 87)
  else if 65 ≤ c ∧ c ≤ 70 then some (c.toNat - 55)
  else none

def isHexDigit (c : UInt8) : Bool := (hexValue c).isSome

def ofHexDigits (digits : List UInt8) : Nat :=
  digits.foldl (fun n c => 16 * n + (hexValue c).getD 0) 0

def hexMark : List UInt8 → Nat
  | zero :: x :: digit :: _ => if zero = 48 ∧ (x = 120 ∨ x = 88) ∧ isHexDigit digit then 2 else 0
  | _ => 0

/-- `strtoul` in base 16, with the position after the number.  There is a sign or not, and numbers
that do not fit are the greatest one. -/
def strtoul (text : List UInt8) : Nat × Nat :=
  let blanks := (text.takeWhile isSpace).length
  let sign := (text.drop blanks).head?
  let signLength := if sign = some 43 ∨ sign = some 45 then 1 else 0
  let start := blanks + signLength + hexMark (text.drop (blanks + signLength))
  let digits := (text.drop start).takeWhile isHexDigit
  let value := ofHexDigits digits
  if digits = [] then (0, 0)
  else if value ≥ 2 ^ 64 then (2 ^ 64 - 1, start + digits.length)
  else (if sign = some 45 then (2 ^ 64 - value) % 2 ^ 64 else value, start + digits.length)

/-- A number ends before this. -/
def EndsNumber (rest : List UInt8) : Prop :=
  ∀ c, rest.head? = some c → isHexDigit c = false ∧ c ≠ 120 ∧ c ≠ 88

private theorem isHexDigit_not_special {c : UInt8} (h : isHexDigit c = true) :
    isSpace c = false ∧ c ≠ 43 ∧ c ≠ 45 ∧ c ≠ 120 ∧ c ≠ 88 := by
  simp only [isHexDigit, hexValue] at h
  simp only [isSpace]
  grind

private theorem hexMark_digits {digits rest : List UInt8} (hdigits : ∀ c ∈ digits, isHexDigit c = true)
    (hne : digits ≠ []) (hrest : EndsNumber rest) : hexMark (digits ++ rest) = 0 := by
  have hsecond : ∀ x, (digits ++ rest)[1]? = some x → x ≠ 120 ∧ x ≠ 88 := by
    intro x hx
    match digits, hne with
    | [c], _ =>
      have hhead : rest.head? = some x := by simpa [List.head?_eq_getElem?] using hx
      exact (hrest x hhead).2
    | c :: d :: _, _ =>
      cases hx
      exact (isHexDigit_not_special (hdigits _ (by simp))).2.2.2
  rw [hexMark.eq_def]
  split
  · next zero x digit text heq =>
    rw [heq] at hsecond
    have hx := hsecond x rfl
    rw [if_neg]
    rintro ⟨-, hmark | hmark, -⟩
    · exact hx.1 hmark
    · exact hx.2 hmark
  · rfl

theorem strtoul_digits {digits rest : List UInt8} (hdigits : ∀ c ∈ digits, isHexDigit c = true)
    (hne : digits ≠ []) (hrest : EndsNumber rest) (hfits : ofHexDigits digits < 2 ^ 64) :
    strtoul (digits ++ rest) = (ofHexDigits digits, digits.length) := by
  have hblanks : (digits ++ rest).takeWhile isSpace = [] := by
    cases digits with
    | nil => exact (hne rfl).elim
    | cons c digits =>
      rw [List.cons_append, List.takeWhile_cons_of_neg]
      simp [(isHexDigit_not_special (hdigits c List.mem_cons_self)).1]
  have hsign : (digits ++ rest).head? ≠ some 43 ∧ (digits ++ rest).head? ≠ some 45 := by
    cases digits with
    | nil => exact (hne rfl).elim
    | cons c digits =>
      have hc := isHexDigit_not_special (hdigits c List.mem_cons_self)
      simp [hc.2.1, hc.2.2.1]
  have htake : (digits ++ rest).takeWhile isHexDigit = digits := by
    rw [List.takeWhile_append_of_pos hdigits]
    cases rest with
    | nil => simp
    | cons c rest => rw [List.takeWhile_cons_of_neg (by simp [(hrest c rfl).1]), List.append_nil]
  simp only [strtoul, hblanks, List.length_nil, List.drop_zero, hsign.1, hsign.2, or_self, if_false,
    Nat.add_zero, hexMark_digits hdigits hne hrest, htake, hne, Nat.not_le.mpr hfits, Nat.zero_add]

def hexChar (d : Nat) : UInt8 := if d < 10 then UInt8.ofNat (48 + d) else UInt8.ofNat (87 + d)

/-- What `%x` prints. -/
def hexDigits (n : Nat) : List UInt8 :=
  if n = 0 then [48] else (Nat.digits 16 n).reverse.map hexChar

/-- What `%0*x` prints. -/
def hexDigitsWide (width n : Nat) : List UInt8 :=
  List.replicate (width - (hexDigits n).length) 48 ++ hexDigits n

private theorem hexValue_hexChar : ∀ d < 16, hexValue (hexChar d) = some d := by decide

private theorem isHexDigit_hexChar {d : Nat} (h : d < 16) : isHexDigit (hexChar d) = true := by
  rw [isHexDigit, hexValue_hexChar d h]
  rfl

theorem hexDigits_ne_nil (n : Nat) : hexDigits n ≠ [] := by
  rw [hexDigits]
  split
  · exact List.cons_ne_nil _ _
  · next hn => simpa [Nat.digits_eq_nil_iff_eq_zero] using hn

theorem isHexDigit_of_mem_hexDigits {n : Nat} {c : UInt8} (h : c ∈ hexDigits n) :
    isHexDigit c = true := by
  rw [hexDigits] at h
  split at h
  · rw [List.mem_singleton.mp h]
    rfl
  · obtain ⟨d, hd, rfl⟩ := List.mem_map.mp h
    exact isHexDigit_hexChar (Nat.digits_lt_base (by decide) (List.mem_reverse.mp hd))

private theorem foldl_hexChar (digits : List Nat) (h : ∀ d ∈ digits, d < 16) :
    ofHexDigits (digits.reverse.map hexChar) = Nat.ofDigits 16 digits := by
  rw [ofHexDigits, List.map_reverse, List.foldl_reverse]
  induction digits with
  | nil => rfl
  | cons d digits ih =>
    obtain ⟨hd, hdigits⟩ := List.forall_mem_cons.mp h
    rw [List.map_cons, List.foldr_cons, ih hdigits, hexValue_hexChar d hd, Nat.ofDigits_cons,
      Option.getD_some, Nat.add_comm]

theorem ofHexDigits_hexDigits (n : Nat) : ofHexDigits (hexDigits n) = n := by
  rw [hexDigits]
  split
  · next hn =>
    rw [hn]
    rfl
  · rw [foldl_hexChar _ fun d hd => Nat.digits_lt_base (by decide) hd, Nat.ofDigits_digits]

theorem length_hexDigits_le {n k : Nat} (hk : 0 < k) (hn : n < 16 ^ k) :
    (hexDigits n).length ≤ k := by
  rw [hexDigits]
  split
  · exact hk
  · rw [List.length_map, List.length_reverse]
    exact (Nat.digits_length_le_iff (by decide) n).mpr hn

theorem strtoul_hexDigits {n : Nat} (hn : n < 2 ^ 64) {rest : List UInt8} (hrest : EndsNumber rest) :
    strtoul (hexDigits n ++ rest) = (n, (hexDigits n).length) := by
  have hvalue := ofHexDigits_hexDigits n
  rw [strtoul_digits (fun _ => isHexDigit_of_mem_hexDigits) (hexDigits_ne_nil n) hrest
    (by rw [hvalue]; exact hn), hvalue]

theorem ofHexDigits_hexDigitsWide (width n : Nat) : ofHexDigits (hexDigitsWide width n) = n := by
  have hzeros : ∀ zeros : Nat, ofHexDigits (List.replicate zeros 48) = 0 := by
    intro zeros
    induction zeros with
    | zero => rfl
    | succ zeros ih =>
      rw [List.replicate_succ', ofHexDigits, List.foldl_append]
      show 16 * ofHexDigits (List.replicate zeros 48) + 0 = 0
      rw [ih]
  rw [hexDigitsWide, ofHexDigits, List.foldl_append]
  show (hexDigits n).foldl _ (ofHexDigits (List.replicate _ 48)) = n
  rw [hzeros]
  exact ofHexDigits_hexDigits n

theorem isHexDigit_of_mem_hexDigitsWide {width n : Nat} {c : UInt8}
    (h : c ∈ hexDigitsWide width n) : isHexDigit c = true := by
  rcases List.mem_append.mp h with hzero | hdigit
  · rw [List.eq_of_mem_replicate hzero]
    rfl
  · exact isHexDigit_of_mem_hexDigits hdigit

theorem length_hexDigitsWide {width n : Nat} (hwidth : 0 < width) (hn : n < 16 ^ width) :
    (hexDigitsWide width n).length = width := by
  have hle := length_hexDigits_le hwidth hn
  rw [hexDigitsWide, List.length_append, List.length_replicate]
  omega

theorem strtoul_hexDigitsWide {n : Nat} (hn : n < 2 ^ 64) (width : Nat) {rest : List UInt8}
    (hrest : EndsNumber rest) :
    strtoul (hexDigitsWide width n ++ rest) = (n, (hexDigitsWide width n).length) := by
  have hvalue := ofHexDigits_hexDigitsWide width n
  have hne : hexDigitsWide width n ≠ [] :=
    fun hnil => hexDigits_ne_nil n (List.append_eq_nil_iff.mp hnil).2
  rw [strtoul_digits (fun _ => isHexDigit_of_mem_hexDigitsWide) hne hrest
    (by rw [hvalue]; exact hn), hvalue]

end CText
