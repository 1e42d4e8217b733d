import Mathlib.Init
import Mathlib.Tactic.Common

/-!
# S-expressions and their written form

The data a Scheme program writes with `write` and reads back with `read`.  Symbols come from a
type that knows their names.  `SexpPort` is what is relied on of the two procedures; `plainPort`
writes strings with the two escapes that printable characters need.
-/

/-- The names of the symbols of a program, which are identifiers. -/
class SymbolNames (S : Type) where
  name : S → List Char
  ofName : List Char → Option S
  ofName_name : ∀ s, ofName (name s) = some s
  head_isAlpha : ∀ s, ∃ c cs, name s = c :: cs ∧ c.isAlpha
  symbolChars : ∀ s, ∀ c ∈ name s, c.isAlphanum || c = '-'

inductive Atom (S : Type) where
  | symbol (s : S)
  | string (s : String)
  | integer (n : Int)
  | boolean (b : Bool)
deriving DecidableEq, Repr

inductive Sexp (S : Type) where
  | nil
  | pair (car cdr : Sexp S)
  | atom (a : Atom S)
deriving DecidableEq, Repr

/-- Writing and reading data through bytes. -/
structure SexpPort (S : Type) where
  write : Sexp S → List UInt8
  read : List UInt8 → Option (Sexp S)
  read_write : ∀ exp, read (write exp) = some exp
  write_ne_nil : ∀ exp, write exp ≠ []

namespace Sexp

variable {S : Type}

def ofList : List (Sexp S) → Sexp S
  | [] => .nil
  | x :: xs => .pair x (ofList xs)

def toList? : Sexp S → Option (List (Sexp S))
  | .nil => some []
  | .pair x xs => (toList? xs).map (x :: ·)
  | .atom _ => none

@[simp] theorem toList?_ofList (xs : List (Sexp S)) : toList? (ofList xs) = some xs := by
  induction xs with
  | nil => rfl
  | cons x xs ih => simp [ofList, toList?, ih]

section Write

variable [SymbolNames S]

def escapeChar (c : Char) : List Char := if c = '"' ∨ c = '\\' then ['\\', c] else [c]

def writeAtom : Atom S → List Char
  | .symbol s => SymbolNames.name s
  | .string s => '"' :: (s.toList.flatMap escapeChar ++ ['"'])
  | .integer (.ofNat n) => Nat.toDigits 10 n
  | .integer (.negSucc n) => '-' :: Nat.toDigits 10 (n + 1)
  | .boolean b => ['#', if b then 't' else 'f']

/-- The text of a datum, or of the rest of a list. -/
def writeChars : Bool → Sexp S → List Char
  | false, .nil => ['(', ')']
  | true, .nil => [')']
  | tail, .pair a d => (if tail then ' ' else '(') :: (writeChars false a ++ writeChars true d)
  | false, .atom a => writeAtom a
  | true, .atom a => ' ' :: '.' :: ' ' :: (writeAtom a ++ [')'])

def skipSpaces (cs : List Char) : List Char := cs.dropWhile fun c => c = ' ' ∨ c = '\n'

/-- The characters of a string up to its closing quote, and what follows it. -/
def readString : List Char → Option (List Char × List Char)
  | [] => none
  | c :: cs =>
    if c = '"' then some ([], cs)
    else if c = '\\' then
      match cs with
      | [] => none
      | d :: cs => (readString cs).map fun (s, rest) => (d :: s, rest)
    else
      (readString cs).map fun (s, rest) => (c :: s, rest)

def symbolChar (c : Char) : Bool := c.isAlphanum || c = '-'

def readBoolean : List Char → Option (Atom S × List Char)
  | [] => none
  | c :: cs =>
    if c = 't' then some (.boolean true, cs)
    else if c = 'f' then some (.boolean false, cs)
    else none

def readAtom : List Char → Option (Atom S × List Char)
  | [] => none
  | c :: cs =>
    if c = '"' then (readString cs).map fun (s, rest) => (.string (String.ofList s), rest)
    else if c = '#' then readBoolean cs
    else if c = '-' then
      some (.integer (-Nat.ofDigitChars 10 (cs.takeWhile Char.isDigit) 0), cs.dropWhile Char.isDigit)
    else if c.isDigit then
      some (.integer (Nat.ofDigitChars 10 ((c :: cs).takeWhile Char.isDigit) 0),
        (c :: cs).dropWhile Char.isDigit)
    else
      (SymbolNames.ofName ((c :: cs).takeWhile symbolChar)).map fun s =>
        (.symbol s, (c :: cs).dropWhile symbolChar)

/-- Reads a datum, or the rest of a list. -/
def readChars : Nat → Bool → List Char → Option (Sexp S × List Char)
  | 0, _, _ => none
  | fuel + 1, false, cs =>
    match skipSpaces cs with
    | [] => none
    | c :: cs =>
      if c = '(' then readChars fuel true cs
      else (readAtom (c :: cs)).map fun (a, rest) => (.atom a, rest)
  | fuel + 1, true, cs =>
    match skipSpaces cs with
    | [] => none
    | c :: cs =>
      if c = ')' then some (.nil, cs)
      else if c = '.' then
        match readChars fuel false cs with
        | some (d, cs) =>
          if (skipSpaces cs).head? = some ')' then some (d, (skipSpaces cs).tail) else none
        | none => none
      else
        match readChars fuel false (c :: cs) with
        | some (a, cs) => (readChars fuel true cs).map fun (d, rest) => (.pair a d, rest)
        | none => none

/-- What may follow an atom. -/
def Delimited (rest : List Char) : Prop := ∀ c ∈ rest.head?, c = ' ' ∨ c = ')'

omit [SymbolNames S] in
private theorem span_append {p : Char → Bool} {xs rest : List Char} (hxs : ∀ c ∈ xs, p c = true)
    (hrest : ∀ c ∈ rest.head?, p c = false) :
    (xs ++ rest).takeWhile p = xs ∧ (xs ++ rest).dropWhile p = rest := by
  induction xs with
  | nil =>
    cases rest with
    | nil => exact ⟨rfl, rfl⟩
    | cons c rest =>
      have hc : p c = false := hrest c rfl
      simp [hc]
  | cons x xs ih =>
    have hx : p x = true := hxs x List.mem_cons_self
    have hrec := ih fun c hc => hxs c (List.mem_cons_of_mem x hc)
    simp [hx, hrec.1, hrec.2]

private theorem readString_escape (cs rest : List Char) :
    readString (cs.flatMap escapeChar ++ '"' :: rest) = some (cs, rest) := by
  induction cs with
  | nil =>
    unfold readString
    simp
  | cons c cs ih =>
    rw [List.flatMap_cons, List.append_assoc, escapeChar]
    by_cases hescape : c = '"' ∨ c = '\\'
    · rw [if_pos hescape]
      simp [readString, ih]
    · rw [if_neg hescape]
      rw [not_or] at hescape
      unfold readString
      simp [ih, hescape.1, hescape.2]

private theorem span_digits (n : Nat) {rest : List Char} (hrest : Delimited rest) :
    (Nat.toDigits 10 n ++ rest).takeWhile Char.isDigit = Nat.toDigits 10 n ∧
      (Nat.toDigits 10 n ++ rest).dropWhile Char.isDigit = rest := by
  apply span_append
  · intro c hc
    exact Nat.isDigit_of_mem_toDigits (by decide) (by decide) hc
  · intro c hc
    cases hrest c hc with
    | inl h => rw [h]; rfl
    | inr h => rw [h]; rfl

private theorem toDigits_head (n : Nat) :
    ∃ c cs, Nat.toDigits 10 n = c :: cs ∧ c.isDigit := by
  cases hdigits : Nat.toDigits 10 n with
  | nil => exact (Nat.toDigits_ne_nil hdigits).elim
  | cons c cs =>
    refine ⟨c, cs, rfl, Nat.isDigit_of_mem_toDigits (b := 10) (n := n) (by decide) (by decide) ?_⟩
    rw [hdigits]
    exact List.mem_cons_self

/-- The characters that do not start an atom. -/
private def separators : List Char := [' ', '\n', '(', ')', '.']

private theorem not_separator {p : Char → Bool} (hp : separators.any p = false) {c : Char}
    (hc : p c = true) : c ∉ separators := by
  intro hmem
  rw [List.any_eq_false] at hp
  exact hp c hmem hc

private theorem writeAtom_head (a : Atom S) : ∃ c cs, writeAtom a = c :: cs ∧ c ∉ separators := by
  cases a with
  | symbol s =>
    obtain ⟨c, cs, hname, halpha⟩ := SymbolNames.head_isAlpha s
    exact ⟨c, cs, hname, not_separator (by decide) halpha⟩
  | string s => exact ⟨_, _, rfl, by decide⟩
  | integer n =>
    cases n with
    | ofNat n =>
      obtain ⟨c, cs, hdigits, hdigit⟩ := toDigits_head n
      exact ⟨c, cs, hdigits, not_separator (by decide) hdigit⟩
    | negSucc n => exact ⟨_, _, rfl, by decide⟩
  | boolean b => exact ⟨_, _, rfl, by decide⟩

private theorem isDigit_of_isAlpha {c : Char} (h : c.isAlpha = true) : c.isDigit = false := by
  delta Char.isAlpha Char.isUpper Char.isLower at h
  simp only [Bool.or_eq_true, Bool.and_eq_true, decide_eq_true_eq, UInt32.le_iff_toNat_le,
    ge_iff_le] at h
  simp only [Char.isDigit, Bool.and_eq_false_iff, decide_eq_false_iff_not, UInt32.le_iff_toNat_le,
    ge_iff_le]
  have : 'A'.val.toNat = 65 := rfl
  have : 'a'.val.toNat = 97 := rfl
  have : '9'.val.toNat = 57 := rfl
  omega

private theorem readAtom_symbol (s : S) {rest : List Char} (hrest : Delimited rest) :
    readAtom (SymbolNames.name s ++ rest) = some (.symbol s, rest) := by
  obtain ⟨c, cs, hname, halpha⟩ := SymbolNames.head_isAlpha s
  have hspan : (SymbolNames.name s ++ rest).takeWhile symbolChar = SymbolNames.name s ∧
      (SymbolNames.name s ++ rest).dropWhile symbolChar = rest := by
    apply span_append
    · exact SymbolNames.symbolChars s
    · intro c hc
      cases hrest c hc with
      | inl h => rw [h]; rfl
      | inr h => rw [h]; rfl
  have hother : ∀ d : Char, d.isAlpha = false → c ≠ d := by
    intro d hd heq
    rw [heq, hd] at halpha
    cases halpha
  have hdigit : c.isDigit = false := isDigit_of_isAlpha halpha
  rw [hname, List.cons_append] at hspan ⊢
  rw [readAtom, if_neg (hother _ rfl), if_neg (hother _ rfl), if_neg (hother _ rfl), hdigit,
    if_neg Bool.false_ne_true, hspan.1, hspan.2, ← hname, SymbolNames.ofName_name]
  rfl

private theorem readAtom_digits (n : Nat) {rest : List Char} (hrest : Delimited rest) :
    readAtom (Nat.toDigits 10 n ++ rest) = some (Atom.integer n, rest) (α := Atom S × List Char) := by
  obtain ⟨htake, hdrop⟩ := span_digits n hrest
  obtain ⟨c, cs, hdigits, hdigit⟩ := toDigits_head n
  have hother : ∀ d : Char, d.isDigit = false → c ≠ d := by
    intro d hd heq
    rw [heq, hd] at hdigit
    cases hdigit
  rw [hdigits, List.cons_append] at htake hdrop ⊢
  rw [readAtom, if_neg (hother _ rfl), if_neg (hother _ rfl), if_neg (hother _ rfl), if_pos hdigit,
    htake, hdrop, ← hdigits, Nat.ofDigitChars_ten_toDigits]

theorem readAtom_writeAtom (a : Atom S) {rest : List Char} (hrest : Delimited rest) :
    readAtom (writeAtom a ++ rest) = some (a, rest) := by
  cases a with
  | symbol s => exact readAtom_symbol s hrest
  | string s => simp [writeAtom, readAtom, readString_escape]
  | integer n =>
    cases n with
    | ofNat n => exact readAtom_digits n hrest
    | negSucc n =>
      obtain ⟨htake, hdrop⟩ := span_digits (n + 1) hrest
      simp [writeAtom, readAtom, htake, hdrop, Int.negSucc_eq]
  | boolean b => cases b <;> simp [writeAtom, readAtom, readBoolean]

/-- A fuel for the text of a datum, or of the rest of a list. -/
def steps : Bool → Sexp S → Nat
  | tail, .nil => if tail then 1 else 2
  | tail, .pair a d => (if tail then 1 else 2) + steps false a + steps true d
  | tail, .atom _ => if tail then 2 else 1

private theorem writeChars_head (exp : Sexp S) :
    ∃ c cs, writeChars false exp = c :: cs ∧ c ∉ [' ', '\n', ')', '.'] := by
  cases exp with
  | nil => exact ⟨_, _, rfl, by decide⟩
  | pair a d => exact ⟨_, _, rfl, by decide⟩
  | atom a =>
    obtain ⟨c, cs, hatom, hc⟩ := writeAtom_head a
    refine ⟨c, cs, hatom, ?_⟩
    intro hmem
    apply hc
    simp only [List.mem_cons, List.not_mem_nil, or_false, separators] at hmem ⊢
    tauto

private theorem delimited_tail (exp : Sexp S) (rest : List Char) :
    Delimited (writeChars true exp ++ rest) := by
  intro c hc
  cases exp with
  | nil => exact .inr (Option.some.inj hc).symm
  | pair a d => exact .inl (Option.some.inj hc).symm
  | atom a => exact .inl (Option.some.inj hc).symm

private theorem skipSpaces_cons {c : Char} (hspace : c ≠ ' ') (hnewline : c ≠ '\n')
    (cs : List Char) : skipSpaces (c :: cs) = c :: cs := by
  simp [skipSpaces, hspace, hnewline]

private theorem skipSpaces_space (cs : List Char) : skipSpaces (' ' :: cs) = skipSpaces cs := by
  simp [skipSpaces]

private theorem readChars_item {fuel : Nat} {a d : Sexp S} {text rest : List Char}
    (ha : readChars fuel false (writeChars false a ++ text) = some (a, text))
    (hd : readChars fuel true text = some (d, rest)) {cs : List Char}
    (hcs : skipSpaces cs = skipSpaces (writeChars false a ++ text)) :
    readChars (fuel + 1) true cs = some (.pair a d, rest) := by
  obtain ⟨c, cs', hwrite, hc⟩ := writeChars_head a
  simp only [List.mem_cons, List.not_mem_nil, or_false, not_or] at hc
  rw [hwrite, List.cons_append] at ha hcs
  rw [skipSpaces_cons hc.1 hc.2.1] at hcs
  rw [readChars, hcs]
  simp [hc.2.2.1, hc.2.2.2, ha, hd]

private theorem readChars_atom {fuel : Nat} (a : Atom S) {rest : List Char}
    (hrest : Delimited rest) {cs : List Char}
    (hcs : skipSpaces cs = skipSpaces (writeAtom a ++ rest)) :
    readChars (fuel + 1) false cs = some (.atom a, rest) := by
  obtain ⟨c, cs', hwrite, hc⟩ := writeAtom_head a
  have hread := readAtom_writeAtom a hrest
  simp only [separators, List.mem_cons, List.not_mem_nil, or_false, not_or] at hc
  rw [hwrite, List.cons_append] at hcs hread
  rw [skipSpaces_cons hc.1 hc.2.1] at hcs
  rw [readChars, hcs]
  simp [hc.2.2.1, hread]

/-- What is written is read back, with what followed it. -/
theorem readChars_writeChars (exp : Sexp S) :
    (∀ fuel rest, steps false exp ≤ fuel → Delimited rest →
      readChars fuel false (writeChars false exp ++ rest) = some (exp, rest)) ∧
    ∀ fuel rest, steps true exp ≤ fuel →
      readChars fuel true (writeChars true exp ++ rest) = some (exp, rest) := by
  induction exp with
  | nil =>
    constructor
    · intro fuel rest hfuel _
      obtain ⟨fuel, rfl⟩ : ∃ k, fuel = k + 2 := Nat.exists_eq_add_of_le' hfuel
      simp [readChars, writeChars, skipSpaces]
    · intro fuel rest hfuel
      obtain ⟨fuel, rfl⟩ : ∃ k, fuel = k + 1 := Nat.exists_eq_add_of_le' hfuel
      simp [readChars, writeChars, skipSpaces]
  | pair a d iha ihd =>
    have hitem : ∀ fuel rest, steps false a + steps true d ≤ fuel → ∀ cs,
        skipSpaces cs = skipSpaces (writeChars false a ++ (writeChars true d ++ rest)) →
        readChars (fuel + 1) true cs = some (.pair a d, rest) := by
      intro fuel rest hfuel cs hcs
      exact readChars_item (iha.1 fuel _ (by omega) (delimited_tail d rest))
        (ihd.2 fuel rest (by omega)) hcs
    constructor
    · intro fuel rest hfuel _
      rw [steps, if_neg Bool.false_ne_true, Nat.add_assoc, Nat.add_comm] at hfuel
      obtain ⟨fuel, rfl⟩ : ∃ k, fuel = k + 2 := Nat.exists_eq_add_of_le' (by omega)
      rw [readChars, writeChars, if_neg Bool.false_ne_true, List.cons_append,
        skipSpaces_cons (by decide) (by decide), List.append_assoc]
      simp only [if_true]
      exact hitem fuel rest (by omega) _ rfl
    · intro fuel rest hfuel
      rw [steps, if_pos rfl, Nat.add_assoc, Nat.add_comm] at hfuel
      obtain ⟨fuel, rfl⟩ : ∃ k, fuel = k + 1 := Nat.exists_eq_add_of_le' (by omega)
      rw [writeChars, if_pos rfl, List.cons_append, List.append_assoc]
      exact hitem fuel rest (by omega) _ (skipSpaces_space _)
  | atom a =>
    constructor
    · intro fuel rest hfuel hrest
      obtain ⟨fuel, rfl⟩ : ∃ k, fuel = k + 1 := Nat.exists_eq_add_of_le' hfuel
      exact readChars_atom a hrest rfl
    · intro fuel rest hfuel
      obtain ⟨fuel, rfl⟩ : ∃ k, fuel = k + 2 := Nat.exists_eq_add_of_le' hfuel
      have hclose : Delimited (')' :: rest) := fun c hc => .inr (Option.some.inj hc).symm
      have hatom : readChars (fuel + 1) false (' ' :: (writeAtom a ++ ')' :: rest)) =
          some (.atom a, ')' :: rest) := readChars_atom a hclose (skipSpaces_space _)
      have htext : writeChars true (.atom a) ++ rest =
          ' ' :: '.' :: ' ' :: (writeAtom a ++ ')' :: rest) := by
        simp [writeChars]
      rw [htext, readChars, skipSpaces_space, skipSpaces_cons (by decide) (by decide)]
      simp only [hatom]
      simp [skipSpaces]

private theorem steps_le (exp : Sexp S) (tail : Bool) :
    steps tail exp ≤ 2 * (writeChars tail exp).length := by
  induction exp generalizing tail with
  | nil =>
    cases tail with
    | false => simp [steps, writeChars]
    | true => simp [steps, writeChars]
  | pair a d iha ihd =>
    have ha := iha false
    have hd := ihd true
    rw [steps, writeChars, List.length_cons, List.length_append]
    split
    · omega
    · omega
  | atom a =>
    obtain ⟨c, cs, hwrite, _⟩ := writeAtom_head a
    cases tail with
    | false =>
      rw [steps, writeChars, hwrite, List.length_cons, if_neg Bool.false_ne_true]
      omega
    | true =>
      rw [steps, writeChars, List.length_cons, if_pos rfl]
      omega

def stringToUtf8 (s : String) : List UInt8 := s.toUTF8.data.toList

def utf8ToString (bytes : List UInt8) : Option String := String.fromUTF8? ⟨bytes.toArray⟩

omit [SymbolNames S] in
theorem utf8ToString_stringToUtf8 (s : String) : utf8ToString (stringToUtf8 s) = some s := by
  rw [utf8ToString, stringToUtf8, Array.toArray_toList]
  exact dif_pos s.isValidUTF8

/-- The port that writes characters as they are, but for quotes and backslashes in strings. -/
def plainPort (S : Type) [SymbolNames S] : SexpPort S where
  write exp := stringToUtf8 (String.ofList (writeChars false exp))
  read bytes :=
    match utf8ToString bytes with
    | none => none
    | some s => (readChars (2 * s.toList.length) false s.toList).map Prod.fst
  read_write := by
    intro exp
    have hread := (readChars_writeChars exp).1 _ [] (steps_le exp false) fun _ hc => by cases hc
    rw [List.append_nil] at hread
    simp [utf8ToString_stringToUtf8, String.toList_ofList, hread]
  write_ne_nil := by
    intro exp hnil
    have hdecode := utf8ToString_stringToUtf8 (String.ofList (writeChars false exp))
    have hempty : utf8ToString [] = some "" := utf8ToString_stringToUtf8 ""
    rw [hnil, hempty, Option.some.injEq] at hdecode
    have htext := congrArg String.toList hdecode
    obtain ⟨c, cs, hwrite, _⟩ := writeChars_head exp
    simp [hwrite] at htext

end Write

end Sexp
