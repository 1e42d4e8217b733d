import Libchop.Framework.Outcome
import Mathlib.Data.List.TakeWhile

/-!
# Arrays in C

Arrays that hold strings, and copies to them.  A copy beyond the end of an array, or reading a string that
does not end in it, is an abort.
-/

namespace CArray

variable {array old text bytes : List UInt8}

def copy (array : List UInt8) (position : Nat) (bytes : List UInt8) : Outcome (List UInt8) :=
  Outcome.assert (position + bytes.length ≤ array.length) >>= fun _ =>
    .done (array.take position ++ (bytes ++ array.drop (position + bytes.length)))

def string (array : List UInt8) (position : Nat) : Outcome (List UInt8) :=
  Outcome.assert (0 ∈ array.drop position) >>= fun _ => .done ((array.drop position).takeWhile (· ≠ 0))

def strcpy (array : List UInt8) (position : Nat) (text : List UInt8) : Outcome (List UInt8) :=
  copy array position (text ++ [0])

def strcat (array : List UInt8) (text : List UInt8) : Outcome (List UInt8) :=
  string array 0 >>= fun before => strcpy array before.length text

theorem copy_append (before after : List UInt8) (h : bytes.length = old.length) :
    copy (before ++ (old ++ after)) before.length bytes = .done (before ++ (bytes ++ after)) := by
  have hfits : before.length + bytes.length ≤ (before ++ (old ++ after)).length := by
    simp only [List.length_append]
    omega
  have hafter : (before ++ (old ++ after)).drop (before.length + old.length) = after := by
    rw [← List.append_assoc, ← List.length_append, List.drop_left]
  rw [copy, Outcome.assert_of hfits, Outcome.done_bind, List.take_left, h, hafter]

/-- A string ends with its first null character. -/
theorem string_append (before after : List UInt8) (htext : (0 : UInt8) ∉ text) :
    string (before ++ (text ++ 0 :: after)) before.length = .done text := by
  have hchars : ∀ c ∈ text, decide (c ≠ 0) = true := by
    intro c hc
    exact decide_eq_true fun hzero => htext (hzero ▸ hc)
  rw [string, List.drop_left, Outcome.assert_of (by simp), Outcome.done_bind,
    List.takeWhile_append_of_pos hchars, List.takeWhile_cons_of_neg (by decide), List.append_nil]

/-- What is read as a string has a null character behind it. -/
theorem string_eq_done (h : string array 0 = .done text) :
    (0 : UInt8) ∉ text ∧ ∃ after, array = text ++ 0 :: after := by
  obtain ⟨_, hassert, hdone⟩ := Outcome.bind_eq_done.mp h
  cases hdone
  rw [List.drop_zero] at hassert ⊢
  have hmem : (0 : UInt8) ∈ array := Outcome.of_assert hassert
  have hsplit := List.takeWhile_append_dropWhile (p := fun c => decide (c ≠ 0)) (l := array)
  have hchars : (0 : UInt8) ∉ array.takeWhile (· ≠ 0) := by
    intro hzero
    exact absurd (List.mem_takeWhile_imp hzero) (by decide)
  refine ⟨hchars, ?_⟩
  cases hrest : array.dropWhile (· ≠ 0) with
  | nil =>
    rw [hrest, List.append_nil] at hsplit
    rw [← hsplit] at hmem
    exact absurd hmem hchars
  | cons c after =>
    have hc := List.head?_dropWhile_not (fun c : UInt8 => decide (c ≠ 0)) array
    rw [hrest] at hc hsplit
    simp only [List.head?_cons, decide_not, Bool.not_eq_false', decide_eq_true_eq] at hc
    subst hc
    exact ⟨after, hsplit.symm⟩

/-- The null character that ends a string is its first one. -/
theorem length_le_of_null (h : string array 0 = .done text) {i : Nat} (hnull : array[i]? = some 0) :
    text.length ≤ i := by
  obtain ⟨htext, after, rfl⟩ := string_eq_done h
  by_contra hlt
  rw [List.getElem?_append_left (Nat.lt_of_not_le hlt)] at hnull
  exact htext (List.mem_of_getElem? hnull)

end CArray
