import Mathlib.Data.List.Induction

/-!
# Layers of encodings

Data goes through a list of encoders, one after the other, and is decoded by a list of decoders.
When a decoder accepts nothing but the output of its own encoder, the decoders must come in the
opposite order.
-/

namespace Layers

variable {L α ε : Type} (encode : L → α → α) (decode : L → α → Except ε α)

def encodeAll : List L → α → α
  | [], x => x
  | l :: ls, x => encodeAll ls (encode l x)

/-- Decode with each layer, first to last; the first failure is the result. -/
def decodeAll : List L → α → Except ε α
  | [], x => .ok x
  | l :: ls, x =>
    match decode l x with
    | .ok y => decodeAll ls y
    | .error e => .error e

variable {encode decode}

theorem encodeAll_concat (ls : List L) (l : L) (x : α) :
    encodeAll encode (ls ++ [l]) x = encode l (encodeAll encode ls x) := by
  induction ls generalizing x with
  | nil => rfl
  | cons l' ls ih => exact ih (encode l' x)

/-- Decoders of layers other than the outermost one fail at once, so the only list of decoders of
the right length that restores the data is the reversed one. -/
theorem decodeAll_encodeAll_iff (hself : ∀ l x, decode l (encode l x) = .ok x)
    (hother : ∀ l l' x, l ≠ l' → ∃ e, decode l (encode l' x) = .error e) {ds ls : List L}
    (hlen : ds.length = ls.length) (x : α) :
    decodeAll decode ds (encodeAll encode ls x) = .ok x ↔ ds = ls.reverse := by
  induction ds generalizing ls with
  | nil =>
    have hnil : ls = [] := List.eq_nil_of_length_eq_zero hlen.symm
    subst hnil
    simp [encodeAll, decodeAll]
  | cons d ds ih =>
    cases ls using List.reverseRecOn with
    | nil => simp at hlen
    | append_singleton ls l =>
      rw [List.length_cons, List.length_append, List.length_singleton, Nat.add_right_cancel_iff]
        at hlen
      rw [encodeAll_concat, decodeAll, List.reverse_append, List.reverse_singleton,
        List.singleton_append, List.cons.injEq]
      by_cases hd : d = l
      · rw [hd, hself]
        simpa using ih hlen
      · obtain ⟨e, he⟩ := hother d l (encodeAll encode ls x) hd
        rw [he]
        simp [hd]

end Layers
