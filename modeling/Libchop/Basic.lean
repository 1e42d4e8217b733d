import Libchop.Framework.Outcome

/-!
# Bytes and error codes

A `chop_error_t` that is zero is `Except.ok`; every other value is a `ChopError`.
-/

namespace Libchop

abbrev Bytes := List UInt8

/-- The error codes the modelled functions produce or compare with; `code` stands for every
other libchop or system error. -/
inductive ChopError where
  | streamEnd
  | indexerError
  | indexerEmptySource
  | storeBlockUnavail
  | blockIndexerError
  | notFound
  | notImpl
  | invalidArg
  | storeError
  | storeEnd
  | blockFetcherError
  | deserialTooShort
  | deserialCorruptInput
  | cipherError
  | cipherWeakKey
  | code (n : Nat)
deriving DecidableEq, Repr

def enomem : ChopError := .code 12

abbrev Status := Except ChopError Unit

theorem except_map_eq_ok {ε α β : Type} {x : Except ε α} {f : α → β} {b : β} :
    x.map f = .ok b ↔ ∃ a, x = .ok a ∧ f a = b := by
  cases x with
  | error err => simp [Except.map]
  | ok a => simp [Except.map]

end Libchop
