import Libchop.Basic
import Mathlib.Algebra.Group.Nat.Defs
import Mathlib.Data.List.Basic

/-!
# The counters of zlib and bzip2

Sizes have 64 bits, but `avail_in` and `avail_out` have 32.  Of a portion that is longer than they can
say the library is told of a beginning, and the rest is lost.
-/

namespace Libchop

/-- What `avail_in` or `avail_out` becomes when a size is assigned to it. -/
def streamCount (n : Nat) : Nat := n % 2 ^ 32

theorem streamCount_of_lt {n : Nat} (h : n < 2 ^ 32) : streamCount n = n := Nat.mod_eq_of_lt h

theorem streamCount_le (n : Nat) : streamCount n ≤ n := Nat.mod_le n (2 ^ 32)

/-- What the library is told of, when data is pushed into an empty filter. -/
def counted (data : Bytes) : Bytes := data.take (streamCount data.length)

theorem counted_of_lt {data : Bytes} (h : data.length < 2 ^ 32) : counted data = data := by
  rw [counted, streamCount_of_lt h, List.take_length]

theorem length_counted (data : Bytes) : (counted data).length = streamCount data.length := by
  rw [counted, List.length_take, Nat.min_eq_left (streamCount_le _)]

/-- What the library is told of an input, when the next portion has an amount of bytes that depends on
how many are left. -/
def received (amount : Nat → Nat) (input : Bytes) : Bytes :=
  if input = [] then []
  else
    counted (input.take (max 1 (amount input.length))) ++
      received amount (input.drop (max 1 (amount input.length)))
termination_by input.length
decreasing_by
  have hpos := List.length_pos_of_ne_nil ‹_›
  rw [List.length_drop]
  omega

variable {amount : Nat → Nat} {input : Bytes}

theorem received_nil : received amount [] = [] := by rw [received, if_pos rfl]

theorem received_of_ne_nil (h : input ≠ []) (hpos : 0 < amount input.length) :
    received amount input =
      counted (input.take (amount input.length)) ++ received amount (input.drop (amount input.length)) := by
  rw [received, if_neg h, Nat.max_eq_right hpos]

/-- An input is received as it is if no portion is too long for the counter. -/
theorem received_eq (hpos : ∀ left, 0 < amount left)
    (h : ∀ left, left ≤ input.length → min (amount left) left < 2 ^ 32) : received amount input = input := by
  induction hlength : input.length using Nat.strongRecOn generalizing input with
  | ind length ih =>
    subst hlength
    by_cases hinput : input = []
    · rw [hinput, received_nil]
    · have hfirst := hpos input.length
      have hsome := List.length_pos_of_ne_nil hinput
      have hless : (input.drop (amount input.length)).length < input.length := by
        rw [List.length_drop]
        omega
      have hcount : (input.take (amount input.length)).length < 2 ^ 32 := by
        rw [List.length_take]
        exact h input.length (Nat.le_refl _)
      rw [received_of_ne_nil hinput hfirst, counted_of_lt hcount,
        ih _ hless (fun left hleft => h left (Nat.le_trans hleft (Nat.le_of_lt hless))) rfl,
        List.take_append_drop]

/-- It is if the input buffer or the input itself is short. -/
theorem received_eq_of_short {bufferSize : Nat} (hpos : 0 < bufferSize)
    (h : bufferSize < 2 ^ 32 ∨ input.length < 2 ^ 32) : received (fun _ => bufferSize) input = input :=
  received_eq (fun _ => hpos) (fun left hleft => by omega)

/-- Nothing is received of a portion that is just too long. -/
theorem received_wrapped {bufferSize : Nat} (hbuffer : 2 ^ 32 ≤ bufferSize)
    (h : input.length = 2 ^ 32) : received (fun _ => bufferSize) input = [] := by
  have hinput : input ≠ [] := List.ne_nil_of_length_pos (h ▸ Nat.two_pow_pos 32)
  have hle : input.length ≤ bufferSize := h ▸ hbuffer
  have hpos : 0 < bufferSize := Nat.lt_of_lt_of_le (Nat.two_pow_pos 32) hbuffer
  rw [received_of_ne_nil hinput hpos, List.take_of_length_le hle, List.drop_eq_nil_of_le hle,
    received_nil, List.append_nil, counted, h, streamCount, Nat.mod_self, List.take_zero]

end Libchop
