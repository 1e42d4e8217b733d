import Mathlib.Algebra.Group.Nat.Defs
import Mathlib.Data.List.Induction

/-!
# Strings of bits

Bytes as strings of bits, and strings of bits as groups of a fixed width.
-/

namespace BitString

def ofNat (width n : Nat) : List Bool := (List.range width).map fun i => n.testBit (width - 1 - i)

def toNat (bits : List Bool) : Nat := bits.foldl (fun n bit => 2 * n + bit.toNat) 0

def ofBytes (bytes : List UInt8) : List Bool := bytes.flatMap fun byte => ofNat 8 byte.toNat

/-- Groups of so many bits, where the last one is filled up with zeros. -/
def groups (width : Nat) (bits : List Bool) : List (List Bool) :=
  if bits = [] ∨ width = 0 then []
  else
    (bits.take width ++ List.replicate (width - bits.length) false) :: groups width (bits.drop width)
termination_by bits.length
decreasing_by
  rw [List.length_drop]
  have hpos : 0 < bits.length := List.length_pos_iff.mpr (by tauto)
  omega

theorem groups_nil (width : Nat) : groups width [] = [] := by
  rw [groups, if_pos (.inl rfl)]

/-- A whole group comes first. -/
theorem groups_append {width : Nat} (hpos : 0 < width) {group : List Bool} (h : group.length = width)
    (rest : List Bool) : groups width (group ++ rest) = group :: groups width rest := by
  have hne : ¬ (group ++ rest = [] ∨ width = 0) := by
    rintro (hnil | hzero)
    · rw [(List.append_eq_nil_iff.mp hnil).1, List.length_nil] at h
      omega
    · omega
  rw [groups, if_neg hne, List.length_append, List.take_left' h, List.drop_left' h]
  rw [Nat.sub_eq_zero_of_le (by omega), List.replicate_zero, List.append_nil]

/-- Fewer bits than a group has are filled up. -/
theorem groups_of_short {width : Nat} {bits : List Bool} (hne : bits ≠ []) (h : bits.length ≤ width) :
    groups width bits = [bits ++ List.replicate (width - bits.length) false] := by
  have hpos : 0 < bits.length := List.length_pos_iff.mpr hne
  have hgroup : ¬ (bits = [] ∨ width = 0) := by
    rintro (hnil | hzero)
    · exact hne hnil
    · omega
  rw [groups, if_neg hgroup, List.take_of_length_le h, List.drop_of_length_le h, groups_nil]

theorem length_of_mem_groups {width : Nat} {bits group : List Bool} (h : group ∈ groups width bits) :
    group.length = width := by
  fun_induction groups width bits with
  | case1 bits hnil => cases h
  | case2 bits hgroup ih =>
    rcases List.mem_cons.mp h with rfl | hrest
    · rw [List.length_append, List.length_take, List.length_replicate]
      omega
    · exact ih hrest

theorem toNat_lt (bits : List Bool) : toNat bits < 2 ^ bits.length := by
  induction bits using List.reverseRecOn with
  | nil => exact Nat.one_pos
  | append_singleton bits bit ih =>
    have hbit : bit.toNat ≤ 1 := Bool.toNat_le bit
    rw [toNat, List.foldl_append, List.foldl_cons, List.foldl_nil, ← toNat, List.length_append,
      List.length_singleton, Nat.pow_succ]
    omega

end BitString
