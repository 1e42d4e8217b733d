import Libchop.Framework.Outcome
import Mathlib.Data.List.Basic
import Mathlib.Logic.Function.Basic

/-!
# Allocated memory

Memory consists of blocks at addresses.  An allocator gives out addresses where there is no block, and
may keep the address of a block that it enlarges.  Copies that leave a block are aborts.
-/

/-- The block at each address. -/
abbrev Heap := Nat → Option (List UInt8)

/-- The decisions of an allocator.  `junk` is what new memory holds. -/
structure Allocator where
  malloc : Heap → Nat → Option Nat
  realloc : Heap → Option Nat → Nat → Option Nat
  junk : Nat → UInt8
  malloc_fresh : ∀ {heap size address}, malloc heap size = some address → heap address = none
  realloc_fresh : ∀ {heap block size address}, realloc heap block size = some address →
    block = some address ∨ heap address = none

namespace Heap

/-- The bytes a pointer leads to; the null pointer leads to none. -/
def bytesAt (heap : Heap) : Option Nat → List UInt8
  | none => []
  | some address => (heap address).getD []

/-- A pointer is null or leads to a block. -/
def Allocated (heap : Heap) (block : Option Nat) : Prop :=
  ∀ address, block = some address → (heap address).isSome = true

def calloc (allocator : Allocator) (heap : Heap) (size : Nat) : Option Nat × Heap :=
  match allocator.malloc heap size with
  | none => (none, heap)
  | some address => (some address, Function.update heap address (some (List.replicate size 0)))

def free (heap : Heap) : Option Nat → Heap
  | none => heap
  | some address => Function.update heap address none

/-- The block keeps its first bytes. -/
def realloc (allocator : Allocator) (heap : Heap) (block : Option Nat) (size : Nat) :
    Option Nat × Heap :=
  match allocator.realloc heap block size with
  | none => (none, heap)
  | some address =>
    let bytes := (heap.bytesAt block).take size
    let more := (List.range (size - bytes.length)).map allocator.junk
    (some address, Function.update (heap.free block) address (some (bytes ++ more)))

/-- `memcpy` to a position of a block. -/
def write (heap : Heap) (block : Option Nat) (offset : Nat) (data : List UInt8) : Outcome Heap :=
  match block with
  | none => Outcome.assert (data = []) >>= fun _ => .done heap
  | some address =>
    match heap address with
    | none => .abort
    | some bytes =>
      Outcome.assert (offset + data.length ≤ bytes.length) >>= fun _ =>
        .done (Function.update heap address
          (some (bytes.take offset ++ data ++ bytes.drop (offset + data.length))))

/-- `memcpy` from the beginning of a block. -/
def read (heap : Heap) (block : Option Nat) (size : Nat) : Outcome (List UInt8) :=
  Outcome.assert (size ≤ (heap.bytesAt block).length) >>= fun _ =>
    .done ((heap.bytesAt block).take size)

variable {heap : Heap} {allocator : Allocator}

@[simp] theorem bytesAt_none : heap.bytesAt none = [] := rfl

@[simp] theorem bytesAt_update (heap : Heap) (address : Nat) (bytes : List UInt8) :
    bytesAt (Function.update heap address (some bytes)) (some address) = bytes := by
  rw [bytesAt, Function.update_self, Option.getD_some]

theorem allocated_update (heap : Heap) (address : Nat) (bytes : List UInt8) :
    Allocated (Function.update heap address (some bytes)) (some address) := by
  intro _ heq
  cases heq
  rw [Function.update_self]
  rfl

theorem allocated_none : heap.Allocated none := by
  intro address h
  cases h

/-- Pointers to blocks that are not changed. -/
theorem bytesAt_congr {heap' : Heap} {block : Option Nat}
    (h : ∀ address, block = some address → heap' address = heap address) :
    heap'.bytesAt block = heap.bytesAt block := by
  cases block with
  | none => rfl
  | some address => rw [bytesAt, bytesAt, h address rfl]

theorem allocated_congr {heap' : Heap} {block : Option Nat} (hallocated : heap.Allocated block)
    (h : ∀ address, block = some address → heap' address = heap address) :
    heap'.Allocated block := by
  intro address hblock
  rw [h address hblock]
  exact hallocated address hblock

/-- What `calloc` does: nothing, or a new block. -/
theorem calloc_cases (allocator : Allocator) (heap : Heap) (size : Nat) :
    heap.calloc allocator size = (none, heap) ∨
    ∃ address heap', heap.calloc allocator size = (some address, heap') ∧ heap address = none ∧
      (heap'.bytesAt (some address)).length = size ∧ heap'.Allocated (some address) ∧
      ∀ other, other ≠ address → heap' other = heap other := by
  cases h : allocator.malloc heap size with
  | none =>
    left
    simp only [calloc, h]
  | some address =>
    right
    refine ⟨address, Function.update heap address (some (List.replicate size 0)), ?_,
      allocator.malloc_fresh h, ?_, ?_, ?_⟩
    · simp only [calloc, h]
    · rw [bytesAt_update, List.length_replicate]
    · exact allocated_update _ _ _
    · intro other hother
      exact Function.update_of_ne hother _ _

theorem free_of_ne {block : Option Nat} {address : Nat} (h : block ≠ some address) :
    heap.free block address = heap address := by
  cases block with
  | none => rfl
  | some freed =>
    apply Function.update_of_ne
    rintro rfl
    exact h rfl

/-- What `realloc` does: nothing, or a block with the old bytes in place of the old one. -/
theorem realloc_cases (allocator : Allocator) (heap : Heap) {block : Option Nat} {size : Nat}
    (hsize : (heap.bytesAt block).length ≤ size) :
    heap.realloc allocator block size = (none, heap) ∨
    ∃ address heap' more, heap.realloc allocator block size = (some address, heap') ∧
      (block = some address ∨ heap address = none) ∧
      heap'.bytesAt (some address) = heap.bytesAt block ++ more ∧
      (heap'.bytesAt (some address)).length = size ∧ heap'.Allocated (some address) ∧
      ∀ other, other ≠ address → block ≠ some other → heap' other = heap other := by
  cases h : allocator.realloc heap block size with
  | none =>
    left
    simp only [realloc, h]
  | some address =>
    right
    have htake : (heap.bytesAt block).take size = heap.bytesAt block :=
      List.take_of_length_le hsize
    let more := (List.range (size - (heap.bytesAt block).length)).map allocator.junk
    refine ⟨address, Function.update (heap.free block) address (some (heap.bytesAt block ++ more)),
      more, ?_, allocator.realloc_fresh h, ?_, ?_, ?_, ?_⟩
    · simp only [realloc, h, htake, more]
    · exact bytesAt_update _ _ _
    · have hmore : more.length = size - (heap.bytesAt block).length := by simp [more]
      rw [bytesAt_update, List.length_append, hmore]
      omega
    · exact allocated_update _ _ _
    · intro other hother hblock
      rw [Function.update_of_ne hother, free_of_ne hblock]

/-- A copy that stays in its block changes these bytes of it. -/
theorem write_eq {block : Option Nat} {offset : Nat} {data : List UInt8}
    (hallocated : heap.Allocated block)
    (hfits : offset + data.length ≤ (heap.bytesAt block).length) :
    ∃ heap', heap.write block offset data = .done heap' ∧
      heap'.bytesAt block = (heap.bytesAt block).take offset ++ data ++
        (heap.bytesAt block).drop (offset + data.length) ∧
      heap'.Allocated block ∧ ∀ other, block ≠ some other → heap' other = heap other := by
  cases block with
  | none =>
    have hdata : data = [] := by
      simp at hfits
      exact hfits.2
    refine ⟨heap, ?_, ?_, allocated_none, fun _ _ => rfl⟩
    · rw [write, Outcome.assert_of hdata, Outcome.done_bind]
    · simp [hdata]
  | some address =>
    obtain ⟨bytes, hbytes⟩ := Option.isSome_iff_exists.mp (hallocated address rfl)
    have hat : heap.bytesAt (some address) = bytes := by rw [bytesAt, hbytes, Option.getD_some]
    rw [hat] at hfits ⊢
    refine ⟨Function.update heap address
      (some (bytes.take offset ++ data ++ bytes.drop (offset + data.length))), ?_, ?_, ?_, ?_⟩
    · simp only [write, hbytes, Outcome.assert_of hfits, Outcome.done_bind]
    · exact bytesAt_update _ _ _
    · exact allocated_update _ _ _
    · intro other hother
      apply Function.update_of_ne
      rintro rfl
      exact hother rfl

theorem read_eq {block : Option Nat} {size : Nat} (h : size ≤ (heap.bytesAt block).length) :
    heap.read block size = .done ((heap.bytesAt block).take size) := by
  rw [read, Outcome.assert_of h, Outcome.done_bind]

end Heap
