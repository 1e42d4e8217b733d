import Libchop.Basic
import Libchop.Framework.Heap
import Libchop.Framework.Refinement
import Mathlib.Algebra.GroupWithZero.Nat

/-!
# The buffer pool

Buffers own a block of memory that they fill from its beginning.  Blocks of buffers that are returned
are kept in a pool of at most twenty entries and less than 8192 bytes, and given to buffers that are
initialized or that grow.
-/

namespace Libchop

structure ChopBuffer where
  buffer : Option Nat
  realSize : Nat
  size : Nat
deriving DecidableEq, Repr

def bufferPoolMaxSize : Nat := 20

def bufferPoolMaxAvailable : Nat := 8192

/-- The pool, whose size is that of the list, and memory. -/
structure PoolMemory where
  heap : Heap
  bufferPool : List ChopBuffer
  bufferPoolAvailable : Nat

/-- The entry at a position is replaced by the last one. -/
def removeFromPool (pool : List ChopBuffer) (position : Nat) : List ChopBuffer :=
  match pool.getLast? with
  | none => []
  | some last => (pool.set position last).dropLast

def findBufferInPool (size : Nat) (m : PoolMemory) : Option (ChopBuffer × PoolMemory) :=
  match m.bufferPool.findIdx? fun entry => entry.realSize ≥ size with
  | none => none
  | some position =>
    (m.bufferPool[position]?).map fun found =>
      (found, { m with
        bufferPool := removeFromPool m.bufferPool position
        bufferPoolAvailable := m.bufferPoolAvailable - found.realSize })

def ChopBuffer.empty : ChopBuffer := ⟨none, 0, 0⟩

/-- The error code and the buffer, which has no memory if there is an error. -/
def chopBufferInit (allocator : Allocator) (size : Nat) (m : PoolMemory) :
    Except ChopError ChopBuffer × PoolMemory :=
  match findBufferInPool size m with
  | some (found, m) => (.ok { found with size := 0 }, m)
  | none =>
    match m.heap.calloc allocator size with
    | (none, heap) => (.error enomem, { m with heap })
    | (some address, heap) => (.ok ⟨some address, size, 0⟩, { m with heap })

/-- The buffer is `ChopBuffer.empty` afterwards. -/
def chopBufferReturn (buffer : ChopBuffer) (m : PoolMemory) : PoolMemory :=
  if m.bufferPool.length < bufferPoolMaxSize ∧
      m.bufferPoolAvailable + buffer.realSize < bufferPoolMaxAvailable then
    { m with
      bufferPool := m.bufferPool ++ [buffer]
      bufferPoolAvailable := m.bufferPoolAvailable + buffer.realSize }
  else { m with heap := m.heap.free buffer.buffer }

/-- The loop of `chop_buffer_grow`, which shifts the size as long as it is too small. -/
def doubleSize (size : Nat) : Nat → Nat → Nat
  | 0, newSize => newSize
  | fuel + 1, newSize =>
    if newSize < size then doubleSize size fuel (newSize <<< 1) else newSize

def chopBufferGrow (allocator : Allocator) (buffer : ChopBuffer) (size : Nat) (m : PoolMemory) :
    Outcome (Status × ChopBuffer × PoolMemory) :=
  match findBufferInPool size m with
  | some (found, m) =>
    m.heap.read buffer.buffer buffer.size >>= fun bytes =>
    m.heap.write found.buffer 0 bytes >>= fun heap =>
      .done (.ok (), { found with size := buffer.size }, chopBufferReturn buffer { m with heap })
  | none =>
    let newSize := doubleSize size size (if buffer.realSize = 0 then 1 else buffer.realSize)
    match m.heap.realloc allocator buffer.buffer newSize with
    | (none, heap) => .done (.error enomem, buffer, { m with heap })
    | (some address, heap) =>
      .done (.ok (), { buffer with buffer := some address, realSize := newSize }, { m with heap })

/-- The first part of `chop_buffer_push` and `chop_buffer_append`. -/
def ensureRoom (allocator : Allocator) (buffer : ChopBuffer) (size : Nat) (m : PoolMemory) :
    Outcome (Status × ChopBuffer × PoolMemory) :=
  if size > buffer.realSize then chopBufferGrow allocator buffer size m
  else .done (.ok (), buffer, m)

def chopBufferPush (allocator : Allocator) (buffer : ChopBuffer) (data : Bytes) (m : PoolMemory) :
    Outcome (Status × ChopBuffer × PoolMemory) :=
  ensureRoom allocator buffer data.length m >>= fun (err, buffer, m) =>
    match err with
    | .error err => .done (.error err, buffer, m)
    | .ok _ =>
      m.heap.write buffer.buffer 0 data >>= fun heap =>
        .done (.ok (), { buffer with size := data.length }, { m with heap })

def chopBufferAppend (allocator : Allocator) (buffer : ChopBuffer) (data : Bytes)
    (m : PoolMemory) : Outcome (Status × ChopBuffer × PoolMemory) :=
  let newSize := buffer.size + data.length
  ensureRoom allocator buffer newSize m >>= fun (err, buffer, m) =>
    match err with
    | .error err => .done (.error err, buffer, m)
    | .ok _ =>
      m.heap.write buffer.buffer buffer.size data >>= fun heap =>
        .done (.ok (), { buffer with size := newSize }, { m with heap })

def chopBufferClear (buffer : ChopBuffer) : ChopBuffer := { buffer with size := 0 }

inductive BufferRequest (ι : Type) where
  | init (id : ι) (size : Nat)
  | push (id : ι) (data : Bytes)
  | append (id : ι) (data : Bytes)
  | clear (id : ι)
  | return (id : ι)

structure BufferState (ι : Type) where
  memory : PoolMemory
  buffers : ι → Option ChopBuffer

section Steps

variable {ι : Type} [DecidableEq ι]

/-- An operation on a buffer of the program.  A buffer that is not initialized holds anything. -/
def onBuffer (s : BufferState ι) (id : ι)
    (operation : ChopBuffer → PoolMemory → Outcome (Status × ChopBuffer × PoolMemory)) :
    Outcome (Status × BufferState ι) :=
  match s.buffers id with
  | none => .abort
  | some buffer =>
    operation buffer s.memory >>= fun (err, buffer, memory) =>
      .done (err, ⟨memory, Function.update s.buffers id (some buffer)⟩)

/-- One operation, with the decisions of the allocator. -/
def bufferStep (s : BufferState ι) (op : Allocator × BufferRequest ι) :
    Outcome (Status × BufferState ι) :=
  match op.2 with
  | .init id size =>
    match chopBufferInit op.1 size s.memory with
    | (.error err, memory) => .done (.error err, ⟨memory, Function.update s.buffers id none⟩)
    | (.ok buffer, memory) => .done (.ok (), ⟨memory, Function.update s.buffers id (some buffer)⟩)
  | .push id data => onBuffer s id fun buffer => chopBufferPush op.1 buffer data
  | .append id data => onBuffer s id fun buffer => chopBufferAppend op.1 buffer data
  | .clear id => onBuffer s id fun buffer m => .done (.ok (), chopBufferClear buffer, m)
  | .return id => onBuffer s id fun buffer m => .done (.ok (), .empty, chopBufferReturn buffer m)

end Steps

def BufferState.initial (ι : Type) : BufferState ι := ⟨⟨fun _ => none, [], 0⟩, fun _ => none⟩

end Libchop
