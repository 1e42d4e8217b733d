import Libchop.Basic
import Mathlib.Algebra.Group.Nat.Defs

/-!
# The hash tree writer

`chop_tree_index_blocks` stores the blocks of a chopper and the tree of key blocks above them.
Key blocks under construction form a chain from the bottom-most block to the topmost one, each
block's `parent` being the next of the list.  Block writes go through a block indexer and may
fail, as may the allocation of a key block; a ghost trace records each of them with the place of
the code that made it.
-/

namespace Libchop

/-- The two stores `chop_tree_index_blocks` and `chop_tree_fetch_stream` are given. -/
inductive StoreRole where
  | data
  | metadata
deriving DecidableEq, Repr

/-- `chop_block_indexer_t`, writing through a world `σ` that holds both stores, with the binary
serializer of its index handles (whose `size` field is the length of that serialization) and the
memory of the process: whether a key block can be allocated whose keys take so many bytes. -/
structure BlockIndexer (σ H : Type) where
  index : StoreRole → Bytes → σ → Except ChopError H × σ
  serialize : H → Bytes
  hasMemory : Nat → σ → Bool

/-- The places of `indexer-tree.c` that write a block or allocate one. -/
inductive WriteSite where
  | indexBlocks
  | keyBlockAddIndex
  | blockTreeFlush
  | keyBlockNew
deriving DecidableEq, Repr

/-- One block write or allocation of a run and how it ended. -/
structure WriteEvent where
  site : WriteSite
  status : Status

/-- A block that was stored, and the handle it got. -/
structure StoredBlock (H : Type) where
  role : StoreRole
  bytes : Bytes
  handle : H

/-- The world of an indexing run with the ghost trace of its writes and the blocks that they
stored; no function reads these. -/
structure IndexState (σ H : Type) where
  world : σ
  trace : List WriteEvent
  stored : List (StoredBlock H)

/-- `key_block_t`.  `keys` starts with the header; `key_count` stays below the fan-out, which is
a `size_t`, so it does not wrap. -/
structure KeyBlock where
  keys : Bytes
  keyCount : Nat
  depth : Nat
deriving DecidableEq, Repr

def keyBlockHeaderSize : Nat := 10

def keyBlockMagic1 : UInt8 := 0x48

def keyBlockMagic2 : UInt8 := 0x54

/-- The header bytes written by `chop_key_block_fill_header`: the magic numbers, four
little-endian bytes of key count, two of depth and two zeros. -/
def keyBlockHeader (count depth : Nat) : Bytes :=
  [keyBlockMagic1, keyBlockMagic2,
    UInt8.ofNat (count &&& 0xff), UInt8.ofNat ((count >>> 8) &&& 0xff),
    UInt8.ofNat ((count >>> 16) &&& 0xff), UInt8.ofNat ((count >>> 24) &&& 0xff),
    UInt8.ofNat (depth &&& 0xff), UInt8.ofNat ((depth >>> 8) &&& 0xff), 0, 0]

def KeyBlock.withHeader (block : KeyBlock) : KeyBlock :=
  { block with
    keys := keyBlockHeader block.keyCount block.depth ++ block.keys.drop keyBlockHeaderSize }

/-- `chop_key_block_fill_header`, with its three assertions. -/
def chopKeyBlockFillHeader (block : KeyBlock) : Outcome KeyBlock := do
  Outcome.assert (keyBlockHeaderSize ≤ block.keys.length)
  Outcome.assert (block.keyCount >>> 32 = 0)
  Outcome.assert (block.depth >>> 16 = 0)
  return block.withHeader

def emptyKeyBlock (depth : Nat) : KeyBlock where
  keys := List.replicate keyBlockHeaderSize 0
  keyCount := 0
  depth := depth

def chopKeyBlockReinit (block : KeyBlock) : KeyBlock :=
  { block with keys := List.replicate keyBlockHeaderSize 0, keyCount := 0 }

variable {σ H : Type} (ix : BlockIndexer σ H)

def storedAfter (role : StoreRole) (block : Bytes) (stored : List (StoredBlock H)) :
    Except ChopError H → List (StoredBlock H)
  | .ok handle => stored ++ [⟨role, block, handle⟩]
  | .error _ => stored

/-- `chop_block_indexer_index` as called from `site`. -/
def chopBlockIndexerIndex (site : WriteSite) (role : StoreRole) (block : Bytes)
    (s : IndexState σ H) : Except ChopError H × IndexState σ H :=
  let (result, world) := ix.index role block s.world
  (result, ⟨world, s.trace ++ [⟨site, result.map fun _ => ()⟩], storedAfter role block s.stored result⟩)

/-- The argument of `chop_buffer_init` in `chop_key_block_init`. -/
def keyBufferSize (indexesPerBlock : Nat) : Nat := indexesPerBlock * 20 % 2 ^ 64

/-- `chop_key_block_new` and `chop_key_block_init`, followed by the caller's `depth` update. -/
def chopKeyBlockNew (indexesPerBlock depth : Nat) (s : IndexState σ H) :
    Except ChopError KeyBlock × IndexState σ H :=
  if ix.hasMemory (keyBufferSize indexesPerBlock) s.world then
    (.ok (emptyKeyBlock depth), { s with trace := s.trace ++ [⟨.keyBlockNew, .ok ()⟩] })
  else (.error enomem, { s with trace := s.trace ++ [⟨.keyBlockNew, .error enomem⟩] })

/-- A chain that is given its first block when it has none. -/
def orKeyBlockNew (indexesPerBlock depth : Nat) (blocks : List KeyBlock) (s : IndexState σ H) :
    Except ChopError (List KeyBlock) × IndexState σ H :=
  if blocks.isEmpty then
    let (block, s) := chopKeyBlockNew ix indexesPerBlock depth s
    (block.map fun block => [block], s)
  else (.ok blocks, s)

def chopKeyBlockFlush (site : WriteSite) (block : KeyBlock) (s : IndexState σ H) :
    Outcome (Except ChopError H × KeyBlock × IndexState σ H) := do
  let block ← chopKeyBlockFillHeader block
  let (result, s) := chopBlockIndexerIndex ix site .metadata block.keys s
  return (result, block, s)

/-- The last part of `chop_key_block_add_index`: append the binary serialization of `index`. -/
def keyBlockAppend (block : KeyBlock) (index : H) : KeyBlock :=
  { block with keys := block.keys ++ ix.serialize index, keyCount := block.keyCount + 1 }

/-- `chop_key_block_add_index` on the first block of a chain.  The recursion on parents ends
only when some level has room, so it is run with fuel. -/
def chopKeyBlockAddIndex (indexesPerBlock : Nat) :
    Nat → List KeyBlock → H → IndexState σ H → Outcome (Status × List KeyBlock × IndexState σ H)
  | 0, _, _, _ => .outOfFuel
  | _ + 1, [], _, s => .done (.ok (), [], s)
  | fuel + 1, block :: parents, index, s =>
    if block.keyCount + 1 ≥ indexesPerBlock then do
      let (result, block, s) ← chopKeyBlockFlush ix .keyBlockAddIndex block s
      match result with
      | .error e => return (.error e, block :: parents, s)
      | .ok blockIndex =>
        match orKeyBlockNew ix indexesPerBlock (block.depth + 1) parents s with
        | (.error e, s) => return (.error e, block :: parents, s)
        | (.ok parents, s) => do
          let (status, parents, s) ← chopKeyBlockAddIndex indexesPerBlock fuel parents blockIndex s
          match status with
          | .error e => return (.error e, block :: parents, s)
          | .ok () => return (.ok (), keyBlockAppend ix (chopKeyBlockReinit block) index :: parents, s)
    else
      return (.ok (), keyBlockAppend ix block index :: parents, s)

/-- `chop_block_tree_add_index`; the empty chain is a null `tree->current`. -/
def chopBlockTreeAddIndex (indexesPerBlock fuel : Nat) (tree : List KeyBlock) (index : H)
    (s : IndexState σ H) : Outcome (Status × List KeyBlock × IndexState σ H) :=
  match orKeyBlockNew ix indexesPerBlock 0 tree s with
  | (.error e, s) => .done (.error e, tree, s)
  | (.ok tree, s) => chopKeyBlockAddIndex ix indexesPerBlock fuel tree index s

/-- The local variables of `chop_block_tree_flush` that outlive an iteration. -/
structure FlushLocals (H : Type) where
  err : Status
  rootIndex : Option H
  depth : Nat
  lastDepth : Nat

/-- The loop of `chop_block_tree_flush` from `block` on.  The status of the insertion into the
parent is overwritten by the next iteration. -/
def chopBlockTreeFlushLoop (indexesPerBlock : Nat) :
    Nat → List KeyBlock → FlushLocals H → IndexState σ H → Outcome (FlushLocals H × IndexState σ H)
  | 0, _, _, _ => .outOfFuel
  | _ + 1, [], v, s => .done (v, s)
  | fuel + 1, block :: parents, v, s => do
    let depth := v.depth + 1
    let (result, block, s) ← chopKeyBlockFlush ix .blockTreeFlush block s
    match result with
    | .error e => return (⟨.error e, none, depth, block.depth⟩, s)
    | .ok root =>
      if parents.isEmpty then
        chopBlockTreeFlushLoop indexesPerBlock fuel [] ⟨.ok (), some root, depth, block.depth⟩ s
      else
        let (err, parents, s) ← chopKeyBlockAddIndex ix indexesPerBlock fuel parents root s
        chopBlockTreeFlushLoop indexesPerBlock fuel parents
          ⟨err, some root, depth, block.depth⟩ s

/-- `chop_block_tree_flush`, with its final assertion on the depth reached. -/
def chopBlockTreeFlush (indexesPerBlock fuel : Nat) (tree : List KeyBlock) (index : Option H)
    (s : IndexState σ H) : Outcome (Status × Option H × IndexState σ H) := do
  let (v, s) ← chopBlockTreeFlushLoop ix indexesPerBlock fuel tree ⟨.ok (), index, 0, 0⟩ s
  Outcome.assert (v.depth = 0 ∨ v.lastDepth = v.depth - 1)
  return (v.err, v.rootIndex, s)

/-- What a finite input gives: the blocks `chop_chopper_read_block` returns and the error that
ends them. -/
structure ChopperRun where
  blocks : List Bytes
  final : ChopError

/-- The local variables of `chop_tree_index_blocks`; `index` is `none` while it points to no
initialized handle. -/
structure IndexLocals (H : Type) where
  tree : List KeyBlock
  totalAmount : Nat
  index : Option H

/-- The reading loop of `chop_tree_index_blocks`.  It ends with the error of the chopper or of
the first data block that cannot be written; the status of `chop_block_tree_add_index` is
dropped, and `total_amount` is a `size_t`. -/
def chopTreeIndexBlocksLoop (indexesPerBlock fuel : Nat) :
    List Bytes → ChopError → IndexLocals H → IndexState σ H →
      Outcome (ChopError × IndexLocals H × IndexState σ H)
  | [], final, v, s => .done (final, v, s)
  | block :: blocks, final, v, s =>
    if block.length = 0 then
      chopTreeIndexBlocksLoop indexesPerBlock fuel blocks final v s
    else
      let totalAmount := (v.totalAmount + block.length) % 2 ^ 64
      match chopBlockIndexerIndex ix .indexBlocks .data block s with
      | (.error e, s) => .done (e, { v with totalAmount, index := none }, s)
      | (.ok index, s) => do
        let (_, tree, s) ← chopBlockTreeAddIndex ix indexesPerBlock fuel v.tree index s
        chopTreeIndexBlocksLoop indexesPerBlock fuel blocks final ⟨tree, totalAmount, some index⟩ s

/-- `chop_tree_index_blocks`; on success the handle is `none` if it was never initialized. -/
def chopTreeIndexBlocks (indexesPerBlock fuel : Nat) (input : ChopperRun) (s : IndexState σ H) :
    Outcome (Except ChopError (Option H) × IndexState σ H) := do
  let (err, v, s) ←
    chopTreeIndexBlocksLoop ix indexesPerBlock fuel input.blocks input.final ⟨[], 0, none⟩ s
  let (status, index, s) ←
    (if err = .streamEnd ∧ 0 < v.totalAmount then
      chopBlockTreeFlush ix indexesPerBlock fuel v.tree v.index s
    else
      .done (.error err, v.index, s))
  if v.totalAmount = 0 then
    return (.error .indexerEmptySource, s)
  else
    return (status.map fun _ => index, s)

end Libchop
