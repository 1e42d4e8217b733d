import Libchop.Tree.KeyBlock

/-!
# The hash tree reader

A tree stream keeps one decoded block per level, reused from one block of that level to the
next.  The blocks form a chain from the top-level block down through the `current_child`
pointers; a block's `parent` pointer, once set, leads to the block before it.  Fetches may fail,
and a block that was allocated but not fetched yet holds whatever memory held.
-/

namespace Libchop

/-- `decoded_block_t`; `hasParent` tells whether the `parent` pointer is set. -/
structure DecodedBlock where
  buffer : Bytes
  offset : Nat
  isKeyBlock : Bool
  depth : Nat
  keyCount : Nat
  currentChildNumber : Nat
  hasParent : Bool
deriving DecidableEq, Repr

/-- `chop_block_fetcher_t` with the binary deserializer of its index handles.  A failed fetch
may leave bytes in the caller's buffer.  `uninitialized` is the memory a new `decoded_block_t`
is made of. -/
structure BlockFetcher (σ H : Type) where
  fetch : StoreRole → H → σ → Except (ChopError × Bytes) Bytes × σ
  deserialize : Bytes → Except ChopError (H × Nat)
  uninitialized : σ → DecodedBlock

/-- The world of a reader with the ghost list of the fetches that failed. -/
structure ReadState (σ : Type) where
  world : σ
  failures : List ChopError

def chopDecodedBlockDecodeHeader (block : DecodedBlock) : Status × DecodedBlock :=
  match block.buffer with
  | m₁ :: m₂ :: c₀ :: c₁ :: c₂ :: c₃ :: d₀ :: d₁ :: _ :: _ :: _ =>
    if m₁ ≠ keyBlockMagic1 ∨ m₂ ≠ keyBlockMagic2 then
      (.error .indexerError, { block with currentChildNumber := 0, keyCount := 0, depth := 0 })
    else
      (.ok (), { block with
        keyCount := c₀.toNat ||| c₁.toNat <<< 8 ||| c₂.toNat <<< 16 ||| c₃.toNat <<< 24
        depth := d₀.toNat ||| d₁.toNat <<< 8
        offset := keyBlockHeaderSize
        currentChildNumber := 0 })
  | _ => (.error .indexerError, block)

/-- `chop_decoded_block_new`: the other fields are left uninitialized. -/
def chopDecodedBlockNew (memory : DecodedBlock) : DecodedBlock :=
  { memory with buffer := [], currentChildNumber := 0, hasParent := false }

/-- `CHILDREN_ARE_KEY_BLOCKS`. -/
def DecodedBlock.childrenAreKeyBlocks (block : DecodedBlock) : Bool :=
  block.isKeyBlock && decide (0 < block.depth)

/-- Whether a block fetched under the given parent is decoded as a key block. -/
def fetchedAsKeyBlock : Option DecodedBlock → Bool
  | some parent => parent.childrenAreKeyBlocks
  | none => true

variable {σ H : Type} (bf : BlockFetcher σ H)

def chopDecodedBlockFetch (role : StoreRole) (index : H) (parent : Option DecodedBlock)
    (block : DecodedBlock) (s : ReadState σ) : Status × DecodedBlock × ReadState σ :=
  let isKeyBlock := fetchedAsKeyBlock parent
  match bf.fetch role index s.world with
  | (.error (e, left), world) =>
    (.error e, { block with buffer := left }, ⟨world, s.failures ++ [e]⟩)
  | (.ok bytes, world) =>
    let block := { block with buffer := bytes, isKeyBlock, offset := 0 }
    let (status, block) := if isKeyBlock then chopDecodedBlockDecodeHeader block else (.ok (), block)
    (status, { block with hasParent := parent.isSome }, { s with world })

/-- What `chop_decoded_block_next_child` leaves behind: its status, the block, its ancestors
from the nearest on, and its current child. -/
structure NextChild (σ : Type) where
  status : Status
  block : DecodedBlock
  parents : List DecodedBlock
  child : Option DecodedBlock
  state : ReadState σ

/-- The branch of `chop_decoded_block_next_child` that fetches the next child of a block. -/
def fetchNextChild (block : DecodedBlock) (parents : List DecodedBlock)
    (child : Option DecodedBlock) (s : ReadState σ) : NextChild σ :=
  match bf.deserialize (block.buffer.drop block.offset) with
  | .error e => ⟨.error e, block, parents, child, s⟩
  | .ok (index, serializedSize) =>
    let block := { block with offset := block.offset + serializedSize }
    let child := child.getD (chopDecodedBlockNew (bf.uninitialized s.world))
    let role := if block.childrenAreKeyBlocks then .metadata else .data
    let (status, child, s) := chopDecodedBlockFetch bf role index (some block) child s
    match status with
    | .error e => ⟨.error e, block, parents, some child, s⟩
    | .ok () =>
      ⟨.ok (), { block with currentChildNumber := block.currentChildNumber + 1 }, parents,
        some child, s⟩

/-- `chop_decoded_block_next_child`; going back to `start` is the second recursive call. -/
def chopDecodedBlockNextChild :
    Nat → DecodedBlock → List DecodedBlock → Option DecodedBlock → ReadState σ →
      Outcome (NextChild σ)
  | 0, _, _, _, _ => .outOfFuel
  | fuel + 1, block, parents, child, s =>
    if block.currentChildNumber ≥ block.keyCount ∨ block.offset ≥ block.buffer.length then
      if !block.hasParent then
        .done ⟨.error .streamEnd, block, parents, child, s⟩
      else
        match parents with
        | [] => .abort
        | parent :: grandparents => do
          let r ← chopDecodedBlockNextChild fuel parent grandparents (some block) s
          let block := r.child.getD block
          match r.status with
          | .error e => return ⟨.error e, block, r.block :: r.parents, child, r.state⟩
          | .ok () => chopDecodedBlockNextChild fuel block (r.block :: r.parents) child r.state
    else
      .done (fetchNextChild bf block parents child s)

/-- The copy of `chop_decoded_block_read`: at most `toRead` bytes from the block's offset on. -/
def DecodedBlock.copy (block : DecodedBlock) (toRead : Nat) : Bytes × DecodedBlock :=
  let chunk := (block.buffer.drop block.offset).take toRead
  (chunk, { block with offset := block.offset + chunk.length })

/-- What one call reads: the bytes it copied and the chain of decoded blocks it leaves. -/
structure ReadResult (σ : Type) where
  status : Status
  bytes : Bytes
  chain : List DecodedBlock
  state : ReadState σ

/-- The beginning of an iteration of `chop_decoded_block_read` on a data block: a block that was
read entirely is replaced by the next one.  The result of the call is on the left when the
iteration is the last.  After `CHOP_STREAM_END`, with an offset beyond the buffer, the amount to
copy would wrap around: that access is an abort. -/
def chopDecodedBlockRefill (size : Nat) (below : List DecodedBlock) (fuel : Nat)
    (block : DecodedBlock) (parents : List DecodedBlock) (out : Bytes) (s : ReadState σ) :
    Outcome (Except (ReadResult σ) (DecodedBlock × List DecodedBlock × ReadState σ)) :=
  if block.offset ≥ block.buffer.length then
    match parents with
    | [] => .abort
    | parent :: grandparents => do
      let r ← chopDecodedBlockNextChild bf fuel parent grandparents (some block) s
      let block := r.child.getD block
      let parents := r.block :: r.parents
      match r.status with
      | .ok () => return .ok (block, parents, r.state)
      | .error e =>
        if e = .streamEnd ∧ out.length ≠ 0 then
          Outcome.assert (block.offset ≤ block.buffer.length)
          let (chunk, block) := block.copy (size - out.length)
          return .error ⟨.ok (), out ++ chunk, parents.reverse ++ block :: below, r.state⟩
        else
          return .error ⟨.error e, out, parents.reverse ++ block :: below, r.state⟩
  else
    .done (.ok (block, parents, s))

/-- The loop of `chop_decoded_block_read` on a data block. -/
def chopDecodedBlockReadData (size : Nat) (below : List DecodedBlock) :
    Nat → DecodedBlock → List DecodedBlock → Bytes → ReadState σ → Outcome (ReadResult σ)
  | 0, _, _, _, _ => .outOfFuel
  | fuel + 1, block, parents, out, s =>
    if out.length < size then do
      match ← chopDecodedBlockRefill bf size below fuel block parents out s with
      | .error r => return r
      | .ok (block, parents, s) =>
        let (chunk, block) := block.copy (size - out.length)
        chopDecodedBlockReadData size below fuel block parents (out ++ chunk) s
    else
      .done ⟨.ok (), out, parents.reverse ++ block :: below, s⟩

/-- `chop_decoded_block_read` on a block, given its ancestors and the chain below it. -/
def chopDecodedBlockRead (size : Nat) :
    Nat → DecodedBlock → List DecodedBlock → List DecodedBlock → ReadState σ →
      Outcome (ReadResult σ)
  | 0, _, _, _, _ => .outOfFuel
  | fuel + 1, block, parents, below, s =>
    if block.isKeyBlock then
      match below with
      | child :: below => chopDecodedBlockRead size fuel child (block :: parents) below s
      | [] => do
        let r ← chopDecodedBlockNextChild bf fuel block parents none s
        match r.status, r.child with
        | .ok (), some child => chopDecodedBlockRead size fuel child (r.block :: r.parents) [] r.state
        | .ok (), none => .abort
        | .error e, child =>
          return ⟨.error e, [], r.parents.reverse ++ r.block :: child.toList, r.state⟩
    else do
      Outcome.assert (block.hasParent = true)
      chopDecodedBlockReadData bf size below fuel block parents [] s

/-- `decoded_block_tree_t`: the handle and the chain of blocks from `top_level` down, empty
while `top_level` is null. -/
structure DecodedBlockTree (H : Type) where
  index : H
  chain : List DecodedBlock
  currentOffset : Nat

def chopTreeFetchStream (handle : H) : DecodedBlockTree H := ⟨handle, [], 0⟩

/-- `tree_stream_read`, that is `chop_decoded_block_tree_read`. -/
def treeStreamRead (fuel : Nat) (tree : DecodedBlockTree H) (size : Nat) (s : ReadState σ) :
    Outcome (Status × Bytes × DecodedBlockTree H × ReadState σ) :=
  let finish (r : ReadResult σ) : Status × Bytes × DecodedBlockTree H × ReadState σ :=
    (r.status, r.bytes, ⟨tree.index, r.chain, tree.currentOffset + r.bytes.length⟩, r.state)
  match tree.chain with
  | top :: below => do return finish (← chopDecodedBlockRead bf size fuel top [] below s)
  | [] =>
    let top := chopDecodedBlockNew (bf.uninitialized s.world)
    match chopDecodedBlockFetch bf .metadata tree.index none top s with
    | (.error e, top, s) => .done (.error e, [], { tree with chain := [top] }, s)
    | (.ok (), top, s) => do return finish (← chopDecodedBlockRead bf size fuel top [] [] s)

/-- A sequence of reads of a stream: the outcome of each, and the stream at the end. -/
def treeStreamReads (fuel : Nat) :
    List Nat → DecodedBlockTree H → ReadState σ →
      Outcome (List (Status × Bytes) × DecodedBlockTree H × ReadState σ)
  | [], tree, s => .done ([], tree, s)
  | size :: sizes, tree, s => do
    let (status, bytes, tree, s) ← treeStreamRead bf fuel tree size s
    let (results, tree, s) ← treeStreamReads fuel sizes tree s
    return ((status, bytes) :: results, tree, s)

end Libchop
