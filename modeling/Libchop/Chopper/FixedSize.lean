import Libchop.Chopper.InputStream

/-!
# The fixed-size chopper

Each block is filled from the input stream up to the block size.  A last block that is shorter may be padded.
-/

namespace Libchop

/-- `chop_fixed_size_chopper_t`, with its input stream. -/
structure FixedSizeChopper (σ : Type) where
  stream : σ
  blockSize : Nat
  padBlocks : Bool

def chopFixedSizeChopperInit {σ : Type} (input : σ) (blockSize : Nat) (padBlocks : Bool) : FixedSizeChopper σ where
  stream := input
  blockSize := blockSize
  padBlocks := padBlocks

section ReadBlock

variable {σ : Type} (read : StreamRead σ)

/-- `chop_fixed_chopper_read_block`: the error code, the size, the buffer and the chopper.  `chop_buffer_push`
replaces what is in the buffer, and the padding is the character `0`. -/
def chopFixedChopperReadBlock (fuel : Nat) (fixed : FixedSizeChopper σ) (buffer : Bytes) :
    Outcome (Status × Nat × Bytes × FixedSizeChopper σ) :=
  fillBlock read fixed.blockSize fuel [] fixed.stream >>= fun (err, block, stream) =>
    let fixed := { fixed with stream }
    if err ≠ .ok () ∧ err ≠ .error .streamEnd then .done (err, block.length, buffer, fixed)
    else if block.length = 0 then .done (err, block.length, buffer, fixed)
    else
      let block := if fixed.padBlocks ∧ block.length < fixed.blockSize then
        block ++ List.replicate (fixed.blockSize - block.length) 48 else block
      .done (.ok (), block.length, block, fixed)

/-- What a number of calls one after the other return: a block or an error code, and a size. -/
def fixedBlocks (fuel : Nat) : Nat → FixedSizeChopper σ → Bytes → Outcome (List (Except ChopError Bytes × Nat))
  | 0, _, _ => .done []
  | count + 1, fixed, buffer =>
    chopFixedChopperReadBlock read fuel fixed buffer >>= fun (err, size, buffer, fixed) =>
      fixedBlocks fuel count fixed buffer >>= fun rest => .done ((err.map fun _ => buffer, size) :: rest)

end ReadBlock

/-- A block that is completed to its size with a character, if blocks are padded. -/
def completed (pad : Bool) (fill : UInt8) (blockSize : Nat) (block : Bytes) : Bytes :=
  if pad then block ++ List.replicate (blockSize - block.length) fill else block

/-- The consecutive chunks of an input, the last one completed, and the end of the stream behind them. -/
def chunkReplies (pad : Bool) (fill : UInt8) (blockSize : Nat) : Nat → Bytes → List (Except ChopError Bytes × Nat)
  | 0, _ => []
  | count + 1, [] => (.error .streamEnd, 0) :: chunkReplies pad fill blockSize count []
  | count + 1, byte :: input =>
    let block := completed pad fill blockSize ((byte :: input).take blockSize)
    (.ok block, block.length) :: chunkReplies pad fill blockSize count ((byte :: input).drop blockSize)

section Blocks

variable {σ : Type} {read : StreamRead σ} {Left : σ → Bytes → Nat → Prop} {blockSize idle : Nat} {pad : Bool}
  {input buffer : Bytes} {stream : σ}

private theorem completed_take (pad : Bool) (fill : UInt8) (input : Bytes) :
    (if pad = true ∧ (input.take blockSize).length < blockSize then
        input.take blockSize ++ List.replicate (blockSize - (input.take blockSize).length) fill
      else input.take blockSize) = completed pad fill blockSize (input.take blockSize) := by
  rw [completed]
  by_cases hshort : (input.take blockSize).length < blockSize
  · simp only [hshort, and_true]
  · rw [Nat.sub_eq_zero_of_le (Nat.le_of_not_lt hshort)]
    simp

/-- A call returns the next block, or the end of the stream where nothing is left. -/
theorem chopFixedChopperReadBlock_serves (h : Serves read Left) (hleft : Left stream input idle)
    (hpos : 0 < blockSize) (pad : Bool) (buffer : Bytes) :
    ∃ after idle', Left after (input.drop blockSize) idle' ∧
      Outcome.Settles (fun fuel => chopFixedChopperReadBlock read fuel ⟨stream, blockSize, pad⟩ buffer)
        (if input = [] then (.error .streamEnd, 0, buffer, ⟨after, blockSize, pad⟩)
        else (.ok (), (completed pad 48 blockSize (input.take blockSize)).length,
          completed pad 48 blockSize (input.take blockSize), ⟨after, blockSize, pad⟩)) := by
  have hempty : ([] : Bytes).length ≤ blockSize := Nat.zero_le _
  obtain ⟨err, after, idle', hrun, hafter, herr, hend⟩ := h.fillBlock hleft hempty
  rw [List.nil_append] at hrun hend
  have hother : ¬ (err ≠ .ok () ∧ err ≠ .error .streamEnd) := by tauto
  refine ⟨after, idle', hafter, hrun.imp fun fuel hdone => ?_⟩
  simp only [chopFixedChopperReadBlock, hdone, Outcome.done_bind, if_neg hother]
  by_cases hnil : input = []
  · subst hnil
    rw [hend hpos]
    simp
  · have hblock : ¬ (input.take blockSize).length = 0 := by
      have hlength : 0 < input.length := List.length_pos_iff.mpr hnil
      rw [List.length_take]
      omega
    rw [if_neg hblock, if_neg hnil, completed_take]

/-- However the stream cuts its input, successive calls return its chunks, with the last one completed with the
character `0`. -/
theorem fixedBlocks_serves (h : Serves read Left) (hleft : Left stream input idle) (hpos : 0 < blockSize)
    (pad : Bool) (buffer : Bytes) (count : Nat) :
    Outcome.Settles (fun fuel => fixedBlocks read fuel count ⟨stream, blockSize, pad⟩ buffer)
      (chunkReplies pad 48 blockSize count input) := by
  induction count generalizing stream input idle buffer with
  | zero => exact .of_eq fun _ => rfl
  | succ count ih =>
    obtain ⟨after, idle', hafter, hblock⟩ := chopFixedChopperReadBlock_serves h hleft hpos pad buffer
    cases input with
    | nil =>
      rw [if_pos rfl] at hblock
      rw [List.drop_nil] at hafter
      exact hblock.bind ((ih hafter _).bind (.of_eq fun _ => rfl))
    | cons byte input =>
      rw [if_neg (List.cons_ne_nil byte input)] at hblock
      exact hblock.bind ((ih hafter _).bind (.of_eq fun _ => rfl))

private theorem completed_whole {fill fill' : UInt8} {block : Bytes} (h : pad = false ∨ block.length = blockSize) :
    completed pad fill blockSize block = completed pad fill' blockSize block := by
  rcases h with rfl | rfl
  · rfl
  · rw [completed, completed, Nat.sub_self, List.replicate_zero, List.replicate_zero]

/-- The character that blocks are completed with does not matter if blocks are not padded or all of them are
whole. -/
theorem chunkReplies_fill (h : pad = false ∨ input.length % blockSize = 0)
    (fill fill' : UInt8) (count : Nat) :
    chunkReplies pad fill blockSize count input = chunkReplies pad fill' blockSize count input := by
  induction count generalizing input with
  | zero => rfl
  | succ count ih =>
    cases input with
    | nil => rw [chunkReplies, chunkReplies, ih (.inr (Nat.zero_mod _))]
    | cons byte input =>
      have hblock : pad = false ∨ ((byte :: input).take blockSize).length = blockSize := by
        refine h.imp_right fun hmod => List.length_take_of_le ?_
        exact Nat.le_of_dvd (Nat.succ_pos _) (Nat.dvd_of_mod_eq_zero hmod)
      have hrest : pad = false ∨ ((byte :: input).drop blockSize).length % blockSize = 0 := by
        refine h.imp_right fun hmod => ?_
        have hle : blockSize ≤ (byte :: input).length :=
          Nat.le_of_dvd (Nat.succ_pos _) (Nat.dvd_of_mod_eq_zero hmod)
        rw [List.length_drop, ← Nat.mod_eq_sub_mod hle, hmod]
      rw [chunkReplies, chunkReplies, completed_whole hblock, ih hrest]

/-- A last block that is shorter shows what it is completed with. -/
theorem chunkReplies_fill_ne (hpos : 0 < blockSize) {fill fill' : UInt8} (hfill : fill ≠ fill')
    (hmod : input.length % blockSize ≠ 0) :
    ∃ count, chunkReplies true fill blockSize count input ≠ chunkReplies true fill' blockSize count input := by
  generalize hwhole : input.length / blockSize = whole
  induction whole generalizing input with
  | zero =>
    have hshort : input.length < blockSize := (Nat.div_eq_zero_iff_lt hpos).mp hwhole
    refine ⟨1, fun heq => hfill ?_⟩
    cases input with
    | nil => exact absurd (Nat.zero_mod _) hmod
    | cons byte input =>
      have hblock := congrArg Prod.fst (List.cons.inj heq).1
      simp only [completed, if_true, List.take_of_length_le (Nat.le_of_lt hshort), Except.ok.injEq,
        List.append_cancel_left_eq] at hblock
      have hpadded : 0 < blockSize - (byte :: input).length := Nat.sub_pos_of_lt hshort
      exact (List.replicate_inj.mp hblock).2.resolve_left (Nat.ne_of_gt hpadded)
  | succ whole ih =>
    have hle : blockSize ≤ input.length := by
      by_contra hshort
      rw [Nat.div_eq_of_lt (Nat.lt_of_not_le hshort)] at hwhole
      cases hwhole
    have hrest : (input.drop blockSize).length % blockSize ≠ 0 := by
      rw [List.length_drop, ← Nat.mod_eq_sub_mod hle]
      exact hmod
    have hcount : (input.drop blockSize).length / blockSize = whole := by
      rw [Nat.div_eq_sub_div hpos hle] at hwhole
      rw [List.length_drop]
      exact Nat.succ.inj hwhole
    obtain ⟨count, hne⟩ := ih hrest hcount
    refine ⟨count + 1, fun heq => hne ?_⟩
    cases input with
    | nil => exact absurd (Nat.zero_mod _) hmod
    | cons byte input => exact (List.cons.inj heq).2

/-- However the input stream cuts its input into short reads, the chopper returns the chunks of it, the last one
completed with zeros if blocks are padded, and the end of the stream behind them, just in case blocks are not
padded or the chunks are all whole. -/
theorem fixedSizeChopper_chunks_iff {input : Bytes} (h : DeliversInput read stream input) {blockSize : Nat}
    (hpos : 0 < blockSize) (pad : Bool) (buffer : Bytes) :
    (∀ count, Outcome.Settles
        (fun fuel => fixedBlocks read fuel count (chopFixedSizeChopperInit stream blockSize pad) buffer)
        (chunkReplies pad 0 blockSize count input)) ↔
      pad = false ∨ input.length % blockSize = 0 := by
  obtain ⟨Left, hserves, idle, hleft⟩ := h
  have hblocks := fixedBlocks_serves hserves hleft hpos pad buffer
  constructor
  · intro hzeros
    by_contra hpadded
    obtain ⟨hpad, hmod⟩ := not_or.mp hpadded
    obtain ⟨count, hne⟩ := chunkReplies_fill_ne hpos (show (48 : UInt8) ≠ 0 by decide) hmod
    obtain rfl : pad = true := by simpa using hpad
    exact hne ((hblocks count).unique (hzeros count))
  · intro hwhole count
    rw [chunkReplies_fill hwhole 0 48 count]
    exact hblocks count

/-- Five bytes in blocks of two, without padding. -/
theorem fixedSizeChopper_chunks_iff_five :
    (∀ count, Outcome.Settles
        (fun fuel => fixedBlocks chopMemStreamRead fuel count
          (chopFixedSizeChopperInit ⟨[1, 2, 3, 4, 5], 0⟩ 2 false) [])
        (chunkReplies false 0 2 count [1, 2, 3, 4, 5])) ↔
      false = false ∨ [1, 2, 3, 4, 5].length % 2 = 0 :=
  fixedSizeChopper_chunks_iff (memStream_delivers ⟨[1, 2, 3, 4, 5], 0⟩) (by decide) false []

/-- The block of one byte out of two is completed with the character `0`. -/
theorem padded_byte_not_zero : ¬ ∀ (base : Bytes) (blockSize : Nat) (pad : Bool), 0 < blockSize →
    ∀ count, Outcome.Settles
      (fun fuel => fixedBlocks chopMemStreamRead fuel count (chopFixedSizeChopperInit ⟨base, 0⟩ blockSize pad) [])
      (chunkReplies pad 0 blockSize count base) := by
  intro h
  have hzero := h [1] 2 true (by decide) 1
  have hrun : Outcome.Settles
      (fun fuel => fixedBlocks chopMemStreamRead fuel 1 (chopFixedSizeChopperInit ⟨[1], 0⟩ 2 true) [])
      [(.ok [1, 48], 2)] := .of_add 3 fun _ => rfl
  exact absurd (hrun.unique hzero) (by decide)

end Blocks

end Libchop
