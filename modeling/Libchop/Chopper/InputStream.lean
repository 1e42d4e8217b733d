import Libchop.Chopper.SlidingWindow

/-!
# Input streams

The choppers read their input in a loop, as a stream may return less than it is asked for.  What a stream is
for is to deliver its input in pieces of any sizes, and then to be at its end.
-/

namespace Libchop

/-- `chop_stream_read` on a class of streams: the error code, the bytes that are read, and the stream after it. -/
abbrev StreamRead (σ : Type) := σ → Nat → Status × Bytes × σ

section Loop

variable {σ : Type} (read : StreamRead σ)

/-- The loop of `chop_fixed_chopper_read_block`, and of `read_sliding_window`, with what it has read so far. -/
def fillBlock (size : Nat) : Nat → Bytes → σ → Outcome (Status × Bytes × σ)
  | 0, _, _ => .outOfFuel
  | fuel + 1, block, stream =>
    if block.length < size then
      match read stream (size - block.length) with
      | (.ok (), bytes, stream) => fillBlock size fuel (block ++ bytes) stream
      | (.error err, bytes, stream) => .done (.error err, block ++ bytes, stream)
    else .done (.ok (), block, stream)

/-- From states that are related to what is left of the input, reads return pieces of it, and nothing but the end
behind it.  A piece may be empty, but only so many times in a row. -/
structure Serves (Left : σ → Bytes → Nat → Prop) : Prop where
  read : ∀ {stream input idle size}, Left stream input idle → 0 < size →
    (∃ bytes rest after idle', input = bytes ++ rest ∧ bytes.length ≤ size ∧
      read stream size = (.ok (), bytes, after) ∧ Left after rest idle' ∧ (bytes = [] → idle' < idle)) ∨
    ∃ after idle', input.length ≤ size ∧ read stream size = (.error .streamEnd, input, after) ∧
      Left after [] idle'

/-- A stream delivers its input in short reads. -/
def DeliversInput (stream : σ) (input : Bytes) : Prop :=
  ∃ Left : σ → Bytes → Nat → Prop, Serves read Left ∧ ∃ idle, Left stream input idle

variable {read}

/-- However its input is cut, a stream fills a block, or all that is left of it goes there. -/
theorem Serves.fillBlock {Left : σ → Bytes → Nat → Prop} (h : Serves read Left) {size idle : Nat}
    {block input : Bytes} {stream : σ} (hleft : Left stream input idle) (hblock : block.length ≤ size) :
    ∃ err after idle', Outcome.Settles (fun fuel => fillBlock read size fuel block stream)
        (err, (block ++ input).take size, after) ∧
      Left after (input.drop (size - block.length)) idle' ∧
      (err = .ok () ∨ err = .error .streamEnd) ∧
      ((block ++ input).length < size → err = .error .streamEnd) := by
  by_cases hroom : block.length < size
  · rcases h.read hleft (Nat.sub_pos_of_lt hroom) with
      ⟨bytes, rest, after, idle', hinput, hsize, hread, hafter, hidle⟩ | ⟨after, idle', hsize, hread, hafter⟩
    · have hfits : (block ++ bytes).length ≤ size := by
        rw [List.length_append]
        omega
      have hless : Prod.Lex (· < ·) (· < ·) (rest.length, idle') (input.length, idle) := by
        rw [hinput]
        cases bytes with
        | nil => exact .right _ (hidle rfl)
        | cons byte bytes =>
          refine .left _ _ ?_
          rw [List.length_append, List.length_cons]
          omega
      obtain ⟨err, last, idle'', hrun, hlast, herr, hend⟩ := h.fillBlock hafter hfits
      rw [List.append_assoc, ← hinput] at hrun hend
      rw [List.length_append, ← Nat.sub_sub] at hlast
      refine ⟨err, last, idle'', hrun.succ fun fuel => ?_, ?_, herr, hend⟩
      · rw [Libchop.fillBlock, if_pos hroom, hread]
      · rw [hinput, List.drop_append, List.drop_eq_nil_of_le hsize, List.nil_append]
        exact hlast
    · have hfits : (block ++ input).length ≤ size := by
        rw [List.length_append]
        omega
      refine ⟨.error .streamEnd, after, idle', .of_add 1 fun fuel => ?_, ?_, .inr rfl, fun _ => rfl⟩
      · rw [Libchop.fillBlock, if_pos hroom, hread, List.take_of_length_le hfits]
      · rw [List.drop_eq_nil_of_le hsize]
        exact hafter
  · have hfull : block.length = size := by omega
    refine ⟨.ok (), stream, idle, .of_add 1 fun fuel => ?_, ?_, .inl rfl, fun hshort => ?_⟩
    · rw [Libchop.fillBlock, if_neg hroom, ← hfull, List.take_left]
    · rw [hfull, Nat.sub_self]
      exact hleft
    · rw [List.length_append] at hshort
      omega
termination_by (input.length, idle)
decreasing_by exact hless

end Loop

/-- `chop_mem_stream_t`.  Its size is the length of its bytes. -/
structure MemStream where
  base : Bytes
  offset : Nat

def chopMemStreamRead (stream : MemStream) (howmuch : Nat) : Status × Bytes × MemStream :=
  if stream.offset ≥ stream.base.length then (.error .streamEnd, [], stream)
  else
    let remaining := stream.base.length - stream.offset
    let read := if howmuch > remaining then remaining else howmuch
    (.ok (), (stream.base.drop stream.offset).take read, { stream with offset := stream.offset + read })

theorem memStream_delivers (stream : MemStream) :
    DeliversInput chopMemStreamRead stream (stream.base.drop stream.offset) := by
  refine ⟨fun stream input _ => input = stream.base.drop stream.offset, ⟨?_⟩, 0, rfl⟩
  rintro stream input idle size rfl hsize
  by_cases hend : stream.offset ≥ stream.base.length
  · have hnil : stream.base.drop stream.offset = [] := List.drop_eq_nil_of_le hend
    right
    refine ⟨stream, 0, ?_, ?_, hnil.symm⟩
    · rw [hnil]
      exact Nat.zero_le _
    · rw [chopMemStreamRead, if_pos hend, hnil]
  · left
    generalize hread : (if size > stream.base.length - stream.offset then
      stream.base.length - stream.offset else size) = read
    have hle : read ≤ size ∧ 0 < read := by
      rw [← hread]
      split
      · omega
      · omega
    refine ⟨(stream.base.drop stream.offset).take read, (stream.base.drop stream.offset).drop read,
      { stream with offset := stream.offset + read }, 0, (List.take_append_drop _ _).symm, ?_, ?_, ?_, ?_⟩
    · exact Nat.le_trans (List.length_take_le _ _) hle.1
    · simp only [chopMemStreamRead, if_neg hend, hread]
    · exact List.drop_drop
    · intro hnil
      have hlength := congrArg List.length hnil
      rw [List.length_take, List.length_drop, List.length_nil] at hlength
      omega

end Libchop
