import Libchop.Chopper.AnchorBased
import Libchop.Chopper.FixedSize
import Libchop.Tree.KeyBlock

/-!
# What choppers give to an indexer

Both classes of choppers are opened by a size of blocks only.  An indexer reads blocks up to the first error,
and what it gets from a stream is all of the stream.
-/

namespace Libchop

open WindowSplit

def chopFsGenericOpen {σ : Type} (preferredBlockSize : Nat) (input : σ) (blockSize : Nat) :
    FixedSizeChopper σ :=
  chopFixedSizeChopperInit input (if blockSize = 0 then preferredBlockSize else blockSize) false

/-- The loop `while ((power_of_two << 1) <= size) power_of_two <<= 1`, on 64 bits. -/
def powerOfTwoLoop (size : Nat) : Nat → Nat → Outcome Nat
  | 0, _ => .outOfFuel
  | fuel + 1, powerOfTwo =>
    if powerOfTwo * 2 % 2 ^ 64 ≤ size then powerOfTwoLoop size fuel (powerOfTwo * 2 % 2 ^ 64)
    else .done powerOfTwo

def abGenericOpen (fuel : Nat) (input : List Bytes) (averageSize : Nat) : Outcome AnchorBasedChopper :=
  if averageSize = 0 then .done (chopAnchorBasedChopperInit 48 0x1fff input)
  else
    powerOfTwoLoop averageSize fuel 1 >>= fun powerOfTwo =>
      .done (chopAnchorBasedChopperInit 48 (powerOfTwo - 1) input)

/-- What an indexer reads from results of `chop_chopper_read_block`: blocks up to the first error. -/
def ChopperRun.ofResults : List (Except ChopError Bytes) → Option ChopperRun
  | [] => none
  | .error err :: _ => some ⟨[], err⟩
  | .ok block :: results =>
    (ofResults results).map fun run => ⟨block :: run.blocks, run.final⟩

def blockResult (result : Status × Bytes) : Except ChopError Bytes := result.1.map fun _ => result.2

/-- What an indexer gets from an anchor-based chopper, on a stream over some bytes. -/
inductive AnchorChopped (windowSize mask : Nat) : ChopperRun → Bytes → Prop where
  | intro {stream : List Bytes} {run : ChopperRun} {calls : Nat} {results : List (Status × Bytes)} :
    (∃ bound, ∀ fuel, bound ≤ fuel → ∃ chopper',
      chopAnchorChopperReadBlocks fuel calls (chopAnchorBasedChopperInit windowSize mask stream) =
        .done (results, chopper')) →
    ChopperRun.ofResults (results.map blockResult) = some run →
    AnchorChopped windowSize mask run stream.flatten

/-- What an indexer gets from a chopper of one of the two classes, on a stream over some bytes. -/
inductive ChoppedFrom : ChopperRun → Bytes → Prop where
  | fixedSize {σ : Type} {read : StreamRead σ} {stream : σ} {xs : Bytes} {run : ChopperRun}
      {preferredBlockSize blockSize count : Nat} {results : List (Except ChopError Bytes × Nat)} :
    DeliversInput read stream xs →
    0 < (chopFsGenericOpen preferredBlockSize stream blockSize).blockSize →
    Outcome.Settles (fun fuel =>
      fixedBlocks read fuel count (chopFsGenericOpen preferredBlockSize stream blockSize) []) results →
    ChopperRun.ofResults (results.map Prod.fst) = some run → ChoppedFrom run xs
  | anchorBased {stream : List Bytes} {run : ChopperRun} {averageSize openFuel calls : Nat}
      {chopper : AnchorBasedChopper} {results : List (Status × Bytes)} :
    abGenericOpen openFuel stream averageSize = .done chopper →
    (∃ bound, ∀ fuel, bound ≤ fuel →
      ∃ chopper', chopAnchorChopperReadBlocks fuel calls chopper = .done (results, chopper')) →
    ChopperRun.ofResults (results.map blockResult) = some run → ChoppedFrom run stream.flatten

section Results

private theorem ofResults_chunkReplies (blockSize count : Nat) (xs : Bytes) {run : ChopperRun}
    (h : ChopperRun.ofResults ((chunkReplies false 48 blockSize count xs).map Prod.fst) = some run) :
    run.final = .streamEnd ∧ run.blocks.flatten = xs := by
  induction count generalizing xs run with
  | zero => cases h
  | succ count ih =>
    cases xs with
    | nil =>
      cases h
      exact ⟨rfl, rfl⟩
    | cons byte xs =>
      obtain ⟨rest, hrest, rfl⟩ := Option.map_eq_some_iff.mp h
      obtain ⟨hfinal, hflatten⟩ := ih _ hrest
      refine ⟨hfinal, ?_⟩
      rw [List.flatten_cons, hflatten]
      exact List.take_append_drop blockSize (byte :: xs)

private theorem ofResults_blocks (blocks : List Bytes) (calls : Nat) {run : ChopperRun}
    (h : ChopperRun.ofResults ((blocks.map Except.ok).take calls ++
      List.replicate (calls - blocks.length) (.error .streamEnd)) = some run) :
    run.final = .streamEnd ∧ run.blocks = blocks := by
  induction blocks generalizing calls run with
  | nil =>
    cases calls with
    | zero => cases h
    | succ calls =>
      cases h
      exact ⟨rfl, rfl⟩
  | cons block blocks ih =>
    cases calls with
    | zero =>
      rw [List.take_zero, Nat.zero_sub] at h
      cases h
    | succ calls =>
      rw [List.length_cons, Nat.add_sub_add_right] at h
      obtain ⟨rest, hrest, rfl⟩ := Option.map_eq_some_iff.mp h
      obtain ⟨hfinal, hblocks⟩ := ih calls hrest
      exact ⟨hfinal, congrArg (block :: ·) hblocks⟩

private theorem map_blockResults (mask windowSize : Nat) (input : Bytes) (calls : Nat) :
    (blockResults mask windowSize input calls).map blockResult =
      ((split (isAnchor mask) windowSize input).map Except.ok).take calls ++
        List.replicate (calls - (split (isAnchor mask) windowSize input).length)
          (.error .streamEnd) := by
  rw [blockResults, List.map_append, List.map_take, List.map_map, List.map_replicate]
  rfl

theorem abGenericOpen_eq_done {fuel averageSize : Nat} {input : List Bytes} {chopper : AnchorBasedChopper}
    (h : abGenericOpen fuel input averageSize = .done chopper) :
    ∃ mask, chopper = chopAnchorBasedChopperInit 48 mask input := by
  rw [abGenericOpen] at h
  split at h
  · cases h
    exact ⟨_, rfl⟩
  · obtain ⟨powerOfTwo, -, h⟩ := Outcome.bind_eq_done.mp h
    cases h
    exact ⟨_, rfl⟩

end Results

/-- An indexer gets the blocks of the split. -/
theorem AnchorChopped.blocks {windowSize mask : Nat} (hpos : 0 < windowSize) {run : ChopperRun} {xs : Bytes}
    (h : AnchorChopped windowSize mask run xs) :
    run.final = .streamEnd ∧ run.blocks = split (isAnchor mask) windowSize xs := by
  cases h with
  | @intro stream run calls results hresults hrun =>
    obtain ⟨bound, hresults⟩ := hresults
    obtain ⟨c, hblocks⟩ := chopAnchorChopperReadBlocks_spec calls
      (chopAnchorBasedChopperInit_idle hpos mask stream)
      (Nat.le_max_right bound (readBlockFuel windowSize stream.flatten.length))
    obtain ⟨c', hsame⟩ :=
      hresults _ (Nat.le_max_left bound (readBlockFuel windowSize stream.flatten.length))
    rw [hblocks] at hsame
    cases hsame
    rw [map_blockResults] at hrun
    exact ofResults_blocks _ _ hrun

/-- Every stream is chopped like this. -/
theorem anchorChopped_split {windowSize : Nat} (hpos : 0 < windowSize) (mask : Nat) (stream : List Bytes) :
    AnchorChopped windowSize mask
      ⟨split (isAnchor mask) windowSize stream.flatten, .streamEnd⟩ stream.flatten := by
  have hcalls : ∀ blocks : List Bytes, ChopperRun.ofResults ((blocks.map Except.ok).take (blocks.length + 1) ++
      List.replicate (blocks.length + 1 - blocks.length) (.error .streamEnd)) =
        some ⟨blocks, .streamEnd⟩ := by
    intro blocks
    induction blocks with
    | nil => rfl
    | cons block blocks ih =>
      rw [List.length_cons, Nat.add_sub_add_right, List.map_cons, List.take_succ_cons, List.cons_append,
        ChopperRun.ofResults, ih]
      rfl
  have hidle := chopAnchorBasedChopperInit_idle hpos mask stream
  refine .intro ⟨readBlockFuel windowSize stream.flatten.length, fun fuel hfuel =>
    chopAnchorChopperReadBlocks_spec
      ((split (isAnchor mask) windowSize stream.flatten).length + 1) hidle hfuel⟩ ?_
  rw [map_blockResults]
  exact hcalls _

/-- An indexer gets all of the stream. -/
theorem ChoppedFrom.whole {run : ChopperRun} {xs : Bytes} (h : ChoppedFrom run xs) :
    run.final = .streamEnd ∧ run.blocks.flatten = xs := by
  cases h with
  | @fixedSize σ read stream xs run preferredBlockSize blockSize count results hdelivers hpos hresults
      hrun =>
    obtain ⟨Left, hserves, idle, hleft⟩ := hdelivers
    have hblocks := fixedBlocks_serves hserves hleft hpos false [] count
    rw [hresults.unique hblocks] at hrun
    exact ofResults_chunkReplies _ _ _ hrun
  | @anchorBased stream run averageSize openFuel calls chopper results hopen hresults hrun =>
    obtain ⟨mask, rfl⟩ := abGenericOpen_eq_done hopen
    have hpos : 0 < 48 := by decide
    obtain ⟨hfinal, hblocks⟩ := (AnchorChopped.intro hresults hrun).blocks hpos
    exact ⟨hfinal, by rw [hblocks, split_flatten hpos]⟩

section PowersOfTwo

variable {size : Nat}

/-- Doubling goes on to the largest power of two that is not above the size. -/
theorem powerOfTwoLoop_doubles (hpos : 0 < size) (hsize : size < 2 ^ 63) {k : Nat}
    (hk : k ≤ Nat.log 2 size) {fuel : Nat} (hfuel : Nat.log 2 size - k < fuel) :
    powerOfTwoLoop size fuel (2 ^ k) = .done (2 ^ Nat.log 2 size) := by
  have hlog : Nat.log 2 size < 63 := Nat.log_lt_of_lt_pow (Nat.ne_of_gt hpos) hsize
  induction fuel generalizing k with
  | zero => omega
  | succ fuel ih =>
    have hfits : 2 ^ k * 2 % 2 ^ 64 = 2 ^ (k + 1) := by
      rw [← pow_succ]
      exact Nat.mod_eq_of_lt (Nat.pow_lt_pow_right (by decide) (by omega))
    rw [powerOfTwoLoop, hfits]
    by_cases hlast : k = Nat.log 2 size
    · have habove : ¬ 2 ^ (k + 1) ≤ size := by
        rw [hlast, Nat.not_le]
        exact Nat.lt_pow_succ_log_self (by decide) size
      rw [if_neg habove, hlast]
    · have hbelow : 2 ^ (k + 1) ≤ size := by
        refine (Nat.pow_le_pow_right (by decide) ?_).trans (Nat.pow_log_le_self 2 (Nat.ne_of_gt hpos))
        omega
      rw [if_pos hbelow]
      exact ih (by omega) (by omega)

/-- With the highest bit in the size, a power of two wraps around to zero and stays there. -/
theorem powerOfTwoLoop_wraps (hsize : 2 ^ 63 ≤ size) (fuel : Nat) {powerOfTwo : Nat}
    (h : powerOfTwo = 0 ∨ ∃ k < 64, powerOfTwo = 2 ^ k) :
    powerOfTwoLoop size fuel powerOfTwo = .outOfFuel := by
  induction fuel generalizing powerOfTwo with
  | zero => rfl
  | succ fuel ih =>
    rw [powerOfTwoLoop]
    rcases h with rfl | ⟨k, hk, rfl⟩
    · rw [Nat.zero_mul, Nat.zero_mod, if_pos (Nat.zero_le _)]
      exact ih (.inl rfl)
    · by_cases hlast : k = 63
      · have hwraps : 2 ^ k * 2 % 2 ^ 64 = 0 := by
          rw [hlast, ← pow_succ]
          exact Nat.mod_self _
        rw [hwraps, if_pos (Nat.zero_le _)]
        exact ih (.inl rfl)
      · have hfits : 2 ^ k * 2 % 2 ^ 64 = 2 ^ (k + 1) := by
          rw [← pow_succ]
          exact Nat.mod_eq_of_lt (Nat.pow_lt_pow_right (by decide) (by omega))
        rw [hfits, if_pos ((Nat.pow_le_pow_right (by decide) (by omega)).trans hsize)]
        exact ih (.inr ⟨k + 1, by omega, rfl⟩)

/-- An anchor-based chopper is opened for every average size below `2 ^ 63` and for no other one, and its
mask then has as many bits as the size has after its highest one. -/
theorem abGenericOpen_settles_iff (input : List Bytes) (averageSize : Nat) :
    ((∃ chopper, Outcome.Settles (fun fuel => abGenericOpen fuel input averageSize) chopper) ↔
      averageSize < 2 ^ 63) ∧
    (0 < averageSize → averageSize < 2 ^ 63 →
      Outcome.Settles (fun fuel => abGenericOpen fuel input averageSize)
        (chopAnchorBasedChopperInit 48 (2 ^ Nat.log 2 averageSize - 1) input)) := by
  have hopens : 0 < averageSize → averageSize < 2 ^ 63 →
      Outcome.Settles (fun fuel => abGenericOpen fuel input averageSize)
        (chopAnchorBasedChopperInit 48 (2 ^ Nat.log 2 averageSize - 1) input) := by
    intro hpos hsize
    refine ⟨Nat.log 2 averageSize + 1, fun fuel hfuel => ?_⟩
    have henough : Nat.log 2 averageSize - 0 < fuel := by omega
    have hloop := powerOfTwoLoop_doubles hpos hsize (Nat.zero_le _) henough
    rw [pow_zero] at hloop
    change abGenericOpen fuel input averageSize = _
    rw [abGenericOpen, if_neg (Nat.ne_of_gt hpos), hloop]
    rfl
  refine ⟨⟨?_, fun hsize => ?_⟩, hopens⟩
  · rintro ⟨chopper, bound, hsettles⟩
    by_contra hlarge
    rw [Nat.not_lt] at hlarge
    have hne : averageSize ≠ 0 := Nat.ne_of_gt ((by decide : 0 < 2 ^ 63).trans_le hlarge)
    have hopen : abGenericOpen bound input averageSize = .done chopper := hsettles bound (Nat.le_refl bound)
    have hloop := powerOfTwoLoop_wraps hlarge bound (.inr ⟨0, by decide, rfl⟩)
    rw [pow_zero] at hloop
    rw [abGenericOpen, if_neg hne, hloop] at hopen
    cases hopen
  · by_cases hzero : averageSize = 0
    · exact ⟨_, .of_eq fun fuel => if_pos hzero⟩
    · exact ⟨_, hopens (Nat.pos_of_ne_zero hzero) hsize⟩

/-- Blocks of 9000 bytes on average. -/
theorem abGenericOpen_settles_sample :
    ((∃ chopper, Outcome.Settles (fun fuel => abGenericOpen fuel [[1], [2]] 9000) chopper) ↔
      9000 < 2 ^ 63) ∧
    (0 < 9000 → 9000 < 2 ^ 63 →
      Outcome.Settles (fun fuel => abGenericOpen fuel [[1], [2]] 9000)
        (chopAnchorBasedChopperInit 48 (2 ^ Nat.log 2 9000 - 1) [[1], [2]])) :=
  abGenericOpen_settles_iff [[1], [2]] 9000

end PowersOfTwo

end Libchop
