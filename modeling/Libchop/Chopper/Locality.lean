import Libchop.Chopper.AnchorBased

/-!
# Locality of anchor-based chopping

Where blocks end depends on the data around the boundary alone.  Inputs with a common beginning
are cut in the same places there, and inputs with a common end are cut alike from any boundary
they share on; an isolated anchor is such a boundary.
-/

namespace Libchop

open WindowSplit

/-- Some first calls each returned a block, and these blocks end at the position.  The start of
the input counts as well. -/
def BlockBoundary (results : List (Status × Bytes)) (position : Nat) : Prop :=
  ∃ k, (∀ r ∈ results.take k, r.1 = .ok ()) ∧
    ((results.take k).map fun r => r.2.length).sum = position

variable {windowSize mask : Nat} {input : Bytes}

private theorem blockResults_take {calls k : Nat} (hk : k ≤ calls)
    (hpieces : k ≤ (split (isAnchor mask) windowSize input).length) :
    (blockResults mask windowSize input calls).take k =
      ((split (isAnchor mask) windowSize input).take k).map fun block => (.ok (), block) := by
  rw [blockResults, List.take_append_of_le_length, List.take_take, Nat.min_eq_left hk,
    List.map_take]
  rw [List.length_take, List.length_map]
  omega

private theorem blockResults_take_sum {calls k : Nat} (hk : k ≤ calls)
    (hpieces : k ≤ (split (isAnchor mask) windowSize input).length) :
    (∀ r ∈ (blockResults mask windowSize input calls).take k, r.1 = .ok ()) ∧
      (((blockResults mask windowSize input calls).take k).map fun r => r.2.length).sum =
        piecesLength k (split (isAnchor mask) windowSize input) := by
  rw [blockResults_take hk hpieces]
  constructor
  · intro r hr
    obtain ⟨block, _, rfl⟩ := List.mem_map.mp hr
    rfl
  · rw [List.map_map, piecesLength]
    rfl

private theorem blockResults_ok_le {calls k : Nat}
    (hok : ∀ r ∈ (blockResults mask windowSize input calls).take k, r.1 = .ok ()) :
    min k calls ≤ (split (isAnchor mask) windowSize input).length := by
  by_contra hlt
  have hend : (Except.error ChopError.streamEnd, []) ∈
      (blockResults mask windowSize input calls).take k := by
    rw [blockResults, List.take_append, List.mem_append]
    right
    rw [List.take_replicate, List.mem_replicate]
    refine ⟨?_, rfl⟩
    rw [List.length_take, List.length_map]
    omega
  cases hok _ hend

private theorem blockResults_length (calls : Nat) :
    (blockResults mask windowSize input calls).length = calls := by
  rw [blockResults, List.length_append, List.length_take, List.length_map, List.length_replicate]
  omega

/-- The boundaries of the blocks that enough calls return are those of the split. -/
theorem blockBoundary_iff {calls : Nat}
    (hcalls : (split (isAnchor mask) windowSize input).length ≤ calls) {b : Nat} :
    BlockBoundary (blockResults mask windowSize input calls) b ↔
      Boundary (isAnchor mask) windowSize input b := by
  constructor
  · intro ⟨k, hok, hsum⟩
    have hle := blockResults_ok_le hok
    have htake : (blockResults mask windowSize input calls).take k =
        (blockResults mask windowSize input calls).take (min k calls) := by
      rw [← List.take_take, List.take_of_length_le (Nat.le_of_eq (blockResults_length calls))]
    refine ⟨min k calls, ?_⟩
    rw [htake, (blockResults_take_sum (Nat.min_le_right k calls) hle).2] at hsum
    exact hsum
  · intro ⟨k, hk⟩
    have hmin : piecesLength (min k (split (isAnchor mask) windowSize input).length)
        (split (isAnchor mask) windowSize input) = b := by
      rw [piecesLength_min]
      exact hk
    have hle := Nat.min_le_right k (split (isAnchor mask) windowSize input).length
    obtain ⟨hok, hsum⟩ := blockResults_take_sum (hle.trans hcalls) hle
    exact ⟨_, hok, hsum.trans hmin⟩

private theorem readBlocks_boundaries (hpos : 0 < windowSize) (mask : Nat) (stream : List Bytes)
    {fuel calls : Nat}
    (hfuel : readBlockFuel windowSize stream.flatten.length ≤ fuel)
    (hcalls : stream.flatten.length ≤ calls) :
    ∃ results c, chopAnchorChopperReadBlocks fuel calls
        (chopAnchorBasedChopperInit windowSize mask stream) = .done (results, c) ∧
      ∀ b, BlockBoundary results b ↔ Boundary (isAnchor mask) windowSize stream.flatten b := by
  obtain ⟨c, hrun⟩ := chopAnchorChopperReadBlocks_spec calls
    (chopAnchorBasedChopperInit_idle hpos mask stream) hfuel
  refine ⟨_, c, hrun, fun b => blockBoundary_iff ?_⟩
  exact (split_length_le hpos _).trans hcalls

/-- Two inputs have the same block boundaries within a common beginning, where only the end of one
of them can make a difference, and from any boundary within a common end that both have on. -/
theorem chopAnchorChopperReadBlocks_local (hpos : 0 < windowSize) (mask : Nat)
    (streamX streamY : List Bytes) {fuel calls : Nat}
    (hfuelX : readBlockFuel windowSize streamX.flatten.length ≤ fuel)
    (hfuelY : readBlockFuel windowSize streamY.flatten.length ≤ fuel)
    (hcallsX : streamX.flatten.length ≤ calls) (hcallsY : streamY.flatten.length ≤ calls) :
    ∃ resultsX resultsY cX cY,
      chopAnchorChopperReadBlocks fuel calls
        (chopAnchorBasedChopperInit windowSize mask streamX) = .done (resultsX, cX) ∧
      chopAnchorChopperReadBlocks fuel calls
        (chopAnchorBasedChopperInit windowSize mask streamY) = .done (resultsY, cY) ∧
      (∀ common, common <+: streamX.flatten → common <+: streamY.flatten →
        ∀ b ≤ common.length,
          (b ≠ streamX.flatten.length → BlockBoundary resultsX b → BlockBoundary resultsY b) ∧
          (b ≠ streamY.flatten.length → BlockBoundary resultsY b → BlockBoundary resultsX b)) ∧
      ∀ u v s d, streamX.flatten = u ++ s → streamY.flatten = v ++ s →
        BlockBoundary resultsX (u.length + d) → BlockBoundary resultsY (v.length + d) →
        ∀ e, d ≤ e →
          (BlockBoundary resultsX (u.length + e) ↔ BlockBoundary resultsY (v.length + e)) := by
  obtain ⟨resultsX, cX, hrunX, hboundX⟩ := readBlocks_boundaries hpos mask streamX hfuelX hcallsX
  obtain ⟨resultsY, cY, hrunY, hboundY⟩ := readBlocks_boundaries hpos mask streamY hfuelY hcallsY
  refine ⟨resultsX, resultsY, cX, cY, hrunX, hrunY, ?_, ?_⟩
  · intro common hX hY b hb
    have htake : streamX.flatten.take b = streamY.flatten.take b := by
      obtain ⟨restX, hrestX⟩ := hX
      obtain ⟨restY, hrestY⟩ := hY
      rw [← hrestX, ← hrestY, List.take_append_of_le_length hb, List.take_append_of_le_length hb]
    have hlengthX := hX.length_le
    have hlengthY := hY.length_le
    rw [hboundX, hboundY]
    constructor
    · intro hend hbound
      exact hbound.of_take_eq hpos htake (by omega)
    · intro hend hbound
      exact hbound.of_take_eq hpos htake.symm (by omega)
  · intro u v s d hX hY hboundary hboundary' e he
    rw [hboundX] at hboundary
    rw [hboundY] at hboundary'
    rw [hboundX, hboundY, show u.length + e = u.length + d + (e - d) by omega,
      show v.length + e = v.length + d + (e - d) by omega, hboundary.add_iff hpos,
      hboundary'.add_iff hpos, hX, hY, List.drop_length_add_append, List.drop_length_add_append]

/-- Two inputs that begin with the same anchor. -/
theorem common_anchor_ends_both : ∃ resultsX resultsY cX cY,
    chopAnchorChopperReadBlocks 100 5 (chopAnchorBasedChopperInit 2 3 [[1, 1, 2], [3]]) =
      .done (resultsX, cX) ∧
    chopAnchorChopperReadBlocks 100 5 (chopAnchorBasedChopperInit 2 3 [[1], [1, 6]]) =
      .done (resultsY, cY) ∧
    (BlockBoundary resultsX 2 ↔ BlockBoundary resultsY 2) := by
  obtain ⟨resultsX, resultsY, cX, cY, hX, hY, hcommon, _⟩ :=
    chopAnchorChopperReadBlocks_local (show 0 < 2 by decide) 3 [[1, 1, 2], [3]] [[1], [1, 6]]
      (show _ ≤ 100 by decide) (by decide) (show _ ≤ 5 by decide) (by decide)
  have hsame := hcommon [1, 1] (by decide) (by decide) 2 (by decide)
  exact ⟨resultsX, resultsY, cX, cY, hX, hY, hsame.1 (by decide), hsame.2 (by decide)⟩

private theorem blockResults_drop (hpos : 0 < windowSize) {calls k : Nat}
    (hk : k ≤ (split (isAnchor mask) windowSize input).length) :
    (blockResults mask windowSize input (k + calls)).drop k = blockResults mask windowSize
      (input.drop (piecesLength k (split (isAnchor mask) windowSize input))) calls := by
  have hfirst : k ≤ (((split (isAnchor mask) windowSize input).map
      fun block => ((Except.ok () : Status), block)).take (k + calls)).length := by
    rw [List.length_take, List.length_map]
    omega
  have hcount : k + calls - (split (isAnchor mask) windowSize input).length =
      calls - ((split (isAnchor mask) windowSize input).drop k).length := by
    rw [List.length_drop]
    omega
  rw [blockResults, blockResults, List.drop_append_of_le_length hfirst, List.drop_take,
    ← List.map_drop, hcount, drop_split hpos, Nat.add_sub_cancel_left]

private theorem readBlocks_from_boundary (hpos : 0 < windowSize) (mask : Nat) (data : Bytes)
    {b : Nat} (h : Boundary (isAnchor mask) windowSize data b) :
    ∃ k, ∀ stream : List Bytes, stream.flatten = data → ∀ fuel calls,
      readBlockFuel windowSize data.length ≤ fuel →
      ∃ results c, chopAnchorChopperReadBlocks fuel (k + calls)
          (chopAnchorBasedChopperInit windowSize mask stream) = .done (results, c) ∧
        (∀ r ∈ results.take k, r.1 = .ok ()) ∧
        ((results.take k).map fun r => r.2.length).sum = b ∧
        results.drop k = blockResults mask windowSize (data.drop b) calls := by
  obtain ⟨k, hk⟩ := h
  have hle := Nat.min_le_right k (split (isAnchor mask) windowSize data).length
  have hmin : piecesLength (min k (split (isAnchor mask) windowSize data).length)
      (split (isAnchor mask) windowSize data) = b := by
    rw [piecesLength_min]
    exact hk
  refine ⟨min k (split (isAnchor mask) windowSize data).length, ?_⟩
  intro stream hstream fuel calls hfuel
  rw [← hstream] at hfuel
  obtain ⟨c, hrun⟩ := chopAnchorChopperReadBlocks_spec
    (min k (split (isAnchor mask) windowSize data).length + calls)
    (chopAnchorBasedChopperInit_idle hpos mask stream) hfuel
  rw [hstream] at hrun
  obtain ⟨hok, hsum⟩ := blockResults_take_sum (Nat.le_add_right _ calls) hle
  refine ⟨_, c, hrun, hok, hsum.trans hmin, ?_⟩
  rw [blockResults_drop hpos hle, hmin]

/-- An anchor in a common end of two inputs with no other anchor less than a window before it ends
a block of both, and from there on the same blocks are returned. -/
theorem chopAnchorChopperReadBlocks_resynchronize (hpos : 0 < windowSize) (mask : Nat)
    (u v s : Bytes) {q : Nat}
    (hlow : windowSize - 1 ≤ q) (hfits : q + windowSize ≤ s.length)
    (hmagic : windowFingerprint (window windowSize s q) &&& mask = 0)
    (hisolated : ∀ p, q + 1 ≤ p + windowSize → p < q →
      windowFingerprint (window windowSize s p) &&& mask ≠ 0) :
    ∃ i j, ∀ streamX streamY : List Bytes, streamX.flatten = u ++ s → streamY.flatten = v ++ s →
      ∀ fuel calls, readBlockFuel windowSize (u ++ s).length ≤ fuel →
      readBlockFuel windowSize (v ++ s).length ≤ fuel →
      ∃ resultsX resultsY cX cY,
        chopAnchorChopperReadBlocks fuel (i + calls)
          (chopAnchorBasedChopperInit windowSize mask streamX) = .done (resultsX, cX) ∧
        chopAnchorChopperReadBlocks fuel (j + calls)
          (chopAnchorBasedChopperInit windowSize mask streamY) = .done (resultsY, cY) ∧
        (∀ r ∈ resultsX.take i, r.1 = .ok ()) ∧ (∀ r ∈ resultsY.take j, r.1 = .ok ()) ∧
        ((resultsX.take i).map fun r => r.2.length).sum = u.length + q + windowSize ∧
        ((resultsY.take j).map fun r => r.2.length).sum = v.length + q + windowSize ∧
        resultsX.drop i = resultsY.drop j := by
  have hboundary : ∀ w : Bytes,
      Boundary (isAnchor mask) windowSize (w ++ s) (w.length + q + windowSize) := by
    intro w
    have hwindow : ∀ p, window windowSize (w ++ s) (w.length + p) = window windowSize s p := by
      intro p
      rw [window, window, List.drop_length_add_append]
    apply boundary_of_isolated_anchor hpos
    · rw [List.length_append]
      omega
    · rw [hwindow]
      exact decide_eq_true hmagic
    · intro p hp hclose
      obtain ⟨p, rfl⟩ : ∃ p', p = w.length + p' := Nat.exists_eq_add_of_le (by omega)
      rw [hwindow]
      exact decide_eq_false (hisolated p (by omega) (by omega))
  obtain ⟨i, hrunX⟩ := readBlocks_from_boundary hpos mask (u ++ s) (hboundary u)
  obtain ⟨j, hrunY⟩ := readBlocks_from_boundary hpos mask (v ++ s) (hboundary v)
  refine ⟨i, j, ?_⟩
  intro streamX streamY hX hY fuel calls hfuelX hfuelY
  obtain ⟨resultsX, cX, hX, hokX, hsumX, hdropX⟩ := hrunX streamX hX fuel calls hfuelX
  obtain ⟨resultsY, cY, hY, hokY, hsumY, hdropY⟩ := hrunY streamY hY fuel calls hfuelY
  refine ⟨resultsX, resultsY, cX, cY, hX, hY, hokX, hokY, hsumX, hsumY, ?_⟩
  rw [hdropX, hdropY, Nat.add_assoc, Nat.add_assoc, List.drop_length_add_append,
    List.drop_length_add_append]

/-- One byte in front of the data does not move the boundary after its anchor. -/
theorem inserted_byte_resynchronizes : ∃ i j, ∀ fuel calls, 100 ≤ fuel →
    ∃ resultsX resultsY cX cY,
      chopAnchorChopperReadBlocks fuel (i + calls)
        (chopAnchorBasedChopperInit 2 3 [[7, 5, 6, 1, 1, 9]]) = .done (resultsX, cX) ∧
      chopAnchorChopperReadBlocks fuel (j + calls)
        (chopAnchorBasedChopperInit 2 3 [[5, 6], [1, 1, 9]]) = .done (resultsY, cY) ∧
      resultsX.drop i = resultsY.drop j := by
  have hisolated : ∀ p, 2 + 1 ≤ p + 2 → p < 2 →
      windowFingerprint (window 2 [5, 6, 1, 1, 9] p) &&& 3 ≠ 0 := by
    intro p hlow hp
    obtain rfl : p = 1 := by omega
    decide
  obtain ⟨i, j, hruns⟩ := chopAnchorChopperReadBlocks_resynchronize (show 0 < 2 by decide) 3 [7] []
    [5, 6, 1, 1, 9] (show _ ≤ 2 by decide) (by decide) (by decide) hisolated
  refine ⟨i, j, fun fuel calls hfuel => ?_⟩
  obtain ⟨resultsX, resultsY, cX, cY, hX, hY, _, _, _, _, hdrop⟩ :=
    hruns [[7, 5, 6, 1, 1, 9]] [[5, 6], [1, 1, 9]] rfl rfl fuel calls
      (Nat.le_trans (by decide) hfuel) (Nat.le_trans (by decide) hfuel)
  exact ⟨resultsX, resultsY, cX, cY, hX, hY, hdrop⟩

end Libchop
