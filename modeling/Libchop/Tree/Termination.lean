import Libchop.Tree.Sample

/-!
# When indexing reaches a root

When no operation of a run fails, `chop_tree_index_blocks` either reaches a root key block or does
not return at all.  Each direction is a fact about runs: inversion lemmas say what a run that
returned has gone through, and the specifications of the writer give the runs that do return.
-/

namespace Libchop

variable {σ H : Type} {ix : BlockIndexer σ H}

private theorem assert_eq_done {p : Prop} [Decidable p] {u : Unit}
    (h : Outcome.assert p = .done u) : p := by
  by_cases hp : p
  · exact hp
  · simp [hp] at h

/-- A key block that was flushed passed the assertions on its header, and is stored. -/
theorem flush_done {site : WriteSite} {block block' : KeyBlock} {s s' : IndexState σ H}
    {result : Except ChopError H}
    (h : chopKeyBlockFlush ix site block s = .done (result, block', s')) (hok : AllOk s'.trace) :
    block.keyCount < 2 ^ 32 ∧ block.depth < 2 ^ 16 ∧ block' = block.withHeader ∧
      ∃ root, result = .ok root ∧ s'.stored = s.stored ++ [⟨.metadata, block.withHeader.keys, root⟩] := by
  simp only [chopKeyBlockFlush, chopKeyBlockFillHeader, Outcome.bind_eq_done,
    Outcome.pure_eq_done, Outcome.done.injEq] at h
  obtain ⟨_, ⟨_, _, _, hcount, _, hdepth, rfl⟩, heq⟩ := h
  have hc := assert_eq_done hcount
  have hd := assert_eq_done hdepth
  rw [Nat.shiftRight_eq_div_pow] at hc hd
  cases hindex : ix.index .metadata block.withHeader.keys s.world with
  | mk answer world =>
    simp only [chopBlockIndexerIndex, hindex, Prod.mk.injEq] at heq
    obtain ⟨rfl, rfl, rfl⟩ := heq
    cases answer with
    | error e =>
      have hlast := ((allOk_append _ _).mp hok).2
      simp [Except.map] at hlast
    | ok root => exact ⟨by omega, by omega, rfl, root, rfl, rfl⟩

/-- A chain that took one more key. -/
structure Grown (n d : Nat) (blocks blocks' : List KeyBlock) : Prop where
  shaped : Shaped (n - 1) d blocks'
  ne_nil : blocks' ≠ []
  weight : chainWeight (n - 1) blocks' = chainWeight (n - 1) blocks + 1
  length_le : 2 ^ 32 < n → blocks'.length ≤ max 1 blocks.length

private theorem grown_append (ix : BlockIndexer σ H) {n d : Nat} {block : KeyBlock}
    (parents : List KeyBlock) (index : H)
    (hdepth : block.depth = d) (hroom : block.keyCount + 1 < n)
    (hkeys : keyBlockHeaderSize ≤ block.keys.length) (htail : Shaped (n - 1) (d + 1) parents) :
    Grown n d (block :: parents) (keyBlockAppend ix block index :: parents) := by
  refine ⟨⟨hdepth, Nat.succ_pos _, ?_, ?_, htail⟩, by simp, ?_, fun _ => by simp⟩
  · simp only [keyBlockAppend]
    omega
  · simp only [keyBlockAppend, List.length_append]
    omega
  · simp only [chainWeight_cons, keyBlockAppend]
    omega

private theorem grown_new (ix : BlockIndexer σ H) {n : Nat} (hn : 2 ≤ n) (d : Nat) (index : H) :
    Grown n d [] [keyBlockAppend ix (emptyKeyBlock d) index] := by
  have hroom : (emptyKeyBlock d).keyCount + 1 < n := by
    simp only [emptyKeyBlock]
    omega
  have hg := grown_append ix [] index rfl hroom (by simp [emptyKeyBlock]) trivial
  exact ⟨hg.shaped, hg.ne_nil, by simpa [emptyKeyBlock] using hg.weight, hg.length_le⟩

private theorem grown_full (ix : BlockIndexer σ H) {n d : Nat} (hn : 2 ≤ n) {block : KeyBlock}
    {parents parents' : List KeyBlock} (index : H)
    (hshape : Shaped (n - 1) d (block :: parents)) (hfull : n ≤ block.keyCount + 1)
    (hcount : block.keyCount < 2 ^ 32) (hg : Grown n (d + 1) parents parents') :
    Grown n d (block :: parents)
      (keyBlockAppend ix (chopKeyBlockReinit block.withHeader) index :: parents') := by
  obtain ⟨hd, hone, hle, hkeys, htail⟩ := hshape
  have hfan : block.keyCount = n - 1 := by omega
  refine ⟨⟨hd, Nat.succ_pos _, ?_, ?_, hg.shaped⟩, by simp, ?_, ?_⟩
  · simp only [keyBlockAppend, chopKeyBlockReinit]
    omega
  · simp [keyBlockAppend, chopKeyBlockReinit]
  · simp only [chainWeight_cons, hg.weight, keyBlockAppend, chopKeyBlockReinit, hfan, mul_add,
      mul_one]
    omega
  · intro hbig
    omega

theorem chopKeyBlockAddIndex_done {n : Nat} (hn : 2 ≤ n) {fuel d : Nat}
    {blocks blocks' : List KeyBlock} {index : H} {s s' : IndexState σ H} {status : Status}
    (hshape : Shaped (n - 1) d blocks)
    (h : addIndexOrNew ix n fuel d blocks index s = .done (status, blocks', s'))
    (hok : AllOk s'.trace) : status = .ok () ∧ Grown n d blocks blocks' := by
  induction fuel generalizing d blocks blocks' index s s' status with
  | zero =>
    rcases orKeyBlockNew_cases ix n d blocks s with ⟨-, heq⟩ | ⟨rfl, -, heq⟩ | ⟨rfl, -, heq⟩
    · rw [addIndexOrNew, heq] at h
      simp [chopKeyBlockAddIndex] at h
    · rw [addIndexOrNew, heq] at h
      simp [chopKeyBlockAddIndex] at h
    · rw [addIndexOrNew, heq] at h
      cases h
      simp at hok
  | succ fuel ih =>
    cases blocks with
    | nil =>
      rcases orKeyBlockNew_cases ix n d [] s with ⟨hne, -⟩ | ⟨-, -, heq⟩ | ⟨-, -, heq⟩
      · exact (hne rfl).elim
      · have hroom : ¬ ((emptyKeyBlock d).keyCount + 1 ≥ n) := by
          simp only [emptyKeyBlock]
          omega
        simp only [addIndexOrNew, heq, chopKeyBlockAddIndex, if_neg hroom, Outcome.pure_eq_done,
          Outcome.done.injEq, Prod.mk.injEq] at h
        obtain ⟨rfl, rfl, _⟩ := h
        exact ⟨rfl, grown_new ix hn d index⟩
      · rw [addIndexOrNew, heq] at h
        cases h
        simp at hok
    | cons block parents =>
      rw [addIndexOrNew_of_ne_nil (List.cons_ne_nil _ _)] at h
      by_cases hfull : n ≤ block.keyCount + 1
      · rw [addIndex_full index s hfull, Outcome.bind_eq_done] at h
        obtain ⟨⟨result, block', s₁⟩, hflush, h⟩ := h
        dsimp only at h
        cases result with
        | error e =>
          cases h
          obtain ⟨_, _, _, root, hroot, _⟩ := flush_done hflush hok
          cases hroot
        | ok root =>
          obtain ⟨⟨status', parents', s₂⟩, hadd, h⟩ := Outcome.bind_eq_done.mp h
          have hs₂ : AllOk s₂.trace := by
            rcases status' with e | ⟨⟩
            · cases h
              exact hok
            · cases h
              exact hok
          have hs₁ : AllOk s₁.trace :=
            by_contra fun hnot => addIndexOrNew_preserves (failed_writesPreserve []) hadd hnot hs₂
          obtain ⟨hcount, _, rfl, _⟩ := flush_done hflush hs₁
          have hd : block.withHeader.depth = d := hshape.1
          rw [hd] at hadd
          obtain ⟨rfl, hg⟩ := ih hshape.2.2.2.2 hadd hs₂
          cases h
          exact ⟨rfl, grown_full ix hn index hshape hfull hcount hg⟩
      · simp only [chopKeyBlockAddIndex, ge_iff_le, if_neg hfull, Outcome.pure_eq_done,
          Outcome.done.injEq, Prod.mk.injEq] at h
        obtain ⟨rfl, rfl, _⟩ := h
        exact ⟨rfl, grown_append ix parents index hshape.1 (by omega) hshape.2.2.2.1 hshape.2.2.2.2⟩

/-- With a fan-out of zero no level ever has room: the insertion only returns when it failed. -/
theorem chopKeyBlockAddIndex_not_done {n : Nat} (hn : n ≤ 1) (fuel d : Nat) (blocks : List KeyBlock)
    (index : H) (s : IndexState σ H) {status : Status} {blocks' : List KeyBlock} {s' : IndexState σ H}
    (h : addIndexOrNew ix n fuel d blocks index s = .done (status, blocks', s')) :
    ¬ AllOk s'.trace := by
  induction fuel generalizing d blocks index s status blocks' s' with
  | zero =>
    rcases orKeyBlockNew_cases ix n d blocks s with ⟨-, heq⟩ | ⟨rfl, -, heq⟩ | ⟨rfl, -, heq⟩
    · rw [addIndexOrNew, heq] at h
      simp [chopKeyBlockAddIndex] at h
    · rw [addIndexOrNew, heq] at h
      simp [chopKeyBlockAddIndex] at h
    · rw [addIndexOrNew, heq] at h
      cases h
      simp
  | succ fuel ih =>
    have hfull : ∀ (block : KeyBlock) (parents : List KeyBlock) (s : IndexState σ H),
        chopKeyBlockAddIndex ix n (fuel + 1) (block :: parents) index s = .done (status, blocks', s') →
        ¬ AllOk s'.trace := by
      intro block parents s h hok
      rw [addIndex_full index s (by omega), Outcome.bind_eq_done] at h
      obtain ⟨⟨result, block', s₁⟩, hflush, h⟩ := h
      dsimp only at h
      cases result with
      | error e =>
        cases h
        obtain ⟨_, _, _, root, hroot, _⟩ := flush_done hflush hok
        cases hroot
      | ok root =>
        obtain ⟨⟨status', parents', s₂⟩, hadd, h⟩ := Outcome.bind_eq_done.mp h
        have hs₂ := ih _ _ _ _ hadd
        rcases status' with e | ⟨⟩
        · cases h
          exact hs₂ hok
        · cases h
          exact hs₂ hok
    rcases orKeyBlockNew_cases ix n d blocks s with ⟨hne, heq⟩ | ⟨rfl, -, heq⟩ | ⟨rfl, -, heq⟩
    · obtain ⟨block, parents, rfl⟩ := List.exists_cons_of_ne_nil hne
      rw [addIndexOrNew, heq] at h
      exact hfull block parents s h
    · rw [addIndexOrNew, heq] at h
      exact hfull _ _ _ h
    · rw [addIndexOrNew, heq] at h
      cases h
      simp

/-- What an iteration of a flush without a failure did: its block was stored, and was the topmost one or
left its handle to the block above. -/
theorem chopBlockTreeFlushLoop_cons_done {n fuel : Nat} {block : KeyBlock} {parents : List KeyBlock}
    {v v' : FlushLocals H} {s s' : IndexState σ H}
    (h : chopBlockTreeFlushLoop ix n fuel (block :: parents) v s = .done (v', s'))
    (hok : AllOk s'.trace) :
    ∃ root s₁, chopKeyBlockFlush ix .blockTreeFlush block s = .done (.ok root, block.withHeader, s₁) ∧
      AllOk s₁.trace ∧
      ((parents = [] ∧ v'.rootIndex = some root ∧ s' = s₁) ∨
        ∃ status parents' w s₂, parents ≠ [] ∧
          addIndexOrNew ix n (fuel - 1) (block.depth + 1) parents root s₁ = .done (status, parents', s₂) ∧
          AllOk s₂.trace ∧ chopBlockTreeFlushLoop ix n (fuel - 1) parents' w s₂ = .done (v', s')) := by
  obtain ⟨result, flushed, s₁, hflush, hnext⟩ := chopBlockTreeFlushLoop_cases h
  rcases hnext with ⟨e, rfl, rfl⟩ | ⟨root, rfl, hnil, hroot, rfl⟩ |
    ⟨root, status, parents', w, s₂, rfl, hne, hadd, hrest⟩
  · obtain ⟨_, _, _, root, hroot, _⟩ := flush_done hflush hok
    cases hroot
  · obtain ⟨_, _, rfl, _⟩ := flush_done hflush hok
    exact ⟨root, _, hflush, hok, .inl ⟨hnil, hroot, rfl⟩⟩
  · have hs₂ : AllOk s₂.trace :=
      by_contra fun hnot => chopBlockTreeFlushLoop_preserves (failed_writesPreserve []) hrest hnot hok
    have hs₁ : AllOk s₁.trace :=
      by_contra fun hnot => addIndexOrNew_preserves (failed_writesPreserve []) hadd hnot hs₂
    obtain ⟨_, _, rfl, _⟩ := flush_done hflush hs₁
    exact ⟨root, s₁, hflush, hs₁, .inr ⟨status, parents', w, s₂, hne, hadd, hs₂, hrest⟩⟩

/-- A flush that returned without a failure went through at most `2 ^ 16` levels. -/
theorem chopBlockTreeFlushLoop_done {n : Nat} (hn : 2 ≤ n) {fuel d : Nat}
    {block : KeyBlock} {parents : List KeyBlock} {v v' : FlushLocals H} {s s' : IndexState σ H}
    (hshape : Shaped (n - 1) d (block :: parents))
    (h : chopBlockTreeFlushLoop ix n fuel (block :: parents) v s = .done (v', s'))
    (hok : AllOk s'.trace) :
    chainWeight (n - 1) (block :: parents) ≤ (n - 1) ^ (2 ^ 16 - d) ∧ block.keyCount < 2 ^ 32 := by
  induction fuel generalizing d block parents v s with
  | zero => cases h
  | succ fuel ih =>
    obtain ⟨root, s₁, hflush, hs₁, hnext⟩ := chopBlockTreeFlushLoop_cons_done h hok
    obtain ⟨hcount, hdepth, -⟩ := flush_done hflush hs₁
    obtain ⟨rfl, hone, hle, _, htail⟩ := hshape
    obtain ⟨k, hk⟩ : ∃ k, 2 ^ 16 - block.depth = k + 1 := ⟨2 ^ 16 - block.depth - 1, by omega⟩
    refine ⟨?_, hcount⟩
    rw [chainWeight_cons, hk, pow_succ, Nat.mul_comm _ (n - 1)]
    rcases hnext with ⟨rfl, -, -⟩ | ⟨status, parents', w, s₂, -, hadd, hs₂, hrest⟩
    · have hmul := Nat.mul_le_mul_left (n - 1) (Nat.one_le_pow k (n - 1) (by omega))
      rw [chainWeight_nil]
      omega
    · obtain ⟨_, hg⟩ := chopKeyBlockAddIndex_done hn htail hadd hs₂
      obtain ⟨parent', rest, rfl⟩ := List.exists_cons_of_ne_nil hg.ne_nil
      have hpow := (ih hg.shaped hrest).1
      rw [hg.weight, show 2 ^ 16 - (block.depth + 1) = k by omega] at hpow
      have hmul := Nat.mul_le_mul_left (n - 1) hpow
      rw [mul_add, mul_one] at hmul
      omega

/-- A reading loop that returned without a failure has stored every block. -/
theorem chopTreeIndexBlocksLoop_done {n : Nat} (hn : 2 ≤ n) {fuel : Nat}
    {blocks : List Bytes} {final e : ChopError} {v v' : IndexLocals H} {s s' : IndexState σ H}
    (hdata : ∀ b ∈ blocks, b ≠ []) (hshape : Shaped (n - 1) 0 v.tree)
    (h : chopTreeIndexBlocksLoop ix n fuel blocks final v s = .done (e, v', s'))
    (hok : AllOk s'.trace) :
    e = final ∧ Shaped (n - 1) 0 v'.tree ∧
      chainWeight (n - 1) v'.tree = chainWeight (n - 1) v.tree + blocks.length ∧
      (2 ^ 32 < n → v'.tree.length ≤ max 1 v.tree.length) ∧
      (v.totalAmount < 2 ^ 64 →
        v'.totalAmount = (v.totalAmount + blocks.flatten.length) % 2 ^ 64) := by
  induction blocks generalizing v s with
  | nil =>
    simp only [chopTreeIndexBlocksLoop, Outcome.done.injEq, Prod.mk.injEq] at h
    obtain ⟨rfl, rfl, _⟩ := h
    exact ⟨rfl, hshape, rfl, fun _ => le_max_right _ _, fun ht => (Nat.mod_eq_of_lt ht).symm⟩
  | cons block blocks ih =>
    have hpos : block.length ≠ 0 := fun hz => hdata block (by simp) (List.length_eq_zero_iff.mp hz)
    rw [chopTreeIndexBlocksLoop, if_neg hpos] at h
    generalize hindex : chopBlockIndexerIndex ix .indexBlocks .data block s = indexed at h
    obtain ⟨answer, s₁⟩ := indexed
    cases answer with
    | error err =>
      cases h
      have hw := chopBlockIndexerIndex_writes ix n .indexBlocks .data block s
      rw [hindex] at hw
      rw [hw.trace] at hok
      simp [Except.map] at hok
    | ok index =>
      simp only [Outcome.bind_eq_done] at h
      obtain ⟨⟨status, tree, s₂⟩, hadd, h⟩ := h
      have hs₂ : AllOk s₂.trace := by_contra fun hnot =>
        chopTreeIndexBlocksLoop_preserves (failed_writesPreserve _) (fun _ hb => hb) h hnot hok
      obtain ⟨_, hg⟩ := chopKeyBlockAddIndex_done hn hshape hadd hs₂
      obtain ⟨he, hs, hw, hlen, htotal⟩ := ih (fun b hb => hdata b (by simp [hb])) hg.shaped h
      refine ⟨he, hs, ?_, ?_, fun _ => ?_⟩
      · rw [hw, hg.weight, List.length_cons]
        omega
      · intro hbig
        have h₁ := hlen hbig
        have h₂ := hg.length_le hbig
        simp only at h₁
        omega
      · rw [htotal (Nat.mod_lt _ (by decide)), List.flatten_cons, List.length_append,
          Nat.mod_add_mod, Nat.add_assoc]

theorem chopTreeIndexBlocksLoop_not_done {n : Nat} (hn : n ≤ 1) {fuel : Nat}
    {blocks : List Bytes} (hne : blocks ≠ []) (hdata : ∀ b ∈ blocks, b ≠ []) {final e : ChopError}
    {v v' : IndexLocals H} {s s' : IndexState σ H}
    (h : chopTreeIndexBlocksLoop ix n fuel blocks final v s = .done (e, v', s')) :
    ¬ AllOk s'.trace := by
  obtain ⟨block, blocks, rfl⟩ := List.exists_cons_of_ne_nil hne
  have hpos : block.length ≠ 0 := fun hz => hdata block (by simp) (List.length_eq_zero_iff.mp hz)
  rw [chopTreeIndexBlocksLoop, if_neg hpos] at h
  generalize hindex : chopBlockIndexerIndex ix .indexBlocks .data block s = indexed at h
  obtain ⟨answer, s₁⟩ := indexed
  cases answer with
  | error err =>
    cases h
    have hw := chopBlockIndexerIndex_writes ix n .indexBlocks .data block s
    rw [hindex] at hw
    rw [hw.trace]
    simp [Except.map]
  | ok index =>
    simp only [Outcome.bind_eq_done] at h
    obtain ⟨⟨status, tree, s₂⟩, hadd, h⟩ := h
    exact chopTreeIndexBlocksLoop_preserves (failed_writesPreserve _) (fun _ hb => hb) h
      (chopKeyBlockAddIndex_not_done hn fuel 0 v.tree index s₁ hadd)

/-- A run that succeeded went through its loop and its flush. -/
theorem indexBlocks_ok {n fuel : Nat} {input : ChopperRun} {s s' : IndexState σ H} {index : Option H}
    (h : chopTreeIndexBlocks ix n fuel input s = .done (.ok index, s')) :
    ∃ v v' s₁, chopTreeIndexBlocksLoop ix n fuel input.blocks input.final ⟨[], 0, none⟩ s =
        .done (.streamEnd, v, s₁) ∧
      chopBlockTreeFlushLoop ix n fuel v.tree ⟨.ok (), v.index, 0, 0⟩ s₁ = .done (v', s') ∧
      0 < v.totalAmount ∧ v'.rootIndex = index := by
  simp only [chopTreeIndexBlocks, Outcome.bind_eq_done] at h
  obtain ⟨⟨err, v, s₁⟩, hloop, ⟨status, index', s₂⟩, hflush, h⟩ := h
  dsimp only at hflush h
  by_cases hzero : v.totalAmount = 0
  · simp [hzero] at h
  · simp only [if_neg hzero, Outcome.pure_eq_done, Outcome.done.injEq, Prod.mk.injEq] at h
    obtain ⟨hstatus, rfl⟩ := h
    by_cases hend : err = .streamEnd
    · rw [if_pos ⟨hend, Nat.pos_of_ne_zero hzero⟩, chopBlockTreeFlush] at hflush
      obtain ⟨⟨v', s₃⟩, hflush, hlast⟩ := Outcome.bind_eq_done.mp hflush
      obtain ⟨-, -, hlast⟩ := Outcome.bind_eq_done.mp hlast
      cases hlast
      refine ⟨v, v', s₁, hend ▸ hloop, hflush, Nat.pos_of_ne_zero hzero, ?_⟩
      cases hv : v'.err with
      | error e =>
        rw [hv] at hstatus
        cases hstatus
      | ok u =>
        rw [hv] at hstatus
        cases hstatus
        rfl
    · rw [if_neg fun hboth => hend hboth.1] at hflush
      cases hflush
      cases hstatus

/-- The capacity of the key block header and of `total_amount`, with the fan-out that makes
the levels of the tree shrink: what a run must meet to reach a root. -/
def IndexingFits (n : Nat) (blocks : List Bytes) : Prop :=
  2 ≤ n ∧ blocks.length ≤ (n - 1) ^ 2 ^ 16 ∧ (n ≤ 2 ^ 32 ∨ blocks.length < 2 ^ 32) ∧
    blocks.flatten.length % 2 ^ 64 ≠ 0

/-- Every stream shorter than `2 ^ 64` bytes fits, but for the number of keys of one block. -/
theorem indexingFits_of_lt {n : Nat} {blocks : List Bytes} (hn : 3 ≤ n)
    (hdata : ∀ b ∈ blocks, b ≠ []) (hne : blocks ≠ []) (hlt : blocks.flatten.length < 2 ^ 64)
    (hfit : n ≤ 2 ^ 32 ∨ blocks.length < 2 ^ 32) : IndexingFits n blocks := by
  have hlen : blocks.length ≤ blocks.flatten.length := by
    have h := dataBlocks_length_le blocks
    rwa [dataBlocks_eq_self hdata] at h
  have hpos : 0 < blocks.length := List.length_pos_iff.mpr hne
  refine ⟨by omega, ?_, hfit, by omega⟩
  calc blocks.length ≤ 2 ^ 64 := by omega
    _ ≤ (n - 1) ^ 64 := Nat.pow_le_pow_left (by omega) 64
    _ ≤ (n - 1) ^ 2 ^ 16 := Nat.pow_le_pow_right (by omega) (by decide)

theorem indexingFits_of_done {n fuel : Nat} {blocks : List Bytes} {index : Option H}
    {s s' : IndexState σ H} (hne : blocks ≠ []) (hdata : ∀ b ∈ blocks, b ≠ [])
    (h : chopTreeIndexBlocks ix n fuel ⟨blocks, .streamEnd⟩ s = .done (.ok index, s'))
    (hok : AllOk s'.trace) : IndexingFits n blocks := by
  obtain ⟨v, v', s₁, hloop, hflush, hamount, -⟩ := indexBlocks_ok h
  have hs₁ : AllOk s₁.trace :=
    by_contra fun hnot => chopBlockTreeFlushLoop_preserves (failed_writesPreserve []) hflush hnot hok
  have hn : 2 ≤ n := by
    by_contra hn
    exact chopTreeIndexBlocksLoop_not_done (by omega) hne hdata hloop hs₁
  obtain ⟨-, hshape, hweight, hlen, htotal⟩ :=
    chopTreeIndexBlocksLoop_done (v := ⟨[], 0, none⟩) hn hdata trivial hloop hs₁
  have htotal := htotal (by simp)
  simp only [Nat.zero_add, chainWeight_nil, List.length_nil] at htotal hweight hlen
  have hpos : 0 < blocks.length := List.length_pos_iff.mpr hne
  obtain ⟨block, parents, htree⟩ := List.exists_cons_of_ne_nil (l := v.tree) (by
    intro hnil
    rw [hnil, chainWeight_nil] at hweight
    omega)
  rw [htree] at hflush hshape hweight hlen
  obtain ⟨hpow, hcount⟩ := chopBlockTreeFlushLoop_done hn hshape hflush hok
  rw [Nat.sub_zero] at hpow
  refine ⟨hn, by omega, ?_, by omega⟩
  by_cases hbig : n ≤ 2 ^ 32
  · exact .inl hbig
  · have hone := hlen (by omega)
    have hnil : parents = [] := by
      simpa using hone
    rw [hnil, chainWeight_cons, chainWeight_nil, Nat.mul_zero] at hweight
    exact .inr (by omega)

/-- An input that fits is indexed by every run whose operations succeed, and the handle is that of a root
that leads to it. -/
theorem chopTreeIndexBlocks_fits (ix : BlockIndexer σ H) {n fuel : Nat} {blocks : List Bytes}
    (hne : blocks ≠ []) (hdata : ∀ b ∈ blocks, b ≠ []) (hfits : IndexingFits n blocks)
    (hfuel : 2 ^ 16 + 2 ≤ fuel) (s : IndexState σ H) :
    ∃ result s' events, chopTreeIndexBlocks ix n fuel ⟨blocks, .streamEnd⟩ s = .done (result, s') ∧
      Writes ix n s s' events ∧ (AllOk events → ∃ root levels, result = .ok (some root) ∧
        s'.Root root ∧ Encodes s'.holds ix.serialize (levels + 1) root blocks.flatten) := by
  obtain ⟨hn, hpow, hfit, htotal⟩ := hfits
  rw [← dataBlocks_eq_self hdata] at hpow hfit
  obtain ⟨e, v, s₁, events, hloop, hspec⟩ := chopTreeIndexBlocksLoop_spec ix hn fuel (2 ^ 16)
    blocks .streamEnd ⟨[], 0, none⟩ s trivial (by simp)
    (by simpa using hpow) hfuel le_rfl (by simpa using hfit)
  have hweight := hspec.weight
  simp only [chainWeight_nil, Nat.zero_add] at hweight
  by_cases hflushed : e = .streamEnd ∧ 0 < v.totalAmount
  · obtain ⟨rfl, hpos⟩ := hflushed
    by_cases htree : v.tree = []
    · refine ⟨_, s₁, events, indexBlocks_of_no_tree (by omega) hloop hpos htree, hspec.writes,
        fun hok => ?_⟩
      rcases hspec.ending with ⟨_, _, _, hgrown⟩ | ⟨hmem, _⟩
      · exact (hgrown hok (.inl (by rwa [dataBlocks_eq_self hdata])) htree).elim
      · cases hok _ hmem
    · obtain ⟨v', s₂, events', hflush, hfspec⟩ := chopBlockTreeFlush_spec ix hn fuel (2 ^ 16)
        v.index s₁ hspec.shaped htree (hweight.trans hpow) (by decide) hfuel le_rfl
        (by omega)
      refine ⟨_, s₂, events ++ events', indexBlocks_of_flush _ hloop hpos hflush,
        hspec.writes.trans hfspec.writes, fun hok => ?_⟩
      obtain ⟨hok, hok'⟩ := (allOk_append _ _).mp hok
      have herr : v'.err = .ok () := hfspec.err_ok.mpr (hok'.at _)
      obtain ⟨root, hroot, hlast⟩ := hfspec.root herr
      have hp := hspec.pending [] hok rfl
      obtain ⟨root', levels, hroot', henc⟩ := hfspec.encodes _ hok' hp
      rw [hroot, Option.some.injEq] at hroot'
      subst hroot'
      exact ⟨root, levels, by rw [herr, hroot, Except.map], hlast, by simpa using henc⟩
  · refine ⟨_, s₁, events, indexBlocks_of_no_flush hloop hflushed, hspec.writes, fun hok => ?_⟩
    rcases hspec.ending with ⟨_, he, hamount, _⟩ | ⟨hmem, _⟩
    · refine (hflushed ⟨he, ?_⟩).elim
      simp only [Nat.zero_add] at hamount
      omega
    · cases hok _ hmem

private theorem chopTreeIndexBlocksLoop_no_memory {n fuel : Nat}
    (hmemory : ∀ w, ix.hasMemory (keyBufferSize n) w = false) {blocks : List Bytes}
    {final e : ChopError} {v v' : IndexLocals H} {s s' : IndexState σ H} (htree : v.tree = [])
    (hs : ∀ b ∈ s.stored, b.role = .data)
    (h : chopTreeIndexBlocksLoop ix n fuel blocks final v s = .done (e, v', s')) :
    v'.tree = [] ∧ ∀ b ∈ s'.stored, b.role = .data := by
  induction blocks generalizing v s with
  | nil =>
    cases h
    exact ⟨htree, hs⟩
  | cons block blocks ih =>
    rw [chopTreeIndexBlocksLoop] at h
    split at h
    · exact ih htree hs h
    · have hdata (result : Except ChopError H) :
          ∀ b ∈ storedAfter .data block s.stored result, b.role = .data := by
        intro b hb
        cases result with
        | error e => exact hs b hb
        | ok index =>
          rcases List.mem_append.mp hb with hb | hb
          · exact hs b hb
          · cases List.mem_singleton.mp hb
            rfl
      rw [chopBlockIndexerIndex] at h
      cases hindex : ix.index .data block s.world with
      | mk answer world =>
        rw [hindex] at h
        cases answer with
        | error err =>
          cases h
          exact ⟨htree, hs⟩
        | ok index =>
          simp only [chopBlockTreeAddIndex, htree, orKeyBlockNew, List.isEmpty_nil, if_true,
            chopKeyBlockNew, hmemory, Bool.false_eq_true, if_false, Except.map,
            Outcome.done_bind] at h
          exact ih rfl (hdata (.ok index)) h

theorem not_root_of_no_memory {n fuel : Nat}
    (hmemory : ∀ w, ix.hasMemory (keyBufferSize n) w = false) {input : ChopperRun} {w : σ} {root : H}
    {result : Except ChopError (Option H)} {s' : IndexState σ H}
    (h : chopTreeIndexBlocks ix n fuel input ⟨w, [], []⟩ = .done (result, s')) : ¬ s'.Root root := by
  rintro ⟨bytes, hlast⟩
  have hmetadata := List.mem_of_getLast? hlast
  simp only [chopTreeIndexBlocks, Outcome.bind_eq_done] at h
  obtain ⟨⟨e, v, s₁⟩, hloop, ⟨status, index, s₂⟩, hflush, h⟩ := h
  obtain ⟨htree, hdata⟩ := chopTreeIndexBlocksLoop_no_memory hmemory rfl
    (fun _ hb => by cases hb) hloop
  have hs₂ : s₂ = s₁ := by
    cases fuel with
    | zero =>
      split at hflush
      · simp [chopBlockTreeFlush, chopBlockTreeFlushLoop] at hflush
      · cases hflush
        rfl
    | succ fuel =>
      split at hflush
      · simp only [htree, chopBlockTreeFlush_nil (Nat.succ_pos fuel), Outcome.done.injEq,
          Prod.mk.injEq] at hflush
        exact hflush.2.2.symm
      · cases hflush
        rfl
  have hs' : s' = s₂ := by
    split at h
    · cases h
      rfl
    · cases h
      rfl
  rw [hs', hs₂] at hmetadata
  cases hdata _ hmetadata

theorem Reliable.writesPreserve {n : Nat} (hix : Reliable ix n) (blocks : List Bytes) :
    WritesPreserve ix n blocks fun s => AllOk s.trace where
  data block _ s hs := by
    have hw := chopBlockIndexerIndex_writes ix n .indexBlocks .data block s
    rw [hw.trace, allOk_append]
    exact ⟨hs, hw.reliable hix⟩
  metadata site block s hs := by
    have hw := chopBlockIndexerIndex_writes ix n site .metadata block s
    rw [hw.trace, allOk_append]
    exact ⟨hs, hw.reliable hix⟩
  memory depth s hs := by
    rw [chopKeyBlockNew, if_pos (hix.memory s.world)]
    simpa using hs

theorem Reliable.allOk {n fuel : Nat} (hix : Reliable ix n) {input : ChopperRun}
    {result : Except ChopError (Option H)} {w : σ} {s' : IndexState σ H}
    (h : chopTreeIndexBlocks ix n fuel input ⟨w, [], []⟩ = .done (result, s')) : AllOk s'.trace :=
  chopTreeIndexBlocks_writesPreserve (hix.writesPreserve _) h allOk_nil

/-- `chop_tree_index_blocks` on a store that never fails reaches a root key block exactly on the
inputs that fit, when there is memory for a key block; in particular never with `indexes_per_block`
below two, and with two only for a single block. -/
theorem chopTreeIndexBlocks_reaches_root_iff
    (hwrites : ∀ role b w, ∃ h w', ix.index role b w = (.ok h, w')) (n : Nat) (w : σ)
    (hmemory : ∀ w', ix.hasMemory (keyBufferSize n) w' = ix.hasMemory (keyBufferSize n) w)
    (blocks : List Bytes) (hne : blocks ≠ []) (hdata : ∀ b ∈ blocks, b ≠ []) :
    (∃ fuel root s', chopTreeIndexBlocks ix n fuel ⟨blocks, .streamEnd⟩ ⟨w, [], []⟩ =
        .done (.ok (some root), s') ∧ s'.Root root) ↔
      IndexingFits n blocks ∧ ix.hasMemory (keyBufferSize n) w = true := by
  constructor
  · rintro ⟨fuel, root, s', h, hroot⟩
    have hroom : ix.hasMemory (keyBufferSize n) w = true := by
      by_contra hnot
      rw [Bool.not_eq_true] at hnot
      exact not_root_of_no_memory (fun w' => (hmemory w').trans hnot) h hroot
    have hix : Reliable ix n := ⟨hwrites, fun w' => (hmemory w').trans hroom⟩
    exact ⟨indexingFits_of_done hne hdata h (hix.allOk h), hroom⟩
  · rintro ⟨hfits, hroom⟩
    have hix : Reliable ix n := ⟨hwrites, fun w' => (hmemory w').trans hroom⟩
    obtain ⟨result, s', events, hrun, hw, hroot⟩ :=
      chopTreeIndexBlocks_fits ix hne hdata hfits le_rfl ⟨w, [], []⟩
    obtain ⟨root, _, rfl, hlast, _⟩ := hroot (hw.reliable hix)
    exact ⟨_, root, s', hrun, hlast⟩

theorem three_blocks_reach_root :
    ∃ fuel root s', chopTreeIndexBlocks listIndexer 3 fuel ⟨[[1], [2], [3]], .streamEnd⟩ ⟨[], [], []⟩ =
      .done (.ok (some root), s') ∧ s'.Root root := by
  have hfits : IndexingFits 3 [[1], [2], [3]] :=
    indexingFits_of_lt (by decide) (by simp) (by simp) (by decide) (.inl (by decide))
  exact (chopTreeIndexBlocks_reaches_root_iff (listIndexer_reliable 3).writes 3 [] (fun _ => rfl)
    [[1], [2], [3]] (by simp) (by simp)).mpr ⟨hfits, rfl⟩

/-- Two blocks with two indexes per block: every insertion finds all levels full, the flush
keeps adding levels, and no root is reached.  One block with one index per block neither. -/
theorem no_root_with_two_indexes_per_block :
    (¬ ∃ fuel index s', chopTreeIndexBlocks listIndexer 2 fuel ⟨[[1], [2]], .streamEnd⟩ ⟨[], [], []⟩ =
      .done (.ok index, s')) ∧
    ¬ ∃ fuel index s', chopTreeIndexBlocks listIndexer 1 fuel ⟨[[1]], .streamEnd⟩ ⟨[], [], []⟩ =
      .done (.ok index, s') := by
  constructor
  · rintro ⟨fuel, index, s', h⟩
    have hfits := indexingFits_of_done (by simp) (by simp) h ((listIndexer_reliable 2).allOk h)
    have hpow := hfits.2.1
    simp at hpow
  · rintro ⟨fuel, index, s', h⟩
    have hfits := indexingFits_of_done (by simp) (by simp) h ((listIndexer_reliable 1).allOk h)
    exact absurd hfits.1 (by decide)

end Libchop
