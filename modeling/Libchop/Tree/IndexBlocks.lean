import Libchop.Tree.Writer

/-!
# Whole indexing runs

The loop of `chop_tree_index_blocks` over the blocks of its chopper, then the whole function:
which writes a run makes, which of them decide its result, and what its handle leads to.
-/

namespace Libchop

variable {σ H : Type} {ix : BlockIndexer σ H}

/-- The blocks of a chopper that are stored: empty ones are skipped. -/
def dataBlocks (blocks : List Bytes) : List Bytes := blocks.filter fun b => 0 < b.length

theorem dataBlocks_cons_pos {block : Bytes} (h : 0 < block.length) (blocks : List Bytes) :
    dataBlocks (block :: blocks) = block :: dataBlocks blocks := by
  simp [dataBlocks, h]

theorem dataBlocks_cons_zero {block : Bytes} (h : block.length = 0) (blocks : List Bytes) :
    dataBlocks (block :: blocks) = dataBlocks blocks := by
  simp [dataBlocks, h]

theorem dataBlocks_length_le (blocks : List Bytes) :
    (dataBlocks blocks).length ≤ blocks.flatten.length := by
  induction blocks with
  | nil => simp [dataBlocks]
  | cons block blocks ih =>
    by_cases h : block.length = 0
    · rw [dataBlocks_cons_zero h, List.flatten_cons, List.length_append]
      omega
    · rw [dataBlocks_cons_pos (by omega), List.flatten_cons, List.length_append, List.length_cons]
      omega

theorem flatten_eq_nil_of_dataBlocks {blocks : List Bytes} (h : dataBlocks blocks = []) :
    blocks.flatten = [] := by
  simpa [dataBlocks, List.filter_eq_nil_iff] using h

theorem dataBlocks_eq_self {blocks : List Bytes} (h : ∀ b ∈ blocks, b ≠ []) :
    dataBlocks blocks = blocks := by
  simp only [dataBlocks, List.filter_eq_self, decide_eq_true_eq]
  exact fun b hb => List.length_pos_iff.mpr (h b hb)

/-- How the reading loop ends: with the chopper's own error after every block was stored, or
with the error of the data block that could not be. -/
def LoopEnding (blocks : List Bytes) (final : ChopError) (v : IndexLocals H) (e : ChopError)
    (v' : IndexLocals H) (events : List WriteEvent) : Prop :=
  (AllOkAt .indexBlocks events ∧ e = final ∧
      v'.totalAmount = (v.totalAmount + blocks.flatten.length) % 2 ^ 64 ∧
      (AllOk events → dataBlocks blocks ≠ [] ∨ v.tree ≠ [] → v'.tree ≠ [])) ∨
    (⟨.indexBlocks, .error e⟩ ∈ events ∧ (∀ e', ⟨.indexBlocks, .error e'⟩ ∈ events → e' = e) ∧
      ∃ k, 0 < k ∧ k ≤ blocks.flatten.length ∧ v'.totalAmount = (v.totalAmount + k) % 2 ^ 64)

/-- What the reading loop of `chop_tree_index_blocks` does. -/
structure IndexLoopSpec (ix : BlockIndexer σ H) (n : Nat) (blocks : List Bytes)
    (final : ChopError) (v : IndexLocals H) (s : IndexState σ H) (e : ChopError)
    (v' : IndexLocals H) (s' : IndexState σ H) (events : List WriteEvent) : Prop where
  shaped : Shaped (n - 1) 0 v'.tree
  weight : chainWeight (n - 1) v'.tree ≤ chainWeight (n - 1) v.tree + (dataBlocks blocks).length
  writes : Writes ix n s s' events
  site : ∀ e ∈ events, e.site ≠ .blockTreeFlush
  ending : LoopEnding blocks final v e v' events
  pending : ∀ xs, AllOk events → Pending s.holds ix.serialize 0 v.tree xs →
    Pending s'.holds ix.serialize 0 v'.tree (xs ++ blocks.flatten)

private theorem indexLoopSpec_error {n : Nat} {block : Bytes} {blocks : List Bytes}
    {final e : ChopError} {v : IndexLocals H} {s s₁ : IndexState σ H}
    (hshape : Shaped (n - 1) 0 v.tree) (hpos : 0 < block.length)
    (hindex : chopBlockIndexerIndex ix .indexBlocks .data block s = (.error e, s₁)) :
    IndexLoopSpec ix n (block :: blocks) final v s e
      { v with totalAmount := (v.totalAmount + block.length) % 2 ^ 64, index := none } s₁
      [⟨.indexBlocks, .error e⟩] := by
  have hw := chopBlockIndexerIndex_writes ix n .indexBlocks .data block s
  rw [hindex] at hw
  refine ⟨hshape, Nat.le_add_right _ _, hw, by simp,
    .inr ⟨by simp, by simp, block.length, hpos, ?_, rfl⟩, ?_⟩
  · simp
  · intro _ hok
    simp at hok

private theorem indexLoopSpec_step {n : Nat} {block : Bytes} {blocks : List Bytes}
    {final e : ChopError} {v v' : IndexLocals H} {s s₁ s₂ s₃ : IndexState σ H} {index : H}
    {status : Status} {tree : List KeyBlock} {events events' : List WriteEvent}
    (hpos : 0 < block.length)
    (hindex : chopBlockIndexerIndex ix .indexBlocks .data block s = (.ok index, s₁))
    (hadd : AddIndexSpec ix n 0 v.tree index s₁ status tree s₂ events)
    (hrest : IndexLoopSpec ix n blocks final
      ⟨tree, (v.totalAmount + block.length) % 2 ^ 64, some index⟩ s₂ e v' s₃ events') :
    IndexLoopSpec ix n (block :: blocks) final v s e v' s₃
      (⟨.indexBlocks, .ok ()⟩ :: (events ++ events')) := by
  have hw := chopBlockIndexerIndex_writes ix n .indexBlocks .data block s
  rw [hindex] at hw
  have hsites : AllOkAt .indexBlocks events := hadd.allOkAt (by decide) (by decide)
  refine ⟨hrest.shaped, ?_, hw.trans (hadd.writes.trans hrest.writes), ?_, ?_, ?_⟩
  · have h := hrest.weight
    have h' := hadd.weight
    rw [dataBlocks_cons_pos hpos, List.length_cons]
    simp only at h
    split at h' <;> omega
  · intro x hx
    rcases List.mem_cons.mp hx with rfl | hx
    · simp
    · rcases List.mem_append.mp hx with hx | hx
      · rcases hadd.site x hx with hs | hs <;> simp [hs]
      · exact hrest.site x hx
  · rcases hrest.ending with ⟨hok, he, htotal, hne⟩ | ⟨hmem, huniq, k, hk, hle, htotal⟩
    · refine .inl ⟨by simp [hsites, hok], he, ?_, fun hall _ => ?_⟩
      · rw [htotal, List.flatten_cons, List.length_append, Nat.mod_add_mod, Nat.add_assoc]
      · obtain ⟨-, hall⟩ := (allOk_cons _ _).mp hall
        obtain ⟨hadded, hall⟩ := (allOk_append _ _).mp hall
        exact hne hall (.inr (hadd.ne_nil (.inr (hadd.status_ok.mpr hadded))))
    · refine .inr ⟨by simp [hmem], ?_, block.length + k, by omega, ?_, ?_⟩
      · intro e' he'
        rcases List.mem_cons.mp he' with he' | he'
        · simp at he'
        · rcases List.mem_append.mp he' with he' | he'
          · have h := hadd.site _ he'
            simp at h
          · exact huniq e' he'
      · rw [List.flatten_cons, List.length_append]
        omega
      · rw [htotal, Nat.mod_add_mod, Nat.add_assoc]
  · intro xs hok hp
    obtain ⟨_, hok⟩ := (allOk_cons _ _).mp hok
    obtain ⟨hok, hok'⟩ := (allOk_append _ _).mp hok
    have hblock := chopBlockIndexerIndex_stores hindex
    have hgrown := hadd.pending block xs (hadd.status_ok.mpr hok)
      ⟨hblock, List.length_pos_iff.mp hpos⟩ (hp.mono hw.keeps)
    have h := hrest.pending _ hok' hgrown
    rwa [List.append_assoc] at h

/-- The reading loop returns on every finite input, whatever its writes do. -/
theorem chopTreeIndexBlocksLoop_spec (ix : BlockIndexer σ H) {n : Nat} (hn : 2 ≤ n) (fuel k : Nat)
    (blocks : List Bytes) (final : ChopError) (v : IndexLocals H) (s : IndexState σ H)
    (hshape : Shaped (n - 1) 0 v.tree) (htotal : v.totalAmount < 2 ^ 64)
    (hweight : chainWeight (n - 1) v.tree + (dataBlocks blocks).length ≤ (n - 1) ^ k)
    (hfuel : k + 2 ≤ fuel) (hdepth : k ≤ 2 ^ 16)
    (hfit : n ≤ 2 ^ 32 ∨ chainWeight (n - 1) v.tree + (dataBlocks blocks).length < 2 ^ 32) :
    ∃ e v' s' events,
      chopTreeIndexBlocksLoop ix n fuel blocks final v s = .done (e, v', s') ∧
      IndexLoopSpec ix n blocks final v s e v' s' events := by
  induction blocks generalizing v s with
  | nil =>
    refine ⟨final, v, s, [], rfl, hshape, by simp [dataBlocks], .refl n s, by simp,
      .inl ⟨by simp, rfl, ?_, ?_⟩, ?_⟩
    · rw [List.flatten_nil, List.length_nil, Nat.add_zero, Nat.mod_eq_of_lt htotal]
    · simp [dataBlocks]
    · intro xs _ hp
      simpa using hp
  | cons block blocks ih =>
    rw [chopTreeIndexBlocksLoop]
    by_cases hzero : block.length = 0
    · rw [if_pos hzero]
      rw [dataBlocks_cons_zero hzero] at hweight hfit
      have hnil : block = [] := List.length_eq_zero_iff.mp hzero
      subst hnil
      obtain ⟨e, v', s', events, heq, h⟩ := ih v s hshape htotal hweight hfit
      refine ⟨e, v', s', events, heq, h.shaped, ?_, h.writes, h.site, ?_, ?_⟩
      · simpa [dataBlocks_cons_zero] using h.weight
      · simpa [LoopEnding, dataBlocks_cons_zero] using h.ending
      · simpa using h.pending
    · have hpos : 0 < block.length := by omega
      rw [if_neg hzero]
      rw [dataBlocks_cons_pos hpos, List.length_cons] at hweight hfit
      rcases hindex : chopBlockIndexerIndex ix .indexBlocks .data block s with ⟨e | index, s₁⟩
      · exact ⟨_, _, _, _, rfl, indexLoopSpec_error hshape hpos hindex⟩
      · have hlen := chain_length_le (k := k) (by omega) hshape (by omega)
        obtain ⟨status, tree, s₂, events, hadd, haddSpec⟩ :=
          chopBlockTreeAddIndex_spec ix hn fuel index s₁ hshape (by omega)
            (by omega) (by omega)
        have hw := haddSpec.weight_le
        obtain ⟨e, v', s₃, events', hloop, hspec⟩ :=
          ih ⟨tree, (v.totalAmount + block.length) % 2 ^ 64, some index⟩ s₂ haddSpec.shaped
            (Nat.mod_lt _ (by decide)) (by simp only; omega) (by simp only; omega)
        refine ⟨e, v', s₃, _, ?_, indexLoopSpec_step hpos hindex haddSpec hspec⟩
        simp only [hadd, Outcome.done_bind]
        exact hloop

/-- The chopper's own read failed: every block it gave was stored before. -/
def ChopperFailed (input : ChopperRun) (events : List WriteEvent) : Prop :=
  AllOkAt .indexBlocks events ∧ input.final ≠ .streamEnd

/-- Some operation failed whose status `chop_tree_index_blocks` or `chop_block_tree_flush`
looks at. -/
def VisibleFailure (input : ChopperRun) (events : List WriteEvent) : Prop :=
  ChopperFailed input events ∨
    (∃ e, e ≠ .streamEnd ∧ ⟨.indexBlocks, .error e⟩ ∈ events) ∨ ¬ AllOkAt .blockTreeFlush events

/-- What `chop_tree_index_blocks` returns, from the writes it made. -/
structure IndexBlocksSpec (ix : BlockIndexer σ H) (n : Nat) (input : ChopperRun) (s : IndexState σ H)
    (result : Except ChopError (Option H)) (s' : IndexState σ H) (events : List WriteEvent) :
    Prop where
  writes : Writes ix n s s' events
  result_error : (∃ e, result = .error e) ↔
    input.blocks.flatten.length = 0 ∨ VisibleFailure input events
  chopper : ChopperFailed input events → result =
    .error (if input.blocks.flatten.length = 0 then .indexerEmptySource else input.final)
  empty : input.blocks.flatten.length = 0 → AllOk events
  encodes : AllOk events → ∀ index, result = .ok index → ∃ root levels, index = some root ∧
    Encodes s'.holds ix.serialize (levels + 1) root input.blocks.flatten

theorem indexBlocks_of_no_flush {n fuel : Nat} {input : ChopperRun} {s s₁ : IndexState σ H}
    {e : ChopError} {v : IndexLocals H}
    (hloop : chopTreeIndexBlocksLoop ix n fuel input.blocks input.final ⟨[], 0, none⟩ s =
      .done (e, v, s₁)) (hend : ¬ (e = .streamEnd ∧ 0 < v.totalAmount)) :
    chopTreeIndexBlocks ix n fuel input s =
      .done (.error (if v.totalAmount = 0 then .indexerEmptySource else e), s₁) := by
  simp only [chopTreeIndexBlocks, hloop, Outcome.done_bind, if_neg hend]
  split <;> rfl

private theorem indexBlocks_empty {n fuel : Nat} (input : ChopperRun) (s : IndexState σ H)
    (hzero : input.blocks.flatten.length = 0) :
    chopTreeIndexBlocks ix n fuel input s = .done (.error .indexerEmptySource, s) := by
  have hloop : ∀ (blocks : List Bytes) (v : IndexLocals H), blocks.flatten.length = 0 →
      chopTreeIndexBlocksLoop ix n fuel blocks input.final v s = .done (input.final, v, s) := by
    intro blocks v
    induction blocks with
    | nil => intro _; rfl
    | cons block blocks ih =>
      intro h
      rw [List.flatten_cons, List.length_append] at h
      rw [chopTreeIndexBlocksLoop, if_pos (by omega)]
      exact ih (by omega)
  rw [indexBlocks_of_no_flush (hloop _ _ hzero) (by simp)]
  rfl

theorem indexBlocks_of_flush {n fuel : Nat} {input : ChopperRun} {s s₁ s₂ : IndexState σ H}
    {v : IndexLocals H} (status : Status) {index : Option H}
    (hloop : chopTreeIndexBlocksLoop ix n fuel input.blocks input.final ⟨[], 0, none⟩ s =
      .done (.streamEnd, v, s₁)) (htotal : 0 < v.totalAmount)
    (hflush : chopBlockTreeFlush ix n fuel v.tree v.index s₁ = .done (status, index, s₂)) :
    chopTreeIndexBlocks ix n fuel input s = .done (status.map fun _ => index, s₂) := by
  simp [chopTreeIndexBlocks, hloop, hflush, htotal, Nat.ne_of_gt htotal]

theorem chopBlockTreeFlush_nil {n fuel : Nat} (hfuel : 1 ≤ fuel) (index : Option H)
    (s : IndexState σ H) : chopBlockTreeFlush ix n fuel [] index s = .done (.ok (), index, s) := by
  obtain ⟨fuel, rfl⟩ : ∃ f, fuel = f + 1 := ⟨fuel - 1, by omega⟩
  simp [chopBlockTreeFlush, chopBlockTreeFlushLoop]

/-- Without a key block to flush, the handle is that of the last data block. -/
theorem indexBlocks_of_no_tree {n fuel : Nat} (hfuel : 1 ≤ fuel) {input : ChopperRun}
    {s s₁ : IndexState σ H} {v : IndexLocals H}
    (hloop : chopTreeIndexBlocksLoop ix n fuel input.blocks input.final ⟨[], 0, none⟩ s =
      .done (.streamEnd, v, s₁)) (htotal : 0 < v.totalAmount) (htree : v.tree = []) :
    chopTreeIndexBlocks ix n fuel input s = .done (.ok v.index, s₁) := by
  refine indexBlocks_of_flush (.ok ()) hloop htotal ?_
  rw [htree, chopBlockTreeFlush_nil hfuel]

private theorem map_error_iff {status : Status} {index : Option H} :
    (∃ e, (status.map fun _ => index) = .error e) ↔ status ≠ .ok () := by
  rcases status with e | ⟨⟩ <;> simp [Except.map]

private theorem map_eq_ok {status : Status} {index index' : Option H}
    (h : (status.map fun _ => index) = .ok index') : status = .ok () ∧ index = index' := by
  rcases status with e | ⟨⟩
  · simp [Except.map] at h
  · simpa [Except.map] using h

private theorem visibleFailure_iff_flush {n : Nat} {input : ChopperRun} {s s₁ : IndexState σ H}
    {v : IndexLocals H} {events : List WriteEvent}
    (hloop : IndexLoopSpec ix n input.blocks input.final ⟨[], 0, none⟩ s .streamEnd v s₁ events)
    (events' : List WriteEvent) (hsite : ∀ e ∈ events', e.site ≠ .indexBlocks) :
    ¬ ChopperFailed input (events ++ events') ∧
      (VisibleFailure input (events ++ events') ↔ ¬ AllOkAt .blockTreeFlush events') := by
  have hnoChopper : ¬ ChopperFailed input (events ++ events') := by
    rintro ⟨hok, hfinal⟩
    rcases hloop.ending with ⟨_, he, _⟩ | ⟨hmem, _⟩
    · exact hfinal he.symm
    · have h := hok _ (List.mem_append_left _ hmem) rfl
      simp at h
  have hnoData : ∀ e, e ≠ .streamEnd → ⟨.indexBlocks, .error e⟩ ∉ events ++ events' := by
    intro e he hmem
    rcases List.mem_append.mp hmem with hmem | hmem
    · rcases hloop.ending with ⟨hok, _⟩ | ⟨_, huniq, _⟩
      · have h := hok _ hmem rfl
        simp at h
      · exact he (huniq e hmem)
    · exact hsite _ hmem rfl
  have hflushSites : AllOkAt .blockTreeFlush events := allOkAt_of_site_ne hloop.site
  refine ⟨hnoChopper, ?_⟩
  simp only [VisibleFailure, hnoChopper, false_or, allOkAt_append, hflushSites, true_and]
  constructor
  · rintro (⟨e, he, hmem⟩ | h)
    · exact (hnoData e he hmem).elim
    · exact h
  · exact .inr

private theorem indexBlocksSpec_of_flush {n : Nat} {input : ChopperRun}
    {s s₁ s₂ : IndexState σ H} {v : IndexLocals H} {v' : FlushLocals H}
    {events events' : List WriteEvent} (hpos : 0 < input.blocks.flatten.length)
    (hloop : IndexLoopSpec ix n input.blocks input.final ⟨[], 0, none⟩ s .streamEnd v s₁ events)
    (hflush : FlushSpec ix n 0 v.tree s₁ v' s₂ events') :
    IndexBlocksSpec ix n input s (v'.err.map fun _ => v'.rootIndex) s₂ (events ++ events') := by
  obtain ⟨hnoChopper, hvisible⟩ := visibleFailure_iff_flush hloop _ hflush.site
  refine ⟨hloop.writes.trans hflush.writes, ?_, fun h => (hnoChopper h).elim, by omega, ?_⟩
  · rw [map_error_iff, ne_eq, hflush.err_ok, hvisible]
    exact ⟨.inr, fun h => h.resolve_left (by omega)⟩
  · intro hok index hresult
    obtain ⟨hok, hok'⟩ := (allOk_append _ _).mp hok
    obtain ⟨_, rfl⟩ := map_eq_ok hresult
    have hp := hloop.pending [] hok rfl
    exact hflush.encodes _ hok' hp

private theorem indexBlocksSpec_of_no_tree {n : Nat} {input : ChopperRun} {s s₁ : IndexState σ H}
    {v : IndexLocals H} {events : List WriteEvent} (hpos : 0 < input.blocks.flatten.length)
    (hloop : IndexLoopSpec ix n input.blocks input.final ⟨[], 0, none⟩ s .streamEnd v s₁ events)
    (htree : v.tree = []) : IndexBlocksSpec ix n input s (.ok v.index) s₁ events := by
  -- There is no key block to flush: no key block could be allocated, or the very first data block could not be
  -- written, with the code of a normal end.
  obtain ⟨hnoChopper, hvisible⟩ := visibleFailure_iff_flush hloop [] (by simp)
  rw [List.append_nil] at hnoChopper hvisible
  refine ⟨hloop.writes, ?_, fun h => (hnoChopper h).elim, by omega, ?_⟩
  · simp only [hvisible, allOkAt_nil, not_true, or_false]
    refine ⟨?_, by omega⟩
    rintro ⟨_, h⟩
    simp at h
  · intro hok
    rcases hloop.ending with ⟨_, _, _, hne⟩ | ⟨hmem, _⟩
    · refine (hne hok (.inl ?_) htree).elim
      intro hnil
      have h := flatten_eq_nil_of_dataBlocks hnil
      simp [h] at hpos
    · have h := hok _ hmem
      simp at h

private theorem indexBlocksSpec_of_error {n : Nat} {input : ChopperRun} {s s₁ : IndexState σ H}
    {e : ChopError} {v : IndexLocals H} {events : List WriteEvent}
    (hpos : 0 < input.blocks.flatten.length) (hend : e ≠ .streamEnd)
    (hloop : IndexLoopSpec ix n input.blocks input.final ⟨[], 0, none⟩ s e v s₁ events) :
    IndexBlocksSpec ix n input s (.error e) s₁ events := by
  refine ⟨hloop.writes, ?_, ?_, by omega, fun _ _ h => by simp at h⟩
  · refine ⟨fun _ => .inr ?_, fun _ => ⟨e, rfl⟩⟩
    rcases hloop.ending with ⟨hok, rfl, _⟩ | ⟨hmem, _⟩
    · exact .inl ⟨hok, hend⟩
    · exact .inr (.inl ⟨e, hend, hmem⟩)
  · rintro ⟨hok, _⟩
    rcases hloop.ending with ⟨_, rfl, _⟩ | ⟨hmem, _⟩
    · rw [if_neg (by omega)]
    · have h := hok _ hmem rfl
      simp at h

/-- `chop_tree_index_blocks` on every finite input shorter than `2 ^ 64` bytes whose key counts
fit the header field, whatever its writes do. -/
theorem chopTreeIndexBlocks_spec (ix : BlockIndexer σ H) {n : Nat} (hn : 3 ≤ n) (fuel : Nat)
    (input : ChopperRun) (s : IndexState σ H) (hsize : input.blocks.flatten.length < 2 ^ 64) (hfuel : 66 ≤ fuel)
    (hfit : n ≤ 2 ^ 32 ∨ (dataBlocks input.blocks).length < 2 ^ 32) :
    ∃ result s' events, chopTreeIndexBlocks ix n fuel input s = .done (result, s') ∧
      IndexBlocksSpec ix n input s result s' events := by
  by_cases hzero : input.blocks.flatten.length = 0
  · refine ⟨_, _, [], indexBlocks_empty input s hzero, .refl n s, ?_, ?_, by simp, by simp⟩
    · exact ⟨fun _ => .inl hzero, fun _ => ⟨_, rfl⟩⟩
    · intro _
      rw [if_pos hzero]
  · have hpos : 0 < input.blocks.flatten.length := by omega
    have htwo : 2 ≤ n := by omega
    have hlen := dataBlocks_length_le input.blocks
    have hpow : 2 ^ 64 ≤ (n - 1) ^ 64 := Nat.pow_le_pow_left (by omega) 64
    obtain ⟨e, v, s₁, events, hloop, hspec⟩ := chopTreeIndexBlocksLoop_spec ix htwo fuel 64
      input.blocks input.final ⟨[], 0, none⟩ s trivial (by simp)
      (by simp; omega) (by omega) (by decide) (by simpa using hfit)
    have htotal : 0 < v.totalAmount := by
      rcases hspec.ending with ⟨_, _, h, _⟩ | ⟨_, _, k, hk, hle, h⟩
      · rw [h, Nat.zero_add, Nat.mod_eq_of_lt hsize]
        exact hpos
      · rw [h, Nat.zero_add, Nat.mod_eq_of_lt (by omega)]
        exact hk
    by_cases hend : e = .streamEnd
    · subst hend
      by_cases htree : v.tree = []
      · exact ⟨_, _, _, indexBlocks_of_no_tree (by omega) hloop htotal htree,
          indexBlocksSpec_of_no_tree hpos hspec htree⟩
      · have hw := hspec.weight
        simp only [chainWeight_nil, Nat.zero_add] at hw
        obtain ⟨v', s₂, events', hflush, hfspec⟩ := chopBlockTreeFlush_spec ix htwo fuel 64
          v.index s₁ hspec.shaped htree (by omega) (by decide) (by omega) (by decide)
          (by omega)
        exact ⟨_, _, _, indexBlocks_of_flush _ hloop htotal hflush,
          indexBlocksSpec_of_flush hpos hspec hfspec⟩
    · have hrun := indexBlocks_of_no_flush hloop fun h => hend h.1
      rw [if_neg (Nat.ne_of_gt htotal)] at hrun
      exact ⟨_, _, _, hrun, indexBlocksSpec_of_error hpos hend hspec⟩

end Libchop
