import Libchop.Tree.DecodedBlock
import Libchop.Tree.IndexBlocks

/-!
# What every write and every fetch preserves

The writer changes the world by writing blocks only, and the reader by fetching them.  So what each write
of a block preserves is preserved by all of `chop_tree_index_blocks`, and what each fetch preserves by
every read of a tree stream.
-/

namespace Libchop

variable {σ H : Type} {ix : BlockIndexer σ H} {n fuel : Nat}

/-- No write of one of these data blocks breaks the invariant, none of a key block, and no allocation. -/
structure WritesPreserve (ix : BlockIndexer σ H) (n : Nat) (blocks : List Bytes)
    (inv : IndexState σ H → Prop) : Prop where
  data : ∀ block ∈ blocks, ∀ s, inv s → inv (chopBlockIndexerIndex ix .indexBlocks .data block s).2
  metadata : ∀ site block s, inv s → inv (chopBlockIndexerIndex ix site .metadata block s).2
  memory : ∀ depth s, inv s → inv (chopKeyBlockNew ix n depth s).2

/-- No write of a block breaks the invariant. -/
def Preserves (ix : BlockIndexer σ H) (inv : σ → Prop) : Prop :=
  ∀ role block w, inv w → inv (ix.index role block w).2

theorem chopKeyBlockNew_world (depth : Nat) (s : IndexState σ H) :
    (chopKeyBlockNew ix n depth s).2.world = s.world := by
  rw [chopKeyBlockNew]
  split <;> rfl

theorem chopKeyBlockNew_stored (depth : Nat) (s : IndexState σ H) :
    (chopKeyBlockNew ix n depth s).2.stored = s.stored := by
  rw [chopKeyBlockNew]
  split <;> rfl

theorem chopKeyBlockNew_trace (depth : Nat) (s : IndexState σ H) :
    ∃ status, (chopKeyBlockNew ix n depth s).2.trace = s.trace ++ [⟨.keyBlockNew, status⟩] := by
  rw [chopKeyBlockNew]
  split
  · exact ⟨.ok (), rfl⟩
  · exact ⟨.error enomem, rfl⟩

theorem Preserves.writesPreserve {inv : σ → Prop} (h : Preserves ix inv) (blocks : List Bytes) :
    WritesPreserve ix n blocks fun s => inv s.world where
  data block _ s hs := h .data block s.world hs
  metadata _ block s hs := h .metadata block s.world hs
  memory depth s hs := by
    rwa [chopKeyBlockNew_world]

theorem trace_writesPreserve (blocks : List Bytes) (e : WriteEvent) :
    WritesPreserve ix n blocks fun s => e ∈ s.trace where
  data _ _ _ hs := List.mem_append_left _ hs
  metadata _ _ _ hs := List.mem_append_left _ hs
  memory depth s hs := by
    obtain ⟨status, htrace⟩ := @chopKeyBlockNew_trace σ H ix n depth s
    rw [htrace]
    exact List.mem_append_left _ hs

/-- An operation that failed stays in the trace. -/
theorem failed_writesPreserve (blocks : List Bytes) :
    WritesPreserve ix n blocks fun s => ¬ AllOk s.trace where
  data _ _ _ hs := fun hok => hs ((allOk_append _ _).mp hok).1
  metadata _ _ _ hs := fun hok => hs ((allOk_append _ _).mp hok).1
  memory depth s hs := by
    obtain ⟨status, htrace⟩ := @chopKeyBlockNew_trace σ H ix n depth s
    rw [htrace]
    exact fun hok => hs ((allOk_append _ _).mp hok).1

/-- An iteration of `chop_block_tree_flush`: the write of its block failed, or the block was the topmost
one, or its handle went to the block above and the loop went on. -/
theorem chopBlockTreeFlushLoop_cases {block : KeyBlock} {parents : List KeyBlock}
    {v v' : FlushLocals H} {s s' : IndexState σ H}
    (hrun : chopBlockTreeFlushLoop ix n fuel (block :: parents) v s = .done (v', s')) :
    ∃ result flushed s₁, chopKeyBlockFlush ix .blockTreeFlush block s = .done (result, flushed, s₁) ∧
      ((∃ e, result = .error e ∧ s' = s₁) ∨
        (∃ root, result = .ok root ∧ parents = [] ∧ v'.rootIndex = some root ∧ s' = s₁) ∨
        ∃ root status parents' w s₂, result = .ok root ∧ parents ≠ [] ∧
          addIndexOrNew ix n (fuel - 1) (block.depth + 1) parents root s₁ = .done (status, parents', s₂) ∧
          chopBlockTreeFlushLoop ix n (fuel - 1) parents' w s₂ = .done (v', s')) := by
  cases fuel with
  | zero => cases hrun
  | succ fuel =>
    rw [chopBlockTreeFlushLoop] at hrun
    obtain ⟨⟨result, flushed, s₁⟩, hflush, hrun⟩ := Outcome.bind_eq_done.mp hrun
    refine ⟨result, flushed, s₁, hflush, ?_⟩
    cases result with
    | error e =>
      cases hrun
      exact .inl ⟨e, rfl, rfl⟩
    | ok root =>
      dsimp only at hrun
      cases parents with
      | nil =>
        rw [if_pos List.isEmpty_nil] at hrun
        cases fuel with
        | zero => cases hrun
        | succ fuel =>
          cases hrun
          exact .inr (.inl ⟨root, rfl, rfl, rfl, rfl⟩)
      | cons parent parents =>
        rw [if_neg (by simp)] at hrun
        obtain ⟨⟨status, parents', s₂⟩, hadd, hrun⟩ := Outcome.bind_eq_done.mp hrun
        rw [← addIndexOrNew_of_ne_nil (d := block.depth + 1) (List.cons_ne_nil parent parents)] at hadd
        exact .inr (.inr ⟨root, status, parents', _, s₂, rfl, List.cons_ne_nil _ _, hadd, hrun⟩)

section Steps

variable {blocks : List Bytes} {inv : IndexState σ H → Prop} (h : WritesPreserve ix n blocks inv)

include h

theorem chopKeyBlockFlush_preserves {site : WriteSite} {block block' : KeyBlock}
    {s s' : IndexState σ H} {result : Except ChopError H}
    (hrun : chopKeyBlockFlush ix site block s = .done (result, block', s')) (hs : inv s) : inv s' := by
  obtain ⟨filled, -, hrun⟩ := Outcome.bind_eq_done.mp hrun
  cases hrun
  exact h.metadata site _ s hs

theorem orKeyBlockNew_preserves {depth : Nat} {tree : List KeyBlock} {s s' : IndexState σ H}
    {result : Except ChopError (List KeyBlock)}
    (hrun : orKeyBlockNew ix n depth tree s = (result, s')) (hs : inv s) : inv s' := by
  rw [orKeyBlockNew] at hrun
  cases tree with
  | nil =>
    have hnew := h.memory depth s hs
    cases hrun
    exact hnew
  | cons block parents =>
    cases hrun
    exact hs

/-- Along the parents of a block, each of which may be flushed. -/
theorem chopKeyBlockAddIndex_preserves {tree tree' : List KeyBlock} {index : H} {status : Status}
    {s s' : IndexState σ H}
    (hrun : chopKeyBlockAddIndex ix n fuel tree index s = .done (status, tree', s')) (hs : inv s) :
    inv s' := by
  induction fuel generalizing tree index status s s' tree' with
  | zero => cases hrun
  | succ fuel ih =>
    cases tree with
    | nil =>
      cases hrun
      exact hs
    | cons block parents =>
      rw [chopKeyBlockAddIndex] at hrun
      by_cases hfull : block.keyCount + 1 ≥ n
      · rw [if_pos hfull] at hrun
        obtain ⟨⟨result, flushed, s₁⟩, hflush, hrun⟩ := Outcome.bind_eq_done.mp hrun
        have hs₁ := chopKeyBlockFlush_preserves h hflush hs
        cases result with
        | error err =>
          cases hrun
          exact hs₁
        | ok blockIndex =>
          dsimp only at hrun
          generalize hnew : orKeyBlockNew ix n _ parents s₁ = allocated at hrun
          obtain ⟨allocated, s₂⟩ := allocated
          have hs₂ := orKeyBlockNew_preserves h hnew hs₁
          cases allocated with
          | error err =>
            cases hrun
            exact hs₂
          | ok above =>
            obtain ⟨⟨added, parents', s₃⟩, hadd, hrun⟩ := Outcome.bind_eq_done.mp hrun
            have hs₃ := ih hadd hs₂
            cases added with
            | error err =>
              cases hrun
              exact hs₃
            | ok u =>
              cases hrun
              exact hs₃
      · rw [if_neg hfull] at hrun
        cases hrun
        exact hs

theorem addIndexOrNew_preserves {depth : Nat} {tree tree' : List KeyBlock} {index : H} {status : Status}
    {s s' : IndexState σ H}
    (hrun : addIndexOrNew ix n fuel depth tree index s = .done (status, tree', s')) (hs : inv s) :
    inv s' := by
  rw [addIndexOrNew] at hrun
  generalize hnew : orKeyBlockNew ix n depth tree s = allocated at hrun
  obtain ⟨allocated, s₁⟩ := allocated
  have hs₁ := orKeyBlockNew_preserves h hnew hs
  cases allocated with
  | error err =>
    cases hrun
    exact hs₁
  | ok tree => exact chopKeyBlockAddIndex_preserves h hrun hs₁

theorem chopBlockTreeAddIndex_preserves {tree tree' : List KeyBlock} {index : H} {status : Status}
    {s s' : IndexState σ H}
    (hrun : chopBlockTreeAddIndex ix n fuel tree index s = .done (status, tree', s')) (hs : inv s) :
    inv s' :=
  @addIndexOrNew_preserves σ H ix n fuel blocks inv h 0 tree tree' index status s s' hrun hs

theorem chopBlockTreeFlushLoop_preserves {tree : List KeyBlock} {v v' : FlushLocals H}
    {s s' : IndexState σ H}
    (hrun : chopBlockTreeFlushLoop ix n fuel tree v s = .done (v', s')) (hs : inv s) : inv s' := by
  induction fuel generalizing tree v s with
  | zero => cases hrun
  | succ fuel ih =>
    cases tree with
    | nil =>
      cases hrun
      exact hs
    | cons block parents =>
      obtain ⟨result, flushed, s₁, hflush, hnext⟩ := chopBlockTreeFlushLoop_cases hrun
      have hs₁ := chopKeyBlockFlush_preserves h hflush hs
      rcases hnext with ⟨-, -, rfl⟩ | ⟨-, -, -, -, rfl⟩ | ⟨root, status, parents', w, s₂, -, -, hadd, hrun⟩
      · exact hs₁
      · exact hs₁
      · exact ih hrun (addIndexOrNew_preserves h hadd hs₁)

/-- The loop reads any of the blocks. -/
theorem chopTreeIndexBlocksLoop_preserves {input : List Bytes}
    (hinput : ∀ block ∈ dataBlocks input, block ∈ blocks) {final err : ChopError} {v v' : IndexLocals H}
    {s s' : IndexState σ H}
    (hrun : chopTreeIndexBlocksLoop ix n fuel input final v s = .done (err, v', s')) (hs : inv s) :
    inv s' := by
  induction input generalizing v s with
  | nil =>
    cases hrun
    exact hs
  | cons block input ih =>
    rw [chopTreeIndexBlocksLoop] at hrun
    by_cases hempty : block.length = 0
    · rw [if_pos hempty] at hrun
      rw [dataBlocks_cons_zero hempty] at hinput
      exact ih hinput hrun hs
    · rw [if_neg hempty] at hrun
      rw [dataBlocks_cons_pos (Nat.pos_of_ne_zero hempty)] at hinput
      have hindexed := h.data block (hinput block List.mem_cons_self) s hs
      cases hindex : chopBlockIndexerIndex ix .indexBlocks .data block s with
      | mk result s₁ =>
        rw [hindex] at hrun hindexed
        cases result with
        | error e =>
          cases hrun
          exact hindexed
        | ok index =>
          dsimp only at hrun
          obtain ⟨⟨added, tree, s₂⟩, hadd, hrun⟩ := Outcome.bind_eq_done.mp hrun
          exact ih (fun block hblock => hinput block (List.mem_cons_of_mem _ hblock)) hrun
            (chopBlockTreeAddIndex_preserves h hadd hindexed)

end Steps

/-- The loop of `chop_tree_index_blocks`, and the flush that may follow. -/
theorem chopTreeIndexBlocks_parts {input : ChopperRun} {result : Except ChopError (Option H)}
    {s s' : IndexState σ H} (hrun : chopTreeIndexBlocks ix n fuel input s = .done (result, s')) :
    ∃ err v s₁, chopTreeIndexBlocksLoop ix n fuel input.blocks input.final ⟨[], 0, none⟩ s =
        .done (err, v, s₁) ∧
      ∀ {blocks : List Bytes} {inv : IndexState σ H → Prop}, WritesPreserve ix n blocks inv → inv s₁ → inv s' := by
  obtain ⟨⟨err, v, s₁⟩, hloop, hrun⟩ := Outcome.bind_eq_done.mp hrun
  refine ⟨err, v, s₁, hloop, ?_⟩
  intro blocks inv h hs₁
  obtain ⟨⟨status, index, s₂⟩, hflush, hrun⟩ := Outcome.bind_eq_done.mp hrun
  have hs₂ : inv s₂ := by
    by_cases hend : err = .streamEnd ∧ 0 < v.totalAmount
    · rw [if_pos hend] at hflush
      obtain ⟨⟨v', s₃⟩, hflushed, hflush⟩ := Outcome.bind_eq_done.mp hflush
      obtain ⟨-, -, hflush⟩ := Outcome.bind_eq_done.mp hflush
      cases hflush
      exact chopBlockTreeFlushLoop_preserves h hflushed hs₁
    · rw [if_neg hend] at hflush
      cases hflush
      exact hs₁
  dsimp only at hrun
  by_cases hzero : v.totalAmount = 0
  · rw [if_pos hzero] at hrun
    cases hrun
    exact hs₂
  · rw [if_neg hzero] at hrun
    cases hrun
    exact hs₂

/-- The rule for what the writes of a run of `chop_tree_index_blocks` preserve. -/
theorem chopTreeIndexBlocks_writesPreserve {input : ChopperRun} {inv : IndexState σ H → Prop}
    (h : WritesPreserve ix n (dataBlocks input.blocks) inv) {result : Except ChopError (Option H)}
    {s s' : IndexState σ H} (hrun : chopTreeIndexBlocks ix n fuel input s = .done (result, s'))
    (hs : inv s) : inv s' := by
  obtain ⟨err, v, s₁, hloop, hflush⟩ := chopTreeIndexBlocks_parts hrun
  exact hflush h (chopTreeIndexBlocksLoop_preserves h (fun _ hblock => hblock) hloop hs)

/-- The rule for invariants of the world under `chop_tree_index_blocks`. -/
theorem chopTreeIndexBlocks_preserves {inv : σ → Prop} (h : Preserves ix inv) {input : ChopperRun}
    {result : Except ChopError (Option H)} {s s' : IndexState σ H}
    (hrun : chopTreeIndexBlocks ix n fuel input s = .done (result, s')) (hs : inv s.world) :
    inv s'.world :=
  chopTreeIndexBlocks_writesPreserve (h.writesPreserve (dataBlocks input.blocks)) hrun hs

/-- Writes are held, and no write loses a block. -/
structure KeepsBlocks (ix : BlockIndexer σ H) (holds : σ → Holds H) : Prop where
  stores : ∀ role b w h w', ix.index role b w = (.ok h, w') → holds w' role h b
  keeps : ∀ role b w role' h c, holds w role' h c → holds (ix.index role b w).2 role' h c

/-- The blocks that were stored can still be found. -/
def IndexState.Held (holds : σ → Holds H) (s : IndexState σ H) : Prop :=
  ∀ role h b, s.holds role h b → holds s.world role h b

theorem KeepsBlocks.held_index {holds : σ → Holds H} (hk : KeepsBlocks ix holds) (site : WriteSite)
    (role : StoreRole) (block : Bytes) {s : IndexState σ H} (hs : s.Held holds) :
    (chopBlockIndexerIndex ix site role block s).2.Held holds := by
  intro role' h b hstored
  have hkept := hk.keeps role block s.world role' h b
  change ⟨role', b, h⟩ ∈ storedAfter role block s.stored (ix.index role block s.world).1 at hstored
  change holds (ix.index role block s.world).2 role' h b
  cases hindex : ix.index role block s.world with
  | mk result world =>
    rw [hindex] at hstored hkept
    cases result with
    | error e => exact hkept (hs _ _ _ hstored)
    | ok handle =>
      rcases List.mem_append.mp hstored with hbefore | hnew
      · exact hkept (hs _ _ _ hbefore)
      · cases List.mem_singleton.mp hnew
        exact hk.stores _ _ _ _ _ hindex

theorem KeepsBlocks.writesPreserve {holds : σ → Holds H} (hk : KeepsBlocks ix holds)
    (blocks : List Bytes) : WritesPreserve ix n blocks fun s => s.Held holds where
  data block _ _ hs := hk.held_index .indexBlocks .data block hs
  metadata site block _ hs := hk.held_index site .metadata block hs
  memory depth s hs := by
    intro role h b hstored
    rw [IndexState.holds, chopKeyBlockNew_stored] at hstored
    rw [chopKeyBlockNew_world]
    exact hs _ _ _ hstored

/-- A block indexer that loses no block holds what a run stored. -/
theorem KeepsBlocks.held {holds : σ → Holds H} (hk : KeepsBlocks ix holds) {input : ChopperRun}
    {result : Except ChopError (Option H)} {w : σ} {s' : IndexState σ H}
    (hrun : chopTreeIndexBlocks ix n fuel input ⟨w, [], []⟩ = .done (result, s')) : s'.Held holds :=
  chopTreeIndexBlocks_writesPreserve (hk.writesPreserve _) hrun fun _ _ _ hstored => by
    cases hstored

section Stored

variable {inv : σ → Prop} {stored : Bytes → σ → Prop}

/-- Under the invariant, a block that was indexed is stored, and no other write changes that. -/
structure Stores (ix : BlockIndexer σ H) (inv : σ → Prop) (stored : Bytes → σ → Prop) : Prop where
  invariant : Preserves ix inv
  stores : ∀ {block w handle w'}, inv w → ix.index .data block w = (.ok handle, w') → stored block w'
  keeps : ∀ block, Preserves ix (stored block)

private theorem chopTreeIndexBlocksLoop_stores (h : Stores ix inv stored) {input : List Bytes}
    {final err : ChopError} {v v' : IndexLocals H} {s s' : IndexState σ H} (hs : inv s.world)
    (hrun : chopTreeIndexBlocksLoop ix n fuel input final v s = .done (err, v', s')) :
    (∀ block ∈ dataBlocks input, stored block s'.world) ∨
      ∃ e, ⟨.indexBlocks, .error e⟩ ∈ s'.trace := by
  induction input generalizing v s with
  | nil => exact .inl fun block hblock => (List.not_mem_nil hblock).elim
  | cons block input ih =>
    rw [chopTreeIndexBlocksLoop] at hrun
    by_cases hempty : block.length = 0
    · rw [if_pos hempty] at hrun
      rw [dataBlocks_cons_zero hempty]
      exact ih hs hrun
    · rw [if_neg hempty] at hrun
      rw [dataBlocks_cons_pos (Nat.pos_of_ne_zero hempty)]
      have hw := h.invariant .data block s.world hs
      cases hindex : ix.index .data block s.world with
      | mk result w =>
        rw [chopBlockIndexerIndex, hindex] at hrun
        rw [hindex] at hw
        cases result with
        | error e =>
          cases hrun
          exact .inr ⟨_, List.mem_append_right _ List.mem_cons_self⟩
        | ok index =>
          dsimp only at hrun
          obtain ⟨⟨added, tree, s₂⟩, hadd, hrun⟩ := Outcome.bind_eq_done.mp hrun
          have hkeeps : WritesPreserve ix n (dataBlocks input) fun s => stored block s.world :=
            (h.keeps block).writesPreserve _
          have hadded : stored block s₂.world :=
            chopBlockTreeAddIndex_preserves hkeeps hadd (h.stores hs hindex)
          have hlast : stored block s'.world :=
            chopTreeIndexBlocksLoop_preserves hkeeps (fun _ hblock => hblock) hrun hadded
          have hs₂ : inv s₂.world :=
            chopBlockTreeAddIndex_preserves (h.invariant.writesPreserve []) hadd hw
          refine (ih hs₂ hrun).imp_left fun hrest other hother => ?_
          rcases List.mem_cons.mp hother with rfl | hother
          · exact hlast
          · exact hrest other hother

/-- When no write of a data block fails, every one is stored in the end. -/
theorem chopTreeIndexBlocks_stores (h : Stores ix inv stored) {input : ChopperRun}
    {result : Except ChopError (Option H)} {s s' : IndexState σ H} (hs : inv s.world)
    (hrun : chopTreeIndexBlocks ix n fuel input s = .done (result, s'))
    (hok : AllOkAt .indexBlocks s'.trace) :
    ∀ block ∈ dataBlocks input.blocks, stored block s'.world := by
  obtain ⟨err, v, s₁, hloop, hflush⟩ := chopTreeIndexBlocks_parts hrun
  rcases chopTreeIndexBlocksLoop_stores h hs hloop with hstored | ⟨e, hfailed⟩
  · intro block hblock
    exact hflush ((h.keeps block).writesPreserve []) (hstored block hblock)
  · cases hok _ (hflush (trace_writesPreserve [] _) hfailed) rfl

end Stored

section Reads

variable {bf : BlockFetcher σ H} {inv : ReadState σ → Prop}

/-- No fetch breaks the invariant. -/
structure ReadPreserves (bf : BlockFetcher σ H) (inv : ReadState σ → Prop) : Prop where
  ok : ∀ {role index s bytes world}, inv s → bf.fetch role index s.world = (.ok bytes, world) →
    inv ⟨world, s.failures⟩
  error : ∀ {role index s e left world}, inv s →
    bf.fetch role index s.world = (.error (e, left), world) → inv ⟨world, s.failures ++ [e]⟩

variable (h : ReadPreserves bf inv)

include h

theorem chopDecodedBlockFetch_preserves {role : StoreRole} {index : H} {parent : Option DecodedBlock}
    {block block' : DecodedBlock} {status : Status} {s s' : ReadState σ}
    (hrun : chopDecodedBlockFetch bf role index parent block s = (status, block', s')) (hs : inv s) :
    inv s' := by
  rw [chopDecodedBlockFetch] at hrun
  cases hfetch : bf.fetch role index s.world with
  | mk answer world =>
    rw [hfetch] at hrun
    cases answer with
    | error failure =>
      cases hrun
      exact h.error hs hfetch
    | ok bytes =>
      cases hrun
      exact h.ok hs hfetch

theorem fetchNextChild_preserves (block : DecodedBlock) (parents : List DecodedBlock)
    (child : Option DecodedBlock) {s : ReadState σ} (hs : inv s) :
    inv (fetchNextChild bf block parents child s).state := by
  rw [fetchNextChild]
  cases bf.deserialize (block.buffer.drop block.offset) with
  | error err => exact hs
  | ok read =>
    obtain ⟨index, serializedSize⟩ := read
    dsimp only
    generalize hfetch : chopDecodedBlockFetch bf _ index _ _ s = fetched
    obtain ⟨status, child', s'⟩ := fetched
    have hs' := chopDecodedBlockFetch_preserves h hfetch hs
    cases status with
    | error err => exact hs'
    | ok u => exact hs'

theorem chopDecodedBlockNextChild_preserves {fuel : Nat} {block : DecodedBlock}
    {parents : List DecodedBlock} {child : Option DecodedBlock} {s : ReadState σ} {r : NextChild σ}
    (hrun : chopDecodedBlockNextChild bf fuel block parents child s = .done r) (hs : inv s) :
    inv r.state := by
  induction fuel generalizing block parents child s r with
  | zero => cases hrun
  | succ fuel ih =>
    unfold chopDecodedBlockNextChild at hrun
    split at hrun
    · split at hrun
      · cases hrun
        exact hs
      · cases parents with
        | nil => cases hrun
        | cons parent grandparents =>
          obtain ⟨above, habove, hrun⟩ := Outcome.bind_eq_done.mp hrun
          have hs₁ := ih habove hs
          dsimp only at hrun
          cases hstatus : above.status with
          | error err =>
            rw [hstatus] at hrun
            cases hrun
            exact hs₁
          | ok u =>
            rw [hstatus] at hrun
            exact ih hrun hs₁
    · cases hrun
      exact fetchNextChild_preserves h block parents child hs

theorem chopDecodedBlockRefill_preserves {size fuel : Nat} {below parents : List DecodedBlock}
    {block : DecodedBlock} {out : Bytes} {s : ReadState σ}
    {result : Except (ReadResult σ) (DecodedBlock × List DecodedBlock × ReadState σ)}
    (hrun : chopDecodedBlockRefill bf size below fuel block parents out s = .done result) (hs : inv s) :
    match result with
    | .error r => inv r.state
    | .ok (_, _, s') => inv s' := by
  unfold chopDecodedBlockRefill at hrun
  split at hrun
  · cases parents with
    | nil => cases hrun
    | cons parent grandparents =>
      obtain ⟨next, hnext, hrun⟩ := Outcome.bind_eq_done.mp hrun
      have hs₁ := chopDecodedBlockNextChild_preserves h hnext hs
      dsimp only at hrun
      cases hstatus : next.status with
      | ok u =>
        rw [hstatus] at hrun
        cases hrun
        exact hs₁
      | error err =>
        rw [hstatus] at hrun
        dsimp only at hrun
        split at hrun
        · obtain ⟨-, -, hrun⟩ := Outcome.bind_eq_done.mp hrun
          cases hrun
          exact hs₁
        · cases hrun
          exact hs₁
  · cases hrun
    exact hs

theorem chopDecodedBlockReadData_preserves {size fuel : Nat} {below parents : List DecodedBlock}
    {block : DecodedBlock} {out : Bytes} {s : ReadState σ} {r : ReadResult σ}
    (hrun : chopDecodedBlockReadData bf size below fuel block parents out s = .done r) (hs : inv s) :
    inv r.state := by
  induction fuel generalizing block parents out s with
  | zero => cases hrun
  | succ fuel ih =>
    rw [chopDecodedBlockReadData] at hrun
    split at hrun
    · obtain ⟨result, hrefill, hrun⟩ := Outcome.bind_eq_done.mp hrun
      have hs₁ := chopDecodedBlockRefill_preserves h hrefill hs
      cases result with
      | error r' =>
        cases hrun
        exact hs₁
      | ok refilled =>
        obtain ⟨block', parents', s'⟩ := refilled
        exact ih hrun hs₁
    · cases hrun
      exact hs

theorem chopDecodedBlockRead_preserves {size fuel : Nat} {block : DecodedBlock}
    {parents below : List DecodedBlock} {s : ReadState σ} {r : ReadResult σ}
    (hrun : chopDecodedBlockRead bf size fuel block parents below s = .done r) (hs : inv s) :
    inv r.state := by
  induction fuel generalizing block parents below s with
  | zero => cases hrun
  | succ fuel ih =>
    unfold chopDecodedBlockRead at hrun
    split at hrun
    · cases below with
      | cons child below => exact ih hrun hs
      | nil =>
        obtain ⟨next, hnext, hrun⟩ := Outcome.bind_eq_done.mp hrun
        have hs₁ := chopDecodedBlockNextChild_preserves h hnext hs
        cases hstatus : next.status with
        | error err =>
          simp only [hstatus] at hrun
          cases hrun
          exact hs₁
        | ok u =>
          cases hchild : next.child with
          | none =>
            simp only [hstatus, hchild] at hrun
            cases hrun
          | some child =>
            simp only [hstatus, hchild] at hrun
            exact ih hrun hs₁
    · obtain ⟨-, -, hrun⟩ := Outcome.bind_eq_done.mp hrun
      exact chopDecodedBlockReadData_preserves h hrun hs

/-- The rule for invariants of the world and of its failures under reads of a stream. -/
theorem treeStreamRead_preserves {fuel size : Nat} {tree tree' : DecodedBlockTree H}
    {s s' : ReadState σ} {status : Status} {bytes : Bytes}
    (hrun : treeStreamRead bf fuel tree size s = .done (status, bytes, tree', s')) (hs : inv s) :
    inv s' := by
  rw [treeStreamRead] at hrun
  cases hchain : tree.chain with
  | cons top below =>
    rw [hchain] at hrun
    obtain ⟨r, hread, hrun⟩ := Outcome.bind_eq_done.mp hrun
    cases hrun
    exact chopDecodedBlockRead_preserves h hread hs
  | nil =>
    rw [hchain] at hrun
    dsimp only at hrun
    generalize hfetch : chopDecodedBlockFetch bf .metadata tree.index none _ s = fetched at hrun
    obtain ⟨fetchStatus, top, s₁⟩ := fetched
    have hs₁ := chopDecodedBlockFetch_preserves h hfetch hs
    cases fetchStatus with
    | error err =>
      cases hrun
      exact hs₁
    | ok u =>
      obtain ⟨r, hread, hrun⟩ := Outcome.bind_eq_done.mp hrun
      cases hrun
      exact chopDecodedBlockRead_preserves h hread hs₁

end Reads

end Libchop
