import Libchop.Tree.Termination

/-!
# The shape of the hash tree

A key block is flushed when a key is added to it while it is full, and the key blocks that are left are
flushed in the end.  The blocks of a depth come out as the groups of the handles below them, each group
full but the last one, whatever number of data blocks there is.
-/

namespace Libchop

variable {σ H : Type}

def headerDepth (bytes : Bytes) : Nat := (bytes.getD 6 0).toNat + 256 * (bytes.getD 7 0).toNat

section Levels

variable (log : List (StoredBlock H))

def storedData : List (StoredBlock H) := log.filter fun block => block.role = .data

def storedLevel (depth : Nat) : List (StoredBlock H) :=
  log.filter fun block => block.role = .metadata ∧ headerDepth block.bytes = depth

/-- The handles that the key blocks of a depth are made of. -/
def handlesBelow : Nat → List H
  | 0 => (storedData log).map StoredBlock.handle
  | depth + 1 => (storedLevel log depth).map StoredBlock.handle

end Levels

/-- Consecutive groups.  All but the last one are full, and none is empty. -/
structure Grouped (size : Nat) (items : List H) (groups : List (List H)) : Prop where
  flatten : groups.flatten = items
  bounds : ∀ group ∈ groups, group ≠ [] ∧ group.length ≤ size
  full : ∀ group ∈ groups.dropLast, group.length = size

/-- The stored blocks form a tree of this height with this root. -/
structure TreeShape (serialize : H → Bytes) (fanOut : Nat) (log : List (StoredBlock H)) (root : H)
    (height : Nat) : Prop where
  level : ∀ depth ≤ height, ∃ groups, Grouped fanOut (handlesBelow log depth) groups ∧
    (storedLevel log depth).map StoredBlock.bytes = groups.map (keyBlockBytes serialize depth)
  above : ∀ depth, height < depth → storedLevel log depth = []
  root : (storedLevel log height).map StoredBlock.handle = [root]
  rootKeys : 0 < height → 2 ≤ (handlesBelow log height).length

theorem headerDepth_keyBlockBytes (serialize : H → Bytes) {depth : Nat} (h : depth < 2 ^ 16)
    (keys : List H) : headerDepth (keyBlockBytes serialize depth keys) = depth := by
  have hlow : depth &&& 0xff = depth % 2 ^ 8 := Nat.and_two_pow_sub_one_eq_mod depth 8
  have hhigh : depth >>> 8 &&& 0xff = depth / 2 ^ 8 % 2 ^ 8 := by
    rw [← Nat.shiftRight_eq_div_pow]
    exact Nat.and_two_pow_sub_one_eq_mod (depth >>> 8) 8
  simp only [headerDepth, keyBlockBytes, keyBlockHeader, List.cons_append, List.getD_cons_succ,
    List.getD_cons_zero, UInt8.toNat_ofNat', hlow, hhigh]
  omega

section Record

variable {log log' : List (StoredBlock H)}

theorem storedLevel_append (depth : Nat) :
    storedLevel (log ++ log') depth = storedLevel log depth ++ storedLevel log' depth :=
  List.filter_append ..

theorem storedData_append : storedData (log ++ log') = storedData log ++ storedData log' :=
  List.filter_append ..

/-- A key block belongs to the level of its depth. -/
theorem storedLevel_keyBlock (serialize : H → Bytes) {depth : Nat} (h : depth < 2 ^ 16)
    (keys : List H) (handle : H) (depth' : Nat) :
    storedLevel [⟨.metadata, keyBlockBytes serialize depth keys, handle⟩] depth' =
      if depth = depth' then [⟨.metadata, keyBlockBytes serialize depth keys, handle⟩] else [] := by
  simp [storedLevel, List.filter_cons, headerDepth_keyBlockBytes serialize h]

theorem storedLevel_flushed {serialize : H → Bytes} {depth : Nat} (h : depth < 2 ^ 16) {keys : List H}
    {handle : H} (hlog : log' = log ++ [⟨.metadata, keyBlockBytes serialize depth keys, handle⟩])
    (depth' : Nat) :
    storedLevel log' depth' = storedLevel log depth' ++
      if depth = depth' then [⟨.metadata, keyBlockBytes serialize depth keys, handle⟩] else [] := by
  rw [hlog, storedLevel_append, storedLevel_keyBlock serialize h]

theorem storedLevel_data (bytes : Bytes) (handle : H) (depth : Nat) :
    storedLevel [⟨.data, bytes, handle⟩] depth = [] := by
  simp [storedLevel]

end Record

/-- A chain of key blocks from this depth on, while it is built.  All handles of a level are in its full
blocks, which are stored, or in its block of the chain. -/
def Building (serialize : H → Bytes) (fanOut : Nat) (log : List (StoredBlock H)) :
    Nat → List KeyBlock → List H → Prop
  | depth, [], items => items = [] ∧ ∀ depth' ≥ depth, storedLevel log depth' = []
  | depth, block :: parents, items =>
    ∃ (groups : List (List H)) (keys : List H), items = groups.flatten ++ keys ∧
      (∀ group ∈ groups, group.length = fanOut) ∧
      keys ≠ [] ∧ keys.length ≤ fanOut ∧ block.depth = depth ∧ block.keyCount = keys.length ∧
      keyBlockHeaderSize ≤ block.keys.length ∧
      block.keys.drop keyBlockHeaderSize = keys.flatMap serialize ∧
      (storedLevel log depth).map StoredBlock.bytes = groups.map (keyBlockBytes serialize depth) ∧
      Building serialize fanOut log (depth + 1) parents
        ((storedLevel log depth).map StoredBlock.handle)

/-- What is below a chain does not matter to it. -/
theorem Building.congr {serialize : H → Bytes} {fanOut : Nat} {log log' : List (StoredBlock H)}
    {depth : Nat} {blocks : List KeyBlock} {items : List H}
    (h : Building serialize fanOut log depth blocks items)
    (hlevels : ∀ depth' ≥ depth, storedLevel log' depth' = storedLevel log depth') :
    Building serialize fanOut log' depth blocks items := by
  induction blocks generalizing depth items with
  | nil => exact ⟨h.1, fun depth' hge => (hlevels depth' hge).trans (h.2 depth' hge)⟩
  | cons block parents ih =>
    obtain ⟨groups, keys, hitems, hfull, hne, hle, hdepth, hcount, hsize, hkeys, hstored, hparents⟩ := h
    refine ⟨groups, keys, hitems, hfull, hne, hle, hdepth, hcount, hsize, hkeys, ?_, ?_⟩
    · rw [hlevels depth (Nat.le_refl _), hstored]
    · rw [hlevels depth (Nat.le_refl _)]
      exact ih hparents fun depth' hge => hlevels depth' (by omega)

/-- The chain of key blocks is well shaped. -/
theorem Building.shaped {serialize : H → Bytes} {fanOut depth : Nat} {log : List (StoredBlock H)}
    {blocks : List KeyBlock} {items : List H} (h : Building serialize fanOut log depth blocks items) :
    Shaped fanOut depth blocks := by
  induction blocks generalizing depth items with
  | nil => trivial
  | cons block parents ih =>
    obtain ⟨groups, keys, -, -, hne, hle, hdepth, hcount, hsize, -, -, hparents⟩ := h
    have hpos := List.length_pos_iff.mpr hne
    exact ⟨hdepth, by omega, by omega, hsize, ih hparents⟩

/-- The run kept the data blocks and the key blocks of lower levels. -/
structure KeepsBelow (depth : Nat) (log log' : List (StoredBlock H)) : Prop where
  level : ∀ depth' < depth, storedLevel log' depth' = storedLevel log depth'
  data : storedData log' = storedData log

theorem KeepsBelow.refl (depth : Nat) (log : List (StoredBlock H)) : KeepsBelow depth log log :=
  ⟨fun _ _ => rfl, rfl⟩

theorem KeepsBelow.trans {depth depth' : Nat} {log log' log'' : List (StoredBlock H)}
    (h : KeepsBelow depth log log') (h' : KeepsBelow depth' log' log'') (hle : depth ≤ depth') :
    KeepsBelow depth log log'' where
  level := by
    intro below hlt
    rw [h'.level below (by omega), h.level below hlt]
  data := h'.data.trans h.data

theorem keepsBelow_flushed {serialize : H → Bytes} {depth : Nat} (h : depth < 2 ^ 16) {keys : List H}
    {handle : H} {log log' : List (StoredBlock H)}
    (hlog : log' = log ++ [⟨.metadata, keyBlockBytes serialize depth keys, handle⟩]) :
    KeepsBelow depth log log' where
  level := by
    intro depth' hlt
    rw [storedLevel_flushed h hlog, if_neg (by omega), List.append_nil]
  data := by
    rw [hlog, storedData_append]
    simp [storedData]

/-- A key block is stored with the header of its keys. -/
theorem flush_recorded {ix : BlockIndexer σ H} {site : WriteSite} {depth : Nat}
    {block block' : KeyBlock} {keys : List H} {s s' : IndexState σ H} {result : Except ChopError H}
    (hdepth : block.depth = depth) (hcount : block.keyCount = keys.length)
    (hkeys : block.keys.drop keyBlockHeaderSize = keys.flatMap ix.serialize)
    (h : chopKeyBlockFlush ix site block s = .done (result, block', s')) (hok : AllOk s'.trace) :
    depth < 2 ^ 16 ∧ block' = block.withHeader ∧ ∃ root, result = .ok root ∧
      s'.stored = s.stored ++ [⟨.metadata, keyBlockBytes ix.serialize depth keys, root⟩] := by
  obtain ⟨_, hdepth16, hblock, root, hroot, hstored⟩ := flush_done h hok
  have hbytes : block.withHeader.keys = keyBlockBytes ix.serialize depth keys := by
    rw [KeyBlock.withHeader, hcount, hdepth, hkeys, keyBlockBytes]
  rw [hbytes] at hstored
  exact ⟨by omega, hblock, root, hroot, hstored⟩

section Insertion

variable {serialize : H → Bytes} {fanOut depth : Nat} {log : List (StoredBlock H)}
  {block : KeyBlock} {parents : List KeyBlock} {items : List H}

/-- A block with room takes the handle. -/
theorem Building.append {ix : BlockIndexer σ H}
    (h : Building ix.serialize fanOut log depth (block :: parents) items)
    (hroom : block.keyCount < fanOut) (index : H) :
    Building ix.serialize fanOut log depth (keyBlockAppend ix block index :: parents)
      (items ++ [index]) := by
  obtain ⟨groups, keys, rfl, hfull, hne, hle, hdepth, hcount, hsize, hkeys, hstored, hparents⟩ := h
  refine ⟨groups, keys ++ [index], by simp, hfull, by simp, ?_, hdepth, ?_, ?_, ?_, hstored, hparents⟩
  · rw [List.length_append, List.length_singleton]
    omega
  · simp [keyBlockAppend, hcount]
  · simp only [keyBlockAppend, List.length_append]
    omega
  · simp [keyBlockAppend, List.drop_append_of_le_length hsize, hkeys]

/-- A chain begins with one handle. -/
theorem Building.single {ix : BlockIndexer σ H} {block : KeyBlock} (hdepth : block.depth = depth)
    (hempty : block.keyCount = 0) (hkeys : block.keys.length = keyBlockHeaderSize)
    (hfan : 1 ≤ fanOut) {groups : List (List H)}
    (hfull : ∀ group ∈ groups, group.length = fanOut)
    (hstored : (storedLevel log depth).map StoredBlock.bytes =
      groups.map (keyBlockBytes ix.serialize depth))
    (hparents : Building ix.serialize fanOut log (depth + 1) parents
      ((storedLevel log depth).map StoredBlock.handle)) (index : H) :
    Building ix.serialize fanOut log depth (keyBlockAppend ix block index :: parents)
      (groups.flatten ++ [index]) := by
  refine ⟨groups, [index], rfl, hfull, by simp, hfan, hdepth, ?_, ?_, ?_, hstored, hparents⟩
  · simp [keyBlockAppend, hempty]
  · simp only [keyBlockAppend, List.length_append]
    omega
  · simp [keyBlockAppend, ← hkeys]

private theorem Building.new {ix : BlockIndexer σ H} (hfan : 1 ≤ fanOut)
    (hbuilding : Building ix.serialize fanOut log depth [] items) (index : H) :
    Building ix.serialize fanOut log depth [keyBlockAppend ix (emptyKeyBlock depth) index]
      (items ++ [index]) := by
  obtain ⟨rfl, hnone⟩ := hbuilding
  have hlevel := hnone depth (Nat.le_refl _)
  have hstored : (storedLevel log depth).map StoredBlock.bytes =
      ([] : List (List H)).map (keyBlockBytes ix.serialize depth) := by
    rw [hlevel, List.map_nil, List.map_nil]
  have hparents : Building ix.serialize fanOut log (depth + 1) []
      ((storedLevel log depth).map StoredBlock.handle) := by
    rw [hlevel]
    exact ⟨rfl, fun depth' hge => hnone depth' (by omega)⟩
  exact Building.single rfl rfl rfl hfan (List.forall_mem_nil _) hstored hparents index

private theorem Building.carry {ix : BlockIndexer σ H} {log' : List (StoredBlock H)}
    {groups : List (List H)} {keys : List H} {root : H}
    (hdepth : block.depth = depth) (hfan : 1 ≤ fanOut) (hitems : items = groups.flatten ++ keys)
    (hfull : ∀ group ∈ groups, group.length = fanOut) (hlast : keys.length = fanOut)
    (hstored : (storedLevel log depth).map StoredBlock.bytes =
      groups.map (keyBlockBytes ix.serialize depth))
    (hlevel : storedLevel log' depth = storedLevel log depth ++
      [⟨.metadata, keyBlockBytes ix.serialize depth keys, root⟩])
    (hbuilt : Building ix.serialize fanOut log' (depth + 1) parents
      ((storedLevel log depth).map StoredBlock.handle ++ [root])) (index : H) :
    Building ix.serialize fanOut log' depth
      (keyBlockAppend ix (chopKeyBlockReinit block.withHeader) index :: parents) (items ++ [index]) := by
  have hgroups : ∀ group ∈ groups ++ [keys], group.length = fanOut := by
    simpa [or_imp, forall_and, hlast] using hfull
  have hbytes : (storedLevel log' depth).map StoredBlock.bytes =
      (groups ++ [keys]).map (keyBlockBytes ix.serialize depth) := by
    simp [hlevel, hstored]
  have hchain : Building ix.serialize fanOut log' (depth + 1) parents
      ((storedLevel log' depth).map StoredBlock.handle) := by
    simpa [hlevel] using hbuilt
  have hdepth' : (chopKeyBlockReinit block.withHeader).depth = depth := hdepth
  have hempty : (chopKeyBlockReinit block.withHeader).keyCount = 0 := rfl
  have hheader : (chopKeyBlockReinit block.withHeader).keys.length = keyBlockHeaderSize := by
    simp [chopKeyBlockReinit]
  have hsingle := Building.single hdepth' hempty hheader hfan hgroups hbytes hchain index
  rw [List.flatten_append, List.flatten_singleton, ← hitems] at hsingle
  exact hsingle

/-- `chop_key_block_add_index`: a full block becomes one of the stored ones, and its handle goes to the
block above. -/
theorem chopKeyBlockAddIndex_building {ix : BlockIndexer σ H} {n : Nat} (hn : 2 ≤ n)
    {fuel : Nat} {blocks blocks' : List KeyBlock} {index : H}
    {s s' : IndexState σ H} {status : Status}
    (hbuilding : Building ix.serialize (n - 1) s.stored depth blocks items)
    (h : addIndexOrNew ix n fuel depth blocks index s = .done (status, blocks', s'))
    (hok : AllOk s'.trace) :
    Building ix.serialize (n - 1) s'.stored depth blocks' (items ++ [index]) ∧
      KeepsBelow depth s.stored s'.stored := by
  induction fuel generalizing depth blocks blocks' items index s s' status with
  | zero =>
    rcases orKeyBlockNew_cases ix n depth blocks s with ⟨-, heq⟩ | ⟨rfl, -, heq⟩ | ⟨rfl, -, heq⟩
    · rw [addIndexOrNew, heq] at h
      simp [chopKeyBlockAddIndex] at h
    · rw [addIndexOrNew, heq] at h
      simp [chopKeyBlockAddIndex] at h
    · rw [addIndexOrNew, heq] at h
      cases h
      simp at hok
  | succ fuel ih =>
    cases blocks with
    | nil =>
      rcases orKeyBlockNew_cases ix n depth [] s with ⟨hne, -⟩ | ⟨-, -, heq⟩ | ⟨-, -, heq⟩
      · exact (hne rfl).elim
      · have hroom : ¬ ((emptyKeyBlock depth).keyCount + 1 ≥ n) := by
          simp only [emptyKeyBlock]
          omega
        simp only [addIndexOrNew, heq, chopKeyBlockAddIndex, if_neg hroom, Outcome.pure_eq_done,
          Outcome.done.injEq, Prod.mk.injEq] at h
        obtain ⟨_, rfl, rfl⟩ := h
        exact ⟨hbuilding.new (by omega) index, .refl _ _⟩
      · rw [addIndexOrNew, heq] at h
        cases h
        simp at hok
    | cons block parents =>
      obtain ⟨groups, keys, hitems, hfull, hne, hle, hdepth, hcount, hsize, hkeys, hstored, hparents⟩ :=
        hbuilding
      rw [addIndexOrNew_of_ne_nil (List.cons_ne_nil _ _)] at h
      by_cases hroom : n ≤ block.keyCount + 1
      · rw [addIndex_full index s hroom, Outcome.bind_eq_done] at h
        obtain ⟨⟨result, block', s₁⟩, hflush, h⟩ := h
        dsimp only at h
        cases result with
        | error e =>
          cases h
          obtain ⟨_, _, root, hroot, _⟩ := flush_recorded hdepth hcount hkeys hflush hok
          cases hroot
        | ok root =>
          obtain ⟨⟨status', parents', s₂⟩, hadd, h⟩ := Outcome.bind_eq_done.mp h
          have hs₂ : AllOk s₂.trace := by
            rcases status' with e | ⟨⟩
            · cases h
              exact hok
            · cases h
              exact hok
          have hs₁ : AllOk s₁.trace :=
            by_contra fun hnot => addIndexOrNew_preserves (failed_writesPreserve []) hadd hnot hs₂
          obtain ⟨hdepth16, rfl, root', hroot, hlog⟩ := flush_recorded hdepth hcount hkeys hflush hs₁
          cases hroot
          have hflushed := storedLevel_flushed hdepth16 hlog
          have hkept := keepsBelow_flushed hdepth16 hlog
          have habove := hparents.congr fun depth' hge => by
            rw [hflushed depth', if_neg (by omega), List.append_nil]
          have hd : block.withHeader.depth = depth := hdepth
          rw [hd] at hadd
          have hshape : Shaped (n - 1) (depth + 1) parents := hparents.shaped
          obtain ⟨rfl, -⟩ := chopKeyBlockAddIndex_done hn hshape hadd hs₂
          obtain ⟨hbuilt, hkeep⟩ := ih habove hadd hs₂
          cases h
          have hlevel : storedLevel s₂.stored depth = storedLevel s.stored depth ++
              [⟨.metadata, keyBlockBytes ix.serialize depth keys, root⟩] := by
            rw [hkeep.level depth (by omega), hflushed depth, if_pos rfl]
          have hlast : keys.length = n - 1 := by omega
          exact ⟨Building.carry hdepth (by omega) hitems hfull hlast hstored hlevel hbuilt index,
            hkept.trans hkeep (by omega)⟩
      · simp only [chopKeyBlockAddIndex, ge_iff_le, if_neg hroom, Outcome.pure_eq_done,
          Outcome.done.injEq, Prod.mk.injEq] at h
        obtain ⟨_, rfl, rfl⟩ := h
        refine ⟨Building.append ⟨groups, keys, hitems, hfull, hne, hle, hdepth, hcount, hsize, hkeys,
          hstored, hparents⟩ (by omega) index, .refl _ _⟩

end Insertion

section Flush

/-- The stored blocks of a level are the groups of these handles. -/
def LevelStored (serialize : H → Bytes) (fanOut : Nat) (log : List (StoredBlock H)) (depth : Nat)
    (items : List H) : Prop :=
  ∃ groups, Grouped fanOut items groups ∧
    (storedLevel log depth).map StoredBlock.bytes = groups.map (keyBlockBytes serialize depth)

/-- The levels from this depth on, after the flush.  Each has several blocks up to the one of the root. -/
inductive Complete (serialize : H → Bytes) (fanOut : Nat) (log : List (StoredBlock H)) (root : H) :
    Nat → List H → Prop
  | top {depth : Nat} {items : List H} (level : LevelStored serialize fanOut log depth items)
      (single : (storedLevel log depth).map StoredBlock.handle = [root])
      (above : ∀ depth', depth < depth' → storedLevel log depth' = []) :
      Complete serialize fanOut log root depth items
  | inner {depth : Nat} {items : List H} (level : LevelStored serialize fanOut log depth items)
      (several : 2 ≤ ((storedLevel log depth).map StoredBlock.handle).length)
      (rest : Complete serialize fanOut log root (depth + 1)
        ((storedLevel log depth).map StoredBlock.handle)) :
      Complete serialize fanOut log root depth items

variable {serialize : H → Bytes} {fanOut depth : Nat} {log : List (StoredBlock H)}
  {block : KeyBlock} {parents : List KeyBlock} {items : List H}

theorem Building.ne_nil {blocks : List KeyBlock}
    (h : Building serialize fanOut log depth blocks items) : blocks ≠ [] ↔ items ≠ [] := by
  cases blocks with
  | nil => simp [h.1]
  | cons block parents =>
    obtain ⟨groups, keys, rfl, _, hne, _⟩ := h
    simp [hne]

/-- The full groups and the last one. -/
theorem grouped_append {groups : List (List H)} {keys : List H} (hfan : 1 ≤ fanOut)
    (hfull : ∀ group ∈ groups, group.length = fanOut) (hne : keys ≠ []) (hle : keys.length ≤ fanOut) :
    Grouped fanOut (groups.flatten ++ keys) (groups ++ [keys]) where
  flatten := by simp
  bounds := by
    intro group hgroup
    rcases List.mem_append.mp hgroup with hold | hlast
    · have hlength := hfull group hold
      exact ⟨List.ne_nil_of_length_pos (by omega), by omega⟩
    · rw [List.mem_singleton.mp hlast]
      exact ⟨hne, hle⟩
  full := by
    rw [List.dropLast_concat]
    exact hfull

/-- The loop of `chop_block_tree_flush`: the last block of a level goes to the store, and its handle to
the block above, which may be full. -/
theorem chopBlockTreeFlushLoop_complete {ix : BlockIndexer σ H} {n : Nat} (hn : 2 ≤ n)
    {fuel : Nat} {v v' : FlushLocals H} {s s' : IndexState σ H}
    (hbuilding : Building ix.serialize (n - 1) s.stored depth (block :: parents) items)
    (h : chopBlockTreeFlushLoop ix n fuel (block :: parents) v s = .done (v', s'))
    (hok : AllOk s'.trace) :
    ∃ root, v'.rootIndex = some root ∧
      Complete ix.serialize (n - 1) s'.stored root depth items ∧
      KeepsBelow depth s.stored s'.stored := by
  induction fuel generalizing depth block parents items v s with
  | zero => cases h
  | succ fuel ih =>
    obtain ⟨groups, keys, rfl, hfull, hne, hle, rfl, hcount, hsize, hkeys, hstored, hparents⟩ :=
      hbuilding
    obtain ⟨root, s₁, hflush, hs₁, hnext⟩ := chopBlockTreeFlushLoop_cons_done h hok
    obtain ⟨hdepth16, -, root', hroot', hlog⟩ := flush_recorded rfl hcount hkeys hflush hs₁
    cases hroot'
    have hflushed := storedLevel_flushed hdepth16 hlog
    have hkept := keepsBelow_flushed hdepth16 hlog
    have hgrouped := grouped_append (by omega) hfull hne hle
    rcases hnext with ⟨rfl, hroot, rfl⟩ | ⟨status, parents', w, s₂, hsome, hadd, hs₂, hrest⟩
    · obtain ⟨hempty, hnone⟩ := hparents
      rw [List.map_eq_nil_iff] at hempty
      have hlevel : storedLevel s'.stored block.depth =
          [⟨.metadata, keyBlockBytes ix.serialize block.depth keys, root⟩] := by
        rw [hflushed block.depth, if_pos rfl, hempty, List.nil_append]
      refine ⟨root, hroot, .top ⟨groups ++ [keys], hgrouped, ?_⟩ (by rw [hlevel]; rfl) ?_, hkept⟩
      · rw [List.map_append, ← hstored, hlevel, hempty]
        rfl
      · intro depth' hlt
        rw [hflushed depth', if_neg (by omega), List.append_nil]
        exact hnone depth' (by omega)
    · have hsome : (storedLevel s.stored block.depth).map StoredBlock.handle ≠ [] :=
        hparents.ne_nil.mp hsome
      have habove := hparents.congr fun depth' hge => by
        rw [hflushed depth', if_neg (by omega), List.append_nil]
      obtain ⟨hbuilt, hkeep⟩ := chopKeyBlockAddIndex_building hn habove hadd hs₂
      obtain ⟨parent', rest, rfl⟩ := List.exists_cons_of_ne_nil (hbuilt.ne_nil.mpr (by simp))
      obtain ⟨top, hroot, hcomplete, hkeep'⟩ := ih hbuilt hrest
      have hlevel : storedLevel s'.stored block.depth = storedLevel s.stored block.depth ++
          [⟨.metadata, keyBlockBytes ix.serialize block.depth keys, root⟩] := by
        rw [hkeep'.level block.depth (by omega), hkeep.level block.depth (by omega),
          hflushed block.depth, if_pos rfl]
      refine ⟨top, hroot, .inner ⟨groups ++ [keys], hgrouped, ?_⟩ ?_ ?_,
        (hkept.trans hkeep (by omega)).trans hkeep' (by omega)⟩
      · simp [hlevel, hstored]
      · have hpos := List.length_pos_iff.mpr hsome
        simp only [hlevel, List.map_append, List.length_append, List.map_singleton,
          List.length_singleton]
        omega
      · simpa [hlevel] using hcomplete

/-- The greatest depth is the one of the root. -/
theorem Complete.exists_height {root : H} (h : Complete serialize fanOut log root depth items)
    (hitems : items = handlesBelow log depth) :
    ∃ height ≥ depth,
      (∀ depth', depth ≤ depth' → depth' ≤ height →
        LevelStored serialize fanOut log depth' (handlesBelow log depth')) ∧
      (∀ depth', height < depth' → storedLevel log depth' = []) ∧
      (storedLevel log height).map StoredBlock.handle = [root] ∧
      (depth < height → 2 ≤ (handlesBelow log height).length) := by
  induction h with
  | @top depth items hlevel hsingle habove =>
    subst hitems
    refine ⟨depth, Nat.le_refl _, ?_, habove, hsingle, by omega⟩
    intro depth' hge hle
    rwa [Nat.le_antisymm hle hge]
  | @inner depth items hlevel hseveral hrest ih =>
    subst hitems
    obtain ⟨height, hge, hlevels, habove, hroot, hkeys⟩ := ih rfl
    refine ⟨height, by omega, ?_, habove, hroot, ?_⟩
    · intro depth' hge' hle
      rcases Nat.eq_or_lt_of_le hge' with rfl | hlt
      · exact hlevel
      · exact hlevels depth' hlt hle
    · intro _
      rcases Nat.eq_or_lt_of_le hge with rfl | hlt
      · exact hseveral
      · exact hkeys hlt

theorem Complete.treeShape {root : H}
    (h : Complete serialize fanOut log root 0 (handlesBelow log 0)) :
    ∃ height, TreeShape serialize fanOut log root height := by
  obtain ⟨height, _, hlevels, habove, hroot, hkeys⟩ := h.exists_height rfl
  exact ⟨height, fun depth hle => hlevels depth (Nat.zero_le _) hle, habove, hroot, hkeys⟩

end Flush

section Indexing

variable {ix : BlockIndexer σ H} {n : Nat}

/-- The reading loop of `chop_tree_index_blocks` stores the data blocks in order. -/
theorem chopTreeIndexBlocksLoop_building (hn : 2 ≤ n) {fuel : Nat} {blocks : List Bytes}
    {final e : ChopError} {v v' : IndexLocals H} {s s' : IndexState σ H}
    (hbuilding : Building ix.serialize (n - 1) s.stored 0 v.tree (handlesBelow s.stored 0))
    (h : chopTreeIndexBlocksLoop ix n fuel blocks final v s = .done (e, v', s'))
    (hok : AllOk s'.trace) :
    Building ix.serialize (n - 1) s'.stored 0 v'.tree (handlesBelow s'.stored 0) ∧
      (storedData s'.stored).map StoredBlock.bytes =
        (storedData s.stored).map StoredBlock.bytes ++ dataBlocks blocks := by
  induction blocks generalizing v s with
  | nil =>
    simp only [chopTreeIndexBlocksLoop, Outcome.done.injEq, Prod.mk.injEq] at h
    obtain ⟨_, rfl, rfl⟩ := h
    exact ⟨hbuilding, by simp [dataBlocks]⟩
  | cons block blocks ih =>
    rw [chopTreeIndexBlocksLoop] at h
    by_cases hzero : block.length = 0
    · rw [if_pos hzero] at h
      rw [dataBlocks_cons_zero hzero]
      exact ih hbuilding h
    · rw [if_neg hzero] at h
      generalize hindex : chopBlockIndexerIndex ix .indexBlocks .data block s = indexed at h
      obtain ⟨answer, s₁⟩ := indexed
      cases answer with
      | error err =>
        cases h
        have hw := chopBlockIndexerIndex_writes ix n .indexBlocks .data block s
        rw [hindex] at hw
        rw [hw.trace] at hok
        simp [Except.map] at hok
      | ok index =>
        have hstored := chopBlockIndexerIndex_stored hindex
        simp only [Outcome.bind_eq_done] at h
        obtain ⟨⟨status, tree, s₂⟩, hadd, h⟩ := h
        have hs₂ : AllOk s₂.trace := by_contra fun hnot =>
          chopTreeIndexBlocksLoop_preserves (failed_writesPreserve _) (fun _ hb => hb) h hnot hok
        have hlevels (depth : Nat) : storedLevel s₁.stored depth = storedLevel s.stored depth := by
          rw [hstored, storedLevel_append, storedLevel_data, List.append_nil]
        obtain ⟨hbuilt, hkept⟩ := chopKeyBlockAddIndex_building hn
          (hbuilding.congr fun depth _ => hlevels depth) hadd hs₂
        have hdata : storedData s₂.stored = storedData s.stored ++ [⟨.data, block, index⟩] := by
          rw [hkept.data, hstored, storedData_append]
          simp [storedData]
        have hbelow : handlesBelow s₂.stored 0 = handlesBelow s.stored 0 ++ [index] := by
          simp [handlesBelow, hdata]
        rw [← hbelow] at hbuilt
        obtain ⟨hbuilt', hbytes⟩ := ih hbuilt h
        refine ⟨hbuilt', ?_⟩
        rw [hbytes, hdata, dataBlocks_cons_pos (by omega)]
        simp

theorem chopTreeIndexBlocks_treeShape (hn : 2 ≤ n) {fuel : Nat} {input : ChopperRun} {w : σ}
    (hsome : dataBlocks input.blocks ≠ []) {index : Option H} {s' : IndexState σ H}
    (h : chopTreeIndexBlocks ix n fuel input ⟨w, [], []⟩ = .done (.ok index, s'))
    (hok : AllOk s'.trace) :
    ∃ root height, index = some root ∧
      TreeShape ix.serialize (n - 1) s'.stored root height ∧
      (storedData s'.stored).map StoredBlock.bytes = dataBlocks input.blocks := by
  obtain ⟨v, v', s, hloop, hflush, -, rfl⟩ := indexBlocks_ok h
  have hs : AllOk s.trace := by
    by_contra hnot
    exact chopBlockTreeFlushLoop_preserves (failed_writesPreserve []) hflush hnot hok
  have hnothing : Building ix.serialize (n - 1) [] 0 [] (handlesBelow [] 0) := ⟨rfl, fun _ _ => rfl⟩
  obtain ⟨hbuilt, hbytes⟩ := chopTreeIndexBlocksLoop_building hn hnothing hloop hs
  have hbytes : (storedData s.stored).map StoredBlock.bytes = dataBlocks input.blocks := hbytes
  have hhandles : handlesBelow s.stored 0 ≠ [] := by
    intro hnil
    rw [handlesBelow, List.map_eq_nil_iff] at hnil
    rw [hnil] at hbytes
    exact hsome hbytes.symm
  obtain ⟨block, parents, htree⟩ := List.exists_cons_of_ne_nil (hbuilt.ne_nil.mpr hhandles)
  rw [htree] at hbuilt hflush
  obtain ⟨root, hroot, hcomplete, hkept⟩ := chopBlockTreeFlushLoop_complete hn hbuilt hflush hok
  have hbelow : handlesBelow s.stored 0 = handlesBelow s'.stored 0 := by
    simp [handlesBelow, hkept.data]
  rw [hbelow] at hcomplete
  obtain ⟨height, hshape⟩ := hcomplete.treeShape
  exact ⟨root, height, hroot, hshape, by rw [hkept.data, hbytes]⟩

/-- An input of fewer than `2 ^ 32` blocks is indexed within 32 levels: no assertion fails, whatever the
writes and the allocations do. -/
theorem chopTreeIndexBlocks_returns (ix : BlockIndexer σ H) (hn : 3 ≤ n) {fuel : Nat}
    (hfuel : 34 ≤ fuel) {input : ChopperRun} (hcount : (dataBlocks input.blocks).length < 2 ^ 32)
    (s : IndexState σ H) : (chopTreeIndexBlocks ix n fuel input s).Returns := by
  have htwo : 2 ≤ n := by omega
  have hpow : (dataBlocks input.blocks).length ≤ (n - 1) ^ 32 := by
    have hmono : 2 ^ 32 ≤ (n - 1) ^ 32 := Nat.pow_le_pow_left (by omega) 32
    omega
  obtain ⟨e, v, s₁, events, hloop, hspec⟩ := chopTreeIndexBlocksLoop_spec ix htwo fuel 32
    input.blocks input.final ⟨[], 0, none⟩ s trivial (by simp) (by simpa using hpow) hfuel
    (by decide) (.inr (by simpa using hcount))
  have hweight := hspec.weight
  simp only [chainWeight_nil, Nat.zero_add] at hweight
  by_cases hflushed : e = .streamEnd ∧ 0 < v.totalAmount
  · obtain ⟨rfl, hpos⟩ := hflushed
    by_cases htree : v.tree = []
    · exact ⟨_, indexBlocks_of_no_tree (by omega) hloop hpos htree⟩
    · obtain ⟨v', s₂, events', hflush, _⟩ := chopBlockTreeFlush_spec ix htwo fuel 32 v.index s₁
        hspec.shaped htree (hweight.trans hpow) (by decide) hfuel (by decide) (.inr (by omega))
      exact ⟨_, indexBlocks_of_flush _ hloop hpos hflush⟩
  · exact ⟨_, indexBlocks_of_no_flush hloop hflushed⟩

/-- The hash tree of any blocks.  The key blocks of a depth are the groups of `indexes_per_block - 1`
handles of the depth below, with their headers, and only the last one may be shorter.  The root is alone
at its depth, and has two keys or more unless its depth is zero.  With fewer than `2 ^ 32` blocks the run
returns, so that no assertion fails. -/
theorem chopTreeIndexBlocks_shape (ix : BlockIndexer σ H) (hn : 3 ≤ n) (w : σ) (input : ChopperRun)
    (hsome : dataBlocks input.blocks ≠ []) :
    (∀ fuel index s', chopTreeIndexBlocks ix n fuel input ⟨w, [], []⟩ = .done (.ok index, s') →
      AllOk s'.trace →
      ∃ root height, index = some root ∧
        TreeShape ix.serialize (n - 1) s'.stored root height ∧
        (storedData s'.stored).map StoredBlock.bytes = dataBlocks input.blocks) ∧
    ((dataBlocks input.blocks).length < 2 ^ 32 → ∀ fuel ≥ 34,
      (chopTreeIndexBlocks ix n fuel input ⟨w, [], []⟩).Returns) := by
  constructor
  · intro fuel index s' h hok
    exact chopTreeIndexBlocks_treeShape (by omega) hsome h hok
  · intro hcount fuel hfuel
    exact chopTreeIndexBlocks_returns ix hn hfuel hcount _

end Indexing

/-- Five blocks, three indexes per block: three key blocks of data handles, two above them, and the
root. -/
theorem five_blocks_shape :
    ∃ index s', chopTreeIndexBlocks listIndexer 3 34 ⟨[[1], [2], [3], [4], [5]], .streamEnd⟩
        ⟨[], [], []⟩ = .done (.ok index, s') ∧
      ∃ root height, index = some root ∧
        TreeShape listIndexer.serialize 2 s'.stored root height ∧
        (storedData s'.stored).map StoredBlock.bytes = [[1], [2], [3], [4], [5]] := by
  have hshape := chopTreeIndexBlocks_shape listIndexer (by decide : 3 ≤ 3) []
    ⟨[[1], [2], [3], [4], [5]], .streamEnd⟩ (by decide)
  obtain ⟨⟨result, s'⟩, hrun⟩ := hshape.2 (by decide) 34 (by decide)
  have hok := (listIndexer_reliable 3).allOk hrun
  obtain ⟨index, rfl⟩ : ∃ index, result = .ok index := ⟨_, by cases hrun; rfl⟩
  exact ⟨index, s', hrun, hshape.1 34 index s' hrun hok⟩

/-- Without memory for a key block, one block is indexed without one: its own handle is returned. -/
theorem no_key_block_without_memory :
    ∃ s', chopTreeIndexBlocks smallMemoryIndexer (2 ^ 60) 34 ⟨[[1]], .streamEnd⟩ ⟨[], [], []⟩ =
        .done (.ok (some 0), s') ∧
      ¬ ∃ height, TreeShape smallMemoryIndexer.serialize (2 ^ 60 - 1) s'.stored 0 height := by
  refine ⟨_, rfl, ?_⟩
  rintro ⟨height, hshape⟩
  have hroot := hshape.root
  simp [storedLevel, storedAfter] at hroot

end Libchop
