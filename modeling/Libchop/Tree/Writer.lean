import Libchop.Tree.Encoding

/-!
# What the writer preserves

One specification for each writer function: from a well-shaped chain of key blocks, whatever
the block indexer answers, the function returns, the chain stays well shaped, and the returned
status is decided by the writes of the ghost trace.  When no write failed, the data the chain
stands for grows by exactly what was added.
-/

namespace Libchop

variable {σ H : Type} {ix : BlockIndexer σ H}

def IndexState.holds (s : IndexState σ H) : Holds H := fun role h b => ⟨role, b, h⟩ ∈ s.stored

/-- The handle of a root key block: the last block that was stored. -/
def IndexState.Root (s : IndexState σ H) (root : H) : Prop :=
  ∃ bytes, s.stored.getLast? = some ⟨.metadata, bytes, root⟩

/-- No write fails, and there is memory for key blocks with so many indexes. -/
structure Reliable (ix : BlockIndexer σ H) (n : Nat) : Prop where
  writes : ∀ role b w, ∃ h w', ix.index role b w = (.ok h, w')
  memory : ∀ w, ix.hasMemory (keyBufferSize n) w = true

def AllOk (events : List WriteEvent) : Prop := ∀ e ∈ events, e.status = .ok ()

def AllOkAt (site : WriteSite) (events : List WriteEvent) : Prop :=
  ∀ e ∈ events, e.site = site → e.status = .ok ()

/-- `s'` is reached from `s` by the given writes and allocations. -/
structure Writes (ix : BlockIndexer σ H) (n : Nat) (s s' : IndexState σ H)
    (events : List WriteEvent) : Prop where
  trace : s'.trace = s.trace ++ events
  keeps : ∀ role h b, s.holds role h b → s'.holds role h b
  reliable : Reliable ix n → AllOk events

theorem Writes.refl (n : Nat) (s : IndexState σ H) : Writes ix n s s [] :=
  ⟨by simp, fun _ _ _ h => h, fun _ => by simp [AllOk]⟩

theorem Writes.trans {n : Nat} {s s' s'' : IndexState σ H} {events events' : List WriteEvent}
    (h : Writes ix n s s' events) (h' : Writes ix n s' s'' events') :
    Writes ix n s s'' (events ++ events') := by
  refine ⟨?_, fun role x b hb => h'.keeps role x b (h.keeps role x b hb), ?_⟩
  · rw [h'.trace, h.trace, List.append_assoc]
  · intro hix e he
    rcases List.mem_append.mp he with he | he
    · exact h.reliable hix e he
    · exact h'.reliable hix e he

@[simp] theorem allOk_nil : AllOk [] := by simp [AllOk]

@[simp] theorem allOk_append (events events' : List WriteEvent) :
    AllOk (events ++ events') ↔ AllOk events ∧ AllOk events' := by
  simp [AllOk, or_imp, forall_and]

@[simp] theorem allOk_cons (e : WriteEvent) (events : List WriteEvent) :
    AllOk (e :: events) ↔ e.status = .ok () ∧ AllOk events := by
  simp [AllOk]

@[simp] theorem allOkAt_nil (site : WriteSite) : AllOkAt site [] := by simp [AllOkAt]

@[simp] theorem allOkAt_append (site : WriteSite) (events events' : List WriteEvent) :
    AllOkAt site (events ++ events') ↔ AllOkAt site events ∧ AllOkAt site events' := by
  simp [AllOkAt, or_imp, forall_and]

@[simp] theorem allOkAt_cons (site : WriteSite) (e : WriteEvent) (events : List WriteEvent) :
    AllOkAt site (e :: events) ↔ (e.site = site → e.status = .ok ()) ∧ AllOkAt site events := by
  simp [AllOkAt]

theorem AllOk.at {events : List WriteEvent} (h : AllOk events) (site : WriteSite) :
    AllOkAt site events := fun e he _ => h e he

theorem allOkAt_of_site_ne {site : WriteSite} {events : List WriteEvent}
    (h : ∀ e ∈ events, e.site ≠ site) : AllOkAt site events :=
  fun e he hs => (h e he hs).elim

/-- One block write, as the trace sees it. -/
theorem chopBlockIndexerIndex_writes (ix : BlockIndexer σ H) (n : Nat) (site : WriteSite)
    (role : StoreRole) (b : Bytes) (s : IndexState σ H) :
    Writes ix n s (chopBlockIndexerIndex ix site role b s).2
      [⟨site, (chopBlockIndexerIndex ix site role b s).1.map fun _ => ()⟩] := by
  refine ⟨rfl, ?_, fun hix => ?_⟩
  · intro role' h c hold
    simp only [IndexState.holds, chopBlockIndexerIndex]
    cases (ix.index role b s.world).1 with
    | error e => exact hold
    | ok handle => exact List.mem_append_left _ hold
  · obtain ⟨h, w, heq⟩ := hix.writes role b s.world
    simp [AllOk, chopBlockIndexerIndex, heq, Except.map]

theorem chopBlockIndexerIndex_stored {site : WriteSite} {role : StoreRole} {b : Bytes}
    {s s' : IndexState σ H} {h : H} (heq : chopBlockIndexerIndex ix site role b s = (.ok h, s')) :
    s'.stored = s.stored ++ [⟨role, b, h⟩] := by
  simp only [chopBlockIndexerIndex, Prod.mk.injEq] at heq
  obtain ⟨hok, rfl⟩ := heq
  simp only [hok, storedAfter]

theorem chopBlockIndexerIndex_root {site : WriteSite} {b : Bytes} {s s' : IndexState σ H} {h : H}
    (heq : chopBlockIndexerIndex ix site .metadata b s = (.ok h, s')) : s'.Root h :=
  ⟨b, by rw [chopBlockIndexerIndex_stored heq, List.getLast?_concat]⟩

theorem chopBlockIndexerIndex_stores {site : WriteSite} {role : StoreRole} {b : Bytes}
    {s s' : IndexState σ H} {h : H} (heq : chopBlockIndexerIndex ix site role b s = (.ok h, s')) :
    s'.holds role h b := by
  rw [IndexState.holds, chopBlockIndexerIndex_stored heq]
  exact List.mem_append_right _ List.mem_cons_self

/-- An allocation succeeds or fails with `ENOMEM`, and changes nothing else. -/
theorem orKeyBlockNew_cases (ix : BlockIndexer σ H) (n d : Nat) (blocks : List KeyBlock)
    (s : IndexState σ H) :
    (blocks ≠ [] ∧ orKeyBlockNew ix n d blocks s = (.ok blocks, s)) ∨
      (blocks = [] ∧ ix.hasMemory (keyBufferSize n) s.world = true ∧
        orKeyBlockNew ix n d blocks s =
          (.ok [emptyKeyBlock d], { s with trace := s.trace ++ [⟨.keyBlockNew, .ok ()⟩] })) ∨
      (blocks = [] ∧ ix.hasMemory (keyBufferSize n) s.world = false ∧
        orKeyBlockNew ix n d blocks s =
          (.error enomem, { s with trace := s.trace ++ [⟨.keyBlockNew, .error enomem⟩] })) := by
  cases blocks with
  | cons block parents => exact .inl ⟨List.cons_ne_nil _ _, rfl⟩
  | nil =>
    refine .inr ?_
    cases hmemory : ix.hasMemory (keyBufferSize n) s.world with
    | true => exact .inl ⟨rfl, rfl, by simp [orKeyBlockNew, chopKeyBlockNew, hmemory, Except.map]⟩
    | false => exact .inr ⟨rfl, rfl, by simp [orKeyBlockNew, chopKeyBlockNew, hmemory, Except.map]⟩

/-- An allocation, as the trace sees it. -/
theorem allocation_writes (ix : BlockIndexer σ H) (n : Nat) (s : IndexState σ H) {status : Status}
    (hstatus : ix.hasMemory (keyBufferSize n) s.world = true → status = .ok ()) :
    Writes ix n s { s with trace := s.trace ++ [⟨.keyBlockNew, status⟩] } [⟨.keyBlockNew, status⟩] :=
  ⟨rfl, fun _ _ _ hold => hold, fun hix => by simpa using hstatus (hix.memory s.world)⟩

theorem KeyBlock.withHeader_length (block : KeyBlock) :
    keyBlockHeaderSize ≤ block.withHeader.keys.length := by
  simp [KeyBlock.withHeader, keyBlockHeaderSize]

theorem chopKeyBlockFlush_eq (site : WriteSite) {block : KeyBlock} (s : IndexState σ H)
    (hkeys : keyBlockHeaderSize ≤ block.keys.length) (hcount : block.keyCount < 2 ^ 32)
    (hdepth : block.depth < 2 ^ 16) :
    chopKeyBlockFlush ix site block s =
      .done ((chopBlockIndexerIndex ix site .metadata block.withHeader.keys s).1,
        block.withHeader,
        (chopBlockIndexerIndex ix site .metadata block.withHeader.keys s).2) := by
  have hc : block.keyCount >>> 32 = 0 := by
    rw [Nat.shiftRight_eq_div_pow]
    exact Nat.div_eq_of_lt hcount
  have hd : block.depth >>> 16 = 0 := by
    rw [Nat.shiftRight_eq_div_pow]
    exact Nat.div_eq_of_lt hdepth
  simp [chopKeyBlockFlush, chopKeyBlockFillHeader, hkeys, hc, hd]

/-- A key block that was written leads to the data of its keys. -/
theorem encodes_of_flush {holds : Holds H} {d : Nat} {block : KeyBlock} {hs : List H}
    {xss : List Bytes} {root : H} (hdepth : block.depth = d) (hcount : block.keyCount = hs.length)
    (hkeys : block.keys.drop keyBlockHeaderSize = hs.flatMap ix.serialize) (hne : hs ≠ [])
    (hlen : hs.length < 2 ^ 32) (hd : d < 2 ^ 16)
    (hall : List.Forall₂ (Encodes holds ix.serialize d) hs xss)
    (hroot : holds .metadata root block.withHeader.keys) :
    Encodes holds ix.serialize (d + 1) root xss.flatten := by
  refine ⟨hs, xss, hne, hlen, hd, ?_, hall, rfl⟩
  rwa [KeyBlock.withHeader, hdepth, hcount, hkeys] at hroot

/-- What `chop_key_block_add_index` does on a chain of key blocks, which is given its first block when it
has none. -/
structure AddIndexSpec (ix : BlockIndexer σ H) (n d : Nat) (blocks : List KeyBlock)
    (index : H) (s : IndexState σ H) (status : Status) (blocks' : List KeyBlock)
    (s' : IndexState σ H) (events : List WriteEvent) : Prop where
  shaped : Shaped (n - 1) d blocks'
  ne_nil : blocks ≠ [] ∨ status = .ok () → blocks' ≠ []
  weight : chainWeight (n - 1) blocks' =
    chainWeight (n - 1) blocks + if status = .ok () then 1 else 0
  writes : Writes ix n s s' events
  site : ∀ e ∈ events, e.site = .keyBlockAddIndex ∨ e.site = .keyBlockNew
  status_ok : status = .ok () ↔ AllOk events
  pending : ∀ xs ys, status = .ok () → Encodes s.holds ix.serialize d index xs →
    Pending s.holds ix.serialize d blocks ys → Pending s'.holds ix.serialize d blocks' (ys ++ xs)

theorem AddIndexSpec.weight_le {n d : Nat} {blocks blocks' : List KeyBlock} {index : H}
    {s s' : IndexState σ H} {status : Status} {events : List WriteEvent}
    (h : AddIndexSpec ix n d blocks index s status blocks' s' events) :
    chainWeight (n - 1) blocks' ≤ chainWeight (n - 1) blocks + 1 := by
  rw [h.weight]
  split <;> omega

theorem AddIndexSpec.allOkAt {n d : Nat} {blocks blocks' : List KeyBlock} {index : H}
    {s s' : IndexState σ H} {status : Status} {events : List WriteEvent}
    (h : AddIndexSpec ix n d blocks index s status blocks' s' events) {site : WriteSite}
    (hadd : site ≠ .keyBlockAddIndex) (hnew : site ≠ .keyBlockNew) : AllOkAt site events := by
  apply allOkAt_of_site_ne
  intro e he hsite
  rcases h.site e he with hs | hs
  · exact hadd (hsite.symm.trans hs)
  · exact hnew (hsite.symm.trans hs)

private theorem append_shaped {fanOut d : Nat} {block : KeyBlock} {parents : List KeyBlock}
    (index : H) (hdepth : block.depth = d) (hroom : block.keyCount < fanOut)
    (hkeys : keyBlockHeaderSize ≤ block.keys.length) (htail : Shaped fanOut (d + 1) parents) :
    Shaped fanOut d (keyBlockAppend ix block index :: parents) := by
  refine ⟨hdepth, Nat.succ_pos _, hroom, ?_, htail⟩
  simp only [keyBlockAppend, List.length_append]
  omega

private theorem append_pending {holds : Holds H} {d : Nat} {block : KeyBlock}
    {parents : List KeyBlock} {index : H} {xs ys : Bytes}
    (hkeys : keyBlockHeaderSize ≤ block.keys.length)
    (hx : Encodes holds ix.serialize d index xs)
    (hp : Pending holds ix.serialize d (block :: parents) ys) :
    Pending holds ix.serialize d (keyBlockAppend ix block index :: parents) (ys ++ xs) := by
  obtain ⟨hs, xss, zs, hcount, hdrop, hall, hparents, rfl⟩ := hp
  refine ⟨hs ++ [index], xss ++ [xs], zs, ?_, ?_, ?_, hparents, ?_⟩
  · simp [keyBlockAppend, hcount]
  · simp [keyBlockAppend, List.drop_append_of_le_length hkeys, hdrop]
  · exact List.rel_append hall (.cons hx .nil)
  · simp

private theorem reinit_pending {holds : Holds H} {d : Nat} (block : KeyBlock)
    {parents : List KeyBlock} {index : H} {xs ys : Bytes}
    (hx : Encodes holds ix.serialize d index xs)
    (hp : Pending holds ix.serialize (d + 1) parents ys) :
    Pending holds ix.serialize d (keyBlockAppend ix (chopKeyBlockReinit block) index :: parents)
      (ys ++ xs) := by
  apply append_pending (by simp [chopKeyBlockReinit]) hx
  exact ⟨[], [], ys, rfl, by simp [chopKeyBlockReinit], .nil, hp, by simp⟩

private theorem addIndex_room (ix : BlockIndexer σ H) {n d : Nat} (fuel : Nat) {block : KeyBlock}
    (parents : List KeyBlock) (index : H) (s : IndexState σ H) (hroom : block.keyCount + 1 < n)
    (hdepth : block.depth = d) (hkeys : keyBlockHeaderSize ≤ block.keys.length)
    (htail : Shaped (n - 1) (d + 1) parents) :
    chopKeyBlockAddIndex ix n (fuel + 1) (block :: parents) index s =
        .done (.ok (), keyBlockAppend ix block index :: parents, s) ∧
      AddIndexSpec ix n d (block :: parents) index s (.ok ())
        (keyBlockAppend ix block index :: parents) s [] := by
  constructor
  · simp [chopKeyBlockAddIndex, Nat.not_le.mpr hroom]
  · refine ⟨append_shaped index hdepth (by omega) hkeys htail, by simp, ?_, .refl n s, by simp,
      by simp, fun xs ys _ hx hp => append_pending hkeys hx hp⟩
    simp only [chainWeight_cons, keyBlockAppend, if_true]
    omega

private theorem flushed_encodes {fanOut d : Nat} {block : KeyBlock} {parents : List KeyBlock}
    {site : WriteSite} {root : H} {s s₁ : IndexState σ H} {xs : Bytes}
    (hshape : Shaped fanOut d (block :: parents))
    (hcount : block.keyCount < 2 ^ 32) (hdepth : d < 2 ^ 16)
    (hflush : chopBlockIndexerIndex ix site .metadata block.withHeader.keys s = (.ok root, s₁))
    (hp : Pending s.holds ix.serialize d (block :: parents) xs) :
    ∃ ys zs, xs = ys ++ zs ∧ Pending s₁.holds ix.serialize (d + 1) parents ys ∧
      Encodes s₁.holds ix.serialize (d + 1) root zs := by
  obtain ⟨hs, xss, ys, hc, hdrop, hall, hparents, rfl⟩ := hp
  have hwrites := chopBlockIndexerIndex_writes ix 0 site .metadata block.withHeader.keys s
  rw [hflush] at hwrites
  have hkept := hwrites.keeps
  have hne : hs ≠ [] := by
    intro hnil
    have hone := hshape.2.1
    rw [hc, hnil] at hone
    simp at hone
  exact ⟨ys, xss.flatten, rfl, hparents.mono hkept,
    encodes_of_flush hshape.1 hc hdrop hne (hc ▸ hcount) hdepth
      (hall.imp fun _ _ => Encodes.mono hkept) (chopBlockIndexerIndex_stores hflush)⟩

/-- A key is added to a chain, which may be empty. -/
def addIndexOrNew (ix : BlockIndexer σ H) (n fuel d : Nat) (blocks : List KeyBlock) (index : H)
    (s : IndexState σ H) : Outcome (Status × List KeyBlock × IndexState σ H) :=
  match orKeyBlockNew ix n d blocks s with
  | (.error e, s) => .done (.error e, blocks, s)
  | (.ok blocks, s) => chopKeyBlockAddIndex ix n fuel blocks index s

theorem addIndexOrNew_of_ne_nil {n fuel d : Nat} {blocks : List KeyBlock} {index : H}
    {s : IndexState σ H} (hne : blocks ≠ []) :
    addIndexOrNew ix n fuel d blocks index s = chopKeyBlockAddIndex ix n fuel blocks index s := by
  rcases orKeyBlockNew_cases ix n d blocks s with ⟨-, heq⟩ | ⟨hnil, -⟩ | ⟨hnil, -⟩
  · rw [addIndexOrNew, heq]
  · exact (hne hnil).elim
  · exact (hne hnil).elim

theorem addIndex_full {n fuel : Nat} {block : KeyBlock} {parents : List KeyBlock}
    (index : H) (s : IndexState σ H) (hfull : n ≤ block.keyCount + 1) :
    chopKeyBlockAddIndex ix n (fuel + 1) (block :: parents) index s =
      chopKeyBlockFlush ix .keyBlockAddIndex block s >>= fun (result, block, s) =>
        match result with
        | .error e => .done (.error e, block :: parents, s)
        | .ok blockIndex =>
          addIndexOrNew ix n fuel (block.depth + 1) parents blockIndex s >>= fun (status, parents, s) =>
            match status with
            | .error e => .done (.error e, block :: parents, s)
            | .ok () => .done (.ok (), keyBlockAppend ix (chopKeyBlockReinit block) index :: parents, s) := by
  rw [chopKeyBlockAddIndex, if_pos hfull]
  congr 1
  funext flushed
  obtain ⟨result, block, s⟩ := flushed
  cases result with
  | error e => rfl
  | ok blockIndex =>
    simp only [addIndexOrNew]
    cases orKeyBlockNew ix n (block.depth + 1) parents s with
    | mk allocated s =>
      cases allocated with
      | error e => rfl
      | ok parents => rfl

private theorem addIndex_new (ix : BlockIndexer σ H) {n : Nat} (hn : 2 ≤ n) (fuel d : Nat)
    (index : H) (s : IndexState σ H) :
    chopKeyBlockAddIndex ix n (fuel + 1) [emptyKeyBlock d] index s =
        .done (.ok (), [keyBlockAppend ix (emptyKeyBlock d) index], s) ∧
      AddIndexSpec ix n d [] index s (.ok ()) [keyBlockAppend ix (emptyKeyBlock d) index] s [] := by
  have hkeys : keyBlockHeaderSize ≤ (emptyKeyBlock d).keys.length := by simp [emptyKeyBlock]
  have hroom : (emptyKeyBlock d).keyCount + 1 < n := by
    simp only [emptyKeyBlock]
    omega
  have h := addIndex_room ix fuel [] index s hroom rfl hkeys trivial
  refine ⟨h.1, h.2.shaped, fun _ => by simp, by simpa [emptyKeyBlock] using h.2.weight, h.2.writes,
    h.2.site, h.2.status_ok, ?_⟩
  intro xs ys hok hx hp
  have hy : ys = [] := hp
  subst hy
  exact h.2.pending xs [] hok hx ⟨[], [], [], rfl, by simp [emptyKeyBlock], .nil, rfl, rfl⟩

private theorem addIndexOrNew_nil (ix : BlockIndexer σ H) {n : Nat} (hn : 2 ≤ n) (fuel d : Nat)
    (index : H) (s : IndexState σ H) :
    ∃ status blocks' s' events,
      addIndexOrNew ix n (fuel + 1) d [] index s = .done (status, blocks', s') ∧
      AddIndexSpec ix n d [] index s status blocks' s' events := by
  rcases orKeyBlockNew_cases ix n d [] s with ⟨hne, -⟩ | ⟨-, hmemory, heq⟩ | ⟨-, hmemory, heq⟩
  · exact (hne rfl).elim
  · have hw : Writes ix n s { s with trace := s.trace ++ [⟨.keyBlockNew, .ok ()⟩] }
        [⟨.keyBlockNew, .ok ()⟩] := allocation_writes ix n s fun _ => rfl
    obtain ⟨hadd, hspec⟩ :=
      addIndex_new ix hn fuel d index { s with trace := s.trace ++ [⟨.keyBlockNew, .ok ()⟩] }
    refine ⟨_, _, _, [⟨.keyBlockNew, .ok ()⟩], by rw [addIndexOrNew, heq]; exact hadd, ?_⟩
    exact ⟨hspec.shaped, hspec.ne_nil, hspec.weight, hw, by simp, by simp, hspec.pending⟩
  · have hw : Writes ix n s { s with trace := s.trace ++ [⟨.keyBlockNew, .error enomem⟩] }
        [⟨.keyBlockNew, .error enomem⟩] := by
      apply allocation_writes
      intro htrue
      rw [hmemory] at htrue
      cases htrue
    refine ⟨_, _, _, [⟨.keyBlockNew, .error enomem⟩], by rw [addIndexOrNew, heq], ?_⟩
    exact ⟨trivial, by simp, by simp, hw, by simp, by simp, fun _ _ hok => by simp at hok⟩

private theorem addIndex_carry {n d : Nat} {block : KeyBlock} {parents parents' : List KeyBlock}
    (index : H) {h : H} {s s₁ s₂ : IndexState σ H} {status : Status} {events : List WriteEvent}
    (hfan : 1 ≤ n - 1) (hshape : Shaped (n - 1) d (block :: parents)) (hfull : block.keyCount = n - 1)
    (hcount : block.keyCount < 2 ^ 32) (hdepth : d < 2 ^ 16)
    (hflush : chopBlockIndexerIndex ix .keyBlockAddIndex .metadata block.withHeader.keys s = (.ok h, s₁))
    (hspec : AddIndexSpec ix n (d + 1) parents h s₁ status parents' s₂ events) :
    AddIndexSpec ix n d (block :: parents) index s status
      ((if status = .ok () then keyBlockAppend ix (chopKeyBlockReinit block.withHeader) index
        else block.withHeader) :: parents') s₂ (⟨.keyBlockAddIndex, .ok ()⟩ :: events) := by
  -- A full block was written and its handle added to its parents: the block restarts with the new key if all
  -- went well and stays full otherwise.
  have hshape' := hshape
  obtain ⟨hd, hone, hle, hkeys, htail⟩ := hshape'
  have hflushed := chopBlockIndexerIndex_writes ix n .keyBlockAddIndex .metadata
    block.withHeader.keys s
  rw [hflush] at hflushed
  refine ⟨?_, by simp, ?_, hflushed.trans hspec.writes, ?_, ?_, ?_⟩
  · split
    · exact append_shaped index hd hfan (by simp [chopKeyBlockReinit]) hspec.shaped
    · exact ⟨hd, hone, hle, block.withHeader_length, hspec.shaped⟩
  · simp only [chainWeight_cons, hspec.weight]
    split
    · simp only [keyBlockAppend, chopKeyBlockReinit, hfull, mul_add, mul_one]
      omega
    · simp [KeyBlock.withHeader]
  · intro e he
    rcases List.mem_cons.mp he with rfl | he
    · exact .inl rfl
    · exact hspec.site e he
  · simpa using hspec.status_ok
  · intro xs ys hok hx hp
    obtain ⟨zs, us, rfl, hz, hu⟩ := flushed_encodes hshape hcount hdepth hflush hp
    have hkept := fun role x b h => hspec.writes.keeps role x b (hflushed.keeps role x b h)
    rw [if_pos hok]
    exact reinit_pending _ (hx.mono hkept) (hspec.pending _ _ hok hu hz)

/-- `chop_key_block_add_index` returns on every well-shaped chain, whatever its writes do. -/
theorem addIndexOrNew_spec (ix : BlockIndexer σ H) {n : Nat} (hn : 2 ≤ n) {d : Nat} (fuel : Nat)
    {blocks : List KeyBlock} (index : H) (s : IndexState σ H) (hshape : Shaped (n - 1) d blocks)
    (hfuel : blocks.length < fuel) (hdepth : d + blocks.length ≤ 2 ^ 16)
    (hfit : n ≤ 2 ^ 32 ∨ chainWeight (n - 1) blocks < 2 ^ 32) :
    ∃ status blocks' s' events,
      addIndexOrNew ix n fuel d blocks index s = .done (status, blocks', s') ∧
      AddIndexSpec ix n d blocks index s status blocks' s' events := by
  induction blocks generalizing d fuel index s with
  | nil =>
    obtain ⟨fuel, rfl⟩ : ∃ f, fuel = f + 1 := ⟨fuel - 1, by omega⟩
    exact addIndexOrNew_nil ix (by omega) fuel d index s
  | cons block parents ih =>
    obtain ⟨fuel, rfl⟩ : ∃ f, fuel = f + 1 := ⟨fuel - 1, by omega⟩
    have hshape' := hshape
    obtain ⟨hd, hone, hle, hkeys, htail⟩ := hshape'
    simp only [List.length_cons] at hfuel hdepth
    rw [chainWeight_cons] at hfit
    rw [addIndexOrNew_of_ne_nil (List.cons_ne_nil _ _)]
    by_cases hroom : block.keyCount + 1 < n
    · have h := addIndex_room ix fuel parents index s hroom hd hkeys htail
      exact ⟨_, _, _, _, h.1, h.2⟩
    · have hcount : block.keyCount < 2 ^ 32 := by omega
      rw [addIndex_full index s (by omega), chopKeyBlockFlush_eq _ _ hkeys hcount (by omega)]
      rcases hflush : chopBlockIndexerIndex ix .keyBlockAddIndex .metadata block.withHeader.keys s
        with ⟨e | h, s₁⟩
      · refine ⟨_, _, _, [⟨.keyBlockAddIndex, .error e⟩], rfl, ?_⟩
        have hw := chopBlockIndexerIndex_writes ix n .keyBlockAddIndex .metadata
          block.withHeader.keys s
        rw [hflush] at hw
        exact ⟨⟨hd, hone, hle, block.withHeader_length, htail⟩, by simp, by simp [KeyBlock.withHeader],
          hw, by simp, by simp, fun _ _ hok => by simp at hok⟩
      · have hmul := Nat.mul_le_mul_right (chainWeight (n - 1) parents) (show 1 ≤ n - 1 by omega)
        have hd' : block.withHeader.depth = d := hd
        obtain ⟨status, parents', s₂, events, heq, hspec⟩ :=
          ih fuel h s₁ htail (by omega) (by omega) (by omega)
        refine ⟨_, _, _, _, ?_, addIndex_carry index (by omega) hshape (by omega) hcount
          (by omega) hflush hspec⟩
        simp only [Outcome.done_bind, hd', heq]
        rcases status with e | ⟨⟩ <;> simp

theorem chopKeyBlockAddIndex_spec (ix : BlockIndexer σ H) {n : Nat} (hn : 2 ≤ n) {d : Nat}
    (fuel : Nat) {blocks : List KeyBlock} (index : H) (s : IndexState σ H)
    (hshape : Shaped (n - 1) d blocks) (hne : blocks ≠ [])
    (hfuel : blocks.length < fuel) (hdepth : d + blocks.length ≤ 2 ^ 16)
    (hfit : n ≤ 2 ^ 32 ∨ chainWeight (n - 1) blocks < 2 ^ 32) :
    ∃ status blocks' s' events,
      chopKeyBlockAddIndex ix n fuel blocks index s = .done (status, blocks', s') ∧
      AddIndexSpec ix n d blocks index s status blocks' s' events := by
  have h := addIndexOrNew_spec ix hn fuel index s hshape hfuel hdepth hfit
  rwa [addIndexOrNew_of_ne_nil hne] at h

theorem chopBlockTreeAddIndex_spec (ix : BlockIndexer σ H) {n : Nat} (hn : 2 ≤ n) (fuel : Nat)
    {tree : List KeyBlock} (index : H) (s : IndexState σ H) (hshape : Shaped (n - 1) 0 tree)
    (hfuel : tree.length < fuel) (hdepth : tree.length ≤ 2 ^ 16)
    (hfit : n ≤ 2 ^ 32 ∨ chainWeight (n - 1) tree < 2 ^ 32) :
    ∃ status tree' s' events,
      chopBlockTreeAddIndex ix n fuel tree index s = .done (status, tree', s') ∧
      AddIndexSpec ix n 0 tree index s status tree' s' events :=
  addIndexOrNew_spec ix hn fuel index s hshape hfuel (by omega) hfit

/-- What the loop of `chop_block_tree_flush` does from level `d` on. -/
structure FlushSpec (ix : BlockIndexer σ H) (n d : Nat) (blocks : List KeyBlock) (s : IndexState σ H)
    (v' : FlushLocals H) (s' : IndexState σ H) (events : List WriteEvent) : Prop where
  writes : Writes ix n s s' events
  site : ∀ e ∈ events, e.site ≠ .indexBlocks
  err_ok : v'.err = .ok () ↔ AllOkAt .blockTreeFlush events
  root : v'.err = .ok () → ∃ root, v'.rootIndex = some root ∧ s'.Root root
  depth : v'.depth = v'.lastDepth + 1
  encodes : ∀ xs, AllOk events → Pending s.holds ix.serialize d blocks xs →
    ∃ root levels, v'.rootIndex = some root ∧ Encodes s'.holds ix.serialize (levels + 1) root xs

private theorem chainWeight_parents_lt {fanOut d k : Nat} {block : KeyBlock}
    {parents : List KeyBlock} (hshape : Shaped fanOut d (block :: parents))
    (hweight : chainWeight fanOut (block :: parents) ≤ fanOut ^ (k + 1)) :
    chainWeight fanOut parents < fanOut ^ k := by
  have hone := hshape.2.1
  rw [chainWeight_cons, pow_succ, Nat.mul_comm _ fanOut] at hweight
  exact Nat.lt_of_mul_lt_mul_left (a := fanOut) (by omega)

private theorem flushSpec_error {n d : Nat} {blocks : List KeyBlock} {block : KeyBlock}
    {s s₁ : IndexState σ H} {e : ChopError} (hd : block.depth = d)
    (hflush : chopBlockIndexerIndex ix .blockTreeFlush .metadata block.withHeader.keys s =
      (.error e, s₁)) :
    FlushSpec ix n d blocks s ⟨.error e, none, d + 1, block.depth⟩ s₁
      [⟨.blockTreeFlush, .error e⟩] := by
  have hw := chopBlockIndexerIndex_writes ix n .blockTreeFlush .metadata block.withHeader.keys s
  rw [hflush] at hw
  refine ⟨hw, by simp, by simp, by simp, by simp [hd], ?_⟩
  intro _ hok
  simp at hok

private theorem flushSpec_root {n d : Nat} {block : KeyBlock} {s s₁ : IndexState σ H} {root : H}
    (hshape : Shaped (n - 1) d [block]) (hcount : block.keyCount < 2 ^ 32) (hdepth : d < 2 ^ 16)
    (hflush : chopBlockIndexerIndex ix .blockTreeFlush .metadata block.withHeader.keys s =
      (.ok root, s₁)) :
    FlushSpec ix n d [block] s ⟨.ok (), some root, d + 1, block.depth⟩ s₁
      [⟨.blockTreeFlush, .ok ()⟩] := by
  have hw := chopBlockIndexerIndex_writes ix n .blockTreeFlush .metadata block.withHeader.keys s
  rw [hflush] at hw
  have hroot := chopBlockIndexerIndex_root hflush
  refine ⟨hw, by simp, by simp, fun _ => ⟨root, rfl, hroot⟩, by simp [hshape.1], ?_⟩
  intro xs _ hp
  obtain ⟨ys, zs, rfl, hy, hz⟩ := flushed_encodes hshape hcount hdepth hflush hp
  have hy' : ys = [] := hy
  subst hy'
  exact ⟨root, d, rfl, hz⟩

private theorem flushSpec_step {n d : Nat} {block : KeyBlock} {parents parents' : List KeyBlock}
    {s s₁ s₂ s₃ : IndexState σ H} {root : H} {status : Status} {v' : FlushLocals H}
    {events events' : List WriteEvent} (hshape : Shaped (n - 1) d (block :: parents))
    (hcount : block.keyCount < 2 ^ 32) (hdepth : d < 2 ^ 16)
    (hflush : chopBlockIndexerIndex ix .blockTreeFlush .metadata block.withHeader.keys s =
      (.ok root, s₁))
    (hadd : AddIndexSpec ix n (d + 1) parents root s₁ status parents' s₂ events)
    (hrest : FlushSpec ix n (d + 1) parents' s₂ v' s₃ events') :
    FlushSpec ix n d (block :: parents) s v' s₃
      (⟨.blockTreeFlush, .ok ()⟩ :: (events ++ events')) := by
  have hw := chopBlockIndexerIndex_writes ix n .blockTreeFlush .metadata block.withHeader.keys s
  rw [hflush] at hw
  have hsites : AllOkAt .blockTreeFlush events := hadd.allOkAt (by decide) (by decide)
  refine ⟨hw.trans (hadd.writes.trans hrest.writes), ?_, ?_, hrest.root, hrest.depth, ?_⟩
  · intro e he
    rcases List.mem_cons.mp he with rfl | he
    · simp
    · rcases List.mem_append.mp he with he | he
      · rcases hadd.site e he with hs | hs <;> simp [hs]
      · exact hrest.site e he
  · simpa [hsites] using hrest.err_ok
  · intro xs hok hp
    obtain ⟨_, hok⟩ := (allOk_cons _ _).mp hok
    obtain ⟨hok, hok'⟩ := (allOk_append _ _).mp hok
    obtain ⟨ys, zs, rfl, hy, hz⟩ := flushed_encodes hshape hcount hdepth hflush hp
    exact hrest.encodes _ hok' (hadd.pending _ _ (hadd.status_ok.mpr hok) hz hy)

/-- The flush loop returns: the weight of the chain above the current block is divided by the
fan-out at each iteration, also when the insertion of a key adds a level on top. -/
theorem chopBlockTreeFlushLoop_spec (ix : BlockIndexer σ H) {n : Nat} (hn : 2 ≤ n) (fuel : Nat)
    {d k : Nat} {blocks : List KeyBlock} (v : FlushLocals H) (s : IndexState σ H)
    (hshape : Shaped (n - 1) d blocks) (hne : blocks ≠ []) (hv : v.depth = d)
    (hweight : chainWeight (n - 1) blocks ≤ (n - 1) ^ k) (hk : 1 ≤ k) (hfuel : k + 2 ≤ fuel)
    (hdepth : d + k ≤ 2 ^ 16) (hfit : n ≤ 2 ^ 32 ∨ chainWeight (n - 1) blocks < 2 ^ 32) :
    ∃ v' s' events, chopBlockTreeFlushLoop ix n fuel blocks v s = .done (v', s') ∧
      FlushSpec ix n d blocks s v' s' events := by
  induction fuel generalizing d k blocks v s with
  | zero => omega
  | succ fuel ih =>
    subst hv
    obtain ⟨block, parents, rfl⟩ := List.exists_cons_of_ne_nil hne
    have hshape' := hshape
    obtain ⟨hd, hone, hle, hkeys, htail⟩ := hshape'
    have hcount : block.keyCount < 2 ^ 32 := by
      rw [chainWeight_cons] at hfit
      omega
    rw [chopBlockTreeFlushLoop, chopKeyBlockFlush_eq _ _ hkeys hcount (by omega)]
    simp only [Outcome.done_bind]
    rcases hflush : chopBlockIndexerIndex ix .blockTreeFlush .metadata block.withHeader.keys s
      with ⟨e | root, s₁⟩
    · exact ⟨_, _, _, rfl, flushSpec_error hd hflush⟩
    · by_cases hp : parents = []
      · subst hp
        obtain ⟨fuel, rfl⟩ : ∃ f, fuel = f + 1 := ⟨fuel - 1, by omega⟩
        exact ⟨_, _, _, rfl, flushSpec_root hshape hcount (by omega) hflush⟩
      · obtain ⟨k, rfl⟩ : ∃ j, k = j + 1 := ⟨k - 1, by omega⟩
        have hpos := one_le_chainWeight htail hp
        have hlt := chainWeight_parents_lt hshape hweight
        have hlen := chain_length_le (by omega) htail hlt
        have hk' : 1 ≤ k := by
          rcases Nat.eq_zero_or_pos k with rfl | hk'
          · simp only [pow_zero] at hlt
            omega
          · exact hk'
        have hsmall : chainWeight (n - 1) parents + 1 ≤ chainWeight (n - 1) (block :: parents) := by
          have hmul := Nat.mul_le_mul_right (chainWeight (n - 1) parents)
            (show 1 ≤ n - 1 by omega)
          rw [chainWeight_cons]
          omega
        obtain ⟨status, parents', s₂, events, hadd, hspec⟩ :=
          chopKeyBlockAddIndex_spec ix hn fuel root s₁ htail hp (by omega) (by omega)
            (by omega)
        have hw' : chainWeight (n - 1) parents' ≤ chainWeight (n - 1) parents + 1 := hspec.weight_le
        obtain ⟨v', s₃, events', hloop, hflushed⟩ :=
          ih (d := v.depth + 1) (k := k) ⟨status, some root, v.depth + 1, block.depth⟩ s₂ hspec.shaped
            (hspec.ne_nil (.inl hp)) rfl (by omega) hk' (by omega) (by omega) (by omega)
        refine ⟨v', s₃, _, ?_, flushSpec_step hshape hcount (by omega) hflush hspec hflushed⟩
        simp only [List.isEmpty_iff, hp, if_false, hadd, Outcome.done_bind]
        exact hloop

/-- `chop_block_tree_flush` returns and its assertion holds. -/
theorem chopBlockTreeFlush_spec (ix : BlockIndexer σ H) {n : Nat} (hn : 2 ≤ n) (fuel k : Nat)
    {tree : List KeyBlock} (index : Option H) (s : IndexState σ H)
    (hshape : Shaped (n - 1) 0 tree) (hne : tree ≠ [])
    (hweight : chainWeight (n - 1) tree ≤ (n - 1) ^ k) (hk : 1 ≤ k) (hfuel : k + 2 ≤ fuel)
    (hdepth : k ≤ 2 ^ 16) (hfit : n ≤ 2 ^ 32 ∨ chainWeight (n - 1) tree < 2 ^ 32) :
    ∃ v' s' events,
      chopBlockTreeFlush ix n fuel tree index s = .done (v'.err, v'.rootIndex, s') ∧
      FlushSpec ix n 0 tree s v' s' events := by
  obtain ⟨v', s', events, hloop, hspec⟩ := chopBlockTreeFlushLoop_spec ix hn fuel
    ⟨.ok (), index, 0, 0⟩ s hshape hne rfl hweight hk hfuel (by omega) hfit
  refine ⟨v', s', events, ?_, hspec⟩
  have hlast : v'.depth = 0 ∨ v'.lastDepth = v'.depth - 1 := by
    have := hspec.depth
    omega
  simp [chopBlockTreeFlush, hloop, hlast]

end Libchop
