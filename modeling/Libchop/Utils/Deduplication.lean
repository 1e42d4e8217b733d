import Libchop.Utils.Archiver

/-!
# What an archive adds to the stores

A content-based block indexer writes a block under a key that depends on the block alone.  So a block that
was archived before adds nothing to the store, and an anchor-based chopper finds the same blocks again
where a stream was only edited before them.
-/

namespace Libchop

open WindowSplit

section Content

variable {hash : HashFunctions} {ciphers : Ciphers} {blockIndexer : BlockIndexerObject}

/-- A content-based block indexer writes this content under this key for the block. -/
def StoredAs (hash : HashFunctions) (ciphers : Ciphers) (blockIndexer : BlockIndexerObject)
    (block key content : Bytes) : Prop :=
  ∃ randoms handle method,
    Indexed hash ciphers ⟨blockIndexer, randoms, block⟩ handle method key content

theorem Indexed.unique {request : IndexRequest} {handle handle' : IndexHandle} {method method' : HashMethod}
    {key key' content content' : Bytes} (h : Indexed hash ciphers request handle method key content)
    (h' : Indexed hash ciphers request handle' method' key' content') :
    key = key' ∧ content = content' := by
  cases h with
  | hash _ hkey =>
    cases h' with
    | hash _ hkey' =>
      rw [hkey] at hkey'
      cases hkey'
      exact ⟨rfl, rfl⟩
  | chk hencrypt hkey =>
    cases h' with
    | chk hencrypt' hkey' =>
      rw [hencrypt] at hencrypt'
      cases hencrypt'
      rw [hkey] at hkey'
      cases hkey'
      exact ⟨rfl, rfl⟩

/-- Unless the block is encrypted under a random key, there is one key and one content for it. -/
theorem StoredAs.unique {block key key' content content' : Bytes}
    (hweak : ¬ (⟨blockIndexer, [], block⟩ : IndexRequest).weak hash ciphers)
    (h : StoredAs hash ciphers blockIndexer block key content)
    (h' : StoredAs hash ciphers blockIndexer block key' content') : key = key' ∧ content = content' := by
  obtain ⟨randoms, handle, method, hindexed⟩ := h
  obtain ⟨randoms', handle', method', hindexed'⟩ := h'
  exact (hindexed.randoms hweak []).unique (hindexed'.randoms hweak [])

end Content

section Calls

variable {σ : Type} {context : ProcessContext σ} {indexClass : RtClass}

/-- A call of a content-based block indexer leaves it as it is. -/
theorem indexBlock_storedAs {methods : StoreMethods σ} {hash : HashFunctions} {ciphers : Ciphers}
    {blockIndexer blockIndexer' : BlockIndexerObject} (hbased : blockIndexer.contentBased = true)
    {randoms : List (Nat → UInt8)} {block : Bytes} {store store' : σ} {result : Except ChopError IndexHandle}
    (h : blockIndexer.indexBlock methods hash ciphers randoms block store =
      .done (result, blockIndexer', store')) :
    blockIndexer' = blockIndexer ∧
      ((store' = store ∧ ∃ err, result = .error err) ∨
        ∃ key content, StoredAs hash ciphers blockIndexer block key content ∧
          store' = (methods.writeBlock key content store).2 ∧
          ∀ index, result = .ok index → (methods.writeBlock key content store).1 = .ok ()) := by
  have hrequest : indexRequest methods hash ciphers store ⟨blockIndexer, randoms, block⟩ =
      .done (result, store') := by
    rw [indexRequest, h, Outcome.done_bind]
  constructor
  · cases blockIndexer with
    | hash method =>
      obtain ⟨answer, -, hdone⟩ := Outcome.bind_eq_done.mp h
      cases hdone
      rfl
    | chk indexer =>
      obtain ⟨answer, -, hdone⟩ := Outcome.bind_eq_done.mp h
      cases hdone
      rfl
    | integer id => cases hbased
  · rcases indexRequest_cases hbased hrequest with
      ⟨herr, hsame⟩ | ⟨handle, method, key, content, hindexed, hwrite⟩
    · exact .inl ⟨hsame, herr⟩
    · obtain ⟨hstore, hresult⟩ := writeIndexed_eq hwrite
      exact .inr ⟨key, content, ⟨randoms, handle, method, hindexed⟩, hstore,
        fun index hindex => (hresult index hindex).2⟩

/-- Nothing is written, or the content of the block under its key. -/
theorem objectIndexer_storedAs (role : StoreRole) (block : Bytes) (w : IndexerWorld σ)
    (hbased : w.blockIndexer.contentBased = true) {result : Except ChopError (HandleOf indexClass)}
    {w' : IndexerWorld σ} (h : (objectIndexer context indexClass).index role block w = (result, w')) :
    w'.blockIndexer = w.blockIndexer ∧
      ((w'.store = w.store ∧ ∃ err, result = .error err) ∨
        ∃ key content, StoredAs context.hash context.ciphers w.blockIndexer block key content ∧
          w'.store = ((loggedMethods context.methods role).writeBlock key content w.store).2 ∧
          ∀ handle, result = .ok handle →
            ((loggedMethods context.methods role).writeBlock key content w.store).1 = .ok ()) := by
  rcases objectIndexer_call role block w h with ⟨hsame, hstore, herr⟩ | ⟨indexed, hcall, hindexed⟩
  · exact ⟨hsame, .inl ⟨hstore, herr⟩⟩
  · obtain ⟨hsame, ⟨hstore, err, rfl⟩ | ⟨key, content, hstored, hwrite, hok⟩⟩ :=
      indexBlock_storedAs hbased hcall
    · refine ⟨hsame, .inl ⟨hstore, ?_⟩⟩
      cases result with
      | error err => exact ⟨err, rfl⟩
      | ok handle => cases hindexed handle rfl
    · exact ⟨hsame, .inr ⟨key, content, hstored, hwrite,
        fun handle hhandle => hok handle.1 (hindexed handle hhandle)⟩⟩

end Calls

section Archive

variable {σ : Type} {context : ProcessContext σ} {contents : StoreRole → σ → BlockMap}
  {blockIndexer : BlockIndexerObject} {blocks : List Bytes} {store : LoggedStores σ}

/-- An archive that is under way, since it began on a store. -/
structure Adds (context : ProcessContext σ) (contents : StoreRole → σ → BlockMap)
    (blockIndexer : BlockIndexerObject) (blocks : List Bytes) (store : LoggedStores σ)
    (added : List StoreWrite) (w : IndexerWorld σ) : Prop where
  indexer : w.blockIndexer = blockIndexer
  writes : w.store.writes = store.writes ++ added
  data : ∀ write ∈ added, write.role = .data →
    ∃ block ∈ blocks, StoredAs context.hash context.ciphers blockIndexer block write.key write.content
  present : Consistent w.store.writes → Present contents w.store
  changed : Consistent w.store.writes → ∀ key,
    contents .data w.store.stores key ≠ contents .data store.stores key →
      ∃ write ∈ added, write.key = key ∧ (write.role = .data → write ∉ store.writes)

private theorem Adds.writeBlock (hpair : StorePair context.methods contents) {added : List StoreWrite}
    {w w' : IndexerWorld σ} (h : Adds context contents blockIndexer blocks store added w)
    {role : StoreRole} {key content : Bytes} (hsame : w'.blockIndexer = w.blockIndexer)
    (hstored : role = .data → ∃ block ∈ blocks,
      StoredAs context.hash context.ciphers blockIndexer block key content)
    (hwrite : w'.store = ((loggedMethods context.methods role).writeBlock key content w.store).2) :
    ∃ added', Adds context contents blockIndexer blocks store added' w' := by
  obtain ⟨hstores, -, hwrites⟩ := loggedMethods_writeBlock context.methods role key content w.store
  have hpresent : Consistent w'.store.writes → Present contents w'.store := by
    intro hconsistent
    rw [hwrite] at hconsistent ⊢
    have hsubset : w.store.writes ⊆
        ((loggedMethods context.methods role).writeBlock key content w.store).2.writes := by
      rw [hwrites]
      split
      · exact List.subset_append_left _ _
      · exact List.Subset.refl _
    exact (h.present (hconsistent.of_subset hsubset)).writeBlock hpair role key content hconsistent
  rw [← hwrite] at hstores hwrites
  by_cases hok : ((context.methods role).writeBlock key content w.store.stores).1 = .ok ()
  · rw [if_pos hok] at hwrites
    refine ⟨added ++ [⟨role, key, content⟩], hsame.trans h.indexer, ?_, ?_, hpresent, ?_⟩
    · rw [hwrites, h.writes, List.append_assoc]
    · intro write hmem hrole
      rcases List.mem_append.mp hmem with hmem | hmem
      · exact h.data write hmem hrole
      · rw [List.mem_singleton] at hmem
        subst hmem
        exact hstored hrole
    · intro hconsistent other hchanged
      have hbefore : Consistent w.store.writes := by
        refine hconsistent.of_subset ?_
        rw [hwrites]
        exact List.subset_append_left _ _
      have hearlier : contents .data w.store.stores other ≠ contents .data store.stores other →
          ∃ write ∈ added ++ [⟨role, key, content⟩], write.key = other ∧
            (write.role = .data → write ∉ store.writes) := by
        intro hchanged
        obtain ⟨write, hmem, hnew⟩ := h.changed hbefore other hchanged
        exact ⟨write, List.mem_append_left _ hmem, hnew⟩
      rw [hstores] at hchanged
      rcases hpair.writeBlock role .data key content w.store.stores with hkept | ⟨-, hupdate⟩
      · rw [hkept] at hchanged
        exact hearlier hchanged
      · rw [hupdate] at hchanged
        by_cases hother : other = key
        · by_cases hagain : role = .data ∧ (⟨role, key, content⟩ : StoreWrite) ∈ store.writes
          · -- The same bytes were under this key already.
            have hheld : (⟨role, key, content⟩ : StoreWrite) ∈ w.store.writes := by
              rw [h.writes]
              exact List.mem_append_left _ hagain.2
            have hbound := h.present hbefore _ hheld
            rw [hagain.1] at hbound
            rw [hother, Function.update_self, ← hbound, ← hother] at hchanged
            exact hearlier hchanged
          · exact ⟨⟨role, key, content⟩, List.mem_append_right _ List.mem_cons_self, hother.symm,
              fun hrole hmem => hagain ⟨hrole, hmem⟩⟩
        · rw [Function.update_of_ne hother] at hchanged
          exact hearlier hchanged
  · have hkept : contents .data w'.store.stores = contents .data w.store.stores := by
      rw [hstores]
      rcases hpair.writeBlock role .data key content w.store.stores with hkept | ⟨hdone, -⟩
      · exact hkept
      · exact (hok hdone).elim
    rw [if_neg hok] at hwrites
    refine ⟨added, hsame.trans h.indexer, hwrites.trans h.writes, h.data, hpresent, ?_⟩
    rw [hwrites, hkept]
    exact h.changed

private theorem Adds.index (hpair : StorePair context.methods contents)
    (hbased : blockIndexer.contentBased = true) {indexClass : RtClass} {role : StoreRole} {block : Bytes}
    (hblock : role = .data → block ∈ blocks) {w : IndexerWorld σ}
    (h : ∃ added, Adds context contents blockIndexer blocks store added w) :
    ∃ added, Adds context contents blockIndexer blocks store added
      ((objectIndexer context indexClass).index role block w).2 := by
  obtain ⟨added, h⟩ := h
  generalize hcall : (objectIndexer context indexClass).index role block w = call
  obtain ⟨result, w'⟩ := call
  have hw : w.blockIndexer.contentBased = true := by
    rw [h.indexer]
    exact hbased
  obtain ⟨hsame, ⟨hstore, -⟩ | ⟨key, content, hstored, hwrite, -⟩⟩ :=
    objectIndexer_storedAs role block w hw hcall
  · refine ⟨added, hsame.trans h.indexer, ?_, h.data, ?_, ?_⟩
    · rw [hstore]
      exact h.writes
    · rw [hstore]
      exact h.present
    · rw [hstore]
      exact h.changed
  · rw [h.indexer] at hstored
    exact h.writeBlock hpair hsame (fun hrole => ⟨block, hblock hrole, hstored⟩) hwrite

variable {fuel : Nat} {job : ArchiveJob} {store' : LoggedStores σ} {events : List WriteEvent}
  {result : Except ChopError Bytes}

private theorem doArchive_adds (hpair : StorePair context.methods contents)
    (hbased : job.blockIndexer.contentBased = true)
    (hpresent : Consistent store.writes → Present contents store)
    (h : doArchive context fuel job store = .done ((result, events), store')) :
    ∃ added w, w.store = store' ∧
      Adds context contents job.blockIndexer (dataBlocks job.input.blocks) store added w := by
  obtain ⟨indexed, s, hindex, -, rfl, -⟩ := doArchive_indexBlocks h
  have hpair : StorePair (job.context context).methods contents := hpair
  have hstep : WritesPreserve
      (objectIndexer (job.context context) job.blockIndexer.indexHandleClass) job.indexesPerBlock
      (dataBlocks job.input.blocks) fun s => ∃ added, Adds (job.context context) contents
        job.blockIndexer (dataBlocks job.input.blocks) store added s.world :=
    ⟨fun block hblock _ hs => Adds.index hpair hbased (fun _ => hblock) hs,
      fun _ block _ hs => Adds.index hpair hbased (fun hrole => by cases hrole) hs,
      fun depth s hs => by rwa [chopKeyBlockNew_world]⟩
  have hstart : Adds (job.context context) contents job.blockIndexer (dataBlocks job.input.blocks) store []
      ⟨store, job.blockIndexer, 0, false⟩ :=
    ⟨rfl, (List.append_nil _).symm, fun write hwrite => (List.not_mem_nil hwrite).elim, hpresent,
      fun _ key hchanged => (hchanged rfl).elim⟩
  obtain ⟨added, hadds⟩ := chopTreeIndexBlocks_writesPreserve hstep hindex ⟨[], hstart⟩
  exact ⟨added, s.world, rfl, hadds.indexer, hadds.writes, hadds.data, hadds.present, hadds.changed⟩

/-- The content of a data block is among the writes. -/
def DataWritten (context : ProcessContext σ) (blockIndexer : BlockIndexerObject) (writes : List StoreWrite)
    (block : Bytes) : Prop :=
  ∃ key content, StoredAs context.hash context.ciphers blockIndexer block key content ∧
    ⟨.data, key, content⟩ ∈ writes

private theorem doArchive_dataWritten (hinverts : context.ciphers.Inverts)
    (hbased : job.blockIndexer.contentBased = true)
    (h : doArchive context fuel job store = .done ((result, events), store')) (hok : AllOkAt .indexBlocks events) :
    ∀ block ∈ dataBlocks job.input.blocks,
      DataWritten context job.blockIndexer store'.writes block := by
  obtain ⟨indexed, s, hindex, rfl, rfl, -⟩ := doArchive_indexBlocks h
  have hinverts : (job.context context).ciphers.Inverts := hinverts
  have hw : ∀ w : IndexerWorld σ, w.blockIndexer = job.blockIndexer →
      w.blockIndexer.contentBased = true := by
    intro w hw
    rw [hw]
    exact hbased
  have hstores : Stores (objectIndexer (job.context context) job.blockIndexer.indexHandleClass)
      (fun w => w.blockIndexer = job.blockIndexer)
      fun block w => DataWritten context job.blockIndexer w.store.writes block := by
    refine ⟨?_, ?_, ?_⟩
    · intro role block w hindexer
      exact (objectIndexer_storedAs role block w (hw w hindexer) rfl).1.trans hindexer
    · intro block w handle w' hindexer hindex
      obtain ⟨-, ⟨-, err, herr⟩ | ⟨key, content, hstored, hwrite, hok⟩⟩ :=
        objectIndexer_storedAs .data block w (hw w hindexer) hindex
      · cases herr
      · obtain ⟨-, hstatus, hwrites⟩ :=
          loggedMethods_writeBlock (job.context context).methods .data key content w.store
        rw [hindexer] at hstored
        refine ⟨key, content, hstored, ?_⟩
        rw [hwrite, hwrites, if_pos (hstatus.symm.trans (hok handle rfl))]
        exact List.mem_append_right _ List.mem_cons_self
    · rintro block role other w ⟨key, content, hstored, hmem⟩
      exact ⟨key, content, hstored, objectIndexer_writes hinverts role other w hmem⟩
  exact chopTreeIndexBlocks_stores hstores rfl hindex hok

end Archive

section Runs

variable {σ : Type} {context : ProcessContext σ} {contents : StoreRole → σ → BlockMap} {fuel : Nat}

private theorem archives_dataWritten (hinverts : context.ciphers.Inverts) {jobs : List ArchiveJob}
    {stores : σ} {store : LoggedStores σ} {replies : List (Except ChopError Bytes × List WriteEvent)}
    (hrun : Refinement.run (fun store job => doArchive context fuel job store) ⟨stores, []⟩ jobs =
      .done (replies, store))
    (hok : ∀ reply ∈ replies, AllOkAt .indexBlocks reply.2) {job : ArchiveJob} (hjob : job ∈ jobs)
    (hbased : job.blockIndexer.contentBased = true) :
    ∀ block ∈ dataBlocks job.input.blocks, DataWritten context job.blockIndexer store.writes block := by
  obtain ⟨i, hi⟩ := List.getElem?_of_mem hjob
  obtain ⟨between, reply, after, rest, -, hreply, hat, hrest⟩ := Refinement.run_at hrun hi
  obtain ⟨result, events⟩ := reply
  have hwritten := doArchive_dataWritten hinverts hbased hreply (hok _ (List.mem_of_getElem? hat))
  have hstep : ∀ (store : LoggedStores σ) (job : ArchiveJob)
      (reply : Except ChopError Bytes × List WriteEvent) (store' : LoggedStores σ), True →
      after.writes ⊆ store.writes → doArchive context fuel job store = .done (reply, store') →
      after.writes ⊆ store'.writes :=
    fun store job reply store' _ hsubset h => List.Subset.trans hsubset (doArchive_writes hinverts h)
  have hkeeps : after.writes ⊆ store.writes :=
    Refinement.run_invariant hstep (fun _ _ => trivial) (List.Subset.refl after.writes) hrest
  intro block hblock
  obtain ⟨key, content, hstored, hmem⟩ := hwritten block hblock
  exact ⟨key, content, hstored, hkeeps hmem⟩

private theorem archive_adds (hinverts : context.ciphers.Inverts) (hpair : StorePair context.methods contents)
    {jobs : List ArchiveJob} {stores : σ} {store store' : LoggedStores σ}
    {replies : List (Except ChopError Bytes × List WriteEvent)}
    (hrun : Refinement.run (fun store job => doArchive context fuel job store) ⟨stores, []⟩ jobs =
      .done (replies, store))
    {job : ArchiveJob}
    (hbased : job.blockIndexer.contentBased = true)
    (hweak : ∀ block ∈ dataBlocks job.input.blocks,
      ¬ (⟨job.blockIndexer, [], block⟩ : IndexRequest).weak context.hash context.ciphers)
    {result : Except ChopError Bytes} {events : List WriteEvent}
    (harchive : doArchive context fuel job store = .done ((result, events), store'))
    (hconsistent : Consistent store'.writes) :
    ∃ added, store'.writes = store.writes ++ added ∧
      ∀ key, contents .data store'.stores key ≠ contents .data store.stores key →
        (∃ write ∈ added, write.role = .metadata ∧ write.key = key) ∨
        ∃ block ∈ dataBlocks job.input.blocks, ¬ DataWritten context job.blockIndexer store.writes block ∧
          ∃ content, StoredAs context.hash context.ciphers job.blockIndexer block key content ∧
            contents .data store'.stores key = some content := by
  have hkeeps : ∀ (store : LoggedStores σ) (job : ArchiveJob)
      (reply : Except ChopError Bytes × List WriteEvent) (store' : LoggedStores σ), True →
      (Consistent store.writes → Present contents store) →
      doArchive context fuel job store = .done (reply, store') →
      Consistent store'.writes → Present contents store' :=
    fun store job reply store' _ hs h => doArchive_present hinverts hpair h hs
  have hstart : Consistent [] → Present contents ⟨stores, []⟩ :=
    fun _ write hwrite => (List.not_mem_nil hwrite).elim
  have hpresent : Consistent store.writes → Present contents store :=
    Refinement.run_invariant hkeeps (fun _ _ => trivial) hstart hrun
  obtain ⟨added, w, rfl, hadds⟩ := doArchive_adds hpair hbased hpresent harchive
  refine ⟨added, hadds.writes, fun key hchanged => ?_⟩
  obtain ⟨write, hmem, rfl, hnew⟩ := hadds.changed hconsistent key hchanged
  cases hrole : write.role with
  | metadata => exact .inl ⟨write, hmem, hrole, rfl⟩
  | data =>
    obtain ⟨block, hblock, hstored⟩ := hadds.data write hmem hrole
    refine .inr ⟨block, hblock, ?_, write.content, hstored, ?_⟩
    · rintro ⟨key, content, hbefore, hwritten⟩
      obtain ⟨rfl, rfl⟩ := hstored.unique (hweak block hblock) hbefore
      rw [← hrole] at hwritten
      exact hnew hrole hwritten
    · have hin : write ∈ w.store.writes := by
        rw [hadds.writes]
        exact List.mem_append_right _ hmem
      have hbound := hadds.present hconsistent write hin
      rw [hrole] at hbound
      exact hbound

/-- An archive by a content-based block indexer changes the store of its blocks at the keys of its key
blocks, if there is one store, and of blocks that no earlier stream had under the same block indexer. -/
theorem archive_adds_new_blocks (hinverts : context.ciphers.Inverts)
    (hpair : StorePair context.methods contents) {jobs : List ArchiveJob} {stores : σ}
    {store store' : LoggedStores σ} {replies : List (Except ChopError Bytes × List WriteEvent)}
    (hrun : Refinement.run (fun store job => doArchive context fuel job store) ⟨stores, []⟩ jobs =
      .done (replies, store))
    (hok : ∀ reply ∈ replies, AllOkAt .indexBlocks reply.2) {job : ArchiveJob}
    (hbased : job.blockIndexer.contentBased = true)
    (hweak : ∀ block ∈ dataBlocks job.input.blocks,
      ¬ (⟨job.blockIndexer, [], block⟩ : IndexRequest).weak context.hash context.ciphers)
    {result : Except ChopError Bytes} {events : List WriteEvent}
    (harchive : doArchive context fuel job store = .done ((result, events), store'))
    (hconsistent : Consistent store'.writes) :
    ∃ added, store'.writes = store.writes ++ added ∧
      ∀ key, contents .data store'.stores key ≠ contents .data store.stores key →
        (∃ write ∈ added, write.role = .metadata ∧ write.key = key) ∨
        ∃ block ∈ dataBlocks job.input.blocks,
          (∀ earlier ∈ jobs, earlier.blockIndexer = job.blockIndexer →
            block ∉ dataBlocks earlier.input.blocks) ∧
          ∃ content, StoredAs context.hash context.ciphers job.blockIndexer block key content ∧
            contents .data store'.stores key = some content := by
  obtain ⟨added, hwrites, hchanges⟩ := archive_adds hinverts hpair hrun hbased hweak harchive hconsistent
  refine ⟨added, hwrites, fun key hchanged => (hchanges key hchanged).imp_right ?_⟩
  rintro ⟨block, hblock, hnew, hstored⟩
  refine ⟨block, hblock, fun earlier hearlier hsame hagain => hnew ?_, hstored⟩
  have hearlierBased : earlier.blockIndexer.contentBased = true := by
    rw [hsame]
    exact hbased
  rw [← hsame]
  exact archives_dataWritten hinverts hrun hok hearlier hearlierBased block hagain

/-- After a stream was archived, a stream with the same end changes the store of its blocks only up to the
first isolated anchor of the common end, if both are chopped in the same way. -/
theorem archive_edited (hinverts : context.ciphers.Inverts) (hpair : StorePair context.methods contents)
    {jobs : List ArchiveJob} {stores : σ} {store store' : LoggedStores σ}
    {replies : List (Except ChopError Bytes × List WriteEvent)}
    (hrun : Refinement.run (fun store job => doArchive context fuel job store) ⟨stores, []⟩ jobs =
      .done (replies, store))
    (hok : ∀ reply ∈ replies, AllOkAt .indexBlocks reply.2) {earlier job : ArchiveJob} (hearlier : earlier ∈ jobs)
    (hsame : earlier.blockIndexer = job.blockIndexer) (hbased : job.blockIndexer.contentBased = true)
    (hweak : ∀ block ∈ dataBlocks job.input.blocks,
      ¬ (⟨job.blockIndexer, [], block⟩ : IndexRequest).weak context.hash context.ciphers)
    {windowSize mask : Nat} (hpos : 0 < windowSize) {u v s : Bytes}
    (hbefore : AnchorChopped windowSize mask earlier.input (u ++ s))
    (hafter : AnchorChopped windowSize mask job.input (v ++ s)) {q : Nat} (hlow : windowSize - 1 ≤ q)
    (hfits : q + windowSize ≤ s.length) (hmagic : windowFingerprint (window windowSize s q) &&& mask = 0)
    (hisolated : ∀ p < q, q < p + windowSize →
      windowFingerprint (window windowSize s p) &&& mask ≠ 0)
    {result : Except ChopError Bytes} {events : List WriteEvent}
    (harchive : doArchive context fuel job store = .done ((result, events), store'))
    (hconsistent : Consistent store'.writes) :
    ∃ first rest added, job.input.blocks = first ++ rest ∧
      first.flatten = v ++ s.take (q + windowSize) ∧ store'.writes = store.writes ++ added ∧
      ∀ key, contents .data store'.stores key ≠ contents .data store.stores key →
        (∃ write ∈ added, write.role = .metadata ∧ write.key = key) ∨
        ∃ block ∈ first, ∃ content,
          StoredAs context.hash context.ciphers job.blockIndexer block key content ∧
            contents .data store'.stores key = some content := by
  have hanchor : isAnchor mask (window windowSize s q) = true := decide_eq_true hmagic
  have hothers : ∀ p < q, q < p + windowSize → isAnchor mask (window windowSize s p) = false :=
    fun p hp hclose => decide_eq_false (hisolated p hp hclose)
  obtain ⟨_, hearlierSplit, -⟩ := split_append_of_isolated_anchor hpos u hlow hfits hanchor hothers
  obtain ⟨first, hsplit, hflatten⟩ := split_append_of_isolated_anchor hpos v hlow hfits hanchor hothers
  have hblocks := (hafter.blocks hpos).2.trans hsplit
  have hearlierBlocks := (hbefore.blocks hpos).2.trans hearlierSplit
  obtain ⟨added, hwrites, hchanges⟩ := archive_adds hinverts hpair hrun hbased hweak harchive hconsistent
  refine ⟨first, _, added, hblocks, hflatten, hwrites, fun key hchanged =>
    (hchanges key hchanged).imp_right ?_⟩
  rintro ⟨block, hblock, hnew, hstored⟩
  obtain ⟨hin, hne⟩ := List.mem_filter.mp hblock
  rw [hblocks] at hin
  rcases List.mem_append.mp hin with hfirst | hrest
  · exact ⟨block, hfirst, hstored⟩
  · -- The blocks after the anchor were all archived before.
    have hagain : block ∈ dataBlocks earlier.input.blocks := by
      refine List.mem_filter.mpr ⟨?_, hne⟩
      rw [hearlierBlocks]
      exact List.mem_append_right _ hrest
    have hearlierBased : earlier.blockIndexer.contentBased = true := by
      rw [hsame]
      exact hbased
    rw [← hsame] at hnew
    exact (hnew (archives_dataWritten hinverts hrun hok hearlier hearlierBased block hagain)).elim

end Runs

section Sample

/-- A key block over two blocks, the second one of one byte. -/
def sampleKeyBlock (size : UInt8) (first second : Bytes) : Bytes :=
  [72, 84, 2, 0, 0, 0, 0, 0, 0, 0] ++ [size, 0, 0, 0, 20, 0, 0, 0] ++ first ++
    [1, 0, 0, 0, 20, 0, 0, 0] ++ second

def lastByteKey : Bytes :=
  [172, 146, 49, 218, 64, 130, 67, 10, 254, 143, 77, 64, 18, 120, 20, 198, 19, 100, 141, 142]

def fiveBytesKey : Bytes :=
  [191, 22, 126, 49, 116, 81, 85, 255, 63, 243, 68, 64, 136, 104, 67, 249, 103, 195, 161, 184]

def fourBytesKey : Bytes :=
  [240, 120, 71, 19, 203, 204, 178, 68, 28, 228, 54, 208, 48, 180, 82, 82, 49, 186, 90, 196]

/-- SHA-1 on the blocks of two streams and their key blocks. -/
def editedContext : ProcessContext BlockMap :=
  { sampleContext with
    hash := .sha1Table
      [([9], lastByteKey), ([7, 5, 6, 1, 1], fiveBytesKey), ([5, 6, 1, 1], fourBytesKey),
        (sampleKeyBlock 5 fiveBytesKey lastByteKey,
          [189, 156, 191, 122, 221, 17, 254, 63, 179, 249, 158, 246, 250, 141, 52, 59, 45, 102, 122, 65]),
        (sampleKeyBlock 4 fourBytesKey lastByteKey,
          [154, 99, 30, 36, 54, 234, 193, 29, 21, 82, 128, 118, 117, 39, 143, 58, 143, 83, 241, 192])]
      (by decide) }

theorem editedContext_storePair : StorePair editedContext.methods fun _ m => m :=
  ⟨sampleContext_storePair.mapStore, sampleContext_storePair.readBlock, sampleContext_storePair.writeBlock⟩

/-- Six bytes, in blocks of an anchor-based chopper. -/
def originalJob : ArchiveJob := ⟨⟨[[7, 5, 6, 1, 1], [9]], .streamEnd⟩, 3, .hash .sha1, fun _ => []⟩

/-- The same without the first byte. -/
def editedJob : ArchiveJob := ⟨⟨[[5, 6, 1, 1], [9]], .streamEnd⟩, 3, .hash .sha1, fun _ => []⟩

set_option maxRecDepth 4000 in
private theorem editedJob_run : ∃ replies store result events store',
    Refinement.run (fun store job => doArchive editedContext 66 job store) ⟨fun _ => none, []⟩
      [originalJob] = .done (replies, store) ∧
    (∀ reply ∈ replies, AllOkAt .indexBlocks reply.2) ∧
    doArchive editedContext 66 editedJob store = .done ((result, events), store') ∧
    Consistent store'.writes := by
  have hrun : ∃ replies store result events store',
      Refinement.run (fun store job => doArchive editedContext 66 job store) ⟨fun _ => none, []⟩
        [originalJob] = .done (replies, store) ∧
      (∀ reply ∈ replies, ∀ event ∈ reply.2, event.status = .ok ()) ∧
      doArchive editedContext 66 editedJob store = .done ((result, events), store') ∧
      ∀ first ∈ store'.writes, ∀ second ∈ store'.writes, first.key = second.key →
        first.content = second.content := by
    exact ⟨_, _, _, _, _, rfl, by decide, rfl, by decide⟩
  obtain ⟨replies, store, result, events, store', hjobs, hok, harchive, hconsistent⟩ := hrun
  exact ⟨replies, store, result, events, store', hjobs,
    fun reply hreply event hevent _ => hok reply hreply event hevent, harchive, hconsistent⟩

theorem originalJob_chopped : AnchorChopped 2 3 originalJob.input ([7] ++ [5, 6, 1, 1, 9]) :=
  anchorChopped_split (by decide) 3 [[7, 5, 6, 1, 1, 9]]

theorem editedJob_chopped : AnchorChopped 2 3 editedJob.input ([] ++ [5, 6, 1, 1, 9]) :=
  anchorChopped_split (by decide) 3 [[5, 6], [1, 1, 9]]

theorem editedJob_adds : ∃ replies store result events store' added,
    Refinement.run (fun store job => doArchive editedContext 66 job store) ⟨fun _ => none, []⟩
      [originalJob] = .done (replies, store) ∧
    doArchive editedContext 66 editedJob store = .done ((result, events), store') ∧
    store'.writes = store.writes ++ added ∧
    ∀ key, store'.stores key ≠ store.stores key →
      (∃ write ∈ added, write.role = .metadata ∧ write.key = key) ∨
      ∃ block ∈ dataBlocks editedJob.input.blocks, block ∉ dataBlocks originalJob.input.blocks := by
  obtain ⟨replies, store, result, events, store', hrun, hok, harchive, hconsistent⟩ := editedJob_run
  obtain ⟨added, hwrites, hchanges⟩ := archive_adds_new_blocks sampleCiphers_inverts
    editedContext_storePair hrun hok (rfl : editedJob.blockIndexer.contentBased = true)
    (fun _ _ hweak => hweak) harchive hconsistent
  refine ⟨replies, store, result, events, store', added, hrun, harchive, hwrites, fun key hchanged =>
    (hchanges key hchanged).imp_right ?_⟩
  rintro ⟨block, hblock, hnew, -⟩
  exact ⟨block, hblock, hnew originalJob List.mem_cons_self rfl⟩

theorem editedJob_shares_end : ∃ replies store result events store' first rest added,
    Refinement.run (fun store job => doArchive editedContext 66 job store) ⟨fun _ => none, []⟩
      [originalJob] = .done (replies, store) ∧
    doArchive editedContext 66 editedJob store = .done ((result, events), store') ∧
    editedJob.input.blocks = first ++ rest ∧ first.flatten = [5, 6, 1, 1] ∧
    store'.writes = store.writes ++ added ∧
    ∀ key, store'.stores key ≠ store.stores key →
      (∃ write ∈ added, write.role = .metadata ∧ write.key = key) ∨
      ∃ block ∈ first, ∃ content,
        StoredAs editedContext.hash editedContext.ciphers (.hash .sha1) block key content ∧
          store'.stores key = some content := by
  obtain ⟨replies, store, result, events, store', hrun, hok, harchive, hconsistent⟩ := editedJob_run
  have hisolated : ∀ p < 2, 2 < p + 2 → windowFingerprint (window 2 [5, 6, 1, 1, 9] p) &&& 3 ≠ 0 := by
    intro p hp hclose
    obtain rfl : p = 1 := by omega
    decide
  have hsame : originalJob.blockIndexer = editedJob.blockIndexer := rfl
  obtain ⟨first, rest, added, hblocks, hflatten, hwrites, hchanges⟩ := archive_edited sampleCiphers_inverts
    editedContext_storePair hrun hok List.mem_cons_self hsame
    (rfl : editedJob.blockIndexer.contentBased = true) (fun _ _ hweak => hweak) (by decide)
    originalJob_chopped editedJob_chopped (show _ ≤ 2 by decide) (by decide) (by decide) hisolated harchive
    hconsistent
  exact ⟨replies, store, result, events, store', first, rest, added, hrun, harchive, hblocks, hflatten,
    hwrites, hchanges⟩

end Sample

end Libchop
