import Libchop.Indexer.BinaryHandles
import Libchop.Tree.Preserved
import Libchop.Tree.RoundTrip

/-!
# The hash tree over block indexer objects

A block indexer object writes to two stores, which may be one and the same.  Its fetcher gets a block back
wherever a store still has under the key of a handle what was written there.
-/

namespace Libchop

structure StoreWrite where
  role : StoreRole
  key : Bytes
  content : Bytes
deriving DecidableEq, Repr

/-- The stores with the ghost list of the writes that they made. -/
structure LoggedStores (σ : Type) where
  stores : σ
  writes : List StoreWrite

/-- What the objects of a process use: two stores, `libgcrypt`, random bytes for each call of a block
indexer, and memory for key blocks. -/
structure ProcessContext (σ : Type) where
  methods : StoreRole → StoreMethods σ
  filling : StoreRole → BufferFilling
  hash : HashFunctions
  ciphers : Ciphers
  randoms : Nat → List (Nat → UInt8)
  hasMemory : Nat → σ → Bool

section Definitions

variable {σ : Type}

def loggedMethods (methods : StoreRole → StoreMethods σ) (role : StoreRole) :
    StoreMethods (LoggedStores σ) where
  blocksExist keys s :=
    (((methods role).blocksExist keys s.stores).1,
      { s with stores := ((methods role).blocksExist keys s.stores).2 })
  readBlock key s :=
    (((methods role).readBlock key s.stores).1,
      { s with stores := ((methods role).readBlock key s.stores).2 })
  writeBlock key block s :=
    match (methods role).writeBlock key block s.stores with
    | (.ok _, stores) => (.ok (), ⟨stores, s.writes ++ [⟨role, key, block⟩]⟩)
    | (.error err, stores) => (.error err, { s with stores })
  sync s :=
    (((methods role).sync s.stores).1, { s with stores := ((methods role).sync s.stores).2 })

instance : DecidablePred IndexHandle.FitsBinary := fun index =>
  match index with
  | .hash handle =>
    inferInstanceAs (Decidable (handle.blockSize < 2 ^ 32 ∧ handle.content.length ≤ handleFieldSize))
  | .chk handle =>
    inferInstanceAs (Decidable (handle.blockSize < 2 ^ 32 ∧ handle.key.length ≤ handleFieldSize ∧
      handle.blockId.length ≤ handleFieldSize))
  | .integer _ => inferInstanceAs (Decidable True)

/-- The handles of a class, with sizes that fit their binary form. -/
def HandleOf (indexClass : RtClass) : Type :=
  { index : IndexHandle // index.rtClass = indexClass ∧ index.FitsBinary }

/-- The world of a block indexer object. -/
structure IndexerWorld (σ : Type) where
  store : LoggedStores σ
  blockIndexer : BlockIndexerObject
  calls : Nat
  /-- A call ended the process. -/
  ended : Bool

/-- A handle that does not fit its binary form ends the process, where it is serialized. -/
def objectIndexer (context : ProcessContext σ) (indexClass : RtClass) :
    BlockIndexer (IndexerWorld σ) (HandleOf indexClass) where
  index role block w :=
    match w.blockIndexer.indexBlock (loggedMethods context.methods role) context.hash context.ciphers
        (context.randoms w.calls) block w.store with
    | .done (.ok index, blockIndexer, store) =>
      if h : index.rtClass = indexClass ∧ index.FitsBinary then
        (.ok ⟨index, h⟩, ⟨store, blockIndexer, w.calls + 1, w.ended⟩)
      else (.error .invalidArg, ⟨store, blockIndexer, w.calls + 1, true⟩)
    | .done (.error err, blockIndexer, store) =>
      (.error err, ⟨store, blockIndexer, w.calls + 1, w.ended⟩)
    | .abort => (.error .invalidArg, { w with ended := true })
    | .outOfFuel => (.error .invalidArg, { w with ended := true })
  serialize handle :=
    match handle.1.serializeBinary with
    | .done bytes => bytes
    | .abort => []
    | .outOfFuel => []
  hasMemory size w := context.hasMemory size w.store.stores

/-- The key that a fetcher reads for a handle. -/
def BlockFetcherObject.storeKey (fetcher : BlockFetcherObject) (index : IndexHandle) : Option Bytes :=
  match fetcher with
  | .hash _ =>
    match index with
    | .hash handle => some handle.content
    | .chk _ => none
    | .integer _ => none
  | .chk _ _ =>
    match index with
    | .hash _ => none
    | .chk handle => some handle.blockId
    | .integer _ => none
  | .integer =>
    match index with
    | .hash _ => none
    | .chk _ => none
    | .integer id => some (integerKey id)

/-- The world of a block fetcher object. -/
structure FetcherWorld (σ : Type) where
  stores : σ
  /-- A call ended the process. -/
  ended : Bool

/-- The stores after a block fetcher has read a handle. -/
def storesAfterFetch (context : ProcessContext σ) (fetcher : BlockFetcherObject) (role : StoreRole)
    (index : IndexHandle) (stores : σ) : σ :=
  match fetcher.storeKey index with
  | some key => ((context.methods role).readBlock key stores).2
  | none => stores

/-- Fields that do not fit their arrays are reported as corrupt input here. -/
def objectFetcher (context : ProcessContext σ) (fetcher : BlockFetcherObject) (indexClass : RtClass)
    (memory : FetcherWorld σ → DecodedBlock) : BlockFetcher (FetcherWorld σ) (HandleOf indexClass) where
  fetch role handle w :=
    let stores := storesAfterFetch context fetcher role handle.1 w.stores
    match fetcher.fetchBlock context.hash context.ciphers (context.filling role)
        (fun key => ((context.methods role).readBlock key w.stores).1) handle.1 [] with
    | .done (.ok _, buffer, _) => (.ok buffer, ⟨stores, w.ended⟩)
    | .done (.error err, buffer, _) => (.error (err, buffer), ⟨stores, w.ended⟩)
    | .abort => (.error (.invalidArg, []), ⟨stores, true⟩)
    | .outOfFuel => (.error (.invalidArg, []), ⟨stores, true⟩)
  deserialize input :=
    match deserializeIndexHandleBinary indexClass input with
    | .done (.ok (index, count)) =>
      if h : index.rtClass = indexClass ∧ index.FitsBinary then .ok (⟨index, h⟩, count)
      else .error .deserialCorruptInput
    | .done (.error err) => .error err
    | .abort => .error .deserialCorruptInput
    | .outOfFuel => .error .deserialCorruptInput
  uninitialized := memory

end Definitions

section Calls

/-- The cipher of a fetcher can be opened, where it has one. -/
def BlockFetcherObject.opened (ciphers : Ciphers) : BlockFetcherObject → Bool
  | .hash _ => true
  | .chk cipher _ => ciphers.opens cipher
  | .integer => true

theorem accepted_eq_opened (ciphers : Ciphers) (blockIndexer : BlockIndexerObject) :
    blockIndexer.accepted ciphers = blockIndexer.fetcher.opened ciphers := by
  cases blockIndexer with
  | hash method => rfl
  | chk indexer => rfl
  | integer id => rfl

variable {σ : Type} {methods : StoreMethods σ} {hash : HashFunctions} {ciphers : Ciphers}

/-- The fetcher gets the block for the handle wherever the key of the handle has the content. -/
structure Fetches (hash : HashFunctions) (ciphers : Ciphers) (fetcher : BlockFetcherObject)
    (handle : IndexHandle) (block key content : Bytes) : Prop where
  describes : handle.Describes block
  complete : fetcher.opened ciphers = true → fetcher.Complete ciphers
  storeKey : fetcher.storeKey handle = some key
  fetchBlock : ∀ (filling : BufferFilling) (buffer : Bytes) (answer : Bytes → Except ChopError Bytes),
    (filling = .push ∨ buffer = []) → answer key = .ok content →
      fetcher.fetchBlock hash ciphers filling answer handle buffer = .done (.ok (), block, block.length)

/-- What `writeIndexed` did. -/
theorem writeIndexed_eq {key content : Bytes} {handle : IndexHandle} {store store' : σ}
    {result : Except ChopError IndexHandle}
    (h : writeIndexed methods key content handle store = (result, store')) :
    store' = (methods.writeBlock key content store).2 ∧
      ∀ index, result = .ok index → index = handle ∧ (methods.writeBlock key content store).1 = .ok () := by
  rw [writeIndexed] at h
  cases hwrite : methods.writeBlock key content store with
  | mk status after =>
    rw [hwrite] at h
    cases status with
    | error err =>
      cases h
      exact ⟨rfl, fun index hindex => by cases hindex⟩
    | ok u =>
      cases h
      exact ⟨rfl, fun index hindex => ⟨(Except.ok.inj hindex).symm, rfl⟩⟩

/-- A call of a block indexer keeps its fetcher and makes at most one write, after which its handle can be
fetched. -/
theorem indexBlock_fetches (hinverts : ciphers.Inverts)
    {blockIndexer blockIndexer' : BlockIndexerObject} {randoms : List (Nat → UInt8)} {block : Bytes}
    {store store' : σ} {result : Except ChopError IndexHandle}
    (h : blockIndexer.indexBlock methods hash ciphers randoms block store =
      .done (result, blockIndexer', store')) :
    blockIndexer'.fetcher = blockIndexer.fetcher ∧
      ((store' = store ∧ ∃ err, result = .error err) ∨
        ∃ key content, store' = (methods.writeBlock key content store).2 ∧
          ∀ index, result = .ok index → (methods.writeBlock key content store).1 = .ok () ∧
            Fetches hash ciphers blockIndexer.fetcher index block key content) := by
  have hrequest : indexRequest methods hash ciphers store ⟨blockIndexer, randoms, block⟩ =
      .done (result, store') := by
    rw [indexRequest, h, Outcome.done_bind]
  have hdescribes : ∀ index, result = .ok index → index.Describes block ∧
      (blockIndexer.fetcher.opened ciphers = true → blockIndexer.fetcher.Complete ciphers) := by
    rintro index rfl
    obtain ⟨hdescribes, -, hcomplete⟩ := indexBlock_describes h
    rw [accepted_eq_opened] at hcomplete
    exact ⟨hdescribes, hcomplete⟩
  have hcontent : ∀ (_ : blockIndexer.contentBased = true),
      (store' = store ∧ ∃ err, result = .error err) ∨
        ∃ key content, store' = (methods.writeBlock key content store).2 ∧
          ∀ index, result = .ok index → (methods.writeBlock key content store).1 = .ok () ∧
            Fetches hash ciphers blockIndexer.fetcher index block key content := by
    intro hbased
    rcases indexRequest_cases hbased hrequest with
      ⟨herr, hsame⟩ | ⟨handle, method, key, content, hindexed, hwrite⟩
    · exact .inl ⟨hsame, herr⟩
    · obtain ⟨hstore, hresult⟩ := writeIndexed_eq hwrite
      refine .inr ⟨key, content, hstore, fun index hindex => ?_⟩
      obtain ⟨hindexDescribes, hcomplete⟩ := hdescribes index hindex
      obtain ⟨rfl, hok⟩ := hresult index hindex
      refine ⟨hok, hindexDescribes, hcomplete, ?_, fun filling buffer answer hbuffer hanswer =>
        hindexed.fetchBlock hinverts hbuffer hanswer⟩
      cases hindexed with
      | hash hsize hkey => rfl
      | chk hencrypt hkey => rfl
  cases blockIndexer with
  | hash method =>
    obtain ⟨⟨result, after⟩, -, hdone⟩ := Outcome.bind_eq_done.mp h
    cases hdone
    exact ⟨rfl, hcontent rfl⟩
  | chk indexer =>
    obtain ⟨⟨result, after⟩, -, hdone⟩ := Outcome.bind_eq_done.mp h
    cases hdone
    exact ⟨rfl, hcontent rfl⟩
  | integer id =>
    have hwrite : writeIndexed methods (integerKey id) block (.integer id) store = (result, store') := by
      cases h
      rfl
    cases h
    obtain ⟨hstore, hresult⟩ := writeIndexed_eq hwrite
    refine ⟨rfl, .inr ⟨integerKey id, block, hstore, fun index hindex => ?_⟩⟩
    obtain ⟨hindexDescribes, hcomplete⟩ := hdescribes index hindex
    obtain ⟨rfl, hok⟩ := hresult index hindex
    refine ⟨hok, hindexDescribes, hcomplete, rfl, fun filling buffer answer hbuffer hanswer => ?_⟩
    simp only [BlockIndexerObject.fetcher, BlockFetcherObject.fetchBlock, integerBlockFetch, hanswer,
      chopStoreReadBlock, BufferFilling.fill_eq hbuffer]

end Calls

section Storage

variable {σ : Type} {context : ProcessContext σ} {indexClass : RtClass}

/-- A block is held under a handle that its fetcher gets it for, from what was written. -/
def writtenHolds (context : ProcessContext σ) (indexClass : RtClass) (fetcher : BlockFetcherObject)
    (writes : List StoreWrite) : Holds (HandleOf indexClass) := fun role handle block =>
  ∃ key content, Fetches context.hash context.ciphers fetcher handle.1 block key content ∧
    ⟨role, key, content⟩ ∈ writes

/-- Or from what is stored. -/
def storedHolds (context : ProcessContext σ) (indexClass : RtClass) (fetcher : BlockFetcherObject)
    (contents : StoreRole → σ → BlockMap) (stores : σ) : Holds (HandleOf indexClass) :=
  fun role handle block =>
    ∃ key content, Fetches context.hash context.ciphers fetcher handle.1 block key content ∧
      contents role stores key = some content

/-- A call of the block indexer object calls its block indexer, or ends the process before. -/
theorem objectIndexer_call (role : StoreRole) (block : Bytes) (w : IndexerWorld σ)
    {result : Except ChopError (HandleOf indexClass)} {w' : IndexerWorld σ}
    (h : (objectIndexer context indexClass).index role block w = (result, w')) :
    (w'.blockIndexer = w.blockIndexer ∧ w'.store = w.store ∧ ∃ err, result = .error err) ∨
      ∃ indexed,
        w.blockIndexer.indexBlock (loggedMethods context.methods role) context.hash context.ciphers
          (context.randoms w.calls) block w.store = .done (indexed, w'.blockIndexer, w'.store) ∧
        ∀ handle, result = .ok handle → indexed = .ok handle.1 := by
  simp only [objectIndexer] at h
  cases hcall : w.blockIndexer.indexBlock (loggedMethods context.methods role) context.hash
      context.ciphers (context.randoms w.calls) block w.store with
  | abort =>
    rw [hcall] at h
    cases h
    exact .inl ⟨rfl, rfl, _, rfl⟩
  | outOfFuel =>
    rw [hcall] at h
    cases h
    exact .inl ⟨rfl, rfl, _, rfl⟩
  | done answer =>
    obtain ⟨indexed, blockIndexer, store⟩ := answer
    rw [hcall] at h
    cases indexed with
    | error err =>
      cases h
      exact .inr ⟨.error err, rfl, fun handle hhandle => by cases hhandle⟩
    | ok index =>
      by_cases hfits : index.rtClass = indexClass ∧ index.FitsBinary
      · simp only [dif_pos hfits] at h
        cases h
        refine .inr ⟨.ok index, rfl, fun handle hhandle => ?_⟩
        cases hhandle
        rfl
      · simp only [dif_neg hfits] at h
        cases h
        exact .inr ⟨.ok index, rfl, fun handle hhandle => by cases hhandle⟩

/-- A call of the block indexer object keeps the fetcher and makes at most one write. -/
theorem objectIndexer_index (hinverts : context.ciphers.Inverts) (role : StoreRole) (block : Bytes)
    (w : IndexerWorld σ) {result : Except ChopError (HandleOf indexClass)} {w' : IndexerWorld σ}
    (h : (objectIndexer context indexClass).index role block w = (result, w')) :
    w'.blockIndexer.fetcher = w.blockIndexer.fetcher ∧
      ((w'.store = w.store ∧ ∃ err, result = .error err) ∨
        ∃ key content, w'.store = ((loggedMethods context.methods role).writeBlock key content w.store).2 ∧
          ∀ handle, result = .ok handle →
            ((loggedMethods context.methods role).writeBlock key content w.store).1 = .ok () ∧
            Fetches context.hash context.ciphers w.blockIndexer.fetcher handle.1 block key content) := by
  rcases objectIndexer_call role block w h with ⟨hsame, hstore, herr⟩ | ⟨indexed, hcall, hindexed⟩
  · rw [hsame]
    exact ⟨rfl, .inl ⟨hstore, herr⟩⟩
  · obtain ⟨hfetcher, hstore⟩ := indexBlock_fetches hinverts hcall
    refine ⟨hfetcher, ?_⟩
    rcases hstore with ⟨hsame, err, rfl⟩ | ⟨key, content, hwrite, hok⟩
    · refine .inl ⟨hsame, ?_⟩
      cases result with
      | error err => exact ⟨err, rfl⟩
      | ok handle => cases hindexed handle rfl
    · exact .inr ⟨key, content, hwrite, fun handle hhandle => hok handle.1 (hindexed handle hhandle)⟩

theorem loggedMethods_writeBlock (methods : StoreRole → StoreMethods σ) (role : StoreRole)
    (key content : Bytes) (s : LoggedStores σ) :
    ((loggedMethods methods role).writeBlock key content s).2.stores =
        ((methods role).writeBlock key content s.stores).2 ∧
      ((loggedMethods methods role).writeBlock key content s).1 =
        ((methods role).writeBlock key content s.stores).1 ∧
      ((loggedMethods methods role).writeBlock key content s).2.writes =
        if ((methods role).writeBlock key content s.stores).1 = .ok () then
          s.writes ++ [⟨role, key, content⟩]
        else s.writes := by
  simp only [loggedMethods]
  cases hwrite : (methods role).writeBlock key content s.stores with
  | mk status stores =>
    cases status with
    | error err => exact ⟨rfl, rfl, rfl⟩
    | ok u => exact ⟨rfl, rfl, rfl⟩

theorem objectIndexer_fetcher (hinverts : context.ciphers.Inverts) (role : StoreRole) (block : Bytes)
    (w : IndexerWorld σ) :
    ((objectIndexer context indexClass).index role block w).2.blockIndexer.fetcher =
      w.blockIndexer.fetcher := by
  generalize hcall : (objectIndexer context indexClass).index role block w = call
  exact (objectIndexer_index hinverts role block w hcall).1

/-- No write is forgotten. -/
theorem objectIndexer_writes (hinverts : context.ciphers.Inverts) (role : StoreRole) (block : Bytes)
    (w : IndexerWorld σ) :
    w.store.writes ⊆ ((objectIndexer context indexClass).index role block w).2.store.writes := by
  generalize hcall : (objectIndexer context indexClass).index role block w = call
  obtain ⟨result, w'⟩ := call
  obtain ⟨-, ⟨hsame, -⟩ | ⟨key, content, hwrite, -⟩⟩ := objectIndexer_index hinverts role block w hcall
  · rw [hsame]
    exact List.Subset.refl _
  · rw [hwrite, (loggedMethods_writeBlock context.methods role key content w.store).2.2]
    split
    · exact List.subset_append_left _ _
    · exact List.Subset.refl _

theorem objectIndexer_keepsBlocks (hinverts : context.ciphers.Inverts) :
    KeepsBlocks (objectIndexer context indexClass)
      fun w => writtenHolds context indexClass w.blockIndexer.fetcher w.store.writes where
  stores := by
    intro role block w handle w' hindex
    obtain ⟨hfetcher, hcall⟩ := objectIndexer_index hinverts role block w hindex
    rcases hcall with ⟨-, err, herr⟩ | ⟨key, content, hwrite, hok⟩
    · cases herr
    · obtain ⟨hwritten, hfetches⟩ := hok handle rfl
      obtain ⟨-, hstatus, hwrites⟩ :=
        loggedMethods_writeBlock context.methods role key content w.store
      rw [← hfetcher] at hfetches
      refine ⟨key, content, hfetches, ?_⟩
      rw [hwrite, hwrites, if_pos (hstatus.symm.trans hwritten)]
      exact List.mem_append_right _ List.mem_cons_self
  keeps := by
    rintro role block w role' handle held ⟨key, content, hfetches, hmem⟩
    refine ⟨key, content, ?_, objectIndexer_writes hinverts role block w hmem⟩
    rw [objectIndexer_fetcher hinverts role block w]
    exact hfetches

def Consistent (writes : List StoreWrite) : Prop :=
  ∀ first ∈ writes, ∀ second ∈ writes, first.key = second.key → first.content = second.content

theorem Consistent.of_subset {writes writes' : List StoreWrite} (h : Consistent writes')
    (hsubset : writes ⊆ writes') : Consistent writes :=
  fun first hfirst second hsecond => h first (hsubset hfirst) second (hsubset hsecond)

/-- What was written is stored. -/
def Present (contents : StoreRole → σ → BlockMap) (s : LoggedStores σ) : Prop :=
  ∀ write ∈ s.writes, contents write.role s.stores write.key = some write.content

/-- Two maps.  A write to one of them changes the other one in the same way or not at all. -/
structure StorePair (methods : StoreRole → StoreMethods σ) (contents : StoreRole → σ → BlockMap) :
    Prop where
  mapStore : ∀ role, MapStore (methods role) (contents role)
  readBlock : ∀ role other key s, contents other ((methods role).readBlock key s).2 = contents other s
  writeBlock : ∀ role other key block s,
    contents other ((methods role).writeBlock key block s).2 = contents other s ∨
      ((methods role).writeBlock key block s).1 = .ok () ∧
        contents other ((methods role).writeBlock key block s).2 =
          Function.update (contents other s) key (some block)

variable {contents : StoreRole → σ → BlockMap}

/-- A write that agrees with all earlier ones leaves them in the stores. -/
theorem Present.writeBlock (hpair : StorePair context.methods contents) {s : LoggedStores σ}
    (h : Present contents s) (role : StoreRole) (key content : Bytes)
    (hconsistent : Consistent
      ((loggedMethods context.methods role).writeBlock key content s).2.writes) :
    Present contents ((loggedMethods context.methods role).writeBlock key content s).2 := by
  obtain ⟨hstores, -, hwrites⟩ := loggedMethods_writeBlock context.methods role key content s
  have hbefore : ∀ write ∈ s.writes,
      (((context.methods role).writeBlock key content s.stores).1 = .ok () →
        write.key = key → write.content = content) →
      contents write.role ((context.methods role).writeBlock key content s.stores).2 write.key =
        some write.content := by
    intro write hwrite hagrees
    rcases hpair.writeBlock role write.role key content s.stores with hsame | ⟨hok, hupdate⟩
    · rw [hsame]
      exact h write hwrite
    · rw [hupdate]
      by_cases hkey : write.key = key
      · rw [hkey, Function.update_self, hagrees hok hkey]
      · rw [Function.update_of_ne hkey]
        exact h write hwrite
  rw [hwrites] at hconsistent
  intro write hwrite
  rw [hwrites] at hwrite
  rw [hstores]
  split at hwrite
  · next hok =>
    rw [if_pos hok] at hconsistent
    rcases List.mem_append.mp hwrite with hwrite | hwrite
    · exact hbefore write hwrite fun _ hkey =>
        hconsistent write (List.mem_append_left _ hwrite) ⟨role, key, content⟩
          (List.mem_append_right _ List.mem_cons_self) hkey
    · rw [List.mem_singleton] at hwrite
      subst hwrite
      rcases (hpair.mapStore role).writeBlock key content s.stores with ⟨-, hupdate⟩ | ⟨err, herr, -⟩
      · rw [hupdate, Function.update_self]
      · rw [hok] at herr
        cases herr
  · next hfailed => exact hbefore write hwrite fun hok => (hfailed hok).elim

/-- Through all calls of the block indexer object. -/
theorem objectIndexer_present (hinverts : context.ciphers.Inverts)
    (hpair : StorePair context.methods contents) :
    Preserves (objectIndexer context indexClass)
      fun w => Consistent w.store.writes → Present contents w.store := by
  intro role block w hpresent
  generalize hcall : (objectIndexer context indexClass).index role block w = call
  obtain ⟨result, w'⟩ := call
  intro hconsistent
  have hsubset : w.store.writes ⊆
      ((objectIndexer context indexClass).index role block w).2.store.writes :=
    objectIndexer_writes hinverts role block w
  rw [hcall] at hsubset
  have hbefore := hpresent (hconsistent.of_subset hsubset)
  obtain ⟨-, ⟨hsame, -⟩ | ⟨key, content, hwrite, -⟩⟩ := objectIndexer_index hinverts role block w hcall
  · rw [hsame]
    exact hbefore
  · dsimp only at hconsistent
    rw [hwrite] at hconsistent ⊢
    exact hbefore.writeBlock hpair role key content hconsistent

variable {fetcher : BlockFetcherObject} {memory : FetcherWorld σ → DecodedBlock}

theorem contents_storesAfterFetch (hpair : StorePair context.methods contents)
    (fetcher : BlockFetcherObject) (role other : StoreRole) (index : IndexHandle) (stores : σ) :
    contents other (storesAfterFetch context fetcher role index stores) = contents other stores := by
  rw [storesAfterFetch]
  cases fetcher.storeKey index with
  | none => rfl
  | some key => exact hpair.readBlock role other key stores

/-- A block that is held is fetched. -/
theorem objectFetcher_fetch (hpair : StorePair context.methods contents) {role : StoreRole}
    {handle : HandleOf indexClass} {block : Bytes} {w : FetcherWorld σ}
    (hold : storedHolds context indexClass fetcher contents w.stores role handle block) :
    (objectFetcher context fetcher indexClass memory).fetch role handle w =
      (.ok block, ⟨storesAfterFetch context fetcher role handle.1 w.stores, w.ended⟩) := by
  obtain ⟨key, content, hfetches, hstored⟩ := hold
  have hread := ((hpair.mapStore role).readBlock key w.stores).2
  rw [hstored] at hread
  have hfetch := hfetches.fetchBlock (context.filling role) []
    (fun key => ((context.methods role).readBlock key w.stores).1) (.inr rfl) hread
  simp only [objectFetcher, hfetch]

/-- A fetch leaves the contents of both stores. -/
theorem objectFetcher_contents (hpair : StorePair context.methods contents)
    (fetcher : BlockFetcherObject) (memory : FetcherWorld σ → DecodedBlock) (role other : StoreRole)
    (handle : HandleOf indexClass) (w : FetcherWorld σ) :
    contents other ((objectFetcher context fetcher indexClass memory).fetch role handle w).2.stores =
      contents other w.stores := by
  have hafter := contents_storesAfterFetch hpair fetcher role other handle.1 w.stores
  simp only [objectFetcher]
  cases fetcher.fetchBlock context.hash context.ciphers (context.filling role)
      (fun key => ((context.methods role).readBlock key w.stores).1) handle.1 [] with
  | abort => exact hafter
  | outOfFuel => exact hafter
  | done answer =>
    obtain ⟨status, buffer, size⟩ := answer
    cases status with
    | error err => exact hafter
    | ok u => exact hafter

/-- The process goes on where a block was fetched. -/
theorem objectFetcher_ended {role : StoreRole} {handle : HandleOf indexClass} {w w' : FetcherWorld σ}
    {block : Bytes}
    (h : (objectFetcher context fetcher indexClass memory).fetch role handle w = (.ok block, w')) :
    w'.ended = w.ended := by
  simp only [objectFetcher] at h
  cases hcall : fetcher.fetchBlock context.hash context.ciphers (context.filling role)
      (fun key => ((context.methods role).readBlock key w.stores).1) handle.1 [] with
  | abort =>
    rw [hcall] at h
    cases h
  | outOfFuel =>
    rw [hcall] at h
    cases h
  | done answer =>
    obtain ⟨status, buffer, size⟩ := answer
    rw [hcall] at h
    cases status with
    | error err => cases h
    | ok u =>
      cases h
      rfl

theorem objectFetcher_deserialize (handle : HandleOf indexClass) (rest : Bytes) :
    (objectFetcher context fetcher indexClass memory).deserialize
        ((objectIndexer context indexClass).serialize handle ++ rest) =
      .ok (handle, ((objectIndexer context indexClass).serialize handle).length) := by
  obtain ⟨index, hclass, hfits⟩ := handle
  obtain ⟨bytes, hbytes, hread⟩ := hfits.readFrom
  have happend := hread.append rest
  rw [hclass] at happend
  simp only [objectIndexer, objectFetcher, hbytes, happend]
  rw [dif_pos ⟨hclass, hfits⟩]

theorem objectFetcher_fetchesBlocks (hpair : StorePair context.methods contents) :
    FetchesBlocks (objectFetcher context fetcher indexClass memory)
      (objectIndexer context indexClass).serialize
      fun w => storedHolds context indexClass fetcher contents w.stores where
  fetches := by
    intro role handle block w fetched w' hold hfetch
    rw [objectFetcher_fetch hpair hold] at hfetch
    cases hfetch
    rfl
  keeps := by
    rintro role handle w role' handle' block ⟨key, content, hfetches, hstored⟩
    refine ⟨key, content, hfetches, ?_⟩
    rw [objectFetcher_contents hpair fetcher memory]
    exact hstored
  deserialize_serialize := objectFetcher_deserialize

theorem objectFetcher_available (hpair : StorePair context.methods contents) :
    Available (objectFetcher context fetcher indexClass memory)
      fun w => storedHolds context indexClass fetcher contents w.stores :=
  fun _ _ block _ hold => ⟨block, _, objectFetcher_fetch hpair hold⟩

end Storage

/-- There are two handles of every class of handles. -/
theorem HandleOf.nontrivial {indexClass : RtClass} (handle : HandleOf indexClass) :
    Nontrivial (HandleOf indexClass) := by
  obtain ⟨index, rfl, -⟩ := handle
  cases index with
  | hash handle =>
    refine ⟨⟨.hash ⟨0, []⟩, rfl, by decide⟩, ⟨.hash ⟨1, []⟩, rfl, by decide⟩, ?_⟩
    simp [HandleOf]
  | chk handle =>
    refine ⟨⟨.chk ⟨0, [], []⟩, rfl, by decide⟩, ⟨.chk ⟨1, [], []⟩, rfl, by decide⟩, ?_⟩
    simp [HandleOf]
  | integer id =>
    refine ⟨⟨.integer 0, rfl, by decide⟩, ⟨.integer 1, rfl, by decide⟩, ?_⟩
    simp [HandleOf]

end Libchop
