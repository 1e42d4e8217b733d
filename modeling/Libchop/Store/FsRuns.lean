import Libchop.Store.FsIterator

/-!
# Runs of the file-system store

Without failing system calls the store is a finite map, and leaves no sub-directory empty.  With or
without them, only names of blocks occur in its directory, which is what traversals rely on.
-/

namespace Libchop

/-- What happens to a store: a request, during which system calls may fail, or that the store is
closed and opened again. -/
inductive FsRequest where
  | request (faults : IoFaults) (request : StoreRequest)
  | reopen

/-- The store's reply, and the store after it. -/
def chopFsStep (env : FsEnvironment) (store : FsBlockStore) :
    FsRequest → Outcome (StoreReply × FsBlockStore)
  | .request faults (.writeBlock key block) =>
    chopFsWriteBlock faults store.dir key block >>= fun written =>
      .done (.status written.1, { store with dir := written.2 })
  | .request _ (.readBlock key) =>
    chopFsReadBlock store.dir key [] >>= fun result => .done (.ofRead result, store)
  | .request faults (.deleteBlock key) =>
    chopFsDeleteBlock faults store.dir key >>= fun deleted =>
      .done (.status deleted.1, { store with dir := deleted.2 })
  | .request _ (.blocksExist keys) =>
    chopFsBlocksExist store.dir keys >>= fun result => .done (.flags result.1 result.2, store)
  | .request _ (.traverse again) => chopFsTraverse env store again
  | .reopen => .done (.status (.ok ()), { store with position := none })

/-- A request while every system call works. -/
def chopFsRequest (env : FsEnvironment) (store : FsBlockStore) (request : StoreRequest) :
    Outcome (StoreReply × FsBlockStore) := chopFsStep env store (.request .none request)

def FsBlockStore.empty : FsBlockStore := ⟨∅, none⟩

/-- A request on keys that are not empty and whose base32 form makes a file name. -/
def OnFileNames (request : StoreRequest) : Prop :=
  request.isTraversal = false ∧ ∀ key ∈ request.keys, key ≠ [] ∧ (blockFile key).length ≤ nameMax

instance (request : StoreRequest) : Decidable (OnFileNames request) :=
  inferInstanceAs (Decidable (_ ∧ _))

private theorem noEmpty_write {dir dir' : Directory} {key block : Bytes} (h : dir.NoEmpty)
    (hcontents : ∀ d f, dir'.contents d f =
      if d = blockDir key ∧ f = blockFile key then some block else dir.contents d f)
    (hmem : ∀ d, d ∈ dir' ↔ d = blockDir key ∨ d ∈ dir) : dir'.NoEmpty := by
  intro d hd
  cases (hmem d).mp hd with
  | inl hself =>
    refine ⟨blockFile key, ?_⟩
    rw [hcontents, if_pos ⟨hself, rfl⟩]
    rfl
  | inr hd =>
    obtain ⟨f, hf⟩ := h d hd
    refine ⟨f, ?_⟩
    rw [hcontents]
    split
    · rfl
    · exact hf

private theorem noEmpty_delete {dir dir' : Directory} {key : Bytes} (h : dir.NoEmpty)
    (hcontents : ∀ d f, dir'.contents d f =
      if d = blockDir key ∧ f = blockFile key then none else dir.contents d f)
    (hmem : ∀ d, d ∈ dir' ↔ d ∈ dir ∧ (d = blockDir key → ∃ f, (dir'.contents d f).isSome)) :
    dir'.NoEmpty := by
  intro d hd
  obtain ⟨hd, hself⟩ := (hmem d).mp hd
  by_cases hkey : d = blockDir key
  · exact hself hkey
  · obtain ⟨f, hf⟩ := h d hd
    refine ⟨f, ?_⟩
    rw [hcontents, if_neg fun hboth => hkey hboth.1]
    exact hf

private theorem chopFsRequest_replies (env : FsEnvironment) {store : FsBlockStore}
    {request : StoreRequest} (hstore : store.dir.NoEmpty) (hnames : OnFileNames request)
    (hbuffer : ∀ key ∈ request.keys, FitsBuffer key) :
    ∃ reply store', chopFsRequest env store request = .done (reply, store') ∧
      (fsBlockMap store.dir).Replies request reply (fsBlockMap store'.dir) ∧ store'.dir.NoEmpty := by
  obtain ⟨htraversal, hnames⟩ := hnames
  cases request with
  | writeBlock key block =>
    obtain ⟨hkey, hname⟩ := hnames key List.mem_cons_self
    obtain ⟨dir', hwrite, hcontents, hmem⟩ :=
      chopFsWriteBlock_eq hkey (hbuffer key List.mem_cons_self) hname block
    refine ⟨.status (.ok ()), { store with dir := dir' }, ?_, ⟨rfl, fsBlockMap_updated hcontents⟩,
      noEmpty_write hstore hcontents hmem⟩
    simp only [chopFsRequest, chopFsStep, hwrite, Outcome.done_bind]
  | readBlock key =>
    obtain ⟨hkey, hname⟩ := hnames key List.mem_cons_self
    have hread : chopFsReadBlock store.dir key [] = _ :=
      chopFsReadBlock_eq hkey (hbuffer key List.mem_cons_self) hname []
    cases hblock : fsBlockMap store.dir key with
    | none =>
      rw [hblock] at hread
      refine ⟨.block (.error .storeBlockUnavail) [] 0, store, ?_, ⟨rfl, by rw [hblock]⟩, hstore⟩
      simp only [chopFsRequest, chopFsStep, hread, Outcome.done_bind, StoreReply.ofRead]
    | some block =>
      rw [hblock] at hread
      refine ⟨.block (.ok ()) block block.length, store, ?_, ⟨rfl, by rw [hblock]⟩, hstore⟩
      simp only [chopFsRequest, chopFsStep, hread, Outcome.done_bind, StoreReply.ofRead,
        List.nil_append]
  | deleteBlock key =>
    obtain ⟨hkey, hname⟩ := hnames key List.mem_cons_self
    have hfits := hbuffer key List.mem_cons_self
    by_cases hbound : (fsBlockMap store.dir key).isSome
    · obtain ⟨dir', hdelete, hcontents, hmem⟩ := chopFsDeleteBlock_bound hkey hfits hname hbound
      refine ⟨.status (.ok ()), { store with dir := dir' }, ?_, ?_,
        noEmpty_delete hstore hcontents hmem⟩
      · simp only [chopFsRequest, chopFsStep, hdelete, Outcome.done_bind]
      · rw [BlockMap.Replies, if_pos hbound]
        exact ⟨rfl, fsBlockMap_updated hcontents⟩
    · have hunbound : fsBlockMap store.dir key = none := Option.not_isSome_iff_eq_none.mp hbound
      refine ⟨.status (.error .storeBlockUnavail), store, ?_, ?_, hstore⟩
      · simp only [chopFsRequest, chopFsStep, chopFsDeleteBlock_unbound hkey hfits hname hunbound,
          Outcome.done_bind]
      · rw [BlockMap.Replies, if_neg hbound]
        exact ⟨rfl, rfl⟩
  | blocksExist keys =>
    have hexist : chopFsBlocksExist store.dir keys = _ :=
      chopFsBlocksExist_eq store.dir fun key hkey =>
      ⟨(hnames key hkey).1, hbuffer key hkey, (hnames key hkey).2⟩
    refine ⟨_, store, ?_, ⟨rfl, rfl⟩, hstore⟩
    simp only [chopFsRequest, chopFsStep, hexist, Outcome.done_bind]
  | traverse again => cases htraversal

private theorem fitsBuffer_of_blocksExist {dir : Directory} {keys : List Bytes}
    {result : Status × List Bool} (hnames : ∀ key ∈ keys, key ≠ [] ∧ (blockFile key).length ≤ nameMax)
    (h : chopFsBlocksExist dir keys = .done result) : ∀ key ∈ keys, FitsBuffer key := by
  -- Looking up blocks stops the program at the first key whose name does not fit.
  induction keys generalizing result with
  | nil => exact fun key hkey => (List.not_mem_nil hkey).elim
  | cons key keys ih =>
    obtain ⟨⟨hkey, hname⟩, hnames⟩ := List.forall_mem_cons.mp hnames
    have hfits : FitsBuffer key := by
      by_contra hnot
      rw [chopFsBlocksExist, blockFileName_of_not_fitsBuffer hkey hnot] at h
      cases h
    rw [chopFsBlocksExist, blockFileName_of_fitsBuffer hkey hfits, Outcome.done_bind,
      Directory.find_join (slash_notMem_blockDir key) hname] at h
    refine List.forall_mem_cons.mpr ⟨hfits, ?_⟩
    cases hcontents : dir.contents (blockDir key) (blockFile key) with
    | none =>
      simp only [hcontents] at h
      obtain ⟨rest, hrest, -⟩ := Outcome.bind_eq_done.mp h
      exact ih hnames hrest
    | some block =>
      simp only [hcontents] at h
      obtain ⟨rest, hrest, -⟩ := Outcome.bind_eq_done.mp h
      exact ih hnames hrest

private theorem chopFsRequest_fitsBuffer {env : FsEnvironment} {store store' : FsBlockStore}
    {request : StoreRequest} {reply : StoreReply} (hnames : OnFileNames request)
    (h : chopFsRequest env store request = .done (reply, store')) :
    ∀ key ∈ request.keys, FitsBuffer key := by
  obtain ⟨htraversal, hnames⟩ := hnames
  have hsingle : ∀ {key : Bytes}, key ∈ request.keys →
      (∃ fileName, blockFileName key = .done fileName) →
      FitsBuffer key := by
    rintro key hkey ⟨fileName, hname⟩
    by_contra hnot
    rw [blockFileName_of_not_fitsBuffer (hnames key hkey).1 hnot] at hname
    cases hname
  intro key hkey
  cases request with
  | writeBlock key' block =>
    cases List.mem_singleton.mp hkey
    obtain ⟨written, hwritten, -⟩ := Outcome.bind_eq_done.mp h
    obtain ⟨fileName, hname, -⟩ := Outcome.bind_eq_done.mp hwritten
    exact hsingle hkey ⟨fileName, hname⟩
  | readBlock key' =>
    cases List.mem_singleton.mp hkey
    obtain ⟨result, hresult, -⟩ := Outcome.bind_eq_done.mp h
    obtain ⟨fileName, hname, -⟩ := Outcome.bind_eq_done.mp hresult
    exact hsingle hkey ⟨fileName, hname⟩
  | deleteBlock key' =>
    cases List.mem_singleton.mp hkey
    obtain ⟨deleted, hdeleted, -⟩ := Outcome.bind_eq_done.mp h
    obtain ⟨fileName, hname, -⟩ := Outcome.bind_eq_done.mp hdeleted
    exact hsingle hkey ⟨fileName, hname⟩
  | blocksExist keys =>
    obtain ⟨result, hresult, -⟩ := Outcome.bind_eq_done.mp h
    exact fitsBuffer_of_blocksExist hnames hresult key hkey
  | traverse again => cases htraversal

/-- What a store stands for, with nothing left behind. -/
private def Stands (m : BlockMap) (store : FsBlockStore) : Prop :=
  m = fsBlockMap store.dir ∧ store.dir.NoEmpty

private theorem stands_empty : Stands (fun _ => none) .empty := by
  refine ⟨rfl, ?_⟩
  intro d hd
  exact (AList.notMem_empty d hd).elim

/-- On keys that are not empty and fit a file name, the file-system store answers as a finite map
and leaves no sub-directory empty if and only if the base32 form of each key is at most twice as
long as the key. -/
theorem chopFs_refines_blockMap (env : FsEnvironment) {requests : List StoreRequest}
    (hnames : ∀ request ∈ requests, OnFileNames request) :
    (∃ replies store m,
      Refinement.run (chopFsRequest env) .empty requests = .done (replies, store) ∧
        Refinement.Allows BlockMap.Replies (fun _ => none) requests replies m ∧
          store.dir.NoEmpty) ↔
      ∀ request ∈ requests, ∀ key ∈ request.keys, FitsBuffer key := by
  have hstep : ∀ m store request, OnFileNames request → Stands m store →
      (∀ key ∈ request.keys, FitsBuffer key) →
      ∃ reply store' m', chopFsRequest env store request = .done (reply, store') ∧
        BlockMap.Replies m request reply m' ∧ Stands m' store' := by
    rintro m store request hrequest ⟨rfl, hempty⟩ hfits
    obtain ⟨reply, store', hreply, hreplies, hempty'⟩ :=
      chopFsRequest_replies env hempty hrequest hfits
    exact ⟨reply, store', _, hreply, hreplies, rfl, hempty'⟩
  have hall := Refinement.admissible_iff_forall hstep hnames stands_empty
  rw [← hall]
  constructor
  · rintro ⟨replies, store, m, hrun, hallows, -⟩
    refine (Refinement.run_refines_iff hstep ?_ hnames stands_empty).mp
      ⟨replies, store, m, hrun, hallows⟩
    rintro m store request reply store' m' hrequest ⟨rfl, hempty⟩ hreply hreplies
    have hfits := chopFsRequest_fitsBuffer hrequest hreply
    obtain ⟨reply', store'', hreply', hreplies', hempty'⟩ :=
      chopFsRequest_replies env hempty hrequest hfits
    rw [hreply] at hreply'
    cases hreply'
    exact ⟨hfits, hreplies.unique hreplies', hempty'⟩
  · intro hops
    obtain ⟨replies, store, m, hrun, hallows, -, hempty⟩ :=
      Refinement.run_refines hstep hnames stands_empty hops
    exact ⟨replies, store, m, hrun, hallows, hempty⟩

def plainEnvironment : FsEnvironment where
  order := fun _ names => [46] :: [46, 46] :: names
  perm := fun _ _ => .refl _
  ahead := 0
  slack := fun _ => []

/-- Two blocks under the keys of four bytes that share a sub-directory. -/
def sampleRequests : List StoreRequest :=
  [.writeBlock [1, 2, 3, 4] [10, 11], .writeBlock [1, 2, 3, 5] [], .writeBlock [1, 2, 3, 4] [12],
    .deleteBlock [1, 2, 3, 5], .readBlock [1, 2, 3, 4], .blocksExist [[1, 2, 3, 5], [1, 2, 3, 4]]]

theorem sampleRequests_refine :
    (∀ request ∈ sampleRequests, OnFileNames request) ∧
      ∃ replies store m,
        Refinement.run (chopFsRequest plainEnvironment) .empty sampleRequests =
            .done (replies, store) ∧
          Refinement.Allows BlockMap.Replies (fun _ => none) sampleRequests replies m ∧
            store.dir.NoEmpty := by
  have hnames : ∀ request ∈ sampleRequests, OnFileNames request := by decide
  have hfits : ∀ request ∈ sampleRequests, ∀ key ∈ request.keys, FitsBuffer key := by decide
  exact ⟨hnames, (chopFs_refines_blockMap plainEnvironment hnames).mpr hfits⟩

/-- The name of a key of one byte does not fit. -/
theorem short_key_aborts :
    (∀ request ∈ [StoreRequest.writeBlock [1] [2]], OnFileNames request) ∧
      ¬ ∃ replies store m,
        Refinement.run (chopFsRequest plainEnvironment) .empty [.writeBlock [1] [2]] =
            .done (replies, store) ∧
          Refinement.Allows BlockMap.Replies (fun _ => none) [.writeBlock [1] [2]] replies m ∧
            store.dir.NoEmpty := by
  have habort :
      Refinement.run (chopFsRequest plainEnvironment) .empty [.writeBlock [1] [2]] = .abort := rfl
  refine ⟨by decide, ?_⟩
  rintro ⟨replies, store, m, hrun, -⟩
  rw [habort] at hrun
  cases hrun

/-- Nothing but the file of a key and its sub-directory is new. -/
structure Within (dir dir' : Directory) (key : Bytes) : Prop where
  files : ∀ d f, (dir'.contents d f).isSome →
    (dir.contents d f).isSome ∨ (d = blockDir key ∧ f = blockFile key)
  dirs : ∀ d ∈ dir', d ∈ dir ∨ d = blockDir key

namespace Within

variable {dir dir' dir'' : Directory} {key : Bytes}

theorem refl : Within dir dir key := ⟨fun _ _ => .inl, fun _ => .inl⟩

theorem trans (h : Within dir dir' key) (h' : Within dir' dir'' key) : Within dir dir'' key where
  files := fun d f hf => (h'.files d f hf).elim (h.files d f) .inr
  dirs := fun d hd => (h'.dirs d hd).elim (h.dirs d) .inr

theorem of_updated {data : Option Bytes}
    (h : Directory.Updated dir dir' (blockDir key) (blockFile key) data) : Within dir dir' key where
  files := by
    intro d f hf
    rw [h.contents] at hf
    split at hf
    · next hself => exact .inr hself
    · exact .inl hf
  dirs := fun d hd => .inl ((h.mem d).mp hd)

theorem onlyBlocks (h : Within dir dir' key) (hdir : OnlyBlocks dir) : OnlyBlocks dir' where
  dirs := fun d hd => (h.dirs d hd).elim (hdir.dirs d) fun hself => ⟨key, hself⟩
  files := fun d f hf => (h.files d f hf).elim (hdir.files d f) fun hself => ⟨key, hself⟩

end Within

private theorem blockFileName_eq {key : Bytes} {fileName : FileName}
    (h : blockFileName key = .done fileName) :
    fileName = blockDir key ++ slash :: blockFile key := by
  obtain ⟨_, -, h⟩ := Outcome.bind_eq_done.mp h
  obtain ⟨_, -, h⟩ := Outcome.bind_eq_done.mp h
  cases h
  rfl

private theorem orFault_eq_ok {α : Type} {fault : Option Nat} {call : Except Errno α} {a : α}
    (h : orFault fault call = .ok a) : call = .ok a := by
  cases fault with
  | none => exact h
  | some number => cases h

private theorem within_fullWrite (faults : IoFaults) (dir : Directory) (key block : Bytes) :
    Within dir (fullWrite faults dir (blockDir key ++ slash :: blockFile key) block).2 key := by
  have hwrite : ∀ data, Within dir (dir.write (blockDir key ++ slash :: blockFile key) data) key :=
    fun data => .of_updated (Directory.modify_updated (slash_notMem_blockDir key) _)
  rw [fullWrite]
  split
  · exact hwrite block
  · split
    · exact hwrite _
    · exact hwrite block

private theorem within_tryWrite {faults : IoFaults} {key block : Bytes} {fuel : Nat} {newDir : Bool}
    {dir : Directory} {written : Status × Directory}
    (h : chopFsTryWrite faults (blockDir key ++ slash :: blockFile key) block fuel newDir dir =
      .done written) : Within dir written.2 key := by
  induction fuel generalizing newDir dir with
  | zero => cases h
  | succ fuel ih =>
    rw [chopFsTryWrite] at h
    split at h
    · next created hcreate =>
      have hd := slash_notMem_blockDir key
      have hcreated : Within dir created key :=
        .of_updated (Directory.create_updated hd (orFault_eq_ok hcreate)).2
      cases h
      refine hcreated.trans (.trans ?_ (within_fullWrite faults _ key block))
      split
      · exact .refl
      · exact .of_updated (Directory.modify_updated hd _)
    · split at h
      · next made hmkdir =>
        have hmade : Within dir made key := by
          have hmkdir := orFault_eq_ok hmkdir
          rw [dirname_join (slash_notMem_blockFile key), Directory.mkdir] at hmkdir
          split at hmkdir
          · cases hmkdir
          · next habsent =>
            cases hmkdir
            refine ⟨?_, ?_⟩
            · intro d f hf
              rw [Directory.contents_mkdir habsent] at hf
              exact .inl hf
            · intro d hd
              exact ((AList.mem_insert dir).mp hd).symm
        exact hmade.trans (ih h)
      · exact ih h
      · cases h
        exact .refl
    · cases h
      exact .refl

private theorem within_deleteBlock {faults : IoFaults} {key : Bytes} {dir : Directory}
    {deleted : Status × Directory} (h : chopFsDeleteBlock faults dir key = .done deleted) :
    Within dir deleted.2 key := by
  obtain ⟨fileName, hname, h⟩ := Outcome.bind_eq_done.mp h
  cases blockFileName_eq hname
  split at h
  · cases h
    exact .refl
  · cases h
    exact .refl
  · next unlinked hunlink =>
    have hunlinked : Within dir unlinked key :=
      .of_updated (Directory.unlink_updated (slash_notMem_blockDir key) (orFault_eq_ok hunlink)).2
    split at h
    · next removed hrmdir =>
      cases h
      cases Directory.rmdir_eq_ok (orFault_eq_ok hrmdir)
      refine hunlinked.trans ⟨?_, fun d hd => .inl (AList.mem_erase.mp hd).2⟩
      intro d f hf
      rw [Directory.contents_erase] at hf
      split at hf
      · cases hf
      · exact .inl hf
    · cases h
      exact hunlinked
    · cases h
      exact hunlinked
    · cases h
      exact hunlinked

private theorem dir_traverse {env : FsEnvironment} {store store' : FsBlockStore} {again : Nat}
    {reply : StoreReply} (h : chopFsTraverse env store again = .done (reply, store')) :
    store'.dir = store.dir := by
  obtain ⟨first, -, h⟩ := Outcome.bind_eq_done.mp h
  obtain ⟨⟨keys, last, it⟩, -, h⟩ := Outcome.bind_eq_done.mp h
  obtain ⟨ends, -, h⟩ := Outcome.bind_eq_done.mp h
  cases h
  rfl

private theorem chopFsStep_onlyBlocks {env : FsEnvironment} (store : FsBlockStore)
    (request : FsRequest) (reply : StoreReply) (store' : FsBlockStore) (hstore : OnlyBlocks store.dir)
    (h : chopFsStep env store request = .done (reply, store')) : OnlyBlocks store'.dir := by
  cases request with
  | reopen =>
    cases h
    exact hstore
  | request faults request =>
    cases request with
    | writeBlock key block =>
      obtain ⟨written, hwritten, h⟩ := Outcome.bind_eq_done.mp h
      obtain ⟨fileName, hname, hwritten⟩ := Outcome.bind_eq_done.mp hwritten
      cases blockFileName_eq hname
      cases h
      exact (within_tryWrite hwritten).onlyBlocks hstore
    | readBlock key =>
      obtain ⟨result, -, h⟩ := Outcome.bind_eq_done.mp h
      cases h
      exact hstore
    | deleteBlock key =>
      obtain ⟨deleted, hdeleted, h⟩ := Outcome.bind_eq_done.mp h
      cases h
      exact (within_deleteBlock hdeleted).onlyBlocks hstore
    | blocksExist keys =>
      obtain ⟨result, -, h⟩ := Outcome.bind_eq_done.mp h
      cases h
      exact hstore
    | traverse again =>
      rw [dir_traverse h]
      exact hstore

private theorem onlyBlocks_empty : OnlyBlocks (∅ : Directory) where
  dirs := fun d hd => (AList.notMem_empty d hd).elim
  files := by
    intro d f hf
    cases hf

/-- A traversal that comes to every stored key once and to nothing else, and then stays at the end,
however often it is moved. -/
def CompleteTraversal (env : FsEnvironment) (store : FsBlockStore) (again : Nat) : Prop :=
  ∃ keys store', chopFsStep env store (.request .none (.traverse again)) =
      .done (.traversal keys (List.replicate (again + 1) (.error .storeEnd)), store') ∧
    store'.dir = store.dir ∧ keys.Nodup ∧ ∀ key, key ∈ keys ↔ (fsBlockMap store.dir key).isSome

/-- Nothing was read through the store's descriptor yet, and the first sub-directory it lists holds
a block, unless there is no block at all. -/
def StartsWell (env : FsEnvironment) (store : FsBlockStore) : Prop :=
  store.position = none ∧
    ∀ d, (properEntries (env.listing store.dir)).head? = some d →
      (∃ f, (store.dir.contents d f).isSome) ∨ ∀ key, fsBlockMap store.dir key = none

/-- In every state a store can get to, whatever system calls failed before, a traversal that starts
well and is not continued after its end is complete. -/
theorem chopFs_traversal_complete (env : FsEnvironment) {requests : List FsRequest}
    {replies : List StoreReply} {store : FsBlockStore}
    (hrun : Refinement.run (chopFsStep env) .empty requests = .done (replies, store))
    (hstart : StartsWell env store) {again : Nat} (hagain : again = 0) :
    CompleteTraversal env store again := by
  have hblocks : OnlyBlocks store.dir :=
    Refinement.run_invariant (fun _ _ _ _ _ => chopFsStep_onlyBlocks _ _ _ _) (fun _ _ => trivial)
      onlyBlocks_empty hrun
  obtain ⟨dir, position⟩ := store
  obtain ⟨rfl, hfirst⟩ := hstart
  cases hagain
  exact chopFsTraverse_complete env hblocks hfirst

/-- There is no space for the entry of a file in a new sub-directory. -/
def noSpace : IoFaults :=
  { IoFaults.none with openat := fun newDir => if newDir then some 28 else none }

/-- Three blocks in two sub-directories, after a failed write and a traversal before the store was
opened again. -/
def sampleHistory : List FsRequest :=
  [.request noSpace (.writeBlock [77, 1, 1, 1] [1]), .request .none (.writeBlock [1, 2, 3, 4] [9]),
    .request .none (.traverse 0), .request .none (.writeBlock [1, 2, 3, 5] [8]), .reopen,
    .request .none (.writeBlock [200, 1, 1, 1] [])]

theorem sampleHistory_traversal_complete :
    ∃ replies store,
      Refinement.run (chopFsStep plainEnvironment) .empty sampleHistory = .done (replies, store) ∧
        CompleteTraversal plainEnvironment store 0 := by
  have hrun : ∃ replies store,
      Refinement.run (chopFsStep plainEnvironment) .empty sampleHistory = .done (replies, store) ∧
        StartsWell plainEnvironment store := by
    refine ⟨_, _, rfl, rfl, ?_⟩
    intro d hd
    cases hd
    exact .inl ⟨blockFile [200, 1, 1, 1], rfl⟩
  obtain ⟨replies, store, hrun, hstart⟩ := hrun
  exact ⟨replies, store, hrun, chopFs_traversal_complete plainEnvironment hrun hstart rfl⟩

/-- The iterator fails in three ways: a second traversal comes to nothing, so does one that begins
in the empty sub-directory a failed write left, and moving it after its end crashes. -/
theorem traversals_incomplete :
    (∃ replies store,
      Refinement.run (chopFsStep plainEnvironment) .empty
          [.request .none (.writeBlock [1, 2, 3, 4] [9]), .request .none (.traverse 0)] =
        .done (replies, store) ∧ ¬ CompleteTraversal plainEnvironment store 0) ∧
    (∃ replies store,
      Refinement.run (chopFsStep plainEnvironment) .empty
          [.request .none (.writeBlock [1, 2, 3, 4] [9]),
            .request noSpace (.writeBlock [77, 1, 1, 1] [1])] =
        .done (replies, store) ∧ ¬ CompleteTraversal plainEnvironment store 0) ∧
    ∃ replies store,
      Refinement.run (chopFsStep plainEnvironment) .empty
          [.request .none (.writeBlock [1, 2, 3, 4] [9])] =
        .done (replies, store) ∧ ¬ CompleteTraversal plainEnvironment store 1 := by
  refine ⟨⟨_, _, rfl, ?_⟩, ⟨_, _, rfl, ?_⟩, ⟨_, _, rfl, ?_⟩⟩
  · rintro ⟨keys, store', hstep, -, -, hkeys⟩
    cases hstep
    exact List.not_mem_nil ((hkeys [1, 2, 3, 4]).mpr rfl)
  · rintro ⟨keys, store', hstep, -, -, hkeys⟩
    cases hstep
    exact List.not_mem_nil ((hkeys [1, 2, 3, 4]).mpr rfl)
  · rintro ⟨keys, store', hstep, -⟩
    cases hstep

end Libchop
