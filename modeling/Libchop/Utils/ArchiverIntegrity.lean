import Libchop.Indexer.Integrity
import Libchop.Tree.Lockstep
import Libchop.Tree.Malformed
import Libchop.Utils.Archiver
import Mathlib.Logic.Relation

/-!
# Restoring from stores that cannot be trusted

The fetchers of content-based block indexers compare what a store gives them with a digest.  So a tuple
determines its stream: whatever a store answers, what is restored from it is the stream, unless the store
knows two blocks with one digest.
-/

namespace Libchop

variable {σ τ : Type}

section Fetch

/-- The method under which stored bytes are checked. -/
def BlockFetcherObject.checkMethod : BlockFetcherObject → HashMethod
  | .hash method => method
  | .chk _ method => method
  | .integer => .none

variable {hash : HashFunctions} {ciphers : Ciphers} {filling filling' : BufferFilling}
  {answer answer' : Bytes → Except ChopError Bytes} {fetcher : BlockFetcherObject} {index : IndexHandle}

/-- A fetch into an empty buffer depends on what is stored under one key. -/
theorem fetchBlock_congr {key : Bytes} (hkey : fetcher.storeKey index = some key)
    (h : answer key = answer' key) :
    fetcher.fetchBlock hash ciphers filling answer index [] =
      fetcher.fetchBlock hash ciphers filling' answer' index [] := by
  have hfill : ∀ (filling : BufferFilling) (data : Bytes), filling.fill [] data = data :=
    fun _ => BufferFilling.fill_eq (.inr rfl)
  cases fetcher with
  | hash method =>
    cases index with
    | hash handle =>
      cases hkey
      cases hanswer : answer' handle.content with
      | error err => simp only [BlockFetcherObject.fetchBlock, hashBlockFetch, h, hanswer, chopStoreReadBlock]
      | ok data =>
        simp only [BlockFetcherObject.fetchBlock, hashBlockFetch, h, hanswer, chopStoreReadBlock, hfill]
    | chk handle => cases hkey
    | integer id => cases hkey
  | chk cipher method =>
    cases index with
    | hash handle => cases hkey
    | chk handle =>
      cases hkey
      cases hanswer : answer' handle.blockId with
      | error err => simp only [BlockFetcherObject.fetchBlock, chkBlockFetch, h, hanswer, chopStoreReadBlock]
      | ok data =>
        simp only [BlockFetcherObject.fetchBlock, chkBlockFetch, h, hanswer, chopStoreReadBlock, hfill]
    | integer id => cases hkey
  | integer =>
    cases index with
    | hash handle => cases hkey
    | chk handle => cases hkey
    | integer id =>
      cases hkey
      cases hanswer : answer' (integerKey id) with
      | error err =>
        simp only [BlockFetcherObject.fetchBlock, integerBlockFetch, h, hanswer, chopStoreReadBlock]
      | ok data =>
        simp only [BlockFetcherObject.fetchBlock, integerBlockFetch, h, hanswer, chopStoreReadBlock, hfill]

/-- What was stored under the key of a handle that could be fetched has this key as its digest. -/
theorem fetchBlock_checked (hmethod : fetcher.checkMethod ≠ .none) {delivered : Bytes} {size : Nat}
    (h : fetcher.fetchBlock hash ciphers filling answer index [] = .done (.ok (), delivered, size)) :
    ∃ key content, fetcher.storeKey index = some key ∧ answer key = .ok content ∧
      chopHashBuffer hash fetcher.checkMethod content = .done key := by
  cases fetcher with
  | hash method =>
    obtain ⟨handle, data, rfl, hanswer, -, hdelivered, hdigest⟩ := hashBlockFetch_ok hmethod h
    rw [BufferFilling.fill_eq (.inr rfl)] at hdelivered
    rw [hdelivered] at hdigest
    exact ⟨handle.content, data, rfl, hanswer, hdigest⟩
  | chk cipher method =>
    obtain ⟨handle, ciphertext, cleartext, rfl, hanswer, hdigest, -⟩ := chkBlockFetch_ok hmethod h
    exact ⟨handle.blockId, ciphertext, rfl, hanswer, hdigest⟩
  | integer => exact (hmethod rfl).elim

/-- No cipher operation reports the end of a stream. -/
structure Ciphers.NoStreamEnd (ciphers : Ciphers) : Prop where
  setKey : ∀ cipher key, ciphers.setKey cipher key ≠ .error .streamEnd
  decrypt : ∀ cipher key input, ciphers.decrypt cipher key input ≠ .error .streamEnd

theorem hashBlockFetch_error {method : HashMethod}
    (hanswer : ∀ key, answer key ≠ .error .streamEnd) {err : ChopError} {buffer : Bytes} {size : Nat}
    (h : hashBlockFetch hash filling answer method index [] = .done (.error err, buffer, size)) :
    err ≠ .streamEnd := by
  rintro rfl
  cases index with
  | chk handle => cases h
  | integer id => cases h
  | hash handle =>
    cases hread : answer handle.content with
    | error err =>
      simp only [hashBlockFetch, hread, chopStoreReadBlock] at h
      cases h
      exact hanswer _ hread
    | ok data =>
      simp only [hashBlockFetch, hread, chopStoreReadBlock] at h
      split at h
      · cases h
      · split at h
        · split at h
          · obtain ⟨digest, -, h⟩ := Outcome.bind_eq_done.mp h
            split at h
            · cases h
            · cases h
          · cases h
        · cases h

theorem chkBlockFetch_error {cipher : CipherHandle} {method : HashMethod}
    (hciphers : ciphers.NoStreamEnd) (hanswer : ∀ key, answer key ≠ .error .streamEnd) {err : ChopError}
    {buffer : Bytes} {size : Nat}
    (h : chkBlockFetch hash ciphers filling answer cipher method index [] =
      .done (.error err, buffer, size)) :
    err ≠ .streamEnd := by
  rintro rfl
  cases index with
  | hash handle => cases h
  | integer id => cases h
  | chk handle =>
    cases hread : answer handle.blockId with
    | error err =>
      simp only [chkBlockFetch, hread, chopStoreReadBlock] at h
      cases h
      exact hanswer _ hread
    | ok data =>
      simp only [chkBlockFetch, hread, chopStoreReadBlock] at h
      split at h
      · cases h
      · obtain ⟨valid, -, h⟩ := Outcome.bind_eq_done.mp h
        split at h
        · cases h
        · split at h
          · cases h
          · split at h
            · next hset =>
              cases h
              exact hciphers.setKey _ _ hset
            · split at h
              · next hdecrypt =>
                cases h
                exact hciphers.decrypt _ _ _ hdecrypt
              · cases h

theorem fetchBlock_error (hciphers : ciphers.NoStreamEnd)
    (hanswer : ∀ key, answer key ≠ .error .streamEnd) {err : ChopError} {buffer : Bytes} {size : Nat}
    (h : fetcher.fetchBlock hash ciphers filling answer index [] = .done (.error err, buffer, size)) :
    err ≠ .streamEnd := by
  cases fetcher with
  | hash method => exact hashBlockFetch_error hanswer h
  | chk cipher method => exact chkBlockFetch_error hciphers hanswer h
  | integer =>
    rintro rfl
    cases index with
    | hash handle => cases h
    | chk handle => cases h
    | integer id =>
      cases hread : answer (integerKey id) with
      | error err =>
        simp only [BlockFetcherObject.fetchBlock, integerBlockFetch, hread, chopStoreReadBlock] at h
        cases h
        exact hanswer _ hread
      | ok data =>
        simp only [BlockFetcherObject.fetchBlock, integerBlockFetch, hread, chopStoreReadBlock] at h
        cases h

theorem hihDeserializeBinary_error (input : Bytes) :
    hihDeserializeBinary input ≠ .done (.error .streamEnd) := by
  intro h
  rw [hihDeserializeBinary] at h
  split at h
  · cases h
  · dsimp only at h
    split at h
    · cases h
    · obtain ⟨content, -, h⟩ := Outcome.bind_eq_done.mp h
      cases h

theorem chkDeserializeBinary_error (input : Bytes) :
    chkDeserializeBinary input ≠ .done (.error .streamEnd) := by
  intro h
  rw [chkDeserializeBinary] at h
  split at h
  · cases h
  · dsimp only at h
    split at h
    · cases h
    · obtain ⟨key, -, h⟩ := Outcome.bind_eq_done.mp h
      obtain ⟨blockId, -, h⟩ := Outcome.bind_eq_done.mp h
      cases h

private theorem map_ne_streamEnd {α β : Type} {result : Except ChopError α} {f : α → β}
    (h : result ≠ .error .streamEnd) : result.map f ≠ .error .streamEnd := by
  cases result with
  | error err =>
    intro hmap
    exact h (congrArg Except.error (Except.error.inj hmap))
  | ok a =>
    intro hmap
    cases hmap

theorem deserializeIndexHandleBinary_error (indexClass : RtClass) (input : Bytes) :
    deserializeIndexHandleBinary indexClass input ≠ .done (.error .streamEnd) := by
  intro h
  unfold deserializeIndexHandleBinary at h
  split at h
  · obtain ⟨result, hresult, h⟩ := Outcome.bind_eq_done.mp h
    refine map_ne_streamEnd ?_ (Outcome.done.inj h)
    rintro rfl
    exact hihDeserializeBinary_error input hresult
  · obtain ⟨result, hresult, h⟩ := Outcome.bind_eq_done.mp h
    refine map_ne_streamEnd ?_ (Outcome.done.inj h)
    rintro rfl
    exact chkDeserializeBinary_error input hresult
  · refine map_ne_streamEnd ?_ (Outcome.done.inj h)
    intro hread
    rw [iihDeserializeBinary] at hread
    split at hread
    · cases hread
    · cases hread
  · cases h

end Fetch

section Readers

/-- Stores from which blocks were read in the meantime. -/
def AfterReads (methods : StoreRole → StoreMethods σ) : σ → σ → Prop :=
  Relation.ReflTransGen fun s s' => ∃ role key, s' = ((methods role).readBlock key s).2

/-- Two processes compute with the same `libgcrypt`. -/
structure SameCrypto (context₁ : ProcessContext σ) (context₂ : ProcessContext τ) : Prop where
  hash : context₁.hash = context₂.hash
  ciphers : context₁.ciphers = context₂.ciphers

/-- Neither stores nor ciphers report the end of a stream. -/
structure ProcessContext.NoStreamEnd (context : ProcessContext σ) : Prop where
  readBlock : ∀ role key s, ((context.methods role).readBlock key s).1 ≠ .error .streamEnd
  ciphers : context.ciphers.NoStreamEnd

/-- Two stores give different blocks that have the same digest, after any reads. -/
def Collision (hash : HashFunctions) (method : HashMethod) (context₁ : ProcessContext σ) (stores₁ : σ)
    (context₂ : ProcessContext τ) (stores₂ : τ) : Prop :=
  ∃ role key s₁ s₂ block₁ block₂, AfterReads context₁.methods stores₁ s₁ ∧
    AfterReads context₂.methods stores₂ s₂ ∧ ((context₁.methods role).readBlock key s₁).1 = .ok block₁ ∧
    ((context₂.methods role).readBlock key s₂).1 = .ok block₂ ∧ block₁ ≠ block₂ ∧
    chopHashBuffer hash method block₁ = .done key ∧ chopHashBuffer hash method block₂ = .done key

variable {context₁ : ProcessContext σ} {context₂ : ProcessContext τ} {fetcher : BlockFetcherObject}
  {indexClass : RtClass}

theorem objectFetcher_afterReads (context : ProcessContext σ) (fetcher : BlockFetcherObject)
    (indexClass : RtClass) (memory : FetcherWorld σ → DecodedBlock) (stores : σ) :
    ReadPreserves (objectFetcher context fetcher indexClass memory)
      fun s => AfterReads context.methods stores s.world.stores := by
  have hfetch : ∀ role handle w, AfterReads context.methods stores w.stores →
      AfterReads context.methods stores
        ((objectFetcher context fetcher indexClass memory).fetch role handle w).2.stores := by
    intro role handle w hw
    have hafter : AfterReads context.methods stores
        (storesAfterFetch context fetcher role handle.1 w.stores) := by
      rw [storesAfterFetch]
      cases fetcher.storeKey handle.1 with
      | none => exact hw
      | some key => exact hw.tail ⟨role, key, rfl⟩
    simp only [objectFetcher]
    cases fetcher.fetchBlock context.hash context.ciphers (context.filling role)
        (fun key => ((context.methods role).readBlock key w.stores).1) handle.1 [] with
    | abort => exact hafter
    | outOfFuel => exact hafter
    | done answer =>
      obtain ⟨status, buffer, size⟩ := answer
      cases status with
      | error err => exact hafter
      | ok u => exact hafter
  constructor
  · intro role handle s bytes world hs hrun
    have hstores := hfetch role handle s.world hs
    rw [hrun] at hstores
    exact hstores
  · intro role handle s err left world hs hrun
    have hstores := hfetch role handle s.world hs
    rw [hrun] at hstores
    exact hstores

/-- A fetch that succeeds is one of the block fetcher. -/
theorem objectFetcher_fetch_ok {memory : FetcherWorld σ → DecodedBlock} {role : StoreRole}
    {handle : HandleOf indexClass} {w w' : FetcherWorld σ} {block : Bytes}
    (h : (objectFetcher context₁ fetcher indexClass memory).fetch role handle w = (.ok block, w')) :
    ∃ size, fetcher.fetchBlock context₁.hash context₁.ciphers (context₁.filling role)
      (fun key => ((context₁.methods role).readBlock key w.stores).1) handle.1 [] =
        .done (.ok (), block, size) := by
  simp only [objectFetcher] at h
  cases hcall : fetcher.fetchBlock context₁.hash context₁.ciphers (context₁.filling role)
      (fun key => ((context₁.methods role).readBlock key w.stores).1) handle.1 [] with
  | abort =>
    rw [hcall] at h
    cases h
  | outOfFuel =>
    rw [hcall] at h
    cases h
  | done answer =>
    obtain ⟨status, buffer, size⟩ := answer
    rw [hcall] at h
    cases status with
    | error err => cases h
    | ok u =>
      cases h
      exact ⟨size, rfl⟩

theorem objectFetcher_fetch_error (hends : context₁.NoStreamEnd) {memory : FetcherWorld σ → DecodedBlock}
    {role : StoreRole} {handle : HandleOf indexClass} {w w' : FetcherWorld σ} {left : Bytes} :
    (objectFetcher context₁ fetcher indexClass memory).fetch role handle w ≠
      (.error (.streamEnd, left), w') := by
  intro h
  simp only [objectFetcher] at h
  cases hcall : fetcher.fetchBlock context₁.hash context₁.ciphers (context₁.filling role)
      (fun key => ((context₁.methods role).readBlock key w.stores).1) handle.1 [] with
  | abort =>
    rw [hcall] at h
    cases h
  | outOfFuel =>
    rw [hcall] at h
    cases h
  | done answer =>
    obtain ⟨status, buffer, size⟩ := answer
    rw [hcall] at h
    cases status with
    | ok u => cases h
    | error err =>
      have hnot := fetchBlock_error hends.ciphers (fun key => hends.readBlock role key w.stores) hcall
      cases h
      exact hnot rfl

theorem objectFetcher_deserialize_error (memory : FetcherWorld σ → DecodedBlock) (input : Bytes) :
    (objectFetcher context₁ fetcher indexClass memory).deserialize input ≠ .error .streamEnd := by
  intro h
  simp only [objectFetcher] at h
  split at h
  · split at h
    · cases h
    · cases h
  · next err hread =>
    cases h
    exact deserializeIndexHandleBinary_error indexClass input hread
  · cases h
  · cases h

/-- Fetchers that check what they read agree where there is no collision. -/
theorem objectFetcher_agree (hcrypto : SameCrypto context₁ context₂) (hends₁ : context₁.NoStreamEnd)
    (hends₂ : context₂.NoStreamEnd) (hmethod : fetcher.checkMethod ≠ .none)
    (memory₁ : FetcherWorld σ → DecodedBlock) (memory₂ : FetcherWorld τ → DecodedBlock) {stores₁ : σ}
    {stores₂ : τ}
    (hcollision : ¬ Collision context₁.hash fetcher.checkMethod context₁ stores₁ context₂ stores₂) :
    Agree (objectFetcher context₁ fetcher indexClass memory₁)
      (objectFetcher context₂ fetcher indexClass memory₂)
      (fun s => AfterReads context₁.methods stores₁ s.world.stores)
      (fun s => AfterReads context₂.methods stores₂ s.world.stores) where
  preserves₁ := objectFetcher_afterReads context₁ fetcher indexClass memory₁ stores₁
  preserves₂ := objectFetcher_afterReads context₂ fetcher indexClass memory₂ stores₂
  fetch := by
    intro role handle s₁ s₂ bytes₁ bytes₂ w₁ w₂ hs₁ hs₂ hrun₁ hrun₂
    obtain ⟨size₁, hfetch₁⟩ := objectFetcher_fetch_ok hrun₁
    obtain ⟨size₂, hfetch₂⟩ := objectFetcher_fetch_ok hrun₂
    rw [← hcrypto.hash, ← hcrypto.ciphers] at hfetch₂
    obtain ⟨key, content₁, hkey, hanswer₁, hdigest₁⟩ := fetchBlock_checked hmethod hfetch₁
    obtain ⟨key₂, content₂, hkey₂, hanswer₂, hdigest₂⟩ := fetchBlock_checked hmethod hfetch₂
    rw [hkey] at hkey₂
    cases hkey₂
    have hsame : content₁ = content₂ := by
      by_contra hdifferent
      exact hcollision ⟨role, key, s₁.world.stores, s₂.world.stores, content₁, content₂, hs₁, hs₂, hanswer₁,
        hanswer₂, hdifferent, hdigest₁, hdigest₂⟩
    have hequal : fetcher.fetchBlock context₁.hash context₁.ciphers (context₁.filling role)
          (fun key => ((context₁.methods role).readBlock key s₁.world.stores).1) handle.1 [] =
        fetcher.fetchBlock context₁.hash context₁.ciphers (context₂.filling role)
          (fun key => ((context₂.methods role).readBlock key s₂.world.stores).1) handle.1 [] :=
      fetchBlock_congr hkey (hanswer₁.trans ((congrArg Except.ok hsame).trans hanswer₂.symm))
    rw [hfetch₁, hfetch₂] at hequal
    cases hequal
    rfl
  fetch_error₁ := fun _ => objectFetcher_fetch_error hends₁
  fetch_error₂ := fun _ => objectFetcher_fetch_error hends₂
  deserialize := rfl
  deserialize_error := objectFetcher_deserialize_error memory₁

end Readers

section Retrieve

variable {H : Type} {bf₁ : BlockFetcher σ H} {bf₂ : BlockFetcher τ H} {inv₁ : ReadState σ → Prop}
  {inv₂ : ReadState τ → Prop}

/-- A larger budget of `do_retrieve`. -/
theorem doRetrieveLoop_approx {fuel fuel' : Nat} (hfuel : fuel ≤ fuel') {rounds rounds' : Nat}
    (hrounds : rounds ≤ rounds') (tree : DecodedBlockTree H) (s : ReadState σ) (written : Bytes) :
    Outcome.Approx (doRetrieveLoop bf₁ fuel rounds tree s written)
      (doRetrieveLoop bf₁ fuel' rounds' tree s written) := by
  induction rounds generalizing rounds' tree s written with
  | zero => exact .outOfFuel _
  | succ rounds ih =>
    obtain ⟨rounds', rfl⟩ := Nat.exists_eq_add_of_lt hrounds
    refine (treeStreamRead_approx hfuel tree retrieveBufferSize s).bind ?_
    rintro ⟨status, bytes, tree', s'⟩
    cases status with
    | error err => exact .refl _
    | ok u => exact ih (by omega) tree' s' _

/-- Two loops that end well write the same. -/
theorem doRetrieveLoop_lockstep (h : Agree bf₁ bf₂ inv₁ inv₂) {fuel : Nat} (rounds : Nat)
    {tree₁ tree₂ : DecodedBlockTree H} {s₁ s₁' : ReadState σ} {s₂ s₂' : ReadState τ}
    {written out₁ out₂ : Bytes} (hindex : tree₁.index = tree₂.index)
    (hchain : List.Forall₂ SameBlock tree₁.chain tree₂.chain) (hs₁ : inv₁ s₁) (hs₂ : inv₂ s₂)
    (hrun₁ : doRetrieveLoop bf₁ fuel rounds tree₁ s₁ written = .done (.ok (), out₁, s₁'))
    (hrun₂ : doRetrieveLoop bf₂ fuel rounds tree₂ s₂ written = .done (.ok (), out₂, s₂')) :
    out₁ = out₂ := by
  induction rounds generalizing tree₁ tree₂ s₁ s₂ written with
  | zero => cases hrun₁
  | succ rounds ih =>
    obtain ⟨⟨status₁, bytes₁, tree₁', t₁⟩, hread₁, hrun₁⟩ := Outcome.bind_eq_done.mp hrun₁
    obtain ⟨⟨status₂, bytes₂, tree₂', t₂⟩, hread₂, hrun₂⟩ := Outcome.bind_eq_done.mp hrun₂
    have ht₁ := treeStreamRead_preserves h.preserves₁ hread₁ hs₁
    have ht₂ := treeStreamRead_preserves h.preserves₂ hread₂ hs₂
    rcases treeStreamRead_lockstep h hindex hchain hs₁ hs₂ hread₁ hread₂ with
      ⟨err, rfl, herr⟩ | ⟨err, rfl, herr⟩ | ⟨rfl, rfl, hindex', hchain'⟩
    · simp only [if_neg herr] at hrun₁
      cases hrun₁
    · simp only [if_neg herr] at hrun₂
      cases hrun₂
    · cases status₁ with
      | error err =>
        have hout₁ := congrArg (fun result => result.2.1) (Outcome.done.inj hrun₁)
        have hout₂ := congrArg (fun result => result.2.1) (Outcome.done.inj hrun₂)
        exact hout₁.symm.trans hout₂
      | ok u => exact ih hindex' hchain' ht₁ ht₂ hrun₁ hrun₂

variable {context₁ : ProcessContext σ} {context₂ : ProcessContext τ} {fetcher : BlockFetcherObject}
  {handle : IndexHandle} {fuel : Nat}

/-- What a restored tuple has gone through. -/
theorem doRetrieve_loop {context : ProcessContext σ} {memory : FetcherWorld σ → DecodedBlock}
    {stores stores' : σ} {out : Bytes}
    (h : doRetrieve context memory fuel handle fetcher stores = .done (.ok (), out, stores')) :
    ∃ (hfits : handle.FitsBinary) (s : ReadState (FetcherWorld σ)),
      doRetrieveLoop (objectFetcher context fetcher handle.rtClass memory) fuel fuel
        (chopTreeFetchStream ⟨handle, rfl, hfits⟩) ⟨⟨stores, false⟩, []⟩ [] = .done (.ok (), out, s) := by
  rw [doRetrieve] at h
  split at h
  · next hfits =>
    obtain ⟨⟨status, written, s⟩, hloop, h⟩ := Outcome.bind_eq_done.mp h
    obtain ⟨-, -, h⟩ := Outcome.bind_eq_done.mp h
    cases h
    exact ⟨hfits, s, hloop⟩
  · cases h

/-- Two processes that restore a tuple write the same, or their stores have a collision. -/
theorem doRetrieve_agree (hcrypto : SameCrypto context₁ context₂) (hends₁ : context₁.NoStreamEnd)
    (hends₂ : context₂.NoStreamEnd) (hmethod : fetcher.checkMethod ≠ .none)
    {memory₁ : FetcherWorld σ → DecodedBlock} {memory₂ : FetcherWorld τ → DecodedBlock}
    {stores₁ stores₁' : σ} {stores₂ stores₂' : τ} {fuel₁ fuel₂ : Nat} {out₁ out₂ : Bytes}
    (hrun₁ : doRetrieve context₁ memory₁ fuel₁ handle fetcher stores₁ = .done (.ok (), out₁, stores₁'))
    (hrun₂ : doRetrieve context₂ memory₂ fuel₂ handle fetcher stores₂ = .done (.ok (), out₂, stores₂'))
    (hcollision : ¬ Collision context₁.hash fetcher.checkMethod context₁ stores₁ context₂ stores₂) :
    out₁ = out₂ := by
  obtain ⟨hfits, s₁, hloop₁⟩ := doRetrieve_loop hrun₁
  obtain ⟨_, s₂, hloop₂⟩ := doRetrieve_loop hrun₂
  have hmore₁ := (doRetrieveLoop_approx (Nat.le_max_left fuel₁ fuel₂) (Nat.le_max_left fuel₁ fuel₂)
    _ _ _).done hloop₁
  have hmore₂ := (doRetrieveLoop_approx (Nat.le_max_right fuel₁ fuel₂) (Nat.le_max_right fuel₁ fuel₂)
    _ _ _).done hloop₂
  refine doRetrieveLoop_lockstep
    (objectFetcher_agree hcrypto hends₁ hends₂ hmethod memory₁ memory₂ hcollision) _ rfl .nil ?_ ?_
    hmore₁ hmore₂
  · exact Relation.ReflTransGen.refl
  · exact Relation.ReflTransGen.refl

end Retrieve

section Runs

variable {context : ProcessContext σ} {contents : StoreRole → σ → BlockMap} {context' : ProcessContext τ}

/-- In place of a block that is stored, other stores give, after any reads, one that has the same digest. -/
def Forgery (hash : HashFunctions) (method : HashMethod) (stored : StoreRole → BlockMap)
    (context' : ProcessContext τ) (stores : τ) : Prop :=
  ∃ role key block s forged, stored role key = some block ∧ AfterReads context'.methods stores s ∧
    ((context'.methods role).readBlock key s).1 = .ok forged ∧ forged ≠ block ∧
    chopHashBuffer hash method block = .done key ∧ chopHashBuffer hash method forged = .done key

theorem contents_afterReads (hpair : StorePair context.methods contents) {stores s : σ}
    (h : AfterReads context.methods stores s) (role : StoreRole) :
    contents role s = contents role stores := by
  induction h with
  | refl => rfl
  | tail _ hstep ih =>
    obtain ⟨read, key, rfl⟩ := hstep
    rw [hpair.readBlock read role, ih]

theorem StorePair.noStreamEnd (hpair : StorePair context.methods contents)
    (hciphers : context.ciphers.NoStreamEnd) : context.NoStreamEnd where
  readBlock := by
    intro role key s hread
    have hanswer := ((hpair.mapStore role).readBlock key s).2
    rw [hread] at hanswer
    cases hstored : contents role s key with
    | some block =>
      rw [hstored] at hanswer
      cases hanswer
    | none =>
      rw [hstored] at hanswer
      cases hanswer
  ciphers := hciphers

theorem Collision.forgery (hpair : StorePair context.methods contents) {hash : HashFunctions}
    {method : HashMethod} {stores : σ} {served : τ}
    (h : Collision hash method context stores context' served) :
    Forgery hash method (fun role => contents role stores) context' served := by
  obtain ⟨role, key, s₁, s₂, block, forged, hs₁, hs₂, hblock, hforged, hne, hdigest, hdigest'⟩ := h
  refine ⟨role, key, block, s₂, forged, ?_, hs₂, hforged, hne.symm, hdigest, hdigest'⟩
  have hanswer := ((hpair.mapStore role).readBlock key s₁).2
  rw [hblock, contents_afterReads hpair hs₁ role] at hanswer
  cases hstored : contents role stores key with
  | some stored =>
    rw [hstored] at hanswer
    cases hanswer
    exact hstored
  | none =>
    rw [hstored] at hanswer
    cases hanswer

/-- Streams that were archived one after the other, as above.  A process that restores one of the tuples from
any other stores, whatever they answer, either fails or writes the stream, unless these stores have forged
a block. -/
theorem archives_restored_or_forged (hinverts : context.ciphers.Inverts)
    (hpair : StorePair context.methods contents) {chopClassLookup : Bytes → Option RtClass}
    (hlookup : ∀ rtClass, chopClassLookup (chopClassName rtClass) = some rtClass) {fuel : Nat}
    (hfuel : 66 ≤ fuel) {jobs : List ArchiveJob} (hjobs : ∀ job ∈ jobs, job.Fits context.ciphers)
    {stores : σ} {store' : LoggedStores σ} {replies : List (Except ChopError Bytes × List WriteEvent)}
    (hrun : Refinement.run (fun store job => doArchive context fuel job store) ⟨stores, []⟩ jobs =
      .done (replies, store'))
    (hok : ∀ reply ∈ replies, AllOk reply.2) (hconsistent : Consistent store'.writes) {i : Nat}
    {job : ArchiveJob} {stream text : Bytes} {events : List WriteEvent} (hjob : jobs[i]? = some job)
    (hstream : ChoppedFrom job.input stream) (hreply : replies[i]? = some (.ok text, events))
    (hmethod : job.blockIndexer.fetcher.checkMethod ≠ .none) (hcrypto : SameCrypto context context')
    (hends : context'.NoStreamEnd) (memory' : FetcherWorld τ → DecodedBlock) {fuel' : Nat}
    {served served' : τ} {out : Bytes}
    (hrestore : processRestore chopClassLookup context' memory' fuel' text served =
      .done (.ok (), out, served')) :
    out = stream ∨
      Forgery context.hash job.blockIndexer.fetcher.checkMethod
        (fun role => contents role store'.stores) context' served := by
  have hfits := hjobs job (List.mem_of_getElem? hjob)
  obtain ⟨harchived, hpresent⟩ := archives_archived hinverts hpair hfuel hjobs hrun hok hconsistent hjob
    hreply
  let memory : FetcherWorld σ → DecodedBlock := fun _ => ⟨[], 0, false, 0, 0, 0, false⟩
  obtain ⟨bound, hhonest⟩ := processRestore_archived memory hpair hlookup hfits harchived
  obtain ⟨stores', hhonest, -⟩ := hhonest bound store'.stores (Nat.le_refl bound) hpresent
  obtain ⟨root, levels, htuple, -⟩ := harchived.readBack hlookup hfits
  rw [processRestore, htuple, hstream.whole.2] at hhonest
  rw [processRestore, ← hcrypto.ciphers, htuple] at hrestore
  have hends₁ : context.NoStreamEnd := by
    refine hpair.noStreamEnd ?_
    rw [hcrypto.ciphers]
    exact hends.ciphers
  by_cases hcollision :
      Collision context.hash job.blockIndexer.fetcher.checkMethod context store'.stores context' served
  · exact .inr (hcollision.forgery hpair)
  · exact .inl (doRetrieve_agree hcrypto hends₁ hends hmethod hhonest hrestore hcollision).symm

end Runs

section Sample

def sampleHashJobs : List ArchiveJob := [⟨⟨[cString "abc"], .streamEnd⟩, 3, .hash .sha1, fun _ => []⟩]

def sampleHashContext (filling : BufferFilling) : ProcessContext BlockMap where
  methods _ := BlockMap.methods
  filling _ := filling
  hash := sampleDigests
  ciphers := sampleCiphers
  randoms _ := []
  hasMemory _ _ := true

/-- The block, and under a key of zeros the root key block over it. -/
def sampleServed : BlockMap := fun key =>
  if key = sampleDigests.digest .sha1 (cString "abc") then some (cString "abc")
  else if key = List.replicate 20 0 then
    some ([72, 84, 1, 0, 0, 0, 0, 0, 0, 0, 3, 0, 0, 0, 20, 0, 0, 0] ++
      sampleDigests.digest .sha1 (cString "abc"))
  else none

theorem sampleHashContext_storePair (filling : BufferFilling) :
    StorePair (sampleHashContext filling).methods fun _ m => m where
  mapStore _ := BlockMap.mapStore
  readBlock _ _ key m := (BlockMap.mapStore.readBlock key m).1
  writeBlock _ _ _ _ _ := .inr ⟨rfl, rfl⟩

theorem sampleCiphers_noStreamEnd : sampleCiphers.NoStreamEnd where
  setKey := by
    intro cipher key h
    simp only [sampleCiphers] at h
    split at h
    · cases h
    · cases h
  decrypt := by
    intro cipher key input h
    simp only [sampleCiphers] at h
    split at h
    · cases h
    · cases h

set_option maxRecDepth 4000 in
theorem sampleHashJobs_restored_or_forged :
    ∃ replies store',
      Refinement.run (fun store job => doArchive (sampleHashContext .push) 66 job store)
        ⟨fun _ => none, []⟩ sampleHashJobs = .done (replies, store') ∧
      ∃ text events out served, replies[0]? = some (.ok text, events) ∧
        processRestore lookupByName (sampleHashContext .append)
            (fun _ => ⟨[], 0, false, 0, 0, 0, false⟩) 20 text sampleServed = .done (.ok (), out, served) ∧
        (out = cString "abc" ∨
          Forgery sampleDigests .sha1 (fun _ => store'.stores) (sampleHashContext .append)
            sampleServed) := by
  have hrun : ∃ replies store',
      Refinement.run (fun store job => doArchive (sampleHashContext .push) 66 job store)
        ⟨fun _ => none, []⟩ sampleHashJobs = .done (replies, store') ∧
      (∃ text events out served, replies[0]? = some (.ok text, events) ∧
        processRestore lookupByName (sampleHashContext .append)
            (fun _ => ⟨[], 0, false, 0, 0, 0, false⟩) 20 text sampleServed = .done (.ok (), out, served)) ∧
      (∀ reply ∈ replies, ∀ event ∈ reply.2, event.status = .ok ()) ∧
      ∀ first ∈ store'.writes, ∀ second ∈ store'.writes, first.key = second.key →
        first.content = second.content := by
    exact ⟨_, _, rfl, ⟨_, _, _, _, rfl, rfl⟩, by decide, by decide⟩
  obtain ⟨replies, store', hrun, ⟨text, events, out, served, hreply, hrestore⟩, hok, hconsistent⟩ := hrun
  have hstream : ChoppedFrom ⟨[cString "abc"], .streamEnd⟩ (cString "abc") := by
    obtain ⟨Left, hserves, idle, hleft⟩ := memStream_delivers ⟨cString "abc", 0⟩
    have hsize : 0 < (chopFsGenericOpen 8192 (⟨cString "abc", 0⟩ : MemStream) 3).blockSize := by decide
    exact .fixedSize ⟨Left, hserves, idle, hleft⟩ hsize
      (fixedBlocks_serves hserves hleft hsize false [] 2) rfl
  have hjobs : ∀ job ∈ sampleHashJobs, job.Fits (sampleHashContext .push).ciphers := by
    intro job hjob
    rw [sampleHashJobs, List.mem_singleton] at hjob
    subst hjob
    exact ⟨by decide, by decide, rfl, by decide, .inl (by decide)⟩
  have hcrypto : SameCrypto (sampleHashContext .push) (sampleHashContext .append) := ⟨rfl, rfl⟩
  have hends : (sampleHashContext .append).NoStreamEnd :=
    (sampleHashContext_storePair .append).noStreamEnd sampleCiphers_noStreamEnd
  exact ⟨replies, store', hrun, text, events, out, served, hreply, hrestore,
    archives_restored_or_forged sampleCiphers_inverts (sampleHashContext_storePair .push)
      lookupByName_chopClassName (Nat.le_refl 66) hjobs hrun hok hconsistent rfl hstream hreply
      (fun hmethod => by cases hmethod) hcrypto hends (fun _ => ⟨[], 0, false, 0, 0, 0, false⟩)
      hrestore⟩

end Sample

end Libchop
