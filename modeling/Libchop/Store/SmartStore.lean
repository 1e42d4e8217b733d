import Libchop.Store.BlockMap
import Mathlib.Data.List.AList

/-!
# The smart block store

A proxy that writes a block only if the store behind it does not have it yet.  The proxy is transparent
when the iterator class it exposes is that of the store behind it, which it never sets, and when its
log has room for the keys.
-/

namespace Libchop

variable {ε It σ : Type}

/-- A method of a store, which also depends on the circumstances of the call. -/
abbrev StoreMethod (ε σ α : Type) := ε → σ → Outcome (α × σ)

/-- What a client of an iterator finds, who moves it to the end and then a number of times more. -/
structure IteratorClass (ε It σ : Type) where
  walk : Nat → ε → σ → Status × Option It → List Bytes × List Status

/-- `chop_block_store_t`.  Null pointers are `none`. -/
structure BlockStoreObject (ε It σ : Type) where
  blocksExist : Option (List Bytes → StoreMethod ε σ (Status × List Bool))
  readBlock : Option (Bytes → Bytes → StoreMethod ε σ (Status × Bytes × Nat))
  writeBlock : Option (Bytes → Bytes → StoreMethod ε σ Status)
  deleteBlock : Option (Bytes → StoreMethod ε σ Status)
  iteratorClass : Option (IteratorClass ε It σ)
  firstBlock : Option (StoreMethod ε σ (Status × Option It))

section Interface

/-- `store_ctor`. -/
def BlockStoreObject.null : BlockStoreObject ε It σ := ⟨none, none, none, none, none, none⟩

def BlockStoreObject.chopStoreBlocksExist (store : BlockStoreObject ε It σ) (keys : List Bytes) :
    StoreMethod ε σ (Status × List Bool) :=
  match store.blocksExist with
  | some method => method keys
  | none => fun _ s => .done ((.error .notImpl, keys.map fun _ => false), s)

def BlockStoreObject.chopStoreBlockExists (store : BlockStoreObject ε It σ) (key : Bytes) :
    StoreMethod ε σ (Status × Bool) :=
  fun env s =>
    store.chopStoreBlocksExist [key] env s >>= fun ((err, exist), s) =>
      .done ((err, exist.headD false), s)

def BlockStoreObject.chopStoreReadBlock (store : BlockStoreObject ε It σ) (key buffer : Bytes) :
    StoreMethod ε σ (Status × Bytes × Nat) :=
  match store.readBlock with
  | some method => method key buffer
  | none => fun _ _ => .abort

def BlockStoreObject.chopStoreWriteBlock (store : BlockStoreObject ε It σ) (key block : Bytes) :
    StoreMethod ε σ Status :=
  match store.writeBlock with
  | some method => method key block
  | none => fun _ _ => .abort

def BlockStoreObject.chopStoreDeleteBlock (store : BlockStoreObject ε It σ) (key : Bytes) :
    StoreMethod ε σ Status :=
  match store.deleteBlock with
  | some method => method key
  | none => fun _ s => .done (.error .notImpl, s)

def BlockStoreObject.chopStoreIteratorClass (store : BlockStoreObject ε It σ) :
    Option (IteratorClass ε It σ) :=
  store.iteratorClass

def BlockStoreObject.chopStoreFirstBlock (store : BlockStoreObject ε It σ) :
    StoreMethod ε σ (Status × Option It) :=
  match store.firstBlock with
  | some method => method
  | none => fun _ s => .done ((.error .notImpl, none), s)

/-- A client of the interface.  It looks for the iterator class before it starts an iterator. -/
def storeStep (store : BlockStoreObject ε It σ) (s : σ) (op : ε × StoreRequest) :
    Outcome (StoreReply × σ) :=
  match op.2 with
  | .writeBlock key block =>
    store.chopStoreWriteBlock key block op.1 s >>= fun (err, s) => .done (.status err, s)
  | .readBlock key =>
    store.chopStoreReadBlock key [] op.1 s >>= fun (result, s) => .done (.ofRead result, s)
  | .deleteBlock key =>
    store.chopStoreDeleteBlock key op.1 s >>= fun (err, s) => .done (.status err, s)
  | .blocksExist keys =>
    store.chopStoreBlocksExist keys op.1 s >>= fun ((err, exist), s) =>
      .done (.flags err exist, s)
  | .traverse again =>
    match store.chopStoreIteratorClass with
    | none => .done (.status (.error .notImpl), s)
    | some iterators =>
      store.chopStoreFirstBlock op.1 s >>= fun (first, s) =>
        let (keys, ends) := iterators.walk again op.1 s first
        .done (.traversal keys ends, s)

end Interface

section Smart

def smartHexKeySize : Nat := 1024

/-- The key is written to the log in hexadecimal first, with a zero at the end. -/
def chopSmartBlockStoreWriteBlock (backend : BlockStoreObject ε It σ) (key block : Bytes) :
    StoreMethod ε σ Status :=
  fun env s =>
    Outcome.assert (2 * key.length + 1 ≤ smartHexKeySize) >>= fun _ =>
    backend.chopStoreBlockExists key env s >>= fun ((err, exist), s) =>
      match err with
      | .error err => .done (.error err, s)
      | .ok _ =>
        if exist then .done (.ok (), s) else backend.chopStoreWriteBlock key block env s

/-- The other methods hand over to the backend.  The iterator class is taken from the store that is
being opened, which has none. -/
def chopSmartBlockStoreOpen (backend : Option (BlockStoreObject ε It σ)) (logInit : Status) :
    Except ChopError (BlockStoreObject ε It σ) :=
  match backend with
  | none => .error .invalidArg
  | some backend =>
    let store : BlockStoreObject ε It σ := .null
    logInit.bind fun _ => .ok
      { store with
        iteratorClass := store.chopStoreIteratorClass
        blocksExist := some backend.chopStoreBlocksExist
        readBlock := some backend.chopStoreReadBlock
        writeBlock := some (chopSmartBlockStoreWriteBlock backend)
        deleteBlock := some backend.chopStoreDeleteBlock
        firstBlock := some backend.chopStoreFirstBlock }

end Smart

/-- Replies that tell a client the same; `same` says when two orders of keys do. -/
def SameReply (same : List Bytes → List Bytes → Prop) : StoreReply → StoreReply → Prop
  | .traversal keys ends, .traversal keys' ends' => same keys keys' ∧ ends = ends'
  | reply, reply' => reply = reply'

/-- A store that is a finite map, whose writes may fail.  Its replies depend on what it holds and on the
circumstances of the call. -/
structure FiniteMap (store : BlockStoreObject ε It σ) (contents : σ → BlockMap)
    (same : List Bytes → List Bytes → Prop) : Prop where
  replies : ∀ env s request, (request.isTraversal = true → store.iteratorClass ≠ none) →
    ∃ reply s', storeStep store s (env, request) = .done (reply, s') ∧
      ((contents s).Replies request reply (contents s') ∨
        ∃ key block err, request = .writeBlock key block ∧ reply = .status (.error err) ∧
          contents s' = contents s)
  determined : ∀ env request s₁ s₂ reply₁ reply₂ s₁' s₂', contents s₁ = contents s₂ →
    storeStep store s₁ (env, request) = .done (reply₁, s₁') →
    storeStep store s₂ (env, request) = .done (reply₂, s₂') → SameReply same reply₁ reply₂

/-- A write to a present key carries the block that is already there. -/
def CarriesStored (contents : σ → BlockMap) (s : σ) (op : ε × StoreRequest) : Prop :=
  ∀ key block, op.2 = .writeBlock key block → ∀ stored, contents s key = some stored →
    stored = block

instance (contents : σ → BlockMap) (s : σ) : ∀ op : ε × StoreRequest,
    Decidable (CarriesStored contents s op)
  | (_, .writeBlock key block) =>
    decidable_of_iff (contents s key = none ∨ contents s key = some block) (by
      cases h : contents s key with
      | none => simp [CarriesStored, h]
      | some stored => simp [CarriesStored, h])
  | (_, .readBlock _) | (_, .deleteBlock _) | (_, .blocksExist _) | (_, .traverse _) =>
    .isTrue nofun

/-- A step on the backend and through the proxy.  Where the key of a write is present, the proxy only
asks the backend for it. -/
def Transparent (backend : BlockStoreObject ε It σ) (contents : σ → BlockMap)
    (same : List Bytes → List Bytes → Prop) (_ t : σ) (op : ε × StoreRequest)
    (direct through : StoreReply × σ) : Prop :=
  contents direct.2 = contents through.2 ∧
  match op.2 with
  | .writeBlock key _ =>
    if (contents t key).isSome then
      through.1 = .status (.ok ()) ∧
        ∃ found, backend.chopStoreBlockExists key op.1 t = .done (found, through.2)
    else through.1 = direct.1
  | _ => SameReply same direct.1 through.1

section Proof

variable {backend smart : BlockStoreObject ε It σ} {contents : σ → BlockMap}
  {same : List Bytes → List Bytes → Prop}

/-- Replies of a map to one request differ in the order of keys at most. -/
theorem BlockMap.Replies.sameReply {m m₁ m₂ : BlockMap} {request : StoreRequest}
    {reply₁ reply₂ : StoreReply} (h₁ : m.Replies request reply₁ m₁)
    (h₂ : m.Replies request reply₂ m₂) : SameReply List.Perm reply₁ reply₂ := by
  cases request with
  | writeBlock key block =>
    rw [h₁.1, h₂.1]
    rfl
  | readBlock key =>
    rw [h₁.2, h₂.2]
    cases m key with
    | none => rfl
    | some block => rfl
  | deleteBlock key =>
    rw [Replies] at h₁ h₂
    split at h₁
    · next hkey =>
      rw [if_pos hkey] at h₂
      rw [h₁.1, h₂.1]
      rfl
    · next hkey =>
      rw [if_neg hkey] at h₂
      rw [h₁.1, h₂.1]
      rfl
  | blocksExist keys =>
    rw [h₁.2, h₂.2]
    rfl
  | traverse again =>
    obtain ⟨-, keys₁, hnodup₁, hmem₁, rfl⟩ := h₁
    obtain ⟨-, keys₂, hnodup₂, hmem₂, rfl⟩ := h₂
    refine ⟨(List.perm_ext_iff_of_nodup hnodup₁ hnodup₂).mpr fun key => ?_, rfl⟩
    rw [hmem₁, hmem₂]

theorem SameReply.refl (reply : StoreReply) : SameReply List.Perm reply reply := by
  cases reply with
  | traversal keys ends => exact ⟨List.Perm.refl keys, rfl⟩
  | status err => rfl
  | block err buffer size => rfl
  | flags err exist => rfl

/-- Up to the order of keys, only the writes of a map are left open. -/
theorem FiniteMap.of_replies
    (hreplies : ∀ env s request, (request.isTraversal = true → backend.iteratorClass ≠ none) →
      ∃ reply s', storeStep backend s (env, request) = .done (reply, s') ∧
        ((contents s).Replies request reply (contents s') ∨
          ∃ key block err, request = .writeBlock key block ∧ reply = .status (.error err) ∧
            contents s' = contents s))
    (hwrites : ∀ env key block s₁ s₂ reply₁ reply₂ s₁' s₂', contents s₁ = contents s₂ →
      storeStep backend s₁ (env, .writeBlock key block) = .done (reply₁, s₁') →
      storeStep backend s₂ (env, .writeBlock key block) = .done (reply₂, s₂') → reply₁ = reply₂) :
    FiniteMap backend contents List.Perm where
  replies := hreplies
  determined := by
    intro env request s₁ s₂ reply₁ reply₂ s₁' s₂' hsame hdone₁ hdone₂
    by_cases hwrite : ∃ key block, request = .writeBlock key block
    · obtain ⟨key, block, rfl⟩ := hwrite
      rw [hwrites env key block s₁ s₂ reply₁ reply₂ s₁' s₂' hsame hdone₁ hdone₂]
      exact SameReply.refl reply₂
    by_cases htraversal : request.isTraversal = true → backend.iteratorClass ≠ none
    · have hright : ∀ s reply s', storeStep backend s (env, request) = .done (reply, s') →
          (contents s).Replies request reply (contents s') := by
        intro s reply s' hdone
        obtain ⟨reply', s'', hdone', hreplies⟩ := hreplies env s request htraversal
        rw [hdone'] at hdone
        cases hdone
        rcases hreplies with hreplies | ⟨key, block, -, hrequest, -⟩
        · exact hreplies
        · exact absurd ⟨key, block, hrequest⟩ hwrite
      have hreplies₂ := hright s₂ reply₂ s₂' hdone₂
      rw [← hsame] at hreplies₂
      exact (hright s₁ reply₁ s₁' hdone₁).sameReply hreplies₂
    · push Not at htraversal
      obtain ⟨hrequest, hclass⟩ := htraversal
      cases request with
      | traverse again =>
        simp only [storeStep, BlockStoreObject.chopStoreIteratorClass, hclass] at hdone₁ hdone₂
        cases hdone₁
        cases hdone₂
        rfl
      | _ => cases hrequest

namespace FiniteMap

variable (h : FiniteMap backend contents same)

include h

/-- Whether a block exists. -/
theorem blockExists (env : ε) (key : Bytes) (s : σ) :
    ∃ s', backend.chopStoreBlockExists key env s = .done ((.ok (), (contents s key).isSome), s') ∧
      contents s' = contents s := by
  obtain ⟨reply, s', hdone, hreplies⟩ := h.replies env s (.blocksExist [key]) nofun
  have hright : contents s' = contents s ∧ reply = .flags (.ok ()) [(contents s key).isSome] := by
    rcases hreplies with hreplies | ⟨_, _, _, hwrite, -⟩
    · exact hreplies
    · cases hwrite
  obtain ⟨hcontents, rfl⟩ := hright
  obtain ⟨⟨⟨err, exist⟩, s₁⟩, hexist, heq⟩ := Outcome.bind_eq_done.mp hdone
  cases heq
  refine ⟨s', ?_, hcontents⟩
  rw [BlockStoreObject.chopStoreBlockExists, hexist, Outcome.done_bind]
  rfl

/-- A write happens or fails. -/
theorem write (env : ε) (key block : Bytes) (s : σ) :
    ∃ err s', storeStep backend s (env, .writeBlock key block) = .done (.status err, s') ∧
      backend.chopStoreWriteBlock key block env s = .done (err, s') ∧
      ((err = .ok () ∧ contents s' = Function.update (contents s) key (some block)) ∨
        (err ≠ .ok () ∧ contents s' = contents s)) := by
  obtain ⟨reply, s', hdone, hreplies⟩ := h.replies env s (.writeBlock key block) nofun
  obtain ⟨⟨err, s₁⟩, hwrite, heq⟩ := Outcome.bind_eq_done.mp hdone
  cases heq
  refine ⟨err, s', hdone, hwrite, ?_⟩
  rcases hreplies with ⟨hok, hcontents⟩ | ⟨_, _, _, -, herr, hcontents⟩
  · cases hok
    exact .inl ⟨rfl, hcontents⟩
  · cases herr
    exact .inr ⟨nofun, hcontents⟩

/-- From the same contents, requests that do not write lead to the same contents, with replies that
tell the same. -/
theorem same_of_not_write (env : ε) {request : StoreRequest} {s t : σ}
    (hsame : contents s = contents t)
    (htraversal : request.isTraversal = true → backend.iteratorClass ≠ none)
    (hwrite : ∀ key block, request ≠ .writeBlock key block) :
    ∃ direct through, storeStep backend s (env, request) = .done direct ∧
      storeStep backend t (env, request) = .done through ∧
      contents direct.2 = contents through.2 ∧ SameReply same direct.1 through.1 := by
  obtain ⟨reply, s', hdone, hreplies⟩ := h.replies env s request htraversal
  obtain ⟨reply', t', hdone', hreplies'⟩ := h.replies env t request htraversal
  refine ⟨(reply, s'), (reply', t'), hdone, hdone', ?_,
    h.determined env request s t reply reply' s' t' hsame hdone hdone'⟩
  have hright : (contents s).Replies request reply (contents s') := by
    rcases hreplies with hreplies | ⟨key, block, -, hrequest, -⟩
    · exact hreplies
    · exact absurd hrequest (hwrite key block)
  have hright' : (contents s).Replies request reply' (contents t') := by
    rw [hsame]
    rcases hreplies' with hreplies' | ⟨key, block, -, hrequest, -⟩
    · exact hreplies'
    · exact absurd hrequest (hwrite key block)
  cases request with
  | writeBlock key block => exact absurd rfl (hwrite key block)
  | readBlock key => exact hright.1.trans hright'.1.symm
  | deleteBlock key =>
    rw [BlockMap.Replies] at hright hright'
    split at hright
    · next hkey =>
      rw [if_pos hkey] at hright'
      exact hright.2.trans hright'.2.symm
    · next hkey =>
      rw [if_neg hkey] at hright'
      exact hright.2.trans hright'.2.symm
  | blocksExist keys => exact hright.1.trans hright'.1.symm
  | traverse again => exact hright.1.trans hright'.1.symm

end FiniteMap

theorem smartStore_iteratorClass
    (hopen : chopSmartBlockStoreOpen (some backend) (.ok ()) = .ok smart) :
    smart.iteratorClass = none := by
  cases hopen
  rfl

/-- Through the proxy, requests other than writes and traversals are made to the backend. -/
theorem storeStep_smart (hopen : chopSmartBlockStoreOpen (some backend) (.ok ()) = .ok smart)
    (t : σ) (env : ε) {request : StoreRequest} (htraversal : request.isTraversal = false)
    (hwrite : ∀ key block, request ≠ .writeBlock key block) :
    storeStep smart t (env, request) = storeStep backend t (env, request) := by
  cases hopen
  cases request with
  | writeBlock key block => exact absurd rfl (hwrite key block)
  | readBlock key => rfl
  | deleteBlock key => rfl
  | blocksExist keys => rfl
  | traverse again => cases htraversal

theorem storeStep_smart_write
    (hopen : chopSmartBlockStoreOpen (some backend) (.ok ()) = .ok smart) (t : σ) (env : ε)
    (key block : Bytes) :
    storeStep smart t (env, .writeBlock key block) =
      (chopSmartBlockStoreWriteBlock backend key block env t >>= fun (err, t) =>
        .done (.status err, t)) := by
  cases hopen
  rfl

/-- A key that does not fit the log overruns the stack. -/
theorem storeStep_smart_longKey
    (hopen : chopSmartBlockStoreOpen (some backend) (.ok ()) = .ok smart) (t : σ) (env : ε)
    {key : Bytes} (block : Bytes) (hkey : ¬ key.length < 512) :
    storeStep smart t (env, .writeBlock key block) = .abort := by
  have hlong : ¬ 2 * key.length + 1 ≤ smartHexKeySize := by
    rw [smartHexKeySize]
    omega
  rw [storeStep_smart_write hopen, chopSmartBlockStoreWriteBlock, Outcome.assert_of_not hlong,
    Outcome.abort_bind, Outcome.abort_bind]

theorem smartWrite_transparent (h : FiniteMap backend contents same)
    (hopen : chopSmartBlockStoreOpen (some backend) (.ok ()) = .ok smart) {s t : σ}
    (hsame : contents s = contents t) (env : ε) {key block : Bytes}
    (hcarries : CarriesStored contents s (env, .writeBlock key block)) (hkey : key.length < 512) :
    ∃ direct through, storeStep backend s (env, .writeBlock key block) = .done direct ∧
      storeStep smart t (env, .writeBlock key block) = .done through ∧
      Transparent backend contents same s t (env, .writeBlock key block) direct through := by
  obtain ⟨err, s', hdirect, -, hcases⟩ := h.write env key block s
  obtain ⟨t₁, hexists, ht₁⟩ := h.blockExists env key t
  have hfits : 2 * key.length + 1 ≤ smartHexKeySize := by
    rw [smartHexKeySize]
    omega
  by_cases hpresent : (contents t key).isSome = true
  · -- The block is there, with these bytes: the backend that is written to stays as it was.
    refine ⟨_, (.status (.ok ()), t₁), hdirect, ?_, ?_, ?_⟩
    · rw [storeStep_smart_write hopen, chopSmartBlockStoreWriteBlock, Outcome.assert_of hfits,
        Outcome.done_bind, hexists, Outcome.done_bind]
      simp only [hpresent, if_true, Outcome.done_bind]
    · obtain ⟨stored, hstored⟩ := Option.isSome_iff_exists.mp hpresent
      have hblock : contents s key = some block := by
        rw [hsame, hstored, hcarries key block rfl stored (by rw [hsame, hstored])]
      have hkept : contents s' = contents s := by
        rcases hcases with ⟨-, hs'⟩ | ⟨-, hs'⟩
        · rw [hs', ← hblock, Function.update_eq_self]
        · exact hs'
      exact hkept.trans (hsame.trans ht₁.symm)
    · simp only [hpresent, if_true]
      exact ⟨trivial, _, hexists⟩
  · obtain ⟨err', t', hthrough, hwrite, hcases'⟩ := h.write env key block t₁
    have hreply : SameReply same (.status err) (.status err') :=
      h.determined env (.writeBlock key block) s t₁ _ _ s' t' (hsame.trans ht₁.symm) hdirect hthrough
    have herr : err = err' := StoreReply.status.inj hreply
    subst herr
    refine ⟨_, (.status err, t'), hdirect, ?_, ?_, ?_⟩
    · rw [storeStep_smart_write hopen, chopSmartBlockStoreWriteBlock, Outcome.assert_of hfits,
        Outcome.done_bind, hexists, Outcome.done_bind]
      simp only [hpresent, Bool.false_eq_true, if_false, hwrite, Outcome.done_bind]
    · rcases hcases with ⟨hok, hs'⟩ | ⟨hfail, hs'⟩ <;> rcases hcases' with ⟨hok', ht'⟩ | ⟨hfail', ht'⟩
      · rw [hs', ht', ht₁, hsame]
      · exact absurd hok hfail'
      · exact absurd hok' hfail
      · rw [hs', ht', ht₁, hsame]
    · simp only [hpresent, Bool.false_eq_true, if_false]

theorem transparent_of_not_write {s t : σ} {op : ε × StoreRequest} {direct through : StoreReply × σ}
    (hwrite : ∀ key block, op.2 ≠ .writeBlock key block)
    (hcontents : contents direct.2 = contents through.2)
    (hreply : SameReply same direct.1 through.1) :
    Transparent backend contents same s t op direct through := by
  obtain ⟨env, request⟩ := op
  refine ⟨hcontents, ?_⟩
  cases request with
  | writeBlock key block => exact absurd rfl (hwrite key block)
  | readBlock key => exact hreply
  | deleteBlock key => exact hreply
  | blocksExist keys => exact hreply
  | traverse again => exact hreply

/-- Requests that are handed over. -/
theorem smartForwarded_transparent (h : FiniteMap backend contents same)
    (hopen : chopSmartBlockStoreOpen (some backend) (.ok ()) = .ok smart) {s t : σ}
    (hsame : contents s = contents t) {op : ε × StoreRequest}
    (htraversal : op.2.isTraversal = false) (hwrite : ∀ key block, op.2 ≠ .writeBlock key block) :
    ∃ direct through, storeStep backend s op = .done direct ∧ storeStep smart t op = .done through ∧
      Transparent backend contents same s t op direct through := by
  obtain ⟨env, request⟩ := op
  obtain ⟨direct, through, hdirect, hthrough, hcontents, hreply⟩ :=
    h.same_of_not_write env hsame (by rw [htraversal]; nofun) hwrite
  rw [← storeStep_smart hopen t env htraversal hwrite] at hthrough
  exact ⟨direct, through, hdirect, hthrough, transparent_of_not_write hwrite hcontents hreply⟩

/-- Nothing is traversed through the proxy. -/
theorem smartTraversal_transparent_iff (h : FiniteMap backend contents same)
    (hopen : chopSmartBlockStoreOpen (some backend) (.ok ()) = .ok smart) {s t : σ}
    (hsame : contents s = contents t) (env : ε) (again : Nat) :
    (∃ direct through, storeStep backend s (env, .traverse again) = .done direct ∧
      storeStep smart t (env, .traverse again) = .done through ∧
      Transparent backend contents same s t (env, .traverse again) direct through) ↔
    backend.iteratorClass = none := by
  have hthrough : storeStep smart t (env, .traverse again) =
      .done (.status (.error .notImpl), t) := by
    simp only [storeStep, BlockStoreObject.chopStoreIteratorClass, smartStore_iteratorClass hopen]
  rw [hthrough]
  constructor
  · rintro ⟨direct, through, hdirect, heq, -, hreply⟩
    cases heq
    by_contra hclass
    obtain ⟨reply, s', hdone, hreplies⟩ := h.replies env s (.traverse again) fun _ => hclass
    rw [hdone] at hdirect
    cases hdirect
    rcases hreplies with ⟨-, keys, -, -, rfl⟩ | ⟨_, _, _, hrequest, -⟩
    · cases hreply
    · cases hrequest
  · intro hclass
    refine ⟨(.status (.error .notImpl), s), (.status (.error .notImpl), t), ?_, rfl, hsame, rfl⟩
    simp only [storeStep, BlockStoreObject.chopStoreIteratorClass, hclass]

/-- When a step through the proxy is like one on the backend. -/
theorem smartStep_transparent_iff (h : FiniteMap backend contents same)
    (hopen : chopSmartBlockStoreOpen (some backend) (.ok ()) = .ok smart) (s t : σ)
    (op : ε × StoreRequest) (hsame : contents s = contents t)
    (hcarries : CarriesStored contents s op) :
    (∃ direct through, storeStep backend s op = .done direct ∧ storeStep smart t op = .done through ∧
      Transparent backend contents same s t op direct through) ↔
    (op.2.isTraversal = true → backend.iteratorClass = none) ∧
      ∀ key block, op.2 = .writeBlock key block → key.length < 512 := by
  obtain ⟨env, request⟩ := op
  cases request with
  | writeBlock key block =>
    constructor
    · rintro ⟨-, through, -, hthrough, -⟩
      refine ⟨nofun, ?_⟩
      rintro _ _ ⟨⟩
      by_contra hkey
      rw [storeStep_smart_longKey hopen t env block hkey] at hthrough
      cases hthrough
    · rintro ⟨-, hkey⟩
      exact smartWrite_transparent h hopen hsame env hcarries (hkey key block rfl)
  | traverse again =>
    rw [smartTraversal_transparent_iff h hopen hsame env again]
    exact ⟨fun hclass => ⟨fun _ => hclass, nofun⟩, fun hp => hp.1 rfl⟩
  | readBlock key =>
    exact iff_of_true (smartForwarded_transparent h hopen hsame rfl nofun) ⟨nofun, nofun⟩
  | deleteBlock key =>
    exact iff_of_true (smartForwarded_transparent h hopen hsame rfl nofun) ⟨nofun, nofun⟩
  | blocksExist keys =>
    exact iff_of_true (smartForwarded_transparent h hopen hsame rfl nofun) ⟨nofun, nofun⟩

/-- The smart store stands for its backend, in any run whose writes carry what is stored, just when the
backend has no iterators and the keys that are written fit the log. -/
theorem smartStore_transparent_iff (h : FiniteMap backend contents same)
    (hopen : chopSmartBlockStoreOpen (some backend) (.ok ()) = .ok smart) (s : σ)
    (ops : List (ε × StoreRequest))
    (hops : Refinement.Admissible (storeStep backend) (CarriesStored contents) s ops) :
    (smart.iteratorClass = backend.iteratorClass ∧
      Refinement.Alongside (storeStep backend) (storeStep smart)
        (Transparent backend contents same) s s ops) ↔
    backend.iteratorClass = none ∧
      ∀ op ∈ ops, ∀ key block, op.2 = .writeBlock key block → key.length < 512 := by
  rw [smartStore_iteratorClass hopen, eq_comm]
  refine and_congr_right fun hclass => ?_
  rw [Refinement.alongside_iff (fun _ _ _ _ _ hstep => hstep.1)
    (smartStep_transparent_iff h hopen) rfl hops]
  constructor
  · exact fun hall op hop => (hall op hop).2
  · exact fun hall op hop => ⟨fun _ => hclass, hall op hop⟩

end Proof

section Sample

abbrev BlockList := AList fun _ : Bytes => Bytes

def BlockList.contents (blocks : BlockList) : BlockMap := fun key => blocks.lookup key

/-- A store in memory, with or without iterators, whose writes fail when the memory is full. -/
def listStore (iterable : Bool) : BlockStoreObject Bool Unit BlockList where
  blocksExist := some fun keys _ s => .done ((.ok (), keys.map fun key => (s.lookup key).isSome), s)
  readBlock := some fun key _ _ s =>
    match s.lookup key with
    | some block => .done ((.ok (), block, block.length), s)
    | none => .done ((.error .storeBlockUnavail, [], 0), s)
  writeBlock := some fun key block full s =>
    if full then .done (.error (.code 12), s) else .done (.ok (), s.insert key block)
  deleteBlock := some fun key _ s =>
    if (s.lookup key).isSome then .done (.ok (), s.erase key)
    else .done (.error .storeBlockUnavail, s)
  iteratorClass :=
    if iterable then
      some ⟨fun again _ s _ => (s.keys, List.replicate (again + 1) (.error .storeEnd))⟩
    else none
  firstBlock := some fun _ s => .done ((.ok (), none), s)

theorem BlockList.contents_insert (blocks : BlockList) (key block : Bytes) :
    contents (blocks.insert key block) = Function.update blocks.contents key (some block) := by
  funext other
  by_cases hother : other = key
  · subst hother
    simp [contents]
  · simp [contents, hother]

theorem BlockList.contents_erase (blocks : BlockList) (key : Bytes) :
    contents (blocks.erase key) = Function.update blocks.contents key none := by
  funext other
  by_cases hother : other = key
  · subst hother
    simp [contents]
  · simp [contents, hother]

theorem listStore_replies (iterable full : Bool) (s : BlockList) (request : StoreRequest)
    (htraversal : request.isTraversal = true → (listStore iterable).iteratorClass ≠ none) :
    ∃ reply s', storeStep (listStore iterable) s (full, request) = .done (reply, s') ∧
      (s.contents.Replies request reply s'.contents ∨
        ∃ key block err, request = .writeBlock key block ∧ reply = .status (.error err) ∧
          s'.contents = s.contents) := by
  cases request with
  | writeBlock key block =>
    cases full with
    | false => exact ⟨_, _, rfl, .inl ⟨rfl, s.contents_insert key block⟩⟩
    | true => exact ⟨_, _, rfl, .inr ⟨key, block, _, rfl, rfl, rfl⟩⟩
  | readBlock key =>
    cases hkey : s.lookup key with
    | none =>
      refine ⟨.block (.error .storeBlockUnavail) [] 0, s, ?_, .inl ⟨rfl, ?_⟩⟩
      · simp [storeStep, BlockStoreObject.chopStoreReadBlock, listStore, hkey, StoreReply.ofRead]
      · simp [BlockList.contents, hkey]
    | some block =>
      refine ⟨.block (.ok ()) block block.length, s, ?_, .inl ⟨rfl, ?_⟩⟩
      · simp [storeStep, BlockStoreObject.chopStoreReadBlock, listStore, hkey, StoreReply.ofRead]
      · simp [BlockList.contents, hkey]
  | deleteBlock key =>
    by_cases hkey : (s.contents key).isSome = true
    · have hlookup : (s.lookup key).isSome = true := hkey
      refine ⟨.status (.ok ()), s.erase key, ?_, .inl ?_⟩
      · simp [storeStep, BlockStoreObject.chopStoreDeleteBlock, listStore, hlookup]
      · rw [BlockMap.Replies, if_pos hkey]
        exact ⟨rfl, s.contents_erase key⟩
    · have hlookup : ¬ (s.lookup key).isSome = true := hkey
      refine ⟨.status (.error .storeBlockUnavail), s, ?_, .inl ?_⟩
      · simp [storeStep, BlockStoreObject.chopStoreDeleteBlock, listStore, hlookup]
      · rw [BlockMap.Replies, if_neg hkey]
        exact ⟨rfl, rfl⟩
  | blocksExist keys => exact ⟨_, _, rfl, .inl ⟨rfl, rfl⟩⟩
  | traverse again =>
    cases iterable with
    | false => exact absurd rfl (htraversal rfl)
    | true =>
      refine ⟨_, _, rfl, .inl ⟨rfl, s.keys, s.keys_nodup, ?_, rfl⟩⟩
      exact fun key => AList.lookup_isSome.symm

theorem listStore_finiteMap (iterable : Bool) :
    FiniteMap (listStore iterable) BlockList.contents List.Perm := by
  apply FiniteMap.of_replies (listStore_replies iterable)
  intro full key block s₁ s₂ reply₁ reply₂ s₁' s₂' _ hdone₁ hdone₂
  cases full <;> cases hdone₁ <;> cases hdone₂ <;> rfl

/-- A block is written twice and read, and another one is not written. -/
def sampleStoreRequests : List (Bool × StoreRequest) :=
  [(false, .writeBlock [1] [2, 3]), (true, .writeBlock [1] [2, 3]), (true, .writeBlock [4] [5]),
    (false, .readBlock [1]), (false, .deleteBlock [1]), (false, .writeBlock [1] [6])]

/-- A list without iterators is such a backend. -/
theorem sampleStoreRequests_transparent :
    ∃ smart, chopSmartBlockStoreOpen (some (listStore false)) (.ok ()) = .ok smart ∧
      smart.iteratorClass = (listStore false).iteratorClass ∧
      Refinement.Alongside (storeStep (listStore false)) (storeStep smart)
        (Transparent (listStore false) BlockList.contents List.Perm) ∅ ∅ sampleStoreRequests := by
  refine ⟨_, rfl, (smartStore_transparent_iff (listStore_finiteMap false) rfl ∅ sampleStoreRequests
    (by decide)).mpr ⟨rfl, ?_⟩⟩
  simp +contextual [sampleStoreRequests, eq_comm]

/-- A list with iterators cannot be traversed through the proxy. -/
theorem iterableList_not_transparent :
    FiniteMap (listStore true) BlockList.contents List.Perm ∧
    Refinement.Admissible (storeStep (listStore true)) (CarriesStored BlockList.contents)
      (∅ : BlockList) [(false, .traverse 0)] ∧
    ∃ smart, chopSmartBlockStoreOpen (some (listStore true)) (.ok ()) = .ok smart ∧
      smart.iteratorClass ≠ (listStore true).iteratorClass ∧
      ¬ Refinement.Alongside (storeStep (listStore true)) (storeStep smart)
        (Transparent (listStore true) BlockList.contents List.Perm) ∅ ∅ [(false, .traverse 0)] := by
  refine ⟨listStore_finiteMap true, by decide, _, rfl, nofun, ?_⟩
  rintro ⟨direct, through, hdirect, hthrough, ⟨-, hreply⟩, -⟩
  cases hdirect
  cases hthrough
  cases hreply

end Sample

end Libchop
