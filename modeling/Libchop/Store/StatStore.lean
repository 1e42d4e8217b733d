import Libchop.Store.SmartStore
import Mathlib.Algebra.GroupWithZero.Nat
import Mathlib.Data.List.Forall2
import Mathlib.Data.List.Perm.Basic

/-!
# The statistics block store

A proxy that counts what is written.  It asks the store behind it whether a block is there before it
writes the block, so that it knows which writes are the first ones under their keys.
-/

namespace Libchop

/-- `chop_block_store_stats_t`, with its sizes. -/
structure BlockStoreStats where
  blocksWritten : Nat
  bytesWritten : Nat
  virginBlocks : Nat
  virginBytes : Nat
  minBlockSize : Nat
  maxBlockSize : Nat
deriving DecidableEq, Repr

/-- The least size is the greatest `size_t` to begin with. -/
def chopBlockStoreStatsClear : BlockStoreStats := ⟨0, 0, 0, 0, 2 ^ 64 - 1, 0⟩

def chopBlockStoreStatsUpdate (stats : BlockStoreStats) (blockSize : Nat) (virginWrite : Bool) :
    BlockStoreStats where
  blocksWritten := (stats.blocksWritten + 1) % 2 ^ 64
  bytesWritten := (stats.bytesWritten + blockSize) % 2 ^ 64
  virginBlocks :=
    if virginWrite then (stats.virginBlocks + 1) % 2 ^ 64 else stats.virginBlocks
  virginBytes :=
    if virginWrite then (stats.virginBytes + blockSize) % 2 ^ 64 else stats.virginBytes
  minBlockSize := if blockSize < stats.minBlockSize then blockSize else stats.minBlockSize
  maxBlockSize := if blockSize > stats.maxBlockSize then blockSize else stats.maxBlockSize

variable {ε It σ α : Type}

section Proxy

/-- A method of the backend that leaves the statistics as they are. -/
def StoreMethod.onBackend (method : StoreMethod ε σ α) : StoreMethod ε (σ × BlockStoreStats) α :=
  fun env s => method env s.1 >>= fun (result, backend) => .done (result, (backend, s.2))

def IteratorClass.onBackend (iterators : IteratorClass ε It σ) :
    IteratorClass ε It (σ × BlockStoreStats) where
  walk again env s first := iterators.walk again env s.1 first

def chopStatBlockStoreWriteBlock (backend : BlockStoreObject ε It σ) (key block : Bytes) :
    StoreMethod ε (σ × BlockStoreStats) Status :=
  fun env s =>
    backend.chopStoreBlockExists key env s.1 >>= fun ((err, exist), t) =>
      match err with
      | .error err => .done (.error err, (t, s.2))
      | .ok _ =>
        backend.chopStoreWriteBlock key block env t >>= fun (err, t) =>
          match err with
          | .error err => .done (.error err, (t, s.2))
          | .ok _ => .done (.ok (), (t, chopBlockStoreStatsUpdate s.2 block.length (!exist)))

/-- The name of the statistics is copied first.  The iterator class is read from the backend, which
has to be there. -/
def chopStatBlockStoreOpen (backend : Option (BlockStoreObject ε It σ)) (statsInit : Status) :
    Outcome (Except ChopError (BlockStoreObject ε It (σ × BlockStoreStats) × BlockStoreStats)) :=
  match statsInit with
  | .error err => .done (.error err)
  | .ok _ =>
    match backend with
    | none => .abort
    | some backend =>
      .done (.ok (
        { blocksExist := some fun keys => (backend.chopStoreBlocksExist keys).onBackend
          readBlock := some fun key buffer => (backend.chopStoreReadBlock key buffer).onBackend
          writeBlock := some (chopStatBlockStoreWriteBlock backend)
          deleteBlock := some fun key => (backend.chopStoreDeleteBlock key).onBackend
          iteratorClass := backend.chopStoreIteratorClass.map IteratorClass.onBackend
          firstBlock := some backend.chopStoreFirstBlock.onBackend },
        chopBlockStoreStatsClear))

end Proxy

/-- A write that succeeded, and whether its key was not bound before. -/
structure AcceptedWrite where
  key : Bytes
  size : Nat
  virgin : Bool
deriving DecidableEq, Repr

namespace BlockMap

/-- The map after a request that got this reply. -/
def after (m : BlockMap) : StoreRequest → StoreReply → BlockMap
  | .writeBlock key block, .status (.ok _) => Function.update m key (some block)
  | .deleteBlock key, .status (.ok _) => Function.update m key none
  | _, _ => m

def acceptedWrite (m : BlockMap) : StoreRequest → StoreReply → Option AcceptedWrite
  | .writeBlock key block, .status (.ok _) => some ⟨key, block.length, (m key).isNone⟩
  | _, _ => none

/-- The writes that succeed in a run. -/
def acceptedWrites : BlockMap → List StoreRequest → List StoreReply → List AcceptedWrite
  | m, request :: requests, reply :: replies =>
    (m.acceptedWrite request reply).toList ++ acceptedWrites (m.after request reply) requests replies
  | _, [], _ => []
  | _, _ :: _, [] => []

/-- A reply that is right says what the map is afterwards. -/
theorem Replies.after_eq {m m' : BlockMap} {request : StoreRequest} {reply : StoreReply}
    (h : m.Replies request reply m') : m' = m.after request reply := by
  cases request with
  | writeBlock key block =>
    rw [h.2, h.1]
    rfl
  | readBlock key => exact h.1
  | deleteBlock key =>
    rw [Replies] at h
    split at h
    · rw [h.2, h.1]
      rfl
    · rw [h.2, h.1]
      rfl
  | blocksExist keys => exact h.1
  | traverse again => exact h.1

end BlockMap

/-- The statistics after one more write, if there was one. -/
def BlockStoreStats.record (stats : BlockStoreStats) (write : Option AcceptedWrite) :
    BlockStoreStats :=
  match write with
  | some write => chopBlockStoreStatsUpdate stats write.size write.virgin
  | none => stats

/-- The statistics say this of the writes. -/
structure BlockStoreStats.Summarizes (stats : BlockStoreStats) (writes : List AcceptedWrite) :
    Prop where
  blocksWritten : stats.blocksWritten = writes.length % 2 ^ 64
  bytesWritten : stats.bytesWritten = (writes.map AcceptedWrite.size).sum % 2 ^ 64
  virginBlocks : stats.virginBlocks = (writes.filter AcceptedWrite.virgin).length % 2 ^ 64
  virginBytes : stats.virginBytes =
    ((writes.filter AcceptedWrite.virgin).map AcceptedWrite.size).sum % 2 ^ 64
  minBlockSize : stats.minBlockSize = (writes.map AcceptedWrite.size).foldl min (2 ^ 64 - 1)
  maxBlockSize : stats.maxBlockSize = (writes.map AcceptedWrite.size).foldl max 0

section Counting

theorem chopBlockStoreStatsClear_summarizes : chopBlockStoreStatsClear.Summarizes [] :=
  ⟨rfl, rfl, rfl, rfl, rfl, rfl⟩

theorem BlockStoreStats.Summarizes.update {stats : BlockStoreStats} {writes : List AcceptedWrite}
    (h : stats.Summarizes writes) (write : AcceptedWrite) :
    (chopBlockStoreStatsUpdate stats write.size write.virgin).Summarizes (writes ++ [write]) where
  blocksWritten := by
    simp only [chopBlockStoreStatsUpdate, h.blocksWritten, List.length_append, List.length_singleton,
      Nat.mod_add_mod]
  bytesWritten := by
    simp only [chopBlockStoreStatsUpdate, h.bytesWritten, List.map_append, List.sum_append,
      List.map_singleton, List.sum_singleton, Nat.mod_add_mod]
  virginBlocks := by
    cases hvirgin : write.virgin with
    | false => simp [chopBlockStoreStatsUpdate, h.virginBlocks, List.filter_append, hvirgin]
    | true => simp [chopBlockStoreStatsUpdate, h.virginBlocks, List.filter_append, hvirgin]
  virginBytes := by
    cases hvirgin : write.virgin with
    | false => simp [chopBlockStoreStatsUpdate, h.virginBytes, List.filter_append, hvirgin]
    | true => simp [chopBlockStoreStatsUpdate, h.virginBytes, List.filter_append, hvirgin]
  minBlockSize := by
    simp only [chopBlockStoreStatsUpdate, h.minBlockSize, List.map_append, List.map_singleton,
      List.foldl_append, List.foldl_cons, List.foldl_nil]
    split <;> omega
  maxBlockSize := by
    simp only [chopBlockStoreStatsUpdate, h.maxBlockSize, List.map_append, List.map_singleton,
      List.foldl_append, List.foldl_cons, List.foldl_nil]
    split <;> omega

theorem BlockStoreStats.Summarizes.record {stats : BlockStoreStats} {writes : List AcceptedWrite}
    (h : stats.Summarizes writes) (write : Option AcceptedWrite) :
    (stats.record write).Summarizes (writes ++ write.toList) := by
  cases write with
  | none => rwa [Option.toList_none, List.append_nil]
  | some write => exact h.update write

end Counting

/-- What the reply of a finite map says of its contents afterwards. -/
theorem FiniteMap.after_eq {backend : BlockStoreObject ε It σ} {contents : σ → BlockMap}
    {same : List Bytes → List Bytes → Prop} (h : FiniteMap backend contents same) {s s' : σ}
    {op : ε × StoreRequest} {reply : StoreReply} (hdone : storeStep backend s op = .done (reply, s')) :
    contents s' = (contents s).after op.2 reply := by
  obtain ⟨env, request⟩ := op
  by_cases htraversal : request.isTraversal = true → backend.iteratorClass ≠ none
  · obtain ⟨reply₁, s₁, hdone₁, hreplies⟩ := h.replies env s request htraversal
    rw [hdone] at hdone₁
    cases hdone₁
    rcases hreplies with hreplies | ⟨key, block, err, rfl, rfl, hcontents⟩
    · exact hreplies.after_eq
    · exact hcontents
  · push Not at htraversal
    obtain ⟨hrequest, hclass⟩ := htraversal
    cases request with
    | traverse again =>
      simp only [storeStep, BlockStoreObject.chopStoreIteratorClass, hclass] at hdone
      cases hdone
      rfl
    | _ => cases hrequest

section Runs

variable {backend : BlockStoreObject ε It σ} {stat : BlockStoreObject ε It (σ × BlockStoreStats)}
  {stats₀ : BlockStoreStats} {contents : σ → BlockMap} {same : List Bytes → List Bytes → Prop}

private theorem storeStep_stat
    (hopen : chopStatBlockStoreOpen (some backend) (.ok ()) = .done (.ok (stat, stats₀)))
    (t : σ) (stats : BlockStoreStats) (env : ε) {request : StoreRequest}
    (hwrite : ∀ key block, request ≠ .writeBlock key block) {reply : StoreReply} {t' : σ}
    (hdone : storeStep backend t (env, request) = .done (reply, t')) :
    storeStep stat (t, stats) (env, request) = .done (reply, (t', stats)) := by
  cases hopen
  cases request with
  | writeBlock key block => exact absurd rfl (hwrite key block)
  | readBlock key =>
    obtain ⟨⟨result, t₁⟩, hread, heq⟩ := Outcome.bind_eq_done.mp hdone
    cases heq
    simp only [storeStep, BlockStoreObject.chopStoreReadBlock, StoreMethod.onBackend] at hread ⊢
    simp only [hread, Outcome.done_bind]
  | deleteBlock key =>
    obtain ⟨⟨err, t₁⟩, hdelete, heq⟩ := Outcome.bind_eq_done.mp hdone
    cases heq
    simp only [storeStep, BlockStoreObject.chopStoreDeleteBlock, StoreMethod.onBackend] at hdelete ⊢
    simp only [hdelete, Outcome.done_bind]
  | blocksExist keys =>
    obtain ⟨⟨⟨err, exist⟩, t₁⟩, hexist, heq⟩ := Outcome.bind_eq_done.mp hdone
    cases heq
    simp only [storeStep, BlockStoreObject.chopStoreBlocksExist, StoreMethod.onBackend] at hexist ⊢
    simp only [hexist, Outcome.done_bind]
  | traverse again =>
    simp only [storeStep, BlockStoreObject.chopStoreIteratorClass] at hdone ⊢
    cases hclass : backend.iteratorClass with
    | none =>
      simp only [hclass] at hdone
      cases hdone
      rfl
    | some iterators =>
      simp only [hclass] at hdone
      obtain ⟨⟨first, t₁⟩, hfirst, heq⟩ := Outcome.bind_eq_done.mp hdone
      cases heq
      simp only [BlockStoreObject.chopStoreFirstBlock, StoreMethod.onBackend, Option.map_some] at hfirst ⊢
      simp only [hfirst, Outcome.done_bind]
      rfl

private theorem storeStep_stat_write (h : FiniteMap backend contents same)
    (hopen : chopStatBlockStoreOpen (some backend) (.ok ()) = .done (.ok (stat, stats₀)))
    {s t : σ} (hsame : contents s = contents t) (stats : BlockStoreStats) (env : ε)
    (key block : Bytes) :
    ∃ err s' t', storeStep backend s (env, .writeBlock key block) = .done (.status err, s') ∧
      storeStep stat (t, stats) (env, .writeBlock key block) =
        .done (.status err, (t', stats.record
          ((contents s).acceptedWrite (.writeBlock key block) (.status err)))) ∧
      contents s' = contents t' ∧
      contents s' = (contents s).after (.writeBlock key block) (.status err) := by
  obtain ⟨err, s', hdirect, -, hcases⟩ := h.write env key block s
  obtain ⟨t₁, hexists, ht₁⟩ := h.blockExists env key t
  obtain ⟨err', t', hthrough, hwrite, hcases'⟩ := h.write env key block t₁
  have hreply : SameReply same (.status err) (.status err') :=
    h.determined env (.writeBlock key block) s t₁ _ _ s' t' (hsame.trans ht₁.symm) hdirect hthrough
  have herr : err = err' := StoreReply.status.inj hreply
  subst herr
  refine ⟨err, s', t', hdirect, ?_, ?_⟩
  · have hstep : storeStep stat (t, stats) (env, .writeBlock key block) =
        (chopStatBlockStoreWriteBlock backend key block env (t, stats) >>= fun (err, s) =>
          .done (.status err, s)) := by
      cases hopen
      rfl
    rw [hstep, chopStatBlockStoreWriteBlock, hexists, Outcome.done_bind]
    simp only [hwrite, Outcome.done_bind]
    cases err with
    | error err => rfl
    | ok _ =>
      have hvirgin : (contents s key).isNone = !(contents t key).isSome := by
        rw [hsame, Option.not_isSome]
      simp only [Outcome.done_bind, BlockMap.acceptedWrite, BlockStoreStats.record, hvirgin]
  · rcases hcases with ⟨hok, hs'⟩ | ⟨hfail, hs'⟩
    · rcases hcases' with ⟨-, ht'⟩ | ⟨hfail', -⟩
      · rw [hs', ht', ht₁, hsame, hok]
        exact ⟨rfl, rfl⟩
      · exact absurd hok hfail'
    · rcases hcases' with ⟨hok', -⟩ | ⟨-, ht'⟩
      · exact absurd hok' hfail
      · rw [hs', ht', ht₁, hsame]
        refine ⟨rfl, ?_⟩
        cases err with
        | error err => rfl
        | ok _ => exact absurd rfl hfail

private theorem storeStep_stat_notTraversed
    (hopen : chopStatBlockStoreOpen (some backend) (.ok ()) = .done (.ok (stat, stats₀)))
    (hclass : backend.iteratorClass = none) (s t : σ) (stats : BlockStoreStats) (env : ε)
    (again : Nat) :
    storeStep backend s (env, .traverse again) = .done (.status (.error .notImpl), s) ∧
      storeStep stat (t, stats) (env, .traverse again) =
        .done (.status (.error .notImpl), (t, stats)) := by
  cases hopen
  simp only [storeStep, BlockStoreObject.chopStoreIteratorClass, hclass, Option.map_none, and_self]

private theorem storeStep_stat_other (h : FiniteMap backend contents same)
    (hopen : chopStatBlockStoreOpen (some backend) (.ok ()) = .done (.ok (stat, stats₀)))
    {s t : σ} (hsame : contents s = contents t) (stats : BlockStoreStats) (env : ε)
    {request : StoreRequest} (hwrite : ∀ key block, request ≠ .writeBlock key block) :
    ∃ reply s' reply' t', storeStep backend s (env, request) = .done (reply, s') ∧
      storeStep stat (t, stats) (env, request) = .done (reply', (t', stats)) ∧
      SameReply same reply reply' ∧ contents s' = contents t' ∧
      contents s' = (contents s).after request reply := by
  by_cases htraversal : request.isTraversal = true → backend.iteratorClass ≠ none
  swap
  · push Not at htraversal
    obtain ⟨hrequest, hclass⟩ := htraversal
    cases request with
    | traverse again =>
      obtain ⟨hdirect, hthrough⟩ := storeStep_stat_notTraversed hopen hclass s t stats env again
      exact ⟨_, s, _, t, hdirect, hthrough, rfl, hsame, rfl⟩
    | _ => cases hrequest
  obtain ⟨⟨reply, s'⟩, ⟨reply', t'⟩, hdirect, hthrough, hcontents, hreply⟩ :=
    h.same_of_not_write env hsame htraversal hwrite
  exact ⟨reply, s', reply', t', hdirect, storeStep_stat hopen t stats env hwrite hthrough, hreply,
    hcontents, h.after_eq hdirect⟩

private theorem statStep_spec (h : FiniteMap backend contents same)
    (hopen : chopStatBlockStoreOpen (some backend) (.ok ()) = .done (.ok (stat, stats₀)))
    {s t : σ} (hsame : contents s = contents t) (stats : BlockStoreStats) (op : ε × StoreRequest) :
    ∃ reply s' reply' t', storeStep backend s op = .done (reply, s') ∧
      storeStep stat (t, stats) op =
        .done (reply', (t', stats.record ((contents s).acceptedWrite op.2 reply))) ∧
      SameReply same reply reply' ∧ contents s' = contents t' ∧
      contents s' = (contents s).after op.2 reply := by
  obtain ⟨env, request⟩ := op
  by_cases hwrite : ∃ key block, request = .writeBlock key block
  · obtain ⟨key, block, rfl⟩ := hwrite
    obtain ⟨err, s', t', hdirect, hthrough, hcontents, hafter⟩ :=
      storeStep_stat_write h hopen hsame stats env key block
    exact ⟨_, s', _, t', hdirect, hthrough, rfl, hcontents, hafter⟩
  · have hwrite : ∀ key block, request ≠ .writeBlock key block :=
      fun key block hrequest => hwrite ⟨key, block, hrequest⟩
    obtain ⟨reply, s', reply', t', hdirect, hthrough, hreply, hcontents, hafter⟩ :=
      storeStep_stat_other h hopen hsame stats env hwrite
    have hnone : (contents s).acceptedWrite request reply = none := by
      cases request with
      | writeBlock key block => exact absurd rfl (hwrite key block)
      | _ => rfl
    refine ⟨reply, s', reply', t', hdirect, ?_, hreply, hcontents, hafter⟩
    rw [hnone]
    exact hthrough

private theorem statRun_spec (h : FiniteMap backend contents same)
    (hopen : chopStatBlockStoreOpen (some backend) (.ok ()) = .done (.ok (stat, stats₀)))
    (ops : List (ε × StoreRequest)) {s t : σ} (hsame : contents s = contents t) {stats : BlockStoreStats}
    {writes : List AcceptedWrite} (hstats : stats.Summarizes writes) :
    ∃ replies s' replies' t' stats', Refinement.run (storeStep backend) s ops = .done (replies, s') ∧
      Refinement.run (storeStep stat) (t, stats) ops = .done (replies', (t', stats')) ∧
      List.Forall₂ (SameReply same) replies replies' ∧ contents s' = contents t' ∧
      stats'.Summarizes (writes ++ (contents s).acceptedWrites (ops.map Prod.snd) replies) := by
  induction ops generalizing s t stats writes with
  | nil =>
    refine ⟨[], s, [], t, stats, rfl, rfl, .nil, hsame, ?_⟩
    rwa [List.map_nil, BlockMap.acceptedWrites, List.append_nil]
  | cons op ops ih =>
    obtain ⟨reply, s₁, reply', t₁, hdirect, hthrough, hreply, hsame₁, hafter⟩ :=
      statStep_spec h hopen hsame stats op
    obtain ⟨replies, s', replies', t', stats', hrun, hrun', hreplies, hcontents, hstats'⟩ :=
      ih hsame₁ (hstats.record ((contents s).acceptedWrite op.2 reply))
    refine ⟨reply :: replies, s', reply' :: replies', t', stats',
      Refinement.run_cons hdirect hrun, Refinement.run_cons hthrough hrun', .cons hreply hreplies,
      hcontents, ?_⟩
    rwa [List.append_assoc, hafter] at hstats'

/-- In every run, the proxy replies like its backend and leaves the same contents, and its statistics
are those of the writes that succeeded. -/
theorem statStore_counts_writes (h : FiniteMap backend contents same)
    (hopen : chopStatBlockStoreOpen (some backend) (.ok ()) = .done (.ok (stat, stats₀))) (s : σ)
    (ops : List (ε × StoreRequest)) :
    ∃ replies s' replies' t' stats, Refinement.run (storeStep backend) s ops = .done (replies, s') ∧
      Refinement.run (storeStep stat) (s, stats₀) ops = .done (replies', (t', stats)) ∧
      List.Forall₂ (SameReply same) replies replies' ∧ contents s' = contents t' ∧
      stats.Summarizes ((contents s).acceptedWrites (ops.map Prod.snd) replies) := by
  have hstats : stats₀.Summarizes [] := by
    cases hopen
    exact chopBlockStoreStatsClear_summarizes
  exact statRun_spec h hopen ops rfl hstats

end Runs

section Virgin

/-- The virgin writes, one for each key that was bound since, with the size of what is there now. -/
structure NewBlocks (m₀ m : BlockMap) (writes : List AcceptedWrite) : Prop where
  nodup : ((writes.filter AcceptedWrite.virgin).map AcceptedWrite.key).Nodup
  bound : ∀ key, (m key).isSome ↔
    (m₀ key).isSome ∨ key ∈ (writes.filter AcceptedWrite.virgin).map AcceptedWrite.key
  fresh : ∀ write ∈ writes.filter AcceptedWrite.virgin, m₀ write.key = none
  size : ∀ write ∈ writes.filter AcceptedWrite.virgin,
    ((m write.key).getD []).length = write.size

theorem NewBlocks.refl (m : BlockMap) : NewBlocks m m [] := by
  constructor <;> simp

private theorem NewBlocks.virgin {m₀ m : BlockMap} {writes : List AcceptedWrite}
    (h : NewBlocks m₀ m writes) {key block : Bytes} (hkey : m key = none) :
    NewBlocks m₀ (Function.update m key (some block)) (writes ++ [⟨key, block.length, true⟩]) := by
  have hnew : ¬ ((m₀ key).isSome ∨
      key ∈ (writes.filter AcceptedWrite.virgin).map AcceptedWrite.key) := by
    rw [← h.bound key, hkey]
    decide
  push Not at hnew
  obtain ⟨hfresh, hnotin⟩ := hnew
  have hfilter : (writes ++ [AcceptedWrite.mk key block.length true]).filter AcceptedWrite.virgin =
      writes.filter AcceptedWrite.virgin ++ [AcceptedWrite.mk key block.length true] := by
    rw [List.filter_append]
    rfl
  constructor
  · rw [hfilter, List.map_append, List.map_singleton]
    exact h.nodup.append (List.nodup_singleton _) (by simpa using hnotin)
  · intro other
    rw [hfilter, List.map_append, List.map_singleton, List.mem_append, List.mem_singleton]
    by_cases hother : other = key
    · rw [hother, Function.update_self]
      simp
    · rw [Function.update_of_ne hother, h.bound other]
      simp [hother]
  · intro write hwrite
    rw [hfilter, List.mem_append, List.mem_singleton] at hwrite
    rcases hwrite with hwrite | rfl
    · exact h.fresh write hwrite
    · exact Option.not_isSome_iff_eq_none.mp hfresh
  · intro write hwrite
    rw [hfilter, List.mem_append, List.mem_singleton] at hwrite
    rcases hwrite with hwrite | rfl
    · have hne : write.key ≠ key := by
        rintro rfl
        exact hnotin (List.mem_map_of_mem hwrite)
      rw [Function.update_of_ne hne]
      exact h.size write hwrite
    · rw [Function.update_self, Option.getD_some]

private theorem NewBlocks.again {m₀ m : BlockMap} {writes : List AcceptedWrite}
    (h : NewBlocks m₀ m writes) {key block : Bytes} (hkey : m key = some block) :
    NewBlocks m₀ (Function.update m key (some block)) (writes ++ [⟨key, block.length, false⟩]) := by
  have hfilter : (writes ++ [AcceptedWrite.mk key block.length false]).filter AcceptedWrite.virgin =
      writes.filter AcceptedWrite.virgin := by
    rw [List.filter_append]
    exact List.append_nil _
  rw [← hkey, Function.update_eq_self]
  constructor <;> rw [hfilter]
  · exact h.nodup
  · exact h.bound
  · exact h.fresh
  · exact h.size

private theorem after_cases (m : BlockMap) {request : StoreRequest} (reply : StoreReply)
    (hdelete : ∀ key, request ≠ .deleteBlock key) :
    (m.after request reply = m ∧ m.acceptedWrite request reply = none) ∨
      ∃ key block, request = .writeBlock key block ∧
        m.after request reply = Function.update m key (some block) ∧
        m.acceptedWrite request reply = some ⟨key, block.length, (m key).isNone⟩ := by
  cases request with
  | writeBlock key block =>
    cases reply with
    | status err =>
      cases err with
      | error err => exact .inl ⟨rfl, rfl⟩
      | ok _ => exact .inr ⟨key, block, rfl, rfl, rfl⟩
    | block err buffer size => exact .inl ⟨rfl, rfl⟩
    | flags err exist => exact .inl ⟨rfl, rfl⟩
    | traversal keys ends => exact .inl ⟨rfl, rfl⟩
  | deleteBlock key => exact absurd rfl (hdelete key)
  | readBlock key => exact .inl ⟨rfl, rfl⟩
  | blocksExist keys => exact .inl ⟨rfl, rfl⟩
  | traverse again => exact .inl ⟨rfl, rfl⟩

private theorem NewBlocks.step {m₀ m : BlockMap} {writes : List AcceptedWrite}
    (h : NewBlocks m₀ m writes) {request : StoreRequest} (reply : StoreReply)
    (hdelete : ∀ key, request ≠ .deleteBlock key)
    (hcarries : ∀ key block, request = .writeBlock key block → ∀ stored, m key = some stored →
      stored = block) :
    NewBlocks m₀ (m.after request reply) (writes ++ (m.acceptedWrite request reply).toList) := by
  rcases after_cases m reply hdelete with ⟨hafter, haccepted⟩ | ⟨key, block, rfl, hafter, haccepted⟩
  · rwa [hafter, haccepted, Option.toList_none, List.append_nil]
  · rw [hafter, haccepted, Option.toList_some]
    cases hkey : m key with
    | none => exact h.virgin hkey
    | some stored =>
      rw [hcarries key block rfl stored hkey] at hkey
      exact h.again hkey

variable {backend : BlockStoreObject ε It σ} {stat : BlockStoreObject ε It (σ × BlockStoreStats)}
  {stats₀ : BlockStoreStats} {contents : σ → BlockMap} {same : List Bytes → List Bytes → Prop}

private theorem newBlocks_run (h : FiniteMap backend contents same) {m₀ : BlockMap} {s s' : σ}
    {ops : List (ε × StoreRequest)} (hdelete : ∀ op ∈ ops, ∀ key, op.2 ≠ .deleteBlock key)
    (hops : Refinement.Admissible (storeStep backend) (CarriesStored contents) s ops)
    {writes : List AcceptedWrite} (hs : NewBlocks m₀ (contents s) writes) {replies : List StoreReply}
    (hrun : Refinement.run (storeStep backend) s ops = .done (replies, s')) :
    NewBlocks m₀ (contents s')
      (writes ++ (contents s).acceptedWrites (ops.map Prod.snd) replies) := by
  induction ops generalizing s writes replies with
  | nil =>
    cases hrun
    rwa [List.map_nil, BlockMap.acceptedWrites, List.append_nil]
  | cons op ops ih =>
    obtain ⟨hop, hdelete⟩ := List.forall_mem_cons.mp hdelete
    obtain ⟨hcarries, hrest⟩ := hops
    obtain ⟨⟨reply, s₁⟩, hreply, hrun⟩ := Outcome.bind_eq_done.mp hrun
    obtain ⟨⟨replies, s₂⟩, hreplies, hrun⟩ := Outcome.bind_eq_done.mp hrun
    cases hrun
    have hstep := hs.step reply hop hcarries
    rw [← h.after_eq hreply] at hstep
    have hrun := ih hdelete (hrest reply s₁ hreply) hstep hreplies
    rwa [List.append_assoc, h.after_eq hreply] at hrun

/-- In a run without deletions on an empty store whose writes to present keys carry what is stored, the
virgin blocks are the blocks that the store ends with, and the virgin bytes are its size. -/
theorem statStore_measures_store (h : FiniteMap backend contents same)
    (hopen : chopStatBlockStoreOpen (some backend) (.ok ()) = .done (.ok (stat, stats₀))) {s : σ}
    (hempty : ∀ key, contents s key = none) {ops : List (ε × StoreRequest)}
    (hdelete : ∀ op ∈ ops, ∀ key, op.2 ≠ .deleteBlock key)
    (hops : Refinement.Admissible (storeStep backend) (CarriesStored contents) s ops) :
    ∃ replies t stats, Refinement.run (storeStep stat) (s, stats₀) ops = .done (replies, (t, stats)) ∧
      ∃ keys : List Bytes, keys.Nodup ∧ (∀ key, key ∈ keys ↔ (contents t key).isSome) ∧
        stats.virginBlocks = keys.length % 2 ^ 64 ∧
        stats.virginBytes = (keys.map fun key => ((contents t key).getD []).length).sum % 2 ^ 64 := by
  have hclear : stats₀.Summarizes [] := by
    cases hopen
    exact chopBlockStoreStatsClear_summarizes
  obtain ⟨replies, s', replies', t, stats, hrun, hrun', -, hcontents, hstats⟩ :=
    statRun_spec h hopen ops (Eq.refl (contents s)) hclear
  have hnew := newBlocks_run h hdelete hops (NewBlocks.refl _) hrun
  rw [hcontents] at hnew
  rw [List.nil_append] at hstats hnew
  refine ⟨replies', t, stats, hrun', _, hnew.nodup, ?_, ?_, ?_⟩
  · intro key
    rw [hnew.bound key, hempty key]
    simp
  · rw [List.length_map]
    exact hstats.virginBlocks
  · rw [List.map_map, hstats.virginBytes]
    refine congrArg (fun sizes => List.sum sizes % 2 ^ 64) ?_
    apply List.map_congr_left
    intro write hwrite
    exact (hnew.size write hwrite).symm

end Virgin

section Sample

/-- Two blocks are written, one of them twice, and a write fails. -/
def sampleStatRequests : List (Bool × StoreRequest) :=
  [(false, .writeBlock [1] [2, 3]), (true, .writeBlock [4] [5]), (false, .writeBlock [1] [2, 3]),
    (false, .writeBlock [6] [7]), (false, .traverse 0)]

theorem sampleStatRequests_counted :
    ∃ stat stats₀, chopStatBlockStoreOpen (some (listStore true)) (.ok ()) =
        .done (.ok (stat, stats₀)) ∧
      ∃ replies s' replies' t' stats,
        Refinement.run (storeStep (listStore true)) ∅ sampleStatRequests = .done (replies, s') ∧
        Refinement.run (storeStep stat) (∅, stats₀) sampleStatRequests = .done (replies', (t', stats)) ∧
        List.Forall₂ (SameReply List.Perm) replies replies' ∧ s'.contents = t'.contents ∧
        stats.Summarizes ((BlockList.contents ∅).acceptedWrites (sampleStatRequests.map Prod.snd)
          replies) :=
  ⟨_, _, rfl, statStore_counts_writes (listStore_finiteMap true) rfl ∅ sampleStatRequests⟩

theorem sampleStatRequests_measured :
    ∃ stat stats₀, chopStatBlockStoreOpen (some (listStore true)) (.ok ()) =
        .done (.ok (stat, stats₀)) ∧
      ∃ replies t stats,
        Refinement.run (storeStep stat) (∅, stats₀) sampleStatRequests = .done (replies, (t, stats)) ∧
        ∃ keys : List Bytes, keys.Nodup ∧ (∀ key, key ∈ keys ↔ (BlockList.contents t key).isSome) ∧
          stats.virginBlocks = keys.length % 2 ^ 64 ∧
          stats.virginBytes =
            (keys.map fun key => ((BlockList.contents t key).getD []).length).sum % 2 ^ 64 := by
  refine ⟨_, _, rfl, statStore_measures_store (listStore_finiteMap true) rfl (fun _ => rfl) ?_ ?_⟩
  · simp [sampleStatRequests]
  · decide

end Sample

end Libchop
