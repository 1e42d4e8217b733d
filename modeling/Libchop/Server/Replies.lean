import Libchop.Server.BlockServer
import Mathlib.Data.List.TakeDrop

/-!
# Replies of the block server

A reply should only depend on the request and on what the local store says to it.  The handlers
keep lengths from earlier replies, so this is so only under a condition on the static variables.
-/

namespace Libchop

section Replies

variable {σ : Type} (methods : StoreMethods σ)

/-- The flags sent for an answer of the local store; there are none if it failed. -/
def flagsToSend : Except ChopError (List Bool) → List Bool
  | .ok flags => flags
  | .error _ => []

/-- The reply is a function of the request and of the answer of the local store, and the client
succeeds only with that answer. -/
def FaithfulReply (server : BlockServer σ) (call : RpcCall) (answer : RpcReply × ClientResult) :
    Prop :=
  match call.request with
  | .blocksExist keys =>
    answer.1 = .booleans (flagsToSend (queryLocalStore methods keys server.store).1) ∧
      ∀ flags, answer.2 = .flags (.ok flags) →
        (queryLocalStore methods keys server.store).1 = .ok flags
  | .readBlock key =>
    (answer.1 =
      match (methods.readBlock key server.store).1 with
      | .ok contents => .block (.ok ()) contents
      | .error err => .block (.error err) []) ∧
      ∀ contents, answer.2 = .block (.ok contents) →
        (methods.readBlock key server.store).1 = .ok contents
  | _ => True

private theorem length_of_query {keys : List Bytes} {store : σ} {flags : List Bool}
    (h : (queryLocalStore methods keys store).1 = .ok flags) : flags.length = keys.length := by
  rw [queryLocalStore] at h
  split at h
  · cases hanswer : (methods.blocksExist keys store).1 with
    | error err =>
      rw [hanswer] at h
      cases h
    | ok exist =>
      rw [hanswer] at h
      cases h
      exact List.length_ofFn
  · cases h

variable (hash : HashFunctions) (config : ServerConfig)

/-- The local store fails only while no flags were sent before, for a list of keys that is not
empty if the client gets the reply; a block that is read has a length that fits in 32 bits, and if it is
empty, the last read has left no length; and libgcrypt can check the key of a write. -/
def ServerAdmits (server : BlockServer σ) (call : RpcCall) : Prop :=
  match call.request with
  | .blocksExist keys =>
    (∃ flags, (queryLocalStore methods keys server.store).1 = .ok flags) ∨
      (server.statics.booleansLen = 0 ∧ (keys = [] → call.answered = false))
  | .readBlock key =>
    ∀ contents, (methods.readBlock key server.store).1 = .ok contents →
      contents.length < 2 ^ 32 ∧ (contents = [] → server.statics.contentLen = 0)
  | .writeBlock key block => (isValidHashKey hash key block config.contentHashEnforced).Returns
  | _ => True

private theorem serveCall_blocksExist (server : BlockServer σ) (keys : List Bytes) (answered : Bool) :
    serveCall methods hash config server ⟨.blocksExist keys, answered⟩ =
      .done ((.booleans (handleBlocksExist methods keys server).1,
          .flags (chopSunrpcBlocksExist keys
            (if answered then some (handleBlocksExist methods keys server).1 else none))),
        (handleBlocksExist methods keys server).2) := rfl

private theorem handleBlocksExist_ok {server : BlockServer σ} {keys : List Bytes}
    {flags : List Bool} (h : (queryLocalStore methods keys server.store).1 = .ok flags) :
    (handleBlocksExist methods keys server).1 = flags := by
  show List.take
    (server.statics.afterQuery keys (queryLocalStore methods keys server.store).1).booleansLen
    (server.statics.afterQuery keys (queryLocalStore methods keys server.store).1).existsFlags = flags
  rw [h, ServerStatics.afterQuery, ← length_of_query methods h, List.take_left]

private theorem handleBlocksExist_error {server : BlockServer σ} {keys : List Bytes}
    {err : ChopError} (h : (queryLocalStore methods keys server.store).1 = .error err) :
    (handleBlocksExist methods keys server).1 =
      (List.replicate existsSize false).take server.statics.booleansLen := by
  -- After a failed query there are as many flags as the last time.
  show List.take
    (server.statics.afterQuery keys (queryLocalStore methods keys server.store).1).booleansLen
    (server.statics.afterQuery keys (queryLocalStore methods keys server.store).1).existsFlags = _
  rw [h, ServerStatics.afterQuery]

private theorem ok_of_chopSunrpcBlocksExist {keys : List Bytes} {sent flags : List Bool}
    {answered : Bool}
    (h : chopSunrpcBlocksExist keys (if answered then some sent else none) = .ok flags) :
    answered = true ∧ sent.length = keys.length ∧ sent = flags := by
  cases answered with
  | false => cases h
  | true =>
    rw [if_pos rfl, chopSunrpcBlocksExist] at h
    split at h
    · cases h
    · next hlength =>
      cases h
      exact ⟨rfl, not_not.mp hlength, rfl⟩

private theorem blocksExist_faithful_ok {server : BlockServer σ} {keys : List Bytes}
    {flags : List Bool} (h : (queryLocalStore methods keys server.store).1 = .ok flags)
    (answered : Bool) :
    ∃ answer server', serveCall methods hash config server ⟨.blocksExist keys, answered⟩ =
        .done (answer, server') ∧
      FaithfulReply methods server ⟨.blocksExist keys, answered⟩ answer := by
  refine ⟨_, _, serveCall_blocksExist methods hash config server keys answered, ?_, ?_⟩
  · rw [handleBlocksExist_ok methods h, h]
    rfl
  · intro flags' hclient
    rw [handleBlocksExist_ok methods h] at hclient
    obtain ⟨-, -, hflags⟩ := ok_of_chopSunrpcBlocksExist (ClientResult.flags.inj hclient)
    rw [h, hflags]

private theorem blocksExist_faithful_error {server : BlockServer σ} {keys : List Bytes}
    {err : ChopError} (h : (queryLocalStore methods keys server.store).1 = .error err)
    (answered : Bool) :
    (∃ answer server', serveCall methods hash config server ⟨.blocksExist keys, answered⟩ =
        .done (answer, server') ∧
      FaithfulReply methods server ⟨.blocksExist keys, answered⟩ answer) ↔
      server.statics.booleansLen = 0 ∧ (keys = [] → answered = false) := by
  -- A failed query is answered faithfully if it sends no flags, to a client that expects some.
  have hsent := handleBlocksExist_error methods h
  constructor
  · intro ⟨answer, server', hcall, hfaithful⟩
    rw [serveCall_blocksExist] at hcall
    cases hcall
    obtain ⟨hreply, hclient⟩ := hfaithful
    rw [h] at hreply
    have hnone : (handleBlocksExist methods keys server).1 = [] := RpcReply.booleans.inj hreply
    constructor
    · rw [hsent, List.take_replicate, List.replicate_eq_nil_iff] at hnone
      have hsize : 0 < existsSize := by decide
      omega
    · intro hkeys
      subst hkeys
      cases answered with
      | false => rfl
      | true =>
        have hok := hclient [] (by rw [if_pos rfl, hnone]; rfl)
        rw [h] at hok
        cases hok
  · intro ⟨hlen, hkeys⟩
    rw [hlen, List.take_zero] at hsent
    refine ⟨_, _, serveCall_blocksExist methods hash config server keys answered, ?_, ?_⟩
    · rw [hsent, h]
      rfl
    · intro flags hclient
      rw [hsent] at hclient
      obtain ⟨hanswered, hlength, -⟩ :=
        ok_of_chopSunrpcBlocksExist (ClientResult.flags.inj hclient)
      have hnil : keys = [] := List.eq_nil_of_length_eq_zero hlength.symm
      rw [hkeys hnil] at hanswered
      cases hanswered

private theorem blocksExist_faithful_iff (server : BlockServer σ) (keys : List Bytes)
    (answered : Bool) :
    (∃ answer server', serveCall methods hash config server ⟨.blocksExist keys, answered⟩ =
        .done (answer, server') ∧
      FaithfulReply methods server ⟨.blocksExist keys, answered⟩ answer) ↔
      ServerAdmits methods hash config server ⟨.blocksExist keys, answered⟩ := by
  cases hquery : (queryLocalStore methods keys server.store).1 with
  | ok flags =>
    constructor
    · intro _
      exact .inl ⟨flags, hquery⟩
    · intro _
      exact blocksExist_faithful_ok methods hash config hquery answered
  | error err =>
    rw [blocksExist_faithful_error methods hash config hquery]
    simp [ServerAdmits, hquery]

private theorem serveCall_readBlock {server server' : BlockServer σ} {key : Bytes} {status : Status}
    {contents : Bytes} (answered : Bool)
    (h : handleReadBlock methods key server = .done ((status, contents), server')) :
    serveCall methods hash config server ⟨.readBlock key, answered⟩ =
      .done ((.block status contents,
          .block (chopSunrpcReadBlock (if answered then some (status, contents) else none))),
        server') := by
  simp only [serveCall, handleRequest, h, Outcome.done_bind]
  rfl

private theorem ok_of_chopSunrpcReadBlock {status : Status} {sent contents : Bytes} {answered : Bool}
    (h : chopSunrpcReadBlock (if answered then some (status, sent) else none) = .ok contents) :
    status = .ok () ∧ sent = contents := by
  cases answered with
  | false => cases h
  | true =>
    cases status with
    | error err => cases h
    | ok _ =>
      cases h
      exact ⟨rfl, rfl⟩

private theorem take_mod_eq_iff (block : Bytes) :
    block.take (block.length % 2 ^ 32) = block ↔ block.length < 2 ^ 32 := by
  rw [List.take_eq_self_iff]
  constructor
  · intro hle
    exact Nat.lt_of_le_of_lt hle (Nat.mod_lt _ (Nat.two_pow_pos 32))
  · intro hlt
    exact Nat.le_of_eq (Nat.mod_eq_of_lt hlt).symm

private theorem readBlock_faithful_sent {server server' : BlockServer σ} {key contents sent : Bytes}
    {store : σ} (hread : methods.readBlock key server.store = (.ok contents, store))
    (h : handleReadBlock methods key server = .done ((.ok (), sent), server')) (answered : Bool) :
    (∃ answer server', serveCall methods hash config server ⟨.readBlock key, answered⟩ =
        .done (answer, server') ∧
      FaithfulReply methods server ⟨.readBlock key, answered⟩ answer) ↔ sent = contents := by
  constructor
  · rintro ⟨answer, server', hcall, hreply, -⟩
    rw [serveCall_readBlock methods hash config answered h] at hcall
    cases hcall
    rw [hread] at hreply
    injection hreply
  · rintro rfl
    refine ⟨_, _, serveCall_readBlock methods hash config answered h, ?_, ?_⟩
    · rw [hread]
    · intro contents' hclient
      rw [hread, (ok_of_chopSunrpcReadBlock (ClientResult.block.inj hclient)).2]

private theorem readBlock_faithful_empty {server : BlockServer σ} {key : Bytes} {store : σ}
    (hread : methods.readBlock key server.store = (.ok [], store)) (answered : Bool) :
    (∃ answer server', serveCall methods hash config server ⟨.readBlock key, answered⟩ =
        .done (answer, server') ∧
      FaithfulReply methods server ⟨.readBlock key, answered⟩ answer) ↔
      server.statics.contentLen = 0 := by
  -- An empty block is sent with the length that is left from the last reply.
  have hhandle : handleReadBlock methods key server =
      if server.statics.contentLen = 0 then .done ((.ok (), []), { server with store })
      else .abort := by
    rw [handleReadBlock, hread]
    rfl
  constructor
  · intro ⟨answer, server', hcall, _⟩
    by_contra hlen
    rw [if_neg hlen] at hhandle
    simp only [serveCall, handleRequest, hhandle, Outcome.abort_bind] at hcall
    cases hcall
  · intro hlen
    rw [if_pos hlen] at hhandle
    exact (readBlock_faithful_sent methods hash config hread hhandle answered).mpr rfl

private theorem readBlock_faithful_error {server : BlockServer σ} {key : Bytes} {err : ChopError}
    {store : σ} (hread : methods.readBlock key server.store = (.error err, store))
    (answered : Bool) :
    ∃ answer server', serveCall methods hash config server ⟨.readBlock key, answered⟩ =
        .done (answer, server') ∧
      FaithfulReply methods server ⟨.readBlock key, answered⟩ answer := by
  have hhandle : handleReadBlock methods key server =
      .done ((.error err, []), ⟨{ server.statics with contentLen := 0 }, store⟩) := by
    rw [handleReadBlock, hread]
  refine ⟨_, _, serveCall_readBlock methods hash config answered hhandle, ?_, ?_⟩
  · rw [hread]
  · intro contents hclient
    cases (ok_of_chopSunrpcReadBlock (ClientResult.block.inj hclient)).1

private theorem readBlock_faithful_iff (server : BlockServer σ) (key : Bytes) (answered : Bool) :
    (∃ answer server', serveCall methods hash config server ⟨.readBlock key, answered⟩ =
        .done (answer, server') ∧ FaithfulReply methods server ⟨.readBlock key, answered⟩ answer) ↔
      ServerAdmits methods hash config server ⟨.readBlock key, answered⟩ := by
  rcases hread : methods.readBlock key server.store with ⟨result, store⟩
  cases result with
  | error err =>
    have hfaithful := readBlock_faithful_error methods hash config hread answered
    simp only [hfaithful, ServerAdmits, hread, reduceCtorEq, false_implies, implies_true]
  | ok contents =>
    cases contents with
    | nil =>
      rw [readBlock_faithful_empty methods hash config hread]
      simp [ServerAdmits, hread]
    | cons b contents =>
      have hhandle : handleReadBlock methods key server =
          .done ((.ok (), (b :: contents).take ((b :: contents).length % 2 ^ 32)),
            ⟨{ server.statics with contentLen := (b :: contents).length % 2 ^ 32 }, store⟩) := by
        rw [handleReadBlock, hread]
        exact if_pos (Nat.succ_pos _)
      rw [readBlock_faithful_sent methods hash config hread hhandle answered, take_mod_eq_iff]
      simp only [ServerAdmits, hread, Except.ok.injEq, forall_eq', reduceCtorEq, false_implies, and_true]

private theorem handleWriteBlock_returns {key block : Bytes} {valid : Bool}
    (hvalid : isValidHashKey hash key block config.contentHashEnforced = .done valid)
    (server : BlockServer σ) : (handleWriteBlock methods hash config key block server).Returns := by
  rw [handleWriteBlock, hvalid, Outcome.done_bind]
  split
  · exact ⟨_, rfl⟩
  · split
    · exact ⟨_, rfl⟩
    · split
      · exact ⟨_, rfl⟩
      · split
        · exact ⟨_, rfl⟩
        · exact ⟨_, rfl⟩

private theorem writeBlock_returns_iff (server : BlockServer σ) (key block : Bytes)
    (answered : Bool) :
    (∃ answer server', serveCall methods hash config server ⟨.writeBlock key block, answered⟩ =
        .done (answer, server') ∧
        FaithfulReply methods server ⟨.writeBlock key block, answered⟩ answer) ↔
      ServerAdmits methods hash config server ⟨.writeBlock key block, answered⟩ := by
  constructor
  · rintro ⟨answer, server', hcall, -⟩
    obtain ⟨_, hrequest, -⟩ := Outcome.bind_eq_done.mp hcall
    obtain ⟨_, hwrite, -⟩ := Outcome.bind_eq_done.mp hrequest
    obtain ⟨valid, hvalid, -⟩ := Outcome.bind_eq_done.mp hwrite
    exact ⟨valid, hvalid⟩
  · rintro ⟨valid, hvalid⟩
    obtain ⟨⟨result, server'⟩, hwrite⟩ := handleWriteBlock_returns methods hash config hvalid server
    refine ⟨(.int result, clientResult ⟨.writeBlock key block, answered⟩ (.int result)), server', ?_,
      trivial⟩
    simp only [serveCall, handleRequest, hwrite, Outcome.done_bind]

private theorem serveCall_faithful_iff (server : BlockServer σ) (call : RpcCall) :
    (∃ answer server', serveCall methods hash config server call = .done (answer, server') ∧
        FaithfulReply methods server call answer) ↔ ServerAdmits methods hash config server call := by
  obtain ⟨request, answered⟩ := call
  cases request with
  | sayHello => exact ⟨fun _ => trivial, fun _ => ⟨_, _, rfl, trivial⟩⟩
  | blocksExist keys => exact blocksExist_faithful_iff methods hash config server keys answered
  | writeBlock key block => exact writeBlock_returns_iff methods hash config server key block answered
  | readBlock key => exact readBlock_faithful_iff methods hash config server key answered
  | sync => exact ⟨fun _ => trivial, fun _ => ⟨_, _, rfl, trivial⟩⟩
  | close => exact ⟨fun _ => trivial, fun _ => ⟨_, _, rfl, trivial⟩⟩

/-- All replies of a run are functions of their requests and of the local store if and only if each
call meets the condition on the static variables. -/
theorem blockServer_replies_faithful (store : σ) (calls : List RpcCall) :
    Refinement.Satisfies (serveCall methods hash config) (FaithfulReply methods)
        (.started store) calls ↔
      Refinement.Admissible (serveCall methods hash config) (ServerAdmits methods hash config)
        (.started store) calls :=
  Refinement.satisfies_iff_admissible (serveCall_faithful_iff methods hash config)

end Replies

/-- A block whose length does not fit in the reply. -/
def longBlock : Bytes := List.replicate (2 ^ 32) 0

/-- Flags that are left from an earlier reply make a failed query succeed, the length that is left from an
earlier block crashes the server on an empty one, and only the beginning of a long block is sent. -/
theorem stale_replies :
    (¬ Refinement.Satisfies (serveCall shortKeyStore sampleHash ⟨.none, false⟩)
      (FaithfulReply shortKeyStore) (.started ∅)
      [⟨.blocksExist [[1]], true⟩, ⟨.blocksExist [List.replicate 161 1], true⟩]) ∧
    (¬ Refinement.Satisfies (serveCall shortKeyStore sampleHash ⟨.none, false⟩)
      (FaithfulReply shortKeyStore) (.started ∅)
      [⟨.writeBlock [1] [9], true⟩, ⟨.writeBlock [2] [], true⟩, ⟨.readBlock [1], true⟩,
        ⟨.readBlock [2], true⟩]) ∧
    ¬ Refinement.Satisfies (serveCall shortKeyStore sampleHash ⟨.none, false⟩)
      (FaithfulReply shortKeyStore) (.started (AList.insert [1] longBlock ∅))
      [⟨.readBlock [1], true⟩] := by
  refine ⟨?_, ?_, ?_⟩
  · rintro ⟨answer, server, hcall, -, answer', server', hcall', hfaithful, -⟩
    have hserver : server = (handleBlocksExist shortKeyStore [[1]] (.started ∅)).2 :=
      (congrArg Prod.snd (Outcome.done.inj hcall)).symm
    have hlen : server.statics.booleansLen = 1 := by
      rw [hserver]
      rfl
    have hquery : (queryLocalStore shortKeyStore [List.replicate 161 1] server.store).1 =
        .error (.code 36) := by
      have hlong : ([List.replicate 161 1].all fun key : Bytes => key.length ≤ 160) = false := by
        rw [List.all_cons, List.all_nil, Bool.and_true, List.length_replicate]
        decide
      rw [queryLocalStore, if_pos (by decide)]
      simp only [shortKeyStore, hlong, Bool.false_eq_true, if_false, Except.map]
    rw [serveCall_blocksExist] at hcall'
    cases hcall'
    have hflags := RpcReply.booleans.inj hfaithful.1
    rw [handleBlocksExist_error shortKeyStore hquery, hquery, List.take_replicate, hlen, flagsToSend,
      List.replicate_eq_nil_iff] at hflags
    exact absurd hflags (by decide)
  · rintro ⟨_, _, h₁, -, _, _, h₂, -, _, _, h₃, -, _, _, h₄, -⟩
    cases h₁
    cases h₂
    cases h₃
    cases h₄
  · rintro ⟨answer, server, hcall, hfaithful, -⟩
    have hadmits := (serveCall_faithful_iff shortKeyStore sampleHash ⟨.none, false⟩
      (.started (AList.insert [1] longBlock ∅)) ⟨.readBlock [1], true⟩).mp ⟨answer, server, hcall, hfaithful⟩
    have hread : (shortKeyStore.readBlock [1] (AList.insert [1] longBlock ∅)).1 = .ok longBlock := by
      simp only [shortKeyStore, AList.lookup_insert]
    have hlength : longBlock.length = 2 ^ 32 := List.length_replicate
    have hlt := (hadmits longBlock hread).1
    rw [hlength] at hlt
    exact Nat.lt_irrefl _ hlt

end Libchop
