import Libchop.Server.BlockServer

/-!
# Write-once semantics of the block server

With collision checks, a key keeps its contents from the moment it is bound, whatever clients
request and whichever writes to the local store fail.
-/

namespace Libchop

theorem chopHashBuffer_of_isValidHashKey {hash : HashFunctions} {key block : Bytes}
    {method : HashMethod} (h : isValidHashKey hash key block method = .done true)
    (hmethod : method ≠ .none) : chopHashBuffer hash method block = .done key := by
  rw [isValidHashKey, if_neg hmethod] at h
  split at h
  · cases h
  · next hsize =>
    have hsize : chopHashSize method = key.length := Decidable.not_not.mp hsize
    obtain ⟨digest, hdigest, hkey⟩ := Outcome.bind_eq_done.mp h
    rw [hsize, List.take_length] at hkey
    rw [hdigest, of_decide_eq_true (Outcome.done.inj hkey)]

section Steps

variable {σ : Type} {methods : StoreMethods σ} {contents : σ → BlockMap}
  (hstore : MapStore methods contents) (hash : HashFunctions) {config : ServerConfig}

include hstore

private theorem writeToLocalStore_cases (key block : Bytes) (server : BlockServer σ) :
    (∃ server', writeToLocalStore methods key block server = (0, server') ∧
      contents server'.store = Function.update (contents server.store) key (some block)) ∨
    ∃ server', writeToLocalStore methods key block server = (-1, server') ∧
      contents server'.store = contents server.store := by
  rcases hstore.write_cases key block server.store with
    ⟨store, hwrite, hcontents⟩ | ⟨err, store, hwrite, hcontents⟩
  · exact .inl ⟨{ server with store }, by rw [writeToLocalStore, hwrite], hcontents⟩
  · exact .inr ⟨{ server with store }, by rw [writeToLocalStore, hwrite], hcontents⟩

private theorem handleWriteBlock_cases (hcheck : config.noCollisionCheck = false)
    {key block : Bytes} {server server' : BlockServer σ} {result : Int}
    (h : handleWriteBlock methods hash config key block server = .done (result, server')) :
    (contents server'.store = contents server.store ∧
      (result = 0 → contents server.store key = some block)) ∨
    (contents server.store key = none ∧
      contents server'.store = Function.update (contents server.store) key (some block) ∧
      (config.contentHashEnforced ≠ .none →
        chopHashBuffer hash config.contentHashEnforced block = .done key)) := by
  obtain ⟨valid, hvalid, h⟩ := Outcome.bind_eq_done.mp h
  cases valid with
  | false =>
    rw [if_pos rfl] at h
    cases h
    refine .inl ⟨rfl, fun hresult => ?_⟩
    cases hresult
  | true =>
    rw [if_neg Bool.noConfusion, hcheck, if_neg Bool.noConfusion] at h
    rcases hstore.read_cases key server.store with
      ⟨bound, store, hbound, hread, hkeep⟩ | ⟨store, hnone, hread, hkeep⟩
    · simp only [hread] at h
      split at h
      · cases h
        refine .inl ⟨hkeep, fun hzero => ?_⟩
        cases hzero
      · next hsame =>
        cases h
        refine .inl ⟨hkeep, fun _ => ?_⟩
        rw [hbound, Decidable.not_not.mp (not_or.mp hsame).2]
    · simp only [hread] at h
      rcases writeToLocalStore_cases hstore key block { server with store } with
        ⟨after, hwrite, hcontents⟩ | ⟨after, hwrite, hcontents⟩
      · rw [hwrite] at h
        cases h
        refine .inr ⟨hnone, ?_, chopHashBuffer_of_isValidHashKey hvalid⟩
        rw [hcontents, hkeep]
      · rw [hwrite] at h
        cases h
        refine .inl ⟨hcontents.trans hkeep, fun hzero => ?_⟩
        cases hzero

omit hstore in
private theorem handleSync_store (hsync : ∀ s, contents (methods.sync s).2 = contents s)
    (server : BlockServer σ) :
    contents (handleSync methods server).2.store = contents server.store := by
  have hkeep := hsync server.store
  rw [handleSync]
  split
  · next store heq =>
    rw [heq] at hkeep
    exact hkeep
  · next err store heq =>
    rw [heq] at hkeep
    exact hkeep

private theorem handleBlocksExist_store (keys : List Bytes) (server : BlockServer σ) :
    contents (handleBlocksExist methods keys server).2.store = contents server.store := by
  show contents (queryLocalStore methods keys server.store).2 = contents server.store
  rw [queryLocalStore]
  split
  · exact hstore.blocksExist keys server.store
  · rfl

private theorem handleReadBlock_store {key : Bytes} {server server' : BlockServer σ}
    {answer : Status × Bytes} (h : handleReadBlock methods key server = .done (answer, server')) :
    contents server'.store = contents server.store := by
  have hkeep := (hstore.readBlock key server.store).1
  rw [handleReadBlock] at h
  split at h
  · next err store heq =>
    rw [heq] at hkeep
    cases h
    exact hkeep
  · next block store heq =>
    rw [heq] at hkeep
    split at h
    · cases h
      exact hkeep
    · split at h
      · cases h
        exact hkeep
      · cases h

/-- What one call can do to the local store. -/
theorem serveCall_cases (hcheck : config.noCollisionCheck = false)
    {server server' : BlockServer σ} {call : RpcCall} {reply : RpcReply} {client : ClientResult}
    (h : serveCall methods hash config server call = .done ((reply, client), server')) :
    (contents server'.store = contents server.store ∧
        ∀ key block, call.request = .writeBlock key block → reply = .int 0 →
          contents server.store key = some block) ∨
      ∃ key block, call.request = .writeBlock key block ∧ contents server.store key = none ∧
        contents server'.store = Function.update (contents server.store) key (some block) ∧
        (config.contentHashEnforced ≠ .none →
          chopHashBuffer hash config.contentHashEnforced block = .done key) := by
  obtain ⟨⟨reply', between⟩, hrequest, h⟩ := Outcome.bind_eq_done.mp h
  cases h
  cases hcall : call.request with
  | sayHello =>
    rw [hcall] at hrequest
    cases hrequest
    exact .inl ⟨rfl, by rintro key block ⟨⟩⟩
  | blocksExist keys =>
    rw [hcall] at hrequest
    cases hrequest
    exact .inl ⟨handleBlocksExist_store hstore keys server, by rintro key block ⟨⟩⟩
  | writeBlock key block =>
    rw [hcall] at hrequest
    obtain ⟨⟨result, after⟩, hwrite, hrequest⟩ := Outcome.bind_eq_done.mp hrequest
    cases hrequest
    rcases handleWriteBlock_cases hstore hash hcheck hwrite with
      ⟨hkeep, hzero⟩ | ⟨hnone, hcontents, hkey⟩
    · refine .inl ⟨hkeep, ?_⟩
      rintro key' block' hsame hreply
      cases hsame
      exact hzero (RpcReply.int.inj hreply)
    · exact .inr ⟨key, block, rfl, hnone, hcontents, hkey⟩
  | readBlock key =>
    rw [hcall] at hrequest
    obtain ⟨⟨answer, after⟩, hread, hrequest⟩ := Outcome.bind_eq_done.mp hrequest
    cases hrequest
    exact .inl ⟨handleReadBlock_store hstore hread, by rintro key block ⟨⟩⟩
  | sync =>
    rw [hcall] at hrequest
    cases hrequest
    exact .inl ⟨handleSync_store hstore.sync server, by rintro key block ⟨⟩⟩
  | close =>
    rw [hcall] at hrequest
    cases hrequest
    exact .inl ⟨handleSync_store hstore.sync server, by rintro key block ⟨⟩⟩

theorem serveCall_keeps (hcheck : config.noCollisionCheck = false)
    {server server' : BlockServer σ} {call : RpcCall} {answer : RpcReply × ClientResult}
    (h : serveCall methods hash config server call = .done (answer, server')) {key block : Bytes}
    (hkey : contents server.store key = some block) : contents server'.store key = some block := by
  rcases serveCall_cases hstore hash hcheck h with
    ⟨hkeep, -⟩ | ⟨key', block', -, hnone, hcontents, -⟩
  · rw [hkeep, hkey]
  · have hne : key ≠ key' := by
      rintro rfl
      rw [hnone] at hkey
      cases hkey
    rw [hcontents, Function.update_of_ne hne, hkey]

/-- What is in the store after a call was there before, or the call wrote it. -/
theorem serveCall_written (hcheck : config.noCollisionCheck = false)
    {server server' : BlockServer σ} {call : RpcCall} {answer : RpcReply × ClientResult}
    (h : serveCall methods hash config server call = .done (answer, server')) {key block : Bytes}
    (hkey : contents server'.store key = some block) :
    contents server.store key = some block ∨
      call.request = .writeBlock key block ∧
        (config.contentHashEnforced ≠ .none →
          chopHashBuffer hash config.contentHashEnforced block = .done key) := by
  rcases serveCall_cases hstore hash hcheck h with
    ⟨hsame, -⟩ | ⟨key', block', hwrite, -, hcontents, hhashed⟩
  · rw [hsame] at hkey
    exact .inl hkey
  · rw [hcontents] at hkey
    by_cases hself : key = key'
    · rw [hself, Function.update_self] at hkey
      cases hkey
      rw [hself]
      exact .inr ⟨hwrite, hhashed⟩
    · rw [Function.update_of_ne hself] at hkey
      exact .inl hkey

end Steps

theorem clientResult_of_serveCall {σ : Type} {methods : StoreMethods σ} {hash : HashFunctions}
    {config : ServerConfig} {server server' : BlockServer σ} {call : RpcCall} {reply : RpcReply}
    {client : ClientResult}
    (h : serveCall methods hash config server call = .done ((reply, client), server')) :
    client = clientResult call reply := by
  obtain ⟨⟨reply', between⟩, -, h⟩ := Outcome.bind_eq_done.mp h
  cases h
  rfl

/-- A client is told that a write succeeded only after the server said so. -/
theorem int_zero_of_client_ok {call : RpcCall} {reply : RpcReply} {key block : Bytes}
    (hcall : call.request = .writeBlock key block)
    (h : clientResult call reply = .status (.ok ())) : reply = .int 0 := by
  obtain ⟨request, answered⟩ := call
  cases hcall
  cases reply with
  | int result =>
    have hok : chopSunrpcStatus (if answered then some result else none) = .ok () :=
      ClientResult.status.inj h
    cases answered with
    | false => cases hok
    | true =>
      by_cases hresult : result = 0
      · rw [hresult]
      · rw [if_pos rfl, chopSunrpcStatus, if_neg fun hsome => hresult (Option.some.inj hsome)] at hok
        cases hok
  | booleans flags => cases h
  | block status contents => cases h

/-- A write that was acknowledged has left its block under its key. -/
def WriteHolds {σ : Type} (contents : σ → BlockMap) (call : RpcCall)
    (answer : RpcReply × ClientResult) (server : BlockServer σ) : Prop :=
  ∀ key block, call.request = .writeBlock key block →
    (answer.1 = .int 0 ∨ answer.2 = .status (.ok ())) → contents server.store key = some block

section Runs

variable {σ : Type} {methods : StoreMethods σ} {contents : σ → BlockMap}
  (hstore : MapStore methods contents) (hash : HashFunctions) {config : ServerConfig}
  (hcheck : config.noCollisionCheck = false)

include hstore hcheck

theorem serveCall_acknowledges {server server' : BlockServer σ} {call : RpcCall}
    {answer : RpcReply × ClientResult}
    (h : serveCall methods hash config server call = .done (answer, server')) :
    WriteHolds contents call answer server' := by
  obtain ⟨reply, client⟩ := answer
  intro key block hcall hok
  have hzero : reply = .int 0 := by
    cases hok with
    | inl hreply => exact hreply
    | inr hclient =>
      rw [clientResult_of_serveCall h] at hclient
      exact int_zero_of_client_ok hcall hclient
  rcases serveCall_cases hstore hash hcheck h with
    ⟨hkeep, hbound⟩ | ⟨key', block', hcall', -, hcontents, -⟩
  · rw [hkeep, hbound key block hcall hzero]
  · rw [hcall] at hcall'
    cases hcall'
    rw [hcontents, Function.update_self]

private theorem serveCall_writeHolds (server : BlockServer σ) (call : RpcCall)
    (answer : RpcReply × ClientResult) (server' : BlockServer σ) (_ : True) (_ : True)
    (h : serveCall methods hash config server call = .done (answer, server')) :
    True ∧ WriteHolds contents call answer server' ∧
      ∀ call₀ answer₀, WriteHolds contents call₀ answer₀ server →
        WriteHolds contents call₀ answer₀ server' := by
  refine ⟨trivial, serveCall_acknowledges hstore hash hcheck h, ?_⟩
  intro call₀ answer₀ hbefore key block hcall hok
  exact serveCall_keeps hstore hash hcheck h (hbefore key block hcall hok)

private theorem serveCall_hashed (henforced : config.contentHashEnforced ≠ .none)
    {m : BlockMap} {server server' : BlockServer σ} {call : RpcCall}
    {answer : RpcReply × ClientResult}
    (h : serveCall methods hash config server call = .done (answer, server'))
    (hserver : ∀ key block, contents server.store key = some block → m key = some block ∨
      chopHashBuffer hash config.contentHashEnforced block = .done key) :
    ∀ key block, contents server'.store key = some block → m key = some block ∨
      chopHashBuffer hash config.contentHashEnforced block = .done key := by
  intro key block hkey
  rcases serveCall_written hstore hash hcheck h hkey with hbefore | ⟨-, hhashed⟩
  · exact hserver key block hbefore
  · exact .inr (hhashed henforced)

end Runs

theorem shortKeyStore_mapStore : MapStore shortKeyStore fun store key => store.lookup key where
  blocksExist keys store := by
    simp only [shortKeyStore]
    split
    · rfl
    · rfl
  readBlock key store := by
    simp only [shortKeyStore]
    cases store.lookup key with
    | none => exact ⟨rfl, rfl⟩
    | some block => exact ⟨rfl, rfl⟩
  writeBlock key block store := by
    simp only [shortKeyStore]
    split
    · refine .inl ⟨rfl, ?_⟩
      funext key'
      by_cases hkey : key' = key
      · rw [hkey, Function.update_self, AList.lookup_insert]
      · rw [Function.update_of_ne hkey, AList.lookup_insert_ne hkey]
    · exact .inr ⟨.code 36, rfl, rfl⟩
  sync _ := rfl

/-- A block is written, another one is refused under the same key, and the first is written once
more by a client that does not get the reply. -/
def sampleCalls : List RpcCall :=
  [⟨.writeBlock (sampleHash.digest .sha1 (cString "abc")) (cString "abc"), true⟩,
    ⟨.writeBlock (sampleHash.digest .sha1 (cString "abc")) (cString "abd"), true⟩,
    ⟨.writeBlock (sampleHash.digest .sha1 (cString "abc")) (cString "abc"), false⟩]

end Libchop
