import Libchop.Server.WriteOnce

/-!
# What clients see of a block server

Clients that share a block server see what is stored under a key when a write is acknowledged, and when a read
succeeds.  With collision checks they all see the same, as long as the length of every block fits in a reply.
-/

namespace Libchop

/-- A call tells its client, or would tell it if the reply reached it, what is stored under a key. -/
def Observes (key block : Bytes) (call : RpcCall) (answer : RpcReply × ClientResult) : Prop :=
  (call.request = .writeBlock key block ∧ (answer.1 = .int 0 ∨ answer.2 = .status (.ok ()))) ∨
    (call.request = .readBlock key ∧ (answer.1 = .block (.ok ()) block ∨ answer.2 = .block (.ok block)))

/-- The length of a block is encoded in 32 bits. -/
def Sendable (call : RpcCall) : Prop :=
  ∀ key block, call.request = .writeBlock key block → block.length < 2 ^ 32

def BlockMap.Sendable (m : BlockMap) : Prop := ∀ key block, m key = some block → block.length < 2 ^ 32

section Observations

variable {σ : Type} {methods : StoreMethods σ} {contents : σ → BlockMap}

theorem handleReadBlock_cases (hstore : MapStore methods contents) {key : Bytes}
    {server server' : BlockServer σ} (hsendable : (contents server.store).Sendable)
    {answer : Status × Bytes}
    (h : handleReadBlock methods key server = .done (answer, server')) :
    contents server'.store = contents server.store ∧
      answer = match contents server.store key with
        | some block => (.ok (), block)
        | none => (.error .storeBlockUnavail, []) := by
  rcases hstore.read_cases key server.store with
    ⟨block, store, hblock, hread, hkeep⟩ | ⟨store, hnone, hread, hkeep⟩
  · rw [handleReadBlock, hread] at h
    rw [hblock]
    dsimp only at h
    split at h
    · have hall : block.take (block.length % 2 ^ 32) = block :=
        List.take_of_length_le (Nat.le_of_eq (Nat.mod_eq_of_lt (hsendable key block hblock)).symm)
      rw [hall] at h
      cases h
      exact ⟨hkeep, rfl⟩
    · next hempty =>
      have hnil : block = [] := List.eq_nil_of_length_eq_zero (Nat.eq_zero_of_not_pos hempty)
      split at h
      · cases h
        exact ⟨hkeep, by rw [hnil]⟩
      · cases h
  · rw [handleReadBlock, hread] at h
    rw [hnone]
    cases h
    exact ⟨hkeep, rfl⟩

/-- A read is answered from the store. -/
theorem serveCall_reads (hstore : MapStore methods contents) {hash : HashFunctions} {config : ServerConfig}
    {server server' : BlockServer σ} (hsendable : (contents server.store).Sendable) {key : Bytes}
    {answered : Bool} {reply : RpcReply} {client : ClientResult}
    (h : serveCall methods hash config server ⟨.readBlock key, answered⟩ = .done ((reply, client), server')) :
    contents server'.store = contents server.store ∧
      match contents server.store key with
      | some block => reply = .block (.ok ()) block ∧
        client = .block (if answered then .ok block else .error .storeError)
      | none => reply = .block (.error .storeBlockUnavail) [] ∧ client = .block (.error .storeError) := by
  obtain ⟨⟨reply', after⟩, hrequest, h⟩ := Outcome.bind_eq_done.mp h
  cases h
  obtain ⟨⟨⟨status, sent⟩, after'⟩, hread, hrequest⟩ := Outcome.bind_eq_done.mp hrequest
  cases hrequest
  obtain ⟨hkeep, hanswer⟩ := handleReadBlock_cases hstore hsendable hread
  refine ⟨hkeep, ?_⟩
  cases hkey : contents server.store key with
  | some block =>
    rw [hkey] at hanswer
    cases hanswer
    refine ⟨rfl, ?_⟩
    cases answered with
    | true => rfl
    | false => rfl
  | none =>
    rw [hkey] at hanswer
    cases hanswer
    refine ⟨rfl, ?_⟩
    cases answered with
    | true => rfl
    | false => rfl

/-- What a call observes is in the store after it. -/
theorem serveCall_observes (hstore : MapStore methods contents) {hash : HashFunctions}
    {config : ServerConfig} (hcheck : config.noCollisionCheck = false) {server server' : BlockServer σ}
    (hsendable : (contents server.store).Sendable) {call : RpcCall} {answer : RpcReply × ClientResult}
    (h : serveCall methods hash config server call = .done (answer, server')) {key block : Bytes}
    (hobserves : Observes key block call answer) : contents server'.store key = some block := by
  rcases hobserves with ⟨hcall, hok⟩ | ⟨hcall, hok⟩
  · exact serveCall_acknowledges hstore hash hcheck h key block hcall hok
  · obtain ⟨request, answered⟩ := call
    obtain ⟨reply, client⟩ := answer
    cases hcall
    obtain ⟨hkeep, hread⟩ := serveCall_reads hstore hsendable h
    rw [hkeep]
    cases hkey : contents server.store key with
    | some stored =>
      rw [hkey] at hread
      obtain ⟨rfl, rfl⟩ := hread
      cases hok with
      | inl hreply =>
        cases hreply
        rfl
      | inr hclient =>
        cases answered with
        | true =>
          cases hclient
          rfl
        | false => cases hclient
    | none =>
      rw [hkey] at hread
      obtain ⟨rfl, rfl⟩ := hread
      cases hok with
      | inl hreply => cases hreply
      | inr hclient => cases hclient

/-- A call leaves blocks that can be sent. -/
theorem serveCall_sendable (hstore : MapStore methods contents) (hash : HashFunctions)
    {config : ServerConfig} (hcheck : config.noCollisionCheck = false) {server server' : BlockServer σ}
    {call : RpcCall} (hcall : Sendable call) {answer : RpcReply × ClientResult}
    (h : serveCall methods hash config server call = .done (answer, server'))
    (hsendable : (contents server.store).Sendable) : (contents server'.store).Sendable := by
  intro key block hkey
  rcases serveCall_written hstore hash hcheck h hkey with hbefore | ⟨hwrite, -⟩
  · exact hsendable key block hbefore
  · exact hcall key block hwrite

theorem serveCalls_sendable (hstore : MapStore methods contents) (hash : HashFunctions)
    {config : ServerConfig} (hcheck : config.noCollisionCheck = false) {server server' : BlockServer σ}
    {calls : List RpcCall} (hcalls : ∀ call ∈ calls, Sendable call)
    {answers : List (RpcReply × ClientResult)}
    (hrun : Refinement.run (serveCall methods hash config) server calls = .done (answers, server'))
    (hsendable : (contents server.store).Sendable) : (contents server'.store).Sendable := by
  have hstep : ∀ s call answer s', Sendable call → (contents s.store).Sendable →
      serveCall methods hash config s call = .done (answer, s') → (contents s'.store).Sendable :=
    fun _ _ _ _ hcall hs hserve => serveCall_sendable hstore hash hcheck hcall hserve hs
  exact Refinement.run_invariant hstep hcalls hsendable hrun

/-- What is in the store was there at first, or some call wrote it. -/
theorem serveCalls_written (hstore : MapStore methods contents) (hash : HashFunctions)
    {config : ServerConfig} (hcheck : config.noCollisionCheck = false) {server server' : BlockServer σ}
    {calls : List RpcCall} {answers : List (RpcReply × ClientResult)}
    (hrun : Refinement.run (serveCall methods hash config) server calls = .done (answers, server'))
    {key block : Bytes} (hkey : contents server'.store key = some block) :
    contents server.store key = some block ∨ ∃ call ∈ calls, call.request = .writeBlock key block := by
  have hstep : ∀ s call answer s', call ∈ calls →
      (contents s.store key = some block →
        contents server.store key = some block ∨ ∃ call ∈ calls, call.request = .writeBlock key block) →
      serveCall methods hash config s call = .done (answer, s') →
      contents s'.store key = some block →
        contents server.store key = some block ∨ ∃ call ∈ calls, call.request = .writeBlock key block := by
    intro s call answer s' hmem hbefore hcall hafter
    rcases serveCall_written hstore hash hcheck hcall hafter with hs | ⟨hwrite, -⟩
    · exact hbefore hs
    · exact .inr ⟨call, hmem, hwrite⟩
  exact Refinement.run_invariant hstep (fun _ hmem => hmem) (fun h => .inl h) hrun hkey

/-- What is observed in a run is in the store at its end. -/
theorem serveCalls_observed (hstore : MapStore methods contents) (hash : HashFunctions)
    {config : ServerConfig} (hcheck : config.noCollisionCheck = false) {server server' : BlockServer σ}
    {calls : List RpcCall} (hcalls : ∀ call ∈ calls, Sendable call)
    (hsendable : (contents server.store).Sendable) {answers : List (RpcReply × ClientResult)}
    (hrun : Refinement.run (serveCall methods hash config) server calls = .done (answers, server'))
    {i : Nat} {call : RpcCall} {answer : RpcReply × ClientResult} (hcall : calls[i]? = some call)
    (hanswer : answers[i]? = some answer) {key block : Bytes} (hobserves : Observes key block call answer) :
    contents server'.store key = some block := by
  have hlasting : ∀ s op reply s', Sendable op → (contents s.store).Sendable →
      serveCall methods hash config s op = .done (reply, s') →
      (contents s'.store).Sendable ∧
        (∀ key block, Observes key block op reply → contents s'.store key = some block) ∧
        ∀ op₀ reply₀, (∀ key block, Observes key block op₀ reply₀ → contents s.store key = some block) →
          ∀ key block, Observes key block op₀ reply₀ → contents s'.store key = some block := by
    intro s op reply s' hop hs hserve
    refine ⟨serveCall_sendable hstore hash hcheck hop hserve hs,
      fun key block => serveCall_observes hstore hcheck hs hserve, ?_⟩
    intro op₀ reply₀ hearlier key block hobserves₀
    exact serveCall_keeps hstore hash hcheck hserve (hearlier key block hobserves₀)
  exact Refinement.run_lasting (P := fun op reply (s : BlockServer σ) =>
    ∀ key block, Observes key block op reply → contents s.store key = some block)
    hlasting hcalls hsendable hrun hcall hanswer key block hobserves

end Observations

/-- Clients that share a server with collision checks, however their calls are interleaved and whichever
replies are lost: all that they observe under a key is one block, which was stored at first or which one of
them has tried to write by then, and once it has been observed, it is sent to whoever reads the key.  The
lengths of all blocks fit in 32 bits. -/
theorem blockServer_agreement {σ : Type} {methods : StoreMethods σ} {contents : σ → BlockMap}
    (hstore : MapStore methods contents) (hash : HashFunctions) {config : ServerConfig}
    (hcheck : config.noCollisionCheck = false) {server server' : BlockServer σ}
    (hsendable : (contents server.store).Sendable) {calls : List RpcCall}
    (hcalls : ∀ call ∈ calls, Sendable call) {answers : List (RpcReply × ClientResult)}
    (hrun : Refinement.run (serveCall methods hash config) server calls = .done (answers, server'))
    {i : Nat} {call : RpcCall} {answer : RpcReply × ClientResult} (hcall : calls[i]? = some call)
    (hanswer : answers[i]? = some answer) {key block : Bytes} (hobserves : Observes key block call answer) :
    (contents server.store key = some block ∨
      ∃ k ≤ i, ∃ answered, calls[k]? = some ⟨.writeBlock key block, answered⟩) ∧
    (∀ (j : Nat) (call' : RpcCall) (answer' : RpcReply × ClientResult) (block' : Bytes),
      calls[j]? = some call' → answers[j]? = some answer' → Observes key block' call' answer' →
        block' = block) ∧
    ∀ (j : Nat) (answered : Bool), i < j → calls[j]? = some ⟨.readBlock key, answered⟩ →
      answers[j]? = some (.block (.ok ()) block,
        .block (if answered then .ok block else .error .storeError)) := by
  obtain ⟨between, answer₀, after, rest, hbefore, hstep, hanswer₀, -⟩ := Refinement.run_at hrun hcall
  rw [hanswer] at hanswer₀
  cases hanswer₀
  have htake : ∀ n, ∀ call ∈ calls.take n, Sendable call :=
    fun n call hmem => hcalls call (List.mem_of_mem_take hmem)
  have hbetween := serveCalls_sendable hstore hash hcheck (htake i) hbefore hsendable
  have hkey : contents after.store key = some block :=
    serveCall_observes hstore hcheck hbetween hstep hobserves
  refine ⟨?_, ?_, ?_⟩
  · rcases serveCall_written hstore hash hcheck hstep hkey with hbetween | ⟨hwrite, -⟩
    · refine (serveCalls_written hstore hash hcheck hbefore hbetween).imp_right ?_
      rintro ⟨earlier, hmem, hwrite⟩
      obtain ⟨k, hk⟩ := List.mem_iff_getElem?.mp hmem
      rw [List.getElem?_take] at hk
      split at hk
      · next hlt => exact ⟨k, hlt.le, earlier.answered, by rw [hk, ← hwrite]⟩
      · cases hk
    · exact .inr ⟨i, le_refl i, call.answered, by rw [hcall, ← hwrite]⟩
  · intro j call' answer' block' hcall' hanswer' hobserves'
    have hfirst := serveCalls_observed hstore hash hcheck hcalls hsendable hrun hcall hanswer hobserves
    have hsecond := serveCalls_observed hstore hash hcheck hcalls hsendable hrun hcall' hanswer' hobserves'
    rw [hfirst] at hsecond
    exact (Option.some.inj hsecond).symm
  · intro j answered hlt hread
    obtain ⟨before, ⟨reply, client⟩, _, _, hprefix, hserve, hanswer', -⟩ := Refinement.run_at hrun hread
    have hcall' : (calls.take j)[i]? = some call := by rw [List.getElem?_take, if_pos hlt, hcall]
    have hobserved : (answers.take j)[i]? = some answer := by
      rw [List.getElem?_take, if_pos hlt, hanswer]
    have hstored : contents before.store key = some block :=
      serveCalls_observed hstore hash hcheck (htake j) hsendable hprefix hcall' hobserved hobserves
    have hbefore := serveCalls_sendable hstore hash hcheck (htake j) hprefix hsendable
    obtain ⟨-, hanswered⟩ := serveCall_reads hstore hbefore hserve
    rw [hstored] at hanswered
    obtain ⟨rfl, rfl⟩ := hanswered
    exact hanswer'

/-- A client that does not get the reply to its write, another one that is refused, and one that reads. -/
def sharedCalls : List RpcCall :=
  [⟨.writeBlock [1] (cString "abc"), false⟩, ⟨.writeBlock [1] (cString "abd"), true⟩,
    ⟨.readBlock [1], true⟩, ⟨.readBlock [1], true⟩]

theorem sharedCalls_agree :
    ∃ answers server,
      Refinement.run (serveCall shortKeyStore sampleHash ⟨.none, false⟩) (.started ∅) sharedCalls =
          .done (answers, server) ∧
        answers[3]? = some (.block (.ok ()) (cString "abc"), .block (.ok (cString "abc"))) := by
  have hrun : ∃ answers server,
      Refinement.run (serveCall shortKeyStore sampleHash ⟨.none, false⟩) (.started ∅) sharedCalls =
          .done (answers, server) ∧
        answers[2]? = some (.block (.ok ()) (cString "abc"), .block (.ok (cString "abc"))) :=
    ⟨_, _, rfl, rfl⟩
  obtain ⟨answers, server, hrun, hanswer⟩ := hrun
  have hsendable : ∀ call ∈ sharedCalls, Sendable call := by
    intro call hmem key block hcall
    simp only [sharedCalls, List.mem_cons, List.not_mem_nil, or_false] at hmem
    rcases hmem with rfl | rfl | rfl | rfl
    · cases hcall
      decide
    · cases hcall
      decide
    · cases hcall
    · cases hcall
  have hempty : BlockMap.Sendable fun key => (∅ : AList fun _ : Bytes => Bytes).lookup key := nofun
  have hagree := blockServer_agreement shortKeyStore_mapStore sampleHash rfl hempty hsendable hrun
    (i := 2) rfl hanswer (.inr ⟨rfl, .inl rfl⟩)
  exact ⟨answers, server, hrun, hagree.2.2 3 true (by decide) rfl⟩

end Libchop
