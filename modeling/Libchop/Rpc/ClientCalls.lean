import Mathlib.Algebra.Group.Nat.Defs
import Libchop.Basic
import Libchop.Framework.Refinement

/-!
# Calls over one connection

A client numbers its requests, and reads replies until one has the number of its request.  So the replies to
calls that it did not wait for do no harm: over a connection that works, calls behave as if the procedures of
the server were called directly, in the order of the requests.
-/

namespace Libchop

/-- The results of a procedure, or why the request was refused. -/
inductive ReplyBody where
  | accepted (results : Bytes)
  | refused (stat : Nat)
deriving DecidableEq, Repr

/-- A request on the connection.  Its arguments may not have been encoded as a whole. -/
structure CallMsg where
  rmXid : Nat
  proc : Nat
  args : Option Bytes

structure ReplyMsg where
  rmXid : Nat
  body : ReplyBody
deriving DecidableEq, Repr

/-- The procedures of a server, with the replies that each one sends. -/
abbrev Dispatch (τ : Type) := τ → Nat → Option Bytes → List ReplyBody × τ

/-- `struct tcp_conn` of a server, as far as it deals with requests. -/
structure SvcConn (τ : Type) where
  state : τ
  xId : Nat

inductive CallStat where
  | success
  | cantEncodeArgs
  | cantDecodeRes
  | cantSend
  | cantRecv
  | timedOut
  | refused (stat : Nat)
deriving DecidableEq, Repr

structure Timeval where
  tvSec : Nat
  tvUsec : Nat
deriving DecidableEq, Repr

/-- What `clnttls_call` is called with: the encoded arguments, unless they cannot be encoded, and the function
that decodes results, unless that is null. -/
structure ClientCall (R : Type) where
  proc : Nat
  args : Option Bytes
  xdrResults : Option (Bytes → Option R)
  timeout : Timeval

/-- `struct ct_data` of a client.  The first word of `ct_mcall` lies in memory in network order. -/
structure ClntData where
  msgXid : UInt32
  ctWait : Timeval
  ctWaitset : Bool
  /-- What was put on the connection, or is kept in its buffer. -/
  sent : List CallMsg
  /-- How many records were read. -/
  skipped : Nat

/-- Whether a request can be sent after so many others, and whether a record can be read. -/
structure Link where
  ships : Nat → Bool
  receives : Nat → Bool

structure Link.Works (link : Link) : Prop where
  ships : ∀ n, link.ships n = true
  receives : ∀ n, link.receives n = true

/-- On a host whose words begin with their lowest byte. -/
def ntohl (word : UInt32) : Nat :=
  ((word.toNat % 256 * 256 + word.toNat / 256 % 256) * 256 + word.toNat / 256 / 256 % 256) * 256 +
    word.toNat / 256 / 256 / 256

section Server

variable {τ : Type} (dispatch : Dispatch τ)

def svctlsRecv (cd : SvcConn τ) (msg : CallMsg) : SvcConn τ := { cd with xId := msg.rmXid }

def svctlsReply (cd : SvcConn τ) (body : ReplyBody) : ReplyMsg := ⟨cd.xId, body⟩

/-- A server reads requests and lets its procedures reply. -/
def svcRun : SvcConn τ → List CallMsg → List ReplyMsg × SvcConn τ
  | cd, [] => ([], cd)
  | cd, msg :: msgs =>
    let cd := svctlsRecv cd msg
    let (bodies, state) := dispatch cd.state msg.proc msg.args
    let (rest, last) := svcRun { cd with state } msgs
    (bodies.map (svctlsReply cd) ++ rest, last)

end Server

section Client

variable {τ R : Type} (link : Link) (dispatch : Dispatch τ) (server : SvcConn τ)

/-- The loop that reads records up to a reply with the number of the request.  It waits for ever where no
record is left. -/
def receiveReply (incoming : List ReplyMsg) (xId : Nat) :
    Nat → ClntData → Outcome (Except CallStat ReplyBody × ClntData)
  | 0, _ => .outOfFuel
  | fuel + 1, ct =>
    if link.receives ct.skipped = false then .done (.error .cantRecv, ct)
    else
      match incoming[ct.skipped]? with
      | none => .outOfFuel
      | some replyMsg =>
        let ct := { ct with skipped := ct.skipped + 1 }
        if replyMsg.rmXid = xId then .done (.ok replyMsg.body, ct) else receiveReply incoming xId fuel ct

def Timeval.isZero (time : Timeval) : Bool := time.tvSec = 0 ∧ time.tvUsec = 0

/-- A request is only kept in the buffer if no results are expected and nobody waits for them. -/
def ClientCall.shipnow (call : ClientCall R) (ctWait : Timeval) : Bool :=
  ¬ (call.xdrResults.isNone ∧ ctWait.isZero)

inductive Attempt (R : Type) where
  | ends (stat : CallStat) (results : Option R)
  | refused (stat : Nat)

/-- What is made of a reply.  A null function cannot decode results. -/
def ClientCall.conclude (call : ClientCall R) : ReplyBody → Outcome (Attempt R)
  | .refused stat => .done (.refused stat)
  | .accepted results =>
    match call.xdrResults with
    | none => .abort
    | some xdrResults =>
      match xdrResults results with
      | none => .done (.ends .cantDecodeRes none)
      | some r => .done (.ends .success (some r))

/-- A request that is refused is repeated while refreshes are left. -/
def callAgain {σ : Type} (attempt : σ → Outcome (Attempt R × σ)) :
    Nat → σ → Outcome ((CallStat × Option R) × σ)
  | 0, s =>
    attempt s >>= fun (result, s) =>
      match result with
      | .ends stat results => .done ((stat, results), s)
      | .refused stat => .done ((.refused stat, none), s)
  | refreshes + 1, s =>
    attempt s >>= fun (result, s) =>
      match result with
      | .ends stat results => .done ((stat, results), s)
      | .refused _ => callAgain attempt refreshes s

/-- A request gets the number below that of the last one. -/
def ClntData.send (ct : ClntData) (call : ClientCall R) : ClntData :=
  { ct with
    msgXid := ct.msgXid - 1
    sent := ct.sent ++ [⟨ntohl (ct.msgXid - 1), call.proc, call.args⟩] }

/-- One request of `clnttls_call`, from the label `call_again` on. -/
def clnttlsAttempt (fuel : Nat) (call : ClientCall R) (ct : ClntData) : Outcome (Attempt R × ClntData) :=
  if link.ships ct.sent.length = false then .done (.ends .cantSend none, ct.send call)
  else if call.args.isNone then .done (.ends .cantEncodeArgs none, ct.send call)
  else if call.shipnow ct.ctWait = false then .done (.ends .success none, ct.send call)
  else if ct.ctWait.isZero then .done (.ends .timedOut none, ct.send call)
  else
    receiveReply link (svcRun dispatch server (ct.send call).sent).1 (ntohl (ct.send call).msgXid) fuel
        (ct.send call) >>= fun (reply, ct) =>
      match reply with
      | .error stat => .done (.ends stat none, ct)
      | .ok body => call.conclude body >>= fun result => .done (result, ct)

def clnttlsCall (fuel : Nat) (call : ClientCall R) (ct : ClntData) :
    Outcome ((CallStat × Option R) × ClntData) :=
  callAgain (clnttlsAttempt link dispatch server fuel call) 2
    (if ct.ctWaitset then ct else { ct with ctWait := call.timeout })

end Client

/-- What a client does with a connection: calls, and `clnttls_control` with `CLSET_TIMEOUT`. -/
inductive ClientOp (R : Type) where
  | call (call : ClientCall R)
  | setTimeout (time : Timeval)

inductive ClientAnswer (R : Type) where
  | called (stat : CallStat) (results : Option R)
  | controlled

section Client

variable {τ R : Type} (link : Link) (dispatch : Dispatch τ) (server : SvcConn τ)

def clientStep (fuel : Nat) (ct : ClntData) (op : ClientOp R) : Outcome (ClientAnswer R × ClntData) :=
  match op with
  | .call call =>
    clnttlsCall link dispatch server fuel call ct >>= fun (answer, ct) =>
      .done (.called answer.1 answer.2, ct)
  | .setTimeout time => .done (.controlled, { ct with ctWait := time, ctWaitset := true })

end Client

section Direct

variable {τ R : Type} (dispatch : Dispatch τ)

/-- The procedures of a server as they are called directly, and how often. -/
structure DirectState (τ : Type) where
  state : τ
  wait : Timeval
  waitset : Bool
  sends : Nat

def DirectState.called (s : DirectState τ) (call : ClientCall R) : DirectState τ :=
  { s with state := (dispatch s.state call.proc call.args).2, sends := s.sends + 1 }

/-- A procedure is called.  Where nobody waits, its replies are lost. -/
def directAttempt (call : ClientCall R) (s : DirectState τ) : Outcome (Attempt R × DirectState τ) :=
  if call.args.isNone then .done (.ends .cantEncodeArgs none, s.called dispatch call)
  else if call.shipnow s.wait = false then .done (.ends .success none, s.called dispatch call)
  else if s.wait.isZero then .done (.ends .timedOut none, s.called dispatch call)
  else
    match (dispatch s.state call.proc call.args).1.head? with
    | none => .outOfFuel
    | some body => call.conclude body >>= fun result => .done (result, s.called dispatch call)

def directStep (s : DirectState τ) (op : ClientOp R) : Outcome (ClientAnswer R × DirectState τ) :=
  match op with
  | .call call =>
    callAgain (directAttempt dispatch call) 2 (if s.waitset then s else { s with wait := call.timeout }) >>=
      fun (answer, s) => .done (.called answer.1 answer.2, s)
  | .setTimeout time => .done (.controlled, { s with wait := time, waitset := true })

/-- The first attempt decides, or is refused and repeated. -/
theorem callAgain_cases {σ : Type} {attempt : σ → Outcome (Attempt R × σ)} {refreshes : Nat} {s s' : σ}
    {answer : CallStat × Option R} (h : callAgain attempt refreshes s = .done (answer, s')) :
    ∃ result s₁, attempt s = .done (result, s₁) ∧
      ((∃ stat results, result = .ends stat results ∧ answer = (stat, results) ∧ s' = s₁) ∨
        ∃ stat, result = .refused stat ∧
          (refreshes = 0 ∧ answer = (.refused stat, none) ∧ s' = s₁ ∨
            ∃ left, refreshes = left + 1 ∧ callAgain attempt left s₁ = .done (answer, s'))) := by
  cases refreshes with
  | zero =>
    obtain ⟨⟨result, s₁⟩, hattempt, h⟩ := Outcome.bind_eq_done.mp h
    refine ⟨result, s₁, hattempt, ?_⟩
    cases result with
    | ends stat results =>
      cases h
      exact .inl ⟨_, _, rfl, rfl, rfl⟩
    | refused stat =>
      cases h
      exact .inr ⟨_, rfl, .inl ⟨rfl, rfl, rfl⟩⟩
  | succ left =>
    obtain ⟨⟨result, s₁⟩, hattempt, h⟩ := Outcome.bind_eq_done.mp h
    refine ⟨result, s₁, hattempt, ?_⟩
    cases result with
    | ends stat results =>
      cases h
      exact .inl ⟨_, _, rfl, rfl, rfl⟩
    | refused stat => exact .inr ⟨_, rfl, .inr ⟨left, rfl, h⟩⟩

theorem directAttempt_called {dispatch : Dispatch τ} {call : ClientCall R} {s s' : DirectState τ}
    {result : Attempt R} (h : directAttempt dispatch call s = .done (result, s')) :
    s' = s.called dispatch call := by
  rw [directAttempt] at h
  split at h
  · cases h
    rfl
  · split at h
    · cases h
      rfl
    · split at h
      · cases h
        rfl
      · split at h
        · cases h
        · obtain ⟨concluded, -, h⟩ := Outcome.bind_eq_done.mp h
          cases h
          rfl

theorem callAgain_sends {dispatch : Dispatch τ} {call : ClientCall R} {refreshes : Nat} {s s' : DirectState τ}
    {answer : CallStat × Option R}
    (h : callAgain (directAttempt dispatch call) refreshes s = .done (answer, s')) :
    s.sends < s'.sends := by
  induction refreshes generalizing s with
  | zero =>
    obtain ⟨result, s₁, hattempt, hends⟩ := callAgain_cases h
    obtain rfl := directAttempt_called hattempt
    rcases hends with ⟨_, _, _, _, rfl⟩ | ⟨_, _, ⟨_, _, rfl⟩ | ⟨_, hleft, _⟩⟩
    · exact Nat.lt_succ_self _
    · exact Nat.lt_succ_self _
    · cases hleft
  | succ refreshes ih =>
    obtain ⟨result, s₁, hattempt, hends⟩ := callAgain_cases h
    obtain rfl := directAttempt_called hattempt
    rcases hends with ⟨_, _, _, _, rfl⟩ | ⟨_, _, ⟨hleft, _, _⟩ | ⟨_, hleft, hrest⟩⟩
    · exact Nat.lt_succ_self _
    · cases hleft
    · cases hleft
      exact Nat.lt_trans (Nat.lt_succ_self _) (ih hrest)

end Direct

section Numbers

private theorem byte_unique {high high' low low' : Nat} (hlow : low < 256) (hlow' : low' < 256)
    (h : high * 256 + low = high' * 256 + low') : high = high' ∧ low = low' := by
  omega

theorem ntohl_injective : Function.Injective ntohl := by
  intro a b h
  have ha := a.toNat_lt
  have hb := b.toNat_lt
  rw [ntohl, ntohl] at h
  obtain ⟨h, hthird⟩ := byte_unique (by omega) (by omega) h
  obtain ⟨h, hsecond⟩ := byte_unique (Nat.mod_lt _ (by decide)) (Nat.mod_lt _ (by decide)) h
  obtain ⟨hzeroth, hfirst⟩ := byte_unique (Nat.mod_lt _ (by decide)) (Nat.mod_lt _ (by decide)) h
  apply UInt32.toNat_inj.mp
  omega

/-- A number comes again after 2 to the 32 requests only. -/
theorem sub_one_ne_add {word : UInt32} {k : Nat} (hk : k + 1 < 2 ^ 32) : word - 1 ≠ word + UInt32.ofNat k := by
  intro h
  have hnat := congrArg UInt32.toNat h
  have hword := word.toNat_lt
  rw [UInt32.toNat_sub, UInt32.toNat_add, UInt32.toNat_ofNat', UInt32.toNat_one] at hnat
  omega

theorem sub_one_add_succ (word : UInt32) (k : Nat) :
    word - 1 + UInt32.ofNat (k + 1) = word + UInt32.ofNat k := by
  apply UInt32.toNat_inj.mp
  have hword := word.toNat_lt
  rw [UInt32.toNat_add, UInt32.toNat_add, UInt32.toNat_sub, UInt32.toNat_ofNat', UInt32.toNat_ofNat',
    UInt32.toNat_one]
  omega

end Numbers

section Replies

variable {τ : Type} {dispatch : Dispatch τ}

theorem svcRun_append (cd : SvcConn τ) (msgs : List CallMsg) (msg : CallMsg) :
    svcRun dispatch cd (msgs ++ [msg]) =
      ((svcRun dispatch cd msgs).1 ++
          (dispatch (svcRun dispatch cd msgs).2.state msg.proc msg.args).1.map fun body => ⟨msg.rmXid, body⟩,
        ⟨(dispatch (svcRun dispatch cd msgs).2.state msg.proc msg.args).2, msg.rmXid⟩) := by
  induction msgs generalizing cd with
  | nil =>
    simp only [List.nil_append, svcRun, List.append_nil]
    rfl
  | cons first msgs ih =>
    simp only [List.cons_append, svcRun, ih, List.append_assoc]

/-- Every reply has the number of a request. -/
theorem svcRun_xids (cd : SvcConn τ) (msgs : List CallMsg) :
    ∀ reply ∈ (svcRun dispatch cd msgs).1, ∃ msg ∈ msgs, reply.rmXid = msg.rmXid := by
  induction msgs generalizing cd with
  | nil => exact fun reply hreply => (List.not_mem_nil hreply).elim
  | cons msg msgs ih =>
    intro reply hreply
    rcases List.mem_append.mp hreply with hfirst | hrest
    · obtain ⟨body, -, rfl⟩ := List.mem_map.mp hfirst
      exact ⟨msg, List.mem_cons_self, rfl⟩
    · obtain ⟨later, hlater, hxid⟩ := ih _ reply hrest
      exact ⟨later, List.mem_cons_of_mem _ hlater, hxid⟩

/-- Replies to earlier requests are skipped. -/
theorem receiveReply_skips {link : Link} (hlink : link.Works) {served fresh : List ReplyMsg} {xId : Nat}
    {body : ReplyBody} (hserved : ∀ reply ∈ served, reply.rmXid ≠ xId) (fuel : Nat) {ct : ClntData}
    (hskipped : ct.skipped ≤ served.length) (hfuel : served.length - ct.skipped < fuel) :
    receiveReply link (served ++ ⟨xId, body⟩ :: fresh) xId fuel ct =
      .done (.ok body, { ct with skipped := served.length + 1 }) := by
  induction fuel generalizing ct with
  | zero => omega
  | succ fuel ih =>
    rw [receiveReply, hlink.receives]
    by_cases hlast : ct.skipped = served.length
    · rw [hlast, List.getElem?_append_right (Nat.le_refl _), Nat.sub_self]
      simp only [List.getElem?_cons_zero, Bool.true_eq_false, if_false, if_true]
    · have hlt : ct.skipped < served.length := by omega
      have hstale := hserved _ (List.getElem_mem hlt)
      rw [List.getElem?_append_left hlt, List.getElem?_eq_getElem hlt]
      simp only [Bool.true_eq_false, if_false, if_neg hstale]
      exact ih (by dsimp only; omega) (by dsimp only; omega)

end Replies

section Simulation

variable {τ R : Type} {link : Link} {dispatch : Dispatch τ} {server : SvcConn τ}

/-- A client on a connection, and the procedures that it would call directly. -/
structure InStep (dispatch : Dispatch τ) (server : SvcConn τ) (s : DirectState τ) (ct : ClntData) : Prop where
  state : (svcRun dispatch server ct.sent).2.state = s.state
  wait : ct.ctWait = s.wait
  waitset : ct.ctWaitset = s.waitset
  sends : ct.sent.length = s.sends
  xids : ∀ msg ∈ ct.sent, ∃ k < s.sends, msg.rmXid = ntohl (ct.msgXid + UInt32.ofNat k)
  skipped : ct.skipped ≤ (svcRun dispatch server ct.sent).1.length

/-- A request that is put on the connection is dispatched as if it was called directly. -/
theorem InStep.send {s : DirectState τ} {ct : ClntData} (h : InStep dispatch server s ct)
    (call : ClientCall R) : InStep dispatch server (s.called dispatch call) (ct.send call) := by
  refine ⟨?_, h.wait, h.waitset, ?_, ?_, ?_⟩
  · rw [ClntData.send, svcRun_append, h.state]
    rfl
  · rw [ClntData.send, List.length_append, h.sends]
    rfl
  · intro msg hmsg
    rcases List.mem_append.mp hmsg with hmsg | hmsg
    · obtain ⟨k, hk, hxid⟩ := h.xids msg hmsg
      refine ⟨k + 1, Nat.succ_lt_succ hk, ?_⟩
      rw [hxid, ClntData.send, sub_one_add_succ]
    · rw [List.mem_singleton] at hmsg
      subst hmsg
      exact ⟨0, Nat.zero_lt_succ _, congrArg ntohl (UInt32.add_zero _).symm⟩
  · rw [ClntData.send, svcRun_append, List.length_append]
    exact Nat.le_add_right_of_le h.skipped

/-- No reply that is on its way has the number of the next request. -/
theorem InStep.stale {s : DirectState τ} {ct : ClntData} (h : InStep dispatch server s ct)
    (hsends : s.sends < 2 ^ 32) :
    ∀ reply ∈ (svcRun dispatch server ct.sent).1, reply.rmXid ≠ ntohl (ct.msgXid - 1) := by
  intro reply hreply hsame
  obtain ⟨msg, hmsg, hxid⟩ := svcRun_xids server ct.sent reply hreply
  obtain ⟨k, hk, hmsgXid⟩ := h.xids msg hmsg
  rw [hxid, hmsgXid] at hsame
  exact sub_one_ne_add (by omega) (ntohl_injective hsame).symm

/-- Records are read from the replies that there are. -/
theorem InStep.read {s : DirectState τ} {ct : ClntData} (h : InStep dispatch server s ct) {skipped : Nat}
    (hskipped : skipped ≤ (svcRun dispatch server ct.sent).1.length) :
    InStep dispatch server s { ct with skipped } :=
  ⟨h.state, h.wait, h.waitset, h.sends, h.xids, hskipped⟩

/-- The reply to a request is the first one that its procedure sends. -/
theorem InStep.receive (hlink : link.Works) {call : ClientCall R} {s : DirectState τ} {ct : ClntData}
    {body : ReplyBody} (h : InStep dispatch server s ct) (hsends : s.sends < 2 ^ 32)
    (hbody : (dispatch s.state call.proc call.args).1.head? = some body) :
    ∃ ct', Outcome.Settles (fun fuel =>
        receiveReply link (svcRun dispatch server (ct.send call).sent).1 (ntohl (ct.send call).msgXid) fuel
          (ct.send call)) (.ok body, ct') ∧
      InStep dispatch server (s.called dispatch call) ct' := by
  obtain ⟨fresh, hreplies⟩ := List.head?_eq_some_iff.mp hbody
  have hincoming : (svcRun dispatch server (ct.send call).sent).1 =
      (svcRun dispatch server ct.sent).1 ++ ⟨ntohl (ct.msgXid - 1), body⟩ ::
        fresh.map fun body => ⟨ntohl (ct.msgXid - 1), body⟩ := by
    rw [ClntData.send, svcRun_append, h.state, hreplies]
    rfl
  let replies := (svcRun dispatch server ct.sent).1.length
  refine ⟨{ ct.send call with skipped := replies + 1 }, ⟨replies + 1, fun fuel hfuel => ?_⟩,
    (h.send call).read ?_⟩
  · rw [hincoming]
    exact receiveReply_skips hlink (h.stale hsends) fuel h.skipped (Nat.lt_of_le_of_lt (Nat.sub_le _ _) hfuel)
  · rw [hincoming, List.length_append, List.length_cons]
    omega

/-- An attempt over a connection that works ends like a direct one. -/
theorem clnttlsAttempt_dispatches (hlink : link.Works) {call : ClientCall R} {s s' : DirectState τ}
    {ct : ClntData} {result : Attempt R} (h : InStep dispatch server s ct)
    (hdirect : directAttempt dispatch call s = .done (result, s')) (hsends : s'.sends ≤ 2 ^ 32) :
    ∃ ct', Outcome.Settles (fun fuel => clnttlsAttempt link dispatch server fuel call ct) (result, ct') ∧
      InStep dispatch server s' ct' := by
  obtain rfl := directAttempt_called hdirect
  simp only [clnttlsAttempt, hlink.ships, Bool.true_eq_false, if_false, h.wait]
  rw [directAttempt] at hdirect
  by_cases hargs : call.args.isNone = true
  · rw [if_pos hargs] at hdirect
    simp only [if_pos hargs]
    cases hdirect
    exact ⟨_, .of_eq fun _ => rfl, h.send call⟩
  rw [if_neg hargs] at hdirect
  simp only [if_neg hargs]
  by_cases hship : call.shipnow s.wait = false
  · rw [if_pos hship] at hdirect
    simp only [if_pos hship]
    cases hdirect
    exact ⟨_, .of_eq fun _ => rfl, h.send call⟩
  rw [if_neg hship] at hdirect
  simp only [if_neg hship]
  by_cases hzero : s.wait.isZero = true
  · rw [if_pos hzero] at hdirect
    simp only [if_pos hzero]
    cases hdirect
    exact ⟨_, .of_eq fun _ => rfl, h.send call⟩
  rw [if_neg hzero] at hdirect
  simp only [if_neg hzero]
  cases hbody : (dispatch s.state call.proc call.args).1.head? with
  | none =>
    rw [hbody] at hdirect
    cases hdirect
  | some body =>
    rw [hbody] at hdirect
    obtain ⟨concluded, hconclude, hdirect⟩ := Outcome.bind_eq_done.mp hdirect
    cases hdirect
    obtain ⟨ct', hreceive, hsame⟩ := h.receive hlink (Nat.lt_of_succ_le hsends) hbody
    refine ⟨ct', hreceive.bind (.of_eq fun _ => ?_), hsame⟩
    simp only [hconclude, Outcome.done_bind]

/-- So does a call, whose request may be repeated. -/
theorem callAgain_dispatches (hlink : link.Works) {call : ClientCall R} {refreshes : Nat}
    {s s' : DirectState τ} {ct : ClntData} {answer : CallStat × Option R} (h : InStep dispatch server s ct)
    (hdirect : callAgain (directAttempt dispatch call) refreshes s = .done (answer, s'))
    (hsends : s'.sends ≤ 2 ^ 32) :
    ∃ ct', Outcome.Settles
        (fun fuel => callAgain (clnttlsAttempt link dispatch server fuel call) refreshes ct) (answer, ct') ∧
      InStep dispatch server s' ct' := by
  induction refreshes generalizing s ct with
  | zero =>
    obtain ⟨result, s₁, hattempt, hends⟩ := callAgain_cases hdirect
    rcases hends with ⟨stat, results, rfl, rfl, rfl⟩ | ⟨stat, rfl, ⟨-, rfl, rfl⟩ | ⟨_, hleft, -⟩⟩
    · obtain ⟨ct', hsettles, hsame⟩ := clnttlsAttempt_dispatches hlink h hattempt hsends
      exact ⟨ct', hsettles.bind (.of_eq fun _ => rfl), hsame⟩
    · obtain ⟨ct', hsettles, hsame⟩ := clnttlsAttempt_dispatches hlink h hattempt hsends
      exact ⟨ct', hsettles.bind (.of_eq fun _ => rfl), hsame⟩
    · cases hleft
  | succ refreshes ih =>
    obtain ⟨result, s₁, hattempt, hends⟩ := callAgain_cases hdirect
    rcases hends with ⟨stat, results, rfl, rfl, rfl⟩ | ⟨stat, rfl, ⟨hleft, -, -⟩ | ⟨_, hleft, hagain⟩⟩
    · obtain ⟨ct', hsettles, hsame⟩ := clnttlsAttempt_dispatches hlink h hattempt hsends
      exact ⟨ct', hsettles.bind (.of_eq fun _ => rfl), hsame⟩
    · cases hleft
    · cases hleft
      have hless := callAgain_sends hagain
      obtain ⟨ct₁, hsettles, hsame⟩ := clnttlsAttempt_dispatches hlink h hattempt (by omega)
      obtain ⟨ct', hagain', hsame'⟩ := ih hsame hagain
      exact ⟨ct', hsettles.bind hagain', hsame'⟩

/-- A client that did not send a request yet. -/
theorem InStep.start (ct : ClntData) (hsent : ct.sent = []) (hskipped : ct.skipped = 0) :
    InStep dispatch server ⟨server.state, ct.ctWait, ct.ctWaitset, 0⟩ ct := by
  refine ⟨?_, rfl, rfl, ?_, ?_, ?_⟩
  · rw [hsent]
    rfl
  · rw [hsent]
    rfl
  · rw [hsent]
    exact fun msg hmsg => (List.not_mem_nil hmsg).elim
  · rw [hskipped]
    exact Nat.zero_le _

theorem clientStep_dispatches (hlink : link.Works) {op : ClientOp R} {s s' : DirectState τ} {ct : ClntData}
    {answer : ClientAnswer R} (h : InStep dispatch server s ct)
    (hdirect : directStep dispatch s op = .done (answer, s')) (hsends : s'.sends ≤ 2 ^ 32) :
    ∃ ct', Outcome.Settles (fun fuel => clientStep link dispatch server fuel ct op) (answer, ct') ∧
      InStep dispatch server s' ct' := by
  cases op with
  | call call =>
    obtain ⟨⟨called, s₁⟩, hagain, hdirect⟩ := Outcome.bind_eq_done.mp hdirect
    cases hdirect
    have hstart : InStep dispatch server (if s.waitset then s else { s with wait := call.timeout })
        (if ct.ctWaitset then ct else { ct with ctWait := call.timeout }) := by
      rw [h.waitset]
      cases s.waitset with
      | true => exact h
      | false => exact ⟨h.state, rfl, rfl, h.sends, h.xids, h.skipped⟩
    obtain ⟨ct', hsettles, hsame⟩ := callAgain_dispatches hlink hstart hagain hsends
    exact ⟨ct', hsettles.bind (.of_eq fun _ => rfl), hsame⟩
  | setTimeout time =>
    cases hdirect
    exact ⟨_, .of_eq fun _ => rfl, ⟨h.state, rfl, rfl, h.sends, h.xids, h.skipped⟩⟩

/-- Procedures are called no less often than before. -/
theorem directStep_sends {op : ClientOp R} {s s' : DirectState τ} {answer : ClientAnswer R}
    (hdirect : directStep dispatch s op = .done (answer, s')) : s.sends ≤ s'.sends := by
  cases op with
  | call call =>
    obtain ⟨⟨called, s₁⟩, hagain, hdirect⟩ := Outcome.bind_eq_done.mp hdirect
    cases hdirect
    have hless := callAgain_sends hagain
    cases hwait : s.waitset with
    | true =>
      rw [hwait] at hless
      exact Nat.le_of_lt hless
    | false =>
      rw [hwait] at hless
      exact Nat.le_of_lt hless
  | setTimeout time =>
    cases hdirect
    exact Nat.le_refl _

theorem directRun_sends {ops : List (ClientOp R)} {s s' : DirectState τ} {answers : List (ClientAnswer R)}
    (hdirect : Refinement.run (directStep dispatch) s ops = .done (answers, s')) : s.sends ≤ s'.sends := by
  induction ops generalizing s answers with
  | nil =>
    cases hdirect
    exact Nat.le_refl _
  | cons op ops ih =>
    obtain ⟨⟨answer, s₁⟩, hstep, hdirect⟩ := Outcome.bind_eq_done.mp hdirect
    obtain ⟨⟨rest, s₂⟩, hrest, hdirect⟩ := Outcome.bind_eq_done.mp hdirect
    cases hdirect
    exact Nat.le_trans (directStep_sends hstep) (ih hrest)

theorem clientRun_inStep (hlink : link.Works) {ops : List (ClientOp R)} {s s' : DirectState τ} {ct : ClntData}
    {answers : List (ClientAnswer R)} (h : InStep dispatch server s ct)
    (hdirect : Refinement.run (directStep dispatch) s ops = .done (answers, s'))
    (hsends : s'.sends ≤ 2 ^ 32) :
    ∃ ct', Outcome.Settles (fun fuel => Refinement.run (clientStep link dispatch server fuel) ct ops)
        (answers, ct') ∧
      InStep dispatch server s' ct' := by
  induction ops generalizing s ct answers with
  | nil =>
    cases hdirect
    exact ⟨ct, .of_eq fun _ => rfl, h⟩
  | cons op ops ih =>
    obtain ⟨⟨answer, s₁⟩, hstep, hdirect⟩ := Outcome.bind_eq_done.mp hdirect
    obtain ⟨⟨rest, s₂⟩, hrest, hdirect⟩ := Outcome.bind_eq_done.mp hdirect
    cases hdirect
    obtain ⟨ct₁, hsettles, hsame⟩ :=
      clientStep_dispatches hlink h hstep (Nat.le_trans (directRun_sends hrest) hsends)
    obtain ⟨ct', hrun, hsame'⟩ := ih hsame hrest
    exact ⟨ct', hsettles.bind (hrun.bind (.of_eq fun _ => rfl)), hsame'⟩

/-- Over a connection that works, a client gets the answers that it would get from the procedures of the server
themselves, and they were called for each of its requests once and in order, as long as the numbers of
requests do not come again. -/
theorem clientRun_dispatches (hlink : link.Works) {ct : ClntData} (hsent : ct.sent = [])
    (hskipped : ct.skipped = 0) {ops : List (ClientOp R)} {answers : List (ClientAnswer R)}
    {s' : DirectState τ}
    (hdirect : Refinement.run (directStep dispatch) ⟨server.state, ct.ctWait, ct.ctWaitset, 0⟩ ops =
      .done (answers, s')) (hsends : s'.sends ≤ 2 ^ 32) :
    ∃ ct', Outcome.Settles (fun fuel => Refinement.run (clientStep link dispatch server fuel) ct ops)
        (answers, ct') ∧
      (svcRun dispatch server ct'.sent).2.state = s'.state ∧ ct'.sent.length = s'.sends := by
  obtain ⟨ct', hsettles, hsame⟩ := clientRun_inStep hlink (.start ct hsent hskipped) hdirect hsends
  exact ⟨ct', hsettles, hsame.state, hsame.sends⟩

/-- A procedure that counts its calls. -/
def counting : Dispatch Nat := fun calls _ _ => ([.accepted [UInt8.ofNat calls]], calls + 1)

/-- The reply to the first request is still on its way when the second one is sent. -/
def countTwice : List (ClientOp Bytes) :=
  [.call ⟨1, some [], some some, ⟨0, 0⟩⟩, .call ⟨1, some [], some some, ⟨60, 0⟩⟩]

theorem clientRun_dispatches_counting :
    ∃ ct', Outcome.Settles (fun fuel => Refinement.run
        (clientStep ⟨fun _ => true, fun _ => true⟩ counting ⟨0, 0⟩ fuel) ⟨7, ⟨0, 0⟩, false, [], 0⟩ countTwice)
        ([.called .timedOut none, .called .success (some [1])], ct') ∧
      (svcRun counting ⟨0, 0⟩ ct'.sent).2.state = 2 ∧ ct'.sent.length = 2 := by
  have hdirect : Refinement.run (directStep counting) ⟨0, ⟨0, 0⟩, false, 0⟩ countTwice =
      .done ([.called .timedOut none, .called .success (some [1])], ⟨2, ⟨60, 0⟩, false, 2⟩) := rfl
  exact @clientRun_dispatches Nat Bytes _ counting ⟨0, 0⟩ ⟨fun _ => rfl, fun _ => rfl⟩
    ⟨7, ⟨0, 0⟩, false, [], 0⟩ rfl rfl countTwice _ _ hdirect (by decide)

end Simulation

end Libchop
