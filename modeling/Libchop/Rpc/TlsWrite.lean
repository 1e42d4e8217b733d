import Libchop.Framework.Outcome
import Libchop.Basic
import Mathlib.Data.Nat.Find

/-!
# Writes over TLS

`xdrrec_create` is given a write callback for clients and one for servers.  GNUTLS may take less than it is given,
which the callback for clients deals with in a loop, and the one for servers does not.
-/

namespace Libchop

/-- What `gnutls_record_send` returns: how many bytes it took, or an error code. -/
inductive SendReply where
  | sent (count : Nat)
  | again
  | interrupted
  | failed
deriving DecidableEq, Repr

def SendReply.isRetry : SendReply → Bool
  | .again | .interrupted => true
  | .sent _ | .failed => false

theorem SendReply.eq_of_not_retry {reply : SendReply} (h : reply.isRetry = false) :
    reply = .failed ∨ ∃ count, reply = .sent count := by
  cases reply with
  | failed => exact .inl rfl
  | sent count => exact .inr ⟨count, rfl⟩
  | again => cases h
  | interrupted => cases h

/-- A session, with the replies to its successive sends of so many bytes, the `errno` behind them, and what it took
so far. -/
structure TlsSession where
  replies : Nat → Nat → SendReply
  errno : Nat → Nat
  calls : Nat
  taken : Bytes

namespace TlsSession

def gnutlsRecordSend (session : TlsSession) (buf : Bytes) : SendReply × TlsSession :=
  let reply := session.replies session.calls buf.length
  (reply, { session with
    calls := session.calls + 1
    taken := match reply with
      | .sent count => session.taken ++ buf.take count
      | .again | .interrupted | .failed => session.taken })

/-- A send takes some of what it is given, and is not repeated for ever. -/
structure Lawful (session : TlsSession) : Prop where
  sent : ∀ {call size count}, session.replies call size = .sent count → 0 < count ∧ count ≤ size
  settles : ∀ call size, ∃ later, call ≤ later ∧ (session.replies later size).isRetry = false

end TlsSession

def writetls : Nat → TlsSession → Bytes → Outcome (Int × TlsSession)
  | 0, _, _ => .outOfFuel
  | fuel + 1, session, buf =>
    match session.gnutlsRecordSend buf with
    | (.again, session) | (.interrupted, session) => writetls fuel session buf
    | (.failed, session) => .done (-1, session)
    | (.sent count, session) => .done (count, session)

inductive ClntStat where
  | rpcSuccess
  | rpcCantsend
deriving DecidableEq, Repr

structure RpcErr where
  reErrno : Nat
  reStatus : ClntStat
deriving DecidableEq, Repr

/-- `struct ct_data` of a client. -/
structure CtData where
  ctSession : TlsSession
  ctError : RpcErr

/-- `struct tcp_conn` of a server. -/
structure TcpConn where
  session : TlsSession

/-- The loop of `clnt_writetls`, with the bytes that are left. -/
def clntWriteLoop (len : Nat) : Nat → CtData → Bytes → Outcome (Int × CtData)
  | 0, _, _ => .outOfFuel
  | fuel + 1, ct, buf =>
    if buf.length > 0 then
      writetls fuel ct.ctSession buf >>= fun (i, session) =>
        if i = -1 then
          .done (-1, { ctSession := session, ctError := ⟨session.errno session.calls, .rpcCantsend⟩ })
        else clntWriteLoop len fuel { ct with ctSession := session } (buf.drop i.toNat)
    else .done (len, ct)

def clntWritetls (fuel : Nat) (ct : CtData) (buf : Bytes) : Outcome (Int × CtData) :=
  clntWriteLoop buf.length fuel ct buf

def svcWritetls (fuel : Nat) (cd : TcpConn) (buf : Bytes) : Outcome (Int × TcpConn) :=
  writetls fuel cd.session buf >>= fun (ret, session) => .done (ret, ⟨session⟩)

/-- What `xdrrec_create` expects of a write callback: it hands over the whole buffer, or fails. -/
def WritesAll {C : Type} (session : C → TlsSession) (writeit : Nat → C → Bytes → Outcome (Int × C)) (conn : C)
    (buf : Bytes) : Prop :=
  ∃ ret after, Outcome.Settles (fun fuel => writeit fuel conn buf) (ret, after) ∧
    (ret = buf.length ∧ (session after).taken = (session conn).taken ++ buf ∨ ret = -1)

/-- The first send that is not repeated takes the whole buffer, or fails. -/
def SendsWhole (session : TlsSession) (size : Nat) : Prop :=
  ∃ call, session.calls ≤ call ∧
    (∀ earlier, session.calls ≤ earlier → earlier < call → (session.replies earlier size).isRetry = true) ∧
    (session.replies call size = .failed ∨ session.replies call size = .sent size)

variable {session : TlsSession} {buf : Bytes}

/-- The first reply that is not an error code for which the send is repeated. -/
theorem TlsSession.Lawful.exists_first (h : session.Lawful) (size : Nat) :
    ∃ call, session.calls ≤ call ∧
      (∀ earlier, session.calls ≤ earlier → earlier < call → (session.replies earlier size).isRetry = true) ∧
      (session.replies call size).isRetry = false := by
  have hexists := h.settles session.calls size
  obtain ⟨hle, hreply⟩ := Nat.find_spec hexists
  refine ⟨Nat.find hexists, hle, ?_, hreply⟩
  intro earlier hearlier hlt
  have hmin := Nat.find_min hexists hlt
  rw [not_and] at hmin
  exact eq_true_of_ne_false (hmin hearlier)

/-- The session after the sends up to one that is not repeated. -/
def TlsSession.upTo (session : TlsSession) (call : Nat) (buf : Bytes) : TlsSession :=
  { session with
    calls := call + 1
    taken := match session.replies call buf.length with
      | .sent count => session.taken ++ buf.take count
      | .again | .interrupted | .failed => session.taken }

/-- The sends are repeated up to the first reply that is something else. -/
theorem writetls_eq {call : Nat} (hle : session.calls ≤ call)
    (hretry : ∀ earlier, session.calls ≤ earlier → earlier < call →
      (session.replies earlier buf.length).isRetry = true) :
    (session.replies call buf.length = .failed →
      Outcome.Settles (fun fuel => writetls fuel session buf) (-1, session.upTo call buf)) ∧
    ∀ count, session.replies call buf.length = .sent count →
      Outcome.Settles (fun fuel => writetls fuel session buf) (count, session.upTo call buf) := by
  induction hwait : call - session.calls generalizing session with
  | zero =>
    obtain rfl : session.calls = call := by omega
    refine ⟨fun hfailed => .of_add 1 fun fuel => ?_, fun count hsent => .of_add 1 fun fuel => ?_⟩
    · rw [writetls, TlsSession.gnutlsRecordSend, TlsSession.upTo, hfailed]
    · rw [writetls, TlsSession.gnutlsRecordSend, TlsSession.upTo, hsent]
  | succ wait ih =>
    have hfirst := hretry session.calls (Nat.le_refl _) (by omega)
    let session' : TlsSession := { session with calls := session.calls + 1 }
    have hnext : ∀ fuel, writetls (fuel + 1) session buf = writetls fuel session' buf := by
      intro fuel
      rw [writetls, TlsSession.gnutlsRecordSend]
      cases hreply : session.replies session.calls buf.length with
      | again => rfl
      | interrupted => rfl
      | sent count =>
        rw [hreply] at hfirst
        cases hfirst
      | failed =>
        rw [hreply] at hfirst
        cases hfirst
    have hretry' : ∀ earlier, session'.calls ≤ earlier → earlier < call →
        (session'.replies earlier buf.length).isRetry = true :=
      fun earlier hearlier hlt => hretry earlier (Nat.le_of_succ_le hearlier) hlt
    have hwait' : call - session'.calls = wait := by
      change call - (session.calls + 1) = wait
      omega
    have hle' : session'.calls ≤ call := by
      change session.calls + 1 ≤ call
      omega
    obtain ⟨hfailed, hsent⟩ := ih hle' hretry' hwait'
    exact ⟨fun h => (hfailed h).succ hnext, fun count h => (hsent count h).succ hnext⟩

/-- `writetls` returns how much was taken by one send, or fails. -/
theorem TlsSession.Lawful.writetls (h : session.Lawful) (buf : Bytes) :
    ∃ ret after, Outcome.Settles (fun fuel => writetls fuel session buf) (ret, after) ∧ after.Lawful ∧
      (ret = -1 ∨ ∃ count : Nat, ret = count ∧ 0 < count ∧ count ≤ buf.length ∧
        after.taken = session.taken ++ buf.take count) := by
  obtain ⟨call, hle, hretry, hreply⟩ := h.exists_first buf.length
  obtain ⟨hfailed, hsent⟩ := writetls_eq hle hretry
  have hlawful : (session.upTo call buf).Lawful := ⟨h.sent, h.settles⟩
  rcases SendReply.eq_of_not_retry hreply with hcase | ⟨count, hcase⟩
  · exact ⟨-1, _, hfailed hcase, hlawful, .inl rfl⟩
  · obtain ⟨hpos, hcount⟩ := h.sent hcase
    refine ⟨count, _, hsent count hcase, hlawful, .inr ⟨count, rfl, hpos, hcount, ?_⟩⟩
    rw [TlsSession.upTo, hcase]

theorem clntWriteLoop_more (len : Nat) (ct : CtData) (hmore : buf.length > 0) (fuel : Nat) :
    clntWriteLoop len (fuel + 1) ct buf = (writetls fuel ct.ctSession buf >>= fun (i, session) =>
      if i = -1 then
        .done (-1, { ctSession := session, ctError := ⟨session.errno session.calls, .rpcCantsend⟩ })
      else clntWriteLoop len fuel { ct with ctSession := session } (buf.drop i.toNat)) := by
  rw [clntWriteLoop, if_pos hmore]

/-- The loop hands over what is left, in as many parts as the session takes. -/
theorem clntWriteLoop_spec {ct : CtData} (h : ct.ctSession.Lawful) (len : Nat) (buf : Bytes) :
    ∃ ret after, Outcome.Settles (fun fuel => clntWriteLoop len fuel ct buf) (ret, after) ∧
      (ret = len ∧ after.ctSession.taken = ct.ctSession.taken ++ buf ∨ ret = -1) := by
  induction hleft : buf.length using Nat.strongRecOn generalizing ct buf with
  | ind left ih =>
    by_cases hmore : buf.length > 0
    case neg =>
      obtain rfl : buf = [] := List.eq_nil_of_length_eq_zero (Nat.eq_zero_of_not_pos hmore)
      refine ⟨len, ct, .of_add 1 fun fuel => if_neg hmore, .inl ⟨rfl, ?_⟩⟩
      rw [List.append_nil]
    obtain ⟨ret, session, hwrite, hlawful, hret⟩ := h.writetls buf
    rcases hret with rfl | ⟨count, rfl, hpos, hcount, htaken⟩
    · exact ⟨-1, _, Outcome.Settles.succ (clntWriteLoop_more len ct hmore)
        (hwrite.bind (.of_eq fun _ => if_pos rfl)), .inr rfl⟩
    · have hnone : ¬ (count : Int) = -1 := by omega
      have hless : (buf.drop count).length < left := by
        rw [List.length_drop]
        omega
      obtain ⟨ret, after, hloop, hret⟩ :=
        ih _ hless (show CtData.ctSession { ct with ctSession := session } |>.Lawful from hlawful)
          (buf.drop count) rfl
      refine ⟨ret, after, Outcome.Settles.succ (clntWriteLoop_more len ct hmore) (hwrite.bind ?_), ?_⟩
      · exact hloop.imp fun fuel hdone => (if_neg hnone).trans hdone
      · refine hret.imp_left fun hall => ⟨hall.1, ?_⟩
        rw [hall.2, htaken, List.append_assoc, List.take_append_drop]

/-- One send is not enough for the server, unless it takes the whole buffer or fails. -/
theorem svcWritetls_writesAll_iff {cd : TcpConn} (h : cd.session.Lawful) (buf : Bytes) :
    WritesAll TcpConn.session svcWritetls cd buf ↔ SendsWhole cd.session buf.length := by
  obtain ⟨call, hle, hretry, hreply⟩ := h.exists_first buf.length
  obtain ⟨hfailed, hsent⟩ := writetls_eq hle hretry
  constructor
  · rintro ⟨ret, after, hrun, hret⟩
    refine ⟨call, hle, hretry, ?_⟩
    rcases SendReply.eq_of_not_retry hreply with hcase | ⟨count, hcase⟩
    · exact .inl hcase
    · have hdone : Outcome.Settles (fun fuel => svcWritetls fuel cd buf)
          ((count : Int), ⟨cd.session.upTo call buf⟩) := (hsent count hcase).bind (.of_eq fun _ => rfl)
      cases hrun.unique hdone
      have hcount : count = buf.length := by omega
      rw [hcase, hcount]
      exact .inr rfl
  · rintro ⟨call, hle, hretry, hreply⟩
    obtain ⟨hfailed, hsent⟩ := writetls_eq hle hretry
    rcases hreply with hreply | hreply
    · exact ⟨-1, _, (hfailed hreply).bind (.of_eq fun _ => rfl), .inr rfl⟩
    · refine ⟨buf.length, _, (hsent _ hreply).bind (.of_eq fun _ => rfl), .inl ⟨rfl, ?_⟩⟩
      simp only [TlsSession.upTo, hreply, List.take_length]

/-- The callback for clients hands over the whole buffer or fails, however sessions reply, and the callback for
servers just in case the first send that is not repeated does. -/
theorem writeCallbacks_writeAll_iff {ct : CtData} {cd : TcpConn} (hct : ct.ctSession.Lawful)
    (hcd : cd.session.Lawful) (buf : Bytes) :
    WritesAll CtData.ctSession clntWritetls ct buf ∧
      (WritesAll TcpConn.session svcWritetls cd buf ↔ SendsWhole cd.session buf.length) :=
  ⟨clntWriteLoop_spec hct buf.length buf, svcWritetls_writesAll_iff hcd buf⟩

/-- A session that takes at most so many bytes at once. -/
def TlsSession.records (limit : Nat) : TlsSession where
  replies _ size := if size = 0 then .failed else .sent (min (limit + 1) size)
  errno _ := 0
  calls := 0
  taken := []

theorem TlsSession.records_lawful (limit : Nat) : (TlsSession.records limit).Lawful where
  sent {_ size count} hreply := by
    by_cases hnone : size = 0
    · cases (if_pos hnone).symm.trans hreply
    · cases (if_neg hnone).symm.trans hreply
      omega
  settles call size := by
    refine ⟨call, Nat.le_refl _, ?_⟩
    by_cases hnone : size = 0
    · exact congrArg SendReply.isRetry (if_pos hnone)
    · exact congrArg SendReply.isRetry (if_neg hnone)

/-- Three bytes in records of two. -/
theorem writeCallbacks_writeAll_iff_three :
    WritesAll CtData.ctSession clntWritetls ⟨.records 1, ⟨0, .rpcSuccess⟩⟩ [1, 2, 3] ∧
      (WritesAll TcpConn.session svcWritetls ⟨.records 1⟩ [1, 2, 3] ↔ SendsWhole (.records 1) 3) :=
  writeCallbacks_writeAll_iff (TlsSession.records_lawful 1) (TlsSession.records_lawful 1) [1, 2, 3]

/-- Of three bytes in records of two, the server reports the first two. -/
theorem three_bytes_not_written : ¬ ∀ (cd : TcpConn) (buf : Bytes), cd.session.Lawful →
    WritesAll TcpConn.session svcWritetls cd buf := by
  intro h
  obtain ⟨ret, after, hrun, hret⟩ := h ⟨.records 1⟩ [1, 2, 3] (TlsSession.records_lawful 1)
  have htwo : Outcome.Settles (fun fuel => svcWritetls fuel ⟨.records 1⟩ [1, 2, 3])
      (2, ⟨{ TlsSession.records 1 with calls := 1, taken := [1, 2] }⟩) := .of_add 1 fun _ => rfl
  cases hrun.unique htwo
  exact absurd hret (by decide)

end Libchop
