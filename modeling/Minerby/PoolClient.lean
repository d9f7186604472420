/-
The client interface of the main program: two protocols behind the same calls,
and what the two clients have in common about request ids.
-/
import Minerby.MoneroJob

namespace Minerby

/-- What `cfg.protocol` selects. -/
inductive Protocol where
  | stratum
  | monero
deriving Repr, DecidableEq

inductive PoolClient where
  | stratum (client : StratumV1Client)
  | monero (client : MoneroClient)

/-- The arguments of `on_submit_result`. -/
def Callback.result? : Callback → Option (Bool × String)
  | .onJob _ _ => none
  | .onSubmitResult accepted error => some (accepted, error)

namespace PoolClient

def make (protocol : Protocol) (user pass : String) : PoolClient :=
  match protocol with
  | .stratum => .stratum { user := user, pass := pass }
  | .monero => .monero { user := user, pass := pass }

def conn : PoolClient → TcpClient
  | .stratum c => c.conn
  | .monero c => c.conn

def connected (c : PoolClient) : Bool := c.conn.isOpen

def nextId : PoolClient → Int
  | .stratum c => c.nextId
  | .monero c => c.nextId

def lastSubmitId : PoolClient → Int
  | .stratum c => c.lastSubmitId
  | .monero c => c.lastSubmitId

/-- The ids a response is compared with before the last submit's. -/
def handshakeIds : PoolClient → List Int
  | .stratum c => [c.subscribeId, c.authorizeId]
  | .monero c => [c.loginId]

/-- `connect` up to its polling loop.  The second script is for the Stratum
client's second message. -/
def connectStart (text : JsonText) (c : PoolClient) (opened : Option Nat)
    (firstSends secondSends : List SendResult) : Bool × PoolClient :=
  match c with
  | .stratum c => (c.connectStart text opened firstSends secondSends).map id .stratum
  | .monero c => (c.connectStart text opened firstSends).map id .monero

/-- What the loop of `connect` waits for and `connect` returns after it. -/
def ready : PoolClient → Bool
  | .stratum c => c.extranonce1 ≠ ""
  | .monero c => c.loggedIn

def disconnect : PoolClient → PoolClient
  | .stratum c => .stratum c.disconnect
  | .monero c => .monero c.disconnect

/-- `poll`, where `due` says whether a keepalive is due. -/
def poll (text : JsonText) (c : PoolClient) (due : Bool)
    (script : List RecvResult) :
    Except Fault (Bool × PoolClient × Option Callback × List RecvResult) :=
  match c with
  | .stratum c => do
      let (flag, c, callback, rest) ← c.poll text script
      return (flag, .stratum c, callback, rest)
  | .monero c => do
      let (flag, c, callback, rest) ← c.poll text due script
      return (flag, .monero c, callback, rest)

def submit (c : PoolClient) (job : MiningJob) (nonce : UInt32)
    (digest : Hash256) : PoolClient × Json :=
  match c with
  | .stratum c => (c.submit job nonce).map .stratum id
  | .monero c => (c.submit job nonce digest).map .monero id

/-- The id of a message that the client takes for a response. -/
def dispatchId (c : PoolClient) (msg : Json) : Option Int :=
  match c with
  | .stratum _ =>
      match StratumV1Client.received msg with
      | .ok (.response id) => some id
      | _ => none
  | .monero _ =>
      match MoneroClient.received msg with
      | .ok (.response id) => some id
      | _ => none

/-- The message reaches the branch that invokes `on_submit_result`. -/
def TakesForResult (c : PoolClient) (msg : Json) : Prop :=
  c.dispatchId msg = some c.lastSubmitId ∧ c.lastSubmitId ∉ c.handshakeIds

instance (c : PoolClient) (msg : Json) : Decidable (c.TakesForResult msg) :=
  inferInstanceAs (Decidable (_ ∧ _))

/-- The verdict and the error text of a response to a submit. -/
def verdict (text : JsonText) (c : PoolClient) (msg : Json) :
    Except Fault (Bool × String) :=
  match c with
  | .stratum _ =>
      .ok (StratumV1Client.responseOk msg, StratumV1Client.errorText text msg)
  | .monero _ => do
      let err := StratumV1Client.errorText text msg
      return (← MoneroClient.responseOk err msg, err)

end PoolClient

namespace StratumV1Client

/-- Handling a message leaves the request ids alone. -/
theorem handleMessage_ids {text : JsonText} {c c' : StratumV1Client}
    {msg : Json} {callback : Option Callback}
    (hok : handleMessage text c msg = .ok (c', callback)) :
    c'.nextId = c.nextId ∧ c'.lastSubmitId = c.lastSubmitId ∧
      c'.subscribeId = c.subscribeId ∧ c'.authorizeId = c.authorizeId := by
  rw [handleMessage_eq] at hok
  obtain ⟨received, -, hok⟩ := bind_eq_ok.mp hok
  cases received with
  | setDifficulty difficulty =>
      rcases (rebuildJob_eq_ok hok).1 with rfl | rfl <;>
        exact ⟨rfl, rfl, rfl, rfl⟩
  | notify job =>
      rcases (rebuildJob_eq_ok hok).1 with rfl | rfl <;>
        exact ⟨rfl, rfl, rfl, rfl⟩
  | reconnect =>
      obtain ⟨rfl, rfl⟩ := Prod.mk.inj (Except.ok.inj hok)
      exact ⟨rfl, rfl, rfl, rfl⟩
  | response id =>
      obtain ⟨⟨xn1, size, rfl⟩, -⟩ := handleResponse_eq_ok hok
      exact ⟨rfl, rfl, rfl, rfl⟩
  | nothing =>
      obtain ⟨rfl, rfl⟩ := Prod.mk.inj (Except.ok.inj hok)
      exact ⟨rfl, rfl, rfl, rfl⟩

/-- Handling a message leaves the connection alone or, on a reconnect request,
closes it and invokes nothing. -/
theorem handleMessage_conn {text : JsonText} {c c' : StratumV1Client}
    {msg : Json} {callback : Option Callback}
    (hok : handleMessage text c msg = .ok (c', callback)) :
    c'.conn = c.conn ∨ c'.conn = c.conn.close ∧ callback = none ∧
      received msg = .ok .reconnect := by
  rw [handleMessage_eq] at hok
  obtain ⟨received, hreceived, hok⟩ := bind_eq_ok.mp hok
  cases received with
  | setDifficulty difficulty =>
      rcases (rebuildJob_eq_ok hok).1 with rfl | rfl <;> exact Or.inl rfl
  | notify job =>
      rcases (rebuildJob_eq_ok hok).1 with rfl | rfl <;> exact Or.inl rfl
  | reconnect =>
      obtain ⟨rfl, rfl⟩ := Prod.mk.inj (Except.ok.inj hok)
      exact Or.inr ⟨rfl, rfl, hreceived⟩
  | response id =>
      obtain ⟨⟨xn1, size, rfl⟩, -⟩ := handleResponse_eq_ok hok
      exact Or.inl rfl
  | nothing =>
      obtain ⟨rfl, rfl⟩ := Prod.mk.inj (Except.ok.inj hok)
      exact Or.inl rfl

theorem handleMessage_takes (text : JsonText) {c : StratumV1Client} {msg : Json}
    (htakes : (PoolClient.stratum c).TakesForResult msg) :
    handleMessage text c msg = .ok (c,
      some (.onSubmitResult (responseOk msg) (errorText text msg))) := by
  obtain ⟨hdispatch, hother⟩ := htakes
  simp only [PoolClient.dispatchId] at hdispatch
  split at hdispatch
  · rename_i id hreceived
    obtain rfl := Option.some.inj hdispatch
    simp only [PoolClient.handshakeIds, List.mem_cons, List.not_mem_nil,
      or_false, not_or] at hother
    rw [handleMessage_eq, hreceived]
    change handleResponse text c msg _ = _
    simp only [handleResponse, PoolClient.lastSubmitId] at hother ⊢
    simp only [hother, ↓reduceIte]
  · cases hdispatch

theorem handleMessage_no_result {text : JsonText} {c c' : StratumV1Client}
    {msg : Json} {callback : Option Callback}
    (hok : handleMessage text c msg = .ok (c', callback))
    (htakes : ¬ (PoolClient.stratum c).TakesForResult msg) :
    callback.bind Callback.result? = none := by
  rw [handleMessage_eq] at hok
  obtain ⟨received, hreceived, hok⟩ := bind_eq_ok.mp hok
  cases received with
  | setDifficulty difficulty =>
      rcases (rebuildJob_eq_ok hok).2 with rfl | ⟨xn2, mj, -, -, -, rfl⟩ <;> rfl
  | notify job =>
      rcases (rebuildJob_eq_ok hok).2 with rfl | ⟨xn2, mj, -, -, -, rfl⟩ <;> rfl
  | reconnect =>
      obtain ⟨rfl, rfl⟩ := Prod.mk.inj (Except.ok.inj hok)
      rfl
  | response id =>
      by_cases hsubscribe : id = c.subscribeId
      · subst hsubscribe
        obtain ⟨accepted, xn1, size, -, -, rfl⟩ := handleResponse_subscribe hok
        rfl
      · simp only [handleReceived, handleResponse, if_neg hsubscribe] at hok
        split at hok
        · obtain ⟨-, rfl⟩ := Prod.mk.inj (Except.ok.inj hok)
          rfl
        · rename_i hauthorize
          split at hok
          · rename_i hlast
            refine absurd ⟨?_, ?_⟩ htakes
            · simp only [PoolClient.dispatchId, hreceived, hlast]
              rfl
            · simp only [PoolClient.handshakeIds, PoolClient.lastSubmitId,
                ← hlast, List.mem_cons, hsubscribe, hauthorize,
                List.not_mem_nil, or_self, not_false_iff]
          · obtain ⟨-, rfl⟩ := Prod.mk.inj (Except.ok.inj hok)
            rfl
  | nothing =>
      obtain ⟨rfl, rfl⟩ := Prod.mk.inj (Except.ok.inj hok)
      rfl

end StratumV1Client

namespace MoneroClient

/-- The request ids and the absence of a result callback, which applying a job
and handling a login reply have in common. -/
structure Uncounted (c c' : MoneroClient) (callback : Option Callback) :
    Prop where
  nextId : c'.nextId = c.nextId
  lastSubmitId : c'.lastSubmitId = c.lastSubmitId
  loginId : c'.loginId = c.loginId
  conn : c'.conn = c.conn
  no_result : callback.bind Callback.result? = none

theorem applyJob_uncounted {c c' : MoneroClient} {j : Json} {taken : Bool}
    {callback : Option Callback}
    (hok : c.applyJob j = .ok (taken, c', callback)) :
    Uncounted c c' callback := by
  rcases applyJob_eq_ok hok with
    ⟨-, -, rfl, rfl⟩ | ⟨mj, -, rfl, ⟨-, rfl, -⟩ | ⟨seed, -, -, rfl⟩⟩ <;>
    exact ⟨rfl, rfl, rfl, rfl, rfl⟩

theorem handleLogin_uncounted {c c' : MoneroClient} {msg : Json}
    {callback : Option Callback} (hok : handleLogin c msg = .ok (c', callback)) :
    Uncounted c c' callback := by
  obtain ⟨result, -, hok⟩ := bind_eq_ok.mp hok
  obtain ⟨rpcId, -, hok⟩ := bind_eq_ok.mp hok
  simp only at hok
  split at hok
  · rename_i job hjob
    obtain ⟨⟨taken, c₁, callback₁⟩, happlied, hok⟩ := bind_eq_ok.mp hok
    obtain ⟨rfl, rfl⟩ := Prod.mk.inj (Except.ok.inj hok)
    have happly := applyJob_uncounted happlied
    exact ⟨happly.nextId, happly.lastSubmitId, happly.loginId, happly.conn,
      happly.no_result⟩
  · obtain ⟨rfl, rfl⟩ := Prod.mk.inj (Except.ok.inj hok)
    exact ⟨rfl, rfl, rfl, rfl, rfl⟩

theorem handle_takes (text : JsonText) {c : MoneroClient} {msg : Json}
    (htakes : (PoolClient.monero c).TakesForResult msg) :
    handle text c msg =
      (PoolClient.monero c).verdict text msg >>= fun verdict =>
        .ok (c, some (.onSubmitResult verdict.1 verdict.2)) := by
  obtain ⟨hdispatch, hother⟩ := htakes
  simp only [PoolClient.dispatchId] at hdispatch
  split at hdispatch
  · rename_i id hreceived
    obtain rfl := Option.some.inj hdispatch
    simp only [PoolClient.handshakeIds, List.mem_singleton] at hother
    rw [handle_eq, hreceived]
    change handleResponse text c msg _ = _
    simp only [handleResponse, PoolClient.lastSubmitId] at hother ⊢
    simp only [hother, ↓reduceIte, PoolClient.verdict]
    cases responseOk (StratumV1Client.errorText text msg) msg <;> rfl
  · cases hdispatch

theorem handle_uncounted {text : JsonText} {c c' : MoneroClient} {msg : Json}
    {callback : Option Callback}
    (hok : handle text c msg = .ok (c', callback))
    (htakes : ¬ (PoolClient.monero c).TakesForResult msg) :
    Uncounted c c' callback := by
  rw [handle_eq] at hok
  obtain ⟨received, hreceived, hok⟩ := bind_eq_ok.mp hok
  cases received with
  | job params =>
      obtain ⟨⟨taken, c₁, callback₁⟩, happlied, hok⟩ := bind_eq_ok.mp hok
      obtain ⟨rfl, rfl⟩ := Prod.mk.inj (Except.ok.inj hok)
      exact applyJob_uncounted happlied
  | response id =>
      simp only [handleReceived, handleResponse] at hok
      split at hok
      · split at hok
        · obtain ⟨rfl, rfl⟩ := Prod.mk.inj (Except.ok.inj hok)
          exact ⟨rfl, rfl, rfl, rfl, rfl⟩
        · exact handleLogin_uncounted hok
      · rename_i hlogin
        split at hok
        · rename_i hlast
          refine absurd ⟨?_, ?_⟩ htakes
          · simp only [PoolClient.dispatchId, hreceived, hlast]
            rfl
          · simp only [PoolClient.handshakeIds, PoolClient.lastSubmitId,
              ← hlast, List.mem_singleton, hlogin, not_false_iff]
        · obtain ⟨rfl, rfl⟩ := Prod.mk.inj (Except.ok.inj hok)
          exact ⟨rfl, rfl, rfl, rfl, rfl⟩
  | nothing =>
      obtain ⟨rfl, rfl⟩ := Prod.mk.inj (Except.ok.inj hok)
      exact ⟨rfl, rfl, rfl, rfl, rfl⟩

/-- Handling a message leaves the connection and the id of the login alone. -/
theorem handle_kept {text : JsonText} {c c' : MoneroClient} {msg : Json}
    {callback : Option Callback}
    (hok : handle text c msg = .ok (c', callback)) :
    c'.conn = c.conn ∧ c'.loginId = c.loginId := by
  by_cases htakes : (PoolClient.monero c).TakesForResult msg
  · rw [handle_takes text htakes] at hok
    obtain ⟨verdict, -, hok⟩ := bind_eq_ok.mp hok
    obtain ⟨rfl, -⟩ := Prod.mk.inj (Except.ok.inj hok)
    exact ⟨rfl, rfl⟩
  · have hkept := handle_uncounted hok htakes
    exact ⟨hkept.conn, hkept.loginId⟩

end MoneroClient

namespace PoolClient

open StratumV1Client (succId)

/-- The client after the keepalive and the receiving part of a `poll`. -/
def receive (c : PoolClient) (due : Bool) (script : List RecvResult) :
    PoolClient :=
  match c with
  | .stratum c => .stratum { c with conn := (c.conn.readLine script).2.1 }
  | .monero c =>
      .monero { c.maybeKeepalive due with
        conn := (c.conn.readLine script).2.1 }

/-- What the client does with a message. -/
def handle (text : JsonText) (c : PoolClient) (msg : Json) :
    Except Fault (PoolClient × Option Callback) :=
  match c with
  | .stratum c =>
      StratumV1Client.handleMessage text c msg >>= fun result =>
        .ok (.stratum result.1, result.2)
  | .monero c =>
      MoneroClient.handle text c msg >>= fun result =>
        .ok (.monero result.1, result.2)

/-- A `poll` handles the message it reads, or only receives bytes. -/
theorem poll_eq (text : JsonText) (c : PoolClient) (due : Bool)
    (script : List RecvResult) :
    c.poll text due script =
      match text.incoming c.conn script with
      | none => .ok ((c.conn.readLine script).1.isSome ||
          (c.conn.readLine script).2.1.isOpen, c.receive due script, none,
          (c.conn.readLine script).2.2)
      | some msg => (c.receive due script).handle text msg >>= fun result =>
          .ok (true, result.1, result.2, (c.conn.readLine script).2.2) := by
  cases c with
  | stratum c =>
      simp only [poll, StratumV1Client.poll_eq, receive, handle, PoolClient.conn]
      cases text.incoming c.conn script with
      | none => rfl
      | some msg =>
          simp only
          cases StratumV1Client.handleMessage text { c with
            conn := (c.conn.readLine script).2.1 } msg <;> rfl
  | monero c =>
      simp only [poll, MoneroClient.poll_eq, receive, handle, PoolClient.conn]
      cases text.incoming c.conn script with
      | none => rfl
      | some msg =>
          simp only
          cases MoneroClient.handle text { c.maybeKeepalive due with
            conn := (c.conn.readLine script).2.1 } msg <;> rfl

theorem poll_eq_ok {text : JsonText} {c c' : PoolClient} {due flag : Bool}
    {script rest : List RecvResult} {callback : Option Callback}
    (hok : c.poll text due script = .ok (flag, c', callback, rest)) :
    text.incoming c.conn script = none ∧ c' = c.receive due script ∧
        callback = none ∨
      ∃ msg, text.incoming c.conn script = some msg ∧
        (c.receive due script).handle text msg = .ok (c', callback) := by
  rw [poll_eq] at hok
  cases hmsg : text.incoming c.conn script with
  | none =>
      simp only [hmsg, Except.ok.injEq, Prod.mk.injEq] at hok
      exact Or.inl ⟨rfl, hok.2.1.symm, hok.2.2.1.symm⟩
  | some msg =>
      simp only [hmsg] at hok
      obtain ⟨⟨c₁, callback₁⟩, hhandled, hok⟩ := bind_eq_ok.mp hok
      simp only [Except.ok.injEq, Prod.mk.injEq] at hok
      obtain ⟨-, rfl, rfl, -⟩ := hok
      exact Or.inr ⟨msg, rfl, hhandled⟩

/-- What a poll leaves of the request ids: at most one is taken, for a
keepalive. -/
structure IdsKept (c c' : PoolClient) : Prop where
  nextId : c'.nextId = c.nextId ∨ c'.nextId = succId c.nextId
  lastSubmitId : c'.lastSubmitId = c.lastSubmitId
  handshakeIds : c'.handshakeIds = c.handshakeIds

/-- A keepalive and new bytes change no id but the next one. -/
theorem receive_idsKept (c : PoolClient) (due : Bool)
    (script : List RecvResult) : IdsKept c (c.receive due script) := by
  cases c with
  | stratum c => exact ⟨Or.inl rfl, rfl, rfl⟩
  | monero c =>
      unfold receive MoneroClient.maybeKeepalive
      simp only
      split
      · exact ⟨Or.inl rfl, rfl, rfl⟩
      · split
        · exact ⟨Or.inr rfl, rfl, rfl⟩
        · exact ⟨Or.inl rfl, rfl, rfl⟩

theorem receive_takes (c : PoolClient) (due : Bool) (script : List RecvResult)
    (msg : Json) :
    (c.receive due script).TakesForResult msg ↔ c.TakesForResult msg := by
  have hkept := c.receive_idsKept due script
  have hdispatch : (c.receive due script).dispatchId msg = c.dispatchId msg := by
    cases c <;> rfl
  simp only [TakesForResult, hkept.lastSubmitId, hkept.handshakeIds, hdispatch]

/-- A message that the client takes for a submit's response. -/
theorem handle_takes (text : JsonText) {c : PoolClient} {msg : Json}
    (htakes : c.TakesForResult msg) :
    c.handle text msg = c.verdict text msg >>= fun verdict =>
      .ok (c, some (.onSubmitResult verdict.1 verdict.2)) := by
  cases c with
  | stratum c =>
      simp only [handle, StratumV1Client.handleMessage_takes text htakes]
      rfl
  | monero c =>
      simp only [handle, MoneroClient.handle_takes text htakes]
      cases (PoolClient.monero c).verdict text msg <;> rfl

/-- Any other message changes no id and invokes no `on_submit_result`. -/
theorem handle_no_result {text : JsonText} {c c' : PoolClient} {msg : Json}
    {callback : Option Callback}
    (hok : c.handle text msg = .ok (c', callback))
    (htakes : ¬ c.TakesForResult msg) :
    c'.nextId = c.nextId ∧ c'.lastSubmitId = c.lastSubmitId ∧
      c'.handshakeIds = c.handshakeIds ∧
      callback.bind Callback.result? = none := by
  cases c with
  | stratum c =>
      obtain ⟨⟨c₁, callback₁⟩, hhandled, hok⟩ := bind_eq_ok.mp hok
      obtain ⟨rfl, rfl⟩ := Prod.mk.inj (Except.ok.inj hok)
      obtain ⟨hnext, hlast, hsubscribe, hauthorize⟩ :=
        StratumV1Client.handleMessage_ids hhandled
      refine ⟨hnext, hlast, ?_,
        StratumV1Client.handleMessage_no_result hhandled htakes⟩
      simp only [handshakeIds, hsubscribe, hauthorize]
  | monero c =>
      obtain ⟨⟨c₁, callback₁⟩, hhandled, hok⟩ := bind_eq_ok.mp hok
      obtain ⟨rfl, rfl⟩ := Prod.mk.inj (Except.ok.inj hok)
      have huncounted := MoneroClient.handle_uncounted hhandled htakes
      refine ⟨huncounted.nextId, huncounted.lastSubmitId, ?_,
        huncounted.no_result⟩
      simp only [handshakeIds, huncounted.loginId]

/-- A poll that reads a message it takes for a submit's response invokes
`on_submit_result` with the verdict, or throws where the verdict does. -/
theorem poll_takes {text : JsonText} {c : PoolClient} (due : Bool)
    {script : List RecvResult} {msg : Json}
    (hmsg : text.incoming c.conn script = some msg)
    (htakes : c.TakesForResult msg) :
    ∃ c' rest, IdsKept c c' ∧
      c.poll text due script = c.verdict text msg >>= fun verdict =>
        .ok (true, c', some (.onSubmitResult verdict.1 verdict.2), rest) := by
  refine ⟨c.receive due script, (c.conn.readLine script).2.2,
    c.receive_idsKept due script, ?_⟩
  have hverdict : (c.receive due script).verdict text msg =
      c.verdict text msg := by
    cases c <;> rfl
  have hhandled := handle_takes text ((c.receive_takes due script msg).mpr htakes)
  simp only [poll_eq, hmsg, hhandled, hverdict]
  cases c.verdict text msg <;> rfl

/-- A poll that reads no such message invokes no `on_submit_result`. -/
theorem poll_no_result {text : JsonText} {c c' : PoolClient} {due flag : Bool}
    {script rest : List RecvResult} {callback : Option Callback}
    (hok : c.poll text due script = .ok (flag, c', callback, rest))
    (htakes : ∀ msg, text.incoming c.conn script = some msg →
      ¬ c.TakesForResult msg) :
    IdsKept c c' ∧ callback.bind Callback.result? = none := by
  have hkept := c.receive_idsKept due script
  rcases poll_eq_ok hok with ⟨-, rfl, rfl⟩ | ⟨msg, hmsg, hhandled⟩
  · exact ⟨hkept, rfl⟩
  · obtain ⟨hnext, hlast, hhandshake, hnone⟩ := handle_no_result hhandled
      (mt (c.receive_takes due script msg).mp (htakes msg hmsg))
    refine ⟨⟨?_, hlast.trans hkept.lastSubmitId,
      hhandshake.trans hkept.handshakeIds⟩, hnone⟩
    rw [hnext]
    exact hkept.nextId

theorem receive_conn (c : PoolClient) (due : Bool) (script : List RecvResult) :
    (c.receive due script).conn = (c.conn.readLine script).2.1 := by
  cases c <;> rfl

/-- Receiving does not change the socket. -/
theorem receive_sock (c : PoolClient) (due : Bool) (script : List RecvResult) :
    (c.receive due script).conn.sock = c.conn.sock := by
  rw [receive_conn]
  unfold TcpClient.readLine
  split <;> rfl

/-- A message leaves the connection alone, or closes it and invokes nothing. -/
theorem handle_conn {text : JsonText} {c c' : PoolClient} {msg : Json}
    {callback : Option Callback}
    (hok : c.handle text msg = .ok (c', callback)) :
    c'.conn = c.conn ∨ c'.conn = c.conn.close ∧ callback = none := by
  cases c with
  | stratum c =>
      obtain ⟨⟨c₁, callback₁⟩, hhandled, hok⟩ := bind_eq_ok.mp hok
      obtain ⟨rfl, rfl⟩ := Prod.mk.inj (Except.ok.inj hok)
      rcases StratumV1Client.handleMessage_conn hhandled with hsame | hclosed
      · exact Or.inl hsame
      · exact Or.inr ⟨hclosed.1, hclosed.2.1⟩
  | monero c =>
      obtain ⟨⟨c₁, callback₁⟩, hhandled, hok⟩ := bind_eq_ok.mp hok
      obtain ⟨rfl, rfl⟩ := Prod.mk.inj (Except.ok.inj hok)
      exact Or.inl (MoneroClient.handle_kept hhandled).1

/-- A poll receives bytes; a message it reads may make it close the connection,
and then it invokes nothing. -/
theorem poll_conn {text : JsonText} {c c' : PoolClient} {due flag : Bool}
    {script rest : List RecvResult} {callback : Option Callback}
    (hok : c.poll text due script = .ok (flag, c', callback, rest)) :
    c'.conn = (c.conn.readLine script).2.1 ∨
      c'.conn = (c.conn.readLine script).2.1.close ∧ callback = none ∧
        (text.incoming c.conn script).isSome = true := by
  rw [← c.receive_conn due script]
  rcases poll_eq_ok hok with ⟨-, rfl, rfl⟩ | ⟨msg, hmsg, hhandled⟩
  · exact Or.inl rfl
  · rcases handle_conn hhandled with hsame | ⟨hclosed, hnone⟩
    · exact Or.inl hsame
    · exact Or.inr ⟨hclosed, hnone, by rw [hmsg]; rfl⟩

/-- A poll leaves the socket alone, or closes it and invokes nothing. -/
theorem poll_sock {text : JsonText} {c c' : PoolClient} {due flag : Bool}
    {script rest : List RecvResult} {callback : Option Callback}
    (hok : c.poll text due script = .ok (flag, c', callback, rest)) :
    c'.conn.sock = c.conn.sock ∨ c'.conn.sock = none ∧ callback = none := by
  rw [← c.receive_sock due script, c.receive_conn due script]
  rcases poll_conn hok with hconn | ⟨hconn, hnone, -⟩
  · exact Or.inl (congrArg TcpClient.sock hconn)
  · exact Or.inr ⟨congrArg TcpClient.sock hconn, hnone⟩

/-- `connect` leaves the client with the connection that was opened, and
nothing received on it, also when it fails later. -/
theorem connectStart_conn (text : JsonText) (c : PoolClient)
    (opened : Option Nat) (firstSends secondSends : List SendResult) :
    (c.connectStart text opened firstSends secondSends).2.conn =
      { sock := opened } := by
  cases c with
  | stratum c =>
      cases opened with
      | none => rfl
      | some handle =>
          simp only [connectStart, StratumV1Client.connectStart,
            TcpClient.connect, Option.isSome_some]
          split <;> rfl
  | monero c => cases opened <;> rfl

theorem connectStart_sock (text : JsonText) (c : PoolClient)
    (opened : Option Nat) (firstSends secondSends : List SendResult) :
    (c.connectStart text opened firstSends secondSends).2.conn.sock =
      opened := by
  rw [connectStart_conn]

theorem disconnect_sock (c : PoolClient) : c.disconnect.conn.sock = none := by
  cases c <;> rfl

theorem submit_sock (c : PoolClient) (job : MiningJob) (nonce : UInt32)
    (digest : Hash256) :
    (c.submit job nonce digest).1.conn.sock = c.conn.sock := by
  cases c <;> rfl

end PoolClient

/-- A poll of the Monero client leaves the socket alone or closes it. -/
theorem MoneroClient.poll_sock {text : JsonText} {c c' : MoneroClient}
    {due flag : Bool} {script rest : List RecvResult}
    {callback : Option Callback}
    (hok : c.poll text due script = .ok (flag, c', callback, rest)) :
    c'.conn.sock = c.conn.sock ∨ c'.conn.sock = none := by
  have hpool : (PoolClient.monero c).poll text due script =
      .ok (flag, .monero c', callback, rest) := by
    simp only [PoolClient.poll, hok]
    rfl
  exact (PoolClient.poll_sock hpool).imp_right And.left

end Minerby
