/-
`connect` as a whole: the messages it sends and the loop that polls until one
field of the client is set.  The loop does not ask on which connection the field
was set, and a `connect` that gives up leaves the socket as it is.
-/
import Minerby.HeldNotify
import Minerby.RejectedJob

namespace Minerby

/-- What one poll meets: whether a keepalive is due, and what `recv` returns. -/
structure PollInput where
  due : Bool := false
  script : List RecvResult := []

/-- What `connect` did: the returned flag, the client it leaves, the messages it
read and the callbacks it invoked. -/
structure Handshake where
  result : Bool
  client : PoolClient
  read : List Json := []
  callbacks : List Callback := []

/-- The messages that so many reads of a connection give, while it is open. -/
def TcpClient.messages (text : JsonText) :
    Nat → (Nat → PollInput) → TcpClient → List Json
  | 0, _, _ => []
  | count + 1, polls, conn =>
      (text.incoming conn (polls 0).script).toList ++
        messages text count (fun i => polls (i + 1))
          (conn.readLine (polls 0).script).2.1

/-- A read returns no line from a closed connection, and closes none. -/
theorem TcpClient.readLine_isOpen (conn : TcpClient)
    (script : List RecvResult) :
    ((conn.readLine script).1.isSome || (conn.readLine script).2.1.isOpen) =
      conn.isOpen := by
  unfold readLine
  split
  · rename_i hopen
    rw [hopen]
    exact (congrArg _ hopen).trans (Bool.or_true _)
  · rfl

def StratumV1Client.Received.isReconnect : Received → Bool
  | .reconnect => true
  | _ => false

/-- The message makes the client close the connection. -/
def Protocol.AsksReconnect (protocol : Protocol) (msg : Json) : Prop :=
  match protocol with
  | .stratum => StratumV1Client.received msg = .ok .reconnect
  | .monero => False

namespace PoolClient

def protocol : PoolClient → Protocol
  | .stratum _ => .stratum
  | .monero _ => .monero

/-- The rounds of the loop in `connect`. -/
def connectPolls : Nat := 20

/-- The loop of `connect`, with so many rounds left. -/
def connectLoop (text : JsonText) :
    Nat → (Nat → PollInput) → PoolClient → Except Fault Handshake
  | 0, _, c => .ok { result := c.ready, client := c }
  | left + 1, polls, c =>
      if c.ready then .ok { result := true, client := c }
      else
        match c.poll text (polls 0).due (polls 0).script with
        | .error fault => .error fault
        | .ok (flag, next, callback, _) =>
            let read := (text.incoming c.conn (polls 0).script).toList
            if flag then do
              let h ← connectLoop text left (fun i => polls (i + 1)) next
              return { h with
                read := read ++ h.read
                callbacks := callback.toList ++ h.callbacks }
            else
              .ok {
                result := false
                client := next
                read := read
                callbacks := callback.toList }

def connect (text : JsonText) (c : PoolClient) (opened : Option Nat)
    (firstSends secondSends : List SendResult) (polls : Nat → PollInput) :
    Except Fault Handshake :=
  match c.connectStart text opened firstSends secondSends with
  | (false, c) => .ok { result := false, client := c }
  | (true, c) => connectLoop text connectPolls polls c

/-- What the loop does when it has rounds left and is not done: it reads no
message, and returns if the connection is closed, or it handles one. -/
inductive Round (text : JsonText) (left : Nat) (polls : Nat → PollInput)
    (c : PoolClient) (h : Handshake) : Prop
  | quiet (hnone : text.incoming c.conn (polls 0).script = none)
      (hopen : c.conn.isOpen = true)
      (hrest : connectLoop text left (fun i => polls (i + 1))
        (c.receive (polls 0).due (polls 0).script) = .ok h)
  | closed (hclosed : c.conn.isOpen = false)
      (hh : h = {
        result := false
        client := c.receive (polls 0).due (polls 0).script })
  | message (msg : Json) (next : PoolClient) (callback : Option Callback)
      (later : Handshake)
      (hmsg : text.incoming c.conn (polls 0).script = some msg)
      (hhandled : (c.receive (polls 0).due (polls 0).script).handle text msg =
        .ok (next, callback))
      (hrest : connectLoop text left (fun i => polls (i + 1)) next = .ok later)
      (hh : h = { later with
        read := msg :: later.read
        callbacks := callback.toList ++ later.callbacks })

theorem connectLoop_ready (text : JsonText) (left : Nat)
    (polls : Nat → PollInput) {c : PoolClient} (hready : c.ready = true) :
    connectLoop text left polls c = .ok { result := true, client := c } := by
  cases left with
  | zero => rw [connectLoop, hready]
  | succ left => rw [connectLoop, if_pos hready]

theorem connectLoop_round {text : JsonText} {left : Nat}
    {polls : Nat → PollInput} {c : PoolClient} {h : Handshake}
    (hready : c.ready = false)
    (hok : connectLoop text (left + 1) polls c = .ok h) :
    Round text left polls c h := by
  rw [connectLoop, if_neg (Bool.eq_false_iff.mp hready), poll_eq] at hok
  cases hmsg : text.incoming c.conn (polls 0).script with
  | none =>
      simp only [hmsg, TcpClient.readLine_isOpen] at hok
      split at hok
      · rename_i hopen
        obtain ⟨later, hlater, hh⟩ := bind_eq_ok.mp hok
        obtain rfl := Except.ok.inj hh
        exact Round.quiet hmsg hopen hlater
      · rename_i hclosed
        exact Round.closed (Bool.eq_false_iff.mpr hclosed)
          (Except.ok.inj hok).symm
  | some msg =>
      simp only [hmsg] at hok
      cases hhandled : (c.receive (polls 0).due (polls 0).script).handle text
          msg with
      | error fault =>
          rw [hhandled] at hok
          cases hok
      | ok result =>
          rw [hhandled] at hok
          change connectLoop text left (fun i => polls (i + 1)) result.1 >>= _ =
            _ at hok
          obtain ⟨later, hlater, hh⟩ := bind_eq_ok.mp hok
          exact Round.message msg result.1 result.2 later hmsg hhandled hlater
            (Except.ok.inj hh).symm

theorem receive_isOpen (c : PoolClient) (due : Bool)
    (script : List RecvResult) :
    (c.receive due script).conn.isOpen = c.conn.isOpen := by
  rw [TcpClient.isOpen, receive_sock]
  rfl

theorem receive_ready (c : PoolClient) (due : Bool)
    (script : List RecvResult) : (c.receive due script).ready = c.ready := by
  cases c with
  | stratum c => rfl
  | monero c =>
      unfold receive MoneroClient.maybeKeepalive
      simp only [ready]
      split
      · rfl
      · split <;> rfl

theorem receive_protocol (c : PoolClient) (due : Bool)
    (script : List RecvResult) :
    (c.receive due script).protocol = c.protocol := by
  cases c <;> rfl

theorem handle_protocol {text : JsonText} {c c' : PoolClient} {msg : Json}
    {callback : Option Callback}
    (hok : c.handle text msg = .ok (c', callback)) :
    c'.protocol = c.protocol := by
  cases c with
  | stratum c =>
      obtain ⟨result, -, hok⟩ := bind_eq_ok.mp hok
      obtain ⟨rfl, -⟩ := Prod.mk.inj (Except.ok.inj hok)
      rfl
  | monero c =>
      obtain ⟨result, -, hok⟩ := bind_eq_ok.mp hok
      obtain ⟨rfl, -⟩ := Prod.mk.inj (Except.ok.inj hok)
      rfl

/-- A message closes an open connection exactly when it asks for a
reconnect. -/
theorem handle_closes_iff {text : JsonText} {c c' : PoolClient} {msg : Json}
    {callback : Option Callback} (hopen : c.conn.isOpen = true)
    (hok : c.handle text msg = .ok (c', callback)) :
    c'.conn.isOpen = false ↔ c.protocol.AsksReconnect msg := by
  cases c with
  | stratum c =>
      obtain ⟨⟨c₁, callback₁⟩, hhandled, hok⟩ := bind_eq_ok.mp hok
      obtain ⟨rfl, rfl⟩ := Prod.mk.inj (Except.ok.inj hok)
      constructor
      · intro hclosed
        rcases StratumV1Client.handleMessage_conn hhandled with
          hsame | ⟨-, -, hreconnect⟩
        · change c₁.conn.isOpen = false at hclosed
          rw [hsame] at hclosed
          exact absurd hopen (Bool.eq_false_iff.mp hclosed)
        · exact hreconnect
      · intro hreconnect
        change StratumV1Client.received msg = .ok .reconnect at hreconnect
        rw [StratumV1Client.handleMessage_eq, hreconnect] at hhandled
        obtain ⟨rfl, -⟩ := Prod.mk.inj (Except.ok.inj hhandled)
        rfl
  | monero c =>
      obtain ⟨⟨c₁, callback₁⟩, hhandled, hok⟩ := bind_eq_ok.mp hok
      obtain ⟨rfl, rfl⟩ := Prod.mk.inj (Except.ok.inj hok)
      refine iff_of_false ?_ id
      change ¬ c₁.conn.isOpen = false
      rw [(MoneroClient.handle_kept hhandled).1]
      exact Bool.not_eq_false _ ▸ hopen

/-- Handling a received message leaves the connection as `read_line` did, if it
leaves it open. -/
theorem handle_conn_of_open {text : JsonText} {c next : PoolClient} {due : Bool}
    {script : List RecvResult} {msg : Json} {callback : Option Callback}
    (hok : (c.receive due script).handle text msg = .ok (next, callback))
    (hopen : next.conn.isOpen ≠ false) :
    next.conn = (c.conn.readLine script).2.1 := by
  rw [← c.receive_conn due]
  rcases handle_conn hok with hsame | ⟨hclose, -⟩
  · exact hsame
  · exact absurd (congrArg TcpClient.isOpen hclose) hopen

/-- Once the connection is closed it stays so. -/
theorem connectLoop_closed {text : JsonText} {left : Nat}
    {polls : Nat → PollInput} {c : PoolClient} {h : Handshake}
    (hclosed : c.conn.isOpen = false) (hready : c.ready = false)
    (hok : connectLoop text left polls c = .ok h) :
    h.result = false ∧ h.client.connected = false := by
  cases left with
  | zero =>
      obtain rfl := Except.ok.inj hok
      exact ⟨hready, hclosed⟩
  | succ left =>
      rcases connectLoop_round hready hok with
        ⟨-, hopen, -⟩ | ⟨-, rfl⟩ | ⟨msg, next, callback, later, hmsg, -⟩
      · exact absurd hopen (Bool.eq_false_iff.mp hclosed)
      · exact ⟨rfl, (c.receive_isOpen _ _).trans hclosed⟩
      · have hline : (c.conn.readLine (polls 0).script).1 = none := by
          unfold TcpClient.readLine
          rw [if_neg (Bool.eq_false_iff.mp hclosed)]
        simp [JsonText.incoming, hline] at hmsg

theorem connectLoop_failed_not_ready {text : JsonText} {left : Nat}
    {polls : Nat → PollInput} {c : PoolClient} {h : Handshake}
    (hok : connectLoop text left polls c = .ok h) (hfailed : h.result = false) :
    c.ready = false := by
  by_contra hdone
  rw [connectLoop_ready text left polls (Bool.not_eq_false _ ▸ hdone)] at hok
  obtain rfl := Except.ok.inj hok
  cases hfailed

/-- A loop that gives up has closed the connection exactly when one of the
messages asked for a reconnect. -/
theorem connectLoop_failed {text : JsonText} {left : Nat}
    {polls : Nat → PollInput} {c : PoolClient} {h : Handshake}
    (hopen : c.conn.isOpen = true)
    (hok : connectLoop text left polls c = .ok h) (hfailed : h.result = false) :
    h.client.connected = false ↔
      ∃ msg ∈ TcpClient.messages text left polls c.conn,
        c.protocol.AsksReconnect msg := by
  induction left generalizing polls c h with
  | zero =>
      obtain rfl := Except.ok.inj hok
      refine iff_of_false (Bool.not_eq_false _ ▸ hopen) ?_
      rintro ⟨msg, hmsg, -⟩
      cases hmsg
  | succ left ih =>
      have hready := connectLoop_failed_not_ready hok hfailed
      rcases connectLoop_round hready hok with
        ⟨hnone, -, hrest⟩ | ⟨hclosed, -⟩ |
        ⟨msg, next, callback, later, hmsg, hhandled, hrest, rfl⟩
      · have hrec := ih ((c.receive_isOpen _ _).trans hopen) hrest hfailed
        rw [receive_conn, receive_protocol] at hrec
        rw [TcpClient.messages, hnone]
        exact hrec
      · exact absurd hopen (Bool.eq_false_iff.mp hclosed)
      · have hcloses := handle_closes_iff
          ((c.receive_isOpen _ _).trans hopen) hhandled
        rw [receive_protocol] at hcloses
        rw [TcpClient.messages, hmsg]
        by_cases hclosed : next.conn.isOpen = false
        · have hstays := connectLoop_closed hclosed
            (connectLoop_failed_not_ready hrest hfailed) hrest
          exact iff_of_true hstays.2
            ⟨msg, List.mem_append_left _ (List.mem_singleton_self _),
              hcloses.mp hclosed⟩
        · have hsame := handle_conn_of_open hhandled hclosed
          have hrec := ih (Bool.not_eq_false _ ▸ hclosed) hrest hfailed
          rw [hsame, handle_protocol hhandled, receive_protocol] at hrec
          rw [hrec]
          simp only [Option.toList_some, List.singleton_append, List.mem_cons,
            exists_eq_or_imp, mt hcloses.mpr hclosed, false_or]

/-- Both lines of the Stratum client, or the login line, go out whole. -/
def sendsHello (text : JsonText) (c : PoolClient)
    (firstSends secondSends : List SendResult) : Bool :=
  let sends := fun message script =>
    (TcpClient.sendLoop ((text.dump message).toList ++ ['\n']) script).1
  match c with
  | .stratum c =>
      sends (StratumV1Client.subscribeMessage c.nextId) firstSends &&
        sends (c.authorizeMessage (StratumV1Client.succId c.nextId)) secondSends
  | .monero c => sends (c.loginMessage c.nextId) firstSends

/-- `connect` reaches its loop when the connection is open and the lines are
sent. -/
theorem connectStart_fst (text : JsonText) (c : PoolClient)
    (opened : Option Nat) (firstSends secondSends : List SendResult) :
    (c.connectStart text opened firstSends secondSends).1 =
      (opened.isSome && c.sendsHello text firstSends secondSends) := by
  cases c with
  | stratum c =>
      cases opened with
      | none => rfl
      | some handle =>
          simp only [connectStart, StratumV1Client.connectStart,
            TcpClient.connect, Option.isSome_some, Bool.true_and, sendsHello,
            StratumV1Client.sendJson, TcpClient.sendAll, TcpClient.isOpen,
            ↓reduceIte]
          split
          · rename_i hsent
            rw [hsent]
            rfl
          · rename_i hunsent
            rw [Bool.eq_false_iff.mpr hunsent]
            rfl
  | monero c => cases opened <;> rfl

theorem connectStart_ready (text : JsonText) (c : PoolClient)
    (opened : Option Nat) (firstSends secondSends : List SendResult) :
    (c.connectStart text opened firstSends secondSends).2.ready = c.ready := by
  cases c with
  | stratum c =>
      cases opened with
      | none => rfl
      | some handle =>
          simp only [connectStart, StratumV1Client.connectStart,
            TcpClient.connect, Option.isSome_some]
          split <;> rfl
  | monero c => cases opened <;> rfl

theorem connectStart_protocol (text : JsonText) (c : PoolClient)
    (opened : Option Nat) (firstSends secondSends : List SendResult) :
    (c.connectStart text opened firstSends secondSends).2.protocol =
      c.protocol := by
  cases c <;> rfl

/-- A `connect` that returns false leaves the client unconnected exactly when
no connection could be opened, or the lines were sent and a message that was
read in the loop asked for a reconnect. -/
theorem failed_connect_closed_iff (text : JsonText) (c : PoolClient)
    (opened : Option Nat) (firstSends secondSends : List SendResult)
    (polls : Nat → PollInput) {h : Handshake}
    (hok : c.connect text opened firstSends secondSends polls = .ok h)
    (hfailed : h.result = false) :
    h.client.connected = false ↔ opened = none ∨
      c.sendsHello text firstSends secondSends = true ∧
        ∃ msg ∈ TcpClient.messages text connectPolls polls { sock := opened },
          c.protocol.AsksReconnect msg := by
  have hstarted := c.connectStart_fst text opened firstSends secondSends
  have hconn := c.connectStart_conn text opened firstSends secondSends
  have hprotocol := c.connectStart_protocol text opened firstSends secondSends
  unfold connect at hok
  split at hok
  · rename_i c₁ hstart
    rw [hstart] at hstarted hconn
    obtain rfl := Except.ok.inj hok
    rw [connected, hconn]
    cases opened with
    | none => exact iff_of_true rfl (Or.inl rfl)
    | some handle =>
        have hunsent : c.sendsHello text firstSends secondSends = false := by
          simpa using hstarted.symm
        simp [TcpClient.isOpen, hunsent]
  · rename_i c₁ hstart
    rw [hstart] at hstarted hconn hprotocol
    obtain ⟨hopened, hsent⟩ := Bool.and_eq_true_iff.mp hstarted.symm
    have hopen : c₁.conn.isOpen = true := by
      rw [hconn]
      exact hopened
    have hclosed := connectLoop_failed hopen hok hfailed
    rw [hconn, hprotocol] at hclosed
    rw [hclosed]
    have hsome : opened ≠ none := by
      rintro rfl
      cases hopened
    simp only [hsome, hsent, true_and, false_or]

open StratumV1Client (sessionText reconnectRequest)

/-- A server that answers with a reconnect request: `connect` fails and the
connection is closed. -/
theorem reconnect_request_closes :
    let c := make .stratum "u" "x"
    let polls : Nat → PollInput :=
      fun _ => { script := [.line reconnectRequest.render] }
    ∃ h, c.connect sessionText (some 7) [.all] [.all] polls = .ok h ∧
      h.result = false ∧ h.client.connected = false := by
  intro c polls
  have hrun : (c.connect sessionText (some 7) [.all] [.all]
      polls).toOption.any (fun h => decide (h.result = false)) = true := by
    decide +kernel
  have hasked : (TcpClient.messages sessionText connectPolls polls
      { sock := some 7 }).any (fun msg =>
        (StratumV1Client.received msg).toOption.any
          StratumV1Client.Received.isReconnect) = true := by
    decide +kernel
  obtain ⟨h, hok, hfailed⟩ := exists_of_toOption_any hrun
  have hfailed := of_decide_eq_true hfailed
  refine ⟨h, hok, hfailed, ?_⟩
  apply (failed_connect_closed_iff sessionText c _ _ _ polls hok hfailed).mpr
  obtain ⟨msg, hmem, hmsg⟩ := List.any_eq_true.mp hasked
  obtain ⟨received, hreceived, hreconnect⟩ := exists_of_toOption_any hmsg
  refine Or.inr ⟨by decide +kernel, msg, hmem, ?_⟩
  cases received with
  | reconnect => exact hreceived
  | _ => cases hreconnect

/-- A server that says nothing: `connect` fails after its twenty polls and the
client is still connected. -/
theorem silent_server_stays_connected :
    let c : StratumV1Client := { user := "u", pass := "x" }
    let text : JsonText :=
      .ofMessages [StratumV1Client.subscribeMessage 1, c.authorizeMessage 2]
    ∃ h, (PoolClient.stratum c).connect text (some 7) [.all] [.all]
        (fun _ => {}) = .ok h ∧
      h.result = false ∧ h.client.connected = true := by
  intro c text
  have hrun : ((PoolClient.stratum c).connect text (some 7) [.all] [.all]
      (fun _ => {})).toOption.any (fun h =>
        decide (h.result = false ∧ h.client.connected = true)) = true := by
    decide +kernel
  obtain ⟨h, hok, hfacts⟩ := exists_of_toOption_any hrun
  exact ⟨h, hok, of_decide_eq_true hfacts⟩

end PoolClient

end Minerby
