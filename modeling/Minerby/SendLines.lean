/-
Lines on the wire.  `send_all` loops over `::send`, and no lock covers the loop
for every sender: `submit_mtx` is held by the workers only, so the polling
thread may send in the middle of a submit.  A call that fails leaves its
connection open in the middle of a line.
-/
import Minerby.PoolClient
import Minerby.StepSystem
import Minerby.Terminated

namespace Minerby

/-- The data that `send_json` passes to `send_all`. -/
def jsonLine (text : JsonText) (message : Json) : List Char :=
  (text.dump message).toList ++ ['\n']

/-- The bytes are complete lines, each of one of the messages, and at most one
incomplete line of a message after them. -/
def WholeLines (text : JsonText) (messages : List Json) (bytes : List Char) :
    Prop :=
  ∃ (whole : List Json) (tail : List Char),
    bytes = whole.flatMap (jsonLine text) ++ tail ∧
      (∀ message ∈ whole, message ∈ messages) ∧
      (tail = [] ∨ ∃ message ∈ messages,
        tail <+: jsonLine text message ∧ tail ≠ jsonLine text message)

/-- A call of `send_all` in its loop: the part of the data before `p`, and the
part that is left. -/
structure SendCall where
  sent : List Char
  left : List Char
  left_ne : left ≠ []

namespace SendCall

def start (text : JsonText) (message : Json) : SendCall :=
  ⟨[], jsonLine text message, List.concat_ne_nil _ _⟩

/-- The call after a `::send` that took `n` bytes, unless it returns. -/
def took (call : SendCall) (n : ℕ+) : Option SendCall :=
  if h : call.left.drop n = [] then none
  else some ⟨call.sent ++ call.left.take n, call.left.drop n, h⟩

/-- The data of a call stays the same. -/
theorem took_data {call next : SendCall} {n : ℕ+}
    (htook : call.took n = some next) :
    next.sent ++ next.left = call.sent ++ call.left := by
  unfold took at htook
  split at htook
  · cases htook
  · obtain rfl := Option.some.inj htook
    rw [List.append_assoc, List.take_append_drop]

end SendCall

/-- The polling thread sends `login` and `keepalived`; of the workers the one
that holds `submit_mtx` sends `submit`. -/
inductive Sender where
  | polling
  | submitting
deriving DecidableEq

/-- A client with the calls of `send_all` in progress.  The history is the
messages passed to `send_json` and the bytes each connection took. -/
structure Senders where
  client : MoneroClient
  calls : Sender → Option SendCall := fun _ => none
  connections : Nat := 0
  messages : List Json := []
  written : Nat → List Char := fun _ => []

/-- The steps.  `keepalive` and `poll` are the two parts of `poll`, before and
after the keepalive is sent; `send` is one `::send`. -/
inductive SendLabel where
  | connect (opened : Bool)
  | disconnect
  | keepalive
  | poll (script : List RecvResult)
  | submit (job : MiningJob) (nonce : UInt32) (digest : Hash256)
  | send (sender : Sender) (result : SendResult)

namespace Senders

/-- `send_json`, up to the loop of `send_all`. -/
def sendJson (text : JsonText) (s : Senders) (sender : Sender)
    (message : Json) : Senders :=
  { s with
    calls := Function.update s.calls sender (some (.start text message))
    messages := message :: s.messages }

/-- One `::send` of a call, on the socket as it is now.  It fails when there is
none, and so does the test at the head of `send_all`. -/
def send (s : Senders) (sender : Sender) (call : SendCall)
    (result : SendResult) : Senders :=
  match s.client.conn.sock, result with
  | some handle, .took n =>
      { s with
        calls := Function.update s.calls sender (call.took n)
        written := Function.update s.written handle
          (s.written handle ++ call.left.take n) }
  | _, _ => { s with calls := Function.update s.calls sender none }

@[simp]
theorem send_client (s : Senders) (sender : Sender) (call : SendCall)
    (result : SendResult) : (s.send sender call result).client = s.client := by
  unfold send
  split <;> rfl

@[simp]
theorem send_connections (s : Senders) (sender : Sender) (call : SendCall)
    (result : SendResult) :
    (s.send sender call result).connections = s.connections := by
  unfold send
  split <;> rfl

@[simp]
theorem send_messages (s : Senders) (sender : Sender) (call : SendCall)
    (result : SendResult) :
    (s.send sender call result).messages = s.messages := by
  unfold send
  split <;> rfl

/-- Only the connection of the socket takes bytes. -/
theorem send_written (s : Senders) (sender : Sender) (call : SendCall)
    (result : SendResult) (handle : Nat) :
    (s.send sender call result).written handle = s.written handle ∨
      ∃ n, result = .took n ∧ s.client.conn.sock = some handle ∧
        (s.send sender call result).written handle =
          s.written handle ++ call.left.take n := by
  unfold send
  split
  · rename_i current n hsock
    by_cases hcurrent : handle = current
    · subst hcurrent
      exact Or.inr ⟨n, rfl, hsock, Function.update_self _ _ _⟩
    · exact Or.inl (Function.update_of_ne hcurrent _ _)
  · exact Or.inl rfl

/-- A call that is in progress after a `::send` was so before, or is the one
that goes on. -/
theorem calls_of_send {s : Senders} {sender other : Sender}
    {call next : SendCall} {result : SendResult}
    (hnext : (s.send sender call result).calls other = some next) :
    s.calls other = some next ∨
      ∃ n, result = .took n ∧ call.took n = some next := by
  have hupdate : ∀ after : Option SendCall,
      Function.update s.calls sender after other = some next →
        s.calls other = some next ∨ after = some next := by
    intro after hafter
    by_cases hother : other = sender
    · subst hother
      rw [Function.update_self] at hafter
      exact Or.inr hafter
    · rw [Function.update_of_ne hother] at hafter
      exact Or.inl hafter
  unfold send at hnext
  split at hnext
  · exact (hupdate _ hnext).imp_right fun htook => ⟨_, rfl, htook⟩
  · exact (hupdate _ hnext).imp_right fun hnone => by cases hnone

/-- The main thread calls one thing at a time, and `connect` only where there
is no connection.  A poll that throws ends the run. -/
def step (text : JsonText) (s : Senders) : SendLabel → Option Senders
  | .connect opened =>
      match s.calls .polling, s.client.connected with
      | none, false =>
          let handle := if opened then some (s.connections + 1) else none
          let client := (s.client.connectStart text handle []).2
          if opened then
            some ({ s with
              client := client
              connections := s.connections + 1 }.sendJson text .polling
                (client.loginMessage client.loginId))
          else some { s with client := client }
      | _, _ => none
  | .disconnect =>
      match s.calls .polling with
      | none => some { s with client := s.client.disconnect }
      | some _ => none
  | .keepalive =>
      match s.calls .polling, s.client.keepaliveMessage? true with
      | none, some message =>
          some ({ s with client := s.client.maybeKeepalive true }.sendJson text
            .polling message)
      | _, _ => none
  | .poll script =>
      match s.calls .polling, s.client.poll text false script with
      | none, .ok (_, client, _, _) => some { s with client := client }
      | _, _ => none
  | .submit job nonce digest =>
      match s.calls .submitting with
      | none =>
          let (client, message) := s.client.submit job nonce digest
          some ({ s with client := client }.sendJson text .submitting message)
      | some _ => none
  | .send sender result =>
      (s.calls sender).map fun call => s.send sender call result

theorem send_took {s : Senders} {handle : Nat}
    (hsock : s.client.conn.sock = some handle) (sender : Sender)
    (call : SendCall) (n : ℕ+) :
    s.send sender call (.took n) =
      { s with
        calls := Function.update s.calls sender (call.took n)
        written := Function.update s.written handle
          (s.written handle ++ call.left.take n) } := by
  unfold send
  rw [hsock]

theorem run_sendLoop (text : JsonText) {s : Senders} {sender : Sender}
    {call : SendCall} {handle : Nat}
    (hsock : s.client.conn.sock = some handle)
    (hcall : s.calls sender = some call) (script : List SendResult) :
    ∃ (used : List SendResult) (s' : Senders),
      Run (step text) anyLabel s (used.map (.send sender)) s' ∧
        s'.calls sender = none ∧
        s'.written handle =
          s.written handle ++ (TcpClient.sendLoop call.left script).2 := by
  induction script generalizing s call with
  | nil =>
      -- a script that is used up stands for a failed `::send`
      obtain ⟨b, more, hleft⟩ := List.exists_cons_of_ne_nil call.left_ne
      refine ⟨[.failed], s.send sender call .failed, ?_, ?_, ?_⟩
      · exact Run.cons _ trivial (by simp [step, hcall]) Run.nil
      · simp [send]
      · simp [send, hleft, TcpClient.sendLoop]
  | cons result rest ih =>
      obtain ⟨b, more, hleft⟩ := List.exists_cons_of_ne_nil call.left_ne
      have hstep : step text s (.send sender result) =
          some (s.send sender call result) := by
        simp [step, hcall]
      cases result with
      | failed =>
          refine ⟨[.failed], _, Run.cons _ trivial hstep Run.nil, ?_, ?_⟩
          · simp [send]
          · simp [send, hleft, TcpClient.sendLoop]
      | took n =>
          have hloop : (TcpClient.sendLoop call.left (.took n :: rest)).2 =
              call.left.take n ++
                (TcpClient.sendLoop (call.left.drop n) rest).2 := by
            rw [hleft, TcpClient.sendLoop]
          by_cases hdrop : call.left.drop n = []
          · refine ⟨[.took n], _, Run.cons _ trivial hstep Run.nil, ?_, ?_⟩
            · simp [send_took hsock, SendCall.took, hdrop]
            · simp [send_took hsock, hloop, hdrop, TcpClient.sendLoop]
          · have hnext : (s.send sender call (.took n)).calls sender = some
                ⟨call.sent ++ call.left.take n, call.left.drop n, hdrop⟩ := by
              simp [send_took hsock, SendCall.took, hdrop]
            obtain ⟨used, s', hrun, hdone, hwritten⟩ :=
              ih (by rw [send_client, hsock]) hnext
            refine ⟨.took n :: used, s', Run.cons _ trivial hstep hrun, hdone,
              ?_⟩
            rw [hwritten, hloop, send_took hsock, ← List.append_assoc]
            simp

/-- A call that nothing interrupts writes what `send_all` writes. -/
theorem run_sendAll (text : JsonText) {s : Senders} {sender : Sender}
    {call : SendCall} {handle : Nat}
    (hsock : s.client.conn.sock = some handle)
    (hcall : s.calls sender = some call) (script : List SendResult) :
    ∃ (used : List SendResult) (s' : Senders),
      Run (step text) anyLabel s (used.map (.send sender)) s' ∧
        s'.calls sender = none ∧
        s'.written handle =
          s.written handle ++ (s.client.conn.sendAll call.left script).2 := by
  have hopen : s.client.conn.isOpen = true := by
    unfold TcpClient.isOpen
    rw [hsock]
    rfl
  unfold TcpClient.sendAll
  rw [if_pos hopen]
  exact run_sendLoop text hsock hcall script

/-- The socket of a connection opened before is not opened again. -/
structure Onward (s s' : Senders) : Prop where
  connections : s.connections ≤ s'.connections
  sock : s'.client.conn.sock = s.client.conn.sock ∨
    s'.client.conn.sock = none ∨
      s'.client.conn.sock = some (s.connections + 1) ∧
        s'.connections = s.connections + 1

theorem Onward.sock_le {s s' : Senders} (honward : Onward s s')
    (hle : ∀ handle, s.client.conn.sock = some handle →
      handle ≤ s.connections) (handle : Nat)
    (hsock : s'.client.conn.sock = some handle) : handle ≤ s'.connections := by
  rcases honward.sock with hsame | hnone | ⟨hopened, hconnections⟩
  · exact (hle handle (hsame ▸ hsock)).trans honward.connections
  · rw [hnone] at hsock
    cases hsock
  · rw [hopened] at hsock
    obtain rfl := Option.some.inj hsock
    exact hconnections.ge

theorem Onward.sock_of_le {s s' : Senders} (honward : Onward s s')
    {handle : Nat} (hle : handle ≤ s.connections)
    (hsock : s'.client.conn.sock = some handle) :
    s.client.conn.sock = some handle := by
  rcases honward.sock with hsame | hnone | ⟨hopened, -⟩
  · exact hsame ▸ hsock
  · rw [hnone] at hsock
    cases hsock
  · rw [hopened] at hsock
    have hhandle := Option.some.inj hsock
    omega

/-- What a step does to the wire: nothing, one more call, or the next
`::send` of a call. -/
inductive Stepped (text : JsonText) (s : Senders) : SendLabel → Senders → Prop
  | quiet (label : SendLabel) (client : MoneroClient) (connections : Nat)
      (onward : Onward s { s with client, connections }) :
      Stepped text s label { s with client, connections }
  | begun (label : SendLabel) (client : MoneroClient) (connections : Nat)
      (onward : Onward s { s with client, connections }) (sender : Sender)
      (message : Json) :
      Stepped text s label
        ({ s with client, connections }.sendJson text sender message)
  | sent (sender : Sender) (call : SendCall) (result : SendResult)
      (in_progress : s.calls sender = some call) :
      Stepped text s (.send sender result) (s.send sender call result)

theorem onward_of_sock {s : Senders} {client : MoneroClient}
    (hsock : client.conn.sock = s.client.conn.sock ∨
      client.conn.sock = none) :
    Onward s { s with client, connections := s.connections } := by
  rcases hsock with hsame | hnone
  · exact ⟨le_rfl, Or.inl hsame⟩
  · exact ⟨le_rfl, Or.inr (Or.inl hnone)⟩

theorem step_stepped {text : JsonText} {s s' : Senders} {label : SendLabel}
    (hstep : step text s label = some s') : Stepped text s label s' := by
  cases label with
  | connect opened =>
      simp only [step] at hstep
      split at hstep
      · cases opened with
        | false =>
            obtain rfl := Option.some.inj hstep
            exact .quiet _ _ _ (onward_of_sock (Or.inr rfl))
        | true =>
            obtain rfl := Option.some.inj hstep
            exact .begun _ _ _
              ⟨Nat.le_succ _, Or.inr (Or.inr ⟨rfl, rfl⟩)⟩ _ _
      · cases hstep
  | disconnect =>
      simp only [step] at hstep
      split at hstep
      · obtain rfl := Option.some.inj hstep
        exact .quiet _ _ _ (onward_of_sock (Or.inr rfl))
      · cases hstep
  | keepalive =>
      simp only [step] at hstep
      split at hstep
      · obtain rfl := Option.some.inj hstep
        exact .begun _ _ _ (onward_of_sock (Or.inl
          (congrArg TcpClient.sock (s.client.maybeKeepalive_conn true)))) _ _
      · cases hstep
  | poll script =>
      simp only [step] at hstep
      split at hstep
      · rename_i hpoll
        obtain rfl := Option.some.inj hstep
        exact .quiet _ _ _ (onward_of_sock (MoneroClient.poll_sock hpoll))
      · cases hstep
  | submit job nonce digest =>
      simp only [step] at hstep
      split at hstep
      · obtain rfl := Option.some.inj hstep
        exact .begun _ (s.client.submit job nonce digest).1 _
          (onward_of_sock (Or.inl rfl)) _ _
      · cases hstep
  | send sender result =>
      obtain ⟨call, hcall, rfl⟩ := Option.map_eq_some_iff.mp hstep
      exact .sent sender call result hcall

/-- A `::send` takes bytes only where the unfinished line on its connection is
what this call has sent of its own.  So no other call is in the middle of a
line there, none has failed in the middle of one, and the connection is the one
on which the call began its line. -/
def OwnLine (s : Senders) : SendLabel → Prop
  | .send sender (.took _) => ∀ call ∈ s.calls sender,
      ∀ handle ∈ s.client.conn.sock,
        remainder '\n' (s.written handle) = call.sent
  | _ => True

instance (s : Senders) (label : SendLabel) : Decidable (OwnLine s label) :=
  match label with
  | .send sender (.took _) => inferInstanceAs (Decidable
      (∀ call ∈ s.calls sender, ∀ handle ∈ s.client.conn.sock,
        remainder '\n' (s.written handle) = call.sent))
  | .send _ .failed => .isTrue trivial
  | .connect _ => .isTrue trivial
  | .disconnect => .isTrue trivial
  | .keepalive => .isTrue trivial
  | .poll _ => .isTrue trivial
  | .submit _ _ _ => .isTrue trivial

/-- Every call sends the line of a message, every connection has whole lines,
and a connection not opened yet has none. -/
structure LinesKept (text : JsonText) (s : Senders) : Prop where
  calls : ∀ sender call, s.calls sender = some call →
    ∃ message ∈ s.messages, call.sent ++ call.left = jsonLine text message
  written : ∀ handle, WholeLines text s.messages (s.written handle)
  sock_le : ∀ handle, s.client.conn.sock = some handle →
    handle ≤ s.connections
  written_le : ∀ handle, s.written handle ≠ [] → handle ≤ s.connections

/-- An incomplete line that no call in progress is sending. -/
def TornOff (s : Senders) (handle : Nat) : Prop :=
  remainder '\n' (s.written handle) ≠ [] ∧
    ∀ sender call, s.calls sender = some call →
      call.sent ≠ remainder '\n' (s.written handle)

/-- The bytes of a connection that has a torn line.  While the connection is in
use, no call has that line as its own. -/
structure Torn (handle : Nat) (bytes : List Char) (s : Senders) : Prop where
  written : s.written handle = bytes
  opened : handle ≤ s.connections
  foreign : s.client.conn.sock = some handle →
    ∀ sender call, s.calls sender = some call →
      call.sent ≠ remainder '\n' bytes

/-- A call that goes on or writes does so with the line as its own. -/
theorem Torn.send {handle : Nat} {bytes : List Char} {s : Senders}
    {sender : Sender} {call : SendCall} {result : SendResult}
    (htorn : Torn handle bytes s) (hcall : s.calls sender = some call)
    (hown : OwnLine s (.send sender result)) :
    Torn handle bytes (s.send sender call result) := by
  have hnot : ∀ n, result = .took n → s.client.conn.sock ≠ some handle := by
    rintro n rfl hsock
    have hline := hown call hcall handle hsock
    rw [htorn.written] at hline
    exact htorn.foreign hsock sender call hcall hline.symm
  refine ⟨?_, ?_, ?_⟩
  · rcases s.send_written sender call result handle with
      hold | ⟨n, hresult, hsock, -⟩
    · rw [hold]
      exact htorn.written
    · exact absurd hsock (hnot n hresult)
  · rw [send_connections]
    exact htorn.opened
  · rw [send_client]
    intro hsock other next hnext
    rcases calls_of_send hnext with hold | ⟨n, hresult, -⟩
    · exact htorn.foreign hsock other next hold
    · exact absurd hsock (hnot n hresult)

theorem Torn.step {text : JsonText} {handle : Nat} {bytes : List Char}
    {s s' : Senders} {label : SendLabel} (hne : remainder '\n' bytes ≠ [])
    (htorn : Torn handle bytes s) (hown : OwnLine s label)
    (hstep : step text s label = some s') : Torn handle bytes s' := by
  cases step_stepped hstep with
  | quiet label client connections onward =>
      exact ⟨htorn.written, htorn.opened.trans onward.connections,
        fun hsock => htorn.foreign (onward.sock_of_le htorn.opened hsock)⟩
  | begun label client connections onward sender message =>
      refine ⟨htorn.written, htorn.opened.trans onward.connections, ?_⟩
      intro hsock other call hcall
      by_cases hother : other = sender
      · subst hother
        simp only [sendJson, Function.update_self, Option.some.injEq] at hcall
        subst hcall
        exact hne.symm
      · simp only [sendJson, Function.update_of_ne hother] at hcall
        exact htorn.foreign (onward.sock_of_le htorn.opened hsock) other call
          hcall
  | sent sender call result in_progress =>
      exact htorn.send in_progress hown

end Senders

theorem WholeLines.mono {text : JsonText} {messages more : List Json}
    {bytes : List Char} (hwhole : WholeLines text messages bytes)
    (hsubset : messages ⊆ more) : WholeLines text more bytes := by
  obtain ⟨whole, tail, hbytes, hmem, htail⟩ := hwhole
  refine ⟨whole, tail, hbytes, fun message h => hsubset (hmem message h), ?_⟩
  apply htail.imp_right
  rintro ⟨message, hmessage, hprefix⟩
  exact ⟨message, hsubset hmessage, hprefix⟩

theorem flatMap_jsonLine (text : JsonText) (messages : List Json) :
    messages.flatMap (jsonLine text) =
      (messages.map fun message => (text.dump message).toList).flatMap
        (fun segment => segment ++ ['\n']) := by
  rw [List.flatMap_map]
  rfl

section Dump

variable {text : JsonText}
  (hdump : ∀ message, '\n' ∉ (text.dump message).toList)

include hdump

/-- The incomplete line has no newline. -/
theorem newline_not_mem_tail {messages : List Json} {tail : List Char}
    (htail : tail = [] ∨ ∃ message ∈ messages,
      tail <+: jsonLine text message ∧ tail ≠ jsonLine text message) :
    '\n' ∉ tail := by
  rcases htail with rfl | ⟨message, -, hprefix, hne⟩
  · exact List.not_mem_nil
  · rcases List.prefix_concat_iff.mp hprefix with hall | hpart
    · exact absurd hall hne
    · exact fun hmem => hdump message (hpart.subset hmem)

/-- The unfinished line is the incomplete one at the end. -/
theorem WholeLines.remainder_eq {messages : List Json} {bytes : List Char}
    (hwhole : WholeLines text messages bytes) :
    ∃ whole : List Json,
      bytes = whole.flatMap (jsonLine text) ++ remainder '\n' bytes ∧
        ∀ message ∈ whole, message ∈ messages := by
  obtain ⟨whole, tail, rfl, hmem, htail⟩ := hwhole
  refine ⟨whole, ?_, hmem⟩
  rw [flatMap_jsonLine,
    remainder_flatMap_append (newline_not_mem_tail hdump htail)]

/-- The peer, which cuts the stream at newlines, reads messages sent. -/
theorem WholeLines.segments_mem {messages : List Json} {bytes : List Char}
    (hwhole : WholeLines text messages bytes) :
    ∀ segment ∈ segments '\n' bytes,
      ∃ message ∈ messages, (text.dump message).toList = segment := by
  obtain ⟨whole, tail, rfl, hmem, htail⟩ := hwhole
  intro segment hsegment
  rw [flatMap_jsonLine, segments_flatMap_append,
    segments_of_not_mem (newline_not_mem_tail hdump htail),
    List.append_nil] at hsegment
  · obtain ⟨message, hmessage, heq⟩ := List.mem_map.mp hsegment
    exact ⟨message, hmem message hmessage, heq⟩
  · intro line hline
    obtain ⟨message, -, rfl⟩ := List.mem_map.mp hline
    exact hdump message

/-- The next part of the line that is unfinished on a connection. -/
theorem WholeLines.append_part {messages : List Json} {bytes : List Char}
    {message : Json} (hwhole : WholeLines text messages bytes)
    (hmessage : message ∈ messages) {left : List Char}
    (hline : remainder '\n' bytes ++ left = jsonLine text message) (n : Nat) :
    WholeLines text messages (bytes ++ left.take n) := by
  obtain ⟨whole, hbytes, hmem⟩ := hwhole.remainder_eq hdump
  by_cases hdrop : left.drop n = []
  · -- the line is complete
    have htake : left.take n = left := by
      have happend := List.take_append_drop n left
      rwa [hdrop, List.append_nil] at happend
    refine ⟨whole ++ [message], [], ?_, ?_, Or.inl rfl⟩
    · rw [htake, List.append_nil, List.flatMap_append, List.flatMap_singleton,
        ← hline, ← List.append_assoc, ← hbytes]
    · intro other hother
      rcases List.mem_append.mp hother with hold | hlast
      · exact hmem other hold
      · rw [List.mem_singleton.mp hlast]
        exact hmessage
  · have hparts : (remainder '\n' bytes ++ left.take n) ++ left.drop n =
        jsonLine text message := by
      rw [List.append_assoc, List.take_append_drop, hline]
    refine ⟨whole, remainder '\n' bytes ++ left.take n, ?_, hmem,
      Or.inr ⟨message, hmessage, ⟨_, hparts⟩, ?_⟩⟩
    · rw [← List.append_assoc, ← hbytes]
    · intro hall
      rw [← hparts] at hall
      exact hdrop (List.self_eq_append_right.mp hall)

namespace Senders

theorem LinesKept.send {s : Senders} {sender : Sender} {call : SendCall}
    {result : SendResult} (hkept : LinesKept text s)
    (hcall : s.calls sender = some call)
    (hown : OwnLine s (.send sender result)) :
    LinesKept text (s.send sender call result) := by
  obtain ⟨message, hmessage, hline⟩ := hkept.calls sender call hcall
  refine ⟨?_, ?_, ?_, ?_⟩
  · intro other next hnext
    rw [send_messages]
    rcases calls_of_send hnext with hold | ⟨n, -, htook⟩
    · exact hkept.calls other next hold
    · exact ⟨message, hmessage, (SendCall.took_data htook).trans hline⟩
  · intro handle
    rw [send_messages]
    rcases s.send_written sender call result handle with
      hold | ⟨n, rfl, hsock, happend⟩
    · rw [hold]
      exact hkept.written handle
    · rw [happend]
      apply (hkept.written handle).append_part hdump hmessage
      rw [hown call hcall handle hsock]
      exact hline
  · simpa using hkept.sock_le
  · intro handle hwritten
    rw [send_connections]
    rcases s.send_written sender call result handle with
      hold | ⟨n, rfl, hsock, happend⟩
    · rw [hold] at hwritten
      exact hkept.written_le handle hwritten
    · exact hkept.sock_le handle hsock

theorem LinesKept.step {s s' : Senders} {label : SendLabel}
    (hkept : LinesKept text s) (hown : OwnLine s label)
    (hstep : step text s label = some s') : LinesKept text s' := by
  cases step_stepped hstep with
  | quiet label client connections onward =>
      exact ⟨hkept.calls, hkept.written, onward.sock_le hkept.sock_le,
        fun handle h => (hkept.written_le handle h).trans onward.connections⟩
  | begun label client connections onward sender message =>
      refine ⟨?_, ?_, onward.sock_le hkept.sock_le,
        fun handle h => (hkept.written_le handle h).trans onward.connections⟩
      · intro other call hcall
        by_cases hother : other = sender
        · subst hother
          simp only [sendJson, Function.update_self, Option.some.injEq] at hcall
          subst hcall
          exact ⟨message, List.mem_cons_self, List.nil_append _⟩
        · simp only [sendJson, Function.update_of_ne hother] at hcall
          obtain ⟨old, hold, hline⟩ := hkept.calls other call hcall
          exact ⟨old, List.mem_cons_of_mem message hold, hline⟩
      · intro handle
        exact (hkept.written handle).mono (List.subset_cons_self _ _)
  | sent sender call result in_progress =>
      exact hkept.send hdump in_progress hown

end Senders

end Dump

namespace Senders

/-- In every run in which each `::send` goes on with its own line: the bytes of
each connection are complete lines of messages sent and at most one incomplete
line, and after an incomplete line that no call is sending any more nothing is
written on the connection. -/
theorem lines_stay_whole (text : JsonText)
    (hdump : ∀ message, '\n' ∉ (text.dump message).toList)
    (user pass : String) {labels : List SendLabel} {s : Senders}
    (hrun : Run (step text) OwnLine
      { client := { user := user, pass := pass } } labels s) (handle : Nat) :
    WholeLines text s.messages (s.written handle) ∧
      (s.TornOff handle → ∀ more later, Run (step text) OwnLine s more later →
        later.written handle = s.written handle) := by
  have hstart : LinesKept text { client := { user := user, pass := pass } } :=
    ⟨by simp, fun _ => ⟨[], [], rfl, by simp, Or.inl rfl⟩, by simp, by simp⟩
  have hkept : LinesKept text s :=
    hrun.invariant (fun _ _ _ hinv hown hstep => hinv.step hdump hown hstep)
      hstart
  refine ⟨hkept.written handle, ?_⟩
  rintro ⟨hne, hforeign⟩ more later hlater
  have hopened : handle ≤ s.connections := by
    apply hkept.written_le
    intro hnil
    rw [hnil] at hne
    exact hne rfl
  have htorn : Torn handle (s.written handle) s :=
    ⟨rfl, hopened, fun _ => hforeign⟩
  exact (hlater.invariant
    (fun _ _ _ hinv hown hstep => hinv.step hne hown hstep) htorn).written

/-- The reply to the login, with a session and a job. -/
def loginReply : Json :=
  .obj [("error", .null), ("id", .int 1),
    ("result", .obj [("id", .str "s"),
      ("job", .obj [("blob", .str (String.ofList (List.replicate 86 '0'))),
        ("job_id", .str "1"), ("seed_hash", .str "01"),
        ("target", .str "ffffffff")])])]

/-- The library on the reply, and on messages whose strings need no escape but
that of a newline. -/
def loginText : JsonText where
  parse := (JsonText.ofMessages [loginReply]).parse
  dump message := String.ofList
    (message.render.flatMap fun c => if c = '\n' then ['\\', 'n'] else [c])

theorem newline_not_mem_dump_loginText (message : Json) :
    '\n' ∉ (loginText.dump message).toList := by
  simp only [loginText, String.toList_ofList, List.mem_flatMap, not_exists,
    not_and]
  intro c _
  split
  · decide
  · rename_i hne
    exact fun hmem => hne (List.mem_singleton.mp hmem).symm

/-- The login is sent in two parts and answered. -/
def loginLabels : List SendLabel :=
  [.connect true, .send .polling (.took 10), .send .polling .all,
    .poll [.line loginReply.render]]

def submitting : SendLabel := .submit { jobId := "1" } 0 (Hash256.fill 7)

/-- A keepalive fails after its first part. -/
def failedLabels : List SendLabel :=
  loginLabels ++
    [.keepalive, .send .polling (.took 10), .send .polling .failed]

/-- The main thread opens a second connection. -/
def reopenLabels : List SendLabel :=
  [.disconnect, .connect true, .send .polling .all]

/-- A keepalive follows the one that failed after its first part. -/
def resumedLabels : List SendLabel :=
  failedLabels ++ [.keepalive, .send .polling .all]

/-- A submit comes between the two parts of a keepalive. -/
def mixedLabels : List SendLabel :=
  loginLabels ++ [.keepalive, .send .polling (.took 10), submitting,
    .send .submitting .all, .send .polling .all]

def start : Senders := { client := { user := "u", pass := "x" } }

/-- The torn keepalive stays the end of its connection, and the next login goes
to the second one. -/
theorem failed_lines_whole :
    ∃ s later : Senders, Run (step loginText) OwnLine start failedLabels s ∧
      Run (step loginText) OwnLine s reopenLabels later ∧
      s.TornOff 1 ∧ WholeLines loginText s.messages (s.written 1) ∧
      later.written 1 = s.written 1 ∧ later.written 2 ≠ [] := by
  have hreplay : (replay (step loginText) OwnLine start failedLabels).any
      (fun s => remainder '\n' (s.written 1) ≠ [] ∧
        (s.calls .polling).isNone = true ∧
        (s.calls .submitting).isNone = true ∧
        (replay (step loginText) OwnLine s reopenLabels).any
          (fun later => later.written 2 ≠ []) = true) = true := by
    decide +kernel
  obtain ⟨s, hs, hfacts⟩ := (Option.any_eq_true _ _).mp hreplay
  obtain ⟨hne, hpolling, hsubmitting, hreopen⟩ := of_decide_eq_true hfacts
  obtain ⟨later, hlater, hwritten⟩ := (Option.any_eq_true _ _).mp hreopen
  have hrun := run_of_replay hs
  have hrest := run_of_replay hlater
  have htorn : s.TornOff 1 := by
    refine ⟨hne, ?_⟩
    intro sender call hcall
    cases sender with
    | polling => simp [hcall] at hpolling
    | submitting => simp [hcall] at hsubmitting
  obtain ⟨hwhole, hstays⟩ := lines_stay_whole loginText
    newline_not_mem_dump_loginText "u" "x" hrun 1
  exact ⟨s, later, hrun, hrest, htorn, hwhole, hstays htorn _ _ hrest,
    of_decide_eq_true hwritten⟩

/-- Of a run, a line on the first connection that is no message sent. -/
def readsForeignLine (s : Senders) : Bool :=
  (segments '\n' (s.written 1)).any fun segment =>
    s.messages.all fun message => (loginText.dump message).toList ≠ segment

theorem not_wholeLines_of_readsForeignLine {s : Senders}
    (hforeign : s.readsForeignLine = true) :
    ¬ WholeLines loginText s.messages (s.written 1) := by
  intro hwhole
  obtain ⟨segment, hsegment, hall⟩ := List.any_eq_true.mp hforeign
  obtain ⟨message, hmessage, heq⟩ :=
    hwhole.segments_mem newline_not_mem_dump_loginText segment hsegment
  have hne := List.all_eq_true.mp hall message hmessage
  exact of_decide_eq_true hne heq

/-- A submit in the middle of a keepalive breaks both lines, and so does a
keepalive after one that failed in the middle. -/
theorem mixed_lines_not_whole :
    (∃ s : Senders, Run (step loginText) anyLabel start mixedLabels s ∧
      ¬ WholeLines loginText s.messages (s.written 1)) ∧
    ∃ s : Senders, Run (step loginText) anyLabel start resumedLabels s ∧
      ¬ WholeLines loginText s.messages (s.written 1) := by
  have hmixed : (replay (step loginText) anyLabel start mixedLabels).any
      readsForeignLine = true := by
    decide +kernel
  have hresumed : (replay (step loginText) anyLabel start resumedLabels).any
      readsForeignLine = true := by
    decide +kernel
  obtain ⟨s, hs, hforeign⟩ := (Option.any_eq_true _ _).mp hmixed
  obtain ⟨s', hs', hforeign'⟩ := (Option.any_eq_true _ _).mp hresumed
  exact ⟨⟨s, run_of_replay hs, not_wholeLines_of_readsForeignLine hforeign⟩,
    s', run_of_replay hs', not_wholeLines_of_readsForeignLine hforeign'⟩

end Senders

end Minerby
