/-
The Monero pool client: login, job, submit, keepalive over the same line
protocol.
-/
import Minerby.StratumV1Client

namespace Minerby

structure MoneroClient where
  user : String
  pass : String
  conn : TcpClient := {}
  nextId : Int := 1
  loginId : Int := -1
  lastSubmitId : Int := -1
  rpcId : String := ""
  loggedIn : Bool := false
  difficulty : ℚ := 0

namespace MoneroClient

open StratumV1Client (succId errorText)

def connected (c : MoneroClient) : Bool := c.conn.isOpen

def sendJson (text : JsonText) (c : MoneroClient) (message : Json)
    (script : List SendResult) : Bool × List Char :=
  c.conn.sendAll ((text.dump message).toList ++ ['\n']) script

def disconnect (c : MoneroClient) : MoneroClient :=
  { c with conn := c.conn.close, loggedIn := false, rpcId := "" }

def loginMessage (c : MoneroClient) (id : Int) : Json :=
  .obj [("id", .int id), ("jsonrpc", .str "2.0"), ("method", .str "login"),
    ("params", .obj [("login", .str c.user), ("pass", .str c.pass),
      ("agent", .str "minerby/0.2.0"), ("algo", .arr [.str "rx/0"])])]

/-- `connect` up to its polling loop. -/
def connectStart (text : JsonText) (c : MoneroClient) (opened : Option Nat)
    (loginSends : List SendResult) : Bool × MoneroClient :=
  match c.conn.connect opened with
  | (false, conn) => (false, { c with conn := conn })
  | (true, conn) =>
      let c := { c with
        conn := conn
        loginId := c.nextId
        nextId := succId c.nextId }
      ((c.sendJson text (c.loginMessage c.loginId) loginSends).1, c)

/-- `maybe_keepalive`, where `due` says that 45 seconds have passed since the
last one.  The result of the send is ignored. -/
def maybeKeepalive (c : MoneroClient) (due : Bool) : MoneroClient :=
  if !c.loggedIn || c.rpcId = "" then c
  else if due then { c with nextId := succId c.nextId }
  else c

/-- The message that `maybe_keepalive` sends, if it sends one. -/
def keepaliveMessage? (c : MoneroClient) (due : Bool) : Option Json :=
  if !c.loggedIn || c.rpcId = "" then none
  else if due then
    some (.obj [("id", .int c.nextId), ("jsonrpc", .str "2.0"),
      ("method", .str "keepalived"), ("params", .obj [("id", .str c.rpcId)])])
  else none

theorem maybeKeepalive_conn (c : MoneroClient) (due : Bool) :
    (c.maybeKeepalive due).conn = c.conn := by
  unfold maybeKeepalive
  split
  · rfl
  · split <;> rfl

/-- The part of the `try` block of `apply_job` that assigns `difficulty_`. -/
def readJob (j : Json) : Except Fault (Option MiningJob) := do
  let blobText ← (← j.at? "blob").getString
  let blob ← (fromHex blobText).mapError Fault.thrown
  if blob.length < 43 then return none
  else
    let targetText ← (← j.at? "target").getString
    let target ← (moneroTargetFromHex targetText).mapError Fault.thrown
    let jobId ← (← j.at? "job_id").getString
    return some { blob, nonceOffset := 39, target, jobId }

/-- The rest of the `try` block: the seed and the height that is logged. -/
def readSeed (j : Json) : Except Fault (List UInt8) := do
  let seed ← match j.find? "seed_hash" with
    | some (.str s) => (fromHex s).mapError Fault.thrown
    | _ => .ok []
  let _ ← j.value Json.getInt 0 "height"
  return seed

/-- `apply_job`: the returned flag, the new state and the callback.  Every
exception is caught; what was assigned before it stays assigned. -/
def applyJob (c : MoneroClient) (j : Json) :
    Except Fault (Bool × MoneroClient × Option Callback) := do
  match ← caught (readJob j) with
  | some (some mj) =>
      let c := { c with difficulty := targetToDifficulty mj.target }
      match ← caught (readSeed j) with
      | some seed => return (true, c, some (.onJob mj seed))
      | none => return (false, c, none)
  | _ => return (false, c, none)

/-- The branch of the handler for the reply to `login`. -/
def handleLogin (c : MoneroClient) (msg : Json) :
    Except Fault (MoneroClient × Option Callback) := do
  let result ← msg.subscript "result"
  let rpcId ← result.value Json.getString "" "id"
  let c := { c with rpcId := rpcId, loggedIn := rpcId ≠ "" }
  match result.find? "job" with
  | some job => return (← c.applyJob job).2
  | none => return (c, none)

/-- The verdict of a response to `submit`; reading the status of a result that
is not an object throws. -/
def responseOk (err : String) (msg : Json) : Except Fault Bool :=
  if err ≠ "" then .ok false
  else
    match msg.find? "result" with
    | none => .ok false
    | some .null => .ok false
    | some result => do
        let status ← result.value Json.getString "" "status"
        return status = "OK"

/-- `handle`, for messages that carry an id. -/
def handleResponse (text : JsonText) (c : MoneroClient) (msg : Json)
    (id : Int) : Except Fault (MoneroClient × Option Callback) :=
  let err := errorText text msg
  if id = c.loginId then
    if err ≠ "" then .ok (c, none) else handleLogin c msg
  else if id = c.lastSubmitId then do
    let accepted ← responseOk err msg
    return (c, some (.onSubmitResult accepted err))
  else .ok (c, none)

def handle (text : JsonText) (c : MoneroClient) (msg : Json) :
    Except Fault (MoneroClient × Option Callback) := do
  let method ← msg.value Json.getString "" "method"
  if method = "job" then
    let params ← msg.value Json.getJson (.obj []) "params"
    return (← c.applyJob params).2
  else
    match msg.find? "id" with
    | none => return (c, none)
    | some .null => return (c, none)
    | some idValue =>
        let id ← idValue.getInt
        handleResponse text c msg id

def handleLine (text : JsonText) (c : MoneroClient) (line : String) :
    Except Fault (MoneroClient × Option Callback) :=
  match text.parse line with
  | none => .ok (c, none)
  | some msg => handle text c msg

/-- `poll`: the returned flag, the new state, the callback invoked, and the
unused part of the receive script. -/
def poll (text : JsonText) (c : MoneroClient) (due : Bool)
    (script : List RecvResult) :
    Except Fault (Bool × MoneroClient × Option Callback × List RecvResult) :=
  let c := c.maybeKeepalive due
  match c.conn.readLine script with
  | (none, conn, rest) => .ok (conn.isOpen, { c with conn := conn }, none, rest)
  | (some line, conn, rest) =>
      if line = "" then .ok (true, { c with conn := conn }, none, rest)
      else do
        let (c, callback) ← handleLine text { c with conn := conn } line
        return (true, c, callback, rest)

def submitMessage (c : MoneroClient) (id : Int) (job : MiningJob)
    (nonce : UInt32) (digest : Hash256) : Json :=
  .obj [("id", .int id), ("jsonrpc", .str "2.0"), ("method", .str "submit"),
    ("params", .obj [("id", .str c.rpcId), ("job_id", .str job.jobId),
      ("nonce", .str (toHex (le32 nonce))),
      ("result", .str (toHex digest.toList))])]

/-- `submit`: the state after taking an id, and the message it sends. -/
def submit (c : MoneroClient) (job : MiningJob) (nonce : UInt32)
    (digest : Hash256) : MoneroClient × Json :=
  let c := { c with lastSubmitId := c.nextId, nextId := succId c.nextId }
  (c, c.submitMessage c.lastSubmitId job nonce digest)

/-- What a message is to the handler. -/
inductive Received where
  | job (params : Json)
  | response (id : Int)
  | nothing

/-- The dispatch of `handle`, which does not look at the client. -/
def received (msg : Json) : Except Fault Received := do
  let method ← msg.value Json.getString "" "method"
  if method = "job" then
    return .job (← msg.value Json.getJson (.obj []) "params")
  else
    match msg.find? "id" with
    | none => return .nothing
    | some .null => return .nothing
    | some idValue => return .response (← idValue.getInt)

/-- What the client does with a message, once it is dispatched. -/
def handleReceived (text : JsonText) (c : MoneroClient) (msg : Json) :
    Received → Except Fault (MoneroClient × Option Callback)
  | .job params => return (← c.applyJob params).2
  | .response id => handleResponse text c msg id
  | .nothing => .ok (c, none)

theorem handle_eq (text : JsonText) (c : MoneroClient) (msg : Json) :
    handle text c msg = received msg >>= handleReceived text c msg := by
  unfold handle received
  cases msg.value Json.getString "" "method" with
  | error fault => rfl
  | ok method =>
      change ite _ _ _ = ite _ _ _ >>= _
      split
      · cases msg.value Json.getJson (.obj []) "params" <;> rfl
      · split
        · rfl
        · rfl
        · rename_i idValue hid hnull
          cases idValue.getInt <;> rfl

/-- A `poll` handles the message it reads, or only receives bytes. -/
theorem poll_eq (text : JsonText) (c : MoneroClient) (due : Bool)
    (script : List RecvResult) :
    c.poll text due script =
      match text.incoming c.conn script with
      | none => .ok ((c.conn.readLine script).1.isSome ||
          (c.conn.readLine script).2.1.isOpen,
          { c.maybeKeepalive due with conn := (c.conn.readLine script).2.1 },
          none, (c.conn.readLine script).2.2)
      | some msg =>
          handle text { c.maybeKeepalive due with
            conn := (c.conn.readLine script).2.1 } msg >>= fun result =>
              .ok (true, result.1, result.2,
                (c.conn.readLine script).2.2) := by
  unfold poll JsonText.incoming
  simp only [maybeKeepalive_conn]
  rcases c.conn.readLine script with ⟨_ | line, conn, rest⟩
  · simp
  · by_cases hline : line = ""
    · simp [hline]
    · simp only [hline, ↓reduceIte, handleLine]
      cases text.parse line with
      | none => rfl
      | some msg =>
          simp only
          cases handle text { c.maybeKeepalive due with conn := conn } msg <;>
            rfl

end MoneroClient

end Minerby
