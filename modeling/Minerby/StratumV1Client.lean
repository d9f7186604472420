/-
The Stratum V1 client: subscribe, authorize, notify, set_difficulty, submit.
A handled line yields the new state and the callback it invokes, if any; each
path through the handler invokes at most one and does nothing after it.
-/
import Minerby.Json
import Minerby.TcpClient

namespace Minerby

/-- A callback invocation with its arguments. -/
inductive Callback where
  | onJob (job : MiningJob) (seedHash : List UInt8)
  | onSubmitResult (accepted : Bool) (error : String)
deriving Repr, DecidableEq

/-- The callback is `on_job`. -/
def Callback.isJob : Callback → Bool
  | .onJob _ _ => true
  | .onSubmitResult _ _ => false

theorem Callback.isJob_iff {callback : Callback} :
    callback.isJob = true ↔ ∃ job seed, callback = .onJob job seed := by
  cases callback <;> simp [Callback.isJob]

theorem Callback.any_isJob_iff {callback : Option Callback} :
    callback.any Callback.isJob = true ↔
      ∃ job seed, callback = some (.onJob job seed) := by
  cases callback <;> simp [Callback.isJob_iff]

/-- The message that one `poll` reads from a connection, if it reads one. -/
def JsonText.incoming (text : JsonText) (conn : TcpClient)
    (script : List RecvResult) : Option Json :=
  match (conn.readLine script).1 with
  | none => none
  | some line => if line = "" then none else text.parse line

structure StratumV1Client where
  user : String
  pass : String
  conn : TcpClient := {}
  nextId : Int := 1
  subscribeId : Int := -1
  authorizeId : Int := -1
  lastSubmitId : Int := -1
  extranonce1 : String := ""
  extranonce2Size : Int := 4
  difficulty : ℚ := 1
  job : StratumJob := {}
  haveJob : Bool := false
  xn2Counter : UInt64 := 0

namespace StratumV1Client

/-- `next_id_++` on a 32-bit `int`. -/
def succId (id : Int) : Int := Json.toInt32 (id + 1)

def connected (c : StratumV1Client) : Bool := c.conn.isOpen

def sendJson (text : JsonText) (c : StratumV1Client) (message : Json)
    (script : List SendResult) : Bool × List Char :=
  c.conn.sendAll ((text.dump message).toList ++ ['\n']) script

def disconnect (c : StratumV1Client) : StratumV1Client :=
  { c with conn := c.conn.close, haveJob := false }

def subscribeMessage (id : Int) : Json :=
  .obj [("id", .int id), ("method", .str "mining.subscribe"),
    ("params", .arr [.str "minerby/0.2"])]

def authorizeMessage (c : StratumV1Client) (id : Int) : Json :=
  .obj [("id", .int id), ("method", .str "mining.authorize"),
    ("params", .arr [.str c.user, .str c.pass])]

/-- `connect` up to its polling loop: open the socket, send subscribe and
authorize.  False is an early `return false`, which leaves an open socket
open. -/
def connectStart (text : JsonText) (c : StratumV1Client) (opened : Option Nat)
    (subscribeSends authorizeSends : List SendResult) :
    Bool × StratumV1Client :=
  match c.conn.connect opened with
  | (false, conn) => (false, { c with conn := conn })
  | (true, conn) =>
      let c := { c with
        conn := conn
        subscribeId := c.nextId
        nextId := succId c.nextId }
      if (c.sendJson text (subscribeMessage c.subscribeId) subscribeSends).1 then
        let c := { c with authorizeId := c.nextId, nextId := succId c.nextId }
        ((c.sendJson text (c.authorizeMessage c.authorizeId) authorizeSends).1, c)
      else (false, c)

/-- Build work for the held job with a fresh extranonce2. -/
def rebuildJob (c : StratumV1Client) :
    Except Fault (StratumV1Client × Option Callback) :=
  if c.haveJob then do
    let xn2 ← encodeExtranonce2 c.xn2Counter c.extranonce2Size
    let c := { c with xn2Counter := c.xn2Counter + 1 }
    match buildWork c.job c.extranonce1 xn2 c.difficulty {} with
    | (true, mj) => return (c, some (.onJob mj []))
    | (false, _) => return (c, none)
  else .ok (c, none)

/-- The verdict of a response: a result that is present and neither null nor
false. -/
def responseOk (msg : Json) : Bool :=
  match msg.find? "result" with
  | none => false
  | some .null => false
  | some (.bool false) => false
  | some _ => true

/-- The error text of a response, empty when there is none. -/
def errorText (text : JsonText) (msg : Json) : String :=
  match msg.find? "error" with
  | none => ""
  | some .null => ""
  | some error => text.dump error

/-- The branch of the handler for messages that carry an id. -/
def handleResponse (text : JsonText) (c : StratumV1Client) (msg : Json)
    (id : Int) : Except Fault (StratumV1Client × Option Callback) :=
  if id = c.subscribeId then do
    let result := (msg.find? "result").getD .null
    let (_, xn1, size) ← parseSubscribe result c.extranonce1 c.extranonce2Size
    return ({ c with extranonce1 := xn1, extranonce2Size := size }, none)
  else if id = c.authorizeId then .ok (c, none)
  else if id = c.lastSubmitId then
    .ok (c, some (.onSubmitResult (responseOk msg) (errorText text msg)))
  else .ok (c, none)

/-- `handle_line` after the line has parsed. -/
def handleMessage (text : JsonText) (c : StratumV1Client) (msg : Json) :
    Except Fault (StratumV1Client × Option Callback) := do
  let method ← msg.value Json.getString "" "method"
  if method = "mining.set_difficulty" then
    match msg.find? "params" with
    | some (.arr (first :: _)) =>
        let difficulty ← first.getDouble
        rebuildJob { c with difficulty := difficulty }
    | _ => return (c, none)
  else if method = "mining.notify" then
    match parseNotify ((msg.find? "params").getD (.arr [])) with
    | none => return (c, none)
    | some job => rebuildJob { c with job := job, haveJob := true }
  else if method = "client.reconnect" then
    return ({ c with conn := c.conn.close }, none)
  else
    match msg.find? "id" with
    | none => return (c, none)
    | some .null => return (c, none)
    | some idValue =>
        let id ← idValue.getInt
        handleResponse text c msg id

def handleLine (text : JsonText) (c : StratumV1Client) (line : String) :
    Except Fault (StratumV1Client × Option Callback) :=
  match text.parse line with
  | none => .ok (c, none)
  | some msg => handleMessage text c msg

/-- `poll`: the returned flag, the new state, the callback invoked, and the
unused part of the receive script. -/
def poll (text : JsonText) (c : StratumV1Client) (script : List RecvResult) :
    Except Fault (Bool × StratumV1Client × Option Callback × List RecvResult) :=
  match c.conn.readLine script with
  | (none, conn, rest) => .ok (conn.isOpen, { c with conn := conn }, none, rest)
  | (some line, conn, rest) =>
      if line = "" then .ok (true, { c with conn := conn }, none, rest)
      else do
        let (c, callback) ← handleLine text { c with conn := conn } line
        return (true, c, callback, rest)

def submitMessage (c : StratumV1Client) (id : Int) (job : MiningJob)
    (nonce : UInt32) : Json :=
  .obj [("id", .int id), ("method", .str "mining.submit"),
    ("params", .arr [.str c.user, .str job.jobId, .str job.extranonce2Hex,
      .str job.ntimeHex, .str (toHex (le32 nonce))])]

/-- `submit`: the state after taking an id, and the message it sends. -/
def submit (c : StratumV1Client) (job : MiningJob) (nonce : UInt32) :
    StratumV1Client × Json :=
  let c := { c with lastSubmitId := c.nextId, nextId := succId c.nextId }
  (c, c.submitMessage c.lastSubmitId job nonce)

/-- What a message is to the handler. -/
inductive Received where
  | setDifficulty (difficulty : ℚ)
  | notify (job : StratumJob)
  | reconnect
  | response (id : Int)
  | nothing

/-- The dispatch of `handle_line`, which does not look at the client. -/
def received (msg : Json) : Except Fault Received := do
  let method ← msg.value Json.getString "" "method"
  if method = "mining.set_difficulty" then
    match msg.find? "params" with
    | some (.arr (first :: _)) => return .setDifficulty (← first.getDouble)
    | _ => return .nothing
  else if method = "mining.notify" then
    match parseNotify ((msg.find? "params").getD (.arr [])) with
    | none => return .nothing
    | some job => return .notify job
  else if method = "client.reconnect" then return .reconnect
  else
    match msg.find? "id" with
    | none => return .nothing
    | some .null => return .nothing
    | some idValue => return .response (← idValue.getInt)

/-- What the client does with a message, once it is dispatched. -/
def handleReceived (text : JsonText) (c : StratumV1Client) (msg : Json) :
    Received → Except Fault (StratumV1Client × Option Callback)
  | .setDifficulty difficulty => rebuildJob { c with difficulty := difficulty }
  | .notify job => rebuildJob { c with job := job, haveJob := true }
  | .reconnect => .ok ({ c with conn := c.conn.close }, none)
  | .response id => handleResponse text c msg id
  | .nothing => .ok (c, none)

theorem handleMessage_eq (text : JsonText) (c : StratumV1Client) (msg : Json) :
    handleMessage text c msg = received msg >>= handleReceived text c msg := by
  unfold handleMessage received
  cases msg.value Json.getString "" "method" with
  | error fault => rfl
  | ok method =>
      change ite _ _ _ = ite _ _ _ >>= _
      split
      · split
        · rename_i first rest hparams
          cases first.getDouble <;> rfl
        · rfl
      · split
        · split <;> rfl
        · split
          · rfl
          · split
            · rfl
            · rfl
            · rename_i idValue hid hnull
              cases idValue.getInt <;> rfl

/-- The reply to subscribe writes the two extranonce fields. -/
theorem handleResponse_subscribe {text : JsonText} {c c' : StratumV1Client}
    {msg : Json} {callback : Option Callback}
    (hok : handleResponse text c msg c.subscribeId = .ok (c', callback)) :
    ∃ accepted xn1 size,
      parseSubscribe ((msg.find? "result").getD .null) c.extranonce1
        c.extranonce2Size = .ok (accepted, xn1, size) ∧
      c' = { c with extranonce1 := xn1, extranonce2Size := size } ∧
      callback = none := by
  rw [handleResponse, if_pos rfl] at hok
  obtain ⟨⟨accepted, xn1, size⟩, hparse, hok⟩ := bind_eq_ok.mp hok
  obtain ⟨rfl, rfl⟩ := Prod.mk.inj (Except.ok.inj hok)
  exact ⟨accepted, xn1, size, hparse, rfl, rfl⟩

/-- Any other response changes nothing, and gives no work. -/
theorem handleResponse_other (text : JsonText) {c : StratumV1Client}
    (msg : Json) {id : Int} (hid : id ≠ c.subscribeId) :
    ∃ callback, handleResponse text c msg id = .ok (c, callback) ∧
      ∀ job seed, callback ≠ some (.onJob job seed) := by
  unfold handleResponse
  rw [if_neg hid]
  split
  · exact ⟨none, rfl, by simp⟩
  · split
    · exact ⟨_, rfl, by simp⟩
    · exact ⟨none, rfl, by simp⟩

/-- A response writes the two extranonce fields at most, and gives no work. -/
theorem handleResponse_eq_ok {text : JsonText} {c c' : StratumV1Client}
    {msg : Json} {id : Int} {callback : Option Callback}
    (hok : handleResponse text c msg id = .ok (c', callback)) :
    (∃ xn1 size, c' = { c with extranonce1 := xn1, extranonce2Size := size }) ∧
      ∀ job seed, callback ≠ some (.onJob job seed) := by
  by_cases hid : id = c.subscribeId
  · subst hid
    obtain ⟨accepted, xn1, size, -, rfl, rfl⟩ := handleResponse_subscribe hok
    exact ⟨⟨xn1, size, rfl⟩, by simp⟩
  · obtain ⟨callback', hother, hnone⟩ := handleResponse_other text msg hid
    obtain ⟨rfl, rfl⟩ := Prod.mk.inj (Except.ok.inj (hother.symm.trans hok))
    exact ⟨⟨c.extranonce1, c.extranonce2Size, rfl⟩, hnone⟩

/-- Rebuilding takes at most one extranonce2 and changes nothing else; a job it
passes on is built from the held job and the current extranonce fields. -/
theorem rebuildJob_eq_ok {c c' : StratumV1Client} {callback : Option Callback}
    (hok : rebuildJob c = .ok (c', callback)) :
    (c' = c ∨ c' = { c with xn2Counter := c.xn2Counter + 1 }) ∧
      (callback = none ∨ ∃ xn2 mj, c.haveJob = true ∧
        encodeExtranonce2 c.xn2Counter c.extranonce2Size = .ok xn2 ∧
        buildWork c.job c.extranonce1 xn2 c.difficulty {} = (true, mj) ∧
        callback = some (.onJob mj [])) := by
  unfold rebuildJob at hok
  split at hok
  · rename_i hhave
    obtain ⟨xn2, hxn2, hbuilt⟩ := bind_eq_ok.mp hok
    simp only at hbuilt
    split at hbuilt
    · rename_i mj hmj
      obtain ⟨rfl, rfl⟩ := Prod.mk.inj (Except.ok.inj hbuilt)
      exact ⟨Or.inr rfl, Or.inr ⟨xn2, mj, hhave, hxn2, hmj, rfl⟩⟩
    · obtain ⟨rfl, rfl⟩ := Prod.mk.inj (Except.ok.inj hbuilt)
      exact ⟨Or.inr rfl, Or.inl rfl⟩
  · obtain ⟨rfl, rfl⟩ := Prod.mk.inj (Except.ok.inj hok)
    exact ⟨Or.inl rfl, Or.inl rfl⟩

/-- A `poll` handles the message it reads, or only receives bytes. -/
theorem poll_eq (text : JsonText) (c : StratumV1Client)
    (script : List RecvResult) :
    c.poll text script =
      match text.incoming c.conn script with
      | none => .ok ((c.conn.readLine script).1.isSome ||
          (c.conn.readLine script).2.1.isOpen,
          { c with conn := (c.conn.readLine script).2.1 }, none,
          (c.conn.readLine script).2.2)
      | some msg =>
          handleMessage text { c with
            conn := (c.conn.readLine script).2.1 } msg >>= fun result =>
              .ok (true, result.1, result.2,
                (c.conn.readLine script).2.2) := by
  unfold poll JsonText.incoming
  rcases c.conn.readLine script with ⟨_ | line, conn, rest⟩
  · simp
  · by_cases hline : line = ""
    · simp [hline]
    · simp only [hline, ↓reduceIte, handleLine]
      cases text.parse line with
      | none => rfl
      | some msg =>
          simp only
          cases handleMessage text { c with conn := conn } msg <;> rfl

end StratumV1Client

end Minerby
