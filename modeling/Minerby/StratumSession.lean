/-
Sessions of the Stratum client.  `extranonce1_` outlives the connection it was
assigned on, `client.reconnect` closes the connection and keeps the held job,
and a rejected subscribe result may still have written the extranonce fields,
so work can be built from parts of several sessions.
-/
import Minerby.StepSystem
import Minerby.StratumV1Client

namespace Minerby

namespace StratumV1Client

/-- A job passed to `on_job`, with the notifies and the accepted subscribe
results received until then on the TCP connection that was current. -/
structure Delivery where
  job : MiningJob
  notifies : List StratumJob
  subscribes : List (String × Int)

/-- The job was built from a notify and a subscribe result of its own
connection. -/
def Delivery.Unmixed (d : Delivery) : Prop :=
  ∃ job ∈ d.notifies, ∃ extranonce ∈ d.subscribes,
    ∃ counter xn2 difficulty,
      encodeExtranonce2 counter extranonce.2 = .ok xn2 ∧
        buildWork job extranonce.1 xn2 difficulty {} = (true, d.job)

/-- The client and what it has received on its current connection.
`subscribed` says that a subscribe result was accepted there and that no
rejected one has changed the extranonce fields since. -/
structure Session where
  client : StratumV1Client
  notifies : List StratumJob := []
  subscribes : List (String × Int) := []
  subscribed : Bool := false
  deliveries : List Delivery := []

/-- The calls made on the client.  The polls of the loop inside `connect` are
polls like any other. -/
inductive SessionLabel where
  | connect (opened : Option Nat)
      (subscribeSends authorizeSends : List SendResult)
  | disconnect
  | poll (script : List RecvResult)
  | submit (job : MiningJob) (nonce : UInt32)

namespace Session

/-- Note a message received on the current connection. -/
def note (s : Session) (msg : Json) : Session :=
  match received msg with
  | .ok (.notify job) => { s with notifies := job :: s.notifies }
  | .ok (.response id) =>
      if id = s.client.subscribeId then
        match parseSubscribe ((msg.find? "result").getD .null)
            s.client.extranonce1 s.client.extranonce2Size with
        | .ok (true, xn1, size) =>
            { s with
              subscribes := (xn1, size) :: s.subscribes
              subscribed := true }
        | .ok (false, xn1, size) =>
            { s with
              subscribed := s.subscribed &&
                decide ((xn1, size) =
                  (s.client.extranonce1, s.client.extranonce2Size)) }
        | .error _ => s
      else s
  | _ => s

/-- Record the callback of a poll. -/
def deliver (s : Session) : Option Callback → Session
  | some (.onJob job _) =>
      { s with deliveries := ⟨job, s.notifies, s.subscribes⟩ :: s.deliveries }
  | _ => s

/-- A poll that fails ends the run: nothing catches the exception. -/
def step (text : JsonText) (s : Session) : SessionLabel → Option Session
  | .connect opened subscribeSends authorizeSends =>
      some { s with
        client :=
          (s.client.connectStart text opened subscribeSends authorizeSends).2
        notifies := []
        subscribes := []
        subscribed := false }
  | .disconnect => some { s with client := s.client.disconnect }
  | .submit job nonce => some { s with client := (s.client.submit job nonce).1 }
  | .poll script =>
      match s.client.poll text script with
      | .error _ => none
      | .ok (_, client, callback, _) =>
          let s := match text.incoming s.client.conn script with
            | none => s
            | some msg => s.note msg
          some ({ s with client := client }.deliver callback)

end Session

/-- Work is built only in a session: a notify arrives only while subscribed,
and a new difficulty, with a job held, only while subscribed and after a
notify on the same connection. -/
def InSession (text : JsonText) (s : Session) : SessionLabel → Prop
  | .poll script =>
      match (text.incoming s.client.conn script).map received with
      | some (.ok (.notify _)) => s.subscribed = true
      | some (.ok (.setDifficulty _)) => s.client.haveJob = true →
          s.subscribed = true ∧ s.notifies.isEmpty = false
      | _ => True
  | _ => True

instance (text : JsonText) (s : Session) (label : SessionLabel) :
    Decidable (InSession text s label) := by
  unfold InSession
  split
  · split <;> infer_instance
  · infer_instance

/-- The fields that work is built from belong to the current connection as far
as `subscribed` and `notifies` say, and every job so far was unmixed. -/
structure SessionKept (s : Session) : Prop where
  extranonce : s.subscribed = true →
    (s.client.extranonce1, s.client.extranonce2Size) ∈ s.subscribes
  job : s.notifies.isEmpty = false → s.client.job ∈ s.notifies
  deliveries : ∀ d ∈ s.deliveries, d.Unmixed

/-- Building work in a session delivers an unmixed job or none. -/
theorem SessionKept.rebuild {s : Session} {c c' : StratumV1Client}
    {callback : Option Callback} (hkept : SessionKept { s with client := c })
    (hsubscribed : s.subscribed = true) (hnotified : s.notifies.isEmpty = false)
    (hok : rebuildJob c = .ok (c', callback)) :
    SessionKept ({ s with client := c' }.deliver callback) := by
  obtain ⟨hc', hcallback⟩ := rebuildJob_eq_ok hok
  have hfields : c'.extranonce1 = c.extranonce1 ∧
      c'.extranonce2Size = c.extranonce2Size ∧ c'.job = c.job := by
    rcases hc' with rfl | rfl <;> exact ⟨rfl, rfl, rfl⟩
  have hsame : SessionKept { s with client := c' } := by
    refine ⟨fun h => ?_, fun h => ?_, hkept.deliveries⟩
    · change (c'.extranonce1, c'.extranonce2Size) ∈ s.subscribes
      rw [hfields.1, hfields.2.1]
      exact hkept.extranonce h
    · change c'.job ∈ s.notifies
      rw [hfields.2.2]
      exact hkept.job h
  rcases hcallback with rfl | ⟨xn2, mj, -, hxn2, hbuilt, rfl⟩
  · exact hsame
  · refine ⟨hsame.extranonce, hsame.job, fun d hd => ?_⟩
    rcases List.mem_cons.mp hd with rfl | hd
    · exact ⟨c.job, hkept.job hnotified, _, hkept.extranonce hsubscribed,
        _, xn2, _, hxn2, hbuilt⟩
    · exact hkept.deliveries d hd

/-- A client that changes neither the extranonce fields nor the job keeps the
session. -/
theorem SessionKept.of_fields {s : Session} {c : StratumV1Client}
    (hkept : SessionKept s) (hxn1 : c.extranonce1 = s.client.extranonce1)
    (hsize : c.extranonce2Size = s.client.extranonce2Size)
    (hjob : c.job = s.client.job) : SessionKept { s with client := c } := by
  refine ⟨fun h => ?_, fun h => ?_, hkept.deliveries⟩
  · change (c.extranonce1, c.extranonce2Size) ∈ s.subscribes
    rw [hxn1, hsize]
    exact hkept.extranonce h
  · change c.job ∈ s.notifies
    rw [hjob]
    exact hkept.job h

/-- A response assigns the extranonce fields exactly when the session notes
it. -/
theorem SessionKept.response {s : Session} {text : JsonText} {conn : TcpClient}
    {msg : Json} {id : Int} {c' : StratumV1Client} {callback : Option Callback}
    (hkept : SessionKept s) (hreceived : received msg = .ok (.response id))
    (hok : handleResponse text { s.client with conn := conn } msg id =
      .ok (c', callback)) :
    SessionKept ({ s.note msg with client := c' }.deliver callback) := by
  unfold Session.note
  simp only [hreceived]
  by_cases hsubscribe : id = s.client.subscribeId
  · subst hsubscribe
    obtain ⟨accepted, xn1, size, hparse, rfl, rfl⟩ :=
      handleResponse_subscribe hok
    simp only [↓reduceIte, hparse]
    cases accepted with
    | true => exact ⟨fun _ => List.mem_cons_self, hkept.job, hkept.deliveries⟩
    | false =>
        refine ⟨fun h => ?_, hkept.job, hkept.deliveries⟩
        simp only [Session.deliver, Bool.and_eq_true, decide_eq_true_eq] at h
        change (xn1, size) ∈ s.subscribes
        rw [h.2]
        exact hkept.extranonce h.1
  · simp only [hsubscribe, ↓reduceIte]
    obtain ⟨callback', hother, hnone⟩ :=
      handleResponse_other text (c := { s.client with conn := conn }) msg
        hsubscribe
    obtain ⟨rfl, rfl⟩ := Prod.mk.inj (Except.ok.inj (hother.symm.trans hok))
    have hsame : SessionKept { s with
        client := { s.client with conn := conn } } :=
      hkept.of_fields rfl rfl rfl
    unfold Session.deliver
    split
    · rename_i job seed
      exact absurd rfl (hnone job seed)
    · exact hsame

theorem SessionKept.poll {text : JsonText} {s s' : Session}
    {script : List RecvResult} (hkept : SessionKept s)
    (hok : InSession text s (.poll script))
    (hstep : s.step text (.poll script) = some s') : SessionKept s' := by
  simp only [Session.step] at hstep
  split at hstep
  · cases hstep
  · rename_i flag client callback rest hpoll
    obtain rfl := Option.some.inj hstep
    rw [poll_eq] at hpoll
    cases hmsg : text.incoming s.client.conn script with
    | none =>
      simp only [hmsg, Except.ok.injEq, Prod.mk.injEq] at hpoll
      obtain ⟨-, rfl, rfl, -⟩ := hpoll
      exact hkept.of_fields rfl rfl rfl
    | some msg =>
      simp only [hmsg] at hpoll
      obtain ⟨⟨c', callback'⟩, hhandled, hresult⟩ := bind_eq_ok.mp hpoll
      simp only [Except.ok.injEq, Prod.mk.injEq] at hresult
      obtain ⟨-, rfl, rfl, -⟩ := hresult
      rw [handleMessage_eq] at hhandled
      obtain ⟨received, hreceived, hhandled⟩ := bind_eq_ok.mp hhandled
      simp only [InSession, hmsg, Option.map_some, hreceived] at hok
      cases received with
      | notify job =>
          have hnote : s.note msg = { s with notifies := job :: s.notifies } := by
            simp only [Session.note, hreceived]
          simp only [hnote]
          refine SessionKept.rebuild (s := { s with
            notifies := job :: s.notifies }) ?_ hok rfl hhandled
          exact ⟨hkept.extranonce, fun _ => List.mem_cons_self,
            hkept.deliveries⟩
      | setDifficulty difficulty =>
          have hnote : s.note msg = s := by
            simp only [Session.note, hreceived]
          simp only [hnote]
          by_cases hhave : s.client.haveJob = true
          · obtain ⟨hsubscribed, hnotified⟩ := hok hhave
            change rebuildJob _ = _ at hhandled
            refine SessionKept.rebuild ?_ hsubscribed hnotified hhandled
            exact hkept.of_fields rfl rfl rfl
          · simp only [handleReceived, rebuildJob, hhave, Bool.false_eq_true,
              ↓reduceIte, Except.ok.injEq, Prod.mk.injEq] at hhandled
            obtain ⟨rfl, rfl⟩ := hhandled
            exact hkept.of_fields rfl rfl rfl
      | reconnect =>
          have hnote : s.note msg = s := by
            simp only [Session.note, hreceived]
          obtain ⟨rfl, rfl⟩ := Prod.mk.inj (Except.ok.inj hhandled)
          simp only [hnote]
          exact hkept.of_fields rfl rfl rfl
      | response id =>
          have hresponse := hkept.response hreceived hhandled
          exact hresponse
      | nothing =>
          have hnote : s.note msg = s := by
            simp only [Session.note, hreceived]
          obtain ⟨rfl, rfl⟩ := Prod.mk.inj (Except.ok.inj hhandled)
          simp only [hnote]
          exact hkept.of_fields rfl rfl rfl

theorem SessionKept.step {text : JsonText} {s s' : Session}
    {label : SessionLabel} (hkept : SessionKept s)
    (hok : InSession text s label) (hstep : s.step text label = some s') :
    SessionKept s' := by
  cases label with
  | connect opened subscribeSends authorizeSends =>
      obtain rfl := Option.some.inj hstep
      exact ⟨nofun, nofun, hkept.deliveries⟩
  | disconnect =>
      obtain rfl := Option.some.inj hstep
      exact hkept.of_fields rfl rfl rfl
  | submit job nonce =>
      obtain rfl := Option.some.inj hstep
      exact hkept.of_fields rfl rfl rfl
  | poll script => exact hkept.poll hok hstep

/-- In a run that builds work only in a session, every job passed to `on_job`
comes from a notify and a subscribe result of its own connection. -/
theorem deliveries_unmixed (text : JsonText) (user pass : String)
    {labels : List SessionLabel} {s : Session}
    (hrun : Run (Session.step text) (InSession text)
      { client := { user := user, pass := pass } } labels s) :
    ∀ d ∈ s.deliveries, d.Unmixed := by
  have hkept : SessionKept s :=
    hrun.invariant (fun _ _ _ hinv hok hstep => SessionKept.step hinv hok hstep)
      ⟨nofun, nofun, nofun⟩
  exact hkept.deliveries

def subscribeReply : Json :=
  .obj [("error", .null), ("id", .int 1),
    ("result", .arr [.arr [], .str "01", .int 4])]

def plainNotify : Json :=
  .obj [("id", .null), ("method", .str "mining.notify"),
    ("params", .arr [.str "1",
      .str "0000000000000000000000000000000000000000000000000000000000000000",
      .str "", .str "", .arr [], .str "20000000", .str "1d00ffff",
      .str "504e86b9", .bool true])]

def reconnectRequest : Json :=
  .obj [("id", .null), ("method", .str "client.reconnect"), ("params", .arr [])]

def sessionText : JsonText :=
  .ofMessages [subscribeReply, plainNotify, reconnectRequest]

/-- The first connection: the subscribe reply, then a notify. -/
def firstSession : List SessionLabel :=
  [.connect (some 1) [.all] [.all],
    .poll [.line subscribeReply.render], .poll [.line plainNotify.render]]

/-- The server asks for a reconnect and sends its notify on the new connection
before the subscribe reply. -/
def secondSession : List SessionLabel :=
  [.poll [.line reconnectRequest.render],
    .connect (some 2) [.all] [.all],
    .poll [.line plainNotify.render]]

/-- The first connection is a run of the kind above, and delivers a job. -/
theorem firstSession_unmixed :
    ∃ s, Run (Session.step sessionText) (InSession sessionText)
        { client := { user := "u", pass := "x" } } firstSession s ∧
      s.deliveries.length = 1 ∧ ∀ d ∈ s.deliveries, d.Unmixed := by
  have hreplay : (replay (Session.step sessionText) (InSession sessionText)
      { client := { user := "u", pass := "x" } } firstSession).any
        (fun s => s.deliveries.length = 1) = true := by
    decide +kernel
  obtain ⟨s, hs, hlength⟩ := (Option.any_eq_true _ _).mp hreplay
  have hrun := run_of_replay hs
  exact ⟨s, hrun, of_decide_eq_true hlength,
    deliveries_unmixed sessionText "u" "x" hrun⟩

/-- After the reconnect a job is delivered on a connection that has had no
subscribe result: its extranonce1 is the first connection's. -/
theorem secondSession_mixed :
    ∃ s, Run (Session.step sessionText) anyLabel
        { client := { user := "u", pass := "x" } }
        (firstSession ++ secondSession) s ∧
      ∃ d ∈ s.deliveries, d.subscribes = [] ∧ ¬ d.Unmixed := by
  have hreplay : (replay (Session.step sessionText) anyLabel
      { client := { user := "u", pass := "x" } }
      (firstSession ++ secondSession)).any
        (fun s => s.deliveries.any fun d => d.subscribes.isEmpty) = true := by
    decide +kernel
  obtain ⟨s, hs, hany⟩ := (Option.any_eq_true _ _).mp hreplay
  obtain ⟨d, hd, hempty⟩ := List.any_eq_true.mp hany
  have hnil : d.subscribes = [] := List.isEmpty_iff.mp hempty
  refine ⟨s, run_of_replay hs, d, hd, hnil, ?_⟩
  rintro ⟨job, -, extranonce, hmem, -⟩
  rw [hnil] at hmem
  cases hmem

end StratumV1Client

end Minerby
