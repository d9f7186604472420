/-
What a `connect` that returns true stands for.  The loop ends at the first
message that sets the field it waits for, whether or not the server has
accepted the credentials and whether or not a job has come.
-/
import Minerby.Handshake

namespace Minerby

namespace StratumV1Client

/-- The job that a rebuild would use. -/
def heldJob (c : StratumV1Client) : Option StratumJob :=
  if c.haveJob then some c.job else none

/-- Work can be built from the job while `extranonce1_` is empty. -/
def Buildable (job : StratumJob) : Prop := WellFormedWork job "" ""

/-- The held job after a message. -/
def heldAfter (held : Option StratumJob) (msg : Json) : Option StratumJob :=
  match received msg with
  | .ok (.notify job) => some job
  | _ => held

/-- The message gives work before there is a subscribe result: a notify, or a
new difficulty for a held job. -/
def BuildsWork (held : Option StratumJob) (msg : Json) : Prop :=
  match received msg with
  | .ok (.notify job) => Buildable job
  | .ok (.setDifficulty _) => ∃ job, held = some job ∧ Buildable job
  | _ => False

/-- One of the messages gives work. -/
def BringsWork : Option StratumJob → List Json → Prop
  | _, [] => False
  | held, msg :: rest => BuildsWork held msg ∨ BringsWork (heldAfter held msg) rest

/-- The `extranonce1` that a subscribe result writes, empty if it writes
none. -/
def subscribeExtranonce1 (result : Json) : String :=
  ((parseSubscribe result "" 0).toOption.map fun written => written.2.1).getD ""

/-- The message is the reply to subscribe and carries an `extranonce1`. -/
def subscribes (id : Int) (msg : Json) : Bool :=
  match received msg with
  | .ok (.response id') => id' = id ∧ subscribeExtranonce1
      ((msg.find? "result").getD .null) ≠ ""
  | _ => false

/-- The message is the reply to authorize, and positive. -/
def authorizes (id : Int) (msg : Json) : Bool :=
  match received msg with
  | .ok (.response id') => id' = id ∧ responseOk msg = true
  | _ => false

/-- A rebuild delivers work exactly when there is a job and it is well formed;
the extranonce2 is always hex. -/
theorem rebuildJob_isJob_iff {c c' : StratumV1Client}
    {callback : Option Callback} (hok : c.rebuildJob = .ok (c', callback)) :
    callback.any Callback.isJob = true ↔
      ∃ job, c.heldJob = some job ∧ WellFormedWork job c.extranonce1 "" := by
  by_cases hhave : c.haveJob = true
  · have hheld : c.heldJob = some c.job := if_pos hhave
    simp only [rebuildJob, hhave, ↓reduceIte] at hok
    obtain ⟨xn2, hxn2, hok⟩ := bind_eq_ok.mp hok
    obtain ⟨xn2', hxn2', hhex⟩ := encodeExtranonce2_other hxn2 c.xn2Counter
    obtain rfl := Except.ok.inj (hxn2.symm.trans hxn2')
    have hempty : IsHex "" := ⟨0, rfl, by simp⟩
    have hwork : (buildWork c.job c.extranonce1 xn2 c.difficulty {}).1 = true ↔
        WellFormedWork c.job c.extranonce1 "" := by
      rw [buildWork_fst_iff]
      exact ⟨wellFormedWork_xn2 hempty, wellFormedWork_xn2 hhex⟩
    simp only [hheld, Option.some.injEq, exists_eq_left']
    rw [← hwork]
    split at hok
    · rename_i mj hbuilt
      obtain ⟨rfl, rfl⟩ := Prod.mk.inj (Except.ok.inj hok)
      rw [hbuilt]
      exact iff_of_true rfl rfl
    · rename_i mj hbuilt
      obtain ⟨rfl, rfl⟩ := Prod.mk.inj (Except.ok.inj hok)
      rw [hbuilt]
      exact iff_of_false Bool.false_ne_true Bool.false_ne_true
  · have hheld : c.heldJob = none := if_neg hhave
    simp only [rebuildJob, hhave, Bool.false_eq_true, ↓reduceIte] at hok
    obtain ⟨rfl, rfl⟩ := Prod.mk.inj (Except.ok.inj hok)
    simp [hheld]

/-- What a subscribe result writes does not depend on the size field. -/
theorem parseSubscribe_extranonce1 {result : Json} {size : Int}
    {accepted : Bool} {xn1 : String} {written : Int}
    (hok : parseSubscribe result "" size = .ok (accepted, xn1, written)) :
    subscribeExtranonce1 result = xn1 := by
  have hsame : (parseSubscribe result "" 0).map (fun r => r.2.1) =
      (parseSubscribe result "" size).map fun r => r.2.1 := by
    unfold parseSubscribe
    split
    · rename_i items
      split
      · rfl
      · rcases caught (items.getD 1 .null).getString with _ | _ | second
        · rfl
        · rfl
        · change (caught (items.getD 2 .null).getInt >>= _).map _ =
            (caught (items.getD 2 .null).getInt >>= _).map _
          rcases caught (items.getD 2 .null).getInt with _ | _ | third <;> rfl
    · rfl
  rw [hok] at hsame
  unfold subscribeExtranonce1
  cases hparsed : parseSubscribe result "" 0 with
  | error fault =>
      rw [hparsed] at hsame
      cases hsame
  | ok r =>
      rw [hparsed] at hsame
      exact Except.ok.inj hsame

/-- What a message does while `extranonce1_` is empty. -/
structure Awaited (c c' : StratumV1Client) (msg : Json)
    (callback : Option Callback) : Prop where
  ready : c'.extranonce1 ≠ "" ↔ subscribes c.subscribeId msg = true
  delivers : callback.any Callback.isJob = true ↔ BuildsWork c.heldJob msg
  held : c'.heldJob = heldAfter c.heldJob msg

/-- A rebuild while `extranonce1_` is empty. -/
theorem rebuildJob_awaited {c c' : StratumV1Client}
    {callback : Option Callback} (hok : c.rebuildJob = .ok (c', callback))
    (hempty : c.extranonce1 = "") :
    c'.extranonce1 = "" ∧
      (callback.any Callback.isJob = true ↔
        ∃ job, c.heldJob = some job ∧ Buildable job) ∧
      c'.heldJob = c.heldJob := by
  have hsame := sameFields_of_rebuildJob hok
  have hjob := rebuildJob_isJob_iff hok
  rw [hempty] at hjob
  refine ⟨hsame.extranonce1.trans hempty, hjob, ?_⟩
  unfold heldJob
  rw [hsame.haveJob, hsame.job]

theorem handleMessage_awaited {text : JsonText} {c c' : StratumV1Client}
    {msg : Json} {callback : Option Callback} (hempty : c.extranonce1 = "")
    (hok : handleMessage text c msg = .ok (c', callback)) :
    Awaited c c' msg callback := by
  rw [handleMessage_eq] at hok
  obtain ⟨received, hreceived, hok⟩ := bind_eq_ok.mp hok
  cases received with
  | setDifficulty difficulty =>
      obtain ⟨hempty', hjob, hheld⟩ := rebuildJob_awaited hok hempty
      constructor
      · simp [subscribes, hreceived, hempty']
      · unfold BuildsWork
        rw [hreceived]
        exact hjob
      · unfold heldAfter
        rw [hreceived, hheld]
        rfl
  | notify job =>
      obtain ⟨hempty', hjob, hheld⟩ := rebuildJob_awaited hok hempty
      constructor
      · simp [subscribes, hreceived, hempty']
      · rw [hjob]
        simp [BuildsWork, hreceived, heldJob]
      · unfold heldAfter
        rw [hreceived, hheld]
        rfl
  | reconnect =>
      obtain ⟨rfl, rfl⟩ := Prod.mk.inj (Except.ok.inj hok)
      constructor
      · simp [subscribes, hreceived, hempty]
      · simp [BuildsWork, hreceived]
      · unfold heldAfter
        rw [hreceived]
        rfl
  | response id =>
      have hheld : heldAfter c.heldJob msg = c.heldJob := by
        unfold heldAfter
        rw [hreceived]
      have hbuilds : ¬ BuildsWork c.heldJob msg := by
        simp [BuildsWork, hreceived]
      by_cases hid : id = c.subscribeId
      · subst hid
        obtain ⟨accepted, xn1, size, hparse, rfl, rfl⟩ :=
          handleResponse_subscribe hok
        rw [hempty] at hparse
        constructor
        · simp only [subscribes, hreceived, true_and, decide_eq_true_eq,
            parseSubscribe_extranonce1 hparse]
        · exact iff_of_false Bool.false_ne_true hbuilds
        · exact hheld.symm
      · obtain ⟨callback', hother, hnone⟩ := handleResponse_other text msg hid
        obtain ⟨rfl, rfl⟩ := Prod.mk.inj
          (Except.ok.inj (hother.symm.trans hok))
        constructor
        · simp [subscribes, hreceived, hempty, hid]
        · refine iff_of_false ?_ hbuilds
          rw [Callback.any_isJob_iff]
          rintro ⟨job, seed, hjob⟩
          exact hnone job seed hjob
        · exact hheld.symm
  | nothing =>
      obtain ⟨rfl, rfl⟩ := Prod.mk.inj (Except.ok.inj hok)
      constructor
      · simp [subscribes, hreceived, hempty]
      · simp [BuildsWork, hreceived]
      · unfold heldAfter
        rw [hreceived]

end StratumV1Client

namespace MoneroClient

open StratumV1Client (errorText)

/-- A job object that `apply_job` takes. -/
def Acceptable (j : Json) : Prop :=
  ∃ mj seed, Describes j mj ∧ SeedOf j seed ∧ HeightReads j

/-- The message is the reply to login, without an error and with a session
id. -/
def logsIn (text : JsonText) (id : Int) (msg : Json) : Bool :=
  match received msg with
  | .ok (.response id') => id' = id ∧ errorText text msg = "" ∧
      (((msg.find? "result").map (Json.stringMember "id")).getD "") ≠ ""
  | _ => false

/-- The message carries a job that is taken: a job message, or a reply to login
without an error. -/
def BringsJob (text : JsonText) (id : Int) (msg : Json) : Prop :=
  match received msg with
  | .ok (.job params) => Acceptable params
  | .ok (.response id') => id' = id ∧ errorText text msg = "" ∧
      ∃ result job, msg.find? "result" = some result ∧
        result.find? "job" = some job ∧ Acceptable job
  | _ => False

theorem applyJob_loggedIn {c c' : MoneroClient} {j : Json} {taken : Bool}
    {callback : Option Callback}
    (hok : c.applyJob j = .ok (taken, c', callback)) :
    c'.loggedIn = c.loggedIn := by
  rcases applyJob_eq_ok hok with ⟨-, -, rfl, -⟩ | ⟨mj, -, rfl, -⟩ <;> rfl

theorem applyJob_isJob_iff {c c' : MoneroClient} {j : Json} {taken : Bool}
    {callback : Option Callback}
    (hok : c.applyJob j = .ok (taken, c', callback)) :
    callback.any Callback.isJob = true ↔ Acceptable j := by
  rcases applyJob_eq_ok hok with
    ⟨hnone, -, -, rfl⟩ | ⟨mj, hmj, -, ⟨-, rfl, hfails⟩ | ⟨seed, hseed, -, rfl⟩⟩
  · refine iff_of_false Bool.false_ne_true ?_
    rintro ⟨mj, seed, hmj, -⟩
    exact hnone mj hmj
  · refine iff_of_false Bool.false_ne_true ?_
    rintro ⟨mj', seed, -, hgood⟩
    exact hfails seed ((readSeed_eq_ok hmj.isObject).mpr hgood)
  · exact iff_of_true rfl
      ⟨mj, seed, hmj, (readSeed_eq_ok hmj.isObject).mp hseed⟩

/-- What a reply to login does. -/
theorem handleLogin_eq_ok {c c' : MoneroClient} {msg : Json}
    {callback : Option Callback}
    (hok : handleLogin c msg = .ok (c', callback)) :
    ∃ result, msg.find? "result" = some result ∧
      c'.loggedIn = decide (result.stringMember "id" ≠ "") ∧
      (callback.any Callback.isJob = true ↔
        ∃ job, result.find? "job" = some job ∧ Acceptable job) := by
  obtain ⟨result, hresult, hok⟩ := bind_eq_ok.mp hok
  obtain ⟨rpcId, hrpcId, hok⟩ := bind_eq_ok.mp hok
  refine ⟨result, Json.subscript_eq_ok.mp hresult, ?_⟩
  rw [Json.value_getString_eq hrpcId]
  simp only at hok
  split at hok
  · rename_i job hjob
    obtain ⟨⟨taken, c₁, callback₁⟩, happlied, hok⟩ := bind_eq_ok.mp hok
    obtain ⟨rfl, rfl⟩ := Prod.mk.inj (Except.ok.inj hok)
    have hlogged := applyJob_loggedIn happlied
    have hisJob := applyJob_isJob_iff happlied
    refine ⟨hlogged, hisJob.trans ?_⟩
    simp [hjob]
  · rename_i hnone
    obtain ⟨rfl, rfl⟩ := Prod.mk.inj (Except.ok.inj hok)
    refine ⟨rfl, ?_⟩
    simp [hnone]

/-- What a message does before the client is logged in. -/
structure Awaited (text : JsonText) (c c' : MoneroClient) (msg : Json)
    (callback : Option Callback) : Prop where
  ready : c'.loggedIn = true ↔ logsIn text c.loginId msg = true
  delivers : callback.any Callback.isJob = true ↔ BringsJob text c.loginId msg

theorem handle_awaited {text : JsonText} {c c' : MoneroClient} {msg : Json}
    {callback : Option Callback} (hout : c.loggedIn = false)
    (hok : handle text c msg = .ok (c', callback)) :
    Awaited text c c' msg callback := by
  rw [handle_eq] at hok
  obtain ⟨received, hreceived, hok⟩ := bind_eq_ok.mp hok
  cases received with
  | job params =>
      obtain ⟨⟨taken, c₁, callback₁⟩, happlied, hok⟩ := bind_eq_ok.mp hok
      obtain ⟨rfl, rfl⟩ := Prod.mk.inj (Except.ok.inj hok)
      have hlogged := applyJob_loggedIn happlied
      have hisJob := applyJob_isJob_iff happlied
      constructor
      · rw [hlogged]
        simp [logsIn, hreceived, hout]
      · rw [hisJob]
        simp [BringsJob, hreceived]
  | response id =>
      simp only [handleReceived, handleResponse] at hok
      split at hok
      · rename_i hid
        split at hok
        · rename_i herr
          obtain ⟨rfl, rfl⟩ := Prod.mk.inj (Except.ok.inj hok)
          constructor
          · simp [logsIn, hreceived, hout, herr]
          · simp [BringsJob, hreceived, herr]
        · rename_i herr
          obtain ⟨result, hresult, hlogged, hisJob⟩ := handleLogin_eq_ok hok
          constructor
          · rw [hlogged]
            simp [logsIn, hreceived, hid, not_not.mp herr, hresult]
          · rw [hisJob]
            simp [BringsJob, hreceived, hid, not_not.mp herr, hresult]
      · rename_i hid
        have hsame : c' = c ∧ callback.any Callback.isJob = false := by
          split at hok
          · obtain ⟨accepted, -, hok⟩ := bind_eq_ok.mp hok
            obtain ⟨rfl, rfl⟩ := Prod.mk.inj (Except.ok.inj hok)
            exact ⟨rfl, rfl⟩
          · obtain ⟨rfl, rfl⟩ := Prod.mk.inj (Except.ok.inj hok)
            exact ⟨rfl, rfl⟩
        obtain ⟨rfl, hnone⟩ := hsame
        constructor
        · simp [logsIn, hreceived, hout, hid]
        · rw [hnone]
          simp [BringsJob, hreceived, hid]
  | nothing =>
      obtain ⟨rfl, rfl⟩ := Prod.mk.inj (Except.ok.inj hok)
      constructor
      · simp [logsIn, hreceived, hout]
      · simp [BringsJob, hreceived]

end MoneroClient

namespace PoolClient

/-- The message sets the field that `connect` waits for. -/
def makesReady (text : JsonText) (c : PoolClient) (msg : Json) : Bool :=
  match c with
  | .stratum c => StratumV1Client.subscribes c.subscribeId msg
  | .monero c => MoneroClient.logsIn text c.loginId msg

/-- The messages up to the first that sets the field. -/
def upToReady (text : JsonText) (c : PoolClient) : List Json → List Json
  | [] => []
  | msg :: rest =>
      if c.makesReady text msg then [msg] else msg :: upToReady text c rest

/-- One of the messages accepts the credentials: a positive reply to authorize,
or a successful login. -/
def CredentialsAccepted (text : JsonText) (c : PoolClient)
    (msgs : List Json) : Prop :=
  match c with
  | .stratum c =>
      ∃ msg ∈ msgs, StratumV1Client.authorizes c.authorizeId msg = true
  | .monero c => ∃ msg ∈ msgs, MoneroClient.logsIn text c.loginId msg = true

instance (text : JsonText) : (c : PoolClient) → (msgs : List Json) →
    Decidable (c.CredentialsAccepted text msgs)
  | .stratum _, _ => inferInstanceAs (Decidable (∃ msg ∈ _, _ = true))
  | .monero _, _ => inferInstanceAs (Decidable (∃ msg ∈ _, _ = true))

/-- One of the messages gives work. -/
def BringsWork (text : JsonText) (c : PoolClient) (msgs : List Json) : Prop :=
  match c with
  | .stratum c => StratumV1Client.BringsWork c.heldJob msgs
  | .monero c => ∃ msg ∈ msgs, MoneroClient.BringsJob text c.loginId msg

/-- What a message does while the field is not set. -/
structure Awaited (text : JsonText) (c c' : PoolClient) (msg : Json)
    (callback : Option Callback) : Prop where
  ready : c'.ready = true ↔ c.makesReady text msg = true
  waits : c'.makesReady text = c.makesReady text
  brings : ∀ rest, c.BringsWork text (msg :: rest) ↔
    callback.any Callback.isJob = true ∨ c'.BringsWork text rest

theorem upToReady_congr {text : JsonText} {c c' : PoolClient}
    (hsame : c'.makesReady text = c.makesReady text) :
    c'.upToReady text = c.upToReady text := by
  funext msgs
  induction msgs with
  | nil => rfl
  | cons msg rest ih => rw [upToReady, upToReady, hsame, ih]

theorem handle_awaited {text : JsonText} {c c' : PoolClient} {msg : Json}
    {callback : Option Callback} (hready : c.ready = false)
    (hok : c.handle text msg = .ok (c', callback)) :
    Awaited text c c' msg callback := by
  cases c with
  | stratum c =>
      obtain ⟨⟨c₁, callback₁⟩, hhandled, hok⟩ := bind_eq_ok.mp hok
      obtain ⟨rfl, rfl⟩ := Prod.mk.inj (Except.ok.inj hok)
      have hempty : c.extranonce1 = "" := by simpa [ready] using hready
      have hawaited := StratumV1Client.handleMessage_awaited hempty hhandled
      obtain ⟨-, -, hsubscribe, -⟩ := StratumV1Client.handleMessage_ids hhandled
      constructor
      · simp only [ready, decide_eq_true_eq]
        exact hawaited.ready
      · funext msg
        simp only [makesReady, hsubscribe]
      · intro rest
        change StratumV1Client.BuildsWork _ _ ∨ _ ↔ _
        rw [← hawaited.delivers, ← hawaited.held]
        rfl
  | monero c =>
      obtain ⟨⟨c₁, callback₁⟩, hhandled, hok⟩ := bind_eq_ok.mp hok
      obtain ⟨rfl, rfl⟩ := Prod.mk.inj (Except.ok.inj hok)
      have hawaited := MoneroClient.handle_awaited hready hhandled
      obtain ⟨-, hlogin⟩ := MoneroClient.handle_kept hhandled
      constructor
      · exact hawaited.ready
      · funext msg
        simp only [makesReady, hlogin]
      · intro rest
        rw [hawaited.delivers]
        simp only [BringsWork, hlogin, List.mem_cons, exists_eq_or_imp]

/-- Receiving does not change what is waited for. -/
theorem receive_waits (text : JsonText) (c : PoolClient) (due : Bool)
    (script : List RecvResult) :
    (c.receive due script).makesReady text = c.makesReady text ∧
      (c.receive due script).BringsWork text = c.BringsWork text := by
  have hids := (c.receive_idsKept due script).handshakeIds
  cases c with
  | stratum c => exact ⟨rfl, rfl⟩
  | monero c =>
      have hlogin := List.singleton_inj.mp hids
      constructor
      · funext msg
        exact congrArg (MoneroClient.logsIn text · msg) hlogin
      · funext msgs
        exact congrArg (fun id => ∃ msg ∈ msgs,
          MoneroClient.BringsJob text id msg) hlogin

theorem bringsWork_nil (text : JsonText) (c : PoolClient) :
    ¬ c.BringsWork text [] := by
  cases c with
  | stratum c => exact id
  | monero c =>
      rintro ⟨msg, hmsg, -⟩
      cases hmsg

/-- A loop that succeeds has read the messages up to the one that sets the
field, and has delivered a job exactly when one of them gives work. -/
theorem connectLoop_succeeded {text : JsonText} {left : Nat}
    {polls : Nat → PollInput} {c : PoolClient} {h : Handshake}
    (hready : c.ready = false)
    (hok : connectLoop text left polls c = .ok h) (hresult : h.result = true) :
    h.read = c.upToReady text (TcpClient.messages text left polls c.conn) ∧
      (h.callbacks.any Callback.isJob = true ↔ c.BringsWork text h.read) := by
  induction left generalizing polls c h with
  | zero =>
      obtain rfl := Except.ok.inj hok
      exact absurd hresult (Bool.eq_false_iff.mp hready)
  | succ left ih =>
      have hwaits := c.receive_waits text (polls 0).due (polls 0).script
      rcases connectLoop_round hready hok with
        ⟨hnone, -, hrest⟩ | ⟨-, rfl⟩ |
        ⟨msg, next, callback, later, hmsg, hhandled, hrest, rfl⟩
      · have hrec := ih ((c.receive_ready _ _).trans hready) hrest hresult
        rw [upToReady_congr hwaits.1, hwaits.2, receive_conn] at hrec
        rw [TcpClient.messages, hnone]
        exact hrec
      · cases hresult
      · have hawaited := handle_awaited
          ((c.receive_ready _ _).trans hready) hhandled
        have hmakes := hawaited.ready
        have hbrings := hawaited.brings later.read
        rw [hwaits.1] at hmakes
        rw [hwaits.2] at hbrings
        have hany : (callback.toList ++ later.callbacks).any Callback.isJob =
            (callback.any Callback.isJob ||
              later.callbacks.any Callback.isJob) := by
          cases callback <;> simp
        rw [TcpClient.messages, hmsg, hany, Bool.or_eq_true, hbrings]
        by_cases hnext : next.ready = true
        · rw [connectLoop_ready text left _ hnext] at hrest
          obtain rfl := Except.ok.inj hrest
          constructor
          · simp only [Option.toList_some, List.singleton_append, upToReady,
              hmakes.mp hnext, ↓reduceIte]
          · simp only [List.any_nil, Bool.false_eq_true,
              bringsWork_nil text next]
        · have hunready := Bool.eq_false_iff.mpr hnext
          have hopen : ¬ next.conn.isOpen = false := by
            intro hclosed
            have hfailed := (connectLoop_closed hclosed hunready hrest).1
            exact absurd hresult (Bool.eq_false_iff.mp hfailed)
          have hsame := handle_conn_of_open hhandled hopen
          obtain ⟨hread, hjob⟩ := ih hunready hrest hresult
          rw [upToReady_congr (hawaited.waits.trans hwaits.1), hsame] at hread
          constructor
          · simp only [Option.toList_some, List.singleton_append, upToReady,
              mt hmakes.mpr hnext, ↓reduceIte, ← hread, Bool.false_eq_true]
          · rw [hjob]

theorem exists_onJob_iff {callbacks : List Callback} :
    (∃ job seed, Callback.onJob job seed ∈ callbacks) ↔
      callbacks.any Callback.isJob = true := by
  rw [List.any_eq_true]
  constructor
  · rintro ⟨job, seed, hmem⟩
    exact ⟨_, hmem, rfl⟩
  · rintro ⟨callback, hmem, hjob⟩
    obtain ⟨job, seed, rfl⟩ := Callback.isJob_iff.mp hjob
    exact ⟨job, seed, hmem⟩

/-- A `connect` that returns true stands for accepted credentials and a
delivered job exactly when the field it waits for was not set from before, and
the messages up to the one that sets it accept the credentials and give
work. -/
theorem successful_connect_iff (text : JsonText) (c : PoolClient)
    (opened : Option Nat) (firstSends secondSends : List SendResult)
    (polls : Nat → PollInput) {h : Handshake}
    (hok : c.connect text opened firstSends secondSends polls = .ok h)
    (hresult : h.result = true) :
    let c₁ := (c.connectStart text opened firstSends secondSends).2
    let first := c₁.upToReady text
      (TcpClient.messages text connectPolls polls { sock := opened })
    (c₁.CredentialsAccepted text h.read ∧
        ∃ job seed, Callback.onJob job seed ∈ h.callbacks) ↔
      c.ready = false ∧ c₁.CredentialsAccepted text first ∧
        c₁.BringsWork text first := by
  intro c₁ first
  have hconn : c₁.conn = { sock := opened } := c.connectStart_conn _ _ _ _
  have hsame : c₁.ready = c.ready := c.connectStart_ready _ _ _ _
  have hloop : connectLoop text connectPolls polls c₁ = .ok h := by
    unfold connect at hok
    split at hok
    · obtain rfl := Except.ok.inj hok
      cases hresult
    · rename_i c₂ hstart
      have hc₁ : c₁ = c₂ := congrArg Prod.snd hstart
      rw [hc₁]
      exact hok
  rw [← hsame]
  by_cases hready : c₁.ready = true
  · rw [connectLoop_ready text _ _ hready] at hloop
    obtain rfl := Except.ok.inj hloop
    refine iff_of_false ?_ ?_
    · rintro ⟨-, job, seed, hmem⟩
      cases hmem
    · rintro ⟨hunready, -⟩
      exact absurd hready (Bool.eq_false_iff.mp hunready)
  · have hunready := Bool.eq_false_iff.mpr hready
    obtain ⟨hread, hjob⟩ := connectLoop_succeeded hunready hloop hresult
    rw [hconn] at hread
    rw [exists_onJob_iff, hjob, hread]
    simp only [hunready, true_and, first]

open StratumV1Client (sessionText plainNotify subscribeReply)

def authorizeReply : Json :=
  .obj [("error", .null), ("id", .int 2), ("result", .bool true)]

/-- The server authorizes and sends a job before it answers the subscribe
message. -/
theorem answered_connect_has_work :
    let order := [authorizeReply, plainNotify, subscribeReply]
    let text : JsonText := .ofMessages order
    let c := make .stratum "u" "x"
    let polls : Nat → PollInput :=
      fun i => { script := [.line (order.getD i .null).render] }
    let c₁ := (c.connectStart text (some 7) [.all] [.all]).2
    ∃ h, c.connect text (some 7) [.all] [.all] polls = .ok h ∧
      h.result = true ∧
      (c₁.CredentialsAccepted text h.read ∧
        ∃ job seed, Callback.onJob job seed ∈ h.callbacks) ∧
      c₁.BringsWork text (c₁.upToReady text
        (TcpClient.messages text connectPolls polls { sock := some 7 })) := by
  intro order text c polls c₁
  have hrun : (c.connect text (some 7) [.all] [.all] polls).toOption.any
      (fun h => decide (h.result = true ∧ c₁.CredentialsAccepted text h.read ∧
        ∃ callback ∈ h.callbacks, callback.isJob = true)) = true := by
    decide +kernel
  obtain ⟨h, hok, hfacts⟩ := exists_of_toOption_any hrun
  obtain ⟨hresult, haccepted, callback, hmem, hjob⟩ := of_decide_eq_true hfacts
  have hproperty : c₁.CredentialsAccepted text h.read ∧
      ∃ job seed, Callback.onJob job seed ∈ h.callbacks := by
    refine ⟨haccepted, ?_⟩
    obtain ⟨job, seed, rfl⟩ := Callback.isJob_iff.mp hjob
    exact ⟨job, seed, hmem⟩
  have hcondition := (successful_connect_iff text c _ _ _ polls hok
    hresult).mp hproperty
  exact ⟨h, hok, hresult, hproperty, hcondition.2.2⟩

/-- The reply to subscribe alone: `connect` returns true without a reply to
authorize and without a job. -/
theorem subscribed_connect_has_no_work :
    let c := make .stratum "u" "x"
    let polls : Nat → PollInput :=
      fun _ => { script := [.line subscribeReply.render] }
    let c₁ := (c.connectStart sessionText (some 7) [.all] [.all]).2
    ∃ h, c.connect sessionText (some 7) [.all] [.all] polls = .ok h ∧
      h.result = true ∧ h.callbacks = [] ∧
      ¬ c₁.CredentialsAccepted sessionText h.read := by
  intro c polls c₁
  have hrun : (c.connect sessionText (some 7) [.all] [.all]
      polls).toOption.any (fun h => decide (h.result = true ∧
        h.callbacks = [] ∧ ¬ c₁.CredentialsAccepted sessionText h.read)) =
          true := by
    decide +kernel
  obtain ⟨h, hok, hfacts⟩ := exists_of_toOption_any hrun
  exact ⟨h, hok, of_decide_eq_true hfacts⟩

end PoolClient

end Minerby
