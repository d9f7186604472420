/-
Every submit on the session its job came from.  A worker that has passed its
generation check submits through whatever connection the client has by then,
and a connection that is closed on the server's request is replaced without
the work being cleared.
-/
import Minerby.HeldJobs
import Minerby.MainLoop
import Minerby.StratumSession

namespace Minerby

open MinerPool (Pc Worker JobPtr Call Ctl soleWorker)
open StratumV1Client (subscribeReply plainNotify reconnectRequest)

namespace Miner

variable {threads : UInt32}

/-- No job of an earlier connection can be submitted any more: the work is
cleared, no worker is past its generation check, and none holds a job under the
current generation. -/
def Drained (s : Miner threads) : Prop :=
  s.rig.pool.work = none ∧
    ∀ i, (s.rig.pool.workers i).pc.committed = false ∧
      ((s.rig.pool.workers i).work.isSome = true →
        (s.rig.pool.workers i).localWorkGen ≠ s.rig.pool.workGen)

/-- The steps that keep every submit on its own session: a connection is opened
only when the workers are drained, and a job is set only under a generation
that no worker with a job still holds. -/
def KeepsSession (s : Miner threads) : LoopLabel threads → Prop
  | .connect true _ _ => s.Drained
  | .main =>
      match s.rig.pool.ctl, s.rig.pc with
      | .idle, .setWork _ _ => s.rig.pool.FreshWorkGen
      | _, _ => True
  | _ => True

instance (s : Miner threads) : Decidable s.Drained := by
  unfold Drained
  infer_instance

instance (s : Miner threads) (label : LoopLabel threads) :
    Decidable (KeepsSession s label) := by
  unfold KeepsSession
  split
  · infer_instance
  · split <;> infer_instance
  · infer_instance

/-- The job was delivered on the connection. -/
def CameFrom (s : Miner threads) (conn : Nat) (p : JobPtr) : Prop :=
  s.sessionOf p.serial = some conn

/-- While there is a connection all jobs are its own; there is none when the
work is cleared; and what was sent was sent on the job's connection. -/
structure OnSession (s : Miner threads) : Prop where
  sound : MinerPool.Sound s.rig.pool
  jobs : ∀ conn, s.client.conn.sock = some conn →
    s.rig.pool.AllJobs (s.CameFrom conn)
  callback : s.rig.pc ≠ .idle → s.deliveredOn = s.client.conn.sock
  offline : s.pc = .clearWork → s.client.conn.sock = none
  wire : ∀ sent ∈ s.wire, sent.work.serial ≤ s.rig.pool.updates ∧
    s.CameFrom sent.conn sent.work

/-- A new `set_work` call leaves the sessions of older jobs alone. -/
theorem withRig_cameFrom {s : Miner threads} {rig : Rig threads} {conn : Nat}
    {p : JobPtr} (hle : s.rig.pool.updates ≤ rig.pool.updates)
    (hp : p.serial ≤ s.rig.pool.updates) (hcame : s.CameFrom conn p) :
    (s.withRig rig).CameFrom conn p := by
  simp only [CameFrom, withRig] at hcame ⊢
  split
  · exact hcame
  · rw [Function.update_of_ne (by omega)]
    exact hcame

/-- A step of the mining side. -/
theorem OnSession.withRig {s : Miner threads} {rig : Rig threads}
    (hon : OnSession s) (hsound : MinerPool.Sound rig.pool)
    (hle : s.rig.pool.updates ≤ rig.pool.updates)
    (hpc : s.rig.pc = .idle → rig.pc = .idle)
    (hjobs : ∀ conn, s.client.conn.sock = some conn →
      rig.pool.AllJobs ((s.withRig rig).CameFrom conn)) :
    OnSession (s.withRig rig) := by
  refine ⟨hsound, hjobs, fun h => hon.callback fun hidle => h (hpc hidle),
    hon.offline, fun sent hsent => ?_⟩
  obtain ⟨hserial, hcame⟩ := hon.wire sent hsent
  exact ⟨le_trans hserial hle, withRig_cameFrom hle hserial hcame⟩

/-- The jobs stay those of the connection over a step that keeps them good. -/
theorem OnSession.withRig_of_jobs {s : Miner threads} {rig : Rig threads}
    (hon : OnSession s) (hsound : MinerPool.Sound rig.pool)
    (hupdates : rig.pool.updates = s.rig.pool.updates)
    (hpc : s.rig.pc = .idle → rig.pc = .idle)
    (hjobs : ∀ good, s.rig.pool.AllJobs good → rig.pool.AllJobs good) :
    OnSession (s.withRig rig) := by
  refine hon.withRig hsound hupdates.ge hpc fun conn hsock => ?_
  refine hjobs _ ((hon.jobs conn hsock).mono hon.sound fun p hp hcame => ?_)
  exact withRig_cameFrom hupdates.ge hp hcame

theorem OnSession.turned {setup : Setup} {s : Miner threads}
    {rig : Rig threads} {i : Fin threads.toNat}
    {label : MinerPool.Label threads Hasher} (hon : OnSession s)
    (hturned : Rig.Turned setup s.rig rig i label) :
    OnSession (s.withRig rig) := by
  refine hon.withRig_of_jobs (hon.sound.turned hturned.pool)
    hturned.pool.updates (fun hidle => ?_) fun good hjobs =>
      hjobs.turned hturned.pool
  rw [hturned.pc]
  exact hidle

/-- The main thread's step inside the callback or a call. -/
theorem OnSession.mainTurn {s : Miner threads} {rig : Rig threads}
    (hon : OnSession s) (hok : KeepsSession s .main)
    (hturn : Rig.MainTurn s.rig rig) : OnSession (s.withRig rig) := by
  have hsound := hturn.sound hon.sound
  rcases hturn.pool with h | h | ⟨call, hcall, h⟩ | ⟨rekeyed, job, hpc, h⟩
  · refine hon.withRig_of_jobs hsound (by rw [h]) hturn.pc_idle
      fun good hjobs => ?_
    rw [h]
    exact hjobs
  · exact hon.withRig_of_jobs hsound (MinerPool.ctlStep_work h).1 hturn.pc_idle
      fun good hjobs => hjobs.ctl h
  · refine hon.withRig_of_jobs hsound ?_ hturn.pc_idle fun good hjobs =>
      hjobs.call h hcall
    rw [h.updates, hcall]
    rfl
  · -- a new job, of the connection it was delivered on
    have hupdates : rig.pool.updates = s.rig.pool.updates + 1 := h.updates
    simp only [KeepsSession, h.idle, hpc] at hok
    refine hon.withRig hsound (by omega) hturn.pc_idle fun conn hsock => ?_
    refine ((hon.jobs conn hsock).mono hon.sound fun p hp hcame =>
      withRig_cameFrom (by omega) hp hcame).setWork hok h fun p hp => ?_
    have hdelivered := hon.callback (by rw [hpc]; nofun)
    simp only [CameFrom, Miner.withRig, hupdates, Nat.succ_ne_self, ↓reduceIte,
      hp, Function.update_self]
    exact hdelivered.trans hsock

/-- The main thread moves on in the loop. -/
theorem OnSession.goto {s : Miner threads} {pc : LoopPc} (hon : OnSession s)
    (hpc : pc ≠ .clearWork) : OnSession { s with pc := pc } :=
  ⟨hon.sound, hon.jobs, hon.callback, fun h => absurd h hpc, hon.wire⟩

/-- The client changes and keeps its socket. -/
theorem OnSession.keepSock {s : Miner threads} {client : PoolClient}
    (hon : OnSession s) (hsock : client.conn.sock = s.client.conn.sock) :
    OnSession { s with client := client } := by
  refine ⟨hon.sound, ?_, ?_, ?_, hon.wire⟩
  · rw [hsock]
    exact hon.jobs
  · rw [hsock]
    exact hon.callback
  · rw [hsock]
    exact hon.offline

/-- The socket is closed outside the callback. -/
theorem OnSession.closeSock {s : Miner threads} {client : PoolClient}
    (hon : OnSession s) (hsock : client.conn.sock = none)
    (hidle : s.rig.pc = .idle) : OnSession { s with client := client } := by
  refine ⟨hon.sound, fun conn h => ?_, fun h => absurd hidle h,
    fun _ => hsock, hon.wire⟩
  change client.conn.sock = some conn at h
  rw [hsock] at h
  cases h

theorem free_eq_true {s : Miner threads} (hfree : s.free = true) :
    s.rig.pool.ctl = .idle ∧ s.rig.pc = .idle :=
  of_decide_eq_true hfree

/-- A connection is opened when nothing of an earlier one is left. -/
theorem Drained.allJobs {s : Miner threads} {good : JobPtr → Prop}
    (hdrained : s.Drained) (hctl : s.rig.pool.ctl = .idle) :
    s.rig.pool.AllJobs good := by
  obtain ⟨hwork, hworkers⟩ := hdrained
  refine ⟨fun p hp => ?_, fun p h => ?_, fun i => ⟨fun p hcom _ => ?_,
    fun p hp _ => Or.inr ((hworkers i).2 ?_)⟩⟩
  · rw [hwork] at hp
    cases hp
  · rw [hctl] at h
    cases h
  · rw [(hworkers i).1] at hcom
    cases hcom
  · rw [hp]
    rfl

theorem OnSession.connect {text : JsonText} {s s' : Miner threads}
    {opened : Bool} {firstSends secondSends : List SendResult}
    (hon : OnSession s)
    (hok : KeepsSession s (.connect opened firstSends secondSends))
    (hstep : s.connect text opened firstSends secondSends = some s') :
    OnSession s' := by
  unfold Miner.connect at hstep
  split at hstep
  case isFalse => cases hstep
  case isTrue hready =>
    obtain ⟨hctl, hpc⟩ := free_eq_true hready.1
    have hsock := s.client.connectStart_sock text
      (if opened then some (s.connections + 1) else none) firstSends secondSends
    rcases hstart : s.client.connectStart text
      (if opened then some (s.connections + 1) else none) firstSends
      secondSends with ⟨ok, client⟩
    rw [hstart] at hsock
    simp only [hstart, Option.some.injEq] at hstep
    subst hstep
    refine ⟨hon.sound, fun conn h => ?_, fun h => absurd hpc h, fun h => ?_,
      hon.wire⟩
    · cases opened with
      | false => exact absurd (h.symm.trans hsock) nofun
      | true => exact hok.allJobs hctl
    · cases ok <;> cases h

theorem afterPoll_ne_clearWork {s : Miner threads} {next : Bool → LoopPc}
    (hnext : s.afterPoll = some next) (flag : Bool) :
    next flag ≠ .clearWork := by
  unfold afterPoll at hnext
  simp only at hnext
  split at hnext
  · split at hnext
    · obtain rfl := Option.some.inj hnext
      cases flag <;> nofun
    · cases hnext
  · obtain rfl := Option.some.inj hnext
    cases flag <;> nofun
  · split at hnext
    · cases hnext
    · obtain rfl := Option.some.inj hnext
      cases flag <;> nofun
  · cases hnext

theorem OnSession.poll {setup : Setup} {text : JsonText} {s s' : Miner threads}
    {due : Bool} {script : List RecvResult} (hon : OnSession s)
    (hstep : s.poll setup text due script = some s') : OnSession s' := by
  unfold Miner.poll at hstep
  split at hstep
  case h_2 => cases hstep
  case h_1 next hfree hnext =>
    obtain ⟨-, hpc⟩ := free_eq_true hfree
    have hgoto := afterPoll_ne_clearWork hnext
    split at hstep
    · cases hstep
    · -- the callback begins, on the connection the line came from
      rename_i flag client job seed rest hpoll
      obtain ⟨rig, hrig, rfl⟩ := Option.map_eq_some_iff.mp hstep
      have hsock : client.conn.sock = s.client.conn.sock := by
        rcases PoolClient.poll_sock hpoll with h | ⟨-, h⟩
        · exact h
        · cases h
      have hpool : rig.pool = s.rig.pool := by
        cases Rig.step_stepped
          (show s.rig.step setup (.onJob job seed) = some rig from hrig)
        rfl
      refine ⟨?_, ?_, fun _ => hsock.symm, fun h => absurd h (hgoto flag), ?_⟩
      · rw [hpool]
        exact hon.sound
      · rw [hpool, hsock]
        exact hon.jobs
      · rw [hpool]
        exact hon.wire
    · rename_i flag client callback rest hother hpoll
      obtain rfl := Option.some.inj hstep
      rcases PoolClient.poll_sock hpoll with h | ⟨h, -⟩
      · exact (hon.keepSock h).goto (hgoto flag)
      · exact (hon.closeSock h hpc).goto (hgoto flag)

/-- The main thread enters `clear_work`, with no connection, or `stop`. -/
theorem OnSession.call {s : Miner threads} {rig : Rig threads} {call : Call}
    (hon : OnSession s) (hrig : s.rig.call call .idle = some rig)
    (hcall : call.replacesWork = false ∨ s.client.conn.sock = none) :
    OnSession (s.withRig rig) := by
  obtain ⟨pool, hpool, rfl⟩ := Rig.call_eq_some.mp hrig
  have hcalled := MinerPool.callStep_called hpool
  refine hon.withRig (hon.sound.call hcalled) ?_ (fun _ => rfl)
    fun conn hsock => ?_
  · change _ ≤ pool.updates
    rw [hcalled.updates]
    split <;> omega
  · rcases hcall with hcall | hnone
    · have hupdates : s.rig.pool.updates = pool.updates := by
        rw [hcalled.updates, hcall]
        rfl
      exact ((hon.jobs conn hsock).mono hon.sound fun p hp hcame =>
        withRig_cameFrom hupdates.le hp hcame).call hcalled hcall
    · rw [hnone] at hsock
      cases hsock

theorem OnSession.main {s s' : Miner threads} (hon : OnSession s)
    (hok : KeepsSession s .main) (hstep : s.mainStep = some s') :
    OnSession s' := by
  unfold Miner.mainStep at hstep
  split at hstep
  case isFalse =>
    obtain ⟨rig, hrig, rfl⟩ := Option.map_eq_some_iff.mp hstep
    exact hon.mainTurn hok (Rig.mainStep_turn hrig)
  case isTrue hfree =>
    obtain ⟨-, hidle⟩ := free_eq_true hfree
    have hclosed := hon.closeSock s.client.disconnect_sock hidle
    cases hpc : s.pc with
    | drop =>
        simp only [hpc, Option.some.injEq] at hstep
        subst hstep
        exact ⟨hclosed.sound, hclosed.jobs, hclosed.callback,
          fun _ => s.client.disconnect_sock, hclosed.wire⟩
    | clearWork =>
        simp only [hpc] at hstep
        obtain ⟨rig, hrig, rfl⟩ := Option.map_eq_some_iff.mp hstep
        exact (hon.call hrig (Or.inr (hon.offline hpc))).goto nofun
    | shutdown =>
        simp only [hpc] at hstep
        obtain ⟨rig, hrig, rfl⟩ := Option.map_eq_some_iff.mp hstep
        exact (hon.call hrig (Or.inl rfl)).goto nofun
    | disconnect =>
        simp only [hpc, Option.some.injEq] at hstep
        subst hstep
        exact hclosed.goto nofun
    | _ => simp [hpc] at hstep

/-- Who holds `submit_mtx` and what is noted of the calls does not matter. -/
theorem OnSession.lock {s : Miner threads}
    {sending : Option (Fin threads.toNat × List Char)} {calls : List SubmitCall}
    (hon : OnSession s) :
    OnSession { s with sending := sending, calls := calls } :=
  ⟨hon.sound, hon.jobs, hon.callback, hon.offline, hon.wire⟩

theorem OnSession.returnShare {s s' : Miner threads} {i : Fin threads.toNat}
    (setup : Setup) (hon : OnSession s) (hstep : s.returnShare i = some s') :
    OnSession s' := by
  obtain ⟨rig, hrig, rfl⟩ := Option.map_eq_some_iff.mp hstep
  have hturned : Rig.Turned setup s.rig rig i (.worker i) :=
    Rig.workerStep_turned hrig
  exact (hon.turned hturned).lock

theorem OnSession.submit {text : JsonText} {s s' : Miner threads}
    {i : Fin threads.toNat} (setup : Setup) (hon : OnSession s)
    (hstep : s.submit text i = some s') : OnSession s' := by
  unfold Miner.submit at hstep
  simp only at hstep
  split at hstep
  case h_2 => cases hstep
  case h_1 done digest p hsending hpc hp =>
    have hkept := hon.keepSock (s.client.submit_sock p.job
      (s.rig.pool.workers i).nonce digest)
    split at hstep
    · obtain rfl := Option.some.inj hstep
      exact hkept.lock
    · exact hkept.lock.returnShare setup hstep

/-- A worker about to report a share holds a job of the connection. -/
theorem OnSession.sent {s : Miner threads} {i : Fin threads.toNat}
    {p : JobPtr} {conn : Nat} (hon : OnSession s)
    (hcom : (s.rig.pool.workers i).pc.committed = true)
    (hp : (s.rig.pool.workers i).work = some p)
    (hsock : s.client.conn.sock = some conn) (bytes : List Char) :
    OnSession { s with wire := ⟨conn, p, bytes⟩ :: s.wire } := by
  refine ⟨hon.sound, hon.jobs, hon.callback, hon.offline, fun sent hsent => ?_⟩
  rcases List.mem_cons.mp hsent with rfl | hold
  · exact ⟨hon.sound.held_le i p hp,
      ((hon.jobs conn hsock).holds i).committed p hcom hp⟩
  · exact hon.wire sent hold

theorem OnSession.send {s s' : Miner threads} {i : Fin threads.toNat}
    {result : SendResult} (setup : Setup) (hon : OnSession s)
    (hstep : s.send i result = some s') : OnSession s' := by
  unfold Miner.send at hstep
  simp only at hstep
  split at hstep
  case h_2 => cases hstep
  case h_1 j bytes done digest p hsending hpc hp =>
    split at hstep
    case isFalse => cases hstep
    case isTrue hholder =>
      split at hstep
      · rename_i conn n hsock
        have hsent := hon.sent (by rw [hpc]; rfl) hp hsock (bytes.take n)
        split at hstep
        · exact hsent.lock.returnShare setup hstep
        · obtain rfl := Option.some.inj hstep
          exact hsent.lock
      · exact hon.lock.returnShare setup hstep

theorem OnSession.step {setup : Setup} {text : JsonText} {s s' : Miner threads}
    {label : LoopLabel threads} (hon : OnSession s)
    (hok : KeepsSession s label) (hstep : s.step setup text label = some s') :
    OnSession s' := by
  cases label with
  | leave =>
      simp only [Miner.step] at hstep
      split at hstep
      · obtain rfl := Option.some.inj hstep
        exact hon.goto nofun
      · cases hstep
  | connect opened firstSends secondSends => exact hon.connect hok hstep
  | connected =>
      simp only [Miner.step] at hstep
      split at hstep
      · split at hstep
        · obtain rfl := Option.some.inj hstep
          exact hon.goto nofun
        · split at hstep
          · obtain rfl := Option.some.inj hstep
            exact hon.goto nofun
          · cases hstep
      · cases hstep
  | poll due script => exact hon.poll hstep
  | watchdog fired =>
      simp only [Miner.step] at hstep
      split at hstep
      · obtain rfl := Option.some.inj hstep
        refine hon.goto ?_
        cases fired <;> nofun
      · cases hstep
  | main => exact hon.main hok hstep
  | worker i =>
      simp only [Miner.step] at hstep
      split at hstep
      · cases hstep
      · obtain ⟨rig, hrig, rfl⟩ := Option.map_eq_some_iff.mp hstep
        cases Rig.step_stepped hrig with
        | worker turned => exact hon.turned turned
  | made i =>
      obtain ⟨rig, hrig, rfl⟩ := Option.map_eq_some_iff.mp hstep
      cases Rig.step_stepped hrig with
      | made turned => exact hon.turned turned
  | hashed i digest =>
      obtain ⟨rig, hrig, rfl⟩ := Option.map_eq_some_iff.mp hstep
      cases Rig.step_stepped hrig with
      | hashed turned => exact hon.turned turned
  | submit i => exact hon.submit setup hstep
  | send i result => exact hon.send setup hstep

theorem OnSession.init (setup : Setup) (user pass : String) :
    OnSession (Miner.init setup user pass : Miner threads) := by
  have hsock : (Miner.init setup user pass : Miner threads).client.conn.sock =
      none := by
    cases h : setup.protocol <;> simp [Miner.init, PoolClient.make, h,
      PoolClient.conn]
  refine ⟨MinerPool.Sound.init, ?_, fun h => absurd rfl h, by simp [Miner.init],
    by simp [Miner.init]⟩
  intro conn h
  rw [hsock] at h
  cases h

/-- With either client, in a run whose steps keep the session, whatever is sent
of a submit line is sent on the connection that the share's job was delivered
on. -/
theorem sent_on_own_session (setup : Setup) (text : JsonText)
    (user pass : String) {labels : List (LoopLabel threads)} {s : Miner threads}
    (hrun : Run (Miner.step setup text) KeepsSession
      (Miner.init setup user pass) labels s) :
    ∀ sent ∈ s.wire, s.sessionOf sent.work.serial = some sent.conn := by
  have hon : OnSession s :=
    hrun.invariant (fun _ _ _ hinv hok hstep => OnSession.step hinv hok hstep)
      (OnSession.init setup user pass)
  exact fun sent hsent => (hon.wire sent hsent).2

def zeroDifficulty : Json :=
  .obj [("id", .null), ("method", .str "mining.set_difficulty"),
    ("params", .arr [.int 0])]

def minerText : JsonText :=
  .ofMessages [subscribeReply, zeroDifficulty, plainNotify, reconnectRequest]

def stratumSetup : Setup :=
  { protocol := .stratum, randomx := fun _ _ => Hash256.fill 0 }

def opening : LoopLabel 1 := .connect true [.all] [.all]

def receiving (msg : Json) : LoopLabel 1 := .poll false [.line msg.render]

/-- On connection 1 the pool sends a difficulty that every digest meets and a
job, and the worker begins its first hash. -/
def miningLabels : List (LoopLabel 1) :=
  [opening, receiving subscribeReply, .connected, receiving zeroDifficulty,
    .watchdog false, receiving plainNotify] ++ List.replicate 7 .main ++
    [.watchdog false, .worker soleWorker, .made soleWorker] ++
    List.replicate 9 (.worker soleWorker)

/-- The header's digest at nonce 0. -/
def firstDigest : Hash256 :=
  #v[146, 113, 3, 232, 54, 119, 210, 114, 120, 231, 134, 154, 9, 35, 12, 238,
    163, 208, 209, 164, 53, 1, 131, 196, 205, 60, 4, 192, 57, 123, 82, 87]

/-- The hash returns and its share is submitted. -/
def sharingLabels : List (LoopLabel 1) :=
  [.hashed soleWorker firstDigest, .submit soleWorker,
    .send soleWorker .all]

/-- The pool asks for a reconnect, and the main thread opens connection 2. -/
def reconnectLabels : List (LoopLabel 1) :=
  [receiving reconnectRequest, .watchdog false, opening]

/-- A share submitted on connection 1, in a run of the kind above. -/
theorem first_share_on_own_session :
    ∃ s : Miner 1, Run (Miner.step stratumSetup minerText) KeepsSession
        (Miner.init stratumSetup "u" "x") (miningLabels ++ sharingLabels) s ∧
      s.wire.map Sent.conn = [1] ∧
      ∀ sent ∈ s.wire, s.sessionOf sent.work.serial = some sent.conn := by
  have hreplay : (replay (Miner.step stratumSetup minerText) KeepsSession
      (Miner.init stratumSetup "u" "x") (miningLabels ++ sharingLabels)).any
        (fun s => s.wire.map Sent.conn = [1]) = true := by
    decide +kernel
  obtain ⟨s, hs, hwire⟩ := (Option.any_eq_true _ _).mp hreplay
  have hrun := run_of_replay hs
  exact ⟨s, hrun, of_decide_eq_true hwire,
    sent_on_own_session stratumSetup minerText "u" "x" hrun⟩

/-- After the reconnect the share of connection 1's job goes out on
connection 2. -/
theorem share_on_next_session :
    ∃ s : Miner 1, Run (Miner.step stratumSetup minerText) anyLabel
        (Miner.init stratumSetup "u" "x")
        (miningLabels ++ reconnectLabels ++ sharingLabels) s ∧
      ∃ sent ∈ s.wire, sent.conn = 2 ∧
        s.sessionOf sent.work.serial = some 1 := by
  have hreplay : (replay (Miner.step stratumSetup minerText) anyLabel
      (Miner.init stratumSetup "u" "x")
      (miningLabels ++ reconnectLabels ++ sharingLabels)).any
        (fun s => s.wire.any fun sent => decide (sent.conn = 2 ∧
          s.sessionOf sent.work.serial = some 1)) = true := by
    decide +kernel
  obtain ⟨s, hs, hany⟩ := (Option.any_eq_true _ _).mp hreplay
  obtain ⟨sent, hsent, hconn⟩ := List.any_eq_true.mp hany
  exact ⟨s, run_of_replay hs, sent, hsent, of_decide_eq_true hconn⟩

end Miner

end Minerby
