/-
The main loop of `cmd_run`: the client and the mining side together.  The main
thread connects, polls, drops the connection and clears the work; the workers
submit their shares through the same client, one at a time, under
`submit_mtx`, which the main thread does not take.
-/
import Minerby.Rig

namespace Minerby

open MinerPool (Pc Worker JobPtr)

/-- Where the main thread is in `cmd_run`, which it continues when it is in no
callback and no call of the pool. -/
inductive LoopPc where
  | top
  /-- inside `connect`, with so many polls of its loop left -/
  | handshake (left : Nat)
  | poll
  /-- a poll has returned true and the job timeout is next -/
  | watchdog
  /-- about to `disconnect`, and then to clear the work -/
  | drop
  | clearWork
  /-- the loop is left: `stop`, then `disconnect` -/
  | shutdown
  | disconnect
  | finished
deriving Repr, DecidableEq

/-- What one `send` put on a connection, of the line of a share of a job. -/
structure Sent where
  conn : Nat
  work : JobPtr
  bytes : List Char
deriving Repr, DecidableEq

/-- A call of `submit`: the share, the client as the call found it, and what
each `send` of the call returned, newest first: how many bytes were taken, or
nothing when it failed. -/
structure SubmitCall where
  work : JobPtr
  nonce : UInt32
  digest : Hash256
  client : PoolClient
  sends : List (Option Nat) := []

/-- The state of the program.  `sending` is the worker that holds `submit_mtx`
inside `send_all`, with the bytes it has left, and `connections` counts the
connections opened, which are numbered from 1.  `deliveredOn` is the connection
of the last job delivered and `sessionOf` that of each job, by the number of
its `set_work` call; `wire` is what was sent of submit lines and `calls` are the
calls of `submit`, both newest first. -/
structure Miner (threads : UInt32) where
  rig : Rig threads := {}
  client : PoolClient
  pc : LoopPc := .top
  sending : Option (Fin threads.toNat × List Char) := none
  connections : Nat := 0
  deliveredOn : Option Nat := none
  sessionOf : Nat → Option Nat := fun _ => none
  wire : List Sent := []
  calls : List SubmitCall := []

/-- A step of the program.  The main thread leaves the loop, connects, returns
from `connect`, polls, tests the job timeout, or continues; a worker takes a
step, one of its external calls returns, or it is in `submit`. -/
inductive LoopLabel (threads : UInt32) where
  | leave
  | connect (opened : Bool) (firstSends secondSends : List SendResult)
  | connected
  | poll (due : Bool) (script : List RecvResult)
  | watchdog (fired : Bool)
  | main
  | worker (i : Fin threads.toNat)
  | made (i : Fin threads.toNat)
  | hashed (i : Fin threads.toNat) (digest : Hash256)
  | submit (i : Fin threads.toNat)
  | send (i : Fin threads.toNat) (result : SendResult)

namespace Miner

variable {threads : UInt32}

def init (setup : Setup) (user pass : String) : Miner threads :=
  { client := PoolClient.make setup.protocol user pass }

/-- The main thread is in no callback and no call of the pool. -/
def free (s : Miner threads) : Bool :=
  decide (s.rig.pool.ctl = .idle ∧ s.rig.pc = .idle)

/-- Replace the mining side.  A `set_work` call that it has entered is for the
job last delivered. -/
def withRig (s : Miner threads) (rig : Rig threads) : Miner threads :=
  { s with
    rig := rig
    sessionOf :=
      if rig.pool.updates = s.rig.pool.updates then s.sessionOf
      else Function.update s.sessionOf rig.pool.updates s.deliveredOn }

/-- The polls that `connect` makes at most. -/
def handshakePolls : Nat := 20

/-- `connect` up to its loop, at the head of the main loop when there is no
connection.  A failure goes back to the head of the main loop. -/
def connect (text : JsonText) (s : Miner threads) (opened : Bool)
    (firstSends secondSends : List SendResult) : Option (Miner threads) :=
  if s.free ∧ s.pc = .top ∧ s.client.connected = false then
    let handle := if opened then some (s.connections + 1) else none
    let (ok, client) := s.client.connectStart text handle firstSends secondSends
    some { s with
      client := client
      pc := if ok then .handshake handshakePolls else .top
      connections := if opened then s.connections + 1 else s.connections }
  else none

/-- Where the main thread polls, and where it goes on with the flag. -/
def afterPoll (s : Miner threads) : Option (Bool → LoopPc) :=
  let dispatch := fun flag => if flag then LoopPc.watchdog else LoopPc.drop
  match s.pc with
  | .top => if s.client.connected then some dispatch else none
  | .poll => some dispatch
  | .handshake left =>
      if s.client.ready ∨ left = 0 then none
      else some fun flag => if flag then .handshake (left - 1) else .top
  | _ => none

/-- `poll`, with the start of the callback it invokes.  An exception leaves
`cmd_run`: no step. -/
def poll (setup : Setup) (text : JsonText) (s : Miner threads) (due : Bool)
    (script : List RecvResult) : Option (Miner threads) :=
  match s.free, s.afterPoll with
  | true, some next =>
      match s.client.poll text due script with
      | .error _ => none
      | .ok (flag, client, some (.onJob job seed), _) =>
          (s.rig.onJob setup job seed).map fun rig =>
            { s with
              rig := rig
              client := client
              pc := next flag
              deliveredOn := s.client.conn.sock }
      | .ok (flag, client, _, _) =>
          some { s with client := client, pc := next flag }
  | _, _ => none

/-- The main thread's next step in a callback or a call, or between them. -/
def mainStep (s : Miner threads) : Option (Miner threads) :=
  if s.free then
    match s.pc with
    | .drop => some { s with client := s.client.disconnect, pc := .clearWork }
    | .clearWork =>
        (s.rig.call .clearWork .idle).map fun rig =>
          { s.withRig rig with pc := .top }
    | .shutdown =>
        (s.rig.call .stop .idle).map fun rig =>
          { s.withRig rig with pc := .disconnect }
    | .disconnect =>
        some { s with client := s.client.disconnect, pc := .finished }
    | _ => none
  else s.rig.mainStep.map s.withRig

/-- The worker returns from `on_share`, unlocks `submit_mtx` and goes on. -/
def returnShare (s : Miner threads) (i : Fin threads.toNat) :
    Option (Miner threads) :=
  (s.rig.workerStep i).map fun rig => { s.withRig rig with sending := none }

/-- The worker locks `submit_mtx`, takes an id, builds the line and tests the
socket. -/
def submit (text : JsonText) (s : Miner threads) (i : Fin threads.toNat) :
    Option (Miner threads) :=
  let w := s.rig.pool.workers i
  match s.sending, w.pc, w.work with
  | none, .sharing _ digest, some p =>
      let (client, message) := s.client.submit p.job w.nonce digest
      let s := { s with
        client := client
        calls := { work := p, nonce := w.nonce, digest, client := s.client } ::
          s.calls }
      if client.connected then
        some { s with
          sending := some (i, (text.dump message).toList ++ ['\n']) }
      else s.returnShare i
  | _, _, _ => none

/-- Note what a `send` of the call in progress returned. -/
def noteSend (s : Miner threads) (taken : Option Nat) : Miner threads :=
  { s with
    calls := s.calls.modifyHead fun call =>
      { call with sends := taken :: call.sends } }

/-- One `send` of the loop of `send_all`, on the socket as it is now. -/
def send (s : Miner threads) (i : Fin threads.toNat) (result : SendResult) :
    Option (Miner threads) :=
  let w := s.rig.pool.workers i
  match s.sending, w.pc, w.work with
  | some (j, bytes), .sharing _ _, some p =>
      if j = i then
        match s.client.conn.sock, result with
        | some conn, .took n =>
            let s := s.noteSend (some (bytes.take n).length)
            let s := { s with wire := ⟨conn, p, bytes.take n⟩ :: s.wire }
            if bytes.drop n = [] then s.returnShare i
            else some { s with sending := some (i, bytes.drop n) }
        | _, _ => (s.noteSend none).returnShare i
      else none
  | _, _, _ => none

/-- About to call `on_share`. -/
def atShare (s : Miner threads) (i : Fin threads.toNat) : Bool :=
  match (s.rig.pool.workers i).pc with
  | .sharing _ _ => true
  | _ => false

def step (setup : Setup) (text : JsonText) (s : Miner threads) :
    LoopLabel threads → Option (Miner threads)
  | .leave =>
      if s.free ∧ s.pc = .top then some { s with pc := .shutdown } else none
  | .connect opened firstSends secondSends =>
      s.connect text opened firstSends secondSends
  | .connected =>
      match s.free, s.pc with
      | true, .handshake left =>
          if s.client.ready then some { s with pc := .poll }
          else if left = 0 then some { s with pc := .top }
          else none
      | _, _ => none
  | .poll due script => s.poll setup text due script
  | .watchdog fired =>
      if s.free ∧ s.pc = .watchdog then
        some { s with pc := if fired then .drop else .top }
      else none
  | .main => s.mainStep
  | .worker i =>
      if s.atShare i then none else (s.rig.step setup (.worker i)).map s.withRig
  | .made i => (s.rig.step setup (.made i)).map s.withRig
  | .hashed i digest => (s.rig.step setup (.hashed i digest)).map s.withRig
  | .submit i => s.submit text i
  | .send i result => s.send i result

end Miner

end Minerby
