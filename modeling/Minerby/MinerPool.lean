/-
The worker pool as a sequentially consistent step system.  Each atomic access
and each critical section of `work_mtx_` is one step; the calls of
`make_hasher_` and `hash` take a step to begin and a step to return, and what
they return is part of the label.
-/
import Minerby.StepSystem
import Minerby.StratumWork

namespace Minerby

namespace MinerPool

/-- A `shared_ptr<const MiningJob>`: the job it points to, and the number of
the `set_work` call that allocated it among all `set_work` and `clear_work`
calls.  Two pointers are equal when they come from the same call. -/
structure JobPtr where
  serial : Nat
  job : MiningJob
deriving Repr, DecidableEq

/-- Which of the two constructions a worker is in: at thread start or after
`rebuild_hashers`. -/
inductive Build where
  | boot
  | rebuild
deriving Repr, DecidableEq

/-- The next step of a worker in `run`. -/
inductive Pc where
  /-- no thread -/
  | unborn
  | boot
  | making (build : Build)
  | loadHasherGen (build : Build)
  /-- the test of `running_` at the top of the loop -/
  | head
  | checkPaused
  | checkHasherGen
  | loadWorkGen
  /-- about to lock `work_mtx_`, holding the generation just read -/
  | pickup (gen : UInt64)
  /-- about to announce itself in `in_flight_` -/
  | enter
  | recheck
  | abort
  | chunk (done : Nat)
  | hashing (done : Nat)
  | sharing (done : Nat) (digest : Hash256)
  /-- a digest that misses the target, about to go to the next nonce -/
  | missed (done : Nat)
  | leave (done : Nat)
  | account (done : Nat)
  | exited
deriving Repr, DecidableEq

/-- The local variables of `run`. -/
structure Worker (H : Type) where
  pc : Pc := .unborn
  hasher : Option H := none
  localHasherGen : UInt64 := 0
  work : Option JobPtr := none
  localWorkGen : UInt64 := 0
  blob : List UInt8 := []
  nonce : UInt32 := 0

/-- The member functions the controlling thread calls. -/
inductive Call where
  | start
  | stop
  | setWork (job : MiningJob)
  | clearWork
  | pause
  | resume
  | rebuildHashers
deriving Repr, DecidableEq

/-- Where the controlling thread is inside a call. -/
inductive Ctl where
  | idle
  /-- `start`, about to create thread `next` -/
  | starting (next : Nat)
  /-- `stop`, about to clear `paused_` -/
  | stopping
  | joining
  /-- `set_work`, the generation taken, about to lock `work_mtx_` -/
  | settingWork (work : JobPtr)
  | clearingWork
  /-- `pause`, about to read `running_` -/
  | pausing
  /-- `pause`, waiting for `in_flight_` to become 0 -/
  | draining
deriving Repr, DecidableEq

/-- What happened, in the order it happened.  The events are observations and
no step depends on them. -/
inductive Event (threads : UInt32) (H : Type) where
  | called (call : Call)
  | makeBegin (i : Fin threads.toNat)
  | made (i : Fin threads.toNat) (hasher : H)
  | hashBegin (i : Fin threads.toNat) (work : JobPtr) (nonce : UInt32)
  | hashed (i : Fin threads.toNat) (work : JobPtr) (nonce : UInt32)
      (digest : Hash256)
  | share (i : Fin threads.toNat) (work : JobPtr) (nonce : UInt32)
      (digest : Hash256)
deriving DecidableEq

/-- The members of the pool, the workers' locals, the controlling thread.
`updates` counts the `set_work` and `clear_work` calls and `log` records the
events, newest first. -/
structure State (threads : UInt32) (H : Type) where
  running : Bool := false
  paused : Bool := false
  inFlight : UInt32 := 0
  hashes : UInt64 := 0
  workGen : UInt64 := 0
  hasherGen : UInt64 := 0
  work : Option JobPtr := none
  ctl : Ctl := .idle
  workers : Fin threads.toNat → Worker H := fun _ => {}
  updates : Nat := 0
  log : List (Event threads H) := []

/-- A step: the controlling thread enters a call or continues one, a worker
takes its next step, or one of a worker's two external calls returns. -/
inductive Label (threads : UInt32) (H : Type) where
  | call (call : Call)
  | ctl
  | worker (i : Fin threads.toNat)
  | made (i : Fin threads.toNat) (hasher : H)
  | hashed (i : Fin threads.toNat) (digest : Hash256)

variable {threads : UInt32} {H : Type}

/-- Hashes in one chunk. -/
def kChunk : Nat := 16

/-- The local job is set and its blob has room for the nonce.  The sum is a
32-bit one. -/
def Worker.ready (w : Worker H) : Bool :=
  match w.work with
  | none => false
  | some p => !decide (w.blob.length < (p.job.nonceOffset + 4).toNat)

/-- Go on after the generation check. -/
def Worker.afterCheck (w : Worker H) : Worker H :=
  { w with pc := if w.ready then .enter else .head }

/-- The critical section of `run` and the assignments after it. -/
def Worker.take (w : Worker H) (index : Nat) (gen : UInt64)
    (work : Option JobPtr) : Worker H :=
  let w := { w with work := work, localWorkGen := gen }
  match work with
  | none => w
  | some p => { w with blob := p.job.blob, nonce := UInt32.ofNat index }

/-- `nonce += threads_` and the end of the loop body, with the break when the
32-bit nonce wraps. -/
def Worker.advance (w : Worker H) (threads : UInt32) (done : Nat) :
    Worker H :=
  let nonce := w.nonce + threads
  { w with
    nonce := nonce
    pc :=
      if nonce < threads then .leave (done + 1)
      else if done + 1 < kChunk then .chunk (done + 1)
      else .leave (done + 1) }

namespace State

/-- Replace one worker's locals. -/
def put (s : State threads H) (i : Fin threads.toNat) (w : Worker H) :
    State threads H :=
  { s with workers := Function.update s.workers i w }

def emit (s : State threads H) (event : Event threads H) : State threads H :=
  { s with log := event :: s.log }

end State

/-- The controlling thread enters a call and makes its first shared access. -/
def callStep (s : State threads H) (call : Call) :
    Option (State threads H) :=
  match s.ctl with
  | .idle =>
      let s := s.emit (.called call)
      match call with
      | .start =>
          some (if s.running then s
            else { s with running := true, ctl := .starting 0 })
      | .stop =>
          some (if s.running then { s with running := false, ctl := .stopping }
            else s)
      | .setWork job =>
          let gen := s.workGen + 1
          some { s with
            workGen := gen
            updates := s.updates + 1
            ctl := .settingWork ⟨s.updates + 1, { job with generation := gen }⟩ }
      | .clearWork =>
          some { s with
            workGen := s.workGen + 1
            updates := s.updates + 1
            ctl := .clearingWork }
      | .pause => some { s with paused := true, ctl := .pausing }
      | .resume => some { s with paused := false }
      | .rebuildHashers => some { s with hasherGen := s.hasherGen + 1 }
  | _ => none

/-- The controlling thread's next step inside a call.  `joining` blocks until
every thread has left `run`. -/
def ctlStep (s : State threads H) : Option (State threads H) :=
  match s.ctl with
  | .idle => none
  | .starting next =>
      if h : next < threads.toNat then
        some { s.put ⟨next, h⟩ { pc := .boot } with ctl := .starting (next + 1) }
      else some { s with ctl := .idle }
  | .stopping => some { s with paused := false, ctl := .joining }
  | .joining =>
      if ∀ i, (s.workers i).pc = .exited then
        some { s with workers := fun _ => {}, ctl := .idle }
      else none
  | .settingWork p => some { s with work := some p, ctl := .idle }
  | .clearingWork => some { s with work := none, ctl := .idle }
  | .pausing => some { s with ctl := if s.running then .draining else .idle }
  | .draining => some (if s.inFlight = 0 then { s with ctl := .idle } else s)

/-- A worker's next step.  Where the program would dereference an empty local
job there is no step. -/
def workerStep (s : State threads H) (i : Fin threads.toNat) :
    Option (State threads H) :=
  let w := s.workers i
  match w.pc with
  | .unborn => none
  | .exited => none
  | .making _ => none
  | .hashing _ => none
  | .boot => some ((s.put i { w with pc := .making .boot }).emit (.makeBegin i))
  | .loadHasherGen build =>
      some (s.put i { w with
        localHasherGen := s.hasherGen
        pc := match build with
          | .boot => .head
          | .rebuild => .loadWorkGen })
  | .head =>
      some (s.put i { w with pc := if s.running then .checkPaused else .exited })
  | .checkPaused =>
      some (s.put i { w with pc := if s.paused then .head else .checkHasherGen })
  | .checkHasherGen =>
      if s.hasherGen ≠ w.localHasherGen then
        some ((s.put i { w with pc := .making .rebuild }).emit (.makeBegin i))
      else some (s.put i { w with pc := .loadWorkGen })
  | .loadWorkGen =>
      if s.workGen ≠ w.localWorkGen then
        some (s.put i { w with pc := .pickup s.workGen })
      else some (s.put i w.afterCheck)
  | .pickup gen => some (s.put i (w.take i gen s.work).afterCheck)
  | .enter =>
      some { s.put i { w with pc := .recheck } with inFlight := s.inFlight + 1 }
  | .recheck =>
      some (s.put i { w with pc := if s.paused then .abort else .chunk 0 })
  | .abort =>
      some { s.put i { w with pc := .head } with inFlight := s.inFlight - 1 }
  | .chunk done =>
      match w.work with
      | none => none
      | some p =>
          some ((s.put i { w with
            blob := spliceNonce w.blob p.job.nonceOffset w.nonce
            pc := .hashing done }).emit (.hashBegin i p w.nonce))
  | .sharing done digest =>
      match w.work with
      | none => none
      | some p =>
          some ((s.put i (w.advance threads done)).emit
            (.share i p w.nonce digest))
  | .missed done => some (s.put i (w.advance threads done))
  | .leave done =>
      some { s.put i { w with pc := .account done } with
        inFlight := s.inFlight - 1 }
  | .account done =>
      some { s.put i { w with pc := .head } with
        hashes := s.hashes + UInt64.ofNat done }

/-- `make_hasher_` returns. -/
def madeStep (s : State threads H) (i : Fin threads.toNat) (hasher : H) :
    Option (State threads H) :=
  let w := s.workers i
  match w.pc with
  | .making build =>
      some ((s.put i { w with
        hasher := some hasher
        pc := .loadHasherGen build }).emit (.made i hasher))
  | _ => none

/-- `hasher->hash` returns a digest, which is compared with the target. -/
def hashedStep (s : State threads H) (i : Fin threads.toNat)
    (digest : Hash256) : Option (State threads H) :=
  let w := s.workers i
  match w.pc, w.work with
  | .hashing done, some p =>
      some ((s.put i (if meetsTarget digest p.job.target then
          { w with pc := .sharing done digest }
        else { w with pc := .missed done })).emit (.hashed i p w.nonce digest))
  | _, _ => none

def step (s : State threads H) : Label threads H → Option (State threads H)
  | .call call => callStep s call
  | .ctl => ctlStep s
  | .worker i => workerStep s i
  | .made i hasher => madeStep s i hasher
  | .hashed i digest => hashedStep s i digest

/-- A constructed pool. -/
def init (threads : UInt32) (H : Type) : State threads H := {}

/-- The worker of a pool of one thread. -/
def soleWorker : Fin (UInt32.toNat 1) := ⟨0, by decide⟩

/-- The worker a label belongs to. -/
def Label.actor : Label threads H → Option (Fin threads.toNat)
  | .call _ => none
  | .ctl => none
  | .worker i => some i
  | .made i _ => some i
  | .hashed i _ => some i

/-- Inside `make_hasher_`. -/
def Pc.isMaking : Pc → Bool
  | .making _ => true
  | _ => false

/-- Past the hasher check, up to the last hash of the chunk. -/
def Pc.usesHasher : Pc → Bool
  | .loadWorkGen => true
  | .pickup _ => true
  | .enter => true
  | .recheck => true
  | .chunk _ => true
  | .hashing _ => true
  | .sharing _ _ => true
  | .missed _ => true
  | _ => false

/-- Between the start of a hash and the step to the next nonce. -/
def Pc.trying : Pc → Bool
  | .hashing _ => true
  | .sharing _ _ => true
  | .missed _ => true
  | _ => false

@[simp]
theorem Worker.work_advance (w : Worker H) (done : Nat) :
    (w.advance threads done).work = w.work := rfl

@[simp]
theorem Worker.localWorkGen_advance (w : Worker H) (done : Nat) :
    (w.advance threads done).localWorkGen = w.localWorkGen := rfl

theorem Worker.advance_pc (w : Worker H) (threads : UInt32) (done : Nat) :
    (w.advance threads done).pc = .leave (done + 1) ∨
      (w.advance threads done).pc = .chunk (done + 1) := by
  simp only [Worker.advance]
  split
  · exact Or.inl rfl
  · split
    · exact Or.inr rfl
    · exact Or.inl rfl

/-- A test of the places that `advance` goes on at. -/
theorem Worker.test_advance (w : Worker H) (threads : UInt32) (done : Nat)
    (test : Pc → Bool) {result : Bool}
    (hleave : test (.leave (done + 1)) = result)
    (hchunk : test (.chunk (done + 1)) = result) :
    test (w.advance threads done).pc = result := by
  rcases w.advance_pc threads done with hpc | hpc
  · rw [hpc, hleave]
  · rw [hpc, hchunk]

theorem Worker.advance_trying (w : Worker H) (threads : UInt32) (done : Nat) :
    (w.advance threads done).pc.trying = false :=
  w.test_advance threads done Pc.trying rfl rfl

@[simp]
theorem Worker.work_take (w : Worker H) (index : Nat) (gen : UInt64)
    (work : Option JobPtr) : (w.take index gen work).work = work := by
  cases work <;> rfl

@[simp]
theorem Worker.localWorkGen_take (w : Worker H) (index : Nat) (gen : UInt64)
    (work : Option JobPtr) : (w.take index gen work).localWorkGen = gen := by
  cases work <;> rfl

theorem Worker.afterCheck_pc (w : Worker H) :
    w.afterCheck.pc = .enter ∧ w.ready = true ∨ w.afterCheck.pc = .head := by
  simp only [Worker.afterCheck]
  split
  · rename_i hready
    exact Or.inl ⟨rfl, hready⟩
  · exact Or.inr rfl

/-- A test of the places that a worker goes on at after its checks. -/
theorem Worker.test_afterCheck (w : Worker H) (test : Pc → Bool)
    {result : Bool} (henter : test .enter = result)
    (hhead : test .head = result) : test w.afterCheck.pc = result := by
  rcases w.afterCheck_pc with ⟨hpc, -⟩ | hpc
  · rw [hpc, henter]
  · rw [hpc, hhead]

theorem Worker.afterCheck_trying (w : Worker H) :
    w.afterCheck.pc.trying = false :=
  w.test_afterCheck Pc.trying rfl rfl

/-- What a worker's step leaves alone: every flag, generation and job of the
pool, the controlling thread, and every other worker.  Besides the worker
itself only the two counters and the log can change. -/
structure WorkerMove (s s' : State threads H) (i : Fin threads.toNat) :
    Prop where
  running : s'.running = s.running
  paused : s'.paused = s.paused
  workGen : s'.workGen = s.workGen
  hasherGen : s'.hasherGen = s.hasherGen
  work : s'.work = s.work
  ctl : s'.ctl = s.ctl
  updates : s'.updates = s.updates
  others : ∀ j, j ≠ i → s'.workers j = s.workers j

@[simp]
theorem put_workers_self (s : State threads H) (i : Fin threads.toNat)
    (w : Worker H) : (s.put i w).workers i = w := by
  simp [State.put]

theorem put_workers_of_ne (s : State threads H) {i j : Fin threads.toNat}
    (w : Worker H) (hne : j ≠ i) : (s.put i w).workers j = s.workers j := by
  simp [State.put, hne]

/-- A state that differs from `s` in one worker, the counters and the log. -/
theorem workerMove_of_eq {s s' : State threads H} {i : Fin threads.toNat}
    {w : Worker H} {inFlight : UInt32} {hashes : UInt64}
    {log : List (Event threads H)}
    (heq : s' = { s.put i w with
      inFlight := inFlight, hashes := hashes, log := log }) :
    WorkerMove s s' i := by
  subst heq
  exact ⟨rfl, rfl, rfl, rfl, rfl, rfl, rfl,
    fun _ hne => put_workers_of_ne s w hne⟩

theorem madeStep_eq_some {s s' : State threads H} {i : Fin threads.toNat}
    {hasher : H} :
    madeStep s i hasher = some s' ↔
      ∃ build, (s.workers i).pc = .making build ∧
        s' = (s.put i { s.workers i with
          hasher := some hasher
          pc := .loadHasherGen build }).emit (.made i hasher) := by
  unfold madeStep
  simp only
  split
  · rename_i build hpc
    constructor
    · intro hsome
      exact ⟨build, hpc, (Option.some.inj hsome).symm⟩
    · rintro ⟨build', hpc', rfl⟩
      obtain rfl := Pc.making.inj (hpc.symm.trans hpc')
      rfl
  · rename_i hpc
    simp only [reduceCtorEq, false_iff, not_exists, not_and]
    exact fun build heq => absurd heq (hpc build)

theorem hashedStep_eq_some {s s' : State threads H} {i : Fin threads.toNat}
    {digest : Hash256} :
    hashedStep s i digest = some s' ↔
      ∃ done p, (s.workers i).pc = .hashing done ∧
        (s.workers i).work = some p ∧
        s' = (s.put i (if meetsTarget digest p.job.target then
            { s.workers i with pc := .sharing done digest }
          else { s.workers i with pc := .missed done })).emit
            (.hashed i p (s.workers i).nonce digest) := by
  unfold hashedStep
  simp only
  split
  · rename_i done p hpc hwork
    constructor
    · intro hsome
      exact ⟨done, p, hpc, hwork, (Option.some.inj hsome).symm⟩
    · rintro ⟨done', p', hpc', hwork', rfl⟩
      obtain rfl := Pc.hashing.inj (hpc.symm.trans hpc')
      obtain rfl := Option.some.inj (hwork.symm.trans hwork')
      rfl
  · rename_i hnone
    simp only [reduceCtorEq, false_iff, not_exists, not_and]
    exact fun done p hpc hwork => absurd hwork (hnone done p hpc)

/-- What a call makes of `running_`. -/
def Call.running : Call → Bool → Bool
  | .start, _ => true
  | .stop, _ => false
  | _, running => running

/-- What a call makes of `paused_` when it is entered. -/
def Call.paused : Call → Bool → Bool
  | .pause, _ => true
  | .resume, _ => false
  | _, paused => paused

/-- The calls that replace the job. -/
def Call.replacesWork : Call → Bool
  | .setWork _ => true
  | .clearWork => true
  | _ => false

/-- Where the controlling thread is after it has entered a call. -/
def Call.entry (call : Call) (s : State threads H) : Ctl :=
  match call with
  | .start => if s.running then .idle else .starting 0
  | .stop => if s.running then .stopping else .idle
  | .setWork job =>
      .settingWork ⟨s.updates + 1, { job with generation := s.workGen + 1 }⟩
  | .clearWork => .clearingWork
  | .pause => .pausing
  | .resume => .idle
  | .rebuildHashers => .idle

/-- Everything entering a call does. -/
structure Called (s s' : State threads H) (call : Call) : Prop where
  idle : s.ctl = .idle
  workers : s'.workers = s.workers
  inFlight : s'.inFlight = s.inFlight
  work : s'.work = s.work
  log : s'.log = .called call :: s.log
  running : s'.running = call.running s.running
  paused : s'.paused = call.paused s.paused
  workGen : s'.workGen = if call.replacesWork then s.workGen + 1 else s.workGen
  hasherGen : s'.hasherGen =
    if call = .rebuildHashers then s.hasherGen + 1 else s.hasherGen
  updates : s'.updates = if call.replacesWork then s.updates + 1 else s.updates
  ctl : s'.ctl = call.entry s

theorem callStep_called {s s' : State threads H} {call : Call}
    (hstep : callStep s call = some s') : Called s s' call := by
  unfold callStep at hstep
  split at hstep
  case h_2 => cases hstep
  case h_1 hidle =>
    cases call with
    | start =>
        obtain rfl := Option.some.inj hstep
        cases hrunning : s.running <;>
          constructor <;>
          simp [State.emit, hrunning, hidle, Call.running, Call.paused,
            Call.replacesWork, Call.entry]
    | stop =>
        obtain rfl := Option.some.inj hstep
        cases hrunning : s.running <;>
          constructor <;>
          simp [State.emit, hrunning, hidle, Call.running, Call.paused,
            Call.replacesWork, Call.entry]
    | resume =>
        obtain rfl := Option.some.inj hstep
        exact ⟨hidle, rfl, rfl, rfl, rfl, rfl, rfl, rfl, rfl, rfl, hidle⟩
    | rebuildHashers =>
        obtain rfl := Option.some.inj hstep
        exact ⟨hidle, rfl, rfl, rfl, rfl, rfl, rfl, rfl, rfl, rfl, hidle⟩
    | _ =>
        obtain rfl := Option.some.inj hstep
        exact ⟨hidle, rfl, rfl, rfl, rfl, rfl, rfl, rfl, rfl, rfl, rfl⟩

/-- Only `set_work` makes the controlling thread install a job. -/
theorem Called.settingWork {s s' : State threads H} {call : Call} {p : JobPtr}
    (hcalled : Called s s' call) (hctl : s'.ctl = .settingWork p) :
    ∃ job, call = .setWork job ∧
      p = ⟨s.updates + 1, { job with generation := s.workGen + 1 }⟩ := by
  rw [hcalled.ctl] at hctl
  cases call with
  | setWork job => exact ⟨job, rfl, (Ctl.settingWork.inj hctl).symm⟩
  | start =>
      simp only [Call.entry] at hctl
      split at hctl <;> cases hctl
  | stop =>
      simp only [Call.entry] at hctl
      split at hctl <;> cases hctl
  | _ => cases hctl

/-- Everything the controlling thread's step inside a call can do. -/
inductive CtlTurn (s : State threads H) : State threads H → Prop
  | create (next : Nat) (lt : next < threads.toNat)
      (ctl : s.ctl = .starting next) :
      CtlTurn s { s.put ⟨next, lt⟩ { pc := .boot } with
        ctl := .starting (next + 1) }
  | started (next : Nat) (ctl : s.ctl = .starting next) :
      CtlTurn s { s with ctl := .idle }
  | unpause (ctl : s.ctl = .stopping) :
      CtlTurn s { s with paused := false, ctl := .joining }
  | join (ctl : s.ctl = .joining) (exited : ∀ i, (s.workers i).pc = .exited) :
      CtlTurn s { s with workers := fun _ => {}, ctl := .idle }
  | store (p : JobPtr) (ctl : s.ctl = .settingWork p) :
      CtlTurn s { s with work := some p, ctl := .idle }
  | clear (ctl : s.ctl = .clearingWork) :
      CtlTurn s { s with work := none, ctl := .idle }
  | drain (ctl : s.ctl = .pausing) (running : s.running = true) :
      CtlTurn s { s with ctl := .draining }
  | skip (ctl : s.ctl = .pausing) (running : s.running = false) :
      CtlTurn s { s with ctl := .idle }
  | drained (ctl : s.ctl = .draining) (zero : s.inFlight = 0) :
      CtlTurn s { s with ctl := .idle }
  | wait (ctl : s.ctl = .draining) (busy : s.inFlight ≠ 0) : CtlTurn s s

theorem ctlStep_turn {s s' : State threads H} (hstep : ctlStep s = some s') :
    CtlTurn s s' := by
  unfold ctlStep at hstep
  split at hstep
  · cases hstep
  · rename_i next hctl
    split at hstep
    · rename_i hlt
      obtain rfl := Option.some.inj hstep
      exact .create next hlt hctl
    · obtain rfl := Option.some.inj hstep
      exact .started next hctl
  · rename_i hctl
    obtain rfl := Option.some.inj hstep
    exact .unpause hctl
  · rename_i hctl
    split at hstep
    · rename_i hexited
      obtain rfl := Option.some.inj hstep
      exact .join hctl hexited
    · cases hstep
  · rename_i p hctl
    obtain rfl := Option.some.inj hstep
    exact .store p hctl
  · rename_i hctl
    obtain rfl := Option.some.inj hstep
    exact .clear hctl
  · rename_i hctl
    obtain rfl := Option.some.inj hstep
    split
    · rename_i hrunning
      exact .drain hctl hrunning
    · rename_i hrunning
      exact .skip hctl (by simpa using hrunning)
  · rename_i hctl
    obtain rfl := Option.some.inj hstep
    split
    · rename_i hzero
      exact .drained hctl hzero
    · rename_i hbusy
      exact .wait hctl hbusy

/-- Inside a call the controlling thread creates threads and joins them; it
does nothing else to a worker and logs nothing. -/
theorem ctlStep_frame {s s' : State threads H} (hstep : ctlStep s = some s') :
    s'.log = s.log ∧ s'.inFlight = s.inFlight ∧
      s'.workGen = s.workGen ∧ s'.hasherGen = s.hasherGen ∧
      s'.running = s.running ∧
      ∀ i, s'.workers i = s.workers i ∨ s'.workers i = { pc := .boot } ∨
        (s.workers i).pc = .exited ∧ s'.workers i = {} := by
  cases ctlStep_turn hstep with
  | create next lt ctl =>
      refine ⟨rfl, rfl, rfl, rfl, rfl, fun i => ?_⟩
      by_cases hi : i = ⟨next, lt⟩
      · subst hi
        exact Or.inr (Or.inl (put_workers_self _ _ _))
      · exact Or.inl (put_workers_of_ne _ _ hi)
  | join ctl exited =>
      exact ⟨rfl, rfl, rfl, rfl, rfl, fun i => Or.inr (Or.inr ⟨exited i, rfl⟩)⟩
  | _ => exact ⟨rfl, rfl, rfl, rfl, rfl, fun i => Or.inl rfl⟩

/-- Inside a call the job installed is the one the call took. -/
theorem ctlStep_work {s s' : State threads H} (hstep : ctlStep s = some s') :
    s'.updates = s.updates ∧ (∀ p, s'.ctl ≠ .settingWork p) ∧
      (s'.work = s.work ∨ s'.work = none ∨
        ∃ p, s.ctl = .settingWork p ∧ s'.work = some p) := by
  cases ctlStep_turn hstep with
  | store p ctl => exact ⟨rfl, by simp, Or.inr (Or.inr ⟨p, ctl, rfl⟩)⟩
  | clear ctl => exact ⟨rfl, by simp, Or.inr (Or.inl rfl)⟩
  | wait ctl busy => exact ⟨rfl, by simp [ctl], Or.inl rfl⟩
  | _ => exact ⟨rfl, by simp, Or.inl rfl⟩

end MinerPool

end Minerby
