/-
The mining side of `cmd_run`: the worker pool, the RandomX context its hashers
are made from, and the `on_job` callback that the main thread runs.  The
callback re-keys the context when the seed changes, with the pool paused.
-/
import Minerby.PoolClient
import Minerby.PoolSound

namespace Minerby

open MinerPool (Pc Worker JobPtr Call Ctl Build)

/-- `RandomXContext`.  `epoch` counts the re-keyings begun and `keying` says
that one is in progress. -/
structure RandomXContext where
  seed : List UInt8 := []
  seeded : Bool := false
  epoch : Nat := 0
  keying : Bool := false
deriving Repr, DecidableEq

namespace RandomXContext

/-- The test at the top of `ensure_seed`. -/
def has (ctx : RandomXContext) (seed : List UInt8) : Bool :=
  ctx.seeded && decide (seed = ctx.seed)

def beginKeying (ctx : RandomXContext) : RandomXContext :=
  { ctx with epoch := ctx.epoch + 1, keying := true }

def endKeying (ctx : RandomXContext) (seed : List UInt8) : RandomXContext :=
  { ctx with seed := seed, seeded := true, keying := false }

end RandomXContext

/-- What `make_hasher_` returns.  A RandomX VM carries the epoch during which
all of its construction took place, if there is one. -/
inductive Hasher where
  | sha256d
  | randomx (epoch : Option Nat)
deriving Repr, DecidableEq

/-- What a run of the program is given: the protocol, the RandomX function of
seed and input, and the difficulty of the test option (0 when it is off). -/
structure Setup where
  protocol : Protocol
  randomx : List UInt8 → List UInt8 → Hash256
  testShareDiff : ℚ := 0

/-- Where the main thread is in the `on_job` callback, which it continues when
it is not inside a call of the pool.  `rekeyed` remembers the branch taken at
the top. -/
inductive OnJobPc where
  | idle
  /-- about to read `running()` into `was_running` -/
  | loadRunning (job : MiningJob) (seed : List UInt8)
  | pause (job : MiningJob) (seed : List UInt8)
  | ensureSeed (wasRunning : Bool) (job : MiningJob) (seed : List UInt8)
  | keying (wasRunning : Bool) (job : MiningJob) (seed : List UInt8)
  | rebuild (job : MiningJob)
  | resume (job : MiningJob)
  /-- about to read `running()` again -/
  | checkRunning (rekeyed : Bool) (job : MiningJob)
  | start (rekeyed : Bool) (job : MiningJob)
  | setWork (rekeyed : Bool) (job : MiningJob)
  | installing (rekeyed : Bool)
deriving Repr, DecidableEq

/-- The state of the mining side.  `built` is what each worker's last
construction saw of the context when it began; `delivered` is the last seed
delivered that was not empty and `seedOf` the seed in force for each job, by
the number of its `set_work` call. -/
structure Rig (threads : UInt32) where
  pool : MinerPool.State threads Hasher := MinerPool.init threads Hasher
  ctx : RandomXContext := {}
  currentSeed : List UInt8 := []
  pc : OnJobPc := .idle
  built : Fin threads.toNat → RandomXContext := fun _ => {}
  delivered : List UInt8 := []
  seedOf : Nat → List UInt8 := fun _ => []

/-- A step of the mining side: the main thread enters the callback or another
call, or continues; a worker takes a step or one of its external calls
returns. -/
inductive RigLabel (threads : UInt32) where
  | onJob (job : MiningJob) (seed : List UInt8)
  | clearWork
  | stop
  | main
  | worker (i : Fin threads.toNat)
  | made (i : Fin threads.toNat)
  | hashed (i : Fin threads.toNat) (digest : Hash256)

namespace Rig

variable {threads : UInt32}

/-- Enter a call of the pool, to go on at `pc` when it has returned. -/
def call (rig : Rig threads) (call : Call) (pc : OnJobPc) :
    Option (Rig threads) :=
  (MinerPool.callStep rig.pool call).map fun pool =>
    { rig with pool := pool, pc := pc }

/-- The target override of the test option. -/
def testTarget (setup : Setup) (job : MiningJob) : MiningJob :=
  if 0 < setup.testShareDiff then
    { job with target := targetFromDifficulty64 setup.testShareDiff }
  else job

/-- The callback is entered. -/
def onJob (setup : Setup) (rig : Rig threads) (job : MiningJob)
    (seed : List UInt8) : Option (Rig threads) :=
  match rig.pool.ctl, rig.pc with
  | .idle, .idle =>
      some { rig with
        pc :=
          if seed ≠ [] ∧ seed ≠ rig.currentSeed then
            .loadRunning (testTarget setup job) seed
          else .checkRunning false (testTarget setup job)
        delivered := if seed = [] then rig.delivered else seed }
  | _, _ => none

/-- After `ensure_seed`: `current_seed = seed`, and what follows. -/
def keyed (rig : Rig threads) (wasRunning : Bool) (job : MiningJob)
    (seed : List UInt8) : Rig threads :=
  { rig with
    currentSeed := seed
    pc := if wasRunning then .rebuild job else .checkRunning true job }

/-- The main thread's next step. -/
def mainStep (rig : Rig threads) : Option (Rig threads) :=
  match rig.pool.ctl with
  | .idle =>
      match rig.pc with
      | .idle => none
      | .loadRunning job seed =>
          some { rig with pc :=
            if rig.pool.running then .pause job seed
            else .ensureSeed false job seed }
      | .pause job seed => rig.call .pause (.ensureSeed true job seed)
      | .ensureSeed wasRunning job seed =>
          if rig.ctx.has seed then some (rig.keyed wasRunning job seed)
          else some { rig with
            ctx := rig.ctx.beginKeying
            pc := .keying wasRunning job seed }
      | .keying wasRunning job seed =>
          some ({ rig with ctx := rig.ctx.endKeying seed }.keyed wasRunning job
            seed)
      | .rebuild job => rig.call .rebuildHashers (.resume job)
      | .resume job => rig.call .resume (.checkRunning true job)
      | .checkRunning rekeyed job =>
          let pc := if rig.pool.running then OnJobPc.setWork rekeyed job
            else OnJobPc.start rekeyed job
          some { rig with pc := pc }
      | .start rekeyed job => rig.call .start (.setWork rekeyed job)
      | .setWork rekeyed job =>
          let rig := { rig with
            seedOf := Function.update rig.seedOf (rig.pool.updates + 1)
              rig.delivered }
          rig.call (.setWork job) (.installing rekeyed)
      | .installing _ => some { rig with pc := .idle }
  | _ => (MinerPool.ctlStep rig.pool).map fun pool => { rig with pool := pool }

/-- A worker's step; a construction that begins sees the context as it is. -/
def workerStep (rig : Rig threads) (i : Fin threads.toNat) :
    Option (Rig threads) :=
  (MinerPool.workerStep rig.pool i).map fun pool =>
    { rig with
      pool := pool
      built := if (pool.workers i).pc.isMaking then
          Function.update rig.built i rig.ctx
        else rig.built }

/-- The factory's result.  A RandomX hasher made from a context that is not
seeded throws in the thread, which ends the program: no step. -/
def makeHasher (setup : Setup) (rig : Rig threads) (i : Fin threads.toNat) :
    Option Hasher :=
  match setup.protocol with
  | .stratum => some .sha256d
  | .monero =>
      if (rig.built i).seeded then
        some (.randomx
          (if (rig.built i).keying = false ∧ (rig.built i).epoch = rig.ctx.epoch
            then some rig.ctx.epoch else none))
      else none

/-- What is known of a digest.  A VM computes the RandomX function of the seed
it was made under while the context has not been re-keyed since; of any other
VM nothing is known. -/
def Computes (setup : Setup) (rig : Rig threads) (hasher : Hasher)
    (blob : List UInt8) (digest : Hash256) : Prop :=
  match hasher with
  | .sha256d => digest = Hash256.ofDigest (sha256d blob)
  | .randomx epoch => epoch = some rig.ctx.epoch →
      digest = setup.randomx rig.ctx.seed blob

instance (setup : Setup) (rig : Rig threads) (hasher : Hasher)
    (blob : List UInt8) (digest : Hash256) :
    Decidable (Computes setup rig hasher blob digest) := by
  unfold Computes
  split <;> infer_instance

def step (setup : Setup) (rig : Rig threads) :
    RigLabel threads → Option (Rig threads)
  | .onJob job seed => rig.onJob setup job seed
  | .clearWork =>
      match rig.pc with
      | .idle => rig.call .clearWork .idle
      | _ => none
  | .stop =>
      match rig.pc with
      | .idle => rig.call .stop .idle
      | _ => none
  | .main => rig.mainStep
  | .worker i => rig.workerStep i
  | .made i =>
      match rig.makeHasher setup i with
      | none => none
      | some hasher =>
          (MinerPool.madeStep rig.pool i hasher).map fun pool =>
            { rig with pool := pool }
  | .hashed i digest =>
      match (rig.pool.workers i).hasher with
      | none => none
      | some hasher =>
          if Computes setup rig hasher (rig.pool.workers i).blob digest then
            (MinerPool.hashedStep rig.pool i digest).map fun pool =>
              { rig with pool := pool }
          else none

/-- Everything the main thread's step inside the callback can do. -/
inductive MainTurn (rig : Rig threads) : Rig threads → Prop
  | ctl {pool : MinerPool.State threads Hasher} (busy : rig.pool.ctl ≠ .idle)
      (step : MinerPool.ctlStep rig.pool = some pool) :
      MainTurn rig { rig with pool := pool }
  | wasRunning {job : MiningJob} {seed : List UInt8}
      (idle : rig.pool.ctl = .idle) (pc : rig.pc = .loadRunning job seed)
      (running : rig.pool.running = true) :
      MainTurn rig { rig with pc := .pause job seed }
  | wasStopped {job : MiningJob} {seed : List UInt8}
      (idle : rig.pool.ctl = .idle) (pc : rig.pc = .loadRunning job seed)
      (running : rig.pool.running = false) :
      MainTurn rig { rig with pc := .ensureSeed false job seed }
  | pause {job : MiningJob} {seed : List UInt8}
      {pool : MinerPool.State threads Hasher}
      (pc : rig.pc = .pause job seed)
      (called : MinerPool.Called rig.pool pool .pause) :
      MainTurn rig { rig with pool := pool, pc := .ensureSeed true job seed }
  | sameSeed {wasRunning : Bool} {job : MiningJob} {seed : List UInt8}
      (idle : rig.pool.ctl = .idle)
      (pc : rig.pc = .ensureSeed wasRunning job seed)
      (same : rig.ctx.has seed = true) :
      MainTurn rig (rig.keyed wasRunning job seed)
  | beginKeying {wasRunning : Bool} {job : MiningJob} {seed : List UInt8}
      (idle : rig.pool.ctl = .idle)
      (pc : rig.pc = .ensureSeed wasRunning job seed)
      (changed : rig.ctx.has seed = false) :
      MainTurn rig { rig with
        ctx := rig.ctx.beginKeying
        pc := .keying wasRunning job seed }
  | endKeying {wasRunning : Bool} {job : MiningJob} {seed : List UInt8}
      (idle : rig.pool.ctl = .idle) (pc : rig.pc = .keying wasRunning job seed) :
      MainTurn rig ({ rig with ctx := rig.ctx.endKeying seed }.keyed wasRunning
        job seed)
  | rebuild {job : MiningJob} {pool : MinerPool.State threads Hasher}
      (pc : rig.pc = .rebuild job)
      (called : MinerPool.Called rig.pool pool .rebuildHashers) :
      MainTurn rig { rig with pool := pool, pc := .resume job }
  | resume {job : MiningJob} {pool : MinerPool.State threads Hasher}
      (pc : rig.pc = .resume job)
      (called : MinerPool.Called rig.pool pool .resume) :
      MainTurn rig { rig with pool := pool, pc := .checkRunning true job }
  | running {rekeyed : Bool} {job : MiningJob} (idle : rig.pool.ctl = .idle)
      (pc : rig.pc = .checkRunning rekeyed job)
      (running : rig.pool.running = true) :
      MainTurn rig { rig with pc := .setWork rekeyed job }
  | stopped {rekeyed : Bool} {job : MiningJob} (idle : rig.pool.ctl = .idle)
      (pc : rig.pc = .checkRunning rekeyed job)
      (running : rig.pool.running = false) :
      MainTurn rig { rig with pc := .start rekeyed job }
  | start {rekeyed : Bool} {job : MiningJob}
      {pool : MinerPool.State threads Hasher}
      (pc : rig.pc = .start rekeyed job)
      (called : MinerPool.Called rig.pool pool .start) :
      MainTurn rig { rig with pool := pool, pc := .setWork rekeyed job }
  | setWork {rekeyed : Bool} {job : MiningJob}
      {pool : MinerPool.State threads Hasher}
      (pc : rig.pc = .setWork rekeyed job)
      (called : MinerPool.Called rig.pool pool (.setWork job)) :
      MainTurn rig { rig with
        pool := pool
        pc := .installing rekeyed
        seedOf := Function.update rig.seedOf (rig.pool.updates + 1)
          rig.delivered }
  | installed {rekeyed : Bool} (idle : rig.pool.ctl = .idle)
      (pc : rig.pc = .installing rekeyed) :
      MainTurn rig { rig with pc := .idle }

theorem call_eq_some {rig rig' : Rig threads} {call : Call} {pc : OnJobPc} :
    rig.call call pc = some rig' ↔
      ∃ pool, MinerPool.callStep rig.pool call = some pool ∧
        rig' = { rig with pool := pool, pc := pc } := by
  simp only [Rig.call, Option.map_eq_some_iff]
  exact exists_congr fun pool => and_congr_right fun _ => eq_comm

theorem mainStep_turn {rig rig' : Rig threads}
    (hstep : rig.mainStep = some rig') : MainTurn rig rig' := by
  unfold mainStep at hstep
  split at hstep
  case h_2 hbusy =>
    obtain ⟨pool, hpool, rfl⟩ := Option.map_eq_some_iff.mp hstep
    exact .ctl (fun hidle => hbusy hidle) hpool
  case h_1 hidle =>
    cases hpc : rig.pc with
    | idle => simp [hpc] at hstep
    | loadRunning job seed =>
        simp only [hpc, Option.some.injEq] at hstep
        subst hstep
        cases hrunning : rig.pool.running with
        | true => exact .wasRunning hidle hpc hrunning
        | false => exact .wasStopped hidle hpc hrunning
    | pause job seed =>
        simp only [hpc] at hstep
        obtain ⟨pool, hpool, rfl⟩ := call_eq_some.mp hstep
        exact .pause hpc (MinerPool.callStep_called hpool)
    | ensureSeed wasRunning job seed =>
        simp only [hpc] at hstep
        cases hhas : rig.ctx.has seed with
        | true =>
            simp only [hhas, ↓reduceIte, Option.some.injEq] at hstep
            subst hstep
            exact .sameSeed hidle hpc hhas
        | false =>
            simp only [hhas, Bool.false_eq_true, ↓reduceIte,
              Option.some.injEq] at hstep
            subst hstep
            exact .beginKeying hidle hpc hhas
    | keying wasRunning job seed =>
        simp only [hpc, Option.some.injEq] at hstep
        subst hstep
        exact .endKeying hidle hpc
    | rebuild job =>
        simp only [hpc] at hstep
        obtain ⟨pool, hpool, rfl⟩ := call_eq_some.mp hstep
        exact .rebuild hpc (MinerPool.callStep_called hpool)
    | resume job =>
        simp only [hpc] at hstep
        obtain ⟨pool, hpool, rfl⟩ := call_eq_some.mp hstep
        exact .resume hpc (MinerPool.callStep_called hpool)
    | checkRunning rekeyed job =>
        simp only [hpc, Option.some.injEq] at hstep
        subst hstep
        cases hrunning : rig.pool.running with
        | true => exact .running hidle hpc hrunning
        | false => exact .stopped hidle hpc hrunning
    | start rekeyed job =>
        simp only [hpc] at hstep
        obtain ⟨pool, hpool, rfl⟩ := call_eq_some.mp hstep
        exact .start hpc (MinerPool.callStep_called hpool)
    | setWork rekeyed job =>
        simp only [hpc] at hstep
        obtain ⟨pool, hpool, rfl⟩ := call_eq_some.mp hstep
        exact .setWork hpc (MinerPool.callStep_called hpool)
    | installing rekeyed =>
        simp only [hpc, Option.some.injEq] at hstep
        subst hstep
        exact .installed hidle hpc

/-- Everything a worker's step does to the mining side: a turn of the pool,
with what is known of the external call that returns, if one does. -/
structure Turned (setup : Setup) (rig rig' : Rig threads)
    (i : Fin threads.toNat) (label : MinerPool.Label threads Hasher) :
    Prop where
  pool : MinerPool.Turned rig.pool rig'.pool i label
  ctx : rig'.ctx = rig.ctx
  currentSeed : rig'.currentSeed = rig.currentSeed
  pc : rig'.pc = rig.pc
  delivered : rig'.delivered = rig.delivered
  seedOf : rig'.seedOf = rig.seedOf
  built_others : ∀ j, j ≠ i → rig'.built j = rig.built j
  begun : ∀ build, (rig'.pool.workers i).pc = .making build →
    rig'.built i = rig.ctx
  made : ∀ hasher, label = .made i hasher →
    rig.makeHasher setup i = some hasher
  hashed : ∀ digest, label = .hashed i digest →
    ∃ hasher, (rig.pool.workers i).hasher = some hasher ∧
      rig.Computes setup hasher (rig.pool.workers i).blob digest

theorem workerStep_turned {setup : Setup} {rig rig' : Rig threads}
    {i : Fin threads.toNat} (hstep : rig.workerStep i = some rig') :
    Turned setup rig rig' i (.worker i) := by
  obtain ⟨pool, hpool, rfl⟩ := Option.map_eq_some_iff.mp hstep
  refine ⟨MinerPool.workerStep_turned hpool, rfl, rfl, rfl, rfl, rfl,
    fun j hj => ?_, fun build hpc => ?_, nofun, nofun⟩
  · simp only
    split
    · exact Function.update_of_ne hj _ _
    · rfl
  · simp only at hpc ⊢
    rw [hpc]
    simp [MinerPool.Pc.isMaking]

/-- A construction that returns is not beginning. -/
theorem made_turned {setup : Setup} {rig : Rig threads}
    {pool : MinerPool.State threads Hasher} {i : Fin threads.toNat}
    {hasher : Hasher} (hmake : rig.makeHasher setup i = some hasher)
    (hpool : MinerPool.madeStep rig.pool i hasher = some pool) :
    Turned setup rig { rig with pool := pool } i (.made i hasher) := by
  have hturned := MinerPool.step_turned
    (show (MinerPool.Label.made i hasher).actor = some i from rfl) hpool
  refine ⟨hturned, rfl, rfl, rfl, rfl, rfl, fun j _ => rfl,
    fun build hpc => ?_, fun hasher' heq => ?_, nofun⟩
  · obtain ⟨w, inFlight, event, hturn, hw, -, -⟩ := hturned.turn
    simp only at hpc
    rw [hw] at hpc
    cases hturn
    cases hpc
  · obtain ⟨-, rfl⟩ := MinerPool.Label.made.inj heq
    exact hmake

theorem hashed_turned {setup : Setup} {rig : Rig threads}
    {pool : MinerPool.State threads Hasher} {i : Fin threads.toNat}
    {hasher : Hasher} {digest : Hash256}
    (hhasher : (rig.pool.workers i).hasher = some hasher)
    (hcomputes : rig.Computes setup hasher (rig.pool.workers i).blob digest)
    (hpool : MinerPool.hashedStep rig.pool i digest = some pool) :
    Turned setup rig { rig with pool := pool } i (.hashed i digest) := by
  have hturned := MinerPool.step_turned
    (show (MinerPool.Label.hashed i digest).actor = some i from rfl) hpool
  refine ⟨hturned, rfl, rfl, rfl, rfl, rfl, fun j _ => rfl,
    fun build hpc => ?_, nofun, fun digest' heq => ?_⟩
  · obtain ⟨w, inFlight, event, hturn, hw, -, -⟩ := hturned.turn
    simp only at hpc
    rw [hw] at hpc
    cases hturn with
    | found done p digest hpc' hwork hmeets => cases hpc
    | missed done p digest hpc' hwork hmeets => cases hpc
  · obtain ⟨-, rfl⟩ := MinerPool.Label.hashed.inj heq
    exact ⟨hasher, hhasher, hcomputes⟩

/-- Everything a step of the mining side can be.  A worker's step has the
pool's label of it. -/
inductive Stepped (setup : Setup) (rig : Rig threads) :
    RigLabel threads → Rig threads → Prop
  | onJob {job : MiningJob} {seed : List UInt8} (idle : rig.pool.ctl = .idle)
      (pc : rig.pc = .idle) :
      Stepped setup rig (.onJob job seed) { rig with
        pc :=
          if seed ≠ [] ∧ seed ≠ rig.currentSeed then
            .loadRunning (testTarget setup job) seed
          else .checkRunning false (testTarget setup job)
        delivered := if seed = [] then rig.delivered else seed }
  | clearWork {pool : MinerPool.State threads Hasher} (pc : rig.pc = .idle)
      (called : MinerPool.Called rig.pool pool .clearWork) :
      Stepped setup rig .clearWork { rig with pool := pool, pc := .idle }
  | stop {pool : MinerPool.State threads Hasher} (pc : rig.pc = .idle)
      (called : MinerPool.Called rig.pool pool .stop) :
      Stepped setup rig .stop { rig with pool := pool, pc := .idle }
  | main {rig' : Rig threads} (turn : MainTurn rig rig') :
      Stepped setup rig .main rig'
  | worker {rig' : Rig threads} {i : Fin threads.toNat}
      (turned : Turned setup rig rig' i (.worker i)) :
      Stepped setup rig (.worker i) rig'
  | made {rig' : Rig threads} {i : Fin threads.toNat} {hasher : Hasher}
      (turned : Turned setup rig rig' i (.made i hasher)) :
      Stepped setup rig (.made i) rig'
  | hashed {rig' : Rig threads} {i : Fin threads.toNat} {digest : Hash256}
      (turned : Turned setup rig rig' i (.hashed i digest)) :
      Stepped setup rig (.hashed i digest) rig'

theorem step_stepped {setup : Setup} {rig rig' : Rig threads}
    {label : RigLabel threads} (hstep : rig.step setup label = some rig') :
    Stepped setup rig label rig' := by
  cases label with
  | onJob job seed =>
      simp only [Rig.step, Rig.onJob] at hstep
      split at hstep
      · rename_i hidle hpc
        obtain rfl := Option.some.inj hstep
        exact .onJob hidle hpc
      · cases hstep
  | clearWork =>
      simp only [Rig.step] at hstep
      split at hstep
      · rename_i hpc
        obtain ⟨pool, hpool, rfl⟩ := call_eq_some.mp hstep
        exact .clearWork hpc (MinerPool.callStep_called hpool)
      · cases hstep
  | stop =>
      simp only [Rig.step] at hstep
      split at hstep
      · rename_i hpc
        obtain ⟨pool, hpool, rfl⟩ := call_eq_some.mp hstep
        exact .stop hpc (MinerPool.callStep_called hpool)
      · cases hstep
  | main => exact .main (mainStep_turn hstep)
  | worker i => exact .worker (workerStep_turned hstep)
  | made i =>
      simp only [Rig.step] at hstep
      split at hstep
      · cases hstep
      · rename_i hasher hmake
        obtain ⟨pool, hpool, rfl⟩ := Option.map_eq_some_iff.mp hstep
        exact .made (made_turned hmake hpool)
  | hashed i digest =>
      simp only [Rig.step] at hstep
      split at hstep
      · cases hstep
      · rename_i hasher hhasher
        split at hstep
        · rename_i hcomputes
          obtain ⟨pool, hpool, rfl⟩ := Option.map_eq_some_iff.mp hstep
          exact .hashed (hashed_turned hhasher hcomputes hpool)
        · cases hstep

/-- What the main thread's step makes of the pool. -/
theorem MainTurn.pool {rig rig' : Rig threads} (hturn : MainTurn rig rig') :
    rig'.pool = rig.pool ∨ MinerPool.ctlStep rig.pool = some rig'.pool ∨
      (∃ call, call.replacesWork = false ∧
        MinerPool.Called rig.pool rig'.pool call) ∨
      ∃ rekeyed job, rig.pc = .setWork rekeyed job ∧
        MinerPool.Called rig.pool rig'.pool (.setWork job) := by
  cases hturn with
  | ctl busy step => exact Or.inr (Or.inl step)
  | pause pc called => exact Or.inr (Or.inr (Or.inl ⟨_, rfl, called⟩))
  | rebuild pc called => exact Or.inr (Or.inr (Or.inl ⟨_, rfl, called⟩))
  | resume pc called => exact Or.inr (Or.inr (Or.inl ⟨_, rfl, called⟩))
  | start pc called => exact Or.inr (Or.inr (Or.inl ⟨_, rfl, called⟩))
  | setWork pc called => exact Or.inr (Or.inr (Or.inr ⟨_, _, pc, called⟩))
  | _ => exact Or.inl rfl

/-- The callback ends and does not begin again by itself. -/
theorem MainTurn.pc_idle {rig rig' : Rig threads} (hturn : MainTurn rig rig')
    (hidle : rig.pc = .idle) : rig'.pc = .idle := by
  cases hturn with
  | ctl busy step => exact hidle
  | _ => simp_all

/-- The pool of the mining side is sound in every run. -/
theorem MainTurn.sound {rig rig' : Rig threads} (hturn : MainTurn rig rig')
    (hsound : MinerPool.Sound rig.pool) : MinerPool.Sound rig'.pool := by
  rcases hturn.pool with h | h | ⟨call, -, h⟩ | ⟨rekeyed, job, -, h⟩
  · rw [h]
    exact hsound
  · exact hsound.ctl h
  · exact hsound.call h
  · exact hsound.call h

theorem Stepped.sound {setup : Setup} {rig rig' : Rig threads}
    {label : RigLabel threads} (hstep : Stepped setup rig label rig')
    (hsound : MinerPool.Sound rig.pool) : MinerPool.Sound rig'.pool := by
  cases hstep with
  | onJob idle pc => exact hsound
  | clearWork pc called => exact hsound.call called
  | stop pc called => exact hsound.call called
  | main turn => exact turn.sound hsound
  | worker turned => exact hsound.turned turned.pool
  | made turned => exact hsound.turned turned.pool
  | hashed turned => exact hsound.turned turned.pool

end Rig

end Minerby
