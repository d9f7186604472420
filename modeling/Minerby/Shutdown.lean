/-
The end of a run.  The main thread enters `stop` when it has left its loop;
from then on no run goes on for ever, and when it has finished there is no
thread, no connection and nothing half sent, and the hash counter is exact.
The program here has no HTTP server: `http->stop` is not among its steps.
-/
import Minerby.CallsReturn
import Minerby.HashCount
import Minerby.ProgramSafety

namespace Minerby

open MinerPool (Pc JobPtr Call Ctl soleWorker)

/-- `stop` has been entered. -/
def LoopPc.isClosing : LoopPc → Bool
  | .disconnect => true
  | .finished => true
  | _ => false

namespace Miner

variable {threads : UInt32} {setup : Setup} {text : JsonText}
  {s s' : Miner threads}

/-- What is known of the pool in every run of the program. -/
structure PoolKnown (pool : MinerPool.State threads Hasher) : Prop where
  counted : MinerPool.Counted pool
  threaded : pool.Threaded
  armed : pool.Armed

theorem PoolKnown.stutters {pool pool' : MinerPool.State threads Hasher}
    (hknown : PoolKnown pool)
    (hstep : Stutters MinerPool.step anyLabel pool pool') :
    PoolKnown pool' := by
  rcases hstep with rfl | ⟨label, -, htaken⟩
  · exact hknown
  · exact ⟨hknown.counted.step htaken,
      ⟨hknown.threaded.staffed.step htaken,
        hknown.threaded.equipped.step htaken⟩,
      hknown.armed.step htaken⟩

theorem PoolKnown.init :
    PoolKnown (MinerPool.init threads Hasher) :=
  ⟨MinerPool.Counted.init,
    ⟨MinerPool.State.Staffed.init, MinerPool.State.Equipped.init⟩, nofun⟩

/-- The worker that holds `submit_mtx` is inside `on_share`. -/
def LockHeld (s : Miner threads) : Prop :=
  ∀ i bytes, s.sending = some (i, bytes) →
    ∃ done digest, (s.rig.pool.workers i).pc = .sharing done digest

/-- Another step than its own leaves a worker in `on_share`. -/
theorem stays_sharing {pool pool' : MinerPool.State threads Hasher}
    {label : MinerPool.Label threads Hasher} {i j : Fin threads.toNat}
    {done : Nat} {digest : Hash256}
    (hsharing : (pool.workers i).pc = .sharing done digest)
    (hturned : MinerPool.Turned pool pool' j label)
    (hother : label ≠ .worker i) :
    (pool'.workers i).pc = .sharing done digest := by
  by_cases hi : i = j
  · subst hi
    obtain ⟨w, inFlight, event, hturn, -, -, -⟩ := hturned.turn
    cases hturn <;> simp_all
  · rw [hturned.others i hi]
    exact hsharing

theorem stays_sharing_main {rig rig' : Rig threads} {i : Fin threads.toNat}
    {done : Nat} {digest : Hash256} (hsound : MinerPool.Sound rig.pool)
    (hsharing : (rig.pool.workers i).pc = .sharing done digest)
    (hturn : Rig.MainTurn rig rig') :
    (rig'.pool.workers i).pc = .sharing done digest := by
  rcases hturn.pool with hsame | hctl | ⟨call, -, called⟩ |
    ⟨rekeyed, job, -, called⟩
  · rw [hsame]
    exact hsharing
  · obtain ⟨-, -, hworkers⟩ := hsound.ctl_threads hctl
    rcases hworkers i with hsame | ⟨hout, -⟩
    · rw [hsame]
      exact hsharing
    · rw [hsharing] at hout
      cases hout
  · rw [called.workers]
    exact hsharing
  · rw [called.workers]
    exact hsharing

/-- A step of the mining side that is not worker `i`'s own. -/
theorem stays_sharing_rig {rig rig' : Rig threads} {label : RigLabel threads}
    {i : Fin threads.toNat} {done : Nat} {digest : Hash256}
    (hsound : MinerPool.Sound rig.pool)
    (hsharing : (rig.pool.workers i).pc = .sharing done digest)
    (hother : label ≠ .worker i) (hstep : rig.step setup label = some rig') :
    (rig'.pool.workers i).pc = .sharing done digest := by
  cases Rig.step_stepped hstep with
  | onJob idle pc => exact hsharing
  | clearWork pc called =>
      simp only [called.workers]
      exact hsharing
  | stop pc called =>
      simp only [called.workers]
      exact hsharing
  | main turn => exact stays_sharing_main hsound hsharing turn
  | worker turned =>
      apply stays_sharing hsharing turned.pool
      intro hlabel
      obtain rfl := MinerPool.Label.worker.inj hlabel
      exact hother rfl
  | made turned => exact stays_sharing hsharing turned.pool nofun
  | hashed turned => exact stays_sharing hsharing turned.pool nofun

/-- The lock stays where it is over a step of another thread. -/
theorem LockHeld.quiet (hlock : LockHeld s)
    (hsound : MinerPool.Sound s.rig.pool) (hquiet : Quiet setup s s') :
    LockHeld s' := by
  intro i bytes hsending
  rw [hquiet.sending] at hsending
  obtain ⟨done, digest, hsharing⟩ := hlock i bytes hsending
  rcases hquiet.rig with hsame | ⟨label, hlabel, hrig⟩
  · rw [hsame]
    exact ⟨done, digest, hsharing⟩
  · have hother : label ≠ .worker i := by
      intro hworker
      have hnot := hlabel i hworker
      simp [Miner.atShare, hsharing] at hnot
    exact ⟨done, digest, stays_sharing_rig hsound hsharing hother hrig⟩

theorem LockHeld.released {i : Fin threads.toNat}
    (hstep : s.returnShare i = some s') : LockHeld s' := by
  obtain ⟨rig, hrig, rfl⟩ := Option.map_eq_some_iff.mp hstep
  exact nofun

theorem LockHeld.submit {i : Fin threads.toNat}
    (hstep : s.submit text i = some s') : LockHeld s' := by
  unfold Miner.submit at hstep
  simp only at hstep
  split at hstep
  · rename_i done digest p hsending hpc hp
    split at hstep
    · obtain rfl := Option.some.inj hstep
      intro j bytes hheld
      obtain ⟨rfl, -⟩ := Prod.mk.inj (Option.some.inj hheld)
      exact ⟨done, digest, hpc⟩
    · exact LockHeld.released hstep
  · cases hstep

theorem LockHeld.send {i : Fin threads.toNat} {result : SendResult}
    (hstep : s.send i result = some s') : LockHeld s' := by
  unfold Miner.send at hstep
  simp only at hstep
  split at hstep
  · rename_i j bytes done digest p hsending hpc hp
    split at hstep
    · split at hstep
      · split at hstep
        · exact LockHeld.released hstep
        · obtain rfl := Option.some.inj hstep
          intro k left hheld
          obtain ⟨rfl, -⟩ := Prod.mk.inj (Option.some.inj hheld)
          exact ⟨done, digest, hpc⟩
      · exact LockHeld.released hstep
    · cases hstep
  · cases hstep

theorem LockHeld.step {label : LoopLabel threads} (hlock : LockHeld s)
    (hsound : MinerPool.Sound s.rig.pool)
    (hstep : s.step setup text label = some s') : LockHeld s' := by
  rcases step_quiet hstep with hquiet | ⟨i, hsubmit⟩ | ⟨i, result, hsend⟩
  · exact hlock.quiet hsound hquiet
  · exact LockHeld.submit hsubmit
  · exact LockHeld.send hsend

/-- After `stop` has been entered: the pool is told to stop and no callback is
running; at the end the call has returned and the connection is closed. -/
structure Closing (s : Miner threads) : Prop where
  rigIdle : s.rig.pc = .idle
  running : s.rig.pool.running = false
  ctl : s.rig.pool.ctl = .stopping ∨ s.rig.pool.ctl = .joining ∨
    s.rig.pool.ctl = .idle
  finished : s.pc = .finished →
    s.rig.pool.ctl = .idle ∧ s.client.connected = false

/-- A worker's turn while `stop` waits. -/
theorem Closing.turned {rig : Rig threads} {i : Fin threads.toNat}
    {label : MinerPool.Label threads Hasher} (hclosing : Closing s)
    (hturned : Rig.Turned setup s.rig rig i label) :
    Closing (s.withRig rig) := by
  constructor
  · exact hturned.pc.trans hclosing.rigIdle
  · exact hturned.pool.running.trans hclosing.running
  · change rig.pool.ctl = _ ∨ rig.pool.ctl = _ ∨ rig.pool.ctl = _
    rw [hturned.pool.ctl]
    exact hclosing.ctl
  · change _ → rig.pool.ctl = _ ∧ _
    rw [hturned.pool.ctl]
    exact hclosing.finished

/-- A step of the main thread inside `stop`. -/
theorem Closing.ctlStep {pool : MinerPool.State threads Hasher}
    (hclosing : Closing s) (hbusy : s.rig.pool.ctl ≠ .idle)
    (hstep : MinerPool.ctlStep s.rig.pool = some pool) :
    Closing (s.withRig { s.rig with pool := pool }) := by
  have hfinished : s.pc ≠ .finished := fun hpc =>
    hbusy (hclosing.finished hpc).1
  have hctl := hclosing.ctl
  cases MinerPool.ctlStep_turn hstep with
  | unpause ctl =>
      exact ⟨hclosing.rigIdle, hclosing.running, Or.inr (Or.inl rfl),
        fun hpc => absurd hpc hfinished⟩
  | join ctl exited =>
      exact ⟨hclosing.rigIdle, hclosing.running, Or.inr (Or.inr rfl),
        fun hpc => absurd hpc hfinished⟩
  | _ => simp_all

theorem Closing.mainTurn {rig : Rig threads} (hclosing : Closing s)
    (hturn : Rig.MainTurn s.rig rig) : Closing (s.withRig rig) := by
  cases hturn with
  | ctl busy step => exact hclosing.ctlStep busy step
  | _ => simp_all [hclosing.rigIdle]

theorem Closing.unlock {sending : Option (Fin threads.toNat × List Char)}
    {client : PoolClient} {wire : List Sent} {calls : List SubmitCall}
    (hclosing : Closing s)
    (hclient : client.conn.sock = s.client.conn.sock) :
    Closing { s with
      sending := sending
      client := client
      wire := wire
      calls := calls } := by
  refine ⟨hclosing.rigIdle, hclosing.running, hclosing.ctl, fun hpc => ?_⟩
  obtain ⟨hidle, hconnected⟩ := hclosing.finished hpc
  refine ⟨hidle, ?_⟩
  simp only [PoolClient.connected, TcpClient.isOpen, hclient] at hconnected ⊢
  exact hconnected

theorem Closing.returnShare {i : Fin threads.toNat} (setup : Setup)
    (hclosing : Closing s) (hstep : s.returnShare i = some s') :
    Closing s' := by
  obtain ⟨rig, hrig, rfl⟩ := Option.map_eq_some_iff.mp hstep
  have hturned : Rig.Turned setup s.rig rig i (.worker i) :=
    Rig.workerStep_turned hrig
  exact (hclosing.turned hturned).unlock rfl

theorem returnShare_pc {i : Fin threads.toNat}
    (hstep : s.returnShare i = some s') : s'.pc = s.pc := by
  obtain ⟨rig, hrig, rfl⟩ := Option.map_eq_some_iff.mp hstep
  rfl

theorem Closing.main (hclosing : s.pc.isClosing = true → Closing s)
    (hstep : s.mainStep = some s') (hpc : s'.pc.isClosing = true) :
    Closing s' := by
  unfold Miner.mainStep at hstep
  split at hstep
  case isFalse =>
    obtain ⟨rig, hrig, rfl⟩ := Option.map_eq_some_iff.mp hstep
    exact (hclosing hpc).mainTurn (Rig.mainStep_turn hrig)
  case isTrue hfree =>
    obtain ⟨hctl, hidle⟩ := free_eq_true hfree
    split at hstep
    · obtain rfl := Option.some.inj hstep
      cases hpc
    · obtain ⟨rig, hrig, rfl⟩ := Option.map_eq_some_iff.mp hstep
      cases hpc
    · obtain ⟨rig, hrig, rfl⟩ := Option.map_eq_some_iff.mp hstep
      obtain ⟨pool, hpool, rfl⟩ := Rig.call_eq_some.mp hrig
      have hcalled := MinerPool.callStep_called hpool
      refine ⟨rfl, hcalled.running, ?_, nofun⟩
      change pool.ctl = _ ∨ pool.ctl = _ ∨ pool.ctl = _
      rw [hcalled.ctl]
      cases hrunning : s.rig.pool.running <;> simp [Call.entry, hrunning]
    · rename_i hat
      obtain rfl := Option.some.inj hstep
      have hbefore := hclosing (by rw [hat]; rfl)
      refine ⟨hbefore.rigIdle, hbefore.running, hbefore.ctl, fun _ => ?_⟩
      have hsock := s.client.disconnect_sock
      exact ⟨hctl, by simp [PoolClient.connected, TcpClient.isOpen, hsock]⟩
    · cases hstep

theorem Closing.submit {i : Fin threads.toNat} (setup : Setup)
    (hclosing : s.pc.isClosing = true → Closing s)
    (hstep : s.submit text i = some s') (hpc : s'.pc.isClosing = true) :
    Closing s' := by
  unfold Miner.submit at hstep
  simp only at hstep
  split at hstep
  · rename_i done digest p hsending hsharing hp
    have hsock := s.client.submit_sock p.job (s.rig.pool.workers i).nonce digest
    split at hstep
    · obtain rfl := Option.some.inj hstep
      exact (hclosing hpc).unlock hsock
    · rw [returnShare_pc hstep] at hpc
      exact ((hclosing hpc).unlock hsock).returnShare setup hstep
  · cases hstep

theorem Closing.send {i : Fin threads.toNat} {result : SendResult}
    (setup : Setup) (hclosing : s.pc.isClosing = true → Closing s)
    (hstep : s.send i result = some s') (hpc : s'.pc.isClosing = true) :
    Closing s' := by
  unfold Miner.send at hstep
  simp only at hstep
  split at hstep
  · split at hstep
    · split at hstep
      · split at hstep
        · rw [returnShare_pc hstep] at hpc
          exact ((hclosing hpc).unlock rfl).returnShare setup hstep
        · obtain rfl := Option.some.inj hstep
          exact (hclosing hpc).unlock rfl
      · rw [returnShare_pc hstep] at hpc
        exact ((hclosing hpc).unlock rfl).returnShare setup hstep
    · cases hstep
  · cases hstep

theorem afterPoll_not_closing {next : Bool → LoopPc}
    (hnext : s.afterPoll = some next) (flag : Bool) :
    (next flag).isClosing = false := by
  unfold afterPoll at hnext
  simp only at hnext
  split at hnext
  · split at hnext
    · obtain rfl := Option.some.inj hnext
      cases flag <;> rfl
    · cases hnext
  · obtain rfl := Option.some.inj hnext
    cases flag <;> rfl
  · split at hnext
    · cases hnext
    · obtain rfl := Option.some.inj hnext
      cases flag <;> rfl
  · cases hnext

/-- A step of the loop does not lead past it. -/
theorem poll_not_closing {due : Bool} {script : List RecvResult}
    (hstep : s.poll setup text due script = some s') :
    s'.pc.isClosing = false := by
  unfold Miner.poll at hstep
  split at hstep
  · rename_i next hfree hnext
    have hout := afterPoll_not_closing hnext
    split at hstep
    · cases hstep
    · obtain ⟨rig, hrig, rfl⟩ := Option.map_eq_some_iff.mp hstep
      exact hout _
    · obtain rfl := Option.some.inj hstep
      exact hout _
  · cases hstep

/-- What is known of the program past its loop is kept, and holds when `stop`
is entered. -/
theorem closing_of_step {label : LoopLabel threads}
    (hclosing : s.pc.isClosing = true → Closing s)
    (hstep : s.step setup text label = some s')
    (hpc : s'.pc.isClosing = true) : Closing s' := by
  cases label with
  | leave =>
      simp only [Miner.step] at hstep
      split at hstep
      · obtain rfl := Option.some.inj hstep
        cases hpc
      · cases hstep
  | connect opened firstSends secondSends =>
      simp only [Miner.step, Miner.connect] at hstep
      split at hstep
      · have hout : ∀ ok : Bool, (if ok then LoopPc.handshake handshakePolls
            else .top).isClosing = false := by
          intro ok
          cases ok <;> rfl
        obtain rfl := Option.some.inj hstep
        exact absurd hpc (by simp [hout])
      · cases hstep
  | connected =>
      simp only [Miner.step] at hstep
      split at hstep
      · split at hstep
        · obtain rfl := Option.some.inj hstep
          cases hpc
        · split at hstep
          · obtain rfl := Option.some.inj hstep
            cases hpc
          · cases hstep
      · cases hstep
  | poll due script =>
      have hout := poll_not_closing hstep
      rw [hpc] at hout
      cases hout
  | watchdog fired =>
      simp only [Miner.step] at hstep
      split at hstep
      · obtain rfl := Option.some.inj hstep
        cases fired <;> cases hpc
      · cases hstep
  | main => exact Closing.main hclosing hstep hpc
  | worker i =>
      simp only [Miner.step] at hstep
      split at hstep
      · cases hstep
      · obtain ⟨rig, hrig, rfl⟩ := Option.map_eq_some_iff.mp hstep
        have hturned : Rig.Turned setup s.rig rig i (.worker i) :=
          Rig.workerStep_turned hrig
        exact (hclosing hpc).turned hturned
  | made i =>
      obtain ⟨rig, hrig, rfl⟩ := Option.map_eq_some_iff.mp hstep
      cases Rig.step_stepped hrig with
      | made turned => exact (hclosing hpc).turned turned
  | hashed i digest =>
      obtain ⟨rig, hrig, rfl⟩ := Option.map_eq_some_iff.mp hstep
      cases Rig.step_stepped hrig with
      | hashed turned => exact (hclosing hpc).turned turned
  | submit i => exact Closing.submit setup hclosing hstep hpc
  | send i result => exact Closing.send setup hclosing hstep hpc

/-- What is known of the program in every run. -/
structure Known (s : Miner threads) : Prop where
  pool : PoolKnown s.rig.pool
  lock : LockHeld s
  closing : s.pc.isClosing = true → Closing s

theorem Known.step {label : LoopLabel threads} (hknown : Known s)
    (hstep : s.step setup text label = some s') : Known s' :=
  ⟨hknown.pool.stutters (step_moved hstep).pool,
    hknown.lock.step hknown.pool.counted.toSound hstep,
    closing_of_step hknown.closing hstep⟩

theorem Known.of_run {user pass : String} {labels : List (LoopLabel threads)}
    (hrun : Run (Miner.step setup text) anyLabel (Miner.init setup user pass)
      labels s) : Known s := by
  apply hrun.invariant
  · intro state label next hknown _ hstep
    exact hknown.step hstep
  · exact ⟨PoolKnown.init, nofun, nofun⟩

/-- When `stop` has returned there are no threads. -/
theorem Closing.no_threads (hclosing : Closing s) (hknown : Known s)
    (hidle : s.rig.pool.ctl = .idle) (i : Fin threads.toNat) :
    (s.rig.pool.workers i).pc = .unborn :=
  hknown.pool.counted.toSound.unborn (by simp [hidle]) (by simp [hidle])
    hclosing.running i

/-- Nobody is in `submit` when there are no threads. -/
theorem Known.not_sending (hknown : Known s)
    (hunborn : ∀ i, (s.rig.pool.workers i).pc = .unborn) :
    s.sending = none := by
  cases hsending : s.sending with
  | none => rfl
  | some held =>
      obtain ⟨i, bytes⟩ := held
      obtain ⟨done, digest, hpc⟩ := hknown.lock i bytes hsending
      simp [hunborn i] at hpc

/-- When the program has finished nothing is left of the run: no thread exists,
`in_flight_` is 0, no submit line is half sent, the connection is closed, the
hash counter is the number of hashes computed, and nothing more happens. -/
theorem finished_clean {user pass : String} {labels : List (LoopLabel threads)}
    (hrun : Run (Miner.step setup text) anyLabel (Miner.init setup user pass)
      labels s) (hfinished : s.pc = .finished) :
    (∀ i, (s.rig.pool.workers i).pc = .unborn) ∧ s.rig.pool.inFlight = 0 ∧
      s.sending = none ∧ s.client.connected = false ∧
      s.rig.pool.totalHashes = UInt64.ofNat s.rig.pool.completed ∧
      ∀ label, s.step setup text label = none := by
  have hknown := Known.of_run hrun
  have hclosing := hknown.closing (by rw [hfinished]; rfl)
  obtain ⟨hidle, hclosed⟩ := hclosing.finished hfinished
  have hunborn := hclosing.no_threads hknown hidle
  have hsending := hknown.not_sending hunborn
  have hcounted := hknown.pool.counted
  refine ⟨hunborn, ?_, hsending, hclosed, ?_, ?_⟩
  · apply UInt32.toNat_inj.mp
    rw [hcounted.counted]
    apply Finset.sum_eq_zero
    intro i _
    rw [hunborn i]
    rfl
  · have hbalance := hcounted.balance
    rw [hcounted.toSound.uncounted_eq_zero (by simp [hidle]) (by simp [hidle])
      hclosing.running] at hbalance
    rw [← hbalance]
    exact (UInt64.add_zero _).symm
  · intro label
    have hfree : s.free = true := by
      simp [Miner.free, hidle, hclosing.rigIdle]
    cases label with
    | leave => simp [Miner.step, hfinished]
    | connect opened firstSends secondSends =>
        simp [Miner.step, Miner.connect, hfinished]
    | connected => simp [Miner.step, hfinished, hfree]
    | poll due script =>
        simp [Miner.step, Miner.poll, Miner.afterPoll, hfinished, hfree]
    | watchdog fired => simp [Miner.step, hfinished]
    | main => simp [Miner.step, Miner.mainStep, hfinished, hfree]
    | worker i =>
        simp [Miner.step, Miner.atShare, Rig.step, Rig.workerStep,
          MinerPool.workerStep, hunborn i]
    | made i =>
        simp only [Miner.step, Rig.step]
        cases s.rig.makeHasher setup i <;>
          simp [MinerPool.madeStep, hunborn i]
    | hashed i digest =>
        simp only [Miner.step, Rig.step]
        cases (s.rig.pool.workers i).hasher <;>
          simp [MinerPool.hashedStep, hunborn i]
    | submit i => simp [Miner.step, Miner.submit, hunborn i]
    | send i result => simp [Miner.step, Miner.send, hsending]

/-- A worker is at the top of its loop when the run is left: it exits, `stop`
joins it and the connection is closed. -/
def finishingLabels : List (LoopLabel 1) :=
  miningLabels.take 17 ++
    [.leave, .main, .main, .worker soleWorker, .main, .main]

theorem finishing_finished :
    ∃ s : Miner 1, Run (Miner.step stratumSetup minerText) anyLabel
        (Miner.init stratumSetup "u" "x") finishingLabels s ∧
      s.pc = .finished ∧ s.client.connected = false := by
  have hreplay : (replay (Miner.step stratumSetup minerText) anyLabel
      (Miner.init stratumSetup "u" "x") finishingLabels).any
        (fun s => s.pc = .finished) = true := by
    decide +kernel
  obtain ⟨s, hs, hpc⟩ := (Option.any_eq_true _ _).mp hreplay
  have hrun := run_of_replay hs
  have hfinished := of_decide_eq_true hpc
  obtain ⟨-, -, -, hclosed, -⟩ := finished_clean hrun hfinished
  exact ⟨s, hrun, hfinished, hclosed⟩

/-- The steps of all threads until `stop` has returned, and the last one. -/
def toFinish (s : Miner threads) : Nat :=
  s.rig.pool.toReturn + if s.pc = .disconnect then 1 else 0

/-- The bytes of a submit line that are still to be sent; no bound while nobody
is sending one. -/
def lineLeft (s : Miner threads) : WithTop ℕ :=
  match s.sending with
  | none => ⊤
  | some (_, bytes) => (bytes.length : ℕ)

/-- What is left to do: steps of `stop`, and within one of them a line. -/
def left (s : Miner threads) : ℕ ×ₗ WithTop ℕ :=
  toLex (s.toFinish, s.lineLeft)

theorem left_lt_of_steps (hlt : s'.toFinish < s.toFinish) :
    s'.left < s.left :=
  Prod.Lex.toLex_lt_toLex.mpr (Or.inl hlt)

theorem left_lt_of_line (hsame : s'.toFinish = s.toFinish)
    (hlt : s'.lineLeft < s.lineLeft) : s'.left < s.left :=
  Prod.Lex.toLex_lt_toLex.mpr (Or.inr ⟨hsame, hlt⟩)

theorem turned_lt {rig : Rig threads} {i : Fin threads.toNat}
    {label : MinerPool.Label threads Hasher}
    (hrunning : s.rig.pool.running = false)
    (hturned : Rig.Turned setup s.rig rig i label) :
    (s.withRig rig).toFinish < s.toFinish := by
  have hlt := hturned.pool.toReturn_lt hrunning
  exact Nat.add_lt_add_right hlt _

theorem returnShare_lt {i : Fin threads.toNat} (setup : Setup)
    (hstep : s.returnShare i = some s')
    (hrunning : s.rig.pool.running = false) : s'.toFinish < s.toFinish := by
  obtain ⟨rig, hrig, rfl⟩ := Option.map_eq_some_iff.mp hstep
  have hturned : Rig.Turned setup s.rig rig i (.worker i) :=
    Rig.workerStep_turned hrig
  exact turned_lt hrunning hturned

theorem Closing.main_lt (hclosing : Closing s) (hknown : Known s)
    (hpc : s.pc.isClosing = true) (hstep : s.mainStep = some s') :
    s'.toFinish < s.toFinish := by
  unfold Miner.mainStep at hstep
  split at hstep
  case isFalse hbusy =>
    obtain ⟨rig, hrig, rfl⟩ := Option.map_eq_some_iff.mp hstep
    cases Rig.mainStep_turn hrig with
    | ctl busy step =>
        have hstopping : s.rig.pool.Stopping :=
          ⟨hknown.pool.threaded, hclosing.ctl⟩
        have hctl : MinerPool.step s.rig.pool .ctl = some _ := step
        have hlt := (hstopping.step busy hctl).2
        exact Nat.add_lt_add_right hlt _
    | _ => simp_all [hclosing.rigIdle]
  case isTrue hfree =>
    split at hstep
    · rename_i hat
      simp [hat, LoopPc.isClosing] at hpc
    · rename_i hat
      simp [hat, LoopPc.isClosing] at hpc
    · rename_i hat
      simp [hat, LoopPc.isClosing] at hpc
    · rename_i hat
      obtain rfl := Option.some.inj hstep
      simp [toFinish, hat]
    · cases hstep

theorem Closing.submit_lt {i : Fin threads.toNat} (setup : Setup)
    (hclosing : Closing s) (hstep : s.submit text i = some s') :
    s'.left < s.left := by
  unfold Miner.submit at hstep
  simp only at hstep
  split at hstep
  · rename_i done digest p hsending hsharing hp
    split at hstep
    · obtain rfl := Option.some.inj hstep
      refine left_lt_of_line ?_ ?_
      · rfl
      · simp [lineLeft, hsending]
    · have hlt := returnShare_lt setup hstep hclosing.running
      exact left_lt_of_steps hlt
  · cases hstep

theorem Closing.send_lt {i : Fin threads.toNat} {result : SendResult}
    (setup : Setup) (hclosing : Closing s)
    (hstep : s.send i result = some s') : s'.left < s.left := by
  unfold Miner.send at hstep
  simp only at hstep
  split at hstep
  · rename_i j bytes done digest p hsending hsharing hp
    split at hstep
    · split at hstep
      · rename_i conn n hsock
        split at hstep
        · have hlt := returnShare_lt setup hstep hclosing.running
          exact left_lt_of_steps hlt
        · rename_i hmore
          obtain rfl := Option.some.inj hstep
          refine left_lt_of_line rfl ?_
          have hpos : 0 < bytes.length := by
            apply List.length_pos_iff.mpr
            rintro rfl
            simp at hmore
          have hn := n.pos
          simp only [lineLeft, hsending, List.length_drop, Nat.cast_lt]
          omega
      · have hlt := returnShare_lt setup hstep hclosing.running
        exact left_lt_of_steps hlt
    · cases hstep
  · cases hstep

theorem submit_pc {i : Fin threads.toNat}
    (hstep : s.submit text i = some s') : s'.pc = s.pc := by
  unfold Miner.submit at hstep
  simp only at hstep
  split at hstep
  · split at hstep
    · obtain rfl := Option.some.inj hstep
      rfl
    · have hkept := returnShare_pc hstep
      exact hkept
  · cases hstep

theorem send_pc {i : Fin threads.toNat} {result : SendResult}
    (hstep : s.send i result = some s') : s'.pc = s.pc := by
  unfold Miner.send at hstep
  simp only at hstep
  split at hstep
  · split at hstep
    · split at hstep
      · split at hstep
        · have hkept := returnShare_pc hstep
          exact hkept
        · obtain rfl := Option.some.inj hstep
          rfl
      · have hkept := returnShare_pc hstep
        exact hkept
    · cases hstep
  · cases hstep

theorem mainStep_isClosing (hpc : s.pc.isClosing = true)
    (hstep : s.mainStep = some s') : s'.pc.isClosing = true := by
  unfold Miner.mainStep at hstep
  split at hstep
  · split at hstep
    · rename_i hat
      simp [hat, LoopPc.isClosing] at hpc
    · rename_i hat
      simp [hat, LoopPc.isClosing] at hpc
    · rename_i hat
      simp [hat, LoopPc.isClosing] at hpc
    · obtain rfl := Option.some.inj hstep
      rfl
    · cases hstep
  · obtain ⟨rig, hrig, rfl⟩ := Option.map_eq_some_iff.mp hstep
    exact hpc

/-- Past the loop every step leaves less to do. -/
theorem Closing.step_lt {label : LoopLabel threads} (hclosing : Closing s)
    (hknown : Known s) (hpc : s.pc.isClosing = true)
    (hstep : s.step setup text label = some s') :
    s'.pc.isClosing = true ∧ s'.left < s.left := by
  have hat : s.pc = .disconnect ∨ s.pc = .finished := by
    cases h : s.pc <;> simp_all [LoopPc.isClosing]
  cases label with
  | leave => rcases hat with h | h <;> simp [Miner.step, h] at hstep
  | connect opened firstSends secondSends =>
      rcases hat with h | h <;> simp [Miner.step, Miner.connect, h] at hstep
  | connected =>
      rcases hat with h | h <;> cases hfree : s.free <;>
        simp [Miner.step, h, hfree] at hstep
  | poll due script =>
      have hnone : s.afterPoll = none := by
        rcases hat with h | h <;> simp [Miner.afterPoll, h]
      simp [Miner.step, Miner.poll, hnone] at hstep
  | watchdog fired =>
      rcases hat with h | h <;> simp [Miner.step, h] at hstep
  | main =>
      exact ⟨mainStep_isClosing hpc hstep,
        left_lt_of_steps (hclosing.main_lt hknown hpc hstep)⟩
  | worker i =>
      simp only [Miner.step] at hstep
      split at hstep
      · cases hstep
      · obtain ⟨rig, hrig, rfl⟩ := Option.map_eq_some_iff.mp hstep
        have hturned : Rig.Turned setup s.rig rig i (.worker i) :=
          Rig.workerStep_turned hrig
        exact ⟨hpc, left_lt_of_steps (turned_lt hclosing.running hturned)⟩
  | made i =>
      obtain ⟨rig, hrig, rfl⟩ := Option.map_eq_some_iff.mp hstep
      cases Rig.step_stepped hrig with
      | made turned =>
          exact ⟨hpc, left_lt_of_steps (turned_lt hclosing.running turned)⟩
  | hashed i digest =>
      obtain ⟨rig, hrig, rfl⟩ := Option.map_eq_some_iff.mp hstep
      cases Rig.step_stepped hrig with
      | hashed turned =>
          exact ⟨hpc, left_lt_of_steps (turned_lt hclosing.running turned)⟩
  | submit i =>
      have hkept := submit_pc hstep
      exact ⟨by rw [hkept]; exact hpc, hclosing.submit_lt setup hstep⟩
  | send i result =>
      have hkept := send_pc hstep
      exact ⟨by rw [hkept]; exact hpc, hclosing.send_lt setup hstep⟩

/-- Worker `i` is in the constructor of a RandomX hasher that throws, because
the context had no seed when it began. -/
def MakesInVain (setup : Setup) (s : Miner threads) (i : Fin threads.toNat) :
    Prop :=
  (s.rig.pool.workers i).pc.isMaking = true ∧ s.rig.makeHasher setup i = none

/-- A worker inside `on_share` holds the mutex, waits for it, or can take it. -/
theorem Known.sharing_goes_on (hknown : Known s) (setup : Setup)
    (text : JsonText) {i : Fin threads.toNat} {done : Nat} {digest : Hash256}
    (hpc : (s.rig.pool.workers i).pc = .sharing done digest) :
    ∃ label next, s.step setup text label = some next := by
  have hreturns : ∀ {s : Miner threads} {j : Fin threads.toNat} {done : Nat}
      {digest : Hash256} {p : JobPtr},
      (s.rig.pool.workers j).pc = .sharing done digest →
      (s.rig.pool.workers j).work = some p →
        ∃ next, s.returnShare j = some next := by
    intro s j done digest p hpc hwork
    simp [Miner.returnShare, Rig.workerStep, MinerPool.workerStep, hpc, hwork]
  have hjob : ∀ {j : Fin threads.toNat} {done : Nat} {digest : Hash256},
      (s.rig.pool.workers j).pc = .sharing done digest →
        ∃ p, (s.rig.pool.workers j).work = some p := by
    intro j done digest hpc
    exact MinerPool.Worker.exists_work_of_ready
      ((hknown.pool.threaded.equipped j).ready (by rw [hpc]; rfl))
  cases hsending : s.sending with
  | none =>
      obtain ⟨p, hwork⟩ := hjob hpc
      by_cases hconnected : (s.client.submit p.job (s.rig.pool.workers i).nonce
          digest).1.connected = true
      · refine ⟨.submit i, ?_⟩
        simp only [Miner.step, Miner.submit, hsending, hpc, hwork, hconnected,
          ↓reduceIte]
        exact ⟨_, rfl⟩
      · refine ⟨.submit i, ?_⟩
        simp only [Miner.step, Miner.submit, hsending, hpc, hwork, hconnected,
          Bool.false_eq_true, ↓reduceIte]
        exact hreturns hpc hwork
  | some held =>
      obtain ⟨j, bytes⟩ := held
      obtain ⟨done', digest', hholder⟩ := hknown.lock j bytes hsending
      obtain ⟨p, hwork⟩ := hjob hholder
      refine ⟨.send j .failed, ?_⟩
      simp only [Miner.step, Miner.send, hsending, hholder, hwork, ↓reduceIte]
      cases s.client.conn.sock <;> exact hreturns hholder hwork

/-- There is a digest that the hasher may return. -/
theorem exists_computes (setup : Setup) (rig : Rig threads) (hasher : Hasher)
    (blob : List UInt8) : ∃ digest, rig.Computes setup hasher blob digest := by
  cases hasher with
  | sha256d => exact ⟨_, rfl⟩
  | randomx epoch => exact ⟨_, fun _ => rfl⟩

/-- A thread that has not left `run` can go on, unless it builds its hasher in
vain. -/
theorem Known.worker_goes_on (hknown : Known s) (setup : Setup)
    (text : JsonText) {i : Fin threads.toNat}
    (hborn : (s.rig.pool.workers i).pc ≠ .unborn)
    (hstays : (s.rig.pool.workers i).pc ≠ .exited) :
    MakesInVain setup s i ∨ ∃ label next, s.step setup text label = some next := by
  have hequipped := hknown.pool.threaded.equipped
  cases hpc : (s.rig.pool.workers i).pc with
  | sharing done digest => exact Or.inr (hknown.sharing_goes_on setup text hpc)
  | making build =>
      cases hmake : s.rig.makeHasher setup i with
      | none => exact Or.inl ⟨by rw [hpc]; rfl, hmake⟩
      | some hasher =>
          refine Or.inr ⟨.made i, ?_⟩
          simp [Miner.step, Rig.step, hmake, MinerPool.madeStep, hpc]
  | hashing done =>
      have hhasher := hknown.pool.armed i (by rw [hpc]; rfl)
      obtain ⟨hasher, hhasher⟩ := Option.isSome_iff_exists.mp hhasher
      obtain ⟨p, hwork⟩ := MinerPool.Worker.exists_work_of_ready
        ((hequipped i).ready (by rw [hpc]; rfl))
      obtain ⟨digest, hdigest⟩ := exists_computes setup s.rig hasher
        (s.rig.pool.workers i).blob
      refine Or.inr ⟨.hashed i digest, ?_⟩
      simp [Miner.step, Rig.step, hhasher, hdigest, MinerPool.hashedStep, hpc,
        hwork]
  | _ =>
      obtain ⟨label, next, hactor, hnext⟩ :=
        hequipped.canMove .sha256d hborn hstays
      right
      refine ⟨.worker i, ?_⟩
      cases label with
      | call call => cases hactor
      | ctl => cases hactor
      | worker j =>
          obtain rfl := Option.some.inj hactor
          simp only [MinerPool.step] at hnext
          simp [Miner.step, Miner.atShare, hpc, Rig.step, Rig.workerStep, hnext]
      | made j hasher =>
          obtain rfl := Option.some.inj hactor
          simp [MinerPool.step, MinerPool.madeStep, hpc] at hnext
      | hashed j digest =>
          obtain rfl := Option.some.inj hactor
          simp [MinerPool.step, MinerPool.hashedStep, hpc] at hnext

/-- Past the loop and before the end somebody can go on, unless a worker builds
its hasher in vain. -/
theorem Closing.goes_on (hclosing : Closing s) (hknown : Known s)
    (setup : Setup) (text : JsonText) (hat : s.pc = .disconnect) :
    (∃ i, MakesInVain setup s i) ∨
      ∃ label next, s.step setup text label = some next := by
  have hmain : s.mainStep.isSome = true →
      ∃ label next, s.step setup text label = some next := by
    intro hsome
    obtain ⟨next, hnext⟩ := Option.isSome_iff_exists.mp hsome
    exact ⟨.main, next, hnext⟩
  rcases hclosing.ctl with hctl | hctl | hctl
  · apply Or.inr (hmain _)
    simp [Miner.mainStep, Miner.free, hctl, Rig.mainStep, MinerPool.ctlStep]
  · obtain ⟨-, hborn⟩ := hknown.pool.threaded.staffed.stopping (Or.inr hctl)
    by_cases hexited : ∀ i, (s.rig.pool.workers i).pc = .exited
    · apply Or.inr (hmain _)
      simp [Miner.mainStep, Miner.free, hctl, Rig.mainStep, MinerPool.ctlStep,
        hexited]
    · obtain ⟨i, hstays⟩ := not_forall.mp hexited
      rcases hknown.worker_goes_on setup text (hborn i) hstays with h | h
      · exact Or.inl ⟨i, h⟩
      · exact Or.inr h
  · apply Or.inr (hmain _)
    simp [Miner.mainStep, Miner.free, hctl, hclosing.rigIdle, hat]

/-- Shutting down ends, where no HTTP server is to be stopped as well and the
socket calls return: once the main thread has entered `stop` there is no way to
go on for ever, whatever the workers are doing, also inside a submit; and as
long as the program has not finished somebody can take a step, unless a worker
is building a RandomX hasher from a context without a seed, which throws. -/
theorem shutdown_ends {user pass : String} {labels more : List (LoopLabel threads)}
    (hrun : Run (Miner.step setup text) anyLabel (Miner.init setup user pass)
      labels s) (hat : s.pc = .disconnect) :
    ¬ Endless (Miner.step setup text) s ∧
      ∀ s', Run (Miner.step setup text) anyLabel s more s' →
        s'.pc = .finished ∨ (∃ i, MakesInVain setup s' i) ∨
          ∃ label next, s'.step setup text label = some next := by
  have hstart : Known s ∧ s.pc.isClosing = true :=
    ⟨Known.of_run hrun, by rw [hat]; rfl⟩
  have hstep : ∀ (state : Miner threads) (label : LoopLabel threads)
      (next : Miner threads), Known state ∧ state.pc.isClosing = true →
        state.step setup text label = some next →
          (Known next ∧ next.pc.isClosing = true) ∧ next.left < state.left := by
    intro state label next hinv hstep
    obtain ⟨hknown, hpc⟩ := hinv
    obtain ⟨hpc', hlt⟩ := (hknown.closing hpc).step_lt hknown hpc hstep
    exact ⟨⟨hknown.step hstep, hpc'⟩, hlt⟩
  constructor
  · exact not_endless (wellFounded_lt (α := ℕ ×ₗ WithTop ℕ)) hstart hstep
  · intro s' hmore
    obtain ⟨hknown, hpc⟩ := hmore.invariant
      (fun state label next hinv _ htaken => (hstep state label next hinv htaken).1)
      hstart
    have hclosing := hknown.closing hpc
    cases hpc' : s'.pc with
    | disconnect => exact Or.inr (hclosing.goes_on hknown setup text hpc')
    | finished => exact Or.inl rfl
    | _ => simp [hpc', LoopPc.isClosing] at hpc

/-- The worker is in its first hash when `stop` is entered. -/
theorem leaving_ends :
    ∃ s : Miner 1, Run (Miner.step stratumSetup minerText) anyLabel
        (Miner.init stratumSetup "u" "x") (miningLabels ++ [.leave, .main]) s ∧
      (s.rig.pool.workers soleWorker).pc.inChunk = true ∧
      ¬ Endless (Miner.step stratumSetup minerText) s := by
  have hreplay : (replay (Miner.step stratumSetup minerText) anyLabel
      (Miner.init stratumSetup "u" "x") (miningLabels ++ [.leave, .main])).any
        (fun s => decide (s.pc = .disconnect ∧
          (s.rig.pool.workers soleWorker).pc.inChunk = true)) = true := by
    decide +kernel
  obtain ⟨s, hs, hboth⟩ := (Option.any_eq_true _ _).mp hreplay
  obtain ⟨hat, hchunk⟩ := of_decide_eq_true hboth
  have hrun := run_of_replay hs
  have hends := (@shutdown_ends _ _ _ _ _ _ _ [] hrun hat).1
  exact ⟨s, hrun, hchunk, hends⟩

end Miner

end Minerby
