/-
The program with its metrics.  The callback on a job sets the difficulty from
the client after it has set the work, the status line sets the total of hashes,
and a request for the metrics page reads both at any time, while the workers go
on.  Whatever the order, the difficulty shown is that of the work the pool
holds, and no more hashes are shown than have been computed.
-/
import Minerby.HashCount
import Minerby.ProgramSafety
import Minerby.RateWindow

namespace Minerby

open MinerPool (Call Ctl Event)
open Miner (stratumSetup minerText miningLabels sharingLabels)

/-- The target of the job is that of the difficulty, in the sense of the client
of the protocol: it is computed from it, or the other way round. -/
def HasDifficulty (protocol : Protocol) (difficulty : ℚ) (job : MiningJob) :
    Prop :=
  match protocol with
  | .stratum => job.target = targetFromDifficulty difficulty
  | .monero => difficulty = targetToDifficulty job.target

namespace PoolClient

variable {text : JsonText} {c c' : PoolClient}

/-- `difficulty()` -/
def difficulty : PoolClient → ℚ
  | .stratum c => c.difficulty
  | .monero c => c.difficulty

theorem submit_difficulty (c : PoolClient) (job : MiningJob) (nonce : UInt32)
    (digest : Hash256) :
    (c.submit job nonce digest).1.difficulty = c.difficulty := by
  cases c <;> rfl

/-- A job that is passed on has the difficulty that the client has then. -/
theorem handle_hasDifficulty {msg : Json} {job : MiningJob} {seed : List UInt8}
    (hok : c.handle text msg = .ok (c', some (.onJob job seed))) :
    HasDifficulty c.protocol c'.difficulty job := by
  cases c with
  | stratum c =>
      obtain ⟨⟨held, callback⟩, hresult, hpair⟩ := bind_eq_ok.mp hok
      obtain ⟨rfl, rfl⟩ := Prod.mk.inj (Except.ok.inj hpair)
      obtain ⟨j, xn1, xn2, hbuilt⟩ :=
        StratumV1Client.handleMessage_onJob hresult
      obtain ⟨d, rfl⟩ := buildWork_decoded hbuilt
      rfl
  | monero c =>
      obtain ⟨⟨held, callback⟩, hresult, hpair⟩ := bind_eq_ok.mp hok
      obtain ⟨rfl, rfl⟩ := Prod.mk.inj (Except.ok.inj hpair)
      obtain ⟨j, -, hdifficulty⟩ := MoneroClient.handle_onJob hresult
      exact hdifficulty

theorem poll_hasDifficulty {due flag : Bool} {script rest : List RecvResult}
    {job : MiningJob} {seed : List UInt8}
    (hok : c.poll text due script =
      .ok (flag, c', some (.onJob job seed), rest)) :
    HasDifficulty c.protocol c'.difficulty job := by
  obtain ⟨msg, hhandled⟩ := poll_onJob hok
  rw [← c.receive_protocol due script]
  exact handle_hasDifficulty hhandled

end PoolClient

namespace Rig

variable {threads : UInt32} {setup : Setup} {rig rig' : Rig threads}
  {good shown : MiningJob → Prop}

/-- The callback has set the work and sets the difficulty next. -/
def settingDifficulty (rig : Rig threads) : Bool :=
  match rig.pool.ctl, rig.pc with
  | .idle, .installing _ => true
  | _, _ => false

theorem settingDifficulty_eq_true :
    rig.settingDifficulty = true ↔
      rig.pool.ctl = .idle ∧ ∃ rekeyed, rig.pc = .installing rekeyed := by
  unfold settingDifficulty
  split
  · rename_i rekeyed hctl hpc
    exact iff_of_true rfl ⟨hctl, rekeyed, hpc⟩
  · rename_i hnot
    refine iff_of_false Bool.false_ne_true ?_
    rintro ⟨hctl, rekeyed, hpc⟩
    exact hnot rekeyed hctl hpc

theorem not_settingDifficulty (hpc : ∀ rekeyed, rig.pc ≠ .installing rekeyed) :
    rig.settingDifficulty = false := by
  rw [Bool.eq_false_iff]
  intro hset
  obtain ⟨-, rekeyed, hinstalling⟩ := settingDifficulty_eq_true.mp hset
  exact hpc rekeyed hinstalling

/-- The job in the callback and the job being stored are good ones, and so is
the job that the pool holds while its difficulty is about to be set; otherwise
it is one of those shown. -/
structure Fits (good shown : MiningJob → Prop) (rig : Rig threads) : Prop where
  job : ∀ job, rig.pc.job? = some job → good job
  storing : ∀ p, rig.pool.ctl = .settingWork p →
    good p.job ∧ ∃ rekeyed, rig.pc = .installing rekeyed
  installing : ∀ rekeyed, rig.pc = .installing rekeyed →
    rig.pool.ctl = .idle ∨ ∃ p, rig.pool.ctl = .settingWork p
  work : ∀ p, rig.pool.work = some p →
    if rig.settingDifficulty then good p.job else shown p.job

theorem Fits.shown_of_not (hfits : Fits good shown rig)
    (hset : rig.settingDifficulty = false) :
    ∀ p, rig.pool.work = some p → shown p.job := by
  intro p hp
  have hwork := hfits.work p hp
  rw [hset] at hwork
  exact hwork

/-- Outside the end of the callback nothing is stored. -/
theorem Fits.away (hjob : ∀ job, rig.pc.job? = some job → good job)
    (hctl : ∀ p, rig.pool.ctl ≠ .settingWork p)
    (hpc : ∀ rekeyed, rig.pc ≠ .installing rekeyed)
    (hwork : ∀ p, rig.pool.work = some p → shown p.job) :
    Fits good shown rig := by
  refine ⟨hjob, ?_, ?_, ?_⟩
  · intro p hstoring
    exact absurd hstoring (hctl p)
  · intro rekeyed hinstalling
    exact absurd hinstalling (hpc rekeyed)
  · intro p hp
    rw [not_settingDifficulty hpc]
    exact hwork p hp

/-- What the workers do changes nothing of it. -/
theorem Fits.same (hfits : Fits good shown rig) (hpc : rig'.pc = rig.pc)
    (hctl : rig'.pool.ctl = rig.pool.ctl)
    (hwork : rig'.pool.work = rig.pool.work) : Fits good shown rig' := by
  have hset : rig'.settingDifficulty = rig.settingDifficulty := by
    unfold settingDifficulty
    rw [hctl, hpc]
  refine ⟨?_, ?_, ?_, ?_⟩
  · rw [hpc]
    exact hfits.job
  · rw [hctl, hpc]
    exact hfits.storing
  · rw [hctl, hpc]
    exact hfits.installing
  · rw [hwork, hset]
    exact hfits.work

/-- Inside a call the work changes only where `set_work` stores it, and then
the callback has only the difficulty left to set. -/
theorem Fits.ctl {pool : MinerPool.State threads Hasher}
    (hfits : Fits good shown rig) (hbusy : rig.pool.ctl ≠ .idle)
    (hstep : MinerPool.ctlStep rig.pool = some pool) :
    Fits good shown { rig with pool := pool } := by
  have hset : rig.settingDifficulty = false := by
    rw [Bool.eq_false_iff]
    exact fun hset => hbusy (settingDifficulty_eq_true.mp hset).1
  have hshown := hfits.shown_of_not hset
  have hpc : (∀ p, rig.pool.ctl ≠ .settingWork p) →
      ∀ rekeyed, rig.pc ≠ .installing rekeyed := by
    intro hnot rekeyed hinstalling
    rcases hfits.installing rekeyed hinstalling with hidle | ⟨p, hstoring⟩
    · exact hbusy hidle
    · exact hnot p hstoring
  cases MinerPool.ctlStep_turn hstep with
  | store p ctl =>
      obtain ⟨hgood, rekeyed, hinstalling⟩ := hfits.storing p ctl
      have hstored : settingDifficulty { rig with
          pool := { rig.pool with work := some p, ctl := .idle } } = true :=
        settingDifficulty_eq_true.mpr ⟨rfl, rekeyed, hinstalling⟩
      refine ⟨hfits.job, by rintro _ ⟨⟩, fun _ _ => Or.inl rfl, ?_⟩
      intro q hq
      obtain rfl := Option.some.inj hq
      rw [if_pos hstored]
      exact hgood
  | clear ctl =>
      exact .away hfits.job (by rintro _ ⟨⟩) (hpc (by simp [ctl]))
        (by rintro _ ⟨⟩)
  | wait ctl busy => exact hfits
  | create next lt ctl =>
      exact .away hfits.job (by rintro _ ⟨⟩) (hpc (by simp [ctl])) hshown
  | started next ctl =>
      exact .away hfits.job (by rintro _ ⟨⟩) (hpc (by simp [ctl])) hshown
  | unpause ctl =>
      exact .away hfits.job (by rintro _ ⟨⟩) (hpc (by simp [ctl])) hshown
  | join ctl exited =>
      exact .away hfits.job (by rintro _ ⟨⟩) (hpc (by simp [ctl])) hshown
  | drain ctl running =>
      exact .away hfits.job (by rintro _ ⟨⟩) (hpc (by simp [ctl])) hshown
  | skip ctl running =>
      exact .away hfits.job (by rintro _ ⟨⟩) (hpc (by simp [ctl])) hshown
  | drained ctl zero =>
      exact .away hfits.job (by rintro _ ⟨⟩) (hpc (by simp [ctl])) hshown

/-- The callback goes on from a place where it has not set the work to another
such place. -/
structure Apart (rig rig' : Rig threads) : Prop where
  before : ∀ rekeyed, rig.pc ≠ .installing rekeyed
  after : ∀ rekeyed, rig'.pc ≠ .installing rekeyed
  job : rig'.pc.job? = rig.pc.job?
  ctl : ∀ p, rig'.pool.ctl ≠ .settingWork p
  work : rig'.pool.work = rig.pool.work

theorem Apart.of_pool (hpool : rig'.pool = rig.pool)
    (hidle : rig.pool.ctl = .idle)
    (hbefore : ∀ rekeyed, rig.pc ≠ .installing rekeyed)
    (hafter : ∀ rekeyed, rig'.pc ≠ .installing rekeyed)
    (hjob : rig'.pc.job? = rig.pc.job?) : Apart rig rig' := by
  refine ⟨hbefore, hafter, hjob, ?_, by rw [hpool]⟩
  rw [hpool, hidle]
  rintro _ ⟨⟩

theorem Apart.of_called {call : Call}
    (hcalled : MinerPool.Called rig.pool rig'.pool call)
    (hother : ∀ job, call ≠ .setWork job)
    (hbefore : ∀ rekeyed, rig.pc ≠ .installing rekeyed)
    (hafter : ∀ rekeyed, rig'.pc ≠ .installing rekeyed)
    (hjob : rig'.pc.job? = rig.pc.job?) : Apart rig rig' := by
  refine ⟨hbefore, hafter, hjob, ?_, hcalled.work⟩
  intro p
  rw [hcalled.ctl]
  cases call with
  | setWork job => exact absurd rfl (hother job)
  | start =>
      simp only [Call.entry]
      split <;> simp
  | stop =>
      simp only [Call.entry]
      split <;> simp
  | _ => simp [Call.entry]

/-- After `ensure_seed` the callback goes on to the rebuilding or to the
start. -/
theorem Apart.of_keyed {ctx : RandomXContext} {wasRunning : Bool}
    {job : MiningJob} {seed : List UInt8} (hidle : rig.pool.ctl = .idle)
    (hbefore : ∀ rekeyed, rig.pc ≠ .installing rekeyed)
    (hjob : rig.pc.job? = some job) :
    Apart rig ({ rig with ctx := ctx }.keyed wasRunning job seed) := by
  refine .of_pool rfl hidle hbefore ?_ ?_
  · cases wasRunning <;> rintro _ ⟨⟩
  · rw [hjob]
    cases wasRunning <;> rfl

theorem Fits.apart (hfits : Fits good shown rig) (hapart : Apart rig rig') :
    Fits good shown rig' := by
  refine .away ?_ hapart.ctl hapart.after ?_
  · rw [hapart.job]
    exact hfits.job
  · rw [hapart.work]
    exact hfits.shown_of_not (not_settingDifficulty hapart.before)

/-- A step of the callback: what is good is shown once the difficulty is set,
and what is shown stays until then. -/
theorem Fits.main (hfree : MinerPool.GenerationFree good)
    (hfits : Fits good shown rig) (hturn : MainTurn rig rig') :
    Fits good (if rig.settingDifficulty then good else shown) rig' := by
  have hunset : (∀ rekeyed, rig.pc ≠ .installing rekeyed) →
      (if rig.settingDifficulty then good else shown) = shown := by
    intro hpc
    rw [not_settingDifficulty hpc]
    rfl
  have hgoes : ∀ {rig' : Rig threads}, Apart rig rig' →
      Fits good (if rig.settingDifficulty then good else shown) rig' := by
    intro rig' hapart
    rw [hunset hapart.before]
    exact hfits.apart hapart
  cases hturn with
  | ctl busy step =>
      rw [if_neg (fun hset => busy (settingDifficulty_eq_true.mp hset).1)]
      exact hfits.ctl busy step
  | installed idle pc =>
      have hset := settingDifficulty_eq_true.mpr ⟨idle, _, pc⟩
      rw [if_pos hset]
      refine .away (by rintro _ ⟨⟩) (by simp [idle]) (by rintro _ ⟨⟩) ?_
      intro p hp
      have hwork := hfits.work p hp
      rw [if_pos hset] at hwork
      exact hwork
  | setWork pc called =>
      rename_i rekeyed job pool
      have hpc : ∀ rekeyed, rig.pc ≠ .installing rekeyed := by simp [pc]
      rw [hunset hpc]
      refine ⟨by rintro _ ⟨⟩, ?_, ?_, ?_⟩
      · intro p hp
        obtain rfl := Ctl.settingWork.inj (called.ctl.symm.trans hp)
        exact ⟨hfree job _ (hfits.job job (by rw [pc]; rfl)), rekeyed, rfl⟩
      · exact fun _ _ => Or.inr ⟨_, called.ctl⟩
      · intro p hp
        split
        · rename_i hset
          cases called.ctl.symm.trans (settingDifficulty_eq_true.mp hset).1
        · exact hfits.shown_of_not (not_settingDifficulty hpc) p
            (called.work ▸ hp)
  | wasRunning idle pc running =>
      exact hgoes (.of_pool rfl idle (by simp [pc]) (by rintro _ ⟨⟩)
        (by rw [pc]; rfl))
  | wasStopped idle pc running =>
      exact hgoes (.of_pool rfl idle (by simp [pc]) (by rintro _ ⟨⟩)
        (by rw [pc]; rfl))
  | beginKeying idle pc changed =>
      exact hgoes (.of_pool rfl idle (by simp [pc]) (by rintro _ ⟨⟩)
        (by rw [pc]; rfl))
  | running idle pc running =>
      exact hgoes (.of_pool rfl idle (by simp [pc]) (by rintro _ ⟨⟩)
        (by rw [pc]; rfl))
  | stopped idle pc running =>
      exact hgoes (.of_pool rfl idle (by simp [pc]) (by rintro _ ⟨⟩)
        (by rw [pc]; rfl))
  | sameSeed idle pc same =>
      exact hgoes (.of_keyed idle (by simp [pc]) (by rw [pc]; rfl))
  | endKeying idle pc =>
      exact hgoes (.of_keyed idle (by simp [pc]) (by rw [pc]; rfl))
  | pause pc called =>
      exact hgoes (.of_called called (by rintro _ ⟨⟩) (by simp [pc])
        (by rintro _ ⟨⟩) (by rw [pc]; rfl))
  | rebuild pc called =>
      exact hgoes (.of_called called (by rintro _ ⟨⟩) (by simp [pc])
        (by rintro _ ⟨⟩) (by rw [pc]; rfl))
  | resume pc called =>
      exact hgoes (.of_called called (by rintro _ ⟨⟩) (by simp [pc])
        (by rintro _ ⟨⟩) (by rw [pc]; rfl))
  | start pc called =>
      exact hgoes (.of_called called (by rintro _ ⟨⟩) (by simp [pc])
        (by rintro _ ⟨⟩) (by rw [pc]; rfl))

/-- Outside the callback what is good may change. -/
theorem Fits.outside {good' : MiningJob → Prop} (hfits : Fits good shown rig)
    (hidle : rig.pool.ctl = .idle) (hpc : rig.pc = .idle) :
    Fits good' shown rig := by
  refine .away ?_ ?_ ?_ (hfits.shown_of_not (not_settingDifficulty ?_))
  · rw [hpc]
    rintro _ ⟨⟩
  · rw [hidle]
    rintro _ ⟨⟩
  · rw [hpc]
    rintro _ ⟨⟩
  · rw [hpc]
    rintro _ ⟨⟩

/-- The callback begins with a good job. -/
theorem Fits.onJob {good' : MiningJob → Prop} {job : MiningJob}
    {seed : List UInt8} (hfits : Fits good shown rig)
    (hjob : good' (testTarget setup job))
    (hstep : rig.step setup (.onJob job seed) = some rig') :
    Fits good' shown rig' := by
  cases step_stepped hstep with
  | onJob idle pc =>
      have hunset : rig.settingDifficulty = false :=
        not_settingDifficulty (by simp [pc])
      refine .away ?_ ?_ ?_ (hfits.shown_of_not hunset)
      · intro other hpending
        simp only at hpending
        split at hpending <;>
        · obtain rfl := Option.some.inj hpending
          exact hjob
      · simp [idle]
      · intro rekeyed
        simp only
        split <;> simp

/-- The main loop's own calls are made outside the callback. -/
theorem Fits.enters {label : RigLabel threads} (hfits : Fits good shown rig)
    (hcalls : label = .clearWork ∨ label = .stop)
    (hstep : rig.step setup label = some rig') : Fits good shown rig' := by
  rcases hcalls with rfl | rfl
  · cases step_stepped hstep with
    | clearWork pc called =>
        exact hfits.apart (.of_called called (by rintro _ ⟨⟩) (by simp [pc])
          (by rintro _ ⟨⟩) (by rw [pc]))
  · cases step_stepped hstep with
    | stop pc called =>
        exact hfits.apart (.of_called called (by rintro _ ⟨⟩) (by simp [pc])
          (by rintro _ ⟨⟩) (by rw [pc]))

theorem Fits.turned {i : Fin threads.toNat}
    {label : MinerPool.Label threads Hasher} (hfits : Fits good shown rig)
    (hturned : Turned setup rig rig' i label) : Fits good shown rig' :=
  hfits.same hturned.pc hturned.pool.ctl hturned.pool.work

end Rig

/-- The program with its metrics. -/
structure Measured (threads : UInt32) where
  miner : Miner threads
  metrics : RateMetrics

/-- A step of the program, the status line, or a request for the metrics page,
the last two at a clock reading. -/
inductive MeasuredLabel (threads : UInt32) where
  | program (label : LoopLabel threads)
  | status (now : ℚ)
  | scrape (now : ℚ)

namespace Measured

variable {threads : UInt32}

/-- Constructed at the clock reading `now`. -/
def init (setup : Setup) (user pass : String) (now : ℚ) : Measured threads where
  miner := Miner.init setup user pass
  metrics := RateMetrics.init now

/-- What the callbacks make of the metrics in a step of the program. -/
def metricsAfter (text : JsonText) (s : Measured threads) :
    LoopLabel threads → RateMetrics
  | .main =>
      if s.miner.rig.settingDifficulty then
        s.metrics.setDifficulty s.miner.client.difficulty
      else s.metrics
  | .poll due script =>
      match s.miner.client.poll text due script with
      | .ok (_, _, some (.onSubmitResult accepted _), _) =>
          s.metrics.onSubmitResult accepted
      | _ => s.metrics
  | _ => s.metrics

/-- The status line is the main thread's, between two rounds of its loop; the
page is made by the thread of the HTTP server. -/
def step (setup : Setup) (text : JsonText) (format : ℚ → String)
    (s : Measured threads) : MeasuredLabel threads → Option (Measured threads)
  | .program label =>
      (s.miner.step setup text label).map fun miner =>
        { miner := miner, metrics := s.metricsAfter text label }
  | .status now =>
      if s.miner.free ∧ s.miner.pc = .top then
        some { s with metrics := ((s.metrics.setTotalHashes
          s.miner.rig.pool.totalHashes).snapshot now).2 }
      else none
  | .scrape now =>
      some { s with metrics := (s.metrics.prometheus format now).2 }

end Measured

/-- Looking at the metrics changes only the window. -/
theorem RateMetrics.advance_shown (m : RateMetrics) (now : ℚ) :
    (m.advance now).difficulty = m.difficulty ∧
      (m.advance now).hashes = m.hashes := by
  unfold advance
  simp only
  split <;> exact ⟨rfl, rfl⟩

namespace Measured

variable {threads : UInt32} {setup : Setup} {text : JsonText}
  {format : ℚ → String} {s s' : Measured threads} {miner : Miner threads}
  {protocol : Protocol}

theorem metricsAfter_difficulty (text : JsonText) (s : Measured threads)
    {label : LoopLabel threads}
    (hunset : label = .main → s.miner.rig.settingDifficulty = false) :
    (s.metricsAfter text label).difficulty = s.metrics.difficulty := by
  unfold metricsAfter
  split
  · rw [hunset rfl]
    rfl
  · split <;> rfl
  · rfl

theorem metricsAfter_hashes (text : JsonText) (s : Measured threads)
    (label : LoopLabel threads) :
    (s.metricsAfter text label).hashes = s.metrics.hashes := by
  unfold metricsAfter
  split
  · split <;> rfl
  · split <;> rfl
  · rfl

/-- The job in the callback has the difficulty of the client, and the job that
the pool holds has the one shown, or the one about to be. -/
structure Shown (protocol : Protocol) (s : Measured threads) : Prop where
  client : s.miner.client.protocol = protocol
  fits : s.miner.rig.Fits
    (HasDifficulty protocol s.miner.client.difficulty)
    (HasDifficulty protocol s.metrics.difficulty)

theorem hasDifficulty_generationFree (protocol : Protocol) (difficulty : ℚ) :
    MinerPool.GenerationFree (HasDifficulty protocol difficulty) := by
  intro job gen hhas
  cases protocol <;> exact hhas

theorem shares_difficulty {s s' : Miner threads} {i : Fin threads.toNat}
    (hshares : Miner.Shares s s' i) :
    s'.client.difficulty = s.client.difficulty := by
  rcases hshares.client with hsame | ⟨job, nonce, digest, hsubmit⟩
  · rw [hsame]
  · rw [hsubmit]
    exact s.client.submit_difficulty job nonce digest

theorem shares_fits (setup : Setup) {s s' : Miner threads}
    {i : Fin threads.toNat}
    {good shown : MiningJob → Prop} (hfits : s.rig.Fits good shown)
    (hshares : Miner.Shares s s' i) : s'.rig.Fits good shown := by
  rcases hshares.rig with hsame | hstep
  · rw [hsame]
    exact hfits
  · have hturned : Rig.Turned setup s.rig s'.rig i (.worker i) :=
      Rig.workerStep_turned hstep
    exact hfits.turned hturned

/-- The display goes on as it is while the callback has no difficulty to set. -/
theorem shown_of_kept {label : LoopLabel threads}
    (hunset : label = .main → s.miner.rig.settingDifficulty = false)
    (hprotocol : miner.client.protocol = protocol)
    (hfits : miner.rig.Fits (HasDifficulty protocol miner.client.difficulty)
      (HasDifficulty protocol s.metrics.difficulty)) :
    Shown protocol ⟨miner, s.metricsAfter text label⟩ := by
  refine ⟨hprotocol, ?_⟩
  simp only [metricsAfter_difficulty text s hunset]
  exact hfits

/-- With the test option off, a step of the program keeps what is shown
right. -/
theorem Shown.program (htest : setup.testShareDiff ≤ 0)
    {label : LoopLabel threads} (hshown : Shown protocol s)
    (hstep : s.miner.step setup text label = some miner) :
    Shown protocol ⟨miner, s.metricsAfter text label⟩ := by
  have hprotocol := (Miner.step_moved hstep).protocol.trans hshown.client
  have hfits := hshown.fits
  have hapart : s.miner.free = true →
      s.miner.rig.pool.ctl = .idle ∧ s.miner.rig.pc = .idle :=
    fun hfree => of_decide_eq_true hfree
  have hfree : s.miner.free = true →
      s.miner.rig.settingDifficulty = false := by
    intro hfree
    exact Rig.not_settingDifficulty (by simp [(hapart hfree).2])
  cases Miner.step_turn hstep with
  | outside free wire rig protocol =>
      refine shown_of_kept (fun _ => hfree free) hprotocol ?_
      rw [rig]
      exact hfits.outside (hapart free).1 (hapart free).2
  | enters free wire calls taken client =>
      refine shown_of_kept (fun _ => hfree free) hprotocol ?_
      rw [client]
      exact hfits.enters calls taken
  | delivers free wire polled taken =>
      refine shown_of_kept (by rintro ⟨⟩) hprotocol (hfits.onJob ?_ taken)
      rw [Rig.testTarget, if_neg (not_lt.mpr htest), ← hshown.client]
      exact PoolClient.poll_hasDifficulty polled
  | goesOn wire taken client =>
      refine ⟨hprotocol, ?_⟩
      have hmain := hfits.main (hasDifficulty_generationFree _ _)
        (Rig.mainStep_turn taken)
      have hdisplay : HasDifficulty protocol
          (s.metricsAfter text .main).difficulty =
            if s.miner.rig.settingDifficulty then
              HasDifficulty protocol s.miner.client.difficulty
            else HasDifficulty protocol s.metrics.difficulty := by
        unfold metricsAfter
        simp only
        split <;> rfl
      rw [hdisplay, client]
      exact hmain
  | worker apart wire taken client =>
      refine shown_of_kept (by rintro ⟨⟩) hprotocol ?_
      rw [client]
      cases Rig.step_stepped taken with
      | worker turned => exact hfits.turned turned
  | made wire taken client =>
      refine shown_of_kept (by rintro ⟨⟩) hprotocol ?_
      rw [client]
      cases Rig.step_stepped taken with
      | made turned => exact hfits.turned turned
  | hashed wire taken client =>
      refine shown_of_kept (by rintro ⟨⟩) hprotocol ?_
      rw [client]
      cases Rig.step_stepped taken with
      | hashed turned => exact hfits.turned turned
  | submit shares =>
      refine shown_of_kept (by rintro ⟨⟩) hprotocol ?_
      rw [shares_difficulty shares]
      exact shares_fits setup hfits shares
  | send shares =>
      refine shown_of_kept (by rintro ⟨⟩) hprotocol ?_
      rw [shares_difficulty shares]
      exact shares_fits setup hfits shares

theorem Shown.step (htest : setup.testShareDiff ≤ 0)
    {label : MeasuredLabel threads} (hshown : Shown protocol s)
    (hstep : s.step setup text format label = some s') : Shown protocol s' := by
  cases label with
  | program label =>
      obtain ⟨miner, hminer, rfl⟩ := Option.map_eq_some_iff.mp hstep
      exact hshown.program htest hminer
  | status now =>
      simp only [Measured.step] at hstep
      split at hstep
      · obtain rfl := Option.some.inj hstep
        refine ⟨hshown.client, ?_⟩
        have hkept := ((s.metrics.setTotalHashes
          s.miner.rig.pool.totalHashes).advance_shown now).1
        simp only [RateMetrics.snapshot, hkept]
        exact hshown.fits
      · cases hstep
  | scrape now =>
      obtain rfl := Option.some.inj hstep
      refine ⟨hshown.client, ?_⟩
      have hkept := (s.metrics.advance_shown now).1
      simp only [RateMetrics.prometheus, RateMetrics.snapshot, hkept]
      exact hshown.fits

theorem Shown.init (setup : Setup) (user pass : String) (now : ℚ) :
    Shown setup.protocol (init setup user pass now : Measured threads) := by
  refine ⟨PoolClient.make_protocol setup.protocol user pass, ?_⟩
  exact .away (by rintro _ ⟨⟩) (by rintro _ ⟨⟩) (by rintro _ ⟨⟩)
    (by rintro _ ⟨⟩)

/-- The difficulty that is shown is that of the work.  Without the test option,
whatever the order of the program's steps, the status lines and the requests
for the page, a snapshot taken while the pool holds a job shows the difficulty
of that job's target, but between the end of `set_work` and `set_difficulty`,
when the client has it. -/
theorem difficulty_shown {start : ℚ} {user pass : String}
    {labels : List (MeasuredLabel threads)} {p : MinerPool.JobPtr}
    (htest : setup.testShareDiff ≤ 0)
    (hrun : Run (step setup text format) anyLabel
      (init setup user pass start) labels s)
    (hwork : s.miner.rig.pool.work = some p) (now : ℚ) :
    HasDifficulty setup.protocol
      (if s.miner.rig.settingDifficulty then s.miner.client.difficulty
        else (s.metrics.snapshot now).1.difficulty) p.job := by
  have hshown : Shown setup.protocol s :=
    hrun.invariant (fun _ _ _ hinv _ hstep => hinv.step htest hstep)
      (Shown.init setup user pass start)
  have hfits := hshown.fits.work p hwork
  have hkept := (s.metrics.advance_shown now).1
  simp only [RateMetrics.snapshot, hkept]
  split
  · rename_i hset
    rwa [if_pos hset] at hfits
  · rename_i hset
    rwa [if_neg hset] at hfits

/-- The run in which a first job is mined, with a page made at its end. -/
theorem mining_difficulty_shown :
    ∃ s : Measured 1, Run (step stratumSetup minerText
          RateMetrics.exampleFormat) anyLabel (init stratumSetup "u" "x" 0)
        (miningLabels.map .program ++ [.scrape 1]) s ∧
      s.miner.rig.settingDifficulty = false ∧
      ∃ p, s.miner.rig.pool.work = some p ∧
        HasDifficulty .stratum (s.metrics.snapshot 2).1.difficulty p.job := by
  have hreplay : (replay (step stratumSetup minerText
      RateMetrics.exampleFormat) anyLabel (init stratumSetup "u" "x" 0)
      (miningLabels.map .program ++ [.scrape 1])).any (fun s =>
        s.miner.rig.settingDifficulty = false ∧
          s.miner.rig.pool.work.isSome = true) = true := by
    decide +kernel
  obtain ⟨s, hs, hfacts⟩ := (Option.any_eq_true _ _).mp hreplay
  obtain ⟨hunset, hsome⟩ := of_decide_eq_true hfacts
  have hrun := run_of_replay hs
  obtain ⟨p, hp⟩ := Option.isSome_iff_exists.mp hsome
  have hshown := difficulty_shown (le_refl 0) hrun hp 2
  rw [if_neg (by simp [hunset])] at hshown
  exact ⟨s, hrun, hunset, p, hp, hshown⟩

end Measured

namespace MinerPool

variable {threads : UInt32} {H : Type} {s s' : State threads H}

/-- No step takes back a hash. -/
theorem step_completed_le {label : Label threads H}
    (hstep : step s label = some s') : s.completed ≤ s'.completed := by
  have hactor : ∀ i, label.actor = some i → s.completed ≤ s'.completed := by
    intro i hactor
    have hturned := step_turned hactor hstep
    obtain ⟨w, inFlight, event, -, -, -, hlog⟩ := hturned.turn
    rw [State.completed, State.completed, hlog, List.countP_append]
    exact Nat.le_add_left _ _
  cases label with
  | call call =>
      have hsame : s'.completed = s.completed := by
        rw [State.completed, (callStep_called hstep).log]
        rfl
      exact hsame.ge
  | ctl =>
      rw [State.completed, State.completed, (ctlStep_frame hstep).1]
  | worker i => exact hactor i rfl
  | made i hasher => exact hactor i rfl
  | hashed i digest => exact hactor i rfl

/-- The counter has come from hashes computed, as a number without bound. -/
structure Tallied (s : State threads H) : Prop extends Sound s where
  tally : ∃ counted, s.hashes = UInt64.ofNat counted ∧
    counted + s.uncounted = s.completed

theorem Tallied.hashes_le (htallied : Tallied s) :
    s.hashes.toNat ≤ s.completed := by
  obtain ⟨counted, hhashes, htotal⟩ := htallied.tally
  rw [hhashes, UInt64.toNat_ofNat']
  have hmod := Nat.mod_le counted (2 ^ 64)
  omega

theorem Tallied.init : Tallied (init threads H) := by
  refine ⟨Sound.init, 0, rfl, ?_⟩
  have hzero : (MinerPool.init threads H).uncounted = 0 :=
    Finset.sum_eq_zero fun i _ => rfl
  rw [hzero]
  rfl

/-- A worker's step moves hashes from its own count to the counter. -/
theorem Tallied.turned {label : Label threads H} {i : Fin threads.toNat}
    (htallied : Tallied s) (hactor : label.actor = some i)
    (hstep : step s label = some s') : Tallied s' := by
  have hturned := step_turned hactor hstep
  obtain ⟨w, inFlight, event, hturn, hw, -, hlog⟩ := hturned.turn
  obtain ⟨counted, hhashes, htotal⟩ := htallied.tally
  have hcompleted : s'.completed =
      event.toList.countP Event.isHashed + s.completed := by
    rw [State.completed, hlog, List.countP_append]
    rfl
  have hsum : s'.uncounted + _ = s.uncounted + _ :=
    sum_workers_update (fun w => w.pc.uncounted) hturned.others
  have hown := hturn.uncounted
  rw [← hw] at hown
  refine ⟨htallied.toSound.step hstep,
    counted + (s.workers i).pc.accounted, ?_, ?_⟩
  · rw [step_hashes hactor hstep, hhashes, UInt64.ofNat_add]
  · omega

theorem Tallied.step {label : Label threads H} (htallied : Tallied s)
    (hstep : step s label = some s') : Tallied s' := by
  obtain ⟨counted, hhashes, htotal⟩ := htallied.tally
  cases label with
  | call call =>
      have hcalled := callStep_called hstep
      refine ⟨htallied.toSound.step hstep, counted, ?_, ?_⟩
      · rw [callStep_hashes hstep]
        exact hhashes
      · rw [State.uncounted, State.completed, hcalled.workers, hcalled.log]
        exact htotal
  | ctl =>
      obtain ⟨hsame, huncounted⟩ := htallied.toSound.ctl_uncounted hstep
      refine ⟨htallied.toSound.step hstep, counted, hsame.trans hhashes, ?_⟩
      have hkept : s'.uncounted = s.uncounted :=
        Finset.sum_congr rfl fun i _ => huncounted i
      rw [hkept, State.completed, (ctlStep_frame hstep).1]
      exact htotal
  | worker i => exact htallied.turned rfl hstep
  | made i hasher => exact htallied.turned rfl hstep
  | hashed i digest => exact htallied.turned rfl hstep

end MinerPool

namespace Measured

variable {threads : UInt32} {setup : Setup} {text : JsonText}
  {format : ℚ → String} {s s' : Measured threads}

/-- No more hashes are shown than have been computed. -/
structure Modest (s : Measured threads) : Prop where
  tallied : MinerPool.Tallied s.miner.rig.pool
  hashes : s.metrics.hashes.toNat ≤ s.miner.rig.pool.completed

theorem Modest.step {label : MeasuredLabel threads} (hmodest : Modest s)
    (hstep : s.step setup text format label = some s') : Modest s' := by
  cases label with
  | program label =>
      obtain ⟨miner, hminer, rfl⟩ := Option.map_eq_some_iff.mp hstep
      have hshown := hmodest.hashes
      rw [← metricsAfter_hashes text s label] at hshown
      rcases (Miner.step_moved hminer).pool with hsame | ⟨poolLabel, -, htaken⟩
      · constructor
        · rw [hsame]
          exact hmodest.tallied
        · rw [hsame]
          exact hshown
      · exact ⟨hmodest.tallied.step htaken,
          hshown.trans (MinerPool.step_completed_le htaken)⟩
  | status now =>
      simp only [Measured.step] at hstep
      split at hstep
      · obtain rfl := Option.some.inj hstep
        refine ⟨hmodest.tallied, ?_⟩
        have hkept := ((s.metrics.setTotalHashes
          s.miner.rig.pool.totalHashes).advance_shown now).2
        simp only [RateMetrics.snapshot, hkept]
        exact hmodest.tallied.hashes_le
      · cases hstep
  | scrape now =>
      obtain rfl := Option.some.inj hstep
      refine ⟨hmodest.tallied, ?_⟩
      have hkept := (s.metrics.advance_shown now).2
      simp only [RateMetrics.prometheus, RateMetrics.snapshot, hkept]
      exact hmodest.hashes

/-- Whatever the order of the program's steps, the status lines and the requests
for the page, no snapshot shows more hashes than the workers have computed. -/
theorem hashes_shown_le {start : ℚ} {user pass : String}
    {labels : List (MeasuredLabel threads)}
    (hrun : Run (step setup text format) anyLabel
      (init setup user pass start) labels s) (now : ℚ) :
    (s.metrics.snapshot now).1.hashes.toNat ≤ s.miner.rig.pool.completed := by
  have hmodest : Modest s :=
    hrun.invariant (fun _ _ _ hinv _ hstep => hinv.step hstep)
      ⟨MinerPool.Tallied.init, Nat.zero_le _⟩
  have hkept := (s.metrics.advance_shown now).2
  simp only [RateMetrics.snapshot, hkept]
  exact hmodest.hashes

/-- The run in which a first share is submitted, with a page made at its end. -/
theorem sharing_hashes_shown_le :
    ∃ s : Measured 1, Run (step stratumSetup minerText
          RateMetrics.exampleFormat) anyLabel (init stratumSetup "u" "x" 0)
        ((miningLabels ++ sharingLabels).map .program ++
          [.scrape 1]) s ∧
      s.miner.rig.pool.completed = 1 ∧
      (s.metrics.snapshot 2).1.hashes.toNat ≤ 1 := by
  have hreplay : (replay (step stratumSetup minerText
      RateMetrics.exampleFormat) anyLabel (init stratumSetup "u" "x" 0)
      ((miningLabels ++ sharingLabels).map .program ++
        [.scrape 1])).any (fun s => s.miner.rig.pool.completed = 1) = true := by
    decide +kernel
  obtain ⟨s, hs, hone⟩ := (Option.any_eq_true _ _).mp hreplay
  have hrun := run_of_replay hs
  have hone := of_decide_eq_true hone
  have hshown := hashes_shown_le hrun 2
  rw [hone] at hshown
  exact ⟨s, hrun, hone, hshown⟩

end Measured

end Minerby
