/-
Every share under its own job's seed.  `on_job` resumes the workers before it
replaces the job, so between the two a worker can hash the old job with a new
VM.
-/
import Minerby.Rekey

namespace Minerby

open MinerPool (Pc Worker JobPtr Call Ctl Build Event soleWorker)

namespace Rig

variable {threads : UInt32}

/-- The seed in force for the job is the one the context is keyed with. -/
def Keyed (rig : Rig threads) (p : JobPtr) : Prop :=
  rig.seedOf p.serial = rig.ctx.seed

/-- From the start of a re-keying until `set_work` has stored the job of the
new seed. -/
def window (rig : Rig threads) : Bool :=
  rig.pc.held || rig.exposed

/-- Outside the window the jobs that are hashed, or can still be picked up, are
of the current seed, and a worker with an older job has not seen the job
generation.  Inside it nobody is in a chunk, and after `resume` nobody is
committed to a job. -/
structure JobsKeyed (rig : Rig threads) : Prop where
  held : rig.pc.held = true → ∀ i, (rig.pool.workers i).pc.inChunk = false
  exposed : rig.exposed = true → ∀ i, (rig.pool.workers i).pc.committed = false
  holds : rig.window = false ∨ (∃ p, rig.pool.ctl = .settingWork p) →
    rig.pool.HoldsOnly rig.Keyed
  work : rig.window = false → ∀ p, rig.pool.work = some p → rig.Keyed p
  setting : ∀ p, rig.pool.ctl = .settingWork p →
    rig.Keyed p ∧ ∃ rekeyed, rig.pc = .installing rekeyed
  installing : ∀ rekeyed, rig.pc = .installing rekeyed →
    rig.pool.ctl = .idle ∨ ∃ p, rig.pool.ctl = .settingWork p

/-- A job that a worker is committed to has the current seed, unless the
workers are held back. -/
theorem JobsKeyed.committed {rig : Rig threads} (hkeyed : JobsKeyed rig)
    (hfree : rig.pc.held = false) {i : Fin threads.toNat} {p : JobPtr}
    (hcom : (rig.pool.workers i).pc.committed = true)
    (hp : (rig.pool.workers i).work = some p) : rig.Keyed p := by
  cases hexposed : rig.exposed with
  | false =>
      have hwindow : rig.window = false := by simp [window, hfree, hexposed]
      exact (hkeyed.holds (Or.inl hwindow) i).committed p hcom hp
  | true =>
      rw [hkeyed.exposed hexposed i] at hcom
      cases hcom

/-- So has the job of a worker in its chunk. -/
theorem JobsKeyed.hashing {rig : Rig threads} (hkeyed : JobsKeyed rig)
    {i : Fin threads.toNat} {p : JobPtr} {pc : Pc}
    (hpc : (rig.pool.workers i).pc = pc) (hin : pc.inChunk = true)
    (hcom : pc.committed = true) (hp : (rig.pool.workers i).work = some p) :
    rig.Keyed p := by
  cases hheld : rig.pc.held with
  | false => exact hkeyed.committed hheld (by rw [hpc]; exact hcom) hp
  | true =>
      have hout := hkeyed.held hheld i
      rw [hpc, hin] at hout
      cases hout

theorem exposed_of_turned {setup : Setup} {rig rig' : Rig threads}
    {i : Fin threads.toNat} {label : MinerPool.Label threads Hasher}
    (hturned : Turned setup rig rig' i label) :
    rig'.exposed = rig.exposed := by
  unfold exposed
  rw [hturned.pc, hturned.pool.ctl]

theorem window_of_turned {setup : Setup} {rig rig' : Rig threads}
    {i : Fin threads.toNat} {label : MinerPool.Label threads Hasher}
    (hturned : Turned setup rig rig' i label) : rig'.window = rig.window := by
  rw [window, window, hturned.pc, exposed_of_turned hturned]

theorem keyed_of_turned {setup : Setup} {rig rig' : Rig threads}
    {i : Fin threads.toNat} {label : MinerPool.Label threads Hasher}
    (hturned : Turned setup rig rig' i label) : rig'.Keyed = rig.Keyed := by
  funext p
  rw [Keyed, Keyed, hturned.seedOf, hturned.ctx]

/-- Outside the window nobody is held back, nor while `set_work` is about to
store the job. -/
theorem JobsKeyed.free {rig : Rig threads} (hkeyed : JobsKeyed rig)
    (hphase : rig.window = false ∨ ∃ p, rig.pool.ctl = .settingWork p) :
    rig.pc.held = false := by
  rcases hphase with hphase | ⟨p, hctl⟩
  · exact (Bool.or_eq_false_iff.mp hphase).1
  · obtain ⟨-, rekeyed, hpc⟩ := hkeyed.setting p hctl
    rw [hpc]
    rfl

/-- A worker copies a job it can hash only while the job has the current
seed, unless the workers are held back. -/
theorem JobsKeyed.pickup {rig : Rig threads} (hkeyed : JobsKeyed rig)
    (hfree : rig.pc.held = false) {i : Fin threads.toNat} {gen : UInt64}
    {p : JobPtr} (hok : KeepsSeed rig (.worker i))
    (hpc : (rig.pool.workers i).pc = .pickup gen)
    (hp : rig.pool.work = some p)
    (hready : ((rig.pool.workers i).take i gen rig.pool.work).ready = true) :
    rig.Keyed p := by
  simp only [KeepsSeed, hpc] at hok
  cases hexposed : rig.exposed with
  | false => exact hkeyed.work (by simp [window, hfree, hexposed]) p hp
  | true =>
      rw [hok hexposed] at hready
      cases hready

theorem JobsKeyed.turned {setup : Setup} {rig rig' : Rig threads}
    {i : Fin threads.toNat} {label : MinerPool.Label threads Hasher}
    (hkeyed : JobsKeyed rig) (hquiesced : Quiesced rig)
    (hok : label = .worker i → KeepsSeed rig (.worker i))
    (hturned : Turned setup rig rig' i label) : JobsKeyed rig' := by
  have hwindow := window_of_turned hturned
  have hexposed := exposed_of_turned hturned
  have hsame := keyed_of_turned hturned
  obtain ⟨w, inFlight, event, hturn, -, -, -⟩ := hturned.pool.turn
  constructor
  · rw [hturned.pc]
    intro hheld j
    by_cases hj : j = i
    · subst hj
      exact hturned.pool.inChunk_of_paused
        (hquiesced.paused_of_held hheld hturn.born) (hkeyed.held hheld j)
    · rw [hturned.pool.others j hj]
      exact hkeyed.held hheld j
  · rw [hexposed]
    intro hphase j
    by_cases hj : j = i
    · subst hj
      refine hturned.pool.not_committed (hkeyed.exposed hphase j)
        (fun hlabel hpc hgen => ?_) fun gen hlabel hpc => ?_
      · have hguard := hok hlabel
        simp only [KeepsSeed, hpc] at hguard
        exact hguard hphase hgen
      · have hguard := hok hlabel
        simp only [KeepsSeed, hpc] at hguard
        exact hguard hphase
    · rw [hturned.pool.others j hj]
      exact hkeyed.exposed hphase j
  · rw [hwindow, hturned.pool.ctl, hsame]
    intro hphase
    exact (hkeyed.holds hphase).turned hturned.pool
      fun gen p hlabel hpc hp hready =>
        hkeyed.pickup (hkeyed.free hphase) (hok hlabel) hpc hp hready
  · rw [hwindow, hturned.pool.work, hsame]
    exact hkeyed.work
  · rw [hturned.pool.ctl, hturned.pc, hsame]
    exact hkeyed.setting
  · rw [hturned.pool.ctl, hturned.pc]
    exact hkeyed.installing

/-- A step of the main thread that leaves the jobs alone. -/
theorem JobsKeyed.of_frame {rig rig' : Rig threads} (hkeyed : JobsKeyed rig)
    (hworkers : rig'.pool.workers = rig.pool.workers)
    (hwork : rig'.pool.work = rig.pool.work)
    (hgen : rig'.pool.workGen = rig.pool.workGen)
    (hctl : ∀ p, rig'.pool.ctl ≠ .settingWork p)
    (hctx : rig'.ctx = rig.ctx) (hseedOf : rig'.seedOf = rig.seedOf)
    (hpc : ∀ rekeyed, rig'.pc ≠ .installing rekeyed)
    (hheld : rig'.pc.held = rig.pc.held)
    (hexposed : rig'.exposed = rig.exposed) : JobsKeyed rig' := by
  have hwindow : rig'.window = rig.window := by
    rw [window, window, hheld, hexposed]
  have hsame : rig'.Keyed = rig.Keyed := by
    funext p
    rw [Keyed, Keyed, hseedOf, hctx]
  refine ⟨?_, ?_, fun hphase i => ?_, ?_, fun p h => absurd h (hctl p),
    fun rekeyed h => absurd h (hpc rekeyed)⟩
  · rw [hheld, hworkers]
    exact hkeyed.held
  · rw [hexposed, hworkers]
    exact hkeyed.exposed
  · rcases hphase with hphase | ⟨q, hq⟩
    · rw [hsame, hworkers, hgen]
      exact hkeyed.holds (Or.inl (hwindow ▸ hphase)) i
    · exact absurd hq (hctl q)
  · rw [hwindow, hwork, hsame]
    exact hkeyed.work

/-- Entering a call that does not replace the job. -/
theorem JobsKeyed.call {rig rig' : Rig threads} {call : Call}
    (hkeyed : JobsKeyed rig)
    (hcalled : MinerPool.Called rig.pool rig'.pool call)
    (hcall : call.replacesWork = false) (hctx : rig'.ctx = rig.ctx)
    (hseedOf : rig'.seedOf = rig.seedOf)
    (hpc : ∀ rekeyed, rig'.pc ≠ .installing rekeyed)
    (hheld : rig'.pc.held = rig.pc.held)
    (hexposed : rig'.exposed = rig.exposed) : JobsKeyed rig' := by
  refine hkeyed.of_frame hcalled.workers hcalled.work ?_
    (hcalled.ctl_ne_settingWork hcall) hctx hseedOf hpc hheld hexposed
  rw [hcalled.workGen, hcall]
  rfl

/-- Inside the window, before the new job is announced, nothing is asked of
the jobs but that nobody hashes one. -/
theorem JobsKeyed.of_window {rig : Rig threads} (hwindow : rig.window = true)
    (hidle : rig.pool.ctl = .idle)
    (hpc : ∀ rekeyed, rig.pc ≠ .installing rekeyed)
    (hheld : rig.pc.held = true → ∀ i, (rig.pool.workers i).pc.inChunk = false)
    (hexposed : rig.exposed = true →
      ∀ i, (rig.pool.workers i).pc.committed = false) :
    JobsKeyed rig := by
  refine ⟨hheld, hexposed, fun h => ?_, fun h => ?_, fun p h => ?_,
    fun rekeyed h => absurd h (hpc rekeyed)⟩
  · rcases h with h | ⟨p, h⟩
    · rw [hwindow] at h
      cases h
    · rw [hidle] at h
      cases h
  · rw [hwindow] at h
    cases h
  · rw [hidle] at h
    cases h

/-- The job is stored. -/
theorem JobsKeyed.store {rig : Rig threads} {p : JobPtr}
    (hkeyed : JobsKeyed rig) (hctl : rig.pool.ctl = .settingWork p) :
    JobsKeyed { rig with
      pool := { rig.pool with work := some p, ctl := .idle } } := by
  obtain ⟨hp, rekeyed, hpc⟩ := hkeyed.setting p hctl
  refine ⟨fun h => ?_, fun h => ?_,
    fun _ => hkeyed.holds (Or.inr ⟨p, hctl⟩), fun _ q hq => ?_, nofun,
    fun _ _ => Or.inl rfl⟩
  · simp [hpc, OnJobPc.held] at h
  · simp [Rig.exposed, hpc] at h
  · obtain rfl := Option.some.inj hq
    exact hp

/-- Every other step inside a call: threads are created or joined, the job is
kept or dropped. -/
theorem JobsKeyed.ctl {rig : Rig threads}
    {pool : MinerPool.State threads Hasher} (hkeyed : JobsKeyed rig)
    (hbusy : rig.pool.ctl ≠ .idle)
    (hstep : MinerPool.ctlStep rig.pool = some pool) :
    JobsKeyed { rig with pool := pool } := by
  by_cases hset : ∃ p, rig.pool.ctl = .settingWork p
  · obtain ⟨p, hctl⟩ := hset
    simp only [MinerPool.ctlStep, hctl, Option.some.injEq] at hstep
    subst hstep
    exact hkeyed.store hctl
  · obtain ⟨-, -, -, -, -, hworkers⟩ := MinerPool.ctlStep_frame hstep
    obtain ⟨-, hctl, hwork⟩ := MinerPool.ctlStep_work hstep
    have hpc : ∀ rekeyed, rig.pc ≠ .installing rekeyed := by
      intro rekeyed h
      rcases hkeyed.installing rekeyed h with hidle | hsetting
      · exact hbusy hidle
      · exact hset hsetting
    have hexposed : Rig.exposed { rig with pool := pool } = rig.exposed := by
      unfold Rig.exposed
      cases h : rig.pc with
      | installing rekeyed => exact absurd h (hpc rekeyed)
      | _ => rfl
    have hwindow : Rig.window { rig with pool := pool } = rig.window := by
      rw [Rig.window, Rig.window, hexposed]
    refine ⟨fun hphase i => ?_, fun hphase i => ?_, fun hphase => ?_,
      fun hphase p hp => ?_, fun p h => absurd h (hctl p),
      fun rekeyed h => absurd h (hpc rekeyed)⟩
    · change (pool.workers i).pc.inChunk = false
      rcases hworkers i with h | h | ⟨-, h⟩
      · rw [h]
        exact hkeyed.held hphase i
      · rw [h]
        rfl
      · rw [h]
        rfl
    · change (pool.workers i).pc.committed = false
      rcases hworkers i with h | h | ⟨-, h⟩
      · rw [h]
        exact hkeyed.exposed (hexposed ▸ hphase) i
      · rw [h]
        rfl
      · rw [h]
        rfl
    · rcases hphase with hphase | ⟨q, hq⟩
      · exact (hkeyed.holds (Or.inl (hwindow ▸ hphase))).ctl hstep
      · exact absurd hq (hctl q)
    · rcases hwork with h | h | ⟨q, hq, -⟩
      · exact hkeyed.work (hwindow ▸ hphase) p (h ▸ hp)
      · change pool.work = some p at hp
        rw [h] at hp
        cases hp
      · exact absurd ⟨q, hq⟩ hset

/-- A new job is announced, under the seed last delivered. -/
theorem JobsKeyed.setWork {rig : Rig threads}
    {pool : MinerPool.State threads Hasher} {rekeyed : Bool} {job : MiningJob}
    (hkeyed : JobsKeyed rig) (hsound : MinerPool.Sound rig.pool)
    (htracked : SeedsTracked rig) (hok : rig.pool.FreshWorkGen)
    (hpc : rig.pc = .setWork rekeyed job)
    (hcalled : MinerPool.Called rig.pool pool (.setWork job)) :
    JobsKeyed { rig with
      pool := pool
      pc := .installing rekeyed
      seedOf := Function.update rig.seedOf (rig.pool.updates + 1)
        rig.delivered } := by
  -- older jobs keep their seed
  have hold : ∀ p : JobPtr, p.serial ≤ rig.pool.updates →
      Function.update rig.seedOf (rig.pool.updates + 1) rig.delivered p.serial =
        rig.seedOf p.serial := by
    intro p hle
    exact Function.update_of_ne (by omega) _ _
  have hfree : rig.pc.held = false := by
    rw [hpc]
    rfl
  have hexposed : rig.exposed = rekeyed := by
    simp only [Rig.exposed, hpc]
  have hctl : pool.ctl ≠ .idle := by
    rw [hcalled.ctl]
    nofun
  refine ⟨nofun, fun hphase i => ?_, fun _ => ?_, fun hphase p hp => ?_,
    fun p h => ?_, fun _ _ => Or.inr ⟨_, hcalled.ctl⟩⟩
  · simp only [Rig.exposed, Bool.and_eq_true] at hphase
    change (pool.workers i).pc.committed = false
    rw [hcalled.workers]
    exact hkeyed.exposed (hexposed.trans hphase.1) i
  · refine .announce (fun i p hcom hp => ?_) hok hcalled rfl
    exact (hold p (hsound.held_le i p hp)).trans
      (hkeyed.committed hfree hcom hp)
  · simp only [Rig.window, Rig.exposed, OnJobPc.held, hctl, ne_eq,
      not_false_iff, decide_true, Bool.and_true, Bool.false_or] at hphase
    simp only [hcalled.work] at hp
    refine (hold p (hsound.work_le p hp)).trans (hkeyed.work ?_ p hp)
    rw [Rig.window, hfree, hexposed, hphase]
    rfl
  · obtain ⟨-, -, rfl⟩ := hcalled.settingWork h
    refine ⟨?_, rekeyed, rfl⟩
    have hdelivered := htracked.delivered
    rw [hpc] at hdelivered
    exact (Function.update_self _ _ _).trans
      (hdelivered.trans htracked.current)

theorem JobsKeyed.clearWork {rig : Rig threads}
    {pool : MinerPool.State threads Hasher} (hkeyed : JobsKeyed rig)
    (hok : rig.pool.FreshWorkGen) (hpc : rig.pc = .idle)
    (hcalled : MinerPool.Called rig.pool pool .clearWork) :
    JobsKeyed { rig with pool := pool, pc := .idle } := by
  have hwindow : rig.window = false := by
    rw [Rig.window, Rig.exposed, hpc]
    rfl
  have hfree := hkeyed.free (Or.inl hwindow)
  refine ⟨nofun, nofun, fun _ => ?_, fun _ p hp => ?_, fun p h => ?_, nofun⟩
  · exact .announce (fun i p hcom hp => hkeyed.committed hfree hcom hp) hok
      hcalled rfl
  · simp only [hcalled.work] at hp
    exact hkeyed.work hwindow p hp
  · simp only [hcalled.ctl] at h
    cases h

theorem committed_of_outside {pc : Pc} (hout : pc.inChunk = false)
    (hannouncing : pc.announcing = false) : pc.committed = false := by
  cases pc <;> first | rfl | (cases hannouncing; done) | cases hout

theorem JobsKeyed.main {rig rig' : Rig threads} (hkeyed : JobsKeyed rig)
    (hsound : MinerPool.Sound rig.pool) (htracked : SeedsTracked rig)
    (hquiesced : Quiesced rig) (hok : KeepsSeed rig .main)
    (hturn : MainTurn rig rig') : JobsKeyed rig' := by
  cases hturn with
  | ctl busy step => exact hkeyed.ctl busy step
  | wasRunning idle pc running =>
      exact hkeyed.of_frame rfl rfl rfl (by simp [idle]) rfl rfl (by simp)
        (by rw [pc]; rfl) (by simp [Rig.exposed, pc])
  | wasStopped idle pc running =>
      exact hkeyed.of_frame rfl rfl rfl (by simp [idle]) rfl rfl (by simp)
        (by rw [pc]; rfl) (by simp [Rig.exposed, pc])
  | pause pc called =>
      exact hkeyed.call called rfl rfl rfl (by simp) (by rw [pc]; rfl)
        (by simp [Rig.exposed, pc])
  | sameSeed idle pc same =>
      simp only [RandomXContext.has, Bool.and_eq_true, decide_eq_true_eq] at same
      exact absurd (same.2.trans htracked.current.symm)
        (htracked.changed (by rw [pc]; rfl) _ (by rw [pc]; rfl))
  | beginKeying idle pc changed =>
      exact .of_window rfl idle (by simp) (fun _ => hquiesced.outside idle pc)
        (fun h => by cases h)
  | endKeying idle pc =>
      rename_i wasRunning job seed
      cases wasRunning with
      | true =>
          exact .of_window rfl idle (by simp [Rig.keyed])
            (fun _ => hkeyed.held (by rw [pc]; rfl)) (fun h => by cases h)
      | false =>
          have hunborn := (hquiesced.noThreads job seed (Or.inr pc)).2
          refine .of_window rfl idle (by simp [Rig.keyed])
            (fun h => by cases h) fun _ i => ?_
          change (rig.pool.workers i).pc.committed = false
          rw [hunborn i]
          rfl
  | rebuild pc called =>
      exact hkeyed.call called rfl rfl rfl (by simp) (by rw [pc]; rfl)
        (by simp [Rig.exposed, pc])
  | resume pc called =>
      simp only [KeepsSeed, called.idle, pc] at hok
      refine .of_window rfl called.ctl (by simp) (fun h => by cases h)
        fun _ i => ?_
      simp only [called.workers]
      exact committed_of_outside (hkeyed.held (by rw [pc]; rfl) i) (hok i).1
  | running idle pc running =>
      exact hkeyed.of_frame rfl rfl rfl (by simp [idle]) rfl rfl (by simp)
        (by rw [pc]; rfl) (by simp [Rig.exposed, pc])
  | stopped idle pc running =>
      exact hkeyed.of_frame rfl rfl rfl (by simp [idle]) rfl rfl (by simp)
        (by rw [pc]; rfl) (by simp [Rig.exposed, pc])
  | start pc called =>
      exact hkeyed.call called rfl rfl rfl (by simp) (by rw [pc]; rfl)
        (by simp [Rig.exposed, pc])
  | setWork pc called =>
      simp only [KeepsSeed, called.idle, pc] at hok
      exact hkeyed.setWork hsound htracked hok pc called
  | installed idle pc =>
      exact hkeyed.of_frame rfl rfl rfl (by simp [idle]) rfl rfl (by simp)
        (by rw [pc]; rfl) (by simp [Rig.exposed, pc, idle])

theorem JobsKeyed.step {setup : Setup} {rig rig' : Rig threads}
    {label : RigLabel threads} (hkeyed : JobsKeyed rig)
    (hsound : MinerPool.Sound rig.pool) (htracked : SeedsTracked rig)
    (hquiesced : Quiesced rig) (hok : KeepsSeed rig label)
    (hstep : Stepped setup rig label rig') : JobsKeyed rig' := by
  cases hstep with
  | onJob idle pc =>
      rename_i job seed
      refine hkeyed.of_frame rfl rfl rfl (by rw [idle]; nofun) rfl rfl ?_ ?_ ?_
      · intro rekeyed
        simp only
        split <;> nofun
      · rw [pc]
        simp only
        split <;> rfl
      · by_cases hrekey : seed ≠ [] ∧ seed ≠ rig.currentSeed <;>
          simp [Rig.exposed, pc, hrekey]
  | clearWork pc called => exact hkeyed.clearWork hok pc called
  | stop pc called =>
      exact hkeyed.call called rfl rfl rfl nofun (by rw [pc])
        (by simp [Rig.exposed, pc])
  | main turn => exact hkeyed.main hsound htracked hquiesced hok turn
  | worker turned => exact hkeyed.turned hquiesced (fun _ => hok) turned
  | made turned =>
      refine hkeyed.turned hquiesced (fun h => ?_) turned
      cases h
  | hashed turned =>
      refine hkeyed.turned hquiesced (fun h => ?_) turned
      cases h

/-- The digest is the RandomX value of the job's blob with the nonce, under the
seed in force for the job. -/
def RightDigest (setup : Setup) (rig : Rig threads) (p : JobPtr)
    (nonce : UInt32) (digest : Hash256) : Prop :=
  digest = setup.randomx (rig.seedOf p.serial)
    (spliceNonce p.job.blob p.job.nonceOffset nonce)

/-- Shares found and shares reported have the right digest. -/
structure SharesRight (setup : Setup) (rig : Rig threads) : Prop where
  found : ∀ i p done digest, (rig.pool.workers i).pc = .sharing done digest →
    (rig.pool.workers i).work = some p →
    RightDigest setup rig p (rig.pool.workers i).nonce digest
  reported : ∀ i p nonce digest,
    Event.share i p nonce digest ∈ rig.pool.log →
    RightDigest setup rig p nonce digest

/-- The hash of a committed worker with an up-to-date VM. -/
theorem RightDigest.of_computes {setup : Setup} {rig : Rig threads}
    {i : Fin threads.toNat} {done : Nat} {p : JobPtr} {hasher : Hasher}
    {digest : Hash256} (hsound : MinerPool.Sound rig.pool)
    (hfresh : HashersFresh rig) (hkeyed : JobsKeyed rig)
    (hpc : (rig.pool.workers i).pc = .hashing done)
    (hwork : (rig.pool.workers i).work = some p)
    (hhasher : (rig.pool.workers i).hasher = some hasher)
    (hcomputes : rig.Computes setup hasher (rig.pool.workers i).blob digest) :
    RightDigest setup rig p (rig.pool.workers i).nonce digest := by
  have huses := hfresh.inChunk hpc rfl rfl
  obtain rfl := Option.some.inj (hhasher.symm.trans huses)
  have hblob := (hsound.blob i p hwork).spliced (by rw [hpc]; rfl)
  have hseed := hkeyed.hashing hpc rfl rfl hwork
  rw [RightDigest, hseed, ← hblob]
  exact hcomputes rfl

theorem SharesRight.turned {setup : Setup} {rig rig' : Rig threads}
    {i : Fin threads.toNat} {label : MinerPool.Label threads Hasher}
    (hright : SharesRight setup rig) (hsound : MinerPool.Sound rig.pool)
    (hfresh : HashersFresh rig) (hkeyed : JobsKeyed rig)
    (hturned : Turned setup rig rig' i label) : SharesRight setup rig' := by
  have hsame : ∀ p nonce digest, RightDigest setup rig' p nonce digest ↔
      RightDigest setup rig p nonce digest := by
    intro p nonce digest
    rw [RightDigest, RightDigest, hturned.seedOf]
  constructor
  · intro j p done digest hpc hp
    rw [hsame]
    by_cases hj : j = i
    · subst hj
      obtain ⟨w, inFlight, event, hturn, hw, -, -⟩ := hturned.pool.turn
      rw [hw] at hpc hp ⊢
      cases hturn with
      | found done' q digest' hpc' hq hmeets =>
          obtain ⟨rfl, rfl⟩ := Pc.sharing.inj hpc
          obtain rfl := Option.some.inj (hq.symm.trans hp)
          obtain ⟨hasher, hhasher, hcomputes⟩ := hturned.hashed digest' rfl
          exact .of_computes hsound hfresh hkeyed hpc' hq hhasher hcomputes
      | keepWork hpc' same =>
          have htry := (rig.pool.workers j).afterCheck_trying
          rw [hpc] at htry
          cases htry
      | pickup gen hpc' =>
          have htry :=
            ((rig.pool.workers j).take j gen rig.pool.work).afterCheck_trying
          rw [hpc] at htry
          cases htry
      | next done' hpc' =>
          have htry := (rig.pool.workers j).advance_trying threads done'
          rw [hpc] at htry
          cases htry
      | share done' q digest' hpc' hq =>
          have htry := (rig.pool.workers j).advance_trying threads done'
          rw [hpc] at htry
          cases htry
      | _ => cases hpc
    · rw [hturned.pool.others j hj] at hpc hp ⊢
      exact hright.found j p done digest hpc hp
  · intro j p nonce digest hmem
    rw [hsame]
    rcases hturned.pool.share_mem hmem with hold | ⟨-, -, hp, rfl, done, hpc⟩
    · exact hright.reported j p nonce digest hold
    · exact hright.found i p done digest hpc hp

/-- A step of the main thread: no share is found or reported, and jobs keep
their seeds. -/
theorem SharesRight.of_frame {setup : Setup} {rig rig' : Rig threads}
    (hright : SharesRight setup rig)
    (hworkers : ∀ i, rig'.pool.workers i = rig.pool.workers i ∨
      (rig'.pool.workers i).work = none)
    (hlog : ∀ i p nonce digest, Event.share i p nonce digest ∈ rig'.pool.log →
      Event.share i p nonce digest ∈ rig.pool.log)
    (hheld : ∀ i p, (rig.pool.workers i).work = some p →
      rig'.seedOf p.serial = rig.seedOf p.serial)
    (hshared : ∀ i p nonce digest, Event.share i p nonce digest ∈ rig.pool.log →
      rig'.seedOf p.serial = rig.seedOf p.serial) :
    SharesRight setup rig' := by
  constructor
  · intro i p done digest hpc hp
    rcases hworkers i with h | h
    · rw [h] at hpc hp ⊢
      rw [RightDigest, hheld i p hp]
      exact hright.found i p done digest hpc hp
    · rw [h] at hp
      cases hp
  · intro i p nonce digest hmem
    have hold := hlog i p nonce digest hmem
    rw [RightDigest, hshared i p nonce digest hold]
    exact hright.reported i p nonce digest hold

theorem SharesRight.call {setup : Setup} {rig rig' : Rig threads} {call : Call}
    (hright : SharesRight setup rig)
    (hcalled : MinerPool.Called rig.pool rig'.pool call)
    (hheld : ∀ i p, (rig.pool.workers i).work = some p →
      rig'.seedOf p.serial = rig.seedOf p.serial)
    (hshared : ∀ i p nonce digest, Event.share i p nonce digest ∈ rig.pool.log →
      rig'.seedOf p.serial = rig.seedOf p.serial) :
    SharesRight setup rig' := by
  refine hright.of_frame (fun i => Or.inl ?_) (fun i p nonce digest hmem => ?_)
    hheld hshared
  · rw [hcalled.workers]
  · rw [hcalled.log] at hmem
    rcases List.mem_cons.mp hmem with h | h
    · cases h
    · exact h

theorem SharesRight.main {setup : Setup} {rig rig' : Rig threads}
    (hright : SharesRight setup rig) (hsound : MinerPool.Sound rig.pool)
    (hturn : MainTurn rig rig') : SharesRight setup rig' := by
  have hsame : ∀ {call : Call} {pool : MinerPool.State threads Hasher}
      {pc : OnJobPc}, MinerPool.Called rig.pool pool call →
      SharesRight setup { rig with pool := pool, pc := pc } := by
    intro call pool pc called
    exact hright.call called (fun _ _ _ => rfl) fun _ _ _ _ _ => rfl
  cases hturn with
  | ctl busy step =>
      obtain ⟨hlog, -, -, -, -, hworkers⟩ := MinerPool.ctlStep_frame step
      refine hright.of_frame (fun i => ?_) (fun i p nonce digest hmem => ?_)
        (fun _ _ _ => rfl) fun _ _ _ _ _ => rfl
      · rcases hworkers i with h | h | ⟨-, h⟩
        · exact Or.inl h
        · exact Or.inr (congrArg Worker.work h)
        · exact Or.inr (congrArg Worker.work h)
      · exact hlog ▸ hmem
  | pause pc called => exact hsame called
  | rebuild pc called => exact hsame called
  | resume pc called => exact hsame called
  | start pc called => exact hsame called
  | setWork pc called =>
      -- the new job's number is above every number in use
      refine hright.call called (fun i p hp => ?_) fun i p nonce digest hmem => ?_
      · have hle := hsound.held_le i p hp
        exact Function.update_of_ne (by omega) _ _
      · have hle := hsound.share_le i p nonce digest hmem
        exact Function.update_of_ne (by omega) _ _
  | _ =>
      exact hright.of_frame (fun _ => Or.inl rfl) (fun _ _ _ _ h => h)
        (fun _ _ _ => rfl) fun _ _ _ _ _ => rfl

theorem SharesRight.step {setup : Setup} {rig rig' : Rig threads}
    {label : RigLabel threads} (hright : SharesRight setup rig)
    (hsound : MinerPool.Sound rig.pool) (hfresh : HashersFresh rig)
    (hkeyed : JobsKeyed rig) (hstep : Stepped setup rig label rig') :
    SharesRight setup rig' := by
  cases hstep with
  | onJob idle pc =>
      exact hright.of_frame (fun _ => Or.inl rfl) (fun _ _ _ _ h => h)
        (fun _ _ _ => rfl) fun _ _ _ _ _ => rfl
  | clearWork pc called =>
      exact hright.call called (fun _ _ _ => rfl) fun _ _ _ _ _ => rfl
  | stop pc called =>
      exact hright.call called (fun _ _ _ => rfl) fun _ _ _ _ _ => rfl
  | main turn => exact hright.main hsound turn
  | worker turned => exact hright.turned hsound hfresh hkeyed turned
  | made turned => exact hright.turned hsound hfresh hkeyed turned
  | hashed turned => exact hright.turned hsound hfresh hkeyed turned

/-- The whole invariant of the mining side under the guard. -/
structure SeedKept (setup : Setup) (rig : Rig threads) : Prop where
  sound : MinerPool.Sound rig.pool
  tracked : SeedsTracked rig
  quiesced : Quiesced rig
  fresh : HashersFresh rig
  keyed : JobsKeyed rig
  right : SharesRight setup rig

theorem SeedKept.step {setup : Setup} {rig rig' : Rig threads}
    {label : RigLabel threads} (hmonero : setup.protocol = .monero)
    (hkept : SeedKept setup rig) (hok : KeepsSeed rig label)
    (hstep : rig.step setup label = some rig') : SeedKept setup rig' := by
  have hstepped := step_stepped hstep
  exact ⟨hstepped.sound hkept.sound, hkept.tracked.step hstepped,
    hkept.quiesced.step hkept.sound hstepped,
    hkept.fresh.step hkept.tracked hkept.quiesced hmonero hok hstepped,
    hkept.keyed.step hkept.sound hkept.tracked hkept.quiesced hok hstepped,
    hkept.right.step hkept.sound hkept.fresh hkept.keyed hstepped⟩

theorem SeedKept.init (setup : Setup) :
    SeedKept setup ({} : Rig threads) := by
  refine ⟨MinerPool.Sound.init, ⟨rfl, rfl, nofun⟩, ⟨nofun, nofun, nofun⟩,
    ⟨nofun, nofun, nofun, nofun, nofun⟩,
    ⟨nofun, nofun, fun _ _ => .of_work_none rfl, nofun, nofun, nofun⟩,
    ⟨nofun, nofun⟩⟩

/-- In monero mode, in every run whose steps keep the seed, every share
reported has the RandomX value of its own job's blob under its own job's
seed. -/
theorem share_digest_eq_randomx (setup : Setup)
    (hmonero : setup.protocol = .monero) {labels : List (RigLabel threads)}
    {rig : Rig threads}
    (hrun : Run (Rig.step setup) KeepsSeed ({} : Rig threads) labels rig) :
    ∀ i p nonce digest, Event.share i p nonce digest ∈ rig.pool.log →
      digest = setup.randomx (rig.seedOf p.serial)
        (spliceNonce p.job.blob p.job.nonceOffset nonce) := by
  have hkept : SeedKept setup rig :=
    hrun.invariant
      (fun _ _ _ hinv hok hstep => SeedKept.step hmonero hinv hok hstep)
      (SeedKept.init setup)
  exact hkept.right.reported

/-- A RandomX function whose value shows the seed. -/
def seedShown : Setup :=
  { protocol := .monero, randomx := fun seed _ => Hash256.fill (seed.headD 0) }

/-- A job every digest is a share of. -/
def easyJob (jobId : String) : MiningJob :=
  { blob := [0, 0, 0, 0], target := Hash256.fill 0xff, jobId := jobId }

/-- The pointer to such a job from the `n`-th `set_work` call. -/
def easyPtr (n : Nat) (jobId : String) : JobPtr :=
  ⟨n, { easyJob jobId with generation := UInt64.ofNat n }⟩

def mainTurns (count : Nat) : List (RigLabel 1) := List.replicate count .main

def workerTurns (count : Nat) : List (RigLabel 1) :=
  List.replicate count (.worker soleWorker)

/-- One hash that is a share, reported. -/
def shareTurns (seed : UInt8) : List (RigLabel 1) :=
  [.worker soleWorker, .hashed soleWorker (Hash256.fill seed),
    .worker soleWorker]

/-- The first job arrives under seed 1, and the worker scans one chunk of it
and comes back to the top of its loop. -/
def firstSeedLabels : List (RigLabel 1) :=
  .onJob (easyJob "a") [1] :: mainTurns 10 ++
    (.worker soleWorker :: .made soleWorker :: workerTurns 8) ++
    (List.replicate 16 (shareTurns 1)).flatten ++ workerTurns 2

/-- From the top of the loop through a new VM and the job check to a share
under seed 2. -/
def newHasherTurns (count : Nat) : List (RigLabel 1) :=
  workerTurns 3 ++ .made soleWorker :: workerTurns count ++ shareTurns 2

/-- The second job arrives under seed 2 and the worker waits until it is
stored. -/
def rekeyLabels : List (RigLabel 1) :=
  firstSeedLabels ++ .onJob (easyJob "b") [2] :: mainTurns 12 ++
    newHasherTurns 5

/-- The second job arrives under seed 2 and the worker goes on as soon as
`resume` lets it, before `set_work`. -/
def resumedLabels : List (RigLabel 1) :=
  firstSeedLabels ++ .onJob (easyJob "b") [2] :: mainTurns 9 ++
    newHasherTurns 4

/-- A re-keying of the kind above, with shares under both seeds. -/
theorem rekeyed_digests :
    ∃ rig : Rig 1, Run (Rig.step seedShown) KeepsSeed {} rekeyLabels rig ∧
      Event.share soleWorker (easyPtr 1 "a") 15 (Hash256.fill 1) ∈
        rig.pool.log ∧
      Event.share soleWorker (easyPtr 2 "b") 0 (Hash256.fill 2) ∈
        rig.pool.log ∧
      ∀ i p nonce digest, Event.share i p nonce digest ∈ rig.pool.log →
        digest = seedShown.randomx (rig.seedOf p.serial)
          (spliceNonce p.job.blob p.job.nonceOffset nonce) := by
  have hreplay : (replay (Rig.step seedShown) KeepsSeed {} rekeyLabels).any
      (fun rig =>
        decide (Event.share soleWorker (easyPtr 1 "a") 15 (Hash256.fill 1) ∈
          rig.pool.log) &&
        decide (Event.share soleWorker (easyPtr 2 "b") 0 (Hash256.fill 2) ∈
          rig.pool.log)) = true := by
    decide +kernel
  obtain ⟨rig, hrig, hshares⟩ := (Option.any_eq_true _ _).mp hreplay
  simp only [Bool.and_eq_true, decide_eq_true_eq] at hshares
  have hrun := run_of_replay hrig
  exact ⟨rig, hrun, hshares.1, hshares.2,
    share_digest_eq_randomx seedShown rfl hrun⟩

/-- A share of the old job is reported with its hash under the new seed. -/
theorem old_job_under_new_seed :
    ∃ rig : Rig 1, Run (Rig.step seedShown) anyLabel {} resumedLabels rig ∧
      ∃ i p nonce digest, Event.share i p nonce digest ∈ rig.pool.log ∧
        digest ≠ seedShown.randomx (rig.seedOf p.serial)
          (spliceNonce p.job.blob p.job.nonceOffset nonce) := by
  have hreplay : (replay (Rig.step seedShown) anyLabel {} resumedLabels).any
      (fun rig =>
        decide (Event.share soleWorker (easyPtr 1 "a") 16 (Hash256.fill 2) ∈
          rig.pool.log) &&
        decide (rig.seedOf 1 = [1])) = true := by
    decide +kernel
  obtain ⟨rig, hrig, hshare⟩ := (Option.any_eq_true _ _).mp hreplay
  simp only [Bool.and_eq_true, decide_eq_true_eq] at hshare
  refine ⟨rig, run_of_replay hrig, soleWorker, easyPtr 1 "a", 16,
    Hash256.fill 2, hshare.1, ?_⟩
  change _ ≠ seedShown.randomx (rig.seedOf 1) _
  rw [hshare.2]
  decide

end Rig

end Minerby
