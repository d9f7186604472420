/-
Re-keying the RandomX context.  `pause` waits until no worker is in a chunk,
and a new hasher generation makes the workers build new VMs, but a worker that
has passed its first test of `paused_` and not yet announced itself, or is
still building a VM, is not waited for.
-/
import Minerby.Rig
import Minerby.HeldJobs
import Minerby.HasherRebuild

namespace Minerby

open MinerPool (Pc Worker JobPtr Call Ctl Build)

/-- Past the job check with a job, and not yet past the second test of
`paused_`. -/
def MinerPool.Pc.announcing : Pc → Bool
  | .enter => true
  | .recheck => true
  | _ => false

/-- In the loop, with the hasher check still to come. -/
def MinerPool.Pc.looping : Pc → Bool
  | .head => true
  | .checkPaused => true
  | .checkHasherGen => true
  | .abort => true
  | .leave _ => true
  | .account _ => true
  | _ => false

namespace OnJobPc

/-- From the start of a re-keying until the hasher generation is raised. -/
def stale : OnJobPc → Bool
  | .keying _ _ _ => true
  | .rebuild _ => true
  | _ => false

/-- From the start of a re-keying until `resume`, with the workers held
back. -/
def held : OnJobPc → Bool
  | .keying _ _ _ => true
  | .rebuild _ => true
  | .resume _ => true
  | _ => false

def isKeying : OnJobPc → Bool
  | .keying _ _ _ => true
  | _ => false

theorem held_of_stale {pc : OnJobPc} (hstale : pc.stale = true) :
    pc.held = true := by
  cases pc <;> first | rfl | cases hstale

/-- From the return of `pause` to `resume`, and inside `pause`. -/
def paused : OnJobPc → Bool
  | .ensureSeed true _ _ => true
  | .keying true _ _ => true
  | .rebuild _ => true
  | .resume _ => true
  | _ => false

/-- The seed delivered and not yet current. -/
def pendingSeed : OnJobPc → Option (List UInt8)
  | .loadRunning _ seed => some seed
  | .pause _ seed => some seed
  | .ensureSeed _ _ seed => some seed
  | .keying _ _ seed => some seed
  | _ => none

end OnJobPc

namespace Rig

variable {threads : UInt32}

/-- From `resume` until `set_work` has stored the job of the new seed. -/
def exposed (rig : Rig threads) : Bool :=
  match rig.pc with
  | .checkRunning rekeyed _ => rekeyed
  | .start rekeyed _ => rekeyed
  | .setWork rekeyed _ => rekeyed
  | .installing rekeyed => rekeyed && decide (rig.pool.ctl ≠ .idle)
  | _ => false

/-- The steps that keep every share under its job's seed.  A re-keying starts
while no worker is building a hasher, and none begins to build one meanwhile;
at `resume` a worker between its two tests of `paused_` has not passed its job
check with a job and, if it is past its hasher check, has built a hasher since;
from then until the job of the new seed is stored no worker passes the job
check with a job; and the 64-bit generations do not come round to a value still
held. -/
def KeepsSeed (rig : Rig threads) : RigLabel threads → Prop
  | .main =>
      match rig.pool.ctl, rig.pc with
      | .idle, .ensureSeed _ _ _ =>
          ∀ i, (rig.pool.workers i).pc.building = false
      | .idle, .rebuild _ => rig.pool.FreshHasherGen
      | .idle, .resume _ => ∀ i,
          (rig.pool.workers i).pc.announcing = false ∧
          ((rig.pool.workers i).pc.pastCheck = true →
            (rig.pool.workers i).localHasherGen = rig.pool.hasherGen)
      | .idle, .setWork _ _ => rig.pool.FreshWorkGen
      | _, _ => True
  | .clearWork => rig.pool.FreshWorkGen
  | .worker i =>
      match (rig.pool.workers i).pc with
      | .boot => rig.ctx.keying = false
      | .checkHasherGen => rig.ctx.keying = true →
          rig.pool.hasherGen = (rig.pool.workers i).localHasherGen
      | .loadWorkGen => rig.exposed = true →
          rig.pool.workGen = (rig.pool.workers i).localWorkGen →
          (rig.pool.workers i).ready = false
      | .pickup gen => rig.exposed = true →
          ((rig.pool.workers i).take i gen rig.pool.work).ready = false
      | _ => True
  | _ => True

instance (rig : Rig threads) (label : RigLabel threads) :
    Decidable (KeepsSeed rig label) := by
  unfold KeepsSeed
  split
  · split <;> infer_instance
  · infer_instance
  · split <;> infer_instance
  · infer_instance

/-- The seeds the main thread keeps agree. -/
structure SeedsTracked (rig : Rig threads) : Prop where
  current : rig.currentSeed = rig.ctx.seed
  delivered : rig.delivered = rig.pc.pendingSeed.getD rig.currentSeed
  changed : rig.pc.stale = false → ∀ seed, rig.pc.pendingSeed = some seed →
    seed ≠ rig.currentSeed

/-- A step of the callback that changes no seed. -/
theorem SeedsTracked.of_pc {rig rig' : Rig threads} (htracked : SeedsTracked rig)
    (hcurrent : rig'.currentSeed = rig.currentSeed) (hctx : rig'.ctx = rig.ctx)
    (hdelivered : rig'.delivered = rig.delivered)
    (hpending : rig'.pc.pendingSeed = rig.pc.pendingSeed)
    (hstale : rig.pc.pendingSeed.isSome = true → rig.pc.stale = false) :
    SeedsTracked rig' := by
  refine ⟨?_, ?_, fun _ seed hseed => ?_⟩
  · rw [hcurrent, hctx]
    exact htracked.current
  · rw [hdelivered, hpending, hcurrent]
    exact htracked.delivered
  · rw [hpending] at hseed
    rw [hcurrent]
    exact htracked.changed (hstale (by rw [hseed]; rfl)) seed hseed

theorem SeedsTracked.main {rig rig' : Rig threads} (htracked : SeedsTracked rig)
    (hturn : MainTurn rig rig') : SeedsTracked rig' := by
  have hdelivered := htracked.delivered
  cases hturn with
  | ctl busy step => exact ⟨htracked.current, hdelivered, htracked.changed⟩
  | sameSeed idle pc same =>
      rename_i wasRunning job seed
      simp only [RandomXContext.has, Bool.and_eq_true, decide_eq_true_eq] at same
      rw [pc] at hdelivered
      cases wasRunning <;> exact ⟨same.2, hdelivered, nofun⟩
  | beginKeying idle pc changed =>
      rw [pc] at hdelivered
      exact ⟨htracked.current, hdelivered, nofun⟩
  | endKeying idle pc =>
      rename_i wasRunning job seed
      rw [pc] at hdelivered
      cases wasRunning <;> exact ⟨rfl, hdelivered, nofun⟩
  | wasRunning idle pc running =>
      exact htracked.of_pc rfl rfl rfl (by rw [pc]; rfl) fun _ => by rw [pc]; rfl
  | wasStopped idle pc running =>
      exact htracked.of_pc rfl rfl rfl (by rw [pc]; rfl) fun _ => by rw [pc]; rfl
  | pause pc called =>
      exact htracked.of_pc rfl rfl rfl (by rw [pc]; rfl) fun _ => by rw [pc]; rfl
  | rebuild pc called =>
      exact htracked.of_pc rfl rfl rfl (by rw [pc]; rfl) (by rw [pc]; nofun)
  | resume pc called =>
      exact htracked.of_pc rfl rfl rfl (by rw [pc]; rfl) (by rw [pc]; nofun)
  | running idle pc running =>
      exact htracked.of_pc rfl rfl rfl (by rw [pc]; rfl) (by rw [pc]; nofun)
  | stopped idle pc running =>
      exact htracked.of_pc rfl rfl rfl (by rw [pc]; rfl) (by rw [pc]; nofun)
  | start pc called =>
      exact htracked.of_pc rfl rfl rfl (by rw [pc]; rfl) (by rw [pc]; nofun)
  | setWork pc called =>
      exact htracked.of_pc rfl rfl rfl (by rw [pc]; rfl) (by rw [pc]; nofun)
  | installed idle pc =>
      exact htracked.of_pc rfl rfl rfl (by rw [pc]; rfl) (by rw [pc]; nofun)

theorem SeedsTracked.step {setup : Setup} {rig rig' : Rig threads}
    {label : RigLabel threads} (htracked : SeedsTracked rig)
    (hstep : Stepped setup rig label rig') : SeedsTracked rig' := by
  have hworker : ∀ {i : Fin threads.toNat}
      {label : MinerPool.Label threads Hasher},
      Turned setup rig rig' i label → SeedsTracked rig' := by
    intro i label hturned
    refine ⟨?_, ?_, ?_⟩
    · rw [hturned.currentSeed, hturned.ctx]
      exact htracked.current
    · rw [hturned.delivered, hturned.pc, hturned.currentSeed]
      exact htracked.delivered
    · rw [hturned.pc, hturned.currentSeed]
      exact htracked.changed
  have hdelivered := htracked.delivered
  cases hstep with
  | onJob idle pc =>
      rename_i job seed
      rw [pc] at hdelivered
      change rig.delivered = rig.currentSeed at hdelivered
      by_cases hrekey : seed ≠ [] ∧ seed ≠ rig.currentSeed
      · simp only [hrekey, ne_eq, not_false_iff, and_self, ↓reduceIte]
        refine ⟨htracked.current, rfl, fun _ seed' hseed' => ?_⟩
        obtain rfl := Option.some.inj hseed'
        exact hrekey.2
      · simp only [hrekey, ↓reduceIte]
        refine ⟨htracked.current, ?_, nofun⟩
        change (if seed = [] then rig.delivered else seed) = rig.currentSeed
        split
        · exact hdelivered
        · rename_i hempty
          by_contra hne
          exact hrekey ⟨hempty, hne⟩
  | clearWork pc called =>
      exact htracked.of_pc rfl rfl rfl (by rw [pc]) (by rw [pc]; nofun)
  | stop pc called =>
      exact htracked.of_pc rfl rfl rfl (by rw [pc]) (by rw [pc]; nofun)
  | main turn => exact htracked.main turn
  | worker turned => exact hworker turned
  | made turned => exact hworker turned
  | hashed turned => exact hworker turned

/-- The handshake of `pause`: with no pool running there are no threads, and
once `pause` has returned no worker is in a chunk. -/
structure Quiesced (rig : Rig threads) : Prop where
  noThreads : ∀ job seed, rig.pc = .ensureSeed false job seed ∨
    rig.pc = .keying false job seed →
    rig.pool.ctl = .idle ∧ ∀ i, (rig.pool.workers i).pc = .unborn
  pausing : ∀ job seed, rig.pc = .pause job seed → rig.pool.running = true
  drained : rig.pc.paused = true →
    rig.pool.running = true ∧ rig.pool.paused = true ∧
      (rig.pool.ctl = .pausing ∨ rig.pool.ctl = .draining ∨
        rig.pool.ctl = .idle ∧ ∀ i, (rig.pool.workers i).pc.inChunk = false)

theorem Quiesced.turned {setup : Setup} {rig rig' : Rig threads}
    {i : Fin threads.toNat} {label : MinerPool.Label threads Hasher}
    (hquiesced : Quiesced rig) (hturned : Turned setup rig rig' i label) :
    Quiesced rig' := by
  have hmove := hturned.pool
  refine ⟨fun job seed hpc => ?_, fun job seed hpc => ?_, fun hpc => ?_⟩
  · rw [hturned.pc] at hpc
    obtain ⟨hidle, hunborn⟩ := hquiesced.noThreads job seed hpc
    obtain ⟨w, inFlight, event, hturn, -, -, -⟩ := hmove.turn
    exact absurd (hunborn i) hturn.born
  · rw [hturned.pc] at hpc
    rw [hmove.running]
    exact hquiesced.pausing job seed hpc
  · rw [hturned.pc] at hpc
    obtain ⟨hrunning, hpaused, hctl⟩ := hquiesced.drained hpc
    rw [hmove.running, hmove.paused, hmove.ctl]
    refine ⟨hrunning, hpaused, ?_⟩
    rcases hctl with h | h | ⟨h, hout⟩
    · exact Or.inl h
    · exact Or.inr (Or.inl h)
    · refine Or.inr (Or.inr ⟨h, fun j => ?_⟩)
      by_cases hj : j = i
      · subst hj
        exact hmove.inChunk_of_paused hpaused (hout j)
      · rw [hmove.others j hj]
        exact hout j

/-- The wait of `pause`, to its end. -/
theorem Quiesced.ctl {rig : Rig threads}
    {pool : MinerPool.State threads Hasher} (hquiesced : Quiesced rig)
    (hsound : MinerPool.Sound rig.pool) (hbusy : rig.pool.ctl ≠ .idle)
    (hstep : MinerPool.ctlStep rig.pool = some pool) :
    Quiesced { rig with pool := pool } := by
  refine ⟨fun job seed hpc => ?_, fun job seed hpc => ?_, fun hpc => ?_⟩
  · exact absurd (hquiesced.noThreads job seed hpc).1 hbusy
  · obtain ⟨-, -, -, -, hrunning, -⟩ := MinerPool.ctlStep_frame hstep
    rw [hrunning]
    exact hquiesced.pausing job seed hpc
  · obtain ⟨hrunning, hpaused, hctl⟩ := hquiesced.drained hpc
    cases MinerPool.ctlStep_turn hstep with
    | drain ctl running => exact ⟨hrunning, hpaused, Or.inr (Or.inl rfl)⟩
    | drained ctl zero =>
        exact ⟨hrunning, hpaused, Or.inr (Or.inr ⟨rfl, fun i =>
          MinerPool.inChunk_of_announced (hsound.none_announced zero i)⟩)⟩
    | wait ctl busy => exact ⟨hrunning, hpaused, Or.inr (Or.inl ctl)⟩
    | _ => simp_all

/-- Once `pause` has returned, what it has established lasts until `resume`. -/
theorem Quiesced.drained_idle {rig : Rig threads} (hquiesced : Quiesced rig)
    (hpaused : rig.pc.paused = true) (hidle : rig.pool.ctl = .idle) :
    rig.pool.running = true ∧ rig.pool.paused = true ∧
      ∀ i, (rig.pool.workers i).pc.inChunk = false := by
  obtain ⟨hrunning, hpaused, hctl⟩ := hquiesced.drained hpaused
  refine ⟨hrunning, hpaused, ?_⟩
  rcases hctl with h | h | ⟨-, hout⟩
  · rw [hidle] at h
    cases h
  · rw [hidle] at h
    cases h
  · exact hout

/-- When `ensure_seed` is called no worker is in a chunk. -/
theorem Quiesced.outside {rig : Rig threads} {wasRunning : Bool}
    {job : MiningJob} {seed : List UInt8} (hquiesced : Quiesced rig)
    (hidle : rig.pool.ctl = .idle) (hpc : rig.pc = .ensureSeed wasRunning job seed)
    (i : Fin threads.toNat) : (rig.pool.workers i).pc.inChunk = false := by
  cases wasRunning with
  | false =>
      rw [(hquiesced.noThreads job seed (Or.inl hpc)).2 i]
      rfl
  | true => exact (hquiesced.drained_idle (by rw [hpc]; rfl) hidle).2.2 i

theorem Quiesced.main {rig rig' : Rig threads} (hquiesced : Quiesced rig)
    (hsound : MinerPool.Sound rig.pool) (hturn : MainTurn rig rig') :
    Quiesced rig' := by
  cases hturn with
  | ctl busy step => exact hquiesced.ctl hsound busy step
  | wasRunning idle pc running => exact ⟨nofun, fun _ _ _ => running, nofun⟩
  | wasStopped idle pc running =>
      refine ⟨fun job seed _ => ⟨idle, ?_⟩, nofun, nofun⟩
      rcases hsound.stopped running with h | h | h
      · rw [idle] at h
        cases h
      · rw [idle] at h
        cases h
      · exact h
  | pause pc called =>
      refine ⟨nofun, nofun, fun _ => ⟨?_, called.paused, Or.inl called.ctl⟩⟩
      rw [called.running]
      exact hquiesced.pausing _ _ pc
  | sameSeed idle pc same =>
      rename_i wasRunning job seed
      cases wasRunning with
      | false => exact ⟨nofun, nofun, nofun⟩
      | true =>
          exact ⟨nofun, nofun, fun _ => hquiesced.drained (by rw [pc]; rfl)⟩
  | beginKeying idle pc changed =>
      rename_i wasRunning job seed
      cases wasRunning with
      | false =>
          exact ⟨fun _ _ _ => hquiesced.noThreads job seed (Or.inl pc), nofun,
            nofun⟩
      | true =>
          exact ⟨nofun, nofun, fun _ => hquiesced.drained (by rw [pc]; rfl)⟩
  | endKeying idle pc =>
      rename_i wasRunning job seed
      cases wasRunning with
      | false => exact ⟨nofun, nofun, nofun⟩
      | true =>
          exact ⟨nofun, nofun, fun _ => hquiesced.drained (by rw [pc]; rfl)⟩
  | rebuild pc called =>
      obtain ⟨hrunning, hpaused, hout⟩ :=
        hquiesced.drained_idle (by rw [pc]; rfl) called.idle
      refine ⟨nofun, nofun, fun _ => ⟨?_, ?_, Or.inr (Or.inr ⟨called.ctl, ?_⟩)⟩⟩
      · rw [called.running]
        exact hrunning
      · rw [called.paused]
        exact hpaused
      · rw [called.workers]
        exact hout
  | _ => exact ⟨nofun, nofun, nofun⟩

theorem Quiesced.step {setup : Setup} {rig rig' : Rig threads}
    {label : RigLabel threads} (hquiesced : Quiesced rig)
    (hsound : MinerPool.Sound rig.pool) (hstep : Stepped setup rig label rig') :
    Quiesced rig' := by
  cases hstep with
  | onJob idle pc =>
      rename_i job seed
      by_cases hrekey : seed ≠ [] ∧ seed ≠ rig.currentSeed
      · simp only [hrekey, ne_eq, not_false_iff, and_self, ↓reduceIte]
        exact ⟨nofun, nofun, nofun⟩
      · simp only [hrekey, ↓reduceIte]
        exact ⟨nofun, nofun, nofun⟩
  | clearWork pc called => exact ⟨nofun, nofun, nofun⟩
  | stop pc called => exact ⟨nofun, nofun, nofun⟩
  | main turn => exact hquiesced.main hsound turn
  | worker turned => exact hquiesced.turned turned
  | made turned => exact hquiesced.turned turned
  | hashed turned => exact hquiesced.turned turned

/-- The hasher was made under the seed the context has now. -/
def FreshHasher (rig : Rig threads) (i : Fin threads.toNat) : Prop :=
  (rig.pool.workers i).hasher = some (.randomx (some rig.ctx.epoch))

/-- A worker that has passed its hasher check with an old hasher while the
workers are held back, and will find that it is paused. -/
def OldHasher (rig : Rig threads) (w : Worker Hasher) : Prop :=
  rig.pc.held = true ∧ w.pc.pastCheck = true ∧
    (rig.pc.stale = false → w.localHasherGen ≠ rig.pool.hasherGen)

/-- Every hasher that can hash is up to date, and so is every one being built;
a worker in the loop with an old one has not seen the hasher generation. -/
structure HashersFresh (rig : Rig threads) : Prop where
  keying : rig.ctx.keying = true → rig.pc.isKeying = true
  making : ∀ i build, (rig.pool.workers i).pc = .making build →
    (rig.built i).keying = false ∧ (rig.built i).epoch = rig.ctx.epoch
  loading : ∀ i build, (rig.pool.workers i).pc = .loadHasherGen build →
    rig.FreshHasher i
  inUse : ∀ i, (rig.pool.workers i).pc.usesHasher = true →
    rig.FreshHasher i ∨ rig.OldHasher (rig.pool.workers i)
  looping : rig.pc.stale = false → ∀ i, (rig.pool.workers i).pc.looping = true →
    rig.FreshHasher i ∨
      (rig.pool.workers i).localHasherGen ≠ rig.pool.hasherGen

/-- While the workers are held back the pool is paused. -/
theorem Quiesced.paused_of_held {rig : Rig threads} (hquiesced : Quiesced rig)
    (hheld : rig.pc.held = true) {i : Fin threads.toNat}
    (hborn : (rig.pool.workers i).pc ≠ .unborn) : rig.pool.paused = true := by
  cases hpc : rig.pc with
  | keying wasRunning job seed =>
      cases wasRunning with
      | false =>
          exact absurd ((hquiesced.noThreads job seed (Or.inr hpc)).2 i) hborn
      | true => exact (hquiesced.drained (by rw [hpc]; rfl)).2.1
  | rebuild job => exact (hquiesced.drained (by rw [hpc]; rfl)).2.1
  | resume job => exact (hquiesced.drained (by rw [hpc]; rfl)).2.1
  | _ =>
      rw [hpc] at hheld
      cases hheld

/-- A worker that is hashing has an up-to-date hasher. -/
theorem HashersFresh.inChunk {rig : Rig threads} (hfresh : HashersFresh rig)
    {i : Fin threads.toNat} {pc : Pc} (hpc : (rig.pool.workers i).pc = pc)
    (huses : pc.usesHasher = true) (hpast : pc.pastCheck = false) :
    rig.FreshHasher i := by
  rcases hfresh.inUse i (by rw [hpc]; exact huses) with h | ⟨-, h, -⟩
  · exact h
  · rw [hpc, hpast] at h
    cases h

/-- What a worker's own turn does to its hasher. -/
structure HasherTurn (rig rig' : Rig threads) (i : Fin threads.toNat) :
    Prop where
  making : ∀ build, (rig'.pool.workers i).pc = .making build →
    (rig'.built i).keying = false ∧ (rig'.built i).epoch = rig.ctx.epoch
  loading : ∀ build, (rig'.pool.workers i).pc = .loadHasherGen build →
    (rig'.pool.workers i).hasher = some (.randomx (some rig.ctx.epoch))
  inUse : (rig'.pool.workers i).pc.usesHasher = true →
    (rig'.pool.workers i).hasher = some (.randomx (some rig.ctx.epoch)) ∨
      rig.OldHasher (rig'.pool.workers i)
  looping : rig.pc.stale = false → (rig'.pool.workers i).pc.looping = true →
    (rig'.pool.workers i).hasher = some (.randomx (some rig.ctx.epoch)) ∨
      (rig'.pool.workers i).localHasherGen ≠ rig.pool.hasherGen

/-- A worker whose hasher is up to date. -/
theorem HasherTurn.of_fresh {rig rig' : Rig threads} {i : Fin threads.toNat}
    {w : Worker Hasher} (hw : rig'.pool.workers i = w)
    (hfresh : w.hasher = some (.randomx (some rig.ctx.epoch)))
    (hmaking : w.pc.isMaking = false) : HasherTurn rig rig' i := by
  subst hw
  refine ⟨fun build hpc => ?_, fun _ _ => hfresh, fun _ => Or.inl hfresh,
    fun _ _ => Or.inl hfresh⟩
  rw [hpc] at hmaking
  cases hmaking

/-- A worker that begins to build a hasher. -/
theorem HasherTurn.of_making {rig rig' : Rig threads} {i : Fin threads.toNat}
    {w : Worker Hasher} {build : Build} (hw : rig'.pool.workers i = w)
    (hpc : w.pc = .making build)
    (hbuilt : (rig'.built i).keying = false ∧
      (rig'.built i).epoch = rig.ctx.epoch) : HasherTurn rig rig' i := by
  subst hw
  refine ⟨fun _ _ => hbuilt, fun build' h => ?_, fun h => ?_, fun _ h => ?_⟩
  · rw [hpc] at h
    cases h
  · rw [hpc] at h
    cases h
  · rw [hpc] at h
    cases h

/-- A worker that goes on in the loop with the hasher it has. -/
theorem HasherTurn.of_looping {rig rig' : Rig threads} {i : Fin threads.toNat}
    {w : Worker Hasher} (hfresh : HashersFresh rig)
    (hw : rig'.pool.workers i = w)
    (hlooping : (rig.pool.workers i).pc.looping = true)
    (hhasher : w.hasher = (rig.pool.workers i).hasher)
    (hgen : w.localHasherGen = (rig.pool.workers i).localHasherGen)
    (hpc : w.pc.isMaking = false ∧ w.pc.usesHasher = false ∧
      ∀ build, w.pc ≠ .loadHasherGen build) :
    HasherTurn rig rig' i := by
  subst hw
  refine ⟨fun build hmaking => ?_, fun build h => absurd h (hpc.2.2 build),
    fun huses => ?_, fun hstale _ => ?_⟩
  · rw [hmaking] at hpc
    cases hpc.1
  · rw [hpc.2.1] at huses
    cases huses
  · rw [hhasher, hgen]
    exact hfresh.looping hstale i hlooping

theorem usesHasher_of_pastCheck {pc : Pc} (hpast : pc.pastCheck = true) :
    pc.usesHasher = true := by
  cases pc <;> first | rfl | cases hpast

theorem pastCheck_of_usesHasher {pc : Pc}
    (hpc : (pc.pastCheck || pc.looping) = true)
    (huses : pc.usesHasher = true) : pc.pastCheck = true := by
  cases pc <;> first | rfl | (cases huses; done) | cases hpc

/-- A worker that goes on between its hasher check and its second test of
`paused_`, or back to the loop, with the hasher it has. -/
theorem HasherTurn.of_past {rig rig' : Rig threads} {i : Fin threads.toNat}
    {w : Worker Hasher} (hfresh : HashersFresh rig)
    (hw : rig'.pool.workers i = w)
    (hpast : (rig.pool.workers i).pc.pastCheck = true)
    (hhasher : w.hasher = (rig.pool.workers i).hasher)
    (hgen : w.localHasherGen = (rig.pool.workers i).localHasherGen)
    (hpc : (w.pc.pastCheck || w.pc.looping) = true) :
    HasherTurn rig rig' i := by
  subst hw
  have huses := usesHasher_of_pastCheck hpast
  refine ⟨fun build h => ?_, fun build h => ?_, fun h => ?_, fun hstale _ => ?_⟩
  · rw [h] at hpc
    cases hpc
  · rw [h] at hpc
    cases hpc
  · have hstill := pastCheck_of_usesHasher hpc h
    rcases hfresh.inUse i huses with hnew | ⟨hheld, -, hnot⟩
    · exact Or.inl (hhasher.trans hnew)
    · exact Or.inr ⟨hheld, hstill, fun hstale => hgen ▸ hnot hstale⟩
  · rcases hfresh.inUse i huses with hnew | ⟨-, -, hnot⟩
    · exact Or.inl (hhasher.trans hnew)
    · exact Or.inr (hgen ▸ hnot hstale)

theorem HashersFresh.hasherTurn {setup : Setup} {rig rig' : Rig threads}
    {i : Fin threads.toNat} {label : MinerPool.Label threads Hasher}
    (hfresh : HashersFresh rig) (hquiesced : Quiesced rig)
    (hmonero : setup.protocol = .monero)
    (hok : label = .worker i → KeepsSeed rig (.worker i))
    (hturned : Turned setup rig rig' i label) : HasherTurn rig rig' i := by
  obtain ⟨w, inFlight, event, hturn, hw, -, -⟩ := hturned.pool.turn
  -- a worker in its chunk goes on with an up-to-date hasher
  have hgoOn : ∀ {pc : Pc}, (rig.pool.workers i).pc = pc →
      pc.usesHasher = true → pc.pastCheck = false →
      w.hasher = (rig.pool.workers i).hasher → w.pc.isMaking = false →
      HasherTurn rig rig' i := by
    intro pc hpc huses hpast hhasher hmaking
    exact .of_fresh hw (hhasher.trans (hfresh.inChunk hpc huses hpast)) hmaking
  cases hturn with
  | boot hpc =>
      have hkeying := hok rfl
      simp only [KeepsSeed, hpc] at hkeying
      have hbegun := hturned.begun .boot (by rw [hw])
      refine .of_making hw rfl ?_
      rw [hbegun]
      exact ⟨hkeying, rfl⟩
  | made build hasher hpc =>
      obtain ⟨hkeying, hepoch⟩ := hfresh.making i build hpc
      have hmade := hturned.made hasher rfl
      simp only [makeHasher, hmonero, hkeying, hepoch, and_self, ↓reduceIte]
        at hmade
      split at hmade
      · obtain rfl := Option.some.inj hmade
        exact .of_fresh hw rfl rfl
      · cases hmade
  | booted hpc => exact .of_fresh hw (hfresh.loading i .boot hpc) rfl
  | rebuilt hpc => exact .of_fresh hw (hfresh.loading i .rebuild hpc) rfl
  | loop hpc running =>
      exact .of_looping hfresh hw (by rw [hpc]; rfl) rfl rfl ⟨rfl, rfl, nofun⟩
  | exit hpc running =>
      exact .of_looping hfresh hw (by rw [hpc]; rfl) rfl rfl ⟨rfl, rfl, nofun⟩
  | rest hpc paused =>
      exact .of_looping hfresh hw (by rw [hpc]; rfl) rfl rfl ⟨rfl, rfl, nofun⟩
  | proceed hpc paused =>
      exact .of_looping hfresh hw (by rw [hpc]; rfl) rfl rfl ⟨rfl, rfl, nofun⟩
  | rebuild hpc stale =>
      have hseen := hok rfl
      simp only [KeepsSeed, hpc] at hseen
      have hbegun := hturned.begun .rebuild (by rw [hw])
      refine .of_making hw rfl ?_
      rw [hbegun]
      exact ⟨by simpa using mt hseen stale, rfl⟩
  | keepHasher hpc same =>
      -- the hasher is new, or there is no new generation to see yet
      refine ⟨fun build h => ?_, fun build h => ?_, fun _ => ?_, fun _ h => ?_⟩
      · rw [hw] at h
        cases h
      · rw [hw] at h
        cases h
      · rw [hw]
        cases hstale : rig.pc.stale with
        | true =>
            exact Or.inr ⟨OnJobPc.held_of_stale hstale, rfl, by rw [hstale]; nofun⟩
        | false =>
            rcases hfresh.looping hstale i (by rw [hpc]; rfl) with h | h
            · exact Or.inl h
            · exact absurd same.symm h
      · rw [hw] at h
        cases h
  | seeGen hpc stale =>
      exact .of_past hfresh hw (by rw [hpc]; rfl) rfl rfl rfl
  | keepWork hpc same =>
      refine .of_past hfresh hw (by rw [hpc]; rfl) rfl rfl ?_
      exact (rig.pool.workers i).test_afterCheck
        (fun pc => pc.pastCheck || pc.looping) rfl rfl
  | pickup gen hpc =>
      refine .of_past hfresh hw (by rw [hpc]; rfl) ?_ ?_ ?_
      · cases rig.pool.work <;> rfl
      · cases rig.pool.work <;> rfl
      · exact ((rig.pool.workers i).take i gen rig.pool.work).test_afterCheck
          (fun pc => pc.pastCheck || pc.looping) rfl rfl
  | enter hpc => exact .of_past hfresh hw (by rw [hpc]; rfl) rfl rfl rfl
  | turnBack hpc paused =>
      exact .of_past hfresh hw (by rw [hpc]; rfl) rfl rfl rfl
  | goOn hpc paused =>
      refine .of_fresh hw ?_ rfl
      rcases hfresh.inUse i (by rw [hpc]; rfl) with h | ⟨hheld, -, -⟩
      · exact h
      · rw [hquiesced.paused_of_held hheld (by rw [hpc]; nofun)] at paused
        cases paused
  | abort hpc =>
      exact .of_looping hfresh hw (by rw [hpc]; rfl) rfl rfl ⟨rfl, rfl, nofun⟩
  | hash done p hpc hwork => exact hgoOn hpc rfl rfl rfl rfl
  | found done p digest hpc hwork hmeets => exact hgoOn hpc rfl rfl rfl rfl
  | missed done p digest hpc hwork hmeets => exact hgoOn hpc rfl rfl rfl rfl
  | next done hpc =>
      refine hgoOn hpc rfl rfl rfl ?_
      exact (rig.pool.workers i).test_advance threads done Pc.isMaking rfl rfl
  | share done p digest hpc hwork =>
      refine hgoOn hpc rfl rfl rfl ?_
      exact (rig.pool.workers i).test_advance threads done Pc.isMaking rfl rfl
  | leave done hpc =>
      exact .of_looping hfresh hw (by rw [hpc]; rfl) rfl rfl ⟨rfl, rfl, nofun⟩
  | account done hpc =>
      exact .of_looping hfresh hw (by rw [hpc]; rfl) rfl rfl ⟨rfl, rfl, nofun⟩

theorem HashersFresh.turned {setup : Setup} {rig rig' : Rig threads}
    {i : Fin threads.toNat} {label : MinerPool.Label threads Hasher}
    (hfresh : HashersFresh rig) (hquiesced : Quiesced rig)
    (hmonero : setup.protocol = .monero)
    (hok : label = .worker i → KeepsSeed rig (.worker i))
    (hturned : Turned setup rig rig' i label) : HashersFresh rig' := by
  have hturn := hfresh.hasherTurn hquiesced hmonero hok hturned
  have hothers := hturned.pool.others
  have hold : rig'.OldHasher = rig.OldHasher := by
    funext w
    rw [OldHasher, OldHasher, hturned.pc, hturned.pool.hasherGen]
  constructor
  · rw [hturned.ctx, hturned.pc]
    exact hfresh.keying
  · intro j build hpc
    rw [hturned.ctx]
    by_cases hj : j = i
    · subst hj
      exact hturn.making build hpc
    · rw [hothers j hj] at hpc
      rw [hturned.built_others j hj]
      exact hfresh.making j build hpc
  · intro j build hpc
    rw [FreshHasher, hturned.ctx]
    by_cases hj : j = i
    · subst hj
      exact hturn.loading build hpc
    · rw [hothers j hj] at hpc ⊢
      exact hfresh.loading j build hpc
  · intro j huses
    rw [FreshHasher, hturned.ctx, hold]
    by_cases hj : j = i
    · subst hj
      exact hturn.inUse huses
    · rw [hothers j hj] at huses ⊢
      exact hfresh.inUse j huses
  · intro hstale j hlooping
    rw [FreshHasher, hturned.ctx, hturned.pool.hasherGen]
    rw [hturned.pc] at hstale
    by_cases hj : j = i
    · subst hj
      exact hturn.looping hstale hlooping
    · rw [hothers j hj] at hlooping ⊢
      exact hfresh.looping hstale j hlooping

/-- A step that leaves the hashers alone and at most creates or joins
threads. -/
theorem HashersFresh.of_frame {rig rig' : Rig threads}
    (hfresh : HashersFresh rig) (hctx : rig'.ctx = rig.ctx)
    (hbuilt : rig'.built = rig.built)
    (hgen : rig'.pool.hasherGen = rig.pool.hasherGen)
    (hstale : rig'.pc.stale = rig.pc.stale)
    (hheld : rig'.pc.held = rig.pc.held)
    (hkeying : rig'.pc.isKeying = rig.pc.isKeying)
    (hworkers : ∀ i, rig'.pool.workers i = rig.pool.workers i ∨
      (rig'.pool.workers i).pc = .boot ∨ (rig'.pool.workers i).pc = .unborn) :
    HashersFresh rig' := by
  have hsame : ∀ i, (rig'.pool.workers i).pc ≠ .boot →
      (rig'.pool.workers i).pc ≠ .unborn →
      rig'.pool.workers i = rig.pool.workers i := by
    intro i hboot hunborn
    rcases hworkers i with h | h | h
    · exact h
    · exact absurd h hboot
    · exact absurd h hunborn
  have hold : rig'.OldHasher = rig.OldHasher := by
    funext w
    rw [OldHasher, OldHasher, hheld, hstale, hgen]
  constructor
  · rw [hctx, hkeying]
    exact hfresh.keying
  · intro i build hpc
    rw [hsame i (by rw [hpc]; nofun) (by rw [hpc]; nofun)] at hpc
    rw [hbuilt, hctx]
    exact hfresh.making i build hpc
  · intro i build hpc
    have h := hsame i (by rw [hpc]; nofun) (by rw [hpc]; nofun)
    rw [h] at hpc
    rw [FreshHasher, h, hctx]
    exact hfresh.loading i build hpc
  · intro i huses
    have h := hsame i (fun h => by rw [h] at huses; cases huses)
      (fun h => by rw [h] at huses; cases huses)
    rw [h] at huses
    rw [FreshHasher, h, hctx, hold]
    exact hfresh.inUse i huses
  · intro hnot i hlooping
    have h := hsame i (fun h => by rw [h] at hlooping; cases hlooping)
      (fun h => by rw [h] at hlooping; cases hlooping)
    rw [h] at hlooping
    rw [FreshHasher, h, hctx, hgen]
    exact hfresh.looping (hstale ▸ hnot) i hlooping

/-- Entering any call but `rebuild_hashers`, at a point that `resume` does not
change. -/
theorem HashersFresh.call {rig rig' : Rig threads} {call : Call}
    (hfresh : HashersFresh rig)
    (hcalled : MinerPool.Called rig.pool rig'.pool call)
    (hcall : call ≠ .rebuildHashers) (hctx : rig'.ctx = rig.ctx)
    (hbuilt : rig'.built = rig.built) (hstale : rig'.pc.stale = rig.pc.stale)
    (hheld : rig'.pc.held = rig.pc.held)
    (hkeying : rig'.pc.isKeying = rig.pc.isKeying) : HashersFresh rig' := by
  refine hfresh.of_frame hctx hbuilt ?_ hstale hheld hkeying fun i => Or.inl ?_
  · rw [hcalled.hasherGen, if_neg hcall]
  · rw [hcalled.workers]

theorem pastCheck_of_outside {pc : Pc} (hout : pc.inChunk = false)
    (huses : pc.usesHasher = true) : pc.pastCheck = true := by
  cases pc <;> first | rfl | (cases hout; done) | cases huses

theorem inLoop_of_pastCheck {pc : Pc} (hpast : pc.pastCheck = true) :
    pc.inLoop = true := by
  cases pc <;> first | rfl | cases hpast

theorem inLoop_of_looping {pc : Pc} (hlooping : pc.looping = true) :
    pc.inLoop = true := by
  cases pc <;> first | rfl | cases hlooping

/-- With nobody in a chunk and nobody building, a re-keying makes every hasher
an old one. -/
theorem HashersFresh.beginKeying {rig : Rig threads} {wasRunning : Bool}
    {job : MiningJob} {seed : List UInt8}
    (hout : ∀ i, (rig.pool.workers i).pc.inChunk = false)
    (hbuilding : ∀ i, (rig.pool.workers i).pc.building = false) :
    HashersFresh { rig with
      ctx := rig.ctx.beginKeying
      pc := .keying wasRunning job seed } := by
  refine ⟨fun _ => rfl, fun i build hpc => ?_, fun i build hpc => ?_,
    fun i huses => ?_, nofun⟩
  · have h := hbuilding i
    rw [show (rig.pool.workers i).pc = .making build from hpc] at h
    cases h
  · have h := hbuilding i
    rw [show (rig.pool.workers i).pc = .loadHasherGen build from hpc] at h
    cases h
  · exact Or.inr ⟨rfl, pastCheck_of_outside (hout i) huses, nofun⟩

/-- `rebuild_hashers` tells the old hashers apart by their generation. -/
theorem HashersFresh.raise {rig : Rig threads}
    {pool : MinerPool.State threads Hasher} {job : MiningJob}
    (hfresh : HashersFresh rig) (hok : rig.pool.FreshHasherGen)
    (hpc : rig.pc = .rebuild job)
    (hcalled : MinerPool.Called rig.pool pool .rebuildHashers) :
    HashersFresh { rig with pool := pool, pc := .resume job } := by
  have hgen : pool.hasherGen = rig.pool.hasherGen + 1 := by
    rw [hcalled.hasherGen, if_pos rfl]
  refine ⟨fun h => ?_, ?_, ?_, fun i huses => ?_, fun _ i hlooping => ?_⟩
  · have hkeying := hfresh.keying h
    rw [hpc] at hkeying
    cases hkeying
  · simp only [hcalled.workers]
    exact hfresh.making
  · simp only [FreshHasher, hcalled.workers]
    exact hfresh.loading
  · simp only [hcalled.workers] at huses
    simp only [FreshHasher, OldHasher, hcalled.workers, hgen]
    rcases hfresh.inUse i huses with h | ⟨-, hpast, -⟩
    · exact Or.inl h
    · exact Or.inr ⟨rfl, hpast, fun _ => hok i (inLoop_of_pastCheck hpast)⟩
  · simp only [hcalled.workers] at hlooping
    simp only [hcalled.workers, hgen]
    exact Or.inr (hok i (inLoop_of_looping hlooping))

/-- At `resume` no worker past its hasher check has an old hasher. -/
theorem HashersFresh.resume {rig : Rig threads}
    {pool : MinerPool.State threads Hasher} {job : MiningJob}
    (hfresh : HashersFresh rig)
    (hseen : ∀ i, (rig.pool.workers i).pc.pastCheck = true →
      (rig.pool.workers i).localHasherGen = rig.pool.hasherGen)
    (hpc : rig.pc = .resume job)
    (hcalled : MinerPool.Called rig.pool pool .resume) :
    HashersFresh { rig with pool := pool, pc := .checkRunning true job } := by
  have hgen : pool.hasherGen = rig.pool.hasherGen := by
    rw [hcalled.hasherGen, if_neg nofun]
  have hstale : rig.pc.stale = false := by rw [hpc]; rfl
  refine ⟨fun h => ?_, ?_, ?_, fun i huses => ?_, fun _ i hlooping => ?_⟩
  · have hkeying := hfresh.keying h
    rw [hpc] at hkeying
    cases hkeying
  · simp only [hcalled.workers]
    exact hfresh.making
  · simp only [FreshHasher, hcalled.workers]
    exact hfresh.loading
  · simp only [hcalled.workers] at huses
    simp only [FreshHasher, hcalled.workers]
    rcases hfresh.inUse i huses with h | ⟨-, hpast, hnot⟩
    · exact Or.inl h
    · exact absurd (hseen i hpast) (hnot hstale)
  · simp only [hcalled.workers] at hlooping
    simp only [FreshHasher, hcalled.workers, hgen]
    exact hfresh.looping hstale i hlooping

/-- The context is keyed: in a pool that is held back nothing changes for the
hashers, and in one without threads there are none. -/
theorem HashersFresh.endKeying {rig : Rig threads} {wasRunning : Bool}
    {job : MiningJob} {seed : List UInt8} (hfresh : HashersFresh rig)
    (hquiesced : Quiesced rig) (hpc : rig.pc = .keying wasRunning job seed) :
    HashersFresh ({ rig with ctx := rig.ctx.endKeying seed }.keyed wasRunning job
      seed) := by
  cases wasRunning with
  | true =>
      refine ⟨nofun, hfresh.making, hfresh.loading, fun i huses => ?_, nofun⟩
      rcases hfresh.inUse i huses with h | ⟨-, hpast, -⟩
      · exact Or.inl h
      · exact Or.inr ⟨rfl, hpast, nofun⟩
  | false =>
      have hunborn := (hquiesced.noThreads job seed (Or.inr hpc)).2
      refine ⟨nofun, hfresh.making, hfresh.loading, fun i huses => ?_,
        fun _ i hlooping => ?_⟩
      · change (rig.pool.workers i).pc.usesHasher = true at huses
        rw [hunborn i] at huses
        cases huses
      · change (rig.pool.workers i).pc.looping = true at hlooping
        rw [hunborn i] at hlooping
        cases hlooping

theorem HashersFresh.main {rig rig' : Rig threads} (hfresh : HashersFresh rig)
    (htracked : SeedsTracked rig) (hquiesced : Quiesced rig)
    (hok : KeepsSeed rig .main) (hturn : MainTurn rig rig') :
    HashersFresh rig' := by
  cases hturn with
  | ctl busy step =>
      obtain ⟨-, -, -, hgen, -, hworkers⟩ := MinerPool.ctlStep_frame step
      refine hfresh.of_frame rfl rfl hgen rfl rfl rfl fun i => ?_
      rcases hworkers i with h | h | ⟨-, h⟩
      · exact Or.inl h
      · exact Or.inr (Or.inl (congrArg Worker.pc h))
      · exact Or.inr (Or.inr (congrArg Worker.pc h))
  | wasRunning idle pc running =>
      exact hfresh.of_frame rfl rfl rfl (by rw [pc]; rfl) (by rw [pc]; rfl)
        (by rw [pc]; rfl) fun _ => Or.inl rfl
  | wasStopped idle pc running =>
      exact hfresh.of_frame rfl rfl rfl (by rw [pc]; rfl) (by rw [pc]; rfl)
        (by rw [pc]; rfl) fun _ => Or.inl rfl
  | pause pc called =>
      exact hfresh.call called nofun rfl rfl (by rw [pc]; rfl) (by rw [pc]; rfl)
        (by rw [pc]; rfl)
  | sameSeed idle pc same =>
      simp only [RandomXContext.has, Bool.and_eq_true, decide_eq_true_eq] at same
      exact absurd (same.2.trans htracked.current.symm)
        (htracked.changed (by rw [pc]; rfl) _ (by rw [pc]; rfl))
  | beginKeying idle pc changed =>
      simp only [KeepsSeed, idle, pc] at hok
      exact .beginKeying (hquiesced.outside idle pc) hok
  | endKeying idle pc => exact hfresh.endKeying hquiesced pc
  | rebuild pc called =>
      simp only [KeepsSeed, called.idle, pc] at hok
      exact hfresh.raise hok pc called
  | resume pc called =>
      simp only [KeepsSeed, called.idle, pc] at hok
      exact hfresh.resume (fun i => (hok i).2) pc called
  | running idle pc running =>
      exact hfresh.of_frame rfl rfl rfl (by rw [pc]; rfl) (by rw [pc]; rfl)
        (by rw [pc]; rfl) fun _ => Or.inl rfl
  | stopped idle pc running =>
      exact hfresh.of_frame rfl rfl rfl (by rw [pc]; rfl) (by rw [pc]; rfl)
        (by rw [pc]; rfl) fun _ => Or.inl rfl
  | start pc called =>
      exact hfresh.call called nofun rfl rfl (by rw [pc]; rfl) (by rw [pc]; rfl)
        (by rw [pc]; rfl)
  | setWork pc called =>
      exact hfresh.call called nofun rfl rfl (by rw [pc]; rfl) (by rw [pc]; rfl)
        (by rw [pc]; rfl)
  | installed idle pc =>
      exact hfresh.of_frame rfl rfl rfl (by rw [pc]; rfl) (by rw [pc]; rfl)
        (by rw [pc]; rfl) fun _ => Or.inl rfl

theorem HashersFresh.step {setup : Setup} {rig rig' : Rig threads}
    {label : RigLabel threads} (hfresh : HashersFresh rig)
    (htracked : SeedsTracked rig) (hquiesced : Quiesced rig)
    (hmonero : setup.protocol = .monero) (hok : KeepsSeed rig label)
    (hstep : Stepped setup rig label rig') : HashersFresh rig' := by
  cases hstep with
  | onJob idle pc =>
      refine hfresh.of_frame rfl rfl rfl ?_ ?_ ?_ fun _ => Or.inl rfl <;>
      · rw [pc]
        simp only
        split <;> rfl
  | clearWork pc called =>
      exact hfresh.call called nofun rfl rfl (by rw [pc]) (by rw [pc])
        (by rw [pc])
  | stop pc called =>
      exact hfresh.call called nofun rfl rfl (by rw [pc]) (by rw [pc])
        (by rw [pc])
  | main turn => exact hfresh.main htracked hquiesced hok turn
  | worker turned => exact hfresh.turned hquiesced hmonero (fun _ => hok) turned
  | made turned =>
      refine hfresh.turned hquiesced hmonero (fun h => ?_) turned
      cases h
  | hashed turned =>
      refine hfresh.turned hquiesced hmonero (fun h => ?_) turned
      cases h

end Rig

end Minerby
