/-
Whether the RandomX context has a seed when a worker builds a hasher.  `on_job`
re-keys only for a seed that is not empty and changed, and starts the pool in
any case; the hasher's constructor throws in the worker's thread.
-/
import Minerby.Rig

namespace Minerby

open MinerPool (Pc Build Call Ctl)

/-- After the branch on the seed. -/
def OnJobPc.pastSeed : OnJobPc → Bool
  | .rebuild _ => true
  | .resume _ => true
  | .checkRunning _ _ => true
  | .start _ _ => true
  | .setWork _ _ => true
  | .installing _ => true
  | _ => false

namespace Rig

variable {threads : UInt32}

/-- A job that arrives before the context has a seed brings one. -/
def BringsSeed (rig : Rig threads) : RigLabel threads → Prop
  | .onJob _ seed => rig.ctx.seeded = true ∨ seed ≠ []
  | _ => True

instance (rig : Rig threads) (label : RigLabel threads) :
    Decidable (BringsSeed rig label) :=
  match label with
  | .onJob _ seed =>
      inferInstanceAs (Decidable (rig.ctx.seeded = true ∨ seed ≠ []))
  | .clearWork => .isTrue trivial
  | .stop => .isTrue trivial
  | .main => .isTrue trivial
  | .worker _ => .isTrue trivial
  | .made _ => .isTrue trivial
  | .hashed _ _ => .isTrue trivial

/-- The context is seeded before anything that needs it. -/
structure SeededFirst (rig : Rig threads) : Prop where
  current : rig.currentSeed ≠ [] → rig.ctx.seeded = true
  past : rig.pc.pastSeed = true → rig.ctx.seeded = true
  running : rig.pool.running = true → rig.ctx.seeded = true
  born : ∀ i, (rig.pool.workers i).pc ≠ .unborn → rig.ctx.seeded = true
  built : ∀ i build, (rig.pool.workers i).pc = .making build →
    (rig.built i).seeded = true

theorem SeededFirst.init : SeededFirst ({} : Rig threads) :=
  ⟨fun h => absurd rfl h, by rintro ⟨⟩, by rintro ⟨⟩, fun _ h => absurd rfl h,
    by rintro _ _ ⟨⟩⟩

/-- A step of the callback that leaves the pool alone. -/
theorem SeededFirst.of_pc {rig rig' : Rig threads} (hfirst : SeededFirst rig)
    (hpool : rig'.pool = rig.pool) (hbuilt : rig'.built = rig.built)
    (hseeded : rig.ctx.seeded = true → rig'.ctx.seeded = true)
    (hcurrent : rig'.currentSeed ≠ [] → rig'.ctx.seeded = true)
    (hpast : rig'.pc.pastSeed = true → rig'.ctx.seeded = true) :
    SeededFirst rig' := by
  refine ⟨hcurrent, hpast, ?_, ?_, ?_⟩
  · rw [hpool]
    exact fun h => hseeded (hfirst.running h)
  · rw [hpool]
    exact fun i h => hseeded (hfirst.born i h)
  · rw [hpool, hbuilt]
    exact hfirst.built

/-- A call of the pool, which starts threads only with the context seeded. -/
theorem SeededFirst.of_call {rig : Rig threads} {call : Call} {pc : OnJobPc}
    {pool : MinerPool.State threads Hasher} {seedOf : Nat → List UInt8}
    (hfirst : SeededFirst rig) (hcalled : MinerPool.Called rig.pool pool call)
    (hpast : pc.pastSeed = true → rig.ctx.seeded = true)
    (hstart : call = .start → rig.ctx.seeded = true) :
    SeededFirst { rig with pool := pool, pc := pc, seedOf := seedOf } := by
  refine ⟨hfirst.current, hpast, fun hrunning => ?_, fun i => ?_,
    fun i build => ?_⟩
  · simp only [hcalled.running] at hrunning
    cases call with
    | start => exact hstart rfl
    | stop => cases hrunning
    | _ => exact hfirst.running hrunning
  · simp only [hcalled.workers]
    exact hfirst.born i
  · simp only [hcalled.workers]
    exact hfirst.built i build

theorem SeededFirst.turned {setup : Setup} {rig rig' : Rig threads}
    {i : Fin threads.toNat} {label : MinerPool.Label threads Hasher}
    (hfirst : SeededFirst rig) (hturned : Turned setup rig rig' i label) :
    SeededFirst rig' := by
  obtain ⟨w, inFlight, event, hturn, -, -, -⟩ := hturned.pool.turn
  have hseeded := hfirst.born i hturn.born
  rw [← hturned.ctx] at hseeded
  refine ⟨fun _ => hseeded, fun _ => hseeded, fun _ => hseeded,
    fun _ _ => hseeded, fun j build hpc => ?_⟩
  by_cases hj : j = i
  · subst hj
    rw [hturned.begun build hpc, ← hturned.ctx]
    exact hseeded
  · rw [hturned.pool.others j hj] at hpc
    rw [hturned.built_others j hj]
    exact hfirst.built j build hpc

/-- Inside a call of the pool. -/
theorem SeededFirst.ctl {rig : Rig threads}
    {pool : MinerPool.State threads Hasher} (hfirst : SeededFirst rig)
    (hsound : MinerPool.Sound rig.pool)
    (hstep : MinerPool.ctlStep rig.pool = some pool) :
    SeededFirst { rig with pool := pool } := by
  obtain ⟨-, -, -, -, hrunning, hworkers⟩ := MinerPool.ctlStep_frame hstep
  refine ⟨hfirst.current, hfirst.past, fun h => ?_, fun i hborn => ?_,
    fun i build hpc => ?_⟩
  · simp only [hrunning] at h
    exact hfirst.running h
  · cases MinerPool.ctlStep_turn hstep with
    | create next lt ctl => exact hfirst.running (hsound.starting next ctl).1
    | join ctl exited => exact absurd rfl hborn
    | _ => exact hfirst.born i hborn
  · rcases hworkers i with hsame | hboot | ⟨-, hjoined⟩
    · simp only [hsame] at hpc
      exact hfirst.built i build hpc
    · simp [hboot] at hpc
    · simp [hjoined] at hpc

theorem SeededFirst.main {rig rig' : Rig threads} (hfirst : SeededFirst rig)
    (hsound : MinerPool.Sound rig.pool) (hturn : MainTurn rig rig') :
    SeededFirst rig' := by
  cases hturn with
  | ctl busy step => exact hfirst.ctl hsound step
  | wasRunning idle pc running =>
      exact hfirst.of_pc rfl rfl id hfirst.current (by rintro ⟨⟩)
  | wasStopped idle pc running =>
      exact hfirst.of_pc rfl rfl id hfirst.current (by rintro ⟨⟩)
  | pause pc called =>
      exact hfirst.of_call called (by rintro ⟨⟩) (by rintro ⟨⟩)
  | sameSeed idle pc same =>
      simp only [RandomXContext.has, Bool.and_eq_true] at same
      exact hfirst.of_pc rfl rfl id (fun _ => same.1) (fun _ => same.1)
  | beginKeying idle pc changed =>
      exact hfirst.of_pc rfl rfl id hfirst.current (by rintro ⟨⟩)
  | endKeying idle pc =>
      exact hfirst.of_pc rfl rfl (fun _ => rfl) (fun _ => rfl) (fun _ => rfl)
  | rebuild pc called =>
      have hseeded := hfirst.past (by rw [pc]; rfl)
      exact hfirst.of_call called (fun _ => hseeded) (fun _ => hseeded)
  | resume pc called =>
      have hseeded := hfirst.past (by rw [pc]; rfl)
      exact hfirst.of_call called (fun _ => hseeded) (fun _ => hseeded)
  | running idle pc running =>
      have hseeded := hfirst.past (by rw [pc]; rfl)
      exact hfirst.of_pc rfl rfl id hfirst.current (fun _ => hseeded)
  | stopped idle pc running =>
      have hseeded := hfirst.past (by rw [pc]; rfl)
      exact hfirst.of_pc rfl rfl id hfirst.current (fun _ => hseeded)
  | start pc called =>
      have hseeded := hfirst.past (by rw [pc]; rfl)
      exact hfirst.of_call called (fun _ => hseeded) (fun _ => hseeded)
  | setWork pc called =>
      have hseeded := hfirst.past (by rw [pc]; rfl)
      exact hfirst.of_call called (fun _ => hseeded) (fun _ => hseeded)
  | installed idle pc =>
      exact hfirst.of_pc rfl rfl id hfirst.current (by rintro ⟨⟩)

/-- The callback is entered: without a re-keying the context is seeded. -/
theorem SeededFirst.onJob {setup : Setup} {rig : Rig threads} {job : MiningJob}
    {seed : List UInt8} (hfirst : SeededFirst rig)
    (hok : BringsSeed rig (.onJob job seed)) :
    SeededFirst { rig with
      pc :=
        if seed ≠ [] ∧ seed ≠ rig.currentSeed then
          .loadRunning (testTarget setup job) seed
        else .checkRunning false (testTarget setup job)
      delivered := if seed = [] then rig.delivered else seed } := by
  refine hfirst.of_pc rfl rfl id hfirst.current fun hpast => ?_
  change rig.ctx.seeded = true
  simp only at hpast
  split at hpast
  · cases hpast
  · rename_i hsame
    rcases hok with hseeded | hseed
    · exact hseeded
    · have heq : seed = rig.currentSeed := by
        by_contra hne
        exact hsame ⟨hseed, hne⟩
      exact hfirst.current (heq ▸ hseed)

theorem SeededFirst.step {setup : Setup} {rig rig' : Rig threads}
    {label : RigLabel threads} (hfirst : SeededFirst rig)
    (hsound : MinerPool.Sound rig.pool) (hok : BringsSeed rig label)
    (hstep : rig.step setup label = some rig') : SeededFirst rig' := by
  cases step_stepped hstep with
  | onJob idle pc => exact hfirst.onJob hok
  | clearWork pc called =>
      exact hfirst.of_call called (by rintro ⟨⟩) (by rintro ⟨⟩)
  | stop pc called =>
      exact hfirst.of_call called (by rintro ⟨⟩) (by rintro ⟨⟩)
  | main turn => exact hfirst.main hsound turn
  | worker turned => exact hfirst.turned turned
  | made turned => exact hfirst.turned turned
  | hashed turned => exact hfirst.turned turned

theorem SeededFirst.run {setup : Setup} {labels : List (RigLabel threads)}
    {rig : Rig threads}
    (hrun : Run (Rig.step setup) BringsSeed {} labels rig) :
    SeededFirst rig ∧ MinerPool.Sound rig.pool := by
  induction hrun with
  | nil => exact ⟨SeededFirst.init, MinerPool.Sound.init⟩
  | snoc label run allowed taken ih =>
      exact ⟨ih.1.step ih.2 allowed taken, (step_stepped taken).sound ih.2⟩

/-- In every run in which a job that arrives before the context has a seed
brings one: whenever a worker is inside `make_hasher_`, the context is seeded
and was when the call began, so the constructor does not throw. -/
theorem make_hasher_seeded (setup : Setup) {labels : List (RigLabel threads)}
    {rig : Rig threads}
    (hrun : Run (Rig.step setup) BringsSeed {} labels rig)
    {i : Fin threads.toNat} {build : Build}
    (hmaking : (rig.pool.workers i).pc = .making build) :
    rig.ctx.seeded = true ∧ (rig.built i).seeded = true ∧
      (rig.makeHasher setup i).isSome = true := by
  have hinv := SeededFirst.run hrun
  have hbuilt := hinv.1.built i build hmaking
  refine ⟨hinv.1.born i (by rw [hmaking]; simp), hbuilt, ?_⟩
  unfold makeHasher
  cases setup.protocol with
  | stratum => rfl
  | monero => simp [hbuilt]

/-- A job message without the member `seed_hash`. -/
def seedlessMessage : Json :=
  .obj [("blob", .str (String.ofList (List.replicate 86 '0'))),
    ("job_id", .str "1"), ("target", .str "ffffffff")]

/-- The job of that message. -/
def seedlessJob : MiningJob :=
  { blob := List.replicate 43 0
    nonceOffset := 39
    target := (moneroTargetFromHex "ffffffff").toOption.getD (Hash256.fill 0)
    jobId := "1" }

def moneroSetup : Setup :=
  { protocol := .monero, randomx := fun _ _ => Hash256.fill 0 }

/-- The first job arrives with a seed, and the worker starts. -/
def seededLabels : List (RigLabel 1) :=
  .onJob seedlessJob [1] :: List.replicate 6 .main ++
    [.worker MinerPool.soleWorker]

/-- The first job arrives without a seed, and the worker starts. -/
def seedlessLabels : List (RigLabel 1) :=
  .onJob seedlessJob [] :: List.replicate 3 .main ++
    [.worker MinerPool.soleWorker]

/-- With a seed the worker's construction finds the context seeded. -/
theorem seeded_make_hasher :
    ∃ rig : Rig 1, Run (Rig.step moneroSetup) BringsSeed {} seededLabels rig ∧
      (rig.pool.workers MinerPool.soleWorker).pc = .making .boot ∧
      rig.ctx.seeded = true ∧
      (rig.makeHasher moneroSetup MinerPool.soleWorker).isSome = true := by
  have hreplay : (replay (Rig.step moneroSetup) BringsSeed {} seededLabels).any
      (fun rig => (rig.pool.workers MinerPool.soleWorker).pc =
        .making .boot) = true := by
    decide +kernel
  obtain ⟨rig, hrig, hpc⟩ := (Option.any_eq_true _ _).mp hreplay
  have hrun := run_of_replay hrig
  have hmaking := of_decide_eq_true hpc
  obtain ⟨hseeded, -, hmade⟩ := make_hasher_seeded moneroSetup hrun hmaking
  exact ⟨rig, hrun, hmaking, hseeded, hmade⟩

/-- The client accepts the message without a seed, the pool is started, and the
worker's construction throws. -/
theorem seedless_make_hasher_throws :
    (MoneroClient.applyJob { user := "u", pass := "x" } seedlessMessage).map
        (fun applied => (applied.1, applied.2.2)) =
        .ok (true, some (.onJob seedlessJob [])) ∧
      ∃ rig : Rig 1, Run (Rig.step moneroSetup) anyLabel {} seedlessLabels rig ∧
        (rig.pool.workers MinerPool.soleWorker).pc = .making .boot ∧
        rig.ctx.seeded = false ∧
        rig.makeHasher moneroSetup MinerPool.soleWorker = none := by
  have hreplay : (replay (Rig.step moneroSetup) anyLabel {} seedlessLabels).any
      (fun rig => (rig.pool.workers MinerPool.soleWorker).pc =
          .making .boot ∧ rig.ctx.seeded = false ∧
        rig.makeHasher moneroSetup MinerPool.soleWorker = none) = true := by
    decide +kernel
  obtain ⟨rig, hrig, hfacts⟩ := (Option.any_eq_true _ _).mp hreplay
  exact ⟨by decide +kernel, rig, run_of_replay hrig,
    of_decide_eq_true hfacts⟩

end Rig

end Minerby
