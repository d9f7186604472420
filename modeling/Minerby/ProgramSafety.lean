/-
What holds of the worker pool inside the program, whichever the protocol and
whatever the pool server sends: a worker that hashes has a job, a hasher and
room for the nonce; no hash overlaps a re-keying of the RandomX context; and
what is reported in bitcoin mode is a header whose double SHA-256 meets the
target.
-/
import Minerby.Checkpoints
import Minerby.MinerRefines
import Minerby.Rekey
import Minerby.SubmitSession

namespace Minerby

namespace MinerPool

variable {threads : UInt32} {H : Type} {good : MiningJob → Prop}

/-- What is asked of a job does not depend on the number the pool gives it. -/
def GenerationFree (good : MiningJob → Prop) : Prop :=
  ∀ job gen, good job → good { job with generation := gen }

/-- Every job in the pool is good: the current one, the one being set, those
the workers hold and those they have hashed. -/
structure State.OnlyJobs (good : MiningJob → Prop) (s : State threads H) :
    Prop where
  work : ∀ p, s.work = some p → good p.job
  setting : ∀ p, s.ctl = .settingWork p → good p.job
  held : ∀ i p, (s.workers i).work = some p → good p.job
  logged : ∀ i p nonce digest, Event.hashed i p nonce digest ∈ s.log →
    good p.job

theorem State.OnlyJobs.init : (init threads H).OnlyJobs good := by
  constructor <;> simp [MinerPool.init]

/-- A worker logs a hash of the job it holds. -/
theorem Turn.hashed_mem {s : State threads H} {i j : Fin threads.toNat}
    {label : Label threads H} {w : Worker H} {inFlight : UInt32}
    {event : Option (Event threads H)} {p : JobPtr} {nonce : UInt32}
    {digest : Hash256} (hturn : Turn s i label w inFlight event)
    (hmem : Event.hashed j p nonce digest ∈ event.toList) :
    (s.workers i).work = some p := by
  cases hturn <;> simp_all

theorem State.OnlyJobs.turned {s s' : State threads H} {i : Fin threads.toNat}
    {label : Label threads H} (hjobs : s.OnlyJobs good)
    (hturned : Turned s s' i label) : s'.OnlyJobs good := by
  obtain ⟨w, inFlight, event, hturn, -, -, hlog⟩ := hturned.turn
  constructor
  · rw [hturned.work]
    exact hjobs.work
  · rw [hturned.ctl]
    exact hjobs.setting
  · intro j p hwork
    by_cases hj : j = i
    · subst hj
      rcases hturned.held p hwork with hheld | hpool
      · exact hjobs.held j p hheld
      · exact hjobs.work p hpool
    · rw [hturned.others j hj] at hwork
      exact hjobs.held j p hwork
  · intro j p nonce digest hmem
    rw [hlog] at hmem
    rcases List.mem_append.mp hmem with hnew | hold
    · exact hjobs.held i p (hturn.hashed_mem hnew)
    · exact hjobs.logged j p nonce digest hold

theorem State.OnlyJobs.call {s s' : State threads H} {call : Call}
    (hjobs : s.OnlyJobs good) (hfree : GenerationFree good)
    (hok : SetsOnly good s (.call call)) (hcalled : Called s s' call) :
    s'.OnlyJobs good := by
  constructor
  · rw [hcalled.work]
    exact hjobs.work
  · intro p hctl
    obtain ⟨job, rfl, rfl⟩ := hcalled.settingWork hctl
    exact hfree job _ hok
  · rw [hcalled.workers]
    exact hjobs.held
  · intro i p nonce digest hmem
    rw [hcalled.log] at hmem
    rcases List.mem_cons.mp hmem with hnew | hold
    · cases hnew
    · exact hjobs.logged i p nonce digest hold

theorem State.OnlyJobs.ctl {s s' : State threads H} (hjobs : s.OnlyJobs good)
    (hstep : ctlStep s = some s') : s'.OnlyJobs good := by
  obtain ⟨hlog, -, -, -, -, hworkers⟩ := ctlStep_frame hstep
  obtain ⟨-, hctl, hwork⟩ := ctlStep_work hstep
  constructor
  · intro p hp
    rcases hwork with hsame | hnone | ⟨q, hq, hset⟩
    · exact hjobs.work p (hsame ▸ hp)
    · simp [hnone] at hp
    · obtain rfl := Option.some.inj (hset.symm.trans hp)
      exact hjobs.setting q hq
  · intro p hp
    exact absurd hp (hctl p)
  · intro i p hp
    rcases hworkers i with hsame | hboot | ⟨-, hjoined⟩
    · exact hjobs.held i p (hsame ▸ hp)
    · simp [hboot] at hp
    · simp [hjoined] at hp
  · rw [hlog]
    exact hjobs.logged

theorem State.OnlyJobs.of_run {labels : List (Label threads H)}
    {s : State threads H} (hfree : GenerationFree good)
    (hrun : Run MinerPool.step (SetsOnly good) (MinerPool.init threads H) labels
      s) : s.OnlyJobs good := by
  apply hrun.invariant _ State.OnlyJobs.init
  intro state label next hjobs hok hstep
  cases step_acted hstep with
  | turn i turned => exact hjobs.turned turned
  | call call called => exact hjobs.call hfree hok called
  | ctl taken => exact hjobs.ctl taken

/-- Past the first construction of its hasher. -/
def Pc.armed : Pc → Bool
  | .unborn => false
  | .boot => false
  | .making .boot => false
  | _ => true

theorem Pc.armed_of_usesHasher {pc : Pc} (huses : pc.usesHasher = true) :
    pc.armed = true := by
  cases pc <;> first | rfl | cases huses

/-- A worker past its first construction has a hasher. -/
def State.Armed (s : State threads H) : Prop :=
  ∀ i, (s.workers i).pc.armed = true → (s.workers i).hasher.isSome = true

theorem Turn.armed {s : State threads H} {i : Fin threads.toNat}
    {label : Label threads H} {w : Worker H} {inFlight : UInt32}
    {event : Option (Event threads H)}
    (hturn : Turn s i label w inFlight event)
    (harmed : (s.workers i).pc.armed = true →
      (s.workers i).hasher.isSome = true)
    (hafter : w.pc.armed = true) : w.hasher.isSome = true := by
  cases hturn with
  | boot hpc => cases hafter
  | made build hasher hpc => rfl
  | keepWork hpc same => exact harmed (by rw [hpc]; rfl)
  | pickup gen hpc =>
      have hkept : ((s.workers i).take i gen s.work).afterCheck.hasher =
          (s.workers i).hasher := by
        simp only [Worker.afterCheck, Worker.take]
        cases s.work <;> rfl
      rw [hkept]
      exact harmed (by rw [hpc]; rfl)
  | next done hpc => exact harmed (by rw [hpc]; rfl)
  | share done p digest hpc hwork => exact harmed (by rw [hpc]; rfl)
  | _ => exact harmed (by simp [*, Pc.armed])

theorem State.Armed.step {s s' : State threads H} {label : Label threads H}
    (harmed : s.Armed) (hstep : MinerPool.step s label = some s') :
    s'.Armed := by
  intro j hj
  cases step_acted hstep with
  | turn i turned =>
      by_cases hi : j = i
      · subst hi
        obtain ⟨w, inFlight, event, hturn, hw, -, -⟩ := turned.turn
        rw [hw] at hj ⊢
        exact hturn.armed (harmed j) hj
      · rw [turned.others j hi] at hj ⊢
        exact harmed j hj
  | call call called =>
      rw [called.workers] at hj ⊢
      exact harmed j hj
  | ctl taken =>
      obtain ⟨-, -, -, -, -, hworkers⟩ := ctlStep_frame taken
      rcases hworkers j with hsame | hboot | ⟨-, hjoined⟩
      · rw [hsame] at hj ⊢
        exact harmed j hj
      · simp [hboot, Pc.armed] at hj
      · simp [hjoined, Pc.armed] at hj

/-- A worker's blob is as long as its job's. -/
theorem BlobOf.length_eq {w : Worker H} {p : JobPtr} (hblob : BlobOf w p) :
    w.blob.length = p.job.blob.length := by
  have hsame := congrArg List.length (hblob.blank 0)
  simpa only [spliceNonce, length_writeAt] using hsame

/-- What a worker relies on when it hashes: from the check of its job to the
end of its chunk the local job is there, the blob is as long as the job's and
has room for the nonce, and from the check of its hasher on there is a
hasher. -/
structure Worker.Provided (w : Worker H) : Prop where
  job : w.pc.committed = true → ∃ p, w.work = some p
  length : ∀ p, w.work = some p → w.blob.length = p.job.blob.length
  room : ∀ p, w.work = some p →
    p.job.nonceOffset.toNat + 4 ≤ w.blob.length
  hasher : w.pc.usesHasher = true → w.hasher.isSome = true

/-- In a run of the pool whose jobs have room for the nonce. -/
theorem provided_of_run {labels : List (Label threads H)} {s : State threads H}
    (hfree : GenerationFree good)
    (hfits : ∀ job, good job →
      job.nonceOffset.toNat + 4 ≤ job.blob.length)
    (hrun : Run step (SetsOnly good) (init threads H) labels s)
    (i : Fin threads.toNat) : (s.workers i).Provided := by
  have hjobs := State.OnlyJobs.of_run hfree hrun
  have hsound : Sound s := hrun.invariant
    (fun _ _ _ hinv _ hstep => Sound.step hinv hstep) Sound.init
  have hequipped : s.Equipped := hrun.invariant
    (fun _ _ _ hinv _ hstep => State.Equipped.step hinv hstep)
    State.Equipped.init
  have harmed : s.Armed := hrun.invariant
    (fun _ _ _ hinv _ hstep => State.Armed.step hinv hstep) nofun
  constructor
  · intro hcommitted
    exact Worker.exists_work_of_ready ((hequipped i).ready hcommitted)
  · intro p hwork
    exact (hsound.blob i p hwork).length_eq
  · intro p hwork
    rw [(hsound.blob i p hwork).length_eq]
    exact hfits p.job (hjobs.held i p hwork)
  · intro huses
    exact harmed i (Pc.armed_of_usesHasher huses)

end MinerPool

theorem MiningJob.laid_generationFree (protocol : Protocol) :
    MinerPool.GenerationFree (MiningJob.Laid protocol) := by
  intro job gen hlaid
  cases protocol with
  | stratum => exact hlaid
  | monero => exact hlaid

/-- A worker's turn makes a hasher or keeps the one there is. -/
theorem MinerPool.Turned.hasher {threads : UInt32} {H : Type}
    {s s' : MinerPool.State threads H} {i : Fin threads.toNat}
    {label : MinerPool.Label threads H}
    (hturned : MinerPool.Turned s s' i label) :
    (s'.workers i).hasher = (s.workers i).hasher ∨
      ∃ hasher, label = .made i hasher ∧
        (s'.workers i).hasher = some hasher := by
  obtain ⟨w, inFlight, event, hturn, hw, -, -⟩ := hturned.turn
  rw [hw]
  cases hturn with
  | made build hasher hpc => exact Or.inr ⟨hasher, rfl, rfl⟩
  | pickup gen hpc =>
      left
      simp only [Worker.afterCheck, Worker.take]
      cases s.work <;> rfl
  | _ => exact Or.inl rfl

namespace Rig

variable {threads : UInt32} {setup : Setup} {rig rig' : Rig threads}

/-- During a re-keying the main thread is in no call, and `pause` has emptied
the chunks. -/
structure KeyedAlone (rig : Rig threads) : Prop where
  sound : MinerPool.Sound rig.pool
  quiesced : Quiesced rig
  idle : rig.pc.isKeying = true → rig.pool.ctl = .idle

theorem KeyedAlone.step {label : RigLabel threads} (halone : KeyedAlone rig)
    (hstep : rig.step setup label = some rig') : KeyedAlone rig' := by
  have hstepped := step_stepped hstep
  refine ⟨hstepped.sound halone.sound,
    halone.quiesced.step halone.sound hstepped, ?_⟩
  have hturned : ∀ {i : Fin threads.toNat}
      {label : MinerPool.Label threads Hasher},
      Turned setup rig rig' i label → rig'.pc.isKeying = true →
        rig'.pool.ctl = .idle := by
    intro i label hturned hkeying
    rw [hturned.pool.ctl]
    exact halone.idle (by rw [← hturned.pc]; exact hkeying)
  cases hstepped with
  | onJob idle pc => exact fun _ => idle
  | clearWork pc called => exact nofun
  | stop pc called => exact nofun
  | main turn =>
      intro hkeying
      cases turn with
      | ctl busy step => exact absurd (halone.idle hkeying) busy
      | beginKeying idle pc changed => exact idle
      | sameSeed idle pc same => exact idle
      | endKeying idle pc => exact idle
      | _ => cases hkeying
  | worker turned => exact hturned turned
  | made turned => exact hturned turned
  | hashed turned => exact hturned turned

theorem KeyedAlone.none_in_chunk (halone : KeyedAlone rig)
    (hkeying : rig.pc.isKeying = true) (i : Fin threads.toNat) :
    (rig.pool.workers i).pc.inChunk = false := by
  have hidle := halone.idle hkeying
  cases hpc : rig.pc with
  | keying wasRunning job seed =>
      cases wasRunning with
      | false =>
          have hnone := halone.quiesced.noThreads job seed (Or.inr hpc)
          rw [hnone.2 i]
          rfl
      | true =>
          have hpaused : rig.pc.paused = true := by rw [hpc]; rfl
          exact (halone.quiesced.drained_idle hpaused hidle).2.2 i
  | _ => simp [hpc, OnJobPc.isKeying] at hkeying

theorem KeyedAlone.of_run {ok : Rig threads → RigLabel threads → Prop}
    {labels : List (RigLabel threads)}
    (hrun : Run (Rig.step setup) ok {} labels rig) : KeyedAlone rig := by
  apply hrun.invariant
  · intro state label next halone _ hstep
    exact halone.step hstep
  · exact ⟨MinerPool.Sound.init, ⟨nofun, nofun, nofun⟩, nofun⟩

/-- In bitcoin mode every hasher is the double SHA-256. -/
def AllSha256d (rig : Rig threads) : Prop :=
  ∀ i hasher, (rig.pool.workers i).hasher = some hasher → hasher = .sha256d

theorem AllSha256d.turned {i : Fin threads.toNat}
    {label : MinerPool.Label threads Hasher} (hsha : AllSha256d rig)
    (hbitcoin : setup.protocol = .stratum)
    (hturned : Turned setup rig rig' i label) : AllSha256d rig' := by
  intro j hasher hj
  by_cases hi : j = i
  · subst hi
    rcases hturned.pool.hasher with hsame | ⟨made, hlabel, hmade⟩
    · exact hsha j hasher (hsame ▸ hj)
    · have hmake := hturned.made made hlabel
      simp only [makeHasher, hbitcoin, Option.some.injEq] at hmake
      obtain rfl := Option.some.inj (hmade.symm.trans hj)
      exact hmake.symm
  · rw [hturned.pool.others j hi] at hj
    exact hsha j hasher hj

theorem AllSha256d.of_workers (hsha : AllSha256d rig)
    (hworkers : ∀ i, rig'.pool.workers i = rig.pool.workers i ∨
      (rig'.pool.workers i).hasher = none) : AllSha256d rig' := by
  intro i hasher hi
  rcases hworkers i with hsame | hnone
  · exact hsha i hasher (hsame ▸ hi)
  · simp [hnone] at hi

theorem AllSha256d.step {label : RigLabel threads} (hsha : AllSha256d rig)
    (hbitcoin : setup.protocol = .stratum)
    (hstep : rig.step setup label = some rig') : AllSha256d rig' := by
  have hcalled : ∀ {call : MinerPool.Call},
      MinerPool.Called rig.pool rig'.pool call → AllSha256d rig' := by
    intro call called
    exact hsha.of_workers fun i => Or.inl (congrFun called.workers i)
  cases step_stepped hstep with
  | onJob idle pc => exact hsha
  | clearWork pc called => exact hcalled called
  | stop pc called => exact hcalled called
  | main turn =>
      rcases turn.pool with hsame | hctl | ⟨call, -, called⟩ |
        ⟨rekeyed, job, -, called⟩
      · exact hsha.of_workers fun i => Or.inl (by rw [hsame])
      · obtain ⟨-, -, -, -, -, hworkers⟩ := MinerPool.ctlStep_frame hctl
        apply hsha.of_workers
        intro i
        rcases hworkers i with h | h | ⟨-, h⟩
        · exact Or.inl h
        · exact Or.inr (by rw [h])
        · exact Or.inr (by rw [h])
      · exact hcalled called
      · exact hcalled called
  | worker turned => exact hsha.turned hbitcoin turned
  | made turned => exact hsha.turned hbitcoin turned
  | hashed turned => exact hsha.turned hbitcoin turned

/-- The digest of the double SHA-256. -/
def sha256dDigest (bytes : List UInt8) : Hash256 :=
  Hash256.ofDigest (sha256d bytes)

/-- In bitcoin mode the pool hashes with the double SHA-256. -/
theorem PoolMove.hashesWith {good : MiningJob → Prop}
    (hmove : PoolMove setup rig rig') (hsha : AllSha256d rig)
    (hjob : ∀ job, rig.pc.job? = some job → good job)
    (hfits : ∀ job, good job →
      job.nonceOffset.toNat + 4 ≤ job.blob.length) :
    Stutters MinerPool.step (MinerPool.HashesWith sha256dDigest) rig.pool
      rig'.pool := by
  cases hmove with
  | rest same => exact Or.inl same
  | moves label taken sets hashes =>
      refine Or.inr ⟨label, ?_, taken⟩
      cases label with
      | call call =>
          cases call with
          | setWork job =>
              obtain ⟨rekeyed, hpc⟩ := sets job rfl
              exact hfits job (hjob job (by rw [hpc]; rfl))
          | _ => trivial
      | hashed i digest =>
          obtain ⟨hasher, hhasher, hcomputes⟩ := hashes i digest rfl
          obtain rfl := hsha i hasher hhasher
          exact hcomputes
      | _ => trivial

theorem sha256d_run {good : MiningJob → Prop}
    {labels : List (RigLabel threads)} (hbitcoin : setup.protocol = .stratum)
    (hfits : ∀ job, good job →
      job.nonceOffset.toNat + 4 ≤ job.blob.length)
    (hrun : Run (Rig.step setup) (Delivers good setup) {} labels rig) :
    ∃ poolLabels, Run MinerPool.step (MinerPool.HashesWith sha256dDigest)
      (MinerPool.init threads Hasher) poolLabels rig.pool := by
  apply And.right (hrun.project Rig.pool (fun rig => AllSha256d rig ∧
    ∀ job, rig.pc.job? = some job → good job) ⟨nofun, nofun⟩ _)
  intro state label next hinv hok hstep
  obtain ⟨hsha, hjob⟩ := hinv
  exact ⟨⟨hsha.step hbitcoin hstep, step_job? hjob hok hstep⟩,
    (step_poolMove hstep).hashesWith hsha hjob hfits⟩

end Rig

namespace Miner

open MinerPool (Event Attempt JobPtr soleWorker)

variable {threads : UInt32} {setup : Setup} {text : JsonText}
  {user pass : String} {labels : List (LoopLabel threads)} {s : Miner threads}

/-- In every run of the program, whatever the pool server sends, a worker that
is hashing has a job and a hasher, its blob is as long as the job's, and the
four bytes of the nonce lie inside it: no null pointer is followed and no store
leaves the blob. -/
theorem hashing_provided
    (hrun : Run (Miner.step setup text) anyLabel (Miner.init setup user pass)
      labels s) (i : Fin threads.toNat) :
    (s.rig.pool.workers i).Provided := by
  obtain ⟨poolLabels, hpool⟩ := pool_run hrun
  apply MinerPool.provided_of_run (MiningJob.laid_generationFree setup.protocol)
    _ hpool i
  intro job hlaid
  exact hlaid.fits

/-- The worker is about to hash the header of a job from the pool. -/
theorem mining_provided :
    ∃ s : Miner 1, Run (Miner.step stratumSetup minerText) anyLabel
        (Miner.init stratumSetup "u" "x") miningLabels s ∧
      (s.rig.pool.workers soleWorker).pc.committed = true ∧
      (s.rig.pool.workers soleWorker).Provided := by
  have hreplay : (replay (Miner.step stratumSetup minerText) anyLabel
      (Miner.init stratumSetup "u" "x") miningLabels).any (fun s =>
        (s.rig.pool.workers soleWorker).pc.committed) = true := by
    decide +kernel
  obtain ⟨s, hs, hcommitted⟩ := (Option.any_eq_true _ _).mp hreplay
  have hrun := run_of_replay hs
  exact ⟨s, hrun, hcommitted, hashing_provided hrun soleWorker⟩

/-- In every run of the program, while the RandomX context is being re-keyed no
worker is in a chunk: none hashes with a VM whose cache or dataset is being
written. -/
theorem no_hash_while_keying
    (hrun : Run (Miner.step setup text) anyLabel (Miner.init setup user pass)
      labels s) (hkeying : s.rig.pc.isKeying = true) (i : Fin threads.toNat) :
    (s.rig.pool.workers i).pc.inChunk = false := by
  obtain ⟨rigLabels, hrig⟩ := rig_run hrun
  exact (Rig.KeyedAlone.of_run hrig).none_in_chunk hkeying i

/-- A Monero job under a seed. -/
def jobUnder (seed : String) : Json :=
  .obj [("blob", .str (String.ofList (List.replicate 86 '0'))),
    ("job_id", .str "1"), ("seed_hash", .str seed), ("target", .str "ffffffff")]

def loginReply : Json :=
  .obj [("id", .int 1),
    ("result", .obj [("id", .str "s"), ("job", jobUnder "01")])]

def newSeedMessage : Json :=
  .obj [("method", .str "job"), ("params", jobUnder "02")]

def keyingText : JsonText := .ofMessages [loginReply, newSeedMessage]

def keyingSetup : Setup :=
  { protocol := .monero, randomx := fun _ _ => Hash256.fill 0 }

/-- The pool starts with the job of the login reply, a job under another seed
arrives, the pool is paused and the re-keying begins. -/
def keyingLabels : List (LoopLabel 1) :=
  [.connect true [.all] [], receiving loginReply] ++ List.replicate 10 .main ++
    [.connected, receiving newSeedMessage] ++ List.replicate 5 .main

theorem keying_without_hash :
    ∃ s : Miner 1, Run (Miner.step keyingSetup keyingText) anyLabel
        (Miner.init keyingSetup "u" "x") keyingLabels s ∧
      s.rig.pool.running = true ∧ s.rig.pc.isKeying = true ∧
      (s.rig.pool.workers soleWorker).pc.inChunk = false := by
  have hreplay : (replay (Miner.step keyingSetup keyingText) anyLabel
      (Miner.init keyingSetup "u" "x") keyingLabels).any (fun s =>
        s.rig.pool.running && s.rig.pc.isKeying) = true := by
    decide +kernel
  obtain ⟨s, hs, hboth⟩ := (Option.any_eq_true _ _).mp hreplay
  obtain ⟨hrunning, hkeying⟩ := Bool.and_eq_true_iff.mp hboth
  have hrun := run_of_replay hs
  exact ⟨s, hrun, hrunning, hkeying,
    no_hash_while_keying hrun hkeying soleWorker⟩

/-- The 80-byte header of a job with a nonce in its last four bytes. -/
def headerWith (job : MiningJob) (nonce : UInt32) : List UInt8 :=
  job.blob.take 76 ++ le32 nonce

theorem spliced_eq_headerWith {p : JobPtr} (hlaid : p.job.Laid .stratum)
    (nonce : UInt32) : p.spliced (le32 nonce) = headerWith p.job nonce := by
  obtain ⟨hoffset, hlength⟩ := hlaid
  have hoff : p.job.nonceOffset.toNat = 76 := by rw [hoffset]; rfl
  have hrest : p.job.blob.drop 80 = [] :=
    List.drop_eq_nil_of_le (Nat.le_of_eq hlength)
  simp [JobPtr.spliced, headerWith, hoff, hrest]

/-- A share of a header: its digest is the double SHA-256 of the 80-byte header
of its job with its nonce in the last four bytes, and meets the job's target. -/
def HeaderShare (attempt : Attempt) : Prop :=
  (headerWith attempt.work.job attempt.nonce).length = 80 ∧
    attempt.digest =
      Rig.sha256dDigest (headerWith attempt.work.job attempt.nonce) ∧
    meetsTarget attempt.digest attempt.work.job.target = true

/-- The shares that a worker has reported, and one it is about to report. -/
theorem headerShare_of_run (hbitcoin : setup.protocol = .stratum)
    (hrun : Run (Miner.step setup text) anyLabel (Miner.init setup user pass)
      labels s) (i : Fin threads.toNat) :
    (s.rig.pool.workers i).pendingShare ++
        s.rig.pool.log.filterMap (Event.share? i) =
      (s.rig.pool.log.filterMap (Event.hash? i)).filter Attempt.meets ∧
    ∀ attempt ∈ (s.rig.pool.workers i).pendingShare ++
        s.rig.pool.log.filterMap (Event.share? i), HeaderShare attempt := by
  obtain ⟨rigLabels, hrig⟩ := rig_run hrun
  obtain ⟨poolLabels, hpool⟩ := Rig.sha256d_run hbitcoin (fun job hlaid =>
    hlaid.fits) hrig
  obtain ⟨jobLabels, hjobs⟩ := Rig.pool_of_run hrig
  have hlaid := MinerPool.State.OnlyJobs.of_run
    (MiningJob.laid_generationFree setup.protocol) hjobs
  rw [hbitcoin] at hlaid
  obtain ⟨hgenuine, -⟩ := MinerPool.Genuine.run hpool
  have hshares := hgenuine.shares i
  refine ⟨hshares, fun attempt hattempt => ?_⟩
  rw [hshares, List.mem_filter] at hattempt
  obtain ⟨hhashed, hmeets⟩ := hattempt
  obtain ⟨event, hevent, hhash⟩ := List.mem_filterMap.mp hhashed
  cases event with
  | hashed j p nonce digest =>
      simp only [Event.hash?] at hhash
      split at hhash
      · obtain rfl := Option.some.inj hhash
        have hjob := hlaid.logged j p nonce digest hevent
        have hdigest := (hgenuine.digests j p nonce digest hevent).2
        rw [spliced_eq_headerWith hjob] at hdigest
        refine ⟨?_, hdigest, hmeets⟩
        simp [headerWith, hjob.2]
      · cases hhash
  | _ => cases hhash

/-- In every run of the program in bitcoin mode the shares of each worker, with
one that it is about to report, are its hashes that meet the target, in order,
and each is the double SHA-256 of an 80-byte header of its job with its nonce
in the last four bytes. -/
theorem bitcoin_shares_genuine (hbitcoin : setup.protocol = .stratum)
    (hrun : Run (Miner.step setup text) anyLabel (Miner.init setup user pass)
      labels s) (i : Fin threads.toNat) :
    (s.rig.pool.workers i).pendingShare ++
        s.rig.pool.log.filterMap (Event.share? i) =
      (s.rig.pool.log.filterMap (Event.hash? i)).filter Attempt.meets ∧
    ∀ attempt ∈ s.rig.pool.log.filterMap (Event.share? i),
      (headerWith attempt.work.job attempt.nonce).length = 80 ∧
      attempt.digest =
        Rig.sha256dDigest (headerWith attempt.work.job attempt.nonce) ∧
      meetsTarget attempt.digest attempt.work.job.target = true := by
  obtain ⟨hshares, hheader⟩ := headerShare_of_run hbitcoin hrun i
  refine ⟨hshares, fun attempt hattempt => ?_⟩
  exact hheader attempt (List.mem_append_right _ hattempt)

/-- The worker hashes the header at nonce 0 and submits the share. -/
theorem first_share_genuine :
    ∃ s : Miner 1, Run (Miner.step stratumSetup minerText) anyLabel
        (Miner.init stratumSetup "u" "x") (miningLabels ++ sharingLabels) s ∧
      ∃ attempt ∈ s.rig.pool.log.filterMap (Event.share? soleWorker),
        attempt.digest =
          Rig.sha256dDigest (headerWith attempt.work.job attempt.nonce) := by
  have hreplay : (replay (Miner.step stratumSetup minerText) anyLabel
      (Miner.init stratumSetup "u" "x") (miningLabels ++ sharingLabels)).any
        (fun s => (s.rig.pool.log.filterMap
          (Event.share? soleWorker)).length = 1) = true := by
    decide +kernel
  obtain ⟨s, hs, hlength⟩ := (Option.any_eq_true _ _).mp hreplay
  have hrun := run_of_replay hs
  obtain ⟨attempt, hattempt⟩ := List.length_eq_one_iff.mp
    (of_decide_eq_true hlength)
  have hmem : attempt ∈
      s.rig.pool.log.filterMap (Event.share? soleWorker) := by
    simp [hattempt]
  have hgenuine := bitcoin_shares_genuine rfl hrun soleWorker
  exact ⟨s, hrun, attempt, hmem, (hgenuine.2 attempt hmem).2.1⟩

end Miner

end Minerby
