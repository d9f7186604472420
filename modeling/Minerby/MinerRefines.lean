/-
The program seen from its parts.  Every run of the main loop is a run of the
mining side, and every run of the mining side one of the worker pool, so the
results about each hold inside the program; the jobs the clients deliver have
room for the nonce, which is all the pool relies on when it writes it.
-/
import Minerby.GenuineShares
import Minerby.Handshake
import Minerby.MainLoop
import Minerby.Projection
import Minerby.StratumHeader
import Minerby.SubmitSession

namespace Minerby

open MinerPool (Pc Worker JobPtr Call Ctl)

/-- A job laid out as the client of the protocol does it: an 80-byte header
with the nonce at its end, or a Monero blob with the nonce at offset 39. -/
def MiningJob.Laid (protocol : Protocol) (job : MiningJob) : Prop :=
  match protocol with
  | .stratum => job.nonceOffset = 76 ∧ job.blob.length = 80
  | .monero => job.nonceOffset = 39 ∧ 43 ≤ job.blob.length

theorem MiningJob.Laid.fits {protocol : Protocol} {job : MiningJob}
    (hlaid : job.Laid protocol) :
    job.nonceOffset.toNat + 4 ≤ job.blob.length := by
  cases protocol with
  | stratum =>
      obtain ⟨hoffset, hlength⟩ := hlaid
      rw [hoffset, hlength]
      decide
  | monero =>
      obtain ⟨hoffset, hlength⟩ := hlaid
      rw [hoffset]
      exact hlength

theorem DecodedWork.miningJob_laid {j : StratumJob} {xn1 xn2Hex : String}
    (d : DecodedWork j xn1 xn2Hex) (shareDiff : ℚ) (out : MiningJob) :
    (d.miningJob shareDiff out).Laid .stratum := by
  have hwords := length_wordsReversed 8 d.prevhash (by rw [d.length_prevhash])
  refine ⟨rfl, ?_⟩
  simp [DecodedWork.miningJob, DecodedWork.headerPrefix, DecodedWork.root,
    hwords, length_merkleRoot]

theorem buildWork_decoded {j : StratumJob} {xn1 xn2Hex : String} {shareDiff : ℚ}
    {out mj : MiningJob}
    (hbuilt : buildWork j xn1 xn2Hex shareDiff out = (true, mj)) :
    ∃ d : DecodedWork j xn1 xn2Hex, mj = d.miningJob shareDiff out := by
  rcases buildWork_cases j xn1 xn2Hex shareDiff out with ⟨d, hd⟩ | ⟨-, hd⟩
  · exact ⟨d, (Prod.mk.inj (hbuilt.symm.trans hd)).2⟩
  · obtain ⟨hflag, -⟩ := Prod.mk.inj (hbuilt.symm.trans hd)
    cases hflag

/-- A job that the Stratum client passes on is one it has just built, for the
difficulty that it then has. -/
theorem StratumV1Client.handleMessage_onJob {text : JsonText}
    {c c' : StratumV1Client} {msg : Json} {job : MiningJob} {seed : List UInt8}
    (hok : handleMessage text c msg = .ok (c', some (.onJob job seed))) :
    ∃ j xn1 xn2, buildWork j xn1 xn2 c'.difficulty {} = (true, job) := by
  have hrebuilt : ∀ {held : StratumV1Client},
      rebuildJob held = .ok (c', some (.onJob job seed)) →
        ∃ j xn1 xn2, buildWork j xn1 xn2 c'.difficulty {} = (true, job) := by
    intro held hok
    obtain ⟨hclient, hnone | ⟨xn2, mj, -, -, hbuilt, heq⟩⟩ :=
      rebuildJob_eq_ok hok
    · cases hnone
    · obtain ⟨rfl, -⟩ := Callback.onJob.inj (Option.some.inj heq)
      have hdifficulty : c'.difficulty = held.difficulty := by
        rcases hclient with rfl | rfl <;> rfl
      rw [hdifficulty]
      exact ⟨_, _, _, hbuilt⟩
  rw [handleMessage_eq] at hok
  obtain ⟨received, -, hok⟩ := bind_eq_ok.mp hok
  cases received with
  | setDifficulty difficulty => exact hrebuilt hok
  | notify job => exact hrebuilt hok
  | reconnect => cases hok
  | response id =>
      exact absurd rfl ((handleResponse_eq_ok hok).2 job seed)
  | nothing => cases hok

theorem MoneroClient.applyJob_onJob {c c' : MoneroClient} {j : Json}
    {job : MiningJob} {seed : List UInt8} {taken : Bool}
    (happly : c.applyJob j = .ok (taken, c', some (.onJob job seed))) :
    readJob j = .ok (some job) ∧
      c'.difficulty = targetToDifficulty job.target := by
  rcases applyJob_eq_ok happly with
    ⟨-, -, -, ⟨⟩⟩ | ⟨mj, hmj, rfl, ⟨-, ⟨⟩, -⟩ | ⟨seed', -, -, hcallback⟩⟩
  obtain ⟨rfl, -⟩ := Callback.onJob.inj (Option.some.inj hcallback)
  exact ⟨readJob_eq_some.mpr hmj, rfl⟩

/-- A job that the Monero client passes on is one it has just read, and the
client has then the difficulty of its target. -/
theorem MoneroClient.handle_onJob {text : JsonText} {c c' : MoneroClient}
    {msg : Json} {job : MiningJob} {seed : List UInt8}
    (hok : handle text c msg = .ok (c', some (.onJob job seed))) :
    ∃ j, readJob j = .ok (some job) ∧
      c'.difficulty = targetToDifficulty job.target := by
  rw [handle_eq] at hok
  obtain ⟨received, -, hok⟩ := bind_eq_ok.mp hok
  cases received with
  | job params =>
      obtain ⟨⟨taken, c₁, callback⟩, happlied, hok⟩ := bind_eq_ok.mp hok
      obtain ⟨rfl, rfl⟩ := Prod.mk.inj (Except.ok.inj hok)
      exact ⟨params, applyJob_onJob happlied⟩
  | response id =>
      simp only [handleReceived, handleResponse] at hok
      split at hok
      · split at hok
        · cases hok
        · obtain ⟨result, -, hok⟩ := bind_eq_ok.mp hok
          obtain ⟨rpcId, -, hok⟩ := bind_eq_ok.mp hok
          simp only at hok
          split at hok
          · obtain ⟨⟨taken, c₁, callback⟩, happlied, hok⟩ := bind_eq_ok.mp hok
            obtain ⟨rfl, rfl⟩ := Prod.mk.inj (Except.ok.inj hok)
            exact ⟨_, applyJob_onJob happlied⟩
          · cases hok
      · split at hok
        · obtain ⟨accepted, -, hok⟩ := bind_eq_ok.mp hok
          cases hok
        · cases hok
  | nothing => cases hok

namespace PoolClient

theorem make_protocol (protocol : Protocol) (user pass : String) :
    (make protocol user pass).protocol = protocol := by
  cases protocol <;> rfl

theorem disconnect_protocol (c : PoolClient) :
    c.disconnect.protocol = c.protocol := by
  cases c <;> rfl

theorem submit_protocol (c : PoolClient) (job : MiningJob) (nonce : UInt32)
    (digest : Hash256) : (c.submit job nonce digest).1.protocol = c.protocol := by
  cases c <;> rfl

/-- A job that a message gives is laid out by the protocol. -/
theorem handle_laid {text : JsonText} {c c' : PoolClient} {msg : Json}
    {job : MiningJob} {seed : List UInt8}
    (hok : c.handle text msg = .ok (c', some (.onJob job seed))) :
    job.Laid c.protocol := by
  cases c with
  | stratum c =>
      obtain ⟨⟨held, callback⟩, hresult, hpair⟩ := bind_eq_ok.mp hok
      obtain ⟨rfl, rfl⟩ := Prod.mk.inj (Except.ok.inj hpair)
      obtain ⟨j, xn1, xn2, hbuilt⟩ :=
        StratumV1Client.handleMessage_onJob hresult
      obtain ⟨d, rfl⟩ := buildWork_decoded hbuilt
      exact d.miningJob_laid _ _
  | monero c =>
      obtain ⟨⟨held, callback⟩, hresult, hpair⟩ := bind_eq_ok.mp hok
      obtain ⟨rfl, rfl⟩ := Prod.mk.inj (Except.ok.inj hpair)
      obtain ⟨j, hread, -⟩ := MoneroClient.handle_onJob hresult
      exact MinerPool.readJob_layout hread

theorem poll_protocol {text : JsonText} {c c' : PoolClient} {due flag : Bool}
    {script rest : List RecvResult} {callback : Option Callback}
    (hok : c.poll text due script = .ok (flag, c', callback, rest)) :
    c'.protocol = c.protocol := by
  rw [← c.receive_protocol due script]
  rcases poll_eq_ok hok with ⟨-, rfl, -⟩ | ⟨msg, -, hhandled⟩
  · rfl
  · exact handle_protocol hhandled

/-- A job that a poll passes on was given by a message. -/
theorem poll_onJob {text : JsonText} {c c' : PoolClient} {due flag : Bool}
    {script rest : List RecvResult} {job : MiningJob} {seed : List UInt8}
    (hok : c.poll text due script =
      .ok (flag, c', some (.onJob job seed), rest)) :
    ∃ msg, (c.receive due script).handle text msg =
      .ok (c', some (.onJob job seed)) := by
  rcases poll_eq_ok hok with ⟨-, -, hnone⟩ | ⟨msg, -, hhandled⟩
  · cases hnone
  · exact ⟨msg, hhandled⟩

theorem poll_laid {text : JsonText} {c c' : PoolClient} {due flag : Bool}
    {script rest : List RecvResult} {job : MiningJob} {seed : List UInt8}
    (hok : c.poll text due script =
      .ok (flag, c', some (.onJob job seed), rest)) :
    job.Laid c.protocol := by
  obtain ⟨msg, hhandled⟩ := poll_onJob hok
  rw [← c.receive_protocol due script]
  exact handle_laid hhandled

end PoolClient

namespace Rig

variable {threads : UInt32} {setup : Setup} {rig rig' : Rig threads}

/-- What a step of the mining side makes of the pool: nothing, or one step of
the pool, which sets only the callback's job and logs only a digest that the
worker's hasher computes. -/
inductive PoolMove (setup : Setup) (rig rig' : Rig threads) : Prop
  | rest (same : rig'.pool = rig.pool)
  | moves (label : MinerPool.Label threads Hasher)
      (taken : MinerPool.step rig.pool label = some rig'.pool)
      (sets : ∀ job, label = .call (.setWork job) →
        ∃ rekeyed, rig.pc = .setWork rekeyed job)
      (hashes : ∀ i digest, label = .hashed i digest →
        ∃ hasher, (rig.pool.workers i).hasher = some hasher ∧
          rig.Computes setup hasher (rig.pool.workers i).blob digest)

theorem PoolMove.of_call {call : Call} {pc : OnJobPc}
    (hcall : rig.call call pc = some rig')
    (hsets : ∀ job, call = .setWork job → ∃ rekeyed, rig.pc = .setWork rekeyed job) :
    PoolMove setup rig rig' := by
  obtain ⟨pool, hpool, rfl⟩ := call_eq_some.mp hcall
  refine .moves (.call call) ?_ ?_ ?_
  · exact hpool
  · intro job hlabel
    exact hsets job (MinerPool.Label.call.inj hlabel)
  · intro i digest hlabel
    cases hlabel

theorem mainStep_poolMove (hstep : rig.mainStep = some rig') :
    PoolMove setup rig rig' := by
  unfold mainStep at hstep
  split at hstep
  case h_2 =>
    obtain ⟨pool, hpool, rfl⟩ := Option.map_eq_some_iff.mp hstep
    exact .moves .ctl hpool nofun nofun
  case h_1 =>
    cases hpc : rig.pc with
    | idle => simp [hpc] at hstep
    | pause job seed =>
        simp only [hpc] at hstep
        exact .of_call hstep nofun
    | rebuild job =>
        simp only [hpc] at hstep
        exact .of_call hstep nofun
    | resume job =>
        simp only [hpc] at hstep
        exact .of_call hstep nofun
    | start rekeyed job =>
        simp only [hpc] at hstep
        exact .of_call hstep nofun
    | setWork rekeyed job =>
        simp only [hpc] at hstep
        obtain ⟨pool, hpool, rfl⟩ := call_eq_some.mp hstep
        refine .moves (.call (.setWork job)) ?_ ?_ ?_
        · exact hpool
        · intro other hlabel
          obtain rfl := Call.setWork.inj (MinerPool.Label.call.inj hlabel)
          exact ⟨rekeyed, hpc⟩
        · intro i digest hlabel
          cases hlabel
    | ensureSeed wasRunning job seed =>
        simp only [hpc] at hstep
        split at hstep <;>
        · obtain rfl := Option.some.inj hstep
          exact .rest rfl
    | _ =>
        simp only [hpc, Option.some.injEq] at hstep
        subst hstep
        exact .rest rfl

theorem step_poolMove {label : RigLabel threads}
    (hstep : rig.step setup label = some rig') : PoolMove setup rig rig' := by
  cases label with
  | onJob job seed =>
      cases step_stepped hstep
      exact .rest rfl
  | clearWork =>
      simp only [Rig.step] at hstep
      split at hstep
      · exact .of_call hstep (by rintro _ ⟨⟩)
      · cases hstep
  | stop =>
      simp only [Rig.step] at hstep
      split at hstep
      · exact .of_call hstep (by rintro _ ⟨⟩)
      · cases hstep
  | main => exact mainStep_poolMove hstep
  | worker i =>
      obtain ⟨pool, hpool, rfl⟩ := Option.map_eq_some_iff.mp hstep
      exact .moves (.worker i) hpool (by rintro _ ⟨⟩) (by rintro _ _ ⟨⟩)
  | made i =>
      simp only [Rig.step] at hstep
      split at hstep
      · cases hstep
      · rename_i hasher hmake
        obtain ⟨pool, hpool, rfl⟩ := Option.map_eq_some_iff.mp hstep
        exact .moves (.made i hasher) hpool (by rintro _ ⟨⟩) (by rintro _ _ ⟨⟩)
  | hashed i digest =>
      simp only [Rig.step] at hstep
      split at hstep
      · cases hstep
      · rename_i hasher hhasher
        split at hstep
        · rename_i hcomputes
          obtain ⟨pool, hpool, rfl⟩ := Option.map_eq_some_iff.mp hstep
          refine .moves (.hashed i digest) ?_ (by rintro _ ⟨⟩) ?_
          · exact hpool
          · intro j digest' hlabel
            obtain ⟨rfl, rfl⟩ := MinerPool.Label.hashed.inj hlabel
            exact ⟨hasher, hhasher, hcomputes⟩
        · cases hstep

/-- What a step of the mining side makes of the pool, without its guard. -/
theorem step_pool {label : RigLabel threads}
    (hstep : rig.step setup label = some rig') :
    Stutters MinerPool.step anyLabel rig.pool rig'.pool := by
  cases step_poolMove hstep with
  | rest same => exact Or.inl same
  | moves label taken sets hashes => exact Or.inr ⟨label, trivial, taken⟩

/-- The steps whose jobs, once the test option has overridden their target, are
all of one kind. -/
def Delivers (good : MiningJob → Prop) (setup : Setup) (_ : Rig threads) :
    RigLabel threads → Prop
  | .onJob job _ => good (testTarget setup job)
  | _ => True

end Rig

/-- The job that the callback has been handed and not yet set. -/
def OnJobPc.job? : OnJobPc → Option MiningJob
  | .idle => none
  | .loadRunning job _ => some job
  | .pause job _ => some job
  | .ensureSeed _ job _ => some job
  | .keying _ job _ => some job
  | .rebuild job => some job
  | .resume job => some job
  | .checkRunning _ job => some job
  | .start _ job => some job
  | .setWork _ job => some job
  | .installing _ => none

namespace Rig

variable {threads : UInt32} {setup : Setup} {rig rig' : Rig threads}

/-- The callback holds on to the job it was handed. -/
theorem MainTurn.job? (hturn : MainTurn rig rig') :
    rig'.pc.job? = rig.pc.job? ∨ rig'.pc.job? = none := by
  cases hturn with
  | sameSeed idle pc same =>
      rename_i wasRunning job seed
      cases wasRunning <;> simp [keyed, OnJobPc.job?, pc]
  | endKeying idle pc =>
      rename_i wasRunning job seed
      cases wasRunning <;> simp [keyed, OnJobPc.job?, pc]
  | _ => simp_all [OnJobPc.job?]

theorem step_job? {good : MiningJob → Prop} {label : RigLabel threads}
    (hjob : ∀ job, rig.pc.job? = some job → good job)
    (hok : Delivers good setup rig label)
    (hstep : rig.step setup label = some rig') :
    ∀ job, rig'.pc.job? = some job → good job := by
  have hkept : rig'.pc.job? = rig.pc.job? ∨ rig'.pc.job? = none →
      ∀ job, rig'.pc.job? = some job → good job := by
    rintro (hsame | hnone) job hpc
    · exact hjob job (hsame ▸ hpc)
    · simp [hnone] at hpc
  cases step_stepped hstep with
  | onJob idle pc =>
      intro job hpc
      simp only at hpc
      split at hpc <;>
      · obtain rfl := Option.some.inj hpc
        exact hok
  | clearWork pc called => exact hkept (Or.inr rfl)
  | stop pc called => exact hkept (Or.inr rfl)
  | main turn => exact hkept turn.job?
  | worker turned => exact hkept (Or.inl (congrArg OnJobPc.job? turned.pc))
  | made turned => exact hkept (Or.inl (congrArg OnJobPc.job? turned.pc))
  | hashed turned => exact hkept (Or.inl (congrArg OnJobPc.job? turned.pc))

theorem testTarget_laid {protocol : Protocol} {job : MiningJob}
    (hlaid : job.Laid protocol) : (testTarget setup job).Laid protocol := by
  have hkept : (testTarget setup job).nonceOffset = job.nonceOffset ∧
      (testTarget setup job).blob = job.blob := by
    unfold testTarget
    split <;> exact ⟨rfl, rfl⟩
  simp only [MiningJob.Laid, hkept.1, hkept.2]
  exact hlaid

end Rig

/-- The steps of the pool that set only jobs of one kind. -/
def MinerPool.SetsOnly (good : MiningJob → Prop) {threads : UInt32}
    {H : Type} (_ : MinerPool.State threads H) :
    MinerPool.Label threads H → Prop
  | .call (.setWork job) => good job
  | _ => True

namespace Rig

variable {threads : UInt32} {setup : Setup} {rig rig' : Rig threads}
  {good : MiningJob → Prop}

theorem PoolMove.stutters (hmove : PoolMove setup rig rig')
    (hjob : ∀ job, rig.pc.job? = some job → good job) :
    Stutters MinerPool.step (MinerPool.SetsOnly good) rig.pool rig'.pool := by
  cases hmove with
  | rest same => exact Or.inl same
  | moves label taken sets hashes =>
      refine Or.inr ⟨label, ?_, taken⟩
      cases label with
      | call call =>
          cases call with
          | setWork job =>
              obtain ⟨rekeyed, hpc⟩ := sets job rfl
              exact hjob job (by rw [hpc]; rfl)
          | _ => trivial
      | _ => trivial

/-- Every run of the mining side is, for the pool, a run of the pool alone,
which sets only the jobs delivered. -/
theorem pool_of_run {labels : List (RigLabel threads)}
    (hrun : Run (Rig.step setup) (Delivers good setup) {} labels rig) :
    ∃ poolLabels, Run MinerPool.step (MinerPool.SetsOnly good)
      (MinerPool.init threads Hasher) poolLabels rig.pool := by
  apply And.right (hrun.project Rig.pool
    (fun rig => ∀ job, rig.pc.job? = some job → good job) nofun _)
  intro state label next hjob hok hstep
  exact ⟨step_job? hjob hok hstep, (step_poolMove hstep).stutters hjob⟩

end Rig

namespace Miner

variable {threads : UInt32} {setup : Setup} {text : JsonText}
  {s s' : Miner threads}

/-- What a step of a worker inside `on_share` makes of the mining side and the
client: the worker may return from it, and the client may take an id. -/
structure Shares (s s' : Miner threads) (i : Fin threads.toNat) : Prop where
  rig : s'.rig = s.rig ∨ s.rig.workerStep i = some s'.rig
  client : s'.client = s.client ∨ ∃ job nonce digest,
    s'.client = (s.client.submit job nonce digest).1

theorem submit_shares {i : Fin threads.toNat}
    (hstep : s.submit text i = some s') : Shares s s' i := by
  unfold Miner.submit at hstep
  simp only at hstep
  split at hstep
  · rename_i done digest p hsending hpc hp
    split at hstep
    · obtain rfl := Option.some.inj hstep
      exact ⟨Or.inl rfl, Or.inr ⟨_, _, _, rfl⟩⟩
    · obtain ⟨rig, hrig, rfl⟩ := Option.map_eq_some_iff.mp hstep
      exact ⟨Or.inr hrig, Or.inr ⟨_, _, _, rfl⟩⟩
  · cases hstep

theorem send_shares {i : Fin threads.toNat} {result : SendResult}
    (hstep : s.send i result = some s') : Shares s s' i := by
  unfold Miner.send at hstep
  simp only at hstep
  split at hstep
  · split at hstep
    · split at hstep
      · split at hstep
        · obtain ⟨rig, hrig, rfl⟩ := Option.map_eq_some_iff.mp hstep
          exact ⟨Or.inr hrig, Or.inl rfl⟩
        · obtain rfl := Option.some.inj hstep
          exact ⟨Or.inl rfl, Or.inl rfl⟩
      · obtain ⟨rig, hrig, rfl⟩ := Option.map_eq_some_iff.mp hstep
        exact ⟨Or.inr hrig, Or.inl rfl⟩
    · cases hstep
  · cases hstep

/-- What was sent of submit lines, and what is being sent, stay. -/
structure SameWire (s s' : Miner threads) : Prop where
  wire : s'.wire = s.wire
  sending : s'.sending = s.sending
  calls : s'.calls = s.calls

/-- Everything a step of the program can be to the mining side and the client:
the main thread outside the callback, without a call of the pool or entering
one; the start of the callback, and its course or that of a call; a worker
outside `on_share`, and one inside. -/
inductive Turn (setup : Setup) (text : JsonText) (s s' : Miner threads) :
    LoopLabel threads → Prop
  | outside {label : LoopLabel threads} (free : s.free = true)
      (wire : SameWire s s') (rig : s'.rig = s.rig)
      (protocol : s'.client.protocol = s.client.protocol) :
      Turn setup text s s' label
  | enters {label : RigLabel threads} (free : s.free = true)
      (wire : SameWire s s') (calls : label = .clearWork ∨ label = .stop)
      (taken : s.rig.step setup label = some s'.rig)
      (client : s'.client = s.client) : Turn setup text s s' .main
  | delivers {due flag : Bool} {script rest : List RecvResult}
      {job : MiningJob} {seed : List UInt8} (free : s.free = true)
      (wire : SameWire s s')
      (polled : s.client.poll text due script =
        .ok (flag, s'.client, some (.onJob job seed), rest))
      (taken : s.rig.step setup (.onJob job seed) = some s'.rig) :
      Turn setup text s s' (.poll due script)
  | goesOn (wire : SameWire s s')
      (taken : s.rig.step setup .main = some s'.rig)
      (client : s'.client = s.client) : Turn setup text s s' .main
  | worker {i : Fin threads.toNat} (apart : s.atShare i = false)
      (wire : SameWire s s')
      (taken : s.rig.step setup (.worker i) = some s'.rig)
      (client : s'.client = s.client) : Turn setup text s s' (.worker i)
  | made {i : Fin threads.toNat} (wire : SameWire s s')
      (taken : s.rig.step setup (.made i) = some s'.rig)
      (client : s'.client = s.client) : Turn setup text s s' (.made i)
  | hashed {i : Fin threads.toNat} {digest : Hash256} (wire : SameWire s s')
      (taken : s.rig.step setup (.hashed i digest) = some s'.rig)
      (client : s'.client = s.client) : Turn setup text s s' (.hashed i digest)
  | submit {i : Fin threads.toNat} (shares : Shares s s' i) :
      Turn setup text s s' (.submit i)
  | send {i : Fin threads.toNat} {result : SendResult}
      (shares : Shares s s' i) : Turn setup text s s' (.send i result)

theorem connect_turn {opened : Bool} {firstSends secondSends : List SendResult}
    {label : LoopLabel threads}
    (hstep : s.connect text opened firstSends secondSends = some s') :
    Turn setup text s s' label := by
  unfold Miner.connect at hstep
  split at hstep
  · rename_i hfree
    obtain rfl := Option.some.inj hstep
    exact .outside hfree.1 ⟨rfl, rfl, rfl⟩ rfl
      (s.client.connectStart_protocol text _ _ _)
  · cases hstep

theorem poll_turn {due : Bool} {script : List RecvResult}
    (hstep : s.poll setup text due script = some s') :
    Turn setup text s s' (.poll due script) := by
  unfold Miner.poll at hstep
  split at hstep
  · rename_i next hfree hnext
    split at hstep
    · cases hstep
    · rename_i flag client job seed rest hpoll
      obtain ⟨rig, hrig, rfl⟩ := Option.map_eq_some_iff.mp hstep
      exact .delivers hfree ⟨rfl, rfl, rfl⟩ hpoll hrig
    · rename_i flag client callback rest hother hpoll
      obtain rfl := Option.some.inj hstep
      exact .outside hfree ⟨rfl, rfl, rfl⟩ rfl (PoolClient.poll_protocol hpoll)
  · cases hstep

theorem mainStep_turn (hstep : s.mainStep = some s') :
    Turn setup text s s' .main := by
  unfold Miner.mainStep at hstep
  split at hstep
  case isFalse =>
    obtain ⟨rig, hrig, rfl⟩ := Option.map_eq_some_iff.mp hstep
    exact .goesOn ⟨rfl, rfl, rfl⟩ hrig rfl
  case isTrue hfree =>
    have hidle : s.rig.pc = .idle := (of_decide_eq_true hfree).2
    split at hstep
    · obtain rfl := Option.some.inj hstep
      exact .outside hfree ⟨rfl, rfl, rfl⟩ rfl s.client.disconnect_protocol
    · obtain ⟨rig, hrig, rfl⟩ := Option.map_eq_some_iff.mp hstep
      refine .enters hfree ⟨rfl, rfl, rfl⟩ (Or.inl rfl) ?_ rfl
      simp only [Rig.step, hidle]
      exact hrig
    · obtain ⟨rig, hrig, rfl⟩ := Option.map_eq_some_iff.mp hstep
      refine .enters hfree ⟨rfl, rfl, rfl⟩ (Or.inr rfl) ?_ rfl
      simp only [Rig.step, hidle]
      exact hrig
    · obtain rfl := Option.some.inj hstep
      exact .outside hfree ⟨rfl, rfl, rfl⟩ rfl s.client.disconnect_protocol
    · cases hstep

theorem step_turn {label : LoopLabel threads}
    (hstep : s.step setup text label = some s') :
    Turn setup text s s' label := by
  cases label with
  | leave =>
      simp only [Miner.step] at hstep
      split at hstep
      · rename_i hfree
        obtain rfl := Option.some.inj hstep
        exact .outside hfree.1 ⟨rfl, rfl, rfl⟩ rfl rfl
      · cases hstep
  | connect opened firstSends secondSends => exact connect_turn hstep
  | connected =>
      simp only [Miner.step] at hstep
      split at hstep
      · rename_i left hfree hpc
        split at hstep
        · obtain rfl := Option.some.inj hstep
          exact .outside hfree ⟨rfl, rfl, rfl⟩ rfl rfl
        · split at hstep
          · obtain rfl := Option.some.inj hstep
            exact .outside hfree ⟨rfl, rfl, rfl⟩ rfl rfl
          · cases hstep
      · cases hstep
  | poll due script => exact poll_turn hstep
  | watchdog fired =>
      simp only [Miner.step] at hstep
      split at hstep
      · rename_i hfree
        obtain rfl := Option.some.inj hstep
        exact .outside hfree.1 ⟨rfl, rfl, rfl⟩ rfl rfl
      · cases hstep
  | main => exact mainStep_turn hstep
  | worker i =>
      simp only [Miner.step] at hstep
      split at hstep
      · cases hstep
      · rename_i hshare
        obtain ⟨rig, hrig, rfl⟩ := Option.map_eq_some_iff.mp hstep
        exact .worker (Bool.eq_false_iff.mpr hshare) ⟨rfl, rfl, rfl⟩ hrig rfl
  | made i =>
      obtain ⟨rig, hrig, rfl⟩ := Option.map_eq_some_iff.mp hstep
      exact .made ⟨rfl, rfl, rfl⟩ hrig rfl
  | hashed i digest =>
      obtain ⟨rig, hrig, rfl⟩ := Option.map_eq_some_iff.mp hstep
      exact .hashed ⟨rfl, rfl, rfl⟩ hrig rfl
  | submit i => exact .submit (submit_shares hstep)
  | send i result => exact .send (send_shares hstep)

/-- What a step of the program makes of the mining side and the client: nothing
or one step of the mining side, where a job that is delivered is laid out as
the protocol does it, and a client of the same protocol. -/
structure Moved (setup : Setup) (s s' : Miner threads) : Prop where
  rig : Stutters (Rig.step setup)
    (Rig.Delivers (MiningJob.Laid s.client.protocol) setup) s.rig s'.rig
  protocol : s'.client.protocol = s.client.protocol

theorem Shares.moved {i : Fin threads.toNat} (hshares : Shares s s' i) :
    Moved setup s s' := by
  constructor
  · rcases hshares.rig with hsame | hstep
    · exact Or.inl hsame
    · exact Or.inr ⟨.worker i, trivial, hstep⟩
  · rcases hshares.client with hsame | ⟨job, nonce, digest, hsubmit⟩
    · rw [hsame]
    · rw [hsubmit]
      exact s.client.submit_protocol job nonce digest

theorem Turn.moved {label : LoopLabel threads}
    (hturn : Turn setup text s s' label) : Moved setup s s' := by
  cases hturn with
  | outside free wire rig protocol => exact ⟨Or.inl rig, protocol⟩
  | enters free wire calls taken client =>
      refine ⟨Or.inr ⟨_, ?_, taken⟩, congrArg _ client⟩
      rcases calls with rfl | rfl <;> trivial
  | delivers free wire polled taken =>
      refine ⟨Or.inr ⟨_, ?_, taken⟩, PoolClient.poll_protocol polled⟩
      exact Rig.testTarget_laid (PoolClient.poll_laid polled)
  | goesOn wire taken client =>
      exact ⟨Or.inr ⟨.main, trivial, taken⟩, congrArg _ client⟩
  | worker apart wire taken client =>
      exact ⟨Or.inr ⟨.worker _, trivial, taken⟩, congrArg _ client⟩
  | made wire taken client =>
      exact ⟨Or.inr ⟨.made _, trivial, taken⟩, congrArg _ client⟩
  | hashed wire taken client =>
      exact ⟨Or.inr ⟨.hashed _ _, trivial, taken⟩, congrArg _ client⟩
  | submit shares => exact shares.moved
  | send shares => exact shares.moved

theorem step_moved {label : LoopLabel threads}
    (hstep : s.step setup text label = some s') : Moved setup s s' :=
  (step_turn hstep).moved

theorem Moved.pool (hmoved : Moved setup s s') :
    Stutters MinerPool.step anyLabel s.rig.pool s'.rig.pool := by
  rcases hmoved.rig with hsame | ⟨label, -, hstep⟩
  · exact Or.inl (congrArg Rig.pool hsame)
  · exact Rig.step_pool hstep

/-- A step in which no worker is in `on_share`: what was sent and what is being
sent stay, and the mining side takes at most a step of its own. -/
structure Quiet (setup : Setup) (s s' : Miner threads) : Prop
    extends SameWire s s' where
  rig : s'.rig = s.rig ∨ ∃ label,
    (∀ i, label = .worker i → s.atShare i = false) ∧
      s.rig.step setup label = some s'.rig

/-- A step is quiet, or it is a worker's in `on_share`. -/
theorem step_quiet {label : LoopLabel threads}
    (hstep : s.step setup text label = some s') :
    Quiet setup s s' ∨ (∃ i, s.submit text i = some s') ∨
      ∃ i result, s.send i result = some s' := by
  cases step_turn hstep with
  | outside free wire rig protocol => exact Or.inl ⟨wire, Or.inl rig⟩
  | enters free wire calls taken client =>
      refine Or.inl ⟨wire, Or.inr ⟨_, ?_, taken⟩⟩
      rcases calls with rfl | rfl <;> rintro i ⟨⟩
  | delivers free wire polled taken =>
      exact Or.inl ⟨wire, Or.inr ⟨_, by rintro i ⟨⟩, taken⟩⟩
  | goesOn wire taken client =>
      exact Or.inl ⟨wire, Or.inr ⟨_, by rintro i ⟨⟩, taken⟩⟩
  | worker apart wire taken client =>
      refine Or.inl ⟨wire, Or.inr ⟨_, ?_, taken⟩⟩
      rintro j ⟨⟩
      exact apart
  | made wire taken client =>
      exact Or.inl ⟨wire, Or.inr ⟨_, by rintro i ⟨⟩, taken⟩⟩
  | hashed wire taken client =>
      exact Or.inl ⟨wire, Or.inr ⟨_, by rintro i ⟨⟩, taken⟩⟩
  | submit shares => exact Or.inr (Or.inl ⟨_, hstep⟩)
  | send shares => exact Or.inr (Or.inr ⟨_, _, hstep⟩)

/-- Every run of the program is, for the mining side, a run of it alone. -/
theorem rig_run {user pass : String} {labels : List (LoopLabel threads)}
    (hrun : Run (Miner.step setup text) anyLabel (Miner.init setup user pass)
      labels s) :
    ∃ rigLabels, Run (Rig.step setup)
      (Rig.Delivers (MiningJob.Laid setup.protocol) setup) {} rigLabels
      s.rig := by
  apply And.right (hrun.project Miner.rig
    (fun s => s.client.protocol = setup.protocol) _ _)
  · exact PoolClient.make_protocol setup.protocol user pass
  · intro state label next hprotocol _ hstep
    have hmoved := step_moved hstep
    rw [← hprotocol]
    exact ⟨hmoved.protocol, hmoved.rig⟩

/-- The program refines its worker pool: every run of the program is, for the
pool, a run of the pool alone, in which every job that is set is laid out as the
protocol's client does it. -/
theorem pool_run {user pass : String} {labels : List (LoopLabel threads)}
    (hrun : Run (Miner.step setup text) anyLabel (Miner.init setup user pass)
      labels s) :
    ∃ poolLabels, Run MinerPool.step
      (MinerPool.SetsOnly (MiningJob.Laid setup.protocol))
      (MinerPool.init threads Hasher) poolLabels s.rig.pool := by
  obtain ⟨rigLabels, hrig⟩ := rig_run hrun
  exact Rig.pool_of_run hrig

/-- The run in which a first share is submitted, seen from the pool. -/
theorem sharing_pool_run :
    ∃ s : Miner 1, Run (Miner.step stratumSetup minerText) anyLabel
        (Miner.init stratumSetup "u" "x") (miningLabels ++ sharingLabels) s ∧
      ∃ poolLabels, Run MinerPool.step
        (MinerPool.SetsOnly (MiningJob.Laid .stratum))
        (MinerPool.init 1 Hasher) poolLabels s.rig.pool := by
  have hreplay : (replay (Miner.step stratumSetup minerText) anyLabel
      (Miner.init stratumSetup "u" "x")
      (miningLabels ++ sharingLabels)).isSome = true := by
    decide +kernel
  obtain ⟨s, hs⟩ := Option.isSome_iff_exists.mp hreplay
  have hrun := run_of_replay hs
  exact ⟨s, hrun, pool_run hrun⟩

end Miner

end Minerby
