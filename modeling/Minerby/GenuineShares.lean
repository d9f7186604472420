/-
What a worker reports.  It keeps its job, its copy of the blob and its nonce in
separate variables and writes the nonce into the blob in place; every digest it
compares is that of its own job's blob with the nonce spliced in, and it
reports exactly the digests that meet that job's target.
-/
import Minerby.PoolSound
import Minerby.MoneroClient

namespace Minerby

namespace MinerPool

variable {threads : UInt32} {H : Type}

/-- A nonce tried for a job, with the digest. -/
structure Attempt where
  work : JobPtr
  nonce : UInt32
  digest : Hash256
deriving Repr, DecidableEq

/-- The digest meets the target of the job. -/
def Attempt.meets (attempt : Attempt) : Bool :=
  meetsTarget attempt.digest attempt.work.job.target

/-- The nonce has its place in the job's blob. -/
def JobPtr.Fits (p : JobPtr) : Prop :=
  p.job.nonceOffset.toNat + 4 ≤ p.job.blob.length

/-- The job's blob with the bytes at the nonce offset replaced. -/
def JobPtr.spliced (p : JobPtr) (bytes : List UInt8) : List UInt8 :=
  p.job.blob.take p.job.nonceOffset.toNat ++ bytes ++
    p.job.blob.drop (p.job.nonceOffset.toNat + 4)

/-- Every job that is set has room for the nonce, and every hash is the value
of one function of the bytes. -/
def HashesWith (hash : List UInt8 → Hash256) (s : State threads H) :
    Label threads H → Prop
  | .call (.setWork job) => job.nonceOffset.toNat + 4 ≤ job.blob.length
  | .hashed i digest => digest = hash (s.workers i).blob
  | _ => True

instance (hash : List UInt8 → Hash256) (s : State threads H)
    (label : Label threads H) : Decidable (HashesWith hash s label) :=
  match label with
  | .call (.setWork job) =>
      inferInstanceAs (Decidable (job.nonceOffset.toNat + 4 ≤ job.blob.length))
  | .hashed i digest =>
      inferInstanceAs (Decidable (digest = hash (s.workers i).blob))
  | .call .start => .isTrue trivial
  | .call .stop => .isTrue trivial
  | .call .clearWork => .isTrue trivial
  | .call .pause => .isTrue trivial
  | .call .resume => .isTrue trivial
  | .call .rebuildHashers => .isTrue trivial
  | .ctl => .isTrue trivial
  | .worker _ => .isTrue trivial
  | .made _ _ => .isTrue trivial

/-- The hash that an event says worker `i` has computed. -/
def Event.hash? (i : Fin threads.toNat) : Event threads H → Option Attempt
  | .hashed j p nonce digest => if j = i then some ⟨p, nonce, digest⟩ else none
  | _ => none

/-- The call of `on_share` that an event says worker `i` has made. -/
def Event.share? (i : Fin threads.toNat) : Event threads H → Option Attempt
  | .share j p nonce digest => if j = i then some ⟨p, nonce, digest⟩ else none
  | _ => none

/-- The call of `on_share` that the worker is about to make. -/
def Worker.pendingShare (w : Worker H) : List Attempt :=
  match w.pc, w.work with
  | .sharing _ digest, some p => [⟨p, w.nonce, digest⟩]
  | _, _ => []

/-- The shares of every worker are its hashes that meet the target, in order;
every hash is that of its own job; and every job has room for the nonce. -/
structure Genuine (hash : List UInt8 → Hash256) (s : State threads H) :
    Prop where
  shares : ∀ i, (s.workers i).pendingShare ++ s.log.filterMap (Event.share? i) =
    (s.log.filterMap (Event.hash? i)).filter Attempt.meets
  digests : ∀ i p nonce digest, Event.hashed i p nonce digest ∈ s.log →
    p.Fits ∧ digest = hash (p.spliced (le32 nonce))
  work : ∀ p, s.work = some p → p.Fits
  setting : ∀ p, s.ctl = .settingWork p → p.Fits
  held : ∀ i p, (s.workers i).work = some p → p.Fits

theorem Genuine.init (hash : List UInt8 → Hash256) :
    Genuine hash (init threads H) := by
  constructor <;> simp [MinerPool.init, Worker.pendingShare]

/-- Only a worker that is at the call has a share pending. -/
theorem Worker.pendingShare_of_pc {w : Worker H}
    (hpc : ∀ done digest, w.pc ≠ .sharing done digest) :
    w.pendingShare = [] := by
  unfold Worker.pendingShare
  split
  · rename_i done digest p hsharing hwork
    exact absurd hsharing (hpc done digest)
  · rfl

theorem Worker.pendingShare_of_announced {w : Worker H}
    (hannounced : w.pc.announced = false) : w.pendingShare = [] := by
  refine Worker.pendingShare_of_pc fun done digest hpc => ?_
  rw [hpc] at hannounced
  cases hannounced

/-- What a hashing worker hands to `hash`. -/
theorem Sound.hashing_blob {s : State threads H} (hsound : Sound s)
    {i : Fin threads.toNat} {done : Nat} {p : JobPtr}
    (hpc : (s.workers i).pc = .hashing done)
    (hwork : (s.workers i).work = some p) (hfits : p.Fits) :
    (s.workers i).blob = p.spliced (le32 (s.workers i).nonce) := by
  have hblob := (hsound.blob i p hwork).spliced (by rw [hpc]; rfl)
  rw [hblob, spliceNonce, writeAt_eq_splice _ _ _ (by
    rw [length_le32]
    exact hfits), length_le32]
  rfl

theorem Worker.pendingShare_advance (w : Worker H) (done : Nat) :
    (w.advance threads done).pendingShare = [] := by
  apply Worker.pendingShare_of_pc
  intro done' digest' hpc
  have htrying := w.advance_trying threads done
  rw [hpc] at htrying
  cases htrying

/-- A turn that finds a share makes it pending, and the next one reports it. -/
theorem Turn.pendingShare_append {s : State threads H} {i : Fin threads.toNat}
    {label : Label threads H} {w : Worker H} {inFlight : UInt32}
    {event : Option (Event threads H)}
    (hturn : Turn s i label w inFlight event) :
    w.pendingShare ++ event.toList.filterMap (Event.share? i) =
      (event.toList.filterMap (Event.hash? i)).filter Attempt.meets ++
        (s.workers i).pendingShare := by
  cases hturn with
  | found done p digest hpc hwork hmeets =>
      simp [Worker.pendingShare, Event.share?, Event.hash?, Attempt.meets, hpc,
        hwork, hmeets]
  | missed done p digest hpc hwork hmeets =>
      simp [Worker.pendingShare, Event.share?, Event.hash?, Attempt.meets, hpc,
        hmeets]
  | next done hpc =>
      rw [Worker.pendingShare_advance]
      simp [Worker.pendingShare, hpc]
  | share done p digest hpc hwork =>
      rw [Worker.pendingShare_advance]
      simp [Worker.pendingShare, Event.share?, Event.hash?, hpc, hwork]
  | keepWork hpc same =>
      rw [Worker.pendingShare_of_announced (Worker.afterCheck_announced _)]
      simp [Worker.pendingShare, hpc]
  | pickup gen hpc =>
      rw [Worker.pendingShare_of_announced (Worker.afterCheck_announced _)]
      simp [Worker.pendingShare, hpc]
  | _ =>
      rw [Worker.pendingShare_of_pc (by simp),
        Worker.pendingShare_of_pc (by simp_all)]
      simp [List.filterMap_cons, Event.share?, Event.hash?]

/-- The shares and hashes of the worker that takes a turn. -/
theorem Turned.shares {s s' : State threads H} {i : Fin threads.toNat}
    {label : Label threads H} (hturned : Turned s s' i label)
    (hshares : (s.workers i).pendingShare ++ s.log.filterMap (Event.share? i) =
      (s.log.filterMap (Event.hash? i)).filter Attempt.meets) :
    (s'.workers i).pendingShare ++ s'.log.filterMap (Event.share? i) =
      (s'.log.filterMap (Event.hash? i)).filter Attempt.meets := by
  obtain ⟨w, inFlight, event, hturn, hw, -, hlog⟩ := hturned.turn
  rw [hw, hlog, List.filterMap_append, List.filterMap_append,
    List.filter_append, ← List.append_assoc, hturn.pendingShare_append,
    List.append_assoc, hshares]

/-- A worker's turn adds no hash and no share of another worker. -/
theorem Turn.attempts_of_ne {s : State threads H} {i j : Fin threads.toNat}
    {label : Label threads H} {w : Worker H} {inFlight : UInt32}
    {event : Option (Event threads H)}
    (hturn : Turn s i label w inFlight event) (hne : j ≠ i) :
    event.toList.filterMap (Event.share? j) = [] ∧
      event.toList.filterMap (Event.hash? j) = [] := by
  cases hturn <;>
    simp [List.filterMap_cons, Event.share?, Event.hash?, hne.symm]

theorem Sound.logged_digest {hash : List UInt8 → Hash256}
    {s : State threads H} {i j : Fin threads.toNat} {done : Nat}
    {p q : JobPtr} {nonce : UInt32} {digest digest' : Hash256}
    (hsound : Sound s) (hok : HashesWith hash s (.hashed i digest'))
    (hpc : (s.workers i).pc = .hashing done)
    (hwork : (s.workers i).work = some q) (hfits : q.Fits)
    (hmem : Event.hashed j p nonce digest ∈
      Event.hashed i q (s.workers i).nonce digest' :: s.log) :
    Event.hashed j p nonce digest ∈ s.log ∨
      p.Fits ∧ digest = hash (p.spliced (le32 nonce)) := by
  rcases List.mem_cons.mp hmem with hnew | hold
  · obtain ⟨rfl, rfl, rfl, rfl⟩ := Event.hashed.inj hnew
    rw [← hsound.hashing_blob hpc hwork hfits]
    exact Or.inr ⟨hfits, hok⟩
  · exact Or.inl hold

/-- A digest that is logged is the hash of the worker's blob. -/
theorem Turned.digests {hash : List UInt8 → Hash256} {s s' : State threads H}
    {i : Fin threads.toNat} {label : Label threads H}
    (hturned : Turned s s' i label) (hsound : Sound s)
    (hok : HashesWith hash s label)
    (hheld : ∀ p, (s.workers i).work = some p → p.Fits)
    {j : Fin threads.toNat} {p : JobPtr} {nonce : UInt32} {digest : Hash256}
    (hmem : Event.hashed j p nonce digest ∈ s'.log) :
    Event.hashed j p nonce digest ∈ s.log ∨
      p.Fits ∧ digest = hash (p.spliced (le32 nonce)) := by
  obtain ⟨w, inFlight, event, hturn, -, -, hlog⟩ := hturned.turn
  rw [hlog] at hmem
  cases hturn with
  | found done q digest' hpc hwork hmeets =>
      exact hsound.logged_digest hok hpc hwork (hheld q hwork) hmem
  | missed done q digest' hpc hwork hmeets =>
      exact hsound.logged_digest hok hpc hwork (hheld q hwork) hmem
  | _ => exact Or.inl (by simpa using hmem)

theorem Genuine.turned {hash : List UInt8 → Hash256} {s s' : State threads H}
    {i : Fin threads.toNat} {label : Label threads H}
    (hgenuine : Genuine hash s) (hsound : Sound s)
    (hok : HashesWith hash s label) (hturned : Turned s s' i label) :
    Genuine hash s' := by
  obtain ⟨w, inFlight, event, hturn, -, -, hlog⟩ := hturned.turn
  refine ⟨fun j => ?_, fun j p nonce digest hmem => ?_, ?_, ?_,
    fun j p hwork => ?_⟩
  · by_cases hj : j = i
    · subst hj
      exact hturned.shares (hgenuine.shares j)
    · obtain ⟨hshare, hhash⟩ := hturn.attempts_of_ne hj
      rw [hturned.others j hj, hlog, List.filterMap_append, List.filterMap_append,
        hshare, hhash]
      exact hgenuine.shares j
  · rcases hturned.digests hsound hok (hgenuine.held i) hmem with hold | hnew
    · exact hgenuine.digests j p nonce digest hold
    · exact hnew
  · rw [hturned.work]
    exact hgenuine.work
  · rw [hturned.ctl]
    exact hgenuine.setting
  · by_cases hj : j = i
    · subst hj
      rcases hturned.held p hwork with hheld | hpool
      · exact hgenuine.held j p hheld
      · exact hgenuine.work p hpool
    · rw [hturned.others j hj] at hwork
      exact hgenuine.held j p hwork

theorem Genuine.call {hash : List UInt8 → Hash256} {s s' : State threads H}
    {call : Call} (hgenuine : Genuine hash s)
    (hok : HashesWith hash s (.call call)) (hcalled : Called s s' call) :
    Genuine hash s' := by
  refine ⟨fun i => ?_, fun i p nonce digest hmem => ?_, ?_, fun p hctl => ?_, ?_⟩
  · rw [hcalled.workers, hcalled.log]
    exact hgenuine.shares i
  · rw [hcalled.log] at hmem
    rcases List.mem_cons.mp hmem with hnew | hold
    · cases hnew
    · exact hgenuine.digests i p nonce digest hold
  · rw [hcalled.work]
    exact hgenuine.work
  · obtain ⟨job, rfl, rfl⟩ := hcalled.settingWork hctl
    exact hok
  · rw [hcalled.workers]
    exact hgenuine.held

theorem Genuine.ctl {hash : List UInt8 → Hash256} {s s' : State threads H}
    (hgenuine : Genuine hash s) (hsound : Sound s)
    (hstep : ctlStep s = some s') : Genuine hash s' := by
  obtain ⟨hlog, -, -, -, -, hworkers⟩ := ctlStep_frame hstep
  obtain ⟨-, hctl, hwork⟩ := ctlStep_work hstep
  obtain ⟨-, -, hannounced⟩ := hsound.ctl_threads hstep
  refine ⟨fun i => ?_, ?_, fun p hp => ?_, fun p h => absurd h (hctl p),
    fun i p hp => ?_⟩
  · have hshares := hgenuine.shares i
    rw [hlog]
    rcases hannounced i with hsame | ⟨hold, hnew⟩
    · rw [hsame]
      exact hshares
    · rw [Worker.pendingShare_of_announced hold] at hshares
      rw [Worker.pendingShare_of_announced hnew]
      exact hshares
  · rw [hlog]
    exact hgenuine.digests
  · rcases hwork with hsame | hnone | ⟨q, hq, hset⟩
    · exact hgenuine.work p (hsame ▸ hp)
    · rw [hnone] at hp
      cases hp
    · obtain rfl := Option.some.inj (hset.symm.trans hp)
      exact hgenuine.setting q hq
  · rcases hworkers i with hsame | hboot | ⟨-, hjoined⟩
    · rw [hsame] at hp
      exact hgenuine.held i p hp
    · rw [hboot] at hp
      cases hp
    · rw [hjoined] at hp
      cases hp

theorem Genuine.run {hash : List UInt8 → Hash256}
    {labels : List (Label threads H)} {s : State threads H}
    (hrun : Run step (HashesWith hash) (MinerPool.init threads H) labels s) :
    Genuine hash s ∧ Sound s := by
  induction hrun with
  | nil => exact ⟨Genuine.init hash, Sound.init⟩
  | snoc label run allowed taken ih =>
      obtain ⟨hgenuine, hsound⟩ := ih
      refine ⟨?_, hsound.step taken⟩
      cases step_acted taken with
      | turn i turned => exact hgenuine.turned hsound allowed turned
      | call call called => exact hgenuine.call allowed called
      | ctl taken => exact hgenuine.ctl hsound taken

/-- A Monero job has the nonce at offset 39 and room for it. -/
theorem readJob_layout {j : Json} {mj : MiningJob}
    (hread : MoneroClient.readJob j = .ok (some mj)) :
    mj.nonceOffset = 39 ∧ 43 ≤ mj.blob.length := by
  unfold MoneroClient.readJob at hread
  obtain ⟨blobText, -, hread⟩ := bind_eq_ok.mp hread
  obtain ⟨blobValue, -, hread⟩ := bind_eq_ok.mp hread
  obtain ⟨blob, -, hread⟩ := bind_eq_ok.mp hread
  split at hread
  · cases hread
  · rename_i hlength
    obtain ⟨targetValue, -, hread⟩ := bind_eq_ok.mp hread
    obtain ⟨targetText, -, hread⟩ := bind_eq_ok.mp hread
    obtain ⟨target, -, hread⟩ := bind_eq_ok.mp hread
    obtain ⟨idValue, -, hread⟩ := bind_eq_ok.mp hread
    obtain ⟨jobId, -, hread⟩ := bind_eq_ok.mp hread
    obtain rfl := Option.some.inj (Except.ok.inj hread)
    exact ⟨rfl, not_lt.mp hlength⟩

/-- The strings that the pool decodes: the member `key` of the parameters. -/
def sentString (key : String) (message : Json) : Option String :=
  match (message.find? "params").bind (Json.find? key) with
  | some (.str s) => some s
  | _ => none

/-- What the pool makes of a submitted share of a job with the nonce at offset
39: the nonce string spliced into the job's blob is what was hashed, and the
result string is the digest. -/
theorem submit_decodes (c : MoneroClient) (p : JobPtr) (nonce : UInt32)
    (digest : Hash256) (hoffset : p.job.nonceOffset = 39) :
    ∃ nonceText resultText bytes,
      sentString "nonce" (c.submit p.job nonce digest).2 = some nonceText ∧
      sentString "result" (c.submit p.job nonce digest).2 = some resultText ∧
      fromHex nonceText = .ok bytes ∧
      fromHex resultText = .ok digest.toList ∧
      p.job.blob.take 39 ++ bytes ++ p.job.blob.drop 43 =
        p.spliced (le32 nonce) := by
  refine ⟨toHex (le32 nonce), toHex digest.toList, le32 nonce, rfl, rfl,
    fromHex_toHex _, fromHex_toHex _, ?_⟩
  rw [JobPtr.spliced, hoffset]
  rfl

/-- In every run with jobs that have room for the nonce and a hasher that is a
function of the bytes: the calls of `on_share` of each worker, with one that it
is about to make, are exactly its hashes that meet the target of their job, in
order; what a worker hands to `hash` is its job's blob with its nonce spliced
in, so every hash and every share is the digest of that for one and the same
job; and for a job of the Monero client, the pool finds that blob and that
digest in the strings submitted. -/
theorem shares_genuine (hash : List UInt8 → Hash256)
    {labels : List (Label threads H)} {s : State threads H}
    (hrun : Run step (HashesWith hash) (init threads H) labels s)
    (i : Fin threads.toNat) :
    (s.workers i).pendingShare ++ s.log.filterMap (Event.share? i) =
        (s.log.filterMap (Event.hash? i)).filter Attempt.meets ∧
      (∀ done p, (s.workers i).pc = .hashing done →
        (s.workers i).work = some p →
          (s.workers i).blob = p.spliced (le32 (s.workers i).nonce)) ∧
      (∀ attempt ∈ s.log.filterMap (Event.hash? i),
        attempt.digest =
          hash (attempt.work.spliced (le32 attempt.nonce))) ∧
      ∀ attempt ∈ s.log.filterMap (Event.share? i),
        attempt.meets = true ∧
        attempt.digest = hash (attempt.work.spliced (le32 attempt.nonce)) ∧
        ∀ (c : MoneroClient) (j : Json) (mj : MiningJob),
          MoneroClient.readJob j = .ok (some mj) →
          attempt.work.job.blob = mj.blob →
          attempt.work.job.nonceOffset = mj.nonceOffset →
            ∃ nonceText resultText bytes,
              sentString "nonce" (c.submit attempt.work.job attempt.nonce
                attempt.digest).2 = some nonceText ∧
              sentString "result" (c.submit attempt.work.job attempt.nonce
                attempt.digest).2 = some resultText ∧
              fromHex nonceText = .ok bytes ∧
              fromHex resultText = .ok attempt.digest.toList ∧
              attempt.work.job.blob.take 39 ++ bytes ++
                  attempt.work.job.blob.drop 43 =
                attempt.work.spliced (le32 attempt.nonce) := by
  obtain ⟨hgenuine, hsound⟩ := Genuine.run hrun
  have hshares := hgenuine.shares i
  have hdigest : ∀ attempt ∈ s.log.filterMap (Event.hash? i),
      attempt.digest = hash (attempt.work.spliced (le32 attempt.nonce)) := by
    intro attempt hattempt
    obtain ⟨event, hevent, hhash⟩ := List.mem_filterMap.mp hattempt
    cases event with
    | hashed j p nonce digest =>
        simp only [Event.hash?] at hhash
        split at hhash
        · obtain rfl := Option.some.inj hhash
          exact (hgenuine.digests j p nonce digest hevent).2
        · cases hhash
    | _ => cases hhash
  refine ⟨hshares, fun done p hpc hwork => ?_, hdigest,
    fun attempt hattempt => ?_⟩
  · exact hsound.hashing_blob hpc hwork (hgenuine.held i p hwork)
  have hmem := List.mem_append_right (s.workers i).pendingShare hattempt
  rw [hshares, List.mem_filter] at hmem
  refine ⟨hmem.2, hdigest attempt hmem.1, fun c j mj hread hblob hoffset => ?_⟩
  exact submit_decodes c attempt.work attempt.nonce attempt.digest
    (hoffset.trans (readJob_layout hread).1)

/-- A job that every digest meets. -/
def openMoneroMessage : Json :=
  .obj [("blob", .str (toHex (List.replicate 43 0))),
    ("job_id", .str "1"), ("target", .str (toHex (List.replicate 32 0xff)))]

/-- The job of that message, with the nonce at offset 39. -/
def openMoneroJob : MiningJob :=
  { blob := List.replicate 43 0
    nonceOffset := 39
    target := Hash256.fill 0xff
    jobId := "1" }

/-- The worker hashes nonce 0 and reports it. -/
def oneShareLabels : List (Label 1 Unit) :=
  [.call (.setWork openMoneroJob), .ctl, .call .start, .ctl, .ctl,
    .worker soleWorker, .made soleWorker ()] ++
    List.replicate 8 (.worker soleWorker) ++
    [.worker soleWorker, .hashed soleWorker (Hash256.fill 7), .worker soleWorker]

theorem readJob_openMoneroMessage :
    MoneroClient.readJob openMoneroMessage = .ok (some openMoneroJob) := by
  decide +kernel

/-- One share, which is genuine, and which the pool decodes. -/
theorem one_share_genuine :
    let c : MoneroClient := { user := "u", pass := "x" }
    ∃ s : State 1 Unit,
      Run step (HashesWith fun _ => Hash256.fill 7) (init 1 Unit)
        oneShareLabels s ∧
      ∃ attempt ∈ s.log.filterMap (Event.share? soleWorker),
        attempt.meets = true ∧ attempt.digest = Hash256.fill 7 ∧
        ∃ nonceText resultText bytes,
          sentString "nonce" (c.submit attempt.work.job attempt.nonce
            attempt.digest).2 = some nonceText ∧
          sentString "result" (c.submit attempt.work.job attempt.nonce
            attempt.digest).2 = some resultText ∧
          fromHex nonceText = .ok bytes ∧
          fromHex resultText = .ok attempt.digest.toList ∧
          attempt.work.job.blob.take 39 ++ bytes ++
              attempt.work.job.blob.drop 43 =
            attempt.work.spliced (le32 attempt.nonce) := by
  intro c
  have hreplay : (replay step (HashesWith fun _ => Hash256.fill 7)
      (init 1 Unit) oneShareLabels).any (fun s =>
        (s.log.filterMap (Event.share? soleWorker)).map
          (fun attempt => (attempt.work.job.blob,
            attempt.work.job.nonceOffset)) =
          [(openMoneroJob.blob, openMoneroJob.nonceOffset)]) = true := by
    decide +kernel
  obtain ⟨s, hs, hlayouts⟩ := (Option.any_eq_true _ _).mp hreplay
  have hrun := run_of_replay hs
  obtain ⟨attempt, hattempt, hlayout⟩ :=
    List.map_eq_singleton_iff.mp (of_decide_eq_true hlayouts)
  obtain ⟨hblob, hoffset⟩ := Prod.mk.inj hlayout
  have hmem : attempt ∈ s.log.filterMap (Event.share? soleWorker) := by
    rw [hattempt]
    exact List.mem_singleton_self attempt
  obtain ⟨-, -, -, hgenuine⟩ :=
    shares_genuine (fun _ => Hash256.fill 7) hrun soleWorker
  obtain ⟨hmeets, hdigest, hdecodes⟩ := hgenuine attempt hmem
  exact ⟨s, hrun, attempt, hmem, hmeets, hdigest,
    hdecodes c openMoneroMessage openMoneroJob readJob_openMoneroMessage
      hblob hoffset⟩

end MinerPool

end Minerby
