/-
The nonces the workers try.  Worker `i` of `N` starts a job at nonce `i` and
goes on by `N`; it repeats nonces when it picks a job up again that it has
already begun, and when it goes on after its 32-bit nonce has wrapped.
-/
import Minerby.StrideScan
import Minerby.WorkerTurn

namespace Minerby

namespace MinerPool

open StrideScan

variable {threads : UInt32} {H : Type}

/-- What an event says about nonces: a hash is a trial and a share a report,
under the generation of the job. -/
def Event.trial? : Event threads H → Option (Trial threads.toNat UInt64)
  | .hashBegin i p nonce => some (.tried i p.job.generation nonce.toNat)
  | .share i p nonce _ => some (.reported i p.job.generation nonce.toNat)
  | _ => none

/-- The trials of all workers so far, newest first. -/
def State.trials (s : State threads H) : List (Trial threads.toNat UInt64) :=
  s.log.filterMap Event.trial?

/-- How many nonces a worker has tried for the job of a generation. -/
def State.tried (s : State threads H) (i : Fin threads.toNat)
    (generation : UInt64) : Nat :=
  triedCount i generation s.trials

/-- The worker, if it is about to copy a job, has not begun to hash one of that
generation, and if it is about to hash, has not passed the end of the 32-bit
space. -/
def State.NotAgain (s : State threads H) (i : Fin threads.toNat)
    (w : Worker H) : Prop :=
  match w.pc, s.work, w.work with
  | .pickup _, some p, _ => s.tried i p.job.generation = 0
  | .chunk _, _, some p =>
      (i : Nat) + threads.toNat * s.tried i p.job.generation < 2 ^ 32
  | _, _, _ => True

instance (s : State threads H) (i : Fin threads.toNat) (w : Worker H) :
    Decidable (s.NotAgain i w) := by
  unfold State.NotAgain
  split <;> infer_instance

/-- The steps that do not send a worker over nonces again. -/
def ScansOnce (s : State threads H) : Label threads H → Prop
  | .worker i => s.NotAgain i (s.workers i)
  | _ => True

instance (s : State threads H) :
    (label : Label threads H) → Decidable (ScansOnce s label)
  | .worker i => inferInstanceAs (Decidable (s.NotAgain i (s.workers i)))
  | .call _ => .isTrue trivial
  | .ctl => .isTrue trivial
  | .made _ _ => .isTrue trivial
  | .hashed _ _ => .isTrue trivial

/-- The worker's nonce is the next one of its stride, or the one it is trying
now. -/
structure OnStride (trials : List (Trial threads.toNat UInt64))
    (i : Fin threads.toNat) (w : Worker H) : Prop where
  next : ∀ p, w.work = some p → w.pc.trying = false →
    w.nonce = UInt32.ofNat
      (i + threads.toNat * triedCount i p.job.generation trials)
  trying : ∀ p, w.work = some p → w.pc.trying = true →
    pending i trials = some (p.job.generation, w.nonce.toNat) ∧
    w.nonce + threads = UInt32.ofNat
      (i + threads.toNat * triedCount i p.job.generation trials)

/-- The invariant of the scan. -/
structure Scanning (s : State threads H) : Prop where
  ledger : Ledger s.trials
  stride : ∀ i, OnStride s.trials i (s.workers i)

/-- What a step of worker `i` does to the scan. -/
inductive ScanMove (s s' : State threads H) (i : Fin threads.toNat) : Prop
  /-- neither the job nor the nonce nor the trials change -/
  | quiet (trials : s'.trials = s.trials)
      (work : (s'.workers i).work = (s.workers i).work)
      (nonce : (s'.workers i).nonce = (s.workers i).nonce)
      (trying : (s'.workers i).pc.trying = (s.workers i).pc.trying)
  | pickup (trials : s'.trials = s.trials)
      (work : (s'.workers i).work = s.work)
      (fresh : ∀ p, s.work = some p → s.tried i p.job.generation = 0 ∧
        (s'.workers i).nonce = UInt32.ofNat i)
      (trying : (s'.workers i).pc.trying = false)
  | tries (p : JobPtr) (work : (s.workers i).work = some p)
      (resting : (s.workers i).pc.trying = false)
      (room : (i : Nat) + threads.toNat * s.tried i p.job.generation < 2 ^ 32)
      (trials : s'.trials =
        .tried i p.job.generation (s.workers i).nonce.toNat :: s.trials)
      (work' : (s'.workers i).work = some p)
      (nonce : (s'.workers i).nonce = (s.workers i).nonce)
      (trying : (s'.workers i).pc.trying = true)
  /-- on to the next nonce, the last one reported or not -/
  | advances (tried : (s.workers i).pc.trying = true)
      (trials : s'.trials = s.trials ∨ ∃ p, (s.workers i).work = some p ∧
        s'.trials = .reported i p.job.generation (s.workers i).nonce.toNat ::
          s.trials)
      (work : (s'.workers i).work = (s.workers i).work)
      (nonce : (s'.workers i).nonce = (s.workers i).nonce + threads)
      (trying : (s'.workers i).pc.trying = false)

/-- A step that logs nothing, or an event without a nonce, adds no trial. -/
theorem trials_eq {s s' : State threads H} {event : Option (Event threads H)}
    (hlog : s'.log = event.toList ++ s.log) :
    s'.trials = (event.bind Event.trial?).toList ++ s.trials := by
  rw [State.trials, hlog]
  cases event with
  | none => rfl
  | some event => cases event <;> rfl

theorem Turned.scan {s s' : State threads H} {label : Label threads H}
    {i : Fin threads.toNat} (hturned : Turned s s' i label)
    (hok : ScansOnce s label) : ScanMove s s' i := by
  obtain ⟨w, inFlight, event, hturn, hw, -, hlog⟩ := hturned.turn
  have htrials := trials_eq hlog
  cases hturn with
  | keepWork hpc same =>
      exact .quiet htrials (by rw [hw]; rfl) (by rw [hw]; rfl)
        (by rw [hw, hpc]; exact Worker.afterCheck_trying _)
  | pickup gen hpc =>
      refine .pickup htrials ?_ ?_ ?_
      · rw [hw]
        exact Worker.work_take _ _ _ _
      · intro p hwork
        simp only [ScansOnce, State.NotAgain, hpc, hwork] at hok
        refine ⟨hok, ?_⟩
        rw [hw, hwork]
        rfl
      · rw [hw]
        exact Worker.afterCheck_trying _
  | hash done p hpc hwork =>
      simp only [ScansOnce, State.NotAgain, hpc, hwork] at hok
      exact .tries p hwork (by rw [hpc]; rfl) hok htrials (by rw [hw]; exact hwork)
        (by rw [hw]) (by rw [hw]; rfl)
  | found done p digest hpc hwork hmeets =>
      exact .quiet htrials (by rw [hw]) (by rw [hw]) (by rw [hw, hpc]; rfl)
  | missed done p digest hpc hwork hmeets =>
      exact .quiet htrials (by rw [hw]) (by rw [hw]) (by rw [hw, hpc]; rfl)
  | share done p digest hpc hwork =>
      exact .advances (by rw [hpc]; rfl) (Or.inr ⟨p, hwork, htrials⟩)
        (by rw [hw]; rfl) (by rw [hw]; rfl)
        (by rw [hw]; exact Worker.advance_trying _ _ _)
  | next done hpc =>
      exact .advances (by rw [hpc]; rfl) (Or.inl htrials) (by rw [hw]; rfl)
        (by rw [hw]; rfl) (by rw [hw]; exact Worker.advance_trying _ _ _)
  | _ =>
      rename_i hpc
      exact .quiet htrials (by rw [hw]) (by rw [hw]) (by rw [hw]; simp_all [Pc.trying])

/-- Trials of one worker do not move another one off its stride. -/
theorem OnStride.of_other {trials : List (Trial threads.toNat UInt64)}
    {i j : Fin threads.toNat} {w : Worker H} (hne : i ≠ j)
    (hstride : OnStride trials j w) (generation : UInt64) (pos : Nat) :
    OnStride (.tried i generation pos :: trials) j w ∧
      OnStride (.reported i generation pos :: trials) j w := by
  constructor
  · refine ⟨fun p hwork hrest => ?_, fun p hwork htry => ?_⟩
    · simpa [triedCount, hne] using hstride.next p hwork hrest
    · simpa [triedCount, pending, hne] using hstride.trying p hwork htry
  · refine ⟨fun p hwork hrest => ?_, fun p hwork htry => ?_⟩
    · simpa [triedCount] using hstride.next p hwork hrest
    · simpa [triedCount, pending, hne] using hstride.trying p hwork htry

/-- The trial of a worker's next nonce, and where it leaves the worker. -/
theorem OnStride.tries {trials : List (Trial threads.toNat UInt64)}
    {i : Fin threads.toNat} {w w' : Worker H} {p : JobPtr}
    (hstride : OnStride trials i w) (hwork : w.work = some p)
    (hrest : w.pc.trying = false)
    (hroom : (i : Nat) +
      threads.toNat * triedCount i p.job.generation trials < 2 ^ 32)
    (hwork' : w'.work = some p) (hnonce : w'.nonce = w.nonce)
    (htry : w'.pc.trying = true) :
    w.nonce.toNat =
        i + threads.toNat * triedCount i p.job.generation trials ∧
      OnStride (.tried i p.job.generation w.nonce.toNat :: trials) i w' := by
  have hnext := hstride.next p hwork hrest
  refine ⟨?_, fun q hq hrest' => ?_, fun q hq _ => ?_⟩
  · rw [hnext, UInt32.toNat_ofNat']
    exact Nat.mod_eq_of_lt hroom
  · rw [htry] at hrest'
    cases hrest'
  · obtain rfl := Option.some.inj (hwork'.symm.trans hq)
    rw [hnonce]
    refine ⟨by simp [pending], ?_⟩
    simp only [triedCount, and_self, ↓reduceIte, Nat.mul_add, Nat.mul_one]
    rw [hnext, ← Nat.add_assoc, UInt32.ofNat_add _ threads.toNat,
      UInt32.ofNat_toNat]

theorem Scanning.worker {s s' : State threads H} {label : Label threads H}
    {i : Fin threads.toNat} (hscan : Scanning s) (hok : ScansOnce s label)
    (hturned : Turned s s' i label) : Scanning s' := by
  have hothers := hturned.others
  have hi := hscan.stride i
  cases hturned.scan hok with
  | quiet trials work nonce trying =>
      refine ⟨trials ▸ hscan.ledger, fun j => ?_⟩
      rw [trials]
      by_cases hj : j = i
      · subst hj
        refine ⟨fun p hwork hrest => ?_, fun p hwork htry => ?_⟩
        · rw [nonce]
          exact hi.next p (work ▸ hwork) (trying ▸ hrest)
        · rw [nonce]
          exact hi.trying p (work ▸ hwork) (trying ▸ htry)
      · exact hothers j hj ▸ hscan.stride j
  | pickup trials work fresh trying =>
      refine ⟨trials ▸ hscan.ledger, fun j => ?_⟩
      rw [trials]
      by_cases hj : j = i
      · subst hj
        refine ⟨fun p hwork _ => ?_, fun p _ htry => ?_⟩
        · obtain ⟨hzero, hnonce⟩ := fresh p (work ▸ hwork)
          rw [State.tried] at hzero
          rw [hnonce, hzero, Nat.mul_zero, Nat.add_zero]
        · rw [trying] at htry
          cases htry
      · exact hothers j hj ▸ hscan.stride j
  | tries p work resting room trials work' nonce trying =>
      obtain ⟨hpos, hself⟩ :=
        hi.tries work resting room work' nonce trying
      refine ⟨trials ▸ .tried hscan.ledger hpos, fun j => ?_⟩
      rw [trials]
      by_cases hj : j = i
      · exact hj ▸ hself
      · rw [hothers j hj]
        exact ((hscan.stride j).of_other (Ne.symm hj) _ _).1
  | advances tried trials work nonce trying =>
      have hself : ∀ older : List (Trial threads.toNat UInt64),
          (∀ generation, triedCount i generation older =
            triedCount i generation s.trials) →
          OnStride older i (s'.workers i) := by
        intro older hcount
        refine ⟨fun q hq _ => ?_, fun q _ htry => ?_⟩
        · rw [nonce, hcount]
          exact (hi.trying q (work ▸ hq) tried).2
        · rw [trying] at htry
          cases htry
      rcases trials with htrials | ⟨p, hwork, htrials⟩
      · refine ⟨htrials ▸ hscan.ledger, fun j => ?_⟩
        rw [htrials]
        by_cases hj : j = i
        · exact hj ▸ hself _ fun _ => rfl
        · exact hothers j hj ▸ hscan.stride j
      · have hpending := (hi.trying p hwork tried).1
        refine ⟨htrials ▸ .reported hscan.ledger hpending, fun j => ?_⟩
        rw [htrials]
        by_cases hj : j = i
        · subst hj
          exact hself _ fun _ => rfl
        · rw [hothers j hj]
          exact ((hscan.stride j).of_other (Ne.symm hj) _ _).2

theorem Scanning.step {s s' : State threads H} {label : Label threads H}
    (hscan : Scanning s) (hok : ScansOnce s label)
    (hstep : step s label = some s') : Scanning s' := by
  cases step_acted hstep with
  | turn i turned => exact hscan.worker hok turned
  | call call called =>
      have htrials : s'.trials = s.trials := by
        rw [State.trials, called.log]
        rfl
      refine ⟨htrials ▸ hscan.ledger, fun i => ?_⟩
      rw [htrials, called.workers]
      exact hscan.stride i
  | ctl taken =>
      obtain ⟨hlog, -, -, -, -, hworkers⟩ := ctlStep_frame taken
      have htrials : s'.trials = s.trials := by
        rw [State.trials, hlog]
        rfl
      refine ⟨htrials ▸ hscan.ledger, fun i => ?_⟩
      rw [htrials]
      rcases hworkers i with hsame | hboot | ⟨-, hjoined⟩
      · exact hsame ▸ hscan.stride i
      · rw [hboot]
        exact ⟨nofun, nofun⟩
      · rw [hjoined]
        exact ⟨nofun, nofun⟩

/-- The generation and nonce of every hash begun, newest first. -/
def State.hashKeys (s : State threads H) : List (UInt64 × UInt32) :=
  s.log.filterMap fun
    | .hashBegin _ p nonce => some (p.job.generation, nonce)
    | _ => none

/-- The generation and nonce of every `on_share` call, newest first. -/
def State.shareKeys (s : State threads H) : List (UInt64 × UInt32) :=
  s.log.filterMap fun
    | .share _ p nonce _ => some (p.job.generation, nonce)
    | _ => none

theorem triedKeys_trials (s : State threads H) :
    triedKeys s.trials = s.hashKeys.map fun key => (key.1, key.2.toNat) := by
  unfold State.trials State.hashKeys
  induction s.log with
  | nil => rfl
  | cons event rest ih =>
      cases event with
      | hashBegin i p nonce => exact congrArg (List.cons _) ih
      | _ => exact ih

theorem reportedKeys_trials (s : State threads H) :
    reportedKeys s.trials =
      s.shareKeys.map fun key => (key.1, key.2.toNat) := by
  unfold State.trials State.shareKeys
  induction s.log with
  | nil => rfl
  | cons event rest ih =>
      cases event with
      | share i p nonce digest => exact congrArg (List.cons _) ih
      | _ => exact ih

/-- In a run whose steps do not send a worker over nonces again, all workers
together hash no nonce twice for one generation, and report none twice. -/
theorem nonce_tried_once {labels : List (Label threads H)}
    {s : State threads H}
    (hrun : Run step ScansOnce (init threads H) labels s) :
    s.hashKeys.Nodup ∧ s.shareKeys.Nodup := by
  have hscan : Scanning s :=
    hrun.invariant (fun _ _ _ hinv hok hstep => Scanning.step hinv hok hstep)
      ⟨.nil, fun _ => ⟨nofun, nofun⟩⟩
  constructor
  · have hnodup := hscan.ledger.triedKeys_nodup
    rw [triedKeys_trials] at hnodup
    exact hnodup.of_map
  · have hnodup := hscan.ledger.reportedKeys_nodup
    rw [reportedKeys_trials] at hnodup
    exact hnodup.of_map

/-- A job with room for the nonce, whose target every zero digest meets. -/
def openJob : MiningJob := { blob := [0, 0, 0, 0], nonceOffset := 0 }

/-- One nonce tried and reported. -/
def shareTurn : List (Label 1 Unit) :=
  [.worker soleWorker, .hashed soleWorker (Vector.replicate 32 0),
    .worker soleWorker]

/-- A pool of one thread that picks `openJob` up and reports `count` shares of
its first chunk. -/
def scanLabels (count : Nat) : List (Label 1 Unit) :=
  [.call (.setWork openJob), .ctl, .call .start, .ctl, .ctl,
    .worker soleWorker, .made soleWorker ()] ++
    List.replicate 8 (.worker soleWorker) ++
    (List.replicate count shareTurn).flatten

/-- The first chunk is finished, a second `set_work` has raised the generation
and not yet replaced the job, and the worker picks the same job up again. -/
def rescanLabels : List (Label 1 Unit) :=
  scanLabels 16 ++ List.replicate 5 (.worker soleWorker) ++
    [.call (.setWork {})] ++ List.replicate 4 (.worker soleWorker) ++ shareTurn

/-- Two shares of one chunk are a run of the kind above. -/
theorem two_nonces_tried_once :
    ∃ s : State 1 Unit, Run step ScansOnce (init 1 Unit) (scanLabels 2) s ∧
      s.shareKeys = [(1, 1), (1, 0)] ∧ s.hashKeys.Nodup ∧
      s.shareKeys.Nodup := by
  have hrun : Run step ScansOnce (init 1 Unit) (scanLabels 2)
      ((replay step ScansOnce (init 1 Unit) (scanLabels 2)).get rfl) :=
    run_of_replay rfl
  exact ⟨_, hrun, rfl, nonce_tried_once hrun⟩

/-- The race hashes nonce 0 of generation 1 twice and reports it twice. -/
theorem nonce_zero_tried_twice :
    ∃ s : State 1 Unit, Run step anyLabel (init 1 Unit) rescanLabels s ∧
      s.hashKeys.count (1, 0) = 2 ∧ s.shareKeys.count (1, 0) = 2 :=
  ⟨(replay step anyLabel (init 1 Unit) rescanLabels).get rfl,
    run_of_replay rfl, rfl, rfl⟩

end MinerPool

end Minerby
