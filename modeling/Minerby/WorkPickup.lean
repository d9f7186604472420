/-
How a worker comes to hold a job.  `set_work` and `clear_work` raise the
generation before they replace the job, so a worker that reads the new
generation and copies the job in between keeps the old job under the new
generation.
-/
import Minerby.WorkerTurn

namespace Minerby

namespace MinerPool

variable {threads : UInt32} {H : Type}

/-- No `set_work` or `clear_work` call is between its two steps. -/
def State.WorkSettled (s : State threads H) : Prop :=
  s.ctl ≠ .clearingWork ∧ ∀ p, s.ctl ≠ .settingWork p

/-- The job `work_` holds once the call in progress, if any, has replaced
it. -/
def State.nextWork (s : State threads H) : Option JobPtr :=
  match s.ctl with
  | .settingWork p => some p
  | .clearingWork => none
  | _ => s.work

theorem State.nextWork_of_settled {s : State threads H}
    (hsettled : s.WorkSettled) : s.nextWork = s.work := by
  unfold State.nextWork
  split
  · rename_i p hctl
    exact absurd hctl (hsettled.2 p)
  · rename_i hctl
    exact absurd hctl hsettled.1
  · rfl

/-- The steps that do not lose an update.  A worker that holds the current
generation does not copy a job that a call in progress is about to replace;
and the 64-bit generation does not come round to a value that a worker still
holds from before, or to 0 under a thread about to start. -/
def KeepsUpdates (s : State threads H) : Label threads H → Prop
  | .worker i =>
      match (s.workers i).pc with
      | .pickup gen => gen = s.workGen → s.work = s.nextWork
      | _ => True
  | .call (.setWork _) => ∀ i, (s.workers i).pc ≠ .unborn →
      (s.workers i).localWorkGen ≠ s.workGen + 1
  | .call .clearWork => ∀ i, (s.workers i).pc ≠ .unborn →
      (s.workers i).localWorkGen ≠ s.workGen + 1
  | .ctl =>
      match s.ctl with
      | .starting next => next < threads.toNat → s.workGen = 0 → s.work = none
      | _ => True
  | _ => True

instance (s : State threads H) (label : Label threads H) :
    Decidable (KeepsUpdates s label) := by
  unfold KeepsUpdates
  split
  · split <;> infer_instance
  · infer_instance
  · infer_instance
  · split <;> infer_instance
  · infer_instance

/-- A worker at the current generation holds the job that is, or is about to
be, the pool's. -/
def UpdatesKept (s : State threads H) : Prop :=
  ∀ i, (s.workers i).pc ≠ .unborn →
    (s.workers i).localWorkGen = s.workGen → (s.workers i).work = s.nextWork

/-- Only the pickup changes a worker's job and generation. -/
theorem Turned.kept_or_picked {s s' : State threads H} {label : Label threads H}
    {i : Fin threads.toNat} (hturned : Turned s s' i label) :
    (s.workers i).pc ≠ .unborn ∧
      ((∃ gen, label = .worker i ∧ (s.workers i).pc = .pickup gen ∧
          (s'.workers i).work = s.work ∧ (s'.workers i).localWorkGen = gen) ∨
        ((s'.workers i).work = (s.workers i).work ∧
          (s'.workers i).localWorkGen = (s.workers i).localWorkGen)) := by
  obtain ⟨w, inFlight, event, hturn, hw, -, -⟩ := hturned.turn
  refine ⟨hturn.born, ?_⟩
  rw [hw]
  cases hturn with
  | pickup gen hpc =>
      exact Or.inl ⟨gen, rfl, hpc, Worker.work_take _ _ _ _,
        Worker.localWorkGen_take _ _ _ _⟩
  | _ => exact Or.inr ⟨rfl, rfl⟩

theorem UpdatesKept.worker {s s' : State threads H} {label : Label threads H}
    {i : Fin threads.toNat} (hkept : UpdatesKept s)
    (hok : KeepsUpdates s label) (hturned : Turned s s' i label) :
    UpdatesKept s' := by
  have hmove := hturned.toWorkerMove
  have hnext : s'.nextWork = s.nextWork := by
    simp only [State.nextWork, hmove.ctl, hmove.work]
  intro j hborn hgen
  rw [hnext]
  rw [hmove.workGen] at hgen
  by_cases hj : j = i
  · subst hj
    obtain ⟨hborn', ⟨gen, rfl, hpc, hwork, hlocal⟩ | ⟨hwork, hlocal⟩⟩ :=
      hturned.kept_or_picked
    · rw [hwork]
      simp only [KeepsUpdates, hpc] at hok
      exact hok (hlocal.symm.trans hgen)
    · rw [hwork]
      exact hkept j hborn' (hlocal.symm.trans hgen)
  · rw [hmove.others j hj] at hborn hgen ⊢
    exact hkept j hborn hgen

theorem UpdatesKept.call {s s' : State threads H} {call : Call}
    (hkept : UpdatesKept s) (hok : KeepsUpdates s (.call call))
    (hcalled : Called s s' call) : UpdatesKept s' := by
  intro i hborn hgen
  rw [hcalled.workers] at hborn hgen ⊢
  rw [hcalled.workGen] at hgen
  have hold := hkept i hborn
  simp only [State.nextWork, hcalled.idle] at hold
  simp only [State.nextWork, hcalled.ctl, hcalled.work]
  cases call with
  | start =>
      rw [hold hgen, Call.entry]
      cases s.running <;> rfl
  | stop =>
      rw [hold hgen, Call.entry]
      cases s.running <;> rfl
  | setWork job => exact absurd hgen (hok i hborn)
  | clearWork => exact absurd hgen (hok i hborn)
  | _ => exact hold hgen

theorem UpdatesKept.ctl {s s' : State threads H} (hkept : UpdatesKept s)
    (hok : KeepsUpdates s .ctl) (hstep : ctlStep s = some s') :
    UpdatesKept s' := by
  intro i hborn hgen
  have hold := hkept i
  cases ctlStep_turn hstep with
  | create next lt ctl =>
      simp only [State.nextWork, ctl] at hold
      change ((s.put ⟨next, lt⟩ { pc := .boot }).workers i).work = s.work
      change ((s.put ⟨next, lt⟩ { pc := .boot }).workers i).localWorkGen =
        s.workGen at hgen
      change ((s.put ⟨next, lt⟩ { pc := .boot }).workers i).pc ≠ .unborn
        at hborn
      by_cases hi : i = ⟨next, lt⟩
      · subst hi
        rw [put_workers_self] at hgen ⊢
        simp only [KeepsUpdates, ctl] at hok
        exact (hok lt hgen.symm).symm
      · rw [put_workers_of_ne _ _ hi] at hborn hgen ⊢
        exact hold hborn hgen
  | join ctl exited => exact absurd rfl hborn
  | wait ctl busy => exact hold hborn hgen
  | _ =>
      have hwork := hold hborn hgen
      simp_all only [State.nextWork]

theorem UpdatesKept.step {s s' : State threads H} {label : Label threads H}
    (hkept : UpdatesKept s) (hok : KeepsUpdates s label)
    (hstep : step s label = some s') : UpdatesKept s' := by
  cases step_acted hstep with
  | turn i turned => exact hkept.worker hok turned
  | call call called => exact hkept.call hok called
  | ctl taken => exact hkept.ctl hok taken

/-- No update is lost in a run whose steps all keep updates: whenever no
`set_work` or `clear_work` call is in progress, every worker at the current
generation holds exactly the pool's job. -/
theorem worker_holds_current_work {labels : List (Label threads H)}
    {s : State threads H}
    (hrun : Run step KeepsUpdates (init threads H) labels s)
    (hsettled : s.WorkSettled) (i : Fin threads.toNat)
    (hborn : (s.workers i).pc ≠ .unborn)
    (hgen : (s.workers i).localWorkGen = s.workGen) :
    (s.workers i).work = s.work := by
  have hkept : UpdatesKept s :=
    hrun.invariant (fun _ _ _ hinv hok hstep => UpdatesKept.step hinv hok hstep)
      (fun _ hborn _ => absurd rfl hborn)
  rw [← State.nextWork_of_settled hsettled]
  exact hkept i hborn hgen

/-- A pool of one thread up to the worker's test of `hasher_gen_`, with `first`
installed. -/
def bootLabels (first : MiningJob) : List (Label 1 Unit) :=
  [.call (.setWork first), .ctl, .call .start, .ctl, .ctl,
    .worker soleWorker, .made soleWorker (), .worker soleWorker,
    .worker soleWorker, .worker soleWorker, .worker soleWorker]

/-- The worker copies the job while no call is in progress. -/
def quietLabels (first : MiningJob) : List (Label 1 Unit) :=
  bootLabels first ++ [.worker soleWorker, .worker soleWorker]

/-- A second `set_work` has raised the generation when the worker reads it,
and replaces the job only after the worker has copied the old one. -/
def racingLabels (first second : MiningJob) : List (Label 1 Unit) :=
  bootLabels first ++ [.call (.setWork second), .worker soleWorker,
    .worker soleWorker, .ctl]

/-- The quiet pickup is a run of the kind above: its worker holds the pool's
job. -/
theorem quiet_worker_holds_current_work :
    ∃ s : State 1 Unit,
      Run step KeepsUpdates (init 1 Unit) (quietLabels {}) s ∧
        s.WorkSettled ∧ (s.workers soleWorker).pc ≠ .unborn ∧
        (s.workers soleWorker).localWorkGen = s.workGen ∧
        s.work.isSome ∧ (s.workers soleWorker).work = s.work := by
  have hrun : Run step KeepsUpdates (init 1 Unit) (quietLabels {})
      ((replay step KeepsUpdates (init 1 Unit) (quietLabels {})).get rfl) :=
    run_of_replay rfl
  have hsettled : State.WorkSettled
      ((replay step KeepsUpdates (init 1 Unit) (quietLabels {})).get rfl) :=
    ⟨nofun, nofun⟩
  exact ⟨_, hrun, hsettled, nofun, rfl, rfl,
    worker_holds_current_work hrun hsettled soleWorker nofun rfl⟩

/-- The race loses the second job: no call is in progress, the worker has seen
the current generation, and it holds the first job. -/
theorem racing_worker_holds_old_work :
    ∃ s : State 1 Unit,
      Run step anyLabel (init 1 Unit) (racingLabels {} {}) s ∧
        s.WorkSettled ∧ (s.workers soleWorker).pc ≠ .unborn ∧
        (s.workers soleWorker).localWorkGen = s.workGen ∧
        (s.workers soleWorker).work ≠ s.work :=
  ⟨(replay step anyLabel (init 1 Unit) (racingLabels {} {})).get rfl,
    run_of_replay rfl, ⟨nofun, nofun⟩, nofun, rfl, by decide⟩

end MinerPool

end Minerby
