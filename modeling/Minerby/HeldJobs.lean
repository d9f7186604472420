/-
Which jobs the workers hold.  A worker hashes the job it held when it passed
its generation check, so what is true of every job behind that check is true
of every job hashed and shared.
-/
import Minerby.PoolSound

namespace Minerby

namespace MinerPool

variable {threads : UInt32} {H : Type}

/-- Past the generation check with a job, up to its last hash. -/
def Pc.committed : Pc → Bool
  | .enter => true
  | .recheck => true
  | .chunk _ => true
  | .hashing _ => true
  | .sharing _ _ => true
  | .missed _ => true
  | _ => false

/-- The next generation is not one that a worker with a job still holds. -/
def State.FreshWorkGen (s : State threads H) : Prop :=
  ∀ i, (s.workers i).work.isSome = true →
    (s.workers i).localWorkGen ≠ s.workGen + 1

instance (s : State threads H) : Decidable s.FreshWorkGen := by
  unfold State.FreshWorkGen
  infer_instance

/-- A job that is hashed is good; one that is only held is good or will be
looked at again, because its generation is not the current one. -/
structure Worker.Holds (good : JobPtr → Prop) (gen : UInt64) (w : Worker H) :
    Prop where
  committed : ∀ p, w.pc.committed = true → w.work = some p → good p
  held : ∀ p, w.work = some p → w.ready = true →
    good p ∨ w.localWorkGen ≠ gen

def State.HoldsOnly (good : JobPtr → Prop) (s : State threads H) : Prop :=
  ∀ i, (s.workers i).Holds good s.workGen

variable {good : JobPtr → Prop} {gen : UInt64}

theorem Worker.Holds.of_work_none {w : Worker H} (hnone : w.work = none) :
    w.Holds good gen := by
  constructor <;> simp [hnone]

/-- A worker that keeps its job and goes no further towards hashing it than it
was. -/
theorem Worker.Holds.of_same {w w' : Worker H} (hholds : w.Holds good gen)
    (hwork : w'.work = w.work) (hgen : w'.localWorkGen = w.localWorkGen)
    (hready : w'.ready = w.ready)
    (hcommitted : w'.pc.committed = true → w.pc.committed = true) :
    w'.Holds good gen := by
  refine ⟨fun p hcom hp => ?_, fun p hp hr => ?_⟩
  · exact hholds.committed p (hcommitted hcom) (hwork ▸ hp)
  · rw [hgen]
    exact hholds.held p (hwork ▸ hp) (hready ▸ hr)

/-- A worker that passes the generation check with a good job. -/
theorem Worker.Holds.afterCheck {w : Worker H}
    (hjob : ∀ p, w.work = some p → w.ready = true → good p) :
    w.afterCheck.Holds good gen := by
  refine ⟨fun p hcom hp => ?_, fun p hp hready => Or.inl (hjob p hp hready)⟩
  rcases w.afterCheck_pc with ⟨-, hready⟩ | hpc
  · exact hjob p hp hready
  · rw [hpc] at hcom
    cases hcom

/-- What is asked of the jobs is kept when good jobs stay good. -/
theorem State.HoldsOnly.mono {s : State threads H} {good' : JobPtr → Prop}
    (hholds : s.HoldsOnly good)
    (hgood : ∀ i p, (s.workers i).work = some p → good p → good' p) :
    s.HoldsOnly good' := by
  intro i
  refine ⟨fun p hcom hp => ?_, fun p hp hready => ?_⟩
  · exact hgood i p hp ((hholds i).committed p hcom hp)
  · exact ((hholds i).held p hp hready).imp_left (hgood i p hp)

/-- A worker's turn, where a job it can hash is copied only if it is good. -/
theorem Turned.holds {s s' : State threads H} {i : Fin threads.toNat}
    {label : Label threads H} (hturned : Turned s s' i label)
    (hholds : (s.workers i).Holds good s.workGen)
    (hpickup : ∀ gen p, label = .worker i → (s.workers i).pc = .pickup gen →
      s.work = some p → ((s.workers i).take i gen s.work).ready = true →
      good p) :
    (s'.workers i).Holds good s.workGen := by
  obtain ⟨w, inFlight, event, hturn, hw, -, -⟩ := hturned.turn
  rw [hw]
  -- a worker already committed to its job stays so at most
  have hgoOn : ∀ {pc : Pc}, (s.workers i).pc = pc → pc.committed = true →
      w.work = (s.workers i).work →
      w.localWorkGen = (s.workers i).localWorkGen →
      w.ready = (s.workers i).ready → w.Holds good s.workGen := by
    intro pc hpc hcom hwork hgen hready
    exact hholds.of_same hwork hgen hready fun _ => by rw [hpc]; exact hcom
  cases hturn with
  | keepWork hpc same =>
      refine .afterCheck fun p hp hready => ?_
      rcases hholds.held p hp hready with h | h
      · exact h
      · exact absurd same.symm h
  | pickup gen hpc =>
      refine .afterCheck fun p hp hready => ?_
      rw [Worker.work_take] at hp
      exact hpickup gen p rfl hpc hp hready
  | enter hpc => exact hgoOn hpc rfl rfl rfl rfl
  | goOn hpc paused => exact hgoOn hpc rfl rfl rfl rfl
  | hash done p hpc hwork =>
      refine hgoOn hpc rfl rfl rfl ?_
      simp [Worker.ready, spliceNonce]
  | found done p digest hpc hwork hmeets => exact hgoOn hpc rfl rfl rfl rfl
  | missed done p digest hpc hwork hmeets => exact hgoOn hpc rfl rfl rfl rfl
  | share done p digest hpc hwork => exact hgoOn hpc rfl rfl rfl rfl
  | next done hpc => exact hgoOn hpc rfl rfl rfl rfl
  | _ => exact hholds.of_same rfl rfl rfl nofun

/-- A worker that is not committed, and does not pass the check with a job it
can hash. -/
theorem Turned.not_committed {s s' : State threads H} {i : Fin threads.toNat}
    {label : Label threads H} (hturned : Turned s s' i label)
    (hout : (s.workers i).pc.committed = false)
    (hkeep : label = .worker i → (s.workers i).pc = .loadWorkGen →
      s.workGen = (s.workers i).localWorkGen → (s.workers i).ready = false)
    (hpickup : ∀ gen, label = .worker i → (s.workers i).pc = .pickup gen →
      ((s.workers i).take i gen s.work).ready = false) :
    (s'.workers i).pc.committed = false := by
  obtain ⟨w, inFlight, event, hturn, hw, -, -⟩ := hturned.turn
  rw [hw]
  have hcheck : ∀ {w : Worker H}, w.ready = false →
      w.afterCheck.pc.committed = false := by
    intro w hready
    simp only [Worker.afterCheck, hready]
    rfl
  cases hturn with
  | keepWork hpc same => exact hcheck (hkeep rfl hpc same)
  | pickup gen hpc => exact hcheck (hpickup gen rfl hpc)
  | enter hpc => simp [hpc, Pc.committed] at hout
  | goOn hpc paused => simp [hpc, Pc.committed] at hout
  | hash done p hpc hwork => simp [hpc, Pc.committed] at hout
  | found done p digest hpc hwork hmeets => simp [hpc, Pc.committed] at hout
  | missed done p digest hpc hwork hmeets => simp [hpc, Pc.committed] at hout
  | share done p digest hpc hwork => simp [hpc, Pc.committed] at hout
  | next done hpc => simp [hpc, Pc.committed] at hout
  | _ => rfl

theorem State.HoldsOnly.turned {s s' : State threads H}
    {i : Fin threads.toNat} {label : Label threads H}
    (hholds : s.HoldsOnly good) (hturned : Turned s s' i label)
    (hpickup : ∀ gen p, label = .worker i → (s.workers i).pc = .pickup gen →
      s.work = some p → ((s.workers i).take i gen s.work).ready = true →
      good p) :
    s'.HoldsOnly good := by
  intro j
  rw [hturned.workGen]
  by_cases hj : j = i
  · subst hj
    exact hturned.holds (hholds j) hpickup
  · rw [hturned.others j hj]
    exact hholds j

/-- Inside a call a worker is left alone, created or joined. -/
theorem State.HoldsOnly.ctl {s s' : State threads H} (hholds : s.HoldsOnly good)
    (hstep : ctlStep s = some s') : s'.HoldsOnly good := by
  obtain ⟨-, -, hgen, -, -, hworkers⟩ := ctlStep_frame hstep
  intro i
  rw [hgen]
  rcases hworkers i with h | h | ⟨-, h⟩
  · rw [h]
    exact hholds i
  · rw [h]
    exact .of_work_none rfl
  · rw [h]
    exact .of_work_none rfl

theorem State.HoldsOnly.call {s s' : State threads H} {call : Call}
    (hholds : s.HoldsOnly good) (hcalled : Called s s' call)
    (hcall : call.replacesWork = false) : s'.HoldsOnly good := by
  intro i
  rw [hcalled.workers, hcalled.workGen, hcall]
  exact hholds i

/-- A new generation makes every worker look at the job again. -/
theorem State.HoldsOnly.announce {s s' : State threads H} {call : Call}
    (hcommitted : ∀ i p, (s.workers i).pc.committed = true →
      (s.workers i).work = some p → good p)
    (hfresh : s.FreshWorkGen) (hcalled : Called s s' call)
    (hcall : call.replacesWork = true) : s'.HoldsOnly good := by
  intro i
  rw [hcalled.workers, hcalled.workGen, hcall]
  refine ⟨hcommitted i, fun p hp _ => Or.inr (hfresh i ?_)⟩
  rw [hp]
  rfl

/-- Entering a call that does not replace the job announces none. -/
theorem Called.ctl_ne_settingWork {s s' : State threads H} {call : Call}
    (hcalled : Called s s' call) (hcall : call.replacesWork = false)
    (p : JobPtr) : s'.ctl ≠ .settingWork p := by
  intro hctl
  obtain ⟨job, rfl, -⟩ := hcalled.settingWork hctl
  cases hcall

/-- Every job in the pool is good, also one that is being set, except where a
worker will look at the job again before it hashes. -/
structure State.AllJobs (good : JobPtr → Prop) (s : State threads H) :
    Prop where
  work : ∀ p, s.work = some p → good p
  setting : ∀ p, s.ctl = .settingWork p → good p
  holds : s.HoldsOnly good

theorem State.AllJobs.mono {s : State threads H} {good' : JobPtr → Prop}
    (hjobs : s.AllJobs good) (hsound : Sound s)
    (hgood : ∀ p, p.serial ≤ s.updates → good p → good' p) :
    s.AllJobs good' :=
  ⟨fun p hp => hgood p (hsound.work_le p hp) (hjobs.work p hp),
    fun p hctl => hgood p (hsound.ctl_le p hctl) (hjobs.setting p hctl),
    hjobs.holds.mono fun i p hp => hgood p (hsound.held_le i p hp)⟩

theorem State.AllJobs.turned {s s' : State threads H} {i : Fin threads.toNat}
    {label : Label threads H} (hjobs : s.AllJobs good)
    (hturned : Turned s s' i label) : s'.AllJobs good := by
  refine ⟨?_, ?_, ?_⟩
  · rw [hturned.work]
    exact hjobs.work
  · rw [hturned.ctl]
    exact hjobs.setting
  · exact hjobs.holds.turned hturned fun _ p _ _ hp _ => hjobs.work p hp

theorem State.AllJobs.ctl {s s' : State threads H} (hjobs : s.AllJobs good)
    (hstep : ctlStep s = some s') : s'.AllJobs good := by
  obtain ⟨-, hctl, hwork⟩ := ctlStep_work hstep
  refine ⟨fun p hp => ?_, fun p h => absurd h (hctl p), hjobs.holds.ctl hstep⟩
  rcases hwork with h | h | ⟨q, hq, h⟩
  · exact hjobs.work p (h ▸ hp)
  · rw [h] at hp
    cases hp
  · rw [h] at hp
    obtain rfl := Option.some.inj hp
    exact hjobs.setting q hq

theorem State.AllJobs.call {s s' : State threads H} {call : Call}
    (hjobs : s.AllJobs good) (hcalled : Called s s' call)
    (hcall : call.replacesWork = false) : s'.AllJobs good := by
  refine ⟨?_, fun p h => absurd h (hcalled.ctl_ne_settingWork hcall p),
    hjobs.holds.call hcalled hcall⟩
  rw [hcalled.work]
  exact hjobs.work

theorem State.AllJobs.setWork {s s' : State threads H} {job : MiningJob}
    (hjobs : s.AllJobs good) (hfresh : s.FreshWorkGen)
    (hcalled : Called s s' (.setWork job))
    (hnew : ∀ p, p.serial = s.updates + 1 → good p) : s'.AllJobs good := by
  refine ⟨?_, fun p h => ?_,
    .announce (fun i => (hjobs.holds i).committed) hfresh hcalled rfl⟩
  · rw [hcalled.work]
    exact hjobs.work
  · obtain ⟨-, -, rfl⟩ := hcalled.settingWork h
    exact hnew _ rfl

end MinerPool

end Minerby
