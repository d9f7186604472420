/-
The calls that wait for the workers.  `stop` joins every thread and `pause`
waits for `in_flight_` to become 0; both return, however the steps of the
threads come.
-/
import Minerby.Checkpoints

namespace Minerby

namespace MinerPool

variable {threads : UInt32} {H : Type}

theorem Worker.afterCheck_ne_unborn (w : Worker H) :
    w.afterCheck.pc ≠ .unborn := by
  rcases w.afterCheck_pc with ⟨hpc, -⟩ | hpc <;> simp [hpc]

theorem Worker.advance_ne_unborn (w : Worker H) (threads : UInt32)
    (done : Nat) : (w.advance threads done).pc ≠ .unborn := by
  rcases w.advance_pc threads done with hpc | hpc <;> simp [hpc]

theorem Turn.stays_born {s : State threads H} {i : Fin threads.toNat}
    {label : Label threads H} {w : Worker H} {inFlight : UInt32}
    {event : Option (Event threads H)}
    (hturn : Turn s i label w inFlight event) : w.pc ≠ .unborn := by
  cases hturn with
  | keepWork hpc same => exact Worker.afterCheck_ne_unborn _
  | pickup gen hpc => exact Worker.afterCheck_ne_unborn _
  | next done hpc => exact Worker.advance_ne_unborn _ _ _
  | share done p digest hpc hwork => exact Worker.advance_ne_unborn _ _ _
  | _ => simp

/-- Which threads exist: all of them once `start` has returned, and still all
of them while `stop` waits for them with `running_` cleared. -/
structure State.Staffed (s : State threads H) : Prop where
  started : s.running = true → (∀ next, s.ctl ≠ .starting next) →
    ∀ i, (s.workers i).pc ≠ .unborn
  starting : ∀ next, s.ctl = .starting next →
    ∀ i, i.val < next → (s.workers i).pc ≠ .unborn
  stopping : s.ctl = .stopping ∨ s.ctl = .joining →
    s.running = false ∧ ∀ i, (s.workers i).pc ≠ .unborn

theorem State.Staffed.init : (init threads H).Staffed := by
  constructor <;> simp [MinerPool.init]

theorem State.Staffed.turned {s s' : State threads H} {i : Fin threads.toNat}
    {label : Label threads H} (hstaffed : s.Staffed)
    (hturned : Turned s s' i label) : s'.Staffed := by
  obtain ⟨w, inFlight, event, hturn, hw, -, -⟩ := hturned.turn
  have hborn : ∀ j, (s.workers j).pc ≠ .unborn →
      (s'.workers j).pc ≠ .unborn := by
    intro j hj
    by_cases hji : j = i
    · subst hji
      rw [hw]
      exact hturn.stays_born
    · rw [hturned.others j hji]
      exact hj
  constructor
  · rw [hturned.running, hturned.ctl]
    exact fun hrunning hctl j => hborn j (hstaffed.started hrunning hctl j)
  · rw [hturned.ctl]
    exact fun next hctl j hlt => hborn j (hstaffed.starting next hctl j hlt)
  · rw [hturned.running, hturned.ctl]
    intro hctl
    obtain ⟨hrunning, hall⟩ := hstaffed.stopping hctl
    exact ⟨hrunning, fun j => hborn j (hall j)⟩

theorem State.Staffed.call {s s' : State threads H} {call : Call}
    (hstaffed : s.Staffed) (hcalled : Called s s' call) : s'.Staffed := by
  have hidle : ∀ next, s.ctl ≠ .starting next := by simp [hcalled.idle]
  have hborn := fun hrunning => hstaffed.started hrunning hidle
  constructor
  all_goals rw [hcalled.workers, hcalled.ctl]
  · rw [hcalled.running]
    intro hrunning hctl
    cases call with
    | start =>
        cases hrun : s.running with
        | true => exact hborn hrun
        | false => simp [Call.entry, hrun] at hctl
    | stop => cases hrunning
    | _ => exact hborn hrunning
  · intro next hctl i hlt
    cases call with
    | start =>
        cases hrun : s.running with
        | true => simp [Call.entry, hrun] at hctl
        | false =>
            simp only [Call.entry, hrun, Bool.false_eq_true, ↓reduceIte,
              Ctl.starting.injEq] at hctl
            omega
    | stop => cases hrun : s.running <;> simp [Call.entry, hrun] at hctl
    | _ => simp [Call.entry] at hctl
  · rw [hcalled.running]
    intro hctl
    cases call with
    | start => cases hrun : s.running <;> simp [Call.entry, hrun] at hctl
    | stop =>
        cases hrun : s.running with
        | true => exact ⟨rfl, hborn hrun⟩
        | false => simp [Call.entry, hrun] at hctl
    | _ => simp [Call.entry] at hctl

/-- A step that keeps the threads and ends in no call that concerns them. -/
theorem State.Staffed.of_same {s s' : State threads H} (hstaffed : s.Staffed)
    (hworkers : s'.workers = s.workers) (hrunning : s'.running = s.running)
    (hctl : ∀ next, s.ctl ≠ .starting next)
    (hctl' : s'.ctl = .idle ∨ s'.ctl = .draining) : s'.Staffed := by
  constructor
  · rw [hworkers, hrunning]
    exact fun hrun _ => hstaffed.started hrun hctl
  all_goals rcases hctl' with h | h <;> simp [h]

/-- `start` goes on until it has created every thread. -/
theorem started_all {s s' : State threads H} {next : Nat}
    (hctl : s.ctl = .starting next) (hstep : ctlStep s = some s')
    (hctl' : s'.ctl = .idle) : threads.toNat ≤ next := by
  simp only [ctlStep, hctl] at hstep
  split at hstep
  · obtain rfl := Option.some.inj hstep
    cases hctl'
  · rename_i hge
    omega

theorem State.Staffed.ctl {s s' : State threads H} (hstaffed : s.Staffed)
    (hstep : ctlStep s = some s') : s'.Staffed := by
  cases ctlStep_turn hstep with
  | create next lt ctl =>
      have hcreated := hstaffed.starting next ctl
      constructor
      · simp
      · intro next' hnext' i hi
        obtain rfl := Ctl.starting.inj hnext'
        by_cases hnew : i = ⟨next, lt⟩
        · simp [State.put, hnew]
        · have hne : i.val ≠ next := fun h => hnew (Fin.ext h)
          simpa [State.put, hnew] using hcreated i (by omega)
      · simp
  | started next ctl =>
      have hall := started_all ctl hstep rfl
      have hcreated := hstaffed.starting next ctl
      constructor
      · intro _ _ i
        exact hcreated i (by omega)
      all_goals simp
  | unpause ctl =>
      obtain ⟨hrunning, hall⟩ := hstaffed.stopping (Or.inl ctl)
      constructor
      · intro _ _
        exact hall
      · simp
      · intro _
        exact ⟨hrunning, hall⟩
  | join ctl exited =>
      obtain ⟨hrunning, -⟩ := hstaffed.stopping (Or.inr ctl)
      constructor <;> simp [hrunning]
  | wait ctl busy => exact hstaffed
  | drain ctl running =>
      exact hstaffed.of_same rfl rfl (by simp [ctl]) (Or.inr rfl)
  | store p ctl => exact hstaffed.of_same rfl rfl (by simp [ctl]) (Or.inl rfl)
  | clear ctl => exact hstaffed.of_same rfl rfl (by simp [ctl]) (Or.inl rfl)
  | skip ctl running =>
      exact hstaffed.of_same rfl rfl (by simp [ctl]) (Or.inl rfl)
  | drained ctl zero =>
      exact hstaffed.of_same rfl rfl (by simp [ctl]) (Or.inl rfl)

theorem State.Staffed.step {s s' : State threads H} {label : Label threads H}
    (hstaffed : s.Staffed) (hstep : step s label = some s') : s'.Staffed := by
  cases step_acted hstep with
  | turn i turned => exact hstaffed.turned turned
  | call call called => exact hstaffed.call called
  | ctl taken => exact hstaffed.ctl taken

/-- What is known of the threads in every run. -/
structure State.Threaded (s : State threads H) : Prop where
  staffed : s.Staffed
  equipped : s.Equipped

theorem State.Threaded.of_run {labels : List (Label threads H)}
    {s : State threads H}
    (hrun : Run MinerPool.step anyLabel (MinerPool.init threads H) labels s) :
    s.Threaded := by
  apply hrun.invariant
  · intro state label next hinv _ hstep
    exact ⟨hinv.staffed.step hstep, hinv.equipped.step hstep⟩
  · exact ⟨State.Staffed.init, State.Equipped.init⟩

/-- The steps of the controlling thread until `stop` has returned. -/
def Ctl.toReturn : Ctl → Nat
  | .stopping => 2
  | .joining => 1
  | _ => 0

theorem Ctl.toReturn_le (ctl : Ctl) : ctl.toReturn ≤ 2 := by
  cases ctl <;> simp [Ctl.toReturn]

/-- The steps of all threads until `stop` has returned. -/
def State.toReturn (s : State threads H) : Nat :=
  ∑ i, (s.workers i).pc.toExit + s.ctl.toReturn

theorem State.toReturn_le (s : State threads H) :
    s.toReturn ≤ loopSteps * threads.toNat + 2 := by
  have hworkers : ∑ i, (s.workers i).pc.toExit ≤
      ∑ _i : Fin threads.toNat, loopSteps :=
    Finset.sum_le_sum fun i _ => (s.workers i).pc.toExit_le
  have hctl := s.ctl.toReturn_le
  have hsum : ∑ _i : Fin threads.toNat, loopSteps =
      loopSteps * threads.toNat := by
    simp [Nat.mul_comm]
  simp only [State.toReturn]
  omega

/-- With `running_` cleared every turn of a worker brings the return nearer. -/
theorem Turned.toReturn_lt {s s' : State threads H} {i : Fin threads.toNat}
    {label : Label threads H} (hturned : Turned s s' i label)
    (hrunning : s.running = false) : s'.toReturn < s.toReturn := by
  obtain ⟨w, inFlight, event, hturn, hw, -, -⟩ := hturned.turn
  have hlt := hturn.toExit_lt fun _ => hrunning
  have hsum := sum_workers_update (fun w => w.pc.toExit) hturned.others
  rw [hw] at hsum
  simp only [State.toReturn, hturned.ctl]
  omega

/-- Inside `stop`, or back from it. -/
structure State.Stopping (s : State threads H) : Prop extends s.Threaded where
  ctl : s.ctl = .stopping ∨ s.ctl = .joining ∨ s.ctl = .idle

/-- While `stop` waits, every step of anybody brings its return nearer. -/
theorem State.Stopping.step {s s' : State threads H} {label : Label threads H}
    (hstopping : s.Stopping) (hbusy : s.ctl ≠ .idle)
    (hstep : step s label = some s') :
    s'.Stopping ∧ s'.toReturn < s.toReturn := by
  have hstaffed := hstopping.staffed.step hstep
  have hequipped := hstopping.equipped.step hstep
  have hinside : s.ctl = .stopping ∨ s.ctl = .joining := by
    rcases hstopping.ctl with h | h | h
    · exact Or.inl h
    · exact Or.inr h
    · exact absurd h hbusy
  obtain ⟨hrunning, -⟩ := hstopping.staffed.stopping hinside
  cases step_acted hstep with
  | turn i turned =>
      refine ⟨⟨⟨hstaffed, hequipped⟩, ?_⟩, turned.toReturn_lt hrunning⟩
      rw [turned.ctl]
      exact hstopping.ctl
  | call call called => exact absurd called.idle hbusy
  | ctl taken =>
      cases ctlStep_turn taken with
      | unpause ctl =>
          refine ⟨⟨⟨hstaffed, hequipped⟩, Or.inr (Or.inl rfl)⟩, ?_⟩
          simp [State.toReturn, ctl, Ctl.toReturn]
      | join ctl exited =>
          refine ⟨⟨⟨hstaffed, hequipped⟩, Or.inr (Or.inr rfl)⟩, ?_⟩
          simp [State.toReturn, ctl, Ctl.toReturn, Pc.toExit]
      | _ => simp_all

theorem Turn.actor {s : State threads H} {i : Fin threads.toNat}
    {label : Label threads H} {w : Worker H} {inFlight : UInt32}
    {event : Option (Event threads H)}
    (hturn : Turn s i label w inFlight event) : label.actor = some i := by
  cases hturn <;> rfl

/-- The label is a step of worker `i`. -/
def Label.isOf (i : Fin threads.toNat) (label : Label threads H) : Bool :=
  decide (label.actor = some i)

/-- The label is a step of the controlling thread inside a call. -/
def Label.isCtl : Label threads H → Bool
  | .ctl => true
  | _ => false

theorem Turn.not_ctl {s : State threads H} {i : Fin threads.toNat}
    {label : Label threads H} {w : Worker H} {inFlight : UInt32}
    {event : Option (Event threads H)}
    (hturn : Turn s i label w inFlight event) : label.isCtl = false := by
  cases hturn <;> rfl

/-- While `stop` waits, each thread's steps use up its own bound. -/
theorem State.Stopping.spends {s s' : State threads H}
    {label : Label threads H} (hstopping : s.Stopping) (hbusy : s.ctl ≠ .idle)
    (hstep : MinerPool.step s label = some s') :
    (∀ i, (s'.workers i).pc.toExit + (label.isOf i).toNat ≤
        (s.workers i).pc.toExit) ∧
      s'.ctl.toReturn + label.isCtl.toNat ≤ s.ctl.toReturn := by
  obtain ⟨hrunning, -⟩ := hstopping.staffed.stopping
    (hstopping.ctl.imp_right (Or.resolve_right · hbusy))
  cases step_acted hstep with
  | turn j turned =>
      obtain ⟨w, inFlight, event, hturn, hw, -, -⟩ := turned.turn
      refine ⟨fun i => ?_, ?_⟩
      · by_cases hi : i = j
        · subst hi
          rw [hw]
          have hlt := hturn.toExit_lt fun _ => hrunning
          simp only [Label.isOf, hturn.actor, decide_true, Bool.toNat_true]
          omega
        · have hother : label.isOf i = false := by
            simp [Label.isOf, hturn.actor, Ne.symm hi]
          rw [turned.others i hi, hother]
          exact Nat.le_refl _
      · rw [turned.ctl, hturn.not_ctl]
        exact Nat.le_refl _
  | call call called => exact absurd called.idle hbusy
  | ctl taken =>
      cases ctlStep_turn taken with
      | unpause ctl =>
          exact ⟨fun i => Nat.le_refl _, by simp [ctl, Ctl.toReturn, Label.isCtl]⟩
      | join ctl exited =>
          refine ⟨fun i => ?_, by simp [ctl, Ctl.toReturn, Label.isCtl]⟩
          rw [exited i]
          exact Nat.le_refl _
      | _ =>
          have hctl := hstopping.ctl
          simp_all

/-- While `stop` waits, a thread that has not left `run` can take a step. -/
theorem State.Stopping.canMove {s : State threads H} (hstopping : s.Stopping)
    (hasher : H) (hbusy : s.ctl ≠ .idle) {i : Fin threads.toNat}
    (hstays : (s.workers i).pc ≠ .exited) : s.CanMove i := by
  obtain ⟨-, hborn⟩ := hstopping.staffed.stopping
    (hstopping.ctl.imp_right (Or.resolve_right · hbusy))
  exact hstopping.equipped.canMove hasher (hborn i) hstays

/-- When every thread has left `run` the controlling thread can go on. -/
theorem State.Stopping.joins {s : State threads H} (hstopping : s.Stopping)
    (hbusy : s.ctl ≠ .idle) (hexited : ∀ i, (s.workers i).pc = .exited) :
    ∃ next, ctlStep s = some next := by
  rcases hstopping.ctl with hctl | hctl | hctl
  · refine ⟨{ s with paused := false, ctl := .joining }, ?_⟩
    simp [ctlStep, hctl]
  · refine ⟨{ s with workers := fun _ => {}, ctl := .idle }, ?_⟩
    simp [ctlStep, hctl, hexited]
  · exact absurd hctl hbusy

theorem State.Stopping.goesOn {s : State threads H} (hstopping : s.Stopping)
    (hasher : H) (hbusy : s.ctl ≠ .idle) :
    ∃ label next, MinerPool.step s label = some next := by
  by_cases hexited : ∀ i, (s.workers i).pc = .exited
  · obtain ⟨next, hnext⟩ := hstopping.joins hbusy hexited
    exact ⟨.ctl, next, hnext⟩
  · obtain ⟨i, hstays⟩ := not_forall.mp hexited
    obtain ⟨label, next, -, hnext⟩ := hstopping.canMove hasher hbusy hstays
    exact ⟨label, next, hnext⟩

theorem State.Stopping.of_run {labels : List (Label threads H)}
    {s : State threads H}
    (hrun : Run MinerPool.step anyLabel (MinerPool.init threads H) labels s)
    (hstop : s.ctl = .stopping ∨ s.ctl = .joining) : s.Stopping :=
  ⟨State.Threaded.of_run hrun, hstop.imp_right Or.inl⟩

/-- How many steps of its own each thread still has while `stop` waits. -/
theorem State.Stopping.bounded {s s' : State threads H}
    {more : List (Label threads H)} (hstopping : s.Stopping)
    (hmore : Run MinerPool.step (fun s _ => s.ctl ≠ .idle) s more s') :
    s'.Stopping ∧ more.countP Label.isCtl ≤ 2 ∧
      ∀ i, more.countP (Label.isOf i) ≤ loopSteps := by
  have hctl := hmore.countP_le Label.isCtl (fun s => s.ctl.toReturn) hstopping
    fun state label next hinv hbusy hstep =>
      ⟨(hinv.step hbusy hstep).1, (hinv.spends hbusy hstep).2⟩
  refine ⟨hctl.1, Nat.le_trans (Nat.le_of_add_left_le hctl.2)
    s.ctl.toReturn_le, fun i => ?_⟩
  have hworker := hmore.countP_le (Label.isOf i)
    (fun s => (s.workers i).pc.toExit) hstopping
    fun state label next hinv hbusy hstep =>
      ⟨(hinv.step hbusy hstep).1, (hinv.spends hbusy hstep).1 i⟩
  exact Nat.le_trans (Nat.le_of_add_left_le hworker.2)
    (s.workers i).pc.toExit_le

/-- `stop` returns: whatever the workers are doing when it is called and in
whatever order the threads go on, at most 62 steps of each worker and two of
its own lead to its return.  Before that each worker that has not left `run`
can take a step, and when all have, the controlling thread can. -/
theorem stop_returns {labels : List (Label threads H)} {s : State threads H}
    (hasher : H) (hrun : Run step anyLabel (init threads H) labels s)
    (hstop : s.ctl = .stopping ∨ s.ctl = .joining) :
    ReturnsWithin step (fun s => s.ctl ≠ .idle) (loopSteps * threads.toNat + 2)
        s ∧
      ∀ more s', Run step (fun s _ => s.ctl ≠ .idle) s more s' →
        more.countP Label.isCtl ≤ 2 ∧
        (∀ i, more.countP (Label.isOf i) ≤ loopSteps) ∧
        (s'.ctl ≠ .idle →
          (∀ i, (s'.workers i).pc ≠ .exited → s'.CanMove i) ∧
          ((∀ i, (s'.workers i).pc = .exited) →
            ∃ s'', ctlStep s' = some s'')) := by
  have hstopping := State.Stopping.of_run hrun hstop
  constructor
  · apply ReturnsWithin.mono _ s.toReturn_le
    apply returnsWithin_of_measure hstopping
    · intro state label next hinv hbusy hstep
      exact hinv.step hbusy hstep
    · intro state hinv hbusy
      exact hinv.goesOn hasher hbusy
  · intro more s' hmore
    obtain ⟨hstopping', hctl, hworkers⟩ := hstopping.bounded hmore
    refine ⟨hctl, hworkers, fun hbusy => ⟨fun i hstays => ?_, fun hexited => ?_⟩⟩
    · exact hstopping'.canMove hasher hbusy hstays
    · exact hstopping'.joins hbusy hexited

/-- A worker is inside `make_hasher_` when `stop` is called. -/
def stopLabels : List (Label 1 Unit) :=
  [.call .start, .ctl, .ctl, .worker soleWorker, .call .stop]

theorem stopLabels_return :
    ∃ s : State 1 Unit, Run step anyLabel (init 1 Unit) stopLabels s ∧
      s.ctl = .stopping ∧
      ReturnsWithin step (fun s => s.ctl ≠ .idle) (loopSteps * 1 + 2) s ∧
      s.CanMove soleWorker := by
  let s := (replay step anyLabel (init 1 Unit) stopLabels).get rfl
  have hrun : Run step anyLabel (init 1 Unit) stopLabels s := run_of_replay rfl
  obtain ⟨hreturns, hmore⟩ := stop_returns () hrun (Or.inl rfl)
  obtain ⟨-, -, hgoesOn⟩ := hmore [] s .nil
  exact ⟨s, hrun, rfl, hreturns, (hgoesOn nofun).1 soleWorker nofun⟩

/-- Inside `pause`, or back from it. -/
structure State.Pausing (s : State threads H) : Prop extends s.Threaded where
  sound : Sound s
  paused : s.paused = true
  ctl : s.ctl = .pausing ∨ s.ctl = .draining ∨ s.ctl = .idle

/-- The steps of a worker to the top of its loop. -/
def Pc.toTop (pc : Pc) : Nat :=
  if pc.atTop then 0 else pc.toExit

theorem Pc.toTop_le (pc : Pc) : pc.toTop ≤ loopSteps := by
  unfold Pc.toTop
  split
  · exact Nat.zero_le _
  · exact pc.toExit_le

theorem Pc.toTop_eq_zero {pc : Pc} : pc.toTop = 0 ↔ pc.atTop = true := by
  cases pc with
  | making build => cases build <;> simp [Pc.toTop, Pc.atTop, Pc.toExit]
  | loadHasherGen build => cases build <;> simp [Pc.toTop, Pc.atTop, Pc.toExit]
  | _ => simp [Pc.toTop, Pc.atTop, Pc.toExit]

/-- Under a pause a worker goes on to the top of its loop and stays there. -/
theorem Turn.toTop_le {s : State threads H} {i : Fin threads.toNat}
    {label : Label threads H} {w : Worker H} {inFlight : UInt32}
    {event : Option (Event threads H)}
    (hturn : Turn s i label w inFlight event) (hpaused : s.paused = true) :
    w.pc.toTop ≤ (s.workers i).pc.toTop - 1 := by
  by_cases htop : (s.workers i).pc.atTop = true
  · cases hturn <;> simp_all [Pc.atTop, Pc.toTop]
  · have hlt := hturn.toExit_lt fun hhead => by simp [hhead, Pc.atTop] at htop
    have hle : w.pc.toTop ≤ w.pc.toExit := by
      unfold Pc.toTop
      split
      · exact Nat.zero_le _
      · exact Nat.le_refl _
    have hsame : (s.workers i).pc.toTop = (s.workers i).pc.toExit :=
      if_neg htop
    omega

theorem State.Pausing.step {s s' : State threads H} {label : Label threads H}
    (hpausing : s.Pausing) (hbusy : s.ctl ≠ .idle)
    (hstep : step s label = some s') : s'.Pausing := by
  have hthreaded : s'.Threaded :=
    ⟨hpausing.staffed.step hstep, hpausing.equipped.step hstep⟩
  have hsound := hpausing.sound.step hstep
  have hctl := hpausing.ctl
  cases step_acted hstep with
  | turn i turned =>
      apply State.Pausing.mk hthreaded hsound
      · rw [turned.paused]
        exact hpausing.paused
      · rw [turned.ctl]
        exact hctl
  | call call called => exact absurd called.idle hbusy
  | ctl taken =>
      cases ctlStep_turn taken with
      | drain ctl running =>
          exact ⟨hthreaded, hsound, hpausing.paused, Or.inr (Or.inl rfl)⟩
      | skip ctl running =>
          exact ⟨hthreaded, hsound, hpausing.paused, Or.inr (Or.inr rfl)⟩
      | drained ctl zero =>
          exact ⟨hthreaded, hsound, hpausing.paused, Or.inr (Or.inr rfl)⟩
      | wait ctl busy => exact hpausing
      | _ => simp_all

/-- While `pause` waits, every step of a worker's own takes it nearer to the
top of its loop, and no other step moves it. -/
theorem State.Pausing.toTop_le {s s' : State threads H}
    {label : Label threads H} (hpausing : s.Pausing) (hbusy : s.ctl ≠ .idle)
    (hstep : MinerPool.step s label = some s') (i : Fin threads.toNat) :
    (s'.workers i).pc.toTop ≤
      (s.workers i).pc.toTop - (label.isOf i).toNat := by
  cases step_acted hstep with
  | turn j turned =>
      obtain ⟨w, inFlight, event, hturn, hw, -, -⟩ := turned.turn
      by_cases hi : i = j
      · subst hi
        rw [hw]
        simpa [Label.isOf, hturn.actor] using hturn.toTop_le hpausing.paused
      · have hother : label.isOf i = false := by
          simp [Label.isOf, hturn.actor, Ne.symm hi]
        rw [turned.others i hi, hother]
        exact Nat.le_refl _
  | call call called => exact absurd called.idle hbusy
  | ctl taken =>
      have hctl := hpausing.ctl
      cases ctlStep_turn taken with
      | create next lt ctl => simp [ctl] at hctl
      | join ctl exited => simp [ctl] at hctl
      | _ => exact Nat.le_refl _

/-- With every worker at the top of its loop the wait is over. -/
theorem State.Pausing.returns {s : State threads H} (hpausing : s.Pausing)
    (hbusy : s.ctl ≠ .idle)
    (htop : ∀ i, (s.workers i).pc.atTop = true) :
    s.inFlight = 0 ∧ ∃ s', ctlStep s = some s' ∧
      (s'.ctl = .idle ∨ s.ctl = .pausing ∧ s'.ctl = .draining) := by
  have hnone : s.announcedCount = 0 := by
    apply Finset.sum_eq_zero
    intro i _
    have hi := htop i
    cases hpc : (s.workers i).pc <;> simp_all [Pc.atTop, Pc.announced]
  have hzero : s.inFlight = 0 := by
    apply UInt32.toNat_inj.mp
    rw [hpausing.sound.counted, hnone]
    rfl
  refine ⟨hzero, ?_⟩
  rcases hpausing.ctl with hctl | hctl | hctl
  · cases hrunning : s.running with
    | true =>
        exact ⟨{ s with ctl := .draining },
          by simp [ctlStep, hctl, hrunning], Or.inr ⟨hctl, rfl⟩⟩
    | false =>
        exact ⟨{ s with ctl := .idle }, by simp [ctlStep, hctl, hrunning],
          Or.inl rfl⟩
  · exact ⟨{ s with ctl := .idle }, by simp [ctlStep, hctl, hzero], Or.inl rfl⟩
  · exact absurd hctl hbusy

theorem State.Pausing.of_run {labels : List (Label threads H)}
    {s : State threads H}
    (hrun : Run MinerPool.step anyLabel (MinerPool.init threads H) labels s)
    (hctl : s.ctl = .pausing ∨ s.ctl = .draining) : s.Pausing := by
  have hsound : Sound s := hrun.invariant
    (fun _ _ _ hinv _ hstep => Sound.step hinv hstep) Sound.init
  have hinside : PausedInside s := hrun.invariant
    (fun _ _ _ hinv _ hstep => PausedInside.step hinv hstep)
    (by simp [PausedInside, MinerPool.init])
  exact ⟨State.Threaded.of_run hrun, hsound, hinside hctl,
    hctl.imp_right Or.inl⟩

/-- `pause` returns: in every way to go on while it waits, a worker that is
away from the top of its loop can take a step, 62 steps of its own have taken
it there for as long as the pause lasts, and with all workers there
`in_flight_` is 0 and the next test of it ends the wait. -/
theorem pause_returns {labels more : List (Label threads H)}
    {s s' : State threads H} (hasher : H)
    (hrun : Run step anyLabel (init threads H) labels s)
    (hpause : s.ctl = .pausing ∨ s.ctl = .draining)
    (hmore : Run step (fun s _ => s.ctl ≠ .idle) s more s')
    (hwaits : s'.ctl ≠ .idle) :
    (∀ i, ((s'.workers i).pc.atTop = true ∨ s'.CanMove i) ∧
      (loopSteps ≤ more.countP (Label.isOf i) →
        (s'.workers i).pc.atTop = true)) ∧
      ((∀ i, (s'.workers i).pc.atTop = true) →
        s'.inFlight = 0 ∧ ∃ s'', ctlStep s' = some s'' ∧
          (s''.ctl = .idle ∨ s'.ctl = .pausing ∧ s''.ctl = .draining)) := by
  have hstart := State.Pausing.of_run hrun hpause
  have hleft : ∀ i, (s'.workers i).pc.toTop ≤
      (s.workers i).pc.toTop - more.countP (Label.isOf i) := by
    intro i
    apply And.right (hmore.left_le _ _ hstart _)
    · exact fun state label next hinv hbusy hstep =>
        ⟨hinv.step hbusy hstep, hinv.toTop_le hbusy hstep i⟩
  have hpausing : s'.Pausing := hmore.invariant
    (fun _ _ _ hinv hbusy hstep => hinv.step hbusy hstep) hstart
  constructor
  · intro i
    constructor
    · by_cases htop : (s'.workers i).pc.atTop = true
      · exact Or.inl htop
      · apply Or.inr
        apply hpausing.equipped.canMove hasher
        · intro hpc
          simp [hpc, Pc.atTop] at htop
        · intro hpc
          simp [hpc, Pc.atTop] at htop
    · intro hcount
      have hle := hleft i
      have hmost := (s.workers i).pc.toTop_le
      apply Pc.toTop_eq_zero.mp
      omega
  · exact hpausing.returns hwaits

/-- The worker has announced itself when `pause` is called. -/
def announcedLabels : List (Label 1 Unit) :=
  pauseLabels.take 15

/-- `pause` finds the worker announced and waits; the worker finds the flag and
goes back to the top of its loop. -/
def waitedLabels : List (Label 1 Unit) :=
  [.ctl, .ctl, .worker soleWorker, .worker soleWorker]

theorem waitedLabels_return :
    ∃ s s' : State 1 Unit,
      Run step anyLabel (init 1 Unit) announcedLabels s ∧
        Run step (fun s _ => s.ctl ≠ .idle) s waitedLabels s' ∧
        s'.ctl = .draining ∧ s'.inFlight = 0 ∧
        ∃ s'', ctlStep s' = some s'' ∧
          (s''.ctl = .idle ∨ s'.ctl = .pausing ∧ s''.ctl = .draining) := by
  let s := (replay step anyLabel (init 1 Unit) announcedLabels).get rfl
  have hrun : Run step anyLabel (init 1 Unit) announcedLabels s :=
    run_of_replay rfl
  have hmore : Run step (fun s _ => s.ctl ≠ .idle) s waitedLabels
      ((replay step (fun s _ => s.ctl ≠ .idle) s waitedLabels).get rfl) :=
    run_of_replay rfl
  have hreturns := pause_returns () hrun (Or.inl rfl) hmore (by decide)
  obtain ⟨hzero, hnext⟩ := hreturns.2 (by decide)
  exact ⟨s, _, hrun, hmore, rfl, hzero, hnext⟩

end MinerPool

end Minerby
