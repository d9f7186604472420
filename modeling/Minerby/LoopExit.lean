/-
How the main loop comes to an end, and how it leaves a pool that has gone
silent.  The loop looks at its flag, its deadline and the job timeout at one
place each, so what it can still do before it acts on them is counted down.
-/
import Minerby.Countdown
import Minerby.LoopTimers

namespace Minerby

/-- A step of the main thread, not of the clock or of others. -/
def TimerLabel.isMove : TimerLabel → Bool
  | .tick _ => false
  | .signal => false
  | .job => false
  | _ => true

def TimerLabel.isConnect : TimerLabel → Bool
  | .connect _ _ => true
  | _ => false

def TimerLabel.isPoll : TimerLabel → Bool
  | .poll _ _ => true
  | _ => false

namespace LoopTimers

variable {setup : TimerSetup} {s s' last : LoopTimers} {label : TimerLabel}
  {labels more : List TimerLabel}

/-- A signal has arrived, or the time is up. -/
def Over (setup : TimerSetup) (s : LoopTimers) : Prop :=
  s.stopping = true ∨
    0 < setup.runFor ∧ setup.runStart + setup.runFor * second ≤ s.now

theorem enter_of_over (hover : Over setup s) :
    s.enter setup = { s with pc := .leaving } := by
  unfold enter
  rcases hover with hstopping | htime
  · rw [if_pos hstopping]
  · rw [if_pos htime, ite_self]

theorem Over.turn (hover : Over setup s) (hturn : Turn s label s') :
    Over setup s' := by
  have hlater : ∀ elapsed,
      0 < setup.runFor ∧ setup.runStart + setup.runFor * second ≤ s.now →
        0 < setup.runFor ∧
          setup.runStart + setup.runFor * second ≤ s.now + elapsed :=
    fun elapsed h => ⟨h.1, h.2.trans (Nat.le_add_right _ _)⟩
  cases hturn with
  | tick elapsed => exact hover.imp_right (hlater elapsed)
  | sleep left elapsed pc long going => exact hover.imp_right (hlater elapsed)
  | signal => exact Or.inl rfl
  | connect began ok connected pc => cases ok <;> exact hover
  | poll ok connected pc => cases ok <;> exact hover
  | watchdog pc =>
      unfold LoopTimers.watchdog
      split <;> exact hover
  | persist pc =>
      unfold LoopTimers.persist
      simp only
      split <;> exact hover
  | status pc =>
      unfold LoopTimers.status
      simp only
      split <;> exact hover
  | _ => exact hover

/-- At the top of the loop the main thread leaves. -/
theorem leaves_of_over (hover : Over setup s) (hpc : s.pc = .top)
    (hstep : s.step setup .main = some s') :
    s' = { s with pc := .leaving } := by
  simp only [step, mainStep, hpc, Option.some.injEq] at hstep
  rw [← hstep, enter_of_over hover]

end LoopTimers

/-- The moves that the main thread makes at most before it leaves the loop. -/
def TimerPc.toLeave (stopping : Bool) (backoff : Nat) : TimerPc → Nat
  | .leaving => 0
  | .top => 1
  | .status => 2
  | .persist => 3
  | .watchdog => 4
  | .polling => 5
  | .backingOff left => if stopping then 2 else left + 2
  | .connecting _ => if stopping then 6 else backoff * 10 + 6

/-- The calls of `connect` before it leaves. -/
def TimerPc.connectsLeft : TimerPc → Nat
  | .connecting _ => 1
  | _ => 0

/-- The calls of `poll` before it leaves. -/
def TimerPc.pollsLeft : TimerPc → Nat
  | .connecting _ => 1
  | .polling => 1
  | _ => 0

namespace LoopTimers

variable {setup : TimerSetup} {s s' last : LoopTimers} {label : TimerLabel}
  {labels more : List TimerLabel}

/-- What is left of the loop before it is left. -/
def toLeave (s : LoopTimers) : Nat := s.pc.toLeave s.stopping s.backoff

/-- A step uses up what is left of the loop. -/
structure Spends (s : LoopTimers) (label : TimerLabel) (s' : LoopTimers) :
    Prop where
  moves : s'.toLeave + label.isMove.toNat ≤ s.toLeave
  connects : s'.pc.connectsLeft + label.isConnect.toNat ≤ s.pc.connectsLeft
  polls : s'.pc.pollsLeft + label.isPoll.toNat ≤ s.pc.pollsLeft

/-- A move to a place outside `connect` and `poll`. -/
theorem Spends.of_main {pc : TimerPc} (hpc : s.pc = pc)
    (hmoves : s'.toLeave + 1 ≤ pc.toLeave s.stopping s.backoff)
    (hconnects : s'.pc.connectsLeft = 0) (hpolls : s'.pc.pollsLeft = 0) :
    Spends s .main s' := by
  refine ⟨?_, ?_, ?_⟩
  · rw [← hpc] at hmoves
    exact hmoves
  · rw [hconnects]
    exact Nat.zero_le _
  · rw [hpolls]
    exact Nat.zero_le _

theorem toLeave_signal (s : LoopTimers) :
    ({ s with stopping := true } : LoopTimers).toLeave ≤ s.toLeave := by
  unfold toLeave
  cases s.pc with
  | backingOff left =>
      simp only [TimerPc.toLeave, if_true]
      split <;> omega
  | connecting began =>
      simp only [TimerPc.toLeave, if_true]
      split <;> omega
  | _ => exact Nat.le_refl _

theorem Over.spends (hover : Over setup s)
    (hstep : s.step setup label = some s') : Spends s label s' := by
  cases step_turn hstep with
  | tick elapsed => exact ⟨Nat.le_refl _, Nat.le_refl _, Nat.le_refl _⟩
  | signal => exact ⟨s.toLeave_signal, Nat.le_refl _, Nat.le_refl _⟩
  | job => exact ⟨Nat.le_refl _, Nat.le_refl _, Nat.le_refl _⟩
  | leave pc => exact Spends.of_main pc (Nat.le_refl _) rfl rfl
  | enter pc going =>
      have hleaves := leaves_of_over hover pc hstep
      cases congrArg LoopTimers.pc hleaves
  | dial pc going =>
      have hleaves := leaves_of_over hover pc hstep
      cases congrArg LoopTimers.pc hleaves
  | connect began ok connected pc =>
      cases ok with
      | true =>
          refine ⟨?_, ?_, ?_⟩
          · simp only [toLeave, pc, LoopTimers.connect, TimerPc.toLeave,
              TimerLabel.isMove, Bool.toNat_true, if_true]
            split <;> omega
          · rw [pc]
            exact Nat.le_refl _
          · rw [pc]
            exact Nat.le_refl _
      | false =>
          refine ⟨?_, ?_, ?_⟩
          · simp only [toLeave, pc, LoopTimers.connect, TimerPc.toLeave,
              TimerLabel.isMove, Bool.toNat_true, Bool.false_eq_true, if_false]
            split <;> omega
          · rw [pc]
            exact Nat.le_refl _
          · exact Nat.zero_le _
  | sleep left elapsed pc long going =>
      refine ⟨?_, Nat.zero_le _, Nat.zero_le _⟩
      simp [toLeave, pc, going, TimerPc.toLeave, TimerLabel.isMove]
  | retry left pc slept =>
      refine Spends.of_main pc ?_ rfl rfl
      simp only [toLeave, LoopTimers.retry, TimerPc.toLeave]
      split <;> omega
  | poll ok connected pc =>
      cases ok with
      | true =>
          refine ⟨?_, Nat.zero_le _, ?_⟩
          · simp [toLeave, pc, LoopTimers.poll, TimerPc.toLeave,
              TimerLabel.isMove]
          · rw [pc]
            exact Nat.le_refl _
      | false =>
          refine ⟨?_, Nat.zero_le _, ?_⟩
          · simp [toLeave, pc, LoopTimers.poll, TimerPc.toLeave,
              TimerLabel.isMove]
          · rw [pc]
            exact Nat.le_refl _
  | watchdog pc =>
      unfold LoopTimers.watchdog
      split
      · exact Spends.of_main pc (by simp [toLeave, TimerPc.toLeave]) rfl rfl
      · exact Spends.of_main pc (Nat.le_refl _) rfl rfl
  | persist pc =>
      unfold LoopTimers.persist
      simp only
      split <;> exact Spends.of_main pc (Nat.le_refl _) rfl rfl
  | status pc =>
      unfold LoopTimers.status
      simp only
      split <;> exact Spends.of_main pc (Nat.le_refl _) rfl rfl

/-- The back-off is never longer than 30 seconds. -/
theorem BacksOff.backoff_le (hbacks : BacksOff s) : s.backoff ≤ 30 := by
  by_cases hout : ∀ left, s.pc ≠ .backingOff left
  · rw [(hbacks.rested hout).1]
    exact Nat.min_le_right _ _
  · obtain ⟨left, hpc⟩ := not_forall_not.mp hout
    rw [(hbacks.resting left hpc).2.1]
    exact Nat.min_le_right _ _

theorem BacksOff.toLeave_le (hbacks : BacksOff s) :
    s.toLeave ≤ if s.stopping then 6 else 306 := by
  have hbackoff := hbacks.backoff_le
  unfold toLeave
  cases hpc : s.pc with
  | backingOff left =>
      have hslept := (hbacks.resting left hpc).2.2
      cases hstopping : s.stopping with
      | true => simp [TimerPc.toLeave]
      | false =>
          have hleft := (hslept hstopping).1
          simp only [TimerPc.toLeave, Bool.false_eq_true, if_false]
          omega
  | connecting began =>
      simp only [TimerPc.toLeave]
      split <;> omega
  | _ =>
      simp only [TimerPc.toLeave]
      split <;> omega

/-- The main thread has a move at every place in the loop. -/
theorem can_move (setup : TimerSetup) (hpc : s.pc ≠ .leaving) :
    ∃ label next, label.isMove = true ∧ s.step setup label = some next := by
  cases h : s.pc with
  | leaving => exact absurd h hpc
  | connecting began =>
      exact ⟨.connect true true, _, rfl, by simp only [step, h]; rfl⟩
  | polling => exact ⟨.poll true true, _, rfl, by simp only [step, h]; rfl⟩
  | backingOff left =>
      by_cases hover : left = 0 ∨ s.stopping = true
      · exact ⟨.main, _, rfl, by simp only [step, mainStep, h, hover]; rfl⟩
      · obtain ⟨hleft, hgoing⟩ := not_or.mp hover
        obtain ⟨k, rfl⟩ := Nat.exists_eq_succ_of_ne_zero hleft
        refine ⟨.sleep 100000000, { s with
          now := s.now + 100000000, pc := .backingOff k }, rfl, ?_⟩
        simp [step, h, Bool.eq_false_of_not_eq_true hgoing]
  | _ => exact ⟨.main, _, rfl, by simp only [step, mainStep, h]; rfl⟩

theorem BacksOff.of_run
    (hrun : Run (step setup) anyLabel (LoopTimers.init setup) labels s) :
    BacksOff s := by
  apply hrun.invariant
  · intro state label next hbacks _ hstep
    exact hbacks.turn (step_turn hstep)
  · exact BacksOff.init setup

/-- The loop ends, where `connect` and `poll` return.  In every run, from when a
signal has arrived or the time is up, and however the calls go: `connect` and
`poll` are called once more at most each; the main thread makes six moves at most, or 306 when no signal has arrived
and it may have to sleep off a back-off first; and until it has left the loop
there is always a move. -/
theorem loop_ends
    (hrun : Run (step setup) anyLabel (LoopTimers.init setup) labels s)
    (hover : Over setup s) (hmore : Run (step setup) anyLabel s more last) :
    more.countP TimerLabel.isConnect ≤ 1 ∧ more.countP TimerLabel.isPoll ≤ 1 ∧
      more.countP TimerLabel.isMove ≤ (if s.stopping then 6 else 306) ∧
      (last.pc ≠ .leaving →
        ∃ label next, label.isMove = true ∧
          last.step setup label = some next) := by
  have hspends : ∀ state label next, Over setup state → anyLabel state label →
      step setup state label = some next →
        Over setup next ∧ Spends state label next :=
    fun state label next hover _ hstep =>
      ⟨hover.turn (step_turn hstep), hover.spends hstep⟩
  have hconnects := hmore.countP_le TimerLabel.isConnect
    (fun state => state.pc.connectsLeft) hover fun state label next hover hok
      hstep => (hspends state label next hover hok hstep).imp_right
        Spends.connects
  have hpolls := hmore.countP_le TimerLabel.isPoll
    (fun state => state.pc.pollsLeft) hover fun state label next hover hok
      hstep => (hspends state label next hover hok hstep).imp_right Spends.polls
  have hmoves := hmore.countP_le TimerLabel.isMove toLeave hover
    fun state label next hover hok hstep =>
      (hspends state label next hover hok hstep).imp_right Spends.moves
  have hbound := (BacksOff.of_run hrun).toLeave_le
  refine ⟨?_, ?_, ?_, can_move setup⟩
  · have hone : s.pc.connectsLeft ≤ 1 := by
      cases s.pc <;> simp [TimerPc.connectsLeft]
    omega
  · have hone : s.pc.pollsLeft ≤ 1 := by
      cases s.pc <;> simp [TimerPc.pollsLeft]
    omega
  · omega

/-- A signal arrives inside `connect`, which then fails. -/
def signalLabels : List TimerLabel := [.main, .signal]

theorem signalled_ends :
    ∃ s, Run (step timerSetup) anyLabel (LoopTimers.init timerSetup)
        signalLabels s ∧ s.pc = .connecting 0 ∧
      ∀ more last, Run (step timerSetup) anyLabel s more last →
        more.countP TimerLabel.isMove ≤ 6 := by
  have hreplay : (replay (step timerSetup) anyLabel (LoopTimers.init timerSetup)
      signalLabels).any (fun s => s.pc = .connecting 0 ∧ s.stopping = true) =
        true := by
    decide +kernel
  obtain ⟨s, hs, hboth⟩ := (Option.any_eq_true _ _).mp hreplay
  obtain ⟨hpc, hstopping⟩ := of_decide_eq_true hboth
  have hrun := run_of_replay hs
  refine ⟨s, hrun, hpc, fun more last hmore => ?_⟩
  have hends := loop_ends hrun (Or.inl hstopping) hmore
  have hmoves := hends.2.2.1
  rwa [if_pos hstopping] at hmoves

/-- More than 150 seconds have gone by without a job. -/
def Overdue (s : LoopTimers) : Prop := 150 * second < s.now - s.lastJobAt

/-- No job arrives, and `connect` does not return. -/
def Silent (_ : LoopTimers) : TimerLabel → Prop
  | .job => False
  | .connect _ _ => False
  | _ => True

end LoopTimers

/-- The moves before the main thread is in `connect` or has left the loop, when
the next check of the job timeout drops the connection. -/
def TimerPc.toDial (connected : Bool) : TimerPc → Nat
  | .leaving => 0
  | .connecting _ => 0
  | .top => if connected then 4 else 1
  | .watchdog => 2
  | .polling => 3
  | .status => 5
  | .persist => 6
  | .backingOff left => left + 5

/-- The calls of `poll` before that. -/
def TimerPc.pollsToDial (connected : Bool) : TimerPc → Nat
  | .leaving => 0
  | .connecting _ => 0
  | .top => connected.toNat
  | .watchdog => 0
  | _ => 1

namespace LoopTimers

variable {setup : TimerSetup} {s s' last : LoopTimers} {label : TimerLabel}
  {labels more : List TimerLabel}

theorem Overdue.later (hoverdue : Overdue s) (elapsed : Nat) :
    150 * second < s.now + elapsed - s.lastJobAt := by
  unfold Overdue at hoverdue
  omega

theorem Overdue.turn (hoverdue : Overdue s) (hok : Silent s label)
    (hturn : Turn s label s') : Overdue s' := by
  cases hturn with
  | tick elapsed => exact hoverdue.later elapsed
  | sleep left elapsed pc long going => exact hoverdue.later elapsed
  | job => exact hok.elim
  | connect began ok connected pc => exact hok.elim
  | poll ok connected pc => cases ok <;> exact hoverdue
  | watchdog pc =>
      unfold LoopTimers.watchdog
      split <;> exact hoverdue
  | persist pc =>
      unfold LoopTimers.persist
      simp only
      split <;> exact hoverdue
  | status pc =>
      unfold LoopTimers.status
      simp only
      split <;> exact hoverdue
  | _ => exact hoverdue

/-- The main thread polls again only on a connection. -/
theorem connected_of_enter (henter : (s.enter setup).pc = .polling) :
    s.connected = true := by
  unfold enter at henter
  split at henter
  · cases henter
  · split at henter
    · cases henter
    · split at henter
      · assumption
      · cases henter

/-- A step uses up what is left before the pool is dialled again. -/
structure SpendsToDial (s : LoopTimers) (label : TimerLabel)
    (s' : LoopTimers) : Prop where
  moves : s'.pc.toDial s'.connected + label.isMove.toNat ≤
    s.pc.toDial s.connected
  polls : s'.pc.pollsToDial s'.connected + label.isPoll.toNat ≤
    s.pc.pollsToDial s.connected

theorem Overdue.spends (hoverdue : Overdue s) (hok : Silent s label)
    (hstep : s.step setup label = some s') : SpendsToDial s label s' := by
  have htop : ∀ connected : Bool, 1 ≤ TimerPc.top.toDial connected ∧
      TimerPc.top.toDial connected ≤ 4 ∧
      TimerPc.top.pollsToDial connected ≤ 1 := by decide
  cases step_turn hstep with
  | tick elapsed => exact ⟨Nat.le_refl _, Nat.le_refl _⟩
  | signal => exact ⟨Nat.le_refl _, Nat.le_refl _⟩
  | job => exact hok.elim
  | connect began ok connected pc => exact hok.elim
  | leave pc =>
      constructor <;> rw [pc]
      · exact (htop s.connected).1
      · exact Nat.zero_le _
  | enter pc going =>
      simp only [step, mainStep, pc, Option.some.injEq] at hstep
      have hconnected := connected_of_enter (congrArg LoopTimers.pc hstep)
      constructor <;> rw [pc, hconnected] <;> exact Nat.le_refl _
  | dial pc going =>
      constructor <;> rw [pc]
      · exact (htop s.connected).1
      · exact Nat.zero_le _
  | sleep left elapsed pc long going =>
      constructor <;> rw [pc] <;> exact Nat.le_refl _
  | retry left pc slept =>
      obtain ⟨-, hmoves, hpolls⟩ := htop s.connected
      constructor <;> rw [pc]
      · exact (Nat.add_le_add_right hmoves 1).trans (Nat.le_add_left 5 left)
      · exact hpolls
  | poll ok connected pc =>
      cases ok with
      | true => constructor <;> rw [pc] <;> exact Nat.le_refl _
      | false =>
          constructor <;> rw [pc]
          · exact Nat.le_succ 2
          · exact Nat.le_refl _
  | watchdog pc =>
      unfold LoopTimers.watchdog
      rw [if_pos (show 150 * second < s.now - s.lastJobAt from hoverdue)]
      constructor <;> rw [pc] <;> exact Nat.le_refl _
  | persist pc =>
      unfold LoopTimers.persist
      simp only
      split <;> constructor <;> rw [pc] <;> exact Nat.le_refl _
  | status pc =>
      obtain ⟨-, hmoves, hpolls⟩ := htop s.connected
      unfold LoopTimers.status
      simp only
      split <;> constructor <;> rw [pc]
      · exact Nat.add_le_add_right hmoves 1
      · exact hpolls
      · exact Nat.add_le_add_right hmoves 1
      · exact hpolls

theorem silent_of_isMove (hmove : label.isMove = true)
    (hpc : ∀ began, s.pc ≠ .connecting began)
    (hstep : s.step setup label = some s') : Silent s label := by
  cases step_turn hstep with
  | job => cases hmove
  | connect began ok connected pc => exact absurd pc (hpc began)
  | _ => trivial

/-- A pool that has gone silent is left.  From when more than 150 seconds have
gone by without a job, outside the back-off, and until one arrives or `connect`
returns: `poll` is called once more at most, the main thread makes six moves at
most, and until it is in `connect` or has left the loop there is always one. -/
theorem silent_pool_left (hoverdue : Overdue s)
    (hout : ∀ left, s.pc ≠ .backingOff left)
    (hmore : Run (step setup) Silent s more last) :
    more.countP TimerLabel.isPoll ≤ 1 ∧ more.countP TimerLabel.isMove ≤ 6 ∧
      (last.pc ≠ .leaving → (∀ began, last.pc ≠ .connecting began) →
        ∃ label next, label.isMove = true ∧ Silent last label ∧
          last.step setup label = some next) := by
  have hpolls := hmore.countP_le TimerLabel.isPoll
    (fun state => state.pc.pollsToDial state.connected) hoverdue
    fun state label next hoverdue hok hstep =>
      ⟨hoverdue.turn hok (step_turn hstep), (hoverdue.spends hok hstep).polls⟩
  have hmoves := hmore.countP_le TimerLabel.isMove
    (fun state => state.pc.toDial state.connected) hoverdue
    fun state label next hoverdue hok hstep =>
      ⟨hoverdue.turn hok (step_turn hstep), (hoverdue.spends hok hstep).moves⟩
  have hsix : s.pc.toDial s.connected ≤ 6 ∧
      s.pc.pollsToDial s.connected ≤ 1 := by
    cases hpc : s.pc with
    | backingOff left => exact absurd hpc (hout left)
    | _ => cases s.connected <;> simp [TimerPc.toDial, TimerPc.pollsToDial]
  refine ⟨by omega, by omega, fun hleaving hconnecting => ?_⟩
  obtain ⟨label, next, hmove, hstep⟩ := can_move setup hleaving
  exact ⟨label, next, hmove, silent_of_isMove hmove hconnecting hstep, hstep⟩

/-- The pool is connected, and says nothing for 151 seconds. -/
def silentLabels : List TimerLabel :=
  [.main, .connect true true, .tick (151 * second)]

theorem silent_for_151_seconds :
    ∃ s, Run (step timerSetup) anyLabel (LoopTimers.init timerSetup)
        silentLabels s ∧ s.pc = .polling ∧
      ∀ more last, Run (step timerSetup) Silent s more last →
        more.countP TimerLabel.isPoll ≤ 1 ∧
          more.countP TimerLabel.isMove ≤ 6 := by
  have hreplay : (replay (step timerSetup) anyLabel (LoopTimers.init timerSetup)
      silentLabels).any (fun s => s.pc = .polling ∧
        150 * second < s.now - s.lastJobAt) = true := by
    decide +kernel
  obtain ⟨s, hs, hboth⟩ := (Option.any_eq_true _ _).mp hreplay
  obtain ⟨hpc, hoverdue⟩ := of_decide_eq_true hboth
  refine ⟨s, run_of_replay hs, hpc, fun more last hmore => ?_⟩
  have hleft := silent_pool_left hoverdue (by simp [hpc]) hmore
  exact ⟨hleft.1, hleft.2.1⟩

end LoopTimers

end Minerby
