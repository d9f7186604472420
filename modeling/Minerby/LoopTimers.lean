/-
The clock in the main loop: the back-off before a connection is tried again,
the watchdog for jobs, and the two things that are done periodically.  What the
pool does is open; time goes on between any two steps.
-/
import Minerby.Cadence
import Minerby.StepSystem

namespace Minerby

/-- Clock readings are in nanoseconds. -/
def second : Nat := 1000000000

/-- Where the main thread is in the loop. -/
inductive TimerPc where
  | top
  /-- inside `connect`, since so many nanoseconds on the clock -/
  | connecting (began : Nat)
  /-- in the loop of sleeps after a failed `connect`, with so many left -/
  | backingOff (left : Nat)
  | polling
  | watchdog
  | persist
  | status
  | leaving
deriving Repr, DecidableEq

/-- A call of `connect`: when it began, when it ended and what it returned. -/
structure ConnectCall where
  began : Nat
  ended : Nat
  ok : Bool
deriving Repr, DecidableEq

/-- The variables of the loop, and the clock.  `stopping` is `g_stop`.  The
histories are newest first: the calls of `connect`, the times at which the loop
looks whether it is time to persist or to report the status, and those at which
it does. -/
structure LoopTimers where
  now : Nat
  stopping : Bool := false
  pc : TimerPc := .top
  connected : Bool := false
  backoff : Nat := 1
  lastJobAt : Nat
  nextStatus : Nat
  nextPersist : Nat
  attempts : List ConnectCall := []
  persistChecks : List Nat := []
  persists : List Nat := []
  statusChecks : List Nat := []
  statuses : List Nat := []
deriving Repr, DecidableEq

/-- What goes on: time passes, a signal arrives, a job is delivered inside
`connect` or `poll`, these return, a sleep returns, or the main thread takes a
step that waits for nothing. -/
inductive TimerLabel where
  | tick (elapsed : Nat)
  | signal
  | job
  | connect (ok connected : Bool)
  | sleep (elapsed : Nat)
  | poll (ok connected : Bool)
  | main
deriving Repr, DecidableEq

/-- When the run began, when the clock of the job timeout was started and the
two periodic tasks were set up, and for how many seconds it is to go on (0 is
without end). -/
structure TimerSetup where
  runStart : Nat
  jobStart : Nat
  statusStart : Nat
  persistStart : Nat
  runFor : Nat
  ordered : runStart ≤ jobStart ∧ jobStart ≤ statusStart ∧
    statusStart ≤ persistStart

namespace LoopTimers

def init (setup : TimerSetup) : LoopTimers where
  now := setup.persistStart
  lastJobAt := setup.jobStart
  nextStatus := setup.statusStart + 5 * second
  nextPersist := setup.persistStart + 30 * second

/-- The top of the loop. -/
def enter (setup : TimerSetup) (s : LoopTimers) : LoopTimers :=
  if s.stopping then { s with pc := .leaving }
  else if 0 < setup.runFor ∧
      setup.runStart + setup.runFor * second ≤ s.now then
    { s with pc := .leaving }
  else if s.connected then { s with pc := .polling }
  else { s with pc := .connecting s.now }

def connect (s : LoopTimers) (began : Nat) (ok connected : Bool) : LoopTimers :=
  let s := { s with
    connected := connected
    attempts := ⟨began, s.now, ok⟩ :: s.attempts }
  if ok then { s with backoff := 1, lastJobAt := s.now, pc := .polling }
  else { s with pc := .backingOff (s.backoff * 10) }

/-- The end of the loop of sleeps. -/
def retry (s : LoopTimers) : LoopTimers :=
  { s with backoff := min (s.backoff * 2) 30, pc := .top }

/-- `poll` returns; when it returns false the main thread disconnects. -/
def poll (s : LoopTimers) (ok connected : Bool) : LoopTimers :=
  if ok then { s with connected := connected, pc := .watchdog }
  else { s with connected := false, pc := .top }

/-- The job timeout. -/
def watchdog (s : LoopTimers) : LoopTimers :=
  if 150 * second < s.now - s.lastJobAt then
    { s with connected := false, pc := .top }
  else { s with pc := .persist }

def persist (s : LoopTimers) : LoopTimers :=
  let s := { s with persistChecks := s.now :: s.persistChecks, pc := .status }
  if s.nextPersist ≤ s.now then
    { s with
      persists := s.now :: s.persists
      nextPersist := s.nextPersist + 30 * second }
  else s

def status (s : LoopTimers) : LoopTimers :=
  let s := { s with statusChecks := s.now :: s.statusChecks, pc := .top }
  if s.nextStatus ≤ s.now then
    { s with
      statuses := s.now :: s.statuses
      nextStatus := s.nextStatus + 5 * second }
  else s

def mainStep (setup : TimerSetup) (s : LoopTimers) : Option LoopTimers :=
  match s.pc with
  | .top => some (s.enter setup)
  | .backingOff left =>
      if left = 0 ∨ s.stopping then some s.retry else none
  | .watchdog => some s.watchdog
  | .persist => some s.persist
  | .status => some s.status
  | _ => none

def step (setup : TimerSetup) (s : LoopTimers) :
    TimerLabel → Option LoopTimers
  | .tick elapsed => some { s with now := s.now + elapsed }
  | .signal => some { s with stopping := true }
  | .job =>
      match s.pc with
      | .connecting _ => some { s with lastJobAt := s.now }
      | .polling => some { s with lastJobAt := s.now }
      | _ => none
  | .connect ok connected =>
      match s.pc with
      | .connecting began => some (s.connect began ok connected)
      | _ => none
  | .sleep elapsed =>
      match s.pc with
      | .backingOff (left + 1) =>
          if 100000000 ≤ elapsed ∧ s.stopping = false then
            some { s with now := s.now + elapsed, pc := .backingOff left }
          else none
      | _ => none
  | .poll ok connected =>
      match s.pc with
      | .polling => some (s.poll ok connected)
      | _ => none
  | .main => s.mainStep setup

variable {setup : TimerSetup} {s s' : LoopTimers} {label : TimerLabel}
  {labels : List TimerLabel}

/-- The turns that a step can be. -/
inductive Turn (s : LoopTimers) : TimerLabel → LoopTimers → Prop
  | tick (elapsed : Nat) :
      Turn s (.tick elapsed) { s with now := s.now + elapsed }
  | signal : Turn s .signal { s with stopping := true }
  | job : Turn s .job { s with lastJobAt := s.now }
  | leave (pc : s.pc = .top) : Turn s .main { s with pc := .leaving }
  | enter (pc : s.pc = .top) (going : s.stopping = false) :
      Turn s .main { s with pc := .polling }
  | dial (pc : s.pc = .top) (going : s.stopping = false) :
      Turn s .main { s with pc := .connecting s.now }
  | connect (began : Nat) (ok connected : Bool) (pc : s.pc = .connecting began) :
      Turn s (.connect ok connected) (s.connect began ok connected)
  | sleep (left elapsed : Nat) (pc : s.pc = .backingOff (left + 1))
      (long : 100000000 ≤ elapsed) (going : s.stopping = false) :
      Turn s (.sleep elapsed)
        { s with now := s.now + elapsed, pc := .backingOff left }
  | retry (left : Nat) (pc : s.pc = .backingOff left)
      (slept : left = 0 ∨ s.stopping = true) : Turn s .main s.retry
  | poll (ok connected : Bool) (pc : s.pc = .polling) :
      Turn s (.poll ok connected) (s.poll ok connected)
  | watchdog (pc : s.pc = .watchdog) : Turn s .main s.watchdog
  | persist (pc : s.pc = .persist) : Turn s .main s.persist
  | status (pc : s.pc = .status) : Turn s .main s.status

theorem mainStep_turn (hstep : s.mainStep setup = some s') :
    Turn s .main s' := by
  unfold mainStep at hstep
  split at hstep
  · rename_i hpc
    obtain rfl := Option.some.inj hstep
    unfold enter
    split
    · exact Turn.leave hpc
    · rename_i hgoing
      have hgoing := Bool.eq_false_of_not_eq_true hgoing
      split
      · exact Turn.leave hpc
      · split
        · exact Turn.enter hpc hgoing
        · exact Turn.dial hpc hgoing
  · rename_i left hpc
    split at hstep
    · rename_i hover
      obtain rfl := Option.some.inj hstep
      exact Turn.retry left hpc hover
    · cases hstep
  · rename_i hpc
    obtain rfl := Option.some.inj hstep
    exact Turn.watchdog hpc
  · rename_i hpc
    obtain rfl := Option.some.inj hstep
    exact Turn.persist hpc
  · rename_i hpc
    obtain rfl := Option.some.inj hstep
    exact Turn.status hpc
  · cases hstep

theorem step_turn (hstep : s.step setup label = some s') :
    Turn s label s' := by
  cases label with
  | tick elapsed =>
      obtain rfl := Option.some.inj hstep
      exact Turn.tick elapsed
  | signal =>
      obtain rfl := Option.some.inj hstep
      exact Turn.signal
  | job =>
      simp only [step] at hstep
      split at hstep
      · obtain rfl := Option.some.inj hstep
        exact Turn.job
      · obtain rfl := Option.some.inj hstep
        exact Turn.job
      · cases hstep
  | connect ok connected =>
      simp only [step] at hstep
      split at hstep
      · rename_i began hpc
        obtain rfl := Option.some.inj hstep
        exact Turn.connect began ok connected hpc
      · cases hstep
  | sleep elapsed =>
      simp only [step] at hstep
      split at hstep
      · rename_i left hpc
        split at hstep
        · rename_i hlong
          obtain rfl := Option.some.inj hstep
          exact Turn.sleep left elapsed hpc hlong.1 hlong.2
        · cases hstep
      · cases hstep
  | poll ok connected =>
      simp only [step] at hstep
      split at hstep
      · rename_i hpc
        obtain rfl := Option.some.inj hstep
        exact Turn.poll ok connected hpc
      · cases hstep
  | main => exact mainStep_turn hstep

/-- The two periodic tasks of the loop. -/
structure Paced (setup : TimerSetup) (s : LoopTimers) : Prop where
  persist : Periodic setup.persistStart (30 * second) s.now s.nextPersist
    s.persistChecks s.persists
  status : Periodic setup.statusStart (5 * second) s.now s.nextStatus
    s.statusChecks s.statuses

theorem Paced.init (setup : TimerSetup) : Paced setup (LoopTimers.init setup) :=
  ⟨Periodic.init (Nat.le_refl _), Periodic.init setup.ordered.2.2⟩

theorem Paced.turn (hpaced : Paced setup s) (hturn : Turn s label s') :
    Paced setup s' := by
  obtain ⟨hpersist, hstatus⟩ := hpaced
  cases hturn with
  | tick elapsed =>
      exact ⟨hpersist.later (Nat.le_add_right _ _),
        hstatus.later (Nat.le_add_right _ _)⟩
  | sleep left elapsed pc long going =>
      exact ⟨hpersist.later (Nat.le_add_right _ _),
        hstatus.later (Nat.le_add_right _ _)⟩
  | connect began ok connected pc => cases ok <;> exact ⟨hpersist, hstatus⟩
  | poll ok connected pc => cases ok <;> exact ⟨hpersist, hstatus⟩
  | watchdog pc =>
      unfold LoopTimers.watchdog
      split <;> exact ⟨hpersist, hstatus⟩
  | persist pc =>
      unfold LoopTimers.persist
      simp only
      split
      · rename_i hdue
        exact ⟨hpersist.due hdue, hstatus⟩
      · rename_i hnotDue
        exact ⟨hpersist.notDue hnotDue, hstatus⟩
  | status pc =>
      unfold LoopTimers.status
      simp only
      split
      · rename_i hdue
        exact ⟨hpersist, hstatus.due hdue⟩
      · rename_i hnotDue
        exact ⟨hpersist, hstatus.notDue hnotDue⟩
  | _ => exact ⟨hpersist, hstatus⟩

theorem Paced.of_run {ok : LoopTimers → TimerLabel → Prop}
    (hrun : Run (step setup) ok (LoopTimers.init setup) labels s) :
    Paced setup s := by
  apply hrun.invariant
  · intro state label next hpaced _ hstep
    exact hpaced.turn (step_turn hstep)
  · exact Paced.init setup

/-- In every run, however long the loop is held up, the k-th periodic save is
never before its time, which is k times 30 seconds after the start, and whenever
the loop looks at the clock the last save is then less than 30 seconds old; and
the same holds for the status line with 5 seconds. -/
theorem saved_recently
    (hrun : Run (step setup) anyLabel (LoopTimers.init setup) labels s) :
    NeverEarly setup.persistStart (30 * second) s.persists ∧
      s.persistChecks.headD setup.persistStart <
        s.persists.headD setup.persistStart + 30 * second ∧
      NeverEarly setup.statusStart (5 * second) s.statuses ∧
      s.statusChecks.headD setup.statusStart <
        s.statuses.headD setup.statusStart + 5 * second := by
  obtain ⟨hpersist, hstatus⟩ := Paced.of_run hrun
  rw [hpersist.runs, hstatus.runs]
  exact ⟨firings_neverEarly _ _ _, firings_recent (by decide) _ _,
    firings_neverEarly _ _ _, firings_recent (by decide) _ _⟩

/-- A run that begins at time 0 and is to go on without end. -/
def timerSetup : TimerSetup where
  runStart := 0
  jobStart := 0
  statusStart := 0
  persistStart := 0
  runFor := 0
  ordered := ⟨Nat.le_refl _, Nat.le_refl _, Nat.le_refl _⟩

/-- The loop connects, and comes to the two tasks a second later; the next time
is 40 seconds later. -/
def heldUpLabels : List TimerLabel :=
  [.main, .connect true true, .tick second, .poll true true, .main, .main,
    .main, .main, .tick (40 * second), .poll true true, .main, .main, .main]

theorem held_up_saved_recently :
    ∃ s, Run (step timerSetup) anyLabel (LoopTimers.init timerSetup)
        heldUpLabels s ∧
      s.persists = [41 * second] ∧ s.statuses = [41 * second] ∧
      NeverEarly 0 (30 * second) s.persists := by
  have hreplay : (replay (step timerSetup) anyLabel (LoopTimers.init timerSetup)
      heldUpLabels).any (fun s => decide (s.persists = [41 * second] ∧
        s.statuses = [41 * second])) = true := by
    decide +kernel
  obtain ⟨s, hs, hboth⟩ := (Option.any_eq_true _ _).mp hreplay
  obtain ⟨hpersists, hstatuses⟩ := of_decide_eq_true hboth
  have hrun := run_of_replay hs
  exact ⟨s, hrun, hpersists, hstatuses, (saved_recently hrun).1⟩

/-- The loop comes to the two tasks again within `gap`. -/
def KeepsPace (setup : TimerSetup) (gap : Nat) (s : LoopTimers) :
    TimerLabel → Prop
  | .main =>
      (s.pc = .persist →
        s.now ≤ s.persistChecks.headD setup.persistStart + gap) ∧
      (s.pc = .status →
        s.now ≤ s.statusChecks.headD setup.statusStart + gap)
  | _ => True

instance (setup : TimerSetup) (gap : Nat) (s : LoopTimers)
    (label : TimerLabel) : Decidable (KeepsPace setup gap s label) :=
  match label with
  | .main => inferInstanceAs (Decidable ((s.pc = .persist →
      s.now ≤ s.persistChecks.headD setup.persistStart + gap) ∧
      (s.pc = .status →
        s.now ≤ s.statusChecks.headD setup.statusStart + gap)))
  | .tick _ => .isTrue trivial
  | .signal => .isTrue trivial
  | .job => .isTrue trivial
  | .connect _ _ => .isTrue trivial
  | .sleep _ => .isTrue trivial
  | .poll _ _ => .isTrue trivial

/-- The loop has kept pace. -/
structure Brisk (setup : TimerSetup) (gap : Nat) (s : LoopTimers) : Prop where
  persist : Spaced setup.persistStart gap s.persistChecks
  status : Spaced setup.statusStart gap s.statusChecks

theorem Brisk.turn {gap : Nat} (hbrisk : Brisk setup gap s)
    (hok : KeepsPace setup gap s label) (hturn : Turn s label s') :
    Brisk setup gap s' := by
  obtain ⟨hpersist, hstatus⟩ := hbrisk
  cases hturn with
  | connect began ok connected pc => cases ok <;> exact ⟨hpersist, hstatus⟩
  | poll ok connected pc => cases ok <;> exact ⟨hpersist, hstatus⟩
  | watchdog pc =>
      unfold LoopTimers.watchdog
      split <;> exact ⟨hpersist, hstatus⟩
  | persist pc =>
      have hnear := hok.1 pc
      unfold LoopTimers.persist
      simp only
      split <;> exact ⟨⟨hnear, hpersist⟩, hstatus⟩
  | status pc =>
      have hnear := hok.2 pc
      unfold LoopTimers.status
      simp only
      split <;> exact ⟨hpersist, ⟨hnear, hstatus⟩⟩
  | _ => exact ⟨hpersist, hstatus⟩

/-- The periodic tasks do not drift: in every run in which the loop comes to
them again within a gap of at most 5 seconds, they have run once for each period
that is over whenever the loop looks at the clock, and each save and each status
line is less than one gap behind its own time, after however many. -/
theorem tasks_do_not_drift {gap : Nat} (hgap : gap ≤ 5 * second)
    (hrun : Run (step setup) (KeepsPace setup gap) (LoopTimers.init setup)
      labels s) :
    OnTime setup.persistStart (30 * second) gap s.persists ∧
      s.persists.length = (s.persistChecks.headD setup.persistStart -
        setup.persistStart) / (30 * second) ∧
      OnTime setup.statusStart (5 * second) gap s.statuses ∧
      s.statuses.length = (s.statusChecks.headD setup.statusStart -
        setup.statusStart) / (5 * second) := by
  have hbrisk : Brisk setup gap s := by
    apply hrun.invariant
    · intro state label next hbrisk hok hstep
      exact hbrisk.turn hok (step_turn hstep)
    · exact ⟨trivial, trivial⟩
  obtain ⟨hpersist, hstatus⟩ := Paced.of_run hrun
  have hgap' : gap ≤ 30 * second := hgap.trans (by decide)
  rw [hpersist.runs, hstatus.runs]
  exact ⟨firings_onTime (by decide) hgap' hpersist.ordered hbrisk.persist,
    length_firings_of_spaced (by decide) hgap' hpersist.ordered hbrisk.persist,
    firings_onTime (by decide) hgap hstatus.ordered hbrisk.status,
    length_firings_of_spaced (by decide) hgap hstatus.ordered hbrisk.status⟩

/-- The loop connects and goes round three times, with 4 seconds in each
`poll`. -/
def briskLabels : List TimerLabel :=
  [.main, .connect true true] ++
    (List.replicate 3 [.tick (4 * second), .poll true true, .main, .main, .main,
      .main]).flatten

theorem brisk_tasks_on_time :
    ∃ s, Run (step timerSetup) (KeepsPace timerSetup (4 * second))
        (LoopTimers.init timerSetup) briskLabels s ∧
      s.statuses = [12 * second, 8 * second] ∧
      OnTime 0 (5 * second) (4 * second) s.statuses := by
  have hreplay : (replay (step timerSetup)
      (KeepsPace timerSetup (4 * second)) (LoopTimers.init timerSetup)
      briskLabels).any (fun s => s.statuses = [12 * second, 8 * second]) =
        true := by
    decide +kernel
  obtain ⟨s, hs, hstatuses⟩ := (Option.any_eq_true _ _).mp hreplay
  have hrun := run_of_replay hs
  have htasks := tasks_do_not_drift (by decide) hrun
  exact ⟨s, hrun, of_decide_eq_true hstatuses, htasks.2.2.1⟩

end LoopTimers

/-- How many of the last calls of `connect` failed in a row. -/
def failures (attempts : List ConnectCall) : Nat :=
  (attempts.takeWhile fun a => !a.ok).length

/-- The seconds to wait after so many failures in a row. -/
def backoffSeconds (failed : Nat) : Nat := min (2 ^ (failed - 1)) 30

/-- At the time `t` the last call of `connect`, if it failed, is as long ago as
the back-off asks for. -/
def Rested (attempts : List ConnectCall) (t : Nat) : Prop :=
  ∀ a, attempts.head? = some a → a.ok = false →
    a.ended + backoffSeconds (failures attempts) * second ≤ t

theorem Rested.mono {attempts : List ConnectCall} {t t' : Nat}
    (hrested : Rested attempts t) (hle : t ≤ t') : Rested attempts t' :=
  fun a ha hfailed => (hrested a ha hfailed).trans hle

/-- Each call of `connect` that follows a failed one was as long after it as the
back-off asks for. -/
def WellSpaced (attempts : List ConnectCall) : Prop :=
  ∀ later b earlier, attempts = later ++ b :: earlier → Rested earlier b.began

theorem failures_failed {a : ConnectCall} {earlier : List ConnectCall}
    (hfailed : a.ok = false) : failures (a :: earlier) = failures earlier + 1 := by
  simp [failures, hfailed]

/-- The back-off doubles up to 30 seconds. -/
theorem backoffSeconds_succ {failed : Nat} (hfailed : 0 < failed) :
    min (backoffSeconds failed * 2) 30 = backoffSeconds (failed + 1) := by
  obtain ⟨k, rfl⟩ := Nat.exists_eq_add_one.mpr hfailed
  simp only [backoffSeconds, Nat.add_sub_cancel, Nat.pow_succ]
  omega

namespace LoopTimers

variable {setup : TimerSetup} {s s' : LoopTimers} {label : TimerLabel}
  {labels : List TimerLabel}

/-- The loop backs off.  In the sleeps, the seconds of the back-off are those
that the failures ask for, and what is left of them is left to sleep. -/
structure BacksOff (s : LoopTimers) : Prop where
  spaced : WellSpaced s.attempts
  dialled : ∀ began, s.pc = .connecting began → Rested s.attempts began
  rested : (∀ left, s.pc ≠ .backingOff left) →
    s.backoff = backoffSeconds (failures s.attempts + 1) ∧
      (s.stopping = false → Rested s.attempts s.now)
  resting : ∀ left, s.pc = .backingOff left →
    0 < failures s.attempts ∧
      s.backoff = backoffSeconds (failures s.attempts) ∧
      (s.stopping = false → left ≤ s.backoff * 10 ∧
        ∀ a, s.attempts.head? = some a →
          a.ended + (s.backoff * 10 - left) * 100000000 ≤ s.now)

theorem BacksOff.init (setup : TimerSetup) :
    BacksOff (LoopTimers.init setup) := by
  refine ⟨by simp [WellSpaced, LoopTimers.init], nofun, fun _ => ⟨rfl, ?_⟩, nofun⟩
  intro _ a ha
  cases ha

theorem BacksOff.connect {began : Nat} {ok connected : Bool}
    (hbacks : BacksOff s) (hpc : s.pc = .connecting began) :
    BacksOff (s.connect began ok connected) := by
  have hrested := hbacks.dialled began hpc
  have hspaced : WellSpaced (⟨began, s.now, ok⟩ :: s.attempts) :=
    @forall_split_cons _ (fun b earlier => Rested earlier b.began) _ _ hrested
      hbacks.spaced
  obtain ⟨hbackoff, -⟩ := hbacks.rested (by simp [hpc])
  cases ok with
  | true =>
      refine ⟨hspaced, nofun, fun _ => ⟨rfl, ?_⟩, nofun⟩
      intro _ a ha hfailed
      obtain rfl := Option.some.inj ha
      cases hfailed
  | false =>
      refine ⟨hspaced, nofun, fun h => absurd rfl (h _), ?_⟩
      rintro left ⟨⟩
      have hfailed : failures (⟨began, s.now, false⟩ :: s.attempts) =
          failures s.attempts + 1 := failures_failed rfl
      refine ⟨hfailed.symm ▸ Nat.succ_pos _,
        hbackoff.trans (congrArg backoffSeconds hfailed.symm),
        fun _ => ⟨Nat.le_refl _, ?_⟩⟩
      intro a ha
      obtain rfl := Option.some.inj ha
      change s.now + (s.backoff * 10 - s.backoff * 10) * 100000000 ≤ s.now
      simp

theorem BacksOff.sleep {left elapsed : Nat} (hbacks : BacksOff s)
    (hpc : s.pc = .backingOff (left + 1)) (hlong : 100000000 ≤ elapsed) :
    BacksOff { s with now := s.now + elapsed, pc := .backingOff left } := by
  obtain ⟨hfailed, hbackoff, hslept⟩ := hbacks.resting _ hpc
  refine ⟨hbacks.spaced, nofun, fun h => absurd rfl (h _), ?_⟩
  rintro left ⟨⟩
  refine ⟨hfailed, hbackoff, fun hgoing => ?_⟩
  obtain ⟨hleft, hsince⟩ := hslept hgoing
  refine ⟨Nat.le_of_succ_le hleft, fun a ha => ?_⟩
  have hone : s.backoff * 10 - left = s.backoff * 10 - (left + 1) + 1 := by
    omega
  calc a.ended + (s.backoff * 10 - left) * 100000000
      = a.ended + (s.backoff * 10 - (left + 1)) * 100000000 + 100000000 := by
        rw [hone, Nat.succ_mul, Nat.add_assoc]
    _ ≤ s.now + elapsed := Nat.add_le_add (hsince a ha) hlong

theorem BacksOff.retry {left : Nat} (hbacks : BacksOff s)
    (hpc : s.pc = .backingOff left) (hover : left = 0 ∨ s.stopping = true) :
    BacksOff s.retry := by
  obtain ⟨hfailed, hbackoff, hslept⟩ := hbacks.resting _ hpc
  refine ⟨hbacks.spaced, nofun, fun _ => ⟨?_, ?_⟩, nofun⟩
  · change min (s.backoff * 2) 30 = _
    rw [hbackoff]
    exact backoffSeconds_succ hfailed
  · intro hgoing a ha _
    change s.stopping = false at hgoing
    change s.attempts.head? = some a at ha
    obtain ⟨-, hsince⟩ := hslept hgoing
    rcases hover with rfl | hstopping
    · change a.ended + backoffSeconds (failures s.attempts) * second ≤ s.now
      have hended := hsince a ha
      rw [Nat.sub_zero, Nat.mul_assoc, hbackoff] at hended
      exact hended
    · rw [hgoing] at hstopping
      cases hstopping

/-- A step outside the back-off that leaves the calls of `connect` alone. -/
theorem BacksOff.of_same (hbacks : BacksOff s)
    (hattempts : s'.attempts = s.attempts) (hbackoff : s'.backoff = s.backoff)
    (hout : ∀ left, s.pc ≠ .backingOff left)
    (hout' : ∀ left, s'.pc ≠ .backingOff left)
    (hdials : ∀ began, s'.pc = .connecting began →
      s.pc = .connecting began ∨ s.stopping = false ∧ began = s.now)
    (hgoing : s'.stopping = false → s.stopping = false) (hnow : s.now ≤ s'.now) :
    BacksOff s' := by
  obtain ⟨hseconds, hrested⟩ := hbacks.rested hout
  refine ⟨hattempts ▸ hbacks.spaced, fun began hpc => ?_, fun _ => ?_,
    fun left hpc => absurd hpc (hout' left)⟩
  · rw [hattempts]
    rcases hdials began hpc with hsame | ⟨hgoes, rfl⟩
    · exact hbacks.dialled began hsame
    · exact hrested hgoes
  · rw [hattempts, hbackoff]
    exact ⟨hseconds, fun hgoes => (hrested (hgoing hgoes)).mono hnow⟩

theorem BacksOff.tick (hbacks : BacksOff s) (elapsed : Nat) :
    BacksOff { s with now := s.now + elapsed } := by
  have hnow := Nat.le_add_right s.now elapsed
  refine ⟨hbacks.spaced, hbacks.dialled, fun hout => ?_, fun left hpc => ?_⟩
  · obtain ⟨hseconds, hrested⟩ := hbacks.rested hout
    exact ⟨hseconds, fun hgoing => (hrested hgoing).mono hnow⟩
  · obtain ⟨hfailed, hbackoff, hslept⟩ := hbacks.resting left hpc
    refine ⟨hfailed, hbackoff, fun hgoing => ?_⟩
    obtain ⟨hleft, hsince⟩ := hslept hgoing
    exact ⟨hleft, fun a ha => (hsince a ha).trans hnow⟩

theorem BacksOff.turn (hbacks : BacksOff s) (hturn : Turn s label s') :
    BacksOff s' := by
  cases hturn with
  | tick elapsed => exact hbacks.tick elapsed
  | signal =>
      refine ⟨hbacks.spaced, hbacks.dialled, fun hout => ?_, fun left hpc => ?_⟩
      · exact ⟨(hbacks.rested hout).1, nofun⟩
      · obtain ⟨hfailed, hbackoff, -⟩ := hbacks.resting left hpc
        exact ⟨hfailed, hbackoff, nofun⟩
  | job => exact ⟨hbacks.spaced, hbacks.dialled, hbacks.rested, hbacks.resting⟩
  | connect began ok connected pc => exact hbacks.connect pc
  | sleep left elapsed pc long going => exact hbacks.sleep pc long
  | retry left pc slept => exact hbacks.retry pc slept
  | dial pc going =>
      apply hbacks.of_same <;> simp [pc, going]
  | leave pc => apply hbacks.of_same <;> simp [pc]
  | enter pc going => apply hbacks.of_same <;> simp [pc]
  | poll ok connected pc =>
      cases ok <;> apply hbacks.of_same <;> simp [LoopTimers.poll, pc]
  | watchdog pc =>
      unfold LoopTimers.watchdog
      split <;> apply hbacks.of_same <;> simp [pc]
  | persist pc =>
      unfold LoopTimers.persist
      simp only
      split <;> apply hbacks.of_same <;> simp [pc]
  | status pc =>
      unfold LoopTimers.status
      simp only
      split <;> apply hbacks.of_same <;> simp [pc]

/-- The program backs off: in every run, when n calls of `connect` in a row have
failed, the next one begins at least min (2 ^ (n - 1), 30) seconds after the
last of them returned. -/
theorem connects_backed_off
    (hrun : Run (step setup) anyLabel (LoopTimers.init setup) labels s) :
    WellSpaced s.attempts := by
  apply BacksOff.spaced
  apply hrun.invariant
  · intro state label next hbacks _ hstep
    exact hbacks.turn (step_turn hstep)
  · exact BacksOff.init setup

/-- The first `connect` fails and the second succeeds. -/
def retryLabels : List TimerLabel :=
  [.main, .connect false false] ++ List.replicate 10 (.sleep 100000000) ++
    [.main, .main, .connect true true]

theorem retried_after_a_second :
    ∃ s, Run (step timerSetup) anyLabel (LoopTimers.init timerSetup) retryLabels
        s ∧
      s.attempts = [⟨second, second, true⟩, ⟨0, 0, false⟩] ∧
      WellSpaced s.attempts := by
  have hreplay : (replay (step timerSetup) anyLabel (LoopTimers.init timerSetup)
      retryLabels).any (fun s => s.attempts =
        [⟨second, second, true⟩, ⟨0, 0, false⟩]) = true := by
    decide +kernel
  obtain ⟨s, hs, hattempts⟩ := (Option.any_eq_true _ _).mp hreplay
  have hrun := run_of_replay hs
  exact ⟨s, hrun, of_decide_eq_true hattempts, connects_backed_off hrun⟩

end LoopTimers

end Minerby
