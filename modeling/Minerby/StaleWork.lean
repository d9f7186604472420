/-
What becomes of the old job.  After `set_work` or `clear_work` has returned, a
worker on another job finishes at most the chunk it is in, and a bounded number
of its own steps later it holds the pool's job.
-/
import Minerby.CallsReturn
import Minerby.WorkPickup

namespace Minerby

namespace MinerPool

variable {threads : UInt32} {H : Type}

/-- The steps that do not replace the job. -/
def NoUpdate (_ : State threads H) : Label threads H → Prop
  | .call call => call.replacesWork = false
  | _ => True

instance (s : State threads H) (label : Label threads H) :
    Decidable (NoUpdate s label) :=
  match label with
  | .call call => inferInstanceAs (Decidable (call.replacesWork = false))
  | .ctl => .isTrue trivial
  | .worker _ => .isTrue trivial
  | .made _ _ => .isTrue trivial
  | .hashed _ _ => .isTrue trivial

/-- Worker `i` has not missed the last update: a job that it holds under the
current generation is the pool's. -/
def State.Told (s : State threads H) (i : Fin threads.toNat) : Prop :=
  (s.workers i).localWorkGen = s.workGen → (s.workers i).work = s.work

instance (s : State threads H) (i : Fin threads.toNat) :
    Decidable (s.Told i) := by
  unfold State.Told
  infer_instance

/-- A turn of any worker leaves nobody behind. -/
theorem Turned.told {s s' : State threads H} {i j : Fin threads.toNat}
    {label : Label threads H} (hturned : Turned s s' i label)
    (htold : s.Told j) : s'.Told j := by
  unfold State.Told
  rw [hturned.workGen, hturned.work]
  by_cases hj : j = i
  · subst hj
    obtain ⟨-, ⟨gen, -, -, hwork, -⟩ | ⟨hwork, hgen⟩⟩ :=
      hturned.kept_or_picked
    · exact fun _ => hwork
    · rw [hwork, hgen]
      exact htold
  · rw [hturned.others j hj]
    exact htold

/-- The pool's job is announced: no call is replacing it, and a worker that
holds another, or is about to start, will find that the generation is new. -/
structure State.JobAnnounced (s : State threads H) : Prop where
  settled : s.WorkSettled
  held : ∀ i, (s.workers i).localWorkGen = s.workGen →
    (s.workers i).work = s.work
  fresh : s.workGen = 0 → s.work = none

theorem State.JobAnnounced.turned {s s' : State threads H}
    {i : Fin threads.toNat} {label : Label threads H} (hjob : s.JobAnnounced)
    (hturned : Turned s s' i label) : s'.JobAnnounced := by
  constructor
  · simpa only [State.WorkSettled, hturned.ctl] using hjob.settled
  · exact fun j => hturned.told (hjob.held j)
  · rw [hturned.workGen, hturned.work]
    exact hjob.fresh

theorem State.JobAnnounced.call {s s' : State threads H} {call : Call}
    (hjob : s.JobAnnounced) (hcall : call.replacesWork = false)
    (hcalled : Called s s' call) : s'.JobAnnounced := by
  constructor
  · constructor
    · rw [hcalled.ctl]
      cases call with
      | start => cases hrunning : s.running <;> simp [Call.entry, hrunning]
      | stop => cases hrunning : s.running <;> simp [Call.entry, hrunning]
      | clearWork => cases hcall
      | _ => simp [Call.entry]
    · intro p hctl
      obtain ⟨job, rfl, -⟩ := hcalled.settingWork hctl
      cases hcall
  all_goals simp only [hcalled.workers, hcalled.workGen, hcalled.work, hcall]
  · exact hjob.held
  · exact hjob.fresh

theorem State.JobAnnounced.ctl {s s' : State threads H}
    (hjob : s.JobAnnounced) (hstep : ctlStep s = some s') :
    s'.JobAnnounced ∧ s'.work = s.work := by
  -- a new thread starts at generation 0, and so does one that was joined
  have hempty : (0 : UInt64) = s.workGen → none = s.work := fun hzero =>
    (hjob.fresh hzero.symm).symm
  cases ctlStep_turn hstep with
  | create next lt ctl =>
      refine ⟨⟨⟨by simp, by simp⟩, fun i => ?_, hjob.fresh⟩, rfl⟩
      change ((s.put ⟨next, lt⟩ { pc := .boot }).workers i).localWorkGen =
        s.workGen → ((s.put ⟨next, lt⟩ { pc := .boot }).workers i).work = s.work
      by_cases hi : i = ⟨next, lt⟩
      · subst hi
        rw [put_workers_self]
        exact hempty
      · rw [put_workers_of_ne _ _ hi]
        exact hjob.held i
  | join ctl exited =>
      exact ⟨⟨⟨by simp, by simp⟩, fun i => hempty, hjob.fresh⟩, rfl⟩
  | store p ctl => exact absurd ctl (hjob.settled.2 p)
  | clear ctl => exact absurd ctl hjob.settled.1
  | wait ctl busy => exact ⟨hjob, rfl⟩
  | _ => exact ⟨⟨⟨by simp, by simp⟩, hjob.held, hjob.fresh⟩, rfl⟩

/-- Only another update changes the pool's job. -/
theorem State.JobAnnounced.step {s s' : State threads H}
    {label : Label threads H} (hjob : s.JobAnnounced) (hok : NoUpdate s label)
    (hstep : step s label = some s') :
    s'.JobAnnounced ∧ s'.work = s.work := by
  cases step_acted hstep with
  | turn i turned => exact ⟨hjob.turned turned, turned.work⟩
  | call call called => exact ⟨hjob.call hok called, called.work⟩
  | ctl taken => exact hjob.ctl taken

/-- The hashes that a worker begins at most before it looks for a job again. -/
def Pc.toBegin : Pc → Nat
  | .enter => kChunk
  | .recheck => kChunk
  | .chunk done => kChunk - done
  | .hashing done => kChunk - (done + 1)
  | .sharing done _ => kChunk - (done + 1)
  | .missed done => kChunk - (done + 1)
  | _ => 0

/-- The calls of `on_share` that it makes at most until then. -/
def Pc.toShare : Pc → Nat
  | .hashing done => kChunk - done
  | .sharing done _ => kChunk - done
  | pc => pc.toBegin

/-- Worker `i` begins a hash for another job than `current`. -/
def Event.beginsStale (current : Option JobPtr) (i : Fin threads.toNat) :
    Event threads H → Bool
  | .hashBegin j p _ => decide (j = i ∧ some p ≠ current)
  | _ => false

/-- Worker `i` reports a share of another job than `current`. -/
def Event.sharesStale (current : Option JobPtr) (i : Fin threads.toNat) :
    Event threads H → Bool
  | .share j p _ _ => decide (j = i ∧ some p ≠ current)
  | _ => false

/-- What `measure` says of a worker that holds another job than the pool's, and
nothing of one that holds the pool's. -/
def State.ifStale (s : State threads H) (measure : Pc → Nat)
    (w : Worker H) : Nat :=
  if w.work = s.work then 0 else measure w.pc

theorem State.ifStale_of_work {s : State threads H} {measure : Pc → Nat}
    {w : Worker H} (hwork : w.work = s.work) : s.ifStale measure w = 0 :=
  if_pos hwork

theorem State.ifStale_of_ne {s : State threads H} {measure : Pc → Nat}
    {w : Worker H} (hne : w.work ≠ s.work) :
    s.ifStale measure w = measure w.pc :=
  if_neg hne

theorem State.ifStale_le {s : State threads H} {measure : Pc → Nat}
    {w : Worker H} {bound : Nat} (hle : measure w.pc ≤ bound) :
    s.ifStale measure w ≤ bound := by
  unfold State.ifStale
  split
  · exact Nat.zero_le _
  · exact hle

theorem Pc.toBegin_le (pc : Pc) : pc.toBegin ≤ kChunk := by
  cases pc <;> simp [Pc.toBegin]

theorem Pc.toShare_le (pc : Pc) : pc.toShare ≤ kChunk := by
  cases pc <;> simp [Pc.toShare, Pc.toBegin]

theorem Worker.advance_toBegin (w : Worker H) (threads : UInt32)
    (done : Nat) : (w.advance threads done).pc.toBegin ≤ kChunk - (done + 1) := by
  rcases w.advance_pc threads done with hpc | hpc <;> simp [hpc, Pc.toBegin]

theorem Worker.advance_toShare (w : Worker H) (threads : UInt32)
    (done : Nat) : (w.advance threads done).pc.toShare ≤ kChunk - (done + 1) := by
  rcases w.advance_pc threads done with hpc | hpc <;>
    simp [hpc, Pc.toShare, Pc.toBegin]

/-- A worker on the pool's job stays on it, and what it logs is of that job. -/
theorem Turn.stays_current {s : State threads H} {i : Fin threads.toNat}
    {label : Label threads H} {w : Worker H} {inFlight : UInt32}
    {event : Option (Event threads H)}
    (hturn : Turn s i label w inFlight event)
    (hcurrent : (s.workers i).work = s.work) :
    w.work = s.work ∧
      event.toList.countP (Event.beginsStale s.work i) = 0 ∧
      event.toList.countP (Event.sharesStale s.work i) = 0 := by
  have htaken : ∀ gen,
      ((s.workers i).take i gen s.work).afterCheck.work = s.work :=
    fun gen => Worker.work_take _ _ _ _
  cases hturn <;>
    simp_all [Event.beginsStale, Event.sharesStale, Worker.afterCheck]

/-- A worker comes to the pool's job by a pickup, which logs nothing. -/
theorem Turn.picks_up {s : State threads H} {i : Fin threads.toNat}
    {label : Label threads H} {w : Worker H} {inFlight : UInt32}
    {event : Option (Event threads H)}
    (hturn : Turn s i label w inFlight event)
    (hold : (s.workers i).work ≠ s.work) (hnew : w.work = s.work) :
    event = none := by
  cases hturn with
  | pickup gen hpc => rfl
  | _ => exact absurd hnew hold

/-- Every hash that a worker begins for an old job is one of those its chunk
had left. -/
theorem Turn.begins_le {s : State threads H} {i : Fin threads.toNat}
    {label : Label threads H} {w : Worker H} {inFlight : UInt32}
    {event : Option (Event threads H)}
    (hturn : Turn s i label w inFlight event)
    (hequipped : (s.workers i).Equipped) (htold : s.Told i) :
    s.ifStale Pc.toBegin w +
        event.toList.countP (Event.beginsStale s.work i) ≤
      s.ifStale Pc.toBegin (s.workers i) := by
  by_cases hcurrent : (s.workers i).work = s.work
  · obtain ⟨hwork, hbegins, -⟩ := hturn.stays_current hcurrent
    simp [State.ifStale_of_work hwork, hbegins]
  by_cases hnew : w.work = s.work
  · simp [State.ifStale_of_work hnew, hturn.picks_up hcurrent hnew]
  rw [State.ifStale_of_ne hcurrent, State.ifStale_of_ne hnew]
  cases hturn with
  | keepWork hpc same => exact absurd (htold same.symm) hcurrent
  | pickup gen hpc => exact absurd (Worker.work_take _ _ _ _) hnew
  | hash done p hpc hwork =>
      have hlt := hequipped.inChunk done hpc
      rw [hwork] at hcurrent
      simp [hpc, Pc.toBegin, Event.beginsStale, hcurrent]
      omega
  | next done hpc =>
      have hadvance := (s.workers i).advance_toBegin threads done
      simpa [hpc, Pc.toBegin] using hadvance
  | share done p digest hpc hwork =>
      have hadvance := (s.workers i).advance_toBegin threads done
      simpa [hpc, Pc.toBegin, Event.beginsStale] using hadvance
  | _ => simp [*, Pc.toBegin, Event.beginsStale]

/-- And so is every share of an old job that it reports. -/
theorem Turn.shares_le {s : State threads H} {i : Fin threads.toNat}
    {label : Label threads H} {w : Worker H} {inFlight : UInt32}
    {event : Option (Event threads H)}
    (hturn : Turn s i label w inFlight event)
    (hequipped : (s.workers i).Equipped) (htold : s.Told i) :
    s.ifStale Pc.toShare w +
        event.toList.countP (Event.sharesStale s.work i) ≤
      s.ifStale Pc.toShare (s.workers i) := by
  by_cases hcurrent : (s.workers i).work = s.work
  · obtain ⟨hwork, -, hshares⟩ := hturn.stays_current hcurrent
    simp [State.ifStale_of_work hwork, hshares]
  by_cases hnew : w.work = s.work
  · simp [State.ifStale_of_work hnew, hturn.picks_up hcurrent hnew]
  rw [State.ifStale_of_ne hcurrent, State.ifStale_of_ne hnew]
  cases hturn with
  | keepWork hpc same => exact absurd (htold same.symm) hcurrent
  | pickup gen hpc => exact absurd (Worker.work_take _ _ _ _) hnew
  | missed done p digest hpc hwork hmeets =>
      have hle := Nat.sub_le_sub_left (Nat.le_succ done) kChunk
      simpa [hpc, Pc.toShare, Pc.toBegin, Event.sharesStale] using hle
  | next done hpc =>
      have hadvance := (s.workers i).advance_toShare threads done
      simpa [hpc, Pc.toShare, Pc.toBegin] using hadvance
  | share done p digest hpc hwork =>
      have hlt := hequipped.inShare done digest hpc
      have hadvance := (s.workers i).advance_toShare threads done
      rw [hwork] at hcurrent
      simp only [hpc, Option.toList_some, List.countP_singleton,
        Event.sharesStale, ne_eq, hcurrent, not_false_eq_true, and_self,
        decide_true, ↓reduceIte]
      simp only [Pc.toShare] at hadvance ⊢
      omega
  | _ => simp [*, Pc.toShare, Pc.toBegin, Event.sharesStale]

/-- The events of a kind that are about an old job are paid for out of what the
worker has left to do on it. -/
structure PaidBy
    (costs : Option JobPtr → Fin threads.toNat → Event threads H → Bool)
    (measure : Pc → Nat) : Prop where
  turn : ∀ {s : State threads H} {i : Fin threads.toNat}
    {label : Label threads H} {w : Worker H} {inFlight : UInt32}
    {event : Option (Event threads H)}, Turn s i label w inFlight event →
      (s.workers i).Equipped → s.Told i →
      s.ifStale measure w + event.toList.countP (costs s.work i) ≤
        s.ifStale measure (s.workers i)
  others : ∀ {s : State threads H} {i j : Fin threads.toNat}
    {label : Label threads H} {w : Worker H} {inFlight : UInt32}
    {event : Option (Event threads H)}, Turn s j label w inFlight event →
      i ≠ j → ∀ current, event.toList.countP (costs current i) = 0
  called : ∀ current i call, costs current i (.called call) = false
  boot : measure .boot = 0
  unborn : measure .unborn = 0

theorem beginsStale_paid :
    @PaidBy threads H Event.beginsStale Pc.toBegin where
  turn := Turn.begins_le
  others := by
    intro s i j label w inFlight event hturn hne current
    cases hturn <;> simp [Event.beginsStale, hne.symm]
  called _ _ _ := rfl
  boot := rfl
  unborn := rfl

theorem sharesStale_paid :
    @PaidBy threads H Event.sharesStale Pc.toShare where
  turn := Turn.shares_le
  others := by
    intro s i j label w inFlight event hturn hne current
    cases hturn <;> simp [Event.sharesStale, hne.symm]
  called _ _ _ := rfl
  boot := rfl
  unborn := rfl

variable {costs : Option JobPtr → Fin threads.toNat → Event threads H → Bool}
  {measure : Pc → Nat}

theorem PaidBy.step {s s' : State threads H} {label : Label threads H}
    (hpaid : PaidBy costs measure) (hequipped : s.Equipped)
    (hjob : s.JobAnnounced) (hok : NoUpdate s label)
    (hstep : MinerPool.step s label = some s') (i : Fin threads.toNat) :
    ∃ new, s'.log = new ++ s.log ∧
      s'.ifStale measure (s'.workers i) + new.countP (costs s.work i) ≤
        s.ifStale measure (s.workers i) := by
  have hwork := (hjob.step hok hstep).2
  have hstale : ∀ w, s'.ifStale measure w = s.ifStale measure w := by
    intro w
    simp only [State.ifStale, hwork]
  rw [hstale]
  cases step_acted hstep with
  | turn j turned =>
      obtain ⟨w, inFlight, event, hturn, hw, -, hlog⟩ := turned.turn
      refine ⟨event.toList, hlog, ?_⟩
      by_cases hi : i = j
      · subst hi
        rw [hw]
        exact hpaid.turn hturn (hequipped i) (hjob.held i)
      · rw [turned.others i hi, hpaid.others hturn hi]
        exact Nat.le_refl _
  | call call called =>
      refine ⟨[.called call], called.log, ?_⟩
      rw [called.workers]
      simp [hpaid.called]
  | ctl taken =>
      obtain ⟨hlog, -, -, -, -, hworkers⟩ := ctlStep_frame taken
      refine ⟨[], hlog, ?_⟩
      rw [List.countP_nil, Nat.add_zero]
      rcases hworkers i with hsame | hboot | ⟨-, hjoined⟩
      · rw [hsame]
      · rw [hboot]
        exact Nat.le_trans (State.ifStale_le (Nat.le_of_eq hpaid.boot))
          (Nat.zero_le _)
      · rw [hjoined]
        exact Nat.le_trans (State.ifStale_le (Nat.le_of_eq hpaid.unborn))
          (Nat.zero_le _)

/-- What is known of the pool while its job stays the same. -/
structure State.OnJob (current : Option JobPtr) (s : State threads H) :
    Prop where
  threaded : s.Threaded
  announced : s.JobAnnounced
  work : s.work = current

theorem State.OnJob.step {current : Option JobPtr} {s s' : State threads H}
    {label : Label threads H} (hjob : s.OnJob current)
    (hok : NoUpdate s label) (hstep : MinerPool.step s label = some s') :
    s'.OnJob current := by
  obtain ⟨hannounced, hwork⟩ := hjob.announced.step hok hstep
  exact ⟨⟨hjob.threaded.staffed.step hstep, hjob.threaded.equipped.step hstep⟩,
    hannounced, hwork.trans hjob.work⟩

theorem PaidBy.run {s s' : State threads H} {more : List (Label threads H)}
    (hpaid : PaidBy costs measure) (hjob : s.OnJob s.work)
    (hmore : Run MinerPool.step NoUpdate s more s') (i : Fin threads.toNat) :
    ∃ new, s'.log = new ++ s.log ∧
      new.countP (costs s.work i) ≤ s.ifStale measure (s.workers i) := by
  have hlogged := hmore.logged_le State.log (costs s.work i)
    (fun state => state.ifStale measure (state.workers i)) hjob
  obtain ⟨-, new, hnew, hle⟩ := hlogged
    fun state label next hinv hok hstep => by
      have hspent := hpaid.step hinv.threaded.equipped hinv.announced hok hstep i
      rw [hinv.work] at hspent
      exact ⟨hinv.step hok hstep, hspent⟩
  exact ⟨new, hnew, by omega⟩

/-- Old work ends soon: once `set_work` or `clear_work` has returned and no
worker has missed it, until the next one each worker begins at most 16 hashes
and reports at most 16 shares of any other job than the pool's, whatever the
interleaving and the other calls. -/
theorem stale_work_bounded {labels more : List (Label threads H)}
    {s s' : State threads H}
    (hrun : Run step anyLabel (init threads H) labels s)
    (hjob : s.JobAnnounced) (hmore : Run step NoUpdate s more s')
    (i : Fin threads.toNat) :
    ∃ new, s'.log = new ++ s.log ∧
      new.countP (Event.beginsStale s.work i) ≤ kChunk ∧
      new.countP (Event.sharesStale s.work i) ≤ kChunk := by
  have hstart : s.OnJob s.work := ⟨State.Threaded.of_run hrun, hjob, rfl⟩
  obtain ⟨new, hnew, hbegins⟩ := beginsStale_paid.run hstart hmore i
  obtain ⟨new', hnew', hshares⟩ := sharesStale_paid.run hstart hmore i
  obtain rfl := List.append_cancel_right (hnew.symm.trans hnew')
  exact ⟨new, hnew,
    Nat.le_trans hbegins (State.ifStale_le (Pc.toBegin_le _)),
    Nat.le_trans hshares (State.ifStale_le (Pc.toShare_le _))⟩

/-- A job with room for the nonce, whose target every digest meets. -/
def easyJob : MiningJob :=
  { blob := List.replicate 4 0, target := Hash256.fill 0xff }

/-- The worker is hashing for a first job when a second one is set. -/
def replacingLabels : List (Label 1 Unit) :=
  quietLabels easyJob ++ List.replicate 3 (.worker soleWorker) ++
    [.call (.setWork {}), .ctl]

/-- It goes on to report a share of the first job and to begin the next hash. -/
def finishingLabels : List (Label 1 Unit) :=
  [.hashed soleWorker (Hash256.fill 0), .worker soleWorker,
    .worker soleWorker]

theorem finishing_stale_work :
    ∃ s s' : State 1 Unit,
      Run step anyLabel (init 1 Unit) replacingLabels s ∧ s.JobAnnounced ∧
      Run step NoUpdate s finishingLabels s' ∧
      ∃ new, s'.log = new ++ s.log ∧
        new.countP (Event.beginsStale s.work soleWorker) ≤ kChunk ∧
        new.countP (Event.sharesStale s.work soleWorker) ≤ kChunk := by
  let s := (replay step anyLabel (init 1 Unit) replacingLabels).get rfl
  let s' := (replay step NoUpdate s finishingLabels).get rfl
  have hrun : Run step anyLabel (init 1 Unit) replacingLabels s :=
    run_of_replay rfl
  have hmore : Run step NoUpdate s finishingLabels s' := run_of_replay rfl
  have hjob : s.JobAnnounced := by
    refine ⟨⟨nofun, nofun⟩, ?_, nofun⟩
    show ∀ i : Fin (UInt32.toNat 1), _
    decide
  exact ⟨s, s', hrun, hjob, hmore,
    stale_work_bounded hrun hjob hmore soleWorker⟩

/-- The steps of its own that a worker takes at most, in a pool that mines on,
until it has picked up the announced job. -/
def Pc.toPickup : Pc → Nat
  | .unborn => 0
  | .exited => 0
  | .pickup _ => 1
  | .loadWorkGen => 2
  | .loadHasherGen .rebuild => 3
  | .making .rebuild => 4
  | .checkHasherGen => 5
  | .checkPaused => 6
  | .head => 7
  | .account _ => 8
  | .abort => 8
  | .loadHasherGen .boot => 8
  | .leave _ => 9
  | .making .boot => 9
  | .boot => 10
  | .chunk done => 3 * (kChunk - done) + 9
  | .hashing done => 3 * (kChunk - done) + 8
  | .sharing done _ => 3 * (kChunk - done) + 7
  | .missed done => 3 * (kChunk - done) + 7
  | .recheck => 58
  | .enter => 59

/-- The longest way to a pickup. -/
def pickupSteps : Nat := 59

/-- The steps of a pool that mines on: no update, no `stop` and no `pause`. -/
def MinesOn (_ : State threads H) : Label threads H → Prop
  | .call call => call = .start ∨ call = .resume ∨ call = .rebuildHashers
  | _ => True

instance (s : State threads H) (label : Label threads H) :
    Decidable (MinesOn s label) :=
  match label with
  | .call call => inferInstanceAs
      (Decidable (call = .start ∨ call = .resume ∨ call = .rebuildHashers))
  | .ctl => .isTrue trivial
  | .worker _ => .isTrue trivial
  | .made _ _ => .isTrue trivial
  | .hashed _ _ => .isTrue trivial

theorem Pc.toPickup_le (pc : Pc) : pc.toPickup ≤ pickupSteps := by
  cases pc with
  | making build => cases build <;> decide
  | loadHasherGen build => cases build <;> decide
  | chunk done =>
      simp only [Pc.toPickup, kChunk, pickupSteps]
      omega
  | hashing done =>
      simp only [Pc.toPickup, kChunk, pickupSteps]
      omega
  | sharing done digest =>
      simp only [Pc.toPickup, kChunk, pickupSteps]
      omega
  | missed done =>
      simp only [Pc.toPickup, kChunk, pickupSteps]
      omega
  | _ => simp [Pc.toPickup, pickupSteps]

theorem Worker.advance_toPickup (w : Worker H) (threads : UInt32)
    {done : Nat} (hlt : done < kChunk) :
    (w.advance threads done).pc.toPickup < 3 * (kChunk - done) + 7 := by
  rcases w.advance_pc threads done with hpc | hpc
  · simp only [hpc, Pc.toPickup]
    omega
  · simp only [hpc, Pc.toPickup]
    omega

/-- In a pool that mines on, every turn of a worker on an old job takes it
nearer to the pickup. -/
theorem Turn.toPickup_lt {s : State threads H} {i : Fin threads.toNat}
    {label : Label threads H} {w : Worker H} {inFlight : UInt32}
    {event : Option (Event threads H)}
    (hturn : Turn s i label w inFlight event)
    (hequipped : (s.workers i).Equipped) (htold : s.Told i)
    (hrunning : s.running = true) (hpaused : s.paused = false)
    (hold : (s.workers i).work ≠ s.work) (hstill : w.work ≠ s.work) :
    w.pc.toPickup < (s.workers i).pc.toPickup := by
  cases hturn with
  | exit hpc running => simp [hrunning] at running
  | rest hpc paused => simp [hpaused] at paused
  | turnBack hpc paused => simp [hpaused] at paused
  | keepWork hpc same => exact absurd (htold same.symm) hold
  | pickup gen hpc => exact absurd (Worker.work_take _ _ _ _) hstill
  | made build hasher hpc => cases build <;> simp [hpc, Pc.toPickup]
  | next done hpc =>
      have hlt := hequipped.inMiss done hpc
      have hadvance := (s.workers i).advance_toPickup threads hlt
      simpa only [hpc, Pc.toPickup] using hadvance
  | share done p digest hpc hwork =>
      have hlt := hequipped.inShare done digest hpc
      have hadvance := (s.workers i).advance_toPickup threads hlt
      simpa only [hpc, Pc.toPickup] using hadvance
  | _ => simp [*, Pc.toPickup, kChunk]

/-- A thread leaves `run` only when it finds `running_` cleared. -/
def State.LeftStopped (s : State threads H) : Prop :=
  ∀ i, (s.workers i).pc = .exited → s.running = false

theorem Turn.exited {s : State threads H} {i : Fin threads.toNat}
    {label : Label threads H} {w : Worker H} {inFlight : UInt32}
    {event : Option (Event threads H)}
    (hturn : Turn s i label w inFlight event) (hexited : w.pc = .exited) :
    s.running = false := by
  cases hturn with
  | exit hpc running => exact running
  | keepWork hpc same =>
      rcases (s.workers i).afterCheck_pc with ⟨hpc', -⟩ | hpc' <;> simp_all
  | pickup gen hpc =>
      rcases ((s.workers i).take i gen s.work).afterCheck_pc with
        ⟨hpc', -⟩ | hpc' <;> simp_all
  | next done hpc =>
      rcases (s.workers i).advance_pc threads done with hpc' | hpc' <;> simp_all
  | share done p digest hpc hwork =>
      rcases (s.workers i).advance_pc threads done with hpc' | hpc' <;> simp_all
  | _ => cases hexited

theorem State.LeftStopped.turned {s s' : State threads H}
    {i : Fin threads.toNat} {label : Label threads H} (hleft : s.LeftStopped)
    (hturned : Turned s s' i label) : s'.LeftStopped := by
  intro j hexited
  rw [hturned.running]
  by_cases hj : j = i
  · subst hj
    obtain ⟨w, inFlight, event, hturn, hw, -, -⟩ := hturned.turn
    exact hturn.exited (hw ▸ hexited)
  · rw [hturned.others j hj] at hexited
    exact hleft j hexited

theorem State.LeftStopped.step {s s' : State threads H}
    {label : Label threads H} (hleft : s.LeftStopped) (hsound : Sound s)
    (hstep : MinerPool.step s label = some s') : s'.LeftStopped := by
  cases step_acted hstep with
  | turn i turned => exact hleft.turned turned
  | call call called =>
      intro i hexited
      rw [called.workers] at hexited
      have hrunning := hleft i hexited
      have hunborn := hsound.unborn (by simp [called.idle])
        (by simp [called.idle]) hrunning i
      rw [hunborn] at hexited
      cases hexited
  | ctl taken =>
      obtain ⟨-, -, -, -, hrunning, hworkers⟩ := ctlStep_frame taken
      intro i hexited
      rw [hrunning]
      rcases hworkers i with hsame | hboot | ⟨-, hjoined⟩
      · exact hleft i (hsame ▸ hexited)
      · simp [hboot] at hexited
      · simp [hjoined] at hexited

theorem State.LeftStopped.of_run {labels : List (Label threads H)}
    {s : State threads H}
    (hrun : Run MinerPool.step anyLabel (MinerPool.init threads H) labels s) :
    s.LeftStopped := by
  have hboth : Sound s ∧ s.LeftStopped := by
    apply hrun.invariant
    · intro state label next hinv _ hstep
      exact ⟨hinv.1.step hstep, hinv.2.step hinv.1 hstep⟩
    · exact ⟨Sound.init, nofun⟩
  exact hboth.2

/-- Every thread is in its loop, the pool mines on, and worker `i` has not
missed the last update. -/
structure State.Mining (i : Fin threads.toNat) (current : Option JobPtr)
    (s : State threads H) : Prop extends s.Threaded where
  settled : s.WorkSettled
  told : s.Told i
  work : s.work = current
  running : s.running = true
  paused : s.paused = false
  created : ∀ next, s.ctl ≠ .starting next
  stays : ∀ j, (s.workers j).pc ≠ .exited

variable {i : Fin threads.toNat}

theorem State.Mining.turned {current : Option JobPtr} {s s' : State threads H}
    {j : Fin threads.toNat} {label : Label threads H}
    (hmining : s.Mining i current) (hthreaded : s'.Threaded)
    (hturned : Turned s s' j label) : s'.Mining i current := by
  apply State.Mining.mk hthreaded
  · simpa only [State.WorkSettled, hturned.ctl] using hmining.settled
  · exact hturned.told hmining.told
  · rw [hturned.work]
    exact hmining.work
  · rw [hturned.running]
    exact hmining.running
  · rw [hturned.paused]
    exact hmining.paused
  · rw [hturned.ctl]
    exact hmining.created
  · have hleft : s.LeftStopped := fun i h => absurd h (hmining.stays i)
    intro j hexited
    have hstopped := hleft.turned hturned j hexited
    rw [hturned.running, hmining.running] at hstopped
    cases hstopped

/-- While the pool mines on, the controlling thread does nothing to it. -/
theorem State.Mining.ctl {current : Option JobPtr} {s s' : State threads H}
    (hmining : s.Mining i current) (hstep : ctlStep s = some s') :
    s'.workers = s.workers ∧ s'.workGen = s.workGen ∧ s'.work = s.work ∧
      s'.running = s.running ∧ s'.paused = s.paused ∧ s'.WorkSettled ∧
      ∀ next, s'.ctl ≠ .starting next := by
  have hstopping := hmining.staffed.stopping
  have hrunning := hmining.running
  cases ctlStep_turn hstep with
  | create next lt ctl => exact absurd ctl (hmining.created next)
  | unpause ctl => simp [hstopping (Or.inl ctl)] at hrunning
  | join ctl exited => simp [hstopping (Or.inr ctl)] at hrunning
  | store p ctl => exact absurd ctl (hmining.settled.2 p)
  | clear ctl => exact absurd ctl hmining.settled.1
  | wait ctl busy =>
      exact ⟨rfl, rfl, rfl, rfl, rfl, hmining.settled, hmining.created⟩
  | _ => exact ⟨rfl, rfl, rfl, rfl, rfl, ⟨by simp, by simp⟩, by simp⟩

theorem State.Mining.call {current : Option JobPtr} {s s' : State threads H}
    {call : Call} (hmining : s.Mining i current) (hthreaded : s'.Threaded)
    (hok : MinesOn s (.call call)) (hcalled : Called s s' call) :
    s'.Mining i current := by
  have hrunning := hmining.running
  have hpaused := hmining.paused
  have hidle : s'.ctl = .idle := by
    rw [hcalled.ctl]
    rcases hok with rfl | rfl | rfl <;> simp [Call.entry, hrunning]
  apply State.Mining.mk hthreaded
  · simp [State.WorkSettled, hidle]
  · unfold State.Told
    rw [hcalled.workers, hcalled.workGen, hcalled.work]
    rcases hok with rfl | rfl | rfl <;> exact hmining.told
  · rw [hcalled.work]
    exact hmining.work
  · rw [hcalled.running]
    rcases hok with rfl | rfl | rfl <;> simp [Call.running, hrunning]
  · rw [hcalled.paused]
    rcases hok with rfl | rfl | rfl <;> simp [Call.paused, hpaused]
  · simp [hidle]
  · rw [hcalled.workers]
    exact hmining.stays

theorem State.Mining.step {current : Option JobPtr} {s s' : State threads H}
    {label : Label threads H} (hmining : s.Mining i current)
    (hok : MinesOn s label) (hstep : MinerPool.step s label = some s') :
    s'.Mining i current := by
  have hthreaded : s'.Threaded :=
    ⟨hmining.staffed.step hstep, hmining.equipped.step hstep⟩
  cases step_acted hstep with
  | turn j turned => exact hmining.turned hthreaded turned
  | call call called => exact hmining.call hthreaded hok called
  | ctl taken =>
      obtain ⟨hworkers, hgen, hwork, hrunning, hpaused, hsettled, hcreated⟩ :=
        hmining.ctl taken
      apply State.Mining.mk hthreaded hsettled
      · unfold State.Told
        rw [hworkers, hgen, hwork]
        exact hmining.told
      · exact hwork.trans hmining.work
      · exact hrunning.trans hmining.running
      · exact hpaused.trans hmining.paused
      · exact hcreated
      · exact hworkers ▸ hmining.stays

/-- The worker's own steps take it to the pickup, and no other step moves
it. -/
theorem State.Mining.toPickup_le {current : Option JobPtr}
    {s s' : State threads H} {label : Label threads H}
    (hmining : s.Mining i current) (hok : MinesOn s label)
    (hstep : MinerPool.step s label = some s') :
    s'.ifStale Pc.toPickup (s'.workers i) ≤
      s.ifStale Pc.toPickup (s.workers i) - (label.isOf i).toNat := by
  have hwork : s'.work = s.work :=
    (hmining.step hok hstep).work.trans hmining.work.symm
  have hstale : ∀ w, s'.ifStale Pc.toPickup w = s.ifStale Pc.toPickup w := by
    intro w
    simp only [State.ifStale, hwork]
  rw [hstale]
  cases step_acted hstep with
  | turn j turned =>
      obtain ⟨w, inFlight, event, hturn, hw, -, -⟩ := turned.turn
      by_cases hi : i = j
      · subst hi
        rw [hw]
        have hmine : label.isOf i = true := by
          simp [Label.isOf, hturn.actor]
        by_cases hstill : w.work = s.work
        · simp [State.ifStale_of_work hstill]
        · have hold : (s.workers i).work ≠ s.work := fun hcurrent =>
            hstill (hturn.stays_current hcurrent).1
          have hlt := hturn.toPickup_lt (hmining.equipped i)
            hmining.told hmining.running hmining.paused hold hstill
          rw [State.ifStale_of_ne hold, State.ifStale_of_ne hstill, hmine]
          exact Nat.le_sub_one_of_lt hlt
      · have hother : label.isOf i = false := by
          simp [Label.isOf, hturn.actor, Ne.symm hi]
        rw [turned.others i hi, hother]
        exact Nat.le_refl _
  | call call called =>
      rw [called.workers]
      exact Nat.le_refl _
  | ctl taken =>
      rw [(hmining.ctl taken).1]
      exact Nat.le_refl _

/-- New work is picked up: in a pool that is running and not paused, with its
threads created, a worker that has not missed the last update, whatever the
others have, can always take a step, and 59 steps of its own later it holds the
pool's job, in every way to go on without an update, `stop` or `pause`. -/
theorem work_picked_up {labels more : List (Label threads H)}
    {s s' : State threads H} (hasher : H)
    (hrun : Run step anyLabel (init threads H) labels s)
    (hsettled : s.WorkSettled) (i : Fin threads.toNat) (htold : s.Told i)
    (hrunning : s.running = true) (hpaused : s.paused = false)
    (hcreated : ∀ next, s.ctl ≠ .starting next)
    (hmore : Run step MinesOn s more s') :
    s'.CanMove i ∧
      (pickupSteps ≤ more.countP (Label.isOf i) →
        (s'.workers i).work = s.work) := by
  have hstays : ∀ i, (s.workers i).pc ≠ .exited := by
    intro i hexited
    simp [State.LeftStopped.of_run hrun i hexited] at hrunning
  have hstart : s.Mining i s.work :=
    ⟨State.Threaded.of_run hrun, hsettled, htold, rfl, hrunning, hpaused,
      hcreated, hstays⟩
  obtain ⟨hmining, hleft⟩ := hmore.left_le (Label.isOf i)
    (fun state => state.ifStale Pc.toPickup (state.workers i)) hstart
    fun state label next hinv hok hstep =>
      ⟨hinv.step hok hstep, hinv.toPickup_le hok hstep⟩
  constructor
  · exact hmining.equipped.canMove hasher
      (hmining.staffed.started hmining.running hmining.created i)
      (hmining.stays i)
  · intro hsteps
    have hbound : s.ifStale Pc.toPickup (s.workers i) ≤ pickupSteps :=
      State.ifStale_le (Pc.toPickup_le _)
    by_contra hstill
    have hpos : 0 < (s'.workers i).pc.toPickup := by
      have hborn := hmining.staffed.started hmining.running hmining.created i
      have hin := hmining.stays i
      cases hpc : (s'.workers i).pc with
      | making build => cases build <;> simp [Pc.toPickup]
      | loadHasherGen build => cases build <;> simp [Pc.toPickup]
      | unborn => exact absurd hpc hborn
      | exited => exact absurd hpc hin
      | _ => simp [Pc.toPickup]
    rw [← hmining.work] at hstill
    rw [State.ifStale_of_ne hstill] at hleft
    omega

/-- The workers of a pool of two threads. -/
def earlyWorker : Fin (UInt32.toNat 2) := ⟨0, by decide⟩

def lateWorker : Fin (UInt32.toNat 2) := ⟨1, by decide⟩

/-- The second worker reads the generation of a second job and copies the first
one, before the first worker has begun. -/
def missingLabels : List (Label 2 Unit) :=
  [.call (.setWork easyJob), .ctl, .call .start, .ctl, .ctl, .ctl,
    .worker lateWorker, .made lateWorker ()] ++
    List.replicate 4 (.worker lateWorker) ++
    [.call (.setWork {}), .worker lateWorker, .worker lateWorker, .ctl]

/-- The first worker comes to the second job. -/
def pickingLabels : List (Label 2 Unit) :=
  [.worker earlyWorker, .made earlyWorker ()] ++
    List.replicate 57 (.worker earlyWorker)

/-- A worker picks up a job that another has missed. -/
theorem picking_work_picked_up :
    ∃ s s' : State 2 Unit,
      Run step anyLabel (init 2 Unit) missingLabels s ∧
      ¬ s.Told lateWorker ∧ s.Told earlyWorker ∧
      Run step MinesOn s pickingLabels s' ∧
      (s.workers earlyWorker).work ≠ s.work ∧
      (s'.workers earlyWorker).work = s.work := by
  let s := (replay step anyLabel (init 2 Unit) missingLabels).get rfl
  have hpicks : (replay step MinesOn s pickingLabels).isSome = true := by
    decide +kernel
  let s' := (replay step MinesOn s pickingLabels).get hpicks
  have hrun : Run step anyLabel (init 2 Unit) missingLabels s :=
    run_of_replay rfl
  have hmore : Run step MinesOn s pickingLabels s' :=
    run_of_replay (Option.some_get hpicks).symm
  have hpicked := work_picked_up () hrun ⟨nofun, nofun⟩ earlyWorker
    (by decide) rfl rfl nofun hmore
  exact ⟨s, s', hrun, by decide, by decide, hmore, by decide,
    hpicked.2 (by decide)⟩

end MinerPool

end Minerby
