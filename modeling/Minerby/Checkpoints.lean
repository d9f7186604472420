/-
The checkpoints of a worker.  Whatever a worker is doing, a bounded number of
its own steps takes it back to the top of its loop, and it can always take the
next one; so a `stop` or a `pause` that waits for the workers returns.
-/
import Minerby.Countdown
import Minerby.HeldJobs
import Minerby.PauseBarrier

namespace Minerby

namespace MinerPool

variable {threads : UInt32} {H : Type}

/-- The steps a worker takes at most until it has left `run`, if it finds
`running_` cleared the next time it looks. -/
def Pc.toExit : Pc → Nat
  | .unborn => 0
  | .exited => 0
  | .head => 1
  | .account _ => 2
  | .abort => 2
  | .loadHasherGen .boot => 2
  | .leave _ => 3
  | .making .boot => 3
  | .boot => 4
  | .chunk done => 3 * (kChunk - done) + 6
  | .hashing done => 3 * (kChunk - done) + 5
  | .sharing done _ => 3 * (kChunk - done) + 4
  | .missed done => 3 * (kChunk - done) + 4
  | .recheck => 55
  | .enter => 56
  | .pickup _ => 57
  | .loadWorkGen => 58
  | .loadHasherGen .rebuild => 59
  | .making .rebuild => 60
  | .checkHasherGen => 61
  | .checkPaused => 62

/-- The longest way round the loop. -/
def loopSteps : Nat := 62

/-- At the top of the loop, where a paused worker stays, or not in it. -/
def Pc.atTop : Pc → Bool
  | .unborn => true
  | .exited => true
  | .head => true
  | .checkPaused => true
  | _ => false

theorem Pc.toExit_le (pc : Pc) : pc.toExit ≤ loopSteps := by
  cases pc with
  | making build => cases build <;> decide
  | loadHasherGen build => cases build <;> decide
  | chunk done =>
      simp only [Pc.toExit, kChunk, loopSteps]
      omega
  | hashing done =>
      simp only [Pc.toExit, kChunk, loopSteps]
      omega
  | sharing done digest =>
      simp only [Pc.toExit, kChunk, loopSteps]
      omega
  | missed done =>
      simp only [Pc.toExit, kChunk, loopSteps]
      omega
  | _ => simp [Pc.toExit, loopSteps]

theorem Worker.advance_toExit (w : Worker H) (threads : UInt32) (done : Nat) :
    (w.advance threads done).pc.toExit < 3 * (kChunk - done) + 4 := by
  simp only [Worker.advance]
  split
  · simp only [Pc.toExit]
    omega
  · split
    · simp only [Pc.toExit]
      omega
    · simp only [Pc.toExit]
      omega

theorem Worker.afterCheck_toExit (w : Worker H) :
    w.afterCheck.pc.toExit ≤ 56 := by
  rcases w.afterCheck_pc with ⟨hpc, -⟩ | hpc
  · simp [hpc, Pc.toExit]
  · simp [hpc, Pc.toExit]

/-- Every turn brings the worker nearer to the end of `run`, but the one that
begins another round of the loop. -/
theorem Turn.toExit_lt {s : State threads H} {i : Fin threads.toNat}
    {label : Label threads H} {w : Worker H} {inFlight : UInt32}
    {event : Option (Event threads H)}
    (hturn : Turn s i label w inFlight event)
    (hlast : (s.workers i).pc = .head → s.running = false) :
    w.pc.toExit < (s.workers i).pc.toExit := by
  cases hturn with
  | loop hpc running => simp [hlast hpc] at running
  | made build hasher hpc => cases build <;> simp [hpc, Pc.toExit]
  | keepWork hpc same =>
      calc (s.workers i).afterCheck.pc.toExit
          ≤ 56 := (s.workers i).afterCheck_toExit
        _ < (s.workers i).pc.toExit := by simp [hpc, Pc.toExit]
  | pickup gen hpc =>
      calc ((s.workers i).take i gen s.work).afterCheck.pc.toExit
          ≤ 56 := Worker.afterCheck_toExit _
        _ < (s.workers i).pc.toExit := by simp [hpc, Pc.toExit]
  | next done hpc =>
      calc ((s.workers i).advance threads done).pc.toExit
          < 3 * (kChunk - done) + 4 := (s.workers i).advance_toExit threads done
        _ ≤ (s.workers i).pc.toExit := by simp [hpc, Pc.toExit]
  | share done p digest hpc hwork =>
      calc ((s.workers i).advance threads done).pc.toExit
          < 3 * (kChunk - done) + 4 := (s.workers i).advance_toExit threads done
        _ ≤ (s.workers i).pc.toExit := by simp [hpc, Pc.toExit]
  | _ => simp [*, Pc.toExit, kChunk]

/-- A worker between its checks and its last hash has a job with room for the
nonce, and has not finished its chunk. -/
structure Worker.Equipped (w : Worker H) : Prop where
  ready : w.pc.committed = true → w.ready = true
  inChunk : ∀ done, w.pc = .chunk done → done < kChunk
  inHash : ∀ done, w.pc = .hashing done → done < kChunk
  inShare : ∀ done digest, w.pc = .sharing done digest → done < kChunk
  inMiss : ∀ done, w.pc = .missed done → done < kChunk

theorem Worker.Equipped.of_not_committed {w : Worker H}
    (hout : w.pc.committed = false) : w.Equipped := by
  constructor <;> intros <;> simp_all [Pc.committed]

theorem Worker.afterCheck_equipped (w : Worker H) : w.afterCheck.Equipped := by
  rcases w.afterCheck_pc with ⟨hpc, hready⟩ | hpc
  · constructor
    · intro _
      exact hready
    all_goals simp [hpc]
  · apply Worker.Equipped.of_not_committed
    simp [hpc, Pc.committed]

theorem Worker.Equipped.advance {w : Worker H} (hready : w.ready = true)
    (threads : UInt32) (done : Nat) : (w.advance threads done).Equipped := by
  constructor
  · intro _
    exact hready
  · intro done' hpc
    simp only [Worker.advance] at hpc
    split at hpc
    · cases hpc
    · split at hpc
      · cases hpc
        assumption
      · cases hpc
  all_goals
    intros
    rcases w.advance_pc threads done with hpc | hpc <;> simp_all

theorem Turn.equipped {s : State threads H} {i : Fin threads.toNat}
    {label : Label threads H} {w : Worker H} {inFlight : UInt32}
    {event : Option (Event threads H)}
    (hturn : Turn s i label w inFlight event)
    (hequipped : (s.workers i).Equipped) : w.Equipped := by
  cases hturn with
  | keepWork hpc same => exact Worker.afterCheck_equipped _
  | pickup gen hpc => exact Worker.afterCheck_equipped _
  | enter hpc =>
      have hready := hequipped.ready (by simp [hpc, Pc.committed])
      constructor
      · intro _
        exact hready
      all_goals simp
  | goOn hpc paused =>
      have hready := hequipped.ready (by simp [hpc, Pc.committed])
      constructor
      · intro _
        exact hready
      all_goals simp [kChunk]
  | hash done p hpc hwork =>
      have hready := hequipped.ready (by simp [hpc, Pc.committed])
      have hlt := hequipped.inChunk done hpc
      constructor
      · intro _
        simpa [Worker.ready, spliceNonce] using hready
      all_goals simp_all
  | found done p digest hpc hwork hmeets =>
      have hready := hequipped.ready (by simp [hpc, Pc.committed])
      have hlt := hequipped.inHash done hpc
      constructor
      · intro _
        exact hready
      all_goals simp_all
  | missed done p digest hpc hwork hmeets =>
      have hready := hequipped.ready (by simp [hpc, Pc.committed])
      have hlt := hequipped.inHash done hpc
      constructor
      · intro _
        exact hready
      all_goals simp_all
  | next done hpc =>
      apply Worker.Equipped.advance
      exact hequipped.ready (by simp [hpc, Pc.committed])
  | share done p digest hpc hwork =>
      apply Worker.Equipped.advance
      exact hequipped.ready (by simp [hpc, Pc.committed])
  | _ => exact Worker.Equipped.of_not_committed rfl

def State.Equipped (s : State threads H) : Prop :=
  ∀ i, (s.workers i).Equipped

theorem State.Equipped.init : (init threads H).Equipped := by
  intro i
  exact Worker.Equipped.of_not_committed rfl

theorem State.Equipped.step {s s' : State threads H} {label : Label threads H}
    (hequipped : s.Equipped) (hstep : step s label = some s') :
    s'.Equipped := by
  intro j
  cases step_acted hstep with
  | turn i turned =>
      by_cases hj : j = i
      · subst hj
        obtain ⟨w, inFlight, event, hturn, hw, -, -⟩ := turned.turn
        rw [hw]
        exact hturn.equipped (hequipped j)
      · rw [turned.others j hj]
        exact hequipped j
  | call call called =>
      rw [called.workers]
      exact hequipped j
  | ctl taken =>
      obtain ⟨-, -, -, -, -, hworkers⟩ := ctlStep_frame taken
      rcases hworkers j with hsame | hboot | ⟨-, hjoined⟩
      · rw [hsame]
        exact hequipped j
      · rw [hboot]
        exact Worker.Equipped.of_not_committed rfl
      · rw [hjoined]
        exact Worker.Equipped.of_not_committed rfl

theorem Worker.exists_work_of_ready {w : Worker H} (hready : w.ready = true) :
    ∃ p, w.work = some p := by
  cases hwork : w.work with
  | none => simp [Worker.ready, hwork] at hready
  | some p => exact ⟨p, rfl⟩

/-- There is a step of worker `i`: its own, or the return of the call that it
waits for. -/
def State.CanMove (s : State threads H) (i : Fin threads.toNat) : Prop :=
  ∃ label next, label.actor = some i ∧ step s label = some next

/-- A thread in `run` never gets stuck. -/
theorem State.Equipped.canMove {s : State threads H} (hequipped : s.Equipped)
    (hasher : H) {i : Fin threads.toNat} (hborn : (s.workers i).pc ≠ .unborn)
    (hstays : (s.workers i).pc ≠ .exited) : s.CanMove i := by
  have hown : (workerStep s i).isSome = true → s.CanMove i := by
    intro hsome
    obtain ⟨next, hnext⟩ := Option.isSome_iff_exists.mp hsome
    exact ⟨.worker i, next, rfl, hnext⟩
  have hjob : (s.workers i).pc.committed = true →
      ∃ p, (s.workers i).work = some p := fun hcommitted =>
    Worker.exists_work_of_ready ((hequipped i).ready hcommitted)
  cases hpc : (s.workers i).pc with
  | unborn => exact absurd hpc hborn
  | exited => exact absurd hpc hstays
  | making build =>
      exact ⟨.made i hasher, _, rfl, madeStep_eq_some.mpr ⟨build, hpc, rfl⟩⟩
  | hashing done =>
      obtain ⟨p, hwork⟩ := hjob (by simp [hpc, Pc.committed])
      exact ⟨.hashed i (Hash256.fill 0), _, rfl,
        hashedStep_eq_some.mpr ⟨done, p, hpc, hwork, rfl⟩⟩
  | chunk done =>
      obtain ⟨p, hwork⟩ := hjob (by simp [hpc, Pc.committed])
      apply hown
      simp [workerStep, hpc, hwork]
  | sharing done digest =>
      obtain ⟨p, hwork⟩ := hjob (by simp [hpc, Pc.committed])
      apply hown
      simp [workerStep, hpc, hwork]
  | checkHasherGen =>
      apply hown
      by_cases hsame : s.hasherGen = (s.workers i).localHasherGen <;>
        simp [workerStep, hpc, hsame]
  | loadWorkGen =>
      apply hown
      by_cases hsame : s.workGen = (s.workers i).localWorkGen <;>
        simp [workerStep, hpc, hsame]
  | _ =>
      apply hown
      simp [workerStep, hpc]

end MinerPool

end Minerby
