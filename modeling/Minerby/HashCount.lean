/-
The hash counter.  A worker keeps the hashes of its chunk in a local count and
adds them to `hashes_` when it has left the chunk, so at any point the counter
lags behind the hashes computed by what the workers still hold.
-/
import Minerby.GenuineShares

namespace Minerby

namespace MinerPool

variable {threads : UInt32} {H : Type}

/-- The local `done`, from the start of the chunk until it has been added to
`hashes_`. -/
def Pc.done : Pc → Nat
  | .chunk done => done
  | .hashing done => done
  | .sharing done _ => done
  | .missed done => done
  | .leave done => done
  | .account done => done
  | _ => 0

/-- The hash has returned, with a digest to report or with a miss, and the
loop has yet to increment `done`. -/
def Pc.returned : Pc → Nat
  | .sharing _ _ => 1
  | .missed _ => 1
  | _ => 0

/-- What the next step adds to `hashes_`. -/
def Pc.accounted : Pc → Nat
  | .account done => done
  | _ => 0

/-- Completed hashes of a worker that `hashes_` does not include yet. -/
def Pc.uncounted (pc : Pc) : Nat :=
  pc.done + pc.returned

/-- A return of `hasher->hash`. -/
def Event.isHashed : Event threads H → Bool
  | .hashed _ _ _ _ => true
  | _ => false

namespace State

/-- The `done` counts not yet added. -/
def pendingDone (s : State threads H) : Nat :=
  ∑ i, (s.workers i).pc.done

/-- The number of workers between the return of a hash and the increment of
`done`. -/
def returned (s : State threads H) : Nat :=
  ∑ i, (s.workers i).pc.returned

/-- The number of `hasher->hash` calls that have returned. -/
def completed (s : State threads H) : Nat :=
  s.log.countP Event.isHashed

/-- Completed hashes that `hashes_` does not include yet. -/
def uncounted (s : State threads H) : Nat :=
  ∑ i, (s.workers i).pc.uncounted

/-- `total_hashes()` -/
def totalHashes (s : State threads H) : UInt64 := s.hashes

theorem uncounted_eq (s : State threads H) :
    s.uncounted = s.pendingDone + s.returned :=
  Finset.sum_add_distrib

end State

theorem Worker.advance_uncounted (w : Worker H) (threads : UInt32)
    (done : Nat) : (w.advance threads done).pc.uncounted = done + 1 := by
  rcases w.advance_pc threads done with hpc | hpc
  · rw [hpc]
    rfl
  · rw [hpc]
    rfl

theorem Worker.afterCheck_uncounted (w : Worker H) :
    w.afterCheck.pc.uncounted = 0 := by
  rcases w.afterCheck_pc with ⟨hpc, -⟩ | hpc
  · rw [hpc]
    rfl
  · rw [hpc]
    rfl

/-- Over a turn a worker gains the hash that returns in it, if any, and gives
up what it adds to `hashes_`.  The exit at the nonce wrap and the exit at the
end of a chunk both go through `advance`; the exit at a pause has hashed
nothing. -/
theorem Turn.uncounted {s : State threads H} {i : Fin threads.toNat}
    {label : Label threads H} {w : Worker H} {inFlight : UInt32}
    {event : Option (Event threads H)}
    (hturn : Turn s i label w inFlight event) :
    (s.workers i).pc.accounted + w.pc.uncounted =
      (s.workers i).pc.uncounted + event.toList.countP Event.isHashed := by
  cases hturn with
  | keepWork hpc same =>
      rw [Worker.afterCheck_uncounted, hpc]
      rfl
  | pickup gen hpc =>
      rw [Worker.afterCheck_uncounted, hpc]
      rfl
  | missed done p digest hpc hwork hmeets =>
      rw [hpc]
      exact Nat.zero_add _
  | next done hpc =>
      rw [Worker.advance_uncounted, hpc]
      exact Nat.zero_add _
  | share done p digest hpc hwork =>
      rw [Worker.advance_uncounted, hpc]
      exact Nat.zero_add _
  | found done p digest hpc hwork hmeets =>
      rw [hpc]
      exact Nat.zero_add _
  | account done hpc =>
      rw [hpc]
      rfl
  | leave done hpc =>
      rw [hpc]
      exact Nat.zero_add _
  | hash done p hpc hwork =>
      rw [hpc]
      exact Nat.zero_add _
  | _ =>
      simp_all [Pc.accounted, Pc.uncounted, Pc.done, Pc.returned,
        Event.isHashed]

/-- A worker's own step adds to `hashes_` what the worker has to account for,
and only the step after the chunk has anything. -/
theorem workerStep_hashes {s s' : State threads H} {i : Fin threads.toNat}
    (hstep : workerStep s i = some s') :
    s'.hashes = s.hashes + UInt64.ofNat (s.workers i).pc.accounted := by
  cases hpc : (s.workers i).pc with
  | checkHasherGen =>
      simp only [workerStep, hpc] at hstep
      split at hstep
      · obtain rfl := Option.some.inj hstep
        exact (UInt64.add_zero _).symm
      · obtain rfl := Option.some.inj hstep
        exact (UInt64.add_zero _).symm
  | loadWorkGen =>
      simp only [workerStep, hpc] at hstep
      split at hstep
      · obtain rfl := Option.some.inj hstep
        exact (UInt64.add_zero _).symm
      · obtain rfl := Option.some.inj hstep
        exact (UInt64.add_zero _).symm
  | chunk done =>
      simp only [workerStep, hpc] at hstep
      split at hstep
      · cases hstep
      · obtain rfl := Option.some.inj hstep
        exact (UInt64.add_zero _).symm
  | sharing done digest =>
      simp only [workerStep, hpc] at hstep
      split at hstep
      · cases hstep
      · obtain rfl := Option.some.inj hstep
        exact (UInt64.add_zero _).symm
  | account done =>
      simp only [workerStep, hpc, Option.some.injEq] at hstep
      subst hstep
      rfl
  | unborn => simp [workerStep, hpc] at hstep
  | exited => simp [workerStep, hpc] at hstep
  | making build => simp [workerStep, hpc] at hstep
  | hashing done => simp [workerStep, hpc] at hstep
  | _ =>
      simp only [workerStep, hpc, Option.some.injEq] at hstep
      subst hstep
      exact (UInt64.add_zero _).symm

theorem step_hashes {s s' : State threads H} {label : Label threads H}
    {i : Fin threads.toNat} (hactor : label.actor = some i)
    (hstep : step s label = some s') :
    s'.hashes = s.hashes + UInt64.ofNat (s.workers i).pc.accounted := by
  cases label with
  | call call => cases hactor
  | ctl => cases hactor
  | worker j =>
      obtain rfl := Option.some.inj hactor
      exact workerStep_hashes hstep
  | made j hasher =>
      obtain rfl := Option.some.inj hactor
      obtain ⟨build, hpc, rfl⟩ := madeStep_eq_some.mp hstep
      rw [hpc]
      exact (UInt64.add_zero _).symm
  | hashed j digest =>
      obtain rfl := Option.some.inj hactor
      obtain ⟨done, p, hpc, hwork, rfl⟩ := hashedStep_eq_some.mp hstep
      rw [hpc]
      exact (UInt64.add_zero _).symm

theorem callStep_hashes {s s' : State threads H} {call : Call}
    (hstep : callStep s call = some s') : s'.hashes = s.hashes := by
  unfold callStep at hstep
  split at hstep
  case h_2 => cases hstep
  case h_1 =>
    cases call with
    | start =>
        obtain rfl := Option.some.inj hstep
        split <;> rfl
    | stop =>
        obtain rfl := Option.some.inj hstep
        split <;> rfl
    | _ =>
        obtain rfl := Option.some.inj hstep
        rfl

/-- A thread that is created or joined holds no hashes. -/
theorem Sound.ctl_uncounted {s s' : State threads H} (hsound : Sound s)
    (hstep : ctlStep s = some s') :
    s'.hashes = s.hashes ∧
      ∀ i, (s'.workers i).pc.uncounted = (s.workers i).pc.uncounted := by
  cases ctlStep_turn hstep with
  | create next lt ctl =>
      obtain ⟨-, hunborn⟩ := hsound.starting next ctl
      refine ⟨rfl, fun i => ?_⟩
      by_cases hi : i = ⟨next, lt⟩
      · subst hi
        rw [hunborn _ (le_refl _)]
        change ((s.put _ _).workers _).pc.uncounted = _
        rw [put_workers_self]
        rfl
      · change ((s.put _ _).workers i).pc.uncounted = _
        rw [put_workers_of_ne _ _ hi]
  | join ctl exited =>
      refine ⟨rfl, fun i => ?_⟩
      rw [exited i]
      rfl
  | _ => exact ⟨rfl, fun _ => rfl⟩

/-- The counter and what the workers hold are the hashes computed. -/
structure Counted (s : State threads H) : Prop extends Sound s where
  balance : s.hashes + UInt64.ofNat s.uncounted = UInt64.ofNat s.completed

theorem Counted.init : Counted (init threads H) := by
  refine ⟨Sound.init, ?_⟩
  have hzero : (MinerPool.init threads H).uncounted = 0 :=
    Finset.sum_eq_zero fun i _ => rfl
  rw [hzero]
  rfl

/-- A worker's step moves hashes between its own count, the counter and the
hashes computed. -/
theorem Counted.turned {s s' : State threads H} {label : Label threads H}
    {i : Fin threads.toNat} (hcounted : Counted s)
    (hactor : label.actor = some i) (hstep : step s label = some s') :
    s'.hashes + UInt64.ofNat s'.uncounted = UInt64.ofNat s'.completed := by
  have hturned := step_turned hactor hstep
  obtain ⟨w, inFlight, event, hturn, hw, -, hlog⟩ := hturned.turn
  have hcompleted : s'.completed =
      event.toList.countP Event.isHashed + s.completed := by
    rw [State.completed, hlog, List.countP_append]
    rfl
  have htotal : (s.workers i).pc.accounted + s'.uncounted =
      s.uncounted + event.toList.countP Event.isHashed := by
    have hsum : s'.uncounted + _ = s.uncounted + _ :=
      sum_workers_update (fun w => w.pc.uncounted) hturned.others
    have hown := hturn.uncounted
    rw [← hw] at hown
    omega
  calc s'.hashes + UInt64.ofNat s'.uncounted
      = s.hashes + UInt64.ofNat
          ((s.workers i).pc.accounted + s'.uncounted) := by
        rw [step_hashes hactor hstep, UInt64.ofNat_add, UInt64.add_assoc]
    _ = s.hashes + UInt64.ofNat s.uncounted +
          UInt64.ofNat (event.toList.countP Event.isHashed) := by
        rw [htotal, UInt64.ofNat_add, UInt64.add_assoc]
    _ = UInt64.ofNat s'.completed := by
        rw [hcounted.balance, hcompleted, UInt64.ofNat_add, UInt64.add_comm]

theorem Counted.step {s s' : State threads H} {label : Label threads H}
    (hcounted : Counted s) (hstep : step s label = some s') : Counted s' := by
  refine ⟨hcounted.toSound.step hstep, ?_⟩
  cases label with
  | call call =>
      have hcalled := callStep_called hstep
      have hcompleted : s'.completed = s.completed := by
        rw [State.completed, hcalled.log]
        rfl
      have huncounted : s'.uncounted = s.uncounted := by
        rw [State.uncounted, hcalled.workers]
        rfl
      rw [callStep_hashes hstep, hcompleted, huncounted]
      exact hcounted.balance
  | ctl =>
      obtain ⟨hlog, -⟩ := ctlStep_frame hstep
      obtain ⟨hhashes, hsame⟩ := hcounted.toSound.ctl_uncounted hstep
      have hcompleted : s'.completed = s.completed := by
        rw [State.completed, hlog]
        rfl
      have huncounted : s'.uncounted = s.uncounted :=
        Finset.sum_congr rfl fun i _ => hsame i
      rw [hhashes, hcompleted, huncounted]
      exact hcounted.balance
  | worker i => exact hcounted.turned rfl hstep
  | made i hasher => exact hcounted.turned rfl hstep
  | hashed i digest => exact hcounted.turned rfl hstep

/-- Once the threads are gone nothing is left to count. -/
theorem Sound.uncounted_eq_zero {s : State threads H} (hsound : Sound s)
    (hstop : s.ctl ≠ .stopping) (hjoin : s.ctl ≠ .joining)
    (hrunning : s.running = false) : s.uncounted = 0 := by
  refine Finset.sum_eq_zero fun i _ => ?_
  rw [hsound.unborn hstop hjoin hrunning i]
  rfl

/-- In every state of every run, `hashes_` plus the `done` counts not yet
added, plus one for each worker whose hash has returned and which has yet to
increment `done`, is the number of hashes computed.  When the pool has been
stopped `total_hashes()` is that number. -/
theorem hash_count_exact {labels : List (Label threads H)}
    {s : State threads H}
    (hrun : Run step anyLabel (init threads H) labels s) :
    s.hashes + UInt64.ofNat (s.pendingDone + s.returned) =
        UInt64.ofNat s.completed ∧
      (s.running = false → s.ctl ≠ .stopping → s.ctl ≠ .joining →
        s.totalHashes = UInt64.ofNat s.completed) := by
  have hcounted : Counted s :=
    hrun.invariant (fun _ _ _ hinv _ hstep => hinv.step hstep) Counted.init
  have hbalance := hcounted.balance
  constructor
  · rw [← s.uncounted_eq]
    exact hbalance
  · intro hrunning hstop hjoin
    rw [hcounted.toSound.uncounted_eq_zero hstop hjoin hrunning] at hbalance
    rw [← hbalance]
    exact (UInt64.add_zero _).symm

/-- The worker starts, hashes a chunk in which every digest is a share, and is
stopped. -/
def oneChunkLabels : List (Label 1 Unit) :=
  List.flatten
    [[.call (.setWork openMoneroJob), .ctl, .call .start, .ctl, .ctl,
        .worker soleWorker, .made soleWorker ()],
      List.replicate 8 (.worker soleWorker),
      (List.replicate 16 [.worker soleWorker,
        .hashed soleWorker (Hash256.fill 7), .worker soleWorker]).flatten,
      [.worker soleWorker, .worker soleWorker, .call .stop, .ctl,
        .worker soleWorker, .ctl]]

/-- A stopped pool that has hashed one chunk. -/
theorem one_chunk_counted :
    ∃ s : State 1 Unit,
      Run step anyLabel (init 1 Unit) oneChunkLabels s ∧
      s.completed = 16 ∧ s.running = false ∧ s.ctl = .idle ∧
      s.totalHashes = UInt64.ofNat s.completed := by
  have hreplay : (replay step anyLabel (init 1 Unit) oneChunkLabels).any
      (fun s => s.completed = 16 ∧ s.running = false ∧ s.ctl = .idle) =
        true := by
    decide +kernel
  obtain ⟨s, hs, hstopped⟩ := (Option.any_eq_true _ _).mp hreplay
  obtain ⟨hcompleted, hrunning, hctl⟩ := of_decide_eq_true hstopped
  have hrun := run_of_replay hs
  obtain ⟨-, htotal⟩ := hash_count_exact hrun
  refine ⟨s, hrun, hcompleted, hrunning, hctl, htotal hrunning ?_ ?_⟩
  · simp [hctl]
  · simp [hctl]

/-- A job that a digest can meet or miss. -/
def halfOpenJob : MiningJob :=
  { openMoneroJob with target := Hash256.fill 0x7f }

/-- Up to the return of the first hash. -/
def oneHashLabels (digest : Hash256) : List (Label 1 Unit) :=
  [.call (.setWork halfOpenJob), .ctl, .call .start, .ctl, .ctl,
    .worker soleWorker, .made soleWorker ()] ++
    List.replicate 9 (.worker soleWorker) ++ [.hashed soleWorker digest]

/-- When its first hash has just returned, whether the digest is a share or
misses the target, a worker has computed a hash that is in neither count. -/
theorem returned_hash_uncounted :
    (∃ s : State 1 Unit,
      Run step anyLabel (init 1 Unit) (oneHashLabels (Hash256.fill 7)) s ∧
      (s.workers soleWorker).pc = .sharing 0 (Hash256.fill 7) ∧
      s.hashes + UInt64.ofNat s.pendingDone ≠ UInt64.ofNat s.completed) ∧
    ∃ s : State 1 Unit,
      Run step anyLabel (init 1 Unit) (oneHashLabels (Hash256.fill 0xff)) s ∧
      (s.workers soleWorker).pc = .missed 0 ∧
      s.hashes + UInt64.ofNat s.pendingDone ≠ UInt64.ofNat s.completed := by
  have hmet : (replay step anyLabel (init 1 Unit)
      (oneHashLabels (Hash256.fill 7))).any (fun s =>
        (s.workers soleWorker).pc = .sharing 0 (Hash256.fill 7) ∧
        s.hashes + UInt64.ofNat s.pendingDone ≠ UInt64.ofNat s.completed) =
        true := by
    decide +kernel
  have hmissed : (replay step anyLabel (init 1 Unit)
      (oneHashLabels (Hash256.fill 0xff))).any (fun s =>
        (s.workers soleWorker).pc = .missed 0 ∧
        s.hashes + UInt64.ofNat s.pendingDone ≠ UInt64.ofNat s.completed) =
        true := by
    decide +kernel
  obtain ⟨s, hs, hshared⟩ := (Option.any_eq_true _ _).mp hmet
  obtain ⟨t, ht, hmiss⟩ := (Option.any_eq_true _ _).mp hmissed
  exact ⟨⟨s, run_of_replay hs, of_decide_eq_true hshared⟩,
    ⟨t, run_of_replay ht, of_decide_eq_true hmiss⟩⟩

end MinerPool

end Minerby
