/-
What holds of the pool in every run, whatever the interleaving: threads exist
only between `start` and `stop`, `in_flight_` counts the workers that have
announced themselves, no job is newer than the latest call, and a worker's blob
is its job's with the nonce spliced in.
-/
import Minerby.WorkerTurn

namespace Minerby

namespace MinerPool

variable {threads : UInt32} {H : Type}

/-- Between the announcement in `in_flight_` and its withdrawal. -/
def Pc.announced : Pc → Bool
  | .recheck => true
  | .abort => true
  | .chunk _ => true
  | .hashing _ => true
  | .sharing _ _ => true
  | .missed _ => true
  | .leave _ => true
  | _ => false

def State.announcedCount (s : State threads H) : Nat :=
  ∑ i, (s.workers i).pc.announced.toNat

/-- The worker's blob differs from its job's at most in the nonce. -/
structure BlobOf (w : Worker H) (p : JobPtr) : Prop where
  blank : ∀ nonce, spliceNonce w.blob p.job.nonceOffset nonce =
    spliceNonce p.job.blob p.job.nonceOffset nonce
  spliced : w.pc.trying = true →
    w.blob = spliceNonce p.job.blob p.job.nonceOffset w.nonce

/-- The invariant of every run of the pool. -/
structure Sound (s : State threads H) : Prop where
  stopped : s.running = false →
    s.ctl = .stopping ∨ s.ctl = .joining ∨ ∀ i, (s.workers i).pc = .unborn
  starting : ∀ next, s.ctl = .starting next → s.running = true ∧
    ∀ i, next ≤ i.val → (s.workers i).pc = .unborn
  counted : s.inFlight.toNat = s.announcedCount
  work_le : ∀ p, s.work = some p → p.serial ≤ s.updates
  ctl_le : ∀ p, s.ctl = .settingWork p → p.serial ≤ s.updates
  held_le : ∀ i p, (s.workers i).work = some p → p.serial ≤ s.updates
  share_le : ∀ i p nonce digest, Event.share i p nonce digest ∈ s.log →
    p.serial ≤ s.updates
  blob : ∀ i p, (s.workers i).work = some p → BlobOf (s.workers i) p

theorem Sound.init : Sound (init threads H) := by
  constructor <;> simp [MinerPool.init, State.announcedCount, Pc.announced]

/-- How a sum over the workers changes when one worker does. -/
theorem sum_workers_update {s s' : State threads H} {i : Fin threads.toNat}
    (weight : Worker H → Nat)
    (hothers : ∀ j, j ≠ i → s'.workers j = s.workers j) :
    ∑ j, weight (s'.workers j) + weight (s.workers i) =
      ∑ j, weight (s.workers j) + weight (s'.workers i) := by
  rw [← Finset.add_sum_erase _ _ (Finset.mem_univ i),
    ← Finset.add_sum_erase Finset.univ
      (fun j => weight (s.workers j)) (Finset.mem_univ i)]
  have hrest : ∑ j ∈ Finset.univ.erase i, weight (s'.workers j) =
      ∑ j ∈ Finset.univ.erase i, weight (s.workers j) := by
    refine Finset.sum_congr rfl fun j hj => ?_
    rw [hothers j (Finset.ne_of_mem_erase hj)]
  rw [hrest]
  omega

theorem announcedCount_le (s : State threads H) :
    s.announcedCount ≤ threads.toNat := by
  have hle := Finset.sum_le_card_nsmul Finset.univ
    (fun i => (s.workers i).pc.announced.toNat) 1
    (fun i _ => Bool.toNat_le _)
  simpa [State.announcedCount] using hle

/-- When `in_flight_` is 0 no worker is in a chunk. -/
theorem Sound.none_announced {s : State threads H} (hsound : Sound s)
    (hzero : s.inFlight = 0) (i : Fin threads.toNat) :
    (s.workers i).pc.announced = false := by
  have hcount := hsound.counted
  rw [hzero] at hcount
  have hsum := Finset.sum_eq_zero_iff.mp hcount.symm i (Finset.mem_univ i)
  simpa using hsum

theorem Worker.afterCheck_announced (w : Worker H) :
    w.afterCheck.pc.announced = false :=
  w.test_afterCheck Pc.announced rfl rfl

theorem Worker.advance_announced (w : Worker H) (threads : UInt32)
    (done : Nat) : (w.advance threads done).pc.announced = true :=
  w.test_advance threads done Pc.announced rfl rfl

theorem toNat_sub_one {n : UInt32} (hpos : 1 ≤ n.toNat) :
    (n - 1).toNat = n.toNat - 1 := by
  have hle : 1 ≤ n := UInt32.le_iff_toNat_le.mpr hpos
  exact UInt32.toNat_sub_of_le n 1 hle

/-- `in_flight_` keeps counting the announcements over a turn. -/
theorem Turned.counted {s s' : State threads H} {i : Fin threads.toNat}
    {label : Label threads H} (hturned : Turned s s' i label)
    (hcounted : s.inFlight.toNat = s.announcedCount) :
    s'.inFlight.toNat = s'.announcedCount := by
  obtain ⟨w, inFlight, event, hturn, hw, hinFlight, -⟩ := hturned.turn
  have hupdate : s'.announcedCount + _ = s.announcedCount + _ :=
    sum_workers_update (fun w => w.pc.announced.toNat) hturned.others
  have hle := announcedCount_le s'
  have hthreads := threads.toNat_lt
  rw [hw] at hupdate
  rw [hinFlight]
  cases hturn with
  | enter hpc =>
      simp only [hpc, Pc.announced, Bool.toNat_false, Bool.toNat_true] at hupdate
      rw [UInt32.toNat_add, hcounted]
      change (_ + 1) % 2 ^ 32 = _
      omega
  | abort hpc =>
      simp only [hpc, Pc.announced, Bool.toNat_false, Bool.toNat_true] at hupdate
      rw [toNat_sub_one (by omega), hcounted]
      omega
  | leave done hpc =>
      simp only [hpc, Pc.announced, Bool.toNat_false, Bool.toNat_true] at hupdate
      rw [toNat_sub_one (by omega), hcounted]
      omega
  | keepWork hpc same =>
      rw [Worker.afterCheck_announced, hpc] at hupdate
      simp only [Pc.announced] at hupdate
      omega
  | pickup gen hpc =>
      rw [Worker.afterCheck_announced, hpc] at hupdate
      simp only [Pc.announced] at hupdate
      omega
  | next done hpc =>
      rw [Worker.advance_announced, hpc] at hupdate
      simp only [Pc.announced] at hupdate
      omega
  | share done p digest hpc hwork =>
      rw [Worker.advance_announced, hpc] at hupdate
      simp only [Pc.announced] at hupdate
      omega
  | _ =>
      simp_all only [Pc.announced]
      omega

/-- Splicing a nonce over another one leaves the new one. -/
theorem spliceNonce_spliceNonce (blob : List UInt8) (offset : UInt32)
    (first second : UInt32) :
    spliceNonce (spliceNonce blob offset first) offset second =
      spliceNonce blob offset second :=
  writeAt_writeAt blob offset.toNat (le32 first) (le32 second) rfl

/-- A worker that keeps its job and blob and is not trying a nonce. -/
theorem BlobOf.resting {w w' : Worker H} {p : JobPtr} (hblob : BlobOf w p)
    (heq : w'.blob = w.blob) (htrying : w'.pc.trying = false) :
    BlobOf w' p := by
  refine ⟨heq ▸ hblob.blank, fun htry => ?_⟩
  rw [htrying] at htry
  cases htry

theorem Turned.blob {s s' : State threads H} {i : Fin threads.toNat}
    {label : Label threads H} (hturned : Turned s s' i label)
    (hblob : ∀ p, (s.workers i).work = some p → BlobOf (s.workers i) p) :
    ∀ p, (s'.workers i).work = some p → BlobOf (s'.workers i) p := by
  obtain ⟨w, inFlight, event, hturn, hw, -, -⟩ := hturned.turn
  rw [hw]
  intro p hwork
  cases hturn with
  | keepWork hpc same =>
      exact (hblob p hwork).resting rfl (Worker.afterCheck_trying _)
  | pickup gen hpc =>
      have hwork' : s.work = some p := by
        rw [← Worker.work_take (s.workers i) i gen s.work]
        exact hwork
      rw [hwork']
      refine ⟨fun nonce => rfl, fun htry => ?_⟩
      rw [Worker.afterCheck_trying] at htry
      cases htry
  | hash done q hpc hq =>
      obtain rfl := Option.some.inj (hq.symm.trans hwork)
      have hold := hblob q hq
      refine ⟨fun nonce => ?_, fun _ => hold.blank _⟩
      exact (spliceNonce_spliceNonce _ _ _ _).trans (hold.blank nonce)
  | found done q digest hpc hq hmeets =>
      have hold := hblob p hwork
      exact ⟨hold.blank, fun _ => hold.spliced (by rw [hpc]; rfl)⟩
  | missed done q digest hpc hq hmeets =>
      have hold := hblob p hwork
      exact ⟨hold.blank, fun _ => hold.spliced (by rw [hpc]; rfl)⟩
  | next done hpc =>
      exact (hblob p hwork).resting rfl (Worker.advance_trying _ _ _)
  | share done q digest hpc hq =>
      exact (hblob p hwork).resting rfl (Worker.advance_trying _ _ _)
  | _ => exact (hblob p hwork).resting rfl rfl

/-- The job a worker holds, or reports, is one it held before or the pool's. -/
theorem Turned.held {s s' : State threads H} {i : Fin threads.toNat}
    {label : Label threads H} (hturned : Turned s s' i label) (p : JobPtr)
    (hwork : (s'.workers i).work = some p) :
    (s.workers i).work = some p ∨ s.work = some p := by
  obtain ⟨w, inFlight, event, hturn, hw, -, -⟩ := hturned.turn
  rw [hw] at hwork
  cases hturn with
  | pickup gen hpc =>
      refine Or.inr ?_
      rw [← Worker.work_take (s.workers i) i gen s.work]
      exact hwork
  | _ => exact Or.inl hwork

theorem Turned.share_mem {s s' : State threads H} {i j : Fin threads.toNat}
    {label : Label threads H} {p : JobPtr} {nonce : UInt32} {digest : Hash256}
    (hturned : Turned s s' i label)
    (hmem : Event.share j p nonce digest ∈ s'.log) :
    Event.share j p nonce digest ∈ s.log ∨
      (j = i ∧ label = .worker i ∧ (s.workers i).work = some p ∧
        (s.workers i).nonce = nonce ∧
        ∃ done, (s.workers i).pc = .sharing done digest) := by
  obtain ⟨w, inFlight, event, hturn, -, -, hlog⟩ := hturned.turn
  rw [hlog] at hmem
  cases hturn with
  | share done q digest' hpc hq =>
      simp only [Option.toList_some, List.singleton_append, List.mem_cons,
        Event.share.injEq] at hmem
      rcases hmem with ⟨rfl, rfl, rfl, rfl⟩ | hmem
      · exact Or.inr ⟨rfl, rfl, hq, rfl, done, hpc⟩
      · exact Or.inl hmem
  | _ => exact Or.inl (by simpa using hmem)

theorem Sound.turned {s s' : State threads H} {i : Fin threads.toNat}
    {label : Label threads H} (hsound : Sound s)
    (hturned : Turned s s' i label) : Sound s' := by
  obtain ⟨w, inFlight, event, hturn, -, -, -⟩ := hturned.turn
  have hborn := hturn.born
  constructor
  · rw [hturned.running, hturned.ctl]
    intro hrunning
    rcases hsound.stopped hrunning with hctl | hctl | hall
    · exact Or.inl hctl
    · exact Or.inr (Or.inl hctl)
    · exact absurd (hall i) hborn
  · rw [hturned.running, hturned.ctl]
    intro next hctl
    obtain ⟨hrunning, hunborn⟩ := hsound.starting next hctl
    refine ⟨hrunning, fun j hj => ?_⟩
    by_cases hji : j = i
    · subst hji
      exact absurd (hunborn j hj) hborn
    · rw [hturned.others j hji]
      exact hunborn j hj
  · exact hturned.counted hsound.counted
  · rw [hturned.work, hturned.updates]
    exact hsound.work_le
  · rw [hturned.ctl, hturned.updates]
    exact hsound.ctl_le
  · rw [hturned.updates]
    intro j p hwork
    by_cases hji : j = i
    · subst hji
      rcases hturned.held p hwork with hheld | hpool
      · exact hsound.held_le j p hheld
      · exact hsound.work_le p hpool
    · rw [hturned.others j hji] at hwork
      exact hsound.held_le j p hwork
  · rw [hturned.updates]
    intro j p nonce digest hmem
    rcases hturned.share_mem hmem with hold | ⟨-, -, hwork, -, -⟩
    · exact hsound.share_le j p nonce digest hold
    · exact hsound.held_le i p hwork
  · intro j p hwork
    by_cases hji : j = i
    · subst hji
      exact hturned.blob (hsound.blob j) p hwork
    · rw [hturned.others j hji] at hwork ⊢
      exact hsound.blob j p hwork

/-- Outside `stop` a pool that is not running has no threads. -/
theorem Sound.unborn {s : State threads H} (hsound : Sound s)
    (hstop : s.ctl ≠ .stopping) (hjoin : s.ctl ≠ .joining)
    (hrunning : s.running = false) (i : Fin threads.toNat) :
    (s.workers i).pc = .unborn := by
  rcases hsound.stopped hrunning with h | h | hall
  · exact absurd h hstop
  · exact absurd h hjoin
  · exact hall i

/-- Entering a call keeps the threads accounted for. -/
theorem Sound.call_threads {s s' : State threads H} {call : Call}
    (hsound : Sound s) (hcalled : Called s s' call) :
    (s'.running = false → s'.ctl = .stopping ∨ s'.ctl = .joining ∨
        ∀ i, (s'.workers i).pc = .unborn) ∧
      ∀ next, s'.ctl = .starting next → s'.running = true ∧
        ∀ i, next ≤ i.val → (s'.workers i).pc = .unborn := by
  have hunborn := hsound.unborn (by simp [hcalled.idle])
    (by simp [hcalled.idle])
  rw [hcalled.workers, hcalled.running, hcalled.ctl]
  cases call with
  | start =>
      refine ⟨by rintro ⟨⟩, fun next hctl => ⟨rfl, fun i _ => hunborn ?_ i⟩⟩
      cases hrunning : s.running with
      | false => rfl
      | true => simp [Call.entry, hrunning] at hctl
  | stop =>
      cases hrunning : s.running with
      | true =>
          simp only [Call.entry, hrunning, ↓reduceIte]
          exact ⟨fun _ => Or.inl trivial, by rintro _ ⟨⟩⟩
      | false =>
          simp only [Call.entry, hrunning, Bool.false_eq_true, ↓reduceIte]
          exact ⟨fun _ => Or.inr (Or.inr (hunborn hrunning)),
            by rintro _ ⟨⟩⟩
  | _ =>
      exact ⟨fun hrunning => Or.inr (Or.inr (hunborn hrunning)),
        by rintro _ ⟨⟩⟩

/-- A call raises the number of updates at most, to the number of the job it
is about to install. -/
theorem Called.serials {s s' : State threads H} {call : Call}
    (hcalled : Called s s' call) :
    s.updates ≤ s'.updates ∧
      ∀ p, s'.ctl = .settingWork p → p.serial = s'.updates := by
  constructor
  · rw [hcalled.updates]
    split
    · exact Nat.le_succ _
    · exact le_refl _
  · intro p hctl
    obtain ⟨job, rfl, rfl⟩ := hcalled.settingWork hctl
    exact hcalled.updates.symm

theorem Sound.call {s s' : State threads H} {call : Call} (hsound : Sound s)
    (hcalled : Called s s' call) : Sound s' := by
  obtain ⟨hupdates, hserial⟩ := hcalled.serials
  obtain ⟨hstopped, hstarting⟩ := hsound.call_threads hcalled
  refine ⟨hstopped, hstarting, ?_, ?_, ?_, ?_, ?_, ?_⟩
  · rw [hcalled.inFlight, State.announcedCount, hcalled.workers]
    exact hsound.counted
  · rw [hcalled.work]
    exact fun p hp => le_trans (hsound.work_le p hp) hupdates
  · exact fun p hctl => le_of_eq (hserial p hctl)
  · rw [hcalled.workers]
    exact fun i p hp => le_trans (hsound.held_le i p hp) hupdates
  · intro i p nonce digest hmem
    rw [hcalled.log] at hmem
    rcases List.mem_cons.mp hmem with hnew | hold
    · cases hnew
    · exact le_trans (hsound.share_le i p nonce digest hold) hupdates
  · rw [hcalled.workers]
    exact hsound.blob

/-- A step inside a call keeps the threads accounted for. -/
theorem Sound.ctl_threads {s s' : State threads H} (hsound : Sound s)
    (hstep : ctlStep s = some s') :
    (s'.running = false → s'.ctl = .stopping ∨ s'.ctl = .joining ∨
        ∀ i, (s'.workers i).pc = .unborn) ∧
      (∀ next, s'.ctl = .starting next → s'.running = true ∧
        ∀ i, next ≤ i.val → (s'.workers i).pc = .unborn) ∧
      ∀ i, s'.workers i = s.workers i ∨
        (s.workers i).pc.announced = false ∧
          (s'.workers i).pc.announced = false := by
  cases ctlStep_turn hstep with
  | create next lt ctl =>
      obtain ⟨hrunning, hunborn⟩ := hsound.starting next ctl
      refine ⟨fun h => ?_, fun next' hnext' => ⟨hrunning, fun i hi => ?_⟩,
        fun i => ?_⟩
      · rw [show s.running = false from h] at hrunning
        cases hrunning
      · obtain rfl := Ctl.starting.inj hnext'
        have hne : i ≠ ⟨next, lt⟩ := by
          rintro rfl
          simp only at hi
          omega
        change ((s.put ⟨next, lt⟩ { pc := .boot }).workers i).pc = .unborn
        rw [put_workers_of_ne _ _ hne]
        exact hunborn i (by omega)
      · by_cases hi : i = ⟨next, lt⟩
        · subst hi
          refine Or.inr ⟨?_, ?_⟩
          · rw [hunborn _ (le_refl _)]
            rfl
          · change ((s.put _ _).workers _).pc.announced = false
            rw [put_workers_self]
            rfl
        · exact Or.inl (put_workers_of_ne _ _ hi)
  | unpause ctl =>
      exact ⟨fun _ => Or.inr (Or.inl rfl), by simp, fun i => Or.inl rfl⟩
  | join ctl exited =>
      refine ⟨fun _ => Or.inr (Or.inr fun i => rfl), by simp,
        fun i => Or.inr ⟨?_, rfl⟩⟩
      rw [exited i]
      rfl
  | wait ctl busy =>
      exact ⟨hsound.stopped, hsound.starting, fun i => Or.inl rfl⟩
  | _ =>
      refine ⟨fun h => Or.inr (Or.inr (hsound.unborn ?_ ?_ h)), by simp,
        fun i => Or.inl rfl⟩ <;> simp_all

theorem Sound.ctl {s s' : State threads H} (hsound : Sound s)
    (hstep : ctlStep s = some s') : Sound s' := by
  obtain ⟨hlog, hinFlight, -, -, -, hworkers⟩ := ctlStep_frame hstep
  obtain ⟨hupdates, hctl, hwork⟩ := ctlStep_work hstep
  obtain ⟨hstopped, hstarting, hannounced⟩ := hsound.ctl_threads hstep
  -- a worker that the call touches holds no job afterwards
  have hheld : ∀ i p, (s'.workers i).work = some p →
      s'.workers i = s.workers i := by
    intro i p hp
    rcases hworkers i with hsame | hboot | ⟨-, hjoined⟩
    · exact hsame
    · rw [hboot] at hp
      cases hp
    · rw [hjoined] at hp
      cases hp
  refine ⟨hstopped, hstarting, ?_, ?_, ?_, ?_, ?_, ?_⟩
  · rw [hinFlight, hsound.counted, State.announcedCount, State.announcedCount]
    refine Finset.sum_congr rfl fun i _ => ?_
    rcases hannounced i with hsame | ⟨hold, hnew⟩
    · rw [hsame]
    · rw [hold, hnew]
  · rw [hupdates]
    intro p hp
    rcases hwork with hsame | hnone | ⟨q, hq, hset⟩
    · exact hsound.work_le p (hsame ▸ hp)
    · rw [hnone] at hp
      cases hp
    · obtain rfl := Option.some.inj (hset.symm.trans hp)
      exact hsound.ctl_le q hq
  · exact fun p h => absurd h (hctl p)
  · rw [hupdates]
    intro i p hp
    rw [hheld i p hp] at hp
    exact hsound.held_le i p hp
  · rw [hupdates, hlog]
    exact hsound.share_le
  · intro i p hp
    have hsame := hheld i p hp
    rw [hsame] at hp ⊢
    exact hsound.blob i p hp

theorem Sound.step {s s' : State threads H} {label : Label threads H}
    (hsound : Sound s) (hstep : step s label = some s') : Sound s' := by
  cases step_acted hstep with
  | turn i turned => exact hsound.turned turned
  | call call called => exact hsound.call called
  | ctl taken => exact hsound.ctl taken

end MinerPool

end Minerby
