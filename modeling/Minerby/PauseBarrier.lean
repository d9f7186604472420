/-
The handshake of `pause`.  A worker announces itself in `in_flight_` and then
tests `paused_` again; `pause` sets the flag and then waits for the counter.
-/
import Minerby.PoolSound

namespace Minerby

namespace MinerPool

variable {threads : UInt32} {H : Type}

/-- Inside a chunk, after the second test of `paused_`. -/
def Pc.inChunk : Pc → Bool
  | .chunk _ => true
  | .hashing _ => true
  | .sharing _ _ => true
  | .missed _ => true
  | .leave _ => true
  | _ => false

/-- The step with which `pause` returns. -/
structure PauseReturns (s s' : State threads H) : Prop where
  inside : s.ctl = .pausing ∨ s.ctl = .draining
  step : ctlStep s = some s'
  returned : s'.ctl = .idle

/-- Any step but a call of `resume` or `stop`. -/
def NotResumed (_ : State threads H) : Label threads H → Prop
  | .call .resume => False
  | .call .stop => False
  | _ => True

instance (s : State threads H) (label : Label threads H) :
    Decidable (NotResumed s label) :=
  match label with
  | .call .resume => .isFalse id
  | .call .stop => .isFalse id
  | .call .start => .isTrue trivial
  | .call (.setWork _) => .isTrue trivial
  | .call .clearWork => .isTrue trivial
  | .call .pause => .isTrue trivial
  | .call .rebuildHashers => .isTrue trivial
  | .ctl => .isTrue trivial
  | .worker _ => .isTrue trivial
  | .made _ _ => .isTrue trivial
  | .hashed _ _ => .isTrue trivial

theorem inChunk_of_announced {pc : Pc} (hout : pc.announced = false) :
    pc.inChunk = false := by
  cases pc <;> first | rfl | cases hout

/-- Under a pause no worker gets into a chunk. -/
theorem Turned.inChunk_of_paused {s s' : State threads H}
    {i : Fin threads.toNat} {label : Label threads H}
    (hturned : Turned s s' i label) (hpaused : s.paused = true)
    (hout : (s.workers i).pc.inChunk = false) :
    (s'.workers i).pc.inChunk = false := by
  obtain ⟨w, inFlight, event, hturn, hw, -, -⟩ := hturned.turn
  rw [hw]
  cases hturn with
  | goOn hpc paused =>
      rw [hpaused] at paused
      cases paused
  | keepWork hpc same =>
      exact (s.workers i).test_afterCheck Pc.inChunk rfl rfl
  | pickup gen hpc =>
      exact ((s.workers i).take i gen s.work).test_afterCheck Pc.inChunk rfl rfl
  | hash done p hpc hwork =>
      rw [hpc] at hout
      cases hout
  | found done p digest hpc hwork hmeets =>
      rw [hpc] at hout
      cases hout
  | missed done p digest hpc hwork hmeets =>
      rw [hpc] at hout
      cases hout
  | share done p digest hpc hwork =>
      rw [hpc] at hout
      cases hout
  | next done hpc =>
      rw [hpc] at hout
      cases hout
  | _ => rfl

/-- While `pause` waits the flag is set. -/
def PausedInside (s : State threads H) : Prop :=
  s.ctl = .pausing ∨ s.ctl = .draining → s.paused = true

theorem PausedInside.step {s s' : State threads H} {label : Label threads H}
    (hinside : PausedInside s) (hstep : step s label = some s') :
    PausedInside s' := by
  cases step_acted hstep with
  | turn i turned =>
      unfold PausedInside
      rw [turned.ctl, turned.paused]
      exact hinside
  | call call called =>
      intro hctl
      rw [called.paused]
      rw [called.ctl] at hctl
      cases call with
      | pause => rfl
      | start => cases hrunning : s.running <;> simp_all [Call.entry]
      | stop => cases hrunning : s.running <;> simp_all [Call.entry]
      | _ => simp [Call.entry] at hctl
  | ctl taken =>
      intro hctl
      cases ctlStep_turn taken with
      | drain ctl running => exact hinside (Or.inl ctl)
      | wait ctl busy => exact hinside (Or.inr ctl)
      | _ => simp at hctl

/-- What `pause` has established when it returns, and what lasts until the next
`resume` or `stop`. -/
structure Quiet (s : State threads H) : Prop where
  paused : s.paused = true
  not_stopping : s.ctl ≠ .stopping
  outside : ∀ i, (s.workers i).pc.inChunk = false

/-- `pause` returns when nobody is announced, or when there are no threads. -/
theorem PauseReturns.quiet {s s' : State threads H}
    (hreturns : PauseReturns s s') (hsound : Sound s)
    (hinside : PausedInside s) : Quiet s' := by
  have hpaused := hinside hreturns.inside
  have hreturned := hreturns.returned
  cases ctlStep_turn hreturns.step with
  | skip ctl running =>
      refine ⟨hpaused, by simp, fun i => ?_⟩
      have hunborn := hsound.unborn (by simp [ctl]) (by simp [ctl]) running i
      change (s.workers i).pc.inChunk = false
      rw [hunborn]
      rfl
  | drained ctl zero =>
      refine ⟨hpaused, by simp, fun i => ?_⟩
      exact inChunk_of_announced (hsound.none_announced zero i)
  | drain ctl running => cases hreturned
  | wait ctl busy =>
      rw [ctl] at hreturned
      cases hreturned
  | _ =>
      have hctl := hreturns.inside
      simp_all

theorem Quiet.turned {s s' : State threads H} {i : Fin threads.toNat}
    {label : Label threads H} (hquiet : Quiet s)
    (hturned : Turned s s' i label) : Quiet s' := by
  refine ⟨?_, ?_, fun j => ?_⟩
  · rw [hturned.paused]
    exact hquiet.paused
  · rw [hturned.ctl]
    exact hquiet.not_stopping
  · by_cases hj : j = i
    · subst hj
      exact hturned.inChunk_of_paused hquiet.paused (hquiet.outside j)
    · rw [hturned.others j hj]
      exact hquiet.outside j

theorem Quiet.step {s s' : State threads H} {label : Label threads H}
    (hquiet : Quiet s) (hok : NotResumed s label)
    (hstep : step s label = some s') : Quiet s' := by
  cases step_acted hstep with
  | turn i turned => exact hquiet.turned turned
  | call call called =>
      refine ⟨?_, ?_, fun i => ?_⟩
      · rw [called.paused]
        cases call with
        | resume => cases hok
        | pause => rfl
        | _ => exact hquiet.paused
      · rw [called.ctl]
        cases call with
        | stop => cases hok
        | start => cases hrunning : s.running <;> simp [Call.entry, hrunning]
        | _ => simp [Call.entry]
      · rw [called.workers]
        exact hquiet.outside i
  | ctl taken =>
      obtain ⟨-, -, -, -, -, hworkers⟩ := ctlStep_frame taken
      refine ⟨?_, ?_, fun i => ?_⟩
      · cases ctlStep_turn taken with
        | unpause ctl => exact absurd ctl hquiet.not_stopping
        | _ => exact hquiet.paused
      · cases ctlStep_turn taken with
        | wait ctl busy => exact hquiet.not_stopping
        | _ => simp
      · rcases hworkers i with hsame | hboot | ⟨-, hjoined⟩
        · rw [hsame]
          exact hquiet.outside i
        · rw [hboot]
          rfl
        · rw [hjoined]
          rfl

/-- Under a pause no step begins a hash. -/
theorem Quiet.no_hashBegin {s s' : State threads H} {label : Label threads H}
    (hquiet : Quiet s) (hstep : MinerPool.step s label = some s') :
    ∃ events, s'.log = events ++ s.log ∧
      ∀ i p nonce, Event.hashBegin i p nonce ∉ events := by
  cases step_acted hstep with
  | turn i turned =>
      obtain ⟨w, inFlight, event, hturn, -, -, hlog⟩ := turned.turn
      refine ⟨event.toList, hlog, fun j p nonce hmem => ?_⟩
      have hout := hquiet.outside i
      cases hturn with
      | hash done q hpc hwork =>
          rw [hpc] at hout
          cases hout
      | _ => simp at hmem
  | call call called => exact ⟨[.called call], called.log, by simp⟩
  | ctl taken => exact ⟨[], (ctlStep_frame taken).1, by simp⟩

theorem Quiet.run {s s' : State threads H} {labels : List (Label threads H)}
    (hquiet : Quiet s) (hrun : Run MinerPool.step NotResumed s labels s') :
    Quiet s' ∧ ∃ events, s'.log = events ++ s.log ∧
      ∀ i p nonce, Event.hashBegin i p nonce ∉ events := by
  induction hrun with
  | nil => exact ⟨hquiet, [], rfl, by simp⟩
  | snoc label run allowed taken ih =>
      obtain ⟨hmid, older, holder, hnone⟩ := ih
      obtain ⟨newer, hnewer, hnone'⟩ := hmid.no_hashBegin taken
      refine ⟨hmid.step allowed taken, newer ++ older, ?_, fun i p nonce => ?_⟩
      · rw [hnewer, holder, List.append_assoc]
      · rw [List.mem_append, not_or]
        exact ⟨hnone' i p nonce, hnone i p nonce⟩

/-- A worker about to withdraw its announcement is counted. -/
theorem Sound.inFlight_pos {s : State threads H} (hsound : Sound s)
    {i : Fin threads.toNat} (hannounced : (s.workers i).pc.announced = true) :
    0 < s.inFlight := by
  have hcount := hsound.counted
  have hterm : (s.workers i).pc.announced.toNat ≤ s.announcedCount :=
    Finset.single_le_sum (f := fun j => (s.workers j).pc.announced.toNat)
      (fun _ _ => Nat.zero_le _) (Finset.mem_univ i)
  rw [hannounced] at hterm
  rw [UInt32.lt_iff_toNat_lt, hcount]
  exact hterm

/-- In every run `in_flight_` counts the workers between their increment and
their decrement, so no decrement underflows; and from the step with which
`pause` returns up to the next call of `resume` or `stop`, no worker is inside
`hash` and none begins one. -/
theorem pause_excludes_hashing (threads : UInt32) (H : Type) :
    (∀ labels (s : State threads H),
      Run step anyLabel (init threads H) labels s →
        s.inFlight.toNat = s.announcedCount ∧
          ∀ i, (s.workers i).pc.announced = true → 0 < s.inFlight) ∧
      ∀ before after (s₀ s₁ s₂ : State threads H),
        Run step anyLabel (init threads H) before s₀ →
        PauseReturns s₀ s₁ → Run step NotResumed s₁ after s₂ →
          (∀ i done, (s₂.workers i).pc ≠ .hashing done) ∧
            ∃ events, s₂.log = events ++ s₁.log ∧
              ∀ i p nonce, Event.hashBegin i p nonce ∉ events := by
  have hsound : ∀ labels (s : State threads H),
      Run step anyLabel (init threads H) labels s → Sound s :=
    fun _ _ hrun => hrun.invariant
      (fun _ _ _ hinv _ hstep => Sound.step hinv hstep) Sound.init
  refine ⟨fun labels s hrun => ?_, ?_⟩
  · have hs := hsound labels s hrun
    exact ⟨hs.counted, fun i hannounced => hs.inFlight_pos hannounced⟩
  · intro before after s₀ s₁ s₂ hbefore hreturns hafter
    have hinside : PausedInside s₀ :=
      hbefore.invariant (fun _ _ _ hinv _ hstep => PausedInside.step hinv hstep)
        (by simp [PausedInside, init])
    have hquiet := hreturns.quiet (hsound before s₀ hbefore) hinside
    obtain ⟨hquiet', hevents⟩ := hquiet.run hafter
    refine ⟨fun i done hpc => ?_, hevents⟩
    have hout := hquiet'.outside i
    rw [hpc] at hout
    cases hout

/-- A blob of four bytes, all of them the nonce. -/
def bareJob : MiningJob := { blob := [0, 0, 0, 0] }

/-- A worker has announced itself when `pause` is called: it finds the flag set
and withdraws, and `pause` is about to see the counter at 0. -/
def pauseLabels : List (Label 1 Unit) :=
  [.call (.setWork bareJob), .ctl, .call .start, .ctl, .ctl,
    .worker soleWorker, .made soleWorker (), .worker soleWorker,
    .worker soleWorker, .worker soleWorker, .worker soleWorker,
    .worker soleWorker, .worker soleWorker, .worker soleWorker,
    .call .pause, .ctl, .ctl, .worker soleWorker, .worker soleWorker]

/-- The hashers are replaced while the worker keeps finding the flag set. -/
def pausedLabels : List (Label 1 Unit) :=
  [.call .rebuildHashers, .worker soleWorker, .worker soleWorker]

/-- The barrier at work: `pause` waits for an announced worker, returns, and
the worker does not hash. -/
theorem pauseLabels_exclude_hashing :
    ∃ s₀ s₁ s₂ : State 1 Unit,
      Run step anyLabel (init 1 Unit) pauseLabels s₀ ∧
        PauseReturns s₀ s₁ ∧ Run step NotResumed s₁ pausedLabels s₂ ∧
        s₀.inFlight.toNat = s₀.announcedCount ∧
        ∀ i done, (s₂.workers i).pc ≠ .hashing done := by
  let s₀ := (replay step anyLabel (init 1 Unit) pauseLabels).get rfl
  have hbefore : Run step anyLabel (init 1 Unit) pauseLabels s₀ :=
    run_of_replay rfl
  have hreturns : PauseReturns s₀ ((ctlStep s₀).get rfl) :=
    ⟨Or.inr rfl, rfl, rfl⟩
  have hafter : Run step NotResumed ((ctlStep s₀).get rfl) pausedLabels
      ((replay step NotResumed ((ctlStep s₀).get rfl) pausedLabels).get rfl) :=
    run_of_replay rfl
  obtain ⟨hcounted, hexcludes⟩ := pause_excludes_hashing 1 Unit
  exact ⟨s₀, _, _, hbefore, hreturns, hafter,
    (hcounted pauseLabels s₀ hbefore).1,
    (hexcludes _ _ _ _ _ hbefore hreturns hafter).1⟩

end MinerPool

end Minerby
