/-
Everything a step of a worker can do, said once.  The invariants of the pool
are proved by cases on a turn, not on the step function.
-/
import Minerby.MinerPool

namespace Minerby

namespace MinerPool

variable {threads : UInt32} {H : Type}

/-- A turn of worker `i` with a label: the worker afterwards, the in-flight
count afterwards and the event logged, if any. -/
inductive Turn (s : State threads H) (i : Fin threads.toNat) :
    Label threads H → Worker H → UInt32 → Option (Event threads H) → Prop
  | boot (pc : (s.workers i).pc = .boot) :
      Turn s i (.worker i) { s.workers i with pc := .making .boot } s.inFlight
        (some (.makeBegin i))
  | made (build : Build) (hasher : H) (pc : (s.workers i).pc = .making build) :
      Turn s i (.made i hasher)
        { s.workers i with
          hasher := some hasher
          pc := .loadHasherGen build }
        s.inFlight (some (.made i hasher))
  | booted (pc : (s.workers i).pc = .loadHasherGen .boot) :
      Turn s i (.worker i)
        { s.workers i with localHasherGen := s.hasherGen, pc := .head }
        s.inFlight none
  | rebuilt (pc : (s.workers i).pc = .loadHasherGen .rebuild) :
      Turn s i (.worker i)
        { s.workers i with localHasherGen := s.hasherGen, pc := .loadWorkGen }
        s.inFlight none
  | loop (pc : (s.workers i).pc = .head) (running : s.running = true) :
      Turn s i (.worker i) { s.workers i with pc := .checkPaused } s.inFlight none
  | exit (pc : (s.workers i).pc = .head) (running : s.running = false) :
      Turn s i (.worker i) { s.workers i with pc := .exited } s.inFlight none
  | rest (pc : (s.workers i).pc = .checkPaused) (paused : s.paused = true) :
      Turn s i (.worker i) { s.workers i with pc := .head } s.inFlight none
  | proceed (pc : (s.workers i).pc = .checkPaused) (paused : s.paused = false) :
      Turn s i (.worker i) { s.workers i with pc := .checkHasherGen } s.inFlight
        none
  | rebuild (pc : (s.workers i).pc = .checkHasherGen)
      (stale : s.hasherGen ≠ (s.workers i).localHasherGen) :
      Turn s i (.worker i) { s.workers i with pc := .making .rebuild } s.inFlight
        (some (.makeBegin i))
  | keepHasher (pc : (s.workers i).pc = .checkHasherGen)
      (same : s.hasherGen = (s.workers i).localHasherGen) :
      Turn s i (.worker i) { s.workers i with pc := .loadWorkGen } s.inFlight none
  | seeGen (pc : (s.workers i).pc = .loadWorkGen)
      (stale : s.workGen ≠ (s.workers i).localWorkGen) :
      Turn s i (.worker i) { s.workers i with pc := .pickup s.workGen } s.inFlight
        none
  | keepWork (pc : (s.workers i).pc = .loadWorkGen)
      (same : s.workGen = (s.workers i).localWorkGen) :
      Turn s i (.worker i) (s.workers i).afterCheck s.inFlight none
  | pickup (gen : UInt64) (pc : (s.workers i).pc = .pickup gen) :
      Turn s i (.worker i) ((s.workers i).take i gen s.work).afterCheck s.inFlight
        none
  | enter (pc : (s.workers i).pc = .enter) :
      Turn s i (.worker i) { s.workers i with pc := .recheck } (s.inFlight + 1)
        none
  | turnBack (pc : (s.workers i).pc = .recheck) (paused : s.paused = true) :
      Turn s i (.worker i) { s.workers i with pc := .abort } s.inFlight none
  | goOn (pc : (s.workers i).pc = .recheck) (paused : s.paused = false) :
      Turn s i (.worker i) { s.workers i with pc := .chunk 0 } s.inFlight none
  | abort (pc : (s.workers i).pc = .abort) :
      Turn s i (.worker i) { s.workers i with pc := .head } (s.inFlight - 1) none
  | hash (done : Nat) (p : JobPtr) (pc : (s.workers i).pc = .chunk done)
      (work : (s.workers i).work = some p) :
      Turn s i (.worker i)
        { s.workers i with
          blob := spliceNonce (s.workers i).blob p.job.nonceOffset
            (s.workers i).nonce
          pc := .hashing done }
        s.inFlight (some (.hashBegin i p (s.workers i).nonce))
  | found (done : Nat) (p : JobPtr) (digest : Hash256)
      (pc : (s.workers i).pc = .hashing done)
      (work : (s.workers i).work = some p)
      (meets : meetsTarget digest p.job.target = true) :
      Turn s i (.hashed i digest)
        { s.workers i with pc := .sharing done digest } s.inFlight
        (some (.hashed i p (s.workers i).nonce digest))
  | missed (done : Nat) (p : JobPtr) (digest : Hash256)
      (pc : (s.workers i).pc = .hashing done)
      (work : (s.workers i).work = some p)
      (meets : ¬ meetsTarget digest p.job.target = true) :
      Turn s i (.hashed i digest) { s.workers i with pc := .missed done }
        s.inFlight (some (.hashed i p (s.workers i).nonce digest))
  | share (done : Nat) (p : JobPtr) (digest : Hash256)
      (pc : (s.workers i).pc = .sharing done digest)
      (work : (s.workers i).work = some p) :
      Turn s i (.worker i) ((s.workers i).advance threads done) s.inFlight
        (some (.share i p (s.workers i).nonce digest))
  | next (done : Nat) (pc : (s.workers i).pc = .missed done) :
      Turn s i (.worker i) ((s.workers i).advance threads done) s.inFlight none
  | leave (done : Nat) (pc : (s.workers i).pc = .leave done) :
      Turn s i (.worker i) { s.workers i with pc := .account done }
        (s.inFlight - 1) none
  | account (done : Nat) (pc : (s.workers i).pc = .account done) :
      Turn s i (.worker i) { s.workers i with pc := .head } s.inFlight none

/-- A thread that takes a turn exists. -/
theorem Turn.born {s : State threads H} {i : Fin threads.toNat}
    {label : Label threads H} {w : Worker H} {inFlight : UInt32}
    {event : Option (Event threads H)}
    (hturn : Turn s i label w inFlight event) : (s.workers i).pc ≠ .unborn := by
  intro hunborn
  cases hturn <;> simp_all

/-- What a worker's step makes of the pool: its turn, and nothing else. -/
structure Turned (s s' : State threads H) (i : Fin threads.toNat)
    (label : Label threads H) : Prop extends WorkerMove s s' i where
  turn : ∃ w inFlight event, Turn s i label w inFlight event ∧
    s'.workers i = w ∧ s'.inFlight = inFlight ∧
    s'.log = event.toList ++ s.log

/-- A turn carried out. -/
theorem Turn.turned {s s' : State threads H} {i : Fin threads.toNat}
    {label : Label threads H} {w : Worker H} {inFlight : UInt32}
    {event : Option (Event threads H)} {hashes : UInt64}
    (hturn : Turn s i label w inFlight event)
    (heq : s' = { s.put i w with
      inFlight := inFlight, hashes := hashes, log := event.toList ++ s.log }) :
    Turned s s' i label := by
  subst heq
  exact { workerMove_of_eq rfl with
    turn := ⟨w, inFlight, event, hturn, put_workers_self s i w, rfl, rfl⟩ }

theorem workerStep_turned {s s' : State threads H} {i : Fin threads.toNat}
    (hstep : workerStep s i = some s') : Turned s s' i (.worker i) := by
  cases hpc : (s.workers i).pc with
  | unborn => simp [workerStep, hpc] at hstep
  | exited => simp [workerStep, hpc] at hstep
  | making build => simp [workerStep, hpc] at hstep
  | hashing done => simp [workerStep, hpc] at hstep
  | boot =>
      simp only [workerStep, hpc, Option.some.injEq] at hstep
      exact (Turn.boot hpc).turned hstep.symm
  | loadHasherGen build =>
      simp only [workerStep, hpc, Option.some.injEq] at hstep
      cases build with
      | boot => exact (Turn.booted hpc).turned hstep.symm
      | rebuild => exact (Turn.rebuilt hpc).turned hstep.symm
  | head =>
      simp only [workerStep, hpc, Option.some.injEq] at hstep
      cases hrunning : s.running with
      | true =>
          simp only [hrunning, ↓reduceIte] at hstep
          exact (Turn.loop hpc hrunning).turned hstep.symm
      | false =>
          simp only [hrunning, Bool.false_eq_true, ↓reduceIte] at hstep
          exact (Turn.exit hpc hrunning).turned hstep.symm
  | checkPaused =>
      simp only [workerStep, hpc, Option.some.injEq] at hstep
      cases hpaused : s.paused with
      | true =>
          simp only [hpaused, ↓reduceIte] at hstep
          exact (Turn.rest hpc hpaused).turned hstep.symm
      | false =>
          simp only [hpaused, Bool.false_eq_true, ↓reduceIte] at hstep
          exact (Turn.proceed hpc hpaused).turned hstep.symm
  | checkHasherGen =>
      simp only [workerStep, hpc] at hstep
      split at hstep
      · rename_i hstale
        exact (Turn.rebuild hpc hstale).turned (Option.some.inj hstep).symm
      · rename_i hsame
        exact (Turn.keepHasher hpc (not_not.mp hsame)).turned
          (Option.some.inj hstep).symm
  | loadWorkGen =>
      simp only [workerStep, hpc] at hstep
      split at hstep
      · rename_i hstale
        exact (Turn.seeGen hpc hstale).turned (Option.some.inj hstep).symm
      · rename_i hsame
        exact (Turn.keepWork hpc (not_not.mp hsame)).turned
          (Option.some.inj hstep).symm
  | pickup gen =>
      simp only [workerStep, hpc, Option.some.injEq] at hstep
      exact (Turn.pickup gen hpc).turned hstep.symm
  | enter =>
      simp only [workerStep, hpc, Option.some.injEq] at hstep
      exact (Turn.enter hpc).turned hstep.symm
  | recheck =>
      simp only [workerStep, hpc, Option.some.injEq] at hstep
      cases hpaused : s.paused with
      | true =>
          simp only [hpaused, ↓reduceIte] at hstep
          exact (Turn.turnBack hpc hpaused).turned hstep.symm
      | false =>
          simp only [hpaused, Bool.false_eq_true, ↓reduceIte] at hstep
          exact (Turn.goOn hpc hpaused).turned hstep.symm
  | abort =>
      simp only [workerStep, hpc, Option.some.injEq] at hstep
      exact (Turn.abort hpc).turned hstep.symm
  | chunk done =>
      cases hwork : (s.workers i).work with
      | none => simp [workerStep, hpc, hwork] at hstep
      | some p =>
          simp only [workerStep, hpc, hwork, Option.some.injEq] at hstep
          exact (Turn.hash done p hpc hwork).turned (hwork ▸ hstep.symm)
  | sharing done digest =>
      cases hwork : (s.workers i).work with
      | none => simp [workerStep, hpc, hwork] at hstep
      | some p =>
          simp only [workerStep, hpc, hwork, Option.some.injEq] at hstep
          exact (Turn.share done p digest hpc hwork).turned hstep.symm
  | missed done =>
      simp only [workerStep, hpc, Option.some.injEq] at hstep
      exact (Turn.next done hpc).turned hstep.symm
  | leave done =>
      simp only [workerStep, hpc, Option.some.injEq] at hstep
      exact (Turn.leave done hpc).turned hstep.symm
  | account done =>
      simp only [workerStep, hpc, Option.some.injEq] at hstep
      exact (Turn.account done hpc).turned hstep.symm

/-- Every step of a worker is a turn of it. -/
theorem step_turned {s s' : State threads H} {label : Label threads H}
    {i : Fin threads.toNat} (hactor : label.actor = some i)
    (hstep : step s label = some s') : Turned s s' i label := by
  cases label with
  | call call => cases hactor
  | ctl => cases hactor
  | worker j =>
      obtain rfl := Option.some.inj hactor
      exact workerStep_turned hstep
  | made j hasher =>
      obtain rfl := Option.some.inj hactor
      obtain ⟨build, hpc, heq⟩ := madeStep_eq_some.mp hstep
      exact (Turn.made build hasher hpc).turned heq
  | hashed j digest =>
      obtain rfl := Option.some.inj hactor
      obtain ⟨done, p, hpc, hwork, heq⟩ := hashedStep_eq_some.mp hstep
      by_cases hmeets : meetsTarget digest p.job.target = true
      · rw [if_pos hmeets] at heq
        exact (Turn.found done p digest hpc hwork hmeets).turned heq
      · rw [if_neg hmeets] at heq
        exact (Turn.missed done p digest hpc hwork hmeets).turned heq

/-- Everything a step of the pool can be: a worker's turn, the controlling
thread's entering a call, or its step inside one. -/
inductive Acted (s s' : State threads H) : Label threads H → Prop
  | turn {label : Label threads H} (i : Fin threads.toNat)
      (turned : Turned s s' i label) : Acted s s' label
  | call (call : Call) (called : Called s s' call) : Acted s s' (.call call)
  | ctl (taken : ctlStep s = some s') : Acted s s' .ctl

theorem step_acted {s s' : State threads H} {label : Label threads H}
    (hstep : step s label = some s') : Acted s s' label := by
  cases label with
  | call call => exact .call call (callStep_called hstep)
  | ctl => exact .ctl hstep
  | worker i => exact .turn i (step_turned rfl hstep)
  | made i hasher => exact .turn i (step_turned rfl hstep)
  | hashed i digest => exact .turn i (step_turned rfl hstep)

end MinerPool

end Minerby
