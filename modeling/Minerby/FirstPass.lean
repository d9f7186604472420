/-
The first pass of each worker over the nonces.  From the pickup of a job to the
first time the wrap test fires a worker tries its residue class of the 32-bit
nonces, in order and once each, however the pass is cut into chunks.
-/
import Minerby.StrideScan
import Minerby.WorkerTurn

namespace Minerby

namespace MinerPool

open StrideScan

variable {threads : UInt32} {H : Type}

/-- The nonces that a worker has begun to hash, newest first. -/
def State.hashesOf (s : State threads H) (i : Fin threads.toNat) :
    List UInt32 :=
  s.log.filterMap fun
    | .hashBegin j _ nonce => if j = i then some nonce else none
    | _ => none

/-- What a worker has done since it last picked up a job: the nonces it has
hashed, oldest first, until the wrap test fired, and whether it has. -/
structure Pass where
  nonces : List UInt32 := []
  wrapped : Bool := false
deriving Repr, DecidableEq

/-- The comparison of the next nonce with the number of threads. -/
def Pass.test (threads : UInt32) (pass : Pass) (nonce : UInt32) : Pass :=
  { pass with wrapped := pass.wrapped || decide (nonce < threads) }

/-- What a step of the worker, from `w` to `w'`, adds to its pass. -/
def Pass.observe (threads : UInt32) (w w' : Worker H) (pass : Pass) : Pass :=
  match w.pc with
  | .pickup _ => if w'.work.isSome then {} else pass
  | .chunk _ =>
      if pass.wrapped then pass
      else { pass with nonces := pass.nonces ++ [w.nonce] }
  | .sharing _ _ => pass.test threads w'.nonce
  | .missed _ => pass.test threads w'.nonce
  | _ => pass

/-- The pool and the pass of each worker. -/
structure Passes (threads : UInt32) (H : Type) where
  pool : State threads H := {}
  pass : Fin threads.toNat → Pass := fun _ => {}

def Passes.step (s : Passes threads H) (label : Label threads H) :
    Option (Passes threads H) :=
  (MinerPool.step s.pool label).map fun pool =>
    { pool := pool
      pass := fun i =>
        if label.actor = some i then
          (s.pass i).observe threads (s.pool.workers i) (pool.workers i)
        else s.pass i }

/-- The wrap test fires exactly when the 32-bit addition has overflowed. -/
theorem add_lt_iff_overflow (nonce threads : UInt32) :
    nonce + threads < threads ↔ 2 ^ 32 ≤ nonce.toNat + threads.toNat := by
  have hnonce := nonce.toNat_lt
  have hthreads := threads.toNat_lt
  rw [UInt32.lt_iff_toNat_lt, UInt32.toNat_add]
  omega

/-- The nonce of a worker and its pass.  Before the wrap test fires the nonce is
the next one of the stride, or the one being tried; when it fires, the stride
has passed the end of the 32-bit space. -/
structure OnPass (i : Fin threads.toNat) (w : Worker H) (pass : Pass) :
    Prop where
  nonces : pass.nonces.map UInt32.toNat =
    (List.range pass.nonces.length).map fun k => i + threads.toNat * k
  next : pass.wrapped = false → w.work.isSome = true → w.pc.trying = false →
    w.nonce.toNat = i + threads.toNat * pass.nonces.length
  trying : pass.wrapped = false → w.pc.trying = true →
    w.nonce.toNat + threads.toNat = i + threads.toNat * pass.nonces.length
  complete : pass.wrapped = true →
    2 ^ 32 ≤ i + threads.toNat * pass.nonces.length

/-- What a turn does to a worker and its pass, and the nonces it logs. -/
inductive PassMove (i : Fin threads.toNat) (w w' : Worker H)
    (pass pass' : Pass) : List UInt32 → Prop
  /-- neither the nonce nor the pass changes, and a job is not gained -/
  | quiet (same : pass' = pass)
      (work : w'.work.isSome = true → w.work.isSome = true)
      (nonce : w'.nonce = w.nonce)
      (trying : w'.pc.trying = w.pc.trying) : PassMove i w w' pass pass' []
  | pickup (resting : w.pc.trying = false) (fresh : pass' = {})
      (nonce : w'.nonce = UInt32.ofNat i) (trying : w'.pc.trying = false) :
      PassMove i w w' pass pass' []
  | begins (resting : w.pc.trying = false) (work : w.work.isSome = true)
      (grown : pass' = if pass.wrapped then pass
        else { pass with nonces := pass.nonces ++ [w.nonce] })
      (nonce : w'.nonce = w.nonce) (trying : w'.pc.trying = true) :
      PassMove i w w' pass pass' [w.nonce]
  | advances (tried : w.pc.trying = true)
      (tested : pass' = pass.test threads (w.nonce + threads))
      (nonce : w'.nonce = w.nonce + threads) (trying : w'.pc.trying = false) :
      PassMove i w w' pass pass' []

theorem Turned.passMove {s s' : State threads H} {label : Label threads H}
    {i : Fin threads.toNat} (hturned : Turned s s' i label) (pass : Pass) :
    ∃ hashed, s'.hashesOf i = hashed ++ s.hashesOf i ∧
      PassMove i (s.workers i) (s'.workers i) pass
        (pass.observe threads (s.workers i) (s'.workers i)) hashed := by
  obtain ⟨w, inFlight, event, hturn, hw, -, hlog⟩ := hturned.turn
  unfold State.hashesOf
  rw [hw, hlog, List.filterMap_append]
  refine ⟨_, rfl, ?_⟩
  unfold Pass.observe
  cases hturn with
  | keepWork hpc same =>
      simp only [hpc]
      exact .quiet rfl id rfl (by rw [Worker.afterCheck_trying, hpc]; rfl)
  | pickup gen hpc =>
      simp only [hpc]
      cases hwork : s.work with
      | none =>
          exact .quiet rfl nofun rfl
            (by rw [Worker.afterCheck_trying, hpc]; rfl)
      | some p =>
          exact .pickup (by rw [hpc]; rfl) rfl rfl (Worker.afterCheck_trying _)
  | hash done p hpc hwork =>
      simp only [hpc, Option.toList_some, List.filterMap_cons, ↓reduceIte,
        List.filterMap_nil]
      exact .begins (by rw [hpc]; rfl) (by rw [hwork]; rfl) rfl rfl rfl
  | found done p digest hpc hwork hmeets =>
      simp only [hpc]
      exact .quiet rfl id rfl (by rw [hpc]; rfl)
  | missed done p digest hpc hwork hmeets =>
      simp only [hpc]
      exact .quiet rfl id rfl (by rw [hpc]; rfl)
  | share done p digest hpc hwork =>
      simp only [hpc]
      exact .advances (by rw [hpc]; rfl) rfl rfl (Worker.advance_trying _ _ _)
  | next done hpc =>
      simp only [hpc]
      exact .advances (by rw [hpc]; rfl) rfl rfl (Worker.advance_trying _ _ _)
  | _ => exact .quiet (by simp_all) id rfl (by simp_all [Pc.trying])

theorem OnPass.move {i : Fin threads.toNat} {w w' : Worker H}
    {pass pass' : Pass} {hashed : List UInt32} (hon : OnPass i w pass)
    (hmove : PassMove i w w' pass pass' hashed) : OnPass i w' pass' := by
  cases hmove with
  | quiet same work nonce trying =>
      subst same
      refine ⟨hon.nonces, ?_, ?_, hon.complete⟩
      · intro hwrapped hwork hrest
        rw [nonce]
        exact hon.next hwrapped (work hwork) (trying ▸ hrest)
      · intro hwrapped htry
        rw [nonce]
        exact hon.trying hwrapped (trying ▸ htry)
  | pickup resting fresh nonce trying =>
      subst fresh
      refine ⟨rfl, ?_, ?_, nofun⟩
      · intro _ _ _
        rw [nonce, UInt32.toNat_ofNat']
        exact Nat.mod_eq_of_lt (i.isLt.trans threads.toNat_lt)
      · intro _ htry
        rw [trying] at htry
        cases htry
  | begins resting work grown nonce trying =>
      cases hwrapped : pass.wrapped with
      | true =>
          simp only [hwrapped, ↓reduceIte] at grown
          subst grown
          refine ⟨hon.nonces, ?_, ?_, hon.complete⟩
          · intro hfalse
            cases hwrapped.symm.trans hfalse
          · intro hfalse
            cases hwrapped.symm.trans hfalse
      | false =>
          simp only [hwrapped, Bool.false_eq_true, ↓reduceIte] at grown
          subst grown
          have hnext := hon.next hwrapped work resting
          refine ⟨?_, ?_, ?_, nofun⟩
          · simp only [List.map_append, hon.nonces, List.length_append,
              List.length_singleton, List.range_succ, List.map_cons,
              List.map_nil, hnext]
          · intro _ _ hrest
            rw [trying] at hrest
            cases hrest
          · intro _ _
            simp only [List.length_append, List.length_singleton, Nat.mul_add,
              Nat.mul_one, nonce, hnext]
            omega
  | advances tried tested nonce trying =>
      subst tested
      refine ⟨hon.nonces, ?_, ?_, ?_⟩
      · intro hwrapped _ _
        simp only [Pass.test, Bool.or_eq_false_iff, decide_eq_false_iff_not,
          add_lt_iff_overflow] at hwrapped
        have htrying := hon.trying hwrapped.1 tried
        have hnowrap : w.nonce.toNat + threads.toNat < 2 ^ 32 :=
          Nat.lt_of_not_le hwrapped.2
        rw [nonce, UInt32.toNat_add, Nat.mod_eq_of_lt hnowrap]
        exact htrying
      · intro _ htry
        rw [trying] at htry
        cases htry
      · intro hwrapped
        cases hearlier : pass.wrapped with
        | true => exact hon.complete hearlier
        | false =>
            simp only [Pass.test, hearlier, Bool.false_or, decide_eq_true_eq,
              add_lt_iff_overflow] at hwrapped
            have htrying := hon.trying hearlier tried
            change 2 ^ 32 ≤ (i : Nat) + threads.toNat * pass.nonces.length
            omega

/-- A worker without a job, between two nonces, is on any pass. -/
theorem OnPass.of_no_work {i : Fin threads.toNat} {w w' : Worker H}
    {pass : Pass} (hon : OnPass i w pass) (hwork : w'.work = none)
    (hrest : w'.pc.trying = false) : OnPass i w' pass := by
  refine ⟨hon.nonces, ?_, ?_, hon.complete⟩
  · intro _ hsome
    rw [hwork] at hsome
    cases hsome
  · intro _ htry
    cases hrest.symm.trans htry

/-- The nonces of the pass are hashes of the log, one after another; until the
wrap test fires they are the last ones. -/
def Logged (hashes : List UInt32) (pass : Pass) : Prop :=
  ∃ later older, hashes = later ++ pass.nonces.reverse ++ older ∧
    (pass.wrapped = false → later = [])

theorem Logged.move {i : Fin threads.toNat} {w w' : Worker H}
    {pass pass' : Pass} {hashes hashed : List UInt32}
    (hlogged : Logged hashes pass)
    (hmove : PassMove i w w' pass pass' hashed) :
    Logged (hashed ++ hashes) pass' := by
  obtain ⟨later, older, rfl, hlast⟩ := hlogged
  cases hmove with
  | quiet same work nonce trying =>
      subst same
      exact ⟨later, older, rfl, hlast⟩
  | pickup resting fresh nonce trying =>
      subst fresh
      exact ⟨[], _, rfl, fun _ => rfl⟩
  | begins resting work grown nonce trying =>
      cases hwrapped : pass.wrapped with
      | true =>
          simp only [hwrapped, ↓reduceIte] at grown
          subst grown
          refine ⟨w.nonce :: later, older, rfl, ?_⟩
          intro hfalse
          cases hwrapped.symm.trans hfalse
      | false =>
          simp only [hwrapped, Bool.false_eq_true, ↓reduceIte] at grown
          subst grown
          obtain rfl := hlast hwrapped
          refine ⟨[], older, ?_, fun _ => rfl⟩
          simp
  | advances tried tested nonce trying =>
      subst tested
      refine ⟨later, older, rfl, ?_⟩
      intro hwrapped
      exact hlast (Bool.or_eq_false_iff.mp hwrapped).1

/-- Another thread's step logs no hash of a worker and leaves it alone, or
creates or joins its thread. -/
theorem step_other {s s' : State threads H} {label : Label threads H}
    {i : Fin threads.toNat} (hactor : label.actor ≠ some i)
    (hstep : step s label = some s') :
    s'.hashesOf i = s.hashesOf i ∧
      (s'.workers i = s.workers i ∨
        (s'.workers i).work = none ∧ (s'.workers i).pc.trying = false) := by
  unfold State.hashesOf
  cases step_acted hstep with
  | turn j turned =>
      obtain ⟨w, inFlight, event, hturn, -, -, hlog⟩ := turned.turn
      have hj : label.actor = some j := by cases hturn <;> rfl
      have hne : j ≠ i := by
        rintro rfl
        exact hactor hj
      refine ⟨?_, Or.inl (turned.others i (Ne.symm hne))⟩
      rw [hlog]
      cases hturn <;> simp [hne]
  | call call called =>
      refine ⟨?_, Or.inl (congrFun called.workers i)⟩
      rw [called.log]
      rfl
  | ctl taken =>
      obtain ⟨hlog, -, -, -, -, hworkers⟩ := ctlStep_frame taken
      refine ⟨by rw [hlog], ?_⟩
      rcases hworkers i with hsame | hboot | ⟨-, hjoined⟩
      · exact Or.inl hsame
      · rw [hboot]
        exact Or.inr ⟨rfl, rfl⟩
      · rw [hjoined]
        exact Or.inr ⟨rfl, rfl⟩

/-- The invariant of a worker's pass. -/
structure PassKept (s : Passes threads H) (i : Fin threads.toNat) : Prop where
  on : OnPass i (s.pool.workers i) (s.pass i)
  logged : Logged (s.pool.hashesOf i) (s.pass i)

theorem PassKept.step {s s' : Passes threads H} {label : Label threads H}
    {i : Fin threads.toNat} (hkept : PassKept s i)
    (hstep : s.step label = some s') : PassKept s' i := by
  obtain ⟨pool, hpool, rfl⟩ := Option.map_eq_some_iff.mp hstep
  by_cases hactor : label.actor = some i
  · have hturned := step_turned hactor hpool
    obtain ⟨hashed, hhashes, hmove⟩ := hturned.passMove (s.pass i)
    constructor
    · simp only [hactor, ↓reduceIte]
      exact hkept.on.move hmove
    · simp only [hactor, ↓reduceIte, hhashes]
      exact hkept.logged.move hmove
  · obtain ⟨hhashes, hworker⟩ := step_other hactor hpool
    constructor
    · simp only [hactor, ↓reduceIte]
      rcases hworker with hsame | ⟨hnone, hrest⟩
      · rw [hsame]
        exact hkept.on
      · exact hkept.on.of_no_work hnone hrest
    · simp only [hactor, ↓reduceIte, hhashes]
      exact hkept.logged

theorem passKept_of_run {labels : List (Label threads H)}
    {s : Passes threads H} (hrun : Run Passes.step anyLabel {} labels s)
    (i : Fin threads.toNat) : PassKept s i := by
  apply hrun.invariant fun _ _ _ hinv _ hstep => hinv.step hstep
  exact ⟨⟨rfl, by simp, nofun, by simp⟩, [], [], rfl, fun _ => rfl⟩

/-- What has been hashed of a pass is the first part of the residue class, and
all of it once the wrap test has fired. -/
theorem OnPass.residueClass {i : Fin threads.toNat} {w : Worker H}
    {pass : Pass} (hon : OnPass i w pass) :
    pass.nonces.map UInt32.toNat <+:
        StrideScan.residueClass (2 ^ 32) threads.toNat i ∧
      (pass.wrapped = true → pass.nonces.map UInt32.toNat =
        StrideScan.residueClass (2 ^ 32) threads.toNat i) := by
  have hbelow : ∀ k < pass.nonces.length,
      (i : Nat) + threads.toNat * k < 2 ^ 32 := by
    intro k hk
    have hmem : (i : Nat) + threads.toNat * k ∈
        pass.nonces.map UInt32.toNat := by
      rw [hon.nonces]
      exact List.mem_map.mpr ⟨k, List.mem_range.mpr hk, rfl⟩
    obtain ⟨nonce, -, hnonce⟩ := List.mem_map.mp hmem
    rw [← hnonce]
    exact nonce.toNat_lt
  rw [hon.nonces]
  constructor
  · exact stride_prefix_residueClass i.isLt hbelow
  · intro hwrapped
    exact stride_eq_residueClass i.isLt hbelow (hon.complete hwrapped)

theorem count_map_toNat (nonces : List UInt32) (nonce : UInt32) :
    (nonces.map UInt32.toNat).count nonce.toNat = nonces.count nonce :=
  List.count_map_of_injective nonces UInt32.toNat
    (fun _ _ => UInt32.toNat_inj.mp) nonce

/-- A worker that goes on to the next nonce finds it below the number of threads
exactly when the 32-bit addition has overflowed. -/
theorem wrap_test_iff_overflow {s s' : Passes threads H}
    {label : Label threads H} {i : Fin threads.toNat}
    (hactor : label.actor = some i) (hstep : s.step label = some s')
    (htry : (s.pool.workers i).pc.trying = true)
    (hrest : (s'.pool.workers i).pc.trying = false) :
    (s'.pool.workers i).nonce < threads ↔
      2 ^ 32 ≤ (s.pool.workers i).nonce.toNat + threads.toNat := by
  obtain ⟨pool, hpool, rfl⟩ := Option.map_eq_some_iff.mp hstep
  obtain ⟨hashed, -, hmove⟩ :=
    (step_turned hactor hpool).passMove (s.pass i)
  cases hmove with
  | quiet same work nonce trying =>
      cases htry.symm.trans (trying.symm.trans hrest)
  | pickup resting fresh nonce trying => cases htry.symm.trans resting
  | begins resting work grown nonce trying => cases htry.symm.trans resting
  | advances tried tested nonce trying =>
      rw [nonce]
      exact add_lt_iff_overflow _ _

/-- The workers divide the nonces among themselves.  In every run, what a worker
has hashed since it picked up its job, until the wrap test fires, is the first
part of its residue class in increasing order, and all of it when the test
fires; the test fires exactly when the 32-bit addition has overflowed; and over
all workers no nonce is hashed twice before the wraps, and every nonce once when
all have wrapped. -/
theorem first_pass_partitions (hthreads : 1 ≤ threads.toNat)
    {labels : List (Label threads H)} {s : Passes threads H}
    (hrun : Run Passes.step anyLabel {} labels s) :
    (∀ i, Logged (s.pool.hashesOf i) (s.pass i) ∧
      (s.pass i).nonces.map UInt32.toNat <+:
        (List.range (2 ^ 32)).filter (fun n => n % threads.toNat = i) ∧
      ((s.pass i).wrapped = true → (s.pass i).nonces.map UInt32.toNat =
        (List.range (2 ^ 32)).filter (fun n => n % threads.toNat = i))) ∧
    (∀ i label s', label.actor = some i → s.step label = some s' →
      (s.pool.workers i).pc.trying = true →
      (s'.pool.workers i).pc.trying = false →
      ((s'.pool.workers i).nonce < threads ↔
        2 ^ 32 ≤ (s.pool.workers i).nonce.toNat + threads.toNat)) ∧
    (∀ nonce : UInt32, ∑ i, (s.pass i).nonces.count nonce ≤ 1) ∧
    ((∀ i, (s.pass i).wrapped = true) →
      ∀ nonce : UInt32, ∑ i, (s.pass i).nonces.count nonce = 1) := by
  have hkept := passKept_of_run hrun
  refine ⟨?_, ?_, ?_, ?_⟩
  · intro i
    exact ⟨(hkept i).logged, (hkept i).on.residueClass⟩
  · intro i label s' hactor hstep htry hrest
    exact wrap_test_iff_overflow hactor hstep htry hrest
  · intro nonce
    have hle := sum_count_le_one nonce.toNat_lt hthreads
      fun i => (hkept i).on.residueClass.1
    simpa only [count_map_toNat] using hle
  · intro hall nonce
    have hone := sum_count_residueClass nonce.toNat_lt hthreads
    simp only [← (hkept _).on.residueClass.2 (hall _), count_map_toNat] at hone
    exact hone

/-- A job with room for the nonce. -/
def roomyJob : MiningJob := { blob := [0, 0, 0, 0], nonceOffset := 0 }

/-- The first worker of a pool of `2 ^ 31`. -/
def firstOfMany : Fin (UInt32.toNat (2 ^ 31)) := ⟨0, by decide⟩

/-- The first worker is created, picks the job up and hashes two nonces. -/
def passLabels : List (Label (2 ^ 31) Unit) :=
  [.call (.setWork roomyJob), .ctl, .call .start, .ctl,
    .worker firstOfMany, .made firstOfMany ()] ++
    List.replicate 8 (.worker firstOfMany) ++
    (List.replicate 2 [.worker firstOfMany,
      .hashed firstOfMany (Vector.replicate 32 255),
      .worker firstOfMany]).flatten

/-- With `2 ^ 31` threads the first worker has two nonces, and wraps after
them. -/
theorem two_nonces_first_pass :
    ∃ s : Passes (2 ^ 31) Unit, Run Passes.step anyLabel {} passLabels s ∧
      (s.pass firstOfMany = ⟨[0, 2 ^ 31], true⟩) ∧
      (s.pass firstOfMany).nonces.map UInt32.toNat =
        (List.range (2 ^ 32)).filter
          (fun n => n % UInt32.toNat (2 ^ 31) = (firstOfMany : Nat)) := by
  have hreplay : (replay Passes.step anyLabel {} passLabels).any
      (fun s => decide (s.pass firstOfMany = ⟨[0, 2 ^ 31], true⟩)) = true := by
    decide +kernel
  obtain ⟨s, hs, hpass⟩ := (Option.any_eq_true _ _).mp hreplay
  have hpass := of_decide_eq_true hpass
  have hrun := run_of_replay hs
  refine ⟨s, hrun, hpass, ?_⟩
  apply ((first_pass_partitions (by decide) hrun).1 firstOfMany).2.2
  rw [hpass]

end MinerPool

end Minerby
