/-
A periodic task in a loop.  The loop looks at the clock now and then; when the
next time has come the task runs and the next time moves on by one period, so
that a late run does not make the later ones late.
-/
import Mathlib.Algebra.Order.Group.Nat
import Mathlib.Data.Nat.Init

namespace Minerby

/-- The times at which the task ran, newest first, where the clock was looked at
at the times `checks`, newest first. -/
def firings (start period : Nat) : List Nat → List Nat
  | [] => []
  | now :: earlier =>
      let fired := firings start period earlier
      if start + (fired.length + 1) * period ≤ now then now :: fired else fired

/-- The times are in order, from `start` on. -/
def Chronological (start : Nat) : List Nat → Prop
  | [] => True
  | now :: earlier => earlier.headD start ≤ now ∧ Chronological start earlier

/-- Between two of the times that follow one another, and before the first,
there is at most `gap`. -/
def Spaced (start gap : Nat) : List Nat → Prop
  | [] => True
  | now :: earlier => now ≤ earlier.headD start + gap ∧ Spaced start gap earlier

/-- No run of the task is before its time, which is a whole number of periods
after the start. -/
def NeverEarly (start period : Nat) (fired : List Nat) : Prop :=
  ∀ later now earlier, fired = later ++ now :: earlier →
    start + (earlier.length + 1) * period ≤ now

/-- Each run of the task is less than `gap` behind its time. -/
def OnTime (start period gap : Nat) (fired : List Nat) : Prop :=
  ∀ later now earlier, fired = later ++ now :: earlier →
    now < start + (earlier.length + 1) * period + gap

variable {start period gap now : Nat} {checks earlier fired : List Nat}

/-- A statement about each entry of a history and those before it, when one is
added. -/
theorem forall_split_cons {α : Type} {P : α → List α → Prop} {new : α}
    {old : List α} (hnew : P new old)
    (hold : ∀ later t earlier, old = later ++ t :: earlier → P t earlier) :
    ∀ later t earlier, new :: old = later ++ t :: earlier → P t earlier := by
  intro later t earlier heq
  cases later with
  | nil =>
      obtain ⟨rfl, rfl⟩ := List.cons.inj heq
      exact hnew
  | cons u later =>
      obtain ⟨-, hrest⟩ := List.cons.inj heq
      exact hold later t earlier hrest

theorem firings_neverEarly (start period : Nat) (checks : List Nat) :
    NeverEarly start period (firings start period checks) := by
  induction checks with
  | nil => simp [NeverEarly, firings]
  | cons now earlier ih =>
      simp only [firings]
      split
      · rename_i hdue
        exact forall_split_cons hdue ih
      · exact ih

/-- Of the runs that are never early the last is late enough for all. -/
theorem NeverEarly.headD (hearly : NeverEarly start period fired) :
    start + fired.length * period ≤ fired.headD start := by
  cases fired with
  | nil => simp
  | cons now earlier => exact hearly [] now earlier rfl

/-- Whenever the clock is looked at, the last run of the task is then less than
a period old. -/
theorem firings_recent (hperiod : 0 < period) (start : Nat)
    (checks : List Nat) :
    checks.headD start < (firings start period checks).headD start + period := by
  cases checks with
  | nil => simpa [firings] using hperiod
  | cons now earlier =>
      simp only [firings]
      split
      · simpa using hperiod
      · rename_i hnotDue
        have hlast := (firings_neverEarly start period earlier).headD
        rw [Nat.succ_mul] at hnotDue
        simp only [List.headD_cons]
        omega

/-- No more runs than periods are over. -/
theorem NeverEarly.length_le (hperiod : 0 < period)
    (hearly : NeverEarly start period fired) (hnow : fired.headD start ≤ now) :
    fired.length ≤ (now - start) / period := by
  have hlast := hearly.headD
  apply (Nat.le_div_iff_mul_le hperiod).mpr
  omega

theorem firings_headD_le (hordered : Chronological start checks) :
    (firings start period checks).headD start ≤ checks.headD start := by
  induction checks with
  | nil => exact Nat.le_refl _
  | cons now earlier ih =>
      obtain ⟨hnow, hearlier⟩ := hordered
      simp only [firings]
      split
      · exact Nat.le_refl _
      · exact (ih hearlier).trans hnow

/-- One look at the clock catches up by one run at most: the number of runs is
the lesser of one more and the number of periods that are over. -/
theorem length_firings_cons (hperiod : 0 < period)
    (hordered : Chronological start (now :: earlier)) :
    (firings start period (now :: earlier)).length =
      min ((firings start period earlier).length + 1)
        ((now - start) / period) := by
  obtain ⟨hnow, hearlier⟩ := hordered
  have hle := (firings_neverEarly start period earlier).length_le hperiod
    ((firings_headD_le hearlier).trans hnow)
  have hdue : start + ((firings start period earlier).length + 1) * period ≤ now ↔
      (firings start period earlier).length + 1 ≤ (now - start) / period := by
    rw [Nat.le_div_iff_mul_le hperiod, Nat.succ_mul]
    omega
  simp only [firings]
  split
  · rename_i hfires
    rw [List.length_cons, Nat.min_eq_left (hdue.mp hfires)]
  · rename_i hnotDue
    have hnot := mt hdue.mpr hnotDue
    omega

/-- When the clock is looked at at least once a period, the task has run once
for every period that is over. -/
theorem length_firings_of_spaced (hperiod : 0 < period) (hgap : gap ≤ period)
    (hordered : Chronological start checks) (hspaced : Spaced start gap checks) :
    (firings start period checks).length =
      (checks.headD start - start) / period := by
  induction checks with
  | nil => simp [firings]
  | cons now earlier ih =>
      rw [length_firings_cons hperiod hordered, List.headD_cons]
      obtain ⟨hnow, hearlier⟩ := hordered
      obtain ⟨hnear, hspaced⟩ := hspaced
      rw [ih hearlier hspaced]
      apply Nat.min_eq_right
      calc (now - start) / period
          ≤ (earlier.headD start - start + period) / period :=
            Nat.div_le_div_right (by omega)
        _ = (earlier.headD start - start) / period + 1 :=
            Nat.add_div_right _ hperiod

/-- There is no drift: each run is less than one gap behind its own time, after
however many runs. -/
theorem firings_onTime (hperiod : 0 < period) (hgap : gap ≤ period)
    (hordered : Chronological start checks) (hspaced : Spaced start gap checks) :
    OnTime start period gap (firings start period checks) := by
  induction checks with
  | nil => simp [OnTime, firings]
  | cons now earlier ih =>
      obtain ⟨hnow, hearlier⟩ := hordered
      obtain ⟨hnear, hspaced⟩ := hspaced
      simp only [firings]
      split
      · apply forall_split_cons _ (ih hearlier hspaced)
        -- at the look before, no further run was due
        have hcount := length_firings_of_spaced hperiod hgap hearlier hspaced
        have hlt := Nat.lt_succ_self ((earlier.headD start - start) / period)
        rw [← hcount, hcount, Nat.div_lt_iff_lt_mul hperiod, ← hcount] at hlt
        simp only [Nat.succ_eq_add_one] at hlt
        omega
      · exact ih hearlier hspaced

/-- A periodic task in the middle of a loop, with the next time it is due. -/
structure Periodic (start period now next : Nat) (checks fired : List Nat) :
    Prop where
  runs : fired = firings start period checks
  upcoming : next = start + (fired.length + 1) * period
  ordered : Chronological start checks
  past : checks.headD start ≤ now

theorem Periodic.init (hnow : start ≤ now) :
    Periodic start period now (start + period) [] [] := by
  refine ⟨rfl, ?_, trivial, hnow⟩
  simp

theorem Periodic.later {now' next : Nat}
    (htask : Periodic start period now next checks fired) (hnow : now ≤ now') :
    Periodic start period now' next checks fired :=
  ⟨htask.runs, htask.upcoming, htask.ordered, htask.past.trans hnow⟩

/-- The clock is looked at when the task is due, and it runs. -/
theorem Periodic.due {next : Nat}
    (htask : Periodic start period now next checks fired) (hdue : next ≤ now) :
    Periodic start period now (next + period) (now :: checks) (now :: fired) := by
  have hnext := htask.upcoming
  refine ⟨?_, ?_, ⟨htask.past, htask.ordered⟩, Nat.le_refl _⟩
  · rw [firings, ← htask.runs]
    exact (if_pos (hnext ▸ hdue)).symm
  · rw [hnext, List.length_cons, Nat.succ_mul (fired.length + 1), Nat.add_assoc]

/-- The clock is looked at before the task is due. -/
theorem Periodic.notDue {next : Nat}
    (htask : Periodic start period now next checks fired)
    (hnotDue : ¬ next ≤ now) :
    Periodic start period now next (now :: checks) fired := by
  have hnext := htask.upcoming
  refine ⟨?_, hnext, ⟨htask.past, htask.ordered⟩, Nat.le_refl _⟩
  rw [firings, ← htask.runs]
  exact (if_neg (hnext ▸ hnotDue)).symm

end Minerby
