/-
Counting down.  What a run can still do is bounded by a number that its steps
use up, in whatever order the steps of different actors come.
-/
import Minerby.StepSystem

namespace Minerby

universe u v w

variable {S : Type u} {L : Type v} {step : S → L → Option S}
  {ok : S → L → Prop} {start last : S} {labels : List L}

/-- Every way to go on from `start` while the call is in progress has at most
`bound` steps, and none of them gets stuck before the call has returned. -/
def ReturnsWithin (step : S → L → Option S) (busy : S → Prop) (bound : Nat)
    (start : S) : Prop :=
  ∀ labels last, Run step (fun state _ => busy state) start labels last →
    labels.length ≤ bound ∧
      (busy last → ∃ label next, step last label = some next)

theorem countP_concat (mine : L → Bool) (labels : List L) (label : L) :
    (labels ++ [label]).countP mine =
      labels.countP mine + (mine label).toNat := by
  cases hmine : mine label <;> simp [List.countP_append, hmine]

/-- Where every step of `mine` takes one off `left`, and no other step adds to
it, `left` bounds how many steps of `mine` there are. -/
theorem Run.countP_le {Inv : S → Prop} (hrun : Run step ok start labels last)
    (mine : L → Bool) (left : S → Nat) (hstart : Inv start)
    (hspends : ∀ state label next, Inv state → ok state label →
      step state label = some next →
        Inv next ∧ left next + (mine label).toNat ≤ left state) :
    Inv last ∧ left last + labels.countP mine ≤ left start := by
  induction hrun with
  | nil => exact ⟨hstart, Nat.le_refl _⟩
  | snoc label run allowed taken ih =>
      obtain ⟨hinv, hle⟩ := ih
      obtain ⟨hnext, hspent⟩ := hspends _ label _ hinv allowed taken
      refine ⟨hnext, ?_⟩
      rw [countP_concat]
      omega

/-- Where a step of `mine` takes one off `left` as long as there is any left,
so many steps of `mine` leave nothing. -/
theorem Run.left_le {Inv : S → Prop} (hrun : Run step ok start labels last)
    (mine : L → Bool) (left : S → Nat) (hstart : Inv start)
    (hspends : ∀ state label next, Inv state → ok state label →
      step state label = some next →
        Inv next ∧ left next ≤ left state - (mine label).toNat) :
    Inv last ∧ left last ≤ left start - labels.countP mine := by
  induction hrun with
  | nil => exact ⟨hstart, Nat.le_refl _⟩
  | snoc label run allowed taken ih =>
      obtain ⟨hinv, hle⟩ := ih
      obtain ⟨hnext, hspent⟩ := hspends _ label _ hinv allowed taken
      refine ⟨hnext, ?_⟩
      rw [countP_concat]
      omega

/-- Where every step logs some events, and those that cost are paid for out of
`left`, a run logs no more of them than there was left. -/
theorem Run.logged_le {E : Type w} {Inv : S → Prop}
    (hrun : Run step ok start labels last) (log : S → List E)
    (costs : E → Bool) (left : S → Nat) (hstart : Inv start)
    (hspends : ∀ state label next, Inv state → ok state label →
      step state label = some next → Inv next ∧
        ∃ new, log next = new ++ log state ∧
          left next + new.countP costs ≤ left state) :
    Inv last ∧ ∃ new, log last = new ++ log start ∧
      left last + new.countP costs ≤ left start := by
  induction hrun with
  | nil => exact ⟨hstart, [], rfl, Nat.le_refl _⟩
  | snoc label run allowed taken ih =>
      obtain ⟨hinv, old, hold, hle⟩ := ih
      obtain ⟨hnext, new, hnew, hspent⟩ := hspends _ label _ hinv allowed taken
      refine ⟨hnext, new ++ old, ?_, ?_⟩
      · rw [hnew, hold, List.append_assoc]
      · rw [List.countP_append]
        omega

theorem ReturnsWithin.mono {busy : S → Prop} {bound bound' : Nat}
    (hreturns : ReturnsWithin step busy bound start) (hle : bound ≤ bound') :
    ReturnsWithin step busy bound' start := by
  intro labels last hrun
  obtain ⟨hlength, hgoesOn⟩ := hreturns labels last hrun
  exact ⟨Nat.le_trans hlength hle, hgoesOn⟩

/-- A call returns when each of its steps takes something off a measure and it
is never stuck. -/
theorem returnsWithin_of_measure {busy : S → Prop} {left : S → Nat}
    {Inv : S → Prop} (hstart : Inv start)
    (hspends : ∀ state label next, Inv state → busy state →
      step state label = some next → Inv next ∧ left next < left state)
    (hgoesOn : ∀ state, Inv state → busy state →
      ∃ label next, step state label = some next) :
    ReturnsWithin step busy (left start) start := by
  intro labels last hrun
  have hcounted := hrun.countP_le (fun _ => true) left hstart
    fun state label next hinv hbusy htaken =>
      (hspends state label next hinv hbusy htaken).imp_right Nat.succ_le_of_lt
  obtain ⟨hinv, hle⟩ := hcounted
  rw [List.countP_true] at hle
  exact ⟨by omega, hgoesOn last hinv⟩

/-- A run that goes on for ever. -/
def Endless (step : S → L → Option S) (start : S) : Prop :=
  ∃ states : Nat → S, states 0 = start ∧
    ∀ n, ∃ label, step (states n) label = some (states (n + 1))

/-- No run goes on for ever when each step takes something off a well-founded
measure. -/
theorem not_endless {W : Type w} {lt : W → W → Prop} (hwell : WellFounded lt)
    {left : S → W} {Inv : S → Prop} (hstart : Inv start)
    (hspends : ∀ state label next, Inv state →
      step state label = some next → Inv next ∧ lt (left next) (left state)) :
    ¬ Endless step start := by
  rintro ⟨states, rfl, hsteps⟩
  have hinv : ∀ n, Inv (states n) := by
    intro n
    induction n with
    | zero => exact hstart
    | succ n ih =>
        obtain ⟨label, hstep⟩ := hsteps n
        exact (hspends _ label _ ih hstep).1
  -- the measure of a state of the run is never the last
  have hnever : ∀ value, ∀ n, left (states n) ≠ value := by
    intro value
    induction value using hwell.induction with
    | h value ih =>
        intro n hvalue
        obtain ⟨label, hstep⟩ := hsteps n
        have hlt := (hspends _ label _ (hinv n) hstep).2
        rw [hvalue] at hlt
        exact ih _ hlt (n + 1) rfl
  exact hnever _ 0 rfl

end Minerby
