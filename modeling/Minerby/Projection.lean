/-
Runs seen through a projection.  A system each of whose steps moves a smaller
one along, or leaves it alone, takes the smaller one through a run of its own,
so what holds of every run of the smaller one holds inside the larger.
-/
import Minerby.StepSystem

namespace Minerby

universe u v w x

variable {S : Type u} {L : Type v} {T : Type w} {M : Type x}
  {step : S → L → Option S} {ok : S → L → Prop}
  {step' : T → M → Option T} {ok' : T → M → Prop}

/-- What a step of the larger system makes of the smaller: nothing, or one
allowed step. -/
def Stutters (step' : T → M → Option T) (ok' : T → M → Prop)
    (before after : T) : Prop :=
  after = before ∨
    ∃ label, ok' before label ∧ step' before label = some after

theorem Stutters.extend {start before after : T} {labels : List M}
    (hrun : Run step' ok' start labels before)
    (hstep : Stutters step' ok' before after) :
    ∃ labels, Run step' ok' start labels after := by
  rcases hstep with hsame | ⟨label, hok, htaken⟩
  · exact ⟨labels, hsame ▸ hrun⟩
  · exact ⟨labels ++ [label], Run.snoc label hrun hok htaken⟩

/-- The forward simulation rule, with an invariant of the larger system. -/
theorem Run.project {start last : S} {labels : List L}
    (hrun : Run step ok start labels last) (view : S → T) (Inv : S → Prop)
    (hstart : Inv start)
    (hsim : ∀ state label next, Inv state → ok state label →
      step state label = some next →
        Inv next ∧ Stutters step' ok' (view state) (view next)) :
    Inv last ∧ ∃ labels', Run step' ok' (view start) labels' (view last) := by
  induction hrun with
  | nil => exact ⟨hstart, [], Run.nil⟩
  | snoc label run allowed taken ih =>
      obtain ⟨hinv, before, hbefore⟩ := ih
      obtain ⟨hnext, hstutters⟩ := hsim _ label _ hinv allowed taken
      exact ⟨hnext, hstutters.extend hbefore⟩

end Minerby
