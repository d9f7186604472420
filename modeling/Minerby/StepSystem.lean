/-
Guarded runs of a partial labelled step function.  A label resolves every
choice of the scheduler and of the environment, so a run is determined by its
labels and can be replayed.
-/
import Mathlib.Data.List.Basic

namespace Minerby

universe u v

variable {S : Type u} {L : Type v}

/-- A finite run, oldest label first.  The guard `ok` says which labels may be
taken in which states; the trivial guard gives every run of the system. -/
inductive Run (step : S → L → Option S) (ok : S → L → Prop) (start : S) :
    List L → S → Prop
  | nil : Run step ok start [] start
  | snoc {labels : List L} {mid last : S} (label : L)
      (run : Run step ok start labels mid) (allowed : ok mid label)
      (taken : step mid label = some last) :
      Run step ok start (labels ++ [label]) last

/-- The guard that allows every label. -/
def anyLabel (_ : S) (_ : L) : Prop := True

instance (state : S) (label : L) : Decidable (anyLabel state label) :=
  .isTrue trivial

/-- Replay a list of labels, failing at the first label that is not allowed or
not enabled. -/
def replay (step : S → L → Option S) (ok : S → L → Prop)
    [∀ state label, Decidable (ok state label)] : S → List L → Option S
  | state, [] => some state
  | state, label :: rest =>
      if ok state label then
        match step state label with
        | none => none
        | some next => replay step ok next rest
      else none

variable {step : S → L → Option S} {ok : S → L → Prop} {start last : S}

/-- Prefix one step to a run. -/
theorem Run.cons {mid : S} {labels : List L} (label : L)
    (hok : ok start label) (hstep : step start label = some mid)
    (hrun : Run step ok mid labels last) :
    Run step ok start (label :: labels) last := by
  induction hrun with
  | nil => exact Run.snoc label Run.nil hok hstep
  | snoc next run allowed taken ih => exact Run.snoc next ih allowed taken

/-- A successful replay is a guarded run. -/
theorem run_of_replay [∀ state label, Decidable (ok state label)]
    {labels : List L} (hreplay : replay step ok start labels = some last) :
    Run step ok start labels last := by
  induction labels generalizing start with
  | nil =>
      simp only [replay, Option.some.injEq] at hreplay
      subst hreplay
      exact Run.nil
  | cons label rest ih =>
      simp only [replay] at hreplay
      split at hreplay
      · rename_i hok
        cases hstep : step start label with
        | none => simp [hstep] at hreplay
        | some next =>
            simp only [hstep] at hreplay
            exact Run.cons label hok hstep (ih hreplay)
      · cases hreplay

/-- The induction rule for invariants: what every allowed step preserves holds
at the end of every run that starts with it. -/
theorem Run.invariant {Inv : S → Prop} {labels : List L}
    (hrun : Run step ok start labels last)
    (hpreserved : ∀ state label next, Inv state → ok state label →
      step state label = some next → Inv next)
    (hstart : Inv start) : Inv last := by
  induction hrun with
  | nil => exact hstart
  | snoc label run allowed taken ih =>
      exact hpreserved _ label _ ih allowed taken

/-- The last step of a run. -/
theorem Run.snoc_inv {labels : List L} {label : L}
    (hrun : Run step ok start (labels ++ [label]) last) :
    ∃ mid, Run step ok start labels mid ∧ ok mid label ∧
      step mid label = some last := by
  generalize hall : labels ++ [label] = all at hrun
  cases hrun with
  | nil => simp at hall
  | snoc other run allowed taken =>
      obtain ⟨rfl, heq⟩ := List.append_inj' hall rfl
      obtain rfl := List.singleton_inj.mp heq
      exact ⟨_, run, allowed, taken⟩

theorem Run.nil_inv (hrun : Run step ok start [] last) : last = start := by
  generalize hall : ([] : List L) = all at hrun
  cases hrun with
  | nil => rfl
  | snoc other run allowed taken => simp at hall

/-- The labels determine the run, whatever the guards. -/
theorem Run.unique {ok' : S → L → Prop} {labels : List L} {last' : S}
    (hrun : Run step ok start labels last)
    (hrun' : Run step ok' start labels last') : last' = last := by
  induction hrun generalizing last' with
  | nil => exact hrun'.nil_inv
  | snoc label run allowed taken ih =>
      obtain ⟨mid, hmid, -, hstep⟩ := hrun'.snoc_inv
      obtain rfl := ih hmid
      exact Option.some.inj (hstep.symm.trans taken)

/-- The rule for exact conditions: where a step keeps `P` exactly when the
guard allows it, `P` holds in every state of a run exactly when the guard
allows the whole run. -/
theorem Run.always_iff {P : S → Prop} {labels : List L}
    (hrun : Run step anyLabel start labels last) (hstart : P start)
    (hexact : ∀ state label next, P state → step state label = some next →
      (P next ↔ ok state label)) :
    (∀ before state, before <+: labels →
      Run step anyLabel start before state → P state) ↔
      Run step ok start labels last := by
  constructor
  · intro halways
    induction hrun with
    | nil => exact Run.nil
    | snoc label run allowed taken ih =>
        have hearlier := ih fun before state hbefore =>
          halways before state (hbefore.trans (List.prefix_append _ _))
        have hmid := halways _ _ (List.prefix_append _ _) run
        have hlast := halways _ _ (List.prefix_refl _)
          (Run.snoc label run allowed taken)
        exact Run.snoc label hearlier ((hexact _ _ _ hmid taken).mp hlast) taken
  · intro hguarded
    clear hrun
    induction hguarded with
    | nil =>
        intro before state hbefore hstate
        obtain rfl := List.prefix_nil.mp hbefore
        obtain rfl := hstate.nil_inv
        exact hstart
    | snoc label run allowed taken ih =>
        intro before state hbefore hstate
        rcases List.prefix_concat_iff.mp hbefore with rfl | hearlier
        · obtain ⟨mid, hmid, -, hstep⟩ := hstate.snoc_inv
          have hP := ih _ _ (List.prefix_refl _) hmid
          obtain rfl := run.unique hmid
          exact (hexact _ _ _ hP hstep).mpr allowed
        · exact ih before state hearlier hstate

end Minerby
