/-
Hidden calls of a machine with outputs.  Two runs are compared: one with the
hidden calls and one from which they have been purged.
-/
import Mathlib.Data.List.Induction

namespace Minerby

universe u v w

variable {S : Type u} {L : Type v} {O : Type w}

/-- The outputs of a list of calls, oldest first.  A call may have none. -/
def outputs (next : S → L → S) (out : S → L → Option O) :
    S → List L → List O
  | _, [] => []
  | s, call :: rest => (out s call).toList ++ outputs next out (next s call) rest

/-- Every hidden call finds a state that it leaves as it is. -/
def HiddenIdle (next : S → L → S) (hidden : L → Bool) : S → List L → Prop
  | _, [] => True
  | s, call :: rest =>
      (hidden call = true → next s call = s) ∧
        HiddenIdle next hidden (next s call) rest

/-- The calls that are not hidden. -/
def purge (hidden : L → Bool) (calls : List L) : List L :=
  calls.filter fun call => !hidden call

variable {next : S → L → S} {out : S → L → Option O} {hidden : L → Bool}

theorem outputs_append (s : S) (calls more : List L) :
    outputs next out s (calls ++ more) =
      outputs next out s calls ++
        outputs next out (calls.foldl next s) more := by
  induction calls generalizing s with
  | nil => rfl
  | cons call rest ih =>
      rw [List.cons_append, outputs, outputs, ih, List.append_assoc,
        List.foldl_cons]

theorem hiddenIdle_append (s : S) (calls more : List L) :
    HiddenIdle next hidden s (calls ++ more) ↔
      HiddenIdle next hidden s calls ∧
        HiddenIdle next hidden (calls.foldl next s) more := by
  induction calls generalizing s with
  | nil => simp [HiddenIdle]
  | cons call rest ih =>
      rw [List.cons_append, HiddenIdle, HiddenIdle, ih, and_assoc,
        List.foldl_cons]

theorem purge_append (calls more : List L) :
    purge hidden (calls ++ more) = purge hidden calls ++ purge hidden more :=
  List.filter_append calls more

theorem purge_visible {more : List L}
    (hvisible : ∀ call ∈ more, hidden call = false) :
    purge hidden more = more :=
  List.filter_eq_self.mpr fun call hcall => by simp [hvisible call hcall]

theorem HiddenIdle.of_visible {more : List L} (s : S)
    (hvisible : ∀ call ∈ more, hidden call = false) :
    HiddenIdle next hidden s more := by
  induction more generalizing s with
  | nil => trivial
  | cons call rest ih =>
      refine ⟨fun hcall => ?_, ih _ fun other hother =>
        hvisible other (List.mem_cons_of_mem call hother)⟩
      rw [hvisible call List.mem_cons_self] at hcall
      cases hcall

/-- Purging idle calls changes neither the state nor, if they are silent, the
outputs. -/
theorem HiddenIdle.purge_eq
    (hsilent : ∀ s call, hidden call = true → out s call = none) {s : S}
    {calls : List L} (hidle : HiddenIdle next hidden s calls) :
    (purge hidden calls).foldl next s = calls.foldl next s ∧
      outputs next out s (purge hidden calls) = outputs next out s calls := by
  induction calls generalizing s with
  | nil => exact ⟨rfl, rfl⟩
  | cons call rest ih =>
      obtain ⟨hcall, hrest⟩ := hidle
      obtain ⟨hstate, hout⟩ := ih hrest
      cases hhidden : hidden call with
      | true =>
          have hpurge : purge hidden (call :: rest) = purge hidden rest :=
            List.filter_cons_of_neg (by simp [hhidden])
          rw [hcall hhidden] at hstate hout
          rw [hpurge, outputs, List.foldl_cons, hcall hhidden,
            hsilent s call hhidden]
          exact ⟨hstate, hout⟩
      | false =>
          have hpurge : purge hidden (call :: rest) =
              call :: purge hidden rest :=
            List.filter_cons_of_pos (by simp [hhidden])
          rw [hpurge, outputs, outputs, List.foldl_cons, List.foldl_cons, hout]
          exact ⟨hstate, rfl⟩

/-- The rule for exact conditions.  Where a hidden call that changes the state
can always be told from its absence by calls that are allowed to follow it, the
hidden calls stay without effect on every allowed way to go on exactly when all
of them are idle. -/
theorem purge_unnoticed_iff {allowed : List L → Prop} {s : S} {calls : List L}
    (hsilent : ∀ s call, hidden call = true → out s call = none)
    (htold : ∀ before call, before ++ [call] <+: calls → hidden call = true →
      next (before.foldl next s) call ≠ before.foldl next s →
      ∃ more, (∀ later ∈ more, hidden later = false) ∧
        allowed (before ++ [call] ++ more) ∧
        outputs next out (next (before.foldl next s) call) more ≠
          outputs next out (before.foldl next s) more) :
    (∀ before more, before <+: calls →
      (∀ later ∈ more, hidden later = false) → allowed (before ++ more) →
      outputs next out s (purge hidden (before ++ more)) =
        outputs next out s (before ++ more)) ↔
      HiddenIdle next hidden s calls := by
  constructor
  · intro hsame
    -- the prefixes of `calls` one by one: the states of the two runs agree up
    -- to the first hidden call that is not idle
    suffices hprefix : ∀ before, before <+: calls →
        HiddenIdle next hidden s before from hprefix calls (List.prefix_refl _)
    intro before
    induction before using List.reverseRecOn with
    | nil => exact fun _ => trivial
    | append_singleton before call ih =>
        intro hbefore
        have hidle := ih ((List.prefix_append before [call]).trans hbefore)
        refine (hiddenIdle_append _ _ _).mpr ⟨hidle, fun hcall => ?_, trivial⟩
        by_contra hchanged
        obtain ⟨more, hvisible, hallowed, hdiffer⟩ :=
          htold before call hbefore hcall hchanged
        have hrun := hsame _ more hbefore hvisible hallowed
        obtain ⟨hstate, hout⟩ := hidle.purge_eq hsilent
        have hcallPurged : purge hidden [call] = [] :=
          List.filter_cons_of_neg (by simp [hcall])
        rw [purge_append, purge_append, hcallPurged, List.append_nil,
          purge_visible hvisible, outputs_append, hstate, hout,
          List.append_assoc, outputs_append, List.append_cancel_left_eq,
          List.singleton_append, outputs, hsilent _ _ hcall] at hrun
        exact hdiffer hrun.symm
  · intro hidle before more hbefore hvisible _
    obtain ⟨rest, rfl⟩ := hbefore
    have hbeforeIdle := ((hiddenIdle_append _ _ _).mp hidle).1
    exact ((hiddenIdle_append _ _ _).mpr ⟨hbeforeIdle,
      HiddenIdle.of_visible _ hvisible⟩).purge_eq hsilent |>.2

end Minerby
