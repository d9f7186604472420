/-
Lists cut at a terminator: the segments that are ended by one, and what is left
after the last.
-/
import Mathlib.Data.List.Basic

namespace Minerby

universe u

variable {α : Type u} [DecidableEq α]

/-- The terminated segments, without their terminators. -/
def segments (sep : α) : List α → List (List α)
  | [] => []
  | a :: rest =>
      if a = sep then [] :: segments sep rest
      else
        match segments sep rest with
        | [] => []
        | segment :: more => (a :: segment) :: more

/-- A segment that is ended comes first. -/
theorem segments_append_cons {sep : α} {segment : List α}
    (hsegment : sep ∉ segment) (rest : List α) :
    segments sep (segment ++ sep :: rest) = segment :: segments sep rest := by
  induction segment with
  | nil => simp [segments]
  | cons a more ih =>
      have hne : a ≠ sep := fun h => hsegment (h ▸ List.mem_cons_self)
      have hmore := ih fun h => hsegment (List.mem_cons_of_mem a h)
      simp [segments, hne, hmore]

theorem segments_of_not_mem {sep : α} {list : List α} (hlist : sep ∉ list) :
    segments sep list = [] := by
  induction list with
  | nil => rfl
  | cons a more ih =>
      have hne : a ≠ sep := fun h => hlist (h ▸ List.mem_cons_self)
      have hmore := ih fun h => hlist (List.mem_cons_of_mem a h)
      simp [segments, hne, hmore]

/-- Segments that were terminated are found again, before those of the rest. -/
theorem segments_flatMap_append {sep : α} {list : List (List α)}
    (hlist : ∀ segment ∈ list, sep ∉ segment) (rest : List α) :
    segments sep (list.flatMap (fun segment => segment ++ [sep]) ++ rest) =
      list ++ segments sep rest := by
  induction list with
  | nil => rfl
  | cons segment more ih =>
      have hsegment := hlist segment List.mem_cons_self
      have hmore := ih fun s hs => hlist s (List.mem_cons_of_mem segment hs)
      simp only [List.flatMap_cons, List.append_assoc, List.cons_append,
        List.nil_append]
      rw [segments_append_cons hsegment, hmore]

/-- There are as many segments as terminators. -/
theorem length_segments (sep : α) (list : List α) :
    (segments sep list).length = list.count sep := by
  induction hn : list.count sep generalizing list with
  | zero => rw [segments_of_not_mem (List.count_eq_zero.mp hn), List.length_nil]
  | succ n ih =>
      have hmem : sep ∈ list := List.count_pos_iff.mp (by omega)
      obtain ⟨segment, rest, rfl, hsegment⟩ :=
        List.eq_append_cons_of_mem hmem
      have hcount : rest.count sep = n := by
        simp only [List.count_append, List.count_cons_self,
          List.count_eq_zero.mpr hsegment] at hn
        omega
      rw [segments_append_cons hsegment, List.length_cons, ih rest hcount]

/-- What is left after the last terminator. -/
def remainder (sep : α) (list : List α) : List α :=
  (list.reverse.takeWhile (· ≠ sep)).reverse

theorem remainder_append {sep : α} {rest : List α} (hrest : sep ∉ rest)
    (before : List α) :
    remainder sep (before ++ rest) = remainder sep before ++ rest := by
  have hmem : ∀ a ∈ rest.reverse, decide (a ≠ sep) = true := by
    intro a ha
    rw [decide_eq_true_eq]
    rintro rfl
    exact hrest (List.mem_reverse.mp ha)
  unfold remainder
  rw [List.reverse_append, List.takeWhile_append_of_pos hmem,
    List.reverse_append, List.reverse_reverse]

/-- After terminated segments, the rest is what is left. -/
theorem remainder_flatMap_append {sep : α} {rest : List α}
    (hrest : sep ∉ rest) (list : List (List α)) :
    remainder sep (list.flatMap (fun segment => segment ++ [sep]) ++ rest) =
      rest := by
  have hended : remainder sep
      (list.flatMap fun segment => segment ++ [sep]) = [] := by
    rcases List.eq_nil_or_concat list with rfl | ⟨init, last, rfl⟩
    · rfl
    · simp [remainder]
  rw [remainder_append hrest, hended, List.nil_append]

end Minerby
