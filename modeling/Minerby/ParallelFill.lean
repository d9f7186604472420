/-
A table filled by threads that share the work.  Each thread is given some keys
and writes the value of one after another; the threads are started one by one,
while those already started run, and in any order.
-/
import Mathlib.Data.List.Perm.Basic
import Minerby.StepSystem

namespace Minerby

universe u v

/-- The table, the keys of the threads that are still to be started, and those
that each thread has left. -/
structure Fill (Key : Type u) (Value : Type v) where
  table : Key → Option Value := fun _ => none
  toStart : List (List Key) := []
  running : List (List Key) := []

variable {Key : Type u} {Value : Type v}

namespace Fill

/-- The next thread is started. -/
def start (f : Fill Key Value) : Option (Fill Key Value) :=
  match f.toStart with
  | [] => none
  | keys :: rest =>
      some { f with toStart := rest, running := f.running ++ [keys] }

/-- Thread `i` writes the value of its next key. -/
def write [DecidableEq Key] (f : Fill Key Value) (value : Key → Value)
    (i : Nat) : Option (Fill Key Value) :=
  match f.running[i]? with
  | some (key :: keys) =>
      some { f with
        table := Function.update f.table key (some (value key))
        running := f.running.set i keys }
  | _ => none

/-- All threads have been started and have nothing left. -/
def joined (f : Fill Key Value) : Bool :=
  f.toStart.isEmpty && f.running.all List.isEmpty

/-- The keys that are still to be written. -/
def left (f : Fill Key Value) : List Key :=
  f.toStart.flatten ++ f.running.flatten

/-- Of the keys some are left, each once, and the others have their value;
nothing else has changed. -/
structure Filling (value : Key → Value) (keys : List Key)
    (before : Key → Option Value) (f : Fill Key Value) : Prop where
  nodup : f.left.Nodup
  subset : f.left ⊆ keys
  written : ∀ key ∈ keys, key ∉ f.left → f.table key = some (value key)
  frame : ∀ key, key ∉ keys → f.table key = before key

variable {value : Key → Value} {keys : List Key} {before : Key → Option Value}
  {f f' : Fill Key Value}

theorem start_left (hstart : f.start = some f') :
    f'.table = f.table ∧ f'.left.Perm f.left := by
  unfold start at hstart
  split at hstart
  · cases hstart
  · rename_i first rest hto
    obtain rfl := Option.some.inj hstart
    refine ⟨rfl, ?_⟩
    have hperm : (rest.flatten ++ (f.running.flatten ++ first)).Perm
        (first ++ (rest.flatten ++ f.running.flatten)) := by
      rw [← List.append_assoc]
      exact List.perm_append_comm
    simpa [left, hto] using hperm

/-- What one thread has left is taken out of the whole. -/
theorem flatten_set_perm {lists : List (List Key)} {i : Nat} {key : Key}
    {rest : List Key} (hi : lists[i]? = some (key :: rest)) :
    lists.flatten.Perm (key :: (lists.set i rest).flatten) := by
  induction lists generalizing i with
  | nil => simp at hi
  | cons first lists ih =>
      cases i with
      | zero =>
          simp only [List.getElem?_cons_zero, Option.some.injEq] at hi
          subst hi
          simp
      | succ i =>
          simp only [List.getElem?_cons_succ] at hi
          have hperm := (ih hi).append_left first
          simp only [List.flatten_cons, List.set_cons_succ]
          exact hperm.trans List.perm_middle

theorem write_left [DecidableEq Key] {i : Nat}
    (hwrite : f.write value i = some f') :
    ∃ key, f.left.Perm (key :: f'.left) ∧
      f'.table = Function.update f.table key (some (value key)) := by
  unfold write at hwrite
  split at hwrite
  · rename_i key rest hi
    obtain rfl := Option.some.inj hwrite
    refine ⟨key, ?_, rfl⟩
    have hperm := (flatten_set_perm hi).append_left f.toStart.flatten
    exact hperm.trans List.perm_middle
  · cases hwrite

theorem Filling.start (hfilling : Filling value keys before f)
    (hstart : f.start = some f') : Filling value keys before f' := by
  obtain ⟨htable, hperm⟩ := start_left hstart
  refine ⟨hperm.nodup_iff.mpr hfilling.nodup,
    fun key hkey => hfilling.subset (hperm.subset hkey), ?_, ?_⟩
  · intro key hkey hwritten
    rw [htable]
    exact hfilling.written key hkey (mt hperm.mem_iff.mpr hwritten)
  · rw [htable]
    exact hfilling.frame

theorem Filling.write [DecidableEq Key] {i : Nat}
    (hfilling : Filling value keys before f)
    (hwrite : f.write value i = some f') : Filling value keys before f' := by
  obtain ⟨key, hperm, htable⟩ := write_left hwrite
  have hnodup := hperm.nodup_iff.mp hfilling.nodup
  obtain ⟨hkey, hrest⟩ := List.nodup_cons.mp hnodup
  have hmem : key ∈ keys :=
    hfilling.subset (hperm.mem_iff.mpr List.mem_cons_self)
  refine ⟨hrest, ?_, ?_, ?_⟩
  · intro other hother
    exact hfilling.subset (hperm.mem_iff.mpr (List.mem_cons_of_mem _ hother))
  · intro other hother hwritten
    rw [htable]
    by_cases hsame : other = key
    · rw [hsame, Function.update_self]
    · rw [Function.update_of_ne hsame]
      apply hfilling.written other hother
      intro hleft
      rcases List.mem_cons.mp (hperm.mem_iff.mp hleft) with h | h
      · exact hsame h
      · exact hwritten h
  · intro other hother
    have hne : other ≠ key := fun h => hother (h ▸ hmem)
    rw [htable, Function.update_of_ne hne]
    exact hfilling.frame other hother

theorem left_of_joined (hjoined : f.joined = true) : f.left = [] := by
  obtain ⟨hstarted, hrunning⟩ := Bool.and_eq_true_iff.mp hjoined
  have hflat : f.running.flatten = [] := by
    apply List.flatten_eq_nil_iff.mpr
    intro list hlist
    exact List.isEmpty_iff.mp (List.all_eq_true.mp hrunning list hlist)
  rw [left, List.isEmpty_iff.mp hstarted, hflat]
  rfl

/-- When the threads have been joined every key has its value. -/
theorem Filling.complete (hfilling : Filling value keys before f)
    (hjoined : f.joined = true) : ∀ key ∈ keys, f.table key = some (value key) := by
  intro key hkey
  apply hfilling.written key hkey
  rw [left_of_joined hjoined]
  exact List.not_mem_nil

/-- The work is divided among the threads, each key given once. -/
theorem Filling.begin {parts : List (List Key)} (hkeys : parts.flatten = keys)
    (hnodup : keys.Nodup) (value : Key → Value)
    (hframe : ∀ key, key ∉ keys → f.table key = before key) :
    Filling value keys before { f with toStart := parts, running := [] } := by
  have hleft : Fill.left { f with toStart := parts, running := [] } = keys := by
    simp [left, hkeys]
  refine ⟨hleft.symm ▸ hnodup, ?_, ?_, hframe⟩
  · rw [hleft]
    exact List.Subset.refl keys
  · intro key hkey hwritten
    exact absurd (hleft.symm ▸ hkey) hwritten

end Fill

end Minerby
