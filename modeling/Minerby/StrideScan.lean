/-
A search space divided among `n` workers by stride.  For one key, worker `i`
tries the positions `i`, `i + n`, `i + 2n`, … in this order and reports a
position at most once before it tries the next.  The ledger of all trials, of
all workers and keys together, then repeats no position and no report, and the
strides up to a bound divide the positions below it among the workers.
-/
import Mathlib.Algebra.BigOperators.Fin
import Mathlib.Algebra.Order.BigOperators.Group.Finset
import Mathlib.Data.List.Nodup
import Mathlib.Data.List.Sort

namespace Minerby

namespace StrideScan

universe u

variable {n : Nat} {K : Type u}

/-- One entry of the ledger. -/
inductive Trial (n : Nat) (K : Type u) where
  | tried (i : Fin n) (key : K) (pos : Nat)
  | reported (i : Fin n) (key : K) (pos : Nat)

/-- How many positions a worker has tried for a key, entries newest first. -/
def triedCount [DecidableEq K] (i : Fin n) (key : K) :
    List (Trial n K) → Nat
  | [] => 0
  | .tried j key' _ :: rest =>
      triedCount i key rest + (if j = i ∧ key' = key then 1 else 0)
  | .reported _ _ _ :: rest => triedCount i key rest

/-- The worker's last trial, while it has not been reported. -/
def pending (i : Fin n) : List (Trial n K) → Option (K × Nat)
  | [] => none
  | .tried j key pos :: rest => if j = i then some (key, pos) else pending i rest
  | .reported j _ _ :: rest => if j = i then none else pending i rest

def triedKeys : List (Trial n K) → List (K × Nat)
  | [] => []
  | .tried _ key pos :: rest => (key, pos) :: triedKeys rest
  | .reported _ _ _ :: rest => triedKeys rest

def reportedKeys : List (Trial n K) → List (K × Nat)
  | [] => []
  | .tried _ _ _ :: rest => reportedKeys rest
  | .reported _ key pos :: rest => (key, pos) :: reportedKeys rest

/-- A ledger kept by the rule: the next position tried is the next one of the
worker's stride, and only a pending trial is reported. -/
inductive Ledger [DecidableEq K] : List (Trial n K) → Prop
  | nil : Ledger []
  | tried {trials : List (Trial n K)} {i : Fin n} {key : K} {pos : Nat}
      (ledger : Ledger trials)
      (next : pos = i + n * triedCount i key trials) :
      Ledger (.tried i key pos :: trials)
  | reported {trials : List (Trial n K)} {i : Fin n} {key : K} {pos : Nat}
      (ledger : Ledger trials) (open_ : pending i trials = some (key, pos)) :
      Ledger (.reported i key pos :: trials)

variable {trials : List (Trial n K)}

/-- The strides of two workers do not meet. -/
theorem stride_inj {i j : Fin n} {k l : Nat}
    (heq : (i : Nat) + n * k = j + n * l) : i = j ∧ k = l := by
  have hmod : ((i : Nat) + n * k) % n = (j + n * l) % n := by rw [heq]
  rw [Nat.add_mul_mod_self_left, Nat.add_mul_mod_self_left,
    Nat.mod_eq_of_lt i.isLt, Nat.mod_eq_of_lt j.isLt] at hmod
  refine ⟨Fin.ext hmod, ?_⟩
  have hmul : n * k = n * l := by omega
  exact Nat.eq_of_mul_eq_mul_left (Nat.zero_lt_of_lt i.isLt) hmul

/-- Reports are of positions tried, and a pending position is one of the
worker's own stride, tried and not reported. -/
structure Reported (trials : List (Trial n K)) : Prop where
  subset : ∀ entry ∈ reportedKeys trials, entry ∈ triedKeys trials
  tried : ∀ i entry, pending i trials = some entry → entry ∈ triedKeys trials
  own : ∀ i entry, pending i trials = some entry →
    ∃ k, entry.2 = (i : Nat) + n * k
  fresh : ∀ i entry, pending i trials = some entry →
    entry ∉ reportedKeys trials
  nodup : (reportedKeys trials).Nodup

theorem Reported.reported_step (hreported : Reported trials) {i : Fin n}
    {key : K} {pos : Nat} (hopen : pending i trials = some (key, pos)) :
    Reported (.reported i key pos :: trials) := by
  constructor
  · intro entry hmem
    simp only [reportedKeys, List.mem_cons] at hmem
    rcases hmem with rfl | hmem
    · exact hreported.tried i _ hopen
    · exact hreported.subset entry hmem
  · intro j entry hpending
    simp only [pending] at hpending
    split at hpending
    · cases hpending
    · exact hreported.tried j entry hpending
  · intro j entry hpending
    simp only [pending] at hpending
    split at hpending
    · cases hpending
    · exact hreported.own j entry hpending
  · intro j entry hpending
    simp only [pending] at hpending
    split at hpending
    · cases hpending
    · rename_i hij
      simp only [reportedKeys, List.mem_cons, not_or]
      refine ⟨?_, hreported.fresh j entry hpending⟩
      rintro rfl
      obtain ⟨k, hk⟩ := hreported.own i _ hopen
      obtain ⟨l, hl⟩ := hreported.own j _ hpending
      exact hij (stride_inj (hk.symm.trans hl)).1
  · exact List.nodup_cons.mpr ⟨hreported.fresh i _ hopen, hreported.nodup⟩

variable [DecidableEq K]

/-- Every position tried is an earlier one of some worker's stride. -/
theorem Ledger.exists_of_mem_triedKeys (hledger : Ledger trials) {key : K}
    {pos : Nat} (hmem : (key, pos) ∈ triedKeys trials) :
    ∃ (i : Fin n) (k : Nat), k < triedCount i key trials ∧ pos = i + n * k := by
  induction hledger with
  | nil => simp [triedKeys] at hmem
  | tried ledger next ih =>
      rename_i older i key' pos'
      simp only [triedKeys, List.mem_cons, Prod.mk.injEq] at hmem
      rcases hmem with ⟨rfl, rfl⟩ | hmem
      · exact ⟨i, triedCount i key older, by simp [triedCount], next⟩
      · obtain ⟨j, k, hlt, hpos⟩ := ih hmem
        exact ⟨j, k, by simp only [triedCount]; omega, hpos⟩
  | reported ledger open_ ih =>
      simp only [triedKeys] at hmem
      exact ih hmem

theorem Ledger.next_not_mem (hledger : Ledger trials) (i : Fin n) (key : K) :
    (key, (i : Nat) + n * triedCount i key trials) ∉ triedKeys trials := by
  intro hmem
  obtain ⟨j, k, hlt, hpos⟩ := hledger.exists_of_mem_triedKeys hmem
  obtain ⟨rfl, rfl⟩ := stride_inj hpos
  exact Nat.lt_irrefl _ hlt

/-- No position is tried twice for one key. -/
theorem Ledger.triedKeys_nodup (hledger : Ledger trials) :
    (triedKeys trials).Nodup := by
  induction hledger with
  | nil => exact List.nodup_nil
  | tried ledger next ih =>
      subst next
      exact List.nodup_cons.mpr ⟨ledger.next_not_mem _ _, ih⟩
  | reported ledger open_ ih => exact ih

theorem Reported.tried_step (hreported : Reported trials)
    (hledger : Ledger trials) (i : Fin n) (key : K) :
    Reported (.tried i key (i + n * triedCount i key trials) :: trials) := by
  have hnew := hledger.next_not_mem i key
  constructor
  · intro entry hmem
    exact List.mem_cons_of_mem _ (hreported.subset entry hmem)
  · intro j entry hpending
    simp only [pending] at hpending
    split at hpending
    · obtain rfl := Option.some.inj hpending
      exact List.mem_cons_self
    · exact List.mem_cons_of_mem _ (hreported.tried j entry hpending)
  · intro j entry hpending
    simp only [pending] at hpending
    split at hpending
    · rename_i hij
      obtain rfl := Option.some.inj hpending
      exact ⟨triedCount i key trials, by rw [hij]⟩
    · exact hreported.own j entry hpending
  · intro j entry hpending
    simp only [pending] at hpending
    split at hpending
    · obtain rfl := Option.some.inj hpending
      exact fun hmem => hnew (hreported.subset _ hmem)
    · exact hreported.fresh j entry hpending
  · exact hreported.nodup

theorem Ledger.reported_invariant (hledger : Ledger trials) :
    Reported trials := by
  induction hledger with
  | nil => constructor <;> simp [pending, reportedKeys]
  | tried ledger next ih =>
      subst next
      exact ih.tried_step ledger _ _
  | reported ledger open_ ih => exact ih.reported_step open_

/-- No position is reported twice for one key. -/
theorem Ledger.reportedKeys_nodup (hledger : Ledger trials) :
    (reportedKeys trials).Nodup :=
  hledger.reported_invariant.nodup

/-- The positions below `bound` of worker `i`. -/
def residueClass (bound n i : Nat) : List Nat :=
  (List.range bound).filter fun pos => pos % n = i

theorem residueClass_nodup (bound n i : Nat) :
    (residueClass bound n i).Nodup :=
  List.nodup_range.filter _

/-- The positions of a stride up to the bound are its residue class. -/
theorem stride_eq_residueClass {bound n i count : Nat} (hi : i < n)
    (hbelow : ∀ k < count, i + n * k < bound)
    (hnext : bound ≤ i + n * count) :
    (List.range count).map (fun k => i + n * k) = residueClass bound n i := by
  have hstride :
      ((List.range count).map fun k => i + n * k).Pairwise (· < ·) := by
    rw [List.pairwise_map]
    apply List.pairwise_lt_range.imp
    intro k l hkl
    have hmul := Nat.mul_lt_mul_of_pos_left hkl (Nat.zero_lt_of_lt hi)
    omega
  have hclass : (residueClass bound n i).Pairwise (· < ·) :=
    List.pairwise_lt_range.filter _
  have hmem : ∀ pos, pos ∈ (List.range count).map (fun k => i + n * k) ↔
      pos ∈ residueClass bound n i := by
    intro pos
    simp only [residueClass, List.mem_map, List.mem_range, List.mem_filter,
      decide_eq_true_eq]
    constructor
    · rintro ⟨k, hk, rfl⟩
      refine ⟨hbelow k hk, ?_⟩
      rw [Nat.add_mul_mod_self_left, Nat.mod_eq_of_lt hi]
    · rintro ⟨hpos, hmod⟩
      have hdiv := Nat.mod_add_div pos n
      rw [hmod] at hdiv
      refine ⟨pos / n, ?_, hdiv⟩
      apply Nat.lt_of_mul_lt_mul_left (a := n)
      omega
  have hperm := (List.perm_ext_iff_of_nodup
    (hstride.imp Nat.ne_of_lt) (hclass.imp Nat.ne_of_lt)).mpr hmem
  exact hperm.eq_of_pairwise (fun _ _ _ _ hlt hgt => absurd hlt hgt.not_gt)
    hstride hclass

/-- The first positions of a stride are a first part of its residue class. -/
theorem stride_prefix_residueClass {bound n i count : Nat} (hi : i < n)
    (hbelow : ∀ k < count, i + n * k < bound) :
    (List.range count).map (fun k => i + n * k) <+: residueClass bound n i := by
  have hcut : (List.range count).map (fun k => i + n * k) =
      residueClass (min bound (i + n * count)) n i := by
    apply stride_eq_residueClass hi
    · intro k hk
      have hmul := Nat.mul_lt_mul_of_pos_left hk (Nat.zero_lt_of_lt hi)
      have hlt := hbelow k hk
      omega
    · exact Nat.min_le_right _ _
  have hrange :
      List.range (min bound (i + n * count)) <+: List.range bound := by
    rw [Nat.min_comm, ← List.take_range]
    exact List.take_prefix _ _
  rw [hcut]
  exact hrange.filter _

theorem count_residueClass {bound n i pos : Nat} (hpos : pos < bound) :
    (residueClass bound n i).count pos = if pos % n = i then 1 else 0 := by
  rw [(residueClass_nodup bound n i).count]
  simp [residueClass, hpos]

/-- The classes of all workers together have every position once. -/
theorem sum_count_residueClass {bound n pos : Nat} (hpos : pos < bound)
    (hn : 0 < n) : ∑ i : Fin n, (residueClass bound n i).count pos = 1 := by
  have howner : ∀ i : Fin n, (residueClass bound n i).count pos =
      if (⟨pos % n, Nat.mod_lt _ hn⟩ : Fin n) = i then 1 else 0 := by
    intro i
    rw [count_residueClass hpos]
    simp only [Fin.ext_iff]
  simp only [howner, Finset.sum_ite_eq, Finset.mem_univ, ↓reduceIte]

/-- Over all workers, what is tried of the classes is tried once. -/
theorem sum_count_le_one {bound n pos : Nat} (hpos : pos < bound) (hn : 0 < n)
    {tried : Fin n → List Nat}
    (hfirst : ∀ i, tried i <+: residueClass bound n i) :
    ∑ i, (tried i).count pos ≤ 1 := by
  calc ∑ i, (tried i).count pos
      ≤ ∑ i : Fin n, (residueClass bound n i).count pos :=
        Finset.sum_le_sum fun i _ => (hfirst i).sublist.count_le _
    _ = 1 := sum_count_residueClass hpos hn

end StrideScan

end Minerby
