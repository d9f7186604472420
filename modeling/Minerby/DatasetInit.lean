/-
The ranges of dataset items that fast mode hands to its threads.  An `unsigned`
has 32 bits; an `unsigned long` has `w`, which is 64 or, on some platforms, 32.
-/
import Mathlib.Data.List.Nodup
import Mathlib.Data.Nat.Basic
import Mathlib.Tactic.Ring

namespace Minerby

variable {w : Nat}

/-- What a thread passes to `randomx_init_dataset`. -/
structure ItemRange (w : Nat) where
  start : BitVec w
  count : BitVec w
deriving Repr, DecidableEq

/-- The items from `start` on, `count` of them. -/
def ItemRange.items (range : ItemRange w) : List Nat :=
  List.range' range.start.toNat range.count.toNat

namespace RandomXContext

/-- The body of the loop: the range of thread `i` of `n`. -/
def threadRange (total : BitVec w) (n i : UInt32) : ItemRange w :=
  let per := total / BitVec.ofNat w n.toNat
  let start := BitVec.ofNat w i.toNat * per
  ⟨start, if i = n - 1 then total - start else per⟩

/-- The ranges in the order the threads are created in. -/
def buildDatasetParallel (total : BitVec w) (initThreads : UInt32) :
    List (ItemRange w) :=
  let n := max 1 initThreads
  (List.range n.toNat).map fun i => threadRange total n (UInt32.ofNat i)

end RandomXContext

/-- Blocks of equal size, one after another. -/
theorem flatMap_blocks (per k : Nat) :
    ((List.range k).flatMap fun i => List.range' (i * per) per) =
      List.range (k * per) := by
  induction k with
  | zero => simp
  | succ k ih =>
      rw [List.range_succ, List.flatMap_append, ih, List.flatMap_singleton,
        Nat.succ_mul, List.range_eq_range', List.range_eq_range',
        ← List.range'_append_1, Nat.zero_add]

namespace RandomXContext

/-- The arithmetic of the loop is exact: no product overflows, and nothing is
subtracted from less. -/
structure Exact (total : BitVec w) (n i : Nat) (range : ItemRange w) :
    Prop where
  start : range.start.toNat = i * (total.toNat / n)
  start_le : range.start.toNat ≤ total.toNat
  count : range.count.toNat =
    if i + 1 = n then total.toNat - range.start.toNat else total.toNat / n

/-- A range ends within the dataset. -/
theorem Exact.end_le {total : BitVec w} {n i : Nat} {range : ItemRange w}
    (hexact : Exact total n i range) (hi : i < n) :
    range.start.toNat + range.count.toNat ≤ total.toNat := by
  rw [hexact.count]
  split
  · exact (Nat.add_sub_cancel' hexact.start_le).le
  · have hnext : (i + 1) * (total.toNat / n) ≤ n * (total.toNat / n) :=
      Nat.mul_le_mul_right _ hi
    rw [hexact.start, ← Nat.succ_mul]
    exact hnext.trans (Nat.mul_div_le _ _)

theorem threadRange_exact (hw : 32 ≤ w) (total : BitVec w) {n i : UInt32}
    (hi : i.toNat < n.toNat) :
    Exact total n.toNat i.toNat (threadRange total n i) := by
  have hpow : 2 ^ 32 ≤ 2 ^ w := Nat.pow_le_pow_right (by decide) hw
  have hn := n.toNat_lt
  have hper : (total / BitVec.ofNat w n.toNat).toNat =
      total.toNat / n.toNat := by
    rw [BitVec.toNat_udiv, BitVec.toNat_ofNat, Nat.mod_eq_of_lt (by omega)]
  have hle : i.toNat * (total.toNat / n.toNat) ≤ total.toNat := by
    calc i.toNat * (total.toNat / n.toNat)
        ≤ n.toNat * (total.toNat / n.toNat) :=
          Nat.mul_le_mul_right _ (Nat.le_of_lt hi)
      _ ≤ total.toNat := Nat.mul_div_le _ _
  have hstart : (threadRange total n i).start.toNat =
      i.toNat * (total.toNat / n.toNat) := by
    have hlt := total.isLt
    rw [threadRange, BitVec.toNat_mul, hper, BitVec.toNat_ofNat,
      Nat.mod_eq_of_lt (a := i.toNat) (by omega),
      Nat.mod_eq_of_lt (hle.trans_lt hlt)]
  have hlast : i = n - 1 ↔ i.toNat + 1 = n.toNat := by
    have hone : (1 : UInt32) ≤ n := UInt32.le_iff_toNat_le.mpr (by
      change 1 ≤ n.toNat
      omega)
    rw [← UInt32.toNat_inj, UInt32.toNat_sub_of_le _ _ hone]
    change i.toNat = n.toNat - 1 ↔ _
    omega
  refine ⟨hstart, hstart.trans_le hle, ?_⟩
  by_cases hi' : i = n - 1
  · rw [if_pos (hlast.mp hi'), ← BitVec.toNat_sub_of_le]
    · simp only [threadRange, if_pos hi']
    · rw [BitVec.le_def, hstart]
      exact hle
  · rw [if_neg (mt hlast.mpr hi')]
    simp only [threadRange, if_neg hi']
    exact hper

/-- The same, for the thread with a given number. -/
theorem threadRange_ofNat_exact (hw : 32 ≤ w) (total : BitVec w) {n : UInt32}
    {i : Nat} (hi : i < n.toNat) :
    Exact total n.toNat i (threadRange total n (UInt32.ofNat i)) := by
  have hsmall : (UInt32.ofNat i).toNat = i := by
    have hn := n.toNat_lt
    rw [UInt32.toNat_ofNat', Nat.mod_eq_of_lt (by omega)]
  have hexact := threadRange_exact hw total (hsmall.trans_lt hi)
  rwa [hsmall] at hexact

theorem one_le_max (threads : UInt32) : 1 ≤ (max 1 threads).toNat := by
  change 1 ≤ (if 1 ≤ threads then threads else 1 : UInt32).toNat
  split
  · rename_i hle
    exact UInt32.le_iff_toNat_le.mp hle
  · exact le_refl 1

/-- One after another the threads' ranges are all the items, in order. -/
theorem items_buildDatasetParallel (hw : 32 ≤ w) (total : BitVec w)
    (threads : UInt32) :
    (buildDatasetParallel total threads).flatMap ItemRange.items =
      List.range total.toNat := by
  have hpos := one_le_max threads
  unfold buildDatasetParallel
  simp only
  generalize max 1 threads = n at hpos ⊢
  obtain ⟨k, hk⟩ : ∃ k, n.toNat = k + 1 := ⟨n.toNat - 1, by omega⟩
  have hblock : ∀ i ∈ List.range k,
      (threadRange total n (UInt32.ofNat i)).items =
        List.range' (i * (total.toNat / n.toNat)) (total.toNat / n.toNat) := by
    intro i hi
    have hlt := List.mem_range.mp hi
    have hexact := threadRange_ofNat_exact hw total (by omega : i < n.toNat)
    rw [ItemRange.items, hexact.count, if_neg (by omega), hexact.start]
  have hlast : (threadRange total n (UInt32.ofNat k)).items =
      List.range' (k * (total.toNat / n.toNat))
        (total.toNat - k * (total.toNat / n.toNat)) := by
    have hexact := threadRange_ofNat_exact hw total (by omega : k < n.toNat)
    rw [ItemRange.items, hexact.count, if_pos hk.symm, hexact.start]
  have hle : k * (total.toNat / n.toNat) ≤ total.toNat := by
    have hexact := threadRange_ofNat_exact hw total (by omega : k < n.toNat)
    rw [← hexact.start]
    exact hexact.start_le
  rw [List.flatMap_map, hk, List.range_succ, List.flatMap_append,
    List.flatMap_congr hblock, flatMap_blocks, List.flatMap_singleton, hlast,
    List.range_eq_range', List.range_eq_range']
  have hjoin := @List.range'_append_1 0 (k * (total.toNat / n.toNat))
    (total.toNat - k * (total.toNat / n.toNat))
  rw [Nat.zero_add, Nat.add_sub_cancel' hle] at hjoin
  rw [hk] at hjoin ⊢
  exact hjoin

/-- Whatever the number of items and of threads, the threads' ranges are
pairwise disjoint, lie within the dataset and cover it, and the arithmetic that
gives them neither overflows nor underflows. -/
theorem dataset_items_covered_once (hw : 32 ≤ w) (total : BitVec w)
    (threads : UInt32) :
    (buildDatasetParallel total threads).Pairwise
        (fun range range' => List.Disjoint range.items range'.items) ∧
      (∀ range ∈ buildDatasetParallel total threads,
        range.start.toNat + range.count.toNat ≤ total.toNat) ∧
      (∀ item, item < total.toNat ↔
        ∃ range ∈ buildDatasetParallel total threads, item ∈ range.items) ∧
      (buildDatasetParallel total threads).length = (max 1 threads).toNat ∧
      ∀ i (hi : i < (buildDatasetParallel total threads).length),
        Exact total (max 1 threads).toNat i
          (buildDatasetParallel total threads)[i] := by
  have hitems := items_buildDatasetParallel hw total threads
  have hlength : (buildDatasetParallel total threads).length =
      (max 1 threads).toNat := by
    simp [buildDatasetParallel]
  have hexact : ∀ i (hi : i < (buildDatasetParallel total threads).length),
      Exact total (max 1 threads).toNat i
        (buildDatasetParallel total threads)[i] := by
    intro i hi
    simp only [buildDatasetParallel, List.getElem_map, List.getElem_range]
    exact threadRange_ofNat_exact hw total (hlength ▸ hi)
  refine ⟨?_, ?_, ?_, hlength, hexact⟩
  · have hnodup := List.nodup_range (n := total.toNat)
    rw [← hitems, List.nodup_flatMap] at hnodup
    exact hnodup.2
  · intro range hrange
    obtain ⟨i, hi, rfl⟩ := List.mem_iff_getElem.mp hrange
    exact (hexact i hi).end_le (hlength ▸ hi)
  · intro item
    rw [← List.mem_range, ← hitems, List.mem_flatMap]

/-- Five items and eight threads: seven of them get nothing. -/
theorem five_items_covered_once :
    (buildDatasetParallel (5 : BitVec 64) 8).map ItemRange.items =
        [[], [], [], [], [], [], [], [0, 1, 2, 3, 4]] ∧
      ∀ item, item < 5 ↔ ∃ range ∈ buildDatasetParallel (5 : BitVec 64) 8,
        item ∈ range.items := by
  refine ⟨by decide +kernel, ?_⟩
  exact (dataset_items_covered_once (by decide) (5 : BitVec 64) 8).2.2.1

end RandomXContext

end Minerby
