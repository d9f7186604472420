/-
Collecting a stream into fixed-size blocks.  Items arrive one at a time and
are buffered; each full block is folded into a state.  However the stream was
cut, the state is the fold over the full blocks of the whole stream and the
buffer is what remains after them.
-/
import Mathlib

namespace Minerby

universe u v

variable {σ : Type u} {α : Type v}

/-- The full blocks of `size` items at the front of a list, in order. -/
def fullBlocks (size : Nat) (xs : List α) : List (List α) :=
  (List.range (xs.length / size)).map fun i => (xs.drop (size * i)).take size

/-- What follows the last full block. -/
def partialBlock (size : Nat) (xs : List α) : List α :=
  xs.drop (size * (xs.length / size))

/-- A folded state together with the items of the block being filled. -/
structure BlockStream (σ : Type u) (α : Type v) where
  state : σ
  pending : List α

/-- Take in one item. -/
def BlockStream.push (compress : σ → List α → σ) (size : Nat)
    (stream : BlockStream σ α) (item : α) : BlockStream σ α :=
  if stream.pending.length + 1 = size then
    ⟨compress stream.state (stream.pending ++ [item]), []⟩
  else ⟨stream.state, stream.pending ++ [item]⟩

/-- Take in a list of items. -/
def BlockStream.feed (compress : σ → List α → σ) (size : Nat)
    (stream : BlockStream σ α) (items : List α) : BlockStream σ α :=
  items.foldl (BlockStream.push compress size) stream

theorem BlockStream.feed_append (compress : σ → List α → σ) (size : Nat)
    (stream : BlockStream σ α) (first second : List α) :
    stream.feed compress size (first ++ second) =
      (stream.feed compress size first).feed compress size second := by
  simp [BlockStream.feed]

theorem length_partialBlock (size : Nat) (xs : List α) :
    (partialBlock size xs).length = xs.length % size := by
  have hsplit := Nat.div_add_mod xs.length size
  rw [partialBlock, List.length_drop]
  omega

/-- A list of whole blocks leaves nothing pending. -/
theorem partialBlock_eq_nil {size : Nat} {xs : List α}
    (hwhole : size ∣ xs.length) : partialBlock size xs = [] := by
  apply List.length_eq_zero_iff.mp
  rw [length_partialBlock]
  exact Nat.mod_eq_zero_of_dvd hwhole

theorem div_succ_of_full {n size : Nat} (hpos : 0 < size)
    (hfull : n % size + 1 = size) : (n + 1) / size = n / size + 1 := by
  have hsplit := Nat.div_add_mod n size
  have hvalue : n + 1 = size * (n / size + 1) := by
    rw [Nat.mul_add, Nat.mul_one]
    omega
  rw [hvalue, Nat.mul_div_cancel_left _ hpos]

theorem div_succ_of_not_full {n size : Nat} (hpos : 0 < size)
    (hroom : n % size + 1 ≠ size) : (n + 1) / size = n / size := by
  have hsplit := Nat.div_add_mod n size
  have hlt := Nat.mod_lt n hpos
  apply Nat.div_eq_of_lt_le
  · rw [Nat.mul_comm]
    omega
  · rw [Nat.succ_mul, Nat.mul_comm]
    omega

/-- The blocks already full are not changed by a further item. -/
theorem map_blocks_snoc (size : Nat) (xs : List α) (item : α) :
    (List.range (xs.length / size)).map
        (fun i => ((xs ++ [item]).drop (size * i)).take size) =
      fullBlocks size xs := by
  apply List.map_congr_left
  intro i hi
  have hlt : i + 1 ≤ xs.length / size := List.mem_range.mp hi
  have hmul := Nat.mul_le_mul_left size hlt
  have hdiv := Nat.mul_div_le xs.length size
  rw [Nat.mul_add, Nat.mul_one] at hmul
  rw [List.drop_append_of_le_length (by omega),
    List.take_append_of_le_length (by simp; omega)]

theorem fullBlocks_snoc_full {size : Nat} (hpos : 0 < size) (xs : List α)
    (item : α) (hfull : (partialBlock size xs).length + 1 = size) :
    fullBlocks size (xs ++ [item]) =
      fullBlocks size xs ++ [partialBlock size xs ++ [item]] := by
  have hmod := hfull
  rw [length_partialBlock] at hmod
  have hdiv := Nat.mul_div_le xs.length size
  rw [fullBlocks, List.length_append, List.length_singleton,
    div_succ_of_full hpos hmod, List.range_succ, List.map_append,
    map_blocks_snoc, List.map_singleton,
    List.drop_append_of_le_length hdiv]
  congr 2
  change (partialBlock size xs ++ [item]).take size = _
  rw [List.take_of_length_le]
  simp [hfull]

theorem fullBlocks_snoc_partial {size : Nat} (hpos : 0 < size) (xs : List α)
    (item : α) (hroom : (partialBlock size xs).length + 1 ≠ size) :
    fullBlocks size (xs ++ [item]) = fullBlocks size xs := by
  rw [length_partialBlock] at hroom
  rw [fullBlocks, List.length_append, List.length_singleton,
    div_succ_of_not_full hpos hroom, map_blocks_snoc]

theorem partialBlock_snoc_full {size : Nat} (xs : List α)
    (item : α) (hfull : (partialBlock size xs).length + 1 = size) :
    partialBlock size (xs ++ [item]) = [] := by
  rw [length_partialBlock] at hfull
  apply partialBlock_eq_nil
  rw [List.length_append, List.length_singleton]
  refine ⟨xs.length / size + 1, ?_⟩
  have hsplit := Nat.div_add_mod xs.length size
  rw [Nat.mul_add, Nat.mul_one]
  omega

theorem partialBlock_snoc_partial {size : Nat} (hpos : 0 < size) (xs : List α)
    (item : α) (hroom : (partialBlock size xs).length + 1 ≠ size) :
    partialBlock size (xs ++ [item]) = partialBlock size xs ++ [item] := by
  rw [length_partialBlock] at hroom
  rw [partialBlock, List.length_append, List.length_singleton,
    div_succ_of_not_full hpos hroom,
    List.drop_append_of_le_length (Nat.mul_div_le _ _)]
  rfl

/-- Feeding a whole stream from an empty buffer folds its full blocks and
keeps the rest pending. -/
theorem BlockStream.feed_eq (compress : σ → List α → σ) {size : Nat}
    (hpos : 0 < size) (initial : σ) (items : List α) :
    BlockStream.feed compress size ⟨initial, []⟩ items =
      ⟨(fullBlocks size items).foldl compress initial,
        partialBlock size items⟩ := by
  induction items using List.reverseRecOn with
  | nil => simp [BlockStream.feed, fullBlocks, partialBlock]
  | append_singleton xs item ih =>
      rw [BlockStream.feed_append, ih]
      change BlockStream.push compress size _ item = _
      by_cases hfull : (partialBlock size xs).length + 1 = size
      · rw [BlockStream.push, if_pos hfull, fullBlocks_snoc_full hpos _ _ hfull,
          partialBlock_snoc_full _ _ hfull, List.foldl_append]
        rfl
      · rw [BlockStream.push, if_neg hfull,
          fullBlocks_snoc_partial hpos _ _ hfull,
          partialBlock_snoc_partial hpos _ _ hfull]

end Minerby
