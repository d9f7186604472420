/-
Byte arrays as lists: in-place stores of a run of bytes, and the two byte
orders of a 32-bit word.
-/
import Mathlib

namespace Minerby

universe u

variable {α : Type u}

/-- Store the elements of `src` one after another from `offset` on, as a chain
of indexed assignments does.  An index outside the array stores nothing. -/
def writeAt (dst : List α) : Nat → List α → List α
  | _, [] => dst
  | offset, value :: rest => writeAt (dst.set offset value) (offset + 1) rest

@[simp]
theorem length_writeAt (dst : List α) (offset : Nat) (src : List α) :
    (writeAt dst offset src).length = dst.length := by
  induction src generalizing dst offset with
  | nil => rfl
  | cons value rest ih => simp [writeAt, ih]

/-- Two stores next to each other are one. -/
theorem writeAt_append (dst : List α) (offset : Nat) (first second : List α) :
    writeAt dst offset (first ++ second) =
      writeAt (writeAt dst offset first) (offset + first.length) second := by
  induction first generalizing dst offset with
  | nil => rfl
  | cons value rest ih =>
      rw [List.cons_append, writeAt, ih, writeAt, List.length_cons]
      congr 1
      omega

/-- A store that fits overwrites exactly the elements under it. -/
theorem writeAt_eq_splice (dst : List α) (offset : Nat) (src : List α)
    (hfits : offset + src.length ≤ dst.length) :
    writeAt dst offset src =
      dst.take offset ++ src ++ dst.drop (offset + src.length) := by
  induction src generalizing dst offset with
  | nil => simp [writeAt]
  | cons value rest ih =>
      simp only [List.length_cons] at hfits
      have hoffset : offset < dst.length := by omega
      have htake : (dst.set offset value).take (offset + 1) =
          dst.take offset ++ [value] := by
        rw [List.take_add_one, List.take_set_of_le (le_refl offset)]
        simp [hoffset]
      have hdrop : (dst.set offset value).drop (offset + 1 + rest.length) =
          dst.drop (offset + 1 + rest.length) :=
        List.drop_set_of_lt (by omega)
      rw [writeAt, ih _ _ (by simp only [List.length_set]; omega), htake, hdrop,
        List.length_cons, Nat.add_comm rest.length 1, ← Nat.add_assoc]
      simp only [List.append_assoc, List.singleton_append]

/-- Filling a blank array from the front: a store at the end of the part that
is already written extends that part. -/
theorem writeAt_frontier (done src : List α) (blank : α) (n offset : Nat)
    (hoffset : offset = done.length) (hfits : src.length ≤ n) :
    writeAt (done ++ List.replicate n blank) offset src =
      (done ++ src) ++ List.replicate (n - src.length) blank := by
  subst hoffset
  rw [writeAt_eq_splice _ _ _ (by simp; omega)]
  simp [List.drop_append]

theorem set_writeAt_of_lt (dst : List α) {k offset : Nat} (src : List α)
    (value : α) (hlt : k < offset) :
    (writeAt dst offset src).set k value =
      writeAt (dst.set k value) offset src := by
  induction src generalizing dst offset with
  | nil => rfl
  | cons head tail ih =>
      rw [writeAt, writeAt, ih _ (by omega), List.set_comm _ _ (by omega)]

/-- A second store of the same width at the same place wins. -/
theorem writeAt_writeAt (dst : List α) (offset : Nat) (first second : List α)
    (hlength : first.length = second.length) :
    writeAt (writeAt dst offset first) offset second =
      writeAt dst offset second := by
  induction second generalizing dst offset first with
  | nil =>
      have hnil : first = [] := List.length_eq_zero_iff.mp hlength
      rw [hnil]
      rfl
  | cons value rest ih =>
      cases first with
      | nil => simp at hlength
      | cons head tail =>
          simp only [List.length_cons, Nat.add_right_cancel_iff] at hlength
          rw [writeAt, writeAt, writeAt,
            set_writeAt_of_lt _ _ _ (Nat.lt_succ_self offset), List.set_set]
          exact ih (dst.set offset value) (offset + 1) tail hlength

/-- The four bytes of a word, least significant first. -/
def le32 (n : UInt32) : List UInt8 :=
  [n.toUInt8, (n >>> 8).toUInt8, (n >>> 16).toUInt8, (n >>> 24).toUInt8]

/-- The word whose bytes are, most significant first, `b0 b1 b2 b3`. -/
def be32 (b0 b1 b2 b3 : UInt8) : UInt32 :=
  b0.toUInt32 <<< 24 ||| b1.toUInt32 <<< 16 ||| b2.toUInt32 <<< 8 |||
    b3.toUInt32

@[simp]
theorem length_le32 (n : UInt32) : (le32 n).length = 4 := rfl

theorem be32_byte0 (b0 b1 b2 b3 : UInt8) :
    (be32 b0 b1 b2 b3).toUInt8 = b3 := by
  apply UInt8.toBitVec_inj.mp
  ext i hi
  simp [be32]

theorem be32_byte1 (b0 b1 b2 b3 : UInt8) :
    (be32 b0 b1 b2 b3 >>> 8).toUInt8 = b2 := by
  apply UInt8.toBitVec_inj.mp
  ext i hi
  simp only [be32]
  interval_cases i <;> simp

theorem be32_byte2 (b0 b1 b2 b3 : UInt8) :
    (be32 b0 b1 b2 b3 >>> 16).toUInt8 = b1 := by
  apply UInt8.toBitVec_inj.mp
  ext i hi
  simp only [be32]
  interval_cases i <;> simp

theorem be32_byte3 (b0 b1 b2 b3 : UInt8) :
    (be32 b0 b1 b2 b3 >>> 24).toUInt8 = b0 := by
  apply UInt8.toBitVec_inj.mp
  ext i hi
  simp only [be32]
  interval_cases i <;> simp

/-- Reading four bytes as a big-endian word and storing it little-endian
reverses them. -/
@[simp]
theorem le32_be32 (b0 b1 b2 b3 : UInt8) :
    le32 (be32 b0 b1 b2 b3) = [b3, b2, b1, b0] := by
  simp only [le32, be32_byte0, be32_byte1, be32_byte2, be32_byte3]

end Minerby
