/-
A 256-bit target as a number.  The comparison of `meets_target` is the order of
these numbers, and the conversions store words into a blank target.
-/
import Minerby.Target
import Minerby.ByteValue

namespace Minerby

namespace Hash256

/-- The number that the 32 bytes denote. -/
def value (t : Hash256) : Nat := byteValue t.toList

theorem value_lt (t : Hash256) : t.value < 2 ^ 256 := by
  have hlt := byteValue_lt t.toList
  rw [Vector.length_toList] at hlt
  exact hlt

theorem value_injective {t t' : Hash256} (hvalue : t.value = t'.value) :
    t = t' := by
  apply Vector.toList_inj.mp
  exact byteValue_injective (by simp) hvalue

@[simp]
theorem toList_store (t : Hash256) (offset : Nat) (bytes : List UInt8) :
    (t.store offset bytes).toList = writeAt t.toList offset bytes := by
  induction bytes generalizing t offset with
  | nil => rfl
  | cons b rest ih =>
      rw [store, ih, writeAt]
      congr 1
      simp

theorem toList_fill (b : UInt8) : (fill b).toList = List.replicate 32 b := by
  simp [fill]

/-- Nothing is above the target that is all ones. -/
theorem value_le_fill (t : Hash256) : t.value ≤ (fill 0xff).value := by
  have hfill : (fill 0xff).value = 2 ^ 256 - 1 := by
    rw [value, toList_fill]
    decide +kernel
  have hlt := t.value_lt
  omega

/-- A store into a blank target. -/
theorem value_store_blank {offset : Nat} {bytes : List UInt8}
    (hfits : offset + bytes.length ≤ 32) :
    ((fill 0).store offset bytes).value = 256 ^ offset * byteValue bytes := by
  rw [value, toList_store, toList_fill, writeAt_eq_splice _ _ _ (by simpa),
    List.take_replicate, List.drop_replicate, byteValue_splice_zeros,
    Nat.min_eq_left (by omega)]

end Hash256

/-- The bytes that a chain of shifts by eight gives. -/
theorem map_shiftRight_eq (hi : UInt64) :
    ((List.range 8).map fun i => (hi >>> UInt64.ofNat (8 * i)).toUInt8) =
      valueBytes 8 hi.toNat := by
  rw [valueBytes]
  apply List.map_congr_left
  intro i hi'
  have hlt : i < 8 := List.mem_range.mp hi'
  apply UInt8.toNat_inj.mp
  rw [UInt64.toNat_toUInt8, UInt64.toNat_shiftRight, UInt8.toNat_ofNat',
    UInt64.toNat_ofNat', Nat.shiftRight_eq_div_pow]
  have hshift : 8 * i % 2 ^ 64 % 64 = 8 * i := by omega
  rw [hshift, Nat.pow_mul]

/-- The number with `hi` in the top 64 bits and nothing below. -/
theorem Hash256.value_storeHi (hi : UInt64) :
    ((fill 0).storeHi hi).value = 2 ^ 192 * hi.toNat := by
  have hlt : hi.toNat < 256 ^ 8 := hi.toNat_lt
  rw [storeHi, map_shiftRight_eq, value_store_blank (by simp),
    byteValue_valueBytes, Nat.mod_eq_of_lt hlt]
  norm_num

/-- The loop from byte `i - 1` down compares the low `i` bytes. -/
theorem meetsTargetFrom_iff (hash target : Hash256) {i : Nat} (hi : i ≤ 32) :
    meetsTargetFrom hash target i = true ↔
      byteValue (hash.toList.take i) ≤ byteValue (target.toList.take i) := by
  induction i with
  | zero => simp [meetsTargetFrom]
  | succ i ih =>
      have htake : ∀ t : Hash256,
          t.toList.take (i + 1) = t.toList.take i ++ [t[i]!] := by
        intro t
        have hlt : i < t.toList.length := by simpa using hi
        rw [List.take_add_one, List.getElem?_eq_getElem hlt]
        have hget : t[i]! = t[i] := getElem!_pos t i (by omega)
        simp [hget]
      rw [htake, htake, byteValue_concat_le_iff (by simp), ← ih (by omega),
        meetsTargetFrom]
      simp only [UInt8.lt_iff_toNat_lt]
      rcases Nat.lt_trichotomy hash[i]!.toNat target[i]!.toNat with
        hlt | heq | hgt
      · simp [hlt]
      · simp [heq]
      · have hnot : ¬ hash[i]!.toNat < target[i]!.toNat := by omega
        have hne : hash[i]!.toNat ≠ target[i]!.toNat := by omega
        simp [hgt, hnot, hne]

/-- `meets_target` is the order of the numbers. -/
theorem meetsTarget_iff (hash target : Hash256) :
    meetsTarget hash target = true ↔ hash.value ≤ target.value := by
  rw [meetsTarget, meetsTargetFrom_iff hash target (le_refl 32),
    List.take_of_length_le (by simp), List.take_of_length_le (by simp)]
  rfl

/-- `meets_target` decides the order of the 256-bit numbers, which is total, and
a larger target admits every share that a smaller one does. -/
theorem meets_target_compares_values :
    (∀ hash target : Hash256,
      meetsTarget hash target = true ↔ hash.value ≤ target.value) ∧
    (∀ hash : Hash256, meetsTarget hash hash = true) ∧
    (∀ a b c : Hash256, meetsTarget a b = true → meetsTarget b c = true →
      meetsTarget a c = true) ∧
    (∀ a b : Hash256, meetsTarget a b = true ∨ meetsTarget b a = true) ∧
    (∀ a b : Hash256, meetsTarget a b = true → meetsTarget b a = true →
      a = b) ∧
    (∀ hash target raised : Hash256, target.value ≤ raised.value →
      meetsTarget hash target = true → meetsTarget hash raised = true) := by
  refine ⟨meetsTarget_iff, ?_⟩
  simp only [meetsTarget_iff]
  refine ⟨fun hash => le_refl _, ?_, fun a b => le_total _ _, ?_, ?_⟩
  · intro a b c hab hbc
    exact hab.trans hbc
  · intro a b hab hba
    exact Hash256.value_injective (le_antisymm hab hba)
  · intro hash target raised hraised hmeets
    exact hmeets.trans hraised

/-- Shifting each byte to its place and joining them gives the number. -/
theorem orLE_toNat {b : List UInt8} (hlength : b.length ≤ 8) :
    (orLE b).toNat = byteValue b := by
  have hloop : ∀ n ≤ b.length, ((List.range n).foldl (fun v i =>
      v ||| (b.getD i 0).toUInt64 <<< UInt64.ofNat (8 * i)) 0).toNat =
        byteValue (b.take n) := by
    intro n hn
    induction n with
    | zero => simp
    | succ n ih =>
        have hlt : n < b.length := by omega
        have hlow := byteValue_lt (b.take n)
        rw [List.length_take, Nat.min_eq_left (by omega)] at hlow
        have hbyte := (b[n]).toNat_lt
        have hfits : (b[n]).toNat * 256 ^ n < 2 ^ 64 := by
          calc (b[n]).toNat * 256 ^ n < 256 * 256 ^ n :=
                Nat.mul_lt_mul_of_pos_right hbyte (by positivity)
            _ = 256 ^ (n + 1) := by ring
            _ ≤ 256 ^ 8 := Nat.pow_le_pow_right (by decide) (by omega)
            _ = 2 ^ 64 := by norm_num
        have hshift : 8 * n % 2 ^ 64 % 64 = 8 * n := by omega
        have hpow : 2 ^ (8 * n) = 256 ^ n := by rw [Nat.pow_mul]
        rw [List.range_succ, List.foldl_append, List.foldl_cons, List.foldl_nil,
          UInt64.toNat_or, ih (by omega), UInt64.toNat_shiftLeft,
          UInt64.toNat_ofNat', hshift, List.getD_eq_getElem _ _ hlt,
          UInt8.toNat_toUInt64, Nat.shiftLeft_eq, hpow, Nat.mod_eq_of_lt hfits,
          Nat.or_comm, ← hpow, ← Nat.shiftLeft_eq,
          ← Nat.shiftLeft_add_eq_or_of_lt (hpow ▸ hlow), List.take_add_one,
          List.getElem?_eq_getElem hlt, byteValue_append, Nat.shiftLeft_eq, hpow]
        simp only [Option.toList_some, byteValue_cons, byteValue_nil,
          List.length_take, Nat.min_eq_left (Nat.le_of_lt hlt)]
        ring
  rw [orLE, hloop b.length (le_refl _), List.take_length]

end Minerby
