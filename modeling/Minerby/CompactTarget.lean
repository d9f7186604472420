/-
The compact encoding of a block header's target: three mantissa bytes, placed by
an exponent, written most significant byte first and then reversed.  The stores
and shifts that the language leaves undefined are faults here.
-/
import Minerby.StratumWork
import Minerby.TargetValue

namespace Minerby

/-- `v >> n` for a 32-bit word. -/
def shiftRight32 (v : UInt32) (n : Int) : Except Fault UInt32 :=
  if 0 ≤ n ∧ n < 32 then .ok (v >>> UInt32.ofNat n.toNat)
  else .error (.undefined "shift by 32 or more")

/-- `be[pos] = b` -/
def storeByte (be : Hash256) (pos : Int) (b : UInt8) : Except Fault Hash256 :=
  if 0 ≤ pos ∧ pos < 32 then .ok (be.set! pos.toNat b)
  else .error (.undefined "index outside the array")

/-- A round of the loop over the mantissa's bytes. -/
def placeMantissaByte (mant : UInt32) (shift : Int) (be : Hash256) (i : Nat) :
    Except Fault Hash256 := do
  let pos := 32 - shift - 3 + (i : Int)
  if 0 ≤ pos ∧ pos < 32 then
    storeByte be pos (← shiftRight32 mant (16 - 8 * (i : Int))).toUInt8
  else return be

/-- The three stores of the branch for small exponents. -/
def storeMantissa (be : Hash256) (mant : UInt32) : Except Fault Hash256 := do
  let be ← storeByte be 31 mant.toUInt8
  let be ← storeByte be 30 (← shiftRight32 mant 8).toUInt8
  storeByte be 29 (← shiftRight32 mant 16).toUInt8

/-- The big-endian bytes. -/
def compactBytes (bits : UInt32) : Except Fault Hash256 := do
  let exp := bits >>> 24
  let mant := bits &&& 0x007fffff
  let be := Hash256.fill 0
  if exp ≤ 3 then
    storeMantissa be (← shiftRight32 mant (8 * (3 - exp)).toNat)
  else
    (List.range 3).foldlM (placeMantissaByte mant ((exp.toNat : Int) - 3)) be

/-- Convert a compact "nBits" encoding to a target. -/
def targetFromCompact (bits : UInt32) : Except Fault Hash256 := do
  let be ← compactBytes bits
  return Vector.ofFn fun i : Fin 32 => be[31 - i.val]

theorem shiftRight32_eq {n : Nat} (v : UInt32) (hn : n < 32) :
    shiftRight32 v n = .ok (UInt32.ofNat (v.toNat / 2 ^ n)) := by
  have hrange : 0 ≤ (n : Int) ∧ (n : Int) < 32 := by omega
  rw [shiftRight32, if_pos hrange]
  congr 1
  apply UInt32.toNat_inj.mp
  have hlt : v.toNat / 2 ^ n < 2 ^ 32 :=
    (Nat.div_le_self _ _).trans_lt v.toNat_lt
  rw [UInt32.toNat_shiftRight, UInt32.toNat_ofNat', UInt32.toNat_ofNat',
    Nat.mod_eq_of_lt hlt, Nat.shiftRight_eq_div_pow, Int.toNat_natCast]
  congr 2
  omega

/-- Stored at big-endian position `31 - k`, a byte is at place `k` of the
number. -/
theorem storeByte_eq (be : Hash256) (pos : Int) (b : UInt8) {k : Nat}
    (hpos : pos = 31 - (k : Int)) (hk : k < 32) :
    ∃ be', storeByte be pos b = .ok be' ∧
      be'.toList.reverse = be.toList.reverse.set k b := by
  have hrange : 0 ≤ pos ∧ pos < 32 := by omega
  have hindex : pos.toNat = 31 - k := by omega
  refine ⟨be.set! pos.toNat b, if_pos hrange, ?_⟩
  rw [Vector.toList_set!, hindex]
  apply List.ext_getElem
  · simp
  · intro i hleft hright
    have hi : i < 32 := by simpa using hleft
    simp only [List.getElem_reverse, List.getElem_set, List.length_set,
      Vector.length_toList]
    congr 1
    rw [eq_iff_iff]
    omega

/-- The low byte of a shifted mantissa. -/
theorem toUInt8_ofNat_div (v : UInt32) (n : Nat) :
    (UInt32.ofNat (v.toNat / 2 ^ n)).toUInt8 = UInt8.ofNat (v.toNat / 2 ^ n) := by
  apply UInt8.toNat_inj.mp
  rw [UInt32.toNat_toUInt8, UInt32.toNat_ofNat', UInt8.toNat_ofNat']
  omega

/-- A round of the loop stores a byte of the mantissa at its place, or leaves
the array alone where that place is outside it. -/
theorem placeMantissaByte_eq (mant : UInt32) (be : Hash256) {shift i : Nat}
    (hshift : 1 ≤ shift) (hi : i < 3) :
    ∃ be', placeMantissaByte mant shift be i = .ok be' ∧
      be'.toList.reverse = be.toList.reverse.set (shift + (2 - i))
        (UInt8.ofNat (mant.toNat / 2 ^ (8 * (2 - i)))) := by
  have hamount : 16 - 8 * (i : Int) = ((8 * (2 - i) : Nat) : Int) := by omega
  unfold placeMantissaByte
  simp only
  split
  · rename_i hpos
    rw [hamount, shiftRight32_eq mant (by omega), ← toUInt8_ofNat_div]
    have hplace : 32 - (shift : Int) - 3 + i = 31 - ((shift + (2 - i) : Nat)) := by
      omega
    exact storeByte_eq be _ _ hplace (by omega)
  · rename_i hpos
    refine ⟨be, rfl, ?_⟩
    rw [List.set_eq_of_length_le]
    simp only [List.length_reverse, Vector.length_toList]
    omega

/-- Three bytes stored into a blank target. -/
theorem byteValue_three_sets {k₀ k₁ k₂ : Nat} (h₀₁ : k₀ ≠ k₁) (h₀₂ : k₀ ≠ k₂)
    (h₁₂ : k₁ ≠ k₂) (b₀ b₁ b₂ : UInt8) :
    byteValue ((((List.replicate 32 0).set k₀ b₀).set k₁ b₁).set k₂ b₂) =
      (256 ^ k₀ * b₀.toNat + 256 ^ k₁ * b₁.toNat + 256 ^ k₂ * b₂.toNat) %
        256 ^ 32 := by
  have hblank : ∀ k, (List.replicate 32 (0 : UInt8)).getD k 0 = 0 := by
    intro k
    rw [List.getD_eq_getElem?_getD, List.getElem?_replicate]
    split <;> rfl
  rw [byteValue_set_zero, byteValue_set_zero, byteValue_set_zero (hblank k₀)]
  · simp only [byteValue_replicate_zero, Nat.zero_add, List.length_set,
      List.length_replicate, Nat.mod_add_mod]
  · rw [List.getD_eq_getElem?_getD, List.getElem?_set_ne h₀₁,
      ← List.getD_eq_getElem?_getD, hblank]
  · rw [List.getD_eq_getElem?_getD, List.getElem?_set_ne h₁₂,
      List.getElem?_set_ne h₀₂, ← List.getD_eq_getElem?_getD, hblank]

/-- The three bytes of a mantissa, put together again. -/
theorem mantissa_bytes {a : Nat} (ha : a < 2 ^ 24) (shift : Nat) :
    256 ^ (shift + 2) * (UInt8.ofNat (a / 2 ^ 16)).toNat +
        256 ^ (shift + 1) * (UInt8.ofNat (a / 2 ^ 8)).toNat +
        256 ^ shift * (UInt8.ofNat a).toNat = a * 256 ^ shift := by
  have hbytes : 65536 * (UInt8.ofNat (a / 2 ^ 16)).toNat +
      256 * (UInt8.ofNat (a / 2 ^ 8)).toNat + (UInt8.ofNat a).toNat = a := by
    simp only [UInt8.toNat_ofNat']
    omega
  conv_rhs => rw [← hbytes]
  ring

/-- The branch for exponents above 3. -/
theorem foldlM_placeMantissaByte {mant : UInt32} (hmant : mant.toNat < 2 ^ 24)
    {shift : Nat} (hshift : 1 ≤ shift) :
    ∃ be, (List.range 3).foldlM (placeMantissaByte mant shift)
        (Hash256.fill 0) = .ok be ∧
      byteValue be.toList.reverse = mant.toNat * 256 ^ shift % 256 ^ 32 := by
  obtain ⟨be₀, h₀, hbytes₀⟩ := placeMantissaByte_eq mant (Hash256.fill 0)
    hshift (by decide : 0 < 3)
  obtain ⟨be₁, h₁, hbytes₁⟩ := placeMantissaByte_eq mant be₀ hshift
    (by decide : 1 < 3)
  obtain ⟨be₂, h₂, hbytes₂⟩ := placeMantissaByte_eq mant be₁ hshift
    (by decide : 2 < 3)
  refine ⟨be₂, ?_, ?_⟩
  · have hrange : List.range 3 = [0, 1, 2] := rfl
    simp only [hrange, List.foldlM_cons, List.foldlM_nil, h₀, h₁, h₂, bind,
      Except.bind]
    rfl
  · rw [hbytes₂, hbytes₁, hbytes₀, Hash256.toList_fill, List.reverse_replicate,
      byteValue_three_sets (by omega) (by omega) (by omega),
      ← mantissa_bytes hmant shift]
    simp

/-- The branch for exponents up to 3. -/
theorem storeMantissa_eq {mant : UInt32} (hmant : mant.toNat < 2 ^ 24) :
    ∃ be, storeMantissa (Hash256.fill 0) mant = .ok be ∧
      byteValue be.toList.reverse = mant.toNat := by
  obtain ⟨be₀, h₀, hbytes₀⟩ := storeByte_eq (Hash256.fill 0) 31 mant.toUInt8
    (by decide : (31 : Int) = 31 - (0 : Nat)) (by decide)
  obtain ⟨be₁, h₁, hbytes₁⟩ := storeByte_eq be₀ 30
    (UInt32.ofNat (mant.toNat / 2 ^ 8)).toUInt8
    (by decide : (30 : Int) = 31 - (1 : Nat)) (by decide)
  obtain ⟨be₂, h₂, hbytes₂⟩ := storeByte_eq be₁ 29
    (UInt32.ofNat (mant.toNat / 2 ^ 16)).toUInt8
    (by decide : (29 : Int) = 31 - (2 : Nat)) (by decide)
  have hshift := shiftRight32_eq mant (by decide : 8 < 32)
  have hshift' := shiftRight32_eq mant (by decide : 16 < 32)
  refine ⟨be₂, ?_, ?_⟩
  · simp only [Nat.cast_ofNat] at hshift hshift'
    simp only [storeMantissa, bind, Except.bind, h₀, hshift, h₁, hshift', h₂]
  · have hlow : mant.toUInt8 = UInt8.ofNat mant.toNat := by
      have hdiv := toUInt8_ofNat_div mant 0
      rwa [Nat.pow_zero, Nat.div_one, UInt32.ofNat_toNat] at hdiv
    have hlt : mant.toNat < 256 ^ 32 := hmant.trans (by decide)
    rw [hbytes₂, hbytes₁, hbytes₀, Hash256.toList_fill, List.reverse_replicate,
      toUInt8_ofNat_div, toUInt8_ofNat_div, hlow,
      byteValue_three_sets (by decide) (by decide) (by decide)]
    have hbytes := mantissa_bytes hmant 0
    simp only [Nat.zero_add, Nat.pow_zero, Nat.mul_one] at hbytes
    have hsum : 256 ^ 0 * (UInt8.ofNat mant.toNat).toNat +
        256 ^ 1 * (UInt8.ofNat (mant.toNat / 2 ^ 8)).toNat +
        256 ^ 2 * (UInt8.ofNat (mant.toNat / 2 ^ 16)).toNat = mant.toNat := by
      omega
    rw [hsum, Nat.mod_eq_of_lt hlt]

/-- The bytes of the target are the big-endian ones, reversed. -/
theorem toList_ofFn_reversed (be : Hash256) :
    (Vector.ofFn fun i : Fin 32 => be[31 - i.val]).toList =
      be.toList.reverse := by
  apply List.ext_getElem
  · simp
  · intro i hleft hright
    simp

/-- The mantissa shifted by the exponent, cut to 256 bits. -/
def compactValue (e a : Nat) : Nat :=
  if e ≤ 3 then a / 256 ^ (3 - e) else a * 256 ^ (e - 3) % 2 ^ 256

theorem compactBytes_eq (bits : UInt32) :
    ∃ be, compactBytes bits = .ok be ∧ byteValue be.toList.reverse =
      compactValue (bits >>> 24).toNat (bits &&& 0x7fffff).toNat := by
  have hmant : (bits &&& 0x7fffff).toNat < 2 ^ 24 := by
    have hle : (bits &&& 0x7fffff).toNat ≤ 0x7fffff := by
      rw [UInt32.toNat_and]
      exact Nat.and_le_right
    omega
  unfold compactBytes compactValue
  simp only
  generalize bits &&& 0x7fffff = mant at hmant ⊢
  generalize bits >>> 24 = exp
  by_cases hexp : exp ≤ 3
  · have hle : exp.toNat ≤ 3 := UInt32.le_iff_toNat_le.mp hexp
    have hamount : (8 * (3 - exp)).toNat = 8 * (3 - exp.toNat) := by
      rw [UInt32.toNat_mul, UInt32.toNat_sub_of_le _ _ hexp]
      change 8 * (3 - exp.toNat) % 2 ^ 32 = _
      omega
    have hsmall : mant.toNat / 2 ^ (8 * (3 - exp.toNat)) < 2 ^ 24 :=
      (Nat.div_le_self _ _).trans_lt hmant
    have hvalue : (UInt32.ofNat (mant.toNat /
        2 ^ (8 * (3 - exp.toNat)))).toNat =
          mant.toNat / 2 ^ (8 * (3 - exp.toNat)) := by
      rw [UInt32.toNat_ofNat', Nat.mod_eq_of_lt (by omega)]
    obtain ⟨be, hstored, hbytes⟩ := storeMantissa_eq
      (hvalue.trans_lt hsmall)
    rw [if_pos hexp, if_pos hle, hamount, shiftRight32_eq _ (by omega)]
    refine ⟨be, hstored, ?_⟩
    rw [hbytes, hvalue, Nat.pow_mul]
  · have hgt : ¬ exp.toNat ≤ 3 :=
      fun hle => hexp (UInt32.le_iff_toNat_le.mpr hle)
    have hshift : (exp.toNat : Int) - 3 = ((exp.toNat - 3 : Nat) : Int) := by
      omega
    rw [if_neg hexp, if_neg hgt, hshift]
    exact foldlM_placeMantissaByte hmant (by omega)

/-- `target_from_compact` decodes every encoding: it returns, without a store
outside the array or a shift by the word's width, the mantissa shifted by the
exponent, cut to 256 bits. -/
theorem target_from_compact_exact (bits : UInt32) :
    ∃ t, targetFromCompact bits = .ok t ∧
      t.value =
        if (bits >>> 24).toNat ≤ 3 then
          (bits &&& 0x7fffff).toNat / 256 ^ (3 - (bits >>> 24).toNat)
        else
          (bits &&& 0x7fffff).toNat * 256 ^ ((bits >>> 24).toNat - 3) %
            2 ^ 256 := by
  obtain ⟨be, hbe, hvalue⟩ := compactBytes_eq bits
  refine ⟨_, by rw [targetFromCompact, hbe]; rfl, ?_⟩
  rw [Hash256.value, toList_ofFn_reversed, hvalue]
  rfl

example : (targetFromCompact 0x1d00ffff).map Hash256.value =
    .ok (0xffff * 2 ^ 208) := by decide +kernel

end Minerby
