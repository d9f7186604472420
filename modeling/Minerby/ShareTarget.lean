/-
Stratum share targets.  The difficulty is scaled into the word position it
belongs to, and the quotient is stored in two words there.
-/
import Minerby.TargetValue

namespace Minerby

/-- Where the scaling loop stops: at the first word position where the scaled
difficulty is at most 1, or at position 0. -/
structure Scaled (diff : ℚ) (k : Nat) (d : ℚ) : Prop where
  k_le : k ≤ 6
  eq : diff = d * 2 ^ (32 * (6 - k))
  le_one : 0 < k → d ≤ 1
  gt : k < 6 → 2 ^ (32 * (5 - k)) < diff

theorem scaleDifficulty_spec {n : Nat} {diff x : ℚ} (hn : n ≤ 6)
    (heq : diff = x * 2 ^ (32 * (6 - n)))
    (hgt : n < 6 → 2 ^ (32 * (5 - n)) < diff) :
    Scaled diff (scaleDifficulty n x).1 (scaleDifficulty n x).2 := by
  induction n generalizing x with
  | zero => exact ⟨hn, heq, by simp [scaleDifficulty], hgt⟩
  | succ n ih =>
      unfold scaleDifficulty
      split
      · rename_i hlt
        apply ih (by omega)
        · rw [heq, show 32 * (6 - n) = 32 * (6 - (n + 1)) + 32 by omega, pow_add]
          norm_num
          ring
        · intro _
          rw [heq, show 5 - n = 6 - (n + 1) by omega]
          have hpow : (0 : ℚ) < 2 ^ (32 * (6 - (n + 1))) := by positivity
          exact lt_mul_of_one_lt_left hpow hlt
      · rename_i hle
        exact ⟨hn, heq, fun _ => not_lt.mp hle, hgt⟩

theorem scaled (diff : ℚ) :
    Scaled diff (scaleDifficulty 6 diff).1 (scaleDifficulty 6 diff).2 :=
  scaleDifficulty_spec (le_refl 6) (by simp) (fun h => absurd h (lt_irrefl 6))

/-- The quotient that is converted to 64 bits. -/
def targetQuotient (diff : ℚ) : ℚ := 4294901760 / (scaleDifficulty 6 diff).2

namespace Scaled

variable {diff : ℚ} {k : Nat} {d : ℚ}

theorem pos (hscaled : Scaled diff k d) (hpos : 0 < diff) : 0 < d := by
  rw [hscaled.eq] at hpos
  exact pos_of_mul_pos_left hpos (by positivity)

/-- The exact target in units of word `k`. -/
theorem exact_eq (hscaled : Scaled diff k d) (hpos : 0 < diff) :
    65535 * 2 ^ 208 / diff = 4294901760 / d * 2 ^ (32 * k) := by
  have hd := hscaled.pos hpos
  have hk : 32 * (6 - k) + 32 * k = 192 := by
    have := hscaled.k_le
    omega
  have hsplit : (2 : ℚ) ^ 208 = 2 ^ 16 * (2 ^ (32 * (6 - k)) * 2 ^ (32 * k)) := by
    rw [← pow_add, hk, ← pow_add]
  rw [hscaled.eq, hsplit]
  field_simp
  norm_num

/-- Above word 0 the quotient is at least that of difficulty 1. -/
theorem le_quotient (hscaled : Scaled diff k d) (hpos : 0 < diff)
    (hk : 0 < k) : 4294901760 ≤ 4294901760 / d := by
  rw [le_div_iff₀ (hscaled.pos hpos)]
  have hle := hscaled.le_one hk
  linarith

end Scaled

/-- Two words next to each other in a blank target. -/
theorem value_store_words {k : Nat} (hk : k ≤ 6) (m : UInt64) :
    (((Hash256.fill 0).store (k * 4) (le32 m.toUInt32)).store ((k + 1) * 4)
      (le32 (m >>> 32).toUInt32)).value = m.toNat * 2 ^ (32 * k) := by
  have hone : ((Hash256.fill 0).store (k * 4) (le32 m.toUInt32)).store
      ((k + 1) * 4) (le32 (m >>> 32).toUInt32) =
        (Hash256.fill 0).store (k * 4)
          (le32 m.toUInt32 ++ le32 (m >>> 32).toUInt32) := by
    apply Vector.toList_inj.mp
    rw [Hash256.toList_store, Hash256.toList_store, Hash256.toList_store,
      writeAt_append, length_le32, Nat.add_mul, Nat.one_mul]
  have hm : byteValue (le32 m.toUInt32 ++ le32 (m >>> 32).toUInt32) =
      m.toNat := by
    have hlt := m.toNat_lt
    rw [byteValue_append, byteValue_le32, byteValue_le32, length_le32,
      UInt64.toNat_toUInt32, UInt64.toNat_toUInt32, UInt64.toNat_shiftRight]
    simp only [UInt64.reduceToNat, Nat.reduceMod, Nat.shiftRight_eq_div_pow]
    omega
  have hpow : 256 ^ (k * 4) = 2 ^ (32 * k) := by
    have hexp : 8 * (k * 4) = 32 * k := by omega
    rw [show 256 = 2 ^ 8 by norm_num, ← Nat.pow_mul, hexp]
  rw [hone, Hash256.value_store_blank (by simp; omega), hm, hpow, Nat.mul_comm]

/-- A quotient that fits is stored whole. -/
theorem value_targetFromDifficulty {diff : ℚ} (hpos : 0 < diff)
    (hfits : ⌊targetQuotient diff⌋₊ < 2 ^ 64) :
    (targetFromDifficulty diff).value =
      ⌊targetQuotient diff⌋₊ * 2 ^ (32 * (scaleDifficulty 6 diff).1) := by
  have hscaled := scaled diff
  have hm : (UInt64.ofNat ⌊targetQuotient diff⌋₊).toNat =
      ⌊targetQuotient diff⌋₊ := UInt64.toNat_ofNat_of_lt hfits
  -- the case for an overflow is never taken: at word 6 the quotient is large
  have hnot : ¬ (UInt64.ofNat ⌊targetQuotient diff⌋₊ = 0 ∧
      (scaleDifficulty 6 diff).1 = 6) := by
    rintro ⟨hzero, hk⟩
    have hlarge := hscaled.le_quotient hpos (by omega)
    have hfloor : 1 ≤ ⌊targetQuotient diff⌋₊ := by
      rw [Nat.le_floor_iff (by unfold targetQuotient; linarith)]
      unfold targetQuotient
      push_cast
      linarith
    rw [hzero] at hm
    simp at hm
    omega
  have hk := hscaled.k_le
  have hbody : targetFromDifficulty diff =
      ((Hash256.fill 0).store ((scaleDifficulty 6 diff).1 * 4)
        (le32 (UInt64.ofNat ⌊targetQuotient diff⌋₊).toUInt32)).store
        (((scaleDifficulty 6 diff).1 + 1) * 4)
        (le32 (UInt64.ofNat ⌊targetQuotient diff⌋₊ >>> 32).toUInt32) := by
    unfold targetFromDifficulty
    rw [if_neg (not_le.mpr hpos)]
    unfold targetQuotient at hnot ⊢
    generalize scaleDifficulty 6 diff = stop at hnot hk ⊢
    have hword : stop.1 + 1 < 8 := by omega
    simp only [hnot, hword, ↓reduceIte]
  rw [hbody, value_store_words hk, hm]

/-- The exact target in units of the word that the scaling stops at. -/
theorem exact_eq_quotient {diff : ℚ} (hpos : 0 < diff) :
    65535 * 2 ^ 208 / diff =
      targetQuotient diff * 2 ^ (32 * (scaleDifficulty 6 diff).1) :=
  (scaled diff).exact_eq hpos

/-- The target is never easier than the exact one. -/
theorem value_le_exact {diff : ℚ} (hpos : 0 < diff)
    (hfits : ⌊targetQuotient diff⌋₊ < 2 ^ 64) :
    ((targetFromDifficulty diff).value : ℚ) ≤ 65535 * 2 ^ 208 / diff := by
  have hq : 0 ≤ targetQuotient diff :=
    div_nonneg (by norm_num) ((scaled diff).pos hpos).le
  rw [value_targetFromDifficulty hpos hfits, exact_eq_quotient hpos]
  push_cast
  exact mul_le_mul_of_nonneg_right (Nat.floor_le hq) (by positivity)

/-- Where the quotient fits in 64 bits, the target is the exact one rounded
down to a multiple of the word that the scaling stops at. -/
theorem share_target_rounds_down {diff : ℚ} (hpos : 0 < diff)
    (hfits : ⌊targetQuotient diff⌋₊ < 2 ^ 64) :
    let k := (scaleDifficulty 6 diff).1
    let T := (targetFromDifficulty diff).value
    k ≤ 6 ∧ (T : ℚ) ≤ 65535 * 2 ^ 208 / diff ∧
      65535 * 2 ^ 208 / diff < T + 2 ^ (32 * k) := by
  intro k T
  have hT : (T : ℚ) = ⌊targetQuotient diff⌋₊ * 2 ^ (32 * k) := by
    exact_mod_cast value_targetFromDifficulty hpos hfits
  have hunit : (0 : ℚ) < 2 ^ (32 * k) := by positivity
  refine ⟨(scaled diff).k_le, value_le_exact hpos hfits, ?_⟩
  rw [hT, exact_eq_quotient hpos]
  calc targetQuotient diff * 2 ^ (32 * k)
      < (⌊targetQuotient diff⌋₊ + 1) * 2 ^ (32 * k) :=
        mul_lt_mul_of_pos_right (Nat.lt_floor_add_one _) hunit
    _ = ⌊targetQuotient diff⌋₊ * 2 ^ (32 * k) + 2 ^ (32 * k) := by ring

/-- Difficulty 1000, which is scaled once. -/
theorem share_target_thousand :
    (scaleDifficulty 6 1000).1 = 5 ∧ ⌊targetQuotient 1000⌋₊ < 2 ^ 64 ∧
      ((targetFromDifficulty 1000).value : ℚ) ≤ 65535 * 2 ^ 208 / 1000 := by
  have hstop : scaleDifficulty 6 1000 = (5, 1000 / 4294967296) := by
    norm_num [scaleDifficulty]
  have hfits : ⌊targetQuotient 1000⌋₊ < 2 ^ 64 := by
    rw [targetQuotient, hstop, Nat.floor_lt (by norm_num)]
    norm_num
  exact ⟨by rw [hstop], hfits,
    (share_target_rounds_down (by norm_num) hfits).2.1⟩

/-- The conversion of the quotient to 64 bits is defined. -/
def Convertible (diff : ℚ) : Prop :=
  0 < diff → ⌊targetQuotient diff⌋₊ < 2 ^ 64

/-- Only positive difficulties up to `0xffff0000 / 2^64` are too small. -/
theorem convertible_iff (diff : ℚ) :
    Convertible diff ↔ diff ≤ 0 ∨ 65535 / 2 ^ 48 < diff := by
  rcases le_or_gt diff 0 with hle | hpos
  · exact iff_of_true (fun hpos => absurd hpos (not_lt.mpr hle)) (Or.inl hle)
  · have hscaled := scaled diff
    have hd := hscaled.pos hpos
    have hq : 0 ≤ targetQuotient diff := div_nonneg (by norm_num) hd.le
    rw [Convertible, forall_prop_of_true hpos, or_iff_right (not_le.mpr hpos),
      Nat.floor_lt hq, targetQuotient, div_lt_iff₀ hd]
    generalize scaleDifficulty 6 diff = stop at hscaled hd
    rcases Nat.lt_or_ge stop.1 6 with hlt | hge
    · -- scaled at least once, the difficulty is above 1 and what is left of it
      -- above `2^-32`
      have hgt := hscaled.gt hlt
      have hpow : (1 : ℚ) ≤ 2 ^ (32 * (5 - stop.1)) :=
        one_le_pow₀ (by norm_num)
      have hleft : 1 < stop.2 * 2 ^ 32 := by
        rw [hscaled.eq, show 32 * (6 - stop.1) = 32 + 32 * (5 - stop.1) by omega,
          pow_add, ← mul_assoc] at hgt
        exact (lt_mul_iff_one_lt_left (by positivity)).mp hgt
      refine iff_of_true ?_ ?_
      · push_cast
        linarith
      · have hone : (65535 : ℚ) / 2 ^ 48 < 1 := by norm_num
        linarith
    · have hk := hscaled.k_le
      have heq := hscaled.eq
      rw [show 6 - stop.1 = 0 by omega] at heq
      simp only [Nat.mul_zero, pow_zero, mul_one] at heq
      rw [← heq, div_lt_iff₀ (by positivity)]
      push_cast
      constructor
      · intro h
        linarith
      · intro h
        linarith

/-- A larger difficulty is scaled at least as often. -/
theorem Scaled.antitone {diff diff' d d' : ℚ} {k k' : Nat}
    (hscaled : Scaled diff k d) (hscaled' : Scaled diff' k' d')
    (hle : diff ≤ diff') : k' ≤ k := by
  by_contra hnot
  have hk' := hscaled'.k_le
  have hgt := hscaled.gt (by omega)
  have hone := hscaled'.le_one (by omega)
  have hupper : diff' ≤ 2 ^ (32 * (6 - k')) := by
    rw [hscaled'.eq]
    exact mul_le_of_le_one_left (by positivity) hone
  have hpow : (2 : ℚ) ^ (32 * (6 - k')) ≤ 2 ^ (32 * (5 - k)) :=
    pow_le_pow_right₀ (by norm_num) (by omega)
  linarith

/-- Among difficulties whose quotients fit, a larger one has no larger
target. -/
theorem value_antitone {diff diff' : ℚ} (hpos : 0 < diff) (hle : diff ≤ diff')
    (hfits : ⌊targetQuotient diff⌋₊ < 2 ^ 64)
    (hfits' : ⌊targetQuotient diff'⌋₊ < 2 ^ 64) :
    (targetFromDifficulty diff').value ≤ (targetFromDifficulty diff).value := by
  have hpos' : 0 < diff' := hpos.trans_le hle
  have hscaled := scaled diff
  have hscaled' := scaled diff'
  rcases (hscaled.antitone hscaled' hle).eq_or_lt with hk | hk
  · -- the same word: the quotients compare
    have hd : (scaleDifficulty 6 diff).2 ≤ (scaleDifficulty 6 diff').2 := by
      have heq := hscaled.eq
      have heq' := hscaled'.eq
      rw [hk] at heq'
      rw [heq, heq'] at hle
      exact le_of_mul_le_mul_right hle (by positivity)
    rw [value_targetFromDifficulty hpos' hfits',
      value_targetFromDifficulty hpos hfits, hk]
    apply Nat.mul_le_mul_right
    apply Nat.floor_le_floor
    exact div_le_div_of_nonneg_left (by norm_num) (hscaled.pos hpos) hd
  · -- a lower word: below what the higher word holds at least
    have hupper := value_le_exact hpos' hfits'
    have hlower : 4294901760 * 2 ^ (32 * (scaleDifficulty 6 diff).1) ≤
        (targetFromDifficulty diff).value := by
      rw [value_targetFromDifficulty hpos hfits]
      apply Nat.mul_le_mul_right
      apply Nat.le_floor
      exact_mod_cast hscaled.le_quotient hpos (by omega)
    have hgt := hscaled'.gt (by have := hscaled.k_le; omega)
    have hbound : 65535 * 2 ^ 208 / diff' ≤
        4294901760 * 2 ^ (32 * (scaleDifficulty 6 diff).1) := by
      rw [div_le_iff₀ hpos']
      have hexp : 32 * (scaleDifficulty 6 diff).1 +
          32 * (5 - (scaleDifficulty 6 diff').1) ≥ 192 := by
        have := hscaled.k_le
        omega
      have hpow : (2 : ℚ) ^ 192 ≤ 2 ^ (32 * (scaleDifficulty 6 diff).1) *
          2 ^ (32 * (5 - (scaleDifficulty 6 diff').1)) := by
        rw [← pow_add]
        exact pow_le_pow_right₀ (by norm_num) hexp
      calc (65535 : ℚ) * 2 ^ 208 = 4294901760 * 2 ^ 192 := by norm_num
        _ ≤ 4294901760 * (2 ^ (32 * (scaleDifficulty 6 diff).1) *
            2 ^ (32 * (5 - (scaleDifficulty 6 diff').1))) := by linarith
        _ ≤ 4294901760 * 2 ^ (32 * (scaleDifficulty 6 diff).1) * diff' := by
            rw [← mul_assoc]
            exact mul_le_mul_of_nonneg_left hgt.le (by positivity)
    have hcast : ((targetFromDifficulty diff').value : ℚ) ≤
        (targetFromDifficulty diff).value := by
      calc ((targetFromDifficulty diff').value : ℚ)
          ≤ 65535 * 2 ^ 208 / diff' := hupper
        _ ≤ 4294901760 * 2 ^ (32 * (scaleDifficulty 6 diff).1) := hbound
        _ ≤ (targetFromDifficulty diff).value := by exact_mod_cast hlower
    exact_mod_cast hcast

/-- For two difficulties in order, the target of the larger one is no easier
and both conversions are defined, exactly when neither is positive and at most
`65535 / 2^48`. -/
theorem share_target_antitone_iff {d₁ d₂ : ℚ} (hle : d₁ ≤ d₂) :
    ((targetFromDifficulty d₂).value ≤ (targetFromDifficulty d₁).value ∧
      Convertible d₁ ∧ Convertible d₂) ↔
      (d₁ ≤ 0 ∨ 65535 / 2 ^ 48 < d₁) ∧ (d₂ ≤ 0 ∨ 65535 / 2 ^ 48 < d₂) := by
  rw [← convertible_iff, ← convertible_iff]
  constructor
  · exact And.right
  · rintro ⟨hfits₁, hfits₂⟩
    refine ⟨?_, hfits₁, hfits₂⟩
    rcases le_or_gt d₁ 0 with hnonpos | hpos
    · have hfill : targetFromDifficulty d₁ = Hash256.fill 0xff := by
        rw [targetFromDifficulty, if_pos hnonpos]
      rw [hfill]
      exact Hash256.value_le_fill _
    · exact value_antitone hpos hle (hfits₁ hpos) (hfits₂ (hpos.trans_le hle))

/-- Difficulties on both sides of a word boundary. -/
theorem share_target_one_thousand :
    (targetFromDifficulty 1000).value ≤ (targetFromDifficulty 1).value ∧
      Convertible 1 ∧ Convertible 1000 :=
  (share_target_antitone_iff (by norm_num)).mpr
    ⟨Or.inr (by norm_num), Or.inr (by norm_num)⟩

/-- The quotient of difficulty `1e-10` does not fit in 64 bits. -/
theorem tiny_difficulty_not_convertible :
    (0 : ℚ) < 1 / 10 ^ 10 ∧ ¬ Convertible (1 / 10 ^ 10) := by
  refine ⟨by norm_num, ?_⟩
  rw [convertible_iff]
  norm_num

end Minerby
