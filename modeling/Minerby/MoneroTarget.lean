/-
Compact Monero targets.  A pool sends the top 32 bits of the target; they are
expanded through the difficulty they stand for, by two divisions.
-/
import Minerby.TargetValue

namespace Minerby

/-- The expansion of a compact value, as numbers. -/
def expandCompact (c : Nat) : Nat := (2 ^ 64 - 1) / ((2 ^ 32 - 1) / c)

theorem compact_div_pos {c : Nat} (hpos : 0 < c) (hlt : c < 2 ^ 32) :
    0 < (2 ^ 32 - 1) / c :=
  Nat.div_pos (by omega) hpos

theorem expandCompact_lt (c : Nat) : expandCompact c < 2 ^ 64 := by
  have hle : expandCompact c ≤ 2 ^ 64 - 1 := Nat.div_le_self _ _
  omega

/-- The expansion is no harder than the compact value in the top bits. -/
theorem le_expandCompact {c : Nat} (hpos : 0 < c) (hlt : c < 2 ^ 32) :
    c * 2 ^ 32 ≤ expandCompact c := by
  rw [expandCompact, Nat.le_div_iff_mul_le (compact_div_pos hpos hlt)]
  have hfloor : (2 ^ 32 - 1) / c * c ≤ 2 ^ 32 - 1 := Nat.div_mul_le_self _ _
  calc c * 2 ^ 32 * ((2 ^ 32 - 1) / c)
      = (2 ^ 32 - 1) / c * c * 2 ^ 32 := by ring
    _ ≤ (2 ^ 32 - 1) * 2 ^ 32 := Nat.mul_le_mul_right _ hfloor
    _ ≤ 2 ^ 64 - 1 := by norm_num

theorem expandCompact_mono {c c' : Nat} (hpos : 0 < c) (hle : c ≤ c')
    (hlt : c' < 2 ^ 32) : expandCompact c ≤ expandCompact c' := by
  apply Nat.div_le_div_left
  · exact Nat.div_le_div_left hle hpos
  · exact compact_div_pos (by omega) hlt

/-- The first division gives back a difficulty of at least `D`. -/
theorem expandCompact_difficulty {D : Nat} (hpos : 0 < D)
    (hle : D ≤ 2 ^ 32 - 1) :
    expandCompact ((2 ^ 32 - 1) / D) ≤ (2 ^ 64 - 1) / D := by
  have hc : 0 < (2 ^ 32 - 1) / D := Nat.div_pos hle hpos
  have hback : D ≤ (2 ^ 32 - 1) / ((2 ^ 32 - 1) / D) := by
    rw [Nat.le_div_iff_mul_le hc]
    exact Nat.mul_div_le _ _
  exact Nat.div_le_div_left hback hpos

/-- The argument is accepted exactly when it is hex of one of the three
lengths. -/
theorem moneroTargetFromHex_returns (hex : String) :
    (∃ t, moneroTargetFromHex hex = .ok t) ↔
      ∃ n ∈ [4, 8, 32], IsHexOf n hex := by
  unfold moneroTargetFromHex
  constructor
  · rintro ⟨t, ht⟩
    obtain ⟨b, hb, ht⟩ := bind_eq_ok.mp ht
    refine ⟨b.length, ?_, isHexOf_of_fromHex hb⟩
    by_contra hnot
    simp only [List.mem_cons, List.not_mem_nil, or_false, not_or] at hnot
    obtain ⟨h4, h8, h32⟩ := hnot
    rw [if_neg h32, if_neg h4, if_neg h8] at ht
    cases ht
  · rintro ⟨n, hn, hhex⟩
    obtain ⟨b, hb, rfl⟩ := fromHex_of_isHexOf hhex
    simp only [List.mem_cons, List.not_mem_nil, or_false] at hn
    simp only [bind_eq_ok, hb, Except.ok.injEq, exists_eq_left']
    rcases hn with h4 | h8 | h32
    · rw [if_neg (by omega), if_pos h4]
      split <;> exact ⟨_, rfl⟩
    · rw [if_neg (by omega), if_neg (by omega), if_pos h8]
      exact ⟨_, rfl⟩
    · rw [if_pos h32]
      exact ⟨_, rfl⟩

/-- Neither division of the expansion is by zero. -/
theorem compact_divisors_ne {b : List UInt8} (hlength : b.length = 4)
    (hpos : 0 < byteValue b) : orLE b ≠ 0 ∧ 0xFFFFFFFF / orLE b ≠ 0 := by
  have hlt := byteValue_lt b
  rw [hlength] at hlt
  have hcompact : (orLE b).toNat = byteValue b := orLE_toNat (by omega)
  constructor
  · intro hzero
    rw [hzero] at hcompact
    exact hpos.ne hcompact
  · intro hzero
    have hdiv := congrArg UInt64.toNat hzero
    rw [UInt64.toNat_div, hcompact] at hdiv
    exact (compact_div_pos hpos hlt).ne' hdiv

/-- The value of the target that four bytes are expanded to. -/
theorem moneroTargetFromHex_compact {hex : String} {b : List UInt8}
    (hhex : fromHex hex = .ok b) (hlength : b.length = 4)
    (hpos : 0 < byteValue b) :
    ∃ t, moneroTargetFromHex hex = .ok t ∧
      t.value = 2 ^ 192 * expandCompact (byteValue b) := by
  obtain ⟨hne, -⟩ := compact_divisors_ne hlength hpos
  refine ⟨(Hash256.fill 0).storeHi
    (0xFFFFFFFFFFFFFFFF / (0xFFFFFFFF / orLE b)), ?_, ?_⟩
  · simp [moneroTargetFromHex, hhex, hlength, hne, bind, Except.bind]
    rfl
  · rw [Hash256.value_storeHi, UInt64.toNat_div, UInt64.toNat_div,
      orLE_toNat (by omega)]
    rfl

/-- What a target that is at most `(2^64 - 1) / D` in its top bits promises of
the hashes that meet it: they pass the pool's test for difficulty `D`. -/
theorem difficulty_of_meetsTarget {hash t : Hash256} {hi D : Nat}
    (hvalue : t.value = 2 ^ 192 * hi) (hpos : 0 < D)
    (hhi : hi ≤ (2 ^ 64 - 1) / D) (hmeets : meetsTarget hash t = true) :
    hash.value * D < 2 ^ 256 := by
  have hmul : hi * D ≤ 2 ^ 64 - 1 := (Nat.le_div_iff_mul_le hpos).mp hhi
  have hle := (meetsTarget_iff hash t).mp hmeets
  calc hash.value * D ≤ 2 ^ 192 * hi * D := by
        rw [← hvalue]
        exact Nat.mul_le_mul_right D hle
    _ = 2 ^ 192 * (hi * D) := by ring
    _ ≤ 2 ^ 192 * (2 ^ 64 - 1) := Nat.mul_le_mul_left _ hmul
    _ < 2 ^ 256 := by norm_num

/-- Hex of four bytes that denote `c`, least significant first. -/
def IsCompact (hex : String) (c : Nat) : Prop :=
  ∃ b, fromHex hex = .ok b ∧ b.length = 4 ∧ byteValue b = c

theorem IsCompact.lt {hex : String} {c : Nat} (hcompact : IsCompact hex c) :
    c < 2 ^ 32 := by
  obtain ⟨b, -, hlength, rfl⟩ := hcompact
  have hlt := byteValue_lt b
  rw [hlength] at hlt
  exact hlt

theorem IsCompact.expands {hex : String} {c : Nat}
    (hcompact : IsCompact hex c) (hpos : 0 < c) :
    ∃ t, moneroTargetFromHex hex = .ok t ∧
      t.value = 2 ^ 192 * expandCompact c := by
  obtain ⟨b, hhex, hlength, rfl⟩ := hcompact
  exact moneroTargetFromHex_compact hhex hlength hpos

/-- A target is returned for hex of 4, 8 or 32 bytes and nothing else.  The four
bytes of a compact value that is not zero are expanded without a division by
zero to a target with nothing below its top 64 bits, no harder than the compact
value itself; a larger compact value gives no smaller target; and the compact
value that stands for difficulty `D` gives a target that only hashes of
difficulty `D` or more meet. -/
theorem compact_targets :
    (∀ hex, (∃ t, moneroTargetFromHex hex = .ok t) ↔
      ∃ n ∈ [4, 8, 32], IsHexOf n hex) ∧
    (∀ hex b, fromHex hex = .ok b → b.length = 4 → 0 < byteValue b →
      orLE b ≠ 0 ∧ 0xFFFFFFFF / orLE b ≠ 0 ∧
      ∃ t hi, moneroTargetFromHex hex = .ok t ∧ t.value = 2 ^ 192 * hi ∧
        hi < 2 ^ 64 ∧ byteValue b * 2 ^ 32 ≤ hi) ∧
    (∀ hex hex' c c' t t', IsCompact hex c → IsCompact hex' c' → 0 < c →
      c ≤ c' → moneroTargetFromHex hex = .ok t →
        moneroTargetFromHex hex' = .ok t' → t.value ≤ t'.value) ∧
    ∀ D hex, 1 ≤ D → D ≤ 2 ^ 32 - 1 → IsCompact hex ((2 ^ 32 - 1) / D) →
      ∃ t hi, moneroTargetFromHex hex = .ok t ∧ t.value = 2 ^ 192 * hi ∧
        hi ≤ (2 ^ 64 - 1) / D ∧
        ∀ hash, meetsTarget hash t = true → hash.value * D < 2 ^ 256 := by
  refine ⟨moneroTargetFromHex_returns, ?_, ?_, ?_⟩
  · intro hex b hhex hlength hpos
    have hcompact : IsCompact hex (byteValue b) := ⟨b, hhex, hlength, rfl⟩
    obtain ⟨hne, hdiv⟩ := compact_divisors_ne hlength hpos
    obtain ⟨t, ht, hvalue⟩ := hcompact.expands hpos
    exact ⟨hne, hdiv, t, _, ht, hvalue, expandCompact_lt _,
      le_expandCompact hpos hcompact.lt⟩
  · intro hex hex' c c' t t' hcompact hcompact' hpos hle ht ht'
    obtain ⟨u, hu, hvalue⟩ := hcompact.expands hpos
    obtain ⟨u', hu', hvalue'⟩ := hcompact'.expands (by omega)
    obtain rfl := Except.ok.inj (hu.symm.trans ht)
    obtain rfl := Except.ok.inj (hu'.symm.trans ht')
    rw [hvalue, hvalue']
    exact Nat.mul_le_mul_left _ (expandCompact_mono hpos hle hcompact'.lt)
  · intro D hex hpos hle hcompact
    obtain ⟨t, ht, hvalue⟩ := hcompact.expands (Nat.div_pos hle hpos)
    have hhi := expandCompact_difficulty hpos hle
    exact ⟨t, _, ht, hvalue, hhi, fun hash hmeets =>
      difficulty_of_meetsTarget hvalue hpos hhi hmeets⟩

/-- The compact value for difficulty 3. -/
theorem compact_target_three :
    IsCompact "55555555" ((2 ^ 32 - 1) / 3) ∧
      ∃ t hi, moneroTargetFromHex "55555555" = .ok t ∧
        t.value = 2 ^ 192 * hi ∧ hi ≤ (2 ^ 64 - 1) / 3 ∧
        ∀ hash, meetsTarget hash t = true → hash.value * 3 < 2 ^ 256 := by
  have hcompact : IsCompact "55555555" ((2 ^ 32 - 1) / 3) :=
    ⟨[0x55, 0x55, 0x55, 0x55], by decide +kernel, rfl, by decide +kernel⟩
  exact ⟨hcompact,
    compact_targets.2.2.2 3 "55555555" (by decide) (by decide) hcompact⟩

end Minerby
