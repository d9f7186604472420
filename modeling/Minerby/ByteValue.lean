/-
The number that bytes denote, least significant byte first: how stores change
it, how the bytes of a number are read back, and how two of them compare.
-/
import Minerby.ByteOrder

namespace Minerby

/-- Little-endian bytes as a number. -/
def byteValue (bytes : List UInt8) : Nat :=
  Nat.ofDigits 256 (bytes.map UInt8.toNat)

/-- The `count` low bytes of a number, least significant first. -/
def valueBytes (count value : Nat) : List UInt8 :=
  (List.range count).map fun i => UInt8.ofNat (value / 256 ^ i)

@[simp]
theorem byteValue_nil : byteValue [] = 0 := rfl

@[simp]
theorem byteValue_cons (b : UInt8) (rest : List UInt8) :
    byteValue (b :: rest) = b.toNat + 256 * byteValue rest := by
  simp [byteValue, Nat.ofDigits_cons]

theorem byteValue_append (low high : List UInt8) :
    byteValue (low ++ high) =
      byteValue low + 256 ^ low.length * byteValue high := by
  simp [byteValue, Nat.ofDigits_append]

@[simp]
theorem byteValue_replicate_zero (n : Nat) :
    byteValue (List.replicate n 0) = 0 := by
  induction n with
  | zero => rfl
  | succ n ih => simp [List.replicate_succ, ih]

theorem byteValue_lt (bytes : List UInt8) :
    byteValue bytes < 256 ^ bytes.length := by
  have hdigits : ∀ digit ∈ bytes.map UInt8.toNat, digit < 256 := by
    intro digit hdigit
    obtain ⟨b, -, rfl⟩ := List.mem_map.mp hdigit
    exact b.toNat_lt
  have hlt := Nat.ofDigits_lt_base_pow_length (by decide) hdigits
  rwa [List.length_map] at hlt

/-- As many bytes with the same value are the same bytes. -/
theorem byteValue_injective {left right : List UInt8}
    (hlength : left.length = right.length)
    (hvalue : byteValue left = byteValue right) : left = right := by
  induction left generalizing right with
  | nil => exact (List.length_eq_zero_iff.mp hlength.symm).symm
  | cons b rest ih =>
      cases right with
      | nil => simp at hlength
      | cons c more =>
          simp only [List.length_cons, Nat.add_right_cancel_iff] at hlength
          simp only [byteValue_cons] at hvalue
          have hb := b.toNat_lt
          have hc := c.toNat_lt
          have hhead : b.toNat = c.toNat := by omega
          have htail : byteValue rest = byteValue more := by omega
          rw [UInt8.toNat_inj.mp hhead, ih hlength htail]

@[simp]
theorem length_valueBytes (count value : Nat) :
    (valueBytes count value).length = count := by
  simp [valueBytes]

theorem valueBytes_succ (count value : Nat) :
    valueBytes (count + 1) value =
      valueBytes count value ++ [UInt8.ofNat (value / 256 ^ count)] := by
  simp [valueBytes, List.range_succ]

/-- The bytes of a number denote it, as far as they reach. -/
theorem byteValue_valueBytes (count value : Nat) :
    byteValue (valueBytes count value) = value % 256 ^ count := by
  induction count with
  | zero => simp [valueBytes, Nat.mod_one]
  | succ count ih =>
      rw [valueBytes_succ, byteValue_append, ih, length_valueBytes,
        Nat.mod_pow_succ]
      simp

/-- The bytes of a word denote it. -/
@[simp]
theorem byteValue_le32 (n : UInt32) : byteValue (le32 n) = n.toNat := by
  have hbytes : le32 n = valueBytes 4 n.toNat := by
    have hbyte : ∀ i < 4, (n >>> UInt32.ofNat (8 * i)).toUInt8 =
        UInt8.ofNat (n.toNat / 256 ^ i) := by
      intro i hi
      apply UInt8.toNat_inj.mp
      have hshift : 8 * i % 2 ^ 32 % 32 = 8 * i := by omega
      rw [UInt32.toNat_toUInt8, UInt32.toNat_shiftRight, UInt8.toNat_ofNat',
        UInt32.toNat_ofNat', Nat.shiftRight_eq_div_pow, hshift, Nat.pow_mul]
    have h0 := hbyte 0 (by decide)
    have h1 := hbyte 1 (by decide)
    have h2 := hbyte 2 (by decide)
    have h3 := hbyte 3 (by decide)
    simp only [valueBytes, List.range_succ, List.range_zero, List.nil_append,
      List.map_cons, List.map_nil, List.cons_append, ← h0, ← h1, ← h2, ← h3]
    simp [le32]
  have hlt : n.toNat < 256 ^ 4 := n.toNat_lt
  rw [hbytes, byteValue_valueBytes, Nat.mod_eq_of_lt hlt]

/-- Bytes stored over a run of zeros. -/
theorem byteValue_splice_zeros (before after : Nat) (bytes : List UInt8) :
    byteValue (List.replicate before 0 ++ bytes ++ List.replicate after 0) =
      256 ^ before * byteValue bytes := by
  simp [byteValue_append]

/-- A byte stored over a zero adds its place value, as far as the bytes
reach. -/
theorem byteValue_set_zero {bytes : List UInt8} {k : Nat}
    (hzero : bytes.getD k 0 = 0) (b : UInt8) :
    byteValue (bytes.set k b) =
      (byteValue bytes + 256 ^ k * b.toNat) % 256 ^ bytes.length := by
  by_cases hlt : k < bytes.length
  · have hsplit : bytes = bytes.take k ++ 0 :: bytes.drop (k + 1) := by
      rw [List.getD_eq_getElem _ _ hlt] at hzero
      rw [← hzero, ← List.drop_eq_getElem_cons hlt, List.take_append_drop]
    have hsum : byteValue (bytes.set k b) =
        byteValue bytes + 256 ^ k * b.toNat := by
      rw [List.set_eq_take_append_cons_drop, if_pos hlt, byteValue_append,
        byteValue_cons, List.length_take, Nat.min_eq_left (Nat.le_of_lt hlt)]
      conv_rhs => rw [hsplit, byteValue_append, byteValue_cons]
      rw [List.length_take, Nat.min_eq_left (Nat.le_of_lt hlt)]
      simp only [UInt8.toNat_zero]
      ring
    have hbound := byteValue_lt (bytes.set k b)
    rw [List.length_set] at hbound
    rw [← hsum, Nat.mod_eq_of_lt hbound]
  · have hle := Nat.le_of_not_lt hlt
    rw [List.set_eq_of_length_le hle, ← Nat.sub_add_cancel hle, Nat.pow_add,
      Nat.mul_right_comm, Nat.add_mul_mod_self_right,
      Nat.mod_eq_of_lt (byteValue_lt bytes)]

/-- The top byte decides, and then the rest. -/
theorem byteValue_concat_le_iff {low low' : List UInt8} {top top' : UInt8}
    (hlength : low.length = low'.length) :
    byteValue (low ++ [top]) ≤ byteValue (low' ++ [top']) ↔
      top.toNat < top'.toNat ∨
        top.toNat = top'.toNat ∧ byteValue low ≤ byteValue low' := by
  have hlow := byteValue_lt low
  have hlow' := byteValue_lt low'
  simp only [byteValue_append, byteValue_cons, byteValue_nil, Nat.mul_zero,
    Nat.add_zero, hlength] at hlow ⊢
  rcases Nat.lt_trichotomy top.toNat top'.toNat with hlt | heq | hgt
  · have hstep : 256 ^ low'.length * (top.toNat + 1) ≤
        256 ^ low'.length * top'.toNat := Nat.mul_le_mul_left _ hlt
    rw [Nat.mul_add, Nat.mul_one] at hstep
    exact iff_of_true (by omega) (Or.inl hlt)
  · simp [heq]
  · have hstep : 256 ^ low'.length * (top'.toNat + 1) ≤
        256 ^ low'.length * top.toNat := Nat.mul_le_mul_left _ hgt
    rw [Nat.mul_add, Nat.mul_one] at hstep
    exact iff_of_false (by omega) (by omega)

end Minerby
