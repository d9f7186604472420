/-
256-bit targets, stored little-endian, and the conversions the two protocols
use.  A `double` is the rational it denotes.  The scaling of a share difficulty
is read as exact; the difficulty of a target is compared with an earlier one,
so its two roundings are the machine's.
-/
import Minerby.Hex

namespace Minerby

/-- 32 bytes, index 0 least significant. -/
abbrev Hash256 := Vector UInt8 32

namespace Hash256

/-- `t.fill(b)` -/
def fill (b : UInt8) : Hash256 := Vector.replicate 32 b

/-- Store bytes one after another from `offset` on. -/
def store (t : Hash256) : Nat → List UInt8 → Hash256
  | _, [] => t
  | offset, b :: rest => store (t.set! offset b) (offset + 1) rest

/-- The eight bytes of `hi` at the top of the value, as
`t[24 + i] = static_cast<uint8_t>(hi >> (8 * i))` does. -/
def storeHi (t : Hash256) (hi : UInt64) : Hash256 :=
  t.store 24 ((List.range 8).map fun i =>
    (hi >>> UInt64.ofNat (8 * i)).toUInt8)

/-- The bytes a hasher wrote to `digest[32]`, copied to a `Hash256`. -/
def ofDigest (digest : List UInt8) : Hash256 :=
  Vector.ofFn fun i : Fin 32 => digest.getD i 0

end Hash256

/-- `for (; k > 0 && d > 1.0; --k) d /= 4294967296.0` -/
def scaleDifficulty : Nat → ℚ → Nat × ℚ
  | 0, d => (0, d)
  | k + 1, d =>
      if 1 < d then scaleDifficulty k (d / 4294967296) else (k + 1, d)

/-- Convert a Stratum share difficulty to its target.  The conversion of the
quotient to 64 bits is undefined in the source when it does not fit; here it
keeps the low 64 bits. -/
def targetFromDifficulty (diff : ℚ) : Hash256 :=
  if diff ≤ 0 then Hash256.fill 0xff
  else
    let (k, d) := scaleDifficulty 6 diff
    let m := UInt64.ofNat ⌊4294901760 / d⌋₊
    if m = 0 ∧ k = 6 then Hash256.fill 0xff
    else
      let t := (Hash256.fill 0).store (k * 4) (le32 m.toUInt32)
      if k + 1 < 8 then t.store ((k + 1) * 4) (le32 (m >>> 32).toUInt32)
      else t

/-- Little-endian bytes as a number: `v |= b[i] << (8 * i)`. -/
def orLE (b : List UInt8) : UInt64 :=
  (List.range b.length).foldl
    (fun v i => v ||| (b.getD i 0).toUInt64 <<< UInt64.ofNat (8 * i)) 0

/-- Expand a Monero-style target: 4 bytes in compact form, 8 bytes as the top
of the target, or all 32 bytes. -/
def moneroTargetFromHex (hex : String) : Except String Hash256 := do
  let b ← fromHex hex
  if b.length = 32 then return (Hash256.fill 0).store 0 b
  else if b.length = 4 then
    let compact := orLE b
    if compact = 0 then return Hash256.fill 0xff
    else
      return (Hash256.fill 0).storeHi
        (0xFFFFFFFFFFFFFFFF / (0xFFFFFFFF / compact))
  else if b.length = 8 then return (Hash256.fill 0).storeHi (orLE b)
  else .error "monero_target_from_hex: unexpected length"

/-- The nearest integer, of two the even one. -/
def roundEven (x : ℚ) : Int :=
  let n := ⌊x⌋
  if x - n < 1 / 2 ∨ (x - n = 1 / 2 ∧ n % 2 = 0) then n else n + 1

/-- The nearest `double`, for positive values in its normal range: 53
significant bits. -/
def toDouble (x : ℚ) : ℚ :=
  let ulp : ℚ := 2 ^ (Int.log 2 x - 52)
  roundEven (x / ulp) * ulp

/-- Rough difficulty implied by a target: `2^64` over its top 64 bits.  The
literal, the converted integer and the quotient are rounded. -/
def targetToDifficulty (target : Hash256) : ℚ :=
  let hi := orLE (target.toList.drop 24)
  if hi = 0 then 0
  else toDouble (toDouble 18446744073709551615 / toDouble hi.toNat)

/-- The exact quotient is above 93, and the roundings take it below. -/
example : (93 : ℚ) < 18446744073709551616 / 198352086814081200 ∧
    targetToDifficulty ((Hash256.fill 0).storeHi 198352086814081200) < 93 := by
  decide +kernel

/-- The inverse of `targetToDifficulty`, for the `--share-diff` override. -/
def targetFromDifficulty64 (diff : ℚ) : Hash256 :=
  let hi : UInt64 :=
    if diff ≤ 1 then 0xFFFFFFFFFFFFFFFF
    else UInt64.ofNat ⌊toDouble (toDouble 18446744073709551615 / diff)⌋₊
  (Hash256.fill 0).storeHi hi

/-- The loop of `meets_target` from byte `i - 1` down to byte 0. -/
def meetsTargetFrom (hash target : Hash256) : Nat → Bool
  | 0 => true
  | i + 1 =>
      if hash[i]! < target[i]! then true
      else if target[i]! < hash[i]! then false
      else meetsTargetFrom hash target i

/-- True when `hash` is at most `target`. -/
def meetsTarget (hash target : Hash256) : Bool :=
  meetsTargetFrom hash target 32

end Minerby
