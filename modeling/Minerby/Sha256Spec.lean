/-
The reference SHA-256 of FIPS 180-4, as the standard states it: constants as
fractional parts of roots of primes, the message schedule as a recurrence, the
compression of one block, padding, and the fold over the padded message.
-/
import Minerby.ByteOrder
import Minerby.BlockStream

namespace Minerby

namespace Fips180

/-- The integer `k`-th root of `n`, found bit by bit from bit `bits - 1`. -/
def iroot (k n : Nat) : Nat → Nat → Nat
  | 0, root => root
  | bit + 1, root =>
      iroot k n bit (if (root + 2 ^ bit) ^ k ≤ n then root + 2 ^ bit else root)

/-- The first thirty-two bits of the fractional part of the `k`-th root of
`p`. -/
def fractionalBits (k p : Nat) : UInt32 :=
  UInt32.ofNat (iroot k (p * 2 ^ (32 * k)) 40 0)

def primes : List Nat :=
  [2, 3, 5, 7, 11, 13, 17, 19, 23, 29, 31, 37, 41, 43, 47, 53, 59, 61, 67, 71,
    73, 79, 83, 89, 97, 101, 103, 107, 109, 113, 127, 131, 137, 139, 149, 151,
    157, 163, 167, 173, 179, 181, 191, 193, 197, 199, 211, 223, 227, 229, 233,
    239, 241, 251, 257, 263, 269, 271, 277, 281, 283, 293, 307, 311]

/-- Round constants (section 4.2.2): cube roots of the first 64 primes. -/
def K (t : Nat) : UInt32 := fractionalBits 3 (primes.getD t 0)

/-- Initial hash value (section 5.3.3): square roots of the first 8 primes. -/
def H0 : Vector UInt32 8 :=
  Vector.ofFn fun j => fractionalBits 2 (primes.getD j 0)

def ROTR (n : Nat) (x : UInt32) : UInt32 := ⟨x.toBitVec.rotateRight n⟩

def SHR (n : Nat) (x : UInt32) : UInt32 := ⟨x.toBitVec >>> n⟩

def Ch (x y z : UInt32) : UInt32 := (x &&& y) ^^^ (~~~x &&& z)

def Maj (x y z : UInt32) : UInt32 := (x &&& y) ^^^ (x &&& z) ^^^ (y &&& z)

def bigSigma0 (x : UInt32) : UInt32 := ROTR 2 x ^^^ ROTR 13 x ^^^ ROTR 22 x

def bigSigma1 (x : UInt32) : UInt32 := ROTR 6 x ^^^ ROTR 11 x ^^^ ROTR 25 x

def smallSigma0 (x : UInt32) : UInt32 := ROTR 7 x ^^^ ROTR 18 x ^^^ SHR 3 x

def smallSigma1 (x : UInt32) : UInt32 := ROTR 17 x ^^^ ROTR 19 x ^^^ SHR 10 x

/-- Word `t` of a block, read big-endian. -/
def word (block : List UInt8) (t : Nat) : UInt32 :=
  be32 (block.getD (4 * t) 0) (block.getD (4 * t + 1) 0)
    (block.getD (4 * t + 2) 0) (block.getD (4 * t + 3) 0)

/-- The message schedule `W_t` (section 6.2.2, step 1). -/
def W (block : List UInt8) (t : Nat) : UInt32 :=
  if t < 16 then word block t
  else smallSigma1 (W block (t - 2)) + W block (t - 7) +
    smallSigma0 (W block (t - 15)) + W block (t - 16)

/-- The eight working variables. -/
structure Work where
  a : UInt32
  b : UInt32
  c : UInt32
  d : UInt32
  e : UInt32
  f : UInt32
  g : UInt32
  h : UInt32

/-- Round `t` (section 6.2.2, step 3). -/
def round (block : List UInt8) (v : Work) (t : Nat) : Work :=
  let T1 := v.h + bigSigma1 v.e + Ch v.e v.f v.g + K t + W block t
  let T2 := bigSigma0 v.a + Maj v.a v.b v.c
  ⟨T1 + T2, v.a, v.b, v.c, v.d + T1, v.e, v.f, v.g⟩

/-- The intermediate hash value (section 6.2.2, step 4). -/
def intermediate (H : Vector UInt32 8) (v : Work) : Vector UInt32 8 :=
  #v[v.a + H[0], v.b + H[1], v.c + H[2], v.d + H[3],
    v.e + H[4], v.f + H[5], v.g + H[6], v.h + H[7]]

/-- The hash computation for one block. -/
def compress (H : Vector UInt32 8) (block : List UInt8) : Vector UInt32 8 :=
  intermediate H ((List.range 64).foldl (round block)
    ⟨H[0], H[1], H[2], H[3], H[4], H[5], H[6], H[7]⟩)

/-- The eight bytes of the bit length modulo `2 ^ 64`, most significant
first. -/
def lengthField (bytes : Nat) : List UInt8 :=
  (List.range 8).map fun i => UInt8.ofNat (8 * bytes % 2 ^ 64 / 256 ^ (7 - i))

/-- Padding (section 5.1.1): `0x80`, zeros up to 56 modulo 64, the length. -/
def pad (message : List UInt8) : List UInt8 :=
  message ++ [0x80] ++ List.replicate ((119 - message.length % 64) % 64) 0 ++
    lengthField message.length

/-- The words of the hash value, each most significant byte first. -/
def output (H : Vector UInt32 8) : List UInt8 :=
  H.toList.flatMap fun (x : UInt32) =>
    [(x >>> 24).toUInt8, (x >>> 16).toUInt8, (x >>> 8).toUInt8, x.toUInt8]

/-- SHA-256 of a message. -/
def sha256 (message : List UInt8) : List UInt8 :=
  output ((fullBlocks 64 (pad message)).foldl compress H0)

end Fips180

end Minerby
