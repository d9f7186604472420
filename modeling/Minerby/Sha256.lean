/-
The streaming SHA-256 kernel: `reset`, `update`, `finish` with a 64-byte
buffer, and the one-shot functions over it.
-/
import Minerby.Sha256Spec

namespace Minerby

/-- The round constant table of the kernel. -/
def sha256K : Vector UInt32 64 :=
  #v[0x428a2f98, 0x71374491, 0xb5c0fbcf, 0xe9b5dba5, 0x3956c25b, 0x59f111f1,
    0x923f82a4, 0xab1c5ed5, 0xd807aa98, 0x12835b01, 0x243185be, 0x550c7dc3,
    0x72be5d74, 0x80deb1fe, 0x9bdc06a7, 0xc19bf174, 0xe49b69c1, 0xefbe4786,
    0x0fc19dc6, 0x240ca1cc, 0x2de92c6f, 0x4a7484aa, 0x5cb0a9dc, 0x76f988da,
    0x983e5152, 0xa831c66d, 0xb00327c8, 0xbf597fc7, 0xc6e00bf3, 0xd5a79147,
    0x06ca6351, 0x14292967, 0x27b70a85, 0x2e1b2138, 0x4d2c6dfc, 0x53380d13,
    0x650a7354, 0x766a0abb, 0x81c2c92e, 0x92722c85, 0xa2bfe8a1, 0xa81a664b,
    0xc24b8b70, 0xc76c51a3, 0xd192e819, 0xd6990624, 0xf40e3585, 0x106aa070,
    0x19a4c116, 0x1e376c08, 0x2748774c, 0x34b0bcb5, 0x391c0cb3, 0x4ed8aa4a,
    0x5b9cca4f, 0x682e6ff3, 0x748f82ee, 0x78a5636f, 0x84c87814, 0x8cc70208,
    0x90befffa, 0xa4506ceb, 0xbef9a3f7, 0xc67178f2]

def rotr (x n : UInt32) : UInt32 := (x >>> n) ||| (x <<< (32 - n))

/-- The kernel's state.  `buf` holds `buflen` bytes of the block being filled;
a full buffer is transformed at once, so `buflen` stays below 64. -/
structure Sha256 where
  state : Vector UInt32 8
  bitlen : UInt64
  buf : Vector UInt8 64
  buflen : Nat
  buflen_lt : buflen < 64

namespace Sha256

/-- `reset` leaves the bytes in the buffer as they were. -/
def reset (h : Sha256) : Sha256 :=
  { h with
    state := #v[0x6a09e667, 0xbb67ae85, 0x3c6ef372, 0xa54ff53a,
      0x510e527f, 0x9b05688c, 0x1f83d9ab, 0x5be0cd19]
    bitlen := 0
    buflen := 0
    buflen_lt := by decide }

/-- First loop of `transform`: the sixteen words of the block. -/
def loadStep (block : List UInt8) (m : Vector UInt32 64) (i : Nat) :
    Vector UInt32 64 :=
  m.set! i (be32 (block.getD (i * 4) 0) (block.getD (i * 4 + 1) 0)
    (block.getD (i * 4 + 2) 0) (block.getD (i * 4 + 3) 0))

/-- Second loop of `transform`: the rest of the schedule, in place. -/
def extendStep (m : Vector UInt32 64) (i : Nat) : Vector UInt32 64 :=
  let s0 := rotr m[i - 15]! 7 ^^^ rotr m[i - 15]! 18 ^^^ (m[i - 15]! >>> 3)
  let s1 := rotr m[i - 2]! 17 ^^^ rotr m[i - 2]! 19 ^^^ (m[i - 2]! >>> 10)
  m.set! i (m[i - 16]! + s0 + m[i - 7]! + s1)

/-- Third loop of `transform`: one round on the local variables. -/
def roundStep (m : Vector UInt32 64) (v : Fips180.Work) (i : Nat) :
    Fips180.Work :=
  let S1 := rotr v.e 6 ^^^ rotr v.e 11 ^^^ rotr v.e 25
  let ch := (v.e &&& v.f) ^^^ (~~~v.e &&& v.g)
  let t1 := v.h + S1 + ch + sha256K[i]! + m[i]!
  let S0 := rotr v.a 2 ^^^ rotr v.a 13 ^^^ rotr v.a 22
  let maj := (v.a &&& v.b) ^^^ (v.a &&& v.c) ^^^ (v.b &&& v.c)
  let t2 := S0 + maj
  { h := v.g, g := v.f, f := v.e, e := v.d + t1,
    d := v.c, c := v.b, b := v.a, a := t1 + t2 }

/-- The filled schedule of `transform`. -/
def messageWords (block : List UInt8) : Vector UInt32 64 :=
  (List.range' 16 48).foldl extendStep
    ((List.range 16).foldl (loadStep block) (Vector.replicate 64 0))

/-- `uint32_t a = state_[0], b = state_[1], ...` -/
def loadVars (state : Vector UInt32 8) : Fips180.Work :=
  ⟨state[0]!, state[1]!, state[2]!, state[3]!,
    state[4]!, state[5]!, state[6]!, state[7]!⟩

/-- `state_[0] += a; state_[1] += b; ...` -/
def addVars (state : Vector UInt32 8) (v : Fips180.Work) : Vector UInt32 8 :=
  #v[state[0]! + v.a, state[1]! + v.b, state[2]! + v.c, state[3]! + v.d,
    state[4]! + v.e, state[5]! + v.f, state[6]! + v.g, state[7]! + v.h]

def transform (state : Vector UInt32 8) (block : List UInt8) :
    Vector UInt32 8 :=
  addVars state ((List.range 64).foldl (roundStep (messageWords block))
    (loadVars state))

/-- The body of the loop of `update`. -/
def updateByte (h : Sha256) (byte : UInt8) : Sha256 :=
  let buf := h.buf.set h.buflen byte h.buflen_lt
  if hfull : h.buflen + 1 = 64 then
    { state := transform h.state buf.toList
      bitlen := h.bitlen + 512
      buf := buf
      buflen := 0
      buflen_lt := by decide }
  else
    { h with
      buf := buf
      buflen := h.buflen + 1
      buflen_lt := by have := h.buflen_lt; omega }

def update (h : Sha256) (data : List UInt8) : Sha256 :=
  data.foldl updateByte h

theorem buflen_updateByte (h : Sha256) (byte : UInt8) :
    (h.updateByte byte).buflen = (h.buflen + 1) % 64 := by
  have hlt := h.buflen_lt
  unfold updateByte
  split
  · rename_i hfull
    simp [hfull]
  · simp only
    omega

/-- `while (buflen_ != 56) update(&zero, 1)`.  The distance to 56 modulo 64
shrinks with every byte, so the loop ends for every buffer fill. -/
def padZeros (h : Sha256) : Sha256 :=
  if h.buflen = 56 then h else padZeros (h.update [0x00])
termination_by (120 - h.buflen) % 64
decreasing_by
  have hlt := h.buflen_lt
  have hnext := buflen_updateByte h 0x00
  simp only [update, List.foldl_cons, List.foldl_nil, hnext]
  omega

/-- `lenbuf`: the bit count, most significant byte first. -/
def lenbuf (bits : UInt64) : List UInt8 :=
  (List.range 8).map fun i => (bits >>> UInt64.ofNat (56 - i * 8)).toUInt8

def finish (h : Sha256) : List UInt8 :=
  let bits := h.bitlen + UInt64.ofNat h.buflen * 8
  let h := h.update [0x80]
  let h := padZeros h
  let h := h.update (lenbuf bits)
  (List.range 8).flatMap fun i =>
    let word : UInt32 := h.state[i]!
    [(word >>> 24).toUInt8, (word >>> 16).toUInt8, (word >>> 8).toUInt8,
      word.toUInt8]

/-- A constructed object: `reset` over an uninitialised buffer. -/
def fresh (garbage : Vector UInt8 64) : Sha256 :=
  reset ⟨Vector.replicate 8 0, 0, garbage, 0, by decide⟩

end Sha256

/-- The buffer contents before the first byte are indeterminate; zeros stand
for them here and `sha256_eq` holds for any. -/
def sha256 (data : List UInt8) : List UInt8 :=
  ((Sha256.fresh (Vector.replicate 64 0)).update data).finish

def sha256d (data : List UInt8) : List UInt8 := sha256 (sha256 data)

end Minerby
