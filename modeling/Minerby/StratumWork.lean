/-
Stratum V1 work: the `mining.notify` payload, the protocol-agnostic mining job,
and the assembly of the 80-byte header.
-/
import Minerby.Target
import Minerby.Sha256

namespace Minerby

/-- A `mining.notify` payload, fields kept as received. -/
structure StratumJob where
  jobId : String := ""
  prevhash : String := ""
  coinb1 : String := ""
  coinb2 : String := ""
  merkleBranch : List String := []
  version : String := ""
  nbits : String := ""
  ntime : String := ""
  cleanJobs : Bool := false
deriving Repr, DecidableEq

/-- A byte blob to hash, the offset of the 4-byte little-endian nonce within
it, and the target the digest must meet. -/
structure MiningJob where
  blob : List UInt8 := []
  nonceOffset : UInt32 := 0
  target : Hash256 := Hash256.fill 0
  jobId : String := ""
  generation : UInt64 := 0
  extranonce2Hex : String := ""
  ntimeHex : String := ""
deriving Repr, DecidableEq

/-- The four stores `blob[off + k] = static_cast<uint8_t>(nonce >> (8 * k))` a
worker makes before it hashes. -/
def spliceNonce (blob : List UInt8) (offset : UInt32) (nonce : UInt32) :
    List UInt8 :=
  writeAt blob offset.toNat (le32 nonce)

/-- Why a call does not return normally. -/
inductive Fault where
  /-- An exception leaves the function. -/
  | thrown (what : String)
  /-- The language gives the call no meaning. -/
  | undefined (what : String)
deriving Repr, DecidableEq

/-- `size` bytes of big-endian hex.  A negative size makes the vector's
constructor throw; a size above 8 shifts a 64-bit value by 64 or more. -/
def encodeExtranonce2 (value : UInt64) (size : Int) : Except Fault String :=
  if size < 0 then .error (.thrown "cannot create std::vector larger than max_size()")
  else if 8 < size then .error (.undefined "shift by 64 or more")
  else
    .ok (toHex ((List.range size.toNat).map fun i =>
      (value >>> UInt64.ofNat (8 * (size.toNat - 1 - i))).toUInt8))

/-- The loop over the merkle branch, from the coinbase hash on.  `none` is the
early `return false` for a node that is not 32 bytes. -/
def foldBranch : List UInt8 → List String → Except String (Option (List UInt8))
  | merkle, [] => .ok (some merkle)
  | merkle, node :: rest => do
      let nb ← fromHex node
      if nb.length ≠ 32 then return none
      else foldBranch (sha256d (merkle ++ nb)) rest

/-- One iteration of the loop that places `prevhash`, words reversed. -/
def placePrevhashWord (prevhash : List UInt8) (h : List UInt8) (w : Nat) :
    List UInt8 :=
  writeAt h (4 + w * 4)
    [prevhash.getD (w * 4 + 3) 0, prevhash.getD (w * 4 + 2) 0,
      prevhash.getD (w * 4 + 1) 0, prevhash.getD (w * 4 + 0) 0]

/-- The stores into the header array, in source order. -/
def layoutHeader (version nbits ntime : UInt32) (prevhash merkle : List UInt8) :
    List UInt8 :=
  let h := List.replicate 80 0
  let h := writeAt h 0 (le32 version)
  let h := (List.range 8).foldl (placePrevhashWord prevhash) h
  let h := writeAt h 36 merkle
  let h := writeAt h 68 (le32 ntime)
  writeAt h 72 (le32 nbits)

/-- The body of the `try` block: the header, or nothing when a length check
returns false. -/
def buildHeader (j : StratumJob) (xn1 xn2Hex : String) :
    Except String (Option (List UInt8)) := do
  let coinb1 ← fromHex j.coinb1
  let coinb2 ← fromHex j.coinb2
  let xn1b ← fromHex xn1
  let xn2b ← fromHex xn2Hex
  let coinbase := coinb1 ++ xn1b ++ xn2b ++ coinb2
  match ← foldBranch (sha256d coinbase) j.merkleBranch with
  | none => return none
  | some merkle =>
      let version ← be32FromHex j.version
      let nbits ← be32FromHex j.nbits
      let ntime ← be32FromHex j.ntime
      let prevhash ← fromHex j.prevhash
      if prevhash.length ≠ 32 then return none
      else return some (layoutHeader version nbits ntime prevhash merkle)

/-- `build_work`: the returned flag and the value of `out` afterwards.  Every
exception is caught and turned into `false`. -/
def buildWork (j : StratumJob) (xn1 xn2Hex : String) (shareDiff : ℚ)
    (out : MiningJob) : Bool × MiningJob :=
  match buildHeader j xn1 xn2Hex with
  | .ok (some header) =>
      (true, { out with
        blob := header
        nonceOffset := 76
        target := targetFromDifficulty shareDiff
        jobId := j.jobId
        extranonce2Hex := xn2Hex
        ntimeHex := j.ntime })
  | _ => (false, out)

end Minerby
