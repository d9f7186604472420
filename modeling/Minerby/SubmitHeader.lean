/-
The header a Stratum pool rebuilds from a `mining.submit`, compared with the
header the worker hashed.
-/
import Minerby.StratumHeader
import Minerby.StratumV1Client

namespace Minerby

/-- The extranonce2, ntime and nonce strings of a `mining.submit` message. -/
def submitFields : Json → Option (String × String × String)
  | .obj [_, _, ("params", .arr [_, _, .str xn2, .str ntime, .str nonce])] =>
      some (xn2, ntime, nonce)
  | _ => none

/-- The pool's side: rebuild the header from its own job, the session's
extranonce1 and the strings of the message.  The 8-character ntime and nonce
are decoded as big-endian words and stored little-endian, as the client does
with the fields of `mining.notify`. -/
def poolHeader (j : StratumJob) (xn1 : String) (msg : Json) :
    Except String (Option (List UInt8)) :=
  match submitFields msg with
  | none => .ok none
  | some (xn2, ntime, nonceHex) => do
      match ← buildHeader { j with ntime := ntime } xn1 xn2 with
      | none => return none
      | some header =>
          let nonce ← be32FromHex nonceHex
          return some (writeAt header 76 (le32 nonce))

/-- The four bytes of the word read the same in both directions. -/
def PalindromicWord (n : UInt32) : Prop :=
  n.toUInt8 = (n >>> 24).toUInt8 ∧ (n >>> 8).toUInt8 = (n >>> 16).toUInt8

theorem length_headerPrefix {j : StratumJob} {xn1 xn2Hex : String}
    (d : DecodedWork j xn1 xn2Hex) : d.headerPrefix.length = 76 := by
  have hwords := length_wordsReversed 8 d.prevhash (by rw [d.length_prevhash])
  simp [DecodedWork.headerPrefix, DecodedWork.root, hwords, length_merkleRoot]

/-- A nonce stored at offset 76 of a header replaces its last four bytes. -/
theorem writeAt_nonce {j : StratumJob} {xn1 xn2Hex : String}
    (d : DecodedWork j xn1 xn2Hex) (nonce : UInt32) :
    writeAt (d.headerPrefix ++ [0, 0, 0, 0]) 76 (le32 nonce) =
      d.headerPrefix ++ le32 nonce := by
  have hblank : ([0, 0, 0, 0] : List UInt8) = List.replicate 4 0 := rfl
  rw [hblank, writeAt_frontier _ _ _ _ _ (length_headerPrefix d).symm (by simp)]
  simp

/-- The pool reads the submitted nonce with its bytes in the other order. -/
theorem poolHeader_submit {j : StratumJob} {xn1 xn2Hex : String}
    (d : DecodedWork j xn1 xn2Hex) (shareDiff : ℚ) (out : MiningJob)
    (c : StratumV1Client) (nonce : UInt32) :
    poolHeader j xn1 (c.submit (d.miningJob shareDiff out) nonce).2 =
      .ok (some (d.headerPrefix ++ (le32 nonce).reverse)) := by
  have hheader := buildHeader_eq_some.mpr
    ⟨d, (rfl : d.headerPrefix ++ [0, 0, 0, 0] = _)⟩
  change (do
    match ← buildHeader j xn1 xn2Hex with
    | none => return none
    | some header =>
        let nonce ← be32FromHex (toHex (le32 nonce))
        return some (writeAt header 76 (le32 nonce))) = _
  rw [hheader, be32FromHex_toHex_le32]
  change Except.ok (some _) = _
  rw [writeAt_nonce, le32_be32]
  rfl

theorem le32_reverse_eq_iff (n : UInt32) :
    (le32 n).reverse = le32 n ↔ PalindromicWord n := by
  simp only [le32, PalindromicWord, List.reverse_cons, List.reverse_nil,
    List.nil_append, List.cons_append, List.cons.injEq, and_true]
  constructor
  · rintro ⟨h₁, h₂, -, -⟩
    exact ⟨h₁.symm, h₂.symm⟩
  · rintro ⟨h₁, h₂⟩
    exact ⟨h₁.symm, h₂.symm, h₂, h₁⟩

/-- A submit describes the header that was hashed exactly for the nonces whose
bytes are a palindrome. -/
theorem poolHeader_eq_hashed_iff (j : StratumJob) (xn1 xn2Hex : String)
    (shareDiff : ℚ) (out mj : MiningJob) (c : StratumV1Client) (nonce : UInt32)
    (hbuilt : buildWork j xn1 xn2Hex shareDiff out = (true, mj)) :
    poolHeader j xn1 (c.submit mj nonce).2 =
        .ok (some (spliceNonce mj.blob mj.nonceOffset nonce)) ↔
      PalindromicWord nonce := by
  rcases buildWork_cases j xn1 xn2Hex shareDiff out with
    ⟨d, hcase⟩ | ⟨-, hcase⟩
  · rw [hcase, Prod.mk.injEq] at hbuilt
    obtain ⟨-, rfl⟩ := hbuilt
    have hspliced : spliceNonce (d.miningJob shareDiff out).blob
        (d.miningJob shareDiff out).nonceOffset nonce =
          d.headerPrefix ++ le32 nonce := writeAt_nonce d nonce
    rw [poolHeader_submit, hspliced, ← le32_reverse_eq_iff]
    simp
  · rw [hcase] at hbuilt
    cases hbuilt

/-- A job with empty coinbase parts and branch. -/
def plainJob : StratumJob :=
  { jobId := "1"
    prevhash := "0000000000000000000000000000000000000000000000000000000000000000"
    version := "20000000"
    nbits := "1d00ffff"
    ntime := "504e86b9" }

/-- What the fields of the job decode to in a session with extranonce1 `01`. -/
def plainWork : DecodedWork plainJob "01" "00000000" where
  coinb1 := []
  coinb2 := []
  xn1b := [1]
  xn2b := [0, 0, 0, 0]
  branch := []
  version := 0x20000000
  nbits := 0x1d00ffff
  ntime := 0x504e86b9
  prevhash := List.replicate 32 0
  coinb1_eq := rfl
  coinb2_eq := rfl
  xn1_eq := rfl
  xn2_eq := rfl
  branch_eq := .nil
  version_eq := rfl
  nbits_eq := rfl
  ntime_eq := rfl
  prevhash_eq := rfl
  length_prevhash := rfl

theorem buildWork_plainJob :
    buildWork plainJob "01" "00000000" 1 {} =
      (true, plainWork.miningJob 1 {}) := by
  rw [buildWork, buildHeader_eq_some.mpr ⟨plainWork, rfl⟩]
  rfl

/-- The nonce 0 reads the same in both orders, so its submit describes the
hashed header. -/
theorem poolHeader_zero_nonce :
    buildWork plainJob "01" "00000000" 1 {} =
        (true, plainWork.miningJob 1 {}) ∧
      poolHeader plainJob "01"
          (StratumV1Client.submit ⟨"u", "x", {}, 1, -1, -1, -1, "", 4, 1, {},
            false, 0⟩ (plainWork.miningJob 1 {}) 0).2 =
        .ok (some (spliceNonce (plainWork.miningJob 1 {}).blob
          (plainWork.miningJob 1 {}).nonceOffset 0)) :=
  ⟨buildWork_plainJob,
    (poolHeader_eq_hashed_iff _ _ _ _ _ _ _ _ buildWork_plainJob).mpr
      ⟨rfl, rfl⟩⟩

/-- The nonce 1 does not: the pool rebuilds a header that was never hashed. -/
theorem poolHeader_one_nonce_ne :
    buildWork plainJob "01" "00000000" 1 {} =
        (true, plainWork.miningJob 1 {}) ∧
      poolHeader plainJob "01"
          (StratumV1Client.submit ⟨"u", "x", {}, 1, -1, -1, -1, "", 4, 1, {},
            false, 0⟩ (plainWork.miningJob 1 {}) 1).2 ≠
        .ok (some (spliceNonce (plainWork.miningJob 1 {}).blob
          (plainWork.miningJob 1 {}).nonceOffset 1)) := by
  refine ⟨buildWork_plainJob, ?_⟩
  have hspliced : spliceNonce (plainWork.miningJob 1 {}).blob
      (plainWork.miningJob 1 {}).nonceOffset 1 =
        plainWork.headerPrefix ++ le32 1 := writeAt_nonce plainWork 1
  rw [poolHeader_submit, hspliced]
  intro heq
  simp only [Except.ok.injEq, Option.some.injEq, List.append_cancel_left_eq]
    at heq
  exact absurd heq (by decide)

end Minerby
