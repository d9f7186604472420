/-
What `build_work` computes: the exact set of inputs it accepts and, for those,
the header as a concatenation of fields.
-/
import Minerby.StratumWork

namespace Minerby

/-- Each 4-byte word of a byte string reversed. -/
def wordsReversed : List UInt8 → List UInt8
  | a :: b :: c :: d :: rest => d :: c :: b :: a :: wordsReversed rest
  | _ => []

/-- The left fold of a merkle branch over the coinbase hash. -/
def merkleRoot (coinbase : List UInt8) (branch : List (List UInt8)) :
    List UInt8 :=
  branch.foldl (fun acc node => sha256d (acc ++ node)) (sha256d coinbase)

/-- The decoded fields of an acceptable job, each with the proof that it is
what the text decodes to. -/
structure DecodedWork (j : StratumJob) (xn1 xn2Hex : String) where
  coinb1 : List UInt8
  coinb2 : List UInt8
  xn1b : List UInt8
  xn2b : List UInt8
  branch : List (List UInt8)
  version : UInt32
  nbits : UInt32
  ntime : UInt32
  prevhash : List UInt8
  coinb1_eq : fromHex j.coinb1 = .ok coinb1
  coinb2_eq : fromHex j.coinb2 = .ok coinb2
  xn1_eq : fromHex xn1 = .ok xn1b
  xn2_eq : fromHex xn2Hex = .ok xn2b
  branch_eq : List.Forall₂ (fun node nb => fromHex node = .ok nb ∧ nb.length = 32)
    j.merkleBranch branch
  version_eq : be32FromHex j.version = .ok version
  nbits_eq : be32FromHex j.nbits = .ok nbits
  ntime_eq : be32FromHex j.ntime = .ok ntime
  prevhash_eq : fromHex j.prevhash = .ok prevhash
  length_prevhash : prevhash.length = 32

/-- The merkle root of a decoded job. -/
def DecodedWork.root {j : StratumJob} {xn1 xn2Hex : String}
    (d : DecodedWork j xn1 xn2Hex) : List UInt8 :=
  merkleRoot (d.coinb1 ++ d.xn1b ++ d.xn2b ++ d.coinb2) d.branch

/-- The first 76 bytes of the header, everything but the nonce. -/
def DecodedWork.headerPrefix {j : StratumJob} {xn1 xn2Hex : String}
    (d : DecodedWork j xn1 xn2Hex) : List UInt8 :=
  le32 d.version ++ wordsReversed d.prevhash ++ d.root ++ le32 d.ntime ++
    le32 d.nbits

/-- The inputs `build_work` is documented to accept. -/
def WellFormedWork (j : StratumJob) (xn1 xn2Hex : String) : Prop :=
  IsHex j.coinb1 ∧ IsHex j.coinb2 ∧ IsHex xn1 ∧ IsHex xn2Hex ∧
    (∀ node ∈ j.merkleBranch, IsHexOf 32 node) ∧
    IsHexOf 4 j.version ∧ IsHexOf 4 j.nbits ∧ IsHexOf 4 j.ntime ∧
    IsHexOf 32 j.prevhash

theorem length_sha256 (data : List UInt8) : (sha256 data).length = 32 := by
  simp [sha256, Sha256.finish]

theorem length_sha256d (data : List UInt8) : (sha256d data).length = 32 :=
  length_sha256 _

theorem length_merkleRoot (coinbase : List UInt8)
    (branch : List (List UInt8)) : (merkleRoot coinbase branch).length = 32 := by
  induction branch using List.reverseRecOn with
  | nil => exact length_sha256d _
  | append_singleton nodes node _ =>
      rw [merkleRoot, List.foldl_append]
      exact length_sha256d _

theorem exists_word {n : Nat} {bytes : List UInt8}
    (hlength : bytes.length = 4 * (n + 1)) :
    ∃ a b c d rest, bytes = a :: b :: c :: d :: rest ∧ rest.length = 4 * n := by
  match bytes, hlength with
  | a :: b :: c :: d :: rest, hlength =>
      refine ⟨a, b, c, d, rest, rfl, ?_⟩
      simp only [List.length_cons] at hlength
      omega

theorem length_wordsReversed (n : Nat) (bytes : List UInt8)
    (hlength : bytes.length = 4 * n) :
    (wordsReversed bytes).length = 4 * n := by
  induction n generalizing bytes with
  | zero =>
      have hnil : bytes = [] := List.length_eq_zero_iff.mp hlength
      simp [hnil, wordsReversed]
  | succ n ih =>
      obtain ⟨a, b, c, d, rest, rfl, hrest⟩ := exists_word hlength
      simp only [wordsReversed, List.length_cons, ih rest hrest]
      omega

/-- The branch loop succeeds exactly when every node is hex of 32 bytes, and
computes the fold. -/
theorem foldBranch_eq_some {merkle root : List UInt8} {branch : List String} :
    foldBranch merkle branch = .ok (some root) ↔
      ∃ nodes, List.Forall₂ (fun node nb => fromHex node = .ok nb ∧ nb.length = 32)
          branch nodes ∧
        root = nodes.foldl (fun acc node => sha256d (acc ++ node)) merkle := by
  induction branch generalizing merkle with
  | nil => simp [foldBranch, eq_comm]
  | cons node rest ih =>
      rw [foldBranch, bind_eq_ok]
      constructor
      · rintro ⟨nb, hnb, hrest⟩
        split at hrest
        · cases hrest
        · rename_i hlen
          obtain ⟨nodes, hnodes, hroot⟩ := ih.mp hrest
          exact ⟨nb :: nodes, .cons ⟨hnb, not_not.mp hlen⟩ hnodes, hroot⟩
      · rintro ⟨nodes, hnodes, hroot⟩
        cases hnodes with
        | cons hhead htail =>
            refine ⟨_, hhead.1, ?_⟩
            rw [if_neg (not_not.mpr hhead.2)]
            exact ih.mpr ⟨_, htail, hroot⟩

theorem wordsReversed_append (n : Nat) (bytes : List UInt8) (a b c d : UInt8)
    (hlength : bytes.length = 4 * n) :
    wordsReversed (bytes ++ [a, b, c, d]) =
      wordsReversed bytes ++ [d, c, b, a] := by
  induction n generalizing bytes with
  | zero =>
      have hnil : bytes = [] := List.length_eq_zero_iff.mp hlength
      simp [hnil, wordsReversed]
  | succ n ih =>
      obtain ⟨e, f, g, h, rest, rfl, hrest⟩ := exists_word hlength
      simp only [List.cons_append, wordsReversed, ih rest hrest]

theorem take_four_more (bytes : List UInt8) (n : Nat)
    (hfits : 4 * n + 4 ≤ bytes.length) :
    bytes.take (4 * (n + 1)) = bytes.take (4 * n) ++
      [bytes.getD (n * 4 + 0) 0, bytes.getD (n * 4 + 1) 0,
        bytes.getD (n * 4 + 2) 0, bytes.getD (n * 4 + 3) 0] := by
  have hdrop : (bytes.drop (4 * n)).take 4 =
      [bytes.getD (n * 4 + 0) 0, bytes.getD (n * 4 + 1) 0,
        bytes.getD (n * 4 + 2) 0, bytes.getD (n * 4 + 3) 0] := by
    apply List.ext_getElem
    · simp
      omega
    · intro i h₁ h₂
      have hi : i < 4 := by simpa using h₂
      simp only [List.getD_eq_getElem?_getD, List.getElem_take,
        List.getElem_drop]
      interval_cases i <;>
        simp [Nat.mul_comm n 4,
          show 4 * n < bytes.length by omega,
          show 4 * n + 1 < bytes.length by omega,
          show 4 * n + 2 < bytes.length by omega,
          show 4 * n + 3 < bytes.length by omega]
  rw [Nat.mul_add, Nat.mul_one, List.take_add, hdrop]

/-- The prevhash loop appends the reversed words, one at a time. -/
theorem placePrevhash_eq (version : UInt32) (prevhash : List UInt8)
    (hlength : prevhash.length = 32) (n : Nat) (hn : n ≤ 8) :
    (List.range n).foldl (placePrevhashWord prevhash)
        (le32 version ++ List.replicate 76 0) =
      (le32 version ++ wordsReversed (prevhash.take (4 * n))) ++
        List.replicate (76 - 4 * n) 0 := by
  induction n with
  | zero => simp [wordsReversed]
  | succ n ih =>
      have htake : (prevhash.take (4 * n)).length = 4 * n := by
        rw [List.length_take, hlength]
        omega
      have hwords := length_wordsReversed n _ htake
      rw [List.range_succ, List.foldl_append, ih (by omega), List.foldl_cons,
        List.foldl_nil, placePrevhashWord,
        writeAt_frontier _ _ _ _ _
          (by rw [List.length_append, hwords, length_le32]; omega)
          (by simp only [List.length_cons, List.length_nil]; omega),
        take_four_more prevhash n (by omega),
        wordsReversed_append n _ _ _ _ _ htake,
        ← List.append_assoc (le32 version)]
      congr 2

/-- The stores lay the fields out one after another and leave the nonce
zero. -/
theorem layoutHeader_eq (version nbits ntime : UInt32)
    (prevhash merkle : List UInt8) (hprevhash : prevhash.length = 32)
    (hmerkle : merkle.length = 32) :
    layoutHeader version nbits ntime prevhash merkle =
      le32 version ++ wordsReversed prevhash ++ merkle ++ le32 ntime ++
        le32 nbits ++ [0, 0, 0, 0] := by
  have hwords := length_wordsReversed 8 prevhash (by omega)
  simp only [layoutHeader]
  rw [← List.nil_append (List.replicate 80 (0 : UInt8)),
    writeAt_frontier [] _ _ 80 0 rfl (by simp)]
  simp only [List.nil_append, length_le32]
  rw [placePrevhash_eq version prevhash hprevhash 8 (le_refl 8),
    List.take_of_length_le (by omega),
    writeAt_frontier _ _ _ _ _ (by simp [hwords]) (by simp [hmerkle]),
    writeAt_frontier _ _ _ _ _ (by simp [hwords, hmerkle])
      (by simp [hmerkle]),
    writeAt_frontier _ _ _ _ _ (by simp [hwords, hmerkle])
      (by simp [hmerkle])]
  simp [hmerkle, List.replicate]

/-- `build_work`'s header computation succeeds exactly on decodable fields. -/
theorem buildHeader_eq_some {j : StratumJob} {xn1 xn2Hex : String}
    {header : List UInt8} :
    buildHeader j xn1 xn2Hex = .ok (some header) ↔
      ∃ d : DecodedWork j xn1 xn2Hex, header = d.headerPrefix ++ [0, 0, 0, 0] := by
  constructor
  · intro hheader
    simp only [buildHeader, bind_eq_ok] at hheader
    obtain ⟨coinb1, hcoinb1, coinb2, hcoinb2, xn1b, hxn1, xn2b, hxn2,
      folded, hfolded, hrest⟩ := hheader
    cases folded with
    | none => cases hrest
    | some merkle =>
        simp only [bind_eq_ok] at hrest
        obtain ⟨version, hversion, nbits, hnbits, ntime, hntime, prevhash,
          hprevhash, hlayout⟩ := hrest
        split at hlayout
        · cases hlayout
        · rename_i hlen
          have hlen' := not_not.mp hlen
          simp only [pure, Except.pure, Except.ok.injEq, Option.some.injEq]
            at hlayout
          obtain ⟨nodes, hnodes, rfl⟩ := foldBranch_eq_some.mp hfolded
          refine ⟨⟨coinb1, coinb2, xn1b, xn2b, nodes, version, nbits, ntime,
            prevhash, hcoinb1, hcoinb2, hxn1, hxn2, hnodes, hversion, hnbits,
            hntime, hprevhash, hlen'⟩, ?_⟩
          rw [← hlayout]
          exact layoutHeader_eq _ _ _ _ _ hlen' (length_merkleRoot _ nodes)
  · rintro ⟨d, rfl⟩
    simp only [buildHeader, bind_eq_ok]
    refine ⟨_, d.coinb1_eq, _, d.coinb2_eq, _, d.xn1_eq, _, d.xn2_eq, _,
      foldBranch_eq_some.mpr ⟨_, d.branch_eq, rfl⟩, ?_⟩
    simp only [bind_eq_ok]
    refine ⟨_, d.version_eq, _, d.nbits_eq, _, d.ntime_eq, _, d.prevhash_eq, ?_⟩
    rw [if_neg (not_not.mpr d.length_prevhash)]
    exact congrArg (fun header => Except.ok (some header))
      (layoutHeader_eq _ _ _ _ _ d.length_prevhash
        (length_merkleRoot _ d.branch))

/-- Decoded fields exist exactly for well-formed inputs. -/
theorem nonempty_decodedWork_iff (j : StratumJob) (xn1 xn2Hex : String) :
    Nonempty (DecodedWork j xn1 xn2Hex) ↔ WellFormedWork j xn1 xn2Hex := by
  have hbranch : (∃ nodes, List.Forall₂
      (fun node nb => fromHex node = .ok nb ∧ nb.length = 32)
        j.merkleBranch nodes) ↔ ∀ node ∈ j.merkleBranch, IsHexOf 32 node := by
    induction j.merkleBranch with
    | nil => simp
    | cons node rest ih =>
        rw [List.forall_mem_cons, ← ih, ← fromHex_ok_length_iff]
        constructor
        · rintro ⟨_, hnodes⟩
          cases hnodes with
          | cons hhead htail => exact ⟨⟨_, hhead⟩, _, htail⟩
        · rintro ⟨⟨nb, hnb⟩, nodes, hnodes⟩
          exact ⟨nb :: nodes, .cons hnb hnodes⟩
  simp only [WellFormedWork, ← fromHex_ok_iff, ← be32FromHex_ok_iff,
    ← fromHex_ok_length_iff 32 j.prevhash, ← hbranch]
  constructor
  · rintro ⟨d⟩
    exact ⟨⟨_, d.coinb1_eq⟩, ⟨_, d.coinb2_eq⟩, ⟨_, d.xn1_eq⟩, ⟨_, d.xn2_eq⟩,
      ⟨_, d.branch_eq⟩, ⟨_, d.version_eq⟩, ⟨_, d.nbits_eq⟩, ⟨_, d.ntime_eq⟩,
      _, d.prevhash_eq, d.length_prevhash⟩
  · rintro ⟨⟨_, h1⟩, ⟨_, h2⟩, ⟨_, h3⟩, ⟨_, h4⟩, ⟨_, h5⟩, ⟨_, h6⟩, ⟨_, h7⟩,
      ⟨_, h8⟩, _, h9, h10⟩
    exact ⟨⟨_, _, _, _, _, _, _, _, _, h1, h2, h3, h4, h5, h6, h7, h8, h9,
      h10⟩⟩

/-- The job `build_work` writes for decoded fields. -/
def DecodedWork.miningJob {j : StratumJob} {xn1 xn2Hex : String}
    (d : DecodedWork j xn1 xn2Hex) (shareDiff : ℚ) (out : MiningJob) :
    MiningJob :=
  { out with
    blob := d.headerPrefix ++ [0, 0, 0, 0]
    nonceOffset := 76
    target := targetFromDifficulty shareDiff
    jobId := j.jobId
    extranonce2Hex := xn2Hex
    ntimeHex := j.ntime }

/-- Inversion of `build_work`: a job from decoded fields, or nothing
changed. -/
theorem buildWork_cases (j : StratumJob) (xn1 xn2Hex : String) (shareDiff : ℚ)
    (out : MiningJob) :
    (∃ d : DecodedWork j xn1 xn2Hex,
      buildWork j xn1 xn2Hex shareDiff out = (true, d.miningJob shareDiff out)) ∨
    (IsEmpty (DecodedWork j xn1 xn2Hex) ∧
      buildWork j xn1 xn2Hex shareDiff out = (false, out)) := by
  unfold buildWork
  split
  · rename_i header hheader
    obtain ⟨d, rfl⟩ := buildHeader_eq_some.mp hheader
    exact Or.inl ⟨d, rfl⟩
  · rename_i hnot
    refine Or.inr ⟨⟨fun d => ?_⟩, rfl⟩
    exact hnot _ (buildHeader_eq_some.mpr ⟨d, rfl⟩)

/-- `build_work` succeeds exactly on well-formed inputs. -/
theorem buildWork_fst_iff (j : StratumJob) (xn1 xn2Hex : String)
    (shareDiff : ℚ) (out : MiningJob) :
    (buildWork j xn1 xn2Hex shareDiff out).1 = true ↔
      WellFormedWork j xn1 xn2Hex := by
  rw [← nonempty_decodedWork_iff]
  rcases buildWork_cases j xn1 xn2Hex shareDiff out with
    ⟨d, hbuilt⟩ | ⟨hempty, hbuilt⟩
  · rw [hbuilt]
    exact iff_of_true rfl ⟨d⟩
  · rw [hbuilt]
    exact iff_of_false Bool.false_ne_true (not_nonempty_iff.mpr hempty)

/-- `build_work` is all-or-nothing: it accepts exactly the well-formed inputs,
then writes the 80-byte header, the nonce offset, the target and the submit
context, and otherwise leaves `out` alone. -/
theorem buildWork_all_or_nothing (j : StratumJob) (xn1 xn2Hex : String)
    (shareDiff : ℚ) (out : MiningJob) :
    ((buildWork j xn1 xn2Hex shareDiff out).1 = true ↔
      WellFormedWork j xn1 xn2Hex) ∧
    ((buildWork j xn1 xn2Hex shareDiff out).1 = true →
      ∃ d : DecodedWork j xn1 xn2Hex,
        (buildWork j xn1 xn2Hex shareDiff out).2 =
          { out with
            blob := le32 d.version ++ wordsReversed d.prevhash ++
              d.branch.foldl (fun acc node => sha256d (acc ++ node))
                (sha256d (d.coinb1 ++ d.xn1b ++ d.xn2b ++ d.coinb2)) ++
              le32 d.ntime ++ le32 d.nbits ++ [0, 0, 0, 0]
            nonceOffset := 76
            target := targetFromDifficulty shareDiff
            jobId := j.jobId
            extranonce2Hex := xn2Hex
            ntimeHex := j.ntime } ∧
        (buildWork j xn1 xn2Hex shareDiff out).2.blob.length = 80) ∧
    ((buildWork j xn1 xn2Hex shareDiff out).1 = false →
      (buildWork j xn1 xn2Hex shareDiff out).2 = out) := by
  refine ⟨buildWork_fst_iff j xn1 xn2Hex shareDiff out, ?_⟩
  rcases buildWork_cases j xn1 xn2Hex shareDiff out with
    ⟨d, hbuilt⟩ | ⟨-, hbuilt⟩
  · rw [hbuilt]
    refine ⟨fun _ => ⟨d, rfl, ?_⟩, by simp⟩
    have hwords := length_wordsReversed 8 d.prevhash (by rw [d.length_prevhash])
    simp [DecodedWork.miningJob, DecodedWork.headerPrefix, DecodedWork.root,
      hwords, length_merkleRoot]
  · rw [hbuilt]
    exact ⟨by simp, fun _ => rfl⟩

end Minerby
