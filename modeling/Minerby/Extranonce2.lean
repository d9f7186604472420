/-
The extranonce2 counter.  Each rebuild takes the next counter value, writes it
as big-endian hex into the coinbase, and counts on over messages, sessions and
reconnects; the coinbase repeats only when the written bytes do.
-/
import Minerby.ByteValue
import Minerby.StratumHeader
import Minerby.StratumSession

namespace Minerby

/-- Big-endian bytes as a number. -/
def bigEndianValue (bytes : List UInt8) : Nat :=
  byteValue bytes.reverse

/-- A character in `0-9a-f`. -/
def isLowerHexChar (c : Char) : Bool :=
  ('0' ≤ c ∧ c ≤ '9') || ('a' ≤ c ∧ c ≤ 'f')

theorem bigEndianValue_injective {left right : List UInt8}
    (hlength : left.length = right.length)
    (hvalue : bigEndianValue left = bigEndianValue right) : left = right := by
  apply List.reverse_inj.mp
  apply byteValue_injective _ hvalue
  simpa only [List.length_reverse] using hlength

theorem toHex_lower (bytes : List UInt8) :
    ∀ c ∈ (toHex bytes).toList, isLowerHexChar c = true := by
  have hdigit : ∀ digit < 16, isLowerHexChar (hexDigit digit) = true := by
    decide +kernel
  intro c hc
  rw [toHex, String.toList_ofList, List.mem_flatMap] at hc
  obtain ⟨b, -, hc⟩ := hc
  have hlt := b.toNat_lt
  have hhigh : b.toNat >>> 4 < 16 := by
    rw [Nat.shiftRight_eq_div_pow]
    omega
  have hlow : b.toNat &&& 0x0f < 16 := Nat.lt_succ_of_le Nat.and_le_right
  rcases List.mem_cons.mp hc with rfl | hc
  · exact hdigit _ hhigh
  · obtain rfl := List.mem_singleton.mp hc
    exact hdigit _ hlow

theorem toUInt8_shiftRight (value : UInt64) {k : Nat} (hk : k < 8) :
    (value >>> UInt64.ofNat (8 * k)).toUInt8 =
      UInt8.ofNat (value.toNat / 256 ^ k) := by
  apply UInt8.toNat_inj.mp
  have hshift : 8 * k % 2 ^ 64 % 64 = 8 * k := by omega
  rw [UInt64.toNat_toUInt8, UInt64.toNat_shiftRight, UInt8.toNat_ofNat',
    UInt64.toNat_ofNat', Nat.shiftRight_eq_div_pow, hshift, Nat.pow_mul]

/-- The shift loop writes the low bytes of the value, most significant
first. -/
theorem encodeExtranonce2_eq (value : UInt64) {size : Nat} (hsize : size ≤ 8) :
    encodeExtranonce2 value size =
      .ok (toHex (valueBytes size value.toNat).reverse) := by
  have hbytes : (List.range size).map (fun i =>
      (value >>> UInt64.ofNat (8 * (size - 1 - i))).toUInt8) =
        (valueBytes size value.toNat).reverse := by
    apply List.ext_getElem
    · simp
    · intro i hleft hright
      have hi : i < size := by simpa using hleft
      simp only [List.getElem_map, List.getElem_range, valueBytes,
        List.getElem_reverse, List.length_map, List.length_range]
      exact toUInt8_shiftRight value (by omega)
  unfold encodeExtranonce2
  rw [if_neg (by omega), if_neg (by omega), Int.toNat_natCast, hbytes]

theorem bigEndianValue_valueBytes (size value : Nat) :
    bigEndianValue (valueBytes size value).reverse = value % 256 ^ size := by
  rw [bigEndianValue, List.reverse_reverse, byteValue_valueBytes]

/-- The coinbase transaction that `build_work` hashes. -/
def coinbase (j : StratumJob) (xn1 xn2Hex : String) :
    Except String (List UInt8) := do
  let coinb1 ← fromHex j.coinb1
  let coinb2 ← fromHex j.coinb2
  let xn1b ← fromHex xn1
  let xn2b ← fromHex xn2Hex
  return coinb1 ++ xn1b ++ xn2b ++ coinb2

/-- The rest of `build_work`'s header computation. -/
def headerOver (j : StratumJob) (coinbase : List UInt8) :
    Except String (Option (List UInt8)) := do
  let folded ← foldBranch (sha256d coinbase) j.merkleBranch
  folded.elim (return none) fun merkle => do
    let version ← be32FromHex j.version
    let nbits ← be32FromHex j.nbits
    let ntime ← be32FromHex j.ntime
    let prevhash ← fromHex j.prevhash
    if prevhash.length ≠ 32 then return none
    else return some (layoutHeader version nbits ntime prevhash merkle)

/-- The extranonces reach the header only through the coinbase. -/
theorem buildHeader_eq_headerOver (j : StratumJob) (xn1 xn2Hex : String) :
    buildHeader j xn1 xn2Hex = coinbase j xn1 xn2Hex >>= headerOver j := by
  unfold buildHeader coinbase headerOver
  simp only [bind_assoc, pure_bind]
  refine bind_congr fun coinb1 => bind_congr fun coinb2 => ?_
  refine bind_congr fun xn1b => bind_congr fun xn2b => ?_
  refine bind_congr fun folded => ?_
  cases folded <;> rfl

namespace StratumV1Client

/-- What one `rebuild_job` builds work from. -/
structure Rebuild where
  job : StratumJob
  extranonce1 : String
  size : Int
  counter : UInt64

namespace Rebuild

/-- The coinbase bytes, where the fields decode. -/
def coinbase (r : Rebuild) : Option (List UInt8) :=
  match encodeExtranonce2 r.counter r.size with
  | .ok xn2 => (Minerby.coinbase r.job r.extranonce1 xn2).toOption
  | .error _ => none

/-- The two differ at most in the counter. -/
def SameWork (r₁ r₂ : Rebuild) : Prop :=
  r₁.job = r₂.job ∧ r₁.extranonce1 = r₂.extranonce1 ∧ r₁.size = r₂.size

theorem coinbase_eq_some {r : Rebuild} {size : Nat} (hrange : size ≤ 8)
    (hsize : r.size = size) {bytes : List UInt8}
    (hbytes : r.coinbase = some bytes) :
    ∃ coinb1 coinb2 xn1b, fromHex r.job.coinb1 = .ok coinb1 ∧
      fromHex r.job.coinb2 = .ok coinb2 ∧
      fromHex r.extranonce1 = .ok xn1b ∧
      bytes = coinb1 ++ xn1b ++ (valueBytes size r.counter.toNat).reverse ++
        coinb2 := by
  unfold coinbase at hbytes
  rw [hsize, encodeExtranonce2_eq _ hrange] at hbytes
  simp only at hbytes
  cases hcoinbase : Minerby.coinbase r.job r.extranonce1
      (toHex (valueBytes size r.counter.toNat).reverse) with
  | error _ =>
      rw [hcoinbase] at hbytes
      cases hbytes
  | ok built =>
      rw [hcoinbase] at hbytes
      obtain rfl := Option.some.inj hbytes
      simp only [Minerby.coinbase, bind_eq_ok, fromHex_toHex] at hcoinbase
      obtain ⟨coinb1, hcoinb1, coinb2, hcoinb2, xn1b, hxn1, xn2b, hxn2, hbuilt⟩ :=
        hcoinbase
      obtain rfl := Except.ok.inj hxn2
      exact ⟨coinb1, coinb2, xn1b, hcoinb1, hcoinb2, hxn1,
        (Except.ok.inj hbuilt).symm⟩

/-- Work that differs in the counter only has the same coinbase exactly when
the counters agree in the bytes that are written. -/
theorem coinbase_eq_iff {r₁ r₂ : Rebuild} (hsame : SameWork r₁ r₂) {size : Nat}
    (hrange : size ≤ 8) (hsize : r₁.size = size) {bytes₁ bytes₂ : List UInt8}
    (hbytes₁ : r₁.coinbase = some bytes₁)
    (hbytes₂ : r₂.coinbase = some bytes₂) :
    bytes₁ = bytes₂ ↔
      r₁.counter.toNat % 256 ^ size = r₂.counter.toNat % 256 ^ size := by
  obtain ⟨hjob, hxn1, hsizes⟩ := hsame
  obtain ⟨coinb1, coinb2, xn1b, hcoinb1, hcoinb2, hxn1b, rfl⟩ :=
    coinbase_eq_some hrange hsize hbytes₁
  obtain ⟨coinb1', coinb2', xn1b', hcoinb1', hcoinb2', hxn1b', rfl⟩ :=
    coinbase_eq_some hrange (hsizes.symm.trans hsize) hbytes₂
  rw [← hjob] at hcoinb1' hcoinb2'
  rw [← hxn1] at hxn1b'
  obtain rfl := Except.ok.inj (hcoinb1.symm.trans hcoinb1')
  obtain rfl := Except.ok.inj (hcoinb2.symm.trans hcoinb2')
  obtain rfl := Except.ok.inj (hxn1b.symm.trans hxn1b')
  rw [List.append_left_inj, List.append_right_inj]
  constructor
  · intro heq
    have hvalue := congrArg bigEndianValue heq
    simpa only [bigEndianValue_valueBytes] using hvalue
  · intro hmod
    apply bigEndianValue_injective
    · simp
    · simpa only [bigEndianValue_valueBytes] using hmod

end Rebuild

/-- What `rebuild_job` reads. -/
def rebuild (c : StratumV1Client) : Rebuild :=
  ⟨c.job, c.extranonce1, c.extranonce2Size, c.xn2Counter⟩

/-- The rebuild that a message causes, if it causes one. -/
def rebuild? (c : StratumV1Client) (msg : Json) : Option Rebuild :=
  match received msg with
  | .ok (.setDifficulty _) => if c.haveJob then some c.rebuild else none
  | .ok (.notify job) => some { c with job := job }.rebuild
  | _ => none

/-- Such a message is handled by rebuilding, from exactly these fields. -/
theorem handleMessage_of_rebuild? (text : JsonText) {c : StratumV1Client}
    {msg : Json} {r : Rebuild} (hrebuild : c.rebuild? msg = some r) :
    ∃ c₁ : StratumV1Client, handleMessage text c msg = c₁.rebuildJob ∧
      c₁.haveJob = true ∧ c₁.rebuild = r := by
  unfold rebuild? at hrebuild
  rw [handleMessage_eq]
  split at hrebuild
  · rename_i difficulty hreceived
    split at hrebuild
    · rename_i hhave
      obtain rfl := Option.some.inj hrebuild
      rw [hreceived]
      exact ⟨{ c with difficulty := difficulty }, rfl, hhave, rfl⟩
    · cases hrebuild
  · rename_i job hreceived
    obtain rfl := Option.some.inj hrebuild
    rw [hreceived]
    exact ⟨{ c with job := job, haveJob := true }, rfl, rfl, rfl⟩
  · cases hrebuild

/-- A job that is passed on then has the header over the coinbase of these
fields. -/
theorem Rebuild.delivered_over_coinbase {text : JsonText}
    {c c' : StratumV1Client} {msg : Json} {r : Rebuild} {mj : MiningJob}
    {seed : List UInt8} (hrebuild : c.rebuild? msg = some r)
    (hok : handleMessage text c msg = .ok (c', some (.onJob mj seed))) :
    ∃ bytes, r.coinbase = some bytes ∧
      headerOver r.job bytes = .ok (some mj.blob) := by
  obtain ⟨c₁, hhandled, -, rfl⟩ := handleMessage_of_rebuild? text hrebuild
  rw [hhandled] at hok
  obtain ⟨-, hnone | ⟨xn2, built, -, hxn2, hbuilt, hcallback⟩⟩ :=
    rebuildJob_eq_ok hok
  · cases hnone
  · obtain ⟨rfl, -⟩ := Callback.onJob.inj (Option.some.inj hcallback)
    have hheader : buildHeader c₁.job c₁.extranonce1 xn2 =
        .ok (some mj.blob) := by
      unfold buildWork at hbuilt
      split at hbuilt
      · rename_i header hheader
        obtain ⟨-, rfl⟩ := Prod.mk.inj hbuilt
        exact hheader
      · cases hbuilt
    rw [buildHeader_eq_headerOver] at hheader
    obtain ⟨bytes, hbytes, hover⟩ := bind_eq_ok.mp hheader
    refine ⟨bytes, ?_, hover⟩
    simp only [coinbase, rebuild, hxn2, hbytes, Except.toOption]

theorem rebuild?_counter {c : StratumV1Client} {msg : Json} {r : Rebuild}
    (hrebuild : c.rebuild? msg = some r) : r.counter = c.xn2Counter := by
  unfold rebuild? at hrebuild
  split at hrebuild
  · split at hrebuild
    · obtain rfl := Option.some.inj hrebuild
      rfl
    · cases hrebuild
  · obtain rfl := Option.some.inj hrebuild
    rfl
  · cases hrebuild

theorem rebuildJob_counter {c c' : StratumV1Client}
    {callback : Option Callback} (hhave : c.haveJob = true)
    (hok : c.rebuildJob = .ok (c', callback)) :
    c'.xn2Counter = c.xn2Counter + 1 := by
  simp only [rebuildJob, hhave, ↓reduceIte] at hok
  obtain ⟨xn2, -, hok⟩ := bind_eq_ok.mp hok
  split at hok
  · obtain ⟨rfl, -⟩ := Prod.mk.inj (Except.ok.inj hok)
    rfl
  · obtain ⟨rfl, -⟩ := Prod.mk.inj (Except.ok.inj hok)
    rfl

/-- The counter moves on by one with each rebuild and never otherwise. -/
theorem handleMessage_counter {text : JsonText} {c c' : StratumV1Client}
    {msg : Json} {callback : Option Callback}
    (hok : handleMessage text c msg = .ok (c', callback)) :
    c'.xn2Counter =
      c.xn2Counter + UInt64.ofNat (c.rebuild? msg).toList.length := by
  cases hrebuild : c.rebuild? msg with
  | some r =>
      obtain ⟨c₁, hhandled, hhave, hr⟩ :=
        handleMessage_of_rebuild? text hrebuild
      rw [hhandled] at hok
      rw [rebuildJob_counter hhave hok, ← rebuild?_counter hrebuild, ← hr]
      rfl
  | none =>
      rw [handleMessage_eq] at hok
      obtain ⟨received, hreceived, hok⟩ := bind_eq_ok.mp hok
      have hsame : c'.xn2Counter = c.xn2Counter := by
        cases received with
        | setDifficulty difficulty =>
            have hnone : c.haveJob = false := by
              simpa [rebuild?, hreceived] using hrebuild
            simp only [handleReceived, rebuildJob, hnone, Bool.false_eq_true,
              ↓reduceIte, Except.ok.injEq, Prod.mk.injEq] at hok
            obtain ⟨rfl, -⟩ := hok
            rfl
        | notify job => simp [rebuild?, hreceived] at hrebuild
        | reconnect =>
            obtain ⟨rfl, -⟩ := Prod.mk.inj (Except.ok.inj hok)
            rfl
        | response id =>
            obtain ⟨⟨xn1, size, rfl⟩, -⟩ := handleResponse_eq_ok hok
            rfl
        | nothing =>
            obtain ⟨rfl, -⟩ := Prod.mk.inj (Except.ok.inj hok)
            rfl
      simp [hsame]

/-- The client and the rebuilds it has made, oldest first. -/
structure RebuildLog where
  client : StratumV1Client
  rebuilds : List Rebuild := []

namespace RebuildLog

/-- A poll that throws ends the run: nothing catches the exception. -/
def step (text : JsonText) (s : RebuildLog) : SessionLabel → Option RebuildLog
  | .connect opened subscribeSends authorizeSends =>
      some { s with
        client :=
          (s.client.connectStart text opened subscribeSends authorizeSends).2 }
  | .disconnect => some { s with client := s.client.disconnect }
  | .submit job nonce => some { s with client := (s.client.submit job nonce).1 }
  | .poll script =>
      match s.client.poll text script with
      | .error _ => none
      | .ok (_, client, _, _) =>
          some {
            client := client
            rebuilds := s.rebuilds ++
              ((text.incoming s.client.conn script).bind
                s.client.rebuild?).toList }

/-- The rebuilds are numbered from zero, modulo the width of the counter. -/
structure Numbered (s : RebuildLog) : Prop where
  next : s.client.xn2Counter = UInt64.ofNat s.rebuilds.length
  counters : s.rebuilds.map Rebuild.counter =
    (List.range s.rebuilds.length).map UInt64.ofNat

theorem Numbered.poll {text : JsonText} {s s' : RebuildLog}
    {script : List RecvResult} (hnumbered : Numbered s)
    (hstep : s.step text (.poll script) = some s') : Numbered s' := by
  simp only [step] at hstep
  split at hstep
  · cases hstep
  · rename_i flag client callback rest hpoll
    obtain rfl := Option.some.inj hstep
    have hcounter : client.xn2Counter = s.client.xn2Counter + UInt64.ofNat
        ((text.incoming s.client.conn script).bind
          s.client.rebuild?).toList.length := by
      rw [poll_eq] at hpoll
      cases hmsg : text.incoming s.client.conn script with
      | none =>
          simp only [hmsg, Except.ok.injEq, Prod.mk.injEq] at hpoll
          obtain ⟨-, rfl, -⟩ := hpoll
          simp
      | some msg =>
          simp only [hmsg] at hpoll
          obtain ⟨⟨c', callback'⟩, hhandled, hresult⟩ := bind_eq_ok.mp hpoll
          simp only [Except.ok.injEq, Prod.mk.injEq] at hresult
          obtain ⟨-, rfl, -⟩ := hresult
          have hmoved := handleMessage_counter hhandled
          exact hmoved
    constructor
    · rw [List.length_append, UInt64.ofNat_add, ← hnumbered.next]
      exact hcounter
    · cases hrebuild : (text.incoming s.client.conn script).bind
          s.client.rebuild? with
      | none => simpa using hnumbered.counters
      | some r =>
          obtain ⟨msg, -, hr⟩ := Option.bind_eq_some_iff.mp hrebuild
          simp only [Option.toList_some, List.map_append, List.map_cons,
            List.map_nil, List.length_append, List.length_singleton,
            List.range_succ, hnumbered.counters, rebuild?_counter hr,
            hnumbered.next]

theorem Numbered.step {text : JsonText} {s s' : RebuildLog}
    {label : SessionLabel} (hnumbered : Numbered s)
    (hstep : s.step text label = some s') : Numbered s' := by
  cases label with
  | connect opened subscribeSends authorizeSends =>
      obtain rfl := Option.some.inj hstep
      refine ⟨?_, hnumbered.counters⟩
      rw [← hnumbered.next]
      unfold connectStart
      split
      · rfl
      · simp only
        split <;> rfl
  | disconnect =>
      obtain rfl := Option.some.inj hstep
      exact ⟨hnumbered.next, hnumbered.counters⟩
  | submit job nonce =>
      obtain rfl := Option.some.inj hstep
      exact ⟨hnumbered.next, hnumbered.counters⟩
  | poll script => exact hnumbered.poll hstep

theorem numbered_of_run {text : JsonText} {user pass : String}
    {labels : List SessionLabel} {s : RebuildLog}
    (hrun : Run (RebuildLog.step text) anyLabel
      { client := { user := user, pass := pass } } labels s) :
    Numbered s := by
  apply hrun.invariant fun _ _ _ hinv _ hstep => hinv.step hstep
  exact ⟨rfl, rfl⟩

theorem Numbered.counter_eq {s : RebuildLog} (hnumbered : Numbered s) (i : Nat)
    (hi : i < s.rebuilds.length) :
    (s.rebuilds[i]).counter.toNat = i % 2 ^ 64 := by
  have hget := congrArg (fun counters => counters[i]?) hnumbered.counters
  simp only [List.getElem?_map, List.getElem?_eq_getElem hi,
    List.getElem?_range hi, Option.map_some, Option.some.injEq] at hget
  rw [hget, UInt64.toNat_ofNat']

/-- Numbers less than `256 ^ size` apart differ in the bytes that are
written. -/
theorem mod_ne_of_close {size i j : Nat} (hsize : size ≤ 8) (hij : i < j)
    (hclose : j < i + 256 ^ size) :
    i % 2 ^ 64 % 256 ^ size ≠ j % 2 ^ 64 % 256 ^ size := by
  have hdvd : 256 ^ size ∣ 2 ^ 64 := by
    have hpow : (256 : Nat) ^ size ∣ 256 ^ 8 := pow_dvd_pow 256 hsize
    exact hpow
  rw [Nat.mod_mod_of_dvd _ hdvd, Nat.mod_mod_of_dvd _ hdvd]
  intro hmod
  have hsub := (Nat.modEq_iff_dvd' hij.le).mp hmod
  have hle := Nat.le_of_dvd (by omega) hsub
  omega

end RebuildLog

/-- Extranonce2 values do not repeat early.  A counter value is written as its
low bytes, most significant first, in lower-case hex; in every run, two rebuilds
of the same work give the same coinbase exactly when their counters agree in
these bytes; and any `256 ^ size` consecutive rebuilds of the same work give
pairwise different coinbases.  A rebuild is a call of `rebuild_job` on these
fields, and what it passes on is the header over this coinbase. -/
theorem extranonce2_no_early_repeat :
    (∀ (value : UInt64) (size : Nat), 1 ≤ size → size ≤ 8 →
      ∃ xn2 bytes, encodeExtranonce2 value size = .ok xn2 ∧
        xn2.toList.length = 2 * size ∧
        (∀ c ∈ xn2.toList, isLowerHexChar c = true) ∧
        fromHex xn2 = .ok bytes ∧
        bigEndianValue bytes = value.toNat % 256 ^ size) ∧
    (∀ (text : JsonText) (user pass : String) (labels : List SessionLabel)
      (s : RebuildLog),
      Run (RebuildLog.step text) anyLabel
        { client := { user := user, pass := pass } } labels s →
      ∀ size : Nat, 1 ≤ size → size ≤ 8 →
        (∀ r₁ ∈ s.rebuilds, ∀ r₂ ∈ s.rebuilds, r₁.SameWork r₂ →
          r₁.size = (size : Int) → ∀ bytes₁ bytes₂, r₁.coinbase = some bytes₁ →
          r₂.coinbase = some bytes₂ →
          (bytes₁ = bytes₂ ↔
            r₁.counter.toNat ≡ r₂.counter.toNat [MOD 256 ^ size])) ∧
        ∀ before window after, s.rebuilds = before ++ window ++ after →
          window.length ≤ 256 ^ size →
          window.Pairwise fun r₁ r₂ => r₁.SameWork r₂ →
            r₁.size = (size : Int) → ∀ bytes₁ bytes₂,
            r₁.coinbase = some bytes₁ → r₂.coinbase = some bytes₂ →
            bytes₁ ≠ bytes₂) ∧
    ∀ (text : JsonText) (c : StratumV1Client) (msg : Json) (r : Rebuild),
      c.rebuild? msg = some r →
        (∃ c₁ : StratumV1Client, handleMessage text c msg = c₁.rebuildJob ∧
          c₁.haveJob = true ∧ c₁.rebuild = r) ∧
        ∀ c' mj seed,
          handleMessage text c msg = .ok (c', some (.onJob mj seed)) →
            ∃ bytes, r.coinbase = some bytes ∧
              headerOver r.job bytes = .ok (some mj.blob) := by
  refine ⟨?_, ?_, fun text c msg r hrebuild =>
    ⟨handleMessage_of_rebuild? text hrebuild,
      fun _ _ _ => Rebuild.delivered_over_coinbase hrebuild⟩⟩
  · intro value size _ hsize
    have hdecoded := fromHex_toHex (valueBytes size value.toNat).reverse
    refine ⟨_, _, encodeExtranonce2_eq value hsize, ?_, toHex_lower _, hdecoded,
      bigEndianValue_valueBytes size value.toNat⟩
    rw [(isHexOf_of_fromHex hdecoded).1, List.length_reverse, length_valueBytes]
  · intro text user pass labels s hrun size _ hsize
    have hnumbered := RebuildLog.numbered_of_run hrun
    refine ⟨?_, ?_⟩
    · intro r₁ _ r₂ _ hsame hr₁ bytes₁ bytes₂ hbytes₁ hbytes₂
      exact Rebuild.coinbase_eq_iff hsame hsize hr₁ hbytes₁ hbytes₂
    · intro before window after hlog hwindow
      have hcounter : ∀ i (hi : i < window.length),
          (window[i]).counter.toNat = (before.length + i) % 2 ^ 64 := by
        intro i hi
        have hget : s.rebuilds[before.length + i]? = some window[i] := by
          rw [hlog, List.append_assoc, List.getElem?_append_right (by omega),
            Nat.add_sub_cancel_left, List.getElem?_append_left hi,
            List.getElem?_eq_getElem hi]
        obtain ⟨hlt, hentry⟩ := List.getElem?_eq_some_iff.mp hget
        rw [← hentry]
        exact hnumbered.counter_eq _ hlt
      apply List.pairwise_iff_getElem.mpr
      intro i j hi hj hij hsame hr₁ bytes₁ bytes₂ hbytes₁ hbytes₂ heq
      have hmod := (Rebuild.coinbase_eq_iff hsame hsize hr₁ hbytes₁
        hbytes₂).mp heq
      rw [hcounter i hi, hcounter j hj] at hmod
      exact RebuildLog.mod_ne_of_close hsize (by omega) (by omega) hmod

/-- The same notify twice: two rebuilds, both with a coinbase, and not the
same one. -/
theorem repeated_notify_differs :
    ∃ s, Run (RebuildLog.step sessionText) anyLabel
        { client := { user := "u", pass := "x" } }
        (firstSession ++ [.poll [.line plainNotify.render]]) s ∧
      (s.rebuilds.length = 2 ∧
        s.rebuilds.all (fun r => r.coinbase.isSome) = true) ∧
      s.rebuilds.Pairwise fun r₁ r₂ => r₁.SameWork r₂ → r₁.size = ((4 : ℕ) : Int) →
        ∀ bytes₁ bytes₂, r₁.coinbase = some bytes₁ →
        r₂.coinbase = some bytes₂ → bytes₁ ≠ bytes₂ := by
  have hreplay : (replay (RebuildLog.step sessionText) anyLabel
      { client := { user := "u", pass := "x" } }
      (firstSession ++ [.poll [.line plainNotify.render]])).any
        (fun s => s.rebuilds.length = 2 ∧
          s.rebuilds.all (fun r => r.coinbase.isSome) = true) = true := by
    decide +kernel
  obtain ⟨s, hs, hfacts⟩ := (Option.any_eq_true _ _).mp hreplay
  have hfacts := of_decide_eq_true hfacts
  have hrun := run_of_replay hs
  refine ⟨s, hrun, hfacts, ?_⟩
  apply (extranonce2_no_early_repeat.2.1 sessionText "u" "x" _ s hrun 4
    (by decide) (by decide)).2 [] s.rebuilds []
  · simp
  · rw [hfacts.1]
    decide

end StratumV1Client

end Minerby
