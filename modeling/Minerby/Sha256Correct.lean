/-
The streaming kernel computes the reference SHA-256 of everything fed to it,
however the message was cut into `update` calls.
-/
import Minerby.Sha256

namespace Minerby

namespace Sha256

open Fips180

/-- The table is the standard's: cube roots of the first 64 primes. -/
theorem sha256K_eq (t : Nat) (ht : t < 64) : sha256K[t]! = K t := by
  have hall : ∀ t : Fin 64, sha256K[t.val]! = K t := by decide +kernel
  exact hall ⟨t, ht⟩

/-- `reset` installs the standard's initial hash value. -/
theorem reset_state (h : Sha256) : h.reset.state = H0 := by
  have hvalue : H0 = #v[0x6a09e667, 0xbb67ae85, 0x3c6ef372, 0xa54ff53a,
      0x510e527f, 0x9b05688c, 0x1f83d9ab, 0x5be0cd19] := by decide +kernel
  exact hvalue.symm

theorem W_lt (block : List UInt8) {t : Nat} (ht : t < 16) :
    W block t = word block t := by
  rw [W, if_pos ht]

theorem W_ge (block : List UInt8) {t : Nat} (ht : 16 ≤ t) :
    W block t = smallSigma1 (W block (t - 2)) + W block (t - 7) +
      smallSigma0 (W block (t - 15)) + W block (t - 16) := by
  rw [W, if_neg (by omega)]

/-- Reading back a word array after a store. -/
theorem getElem!_set! (m : Vector UInt32 64) (i j : Nat) (x : UInt32)
    (hj : j < 64) :
    (m.set! i x)[j]! = if i = j then x else m[j]! := by
  rw [getElem!_pos _ j hj, Vector.getElem_set!]
  split
  · rfl
  · rw [getElem!_pos m j hj]

theorem load_spec (block : List UInt8) (m : Vector UInt32 64) (n : Nat)
    (hn : n ≤ 16) :
    ∀ t < n, ((List.range n).foldl (loadStep block) m)[t]! = word block t := by
  induction n with
  | zero => simp
  | succ n ih =>
      intro t ht
      rw [List.range_succ, List.foldl_append, List.foldl_cons, List.foldl_nil,
        loadStep, getElem!_set! _ _ _ _ (by omega)]
      split
      · rename_i heq
        rw [← heq, word, Nat.mul_comm n 4]
      · exact ih (by omega) t (by omega)

theorem extendStep_spec (block : List UInt8) (m : Vector UInt32 64) (i : Nat)
    (hlo : 16 ≤ i) (hhi : i < 64) (hm : ∀ t < i, m[t]! = W block t) :
    ∀ t < i + 1, (extendStep m i)[t]! = W block t := by
  intro t ht
  simp only [extendStep]
  rw [getElem!_set! _ _ _ _ (by omega)]
  split
  · rename_i heq
    subst heq
    rw [hm (i - 15) (by omega), hm (i - 2) (by omega), hm (i - 16) (by omega),
      hm (i - 7) (by omega), W_ge block hlo]
    change W block (i - 16) + smallSigma0 (W block (i - 15)) +
      W block (i - 7) + smallSigma1 (W block (i - 2)) = _
    ac_rfl
  · exact hm t (by omega)

/-- The in-place schedule loop computes the recurrence. -/
theorem extend_spec (block : List UInt8) (m : Vector UInt32 64) (n : Nat)
    (hn : n ≤ 48) (hm : ∀ t < 16, m[t]! = W block t) :
    ∀ t < 16 + n, ((List.range' 16 n).foldl extendStep m)[t]! = W block t := by
  induction n with
  | zero => simpa using hm
  | succ n ih =>
      rw [List.range'_concat, List.foldl_append, Nat.one_mul]
      exact extendStep_spec block _ (16 + n) (by omega) (by omega)
        (ih (by omega))

theorem messageWords_spec (block : List UInt8) (t : Nat) (ht : t < 64) :
    (messageWords block)[t]! = W block t := by
  apply extend_spec block _ 48 (le_refl 48) _ t (by omega)
  intro t ht
  rw [load_spec block _ 16 (le_refl 16) t ht, W_lt block ht]

/-- The kernel's round is the standard's round. -/
theorem roundStep_spec (block : List UInt8) (v : Work) (t : Nat)
    (ht : t < 64) : roundStep (messageWords block) v t = round block v t := by
  simp only [roundStep, sha256K_eq t ht, messageWords_spec block t ht]
  rfl

theorem rounds_spec (block : List UInt8) (v : Work) (n : Nat) (hn : n ≤ 64) :
    (List.range n).foldl (roundStep (messageWords block)) v =
      (List.range n).foldl (round block) v := by
  induction n with
  | zero => simp only [List.range_zero, List.foldl_nil]
  | succ n ih =>
      rw [List.range_succ, List.foldl_append, List.foldl_append, ih (by omega),
        List.foldl_cons, List.foldl_nil, List.foldl_cons, List.foldl_nil,
        roundStep_spec block _ n (by omega)]

theorem addVars_eq_intermediate (state : Vector UInt32 8) (v : Work) :
    addVars state v = intermediate state v := by
  simp only [addVars, intermediate, UInt32.add_comm]
  rfl

/-- `transform` is the reference compression function. -/
theorem transform_eq_compress (state : Vector UInt32 8) (block : List UInt8) :
    transform state block = compress state block :=
  (congrArg (addVars state)
    (rounds_spec block (loadVars state) 64 (le_refl 64))).trans
      (addVars_eq_intermediate state _)

/-- The kernel seen as a block stream: the words and the bytes pending. -/
def stream (h : Sha256) : BlockStream (Vector UInt32 8) UInt8 :=
  ⟨h.state, h.buf.toList.take h.buflen⟩

theorem length_pending (h : Sha256) : h.stream.pending.length = h.buflen := by
  have hlt := h.buflen_lt
  simp [stream]
  omega

theorem take_set_buf (h : Sha256) (byte : UInt8) :
    (h.buf.set h.buflen byte h.buflen_lt).toList.take (h.buflen + 1) =
      h.buf.toList.take h.buflen ++ [byte] := by
  have hlt := h.buflen_lt
  rw [Vector.toList_set, List.take_add_one, List.take_set_of_le (le_refl _)]
  simp [hlt]

/-- One byte of `update` is one push of the block stream. -/
theorem stream_updateByte (h : Sha256) (byte : UInt8) :
    (h.updateByte byte).stream = h.stream.push compress 64 byte := by
  have htake := take_set_buf h byte
  rw [BlockStream.push, length_pending]
  by_cases hfull : h.buflen + 1 = 64
  · rw [if_pos hfull]
    rw [hfull, List.take_of_length_le (by simp)] at htake
    simp only [updateByte, hfull, ↓reduceDIte, stream, List.take_zero, htake,
      transform_eq_compress]
  · rw [if_neg hfull]
    simp only [updateByte, hfull, ↓reduceDIte, stream, htake]

/-- What the object holds after the bytes of `message`: the stream fed with
them from the initial hash value, and the bits of the blocks already
transformed. -/
structure Absorbed (h : Sha256) (message : List UInt8) : Prop where
  stream_eq : h.stream = BlockStream.feed compress 64 ⟨H0, []⟩ message
  bitlen_eq : h.bitlen = UInt64.ofNat (512 * (message.length / 64))

namespace Absorbed

variable {h : Sha256} {message : List UInt8}

theorem state_eq (habs : h.Absorbed message) :
    h.state = (fullBlocks 64 message).foldl compress H0 := by
  have hstream := habs.stream_eq
  rw [BlockStream.feed_eq _ (by decide)] at hstream
  exact congrArg BlockStream.state hstream

theorem buflen_eq (habs : h.Absorbed message) :
    h.buflen = message.length % 64 := by
  rw [← length_pending, habs.stream_eq, BlockStream.feed_eq _ (by decide),
    length_partialBlock]

/-- The bit count `finish` starts from. -/
theorem bits_eq (habs : h.Absorbed message) :
    h.bitlen + UInt64.ofNat h.buflen * 8 =
      UInt64.ofNat (8 * message.length) := by
  have hsplit := Nat.div_add_mod message.length 64
  rw [habs.bitlen_eq, habs.buflen_eq]
  rw [show (8 : UInt64) = UInt64.ofNat 8 from rfl, ← UInt64.ofNat_mul,
    ← UInt64.ofNat_add]
  congr 1
  omega

theorem bitlen_updateByte (habs : h.Absorbed message) (byte : UInt8) :
    (h.updateByte byte).bitlen =
      UInt64.ofNat (512 * ((message.length + 1) / 64)) := by
  have hbuf := habs.buflen_eq
  by_cases hfull : h.buflen + 1 = 64
  · simp only [updateByte, hfull, ↓reduceDIte]
    rw [hbuf] at hfull
    rw [habs.bitlen_eq, show (512 : UInt64) = UInt64.ofNat 512 from rfl,
      ← UInt64.ofNat_add, div_succ_of_full (by decide) hfull]
    congr 1
  · simp only [updateByte, hfull, ↓reduceDIte]
    rw [hbuf] at hfull
    rw [habs.bitlen_eq, div_succ_of_not_full (by decide) hfull]

theorem updateByte (habs : h.Absorbed message) (byte : UInt8) :
    (h.updateByte byte).Absorbed (message ++ [byte]) where
  stream_eq := by
    rw [stream_updateByte, habs.stream_eq, BlockStream.feed_append]
    rfl
  bitlen_eq := by
    rw [bitlen_updateByte habs byte, List.length_append, List.length_singleton]

/-- A whole `update` call appends its data to the message. -/
theorem update (habs : h.Absorbed message) (data : List UInt8) :
    (h.update data).Absorbed (message ++ data) := by
  induction data generalizing h message with
  | nil => simpa [Sha256.update] using habs
  | cons byte rest ih =>
      have hrest := ih (habs.updateByte byte)
      rwa [List.append_assoc, List.singleton_append] at hrest

end Absorbed

theorem absorbed_reset (h : Sha256) : h.reset.Absorbed [] where
  stream_eq := by
    change BlockStream.mk h.reset.state [] = _
    rw [reset_state]
    rfl
  bitlen_eq := rfl

/-- Any sequence of `update` calls absorbs the concatenation of its chunks. -/
theorem absorbed_updates (h : Sha256) {message : List UInt8}
    (habs : h.Absorbed message) (chunks : List (List UInt8)) :
    (chunks.foldl update h).Absorbed (message ++ chunks.flatten) := by
  induction chunks generalizing h message with
  | nil => simpa using habs
  | cons chunk rest ih =>
      have hrest := ih (h.update chunk) (habs.update chunk)
      rwa [List.append_assoc, ← List.flatten_cons] at hrest

/-- The padding loop feeds exactly the zeros that bring the fill to 56. -/
theorem padZeros_eq (h : Sha256) :
    h.padZeros = h.update (List.replicate ((120 - h.buflen) % 64) 0x00) := by
  induction h using padZeros.induct with
  | case1 h hdone =>
      rw [padZeros, if_pos hdone, hdone]
      rfl
  | case2 h hmore ih =>
      have hlt := h.buflen_lt
      have hnext : (h.update [0x00]).buflen = (h.buflen + 1) % 64 :=
        buflen_updateByte h 0x00
      have hcount : (120 - h.buflen) % 64 =
          (120 - (h.update [0x00]).buflen) % 64 + 1 := by
        rw [hnext]
        omega
      rw [padZeros, if_neg hmore, ih, hcount, List.replicate_succ]
      rfl

theorem lenbuf_eq_lengthField (bytes : Nat) :
    lenbuf (UInt64.ofNat (8 * bytes)) = lengthField bytes := by
  apply List.map_congr_left
  intro i hi
  have hi8 : i < 8 := List.mem_range.mp hi
  apply UInt8.toNat_inj.mp
  interval_cases i <;>
    simp [Nat.shiftRight_eq_div_pow]

/-- The byte loop of `finish` writes the words as the standard does. -/
theorem output_eq (H : Vector UInt32 8) :
    ((List.range 8).flatMap fun i =>
      let word : UInt32 := H[i]!
      [(word >>> 24).toUInt8, (word >>> 16).toUInt8, (word >>> 8).toUInt8,
        word.toUInt8]) = output H := by
  have hlist : H.toList = (List.range 8).map fun i => H[i]! := by
    apply List.ext_getElem
    · simp
    · intro i h₁ h₂
      simp only [Vector.length_toList] at h₁
      simp [getElem!_pos, h₁]
  rw [output, hlist, List.flatMap_map]

/-- `finish` returns the reference digest of the absorbed message. -/
theorem finish_eq {h : Sha256} {message : List UInt8}
    (habs : h.Absorbed message) : h.finish = Fips180.sha256 message := by
  have hmark := habs.update [0x80]
  have hfill := hmark.buflen_eq
  have hzeros := hmark.update
    (List.replicate ((120 - (h.update [0x80]).buflen) % 64) 0x00)
  rw [← padZeros_eq] at hzeros
  have hcount : (120 - (h.update [0x80]).buflen) % 64 =
      (119 - message.length % 64) % 64 := by
    rw [hfill, List.length_append, List.length_singleton]
    omega
  have hall := hzeros.update (lenbuf (UInt64.ofNat (8 * message.length)))
  rw [lenbuf_eq_lengthField, hcount] at hall
  have hstate := hall.state_eq
  rw [finish, habs.bits_eq, lenbuf_eq_lengthField]
  change (List.range 8).flatMap _ = _
  rw [output_eq, hstate]
  rfl

/-- A reset object fed any chunks returns the digest of their
concatenation. -/
theorem finish_updates_reset (h : Sha256) (chunks : List (List UInt8)) :
    (chunks.foldl update h.reset).finish = Fips180.sha256 chunks.flatten :=
  finish_eq (absorbed_updates h.reset (absorbed_reset h) chunks)

theorem buflen_padZeros (h : Sha256) : h.padZeros.buflen = 56 := by
  induction h using padZeros.induct with
  | case1 h hdone => rw [padZeros, if_pos hdone, hdone]
  | case2 h hmore ih => rw [padZeros, if_neg hmore, ih]

end Sha256

/-- The one-shot function, whatever the buffer held before. -/
theorem sha256_eq (data : List UInt8) : sha256 data = Fips180.sha256 data := by
  have hstream := Sha256.finish_updates_reset
    ⟨Vector.replicate 8 0, 0, Vector.replicate 64 0, 0, by decide⟩ [data]
  rwa [List.flatten_singleton] at hstream

/-- Streaming SHA-256 is FIPS 180-4 for every message and every chunking; the
padding loop reaches fill 56 from every fill; `sha256d` is the reference
applied twice. -/
theorem sha256_streaming_eq_fips :
    (∀ (h : Sha256) (chunks : List (List UInt8)),
      (chunks.foldl Sha256.update h.reset).finish =
        Fips180.sha256 chunks.flatten) ∧
    (∀ h : Sha256, h.padZeros.buflen = 56 ∧
      h.padZeros =
        h.update (List.replicate ((120 - h.buflen) % 64) 0x00)) ∧
    (∀ data : List UInt8,
      sha256d data = Fips180.sha256 (Fips180.sha256 data)) := by
  refine ⟨Sha256.finish_updates_reset, fun h => ?_, fun data => ?_⟩
  · exact ⟨Sha256.buflen_padZeros h, Sha256.padZeros_eq h⟩
  · rw [sha256d, sha256_eq, sha256_eq]

end Minerby
