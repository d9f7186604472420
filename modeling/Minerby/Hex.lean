/-
The hex codec every wire field goes through.  A `std::string` is modelled by a
`String` with one character per byte; a thrown `std::runtime_error` is an
`Except` error carrying its text.
-/
import Minerby.ByteOrder

namespace Minerby

universe u v

/-- A sequence of fallible computations succeeds through its first part. -/
theorem bind_eq_ok {ε : Type u} {α : Type v} {β : Type v}
    {x : Except ε α} {f : α → Except ε β} {b : β} :
    (x >>= f) = .ok b ↔ ∃ a, x = .ok a ∧ f a = .ok b := by
  cases x <;> simp [bind, Except.bind]

/-- `d[v]` for the digit table `"0123456789abcdef"`. -/
def hexDigit (v : Nat) : Char :=
  "0123456789abcdef".toList.getD v '0'

def toHex (p : List UInt8) : String :=
  String.ofList
    (p.flatMap fun b => [hexDigit (b.toNat >>> 4), hexDigit (b.toNat &&& 0x0f)])

def hexVal (c : Char) : Int :=
  if '0' ≤ c ∧ c ≤ '9' then (c.toNat : Int) - '0'.toNat
  else if 'a' ≤ c ∧ c ≤ 'f' then (c.toNat : Int) - 'a'.toNat + 10
  else if 'A' ≤ c ∧ c ≤ 'F' then (c.toNat : Int) - 'A'.toNat + 10
  else -1

/-- `(hi << 4) | lo`, for two digits. -/
def hexByte (hi lo : Char) : UInt8 :=
  UInt8.ofNat ((hexVal hi).toNat <<< 4 ||| (hexVal lo).toNat)

/-- The loop of `from_hex`, two digits at a time. -/
def fromHexLoop : List Char → Except String (List UInt8)
  | hi :: lo :: rest =>
      if hexVal hi < 0 ∨ hexVal lo < 0 then .error "from_hex: bad digit"
      else do
        let out ← fromHexLoop rest
        return hexByte hi lo :: out
  | _ => .ok []

def fromHex (s : String) : Except String (List UInt8) :=
  if s.toList.length % 2 ≠ 0 then .error "from_hex: odd length"
  else fromHexLoop s.toList

/-- Interpret 8 hex characters as a big-endian word (Stratum
version/nbits/ntime). -/
def be32FromHex (s : String) : Except String UInt32 := do
  let b ← fromHex s
  match b with
  | [b0, b1, b2, b3] => return be32 b0 b1 b2 b3
  | _ => .error "be32_from_hex: need exactly 4 bytes"

/-- A character in `0-9a-fA-F`. -/
def isHexChar (c : Char) : Bool :=
  ('0' ≤ c ∧ c ≤ '9') || ('a' ≤ c ∧ c ≤ 'f') || ('A' ≤ c ∧ c ≤ 'F')

/-- `s` is hex of `n` bytes: `2 n` characters, all of them hex digits. -/
def IsHexOf (n : Nat) (s : String) : Prop :=
  s.toList.length = 2 * n ∧ ∀ c ∈ s.toList, isHexChar c = true

/-- `s` is hex of some number of bytes. -/
def IsHex (s : String) : Prop :=
  ∃ n, IsHexOf n s

theorem hexVal_neg_iff (c : Char) : hexVal c < 0 ↔ isHexChar c = false := by
  have h0 : '0' ≤ c ↔ 48 ≤ c.toNat := Iff.rfl
  have h9 : c ≤ '9' ↔ c.toNat ≤ 57 := Iff.rfl
  have ha : 'a' ≤ c ↔ 97 ≤ c.toNat := Iff.rfl
  have hf : c ≤ 'f' ↔ c.toNat ≤ 102 := Iff.rfl
  have hA : 'A' ≤ c ↔ 65 ≤ c.toNat := Iff.rfl
  have hF : c ≤ 'F' ↔ c.toNat ≤ 70 := Iff.rfl
  have e0 : '0'.toNat = 48 := rfl
  have ea : 'a'.toNat = 97 := rfl
  have eA : 'A'.toNat = 65 := rfl
  simp only [hexVal, isHexChar, h0, h9, ha, hf, hA, hF, e0, ea, eA,
    Bool.or_eq_false_iff, decide_eq_false_iff_not]
  split
  · omega
  · split
    · omega
    · split <;> omega

theorem fromHexLoop_cons_cons (hi lo : Char) (rest : List Char) :
    fromHexLoop (hi :: lo :: rest) =
      if isHexChar hi = true ∧ isHexChar lo = true then
        (fromHexLoop rest).map (hexByte hi lo :: ·)
      else .error "from_hex: bad digit" := by
  by_cases hgood : isHexChar hi = true ∧ isHexChar lo = true
  · have hnot : ¬ (hexVal hi < 0 ∨ hexVal lo < 0) := by
      simp [hexVal_neg_iff, hgood]
    rw [fromHexLoop, if_neg hnot, if_pos hgood]
    cases fromHexLoop rest <;> rfl
  · have hbad : hexVal hi < 0 ∨ hexVal lo < 0 := by
      rw [hexVal_neg_iff, hexVal_neg_iff]
      by_contra hnone
      simp only [not_or, Bool.not_eq_false] at hnone
      exact hgood hnone
    rw [fromHexLoop, if_pos hbad, if_neg hgood]

/-- What a round of the loop has read. -/
theorem fromHexLoop_eq_ok {hi lo : Char} {rest : List Char} {out : List UInt8}
    (hout : fromHexLoop (hi :: lo :: rest) = .ok out) :
    ∃ tail, isHexChar hi = true ∧ isHexChar lo = true ∧
      fromHexLoop rest = .ok tail ∧ out = hexByte hi lo :: tail := by
  rw [fromHexLoop_cons_cons] at hout
  split at hout
  · rename_i hdigits
    cases htail : fromHexLoop rest with
    | error message => simp [htail, Except.map] at hout
    | ok tail =>
        simp only [htail, Except.map, Except.ok.injEq] at hout
        exact ⟨tail, hdigits.1, hdigits.2, rfl, hout.symm⟩
  · cases hout

theorem exists_pair {n : Nat} {s : List Char}
    (hlength : s.length = 2 * (n + 1)) :
    ∃ hi lo rest, s = hi :: lo :: rest ∧ rest.length = 2 * n := by
  match s, hlength with
  | hi :: lo :: rest, hlength =>
      refine ⟨hi, lo, rest, rfl, ?_⟩
      simp only [List.length_cons] at hlength
      omega

/-- The bytes read have half the length of the text, and every character of
the text is a digit. -/
theorem isHex_of_fromHexLoop (n : Nat) {s : List Char} {out : List UInt8}
    (hlength : s.length = 2 * n) (hout : fromHexLoop s = .ok out) :
    out.length = n ∧ ∀ c ∈ s, isHexChar c = true := by
  induction n generalizing s out with
  | zero =>
      have hnil : s = [] := List.length_eq_zero_iff.mp hlength
      subst hnil
      simp only [fromHexLoop, Except.ok.injEq] at hout
      simp [← hout]
  | succ n ih =>
      obtain ⟨hi, lo, rest, rfl, hrest⟩ := exists_pair hlength
      obtain ⟨tail, hhi, hlo, htail, rfl⟩ := fromHexLoop_eq_ok hout
      obtain ⟨hlen, hall⟩ := ih hrest htail
      simp only [List.length_cons, hlen, List.mem_cons, true_and]
      rintro c (rfl | rfl | hc)
      · exact hhi
      · exact hlo
      · exact hall c hc

/-- Every text of `2 n` hex digits is read. -/
theorem fromHexLoop_of_isHex (n : Nat) {s : List Char}
    (hlength : s.length = 2 * n) (hdigits : ∀ c ∈ s, isHexChar c = true) :
    ∃ out, fromHexLoop s = .ok out := by
  induction n generalizing s with
  | zero =>
      have hnil : s = [] := List.length_eq_zero_iff.mp hlength
      exact ⟨[], by rw [hnil]; rfl⟩
  | succ n ih =>
      obtain ⟨hi, lo, rest, rfl, hrest⟩ := exists_pair hlength
      obtain ⟨tail, htail⟩ := ih hrest fun c hc => hdigits c (by simp [hc])
      refine ⟨hexByte hi lo :: tail, ?_⟩
      rw [fromHexLoop_cons_cons, htail,
        if_pos ⟨hdigits hi (by simp), hdigits lo (by simp)⟩]
      rfl

/-- What `from_hex` accepts is hex of as many bytes as it returns. -/
theorem isHexOf_of_fromHex {s : String} {out : List UInt8}
    (hout : fromHex s = .ok out) : IsHexOf out.length s := by
  unfold fromHex at hout
  split at hout
  · cases hout
  · obtain ⟨n, hn⟩ : ∃ n, s.toList.length = 2 * n :=
      ⟨s.toList.length / 2, by omega⟩
    obtain ⟨hlen, hdigits⟩ := isHex_of_fromHexLoop n hn hout
    exact ⟨by rw [hlen, hn], hdigits⟩

/-- `from_hex` accepts hex of `n` bytes and returns `n` bytes. -/
theorem fromHex_of_isHexOf {n : Nat} {s : String} (hs : IsHexOf n s) :
    ∃ out, fromHex s = .ok out ∧ out.length = n := by
  obtain ⟨hlength, hdigits⟩ := hs
  have heven : ¬ s.toList.length % 2 ≠ 0 := by omega
  obtain ⟨out, hout⟩ := fromHexLoop_of_isHex n hlength hdigits
  exact ⟨out, by rw [fromHex, if_neg heven, hout],
    (isHex_of_fromHexLoop n hlength hout).1⟩

theorem fromHex_ok_iff (s : String) :
    (∃ out, fromHex s = .ok out) ↔ IsHex s := by
  constructor
  · rintro ⟨out, hout⟩
    exact ⟨out.length, isHexOf_of_fromHex hout⟩
  · rintro ⟨n, hs⟩
    obtain ⟨out, hout, -⟩ := fromHex_of_isHexOf hs
    exact ⟨out, hout⟩

theorem fromHex_ok_length_iff (n : Nat) (s : String) :
    (∃ out, fromHex s = .ok out ∧ out.length = n) ↔ IsHexOf n s := by
  constructor
  · rintro ⟨out, hout, rfl⟩
    exact isHexOf_of_fromHex hout
  · exact fromHex_of_isHexOf

/-- The two digits of a byte read back as that byte. -/
theorem hexByte_digits (b : UInt8) :
    isHexChar (hexDigit (b.toNat >>> 4)) = true ∧
      isHexChar (hexDigit (b.toNat &&& 0x0f)) = true ∧
      hexByte (hexDigit (b.toNat >>> 4)) (hexDigit (b.toNat &&& 0x0f)) = b := by
  have hall : ∀ n : Fin 256,
      isHexChar (hexDigit (n.val >>> 4)) = true ∧
        isHexChar (hexDigit (n.val &&& 0x0f)) = true ∧
        hexByte (hexDigit (n.val >>> 4)) (hexDigit (n.val &&& 0x0f)) =
          UInt8.ofNat n.val := by
    decide +kernel
  simpa using hall ⟨b.toNat, b.toNat_lt⟩

/-- Decoding inverts encoding. -/
@[simp]
theorem fromHex_toHex (p : List UInt8) : fromHex (toHex p) = .ok p := by
  have hloop : ∀ p : List UInt8, fromHexLoop (p.flatMap fun b =>
      [hexDigit (b.toNat >>> 4), hexDigit (b.toNat &&& 0x0f)]) = .ok p := by
    intro p
    induction p with
    | nil => rfl
    | cons b rest ih =>
        obtain ⟨hhi, hlo, hbyte⟩ := hexByte_digits b
        rw [List.flatMap_cons, List.cons_append, List.cons_append,
          List.nil_append, fromHexLoop_cons_cons, if_pos ⟨hhi, hlo⟩, hbyte, ih]
        rfl
  have hlength : ∀ p : List UInt8, (p.flatMap fun b =>
      [hexDigit (b.toNat >>> 4), hexDigit (b.toNat &&& 0x0f)]).length =
        2 * p.length := by
    intro p
    induction p with
    | nil => rfl
    | cons b rest ih => simp [ih]; omega
  rw [fromHex, toHex, String.toList_ofList, if_neg (by rw [hlength]; omega)]
  exact hloop p

/-- What `be32_from_hex` returns: the big-endian word of exactly four bytes. -/
theorem be32FromHex_eq_ok {s : String} {v : UInt32} :
    be32FromHex s = .ok v ↔
      ∃ b0 b1 b2 b3, fromHex s = .ok [b0, b1, b2, b3] ∧
        v = be32 b0 b1 b2 b3 := by
  rw [be32FromHex, bind_eq_ok]
  constructor
  · rintro ⟨b, hb, hv⟩
    split at hv
    · rename_i b0 b1 b2 b3
      simp only [pure, Except.pure, Except.ok.injEq] at hv
      exact ⟨b0, b1, b2, b3, hb, hv.symm⟩
    · cases hv
  · rintro ⟨b0, b1, b2, b3, hb, rfl⟩
    exact ⟨_, hb, rfl⟩

/-- `be32_from_hex` accepts exactly hex of four bytes. -/
theorem be32FromHex_ok_iff (s : String) :
    (∃ v, be32FromHex s = .ok v) ↔ IsHexOf 4 s := by
  rw [← fromHex_ok_length_iff]
  constructor
  · rintro ⟨v, hv⟩
    obtain ⟨b0, b1, b2, b3, hb, -⟩ := be32FromHex_eq_ok.mp hv
    exact ⟨_, hb, rfl⟩
  · rintro ⟨out, hout, hlength⟩
    match out, hlength with
    | [b0, b1, b2, b3], _ =>
      exact ⟨_, be32FromHex_eq_ok.mpr ⟨b0, b1, b2, b3, hout, rfl⟩⟩

/-- Hex of a little-endian word is read back with its bytes reversed. -/
theorem be32FromHex_toHex_le32 (n : UInt32) :
    be32FromHex (toHex (le32 n)) =
      .ok (be32 n.toUInt8 (n >>> 8).toUInt8 (n >>> 16).toUInt8
        (n >>> 24).toUInt8) :=
  be32FromHex_eq_ok.mpr ⟨_, _, _, _, fromHex_toHex (le32 n), rfl⟩

end Minerby
