/-
The hex codec in both directions.  Encoding writes lower case, so that decoding
and encoding again lower-cases the text, and a text without capitals is the only
one of its bytes.
-/
import Minerby.Hex
import Minerby.ByteValue

namespace Minerby

/-- `A-F` in lower case, any other character as it is. -/
def lowerHexChar (c : Char) : Char :=
  if 'A' ≤ c ∧ c ≤ 'F' then Char.ofNat (c.toNat + 32) else c

/-- The place of a digit of either case among `0123456789abcdef`. -/
def hexDigitValue (c : Char) : Nat :=
  "0123456789abcdef".toList.idxOf (lowerHexChar c)

/-- A text of hex digits as a numeral, most significant digit first. -/
def hexNumeral (digits : List Char) : Nat :=
  digits.foldl (fun value c => 16 * value + hexDigitValue c) 0

/-- What is known of a single digit. -/
structure DigitOf (c : Char) (digit : Nat) : Prop where
  value : hexVal c = digit
  small : digit < 16
  written : hexDigit digit = lowerHexChar c

theorem digitOf_hexDigitValue {c : Char} (hc : isHexChar c = true) :
    DigitOf c (hexDigitValue c) := by
  have hall : ∀ n : Fin 128, isHexChar (Char.ofNat n) = true →
      hexVal (Char.ofNat n) = hexDigitValue (Char.ofNat n) ∧
        hexDigitValue (Char.ofNat n) < 16 ∧
        hexDigit (hexDigitValue (Char.ofNat n)) =
          lowerHexChar (Char.ofNat n) := by
    decide +kernel
  have hlt : c.toNat < 128 := by
    have h9 : c ≤ '9' ↔ c.toNat ≤ 57 := Iff.rfl
    have hf : c ≤ 'f' ↔ c.toNat ≤ 102 := Iff.rfl
    have hF : c ≤ 'F' ↔ c.toNat ≤ 70 := Iff.rfl
    simp only [isHexChar, h9, hf, hF, Bool.or_eq_true, decide_eq_true_eq] at hc
    omega
  have hchar := hall ⟨c.toNat, hlt⟩
  rw [Char.ofNat_toNat] at hchar
  obtain ⟨hvalue, hsmall, hwritten⟩ := hchar hc
  exact ⟨hvalue, hsmall, hwritten⟩

/-- The byte of two digits. -/
theorem hexByte_toNat {hi lo : Char} (hhi : isHexChar hi = true)
    (hlo : isHexChar lo = true) :
    (hexByte hi lo).toNat = 16 * hexDigitValue hi + hexDigitValue lo := by
  obtain ⟨hhi', hsmall, -⟩ := digitOf_hexDigitValue hhi
  obtain ⟨hlo', hsmall', -⟩ := digitOf_hexDigitValue hlo
  have hor : hexDigitValue hi <<< 4 ||| hexDigitValue lo =
      16 * hexDigitValue hi + hexDigitValue lo := by
    rw [← Nat.shiftLeft_add_eq_or_of_lt (by omega), Nat.shiftLeft_eq]
    omega
  rw [hexByte, hhi', hlo', Int.toNat_natCast, Int.toNat_natCast, hor,
    UInt8.toNat_ofNat']
  omega

/-- The digits that a byte is written with. -/
def byteDigits (b : UInt8) : List Char :=
  [hexDigit (b.toNat >>> 4), hexDigit (b.toNat &&& 0x0f)]

theorem byteDigits_hexByte {hi lo : Char} (hhi : isHexChar hi = true)
    (hlo : isHexChar lo = true) :
    byteDigits (hexByte hi lo) = [lowerHexChar hi, lowerHexChar lo] := by
  obtain ⟨-, hsmall, hwritten⟩ := digitOf_hexDigitValue hhi
  obtain ⟨-, hsmall', hwritten'⟩ := digitOf_hexDigitValue hlo
  have hand : (hexByte hi lo).toNat &&& 0x0f = hexDigitValue lo := by
    rw [Nat.and_two_pow_sub_one_eq_mod _ 4, hexByte_toNat hhi hlo]
    omega
  have hshift : (hexByte hi lo).toNat >>> 4 = hexDigitValue hi := by
    rw [Nat.shiftRight_eq_div_pow, hexByte_toNat hhi hlo]
    omega
  rw [byteDigits, hand, hshift, hwritten, hwritten']

/-- Writing the bytes that were read gives the text in lower case. -/
theorem byteDigits_of_fromHexLoop (n : Nat) {s : List Char} {out : List UInt8}
    (hlength : s.length = 2 * n) (hout : fromHexLoop s = .ok out) :
    out.flatMap byteDigits = s.map lowerHexChar := by
  induction n generalizing s out with
  | zero =>
      obtain rfl := List.length_eq_zero_iff.mp hlength
      obtain rfl := Except.ok.inj hout
      rfl
  | succ n ih =>
      obtain ⟨hi, lo, rest, rfl, hrest⟩ := exists_pair hlength
      obtain ⟨tail, hhi, hlo, htail, rfl⟩ := fromHexLoop_eq_ok hout
      rw [List.flatMap_cons, ih hrest htail, byteDigits_hexByte hhi hlo]
      rfl

/-- Decoding and encoding again lower-cases the text. -/
theorem toHex_of_fromHex {s : String} {out : List UInt8}
    (hout : fromHex s = .ok out) :
    toHex out = String.ofList (s.toList.map lowerHexChar) := by
  have hlength := (isHexOf_of_fromHex hout).1
  have heven : ¬ s.toList.length % 2 ≠ 0 := by omega
  rw [fromHex, if_neg heven] at hout
  rw [← byteDigits_of_fromHexLoop out.length hlength hout]
  rfl

/-- No capital among the digits. -/
def LowerCase (s : String) : Prop :=
  ∀ c ∈ s.toList, ¬ ('A' ≤ c ∧ c ≤ 'F')

theorem LowerCase.map_lowerHexChar {s : String} (hs : LowerCase s) :
    s.toList.map lowerHexChar = s.toList := by
  have hkeeps : ∀ c ∈ s.toList, lowerHexChar c = c :=
    fun c hc => if_neg (hs c hc)
  rw [List.map_congr_left hkeeps]
  exact List.map_id _

/-- The numeral of a text is the numeral of its bytes in base 256. -/
theorem foldl_of_fromHexLoop (n : Nat) {s : List Char} {out : List UInt8}
    (hlength : s.length = 2 * n) (hout : fromHexLoop s = .ok out)
    (value : Nat) :
    s.foldl (fun value c => 16 * value + hexDigitValue c) value =
      out.foldl (fun value b => 256 * value + b.toNat) value := by
  induction n generalizing s out value with
  | zero =>
      obtain rfl := List.length_eq_zero_iff.mp hlength
      obtain rfl := Except.ok.inj hout
      rfl
  | succ n ih =>
      obtain ⟨hi, lo, rest, rfl, hrest⟩ := exists_pair hlength
      obtain ⟨tail, hhi, hlo, htail, rfl⟩ := fromHexLoop_eq_ok hout
      rw [List.foldl_cons, List.foldl_cons, List.foldl_cons, ih hrest htail,
        hexByte_toNat hhi hlo]
      congr 1
      omega

/-- The word of four bytes, as a number. -/
theorem be32_toNat (b0 b1 b2 b3 : UInt8) :
    (be32 b0 b1 b2 b3).toNat =
      [b0, b1, b2, b3].foldl (fun value b => 256 * value + b.toNat) 0 := by
  rw [← byteValue_le32, le32_be32]
  simp only [byteValue_cons, byteValue_nil, List.foldl_cons, List.foldl_nil]
  omega

/-- `be32_from_hex` returns the numeral. -/
theorem be32FromHex_toNat {s : String} {v : UInt32}
    (hv : be32FromHex s = .ok v) : v.toNat = hexNumeral s.toList := by
  obtain ⟨b0, b1, b2, b3, hout, rfl⟩ := be32FromHex_eq_ok.mp hv
  have hlength : s.toList.length = 2 * 4 := (isHexOf_of_fromHex hout).1
  rw [fromHex, if_neg (by omega)] at hout
  rw [be32_toNat, hexNumeral, foldl_of_fromHexLoop 4 hlength hout]

/-- The codec is exact: decoding inverts encoding, accepts the texts of even
length that consist of hex digits, and encoding again lower-cases them; a text
without capitals is determined by its bytes; and `be32_from_hex` reads eight
digits as a numeral in base 16. -/
theorem hex_codec_exact :
    (∀ bytes : List UInt8, fromHex (toHex bytes) = .ok bytes) ∧
    (∀ s : String, (∃ bytes, fromHex s = .ok bytes) ↔
      s.toList.length % 2 = 0 ∧ ∀ c ∈ s.toList, isHexChar c = true) ∧
    (∀ (s : String) (bytes : List UInt8), fromHex s = .ok bytes →
      toHex bytes = String.ofList (s.toList.map lowerHexChar)) ∧
    (∀ (s s' : String) (bytes : List UInt8), LowerCase s → LowerCase s' →
      fromHex s = .ok bytes → fromHex s' = .ok bytes → s = s') ∧
    (∀ s : String, (∃ v, be32FromHex s = .ok v) ↔
      s.toList.length = 8 ∧ ∀ c ∈ s.toList, isHexChar c = true) ∧
    (∀ (s : String) (v : UInt32), be32FromHex s = .ok v →
      v.toNat = hexNumeral s.toList) := by
  refine ⟨fromHex_toHex, ?_, fun s bytes => toHex_of_fromHex, ?_,
    be32FromHex_ok_iff, fun s v => be32FromHex_toNat⟩
  · intro s
    rw [fromHex_ok_iff]
    constructor
    · rintro ⟨n, hlength, hdigits⟩
      exact ⟨by omega, hdigits⟩
    · rintro ⟨heven, hdigits⟩
      exact ⟨s.toList.length / 2, by omega, hdigits⟩
  · intro s s' bytes hlower hlower' hs hs'
    have hsame := (toHex_of_fromHex hs).symm.trans (toHex_of_fromHex hs')
    rw [hlower.map_lowerHexChar, hlower'.map_lowerHexChar,
      String.ofList_toList, String.ofList_toList] at hsame
    exact hsame

end Minerby
