/-
Reading text: the last occurrence of a character, and the decimal number at the
start of a text with the blanks and the sign that `strtol` allows before it.
-/
import Mathlib.Data.List.TakeWhile
import Mathlib.Data.Nat.Digits.Defs

namespace Minerby

section LastOccurrence

variable {α : Type} [DecidableEq α] {c : α} {s : List α}

/-- The index of the last occurrence of `c`. -/
def rfind (c : α) : List α → Option Nat
  | [] => none
  | x :: rest =>
      match rfind c rest with
      | some k => some (k + 1)
      | none => if x = c then some 0 else none

theorem rfind_eq_none : rfind c s = none ↔ c ∉ s := by
  induction s with
  | nil => simp [rfind]
  | cons x rest ih =>
      rw [List.mem_cons, not_or, ← ih, rfind]
      cases rfind c rest with
      | some k => simp
      | none =>
          by_cases hx : x = c
          · simp [hx]
          · simp [hx, Ne.symm hx]

/-- The index found is the place where the text splits with no further
occurrence behind. -/
theorem rfind_eq_some {k : Nat} :
    rfind c s = some k ↔
      ∃ before after, s = before ++ c :: after ∧ c ∉ after ∧
        before.length = k := by
  induction s generalizing k with
  | nil => simp [rfind]
  | cons x rest ih =>
      constructor
      · intro hfind
        rw [rfind] at hfind
        cases hrest : rfind c rest with
        | some j =>
            rw [hrest] at hfind
            obtain ⟨before, after, rfl, hafter, rfl⟩ := ih.mp hrest
            exact ⟨x :: before, after, rfl, hafter, Option.some.inj hfind⟩
        | none =>
            simp only [hrest] at hfind
            split at hfind
            · rename_i hx
              obtain rfl := Option.some.inj hfind
              exact ⟨[], rest, by rw [hx]; rfl, rfind_eq_none.mp hrest, rfl⟩
            · cases hfind
      · rintro ⟨before, after, heq, hafter, rfl⟩
        rw [rfind]
        cases before with
        | nil =>
            obtain ⟨rfl, rfl⟩ := List.cons.inj heq
            rw [rfind_eq_none.mpr hafter]
            exact if_pos rfl
        | cons y before =>
            obtain ⟨rfl, rfl⟩ := List.cons.inj heq
            rw [ih.mpr ⟨before, after, rfl, hafter, rfl⟩]
            rfl

end LastOccurrence

/-- `isspace` in the C locale. -/
def isSpace (c : Char) : Bool :=
  c = ' ' || (9 ≤ c.toNat && c.toNat ≤ 13)

def digitValue (c : Char) : Nat := c.toNat - '0'.toNat

/-- The number that a text of digits denotes. -/
def numeralValue (digits : List Char) : Nat :=
  Nat.ofDigits 10 (digits.reverse.map digitValue)

/-- The accumulation of `strtol` over the digits. -/
def readDecimal (digits : List Char) : Nat :=
  digits.foldl (fun value c => 10 * value + digitValue c) 0

theorem readDecimal_eq (digits : List Char) :
    readDecimal digits = numeralValue digits := by
  rw [readDecimal, numeralValue, Nat.ofDigits_eq_foldr, List.foldr_map,
    List.foldr_reverse]
  congr 1
  funext value c
  exact Nat.add_comm _ _

/-- An optional sign and the text behind it. -/
def takeSign : List Char → Int × List Char
  | '-' :: rest => (-1, rest)
  | '+' :: rest => (1, rest)
  | s => (1, s)

/-- `strtol` in base 10 without a limit on the number; `none` where it converts
nothing.  What follows the digits is not looked at. -/
def strtol (s : List Char) : Option Int :=
  let signed := takeSign (s.dropWhile isSpace)
  let digits := signed.2.takeWhile Char.isDigit
  if digits = [] then none else some (signed.1 * readDecimal digits)

theorem isDigit_range {c : Char} (hdigit : c.isDigit = true) :
    48 ≤ c.toNat ∧ c.toNat ≤ 57 := by
  simp only [Char.isDigit, Bool.and_eq_true, decide_eq_true_eq, ge_iff_le,
    UInt32.le_iff_toNat_le] at hdigit
  exact hdigit

theorem isSpace_of_isDigit {c : Char} (hdigit : c.isDigit = true) :
    isSpace c = false := by
  have hrange := isDigit_range hdigit
  have hne : c ≠ ' ' := by
    rintro rfl
    simp at hdigit
  simp only [isSpace, hne, decide_false, Bool.false_or, Bool.and_eq_false_imp,
    decide_eq_true_eq, decide_eq_false_iff_not]
  omega

theorem takeSign_of_isDigit {c : Char} {rest : List Char}
    (hdigit : c.isDigit = true) : takeSign (c :: rest) = (1, c :: rest) := by
  unfold takeSign
  split
  · rename_i heq
    obtain ⟨rfl, -⟩ := List.cons.inj heq
    simp at hdigit
  · rename_i heq
    obtain ⟨rfl, -⟩ := List.cons.inj heq
    simp at hdigit
  · rfl

/-- A text of digits is read whole. -/
theorem strtol_numeral {digits : List Char} (hne : digits ≠ [])
    (hall : ∀ c ∈ digits, c.isDigit = true) :
    strtol digits = some (numeralValue digits : Int) := by
  obtain ⟨c, rest, rfl⟩ := List.exists_cons_of_ne_nil hne
  have hc := hall c List.mem_cons_self
  have hdrop : (c :: rest).dropWhile isSpace = c :: rest := by
    rw [List.dropWhile_cons_of_neg]
    simp [isSpace_of_isDigit hc]
  have htake : (c :: rest).takeWhile Char.isDigit = c :: rest :=
    List.takeWhile_eq_self_iff.mpr hall
  simp only [strtol, hdrop, takeSign_of_isDigit hc, htake, reduceCtorEq,
    ↓reduceIte, one_mul, readDecimal_eq]

end Minerby
