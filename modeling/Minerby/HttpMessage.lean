/-
Messages framed by a header block and a length, as HTTP frames them: lines that
end in CRLF, an empty line, and then as many bytes of body as the header says.
What is written this way is read back whatever the body holds and whatever
follows it.
-/
import Mathlib.Data.Nat.Digits.Defs
import Minerby.Numeral

namespace Minerby

def crlf : List Char := ['\r', '\n']

/-- One field of a header block. -/
structure Field where
  name : List Char
  value : List Char
deriving Repr, DecidableEq

/-- A message with its first line. -/
structure HttpMessage where
  startLine : List Char
  fields : List Field
  body : List Char
deriving Repr, DecidableEq

def Field.write (f : Field) : List Char := f.name ++ [':', ' '] ++ f.value

/-- The message as it goes over the connection. -/
def HttpMessage.write (m : HttpMessage) : List Char :=
  m.startLine ++ crlf ++
    (m.fields.flatMap fun f => f.write ++ crlf) ++ crlf ++ m.body

/-- The text up to the first CRLF, and the text behind it. -/
def takeLine : List Char → Option (List Char × List Char)
  | [] => none
  | '\r' :: '\n' :: rest => some ([], rest)
  | c :: rest => (takeLine rest).map fun line => (c :: line.1, line.2)

/-- A line of the header block: the name up to the colon, and the value behind
one space. -/
def readField (line : List Char) : Option Field :=
  match line.dropWhile (· ≠ ':') with
  | ':' :: ' ' :: value => some ⟨line.takeWhile (· ≠ ':'), value⟩
  | _ => none

/-- The header block, to its empty line, in at most so many lines. -/
def readFields : Nat → List Char → Option (List Field × List Char)
  | 0, _ => none
  | lines + 1, text =>
      match takeLine text with
      | none => none
      | some ([], rest) => some ([], rest)
      | some (line, rest) =>
          match readField line, readFields lines rest with
          | some f, some (fields, rest) => some (f :: fields, rest)
          | _, _ => none

/-- The length that the header gives, if it gives one. -/
def bodyLength (fields : List Field) : Option Nat :=
  (fields.find? fun f => f.name = "Content-Length".toList).map fun f =>
    readDecimal f.value

/-- A message and the text behind it. -/
def HttpMessage.read (text : List Char) :
    Option (HttpMessage × List Char) :=
  match takeLine text with
  | none => none
  | some (startLine, rest) =>
      match readFields text.length rest with
      | none => none
      | some (fields, rest) =>
          match bodyLength fields with
          | none => none
          | some n =>
              if n ≤ rest.length then
                some (⟨startLine, fields, rest.take n⟩, rest.drop n)
              else none

theorem takeLine_append {line : List Char} (hline : '\r' ∉ line)
    (rest : List Char) : takeLine (line ++ crlf ++ rest) = some (line, rest) := by
  induction line with
  | nil => rfl
  | cons c line ih =>
      obtain ⟨hc, hline⟩ := not_or.mp (mt List.mem_cons.mpr hline)
      have hrest := ih hline
      have hstep : takeLine (c :: (line ++ crlf ++ rest)) =
          (takeLine (line ++ crlf ++ rest)).map
            fun line => (c :: line.1, line.2) := by
        apply takeLine.eq_3
        rintro tail rfl
        exact absurd rfl hc
      rw [List.cons_append, List.cons_append, hstep, hrest]
      rfl

/-- A field that can be told from what stands around it. -/
structure Field.Clean (f : Field) : Prop where
  colon : ':' ∉ f.name
  name : '\r' ∉ f.name
  value : '\r' ∉ f.value

/-- A message whose first line and fields can be told apart, and whose header
gives the length of its body. -/
structure HttpMessage.Clean (m : HttpMessage) : Prop where
  startLine : '\r' ∉ m.startLine
  fields : ∀ f ∈ m.fields, f.Clean
  length : bodyLength m.fields = some m.body.length

theorem readField_write {f : Field} (hclean : f.Clean) :
    readField f.write = some f := by
  have hbefore : ∀ c ∈ f.name, decide (c ≠ ':') = true := by
    intro c hc
    apply decide_eq_true
    rintro rfl
    exact hclean.colon hc
  have htake : f.write.takeWhile (· ≠ ':') = f.name := by
    simp only [Field.write, List.append_assoc]
    rw [List.takeWhile_append_of_pos hbefore]
    simp
  have hdrop : f.write.dropWhile (· ≠ ':') = ':' :: ' ' :: f.value := by
    simp only [Field.write, List.append_assoc]
    rw [List.dropWhile_append_of_pos hbefore]
    simp
  simp only [readField, hdrop, htake]

/-- A header block is read back, line by line. -/
theorem readFields_write {fields : List Field}
    (hclean : ∀ f ∈ fields, f.Clean) {lines : Nat}
    (hlines : fields.length < lines) (rest : List Char) :
    readFields lines ((fields.flatMap fun f => f.write ++ crlf) ++ crlf ++
      rest) = some (fields, rest) := by
  induction fields generalizing lines with
  | nil =>
      obtain ⟨lines, rfl⟩ := Nat.exists_eq_add_one.mpr hlines
      rfl
  | cons f fields ih =>
      obtain ⟨lines, rfl⟩ := Nat.exists_eq_add_one.mpr
        (Nat.zero_lt_of_lt hlines)
      have hf := hclean f List.mem_cons_self
      have hrest := ih (fun f hf => hclean f (List.mem_cons_of_mem _ hf))
        (Nat.lt_of_succ_lt_succ hlines)
      have hline : takeLine (f.write ++ crlf ++
          ((fields.flatMap fun f => f.write ++ crlf) ++ crlf ++ rest)) =
          some (f.write, (fields.flatMap fun f => f.write ++ crlf) ++ crlf ++
            rest) := by
        apply takeLine_append
        simp [Field.write, hf.name, hf.value]
      have hne : f.write ≠ [] := by simp [Field.write]
      have hassoc : ((f :: fields).flatMap fun f => f.write ++ crlf) ++ crlf ++
          rest = f.write ++ crlf ++ ((fields.flatMap fun f => f.write ++ crlf) ++
            crlf ++ rest) := by
        simp
      obtain ⟨c, line, hwrite⟩ := List.exists_cons_of_ne_nil hne
      have hfield := readField_write hf
      rw [hwrite] at hfield
      rw [hassoc, readFields, hline, hwrite]
      simp only [hfield, hrest]

theorem length_fields_le (fields : List Field) :
    fields.length ≤ (fields.flatMap fun f => f.write ++ crlf).length := by
  induction fields with
  | nil => exact Nat.le_refl _
  | cons f fields ih =>
      have hline : 0 < (f.write ++ crlf).length := by simp [crlf]
      rw [List.flatMap_cons, List.length_append, List.length_cons]
      omega

/-- There are fewer fields than characters. -/
theorem HttpMessage.length_fields_lt (m : HttpMessage) (rest : List Char) :
    m.fields.length < (m.write ++ rest).length := by
  have hfields := length_fields_le m.fields
  have hcrlf : crlf.length = 2 := rfl
  simp only [HttpMessage.write, List.length_append]
  omega

/-- What is written is read back, and what follows it is left alone. -/
theorem HttpMessage.read_write {m : HttpMessage} (hclean : m.Clean)
    (rest : List Char) : HttpMessage.read (m.write ++ rest) = some (m, rest) := by
  have hassoc : m.write ++ rest = m.startLine ++ crlf ++
      ((m.fields.flatMap fun f => f.write ++ crlf) ++ crlf ++
        (m.body ++ rest)) := by
    simp [HttpMessage.write]
  have hline := takeLine_append hclean.startLine
    ((m.fields.flatMap fun f => f.write ++ crlf) ++ crlf ++ (m.body ++ rest))
  have hread := readFields_write hclean.fields (m.length_fields_lt rest)
    (m.body ++ rest)
  have hfits : m.body.length ≤ (m.body ++ rest).length := by simp
  rw [hassoc] at hread ⊢
  simp only [HttpMessage.read, hline, hread, hclean.length, hfits, ↓reduceIte,
    List.take_left, List.drop_left]

end Minerby
