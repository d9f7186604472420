/-
The text format in which metrics are exposed: a line for each sample, with its
name and its value, and comment lines before it that describe the metric and
give its type.  What is written this way is read back.
-/
import Minerby.Terminated

namespace Minerby

/-- A metric as it is written. -/
structure Exposed where
  name : List Char
  help : List Char
  kind : List Char
  value : List Char
deriving Repr, DecidableEq

/-- A sample as it is read: the type is the one given for its name. -/
structure Sample where
  name : List Char
  kind : List Char
  value : List Char
deriving Repr, DecidableEq

def helpMark : List Char := ['#', ' ', 'H', 'E', 'L', 'P', ' ']

def typeMark : List Char := ['#', ' ', 'T', 'Y', 'P', 'E', ' ']

namespace Exposed

def lines (m : Exposed) : List (List Char) :=
  [helpMark ++ m.name ++ ' ' :: m.help, typeMark ++ m.name ++ ' ' :: m.kind,
    m.name ++ ' ' :: m.value]

def write (m : Exposed) : List Char :=
  m.lines.flatMap fun line => line ++ ['\n']

def sample (m : Exposed) : Sample := ⟨m.name, m.kind, m.value⟩

/-- The name is a word and no comment, and nothing breaks a line. -/
structure Clean (m : Exposed) : Prop where
  word : ' ' ∉ m.name
  start : m.name ≠ [] ∧ m.name.head? ≠ some '#'
  lines : ∀ line ∈ m.lines, '\n' ∉ line

end Exposed

/-- The first word of a line, and what follows the space behind it. -/
def splitWord (line : List Char) : List Char × List Char :=
  (line.takeWhile (· ≠ ' '), (line.dropWhile (· ≠ ' ')).drop 1)

/-- The samples on these lines, with the types that have been given. -/
def readSamples (types : List (List Char × List Char)) :
    List (List Char) → List Sample
  | [] => []
  | line :: rest =>
      if typeMark.isPrefixOf line then
        readSamples (splitWord (line.drop typeMark.length) :: types) rest
      else if line = [] ∨ line.head? = some '#' then readSamples types rest
      else
        let (name, value) := splitWord line
        ⟨name, (types.lookup name).getD ['u', 'n', 't', 'y', 'p', 'e', 'd'],
          value⟩ :: readSamples types rest

def readPage (page : List Char) : List Sample :=
  readSamples [] (segments '\n' page)

theorem splitWord_append {word : List Char} (hword : ' ' ∉ word)
    (rest : List Char) : splitWord (word ++ ' ' :: rest) = (word, rest) := by
  have hall : ∀ c ∈ word, decide (c ≠ ' ') = true := by
    intro c hc
    exact decide_eq_true fun h => hword (h ▸ hc)
  have htake : (word ++ ' ' :: rest).takeWhile (fun c => decide (c ≠ ' ')) =
      word := by
    rw [List.takeWhile_append_of_pos hall]
    simp
  have hdrop : (word ++ ' ' :: rest).dropWhile (fun c => decide (c ≠ ' ')) =
      ' ' :: rest := by
    rw [List.dropWhile_append_of_pos hall]
    simp
  rw [splitWord, htake, hdrop]
  rfl

/-- The three lines of a metric are one sample. -/
theorem readSamples_lines {m : Exposed} (hclean : m.Clean)
    (types : List (List Char × List Char)) (rest : List (List Char)) :
    readSamples types (m.lines ++ rest) =
      m.sample :: readSamples ((m.name, m.kind) :: types) rest := by
  obtain ⟨hne, hcomment⟩ := hclean.start
  obtain ⟨c, name, hname⟩ := List.exists_cons_of_ne_nil hne
  have hc : c ≠ '#' := by
    simpa [hname] using hcomment
  have hhelp : typeMark.isPrefixOf (helpMark ++ m.name ++ ' ' :: m.help) =
      false := rfl
  have htype : typeMark.isPrefixOf (typeMark ++ m.name ++ ' ' :: m.kind) =
      true := by
    rw [List.append_assoc]
    exact List.isPrefixOf_iff_prefix.mpr (List.prefix_append _ _)
  have hsample : typeMark.isPrefixOf (m.name ++ ' ' :: m.value) = false := by
    rw [hname]
    simp [typeMark, List.isPrefixOf, hc.symm]
  have hplain : ¬ (m.name ++ ' ' :: m.value = [] ∨
      (m.name ++ ' ' :: m.value).head? = some '#') := by
    rw [hname]
    simp [hc]
  have hdrop : (typeMark ++ m.name ++ ' ' :: m.kind).drop typeMark.length =
      m.name ++ ' ' :: m.kind := by
    rw [List.append_assoc, List.drop_left]
  simp only [Exposed.lines, List.cons_append, List.nil_append, readSamples,
    hhelp, htype, hsample, hplain, hdrop, splitWord_append hclean.word,
    List.lookup_cons_self, Exposed.sample, if_true, if_false]
  simp [helpMark]

/-- A page is read back: its samples in order, each with its type and value. -/
theorem readPage_write {metrics : List Exposed}
    (hclean : ∀ m ∈ metrics, m.Clean) :
    readPage (metrics.flatMap Exposed.write) = metrics.map Exposed.sample := by
  have hlines : ∀ line ∈ metrics.flatMap Exposed.lines, '\n' ∉ line := by
    intro line hline
    obtain ⟨m, hm, hmem⟩ := List.mem_flatMap.mp hline
    exact (hclean m hm).lines line hmem
  have hpage : metrics.flatMap Exposed.write =
      (metrics.flatMap Exposed.lines).flatMap (fun line => line ++ ['\n']) ++
        [] := by
    rw [List.append_nil, List.flatMap_assoc]
    rfl
  have hread : ∀ types, readSamples types (metrics.flatMap Exposed.lines) =
      metrics.map Exposed.sample := by
    clear hlines hpage
    induction metrics with
    | nil => exact fun _ => rfl
    | cons m metrics ih =>
        intro types
        obtain ⟨hm, hmetrics⟩ := List.forall_mem_cons.mp hclean
        rw [List.flatMap_cons, readSamples_lines hm, ih hmetrics]
        rfl
  rw [readPage, hpage, segments_flatMap_append hlines, segments,
    List.append_nil, hread]

end Minerby
