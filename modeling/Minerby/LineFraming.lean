/-
Line framing.  `rx_` is kept across calls of `read_line`, also when a call
returns early in the middle of a line, so the lines do not depend on how the
stream is cut into packets.
-/
import Minerby.TcpClient
import Minerby.Terminated

namespace Minerby

namespace TcpClient

/-- The bytes that a script delivers. -/
def received (script : List RecvResult) : List Char :=
  script.flatMap fun
    | .data packet => packet.bytes
    | .eof => []
    | .failed => []

/-- The line that a segment is read as: what stands before its last character
where that is a carriage return, and all of it otherwise. -/
def ReadAs (raw : List Char) (line : String) : Prop :=
  (∃ body, raw = body ++ ['\r'] ∧ line = String.ofList body) ∨
    (∀ body, raw ≠ body ++ ['\r']) ∧ line = String.ofList raw

theorem readAs_stripCR (raw : List Char) :
    ReadAs raw (String.ofList (stripCR raw)) := by
  unfold ReadAs stripCR
  split
  · rename_i hlast
    left
    refine ⟨raw.dropLast, ?_, rfl⟩
    exact (List.dropLast_append_getLast? '\r' hlast).symm
  · rename_i hlast
    right
    refine ⟨?_, rfl⟩
    rintro body rfl
    exact hlast List.getLast?_concat

/-- Calls of `read_line`, one after the other: what those that return true
return, the client, and the part of the script not used. -/
def readLines : Nat → TcpClient → List RecvResult →
    List String × TcpClient × List RecvResult
  | 0, c, script => ([], c, script)
  | n + 1, c, script =>
      let (line, c, rest) := c.readLine script
      let (lines, c, rest) := readLines n c rest
      (line.toList ++ lines, c, rest)

@[simp]
theorem received_append (first second : List RecvResult) :
    received (first ++ second) = received first ++ received second := by
  simp [received]

/-- What one call does with the bytes: it uses up a part of the script, and
cuts a line off the front of what has been received, or cuts off nothing.  It
uses nothing only if there is a line already, or nothing to come. -/
inductive Framed (script : List RecvResult) (rx : List Char) :
    Option (List Char) × List Char × List RecvResult → Prop
  | line (used : List RecvResult) {rest : List RecvResult}
      {raw rx' : List Char}
      (script_eq : script = used ++ rest) (no_newline : '\n' ∉ raw)
      (bytes : rx ++ received used = raw ++ '\n' :: rx') :
      Framed script rx (some (stripCR raw), rx', rest)
  | nothing (used : List RecvResult) {rest : List RecvResult}
      {rx' : List Char}
      (script_eq : script = used ++ rest) (bytes : rx ++ received used = rx')
      (progress : used ≠ [] ∨ script = [] ∧ '\n' ∉ rx) :
      Framed script rx (none, rx', rest)

/-- Up to the first newline, and after it. -/
theorem takeWhile_newline {rx : List Char} (hmem : '\n' ∈ rx) :
    '\n' ∉ rx.takeWhile (· ≠ '\n') ∧
      rx = rx.takeWhile (· ≠ '\n') ++
        '\n' :: rx.drop ((rx.takeWhile (· ≠ '\n')).length + 1) := by
  obtain ⟨raw, rest, rfl, hraw⟩ := List.eq_append_cons_of_mem hmem
  have htake : (raw ++ '\n' :: rest).takeWhile (· ≠ '\n') = raw := by
    rw [List.takeWhile_append_of_pos]
    · simp
    · intro a ha
      simp only [ne_eq, decide_eq_true_eq]
      exact fun h => hraw (h ▸ ha)
  rw [htake]
  refine ⟨hraw, ?_⟩
  simp

theorem readLoop_framed_of_mem (script : List RecvResult) {rx : List Char}
    (hmem : '\n' ∈ rx) : Framed script rx (readLoop script rx) := by
  obtain ⟨hraw, hrx⟩ := takeWhile_newline hmem
  unfold readLoop
  simp only [hmem, ↓reduceIte]
  refine .line [] rfl hraw ?_
  simpa [received] using hrx

theorem readLoop_framed (script : List RecvResult) (rx : List Char) :
    Framed script rx (readLoop script rx) := by
  induction script generalizing rx with
  | nil =>
      by_cases hmem : '\n' ∈ rx
      · exact readLoop_framed_of_mem [] hmem
      · unfold readLoop
        simp only [hmem, ↓reduceIte]
        exact .nothing [] rfl (by simp [received])
          (Or.inr ⟨rfl, hmem⟩)
  | cons result rest ih =>
      by_cases hmem : '\n' ∈ rx
      · exact readLoop_framed_of_mem (result :: rest) hmem
      · unfold readLoop
        simp only [hmem, ↓reduceIte]
        cases result with
        | eof =>
            exact .nothing [.eof] rfl (by simp [received])
              (Or.inl (by simp))
        | failed =>
            exact .nothing [.failed] rfl (by simp [received])
              (Or.inl (by simp))
        | data packet =>
            simp only
            split
            · exact .nothing [.data packet] rfl (by simp [received])
                (Or.inl (by simp))
            · have hrest := ih (rx ++ packet.bytes)
              generalize readLoop rest (rx ++ packet.bytes) = outcome at hrest ⊢
              cases hrest with
              | line used script_eq no_newline bytes =>
                  subst script_eq
                  refine .line (.data packet :: used) rfl no_newline ?_
                  rw [← bytes]
                  simp [received]
              | nothing used script_eq bytes progress =>
                  subst script_eq
                  refine .nothing (.data packet :: used) rfl ?_
                    (Or.inl (by simp))
                  rw [← bytes]
                  simp [received]

/-- The bytes still to be cut into lines: the calls that can make progress. -/
def workLeft (script : List RecvResult) (rx : List Char) : Nat :=
  script.length + (rx ++ received script).count '\n'

/-- Every call makes progress while there is anything left to do. -/
theorem Framed.workLeft_lt {script rest : List RecvResult}
    {rx rx' : List Char} {line : Option (List Char)}
    (hframed : Framed script rx (line, rx', rest)) :
    workLeft rest rx' < workLeft script rx ∨
      script = [] ∧ rest = [] ∧ rx' = rx ∧ '\n' ∉ rx := by
  cases hframed with
  | line used script_eq no_newline bytes =>
      subst script_eq
      left
      simp only [workLeft, List.length_append, received_append,
        ← List.append_assoc, bytes]
      simp only [List.append_assoc, List.cons_append, List.count_append,
        List.count_cons_self]
      omega
  | nothing used script_eq bytes progress =>
      subst script_eq bytes
      rcases progress with hused | ⟨hnil, hrx⟩
      · left
        have hlength := List.length_pos_iff.mpr hused
        simp only [workLeft, List.length_append, received_append,
          ← List.append_assoc]
        omega
      · right
        obtain ⟨rfl, rfl⟩ := List.append_eq_nil_iff.mp hnil
        exact ⟨rfl, rfl, by simp [received], hrx⟩

theorem readLine_framed {c : TcpClient} (hopen : c.isOpen = true)
    (script : List RecvResult) :
    ∃ line, (c.readLine script).1 = line.map String.ofList ∧
      (c.readLine script).2.1.isOpen = true ∧
      Framed script c.rx
        (line, (c.readLine script).2.1.rx, (c.readLine script).2.2) := by
  refine ⟨(readLoop script c.rx).1, ?_⟩
  unfold readLine
  simp only [hopen, ↓reduceIte]
  exact ⟨trivial, hopen, readLoop_framed script c.rx⟩

/-- The lines returned and the bytes kept are the bytes received. -/
theorem readLines_bytes (n : Nat) {c : TcpClient} (hopen : c.isOpen = true)
    (script : List RecvResult) :
    ∃ (used : List RecvResult) (raws : List (List Char)),
      script = used ++ (readLines n c script).2.2 ∧
      (∀ raw ∈ raws, '\n' ∉ raw) ∧
      List.Forall₂ ReadAs raws (readLines n c script).1 ∧
      c.rx ++ received used =
        raws.flatMap (fun raw => raw ++ ['\n']) ++
          (readLines n c script).2.1.rx := by
  induction n generalizing c script with
  | zero => exact ⟨[], [], rfl, nofun, .nil, by simp [readLines, received]⟩
  | succ n ih =>
      obtain ⟨line, hline, hopen', hframed⟩ := readLine_framed hopen script
      obtain ⟨used', raws', hscript', hraws', hlines', hbytes'⟩ :=
        ih hopen' (c.readLine script).2.2
      simp only [readLines]
      generalize (c.readLine script).2.1 = c' at *
      generalize (c.readLine script).2.2 = rest at *
      cases hframed with
      | line used script_eq no_newline bytes =>
          rename_i raw
          refine ⟨used ++ used', raw :: raws', ?_, ?_, ?_, ?_⟩
          · rw [script_eq, List.append_assoc, ← hscript']
          · exact List.forall_mem_cons.mpr ⟨no_newline, hraws'⟩
          · rw [hline]
            exact .cons (readAs_stripCR raw) hlines'
          · rw [received_append, ← List.append_assoc, bytes, List.append_assoc,
              List.cons_append, hbytes']
            simp
      | nothing used script_eq bytes progress =>
          refine ⟨used ++ used', raws', ?_, hraws', ?_, ?_⟩
          · rw [script_eq, List.append_assoc, ← hscript']
          · rw [hline]
            exact hlines'
          · rw [received_append, ← List.append_assoc, bytes, hbytes']

/-- Enough calls leave no line behind. -/
theorem readLines_drained (n : Nat) {c : TcpClient} (hopen : c.isOpen = true)
    (script : List RecvResult) (henough : workLeft script c.rx ≤ n) :
    (readLines n c script).2.2 = [] ∧
      '\n' ∉ (readLines n c script).2.1.rx := by
  induction n generalizing c script with
  | zero =>
      have hzero : workLeft script c.rx = 0 := by omega
      simp only [workLeft, Nat.add_eq_zero_iff, List.length_eq_zero_iff,
        List.count_eq_zero] at hzero
      obtain ⟨rfl, hrx⟩ := hzero
      exact ⟨rfl, fun h => hrx (List.mem_append_left _ h)⟩
  | succ n ih =>
      obtain ⟨line, -, hopen', hframed⟩ := readLine_framed hopen script
      have hleft : workLeft (c.readLine script).2.2
          (c.readLine script).2.1.rx ≤ n := by
        rcases hframed.workLeft_lt with hlt | ⟨-, hrest, hrx, hnone⟩
        · omega
        · rw [hrest, hrx]
          simp only [workLeft, received, List.flatMap_nil, List.append_nil,
            List.length_nil, List.count_eq_zero.mpr hnone]
          omega
      exact ih hopen' _ hleft

/-- However the stream of a connection is cut into packets, with failed
receives in between: the lines returned are the first terminated segments of
the stream, in order, each without at most one carriage return at its end; the
segments and `rx_` are at every point exactly the bytes received; and enough
calls return every segment. -/
theorem readLines_eq_segments (old : TcpClient) (sock n : Nat)
    (script : List RecvResult) :
    let calls := readLines n (old.connect (some sock)).2 script
    ∃ (used : List RecvResult) (raws : List (List Char)),
      script = used ++ calls.2.2 ∧
      raws <+: segments '\n' (received script) ∧
      List.Forall₂ ReadAs raws calls.1 ∧
      (∀ raw ∈ raws, '\n' ∉ raw) ∧
      received used =
        raws.flatMap (fun raw => raw ++ ['\n']) ++ calls.2.1.rx ∧
      (script.length + (segments '\n' (received script)).length ≤ n →
        raws = segments '\n' (received script)) := by
  intro calls
  have hopen : (old.connect (some sock)).2.isOpen = true := rfl
  obtain ⟨used, raws, hscript, hraws, hlines, hbytes⟩ :=
    readLines_bytes n hopen script
  -- the segments of the whole stream are the lines returned and the rest
  have hsegments : segments '\n' (received script) =
      raws ++ segments '\n' (calls.2.1.rx ++ received calls.2.2) := by
    have hstream : received script =
        raws.flatMap (fun raw => raw ++ ['\n']) ++
          (calls.2.1.rx ++ received calls.2.2) := by
      rw [← List.append_assoc, ← hbytes]
      conv_lhs => rw [hscript, received_append]
      rfl
    rw [hstream, segments_flatMap_append hraws]
  refine ⟨used, raws, hscript, ?_, hlines, hraws, hbytes, fun henough => ?_⟩
  · rw [hsegments]
    exact List.prefix_append _ _
  · obtain ⟨hrest, hrx⟩ := readLines_drained n hopen script (by
      rw [length_segments] at henough
      exact henough)
    have hdone : segments '\n' (calls.2.1.rx ++ received calls.2.2) = [] := by
      refine segments_of_not_mem ?_
      change '\n' ∉ calls.2.1.rx ++ received (readLines n _ script).2.2
      rw [hrest]
      simpa [received] using hrx
    rw [hsegments, hdone, List.append_nil]

end TcpClient

end Minerby
