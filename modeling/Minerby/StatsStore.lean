/-
The lifetime statistics file.  `save` writes a temporary file, removes the old
one and renames; nothing looks at whether the write was complete, and `load`
takes a file that is missing or does not parse for zeros.
-/
import Minerby.Json
import Minerby.StepSystem

namespace Minerby

/-- Mining totals that persist across restarts.  A finite double is the
rational it denotes. -/
structure LifetimeStats where
  accepted : UInt64 := 0
  rejected : UInt64 := 0
  hashes : UInt64 := 0
  uptime : ℚ := 0
  sessions : UInt64 := 0
deriving Repr, DecidableEq

/-- What the statistics need of the library and the machine: `in >> j`, which
parses one value (`none` when it throws), `j.dump(2)`, the addition of doubles,
and what becomes of a float that `unsigned long long` has no value for, which
the language leaves open. -/
structure StatsText where
  parse : List Char → Option Json
  dump : Json → List Char
  addDouble : ℚ → ℚ → ℚ
  outOfRange : ℚ → UInt64

/-- `get<unsigned long long>()` -/
def Json.getUInt64 (outOfRange : ℚ → UInt64) : Json → Except Fault UInt64
  | .int n => .ok (UInt64.ofInt n)
  | .float x =>
      match convertFloat 0 (2 ^ 64 - 1) x with
      | .ok n => .ok (UInt64.ofInt n)
      | .error _ => .ok (outOfRange x)
  | .bool b => .ok (if b then 1 else 0)
  | _ => .error (.thrown "type_error.302: type must be number")

namespace LifetimeStats

/-- The object that `save` writes; an object's members are in key order. -/
def toJson (s : LifetimeStats) : Json :=
  .obj [("accepted", .int s.accepted.toNat), ("hashes", .int s.hashes.toNat),
    ("rejected", .int s.rejected.toNat), ("sessions", .int s.sessions.toNat),
    ("uptime_s", .float s.uptime)]

/-- The reads inside the `try` of `load`. -/
def ofJson (text : StatsText) (j : Json) : Except Fault LifetimeStats := do
  let accepted ← j.value (Json.getUInt64 text.outOfRange) 0 "accepted"
  let rejected ← j.value (Json.getUInt64 text.outOfRange) 0 "rejected"
  let hashes ← j.value (Json.getUInt64 text.outOfRange) 0 "hashes"
  let uptime ← j.value Json.getDouble 0 "uptime_s"
  let sessions ← j.value (Json.getUInt64 text.outOfRange) 0 "sessions"
  return { accepted, rejected, hashes, uptime, sessions }

theorem ofInt_toNat (n : UInt64) : UInt64.ofInt n.toNat = n := by
  have hlt := n.toNat_lt
  have hmod : (n.toNat : Int) % 2 ^ 64 = n.toNat := by omega
  rw [UInt64.ofInt, hmod, Int.toNat_natCast, UInt64.ofNat_toNat]

/-- What was written is read back. -/
theorem ofJson_toJson (text : StatsText) (s : LifetimeStats) :
    ofJson text s.toJson = .ok s := by
  simp [ofJson, toJson, Json.value, Json.find?, Json.getUInt64, Json.getDouble,
    bind, Except.bind, pure, Except.pure, ofInt_toNat]

end LifetimeStats

namespace StatsStore

/-- The contents of the two files, where they exist. -/
structure Disk where
  path : Option (List Char) := none
  tmp : Option (List Char) := none
deriving Repr, DecidableEq

/-- `load`, from the contents of the file. -/
def load (text : StatsText) (path : Option (List Char)) : LifetimeStats :=
  match path with
  | none => {}
  | some contents =>
      match text.parse contents with
      | none => {}
      | some j =>
          match LifetimeStats.ofJson text j with
          | .ok s => s
          | .error _ => {}

/-- The text that `save` writes: `j.dump(2) << '\n'`. -/
def contents (text : StatsText) (s : LifetimeStats) : List Char :=
  text.dump s.toJson ++ ['\n']

/-- Where `save` is. -/
inductive SavePc where
  | opening
  | writing
  | closing (written : Nat)
  | removing
  | renaming
  | returned
deriving Repr, DecidableEq

/-- How an operation of `save` turns out.  The stream is buffered, so a part of
the text may reach the file only when it is closed; `count` is how many
characters the operation gets into the file, which is fewer than there are when
it fails. -/
inductive SaveLabel where
  | opened (ok : Bool)
  | wrote (count : Nat)
  | closed (count : Nat)
  | removed (ok : Bool)
  | renamed (ok : Bool)
deriving Repr, DecidableEq

structure Saving where
  disk : Disk
  pc : SavePc := .opening
deriving Repr, DecidableEq

/-- One operation of `save`.  Only the results of opening and renaming are
looked at; the process may be killed between any two steps. -/
def saveStep (text : StatsText) (s : LifetimeStats) (saving : Saving)
    (label : SaveLabel) : Option Saving :=
  match saving.pc, label with
  | .opening, .opened true =>
      some ⟨{ saving.disk with tmp := some [] }, .writing⟩
  | .opening, .opened false => some { saving with pc := .returned }
  | .writing, .wrote count =>
      some ⟨{ saving.disk with tmp := some ((contents text s).take count) },
        .closing count⟩
  | .closing written, .closed count =>
      some ⟨{ saving.disk with
        tmp := some ((contents text s).take (written + count)) }, .removing⟩
  | .removing, .removed true =>
      some ⟨{ saving.disk with path := none }, .renaming⟩
  | .removing, .removed false => some { saving with pc := .renaming }
  | .renaming, .renamed true =>
      some ⟨{ path := saving.disk.tmp, tmp := none }, .returned⟩
  | .renaming, .renamed false => some { saving with pc := .returned }
  | _, _ => none

/-- The text written for `s` is parsed back. -/
def RoundTrips (text : StatsText) (s : LifetimeStats) : Prop :=
  text.parse (contents text s) = some s.toJson

/-- What the JSON library promises of the statistics `s`: the text written is
parsed back, also without its last newline, and a part of it that lacks the
closing brace is not parsed. -/
structure Readable (text : StatsText) (s : LifetimeStats) : Prop where
  whole : RoundTrips text s
  bare : text.parse (text.dump s.toJson) = some s.toJson
  cut : ∀ count, count < (text.dump s.toJson).length →
    text.parse ((text.dump s.toJson).take count) = none

/-- How many characters reach the temporary file. -/
def written : List SaveLabel → Nat
  | [] => 0
  | .wrote count :: rest => count + written rest
  | .closed count :: rest => count + written rest
  | _ :: rest => written rest

/-- Every way an execution of `save` can go, whole or cut short, with the
operations that took place. -/
inductive Saved (text : StatsText) (s : LifetimeStats) (disk : Disk) :
    List SaveLabel → Saving → Prop
  | begun : Saved text s disk [] ⟨disk, .opening⟩
  | gaveUp : Saved text s disk [.opened false] ⟨disk, .returned⟩
  | opened :
      Saved text s disk [.opened true] ⟨{ disk with tmp := some [] }, .writing⟩
  | wrote (n : Nat) :
      Saved text s disk [.opened true, .wrote n]
        ⟨{ disk with tmp := some ((contents text s).take n) }, .closing n⟩
  | closed (n m : Nat) :
      Saved text s disk [.opened true, .wrote n, .closed m]
        ⟨{ disk with tmp := some ((contents text s).take (n + m)) }, .removing⟩
  | removed (n m : Nat) :
      Saved text s disk [.opened true, .wrote n, .closed m, .removed true]
        ⟨{ path := none, tmp := some ((contents text s).take (n + m)) },
          .renaming⟩
  | kept (n m : Nat) :
      Saved text s disk [.opened true, .wrote n, .closed m, .removed false]
        ⟨{ disk with tmp := some ((contents text s).take (n + m)) }, .renaming⟩
  | renamed (n m : Nat) (removed : Bool) :
      Saved text s disk
        [.opened true, .wrote n, .closed m, .removed removed, .renamed true]
        ⟨{ path := some ((contents text s).take (n + m)), tmp := none },
          .returned⟩
  | lost (n m : Nat) :
      Saved text s disk
        [.opened true, .wrote n, .closed m, .removed true, .renamed false]
        ⟨{ path := none, tmp := some ((contents text s).take (n + m)) },
          .returned⟩
  | unchanged (n m : Nat) :
      Saved text s disk
        [.opened true, .wrote n, .closed m, .removed false, .renamed false]
        ⟨{ disk with tmp := some ((contents text s).take (n + m)) },
          .returned⟩

theorem Saved.step {text : StatsText} {s : LifetimeStats} {disk : Disk}
    {labels : List SaveLabel} {saving saving' : Saving} {label : SaveLabel}
    (hsaved : Saved text s disk labels saving)
    (hstep : saveStep text s saving label = some saving') :
    Saved text s disk (labels ++ [label]) saving' := by
  cases hsaved with
  | begun =>
      cases label with
      | opened ok =>
          cases ok with
          | true =>
              obtain rfl := Option.some.inj hstep
              exact .opened
          | false =>
              obtain rfl := Option.some.inj hstep
              exact .gaveUp
      | _ => cases hstep
  | opened =>
      cases label with
      | wrote n =>
          obtain rfl := Option.some.inj hstep
          exact .wrote n
      | _ => cases hstep
  | wrote n =>
      cases label with
      | closed m =>
          obtain rfl := Option.some.inj hstep
          exact .closed n m
      | _ => cases hstep
  | closed n m =>
      cases label with
      | removed ok =>
          cases ok with
          | true =>
              obtain rfl := Option.some.inj hstep
              exact .removed n m
          | false =>
              obtain rfl := Option.some.inj hstep
              exact .kept n m
      | _ => cases hstep
  | removed n m =>
      cases label with
      | renamed ok =>
          cases ok with
          | true =>
              obtain rfl := Option.some.inj hstep
              exact .renamed n m true
          | false =>
              obtain rfl := Option.some.inj hstep
              exact .lost n m
      | _ => cases hstep
  | kept n m =>
      cases label with
      | renamed ok =>
          cases ok with
          | true =>
              obtain rfl := Option.some.inj hstep
              exact .renamed n m false
          | false =>
              obtain rfl := Option.some.inj hstep
              exact .unchanged n m
      | _ => cases hstep
  | _ => cases label <;> cases hstep

theorem saved_of_run {text : StatsText} {s : LifetimeStats} {disk : Disk}
    {labels : List SaveLabel} {saving : Saving}
    (hrun : Run (saveStep text s) anyLabel ⟨disk, .opening⟩ labels saving) :
    Saved text s disk labels saving := by
  induction hrun with
  | nil => exact .begun
  | snoc label run allowed taken ih => exact ih.step taken

theorem load_contents {text : StatsText} {s : LifetimeStats}
    (hround : RoundTrips text s) :
    load text (some (contents text s)) = s := by
  unfold RoundTrips at hround
  simp only [load, hround, LifetimeStats.ofJson_toJson]

/-- A file that holds only a part of the text: the statistics when no more than
the newline is missing, zeros otherwise. -/
theorem load_take {text : StatsText} {s : LifetimeStats}
    (hreadable : Readable text s) (count : Nat) :
    load text (some ((contents text s).take count)) =
      if (text.dump s.toJson).length ≤ count then s else {} := by
  have hlength : (contents text s).length = (text.dump s.toJson).length + 1 := by
    simp [contents]
  split
  · rename_i hle
    rcases Nat.eq_or_lt_of_le hle with rfl | hlt
    · have hbare : (contents text s).take (text.dump s.toJson).length =
          text.dump s.toJson := by
        simp [contents]
      simp only [hbare, load, hreadable.bare, LifetimeStats.ofJson_toJson]
    · rw [List.take_of_length_le (by omega)]
      exact load_contents hreadable.whole
  · rename_i hlt
    have hcut : (contents text s).take count =
        (text.dump s.toJson).take count := by
      rw [contents, List.take_append_of_le_length (by omega)]
    rw [hcut]
    simp only [load, hreadable.cut count (by omega)]

/-- After any execution of `save`, whole or cut short, `load` gives the old
statistics or the new ones exactly when the old file is still there and not
replaced, or it was replaced by the whole text, or zeros is what one of the two
is. -/
theorem load_after_save_iff {text : StatsText} {old s : LifetimeStats}
    (hold : Readable text old) (hnew : Readable text s)
    {tmp : Option (List Char)} {labels : List SaveLabel} {saving : Saving}
    (hrun : Run (saveStep text s) anyLabel
      ⟨⟨some (contents text old), tmp⟩, .opening⟩ labels saving) :
    (load text saving.disk.path = old ∨ load text saving.disk.path = s) ↔
      (.removed true ∉ labels ∧ .renamed true ∉ labels) ∨
        (.renamed true ∈ labels ∧
          (text.dump s.toJson).length ≤ written labels) ∨
        old = {} ∨ s = {} := by
  have hkept := load_contents hold.whole
  have hgone : ({} = old ∨ {} = s) ↔ (old = {} ∨ s = {}) := by
    rw [eq_comm, @eq_comm _ {} s]
  cases saved_of_run hrun with
  | removed n m => simpa [load] using hgone
  | lost n m => simpa [load] using hgone
  | renamed n m removed =>
      simp only [load_take hnew, written]
      by_cases hwhole : (text.dump s.toJson).length ≤ n + m
      · simp [hwhole]
      · simp only [hwhole, ↓reduceIte]
        simpa [hwhole] using hgone
  | _ => simp [hkept]

/-- `j.dump(2)` of a flat object of integers, where the only float is 0. -/
def indented : Json → List Char
  | .obj members =>
      "\x7b\n".toList ++ ((members.map fun member =>
        "  \"".toList ++ member.1.toList ++ "\": ".toList ++
          member.2.render).intersperse ",\n".toList).flatten ++ "\n\x7d".toList
  | j => j.render

/-- The library on the texts of the given statistics only: a stream that begins
with such a text gives its value. -/
def textOf (known : List LifetimeStats) : StatsText where
  parse contents := (known.find? fun s =>
    (indented s.toJson).isPrefixOf contents).map LifetimeStats.toJson
  dump := indented
  addDouble := (· + ·)
  outOfRange _ := 0

def oneSession : LifetimeStats := { accepted := 3, hashes := 160, sessions := 1 }

def twoSessions : LifetimeStats := { accepted := 5, hashes := 320, sessions := 2 }

def sessionsText : StatsText := textOf [oneSession, twoSessions]

theorem readable_of_find {known : List LifetimeStats} {s : LifetimeStats}
    (hwhole : known.find? (fun t => (indented t.toJson).isPrefixOf
      (contents (textOf known) s)) = some s)
    (hbare : known.find? (fun t => (indented t.toJson).isPrefixOf
      (indented s.toJson)) = some s)
    (hcut : ∀ count < (indented s.toJson).length,
      known.find? (fun t => (indented t.toJson).isPrefixOf
        ((indented s.toJson).take count)) = none) :
    Readable (textOf known) s := by
  refine ⟨?_, ?_, fun count hcount => ?_⟩
  · simp only [RoundTrips, textOf] at hwhole ⊢
    rw [hwhole]
    rfl
  · simp only [textOf]
    rw [hbare]
    rfl
  · simp only [textOf] at hcount ⊢
    rw [hcut count hcount]
    rfl

theorem oneSession_readable : Readable sessionsText oneSession :=
  readable_of_find (by decide +kernel) (by decide +kernel) (by decide +kernel)

theorem twoSessions_readable : Readable sessionsText twoSessions :=
  readable_of_find (by decide +kernel) (by decide +kernel) (by decide +kernel)

/-- A save in which every operation succeeds. -/
def wholeSave (s : LifetimeStats) : List SaveLabel :=
  [.opened true, .wrote (contents sessionsText s).length, .closed 0,
    .removed true, .renamed true]

/-- After a whole save the new statistics are loaded. -/
theorem whole_save_loads :
    ∃ saving, Run (saveStep sessionsText twoSessions) anyLabel
        ⟨⟨some (contents sessionsText oneSession), none⟩, .opening⟩
        (wholeSave twoSessions) saving ∧
      (load sessionsText saving.disk.path = oneSession ∨
        load sessionsText saving.disk.path = twoSessions) := by
  have hreplay : (replay (saveStep sessionsText twoSessions) anyLabel
      ⟨⟨some (contents sessionsText oneSession), none⟩, .opening⟩
      (wholeSave twoSessions)).isSome = true := by
    decide +kernel
  obtain ⟨saving, hsaving⟩ := Option.isSome_iff_exists.mp hreplay
  have hrun := run_of_replay hsaving
  refine ⟨saving, hrun,
    (load_after_save_iff oneSession_readable twoSessions_readable hrun).mpr ?_⟩
  exact Or.inr (Or.inl ⟨by decide +kernel, by decide +kernel⟩)

/-- Killed between `remove` and `rename`: neither the old nor the new
statistics are left, and zeros are loaded. -/
theorem killed_before_rename_loses :
    ∃ saving, Run (saveStep sessionsText twoSessions) anyLabel
        ⟨⟨some (contents sessionsText oneSession), none⟩, .opening⟩
        ((wholeSave twoSessions).take 4) saving ∧
      load sessionsText saving.disk.path = {} ∧
      load sessionsText saving.disk.path ≠ oneSession ∧
      load sessionsText saving.disk.path ≠ twoSessions := by
  have hreplay : (replay (saveStep sessionsText twoSessions) anyLabel
      ⟨⟨some (contents sessionsText oneSession), none⟩, .opening⟩
      ((wholeSave twoSessions).take 4)).any
        (fun saving => saving.disk.path = none) = true := by
    decide +kernel
  obtain ⟨saving, hsaving, hnone⟩ := (Option.any_eq_true _ _).mp hreplay
  refine ⟨saving, run_of_replay hsaving, ?_⟩
  rw [of_decide_eq_true hnone]
  exact ⟨rfl, by decide, by decide⟩

end StatsStore

end Minerby
