/-
JSON values and the accessors of the JSON library the clients use, with the
failures the library documents: a type mismatch or a missing key throws, and a
missing key read through the const subscript operator has no defined result.
-/
import Minerby.StratumWork

namespace Minerby

/-- A parsed value.  Members of an object are looked up by their first
occurrence. -/
inductive Json where
  | null
  | bool (b : Bool)
  | int (n : Int)
  | float (x : ℚ)
  | str (s : String)
  | arr (items : List Json)
  | obj (members : List (String × Json))

namespace Json

/-- The member `key` of an object. -/
def find? (key : String) : Json → Option Json
  | .obj members => (members.find? fun m => m.1 == key).map Prod.snd
  | _ => none

/-- `j.value(key, fallback)`, with the conversion of a present member. -/
def value {α : Type} (get : Json → Except Fault α) (fallback : α)
    (key : String) : Json → Except Fault α
  | .obj members =>
      match (Json.obj members).find? key with
      | some member => get member
      | none => .ok fallback
  | _ => .error (.thrown "type_error.306: cannot use value()")

/-- `j.at(key)` -/
def at? (key : String) : Json → Except Fault Json
  | .obj members =>
      match (Json.obj members).find? key with
      | some member => .ok member
      | none => .error (.thrown "out_of_range.403: key not found")
  | _ => .error (.thrown "type_error.304: cannot use at()")

/-- `j[key]` on a const value. -/
def subscript (key : String) : Json → Except Fault Json
  | .obj members =>
      match (Json.obj members).find? key with
      | some member => .ok member
      | none => .error (.undefined "const operator[] with a missing key")
  | _ => .error (.thrown "type_error.305: cannot use operator[]")

/-- `get<std::string>()` -/
def getString : Json → Except Fault String
  | .str s => .ok s
  | _ => .error (.thrown "type_error.302: type must be string")

/-- Conversion of an integer to a 32-bit `int`, modulo `2 ^ 32`. -/
def toInt32 (n : Int) : Int := n.bmod (2 ^ 32)

/-- A float without its fraction. -/
def truncate (x : ℚ) : Int := x.num.tdiv x.den

/-- Conversion of a float to an integer type with the given range.  It has no
meaning for a value that is outside the range once the fraction is cut off. -/
def convertFloat (low high : Int) (x : ℚ) : Except Fault Int :=
  if low ≤ truncate x ∧ truncate x ≤ high then .ok (truncate x)
  else .error (.undefined "conversion of a float out of range")

/-- `get<int>()`, which also converts booleans and truncates floats. -/
def getInt : Json → Except Fault Int
  | .int n => .ok (toInt32 n)
  | .float x => convertFloat (-2 ^ 31) (2 ^ 31 - 1) x
  | .bool b => .ok (if b then 1 else 0)
  | _ => .error (.thrown "type_error.302: type must be number")

/-- `get<double>()` -/
def getDouble : Json → Except Fault ℚ
  | .int n => .ok n
  | .float x => .ok x
  | _ => .error (.thrown "type_error.302: type must be number")

/-- `get<json>()`, which converts anything. -/
def getJson (j : Json) : Except Fault Json := .ok j

/-- The member `key` if it is a string, else the empty string. -/
def stringMember (key : String) (j : Json) : String :=
  match j.find? key with
  | some (.str s) => s
  | _ => ""

/-- `is_object()` -/
def isObject : Json → Bool
  | .obj _ => true
  | _ => false

/-- `is_number()` -/
def isNumber : Json → Bool
  | .int _ => true
  | .float _ => true
  | _ => false

/-- What `get<int>()` does not throw on. -/
def isArithmetic : Json → Bool
  | .bool _ => true
  | j => j.isNumber

/-- Not a float outside the range of `int`. -/
def fitsInt : Json → Bool
  | .float x => decide (-2 ^ 31 ≤ truncate x ∧ truncate x ≤ 2 ^ 31 - 1)
  | _ => true

theorem getInt_returns {j : Json} :
    (∃ n, j.getInt = .ok n) ↔ j.isArithmetic = true ∧ j.fitsInt = true := by
  cases j with
  | float x =>
      simp only [getInt, convertFloat, isArithmetic, isNumber, fitsInt,
        true_and, decide_eq_true_eq]
      split <;> simp_all
  | _ => simp [getInt, isArithmetic, isNumber, fitsInt]

theorem getInt_undefined {j : Json} :
    (∃ what, j.getInt = .error (.undefined what)) ↔ j.fitsInt = false := by
  cases j with
  | float x =>
      simp only [getInt, convertFloat, fitsInt, decide_eq_false_iff_not]
      split <;> simp_all
  | _ => simp [getInt, fitsInt]

theorem at?_eq_ok {j member : Json} {key : String} :
    j.at? key = .ok member ↔ j.find? key = some member := by
  cases j with
  | obj members =>
      unfold at?
      cases hfind : (Json.obj members).find? key <;> simp [hfind]
  | _ => simp [at?, find?]

theorem subscript_eq_ok {j member : Json} {key : String} :
    j.subscript key = .ok member ↔ j.find? key = some member := by
  cases j with
  | obj members =>
      unfold subscript
      cases hfind : (Json.obj members).find? key <;> simp [hfind]
  | _ => simp [subscript, find?]

theorem getString_eq_ok {j : Json} {s : String} :
    j.getString = .ok s ↔ j = .str s := by
  cases j <;> simp [getString]

theorem value_getString_eq {j : Json} {key s : String}
    (hok : j.value getString "" key = .ok s) : j.stringMember key = s := by
  cases j with
  | obj members =>
      unfold stringMember
      unfold value at hok
      cases hfind : (Json.obj members).find? key with
      | none =>
          simp only [hfind, Except.ok.injEq] at hok
          exact hok
      | some member =>
          simp only [hfind] at hok
          obtain rfl := getString_eq_ok.mp hok
          rfl
  | _ => cases hok

end Json

/-- Text of a JSON value and back.  The library is external: the two functions
are parameters of everything that uses them. -/
structure JsonText where
  /-- `json::parse`, `none` when it throws. -/
  parse : String → Option Json
  dump : Json → String

mutual

/-- Compact text, for values without floats whose strings need no escape. -/
def Json.render : Json → List Char
  | .null => "null".toList
  | .bool b => if b then "true".toList else "false".toList
  | .int n => (toString n).toList
  | .float _ => "0.0".toList
  | .str s => '"' :: s.toList ++ ['"']
  | .arr items => '[' :: renderItems items ++ [']']
  | .obj members => '\x7b' :: renderMembers members ++ ['\x7d']

def Json.renderItems : List Json → List Char
  | [] => []
  | [item] => item.render
  | item :: rest => item.render ++ ',' :: renderItems rest

def Json.renderMembers : List (String × Json) → List Char
  | [] => []
  | [(key, member)] => '"' :: key.toList ++ '"' :: ':' :: member.render
  | (key, member) :: rest =>
      '"' :: key.toList ++ '"' :: ':' :: member.render ++ ',' ::
        renderMembers rest

end

/-- The library on the texts of the given messages only. -/
def JsonText.ofMessages (messages : List Json) : JsonText where
  parse line := messages.find? fun msg => String.ofList msg.render = line
  dump msg := String.ofList msg.render

/-- A computation inside a `try` whose handler takes every exception.  A step
without a meaning is not an exception. -/
def caught {α : Type} : Except Fault α → Except Fault (Option α)
  | .ok a => .ok (some a)
  | .error (.thrown _) => .ok none
  | .error (.undefined what) => .error (.undefined what)

theorem caught_eq_some {α : Type} {x : Except Fault α} {a : α} :
    caught x = .ok (some a) ↔ x = .ok a := by
  rcases x with (_ | _) | _ <;> simp [caught]

theorem caught_eq_none {α : Type} {x : Except Fault α} :
    caught x = .ok none ↔ ∃ what, x = .error (.thrown what) := by
  rcases x with (_ | _) | _ <;> simp [caught]

/-- No step of the computation is without a meaning. -/
def Defined {α : Type} (x : Except Fault α) : Prop :=
  ∀ what, x ≠ .error (.undefined what)

theorem caught_returns {α : Type} {x : Except Fault α} :
    (∃ r, caught x = .ok r) ↔ Defined x := by
  rcases x with (_ | _) | _ <;> simp [caught, Defined]

theorem Defined.bind {α β : Type} {x : Except Fault α}
    {f : α → Except Fault β} (hx : Defined x)
    (hf : ∀ a, x = .ok a → Defined (f a)) : Defined (x >>= f) := by
  cases x with
  | error fault =>
      rintro what ⟨⟩
      exact hx what rfl
  | ok a => exact hf a rfl

theorem Json.at?_defined (j : Json) (key : String) : Defined (j.at? key) := by
  intro what
  unfold at?
  split
  · split <;> simp
  · simp

theorem Json.getString_defined (j : Json) : Defined j.getString := by
  intro what
  cases j <;> simp [getString]

/-- What throws a `std::runtime_error` or returns is defined. -/
theorem mapError_defined {α : Type} (x : Except String α) :
    Defined (x.mapError Fault.thrown) := by
  intro what
  cases x <;> simp [Except.mapError]

/-- Parse the `params` array of `mining.notify`; `none` is any failure.  The
output parameter is assigned only on success. -/
def parseNotifyItems (p : List Json) : Except Fault (Option StratumJob) := do
  let item (i : Nat) : Json := p.getD i .null
  let jobId ← (item 0).getString
  let prevhash ← (item 1).getString
  let coinb1 ← (item 2).getString
  let coinb2 ← (item 3).getString
  match item 4 with
  | .arr nodes =>
      let merkleBranch ← nodes.mapM Json.getString
      let version ← (item 5).getString
      let nbits ← (item 6).getString
      let ntime ← (item 7).getString
      let cleanJobs := match item 8 with
        | .bool b => b
        | _ => false
      return some ⟨jobId, prevhash, coinb1, coinb2, merkleBranch, version,
        nbits, ntime, cleanJobs⟩
  | _ => return none

def parseNotify (p : Json) : Option StratumJob :=
  match p with
  | .arr items =>
      if items.length < 9 then none
      else
        match parseNotifyItems items with
        | .ok job => job
        | .error _ => none
  | _ => none

/-- Parse the result of `mining.subscribe`.  The output parameters are written
as the fields are read, so a rejected result may have written one or both. -/
def parseSubscribe (r : Json) (extranonce1 : String) (extranonce2Size : Int) :
    Except Fault (Bool × String × Int) :=
  match r with
  | .arr items =>
      if items.length < 3 then .ok (false, extranonce1, extranonce2Size)
      else do
        match ← caught (items.getD 1 .null).getString with
        | none => return (false, extranonce1, extranonce2Size)
        | some xn1 =>
            match ← caught (items.getD 2 .null).getInt with
            | none => return (false, xn1, extranonce2Size)
            | some size => return (decide (0 < size ∧ size ≤ 8), xn1, size)
  | _ => .ok (false, extranonce1, extranonce2Size)

end Minerby
