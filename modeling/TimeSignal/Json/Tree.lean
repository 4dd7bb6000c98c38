import TimeSignal.Json.Number
import TimeSignal.Json.Parse
import TimeSignal.Poly.Basic
import TimeSignal.Signal.Basic

/-!
# Signals and polynomial trees as JSON

A node without parts is the text of its tag; any other node is an object with its tag as the only
key.  Reading counts the brackets and braces that are open around a value: at most 127 may be.  The
value of a key that has no meaning is not looked at, so what it holds does not count.

## Main definitions

* `Signal.toJson`, `Poly.toJson`: the value of a tree.
* `Signal.ofJson?`, `Poly.ofJson?`: the tree of a value with a given number of levels to open.
* `Signal.jsonText`, `Signal.ofJsonText?`, `Poly.jsonText`, `Poly.ofJsonText?`: the same as text.
-/

namespace TimeSignal

namespace Json

/-- The number of brackets and braces that may be open at once. -/
def maxLevels : Nat := 127

/-- The text of a tag. -/
def tag (name : String) : Value := .text (some name)

/-- The object with one tag. -/
def tagged (name : String) (content : Value) : Value := .object [(some name, content)]

/-- The value of a key that occurs exactly once. -/
def field? (key : String) (members : List (Option String × Value)) : Option Value :=
  match members.filter fun member => member.1 = some key with
  | [(_, value)] => some value
  | _ => none

/-- All keys have content. -/
def keysReadable (members : List (Option String × Value)) : Bool :=
  members.all fun member => member.1.isSome

end Json

open Json (Value)

namespace Signal

/-- The value of a signal. -/
def toJson : Signal → Value
  | time => Json.tag "Symbol"
  | noise => Json.tag "Random"
  | const value => Json.tagged "Literal" (Json.ofBinary32 value)
  | add l r => Json.tagged "Add" (.array [l.toJson, r.toJson])
  | mul l r => Json.tagged "Multiply" (.array [l.toJson, r.toJson])
  | lerp x y s => Json.tagged "Lerp"
    (.object [(some "x", x.toJson), (some "y", y.toJson), (some "s", s.toJson)])

/-- The signal without parts that a tag names. -/
def ofTag? (name : String) : Option Signal :=
  if name = "Symbol" then some time
  else if name = "Random" then some noise
  else none

/-- The signal of a value, with the number of levels that may still be opened. -/
def ofJson? : Nat → Value → Option Signal
  | _, .text (some name) => ofTag? name
  | 1, .object [(some name, content)] =>
    match content with
    | .null => ofTag? name
    | _ => if name = "Literal" then (Json.toBinary32? content).map const else none
  | levels + 2, .object [(some name, content)] =>
    match content with
    | .null => ofTag? name
    | .array [l, r] => do
      let left ← ofJson? levels l
      let right ← ofJson? levels r
      if name = "Add" then some (add left right)
      else if name = "Multiply" then some (mul left right)
      else none
    | .array [x, y, s] => do
      let start ← ofJson? levels x
      let stop ← ofJson? levels y
      let weight ← ofJson? levels s
      if name = "Lerp" then some (lerp start stop weight) else none
    | .object members => do
      let x ← Json.field? "x" members
      let y ← Json.field? "y" members
      let s ← Json.field? "s" members
      let start ← ofJson? levels x
      let stop ← ofJson? levels y
      let weight ← ofJson? levels s
      if name = "Lerp" ∧ Json.keysReadable members then some (lerp start stop weight) else none
    | _ => if name = "Literal" then (Json.toBinary32? content).map const else none
  | _, _ => none

/-- The JSON text of a signal. -/
def jsonText (e : Signal) : String := e.toJson.render

/-- The signal of a JSON text. -/
def ofJsonText? (text : String) : Option Signal :=
  (Json.parse? text).bind (ofJson? Json.maxLevels)

end Signal

namespace Poly

/-- The value of a polynomial: a number at degree zero, else a list of numbers. -/
def cubicJson (p : Cubic) : Value :=
  match p.coeffs with
  | [a] => Json.ofBinary32 a
  | coeffs => .array (coeffs.map Json.ofBinary32)

/-- The value of a polynomial tree. -/
def toJson : Poly → Value
  | concrete p => Json.tagged ("Degree" ++ toString p.degree) (cubicJson p)
  | noise => Json.tag "Random"
  | add l r => Json.tagged "Add" (.array [l.toJson, r.toJson])
  | mul l r => Json.tagged "Multiply" (.array [l.toJson, r.toJson])

/-- The tree without parts that a tag names. -/
def ofTag? (name : String) : Option Poly := if name = "Random" then some noise else none

/-- The tree of a list of coefficients, if the tag names their degree. -/
def ofCoefficientJson? (name : String) (items : List Value) : Option Poly :=
  if 2 ≤ items.length ∧ name = "Degree" ++ toString (items.length - 1) then
    (Json.toNumbers? items).bind ofCoefficients?
  else none

/-- The tree of a number, if the tag names degree zero. -/
def ofNumberJson? (name : String) (content : Value) : Option Poly :=
  if name = "Degree0" then (Json.toBinary32? content).map fun a => concrete (Cubic.constant a)
  else none

/-- The polynomial tree of a value, with the number of levels that may still be opened. -/
def ofJson? : Nat → Value → Option Poly
  | _, .text (some name) => ofTag? name
  | 1, .object [(some name, content)] =>
    match content with
    | .null => ofTag? name
    | _ => ofNumberJson? name content
  | levels + 2, .object [(some name, content)] =>
    match content with
    | .null => ofTag? name
    | .array items =>
      match items with
      | [l, r] =>
        if name = "Add" ∨ name = "Multiply" then do
          let left ← ofJson? levels l
          let right ← ofJson? levels r
          some (if name = "Add" then add left right else mul left right)
        else ofCoefficientJson? name [l, r]
      | _ => ofCoefficientJson? name items
    | _ => ofNumberJson? name content
  | _, _ => none

/-- The JSON text of a polynomial tree. -/
def jsonText (p : Poly) : String := p.toJson.render

/-- The polynomial tree of a JSON text. -/
def ofJsonText? (text : String) : Option Poly :=
  (Json.parse? text).bind (ofJson? Json.maxLevels)

end Poly

/-- The JSON text of a list of numbers. -/
def Json.numbersText (xs : List Binary32) : String :=
  (Value.array (xs.map Json.ofBinary32)).render

end TimeSignal
