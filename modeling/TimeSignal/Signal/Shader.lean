import TimeSignal.Decimal.Style
import TimeSignal.Signal.Basic

/-!
# Shading-language text

A signal is printed as one infix expression in `t`, with every sum and product in parentheses.
Noise and constants that are not finite have no such text; a marker stands in their place.

## Main definitions

* `Shader`: a text with the number of markers in it.
* `Signal.shader`: the text of a signal.
-/

namespace TimeSignal

/-- A shading-language expression. -/
structure Shader where
  /-- The expression, on one line. -/
  chars : List Char
  /-- The number of markers in the expression. -/
  unsupported : Nat
deriving DecidableEq

namespace Shader

/-- The expression as a string. -/
def text (code : Shader) : String := String.ofList code.chars

/-- The expression holds no marker. -/
def isValid (code : Shader) : Bool := code.unsupported == 0

/-- The marker of a random draw. -/
def noiseMarker : List Char := "<random-not-supported>".toList

/-- The marker of a constant that is not finite. -/
def constMarker : List Char := "<non-finite-not-supported>".toList

/-- The least magnitude at which a whole number is written with an exponent, ten million. -/
def exponentThreshold : Binary32 := Binary32.ofNat 10000000

/-- The text of a finite constant.  It is positional, except that a large whole number takes an
exponent, since its digits alone would read as an integer that is too large. -/
def constant (value : Binary32) : List Char :=
  let digits := value.text .plain
  if !digits.contains '.' && exponentThreshold.numLe value.abs then value.text .exponential
  else digits

/-- Two expressions joined by an operator, in parentheses. -/
def infixed (operator : Char) (left right : Shader) : Shader where
  chars := '(' :: left.chars ++ [' ', operator, ' '] ++ right.chars ++ [')']
  unsupported := left.unsupported + right.unsupported

/-- A call of the blend function. -/
def blend (start stop weight : Shader) : Shader where
  chars := ['l', 'e', 'r', 'p', '('] ++ start.chars ++ [',', ' '] ++ stop.chars ++ [',', ' ']
    ++ weight.chars ++ [')']
  unsupported := start.unsupported + stop.unsupported + weight.unsupported

end Shader

namespace Signal

/-- The shading-language expression of a signal. -/
def shader : Signal → Shader
  | time => ⟨['t'], 0⟩
  | noise => ⟨Shader.noiseMarker, 1⟩
  | const value =>
    if value.isFinite then ⟨Shader.constant value, 0⟩ else ⟨Shader.constMarker, 1⟩
  | add l r => Shader.infixed '+' l.shader r.shader
  | mul l r => Shader.infixed '*' l.shader r.shader
  | lerp x y s => Shader.blend x.shader y.shader s.shader

end Signal

end TimeSignal
