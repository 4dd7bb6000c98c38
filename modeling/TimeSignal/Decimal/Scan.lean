import TimeSignal.Decimal.Numeral

/-!
# Numbers at the start of a text

A numeral without sign is digits, then perhaps a point and digits, then perhaps the letter of an
exponent with a sign and digits.  A point counts only if a digit follows it.

## Main definitions

* `Numeral.leading`: the numeral at the start of a text.
* `Numeral.fractionDigits`, `Numeral.exponentPart`: two of its parts.
-/

namespace TimeSignal

namespace Numeral

/-- The digits after a point, if the text starts with a point and a digit. -/
def fractionDigits (text : List Char) : List Char :=
  match text with
  | '.' :: rest => rest.takeWhile Char.isDigit
  | _ => []

/-- The sign at the start of a text. -/
def leadingSign (text : List Char) : ExponentSign :=
  match text with
  | '+' :: _ => .plus
  | '-' :: _ => .minus
  | _ => .unsigned

/-- The exponent part at the start of a text, if there is one; an error if it has no digits. -/
def exponentPart (text : List Char) : Except Unit (Option (ExponentSign × List Char)) :=
  match text with
  | c :: rest =>
    if c = 'e' ∨ c = 'E' then
      let sign := leadingSign rest
      let digits := (rest.drop sign.toChars.length).takeWhile Char.isDigit
      if digits.isEmpty then .error () else .ok (some (sign, digits))
    else .ok none
  | [] => .ok none

/-- The numeral at the start of a text.  The error is the count of characters before an exponent
that has no digits. -/
def leading (text : List Char) : Except Nat Numeral :=
  let whole := text.takeWhile Char.isDigit
  let fraction := fractionDigits (text.drop whole.length)
  let mantissa : Numeral := ⟨false, whole, fraction, none⟩
  let width := mantissa.toChars.length
  match exponentPart (text.drop width) with
  | .ok exponent => .ok { mantissa with exponent }
  | .error () => .error width

end Numeral

end TimeSignal
