import TimeSignal.Decimal.Scan

/-!
# Numbers given as whole texts

A number may be given with a sign, with a point at either end of its digits, with an exponent, or as
one of the words for an infinity or for no number, in any case.

## Main definitions

* `Numeral.ofChars?`: the numeral without sign that is a whole text.
* `Binary32.ofString?`: the single-precision number that a text gives.
-/

namespace TimeSignal

namespace Numeral

/-- The numeral without sign that is a whole text.  It has a digit before or after the point. -/
def ofChars? (text : List Char) : Option Numeral :=
  let whole := text.takeWhile Char.isDigit
  let (fraction, rest) :=
    match text.dropWhile Char.isDigit with
    | '.' :: rest => (rest.takeWhile Char.isDigit, rest.dropWhile Char.isDigit)
    | rest => ([], rest)
  if whole.isEmpty && fraction.isEmpty then none
  else
    match exponentPart rest with
    | .ok none => if rest.isEmpty then some ⟨false, whole, fraction, none⟩ else none
    | .ok (some (sign, digits)) =>
      if rest.length = 1 + sign.toChars.length + digits.length then
        some ⟨false, whole, fraction, some (sign, digits)⟩
      else none
    | .error () => none

end Numeral

namespace Binary32

/-- The number without sign that a text gives. -/
def ofUnsigned? (text : List Char) : Option Binary32 :=
  let word := String.ofList (text.map Char.toLower)
  if word = "nan" then some nan
  else if word = "inf" ∨ word = "infinity" then some (infinite false)
  else (Numeral.ofChars? text).map Numeral.toBinary32

/-- The number that a text gives. -/
def ofString? (text : String) : Option Binary32 :=
  match text.toList with
  | '+' :: rest => ofUnsigned? rest
  | '-' :: rest => (ofUnsigned? rest).map neg
  | rest => ofUnsigned? rest

end Binary32

end TimeSignal
