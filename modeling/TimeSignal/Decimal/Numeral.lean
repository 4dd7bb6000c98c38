import TimeSignal.Binary32.Basic

/-!
# Written decimal numbers

A `Decimal` is a number `coefficient · 10 ^ exponent`.  A `Numeral` is such a number as it is
written: the digits before and after the point, and an exponent part if there is one.

## Main definitions

* `Decimal.toBinary32`: the nearest single-precision number.
* `Numeral.toChars`: the written form.
* `Numeral.toDecimal`: the magnitude that a written form denotes.
* `Numeral.toBinary32`: the nearest single-precision number, with the sign of the numeral.
-/

namespace TimeSignal

/-- The number `coefficient · 10 ^ exponent`. -/
structure Decimal where
  /-- The significant digits, read as a whole number. -/
  coefficient : Nat
  /-- The power of ten that scales them. -/
  exponent : Int
deriving DecidableEq

namespace Decimal

/-- The single-precision number nearest to a decimal, with the given sign.

A coefficient of at least `1` makes any exponent over `40` overflow, and a coefficient below
`10 ^ (log2 + 1)` makes a small enough exponent vanish; so powers of ten stay within a few digits of
the written text. -/
def toBinary32 (negative : Bool) (d : Decimal) : Binary32 :=
  if d.coefficient = 0 then Binary32.signedZero negative
  else if 40 < d.exponent then Binary32.infinite negative
  else if d.exponent + d.coefficient.log2 + 1 < -46 then Binary32.signedZero negative
  else if 0 ≤ d.exponent then
    Binary32.nearest negative
      ((d.coefficient * Nat.pow 10 d.exponent.toNat) <<< BinaryFormat.binary32.scale) 1
  else
    Binary32.nearest negative
      (d.coefficient <<< BinaryFormat.binary32.scale) (Nat.pow 10 (-d.exponent).toNat)

end Decimal

/-- The sign written in front of an exponent. -/
inductive ExponentSign where
  /-- No sign. -/
  | unsigned
  /-- A plus sign. -/
  | plus
  /-- A minus sign. -/
  | minus
deriving DecidableEq

namespace ExponentSign

/-- The characters of the sign. -/
def toChars : ExponentSign → List Char
  | unsigned => []
  | plus => ['+']
  | minus => ['-']

end ExponentSign

/-- A number as it is written: `-whole.fraction`, then `e` and an exponent. -/
structure Numeral where
  /-- A minus sign stands in front. -/
  negative : Bool
  /-- The digits before the point. -/
  whole : List Char
  /-- The digits after the point; without any, no point is written. -/
  fraction : List Char
  /-- The exponent's sign and digits. -/
  exponent : Option (ExponentSign × List Char)
deriving DecidableEq

namespace Numeral

/-- The written form. -/
def toChars (n : Numeral) : List Char :=
  (if n.negative then ['-'] else []) ++ n.whole
    ++ (if n.fraction.isEmpty then [] else '.' :: n.fraction)
    ++ match n.exponent with
      | none => []
      | some (sign, digits) => 'e' :: sign.toChars ++ digits

/-- The written exponent, zero when there is none. -/
def exponentValue (n : Numeral) : Int :=
  match n.exponent with
  | none => 0
  | some (.minus, digits) => -Nat.ofDigitChars 10 digits 0
  | some (_, digits) => Nat.ofDigitChars 10 digits 0

/-- The magnitude that a numeral denotes; its digits are one coefficient. -/
def toDecimal (n : Numeral) : Decimal where
  coefficient := Nat.ofDigitChars 10 (n.whole ++ n.fraction) 0
  exponent := n.exponentValue - n.fraction.length

/-- The single-precision number nearest to a numeral. -/
def toBinary32 (n : Numeral) : Binary32 := n.toDecimal.toBinary32 n.negative

end Numeral

end TimeSignal
