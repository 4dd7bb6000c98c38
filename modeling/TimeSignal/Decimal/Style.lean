import TimeSignal.Decimal.Shortest

/-!
# Styles of written numbers

A style says how the digits of a decimal are laid out: where positional form ends and exponent form
begins, whether a whole number keeps a point, and how an exponent is signed.

## Main definitions

* `NumeralStyle.numeral`: a decimal laid out in a style.
* `Binary32.numeral`: the shortest decimal of a number laid out in a style.
* `Binary32.text`: the same as text, with words for the numbers that have no digits.
* `NumeralStyle.plain`, `NumeralStyle.exponential`, `NumeralStyle.pointed`: three styles.
-/

namespace TimeSignal

/-- How the digits of a number are laid out. -/
structure NumeralStyle where
  /-- The decimal exponents of the leading digit that are written positionally. -/
  isPositional : Int → Bool
  /-- A positional whole number ends in `.0`. -/
  keepsPoint : Bool
  /-- The sign of an exponent that is not negative. -/
  exponentSign : ExponentSign
  /-- The choice between two equally near shortest decimals. -/
  tie : DecimalTie

namespace NumeralStyle

/-- Positional at any size, and whole numbers have no point. -/
def plain : NumeralStyle := ⟨fun _ => true, false, .unsigned, .up⟩

/-- Exponent form at any size. -/
def exponential : NumeralStyle := ⟨fun _ => false, false, .unsigned, .up⟩

/-- Positional from `10 ^ (-4)` to below `10 ^ 16`, always with a point. -/
def pointed : NumeralStyle := ⟨fun e => -4 ≤ e && e < 16, true, .unsigned, .up⟩

/-- A decimal laid out positionally. -/
def positional (style : NumeralStyle) (negative : Bool) (d : Decimal) : Numeral :=
  let digits := Nat.toDigits 10 d.coefficient
  let places := (-d.exponent).toNat
  if 0 ≤ d.exponent then
    ⟨negative, digits ++ List.replicate d.exponent.toNat '0',
      if style.keepsPoint then ['0'] else [], none⟩
  else if places < digits.length then
    ⟨negative, digits.take (digits.length - places), digits.drop (digits.length - places), none⟩
  else
    ⟨negative, ['0'], List.replicate (places - digits.length) '0' ++ digits, none⟩

/-- A decimal laid out with one digit before the point and the exponent of that digit. -/
def scientific (style : NumeralStyle) (negative : Bool) (d : Decimal) : Numeral :=
  let digits := Nat.toDigits 10 d.coefficient
  let lead := d.exponent + digits.length - 1
  let sign := if lead < 0 then .minus else style.exponentSign
  ⟨negative, digits.take 1, digits.drop 1, some (sign, Nat.toDigits 10 lead.natAbs)⟩

/-- A decimal laid out in a style. -/
def numeral (style : NumeralStyle) (negative : Bool) (d : Decimal) : Numeral :=
  let lead := d.exponent + (Nat.toDigits 10 d.coefficient).length - 1
  if style.isPositional lead then style.positional negative d else style.scientific negative d

end NumeralStyle

namespace Binary32

/-- The shortest decimal of a finite number, laid out in a style; `none` for the other numbers. -/
def numeral? (style : NumeralStyle) : Binary32 → Option Numeral
  | finite negative rank => some (style.numeral negative (shortest style.tie rank))
  | _ => none

/-- The text of a number in a style. -/
def text (style : NumeralStyle) (x : Binary32) : List Char :=
  match x with
  | nan => ['N', 'a', 'N']
  | infinite negative => (if negative then ['-'] else []) ++ ['i', 'n', 'f']
  | finite negative rank => (style.numeral negative (shortest style.tie rank)).toChars

end Binary32

end TimeSignal
