import TimeSignal.Decimal.Style
import TimeSignal.Json.Value

/-!
# Single-precision numbers in JSON

A number is written with its shortest digits, and `null` stands for the numbers that are not finite.

A number is read through double precision and then rounded again.  Its digits are collected in a
64-bit significand; digits that no longer fit are dropped, those before the point counting as powers
of ten.  The significand is rounded to double precision and multiplied or divided by one rounded
power of ten.  An integer that fits into 64 bits is rounded once.

## Main definitions

* `Json.numberStyle`, `Json.ofBinary32`: the written form.
* `Json.Magnitude`: the parts of a numeral that are read.
* `Json.toBinary32?`: the number of a value, if it is one and not beyond double precision.
-/

namespace TimeSignal

namespace Json

/-- Numbers are positional from `10 ^ (-6)` to below `10 ^ 13`, always with a point; an exponent is
always signed. -/
def numberStyle : NumeralStyle := ⟨fun e => -6 ≤ e && e < 13, true, .plus, .even⟩

/-- The value that stands for a number. -/
def ofBinary32 (x : Binary32) : Value :=
  match x.numeral? numberStyle with
  | some numeral => .number numeral
  | none => .null

/-- A significand of at most 64 bits with a power of ten. -/
structure Magnitude where
  /-- The digits that were kept. -/
  significand : Nat
  /-- The power of ten that scales them. -/
  exponent : Int
  /-- The numeral is an integer, and no digit was dropped. -/
  isWhole : Bool

/-- The significand after the digits that still fit into 64 bits, with their count. -/
def collectDigits (significand : Nat) : List Char → Nat × Nat
  | [] => (significand, 0)
  | c :: rest =>
    let extended := 10 * significand + (c.toNat - '0'.toNat)
    if extended < UInt64.size then
      let (result, count) := collectDigits extended rest
      (result, count + 1)
    else (significand, 0)

/-- The parts of a numeral that are read. -/
def magnitude (n : Numeral) : Magnitude :=
  let (whole, wholeCount) := collectDigits 0 n.whole
  -- A smaller digit after the point may fit again where one before the point did not.
  let (significand, fractionCount) := collectDigits whole n.fraction
  let dropped := n.whole.length - wholeCount
  { significand
    exponent := n.exponentValue + dropped - fractionCount
    isWhole := dropped = 0 && n.fraction.isEmpty && n.exponent.isNone }

/-- The rank of a power of ten in double precision. -/
def powerOfTen (k : Nat) : Nat := BinaryFormat.binary64.ofNat (Nat.pow 10 k)

/-- A rank of double precision scaled by a power of ten, in steps of at most `10 ^ 308`; `none` when
the result is beyond double precision. -/
def scaleByTen (rank : Nat) (exponent : Int) : Option Nat :=
  if exponent.natAbs ≤ 308 then
    if 0 ≤ exponent then
      let scaled := BinaryFormat.binary64.mul rank (powerOfTen exponent.natAbs)
      if scaled < BinaryFormat.binary64.infinityRank then some scaled else none
    else some (BinaryFormat.binary64.div rank (powerOfTen exponent.natAbs))
  else if rank = 0 then some 0
  else if 0 ≤ exponent then none
  else scaleByTen (BinaryFormat.binary64.div rank (powerOfTen 308)) (exponent + 308)
termination_by exponent.natAbs
decreasing_by omega

/-- A rank of double precision rounded to single precision. -/
def narrow (negative : Bool) (rank : Nat) : Binary32 :=
  Binary32.nearest negative (BinaryFormat.binary64.units rank)
    (1 <<< (BinaryFormat.binary64.scale - BinaryFormat.binary32.scale))

/-- The magnitude with its sign is an integer of 64 bits: unsigned, or signed and below zero. -/
def Magnitude.isInteger (m : Magnitude) (negative : Bool) : Bool :=
  m.isWhole && (!negative || (0 < m.significand && m.significand ≤ UInt64.size / 2))

/-- The number that a numeral is read as. -/
def readNumeral? (n : Numeral) : Option Binary32 :=
  let m := magnitude n
  if m.isInteger n.negative then
    some (Binary32.ofRank n.negative (BinaryFormat.binary32.ofNat m.significand))
  else
    (scaleByTen (BinaryFormat.binary64.ofNat m.significand) m.exponent).map (narrow n.negative)

/-- The number of a value. -/
def toBinary32? : Value → Option Binary32
  | .number numeral => readNumeral? numeral
  | _ => none

/-- The numbers of a list of values. -/
def toNumbers? (items : List Value) : Option (List Binary32) := items.mapM toBinary32?

end Json

end TimeSignal
