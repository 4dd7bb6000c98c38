/-!
# Binary floating-point formats

The non-negative finite numbers of a binary format, listed in increasing order, are its *grid*; the
place of a number in that list is its *rank*.  Rank `0` is zero, and the bit pattern of a number
without its sign is its rank.  Every number of the grid is a whole multiple, its *units*, of the
smallest positive one, so exact values are natural numbers.

## Main definitions

* `BinaryFormat.units`: the exact value of a rank, in units of the smallest positive number.
* `BinaryFormat.nearest`: the rank nearest to a quotient; of two equally near ranks the even one.

A quotient beyond the last finite number rounds to a rank at or above `BinaryFormat.infinityRank`,
as if the grid went on with the same spacing rule.
-/

namespace TimeSignal

/-- The whole number nearest to `num / den`; a half goes to the even neighbour. -/
def roundHalfEven (num den : Nat) : Nat :=
  let quotient := num / den
  let twiceRest := 2 * (num % den)
  if twiceRest < den ∨ (twiceRest = den ∧ quotient % 2 = 0) then quotient else quotient + 1

/-- A binary format is given by the widths of its two magnitude fields. -/
structure BinaryFormat where
  /-- Width of the fraction field. -/
  fractionBits : Nat
  /-- Width of the exponent field. -/
  exponentBits : Nat

namespace BinaryFormat

/-- Single precision. -/
def binary32 : BinaryFormat := ⟨23, 8⟩

/-- Double precision. -/
def binary64 : BinaryFormat := ⟨52, 11⟩

variable (F : BinaryFormat)

/-- The smallest positive number of the format is `2 ^ (-scale)`. -/
def scale : Nat := (1 <<< (F.exponentBits - 1)) - 2 + F.fractionBits

/-- The rank that follows the last finite number. -/
def infinityRank : Nat := ((1 <<< F.exponentBits) - 1) <<< F.fractionBits

/-- How often the spacing of the grid has doubled at rank `k`. -/
def doublings (k : Nat) : Nat := (k >>> F.fractionBits) - 1

/-- The exact value of rank `k`, as a multiple of the smallest positive number. -/
def units (k : Nat) : Nat :=
  (k - (F.doublings k <<< F.fractionBits)) <<< F.doublings k

/-- The rank nearest to `num / den` smallest positive numbers; a tie goes to the even rank.

The spacing doubles with each further bit of the whole part beyond the fraction field, so the
quotient is rounded on the spacing of its own binade.  Rounding up into the next binade lands on
its first rank, because ranks go on without a gap. -/
def nearest (num den : Nat) : Nat :=
  let doublings := (num / den).log2 - F.fractionBits
  roundHalfEven num (den <<< doublings) + (doublings <<< F.fractionBits)

/-- The rank nearest to a natural number. -/
def ofNat (n : Nat) : Nat := F.nearest (n <<< F.scale) 1

/-- The rank nearest to the product of two ranks. -/
def mul (a b : Nat) : Nat := F.nearest (F.units a * F.units b) (1 <<< F.scale)

/-- The rank nearest to the quotient of two ranks. -/
def div (a b : Nat) : Nat := F.nearest (F.units a <<< F.scale) (F.units b)

end BinaryFormat

end TimeSignal
