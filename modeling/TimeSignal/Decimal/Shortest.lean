import TimeSignal.Decimal.Numeral

/-!
# The shortest decimal of a number

Of all decimals that round to a given single-precision number, the shortest are those with the
fewest digits; among these the nearest is taken.  Fewest digits means the coarsest grid of powers of
ten that meets the numbers rounding to the given one, and on a grid only the two neighbours of the
exact value can be nearest.

All comparisons are between natural numbers: values are scaled by `2 ^ 150 · 10 ^ 46`, on which
every half unit of a rank and every grid down to `10 ^ (-46)` is whole.

## Main definitions

* `Binary32.RoundsTo`: a scaled value rounds to a rank.
* `Binary32.shortest`: the shortest decimal of a rank.
-/

namespace TimeSignal

/-- Which of two equally near decimals is taken. -/
inductive DecimalTie where
  /-- The larger one. -/
  | up
  /-- The one with an even last digit. -/
  | even
deriving DecidableEq

namespace Binary32

/-- The finest grid has `fine` points between whole numbers. -/
def fine : Nat := Nat.pow 10 46

/-- The grid step `10 ^ (step - 46)` in scaled form. -/
def gridStep (step : Nat) : Nat := Nat.pow 10 step <<< (BinaryFormat.binary32.scale + 1)

/-- A scaled value lies among the numbers that round to `rank`.  The two midpoints to the
neighbouring ranks count when `rank` is even. -/
def RoundsTo (rank scaled : Nat) : Prop :=
  -- Scaled values count half units, so the sum of two neighbours is their midpoint.
  let low := (BinaryFormat.binary32.units (rank - 1) + BinaryFormat.binary32.units rank) * fine
  let high := (BinaryFormat.binary32.units rank + BinaryFormat.binary32.units (rank + 1)) * fine
  if rank % 2 = 0 then low ≤ scaled ∧ scaled ≤ high else low < scaled ∧ scaled < high

instance (rank scaled : Nat) : Decidable (RoundsTo rank scaled) := by
  unfold RoundsTo
  exact inferInstance

/-- The nearer of a coefficient and its successor to `rest / step` above the coefficient. -/
def nearerCoefficient (tie : DecimalTie) (coefficient rest step : Nat) : Nat :=
  if 2 * rest < step then coefficient
  else if step < 2 * rest then coefficient + 1
  else match tie with
    | .up => coefficient + 1
    | .even => if coefficient % 2 = 0 then coefficient else coefficient + 1

/-- The coefficient on the grid of `step` that is nearest to `rank` and rounds to it. -/
def gridCoefficient? (tie : DecimalTie) (rank step : Nat) : Option Nat :=
  let scaled := 2 * BinaryFormat.binary32.units rank * fine
  let size := gridStep step
  let below := scaled / size
  -- Any point of the grid that fits lies no nearer than one of these two neighbours.
  let belowFits := RoundsTo rank (below * size)
  let aboveFits := RoundsTo rank ((below + 1) * size)
  if belowFits ∧ aboveFits then some (nearerCoefficient tie below (scaled % size) size)
  else if belowFits then some below
  else if aboveFits then some (below + 1)
  else none

/-- Searches the grids `10 ^ (step - 46)` from `step` down to the finest one.  The finest grid is
finer than the smallest positive number, so it is never left without a hit. -/
def shortestFrom (tie : DecimalTie) (rank : Nat) : Nat → Decimal
  | 0 => ⟨(gridCoefficient? tie rank 0).getD 0, -46⟩
  | step + 1 =>
    match gridCoefficient? tie rank (step + 1) with
    | some coefficient => ⟨coefficient, (step + 1 : Nat) - 46⟩
    | none => shortestFrom tie rank step

/-- The shortest decimal that rounds to a rank.  No finite rank reaches `10 ^ 39`. -/
def shortest (tie : DecimalTie) (rank : Nat) : Decimal :=
  if rank = 0 then ⟨0, 0⟩ else shortestFrom tie rank 85

end Binary32

end TimeSignal
