import TimeSignal.Binary32.Basic

/-!
# Comparing single-precision numbers

Comparisons are by value: the two zeros are equal, and `nan` stands in no relation to anything,
itself included.  Structural equality (`DecidableEq`) tells the zeros apart and equates `nan` with
itself; it is the finer notion.

## Main definitions

* `Binary32.position`: the place of a number on the line of all numbers, if it has one.
* `Binary32.numEq`, `Binary32.numLe`: equality and order by value.
-/

namespace TimeSignal

namespace Binary32

/-- The place on the number line, counted in ranks from zero; `nan` has none. -/
def position : Binary32 → Option Int
  | nan => none
  | infinite negative => some (if negative then -infinityRank else infinityRank)
  | finite negative rank => some (if negative then -rank.val else rank.val)

/-- Equality by value. -/
def numEq (x y : Binary32) : Bool :=
  match x.position, y.position with
  | some a, some b => a == b
  | _, _ => false

/-- Order by value. -/
def numLe (x y : Binary32) : Bool :=
  match x.position, y.position with
  | some a, some b => decide (a ≤ b)
  | _, _ => false

theorem numEq_comm (x y : Binary32) : x.numEq y = y.numEq x := by
  unfold numEq
  cases x.position <;> cases y.position <;> simp [Bool.beq_comm]

@[simp] theorem nan_numEq (x : Binary32) : nan.numEq x = false := rfl

end Binary32

end TimeSignal
