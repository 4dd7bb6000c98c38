import TimeSignal.Poly.Algebra

/-!
# Folding what can be combined

The optimizer carries out every sum and product whose operands can be combined, from the leaves up,
and drops constant zeros from sums.  What cannot be combined stays as it is.

## Main definitions

* `Poly.isZeroConstant`: the tree is the constant zero.
* `Poly.joinAdd`, `Poly.joinMul`: the sum and the product of two trees, combined if possible.
* `Poly.optimize`: the tree with all its nodes joined again.
-/

namespace TimeSignal

namespace Poly

/-- The tree is the constant zero, of either sign. -/
def isZeroConstant : Poly → Bool
  | concrete p => p.isZeroConstant
  | _ => false

/-- The sum of two trees: the other one if one is zero, combined if possible. -/
def joinAdd (left right : Poly) : Poly :=
  if left.isZeroConstant then right
  else if right.isZeroConstant then left
  else (left.add? right).getD (add left right)

/-- The product of two trees, combined if possible. -/
def joinMul (left right : Poly) : Poly := (left.mul? right).getD (mul left right)

/-- The tree with every sum and product joined again, operands first. -/
def optimize : Poly → Poly
  | concrete p => concrete p
  | noise => noise
  | add l r => joinAdd l.optimize r.optimize
  | mul l r => joinMul l.optimize r.optimize

end Poly

end TimeSignal
