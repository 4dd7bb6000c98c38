import TimeSignal.Fault
import TimeSignal.Poly.Basic

/-!
# Combining polynomial trees

Two trees can be added or multiplied at once when both are single polynomials, and multiplied only
up to degree three.

## Main definitions

* `Poly.add?`, `Poly.mul?`: the combination, where it is defined.
* `Poly.combineAdd`, `Poly.combineMul`: the combination, or the undefined pair of shapes.

## Main results

* `Poly.isSome_add?`, `Poly.isSome_mul?`: where the combinations are defined.
-/

namespace TimeSignal

namespace Poly

/-- The sum of two single polynomials. -/
def add? : Poly → Poly → Option Poly
  | concrete p, concrete q => some (concrete (p.add q))
  | _, _ => none

/-- The product of two single polynomials whose degrees add up to at most three. -/
def mul? : Poly → Poly → Option Poly
  | concrete p, concrete q => (p.mul? q).map concrete
  | _, _ => none

/-- A combination that is not defined for the shapes of its operands. -/
structure Undefined where
  /-- The name of the operation. -/
  operation : String
  /-- The shape of the left operand. -/
  left : String
  /-- The shape of the right operand. -/
  right : String
deriving DecidableEq

/-- An undefined combination as a fault. -/
def Undefined.toFault (u : Undefined) : Fault :=
  .unsupported (u.operation ++ " is not defined for " ++ u.left ++ " and " ++ u.right)

/-- The sum of two trees, or the reason why there is none. -/
def combineAdd (p q : Poly) : Except Undefined Poly :=
  match p.add? q with
  | some sum => .ok sum
  | none => .error ⟨"add", p.shapeName, q.shapeName⟩

/-- The product of two trees, or the reason why there is none. -/
def combineMul (p q : Poly) : Except Undefined Poly :=
  match p.mul? q with
  | some product => .ok product
  | none => .error ⟨"multiply", p.shapeName, q.shapeName⟩

theorem isSome_add? (p q : Poly) : (p.add? q).isSome = (p.isConcrete && q.isConcrete) := by
  cases p <;> cases q <;> rfl

theorem isSome_mul? (p q : Cubic) :
    ((concrete p).mul? (concrete q)).isSome = decide (p.degree + q.degree ≤ 3) := by
  by_cases h : p.degree + q.degree ≤ 3 <;> simp [mul?, Cubic.mul?, h]

end Poly

end TimeSignal
