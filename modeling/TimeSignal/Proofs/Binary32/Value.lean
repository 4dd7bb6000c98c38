import TimeSignal.Binary32.Arithmetic
import Mathlib.Data.Rat.Defs
import Mathlib.Tactic.Ring
import Mathlib.Tactic.NormNum

/-!
# Exact values of single-precision numbers

A finite number denotes a rational.  An operation on two numbers is exact when its rounded result is
finite and denotes what the operation gives on the denoted rationals.

## Main definitions

* `Binary32.toRat`: the rational that a number denotes
* `Binary32.Operation`, `Binary32.Operation.IsExact`: a rounded sum or product, and when it is exact
-/

namespace TimeSignal

namespace Binary32

/-- The rational that a finite number denotes; `0` for numbers without a value. -/
def toRat (x : Binary32) : ℚ := x.units / 2 ^ BinaryFormat.binary32.scale

@[simp] theorem toRat_zero : toRat 0 = 0 := by
  have h : units 0 = 0 := by decide
  rw [toRat, h, Int.cast_zero, zero_div]

theorem toRat_one : toRat 1 = 1 := by
  have h : units 1 = 2 ^ BinaryFormat.binary32.scale := by decide
  rw [toRat, h, Int.cast_pow, Int.cast_ofNat, div_self (pow_ne_zero _ two_ne_zero)]

/-- A number of `m * 2 ^ d` smallest numbers is the `m`-th multiple of a power of two. -/
theorem toRat_of_units {x : Binary32} {m d e : Nat} (h : x.units = (m * 2 ^ d : Nat))
    (hde : e + d = BinaryFormat.binary32.scale) : x.toRat = m / 2 ^ e := by
  have hd : (2 : ℚ) ^ d ≠ 0 := pow_ne_zero d two_ne_zero
  rw [toRat, h, ← hde, Int.cast_natCast, Nat.cast_mul, Nat.cast_pow, Nat.cast_ofNat, pow_add,
    mul_div_mul_right _ _ hd]

theorem units_neg (x : Binary32) : (-x).units = -x.units := by
  cases x with
  | nan | infinite => rfl
  | finite negative rank =>
    cases negative with
    | false => rfl
    | true => exact (Int.neg_neg _).symm

theorem toRat_neg (x : Binary32) : (-x).toRat = -x.toRat := by
  rw [toRat, toRat, units_neg, Int.cast_neg, neg_div]

theorem units_of_isZero {x : Binary32} (h : x.isZero = true) : x.units = 0 := by
  cases x with
  | nan | infinite => cases h
  | finite negative rank =>
    have hr : rank = ⟨0, by decide⟩ := Fin.ext (by simpa [isZero] using h)
    subst hr
    cases negative <;> decide

theorem toRat_of_isZero {x : Binary32} (h : x.isZero = true) : x.toRat = 0 := by
  rw [toRat, units_of_isZero h, Int.cast_zero, zero_div]

/-- A rounded operation on two numbers. -/
inductive Operation where
  /-- The rounded sum. -/
  | add (x y : Binary32)
  /-- The rounded product. -/
  | mul (x y : Binary32)
deriving DecidableEq

namespace Operation

/-- The number that an operation gives. -/
def result : Operation → Binary32
  | add x y => x + y
  | mul x y => x * y

/-- The rational that an operation gives before rounding. -/
def exactResult : Operation → ℚ
  | add x y => x.toRat + y.toRat
  | mul x y => x.toRat * y.toRat

/-- An operation is exact when its result is finite and denotes the unrounded result. -/
def IsExact (o : Operation) : Prop := o.result.isFinite = true ∧ o.result.toRat = o.exactResult

instance (o : Operation) : Decidable o.IsExact :=
  inferInstanceAs (Decidable (_ ∧ _))

end Operation

end Binary32

end TimeSignal
