import TimeSignal.Poly.Basic
import TimeSignal.Proofs.Binary32.Value
import Mathlib.Algebra.Polynomial.Eval.Coeff
import Mathlib.Algebra.Polynomial.BigOperators
import Mathlib.Data.List.GetD

/-!
# Exact values of polynomial trees

A polynomial with finite coefficients denotes a function of a rational time, and a tree denotes one
of a rational time and the values of its noise leaves, which it takes from left to right.

## Main definitions

* `Cubic.value`, `Poly.value`: the exact value at a rational time
* `Cubic.polynomial`: the formal polynomial with the denoted coefficients
* `Poly.draws`: the number of noise leaves
* `Poly.HasFiniteCoeffs`: all coefficients have a value

## Main results

* `Cubic.eval_polynomial`: the value is that of the formal polynomial
-/

namespace TimeSignal

open Polynomial

namespace Cubic

/-- The sum of `aᵢ · tⁱ` over the coefficients, in exact arithmetic. -/
def value (p : Cubic) (t : ℚ) : ℚ :=
  ∑ i ∈ Finset.range p.coeffs.length, (p.coeff i).toRat * t ^ i

/-- The formal polynomial whose coefficients are those that `p` denotes. -/
noncomputable def polynomial (p : Cubic) : ℚ[X] :=
  ∑ i ∈ Finset.range p.coeffs.length, C (p.coeff i).toRat * X ^ i

theorem eval_polynomial (p : Cubic) (t : ℚ) : p.polynomial.eval t = p.value t := by
  simp [polynomial, value, eval_finsetSum]

theorem coeff_of_length_le {p : Cubic} {i : Nat} (h : p.coeffs.length ≤ i) : p.coeff i = 0 :=
  List.getD_eq_default _ _ h

theorem coeff_eq_getElem {p : Cubic} {i : Nat} (h : i < p.coeffs.length) :
    p.coeff i = p.coeffs[i] :=
  List.getD_eq_getElem _ _ h

theorem coeff_polynomial (p : Cubic) (i : Nat) : p.polynomial.coeff i = (p.coeff i).toRat := by
  simp only [polynomial, finsetSum_coeff, coeff_C_mul_X_pow, Finset.sum_ite_eq, Finset.mem_range]
  split
  · rfl
  · -- An order above the degree has no coefficient, which reads as zero.
    rw [coeff_of_length_le (by omega), Binary32.toRat_zero]

theorem value_of_isZeroConstant {p : Cubic} (h : p.isZeroConstant = true) (t : ℚ) :
    p.value t = 0 := by
  unfold isZeroConstant at h
  split at h
  · next a ha => simp [value, coeff, ha, Binary32.toRat_of_isZero h]
  · cases h

end Cubic

namespace Poly

/-- The number of noise leaves, which is the number of values that an evaluation draws. -/
def draws : Poly → Nat
  | concrete _ => 0
  | noise => 1
  | add l r | mul l r => l.draws + r.draws

/-- The value at time `t` when the noise leaves, from left to right, have the values `d`. -/
def value (t : ℚ) : Poly → List ℚ → ℚ
  | concrete p, _ => p.value t
  | noise, d => d.headD 0
  | add l r, d => value t l (d.take l.draws) + value t r (d.drop l.draws)
  | mul l r, d => value t l (d.take l.draws) * value t r (d.drop l.draws)

/-- Every coefficient is finite. -/
def HasFiniteCoeffs : Poly → Prop
  | concrete p => ∀ a ∈ p.coeffs, a.isFinite = true
  | noise => True
  | add l r | mul l r => l.HasFiniteCoeffs ∧ r.HasFiniteCoeffs

instance decidableHasFiniteCoeffs : (p : Poly) → Decidable p.HasFiniteCoeffs
  | concrete p => inferInstanceAs (Decidable (∀ a ∈ p.coeffs, a.isFinite = true))
  | noise => .isTrue trivial
  | add l r | mul l r =>
    let _ := decidableHasFiniteCoeffs l
    let _ := decidableHasFiniteCoeffs r
    inferInstanceAs (Decidable (l.HasFiniteCoeffs ∧ r.HasFiniteCoeffs))

end Poly

end TimeSignal
