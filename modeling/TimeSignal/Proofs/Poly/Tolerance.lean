import TimeSignal.Proofs.Binary32.Distance
import TimeSignal.Proofs.Poly.Value
import Mathlib.Algebra.CharZero.Infinite
import Mathlib.Algebra.Polynomial.Roots

/-!
# Agreement within a tolerance

Two polynomials agree within a tolerance when no two coefficients of one order are further apart,
where the shorter polynomial is filled up with zeros.  Distances are symmetric, and a greater
tolerance admits greater ones.  The tolerance zero admits coefficients of one exact value only; two
polynomials have these in all orders exactly if they denote one function, whatever their degrees
are, since a polynomial with a coefficient that is not zero does not vanish at every rational.

## Main results

* `Cubic.value_eq_iff`: polynomials with one value at every time have the same exact coefficients
* `Poly.approxEq_comm`, `Poly.approxEq_mono`: agreement is symmetric, and grows with the tolerance
* `Cubic.approxEq_zero_iff`: agreement without tolerance is equality of functions
* `Poly.approxEq_tolerance`: all three for polynomial trees
-/

namespace TimeSignal

namespace Cubic

variable {p q : Cubic} {eps eps' : Binary32}

theorem approxEq_eq_true_iff :
    p.approxEq q eps = true ↔
      ∀ i < max p.coeffs.length q.coeffs.length, (p.coeff i - q.coeff i).abs.numLe eps = true := by
  simp only [approxEq, List.all_eq_true, List.mem_range]

theorem approxEq_comm (p q : Cubic) (eps : Binary32) : p.approxEq q eps = q.approxEq p eps := by
  simp only [approxEq, Nat.max_comm p.coeffs.length, Binary32.abs_sub_comm (p.coeff _)]

theorem approxEq_mono (h : eps.numLe eps' = true) (hpq : p.approxEq q eps = true) :
    p.approxEq q eps' = true := by
  rw [approxEq_eq_true_iff] at hpq ⊢
  intro i hi
  exact Binary32.numLe_trans (hpq i hi) h

theorem numEq_comm (p q : Cubic) : p.numEq q = q.numEq p := by
  have hswap : p.coeffs.zip q.coeffs = (q.coeffs.zip p.coeffs).map Prod.swap :=
    (List.zip_swap q.coeffs p.coeffs).symm
  rw [numEq, numEq, hswap, List.all_map, Bool.beq_comm]
  congr 2
  funext ⟨a, b⟩
  exact Binary32.numEq_comm b a

/-! ## The functions that polynomials denote -/

/-- Two polynomials have one value at every time only if they are formally the same. -/
theorem value_eq_iff :
    (∀ t, p.value t = q.value t) ↔ ∀ i, (p.coeff i).toRat = (q.coeff i).toRat := by
  constructor
  · intro h i
    have hpoly : p.polynomial = q.polynomial := by
      apply Polynomial.funext
      intro t
      rw [eval_polynomial, eval_polynomial, h]
    rw [← coeff_polynomial, ← coeff_polynomial, hpoly]
  · intro h t
    have hpoly : p.polynomial = q.polynomial := by
      ext i
      rw [coeff_polynomial, coeff_polynomial, h]
    rw [← eval_polynomial, ← eval_polynomial, hpoly]

theorem isFinite_coeff (h : ∀ a ∈ p.coeffs, a.isFinite = true) (i : Nat) :
    (p.coeff i).isFinite = true := by
  rcases Nat.lt_or_ge i p.coeffs.length with hlt | hge
  · rw [coeff_eq_getElem hlt]
    exact h _ (List.getElem_mem hlt)
  · rw [coeff_of_length_le hge]
    rfl

/-- Without tolerance, polynomials agree if they denote one function. -/
theorem approxEq_zero_iff (hp : ∀ a ∈ p.coeffs, a.isFinite = true)
    (hq : ∀ a ∈ q.coeffs, a.isFinite = true) :
    p.approxEq q 0 = true ↔ ∀ t, p.value t = q.value t := by
  have hcoeff (i : Nat) :
      (p.coeff i - q.coeff i).abs.numLe 0 = true ↔ (p.coeff i).toRat = (q.coeff i).toRat :=
    Binary32.abs_sub_numLe_zero_iff (isFinite_coeff hp i) (isFinite_coeff hq i)
  rw [approxEq_eq_true_iff, value_eq_iff]
  refine ⟨fun h i => ?_, fun h i _ => (hcoeff i).mpr (h i)⟩
  rcases Nat.lt_or_ge i (max p.coeffs.length q.coeffs.length) with hlt | hge
  · exact (hcoeff i).mp (h i hlt)
  · -- Above both degrees there are only zeros.
    rw [coeff_of_length_le (le_of_max_le_left hge), coeff_of_length_le (le_of_max_le_right hge)]

end Cubic

namespace Poly

variable {p q : Poly} {eps eps' : Binary32}

theorem numEq_comm (p q : Poly) : p.numEq q = q.numEq p := by
  induction p generalizing q with
  | concrete a =>
    cases q with
    | concrete b => exact Cubic.numEq_comm a b
    | noise | add | mul => rfl
  | noise => cases q <;> rfl
  | add l r ihl ihr =>
    cases q with
    | add l' r' => rw [numEq, numEq, ihl, ihr]
    | concrete | noise | mul => rfl
  | mul l r ihl ihr =>
    cases q with
    | mul l' r' => rw [numEq, numEq, ihl, ihr]
    | concrete | noise | add => rfl

theorem approxEq_concrete (a b : Cubic) (eps : Binary32) :
    (concrete a).approxEq (concrete b) eps = a.approxEq b eps := rfl

theorem approxEq_comm (p q : Poly) (eps : Binary32) : p.approxEq q eps = q.approxEq p eps := by
  cases p with
  | concrete a =>
    cases q with
    | concrete b => exact Cubic.approxEq_comm a b eps
    | noise | add | mul => rfl
  | noise | add | mul => cases q <;> exact numEq_comm _ _

theorem approxEq_mono (h : eps.numLe eps' = true) (hpq : p.approxEq q eps = true) :
    p.approxEq q eps' = true := by
  cases p with
  | concrete a =>
    cases q with
    | concrete b => exact Cubic.approxEq_mono h hpq
    -- trees that are not both polynomials are compared by value, whatever the tolerance is
    | noise | add | mul => exact hpq
  | noise | add | mul => cases q <;> exact hpq

/-- **Agreement within a tolerance is symmetric, grows with the tolerance, and is equality of
functions if the tolerance is zero.**  The first two hold of all trees and all tolerances.  The
third holds of single polynomials with finite coefficients, of the same degree or not: they agree
without tolerance if and only if the exact values of the sums `a₀ + a₁ · t + …` are the same at
every rational time. -/
theorem approxEq_tolerance (p q : Poly) (eps eps' : Binary32) :
    p.approxEq q eps = q.approxEq p eps ∧
      (eps.numLe eps' = true → p.approxEq q eps = true → p.approxEq q eps' = true) ∧
      ∀ a b : Cubic, (concrete a).HasFiniteCoeffs → (concrete b).HasFiniteCoeffs →
        ((concrete a).approxEq (concrete b) 0 = true ↔ ∀ t : ℚ, a.value t = b.value t) :=
  ⟨approxEq_comm p q eps, approxEq_mono, fun _ _ => Cubic.approxEq_zero_iff⟩

/-- The constant half, with a quadratic coefficient that is the negative zero. -/
def flatHalf : Cubic := ⟨[Binary32.half, 0, Binary32.signedZero true], by decide, by decide⟩

/-- The number next to one half. -/
def nextToHalf : Binary32 := .finite false ⟨0x3f000001, by decide⟩

theorem approxEq_tolerance_flatHalf :
    (0 : Binary32).numLe 1 = true ∧
      (concrete flatHalf).approxEq (concrete (Cubic.constant Binary32.half)) 1 = true ∧
      (∀ t : ℚ, flatHalf.value t = (Cubic.constant Binary32.half).value t) ∧
      ¬ ∀ t : ℚ, flatHalf.value t = (Cubic.constant nextToHalf).value t := by
  have hle : (0 : Binary32).numLe 1 = true := by decide
  have hflat : (concrete flatHalf).HasFiniteCoeffs := by decide
  have heq : (concrete flatHalf).approxEq (concrete (Cubic.constant Binary32.half)) 0 = true := by
    decide
  have hne : (concrete flatHalf).approxEq (concrete (Cubic.constant nextToHalf)) 0 = false := by
    decide
  obtain ⟨-, hmono, hzero⟩ :=
    approxEq_tolerance (concrete flatHalf) (concrete (Cubic.constant Binary32.half)) 0 1
  refine ⟨hle, hmono hle heq, (hzero _ _ hflat (by decide)).mp heq, fun h => ?_⟩
  rw [(hzero _ _ hflat (by decide)).mpr h] at hne
  cases hne

end Poly

end TimeSignal
