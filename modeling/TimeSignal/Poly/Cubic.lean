import TimeSignal.Binary32.Arithmetic
import TimeSignal.Binary32.Order

/-!
# Polynomials of degree at most three

A cubic is a list of one to four coefficients, lowest order first.  Its degree is its length less
one, whether or not the leading coefficient is zero.

## Main definitions

* `Cubic`: the coefficient lists.
* `Cubic.add`, `Cubic.mul?`: the sum, and the product where its degree is at most three.
* `Cubic.valueAt`, `Cubic.horner`: two evaluations, which differ in their first step.
* `Cubic.approxEq`: equality of coefficients within a tolerance.

## Main results

* `Cubic.degree_add`, `Cubic.degree_mul?`: degrees of sums and products.
-/

namespace TimeSignal

/-- A polynomial of degree at most three, by its coefficients, lowest order first. -/
structure Cubic where
  /-- The coefficients. -/
  coeffs : List Binary32
  /-- There is a constant coefficient. -/
  length_pos : 0 < coeffs.length
  /-- The degree is at most three. -/
  length_le : coeffs.length ≤ 4
deriving DecidableEq

namespace Cubic

/-- The polynomial with the given coefficients, if there are one to four. -/
def ofList? (coeffs : List Binary32) : Option Cubic :=
  if h : 0 < coeffs.length ∧ coeffs.length ≤ 4 then some ⟨coeffs, h.1, h.2⟩ else none

/-- The polynomial of degree zero. -/
def constant (a : Binary32) : Cubic := ⟨[a], by simp, by simp⟩

/-- The time itself, as a polynomial of degree one. -/
def identity : Cubic := ⟨[0, 1], by simp, by simp⟩

/-- The degree. -/
def degree (p : Cubic) : Nat := p.coeffs.length - 1

theorem degree_le (p : Cubic) : p.degree ≤ 3 := by
  have := p.length_le
  unfold degree
  omega

/-- The coefficient of order `i`, zero above the degree. -/
def coeff (p : Cubic) (i : Nat) : Binary32 := p.coeffs.getD i 0

/-- The sum, coefficient by coefficient; the shorter operand is filled up with zeros. -/
def add (p q : Cubic) : Cubic where
  coeffs := (List.range (max p.coeffs.length q.coeffs.length)).map fun i => p.coeff i + q.coeff i
  length_pos := by
    have := p.length_pos
    simp only [List.length_map, List.length_range]
    omega
  length_le := by
    have := p.length_le
    have := q.length_le
    simp only [List.length_map, List.length_range]
    omega

/-- The sum of a list of numbers from the left; it starts with the first number, not with zero. -/
def sumFromLeft : List Binary32 → Binary32
  | [] => 0
  | x :: xs => xs.foldl (· + ·) x

/-- The products of coefficients whose orders add up to `k`, by rising order in `p`. -/
def crossTerms (p q : Cubic) (k : Nat) : List Binary32 :=
  (List.range (k + 1)).filterMap fun i =>
    match p.coeffs[i]?, q.coeffs[k - i]? with
    | some x, some y => some (x * y)
    | _, _ => none

/-- The product, where its degree is at most three. -/
def mul? (p q : Cubic) : Option Cubic :=
  if h : p.degree + q.degree ≤ 3 then
    some {
      coeffs := (List.range (p.degree + q.degree + 1)).map fun k => sumFromLeft (crossTerms p q k)
      length_pos := by simp
      length_le := by
        simp only [List.length_map, List.length_range]
        omega }
  else none

theorem degree_add (p q : Cubic) : (p.add q).degree = max p.degree q.degree := by
  simp only [degree, add, List.length_map, List.length_range]
  omega

theorem degree_mul? {p q r : Cubic} (h : p.mul? q = some r) : r.degree = p.degree + q.degree := by
  unfold mul? at h
  split at h
  · cases h
    simp [degree]
  · cases h

/-- The value at `t`, from zero down the coefficients: `((0 * t + aₙ) * t + …) * t + a₀`. -/
def valueAt (p : Cubic) (t : Binary32) : Binary32 :=
  p.coeffs.foldr (fun a value => value * t + a) 0

/-- The nested products of a list of coefficients, from the last coefficient down. -/
def hornerOf (t : Binary32) : List Binary32 → Binary32
  | [] => 0
  | [a] => a
  | a :: rest => hornerOf t rest * t + a

/-- The value at `t`, from the leading coefficient down: `(aₙ * t + …) * t + a₀`. -/
def horner (p : Cubic) (t : Binary32) : Binary32 := hornerOf t p.coeffs

/-- The polynomial is the constant zero, of either sign. -/
def isZeroConstant (p : Cubic) : Bool :=
  match p.coeffs with
  | [a] => a.isZero
  | _ => false

/-- Equality of degree, with coefficients compared by value. -/
def numEq (p q : Cubic) : Bool :=
  p.coeffs.length == q.coeffs.length && (p.coeffs.zip q.coeffs).all fun (a, b) => a.numEq b

/-- All coefficients differ by at most `eps`; the shorter operand is filled up with zeros. -/
def approxEq (p q : Cubic) (eps : Binary32) : Bool :=
  (List.range (max p.coeffs.length q.coeffs.length)).all fun i =>
    (p.coeff i - q.coeff i).abs.numLe eps

end Cubic

end TimeSignal
