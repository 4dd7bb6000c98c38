import TimeSignal.Proofs.Decimal.Shortest
import Mathlib.Data.Nat.Dist
import Mathlib.Tactic.Ring

/-!
# Short decimals next to midpoints

A decimal next to the midpoint of two ranks makes the quotient of a grid step and a power of two
close to a fraction with a short numerator.  A fraction `p / q` in lowest terms that is close enough
to the same quotient leaves no room for another one, so the decimal is a multiple of it.  For each
grid, Euclid's algorithm finds such a fraction, and it decides what the decimal can be: itself a
midpoint, on a grid of whole numbers that is not too coarse, or one of two exceptions on one grid.

## Main definitions

* `Binary32.Isolates`: a fraction is closer to a quotient than all others with a short numerator
* `Binary32.Settles`: a fraction allows no short decimal next to a midpoint, up to what is listed
* `Binary32.IsException`: the decimals next to a midpoint that are no midpoints

## Main results

* `Binary32.mul_eq_mul_of_isolates`: two numbers in a nearly equal proportion are in the proportion
  of the isolating fraction
* `Binary32.near_midpoint`: a decimal next to a midpoint is the midpoint or an exception
-/

namespace TimeSignal

namespace Binary32

/-! ## Isolating fractions -/

/-- The fraction `p / q` is in lowest terms, and so close to `a / b` that no other fraction with a
numerator below `2 ^ 25` is within a relative distance of `2 ^ (-51)`. -/
def Isolates (a b p q : Nat) : Prop :=
  Nat.gcd p q = 1 ∧ 2 ^ 25 * (q * a + (2 ^ 51 + 1) * Nat.dist (q * a) (p * b)) < 2 ^ 51 * a

instance (a b p q : Nat) : Decidable (Isolates a b p q) := inferInstanceAs (Decidable (_ ∧ _))

/-- The values `x` and `y` are within a relative distance of `2 ^ (-51)`. -/
def Near (x y : Nat) : Prop :=
  (2 ^ 51 - 1) * y ≤ 2 ^ 51 * x ∧ 2 ^ 51 * x ≤ (2 ^ 51 + 1) * y

variable {a b p q c M : Nat}

theorem near_iff_dist {x y : Nat} : Near x y ↔ 2 ^ 51 * Nat.dist x y ≤ y := by
  unfold Near Nat.dist
  omega

/-- The products across differ by no more than the errors of both proportions. -/
theorem mul_dist_le (a b p q c M : Nat) :
    b * Nat.dist (c * p) (M * q) ≤
      q * Nat.dist (c * a) (M * b) + c * Nat.dist (q * a) (p * b) := by
  calc b * Nat.dist (c * p) (M * q)
      = Nat.dist (c * (p * b)) (q * (M * b)) := by
        rw [← Nat.dist_mul_left]
        congr 1 <;> ring
    _ ≤ Nat.dist (c * (p * b)) (c * (q * a)) + Nat.dist (c * (q * a)) (q * (M * b)) :=
        Nat.dist.triangle_inequality _ _ _
    _ = c * Nat.dist (p * b) (q * a) + q * Nat.dist (c * a) (M * b) := by
        rw [Nat.dist_mul_left, ← Nat.dist_mul_left q, Nat.mul_left_comm c q a]
    _ = q * Nat.dist (c * a) (M * b) + c * Nat.dist (q * a) (p * b) := by
        rw [Nat.add_comm, Nat.dist_comm (p * b)]

/-- **Two numbers in a nearly equal proportion are in the proportion of the isolating fraction.** -/
theorem mul_eq_mul_of_isolates (hiso : Isolates a b p q) (hb : 0 < b) (hM : M < 2 ^ 25)
    (hnear : Near (c * a) (M * b)) : c * p = M * q := by
  have hcross := mul_dist_le a b p q c M
  have herror := near_iff_dist.mp hnear
  have hupper := hnear.2
  obtain ⟨-, hclose⟩ := hiso
  generalize Nat.dist (q * a) (p * b) = e at *
  generalize Nat.dist (c * a) (M * b) = f at *
  by_contra hne
  have hone : 1 ≤ Nat.dist (c * p) (M * q) := Nat.dist_pos_of_ne hne
  -- If the proportions differed, the errors would add up to one over both denominators.
  have hle : 2 ^ 51 * a * b ≤ M * b * (q * a + (2 ^ 51 + 1) * e) := by
    calc 2 ^ 51 * a * b = 2 ^ 51 * a * (b * 1) := by ring
      _ ≤ 2 ^ 51 * a * (q * f + c * e) :=
        Nat.mul_le_mul_left _ ((Nat.mul_le_mul_left b hone).trans hcross)
      _ = q * a * (2 ^ 51 * f) + e * (2 ^ 51 * (c * a)) := by ring
      _ ≤ q * a * (M * b) + e * ((2 ^ 51 + 1) * (M * b)) :=
        Nat.add_le_add (Nat.mul_le_mul_left _ herror) (Nat.mul_le_mul_left _ hupper)
      _ = M * b * (q * a + (2 ^ 51 + 1) * e) := by ring
  have hlt : M * b * (q * a + (2 ^ 51 + 1) * e) < 2 ^ 51 * a * b := by
    calc M * b * (q * a + (2 ^ 51 + 1) * e) ≤ 2 ^ 25 * b * (q * a + (2 ^ 51 + 1) * e) :=
        Nat.mul_le_mul_right _ (Nat.mul_le_mul_right b hM.le)
      _ = 2 ^ 25 * (q * a + (2 ^ 51 + 1) * e) * b := by ring
      _ < 2 ^ 51 * a * b := Nat.mul_lt_mul_of_pos_right hclose hb
  exact Nat.not_lt.mpr hle hlt

/-- Two numbers in a nearly equal proportion are a multiple of the isolating fraction, which is then
as close as they are. -/
theorem exists_multiple_of_isolates (hiso : Isolates a b p q) (hb : 0 < b) (hpos : 0 < M)
    (hM : M < 2 ^ 25) (hnear : Near (c * a) (M * b)) :
    ∃ j, 0 < j ∧ c = j * q ∧ M = j * p ∧ Near (q * a) (p * b) := by
  have hmul := mul_eq_mul_of_isolates hiso hb hM hnear
  obtain ⟨j, rfl⟩ : p ∣ M := Nat.Coprime.dvd_of_dvd_mul_right hiso.1 ⟨c, by rw [← hmul]; ring⟩
  have hp : 0 < p := Nat.pos_of_mul_pos_right hpos
  have hj : 0 < j := Nat.pos_of_mul_pos_left hpos
  obtain rfl : c = j * q := Nat.eq_of_mul_eq_mul_right hp (by rw [hmul]; ring)
  refine ⟨j, hj, rfl, Nat.mul_comm p j, ?_⟩
  rw [near_iff_dist, Nat.mul_assoc, Nat.mul_comm p j, Nat.mul_assoc, Nat.dist_mul_left] at hnear
  refine near_iff_dist.mpr (Nat.le_of_mul_le_mul_left ?_ hj)
  calc j * (2 ^ 51 * Nat.dist (q * a) (p * b)) = 2 ^ 51 * (j * Nat.dist (q * a) (p * b)) := by ring
    _ ≤ j * (p * b) := hnear

/-! ## The fractions of the grids -/

/-- The fractions that Euclid's algorithm runs through for `a / b`, after the two that it starts
from. -/
def convergents : Nat → Nat × Nat → Nat × Nat → Nat → Nat → List (Nat × Nat)
  | 0, _, _, _, _ => []
  | fuel + 1, before, last, a, b =>
    if b = 0 then []
    else
      let next := (a / b * last.1 + before.1, a / b * last.2 + before.2)
      next :: convergents fuel last next b (a % b)

/-- How often the distance of neighbours may have doubled where a decimal on the grid can lie next
to a midpoint: two thirds of a step reach it. -/
def maxDoublings (step : Nat) : Nat := (67 * gridStep step / (100 * fine)).log2

/-- A fraction that is close to the quotient of a grid step and `b` belongs to no decimal next to a
midpoint: its numerator is too long or even, or it is not close enough.  Otherwise the fraction is
the quotient, on a grid that is not too coarse, or it is the one that belongs to the exceptions. -/
def Settles (step b p q : Nat) : Prop :=
  2 ^ 25 ≤ p ∨ p % 2 = 0 ∨ p * b < 2 ^ 51 * Nat.dist (q * gridStep step) (p * b) ∨
    (q * gridStep step = p * b ∧ 46 ≤ step ∧ step ≤ 68) ∨
    (step = 14 ∧ p = 22841339 ∧ q = 14077062)

instance (step b p q : Nat) : Decidable (Settles step b p q) := inferInstanceAs (Decidable (_ ∨ _))

/-- On every grid, one of Euclid's fractions isolates and settles. -/
theorem exists_settles : ∀ step < 86, 100 * fine ≤ 67 * gridStep step →
    ∃ f ∈ convergents 40 (0, 1) (1, 0) (gridStep step) (2 ^ maxDoublings step * fine),
      Isolates (gridStep step) (2 ^ maxDoublings step * fine) f.1 f.2 ∧
        Settles step (2 ^ maxDoublings step * fine) f.1 f.2 := by
  decide +kernel

/-! ## Decimals next to midpoints -/

/-- The decimal is `7.038531e-26` or twice that, which are next to a midpoint and no midpoints. -/
def IsException (coefficient step : Nat) : Prop :=
  step = 14 ∧ (coefficient = 7038531 ∨ coefficient = 14077062)

theorem Near.mul_left {x y : Nat} (h : Near x y) (k : Nat) : Near (k * x) (k * y) := by
  rw [near_iff_dist, Nat.dist_mul_left, Nat.mul_left_comm]
  exact Nat.mul_le_mul_left k (near_iff_dist.mp h)

/-- **A decimal next to a midpoint is the midpoint or an exception.**  The midpoint is an odd
multiple `M` of the distance `2 ^ d` of its two neighbours, and that distance is no longer than two
thirds of a grid step. -/
theorem near_midpoint {step c M d : Nat} (hstep : step ≤ 85) (hodd : M % 2 = 1) (hM : M < 2 ^ 25)
    (hcoarse : 100 * (2 ^ d * fine) ≤ 67 * gridStep step)
    (hnear : Near (c * gridStep step) (M * 2 ^ d * fine)) :
    (c * gridStep step = M * 2 ^ d * fine ∧ 46 ≤ step ∧ step ≤ 68) ∨ IsException c step := by
  have hd : d ≤ maxDoublings step := by
    have hle : 2 ^ d ≤ 67 * gridStep step / (100 * fine) := by
      rw [Nat.le_div_iff_mul_le (Nat.mul_pos (by decide) fine_pos), Nat.mul_left_comm]
      exact hcoarse
    exact (Nat.le_log2 (Nat.ne_of_gt (Nat.lt_of_lt_of_le (Nat.two_pow_pos d) hle))).mpr hle
  have hstart : 100 * fine ≤ 67 * gridStep step :=
    (Nat.mul_le_mul_left _ (Nat.le_mul_of_pos_left _ (Nat.two_pow_pos d))).trans hcoarse
  obtain ⟨⟨p, q⟩, -, hiso, hsettles⟩ := exists_settles step (by omega) hstart
  dsimp only at hiso hsettles
  unfold Settles at hsettles
  obtain ⟨t, ht⟩ := Nat.exists_eq_add_of_le hd
  rw [ht] at hiso hsettles
  -- Both sides are brought to the largest distance, which depends on the grid only.
  have hscaled : Near (2 ^ t * c * gridStep step) (M * (2 ^ (d + t) * fine)) := by
    have hmul := hnear.mul_left (2 ^ t)
    rwa [← Nat.mul_assoc, show 2 ^ t * (M * 2 ^ d * fine) = M * (2 ^ (d + t) * fine) by ring]
      at hmul
  obtain ⟨j, hj, hc, rfl, hfraction⟩ := exists_multiple_of_isolates hiso
    (Nat.mul_pos (Nat.two_pow_pos _) fine_pos) (by omega) hM hscaled
  rcases hsettles with hlong | heven | hfar | ⟨hexact, hgrid⟩ | ⟨hs, hp, hq⟩
  · have := Nat.le_mul_of_pos_left p hj
    omega
  · rw [Nat.mul_mod, heven, Nat.mul_zero] at hodd
    cases hodd
  · exact absurd (near_iff_dist.mp hfraction) (Nat.not_le.mpr hfar)
  · refine Or.inl ⟨?_, hgrid⟩
    apply Nat.eq_of_mul_eq_mul_left (Nat.two_pow_pos t)
    calc 2 ^ t * (c * gridStep step) = 2 ^ t * c * gridStep step := by ring
      _ = j * (q * gridStep step) := by rw [hc]; ring
      _ = 2 ^ t * (j * p * 2 ^ d * fine) := by rw [hexact]; ring
  · rw [hp] at hM
    obtain rfl : j = 1 := by omega
    rw [hq, Nat.one_mul] at hc
    refine Or.inr ⟨hs, ?_⟩
    rcases t with _ | _ | t
    · omega
    · omega
    · rw [show 2 ^ (t + 1 + 1) * c = 4 * (2 ^ t * c) by ring] at hc
      omega

end Binary32

end TimeSignal
