import TimeSignal.Json.Number
import TimeSignal.Proofs.Decimal.Grid
import TimeSignal.Proofs.Decimal.Midpoint

/-!
# Rounding twice

The double-precision number that a shortest decimal is read as lies on the same side of every
midpoint of single precision as the decimal itself.  Away from the midpoints the first rounding is
too fine to cross one.  Next to a midpoint the decimal is the midpoint, which double precision holds
without rounding, or it is one of two exceptions.

## Main definitions

* `Json.Approximates`: a quotient in double precision is nearly a scaled value
* `Json.SameSide`: two pairs of values compare in the same way

## Main results

* `Json.sameSide_nearest`: rounding to double precision keeps the side of a midpoint
* `Json.encloses_nearest_of_approximates`: rounding to double precision keeps the rank in single
  precision
-/

namespace TimeSignal

namespace Json

open BinaryFormat (binary32 binary64)
open Binary32 (fine gridStep gridCoefficient? RoundsTo Near IsException)

/-- Half of the smallest number of single precision, in units of double precision. -/
def halfUnit : Nat := 2 ^ (binary64.scale - binary32.scale - 1)

theorem halfUnit_pos : 0 < halfUnit := Nat.two_pow_pos _

theorem runLength_lt_halfUnit : binary64.runLength < halfUnit := by decide +kernel

/-- The quotient, in units of double precision, is within a relative distance of `2 ^ (-52)` of the
scaled value. -/
structure Approximates (num den scaled : Nat) : Prop where
  /-- The quotient is not much below. -/
  low : (2 ^ 52 - 1) * (scaled * (halfUnit * den)) ≤ 2 ^ 52 * (num * fine)
  /-- The quotient is not much above. -/
  high : 2 ^ 52 * (num * fine) ≤ (2 ^ 52 + 1) * (scaled * (halfUnit * den))

variable {num den a : Nat}

/-! ## Away from a number of double precision -/

theorem lt_nearest_of_far (hden : 0 < den) (ha : binary64.runLength ≤ a)
    (h : (2 ^ 53 + 1) * (binary64.units a * den) < 2 ^ 53 * num) :
    a < binary64.nearest num den := by
  apply BinaryFormat.lt_nearest (by decide) hden
  have hstep := Nat.mul_le_mul_right den (BinaryFormat.units_succ_mul_le ha)
  have hrun : binary64.runLength = 2 ^ 52 := rfl
  rw [hrun, Nat.mul_right_comm, Nat.mul_right_comm (binary64.units a)] at hstep
  rw [Nat.add_mul]
  omega

theorem nearest_lt_of_far (hden : 0 < den) (ha : binary64.runLength < a)
    (h : 2 ^ 53 * num < (2 ^ 53 - 1) * (binary64.units a * den)) :
    binary64.nearest num den < a := by
  apply BinaryFormat.nearest_lt (by decide) hden
  obtain ⟨b, rfl⟩ : ∃ b, a = b + 1 := ⟨a - 1, by omega⟩
  have hstep := Nat.mul_le_mul_right den (BinaryFormat.units_succ_mul_le (Nat.le_of_lt_succ ha))
  have hrun : binary64.runLength = 2 ^ 52 := rfl
  rw [hrun, Nat.mul_right_comm, Nat.mul_right_comm (binary64.units b)] at hstep
  rw [Nat.add_sub_cancel, Nat.add_mul]
  omega

/-! ## Sides of a midpoint -/

/-- Two pairs of values compare in the same way. -/
def SameSide (x y x' y' : Nat) : Prop := (x < y ↔ x' < y') ∧ (y < x ↔ y' < x')

theorem sameSide_of_lt {x y x' y' : Nat} (h : x < y) (h' : x' < y') : SameSide x y x' y' :=
  ⟨iff_of_true h h', iff_of_false h.asymm h'.asymm⟩

theorem sameSide_of_gt {x y x' y' : Nat} (h : y < x) (h' : y' < x') : SameSide x y x' y' :=
  ⟨iff_of_false h.asymm h'.asymm, iff_of_true h h'⟩

/-- A value that is not near a midpoint is rounded to the same side of it. -/
theorem sameSide_of_not_near {scaled mid : Nat} (hden : 0 < den)
    (ha : binary64.units a = mid * halfUnit) (hrun : binary64.runLength < a)
    (happ : Approximates num den scaled) (hfar : ¬ Near scaled (mid * fine)) :
    SameSide (mid * fine) scaled (binary64.units a)
      (binary64.units (binary64.nearest num den)) := by
  have hpos : 0 < halfUnit * den := Nat.mul_pos halfUnit_pos hden
  obtain ⟨hlow, hhigh⟩ := happ
  have hmid : mid * fine * (halfUnit * den) = binary64.units a * den * fine := by
    rw [ha]
    ring
  have hside : (2 ^ 51 + 1) * (mid * fine) < 2 ^ 51 * scaled ∨
      2 ^ 51 * scaled < (2 ^ 51 - 1) * (mid * fine) := by
    unfold Near at hfar
    omega
  rcases hside with habove | hbelow
  · have hscaled := Nat.mul_lt_mul_of_pos_right habove hpos
    rw [Nat.mul_assoc (2 ^ 51 + 1), Nat.mul_assoc (2 ^ 51), hmid] at hscaled
    have hlt : a < binary64.nearest num den := by
      apply lt_nearest_of_far hden hrun.le
      apply Nat.lt_of_mul_lt_mul_right (a := fine)
      rw [Nat.mul_assoc (2 ^ 53 + 1), Nat.mul_assoc (2 ^ 53)]
      omega
    exact sameSide_of_lt (by omega) (binary64.units_strictMono hlt)
  · have hscaled := Nat.mul_lt_mul_of_pos_right hbelow hpos
    rw [Nat.mul_assoc (2 ^ 51), Nat.mul_assoc (2 ^ 51 - 1), hmid] at hscaled
    have hlt : binary64.nearest num den < a := by
      apply nearest_lt_of_far hden hrun
      apply Nat.lt_of_mul_lt_mul_right (a := fine)
      rw [Nat.mul_assoc (2 ^ 53), Nat.mul_assoc (2 ^ 53 - 1)]
      omega
    exact sameSide_of_gt (by omega) (binary64.units_strictMono hlt)

/-- A value that is a midpoint is rounded to it. -/
theorem sameSide_of_eq {scaled mid : Nat} (hden : 0 < den)
    (ha : binary64.units a = mid * halfUnit) (hs : scaled = mid * fine)
    (hexact : num * fine = scaled * (halfUnit * den)) :
    SameSide (mid * fine) scaled (binary64.units a)
      (binary64.units (binary64.nearest num den)) := by
  have hnum : num = binary64.units a * den := by
    apply Nat.eq_of_mul_eq_mul_right Binary32.fine_pos
    rw [hexact, hs, ha]
    ring
  rw [hnum, BinaryFormat.nearest_units (by decide) a hden, hs]
  exact ⟨iff_of_false (lt_irrefl _) (lt_irrefl _), iff_of_false (lt_irrefl _) (lt_irrefl _)⟩

/-- **Rounding to double precision keeps the side of a midpoint.**  The midpoint is an odd multiple
`M` of the distance `2 ^ d` of its two neighbours. -/
theorem sameSide_nearest {M d step coefficient : Nat} (hden : 0 < den) (hstep : step ≤ 85)
    (hodd : M % 2 = 1) (hM : M < 2 ^ 25)
    (hcoarse : Near (coefficient * gridStep step) (M * 2 ^ d * fine) →
      100 * (2 ^ d * fine) ≤ 67 * gridStep step)
    (happ : Approximates num den (coefficient * gridStep step))
    (hexact : 46 ≤ step → step ≤ 68 →
      num * fine = coefficient * gridStep step * (halfUnit * den))
    (hexception : ¬ IsException coefficient step) :
    SameSide (M * 2 ^ d * fine) (coefficient * gridStep step) (M * 2 ^ d * halfUnit)
      (binary64.units (binary64.nearest num den)) := by
  have hrunLength : binary64.runLength = 2 ^ 52 := rfl
  obtain ⟨a, ha⟩ := BinaryFormat.exists_units_eq (F := binary64) (m := M) (by omega)
    (d + (binary64.scale - binary32.scale - 1))
  rw [Nat.pow_add, ← halfUnit, ← Nat.mul_assoc] at ha
  have hrun : binary64.runLength < a := by
    apply binary64.units_strictMono.lt_iff_lt.mp
    have hunits : binary64.units binary64.runLength = binary64.runLength := by decide
    have hpos : 0 < M * 2 ^ d := Nat.mul_pos (by omega) (Nat.two_pow_pos d)
    rw [hunits, ha]
    exact runLength_lt_halfUnit.trans_le (Nat.le_mul_of_pos_left _ hpos)
  rw [← ha]
  by_cases hnear : Near (coefficient * gridStep step) (M * 2 ^ d * fine)
  · rcases Binary32.near_midpoint hstep hodd hM (hcoarse hnear) hnear with ⟨hs, hlow, hhigh⟩ | hexc
    · exact sameSide_of_eq hden ha hs (hexact hlow hhigh)
    · exact absurd hexc hexception
  · exact sameSide_of_not_near hden ha hrun happ hnear

/-! ## From double to single precision -/

/-- A decimal near a midpoint of its number lies on a grid that is not much finer than the ranks
around: it is as far from the number as the midpoint, and at most two thirds of a step. -/
theorem coarse_of_near {scaled size number mid distance : Nat} (hnear : Near scaled mid)
    (hshort : mid ≤ 2 ^ 25 * distance)
    (hmid : mid = 2 * number + distance ∨ mid + distance = 2 * number)
    (hclose : 3 * scaled ≤ 3 * (2 * number) + 2 * size ∧
      3 * (2 * number) ≤ 3 * scaled + 2 * size) :
    100 * distance ≤ 67 * size := by
  unfold Near at hnear
  omega

/-- **Rounding to double precision keeps the rank in single precision.** -/
theorem encloses_nearest_of_approximates {tie : DecimalTie} {rank step coefficient : Nat}
    (hden : 0 < den) (hstep : step ≤ 85)
    (hc : gridCoefficient? tie (rank + 1) step = some coefficient)
    (happ : Approximates num den (coefficient * gridStep step))
    (hexact : 46 ≤ step → step ≤ 68 →
      num * fine = coefficient * gridStep step * (halfUnit * den))
    (hexception : ¬ IsException coefficient step) :
    binary32.Encloses (rank + 1) (binary64.units (binary64.nearest num den)) (2 * halfUnit) := by
  have hclose := Binary32.gridCoefficient_near hc
  have hround := Binary32.roundsTo_iff.mp (Binary32.roundsTo_of_gridCoefficient hc)
  have hrunLength : binary32.runLength = 2 ^ 23 := rfl
  -- Both midpoints of the rank keep the decimal on their side.
  have hside (j : Nat) (hj : j = rank ∨ j = rank + 1) :
      SameSide ((binary32.units j + binary32.units (j + 1)) * fine)
        (coefficient * gridStep step) ((binary32.units j + binary32.units (j + 1)) * halfUnit)
        (binary64.units (binary64.nearest num den)) := by
    obtain ⟨M, d, hodd, hM, hgap, hsum⟩ := binary32.exists_units_pair j
    rw [hsum]
    refine sameSide_nearest hden hstep hodd (by omega) (fun hnear => ?_) happ hexact hexception
    have hmid : M * 2 ^ d * fine = (binary32.units j + binary32.units (j + 1)) * fine := by
      rw [hsum]
    refine coarse_of_near hnear ?_ ?_ hclose
    · rw [Nat.mul_assoc]
      exact Nat.mul_le_mul_right _ (by omega)
    · rw [hmid]
      rcases hj with rfl | rfl
      · refine Or.inr ?_
        rw [hgap]
        ring
      · refine Or.inl ?_
        rw [hgap]
        ring
  have hlow := hside rank (Or.inl rfl)
  have hhigh := hside (rank + 1) (Or.inr rfl)
  unfold SameSide at hlow hhigh
  rw [Nat.add_sub_cancel] at hround
  refine ⟨?_, ?_, fun ho => ?_⟩
  · rw [Nat.add_sub_cancel, Nat.mul_left_comm]
    omega
  · rw [Nat.mul_left_comm]
    omega
  · have hstrict := hround.2.2 ho
    rw [Nat.add_sub_cancel, Nat.mul_left_comm, Nat.mul_left_comm _ 2]
    omega

end Json

end TimeSignal
