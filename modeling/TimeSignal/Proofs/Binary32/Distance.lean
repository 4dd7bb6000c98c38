import TimeSignal.Proofs.Binary32.Order
import TimeSignal.Proofs.Binary32.Sign

/-!
# Distances of numbers

The distance of two numbers is their difference without its sign.  For finite numbers it is the
magnitude of the exact difference, rounded once, so it does not depend on the order of the two.  The
exact difference is a whole number of smallest positive numbers.  It is therefore not rounded to
zero unless it is zero, and a difference that overflows is not zero either.

## Main results

* `Binary32.abs_sub_comm`: the distance is symmetric
* `Binary32.placeOf_eq_zero_iff`: no other whole number of units is rounded to zero
* `Binary32.abs_sub_numLe_zero_iff`: finite numbers at distance zero have one exact value
-/

namespace TimeSignal

namespace Binary32

variable {x y : Binary32}

/-! ## Symmetry -/

/-- The number without its sign stands as far from zero as the number. -/
theorem abs_eq_ofRank {p : Int} (h : x.position = some p) : x.abs = ofRank false p.natAbs := by
  cases x with
  | nan => cases h
  | infinite a =>
    rw [position_infinite] at h
    rw [← Option.some.inj h, natAbs_signed, ofRank, dif_neg (Nat.lt_irrefl _)]
    rfl
  | finite a m =>
    rw [position_finite] at h
    rw [← Option.some.inj h, natAbs_signed, ofRank_val]
    rfl

theorem abs_sub_eq_ofRank (hx : x.isFinite = true) (hy : y.isFinite = true) :
    (x - y).abs = ofRank false
      (min (BinaryFormat.binary32.nearest (x.units - y.units).natAbs 1) infinityRank) := by
  rw [abs_eq_ofRank (position_sub hx hy), natAbs_placeOf]

theorem abs_sub_comm (x y : Binary32) : (x - y).abs = (y - x).abs := by
  cases x with
  | nan =>
    rw [sub_eq_difference, sub_eq_difference]
    cases y <;> rfl
  | infinite a =>
    -- Signs alone decide here: equal ones leave no number, and otherwise the distance is infinite.
    rw [sub_eq_difference, sub_eq_difference]
    cases y with
    | nan | finite => rfl
    | infinite b => cases a <;> cases b <;> rfl
  | finite a m =>
    cases y with
    | nan | infinite => rfl
    | finite b n =>
      have hgap : ((finite a m).units - (finite b n).units).natAbs =
          ((finite b n).units - (finite a m).units).natAbs := by omega
      rw [abs_sub_eq_ofRank rfl rfl, abs_sub_eq_ofRank rfl rfl, hgap]

/-! ## Distance zero -/

/-- A whole number of smallest positive numbers is not rounded to zero, unless it is zero. -/
theorem placeOf_eq_zero_iff {num : Int} : placeOf num 1 = 0 ↔ num = 0 := by
  refine ⟨fun h => ?_, fun h => by rw [h, placeOf_zero Nat.one_pos]⟩
  by_contra hne
  -- One unit is itself a number, and rounding is monotone.
  have hone : BinaryFormat.binary32.units 1 = 1 := by decide
  have hle : BinaryFormat.binary32.units 1 * 1 ≤ num.natAbs := by omega
  have hmono := BinaryFormat.nearest_mono (F := BinaryFormat.binary32) (by decide) Nat.one_pos hle
  rw [BinaryFormat.nearest_units (by decide) 1 Nat.one_pos] at hmono
  have habs := natAbs_placeOf num 1
  have hpos : 0 < infinityRank := by decide
  omega

theorem toRat_eq_iff : x.toRat = y.toRat ↔ x.units = y.units := by
  rw [toRat, toRat, div_left_inj' (pow_ne_zero _ two_ne_zero), Int.cast_inj]

theorem abs_numLe_zero_iff {p : Int} (h : x.position = some p) : x.abs.numLe 0 = true ↔ p = 0 := by
  have hpos : 0 < infinityRank := by decide
  have hzero : (0 : Binary32).position = some 0 := rfl
  rw [abs_eq_ofRank h, numLe, position_ofRank, hzero, signed_false]
  dsimp only
  rw [decide_eq_true_eq]
  omega

/-- Finite numbers whose distance is at most zero have one exact value. -/
theorem abs_sub_numLe_zero_iff (hx : x.isFinite = true) (hy : y.isFinite = true) :
    (x - y).abs.numLe 0 = true ↔ x.toRat = y.toRat := by
  rw [abs_numLe_zero_iff (position_sub hx hy), placeOf_eq_zero_iff, Int.sub_eq_zero, toRat_eq_iff]

end Binary32

end TimeSignal
