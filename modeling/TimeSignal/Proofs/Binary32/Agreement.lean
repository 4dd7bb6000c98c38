import TimeSignal.Binary32.Arithmetic
import TimeSignal.Binary32.Order
import TimeSignal.Proofs.Binary32.Rounding

/-!
# Numbers that agree up to the sign of a zero

Two numbers agree when both are `nan` or they are equal by value.  They are then equal outright or
zeros of either sign, and no sum, product or difference of agreeing numbers can tell them apart.

## Main definitions

* `Binary32.Agree`: both `nan`, or equal by value

## Main results

* `Binary32.agree_iff`: numbers agree when they are equal or both are zeros
* `Binary32.Agree.add`, `Binary32.Agree.mul`, `Binary32.Agree.sub`: operations keep agreement
* `Binary32.one_mul`, `Binary32.add_zero_of_ne`: a product by one and a sum with zero are exact
* `Binary32.agree_add_zero`, `Binary32.agree_mul_zero`: sums and products with zero, up to its sign
* `Binary32.isFinite_add_eq_false`, `Binary32.isFinite_mul_eq_false`: what is computed from a number
  that is not finite
-/

namespace TimeSignal

namespace Binary32

/-- Both numbers are `nan`, or they are equal by value. -/
def Agree (x y : Binary32) : Prop := x = nan ∧ y = nan ∨ x.numEq y = true

/-! ## Agreement is equality up to the sign of a zero -/

theorem isZero_finite {a : Bool} {m : Fin infinityRank} :
    (finite a m).isZero = true ↔ m.val = 0 := by
  simp [isZero]

theorem numEq_finite {a b : Bool} {m n : Fin infinityRank} :
    (finite a m).numEq (finite b n) = true ↔ m = n ∧ a = b ∨ m.val = 0 ∧ n.val = 0 := by
  rw [Fin.ext_iff]
  cases a <;> cases b <;>
    simp only [numEq, position, beq_iff_eq, Bool.false_eq_true, Bool.true_eq_false, if_true,
      if_false, and_true, and_false, false_or] <;> omega

theorem numEq_iff {x y : Binary32} :
    x.numEq y = true ↔ x ≠ nan ∧ (x = y ∨ x.isZero = true ∧ y.isZero = true) := by
  cases x with
  | nan => simp
  | infinite a =>
    cases y with
    | nan => simp [numEq, position, isZero]
    | infinite b => cases a <;> cases b <;> simp [numEq, position, isZero]
    | finite b n =>
      -- Every finite rank is below that of infinity, so the positions differ.
      have := n.isLt
      cases a <;> cases b <;> simp [numEq, position, isZero] <;> omega
  | finite a m =>
    cases y with
    | nan => simp [numEq, position, isZero]
    | infinite b =>
      have := m.isLt
      cases a <;> cases b <;> simp [numEq, position, isZero] <;> omega
    | finite b n =>
      rw [numEq_finite, isZero_finite, isZero_finite, finite.injEq]
      simp only [ne_eq, reduceCtorEq, not_false_eq_true, true_and, and_comm]

theorem agree_iff {x y : Binary32} : Agree x y ↔ x = y ∨ x.isZero = true ∧ y.isZero = true := by
  unfold Agree
  rw [numEq_iff]
  constructor
  · rintro (⟨rfl, rfl⟩ | ⟨-, h⟩)
    · exact Or.inl rfl
    · exact h
  · rintro (rfl | h)
    · by_cases hx : x = nan
      · exact Or.inl ⟨hx, hx⟩
      · exact Or.inr ⟨hx, Or.inl rfl⟩
    · -- `nan` is no zero, so the numbers are equal by value.
      refine Or.inr ⟨?_, Or.inr h⟩
      rintro rfl
      cases h.1

theorem Agree.refl (x : Binary32) : Agree x x := agree_iff.mpr (Or.inl rfl)

theorem Agree.symm {x y : Binary32} (h : Agree x y) : Agree y x := by
  rw [agree_iff] at h ⊢
  exact h.imp Eq.symm And.symm

theorem Agree.trans {x y z : Binary32} (h : Agree x y) (h' : Agree y z) : Agree x z := by
  rcases agree_iff.mp h with rfl | ⟨hx, hy⟩
  · exact h'
  · rcases agree_iff.mp h' with rfl | ⟨-, hz⟩
    · exact h
    · exact agree_iff.mpr (Or.inr ⟨hx, hz⟩)

theorem Agree.isZero_eq {x y : Binary32} (h : Agree x y) : x.isZero = y.isZero := by
  rcases agree_iff.mp h with rfl | ⟨hx, hy⟩
  · rfl
  · rw [hx, hy]

theorem agree_signedZero (a b : Bool) : Agree (signedZero a) (signedZero b) :=
  agree_iff.mpr (Or.inr ⟨rfl, rfl⟩)

theorem eq_signedZero {x : Binary32} (h : x.isZero = true) : ∃ a, x = signedZero a := by
  cases x with
  | nan | infinite => cases h
  | finite a m =>
    obtain rfl : m = ⟨0, by decide⟩ := Fin.ext (isZero_finite.mp h)
    exact ⟨a, rfl⟩

/-! ## Operations keep agreement -/

theorem units_signedZero (a : Bool) : (signedZero a).units = 0 := by
  cases a <;> decide

theorem finite_add_finite (a b : Bool) (m n : Fin infinityRank) :
    finite a m + finite b n =
      if (finite a m).units + (finite b n).units = 0 then signedZero (a && b)
      else nearest ((finite a m).units + (finite b n).units < 0)
        ((finite a m).units + (finite b n).units).natAbs 1 := by
  change add (finite a m) (finite b n) = _
  rw [add]

theorem finite_mul_finite (a b : Bool) (m n : Fin infinityRank) :
    finite a m * finite b n = ofRank (a ^^ b) (BinaryFormat.binary32.mul m n) := by
  change mul (finite a m) (finite b n) = _
  rw [mul]

theorem signedZero_mul_finite (a b : Bool) (n : Fin infinityRank) :
    signedZero a * finite b n = signedZero (a ^^ b) := by
  rw [signedZero, finite_mul_finite, BinaryFormat.mul, BinaryFormat.units_zero, Nat.zero_mul,
    BinaryFormat.nearest_zero (by decide) (by decide)]
  rfl

/-- Sums see the sign of a zero only in another zero. -/
theorem Agree.add_right {x x' : Binary32} (h : Agree x x') (y : Binary32) :
    Agree (x + y) (x' + y) := by
  rcases agree_iff.mp h with rfl | ⟨hx, hx'⟩
  · exact Agree.refl _
  · obtain ⟨a, rfl⟩ := eq_signedZero hx
    obtain ⟨a', rfl⟩ := eq_signedZero hx'
    cases y with
    | nan | infinite => exact Agree.refl _
    | finite b n =>
      rw [signedZero, signedZero, finite_add_finite, finite_add_finite]
      rw [← signedZero, ← signedZero, units_signedZero, units_signedZero]
      -- The units of the sum are those of `y`; the sign of the zero matters only if there are none.
      split_ifs with hs
      · exact agree_signedZero _ _
      · exact Agree.refl _

/-- Products see the sign of a zero only in the sign of a zero. -/
theorem Agree.mul_right {x x' : Binary32} (h : Agree x x') (y : Binary32) :
    Agree (x * y) (x' * y) := by
  rcases agree_iff.mp h with rfl | ⟨hx, hx'⟩
  · exact Agree.refl _
  · obtain ⟨a, rfl⟩ := eq_signedZero hx
    obtain ⟨a', rfl⟩ := eq_signedZero hx'
    cases y with
    | nan | infinite => exact Agree.refl _
    | finite b n =>
      rw [signedZero_mul_finite, signedZero_mul_finite]
      exact agree_signedZero _ _

theorem Agree.add {x x' y y' : Binary32} (hx : Agree x x') (hy : Agree y y') :
    Agree (x + y) (x' + y') := by
  apply (hx.add_right y).trans
  rw [add_comm x', add_comm x']
  exact hy.add_right x'

theorem Agree.mul {x x' y y' : Binary32} (hx : Agree x x') (hy : Agree y y') :
    Agree (x * y) (x' * y') := by
  apply (hx.mul_right y).trans
  rw [mul_comm x', mul_comm x']
  exact hy.mul_right x'

theorem isZero_neg (x : Binary32) : (-x).isZero = x.isZero := by
  cases x <;> rfl

theorem ne_nan_of_isFinite {x : Binary32} (h : x.isFinite = true) : x ≠ nan := by
  rintro rfl
  cases h

theorem isFinite_neg (x : Binary32) : (-x).isFinite = x.isFinite := by
  cases x <;> rfl

theorem Agree.neg {x x' : Binary32} (h : Agree x x') : Agree (-x) (-x') := by
  rw [agree_iff] at h ⊢
  rw [isZero_neg, isZero_neg]
  exact h.imp (congrArg _) id

theorem Agree.sub {x x' y y' : Binary32} (hx : Agree x x') (hy : Agree y y') :
    Agree (x - y) (x' - y') :=
  hx.add hy.neg

/-! ## Exact operations -/

theorem ofRank_val (a : Bool) (m : Fin infinityRank) : ofRank a m = finite a m :=
  ofRank_of_lt m.isLt

theorem units_one : BinaryFormat.binary32.units 0x3f800000 = 1 <<< BinaryFormat.binary32.scale := by
  decide

theorem one_mul (x : Binary32) : 1 * x = x := by
  cases x with
  | nan => rfl
  | infinite a => cases a <;> rfl
  | finite a m =>
    have hone : (1 : Binary32) = finite false ⟨0x3f800000, by decide⟩ := rfl
    rw [hone, finite_mul_finite, BinaryFormat.mul, units_one, Nat.mul_comm,
      BinaryFormat.nearest_units (by decide) _ (by decide), ofRank_val, Bool.false_xor]

theorem nearest_magnitude (a : Bool) (m : Fin infinityRank) {den : Nat} (hden : 0 < den) :
    nearest a (magnitude m * den) den = finite a m := by
  rw [nearest, magnitude, BinaryFormat.nearest_units (by decide) _ hden, ofRank_val]

theorem magnitude_pos {m : Fin infinityRank} (h : m.val ≠ 0) : 0 < magnitude m := by
  have := BinaryFormat.binary32.units_strictMono (Nat.pos_of_ne_zero h)
  rwa [BinaryFormat.units_zero] at this

/-- A whole number of units that a number denotes is rounded to that number. -/
theorem nearest_units_self {a : Bool} {m : Fin infinityRank} (h : (finite a m).units ≠ 0) :
    nearest ((finite a m).units < 0) (finite a m).units.natAbs 1 = finite a m := by
  have hm := nearest_magnitude a m Nat.one_pos
  rw [Nat.mul_one] at hm
  cases a with
  | false =>
    have hs : decide ((finite false m).units < 0) = false :=
      decide_eq_false (by simp only [units]; omega)
    have hn : (finite false m).units.natAbs = magnitude m := by simp [units]
    rw [hs, hn, hm]
  | true =>
    have hs : decide ((finite true m).units < 0) = true :=
      decide_eq_true (by simp only [units] at h ⊢; omega)
    have hn : (finite true m).units.natAbs = magnitude m := by simp [units]
    rw [hs, hn, hm]

/-- A sum with zero is exact, and keeps the sign of a zero unless that sign is negative. -/
theorem add_zero_of_ne {x : Binary32} (h : x ≠ signedZero true) : x + 0 = x := by
  have hzero : (0 : Binary32) = signedZero false := rfl
  rw [hzero]
  cases x with
  | nan => rfl
  | infinite a => rfl
  | finite a m =>
    rw [signedZero, finite_add_finite, ← signedZero, units_signedZero, Int.add_zero]
    split_ifs with hu
    · -- Only a zero has no units, and `x` is not the negative one.
      have hm : m.val = 0 := by
        by_contra hm
        have := magnitude_pos hm
        cases a <;> simp only [units] at hu <;> omega
      obtain rfl : m = ⟨0, by decide⟩ := Fin.ext hm
      cases a with
      | false => rfl
      | true => exact absurd rfl h
    · exact nearest_units_self hu

theorem agree_add_zero (x : Binary32) : Agree (x + 0) x := by
  by_cases h : x = signedZero true
  · -- The sum of the negative zero and zero is the positive zero.
    subst h
    exact agree_iff.mpr (Or.inr ⟨by decide, rfl⟩)
  · rw [add_zero_of_ne h]
    exact Agree.refl x

theorem agree_zero_add (x : Binary32) : Agree (0 + x) x := by
  rw [add_comm]
  exact agree_add_zero x

/-- Only for a finite number is the product with zero a zero. -/
theorem agree_mul_zero {x : Binary32} (h : x.isFinite = true) : Agree (x * 0) 0 := by
  cases x with
  | nan | infinite => cases h
  | finite a m =>
    have hzero : (0 : Binary32) = signedZero false := rfl
    rw [mul_comm, hzero, signedZero_mul_finite]
    exact agree_signedZero _ _

theorem agree_zero_mul {x : Binary32} (h : x.isFinite = true) : Agree (0 * x) 0 := by
  rw [mul_comm]
  exact agree_mul_zero h

/-! ## Operations with numbers that are not finite -/

theorem isFinite_mul_eq_false (x : Binary32) {t : Binary32} (ht : t.isFinite = false) :
    (x * t).isFinite = false := by
  change (mul x t).isFinite = false
  cases t with
  | nan => cases x <;> rfl
  | infinite b =>
    cases x with
    | nan | infinite => rfl
    | finite a m =>
      rw [mul]
      split <;> rfl
  | finite => cases ht

theorem isFinite_add_eq_false {x : Binary32} (hx : x.isFinite = false) (y : Binary32) :
    (x + y).isFinite = false := by
  change (add x y).isFinite = false
  cases x with
  | nan => rfl
  | infinite a =>
    cases y with
    | nan | finite => rfl
    | infinite b =>
      rw [add]
      split <;> rfl
  | finite => cases hx

theorem isFinite_div_eq_false {x y : Binary32} (hx : x.isFinite = false) (hy : y.isFinite = true) :
    (x / y).isFinite = false := by
  change (div x y).isFinite = false
  cases x with
  | nan => rfl
  | infinite a =>
    cases y with
    | nan | infinite => rfl
    | finite => rfl
  | finite => cases hx

end Binary32

end TimeSignal
