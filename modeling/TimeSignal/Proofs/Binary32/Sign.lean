import TimeSignal.Proofs.Binary32.Agreement
import TimeSignal.Proofs.Binary32.Value

/-!
# Changes of sign

Rounding is symmetric, so a product changes its sign with that of an operand and nothing else about
it, whether it is a zero, subnormal, infinite or has no value.  A product by `-1` is therefore a
change of sign, and a sum with such a product is a difference.  Differences, which are sums with a
sign changed, are in turn the exact differences, rounded once.

## Main definitions

* `Binary32.difference`: the exact difference, rounded once

## Main results

* `Binary32.neg_mul`: the sign of an operand is a sign of the product
* `Binary32.neg_one_mul`, `Binary32.add_neg_one_mul`: products by `-1`, alone and in a sum
* `Binary32.sub_eq_difference`: subtraction rounds the exact difference
* `Binary32.agree_sub_swap`: exchanging the operands of a difference changes its sign
-/

namespace TimeSignal

namespace Binary32

theorem neg_ofRank (negative : Bool) (rank : Nat) :
    -ofRank negative rank = ofRank (!negative) rank := by
  unfold ofRank
  split <;> rfl

theorem neg_infinite_xor (a b : Bool) : -infinite (a ^^ b) = infinite (!a ^^ b) :=
  congrArg infinite (Bool.not_xor a b).symm

theorem neg_mul (x y : Binary32) : -x * y = -(x * y) := by
  change mul (neg x) y = neg (mul x y)
  cases x with
  | nan => rfl
  | infinite a =>
    cases y with
    | nan => rfl
    | infinite b => exact (neg_infinite_xor a b).symm
    | finite b n =>
      rw [neg, mul, mul]
      split
      · rfl
      · exact (neg_infinite_xor a b).symm
  | finite a m =>
    cases y with
    | nan => rfl
    | infinite b =>
      rw [neg, mul, mul]
      split
      · rfl
      · exact (neg_infinite_xor a b).symm
    | finite b n =>
      rw [neg, mul, mul, Bool.not_xor]
      exact (neg_ofRank (a ^^ b) _).symm

theorem neg_one_mul (x : Binary32) : -1 * x = -x := by
  rw [neg_mul, one_mul]

theorem add_neg_one_mul (x y : Binary32) : x + -1 * y = x - y := by
  rw [neg_one_mul, sub_eq_add_neg]

/-- The exact difference of two numbers, rounded once.  Infinities of one sign have no difference.
One that is exactly zero is negative only if the first operand is negative and the second is not. -/
def difference : Binary32 → Binary32 → Binary32
  | nan, _ => nan
  | _, nan => nan
  | infinite a, infinite b => if a = b then nan else infinite a
  | infinite a, finite _ _ => infinite a
  | finite _ _, infinite b => infinite (!b)
  | finite a m, finite b n =>
    let gap := (finite a m).units - (finite b n).units
    if gap = 0 then signedZero (a && !b) else nearest (gap < 0) gap.natAbs 1

theorem sub_eq_difference (x y : Binary32) : x - y = difference x y := by
  change x + neg y = difference x y
  cases x with
  | nan => rfl
  | infinite a =>
    cases y with
    | nan => rfl
    | infinite b => cases a <;> cases b <;> rfl
    | finite b n => rfl
  | finite a m =>
    cases y with
    | nan => rfl
    | infinite b => rfl
    | finite b n =>
      have hn : (finite (!b) n).units = -(finite b n).units := units_neg (finite b n)
      rw [neg, finite_add_finite, hn, ← Int.sub_eq_add_neg]
      rfl

/-- Exchanging the operands of a difference changes its sign, up to the sign of a zero: the
difference of equal numbers is the positive zero either way. -/
theorem agree_sub_swap (x y : Binary32) : Agree (y - x) (-(x - y)) := by
  rw [sub_eq_difference, sub_eq_difference]
  cases x with
  | nan => cases y <;> exact Agree.refl nan
  | infinite a =>
    cases y with
    | nan => exact Agree.refl nan
    | infinite b => cases a <;> cases b <;> exact Agree.refl _
    | finite b n => exact Agree.refl _
  | finite a m =>
    cases y with
    | nan => exact Agree.refl nan
    | infinite b =>
      rw [difference, difference]
      exact agree_iff.mpr (Or.inl (congrArg infinite (Bool.not_not b).symm))
    | finite b n =>
      rw [difference, difference]
      have hgap : (finite b n).units - (finite a m).units =
          -((finite a m).units - (finite b n).units) := (Int.neg_sub _ _).symm
      rw [hgap]
      generalize (finite a m).units - (finite b n).units = gap
      by_cases hzero : gap = 0
      · rw [if_pos (by omega), if_pos hzero]
        exact agree_signedZero _ _
      · -- Of the gap and its opposite exactly one is negative, and both are rounded alike.
        have hsign : decide (-gap < 0) = !decide (gap < 0) := by
          by_cases hneg : gap < 0
          · rw [decide_eq_true hneg]
            exact decide_eq_false (by omega)
          · rw [decide_eq_false hneg]
            exact decide_eq_true (by omega)
        rw [if_neg (by omega), if_neg hzero, hsign, Int.natAbs_neg, nearest, nearest, neg_ofRank]
        exact Agree.refl _

end Binary32

end TimeSignal
