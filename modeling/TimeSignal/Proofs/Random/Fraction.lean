import TimeSignal.Proofs.Binary32.Order
import TimeSignal.Proofs.Random.Mix
import Mathlib.SetTheory.Cardinal.Finite

/-!
# Uniform draws

A draw is the number of the top 24 bits of a word, as a multiple of `2 ^ (-24)`.  A number of so few
bits is on the grid, and so is its product with a power of two, so neither of them is rounded.  The
top bits leave the other 40 bits of a word open, and every word is the result of one generator, so
each multiple is drawn by equally many generators.

## Main definitions

* `SplitMix.fractionAt`: a multiple of the spacing of the fractions
* `SplitMix.IsFraction`: a number is such a multiple exactly, in `[0, 1)`
* `SplitMix.wordsEquiv`: the words with given top bits, by their other bits

## Main results

* `SplitMix.isFraction_fractionAt`, `SplitMix.isExact_fractionAt`: the multiples are not rounded
* `SplitMix.card_fraction_next`: how many generators draw a given multiple
* `SplitMix.draw_uniform`: draws are exact, in range and uniform
-/

namespace TimeSignal

open Binary32

namespace SplitMix

/-! ## Multiples of the spacing -/

/-- The `k`-th multiple of the spacing of the fractions. -/
def fractionAt (k : Nat) : Binary32 := ofNat k * fractionStep

theorem fractionStep_eq : fractionStep = 1 / ofNat (2 ^ 24) := by decide

theorem units_fractionStep : fractionStep.units = (1 * 2 ^ 125 : Nat) := by decide

theorem toRat_fractionStep : fractionStep.toRat = 1 / 2 ^ 24 := by
  have h := toRat_of_units (e := 24) units_fractionStep rfl
  rwa [Nat.cast_one] at h

/-- The product of a short natural number with the spacing is on the grid, before one. -/
theorem exists_fractionAt_eq {k : Nat} (hk : k < 2 ^ 24) :
    ∃ m, fractionAt k = finite false m ∧ magnitude m = k * 2 ^ 125 := by
  have hrun : 2 * BinaryFormat.binary32.runLength = 2 ^ 24 := rfl
  obtain ⟨rank, hrank⟩ := BinaryFormat.exists_units_eq (hk.le.trans hrun.ge) 125
  have hlt : rank < 0x3f800000 := by
    have hone : 1 <<< BinaryFormat.binary32.scale = 2 ^ 24 * 2 ^ 125 := by decide
    rw [← BinaryFormat.binary32.units_strictMono.lt_iff_lt, hrank, units_one, hone]
    exact Nat.mul_lt_mul_of_pos_right hk (Nat.two_pow_pos _)
  have hfinite : rank < infinityRank := Nat.lt_trans hlt (by decide)
  obtain ⟨n, hn, hnrank⟩ := ofNat_eq_finite (n := k) (by omega)
  have hunits := BinaryFormat.units_ofNat (F := BinaryFormat.binary32) (by decide)
    (hk.le.trans hrun.ge)
  have hstep : BinaryFormat.binary32.units 0x33800000 = 2 ^ 125 := by decide
  -- The exact product is the value of a rank, so it rounds to this rank.
  have hproduct : BinaryFormat.binary32.mul n 0x33800000 = rank := by
    rw [BinaryFormat.mul, hnrank, hunits, hstep, Nat.mul_right_comm, ← hrank, Nat.one_shiftLeft,
      BinaryFormat.nearest_units (by decide) _ (Nat.two_pow_pos _)]
  refine ⟨⟨rank, hfinite⟩, ?_, hrank⟩
  rw [fractionAt, hn, fractionStep, finite_mul_finite, hproduct, ofRank_of_lt hfinite,
    Bool.xor_self]

/-- The number `x` is exactly the fraction `k / 2 ^ 24`.  It is finite, so it is not `nan`, it is at
least zero and below one, and it is not the negative zero. -/
structure IsFraction (k : Nat) (x : Binary32) : Prop where
  isFinite : x.isFinite = true
  toRat_eq : x.toRat = k / 2 ^ 24
  zero_le : numLe 0 x = true
  not_one_le : numLe 1 x = false
  ne_negativeZero : x ≠ signedZero true

theorem isFraction_fractionAt {k : Nat} (hk : k < 2 ^ 24) : IsFraction k (fractionAt k) := by
  obtain ⟨m, hm, hmagnitude⟩ := exists_fractionAt_eq hk
  have hunits : (fractionAt k).units = (k * 2 ^ 125 : Nat) := by
    rw [hm, units_finite, hmagnitude, signed_false]
  have hfinite : (fractionAt k).isFinite = true := by rw [hm]; rfl
  have hone : units 1 = (2 ^ 24 * 2 ^ 125 : Nat) := by decide
  have hlt : (fractionAt k).units < units 1 := by
    rw [hunits, hone, Int.ofNat_lt]
    exact Nat.mul_lt_mul_of_pos_right hk (Nat.two_pow_pos _)
  refine ⟨hfinite, toRat_of_units hunits rfl, ?_, ?_, ?_⟩
  · rw [numLe_finite_iff rfl hfinite, hunits]
    exact Int.natCast_nonneg _
  · rw [← Bool.not_eq_true, numLe_finite_iff rfl hfinite]
    exact Int.not_le.mpr hlt
  · rw [hm]
    intro h
    cases h

/-- Neither the number nor its product with the spacing is rounded. -/
theorem isExact_fractionAt {k : Nat} (hk : k < 2 ^ 24) :
    (Operation.mul (ofNat k) fractionStep).IsExact := by
  have h := isFraction_fractionAt hk
  refine ⟨h.isFinite, h.toRat_eq.trans ?_⟩
  rw [Operation.exactResult, toRat_ofNat hk.le, toRat_fractionStep, mul_one_div]

theorem fractionAt_eq_iff {j k : Nat} (hj : j < 2 ^ 24) (hk : k < 2 ^ 24) :
    fractionAt j = fractionAt k ↔ j = k := by
  refine ⟨fun h => ?_, congrArg fractionAt⟩
  have hvalue := congrArg toRat h
  have hpow : (2 : ℚ) ^ 24 ≠ 0 := pow_ne_zero _ two_ne_zero
  rw [(isFraction_fractionAt hj).toRat_eq, (isFraction_fractionAt hk).toRat_eq,
    div_left_inj' hpow] at hvalue
  exact Nat.cast_injective hvalue

/-! ## The top bits of a word -/

theorem toNat_topBits (word : UInt64) : (word >>> 40).toNat = word.toNat / 2 ^ 40 := by
  rw [UInt64.toNat_shiftRight, Nat.shiftRight_eq_div_pow]
  rfl

theorem topBits_lt (word : UInt64) : word.toNat / 2 ^ 40 < 2 ^ 24 :=
  Nat.div_lt_of_lt_mul word.toNat_lt

theorem fraction_eq (word : UInt64) : fraction word = fractionAt (word.toNat / 2 ^ 40) := by
  rw [fraction, toNat_topBits, fractionAt]

theorem toNat_ofNat_bits (k : Fin (2 ^ 24)) (low : Fin (2 ^ 40)) :
    (UInt64.ofNat (k * 2 ^ 40 + low)).toNat = k * 2 ^ 40 + low :=
  UInt64.toNat_ofNat_of_lt' (by rw [UInt64.size]; omega)

/-- The words with given top bits are told apart by their lower 40 bits. -/
def wordsEquiv (k : Fin (2 ^ 24)) :
    {word : UInt64 // word.toNat / 2 ^ 40 = k} ≃ Fin (2 ^ 40) where
  toFun word := ⟨word.1.toNat % 2 ^ 40, Nat.mod_lt _ (Nat.two_pow_pos _)⟩
  invFun low := ⟨UInt64.ofNat (k * 2 ^ 40 + low), by rw [toNat_ofNat_bits]; omega⟩
  left_inv := by
    rintro ⟨word, hword⟩
    apply Subtype.ext
    change UInt64.ofNat (k * 2 ^ 40 + word.toNat % 2 ^ 40) = word
    rw [← hword, Nat.div_add_mod', UInt64.ofNat_toNat]
  right_inv := by
    intro low
    apply Fin.ext
    change (UInt64.ofNat (k * 2 ^ 40 + low)).toNat % 2 ^ 40 = low
    rw [toNat_ofNat_bits]
    omega

/-! ## Draws of generators -/

theorem card_generators : Nat.card SplitMix = 2 ^ 64 := by
  rw [Nat.card_congr (Equiv.ofBijective _ next_fst_bijective),
    Nat.card_congr ⟨UInt64.toFin, UInt64.ofFin, fun _ => rfl, fun _ => rfl⟩, Nat.card_fin]
  rfl

/-- Each multiple is drawn by the generators of the words with its top bits. -/
theorem card_fraction_next (k : Fin (2 ^ 24)) :
    Nat.card {generator : SplitMix // fraction generator.next.1 = fractionAt k} = 2 ^ 40 := by
  -- A multiple is determined by the top bits, and every word is the result of one generator.
  have hiff (generator : SplitMix) : fraction generator.next.1 = fractionAt k ↔
      generator.next.1.toNat / 2 ^ 40 = k := by
    rw [fraction_eq, fractionAt_eq_iff (topBits_lt _) k.isLt]
  have hgenerators := (Equiv.ofBijective _ next_fst_bijective).subtypeEquiv
    (q := fun word => word.toNat / 2 ^ 40 = (k : Nat)) hiff
  rw [Nat.card_congr (hgenerators.trans (wordsEquiv k)), Nat.card_fin]

/-- **Draws are exact, in range and uniform.**  The spacing of the fractions is `1 / 2 ^ 24` without
rounding.  Every generator draws the number of the top 24 bits of its next result times the spacing;
neither the conversion of that number nor the product is rounded, so the draw is exactly a fraction
in `[0, 1)`.  There are `2 ^ 64` generators, and each of the `2 ^ 24` fractions is drawn by exactly
`2 ^ 40` of them. -/
theorem draw_uniform :
    (fractionStep = 1 / ofNat (2 ^ 24) ∧ fractionStep.toRat = 1 / 2 ^ 24) ∧
    (∀ generator : SplitMix, ∃ k : Fin (2 ^ 24), k = generator.next.1.toNat / 2 ^ 40 ∧
      DrawSource.draw generator = (ofNat k * fractionStep, generator.next.2) ∧
      (ofNat k).isFinite = true ∧ (ofNat k).toRat = k ∧
      (Operation.mul (ofNat k) fractionStep).IsExact ∧ IsFraction k (ofNat k * fractionStep)) ∧
    Nat.card SplitMix = 2 ^ 64 ∧
    ∀ k : Fin (2 ^ 24), ∃ x, IsFraction k x ∧
      Nat.card {generator : SplitMix // (DrawSource.draw generator).1 = x} = 2 ^ 40 := by
  refine ⟨⟨fractionStep_eq, toRat_fractionStep⟩, fun generator => ?_, card_generators, fun k =>
    ⟨fractionAt k, isFraction_fractionAt k.isLt, card_fraction_next k⟩⟩
  have hk := topBits_lt generator.next.1
  exact ⟨⟨_, hk⟩, rfl, congrArg (·, generator.next.2) (fraction_eq _), isFinite_ofNat (by omega),
    toRat_ofNat hk.le, isExact_fractionAt hk, isFraction_fractionAt hk⟩

end SplitMix

end TimeSignal
