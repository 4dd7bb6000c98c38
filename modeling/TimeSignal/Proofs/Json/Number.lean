import TimeSignal.Proofs.Decimal.Layout
import TimeSignal.Proofs.Json.Narrow

/-!
# Numbers are read back from JSON

A written number is read as a significand and a power of ten, and one rounded multiplication or
division makes a double-precision number of them.  Its factor is a rounded power of ten, so the
result is nearly the decimal, and exactly the decimal rounded once where the power of ten is small.
That is enough for the second rounding to arrive at the number that was written.

## Main results

* `Json.read_mul`, `Json.read_div`: the shortest decimal of a number is read as the number
* `Json.readNumeral_eq`: what a numeral with a point or an exponent is read as
* `Json.readNumeral_shortest`: the numeral written for a finite number is read as the number
* `Json.toBinary32?_ofBinary32`: a finite number is read back from its value
-/

namespace TimeSignal

namespace Json

open BinaryFormat (binary32 binary64)
open Binary32 (fine gridStep gridCoefficient? IsException)

/-! ## Powers of ten in double precision -/

theorem units_ofNat {n : Nat} (hn : n ≤ 2 ^ 53) :
    binary64.units (binary64.ofNat n) = n * 2 ^ binary64.scale :=
  BinaryFormat.units_ofNat (by decide) hn

/-- Powers of ten are rounded by a relative error of at most `2 ^ (-53)`. -/
theorem units_powerOfTen_near : ∀ j < 47,
    (2 ^ 53 - 1) * (10 ^ j * 2 ^ binary64.scale) ≤ 2 ^ 53 * binary64.units (powerOfTen j) ∧
    2 ^ 53 * binary64.units (powerOfTen j) ≤ (2 ^ 53 + 1) * (10 ^ j * 2 ^ binary64.scale) := by
  decide +kernel

/-- Small powers of ten are not rounded. -/
theorem units_powerOfTen : ∀ j < 23,
    binary64.units (powerOfTen j) = 10 ^ j * 2 ^ binary64.scale := by
  decide +kernel

theorem gridStep_mul_halfUnit (step : Nat) :
    gridStep step * halfUnit = 10 ^ step * 2 ^ binary64.scale := by
  have hscale : binary32.scale + 1 + (binary64.scale - binary32.scale - 1) = binary64.scale := by
    decide
  rw [gridStep, halfUnit, Nat.shiftLeft_eq, Nat.pow_eq, Nat.mul_assoc, ← Nat.pow_add, hscale]

theorem fine_eq (j : Nat) : 10 ^ (j + 46) = 10 ^ j * fine := Nat.pow_add 10 j 46

/-! ## One operation on a significand -/

variable {num den scaled significand coefficient step j : Nat}

/-- A quotient is compared with a scaled value through a common factor of both. -/
theorem Approximates.of_ratio {k t x y : Nat} (ht : 0 < t) (hnum : t * (num * fine) = k * x)
    (hscaled : t * (scaled * (halfUnit * den)) = k * y) (hlow : (2 ^ 52 - 1) * y ≤ 2 ^ 52 * x)
    (hhigh : 2 ^ 52 * x ≤ (2 ^ 52 + 1) * y) : Approximates num den scaled := by
  constructor
  · apply Nat.le_of_mul_le_mul_left _ ht
    rw [Nat.mul_left_comm t (2 ^ 52 - 1), Nat.mul_left_comm t (2 ^ 52), hnum, hscaled,
      Nat.mul_left_comm _ k, Nat.mul_left_comm _ k]
    exact Nat.mul_le_mul_left k hlow
  · apply Nat.le_of_mul_le_mul_left _ ht
    rw [Nat.mul_left_comm t (2 ^ 52 + 1), Nat.mul_left_comm t (2 ^ 52), hnum, hscaled,
      Nat.mul_left_comm _ k, Nat.mul_left_comm _ k]
    exact Nat.mul_le_mul_left k hhigh

/-- The product of a significand and a power of ten, over their exact product. -/
theorem product_eq (hs : significand ≤ 2 ^ 53) (j : Nat) :
    binary64.units (binary64.ofNat significand) * binary64.units (powerOfTen j) * fine =
        significand * 2 ^ binary64.scale * fine * binary64.units (powerOfTen j) ∧
      significand * gridStep (j + 46) * (halfUnit * (1 <<< binary64.scale)) =
        significand * 2 ^ binary64.scale * fine * (10 ^ j * 2 ^ binary64.scale) := by
  constructor
  · rw [units_ofNat hs]
    ring
  · rw [Nat.shiftLeft_eq, Nat.one_mul, ← Nat.mul_assoc, Nat.mul_assoc significand,
      gridStep_mul_halfUnit, fine_eq]
    ring

theorem approximates_mul (hs : significand ≤ 2 ^ 53) (hj : j < 47) :
    Approximates (binary64.units (binary64.ofNat significand) * binary64.units (powerOfTen j))
      (1 <<< binary64.scale) (significand * gridStep (j + 46)) := by
  obtain ⟨hnum, hscaled⟩ := product_eq hs j
  have hnear := units_powerOfTen_near j hj
  rw [← Nat.one_mul (_ * fine)] at hnum
  rw [← Nat.one_mul (_ * (halfUnit * _))] at hscaled
  exact Approximates.of_ratio Nat.one_pos hnum hscaled (by omega) (by omega)

/-- The quotient of a significand and a power of ten, over their exact quotient. -/
theorem quotient_eq (hs : significand ≤ 2 ^ 53)
    (hvalue : scaled * 10 ^ j = significand * gridStep 46) :
    10 ^ j * ((binary64.units (binary64.ofNat significand) <<< binary64.scale) * fine) =
        significand * 2 ^ binary64.scale * fine * (10 ^ j * 2 ^ binary64.scale) ∧
      10 ^ j * (scaled * (halfUnit * binary64.units (powerOfTen j))) =
        significand * 2 ^ binary64.scale * fine * binary64.units (powerOfTen j) := by
  constructor
  · rw [units_ofNat hs, Nat.shiftLeft_eq]
    ring
  · calc 10 ^ j * (scaled * (halfUnit * binary64.units (powerOfTen j)))
        = scaled * 10 ^ j * halfUnit * binary64.units (powerOfTen j) := by ring
      _ = significand * (gridStep 46 * halfUnit) * binary64.units (powerOfTen j) := by
        rw [hvalue, Nat.mul_assoc significand]
      _ = significand * 2 ^ binary64.scale * fine * binary64.units (powerOfTen j) := by
        rw [gridStep_mul_halfUnit, ← Nat.zero_add 46, fine_eq]
        ring

theorem approximates_div (hs : significand ≤ 2 ^ 53) (hj : j < 47)
    (hvalue : scaled * 10 ^ j = significand * gridStep 46) :
    Approximates (binary64.units (binary64.ofNat significand) <<< binary64.scale)
      (binary64.units (powerOfTen j)) scaled := by
  obtain ⟨hnum, hscaled⟩ := quotient_eq hs hvalue
  have hnear := units_powerOfTen_near j hj
  exact Approximates.of_ratio (Nat.pow_pos (by decide)) hnum hscaled (by omega) (by omega)

/-! ## The operation and the second rounding -/

theorem scaleByTen_natCast (rank : Nat) (hj : j ≤ 308) :
    scaleByTen rank j =
      if binary64.mul rank (powerOfTen j) < binary64.infinityRank then
        some (binary64.mul rank (powerOfTen j))
      else none := by
  rw [scaleByTen, if_pos (by omega), if_pos (by omega), Int.natAbs_natCast]

theorem scaleByTen_neg_natCast (rank : Nat) (hpos : 0 < j) (hj : j ≤ 308) :
    scaleByTen rank (-j) = some (binary64.div rank (powerOfTen j)) := by
  rw [scaleByTen, if_pos (by omega), if_neg (by omega), Int.natAbs_neg, Int.natAbs_natCast]

theorem two_mul_halfUnit : 2 * halfUnit = 1 <<< (binary64.scale - binary32.scale) := by
  decide +kernel

variable {rank d : Nat}

/-- A number of double precision is rounded to the finite rank that encloses it. -/
theorem narrow_of_encloses (negative : Bool) (hrank : rank < Binary32.infinityRank)
    (h : binary32.Encloses rank (binary64.units d) (2 * halfUnit)) :
    narrow negative d = Binary32.finite negative ⟨rank, hrank⟩ := by
  have hpos : 0 < 2 * halfUnit := Nat.mul_pos (by decide) halfUnit_pos
  rw [narrow, ← two_mul_halfUnit, Binary32.nearest,
    BinaryFormat.nearest_of_encloses (by decide) hpos h, Binary32.ofRank_of_lt hrank]

/-- A number of double precision that a finite rank encloses is finite. -/
theorem lt_infinityRank_of_encloses (hrank : rank < Binary32.infinityRank)
    (h : binary32.Encloses rank (binary64.units d) (2 * halfUnit)) :
    d < binary64.infinityRank := by
  have hlast : 2 * binary32.units Binary32.infinityRank * halfUnit <
      binary64.units binary64.infinityRank := by
    decide +kernel
  have hhigh := h.high
  have := binary32.units_strictMono.monotone hrank.le
  have := binary32.units_strictMono.monotone (show rank + 1 ≤ Binary32.infinityRank from hrank)
  have hle : (binary32.units rank + binary32.units (rank + 1)) * halfUnit ≤
      2 * binary32.units Binary32.infinityRank * halfUnit :=
    Nat.mul_le_mul_right _ (by omega)
  apply binary64.units_strictMono.lt_iff_lt.mp
  rw [Nat.mul_left_comm] at hhigh
  omega

/-! ## Reading the decimal of a number -/

variable {tie : DecimalTie}

/-- The two exceptions are read as the numbers that they round to. -/
theorem narrow_exception (negative : Bool) (h : IsException coefficient step) :
    narrow negative (binary64.div (binary64.ofNat coefficient) (powerOfTen 32)) =
      (⟨coefficient, (step : Int) - 46⟩ : Decimal).toBinary32 negative := by
  obtain ⟨rfl, rfl | rfl⟩ := h
  · cases negative <;> decide +kernel
  · cases negative <;> decide +kernel

/-- A decimal on a grid of whole numbers is read by a multiplication. -/
theorem read_mul (negative : Bool) (hrank : rank + 1 < Binary32.infinityRank)
    (hj : j + 46 ≤ 85) (hs : coefficient ≤ 2 ^ 53)
    (hc : gridCoefficient? tie (rank + 1) (j + 46) = some coefficient) :
    (scaleByTen (binary64.ofNat coefficient) j).map (narrow negative) =
      some (Binary32.finite negative ⟨rank + 1, hrank⟩) := by
  have hden : 0 < 1 <<< binary64.scale := by decide
  have hencloses : binary32.Encloses (rank + 1)
      (binary64.units (binary64.mul (binary64.ofNat coefficient) (powerOfTen j)))
      (2 * halfUnit) := by
    refine encloses_nearest_of_approximates hden hj hc (approximates_mul hs (by omega)) ?_ ?_
    · intro _ hexact
      obtain ⟨hnum, hscaled⟩ := product_eq hs j
      rw [hnum, hscaled, units_powerOfTen j (by omega)]
    · rintro ⟨hstep, -⟩
      omega
  rw [scaleByTen_natCast _ (by omega), if_pos (lt_infinityRank_of_encloses hrank hencloses),
    Option.map_some, narrow_of_encloses negative hrank hencloses]

/-- A decimal is read by a division of a significand that has its digits and perhaps zeros. -/
theorem read_div (negative : Bool) (hrank : rank + 1 < Binary32.infinityRank) (hstep : step ≤ 85)
    (hc : gridCoefficient? tie (rank + 1) step = some coefficient) (hpos : 0 < j) (hj : j < 47)
    (hs : significand ≤ 2 ^ 53)
    (hvalue : coefficient * gridStep step * 10 ^ j = significand * gridStep 46)
    (hexact : 46 ≤ step → j < 23)
    (hexception : step = 14 → significand = coefficient ∧ j = 32) :
    (scaleByTen (binary64.ofNat significand) (-j)).map (narrow negative) =
      some (Binary32.finite negative ⟨rank + 1, hrank⟩) := by
  rw [scaleByTen_neg_natCast _ hpos (by omega), Option.map_some]
  by_cases hexc : IsException coefficient step
  · obtain ⟨rfl, rfl⟩ := hexception hexc.1
    rw [narrow_exception negative hexc]
    have hne : (⟨rank + 1, hrank⟩ : Fin Binary32.infinityRank).val ≠ 0 := Nat.succ_ne_zero rank
    exact congrArg some (Binary32.toBinary32_of_roundsTo negative hne hstep
      (Binary32.roundsTo_of_gridCoefficient hc))
  · have hden : 0 < binary64.units (powerOfTen j) := by
      have := (units_powerOfTen_near j hj).1
      have : 0 < 10 ^ j * 2 ^ binary64.scale :=
        Nat.mul_pos (Nat.pow_pos (by decide)) (Nat.two_pow_pos _)
      omega
    have hencloses : binary32.Encloses (rank + 1)
        (binary64.units (binary64.div (binary64.ofNat significand) (powerOfTen j)))
        (2 * halfUnit) := by
      refine encloses_nearest_of_approximates hden hstep hc (approximates_div hs hj hvalue) ?_ hexc
      intro hlow _
      obtain ⟨hnum, hscaled⟩ := quotient_eq hs hvalue
      apply Nat.eq_of_mul_eq_mul_left (Nat.pow_pos (show 0 < 10 by decide))
      rw [hnum, hscaled, units_powerOfTen j (hexact hlow)]
    rw [narrow_of_encloses negative hrank hencloses]

/-! ## The parts of a numeral -/

theorem le_ofDigitChars (digits : List Char) (value : Nat) :
    value ≤ Nat.ofDigitChars 10 digits value := by
  rw [Nat.ofDigitChars_eq_ofDigitChars_zero]
  have := Nat.le_mul_of_pos_left value (Nat.pow_pos (n := digits.length) (show 0 < 10 by decide))
  omega

/-- Digits are collected to the end if their value fits. -/
theorem collectDigits_eq {digits : List Char} {value : Nat}
    (h : Nat.ofDigitChars 10 digits value < UInt64.size) :
    collectDigits value digits = (Nat.ofDigitChars 10 digits value, digits.length) := by
  induction digits generalizing value with
  | nil => rfl
  | cons c digits ih =>
    rw [Nat.ofDigitChars_cons] at h ⊢
    have hle := le_ofDigitChars digits (10 * value + (c.toNat - '0'.toNat))
    rw [collectDigits, if_pos (hle.trans_lt h), ih h]
    rfl

/-- A numeral whose digits all fit is read as the decimal that it denotes. -/
theorem magnitude_eq {n : Numeral} (h : n.toDecimal.coefficient < UInt64.size) :
    magnitude n = ⟨n.toDecimal.coefficient, n.toDecimal.exponent,
      n.fraction.isEmpty && n.exponent.isNone⟩ := by
  unfold Numeral.toDecimal at h ⊢
  dsimp only at h ⊢
  rw [Nat.ofDigitChars_append] at h ⊢
  have hwhole := collectDigits_eq ((le_ofDigitChars n.fraction _).trans_lt h)
  simp [magnitude, hwhole, collectDigits_eq h]

/-- A numeral with a point or an exponent is read as the scaled coefficient of its decimal. -/
theorem readNumeral_eq {n : Numeral} (h : n.toDecimal.coefficient < UInt64.size)
    (hpart : n.fraction ≠ [] ∨ n.exponent ≠ none) :
    readNumeral? n = (scaleByTen (binary64.ofNat n.toDecimal.coefficient)
      n.toDecimal.exponent).map (narrow n.negative) := by
  have hwhole : (n.fraction.isEmpty && n.exponent.isNone) = false := by
    rcases hpart with hf | he
    · rw [List.isEmpty_eq_false_iff.mpr hf, Bool.false_and]
    · rw [Option.isNone_eq_false_iff.mpr (Option.isSome_iff_ne_none.mpr he), Bool.and_false]
  unfold readNumeral?
  dsimp only
  rw [magnitude_eq h, Magnitude.isInteger, hwhole]
  rfl

/-! ## Written numbers -/

theorem negative_numeral (style : NumeralStyle) (negative : Bool) (d : Decimal) :
    (style.numeral negative d).negative = negative := by
  rw [style.numeral_eq]

/-- Every written number has a point or an exponent. -/
theorem numeral_parts (negative : Bool) (d : Decimal) :
    (numberStyle.numeral negative d).fraction ≠ [] ∨
      (numberStyle.numeral negative d).exponent ≠ none := by
  unfold NumeralStyle.numeral
  dsimp only
  split
  · refine Or.inl ?_
    unfold NumeralStyle.positional
    dsimp only
    split
    · exact List.cons_ne_nil _ _
    · split
      · intro h
        have := List.drop_eq_nil_iff.mp h
        omega
      · exact List.append_ne_nil_of_right_ne_nil _ Nat.toDigits_ne_nil
  · exact Or.inr (Option.some_ne_none _)

/-- A written number denotes its decimal, or the same with zeros up to one place behind the
point. -/
theorem toDecimal_numeral (negative : Bool) (d : Decimal) :
    (numberStyle.numeral negative d).toDecimal = d ∨
      ∃ coefficient n : Nat, d = ⟨coefficient, n⟩ ∧ 10 ^ n * coefficient < 10 ^ 13 ∧
        (numberStyle.numeral negative d).toDecimal = ⟨10 ^ (n + 1) * coefficient, -1⟩ := by
  unfold NumeralStyle.numeral
  dsimp only
  split
  · next hpositional =>
    rcases lt_or_ge d.exponent 0 with hneg | hpos
    · exact Or.inl (numberStyle.toDecimal_positional negative d hneg)
    · obtain ⟨coefficient, exponent⟩ := d
      obtain ⟨n, rfl⟩ := Int.eq_ofNat_of_zero_le hpos
      refine Or.inr ⟨coefficient, n, rfl, ?_,
        numberStyle.toDecimal_positional_natCast negative rfl coefficient n⟩
      -- The digits and the zeros behind them are at most thirteen.
      have hlead : (n : Int) + (Nat.toDigits 10 coefficient).length - 1 < 13 := by
        simp only [numberStyle, Bool.and_eq_true, decide_eq_true_eq] at hpositional
        exact hpositional.2
      have hdigits : 0 < (Nat.toDigits 10 coefficient).length := Nat.length_toDigits_pos
      have hlt : coefficient < 10 ^ (13 - n) :=
        (Nat.length_toDigits_le_iff (by decide) (by omega)).mp (by omega)
      calc 10 ^ n * coefficient < 10 ^ n * 10 ^ (13 - n) :=
            Nat.mul_lt_mul_of_pos_left hlt (Nat.pow_pos (by decide))
        _ = 10 ^ 13 := by rw [← Nat.pow_add, Nat.add_sub_cancel' (by omega)]
  · exact Or.inl (numberStyle.toDecimal_scientific negative d (by decide))

/-- The numeral written for zero is read as zero. -/
theorem readNumeral_zero (negative : Bool) :
    readNumeral? (numberStyle.numeral negative ⟨0, 0⟩) = some (Binary32.signedZero negative) := by
  have htd : (numberStyle.numeral negative ⟨0, 0⟩).toDecimal = ⟨0, -((1 : Nat) : Int)⟩ := by
    cases negative <;> rfl
  rw [readNumeral_eq (by rw [htd]; decide) (numeral_parts negative _), htd, negative_numeral]
  dsimp only
  rw [scaleByTen_neg_natCast _ (by decide) (by decide)]
  cases negative <;> decide +kernel

/-- **The numeral written for a finite number is read as the number.** -/
theorem readNumeral_shortest (negative : Bool) (rank : Fin Binary32.infinityRank) :
    readNumeral? (numberStyle.numeral negative (Binary32.shortest numberStyle.tie rank)) =
      some (Binary32.finite negative rank) := by
  obtain ⟨_ | rank, hrank⟩ := rank
  · exact readNumeral_zero negative
  · have hne : rank + 1 ≠ 0 := Nat.succ_ne_zero rank
    obtain ⟨step, coefficient, hstep, hc, hnext, hshortest⟩ :=
      Binary32.exists_gridCoefficient_shortestFrom numberStyle.tie hne 85
    have hfew := Binary32.coefficient_lt hrank hc hnext
    have hsize : UInt64.size = 2 ^ 64 := rfl
    rw [Binary32.shortest, if_neg hne, hshortest]
    rcases toDecimal_numeral negative ⟨coefficient, (step : Int) - 46⟩ with
      htd | ⟨_, n, hd, hlt, htd⟩
    · rw [readNumeral_eq (by rw [htd]; dsimp only; omega) (numeral_parts negative _), htd,
        negative_numeral]
      dsimp only
      rcases Nat.lt_or_ge step 46 with hfraction | hwhole
      · obtain ⟨j, hj⟩ := Nat.exists_eq_add_of_le hfraction.le
        rw [show (step : Int) - 46 = -(j : Int) by omega]
        refine read_div negative hrank hstep hc (by omega) (by omega) (by omega) ?_ (by omega)
          (by omega)
        rw [Nat.mul_assoc, ← Binary32.gridStep_add, hj]
      · obtain ⟨j, rfl⟩ := Nat.exists_eq_add_of_le' hwhole
        rw [show ((j + 46 : Nat) : Int) - 46 = j by omega]
        exact read_mul negative hrank hstep (by omega) hc
    · obtain ⟨rfl, he⟩ := Decimal.mk.inj hd
      obtain rfl : step = 46 + n := by omega
      have hsignificand : 10 ^ (n + 1) * coefficient < 10 ^ 14 := by
        rw [Nat.pow_succ', Nat.mul_assoc]
        omega
      rw [readNumeral_eq (by rw [htd]; dsimp only; omega) (numeral_parts negative _), htd,
        negative_numeral]
      refine read_div negative hrank hstep hc Nat.one_pos (by decide) ?_ ?_ (fun _ => by decide)
        (by omega)
      · dsimp only
        omega
      rw [Binary32.gridStep_add]
      ring

/-- **A finite number is read back from its JSON value.** -/
theorem toBinary32?_ofBinary32 {x : Binary32} (h : x.isFinite = true) :
    toBinary32? (ofBinary32 x) = some x := by
  cases x with
  | finite negative rank => exact readNumeral_shortest negative rank
  | nan | infinite => cases h

end Json

end TimeSignal
