import TimeSignal.Decimal.Shortest
import TimeSignal.Proofs.Binary32.Rounding

/-!
# The shortest decimal rounds to its number

A decimal on one of the searched grids is taken only if its scaled value lies among the values that
round to the wanted rank, and on the finest grid there is always such a decimal.  So whichever grid
the search stops at, the decimal that it finds is read back as the number.

## Main results

* `Binary32.RoundsTo.encloses`: the scaled values that round to a rank are the quotients that the
  rank encloses
* `Binary32.exists_gridCoefficient_shortestFrom`: the search stops at the coarsest grid with a hit
* `Binary32.exists_shortestFrom`: the search finds a decimal that rounds to the rank
* `Binary32.toBinary32_shortest`: the shortest decimal of a number is read back as the number
-/

namespace TimeSignal

namespace Binary32

open BinaryFormat (binary32)

/-! ## Scaled values -/

theorem fine_pos : 0 < fine := Nat.pow_pos (by decide)

theorem gridStep_pos (step : Nat) : 0 < gridStep step := by
  rw [gridStep, Nat.shiftLeft_eq]
  exact Nat.mul_pos (Nat.pow_pos (by decide)) (Nat.two_pow_pos _)

/-- The finest grid is finer than the smallest positive number. -/
theorem gridStep_zero_lt : gridStep 0 < fine := by decide

theorem roundsTo_iff {rank scaled : Nat} :
    RoundsTo rank scaled ↔
      (binary32.units (rank - 1) + binary32.units rank) * fine ≤ scaled ∧
      scaled ≤ (binary32.units rank + binary32.units (rank + 1)) * fine ∧
      (rank % 2 = 1 → (binary32.units (rank - 1) + binary32.units rank) * fine ≠ scaled ∧
        scaled ≠ (binary32.units rank + binary32.units (rank + 1)) * fine) := by
  unfold RoundsTo
  dsimp only
  split <;> omega

theorem RoundsTo.encloses {rank scaled num den : Nat} (h : RoundsTo rank scaled) (hden : 0 < den)
    (hs : scaled * den = 2 * num * fine) : binary32.Encloses rank num den := by
  obtain ⟨hlow, hhigh, hodd⟩ := roundsTo_iff.mp h
  have hmul : ∀ a : Nat, a * fine * den = a * den * fine := fun a => Nat.mul_right_comm a fine den
  refine ⟨?_, ?_, fun ho => ⟨fun he => (hodd ho).1 ?_, fun he => (hodd ho).2 ?_⟩⟩
  · apply Nat.le_of_mul_le_mul_right _ fine_pos
    rw [← hmul, ← hs]
    exact Nat.mul_le_mul_right den hlow
  · apply Nat.le_of_mul_le_mul_right _ fine_pos
    rw [← hmul, ← hs]
    exact Nat.mul_le_mul_right den hhigh
  · apply Nat.eq_of_mul_eq_mul_right hden
    rw [hmul, he, hs]
  · apply Nat.eq_of_mul_eq_mul_right hden
    rw [hmul, ← he, hs]

theorem not_roundsTo_zero {rank : Nat} (h : rank ≠ 0) : ¬ RoundsTo rank 0 := by
  intro hr
  have hpos : binary32.units 0 < binary32.units rank :=
    binary32.units_strictMono (Nat.pos_of_ne_zero h)
  have hsum : 0 < binary32.units (rank - 1) + binary32.units rank := by omega
  exact Nat.not_le.mpr (Nat.mul_pos hsum fine_pos) (roundsTo_iff.mp hr).1

/-! ## The search -/

theorem nearerCoefficient_eq (tie : DecimalTie) (coefficient rest step : Nat) :
    nearerCoefficient tie coefficient rest step = coefficient ∨
      nearerCoefficient tie coefficient rest step = coefficient + 1 := by
  unfold nearerCoefficient
  split
  · exact Or.inl rfl
  · split
    · exact Or.inr rfl
    · cases tie with
      | up => exact Or.inr rfl
      | even => exact ite_eq_or_eq _ _ _

theorem roundsTo_of_gridCoefficient {tie : DecimalTie} {rank step coefficient : Nat}
    (h : gridCoefficient? tie rank step = some coefficient) :
    RoundsTo rank (coefficient * gridStep step) := by
  unfold gridCoefficient? at h
  dsimp only at h
  split at h
  · next hboth =>
    -- Whichever of the two neighbours is nearer, it rounds to the rank.
    rw [← Option.some.inj h]
    rcases nearerCoefficient_eq tie _ _ _ with he | he
    · rw [he]
      exact hboth.1
    · rw [he]
      exact hboth.2
  · split at h
    · next hbelow =>
      rw [← Option.some.inj h]
      exact hbelow
    · split at h
      · next habove =>
        rw [← Option.some.inj h]
        exact habove
      · cases h

/-- On the finest grid, the point at or below a number rounds to it. -/
theorem roundsTo_finest {rank : Nat} (h : rank ≠ 0) :
    RoundsTo rank (2 * binary32.units rank * fine / gridStep 0 * gridStep 0) := by
  have hlt : binary32.units (rank - 1) < binary32.units rank :=
    binary32.units_strictMono (by omega)
  have hlt' : binary32.units rank < binary32.units (rank + 1) :=
    binary32.units_strictMono (Nat.lt_succ_self rank)
  have hle : 2 * binary32.units rank * fine / gridStep 0 * gridStep 0 ≤
      2 * binary32.units rank * fine := Nat.div_mul_le_self _ _
  have hgt : 2 * binary32.units rank * fine <
      2 * binary32.units rank * fine / gridStep 0 * gridStep 0 + gridStep 0 :=
    Nat.lt_div_mul_add (gridStep_pos 0)
  have hlow : (binary32.units (rank - 1) + binary32.units rank) * fine + fine ≤
      2 * binary32.units rank * fine := by
    rw [← Nat.succ_mul]
    exact Nat.mul_le_mul_right _ (by omega)
  have hhigh : 2 * binary32.units rank * fine <
      (binary32.units rank + binary32.units (rank + 1)) * fine :=
    Nat.mul_lt_mul_of_pos_right (by omega) fine_pos
  -- A point that is less than one grid step away is closer than either midpoint.
  have hstep := gridStep_zero_lt
  rw [roundsTo_iff]
  generalize fine = f at *
  generalize gridStep 0 = g at *
  omega

theorem exists_gridCoefficient_finest (tie : DecimalTie) {rank : Nat} (h : rank ≠ 0) :
    ∃ coefficient, gridCoefficient? tie rank 0 = some coefficient := by
  unfold gridCoefficient?
  dsimp only
  split
  · exact ⟨_, rfl⟩
  · rw [if_pos (roundsTo_finest h)]
    exact ⟨_, rfl⟩

/-- The search stops at the coarsest grid with a decimal that rounds to the rank. -/
theorem exists_gridCoefficient_shortestFrom (tie : DecimalTie) {rank : Nat} (h : rank ≠ 0)
    (start : Nat) :
    ∃ step coefficient, step ≤ start ∧ gridCoefficient? tie rank step = some coefficient ∧
      (step = start ∨ gridCoefficient? tie rank (step + 1) = none) ∧
      shortestFrom tie rank start = ⟨coefficient, (step : Int) - 46⟩ := by
  -- Induction on the grids that are left: a hit, or the search on the next finer one.
  induction start with
  | zero =>
    obtain ⟨coefficient, hc⟩ := exists_gridCoefficient_finest tie h
    exact ⟨0, coefficient, Nat.le_refl 0, hc, Or.inl rfl, by rw [shortestFrom, hc]; rfl⟩
  | succ start ih =>
    rw [shortestFrom]
    cases hc : gridCoefficient? tie rank (start + 1) with
    | some coefficient => exact ⟨start + 1, coefficient, Nat.le_refl _, hc, Or.inl rfl, rfl⟩
    | none =>
      obtain ⟨step, coefficient, hle, hs, hnext, he⟩ := ih
      refine ⟨step, coefficient, Nat.le_succ_of_le hle, hs, Or.inr ?_, he⟩
      rcases hnext with rfl | hnext
      · exact hc
      · exact hnext

theorem exists_shortestFrom (tie : DecimalTie) {rank : Nat} (h : rank ≠ 0) (step : Nat) :
    ∃ step' coefficient, step' ≤ step ∧ RoundsTo rank (coefficient * gridStep step') ∧
      shortestFrom tie rank step = ⟨coefficient, (step' : Int) - 46⟩ := by
  obtain ⟨step', coefficient, hle, hc, -, he⟩ := exists_gridCoefficient_shortestFrom tie h step
  exact ⟨step', coefficient, hle, roundsTo_of_gridCoefficient hc, he⟩

theorem coefficient_shortest_ne_zero (tie : DecimalTie) {rank : Nat} (h : rank ≠ 0) :
    (shortest tie rank).coefficient ≠ 0 := by
  obtain ⟨step, coefficient, -, hr, he⟩ := exists_shortestFrom tie h 85
  rw [shortest, if_neg h, he]
  rintro rfl
  rw [Nat.zero_mul] at hr
  exact not_roundsTo_zero h hr

/-! ## Reading back -/

theorem nearest_of_roundsTo {negative : Bool} {rank : Fin infinityRank} {scaled num den : Nat}
    (h : RoundsTo rank scaled) (hden : 0 < den) (hs : scaled * den = 2 * num * fine) :
    nearest negative num den = finite negative rank := by
  rw [nearest, BinaryFormat.nearest_of_encloses (by decide) hden (h.encloses hden hs)]
  exact ofRank_of_lt rank.isLt

theorem toBinary32_of_roundsTo (negative : Bool) {rank : Fin infinityRank} (hrank : rank.val ≠ 0)
    {step coefficient : Nat} (hstep : step ≤ 85)
    (h : RoundsTo rank (coefficient * gridStep step)) :
    (⟨coefficient, (step : Int) - 46⟩ : Decimal).toBinary32 negative = finite negative rank := by
  have hc : coefficient ≠ 0 := by
    rintro rfl
    rw [Nat.zero_mul] at h
    exact not_roundsTo_zero hrank h
  unfold Decimal.toBinary32
  dsimp only
  -- The exponent is between `-46` and `39`, so it neither overflows nor vanishes at once.
  rw [if_neg hc, if_neg (by omega), if_neg (by omega)]
  split
  · next hexp =>
    -- The grid is one of whole numbers.
    obtain ⟨e, rfl⟩ : ∃ e, step = e + 46 := ⟨step - 46, by omega⟩
    have he : ((e + 46 : Nat) - 46 : Int).toNat = e := by omega
    rw [he]
    apply nearest_of_roundsTo h Nat.one_pos
    simp only [gridStep, fine, Nat.shiftLeft_eq, Nat.pow_eq, Nat.pow_add, Nat.pow_one]
    generalize 10 ^ 46 = f
    ring
  · next hexp =>
    -- The grid is finer than the whole numbers, by the factor that the finest grid is still finer.
    obtain ⟨j, hj⟩ : ∃ j, 46 = step + j := ⟨46 - step, by omega⟩
    have he : (-((step : Int) - 46)).toNat = j := by omega
    have hfine : fine = 10 ^ step * 10 ^ j := by rw [← Nat.pow_add, ← hj]; rfl
    rw [he]
    apply nearest_of_roundsTo h (Nat.pow_pos (by decide))
    simp only [gridStep, hfine, Nat.shiftLeft_eq, Nat.pow_eq, Nat.pow_add, Nat.pow_one]
    ring

theorem exponent_shortest_le (tie : DecimalTie) (rank : Nat) :
    (shortest tie rank).exponent ≤ 40 := by
  unfold shortest
  split
  · decide
  · next h =>
    obtain ⟨step, coefficient, hle, -, he⟩ := exists_shortestFrom tie h 85
    rw [he]
    dsimp only
    omega

/-- **The shortest decimal of a number is read back as the number.** -/
theorem toBinary32_shortest (tie : DecimalTie) (negative : Bool) (rank : Fin infinityRank) :
    (shortest tie rank).toBinary32 negative = finite negative rank := by
  unfold shortest
  split
  · next h =>
    obtain rfl : rank = ⟨0, by decide⟩ := Fin.ext h
    rfl
  · next h =>
    obtain ⟨step, coefficient, hle, hr, he⟩ := exists_shortestFrom tie h 85
    rw [he]
    exact toBinary32_of_roundsTo negative h hle hr

end Binary32

end TimeSignal
