import TimeSignal.Proofs.Binary32.Spacing
import TimeSignal.Proofs.Decimal.Shortest

/-!
# How far the shortest decimal is from its number

A decimal that is taken from a grid is at most two thirds of a grid step away from the number: if
both neighbours of the number on the grid round to it, the nearer one is taken, and if only one
does, the number is not much further from it than from the other.  The grid that the search stops
at is never much finer than the numbers around, because the next coarser one has no decimal that
rounds to the number; so the coefficient has few digits.

## Main results

* `Binary32.gridCoefficient_near`: a decimal on a grid is close to its number
* `Binary32.coefficient_lt`: the coefficient of the shortest decimal is small
-/

namespace TimeSignal

namespace Binary32

open BinaryFormat (binary32)

variable {tie : DecimalTie} {rank step coefficient : Nat}

/-! ## Two neighbours on a grid -/

theorem units_mul_fine_lt {j k : Nat} (h : j < k) :
    binary32.units j * fine < binary32.units k * fine :=
  Nat.mul_lt_mul_of_pos_right (binary32.units_strictMono h) fine_pos

/-- A value at or below a number rounds to it if it is not beyond the midpoint to the rank below.
Scaled values count half units. -/
theorem roundsTo_below {value rest : Nat}
    (hs : value + rest = 2 * (binary32.units (rank + 1) * fine)) :
    (RoundsTo (rank + 1) value →
      binary32.units rank * fine + rest ≤ binary32.units (rank + 1) * fine) ∧
    (¬ RoundsTo (rank + 1) value →
      binary32.units (rank + 1) * fine ≤ binary32.units rank * fine + rest) := by
  have hlow := units_mul_fine_lt (Nat.lt_add_one rank)
  have hhigh := units_mul_fine_lt (Nat.lt_add_one (rank + 1))
  rw [roundsTo_iff, Nat.add_sub_cancel, Nat.add_mul, Nat.add_mul]
  generalize binary32.units rank * fine = a at *
  generalize binary32.units (rank + 1) * fine = b at *
  generalize binary32.units (rank + 1 + 1) * fine = c at *
  omega

/-- A value at or above a number rounds to it if it is not beyond the midpoint to the rank above. -/
theorem roundsTo_above {value rest : Nat}
    (hs : value = 2 * (binary32.units (rank + 1) * fine) + rest) :
    (RoundsTo (rank + 1) value →
      binary32.units (rank + 1) * fine + rest ≤ binary32.units (rank + 2) * fine) ∧
    (¬ RoundsTo (rank + 1) value →
      binary32.units (rank + 2) * fine ≤ binary32.units (rank + 1) * fine + rest) := by
  have hlow := units_mul_fine_lt (Nat.lt_add_one rank)
  have hhigh := units_mul_fine_lt (Nat.lt_add_one (rank + 1))
  rw [roundsTo_iff, Nat.add_sub_cancel, Nat.add_mul, Nat.add_mul]
  generalize binary32.units rank * fine = a at *
  generalize binary32.units (rank + 1) * fine = b at *
  generalize binary32.units (rank + 1 + 1) * fine = c at *
  omega

/-- The distance to the rank above is that to the rank below or its double. -/
theorem units_mul_fine_distances (rank : Nat) :
    2 * (binary32.units (rank + 1) * fine) ≤
      binary32.units rank * fine + binary32.units (rank + 2) * fine ∧
    binary32.units (rank + 2) * fine + 2 * (binary32.units rank * fine) ≤
      3 * (binary32.units (rank + 1) * fine) := by
  obtain ⟨d, e, he, hlow, hhigh⟩ := binary32.exists_units_triple rank
  simp only [hhigh, hlow, Nat.add_mul]
  generalize binary32.units rank * fine = a
  rcases he with rfl | rfl
  · generalize 2 ^ e * fine = p
    omega
  · rw [Nat.pow_succ, Nat.mul_right_comm]
    generalize 2 ^ d * fine = p
    omega

/-- The nearer of two neighbours is at most half a step away. -/
theorem nearerCoefficient_near (tie : DecimalTie) (coefficient rest size : Nat) :
    (nearerCoefficient tie coefficient rest size = coefficient ∧ 2 * rest ≤ size) ∨
      (nearerCoefficient tie coefficient rest size = coefficient + 1 ∧ size ≤ 2 * rest) := by
  unfold nearerCoefficient
  split
  · next h => exact Or.inl ⟨rfl, h.le⟩
  · split
    · next h => exact Or.inr ⟨rfl, h.le⟩
    · have htie : 2 * rest = size := by omega
      cases tie with
      | up => exact Or.inr ⟨rfl, htie.ge⟩
      | even =>
        dsimp only
        split
        · exact Or.inl ⟨rfl, htie.le⟩
        · exact Or.inr ⟨rfl, htie.ge⟩

/-- What a grid has for a number: the neighbours on both sides of it, each of which may round to
it. -/
theorem gridCoefficient_cases (tie : DecimalTie) (rank step : Nat) :
    ∃ below rest, rest < gridStep step ∧
      below * gridStep step + rest = 2 * (binary32.units rank * fine) ∧
      ((gridCoefficient? tie rank step = some (nearerCoefficient tie below rest (gridStep step))) ∨
        (gridCoefficient? tie rank step = some below ∧
          RoundsTo rank (below * gridStep step) ∧
          ¬ RoundsTo rank (below * gridStep step + gridStep step)) ∨
        (gridCoefficient? tie rank step = some (below + 1) ∧
          ¬ RoundsTo rank (below * gridStep step) ∧
          RoundsTo rank (below * gridStep step + gridStep step)) ∨
        (gridCoefficient? tie rank step = none ∧
          ¬ RoundsTo rank (below * gridStep step) ∧
          ¬ RoundsTo rank (below * gridStep step + gridStep step))) := by
  refine ⟨_, _, Nat.mod_lt _ (gridStep_pos step), Nat.div_add_mod' _ _, ?_⟩
  unfold gridCoefficient?
  dsimp only
  rw [Nat.mul_assoc 2, Nat.add_mul, Nat.one_mul]
  split
  · exact Or.inl rfl
  · next hboth =>
    split
    · next hbelow => exact Or.inr (Or.inl ⟨rfl, hbelow, fun habove => hboth ⟨hbelow, habove⟩⟩)
    · next hbelow =>
      split
      · next habove => exact Or.inr (Or.inr (Or.inl ⟨rfl, hbelow, habove⟩))
      · next habove => exact Or.inr (Or.inr (Or.inr ⟨rfl, hbelow, habove⟩))

/-- **A decimal on a grid is at most two thirds of a step away from its number.** -/
theorem gridCoefficient_near (h : gridCoefficient? tie (rank + 1) step = some coefficient) :
    3 * (coefficient * gridStep step) ≤
      3 * (2 * (binary32.units (rank + 1) * fine)) + 2 * gridStep step ∧
    3 * (2 * (binary32.units (rank + 1) * fine)) ≤
      3 * (coefficient * gridStep step) + 2 * gridStep step := by
  obtain ⟨hconvex, hdouble⟩ := units_mul_fine_distances rank
  obtain ⟨below, rest, hrest, hs, hcases⟩ := gridCoefficient_cases tie (rank + 1) step
  have hs' : below * gridStep step + gridStep step =
      2 * (binary32.units (rank + 1) * fine) + (gridStep step - rest) := by omega
  have hsucc : (below + 1) * gridStep step = below * gridStep step + gridStep step :=
    Nat.succ_mul below _
  rw [h] at hcases
  rcases hcases with he | ⟨he, hbelow, habove⟩ | ⟨he, hbelow, habove⟩ | ⟨he, -⟩
  · rcases nearerCoefficient_near tie below rest (gridStep step) with ⟨hn, hle⟩ | ⟨hn, hle⟩
    · rw [Option.some.inj he, hn]
      omega
    · rw [Option.some.inj he, hn]
      omega
  · have := (roundsTo_below hs).1 hbelow
    have := (roundsTo_above hs').2 habove
    rw [Option.some.inj he]
    omega
  · have := (roundsTo_below hs).2 hbelow
    have := (roundsTo_above hs').1 habove
    rw [Option.some.inj he]
    omega
  · cases he

/-- A grid without a decimal for a number is coarser than the ranks around it are apart. -/
theorem units_le_of_gridCoefficient_eq_none (h : gridCoefficient? tie (rank + 1) step = none) :
    binary32.units (rank + 2) * fine ≤ binary32.units rank * fine + gridStep step := by
  obtain ⟨below, rest, hrest, hs, hcases⟩ := gridCoefficient_cases tie (rank + 1) step
  have hs' : below * gridStep step + gridStep step =
      2 * (binary32.units (rank + 1) * fine) + (gridStep step - rest) := by omega
  rw [h] at hcases
  rcases hcases with he | ⟨he, -⟩ | ⟨he, -⟩ | ⟨-, hbelow, habove⟩
  · cases he
  · cases he
  · cases he
  · have := (roundsTo_below hs).2 hbelow
    have := (roundsTo_above hs').2 habove
    omega

/-! ## The grid that the search stops at -/

theorem gridStep_add (step j : Nat) : gridStep (step + j) = gridStep step * 10 ^ j := by
  simp only [gridStep, Nat.shiftLeft_eq, Nat.pow_eq, Nat.pow_add]
  ring

/-- The coefficient on the coarsest grid with a hit has few digits. -/
theorem coefficient_lt (hrank : rank + 1 < infinityRank)
    (h : gridCoefficient? tie (rank + 1) step = some coefficient)
    (hnext : step = 85 ∨ gridCoefficient? tie (rank + 1) (step + 1) = none) :
    coefficient < 2 ^ 30 := by
  have hhigh := (roundsTo_iff.mp (roundsTo_of_gridCoefficient h)).2.1
  apply Nat.lt_of_mul_lt_mul_right (a := gridStep step)
  rcases hnext with rfl | hnone
  · -- No number reaches even one step of the coarsest grid.
    have hlast : 2 * binary32.units infinityRank * fine < 2 ^ 30 * gridStep 85 := by
      decide +kernel
    have := binary32.units_strictMono.monotone hrank.le
    have := binary32.units_strictMono.monotone (show rank + 1 + 1 ≤ infinityRank from hrank)
    refine (hhigh.trans (Nat.mul_le_mul_right _ ?_)).trans_lt hlast
    omega
  · -- The number is a short multiple of the distance to the next rank, and ten steps are longer.
    have hstep := units_le_of_gridCoefficient_eq_none hnone
    rw [gridStep_add] at hstep
    obtain ⟨M, d, -, hM, hgap, hsum⟩ := binary32.exists_units_pair (rank + 1)
    have hlow := units_mul_fine_lt (Nat.lt_add_one rank)
    rw [hgap, Nat.add_mul] at hstep
    have hten : 2 ^ d * fine ≤ 10 * gridStep step := by omega
    calc coefficient * gridStep step
        ≤ (binary32.units (rank + 1) + binary32.units (rank + 1 + 1)) * fine := hhigh
      _ = M * 2 ^ d * fine := congrArg (· * fine) hsum
      _ = M * (2 ^ d * fine) := Nat.mul_assoc _ _ _
      _ ≤ M * (10 * gridStep step) := Nat.mul_le_mul_left M hten
      _ = 10 * M * gridStep step := by ring
      _ < 2 ^ 30 * gridStep step := Nat.mul_lt_mul_of_pos_right ?_ (gridStep_pos step)
    have : binary32.runLength = 2 ^ 23 := rfl
    omega

end Binary32

end TimeSignal
