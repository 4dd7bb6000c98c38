import TimeSignal.Sampler.Batch
import TimeSignal.Proofs.Binary32.Order
import Mathlib.Data.List.Basic

/-!
# Evenly spaced times

All times of a range but the last are computed, each from the first one and a multiple of one step.
The count of a time, its product with the step and its sum with the first time are rounded one after
the other, and each rounding keeps the order, so the computed times move one way however often they
are rounded.

## Main definitions

* `evenStep`, `evenTime`: the step of a range, and one computed time

## Main results

* `evenTimes_eq_ok`: the times of a range
* `numLe_evenTime`, `numLe_evenTime_of_le`: the computed times move one way
* `evenTimes_monotone`: a range starts and ends where it should, and moves one way
-/

namespace TimeSignal

open Binary32

/-! ## The times of a range -/

/-- The rounded step of a range. -/
def evenStep (first last : Binary32) (steps : Nat) : Binary32 :=
  (last - first) / ofNat (steps - 1)

/-- The computed time with the given index. -/
def evenTime (first last : Binary32) (steps i : Nat) : Binary32 :=
  first + evenStep first last steps * ofNat i

variable {first last : Binary32} {steps : Nat}

theorem evenTimes_eq_ok (hf : first.isFinite = true) (hl : last.isFinite = true)
    (h2 : 2 ≤ steps) : evenTimes first last steps =
      .ok ((List.range (steps - 1)).map (evenTime first last steps) ++ [last]) := by
  obtain ⟨n, rfl⟩ := Nat.exists_eq_add_of_le' h2
  rw [evenTimes, hf, hl]
  rfl

/-- A relation between each time and the later ones relates the computed times in their order. -/
theorem pairwise_evenTime {relation : Binary32 → Binary32 → Prop}
    (h : ∀ {i j}, i ≤ j → j < steps →
      relation (evenTime first last steps i) (evenTime first last steps j)) :
    ((List.range (steps - 1)).map (evenTime first last steps)).Pairwise relation := by
  rw [List.pairwise_map]
  refine List.Pairwise.imp_of_mem ?_ List.pairwise_lt_range
  intro i j hi hj hij
  rw [List.mem_range] at hj
  exact h hij.le (by omega)

section

variable (hf : first.isFinite = true) (hl : last.isFinite = true)
  (hd : (last - first).isFinite = true) (h2 : 2 ≤ steps) (hs : steps < 2 ^ 64)

include hd h2 hs

theorem isFinite_evenStep : (evenStep first last steps).isFinite = true :=
  isFinite_div hd (one_le_units_ofNat (by omega) (by omega))

theorem position_evenStep : ∃ den > 0, (evenStep first last steps).position =
    some (placeOf ((last - first).units * 2 ^ BinaryFormat.binary32.scale) den) := by
  have hcount := one_le_units_ofNat (n := steps - 1) (by omega) (by omega)
  have hpos : 0 < (ofNat (steps - 1)).units := Int.lt_of_lt_of_le (by decide) hcount
  exact ⟨_, by omega, position_div hd hpos⟩

include hf hl

/-- The step of a range that does not end before its start is not negative. -/
theorem units_evenStep_nonneg (h : first.numLe last = true) :
    0 ≤ (evenStep first last steps).units := by
  have hle := (numLe_finite_iff hf hl).mp h
  have hdiff : 0 ≤ (last - first).units :=
    units_nonneg_of_position hd (position_sub hl hf) (placeOf_nonneg Nat.one_pos (by omega))
  obtain ⟨den, hden, hplace⟩ := position_evenStep hd h2 hs
  exact units_nonneg_of_position (isFinite_evenStep hd h2 hs) hplace
    (placeOf_nonneg hden (Int.mul_nonneg hdiff (Int.pow_nonneg (by decide))))

theorem units_evenStep_nonpos (h : last.numLe first = true) :
    (evenStep first last steps).units ≤ 0 := by
  have hle := (numLe_finite_iff hl hf).mp h
  have hdiff : (last - first).units ≤ 0 :=
    units_nonpos_of_position hd (position_sub hl hf) (placeOf_nonpos Nat.one_pos (by omega))
  obtain ⟨den, hden, hplace⟩ := position_evenStep hd h2 hs
  exact units_nonpos_of_position (isFinite_evenStep hd h2 hs) hplace
    (placeOf_nonpos hden (Int.mul_nonpos_of_nonpos_of_nonneg hdiff (Int.pow_nonneg (by decide))))

/-- In a range that does not end before its start, later times are not smaller. -/
theorem numLe_evenTime (h : first.numLe last = true) {i j : Nat} (hij : i ≤ j) (hj : j < steps) :
    (evenTime first last steps i).numLe (evenTime first last steps j) = true :=
  numLe_add_left hf (numLe_mul_left (isFinite_evenStep hd h2 hs)
    (units_evenStep_nonneg hf hl hd h2 hs h) (isFinite_ofNat (by omega)) (isFinite_ofNat (by omega))
    (numLe_ofNat hij))

/-- In a range that does not end after its start, later times are not greater. -/
theorem numLe_evenTime_of_le (h : last.numLe first = true) {i j : Nat} (hij : i ≤ j)
    (hj : j < steps) :
    (evenTime first last steps j).numLe (evenTime first last steps i) = true :=
  numLe_add_left hf (numLe_mul_left_of_nonpos (isFinite_evenStep hd h2 hs)
    (units_evenStep_nonpos hf hl hd h2 hs h) (isFinite_ofNat (by omega)) (isFinite_ofNat (by omega))
    (numLe_ofNat hij))

omit hl

theorem evenTime_ne_nan {i : Nat} (hi : i < steps) : evenTime first last steps i ≠ nan := by
  have hproduct := position_mul (isFinite_evenStep hd h2 hs) (isFinite_ofNat (n := i) (by omega))
  exact ne_nan_of_numLe_left (numLe_add_left hf (numLe_refl (ne_nan_of_position hproduct)))

/-- The product of the step with zero is a zero, which changes at most the sign of a zero. -/
theorem numEq_evenTime_zero : (evenTime first last steps 0).numEq first = true := by
  have hzero : ofNat 0 = 0 := by decide
  have hproduct : Agree (evenStep first last steps * ofNat 0) 0 := by
    rw [hzero]
    exact agree_mul_zero (isFinite_evenStep hd h2 hs)
  have hagree := ((Agree.refl first).add hproduct).trans (agree_add_zero first)
  exact hagree.resolve_left fun h => evenTime_ne_nan hf hd h2 hs (by omega) h.1

end

/-- **A range starts and ends where it should, and moves one way.**  If the difference of its ends
does not overflow, a range of at least two times, and of no more than a word can count, has as many
times as asked for.  The first one is equal to the given one by value, the last one is the given one
itself, and none is `nan`.  The times before the last do not decrease if the range ends at its start
or after it, and do not increase if it ends at its start or before it. -/
theorem evenTimes_monotone (hf : first.isFinite = true) (hl : last.isFinite = true)
    (hd : (last - first).isFinite = true) (h2 : 2 ≤ steps) (hs : steps < 2 ^ 64) :
    ∃ times, evenTimes first last steps = .ok times ∧ times.length = steps ∧
      (∃ x, times.head? = some x ∧ x.numEq first = true) ∧ times.getLast? = some last ∧
      (∀ x ∈ times, x ≠ nan) ∧
      (first.numLe last = true → times.dropLast.Pairwise fun x y => x.numLe y = true) ∧
      (last.numLe first = true → times.dropLast.Pairwise fun x y => y.numLe x = true) := by
  refine ⟨_, evenTimes_eq_ok hf hl h2, ?_, ⟨_, ?_, numEq_evenTime_zero hf hd h2 hs⟩, ?_, ?_, ?_, ?_⟩
  · rw [List.length_append, List.length_map, List.length_range, List.length_singleton]
    omega
  · obtain ⟨n, hn⟩ : ∃ n, steps - 1 = n + 1 := ⟨steps - 2, by omega⟩
    rw [hn, List.range_succ_eq_map]
    rfl
  · exact List.getLast?_concat
  · intro x hx
    rcases List.mem_append.mp hx with hx | hx
    · obtain ⟨i, hi, rfl⟩ := List.mem_map.mp hx
      rw [List.mem_range] at hi
      exact evenTime_ne_nan hf hd h2 hs (by omega)
    · rw [List.mem_singleton.mp hx]
      exact ne_nan_of_isFinite hl
  · intro h
    rw [List.dropLast_concat]
    exact pairwise_evenTime fun hij hj => numLe_evenTime hf hl hd h2 hs h hij hj
  · intro h
    rw [List.dropLast_concat]
    exact pairwise_evenTime fun hij hj => numLe_evenTime_of_le hf hl hd h2 hs h hij hj

/-- The number that follows eight. -/
def afterEight : Binary32 := finite false ⟨0x41000001, by decide⟩

/-- A range downwards with so many steps that the last of them have counts in common. -/
theorem evenTimes_monotone_commonCounts :
    afterEight.isFinite = true ∧ (signedZero true).isFinite = true ∧
      (signedZero true - afterEight).isFinite = true ∧ 2 ≤ 2 ^ 24 + 3 ∧ 2 ^ 24 + 3 < 2 ^ 64 ∧
      ofNat (2 ^ 24 + 1) = ofNat (2 ^ 24) ∧
      ∃ times, evenTimes afterEight (signedZero true) (2 ^ 24 + 3) = .ok times ∧
        times.length = 2 ^ 24 + 3 ∧ times.getLast? = some (signedZero true) ∧
        (∀ x ∈ times, x ≠ nan) ∧ times.dropLast.Pairwise fun x y => y.numLe x = true := by
  have hf : afterEight.isFinite = true := rfl
  have hl : (signedZero true).isFinite = true := rfl
  have hd : (signedZero true - afterEight).isFinite = true := by decide
  have h2 : 2 ≤ 2 ^ 24 + 3 := by decide
  have hs : 2 ^ 24 + 3 < 2 ^ 64 := by decide
  obtain ⟨times, hok, hlength, -, hlast, hnan, -, hdown⟩ := evenTimes_monotone hf hl hd h2 hs
  exact ⟨hf, hl, hd, h2, hs, by decide, times, hok, hlength, hlast, hnan, hdown (by decide)⟩

end TimeSignal
