import TimeSignal.Proofs.Binary32.Rounding
import Mathlib.Order.WellFounded

/-!
# Neighbours on the grid

Every quotient is enclosed by some rank, so the rank that it rounds to is the one that encloses it,
and a quotient on one side of a midpoint rounds to a rank on that side.  Two neighbours are a power
of two apart; from one pair to the next their distance stays or doubles.

## Main results

* `BinaryFormat.encloses_nearest`: the rank that a quotient rounds to encloses it
* `BinaryFormat.lt_nearest`, `BinaryFormat.nearest_lt`: a quotient beyond a midpoint rounds to a
  rank beyond it
* `BinaryFormat.units_nearest_le`: how far a quotient is rounded up
* `BinaryFormat.exists_units_pair`: the midpoint and the distance of two neighbours
* `BinaryFormat.exists_units_eq`: a small multiple of a power of two is on the grid
* `BinaryFormat.units_ofNat`: a short natural number is not rounded
-/

namespace TimeSignal

namespace BinaryFormat

variable {F : BinaryFormat} {num den : Nat}

/-! ## The rank that a quotient rounds to -/

theorem le_units (F : BinaryFormat) (k : Nat) : k ≤ F.units k := F.units_strictMono.le_apply

/-- Every quotient is enclosed by some rank. -/
theorem exists_encloses (F : BinaryFormat) (num : Nat) {den : Nat} (hden : 0 < den) :
    ∃ k, F.Encloses k num den := by
  have hex : ∃ k, 2 * num < (F.units k + F.units (k + 1)) * den := by
    refine ⟨num, Nat.lt_of_lt_of_le ?_ (Nat.le_mul_of_pos_right _ hden)⟩
    have := F.le_units num
    have := F.le_units (num + 1)
    omega
  -- The first rank with its upper midpoint above the quotient, or the one before it on a tie.
  have hlt := Nat.find_spec hex
  have hmin := fun {j : Nat} => Nat.find_min (m := j) hex
  generalize Nat.find hex = k at hlt hmin
  cases k with
  | zero => exact ⟨0, by simp, hlt.le, fun h => by omega⟩
  | succ k =>
    have hle := Nat.not_lt.mp (hmin (Nat.lt_succ_self k))
    rcases Nat.lt_or_eq_of_le hle with hlow | htie
    · exact ⟨k + 1, hle, hlt.le, fun _ => ⟨hlow.ne, hlt.ne⟩⟩
    · rcases Nat.mod_two_eq_zero_or_one k with heven | hodd
      · refine ⟨k, ?_, htie.ge, fun h => by omega⟩
        rw [← htie]
        refine Nat.mul_le_mul_right den ?_
        have := F.units_strictMono.monotone (Nat.sub_le k 1)
        have := F.units_strictMono.monotone (Nat.le_add_right k 1)
        omega
      · exact ⟨k + 1, hle, hlt.le, fun h => by omega⟩

/-- **The rank that a quotient rounds to encloses it.** -/
theorem encloses_nearest (hF : 0 < F.fractionBits) (num : Nat) (hden : 0 < den) :
    F.Encloses (F.nearest num den) num den := by
  obtain ⟨k, hk⟩ := F.exists_encloses num hden
  rwa [nearest_of_encloses hF hden hk]

/-- A quotient above a midpoint rounds to a rank above it. -/
theorem lt_nearest (hF : 0 < F.fractionBits) (hden : 0 < den) {a : Nat}
    (h : (F.units a + F.units (a + 1)) * den < 2 * num) : a < F.nearest num den := by
  by_contra hle
  have hhigh := (encloses_nearest hF num hden).high
  generalize F.nearest num den = k at *
  have := F.units_strictMono.monotone (show k ≤ a by omega)
  have := F.units_strictMono.monotone (show k + 1 ≤ a + 1 by omega)
  have := Nat.mul_le_mul_right den (show F.units k + F.units (k + 1) ≤
    F.units a + F.units (a + 1) by omega)
  omega

/-- A quotient below a midpoint rounds to a rank below it. -/
theorem nearest_lt (hF : 0 < F.fractionBits) (hden : 0 < den) {a : Nat}
    (h : 2 * num < (F.units (a - 1) + F.units a) * den) : F.nearest num den < a := by
  by_contra hle
  have hlow := (encloses_nearest hF num hden).low
  generalize F.nearest num den = k at *
  have := F.units_strictMono.monotone (show a ≤ k by omega)
  have := F.units_strictMono.monotone (show a - 1 ≤ k - 1 by omega)
  have := Nat.mul_le_mul_right den (show F.units (a - 1) + F.units a ≤
    F.units (k - 1) + F.units k by omega)
  omega

/-! ## Distances -/

/-- Two neighbours are a power of two apart, and their sum is an odd multiple of it. -/
theorem exists_units_pair (F : BinaryFormat) (k : Nat) :
    ∃ M d, M % 2 = 1 ∧ M < 4 * F.runLength ∧ F.units (k + 1) = F.units k + 2 ^ d ∧
      F.units k + F.units (k + 1) = M * 2 ^ d := by
  obtain ⟨d, m, rfl, hm, hd⟩ := F.exists_eq_add k
  refine ⟨2 * m + 1, d, by omega, by omega, ?_⟩
  rw [show m + d * F.runLength + 1 = (m + 1) + d * F.runLength by omega,
    units_add hm.le hd, units_add (by omega) (by omega)]
  constructor <;> ring

/-- The distance between neighbours stays the same or doubles with the rank. -/
theorem exists_units_triple (F : BinaryFormat) (k : Nat) :
    ∃ d e, (e = d ∨ e = d + 1) ∧ F.units (k + 1) = F.units k + 2 ^ d ∧
      F.units (k + 2) = F.units (k + 1) + 2 ^ e := by
  obtain ⟨d, m, rfl, hm, hd⟩ := F.exists_eq_add k
  have hsucc : m + d * F.runLength + 1 = (m + 1) + d * F.runLength := by omega
  have hunits := units_add (F := F) (d := d) (m := m + 1) (by omega) (by omega)
  rcases Nat.lt_or_eq_of_le (Nat.succ_le_of_lt hm) with hlt | heq
  · refine ⟨d, d, Or.inl rfl, ?_, ?_⟩
    · rw [hsucc, hunits, units_add hm.le hd]
      ring
    · rw [hsucc, hunits, show m + d * F.runLength + 2 = (m + 2) + d * F.runLength by omega,
        units_add (by omega) (by omega)]
      ring
  · -- The second neighbour is the second rank of the next run.
    have hrun := F.runLength_pos
    refine ⟨d, d + 1, Or.inr rfl, ?_, ?_⟩
    · rw [hsucc, hunits, units_add hm.le hd]
      ring
    · rw [hsucc, hunits, show m + d * F.runLength + 2 =
          (F.runLength + 1) + (d + 1) * F.runLength by rw [Nat.add_mul]; omega,
        units_add (by omega) (by omega), show m + 1 = 2 * F.runLength from heq]
      ring

/-- From the first doubling on, neighbours differ by a small part of themselves. -/
theorem units_succ_mul_le {a : Nat} (ha : F.runLength ≤ a) :
    F.units (a + 1) * F.runLength ≤ F.units a * (F.runLength + 1) := by
  obtain ⟨d, m, rfl, hm, hd⟩ := F.exists_eq_add a
  have hge : F.runLength ≤ m := by
    rcases hd with rfl | hd
    · omega
    · exact hd
  rw [show m + d * F.runLength + 1 = (m + 1) + d * F.runLength by omega,
    units_add hm.le hd, units_add (by omega) (by omega)]
  calc (m + 1) * 2 ^ d * F.runLength = m * 2 ^ d * F.runLength + F.runLength * 2 ^ d := by ring
    _ ≤ m * 2 ^ d * F.runLength + m * 2 ^ d :=
      Nat.add_le_add_left (Nat.mul_le_mul_right _ hge) _
    _ = m * 2 ^ d * (F.runLength + 1) := by ring

/-- A quotient is rounded up by at most a half of the smallest positive number, or by a small part
of itself. -/
theorem units_nearest_le (hF : 0 < F.fractionBits) (num : Nat) (hden : 0 < den) :
    2 * (F.units (F.nearest num den) * den) ≤ 2 * num + den ∨
      F.units (F.nearest num den) * den * (2 * F.runLength + 1) ≤
        num * (2 * F.runLength + 2) := by
  have hlow := (encloses_nearest hF num hden).low
  cases hk : F.nearest num den with
  | zero =>
    rw [units_zero]
    omega
  | succ j =>
    rw [hk, Nat.add_sub_cancel] at hlow
    rcases Nat.lt_or_ge j F.runLength with hlt | hge
    · -- Before the first doubling the neighbours are one smallest number apart.
      have hj := units_add (F := F) (d := 0) (m := j) (by omega) (Or.inl rfl)
      have hj' := units_add (F := F) (d := 0) (m := j + 1) (by omega) (Or.inl rfl)
      rw [Nat.zero_mul, Nat.add_zero, Nat.pow_zero, Nat.mul_one] at hj hj'
      have hsucc : (j + 1) * den = j * den + den := Nat.succ_mul j den
      rw [hj, hj', Nat.add_mul] at hlow
      rw [hj']
      omega
    · have hstep := Nat.mul_le_mul_right den (units_succ_mul_le hge)
      have hlow' := Nat.mul_le_mul_right (F.runLength + 1) hlow
      refine Or.inr ?_
      generalize F.units (j + 1) = u' at *
      generalize F.units j = u at *
      generalize F.runLength = p at *
      calc u' * den * (2 * p + 1) = u' * p * den + u' * den * (p + 1) := by ring
        _ ≤ u * (p + 1) * den + u' * den * (p + 1) := Nat.add_le_add_right hstep _
        _ = (u + u') * den * (p + 1) := by ring
        _ ≤ 2 * num * (p + 1) := hlow'
        _ = num * (2 * p + 2) := by ring

/-! ## Points of the grid -/

/-- A multiple of a power of two is on the grid if its factor is short enough. -/
theorem exists_units_eq {m : Nat} (hm : m ≤ 2 * F.runLength) (d : Nat) :
    ∃ k, F.units k = m * 2 ^ d := by
  induction d generalizing m with
  | zero => exact ⟨m, by simpa using units_add (F := F) (d := 0) hm (Or.inl rfl)⟩
  | succ d ih =>
    rcases Nat.le_total F.runLength m with hge | hle
    · exact ⟨m + (d + 1) * F.runLength, units_add hm (Or.inr hge)⟩
    · obtain ⟨k, hk⟩ := ih (m := 2 * m) (by omega)
      exact ⟨k, by rw [hk]; ring⟩

/-- A short natural number is not rounded. -/
theorem units_ofNat (hF : 0 < F.fractionBits) {n : Nat} (hn : n ≤ 2 * F.runLength) :
    F.units (F.ofNat n) = n * 2 ^ F.scale := by
  obtain ⟨k, hk⟩ := exists_units_eq hn F.scale
  have hnear := nearest_units hF k Nat.one_pos
  rw [Nat.mul_one, hk] at hnear
  rw [ofNat, Nat.shiftLeft_eq, hnear, hk]

end BinaryFormat

end TimeSignal
