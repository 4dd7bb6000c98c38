import TimeSignal.BinaryFormat
import Mathlib.Order.Monotone.Basic
import Mathlib.Tactic.Ring

/-!
# Rounding on the grid of a binary format

The grid consists of runs of `n` ranks with equal spacing, and the spacing doubles from run to run.
A rank is `m + d · n`, where `d` counts the doublings and `m` is below `2 · n`; its units are
`m · 2 ^ d`.  In these terms, a quotient rounds to the rank whose two midpoints to its neighbours
enclose the quotient.

## Main definitions

* `BinaryFormat.runLength`: how many ranks lie between two doublings of the spacing
* `BinaryFormat.Encloses`: a quotient lies between the midpoints next to a rank

## Main results

* `BinaryFormat.units_strictMono`: ranks are in the order of their values
* `BinaryFormat.nearest_of_encloses`: a quotient rounds to the rank that encloses it
* `BinaryFormat.nearest_units`: a quotient on the grid rounds to itself
-/

namespace TimeSignal

/-- A whole number is the rounded quotient if the quotient is at most a half away, and less than a
half if the number is odd. -/
theorem roundHalfEven_eq {num den r : Nat} (hd : 0 < den) (hl : 2 * (r * den) ≤ 2 * num + den)
    (hh : 2 * num ≤ 2 * (r * den) + den)
    (ho : r % 2 = 1 → 2 * (r * den) ≠ 2 * num + den ∧ 2 * num ≠ 2 * (r * den) + den) :
    roundHalfEven num den = r := by
  have hnum : num = num / den * den + num % den := by
    rw [Nat.mul_comm]
    exact (Nat.div_add_mod num den).symm
  have hlt : num % den < den := Nat.mod_lt _ hd
  unfold roundHalfEven
  generalize num / den = q at *
  generalize num % den = s at *
  subst hnum
  -- More than one away from the floor, `r` would be more than a half away from the quotient.
  have hle : r ≤ q + 1 := by
    by_contra hc
    have := Nat.mul_le_mul_right den (show q + 2 ≤ r by omega)
    rw [Nat.add_mul] at this
    omega
  have hge : q ≤ r := by
    by_contra hc
    have := Nat.mul_le_mul_right den (show r + 1 ≤ q by omega)
    rw [Nat.add_mul] at this
    omega
  -- The remainder tells the two neighbours apart, and on a tie `ho` makes `r` the even one.
  rcases (show r = q ∨ r = q + 1 by omega) with rfl | rfl
  · rw [if_pos (by omega)]
  · rw [Nat.add_mul] at hl hh ho
    rw [if_neg (by omega)]

namespace BinaryFormat

variable {F : BinaryFormat}

/-! ## Ranks and units -/

/-- The number of ranks between two doublings of the spacing. -/
def runLength (F : BinaryFormat) : Nat := 2 ^ F.fractionBits

theorem runLength_pos (F : BinaryFormat) : 0 < F.runLength := Nat.two_pow_pos _

theorem even_runLength (hF : 0 < F.fractionBits) : F.runLength % 2 = 0 := by
  obtain ⟨n, hn⟩ := Nat.exists_eq_add_of_lt hF
  rw [runLength, hn, Nat.pow_succ, Nat.mul_mod_left]

theorem units_add {d m : Nat} (hm : m ≤ 2 * F.runLength)
    (h : d = 0 ∨ F.runLength ≤ m) :
    F.units (m + d * F.runLength) = m * 2 ^ d := by
  have hp := F.runLength_pos
  have hdiv : (m + d * F.runLength) >>> F.fractionBits = m / F.runLength + d := by
    rw [Nat.shiftRight_eq_div_pow, ← runLength, Nat.add_mul_div_right _ _ hp]
  simp only [units, doublings, hdiv, Nat.shiftLeft_eq]
  rw [← runLength]
  generalize F.runLength = p at *
  rcases Nat.lt_or_ge m p with hlt | hge
  · -- Below the first doubling the units are the rank.
    rw [Nat.div_eq_of_lt hlt]
    rcases h with rfl | h
    · simp
    · omega
  · rcases Nat.lt_or_ge m (2 * p) with hlt | hge'
    · have hone : m / p = 1 := Nat.div_eq_of_lt_le (by omega) (by omega)
      rw [hone, Nat.add_sub_cancel_left, Nat.add_sub_cancel]
    · -- The end of one run of equal spacing is the start of the next.
      obtain rfl : m = 2 * p := by omega
      rw [Nat.mul_div_cancel _ hp, show 2 + d - 1 = d + 1 by omega, Nat.add_mul,
        show 2 * p + d * p - (d * p + 1 * p) = p by omega, Nat.pow_succ]
      ring

/-- Every rank has its count of doublings and its place in the run between two doublings. -/
theorem exists_eq_add (F : BinaryFormat) (k : Nat) :
    ∃ d m, k = m + d * F.runLength ∧ m < 2 * F.runLength ∧
      (d = 0 ∨ F.runLength ≤ m) := by
  have hp := F.runLength_pos
  generalize F.runLength = p at *
  have hk := Nat.div_add_mod k p
  have hr := Nat.mod_lt k hp
  rw [Nat.mul_comm] at hk
  rcases Nat.eq_zero_or_pos (k / p) with hz | hz
  · rw [hz] at hk
    exact ⟨0, k, by omega, by omega, Or.inl rfl⟩
  · obtain ⟨d, hd⟩ := Nat.exists_eq_add_of_lt hz
    rw [hd, show 0 + d + 1 = d + 1 by omega, Nat.add_mul] at hk
    exact ⟨d, p + k % p, by omega, by omega, Or.inr (by omega)⟩

theorem units_strictMono (F : BinaryFormat) : StrictMono F.units := by
  apply strictMono_nat_of_lt_succ
  intro k
  obtain ⟨d, m, rfl, hm, hd⟩ := F.exists_eq_add k
  rw [show m + d * F.runLength + 1 = (m + 1) + d * F.runLength by omega,
    units_add hm.le hd, units_add (by omega) (by omega)]
  exact Nat.mul_lt_mul_of_pos_right (Nat.lt_succ_self m) (Nat.two_pow_pos d)

@[simp] theorem units_zero (F : BinaryFormat) : F.units 0 = 0 := by
  simpa using units_add (F := F) (d := 0) (m := 0) (Nat.zero_le _) (Or.inl rfl)

/-! ## Rounding -/

/-- The quotient `num / den` lies between the midpoints of rank `k` to its two neighbours.  The
midpoints count when `k` is even. -/
structure Encloses (F : BinaryFormat) (k num den : Nat) : Prop where
  /-- The quotient is not below the lower midpoint. -/
  low : (F.units (k - 1) + F.units k) * den ≤ 2 * num
  /-- The quotient is not above the upper midpoint. -/
  high : 2 * num ≤ (F.units k + F.units (k + 1)) * den
  /-- An odd rank does not round its midpoints. -/
  odd : k % 2 = 1 → (F.units (k - 1) + F.units k) * den ≠ 2 * num ∧
    2 * num ≠ (F.units k + F.units (k + 1)) * den

theorem doublings_quotient {num den d : Nat} (hd : 0 < den)
    (hl : d = 0 ∨ F.runLength * (2 ^ d * den) ≤ num)
    (hh : num < 2 * F.runLength * (2 ^ d * den)) :
    (num / den).log2 - F.fractionBits = d := by
  have hlt : num / den < 2 ^ (F.fractionBits + d + 1) := by
    rw [Nat.div_lt_iff_lt_mul hd]
    calc num < 2 * F.runLength * (2 ^ d * den) := hh
      _ = 2 ^ (F.fractionBits + d + 1) * den := by rw [runLength]; ring
  rcases Nat.eq_zero_or_pos d with rfl | hpos
  · -- The logarithm may be smaller than `fractionBits`, and the subtraction stops at zero.
    rcases Nat.eq_zero_or_pos (num / den) with hz | hz
    · simp [hz]
    · have := (Nat.log2_lt (Nat.ne_of_gt hz)).mpr hlt
      omega
  · have hge : 2 ^ (F.fractionBits + d) ≤ num / den := by
      rw [Nat.le_div_iff_mul_le hd]
      calc 2 ^ (F.fractionBits + d) * den = F.runLength * (2 ^ d * den) := by rw [runLength]; ring
        _ ≤ num := hl.resolve_left (Nat.ne_of_gt hpos)
    have hne : num / den ≠ 0 := Nat.ne_of_gt (Nat.lt_of_lt_of_le (Nat.two_pow_pos _) hge)
    have := (Nat.log2_lt hne).mpr hlt
    have := (Nat.le_log2 hne).mpr hge
    omega

theorem nearest_eq_add {num den d m : Nat} (hd : (num / den).log2 - F.fractionBits = d)
    (hm : roundHalfEven num (2 ^ d * den) = m) :
    F.nearest num den = m + d * F.runLength := by
  simp only [nearest, hd, Nat.shiftLeft_eq]
  rw [Nat.mul_comm den, hm, runLength]

/-- A rank inside a run of equal spacing has both midpoints in that spacing. -/
theorem nearest_of_encloses_inner (hF : 0 < F.fractionBits) {num den d m : Nat} (hden : 0 < den)
    (hm : m < 2 * F.runLength) (hd : d = 0 ∨ F.runLength < m)
    (h : F.Encloses (m + d * F.runLength) num den) :
    F.nearest num den = m + d * F.runLength := by
  have hx : 0 < 2 ^ d * den := Nat.mul_pos (Nat.two_pow_pos d) hden
  have hhigh : (F.units (m + d * F.runLength) + F.units (m + d * F.runLength + 1)) * den
      = 2 * (m * (2 ^ d * den)) + 2 ^ d * den := by
    rw [show m + d * F.runLength + 1 = (m + 1) + d * F.runLength by omega,
      units_add hm.le (by omega), units_add (by omega) (by omega)]
    ring
  -- Rank zero has no rank below it; all others have their lower neighbour in the same spacing.
  have hlow : 0 < m → (F.units (m + d * F.runLength - 1) + F.units (m + d * F.runLength))
      * den + 2 ^ d * den = 2 * (m * (2 ^ d * den)) := by
    intro hpos
    obtain ⟨j, rfl⟩ := Nat.exists_eq_add_of_lt hpos
    rw [show 0 + j + 1 + d * F.runLength - 1 = j + d * F.runLength by omega,
      units_add (by omega) (by omega), units_add hm.le (by omega)]
    ring
  have hpar := even_runLength hF
  have hodd : (m + d * F.runLength) % 2 = m % 2 := by
    rw [Nat.add_mod, Nat.mul_mod, hpar, Nat.mul_zero, Nat.zero_mod, Nat.add_zero, Nat.mod_mod]
  obtain ⟨l, u, o⟩ := h
  rw [hhigh] at u o
  rw [hodd] at o
  have hle : 2 * (m * (2 ^ d * den)) ≤ 2 * num + 2 ^ d * den := by
    rcases Nat.eq_zero_or_pos m with rfl | hpos
    · omega
    · have := hlow hpos
      omega
  refine nearest_eq_add (doublings_quotient hden ?_ ?_) (roundHalfEven_eq hx hle u fun hm1 => ?_)
  · rcases hd with rfl | hd
    · exact Or.inl rfl
    · have := Nat.mul_le_mul_right (2 ^ d * den) (Nat.succ_le_of_lt hd)
      rw [Nat.succ_mul] at this
      omega
  · have := Nat.mul_le_mul_right (2 ^ d * den) (Nat.succ_le_of_lt hm)
    rw [Nat.succ_mul] at this
    omega
  · have := hlow (by omega)
    have := o hm1
    omega

/-- The first rank of a run has its lower midpoint in the finer spacing below it, so a quotient that
it encloses may lie in the run before. -/
theorem nearest_of_encloses_first (hF : 0 < F.fractionBits) {num den d : Nat} (hden : 0 < den)
    (h : F.Encloses (F.runLength + (d + 1) * F.runLength) num den) :
    F.nearest num den = F.runLength + (d + 1) * F.runLength := by
  have hp := F.runLength_pos
  have hpar := even_runLength hF
  have hx : 0 < 2 ^ d * den := Nat.mul_pos (Nat.two_pow_pos d) hden
  have hhigh := h.high
  have hlow := h.low
  rw [show F.runLength + (d + 1) * F.runLength + 1
      = (F.runLength + 1) + (d + 1) * F.runLength by omega,
    units_add (by omega) (by omega), units_add (by omega) (by omega)] at hhigh
  rw [show F.runLength + (d + 1) * F.runLength - 1
      = (2 * F.runLength - 1) + d * F.runLength by rw [Nat.add_mul]; omega,
    units_add (by omega) (by omega), units_add (by omega) (by omega)] at hlow
  have hu : 2 * num ≤ 4 * (F.runLength * (2 ^ d * den)) + 2 * (2 ^ d * den) := by
    calc 2 * num ≤ _ := hhigh
      _ = 4 * (F.runLength * (2 ^ d * den)) + 2 * (2 ^ d * den) := by ring
  have hl : 4 * (F.runLength * (2 ^ d * den)) ≤ 2 * num + 2 ^ d * den := by
    obtain ⟨j, hj⟩ : ∃ j, 2 * F.runLength = j + 1 := ⟨_, (Nat.sub_add_cancel (by omega)).symm⟩
    rw [hj, Nat.add_sub_cancel] at hlow
    calc 4 * (F.runLength * (2 ^ d * den))
        = (2 * F.runLength) * (2 ^ d * den) + (2 * F.runLength) * (2 ^ d * den) := by ring
      _ = (j * 2 ^ d + F.runLength * 2 ^ (d + 1)) * den + 2 ^ d * den := by
        conv_lhs => arg 1; rw [hj]
        ring
      _ ≤ 2 * num + 2 ^ d * den := Nat.add_le_add_right hlow _
  have hge : 2 ^ d * den ≤ F.runLength * (2 ^ d * den) := Nat.le_mul_of_pos_left _ hp
  have hdouble : 2 ^ (d + 1) * den = 2 * (2 ^ d * den) := by ring
  have hassoc : 2 * F.runLength * (2 ^ d * den) = 2 * (F.runLength * (2 ^ d * den)) :=
    Nat.mul_assoc _ _ _
  rcases Nat.lt_or_ge num (2 * (F.runLength * (2 ^ d * den))) with hlt | hge'
  · -- The quotient lies in the run before and is rounded up to its end.
    have he : roundHalfEven num (2 ^ d * den) = 2 * F.runLength :=
      roundHalfEven_eq hx (by omega) (by omega) (by omega)
    rw [nearest_eq_add (doublings_quotient hden (Or.inr (by omega)) (by omega)) he, Nat.add_mul]
    omega
  · -- The quotient lies in the run itself and is rounded down to its start.
    have hmul : F.runLength * (2 * (2 ^ d * den)) = 2 * (F.runLength * (2 ^ d * den)) := by
      ring
    refine nearest_eq_add (doublings_quotient hden (Or.inr ?_) ?_)
      (roundHalfEven_eq ?_ ?_ ?_ (by omega)) <;> rw [hdouble]
    · omega
    · rw [Nat.mul_assoc, hmul]
      omega
    · omega
    · rw [hmul]
      omega
    · rw [hmul]
      omega

/-- **A quotient rounds to the rank that encloses it.** -/
theorem nearest_of_encloses (hF : 0 < F.fractionBits) {k num den : Nat} (hden : 0 < den)
    (h : F.Encloses k num den) : F.nearest num den = k := by
  -- Only the first rank of a run has a neighbour in another spacing, and not in the first run.
  obtain ⟨d, m, rfl, hm, hd⟩ := F.exists_eq_add k
  rcases hd with hd | hd
  · exact nearest_of_encloses_inner hF hden hm (Or.inl hd) h
  · rcases Nat.lt_or_eq_of_le hd with hlt | rfl
    · exact nearest_of_encloses_inner hF hden hm (Or.inr hlt) h
    · cases d with
      | zero => exact nearest_of_encloses_inner hF hden hm (Or.inl rfl) h
      | succ d => exact nearest_of_encloses_first hF hden h

/-- A quotient on the grid is enclosed by its own rank. -/
theorem encloses_units (F : BinaryFormat) (k : Nat) {den : Nat} (hden : 0 < den) :
    F.Encloses k (F.units k * den) den := by
  have hlt : F.units k * den < F.units (k + 1) * den :=
    Nat.mul_lt_mul_of_pos_right (F.units_strictMono (Nat.lt_succ_self k)) hden
  have hle : F.units (k - 1) * den ≤ F.units k * den :=
    Nat.mul_le_mul_right _ (F.units_strictMono.monotone (Nat.sub_le k 1))
  refine ⟨?_, ?_, fun ho => ?_⟩
  · rw [Nat.add_mul]
    omega
  · rw [Nat.add_mul]
    omega
  · have : F.units (k - 1) * den < F.units k * den :=
      Nat.mul_lt_mul_of_pos_right (F.units_strictMono (by omega)) hden
    rw [Nat.add_mul, Nat.add_mul]
    omega

theorem nearest_units (hF : 0 < F.fractionBits) (k : Nat) {den : Nat} (hden : 0 < den) :
    F.nearest (F.units k * den) den = k :=
  nearest_of_encloses hF hden (F.encloses_units k hden)

theorem nearest_zero (hF : 0 < F.fractionBits) {den : Nat} (hden : 0 < den) :
    F.nearest 0 den = 0 := by
  simpa using nearest_units hF 0 hden

end BinaryFormat

end TimeSignal
