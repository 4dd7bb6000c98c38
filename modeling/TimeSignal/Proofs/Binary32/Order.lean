import TimeSignal.Proofs.Binary32.Agreement
import TimeSignal.Proofs.Binary32.Spacing
import TimeSignal.Proofs.Binary32.Value

/-!
# Rounding keeps the order

Each operation on finite numbers rounds one exact quotient of whole numbers, so the place of its
result on the number line is a function of that quotient.  The function is monotone: no midpoint
between two neighbours of the grid is passed downwards while the quotient grows.  Sums and products
are therefore monotone in each operand, whether they are rounded, vanish or overflow.

## Main definitions

* `Binary32.placeOf`: the place of the number nearest to a quotient

## Main results

* `BinaryFormat.nearest_mono`, `Binary32.placeOf_mono`: rounding is monotone
* `Binary32.numLe_finite_iff`: finite numbers are in the order of their exact values
* `Binary32.position_add`, `Binary32.position_mul`, `Binary32.position_div`,
  `Binary32.position_ofNat`: where results stand
* `Binary32.numLe_add_left`, `Binary32.numLe_mul_left`, `Binary32.numLe_ofNat`: operations keep the
  order
-/

namespace TimeSignal

namespace BinaryFormat

variable {F : BinaryFormat}

/-- A greater quotient does not round to a smaller rank. -/
theorem nearest_mono (hF : 0 < F.fractionBits) {num num' den : Nat} (hden : 0 < den)
    (h : num ≤ num') : F.nearest num den ≤ F.nearest num' den := by
  by_contra hlt
  have hlow := (encloses_nearest hF num hden).low
  have hhigh := (encloses_nearest hF num' hden).high
  have hne : num ≠ num' := by
    rintro rfl
    exact hlt (Nat.le_refl _)
  generalize F.nearest num den = k at *
  generalize F.nearest num' den = k' at *
  -- The lower midpoint of the greater rank is not below the upper midpoint of the smaller one.
  have := F.units_strictMono.monotone (show k' ≤ k - 1 by omega)
  have := F.units_strictMono.monotone (show k' + 1 ≤ k by omega)
  have := Nat.mul_le_mul_right den (show F.units k' + F.units (k' + 1) ≤
    F.units (k - 1) + F.units k by omega)
  omega

end BinaryFormat

namespace Binary32

/-! ## Signs -/

/-- A natural number with a sign. -/
def signed (negative : Bool) (n : Nat) : Int := if negative then -n else n

@[simp] theorem signed_false (n : Nat) : signed false n = n := rfl

@[simp] theorem signed_true (n : Nat) : signed true n = -n := rfl

theorem position_infinite (a : Bool) : (infinite a).position = some (signed a infinityRank) := by
  cases a <;> rfl

theorem position_finite (a : Bool) (m : Fin infinityRank) :
    (finite a m).position = some (signed a m) := by
  cases a <;> rfl

theorem units_finite (a : Bool) (m : Fin infinityRank) :
    (finite a m).units = signed a (magnitude m) := by
  cases a <;> rfl

theorem signed_mul_signed (a b : Bool) (m n : Nat) :
    signed a m * signed b n = signed (a ^^ b) (m * n) := by
  cases a <;> cases b <;> simp

theorem signed_mul (a : Bool) (m n : Nat) : signed a (m * n) = signed a m * n := by
  cases a <;> simp

theorem natAbs_signed (a : Bool) (n : Nat) : (signed a n).natAbs = n := by
  cases a <;> simp

/-! ## The order of numbers -/

variable {x y z : Binary32}

theorem numLe_iff : x.numLe y = true ↔
    ∃ p q, x.position = some p ∧ y.position = some q ∧ p ≤ q := by
  unfold numLe
  cases x.position with
  | none => simp
  | some p =>
    cases y.position with
    | none => simp
    | some q => simp

theorem numLe_of_position {p q : Int} (hx : x.position = some p) (hy : y.position = some q)
    (h : p ≤ q) : x.numLe y = true :=
  numLe_iff.mpr ⟨p, q, hx, hy, h⟩

theorem numLe_refl (h : x ≠ nan) : x.numLe x = true := by
  cases x with
  | nan => exact absurd rfl h
  | infinite a => exact numLe_of_position rfl rfl (Int.le_refl _)
  | finite a m => exact numLe_of_position rfl rfl (Int.le_refl _)

theorem numLe_trans (h : x.numLe y = true) (h' : y.numLe z = true) : x.numLe z = true := by
  obtain ⟨p, q, hp, hq, hpq⟩ := numLe_iff.mp h
  obtain ⟨q', r, hq', hr, hqr⟩ := numLe_iff.mp h'
  obtain rfl : q = q' := Option.some.inj (hq.symm.trans hq')
  exact numLe_of_position hp hr (Int.le_trans hpq hqr)

theorem numLe_of_numEq (h : x.numEq y = true) : x.numLe y = true := by
  unfold numEq at h
  unfold numLe
  split at h
  · exact decide_eq_true (beq_iff_eq.mp h).le
  · cases h

theorem ne_nan_of_numLe_left (h : x.numLe y = true) : x ≠ nan := by
  rintro rfl
  cases h

theorem ne_nan_of_numLe_right (h : x.numLe y = true) : y ≠ nan := by
  rintro rfl
  obtain ⟨p, q, -, hq, -⟩ := numLe_iff.mp h
  cases hq

theorem ne_nan_of_position {p : Int} (h : x.position = some p) : x ≠ nan := by
  rintro rfl
  cases h

theorem exists_position (h : x ≠ nan) : ∃ p, x.position = some p := by
  cases x with
  | nan => exact absurd rfl h
  | infinite | finite => exact ⟨_, rfl⟩

theorem natAbs_position_le {p : Int} (h : x.position = some p) : p.natAbs ≤ infinityRank := by
  cases x with
  | nan => cases h
  | infinite a =>
    rw [position_infinite] at h
    cases h
    exact (natAbs_signed a _).le
  | finite a m =>
    rw [position_finite] at h
    cases h
    exact (natAbs_signed a _).trans_le m.isLt.le

/-- The places of finite numbers are those before infinity. -/
theorem isFinite_iff_natAbs_lt {p : Int} (h : x.position = some p) :
    x.isFinite = true ↔ p.natAbs < infinityRank := by
  cases x with
  | nan => cases h
  | infinite a =>
    rw [position_infinite] at h
    cases h
    simp [isFinite, natAbs_signed]
  | finite a m =>
    rw [position_finite] at h
    cases h
    have hlt : m.val < infinityRank := m.isLt
    simp [isFinite, natAbs_signed, hlt]

theorem numLe_infinite_false (h : x ≠ nan) : x.numLe (infinite false) = true := by
  obtain ⟨p, hp⟩ := exists_position h
  have := natAbs_position_le hp
  exact numLe_of_position hp (position_infinite false) (by rw [signed_false]; omega)

theorem infinite_true_numLe (h : x ≠ nan) : (infinite true).numLe x = true := by
  obtain ⟨p, hp⟩ := exists_position h
  have := natAbs_position_le hp
  exact numLe_of_position (position_infinite true) hp (by rw [signed_true]; omega)

/-- A number that is not above a finite one, and not negative infinity, is finite. -/
theorem eq_true_of_infinite_numLe {a : Bool} (h : (infinite a).numLe x = true)
    (hx : x.isFinite = true) : a = true := by
  obtain ⟨p, q, hp, hq, hpq⟩ := numLe_iff.mp h
  rw [position_infinite] at hp
  cases hp
  have := (isFinite_iff_natAbs_lt hq).mp hx
  cases a with
  | true => rfl
  | false =>
    rw [signed_false] at hpq
    omega

theorem eq_false_of_numLe_infinite {a : Bool} (h : x.numLe (infinite a) = true)
    (hx : x.isFinite = true) : a = false := by
  obtain ⟨p, q, hp, hq, hpq⟩ := numLe_iff.mp h
  rw [position_infinite] at hq
  cases hq
  have := (isFinite_iff_natAbs_lt hp).mp hx
  cases a with
  | false => rfl
  | true =>
    rw [signed_true] at hpq
    omega

/-- Finite numbers are in the order of their exact values. -/
theorem numLe_finite_iff (hx : x.isFinite = true) (hy : y.isFinite = true) :
    x.numLe y = true ↔ x.units ≤ y.units := by
  cases x with
  | nan | infinite => cases hx
  | finite a m =>
    cases y with
    | nan | infinite => cases hy
    | finite b n =>
      have hmn := BinaryFormat.binary32.units_strictMono.le_iff_le (a := m.val) (b := n.val)
      have hnm := BinaryFormat.binary32.units_strictMono.le_iff_le (a := n.val) (b := m.val)
      have hm := BinaryFormat.binary32.le_units m
      have hn := BinaryFormat.binary32.le_units n
      have hm0 : m.val = 0 → BinaryFormat.binary32.units m = 0 := fun h => by rw [h]; rfl
      have hn0 : n.val = 0 → BinaryFormat.binary32.units n = 0 := fun h => by rw [h]; rfl
      cases a <;> cases b <;> simp only [numLe, position, units, magnitude, decide_eq_true_eq,
        Bool.false_eq_true, if_true, if_false] <;> omega

theorem numLe_total (hx : x.isFinite = true) (hy : y.isFinite = true) :
    x.numLe y = true ∨ y.numLe x = true := by
  rw [numLe_finite_iff hx hy, numLe_finite_iff hy hx]
  exact Int.le_total _ _

theorem isFinite_of_numLe (hx : x.isFinite = true) (hz : z.isFinite = true)
    (hxy : x.numLe y = true) (hyz : y.numLe z = true) : y.isFinite = true := by
  obtain ⟨p, q, hp, hq, hpq⟩ := numLe_iff.mp hxy
  obtain ⟨q', r, hq', hr, hqr⟩ := numLe_iff.mp hyz
  obtain rfl : q = q' := Option.some.inj (hq.symm.trans hq')
  -- The places of the two ends are before infinity, and that of the number is between them.
  rw [isFinite_iff_natAbs_lt hp] at hx
  rw [isFinite_iff_natAbs_lt hr] at hz
  rw [isFinite_iff_natAbs_lt hq]
  omega

/-! ## Where results stand -/

/-- The place of the number nearest to `num / den` smallest positive numbers. -/
def placeOf (num : Int) (den : Nat) : Int :=
  signed (num < 0) (min (BinaryFormat.binary32.nearest num.natAbs den) infinityRank)

theorem placeOf_mono {num num' : Int} {den : Nat} (hden : 0 < den) (h : num ≤ num') :
    placeOf num den ≤ placeOf num' den := by
  have hmono {m n : Nat} (h : m ≤ n) :
      BinaryFormat.binary32.nearest m den ≤ BinaryFormat.binary32.nearest n den :=
    BinaryFormat.nearest_mono (by decide) hden h
  simp only [placeOf, signed, decide_eq_true_eq]
  split <;> split
  · have := hmono (show num'.natAbs ≤ num.natAbs by omega)
    omega
  · omega
  · omega
  · have := hmono (show num.natAbs ≤ num'.natAbs by omega)
    omega

theorem placeOf_zero {den : Nat} (hden : 0 < den) : placeOf 0 den = 0 := by
  rw [placeOf, Int.natAbs_zero, BinaryFormat.nearest_zero (by decide) hden]
  rfl

theorem natAbs_placeOf (num : Int) (den : Nat) :
    (placeOf num den).natAbs = min (BinaryFormat.binary32.nearest num.natAbs den) infinityRank :=
  natAbs_signed _ _

theorem position_ofRank (negative : Bool) (rank : Nat) :
    (ofRank negative rank).position = some (signed negative (min rank infinityRank)) := by
  rcases Nat.lt_or_ge rank infinityRank with hlt | hge
  · rw [ofRank_of_lt hlt, Nat.min_eq_left hlt.le]
    rfl
  · rw [ofRank, dif_neg (Nat.not_lt.mpr hge), Nat.min_eq_right hge]
    rfl

theorem position_nearest (negative : Bool) (num : Nat) {den : Nat} (hden : 0 < den) :
    (nearest negative num den).position = some (placeOf (signed negative num) den) := by
  rw [nearest, position_ofRank, placeOf, natAbs_signed]
  rcases Nat.eq_zero_or_pos num with rfl | hpos
  · rw [BinaryFormat.nearest_zero (by decide) hden]
    cases negative <;> rfl
  · have hsign : decide (signed negative num < 0) = negative := by
      cases negative <;> simp [signed, hpos]
    rw [hsign]

theorem position_add (hx : x.isFinite = true) (hy : y.isFinite = true) :
    (x + y).position = some (placeOf (x.units + y.units) 1) := by
  cases x with
  | nan | infinite => cases hx
  | finite a m =>
    cases y with
    | nan | infinite => cases hy
    | finite b n =>
      rw [finite_add_finite]
      generalize (finite a m).units + (finite b n).units = sum
      split
      · next hzero =>
        rw [hzero, placeOf_zero Nat.one_pos]
        cases a <;> cases b <;> rfl
      · rw [position_nearest _ _ Nat.one_pos]
        congr
        simp only [signed, decide_eq_true_eq]
        omega

theorem position_mul (hx : x.isFinite = true) (hy : y.isFinite = true) :
    (x * y).position =
      some (placeOf (x.units * y.units) (2 ^ BinaryFormat.binary32.scale)) := by
  cases x with
  | nan | infinite => cases hx
  | finite a m =>
    cases y with
    | nan | infinite => cases hy
    | finite b n =>
      rw [finite_mul_finite, BinaryFormat.mul, Nat.one_shiftLeft, ← nearest,
        position_nearest _ _ (Nat.two_pow_pos _), units_finite, units_finite, signed_mul_signed]
      rfl

/-- The quotient by a number of at least the smallest positive one. -/
theorem finite_div_finite (a : Bool) (m n : Fin infinityRank) (h : n.val ≠ 0) :
    finite a m / finite false n = nearest a (magnitude m <<< BinaryFormat.binary32.scale)
      (magnitude n) := by
  change div (finite a m) (finite false n) = _
  rw [div, if_neg h, Bool.xor_false]
  rfl

theorem position_div (hx : x.isFinite = true) (hy : 0 < y.units) :
    (x / y).position =
      some (placeOf (x.units * 2 ^ BinaryFormat.binary32.scale) y.units.toNat) := by
  cases x with
  | nan | infinite => cases hx
  | finite a m =>
    cases y with
    | nan | infinite => cases hy
    | finite b n =>
      obtain rfl : b = false := by
        cases b with
        | false => rfl
        | true =>
          simp only [units] at hy
          omega
      have hn : (finite false n).units.toNat = magnitude n := Int.toNat_natCast _
      have hpos : 0 < magnitude n := by omega
      have hzero : n.val ≠ 0 := by
        intro h
        rw [magnitude, h, BinaryFormat.units_zero] at hpos
        cases hpos
      rw [finite_div_finite a m n hzero, position_nearest _ _ hpos, hn, units_finite,
        Nat.shiftLeft_eq, signed_mul, Int.natCast_pow, Int.cast_ofNat_Int]

theorem position_ofNat (n : Nat) :
    (ofNat n).position = some (placeOf (n * 2 ^ BinaryFormat.binary32.scale) 1) := by
  rw [ofNat, BinaryFormat.ofNat, ← nearest, position_nearest _ _ Nat.one_pos, Nat.shiftLeft_eq]
  simp [signed]

/-- The exact value of a finite result is that of the rank which it was rounded to. -/
theorem natAbs_units_of_position {num : Int} {den : Nat} (hx : x.isFinite = true)
    (h : x.position = some (placeOf num den)) :
    x.units.natAbs =
      BinaryFormat.binary32.units (BinaryFormat.binary32.nearest num.natAbs den) := by
  have hlt := (isFinite_iff_natAbs_lt h).mp hx
  rw [natAbs_placeOf] at hlt
  cases x with
  | nan | infinite => cases hx
  | finite a m =>
    rw [position_finite] at h
    have hm : m.val = BinaryFormat.binary32.nearest num.natAbs den := by
      rw [← natAbs_signed a m, Option.some.inj h, natAbs_placeOf]
      omega
    rw [units_finite, natAbs_signed, magnitude, hm]

theorem position_eq_placeOf (hx : x.isFinite = true) :
    x.position = some (placeOf x.units 1) := by
  cases x with
  | nan | infinite => cases hx
  | finite a m =>
    rw [units_finite, ← position_nearest a _ Nat.one_pos, ← nearest_magnitude a m Nat.one_pos,
      Nat.mul_one]

/-! ## Whole numbers -/

theorem isFinite_ofNat {n : Nat} (h : n < 2 ^ 64) : (ofNat n).isFinite = true := by
  rw [isFinite_iff_natAbs_lt (position_ofNat n), natAbs_placeOf]
  have hnum : (n * 2 ^ BinaryFormat.binary32.scale : Int).natAbs ≤
      2 ^ 64 * 2 ^ BinaryFormat.binary32.scale := by
    rw [Int.natAbs_mul, Int.natAbs_pow]
    exact Nat.mul_le_mul_right _ h.le
  have hmono := BinaryFormat.nearest_mono (F := BinaryFormat.binary32) (by decide) Nat.one_pos hnum
  have hlast : BinaryFormat.binary32.nearest (2 ^ 64 * 2 ^ BinaryFormat.binary32.scale) 1 <
      infinityRank := by decide
  omega

theorem ofNat_eq_finite {n : Nat} (h : n < 2 ^ 64) :
    ∃ m : Fin infinityRank, ofNat n = finite false m ∧ m.val = BinaryFormat.binary32.ofNat n := by
  have hlt : BinaryFormat.binary32.ofNat n < infinityRank := by
    by_contra hge
    have hfinite := isFinite_ofNat h
    rw [ofNat, ofRank, dif_neg hge] at hfinite
    cases hfinite
  exact ⟨⟨_, hlt⟩, ofRank_of_lt hlt, rfl⟩

/-- Natural numbers of at most 24 bits are not rounded. -/
theorem units_ofNat {n : Nat} (h : n ≤ 2 ^ 24) :
    (ofNat n).units = (n * 2 ^ BinaryFormat.binary32.scale : Nat) := by
  obtain ⟨m, hm, hrank⟩ := ofNat_eq_finite (n := n) (by omega)
  rw [hm, units_finite, signed_false, magnitude, hrank]
  exact congrArg Nat.cast (BinaryFormat.units_ofNat (by decide) h)

theorem toRat_ofNat {n : Nat} (h : n ≤ 2 ^ 24) : (ofNat n).toRat = n := by
  have hrat := toRat_of_units (e := 0) (units_ofNat h) rfl
  rwa [pow_zero, div_one] at hrat

/-! ## Signs of differences and quotients -/

theorem units_nonneg_of_position {p : Int} (hx : x.isFinite = true) (hp : x.position = some p)
    (h : 0 ≤ p) : 0 ≤ x.units :=
  (numLe_finite_iff rfl hx).mp (numLe_of_position (x := 0) rfl hp h)

theorem units_nonpos_of_position {p : Int} (hx : x.isFinite = true) (hp : x.position = some p)
    (h : p ≤ 0) : x.units ≤ 0 :=
  (numLe_finite_iff hx rfl).mp (numLe_of_position (y := 0) hp rfl h)

theorem placeOf_nonneg {num : Int} {den : Nat} (hden : 0 < den) (h : 0 ≤ num) :
    0 ≤ placeOf num den := by
  rw [← placeOf_zero hden]
  exact placeOf_mono hden h

theorem placeOf_nonpos {num : Int} {den : Nat} (hden : 0 < den) (h : num ≤ 0) :
    placeOf num den ≤ 0 := by
  rw [← placeOf_zero hden]
  exact placeOf_mono hden h

theorem position_sub (hx : x.isFinite = true) (hy : y.isFinite = true) :
    (x - y).position = some (placeOf (x.units - y.units) 1) := by
  rw [sub_eq_add_neg, position_add hx ((isFinite_neg y).trans hy), units_neg, Int.sub_eq_add_neg]

/-- A quotient by a number of at least one is not beyond the dividend. -/
theorem isFinite_div (hx : x.isFinite = true) (hy : 2 ^ BinaryFormat.binary32.scale ≤ y.units) :
    (x / y).isFinite = true := by
  have hpos : 0 < y.units := Int.lt_of_lt_of_le (by decide) hy
  rw [isFinite_iff_natAbs_lt (position_div hx hpos), natAbs_placeOf]
  cases x with
  | nan | infinite => cases hx
  | finite a m =>
    have hnum : ((finite a m).units * 2 ^ BinaryFormat.binary32.scale).natAbs ≤
        BinaryFormat.binary32.units m * y.units.toNat := by
      rw [units_finite, Int.natAbs_mul, natAbs_signed, Int.natAbs_pow]
      exact Nat.mul_le_mul_left _ (Int.ofNat_le.mp (by rwa [Int.toNat_of_nonneg hpos.le]))
    have hden : 0 < y.units.toNat := by omega
    have hmono := BinaryFormat.nearest_mono (F := BinaryFormat.binary32) (by decide) hden hnum
    rw [BinaryFormat.nearest_units (by decide) _ hden] at hmono
    have hm : m.val < infinityRank := m.isLt
    omega

/-! ## Operations keep the order -/

theorem numLe_ofNat {m n : Nat} (h : m ≤ n) : (ofNat m).numLe (ofNat n) = true := by
  refine numLe_of_position (position_ofNat m) (position_ofNat n) (placeOf_mono Nat.one_pos ?_)
  exact Int.mul_le_mul_of_nonneg_right (Int.ofNat_le.mpr h) (Int.pow_nonneg (by decide))

/-- Whole numbers from one on are at least one. -/
theorem one_le_units_ofNat {n : Nat} (hpos : 0 < n) (h : n < 2 ^ 64) :
    2 ^ BinaryFormat.binary32.scale ≤ (ofNat n).units := by
  have hone : (ofNat 1).units = 2 ^ BinaryFormat.binary32.scale := by decide
  rw [← hone]
  exact (numLe_finite_iff (by decide) (isFinite_ofNat h)).mp (numLe_ofNat hpos)

/-- Sums with one finite operand are monotone in the other one. -/
theorem numLe_add_left (hx : x.isFinite = true) (h : y.numLe z = true) :
    (x + y).numLe (x + z) = true := by
  cases x with
  | nan | infinite => cases hx
  | finite a m =>
    cases y with
    | nan => cases h
    | infinite b =>
      cases z with
      | nan => exact absurd rfl (ne_nan_of_numLe_right h)
      | infinite c => exact h
      | finite c n =>
        -- only the negative infinity is below a finite number
        obtain rfl : b = true := eq_true_of_infinite_numLe h rfl
        exact infinite_true_numLe (ne_nan_of_position (position_add rfl rfl))
    | finite b k =>
      cases z with
      | nan => exact absurd rfl (ne_nan_of_numLe_right h)
      | infinite c =>
        obtain rfl : c = false := eq_false_of_numLe_infinite h rfl
        exact numLe_infinite_false (ne_nan_of_position (position_add rfl rfl))
      | finite c n =>
        refine numLe_of_position (position_add rfl rfl) (position_add rfl rfl)
          (placeOf_mono Nat.one_pos ?_)
        exact Int.add_le_add_left ((numLe_finite_iff rfl rfl).mp h) _

/-- Products by a number that is not negative are monotone. -/
theorem numLe_mul_left (hx : x.isFinite = true) (hpos : 0 ≤ x.units) (hy : y.isFinite = true)
    (hz : z.isFinite = true) (h : y.numLe z = true) : (x * y).numLe (x * z) = true := by
  refine numLe_of_position (position_mul hx hy) (position_mul hx hz)
    (placeOf_mono (Nat.two_pow_pos _) ?_)
  exact Int.mul_le_mul_of_nonneg_left ((numLe_finite_iff hy hz).mp h) hpos

/-- Products by a number that is not positive reverse the order. -/
theorem numLe_mul_left_of_nonpos (hx : x.isFinite = true) (hneg : x.units ≤ 0)
    (hy : y.isFinite = true) (hz : z.isFinite = true) (h : y.numLe z = true) :
    (x * z).numLe (x * y) = true := by
  refine numLe_of_position (position_mul hx hz) (position_mul hx hy)
    (placeOf_mono (Nat.two_pow_pos _) ?_)
  exact Int.mul_le_mul_of_nonpos_left hneg ((numLe_finite_iff hy hz).mp h)

end Binary32

end TimeSignal
