import TimeSignal.Proofs.Sampler.EvenTimes

/-!
# Times within their range

The computed times of a range move one way, so they stay in the range exactly if the last of them
does.  It does not always: a step that is rounded up may lead beyond the end when it is taken often
enough.  The difference of the ends, the step and the product are each rounded up by a small part of
themselves, and this is less than the one step that is left, unless the steps are very many or so
small that their spacing shows.  A difference that overflows leaves no computed time finite.

## Main definitions

* `Binary32.IsBetween`: a number lies between two others

## Main results

* `isBetween_evenTime`: the last computed time keeps the others in the range
* `le_of_roundedUp`: three small errors are less than one step
* `isBetween_evenTime_of_coarse`: a range of moderately many steps that are not tiny is kept
* `evenTimes_between`: when the times of a range stay in it
-/

namespace TimeSignal

namespace Binary32

variable {a b x : Binary32}

/-! ## Between two numbers -/

/-- A number lies between two others, which are given in either order and count. -/
def IsBetween (a b x : Binary32) : Prop :=
  a.numLe x = true ∧ x.numLe b = true ∨ b.numLe x = true ∧ x.numLe a = true

theorem isBetween_comm : IsBetween a b x ↔ IsBetween b a x := Or.comm

theorem isBetween_iff (h : a.numLe b = true) :
    IsBetween a b x ↔ a.numLe x = true ∧ x.numLe b = true := by
  refine ⟨fun hx => ?_, Or.inl⟩
  rcases hx with hx | ⟨hbx, hxa⟩
  · exact hx
  · exact ⟨numLe_trans h hbx, numLe_trans hxa h⟩

/-- A rounded sum lies between two numbers if the exact one does. -/
theorem isBetween_add (ha : a.isFinite = true) (hb : b.isFinite = true) (hx : x.isFinite = true)
    (h : a.units ≤ a.units + x.units ∧ a.units + x.units ≤ b.units ∨
      b.units ≤ a.units + x.units ∧ a.units + x.units ≤ a.units) : IsBetween a b (a + x) := by
  have hsum := position_add ha hx
  rcases h with ⟨hlow, hhigh⟩ | ⟨hlow, hhigh⟩
  · exact Or.inl
      ⟨numLe_of_position (position_eq_placeOf ha) hsum (placeOf_mono Nat.one_pos hlow),
        numLe_of_position hsum (position_eq_placeOf hb) (placeOf_mono Nat.one_pos hhigh)⟩
  · exact Or.inr
      ⟨numLe_of_position (position_eq_placeOf hb) hsum (placeOf_mono Nat.one_pos hlow),
        numLe_of_position hsum (position_eq_placeOf ha) (placeOf_mono Nat.one_pos hhigh)⟩

theorem isFinite_of_isBetween (ha : a.isFinite = true) (hb : b.isFinite = true)
    (h : IsBetween a b x) : x.isFinite = true := by
  rcases h with ⟨hax, hxb⟩ | ⟨hbx, hxa⟩
  · exact isFinite_of_numLe ha hb hax hxb
  · exact isFinite_of_numLe hb ha hbx hxa

end Binary32

open Binary32

variable {first last : Binary32} {steps : Nat}

/-! ## The last computed time keeps the others in the range -/

/-- A difference that overflows makes an infinite step, which has no product with zero. -/
theorem isFinite_evenTime_zero (hd : (last - first).isFinite = false) (h2 : 2 ≤ steps)
    (hs : steps < 2 ^ 64) : (evenTime first last steps 0).isFinite = false := by
  have hstep : (evenStep first last steps).isFinite = false :=
    isFinite_div_eq_false hd (isFinite_ofNat (by omega))
  rw [evenTime, Binary32.add_comm, Binary32.mul_comm]
  exact isFinite_add_eq_false (isFinite_mul_eq_false _ hstep) first

theorem isBetween_evenTime (hf : first.isFinite = true) (hl : last.isFinite = true)
    (hd : (last - first).isFinite = true) (h2 : 2 ≤ steps) (hs : steps < 2 ^ 64)
    (hb : IsBetween first last (evenTime first last steps (steps - 2))) {i : Nat}
    (hi : i ≤ steps - 2) : IsBetween first last (evenTime first last steps i) := by
  have hzero := numEq_evenTime_zero hf hd h2 hs
  rcases numLe_total hf hl with hle | hle
  · rw [isBetween_iff hle] at hb ⊢
    have hstart := numLe_evenTime hf hl hd h2 hs hle (Nat.zero_le i) (by omega)
    have hend := numLe_evenTime hf hl hd h2 hs hle hi (by omega)
    exact ⟨numLe_trans (numLe_of_numEq (numEq_comm _ _ ▸ hzero)) hstart, numLe_trans hend hb.2⟩
  · rw [isBetween_comm, isBetween_iff hle] at hb ⊢
    have hstart := numLe_evenTime_of_le hf hl hd h2 hs hle (Nat.zero_le i) (by omega)
    have hend := numLe_evenTime_of_le hf hl hd h2 hs hle hi (by omega)
    exact ⟨numLe_trans hb.1 hend, numLe_trans hstart (numLe_of_numEq hzero)⟩

/-! ## Small errors are less than a step -/

/-- The exact difference `e` is rounded to `d`, the `n`-th part of this to the step `s`, and `i` of
`n` steps to `p`.  Rounding up by small parts does not make up for a step that is not taken. -/
theorem le_of_roundedUp {e d s p n i k : Nat} (hd : d * k ≤ e * (k + 1))
    (hs : s * n * (4 * n) ≤ d * (4 * n + 1)) (hp : p * k ≤ s * i * (k + 1)) (hi : i < n)
    (hk : 4 * n ≤ k) : p ≤ e := by
  -- The three factors `1 + 1 / 4n`, `1 + 1 / k` and `1 + 1 / k` make up for less than one step in
  -- `n`; multiplied out, this is `hkey`.
  have hk1 : 2 * k + 1 ≤ 3 * k := by omega
  have hsquare : (4 * n + 1) * i + 3 * n ≤ 4 * n * n := by
    have h := Nat.mul_le_mul_left (4 * n + 1) (Nat.succ_le_of_lt hi)
    rw [Nat.mul_succ, Nat.add_mul (4 * n) 1 n, Nat.one_mul] at h
    omega
  have hquarter : (4 * n + 1) * i ≤ n * k := by
    have h := Nat.mul_le_mul_right n hk
    rw [Nat.mul_comm k n] at h
    omega
  have hkey : (4 * n + 1) * i * (k + 1) ^ 2 ≤ 4 * n * n * k ^ 2 := by
    calc (4 * n + 1) * i * (k + 1) ^ 2
        = (4 * n + 1) * i * k ^ 2 + (4 * n + 1) * i * (2 * k + 1) := by ring
      _ ≤ (4 * n + 1) * i * k ^ 2 + n * k * (3 * k) :=
        Nat.add_le_add_left (Nat.mul_le_mul hquarter hk1) _
      _ = ((4 * n + 1) * i + 3 * n) * k ^ 2 := by ring
      _ ≤ 4 * n * n * k ^ 2 := Nat.mul_le_mul_right _ hsquare
  have hchain : p * (4 * n * n * k ^ 2) ≤ e * (4 * n * n * k ^ 2) := by
    calc p * (4 * n * n * k ^ 2) = p * k * (4 * n * n * k) := by ring
      _ ≤ s * i * (k + 1) * (4 * n * n * k) := Nat.mul_le_mul_right _ hp
      _ = s * n * (4 * n) * (i * (k + 1) * k) := by ring
      _ ≤ d * (4 * n + 1) * (i * (k + 1) * k) := Nat.mul_le_mul_right _ hs
      _ = d * k * ((4 * n + 1) * i * (k + 1)) := by ring
      _ ≤ e * (k + 1) * ((4 * n + 1) * i * (k + 1)) := Nat.mul_le_mul_right _ hd
      _ = e * ((4 * n + 1) * i * (k + 1) ^ 2) := by ring
      _ ≤ e * (4 * n * n * k ^ 2) := Nat.mul_le_mul_left _ hkey
  have hn : 0 < n := by omega
  have hpos : 0 < 4 * n * n * k ^ 2 :=
    Nat.mul_pos (Nat.mul_pos (by omega) hn) (Nat.pow_pos (by omega))
  exact Nat.le_of_mul_le_mul_right hchain hpos

/-- Whole units are rounded up by a small part of themselves only. -/
theorem units_nearest_whole_le (num : Nat) {den : Nat} (hden : 0 < den) :
    BinaryFormat.binary32.units (BinaryFormat.binary32.nearest (num * den) den) *
        (2 * BinaryFormat.binary32.runLength + 1) ≤
      num * (2 * BinaryFormat.binary32.runLength + 2) := by
  have h := BinaryFormat.units_nearest_le (F := BinaryFormat.binary32) (by decide) (num * den) hden
  generalize BinaryFormat.binary32.units _ = u at *
  generalize BinaryFormat.binary32.runLength = r at *
  rcases h with h | h
  · -- Half a unit does not reach the next whole one.
    have hle : u ≤ num := by
      by_contra hlt
      have := Nat.mul_le_mul_right den (Nat.succ_le_of_lt (Nat.lt_of_not_le hlt))
      rw [Nat.succ_mul] at this
      omega
    exact Nat.mul_le_mul hle (by omega)
  · refine Nat.le_of_mul_le_mul_right ?_ hden
    calc u * (2 * r + 1) * den = u * den * (2 * r + 1) := by ring
      _ ≤ num * den * (2 * r + 2) := h
      _ = num * (2 * r + 2) * den := by ring

/-- The `n`-th part of `d` units is rounded up by a small part of itself, if it has enough units. -/
theorem units_nearest_part_le {d n den : Nat} (hden : 0 < den) (hn : 0 < n)
    (hk : 4 * n ≤ 2 * BinaryFormat.binary32.runLength + 1) (hd : 2 * n ^ 2 ≤ d) :
    BinaryFormat.binary32.units (BinaryFormat.binary32.nearest (d * den) (n * den)) * n * (4 * n) ≤
      d * (4 * n + 1) := by
  have h := BinaryFormat.units_nearest_le (F := BinaryFormat.binary32) (by decide) (d * den)
    (Nat.mul_pos hn hden)
  generalize BinaryFormat.binary32.units _ = u at *
  generalize BinaryFormat.binary32.runLength = r at *
  rcases h with h | h
  · -- Half a unit for each of `n` parts is little, since there are at least `2 * n ^ 2` units.
    have hhalf : 2 * (u * n) ≤ 2 * d + n := by
      refine Nat.le_of_mul_le_mul_right ?_ hden
      calc 2 * (u * n) * den = 2 * (u * (n * den)) := by ring
        _ ≤ 2 * (d * den) + n * den := h
        _ = (2 * d + n) * den := by ring
    calc u * n * (4 * n) = 2 * (u * n) * (2 * n) := by ring
      _ ≤ (2 * d + n) * (2 * n) := Nat.mul_le_mul_right _ hhalf
      _ = d * (4 * n) + 2 * n ^ 2 := by ring
      _ ≤ d * (4 * n) + d := Nat.add_le_add_left hd _
      _ = d * (4 * n + 1) := by ring
  · have hpos : 0 < (2 * r + 1) * den := Nat.mul_pos (by omega) hden
    refine Nat.le_of_mul_le_mul_right ?_ hpos
    calc u * n * (4 * n) * ((2 * r + 1) * den) = u * (n * den) * (2 * r + 1) * (4 * n) := by ring
      _ ≤ d * den * (2 * r + 2) * (4 * n) := Nat.mul_le_mul_right _ h
      _ = d * (4 * n * (2 * r + 1) + 4 * n) * den := by ring
      _ ≤ d * (4 * n * (2 * r + 1) + (2 * r + 1)) * den :=
        Nat.mul_le_mul_right _ (Nat.mul_le_mul_left _ (Nat.add_le_add_left hk _))
      _ = d * (4 * n + 1) * ((2 * r + 1) * den) := by ring

section

variable (hf : first.isFinite = true) (hl : last.isFinite = true)
  (hd : (last - first).isFinite = true) (h2 : 2 ≤ steps) (hs : steps ≤ 2 ^ 22)
  (hcoarse : 2 * (steps - 1) ^ 2 ≤ (last - first).units.natAbs)

include hf hl hd h2 hs hcoarse

/-- What is added for the last computed time is within the exact difference of the ends. -/
theorem units_nearest_product_le :
    BinaryFormat.binary32.units (BinaryFormat.binary32.nearest
        ((evenStep first last steps).units * (ofNat (steps - 2)).units).natAbs
        (2 ^ BinaryFormat.binary32.scale)) ≤ (last.units - first.units).natAbs := by
  have hscale := Nat.two_pow_pos BinaryFormat.binary32.scale
  have hrun : BinaryFormat.binary32.runLength = 2 ^ 23 := rfl
  have hcount := units_ofNat (n := steps - 1) (by omega)
  have hindex := units_ofNat (n := steps - 2) (by omega)
  have hcountPos : 0 < (ofNat (steps - 1)).units :=
    Int.lt_of_lt_of_le (by decide) (one_le_units_ofNat (by omega) (by omega))
  have hdiff := natAbs_units_of_position hd (position_sub hl hf)
  have hstep := natAbs_units_of_position (isFinite_evenStep hd h2 (by omega))
    (position_div hd hcountPos)
  rw [hcount, Int.toNat_natCast, Int.natAbs_mul, Int.natAbs_pow] at hstep
  rw [hindex, Int.natAbs_mul, Int.natAbs_natCast, ← Nat.mul_assoc]
  -- The difference, the step and the product are rounded one after the other.
  refine le_of_roundedUp (k := 2 * BinaryFormat.binary32.runLength + 1) (n := steps - 1)
    (d := (last - first).units.natAbs) (s := (evenStep first last steps).units.natAbs)
    (i := steps - 2) ?_ ?_ ?_ (by omega) ?_
  · have hwhole := units_nearest_whole_le (last.units - first.units).natAbs Nat.one_pos
    rwa [Nat.mul_one, ← hdiff] at hwhole
  · rw [hstep]
    exact units_nearest_part_le hscale (by omega) (by omega) hcoarse
  · exact units_nearest_whole_le _ hscale
  · omega

theorem isFinite_lastProduct :
    (evenStep first last steps * ofNat (steps - 2)).isFinite = true := by
  have hproduct := position_mul (isFinite_evenStep hd h2 (by omega))
    (isFinite_ofNat (n := steps - 2) (by omega))
  have hle := units_nearest_product_le hf hl hd h2 hs hcoarse
  rw [isFinite_iff_natAbs_lt (position_sub hl hf), natAbs_placeOf] at hd
  rw [isFinite_iff_natAbs_lt hproduct, natAbs_placeOf]
  -- The product has a rank that is not beyond the rank of the difference.
  generalize BinaryFormat.binary32.nearest ((evenStep first last steps).units *
    (ofNat (steps - 2)).units).natAbs (2 ^ BinaryFormat.binary32.scale) = rank at hle ⊢
  have hmono := BinaryFormat.nearest_mono (F := BinaryFormat.binary32) (by decide) Nat.one_pos hle
  have hself := BinaryFormat.nearest_units (F := BinaryFormat.binary32) (by decide) rank Nat.one_pos
  rw [Nat.mul_one] at hself
  omega

theorem natAbs_units_lastProduct_le :
    (evenStep first last steps * ofNat (steps - 2)).units.natAbs ≤
      (last.units - first.units).natAbs := by
  have hproduct := position_mul (isFinite_evenStep hd h2 (by omega))
    (isFinite_ofNat (n := steps - 2) (by omega))
  rw [natAbs_units_of_position (isFinite_lastProduct hf hl hd h2 hs hcoarse) hproduct]
  exact units_nearest_product_le hf hl hd h2 hs hcoarse

/-- A range of moderately many steps is kept, unless they are so small that their spacing shows. -/
theorem isBetween_evenTime_of_coarse :
    IsBetween first last (evenTime first last steps (steps - 2)) := by
  have hplace := position_mul (isFinite_evenStep hd h2 (by omega))
    (isFinite_ofNat (n := steps - 2) (by omega))
  have hfinite := isFinite_lastProduct hf hl hd h2 hs hcoarse
  have hle := natAbs_units_lastProduct_le hf hl hd h2 hs hcoarse
  have hindex : 0 ≤ (ofNat (steps - 2)).units := by
    rw [units_ofNat (by omega)]
    exact Int.natCast_nonneg _
  refine isBetween_add hf hl hfinite ?_
  rcases numLe_total hf hl with h | h
  · have hstep := units_evenStep_nonneg hf hl hd h2 (by omega) h
    have hsign := units_nonneg_of_position hfinite hplace
      (placeOf_nonneg (Nat.two_pow_pos _) (Int.mul_nonneg hstep hindex))
    rw [numLe_finite_iff hf hl] at h
    omega
  · have hstep := units_evenStep_nonpos hf hl hd h2 (by omega) h
    have hsign := units_nonpos_of_position hfinite hplace
      (placeOf_nonpos (Nat.two_pow_pos _) (Int.mul_nonpos_of_nonpos_of_nonneg hstep hindex))
    rw [numLe_finite_iff hl hf] at h
    omega

end

/-- Every time of the range is finite and lies between its ends. -/
def StaysBetween (first last : Binary32) (times : List Binary32) : Prop :=
  ∀ x ∈ times, x.isFinite = true ∧ IsBetween first last x

theorem staysBetween_iff (hf : first.isFinite = true) (hl : last.isFinite = true) (h2 : 2 ≤ steps)
    (hs : steps < 2 ^ 64) :
    StaysBetween first last
        ((List.range (steps - 1)).map (evenTime first last steps) ++ [last]) ↔
      (last - first).isFinite = true ∧
        IsBetween first last (evenTime first last steps (steps - 2)) := by
  have hmem : ∀ i < steps - 1, evenTime first last steps i ∈
      (List.range (steps - 1)).map (evenTime first last steps) ++ [last] := fun i hi =>
    List.mem_append_left _ (List.mem_map_of_mem (List.mem_range.mpr hi))
  constructor
  · intro hstays
    refine ⟨?_, (hstays _ (hmem (steps - 2) (by omega))).2⟩
    -- If the difference overflows, the first time tells so.
    by_contra hd
    have hfinite := (hstays _ (hmem 0 (by omega))).1
    rw [isFinite_evenTime_zero (Bool.eq_false_of_not_eq_true hd) h2 hs] at hfinite
    cases hfinite
  · rintro ⟨hd, hb⟩ x hx
    suffices hx : IsBetween first last x from ⟨isFinite_of_isBetween hf hl hx, hx⟩
    rcases List.mem_append.mp hx with hx | hx
    · obtain ⟨i, hi, rfl⟩ := List.mem_map.mp hx
      rw [List.mem_range] at hi
      exact isBetween_evenTime hf hl hd h2 hs hb (by omega)
    · rw [List.mem_singleton.mp hx]
      exact (numLe_total hf hl).imp (fun h => ⟨h, numLe_refl (ne_nan_of_isFinite hl)⟩)
        fun h => ⟨numLe_refl (ne_nan_of_isFinite hl), h⟩

/-- **When the times of a range stay in it.**  A range of at least two times with finite ends is
always computed.  Its times are finite and lie between the ends exactly if the difference of the
ends does not overflow and the last time that is computed lies between them.  This is so if there
are no more than `2 ^ 22` times and the difference has at least as many units as twice the square of
the count of steps. -/
theorem evenTimes_between (hf : first.isFinite = true) (hl : last.isFinite = true)
    (h2 : 2 ≤ steps) (hs : steps < 2 ^ 64) :
    ∃ times, evenTimes first last steps = .ok times ∧
      (StaysBetween first last times ↔ (last - first).isFinite = true ∧
        IsBetween first last (evenTime first last steps (steps - 2))) ∧
      ((last - first).isFinite = true → steps ≤ 2 ^ 22 →
        2 * (steps - 1) ^ 2 ≤ (last - first).units.natAbs → StaysBetween first last times) := by
  have hiff := staysBetween_iff hf hl h2 hs
  refine ⟨_, evenTimes_eq_ok hf hl h2, hiff, fun hd hfew hcoarse => hiff.mpr ⟨hd, ?_⟩⟩
  exact isBetween_evenTime_of_coarse hf hl hd h2 hfew hcoarse

/-- The range from one down to the negative zero, in three thousand times. -/
theorem evenTimes_between_down :
    (1 : Binary32).isFinite = true ∧ (signedZero true).isFinite = true ∧ 2 ≤ 3000 ∧
      3000 < 2 ^ 64 ∧ ∃ times, evenTimes 1 (signedZero true) 3000 = .ok times ∧
        StaysBetween 1 (signedZero true) times := by
  have hf : (1 : Binary32).isFinite = true := rfl
  have hl : (signedZero true).isFinite = true := rfl
  have h2 : 2 ≤ 3000 := by decide
  have hs : 3000 < 2 ^ 64 := by decide
  obtain ⟨times, hok, -, hstays⟩ := evenTimes_between hf hl h2 hs
  exact ⟨hf, hl, h2, hs, times, hok, hstays rfl (by decide) (by decide)⟩

/-- The largest finite number. -/
def largest : Binary32 := ofRank false (infinityRank - 1)

/-- The difference of the greatest ends overflows, and the first time is not a number.  The fifth
part of three units is rounded to one unit, and the fifth time is then beyond the end. -/
theorem evenTimes_leave_range :
    (-largest).isFinite = true ∧ largest.isFinite = true ∧
      evenTimes (-largest) largest 2 = .ok [nan, largest] ∧
      ¬ StaysBetween (-largest) largest [nan, largest] ∧
    ∃ times, evenTimes 0 (ofRank false 3) 6 = .ok times ∧ ofRank false 4 ∈ times ∧
      (ofRank false 4).numLe (ofRank false 3) = false ∧
      ¬ StaysBetween 0 (ofRank false 3) times := by
  refine ⟨rfl, rfl, rfl, fun h => ?_, [0, ofRank false 1, ofRank false 2, ofRank false 3,
    ofRank false 4, ofRank false 3], rfl, by decide, rfl, fun h => ?_⟩
  · cases (h nan (List.mem_cons_self ..)).1
  · have hbetween := (h (ofRank false 4) (by decide)).2
    rw [isBetween_iff rfl] at hbetween
    cases hbetween.2

end TimeSignal
