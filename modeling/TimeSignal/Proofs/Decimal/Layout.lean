import TimeSignal.Decimal.Style
import TimeSignal.Proofs.Decimal.Shortest

/-!
# Layout keeps the number

The digits of a decimal are laid out around a point, with zeros where the point is outside of them,
or with an exponent that moves the point back.  Either way the numeral denotes the decimal.

## Main definitions

* `Numeral.IsWritten`: the parts of a numeral are digits, and none but the fraction may be empty

## Main results

* `NumeralStyle.isWritten_numeral`: every layout is a written numeral
* `NumeralStyle.whole_ne_zero_cons`: no layout has a needless zero in front
* `NumeralStyle.toBinary32_numeral`: every layout without a kept point denotes its decimal
* `Binary32.toBinary32_numeral_shortest`: the layout of the shortest decimal of a number is read
  back as the number
-/

namespace TimeSignal

namespace Numeral

/-- There are digits before the point, and in the exponent if there is one, and nothing but digits
in all parts. -/
structure IsWritten (n : Numeral) : Prop where
  /-- Some digit stands before the point. -/
  whole_ne_nil : n.whole ≠ []
  /-- Only digits stand before the point. -/
  whole : ∀ c ∈ n.whole, c.isDigit = true
  /-- Only digits stand after the point. -/
  fraction : ∀ c ∈ n.fraction, c.isDigit = true
  /-- An exponent has digits, and nothing else after its sign. -/
  exponent : ∀ sign digits, n.exponent = some (sign, digits) →
    digits ≠ [] ∧ ∀ c ∈ digits, c.isDigit = true

end Numeral

theorem isDigit_of_mem_toDigits {n : Nat} {c : Char} (h : c ∈ Nat.toDigits 10 n) :
    c.isDigit = true :=
  Nat.isDigit_of_mem_toDigits (by decide) (by decide) h

theorem isDigit_of_mem_replicate {n : Nat} {c : Char} (h : c ∈ List.replicate n '0') :
    c.isDigit = true := by
  rw [List.eq_of_mem_replicate h]
  rfl

/-- The digits of a positive number do not start with zero. -/
theorem toDigits_ten_ne_zero_cons {n : Nat} (hn : n ≠ 0) (more : List Char) :
    Nat.toDigits 10 n ≠ '0' :: more := by
  induction n using Nat.strong_induction_on generalizing more with
  | _ n ih =>
    rw [Nat.toDigits_eq_if (by decide)]
    split
    · next hlt =>
      have hdigit : ∀ k < 10, k ≠ 0 → k.digitChar ≠ '0' := by decide
      intro h
      exact hdigit n hlt hn (List.cons.inj h).1
    · next hge =>
      intro h
      rcases List.append_eq_cons_iff.mp h with ⟨hnil, -⟩ | ⟨more', hmore, -⟩
      · exact Nat.toDigits_ne_nil hnil
      · exact ih (n / 10) (by omega) (by omega) more' hmore

namespace NumeralStyle

variable (style : NumeralStyle) (negative : Bool) (d : Decimal)

/-- The sign of a number has no part in its layout. -/
theorem numeral_eq : style.numeral negative d = { style.numeral false d with negative } := by
  unfold numeral positional scientific
  dsimp only
  repeat' split
  all_goals rfl

/-! ## Layouts are written numerals -/

theorem isWritten_positional : (style.positional negative d).IsWritten := by
  have hnil : Nat.toDigits 10 d.coefficient ≠ [] := Nat.toDigits_ne_nil
  unfold positional
  dsimp only
  split
  · -- a whole number, with zeros behind its digits
    refine ⟨List.append_ne_nil_of_left_ne_nil hnil _, ?_, ?_, fun _ _ h => nomatch h⟩
    · intro c hc
      rcases List.mem_append.mp hc with hc | hc
      · exact isDigit_of_mem_toDigits hc
      · exact isDigit_of_mem_replicate hc
    · intro c hc
      dsimp only at hc
      split at hc
      · rw [List.mem_singleton.mp hc]
        rfl
      · cases hc
  · split
    · next hlt =>
      -- the point stands between the digits
      refine ⟨?_, fun c hc => isDigit_of_mem_toDigits (List.mem_of_mem_take hc),
        fun c hc => isDigit_of_mem_toDigits (List.mem_of_mem_drop hc), fun _ _ h => nomatch h⟩
      intro h
      rcases List.take_eq_nil_iff.mp h with h | h
      · omega
      · exact hnil h
    · -- the point stands in front of the digits
      refine ⟨List.cons_ne_nil _ _, ?_, ?_, fun _ _ h => nomatch h⟩
      · intro c hc
        rw [List.mem_singleton.mp hc]
        rfl
      · intro c hc
        rcases List.mem_append.mp hc with hc | hc
        · exact isDigit_of_mem_replicate hc
        · exact isDigit_of_mem_toDigits hc

theorem isWritten_scientific : (style.scientific negative d).IsWritten := by
  have hpos : 0 < (Nat.toDigits 10 d.coefficient).length := Nat.length_toDigits_pos
  unfold scientific
  refine ⟨?_, fun c hc => isDigit_of_mem_toDigits (List.mem_of_mem_take hc),
    fun c hc => isDigit_of_mem_toDigits (List.mem_of_mem_drop hc), ?_⟩
  · intro h
    rcases List.take_eq_nil_iff.mp h with h | h
    · cases h
    · rw [h] at hpos
      exact Nat.lt_irrefl 0 hpos
  · intro sign digits h
    cases h
    exact ⟨Nat.toDigits_ne_nil, fun c hc => isDigit_of_mem_toDigits hc⟩

theorem isWritten_numeral : (style.numeral negative d).IsWritten := by
  unfold numeral
  dsimp only
  split
  · exact style.isWritten_positional negative d
  · exact style.isWritten_scientific negative d

/-- No layout has a needless zero in front, unless the decimal is a zero with a positive
exponent. -/
theorem whole_ne_zero_cons (h : d.coefficient = 0 → d.exponent ≤ 0) (c : Char)
    (more : List Char) : (style.numeral negative d).whole ≠ '0' :: c :: more := by
  have hlong : ∀ tail : List Char, (['0'] : List Char) ≠ '0' :: c :: tail :=
    fun _ hc => nomatch (List.cons.inj hc).2
  -- The digits are a single zero, or they start with another digit.
  have hdigits : Nat.toDigits 10 d.coefficient = ['0'] ∧ d.exponent ≤ 0 ∨
      ∃ a tail, Nat.toDigits 10 d.coefficient = a :: tail ∧ a ≠ '0' := by
    by_cases hz : d.coefficient = 0
    · exact Or.inl ⟨by rw [hz]; rfl, h hz⟩
    · obtain ⟨a, tail, ha⟩ := List.exists_cons_of_ne_nil
        (Nat.toDigits_ne_nil (b := 10) (n := d.coefficient))
      refine Or.inr ⟨a, tail, ha, ?_⟩
      rintro rfl
      exact toDigits_ten_ne_zero_cons hz tail ha
  unfold numeral
  dsimp only
  split
  · unfold positional
    dsimp only
    rcases hdigits with ⟨hone, he⟩ | ⟨a, tail, hd, ha⟩
    · rw [hone]
      split
      · rw [show d.exponent.toNat = 0 by omega]
        exact hlong more
      · rw [if_neg (by simp; omega)]
        exact hlong more
    · rw [hd]
      split
      · exact fun hc => ha (List.cons.inj hc).1
      · split
        · next hlt =>
          obtain ⟨k, hk⟩ : ∃ k, (a :: tail).length - (-d.exponent).toNat = k + 1 :=
            ⟨(a :: tail).length - (-d.exponent).toNat - 1, by omega⟩
          rw [hk]
          exact fun hc => ha (List.cons.inj hc).1
        · exact hlong more
  · intro hc
    have hlen := congrArg List.length hc
    unfold scientific at hlen
    simp only [List.length_take, List.length_cons] at hlen
    omega

/-! ## Layouts denote their decimal -/

theorem toDecimal_scientific (hs : style.exponentSign ≠ .minus) :
    (style.scientific negative d).toDecimal = d := by
  have hpos : 0 < (Nat.toDigits 10 d.coefficient).length := Nat.length_toDigits_pos
  have hexp : (style.scientific negative d).exponentValue =
      d.exponent + (Nat.toDigits 10 d.coefficient).length - 1 := by
    unfold scientific Numeral.exponentValue
    dsimp only
    by_cases hlead : d.exponent + (Nat.toDigits 10 d.coefficient).length - 1 < 0
    · rw [if_pos hlead]
      dsimp only
      rw [Nat.ofDigitChars_ten_toDigits]
      omega
    · rw [if_neg hlead]
      cases hsign : style.exponentSign with
      | minus => exact absurd hsign hs
      | unsigned | plus =>
        dsimp only
        rw [Nat.ofDigitChars_ten_toDigits]
        omega
  unfold Numeral.toDecimal
  rw [hexp]
  unfold scientific
  dsimp only
  rw [List.take_append_drop, Nat.ofDigitChars_ten_toDigits, List.length_drop]
  cases d
  congr 1
  dsimp only at *
  omega

/-- Zeros in front of the digits do not change the coefficient. -/
theorem ofDigitChars_zero_append (n : Nat) (digits : List Char) :
    Nat.ofDigitChars 10 (['0'] ++ (List.replicate n '0' ++ digits)) 0 =
      Nat.ofDigitChars 10 digits 0 := by
  rw [Nat.ofDigitChars_append, Nat.ofDigitChars_append, Nat.ofDigitChars_replicate_zero]
  congr 1

/-- With digits behind the point, there are as many as the exponent says. -/
theorem toDecimal_positional (he : d.exponent < 0) :
    (style.positional negative d).toDecimal = d := by
  unfold positional
  dsimp only
  rw [if_neg (by omega)]
  split
  · unfold Numeral.toDecimal Numeral.exponentValue
    dsimp only
    rw [List.take_append_drop, Nat.ofDigitChars_ten_toDigits, List.length_drop]
    cases d
    congr 1
    dsimp only at *
    omega
  · unfold Numeral.toDecimal Numeral.exponentValue
    dsimp only
    rw [ofDigitChars_zero_append, Nat.ofDigitChars_ten_toDigits, List.length_append,
      List.length_replicate]
    cases d
    congr 1
    dsimp only at *
    omega

/-- A whole number with a point has one digit behind it. -/
theorem toDecimal_positional_natCast (hp : style.keepsPoint = true) (coefficient n : Nat) :
    (style.positional negative ⟨coefficient, n⟩).toDecimal = ⟨10 ^ (n + 1) * coefficient, -1⟩ := by
  unfold positional Numeral.toDecimal Numeral.exponentValue
  simp only [hp, if_true, Int.natCast_nonneg, Int.toNat_natCast, Nat.ofDigitChars_append,
    Nat.ofDigitChars_ten_toDigits, Nat.ofDigitChars_replicate_zero]
  congr 1
  change 10 * (10 ^ n * coefficient) + 0 = 10 ^ (n + 1) * coefficient
  ring

/-- Zeros after a coefficient do the same as a positive exponent. -/
theorem toBinary32_zeros (coefficient : Nat) {n : Nat} (hn : n ≤ 40) :
    (⟨10 ^ n * coefficient, 0⟩ : Decimal).toBinary32 negative =
      (⟨coefficient, n⟩ : Decimal).toBinary32 negative := by
  unfold Decimal.toBinary32
  dsimp only
  by_cases hc : coefficient = 0
  · rw [if_pos (by rw [hc, Nat.mul_zero]), if_pos hc]
  · have hmul : 10 ^ n * coefficient ≠ 0 := Nat.mul_ne_zero (Nat.pow_pos (by decide)).ne' hc
    rw [if_neg hmul, if_neg hc, if_neg (by decide), if_neg (by omega), if_pos (by decide),
      if_neg (by omega), if_neg (by omega), if_pos (by omega)]
    congr 2
    change 10 ^ n * coefficient * 1 = coefficient * 10 ^ n
    rw [Nat.mul_one, Nat.mul_comm]

theorem toBinary32_positional (hp : style.keepsPoint = false) (he : d.exponent ≤ 40) :
    (style.positional negative d).toBinary32 = d.toBinary32 negative := by
  rcases lt_or_ge d.exponent 0 with hneg | hpos
  · have hsign : (style.positional negative d).negative = negative := by
      unfold positional
      dsimp only
      repeat' split
      all_goals rfl
    rw [Numeral.toBinary32, style.toDecimal_positional negative d hneg, hsign]
  · -- The zeros behind the digits stand for the exponent.
    obtain ⟨coefficient, exponent⟩ := d
    obtain ⟨n, rfl⟩ := Int.eq_ofNat_of_zero_le hpos
    rw [← toBinary32_zeros negative coefficient (Int.ofNat_le.mp he)]
    unfold positional Numeral.toBinary32 Numeral.toDecimal Numeral.exponentValue
    simp only [hp, hpos, Bool.false_eq_true, if_false, if_true, List.append_nil,
      Int.toNat_natCast, Nat.ofDigitChars_append, Nat.ofDigitChars_ten_toDigits,
      Nat.ofDigitChars_replicate_zero]
    rfl

theorem toBinary32_numeral (hp : style.keepsPoint = false) (hs : style.exponentSign ≠ .minus)
    (he : d.exponent ≤ 40) :
    (style.numeral negative d).toBinary32 = d.toBinary32 negative := by
  unfold numeral
  dsimp only
  split
  · exact style.toBinary32_positional negative d hp he
  · rw [Numeral.toBinary32, style.toDecimal_scientific negative d hs]
    rfl

end NumeralStyle

namespace Binary32

/-- **The text of a number is read back as the number**, in every style whose whole numbers have no
point and in which only a negative exponent has a minus sign. -/
theorem toBinary32_numeral_shortest (style : NumeralStyle) (hp : style.keepsPoint = false)
    (hs : style.exponentSign ≠ .minus) (negative : Bool) (rank : Fin infinityRank) :
    (style.numeral negative (shortest style.tie rank)).toBinary32 = finite negative rank := by
  have he := exponent_shortest_le style.tie rank
  rw [style.toBinary32_numeral negative _ hp hs he, toBinary32_shortest]

end Binary32

end TimeSignal
