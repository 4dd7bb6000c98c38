import TimeSignal.Random.SplitMix
import Mathlib.Data.FinEnum
import Mathlib.Data.Int.GCD
import Mathlib.Data.Nat.Prime.Basic
import Mathlib.Data.UInt

/-!
# The output function loses nothing

The output function is a chain of steps on words: products with odd constants, and exclusive ors of
a word with its own shift.  An odd word is coprime to `2 ^ 64`, so it has an inverse.  A shift moves
every bit of a word down, so a word that is equal to its own shift is zero, and no two words have
the same exclusive or with their shifts.  Every step is injective, hence so is the chain, and there
are only finitely many words, so each of them is a result.

## Main definitions

* `SplitMix.xorShift`: the exclusive or of a word with its own shift

## Main results

* `SplitMix.isUnit_of_odd`: odd words are invertible
* `SplitMix.xorShift_injective`: the exclusive or with a shift can be undone
* `SplitMix.mix_bijective`: every word is the result for exactly one word
* `SplitMix.next_fst_bijective`: every result belongs to exactly one generator
-/

namespace TimeSignal

namespace SplitMix

/-! ## Steps of the output function -/

theorem isUnit_of_odd {word : UInt64} (h : Odd word.toNat) : IsUnit word := by
  have hcoprime : Nat.Coprime word.toNat (2 ^ 64) :=
    Nat.Coprime.pow_right 64 h.coprime_two_right
  obtain ⟨m, -, hm⟩ := Nat.exists_mul_mod_eq_one_of_coprime hcoprime (by decide)
  refine IsUnit.of_mul_eq_one (UInt64.ofNat m) (UInt64.toNat_inj.mp ?_)
  rw [UInt64.toNat_mul, UInt64.toNat_ofNat', Nat.mul_mod_mod, hm]
  rfl

/-- The exclusive or of a word with its own shift to the right. -/
def xorShift (shift word : UInt64) : UInt64 := word ^^^ (word >>> shift)

/-- Only zero is its own shift. -/
theorem eq_zero_of_eq_shiftRight {shift word : UInt64} (hs : 0 < shift.toNat % 64)
    (h : word = word >>> shift) : word = 0 := by
  have hn : word.toNat = word.toNat / 2 ^ (shift.toNat % 64) := by
    rw [← Nat.shiftRight_eq_div_pow, ← UInt64.toNat_shiftRight, ← h]
  have hpow : 1 < 2 ^ (shift.toNat % 64) := Nat.one_lt_two_pow hs.ne'
  apply UInt64.toNat_inj.mp
  by_contra hne
  have hlt := Nat.div_lt_self (Nat.pos_of_ne_zero hne) hpow
  omega

theorem xorShift_injective {shift : UInt64} (hs : 0 < shift.toNat % 64) :
    Function.Injective (xorShift shift) := by
  intro v w h
  -- Shifts distribute over exclusive ors, so the difference of the two words is its own shift.
  have hzero : (v ^^^ w) ^^^ ((v ^^^ w) >>> shift) = 0 := by
    calc (v ^^^ w) ^^^ ((v ^^^ w) >>> shift) = xorShift shift v ^^^ xorShift shift w := by
          rw [UInt64.shiftRight_xor, xorShift, xorShift]
          ac_rfl
      _ = 0 := by rw [h, UInt64.xor_self]
  exact UInt64.xor_eq_zero_iff.mp (eq_zero_of_eq_shiftRight hs (UInt64.xor_eq_zero_iff.mp hzero))

/-! ## The output function -/

theorem mix_eq (word : UInt64) :
    mix word = xorShift 31 (xorShift 27 (xorShift 30 word * 0xBF58476D1CE4E5B9) *
      0x94D049BB133111EB) := rfl

theorem mix_injective : Function.Injective mix := by
  have hfirst : IsUnit (0xBF58476D1CE4E5B9 : UInt64) := isUnit_of_odd (by decide)
  have hsecond : IsUnit (0x94D049BB133111EB : UInt64) := isUnit_of_odd (by decide)
  intro v w h
  rw [mix_eq, mix_eq] at h
  -- The steps are undone from the last one back.
  have hproducts := hsecond.mul_left_injective (xorShift_injective (by decide) h)
  have hshifts := hfirst.mul_left_injective (xorShift_injective (by decide) hproducts)
  exact xorShift_injective (by decide) hshifts

theorem mix_bijective : Function.Bijective mix :=
  Finite.injective_iff_bijective.mp mix_injective

/-! ## Results of generators -/

theorem next_fst_injective : Function.Injective fun generator : SplitMix => generator.next.1 := by
  intro g h heq
  have hstate : g.state + increment = h.state + increment := mix_injective heq
  cases g
  cases h
  exact congrArg mk ((UInt64.add_left_inj increment).mp hstate)

theorem next_fst_bijective :
    Function.Bijective fun generator : SplitMix => generator.next.1 := by
  refine ⟨next_fst_injective, fun word => ?_⟩
  obtain ⟨state, hstate⟩ := mix_bijective.surjective word
  refine ⟨⟨state - increment⟩, ?_⟩
  change mix (state - increment + increment) = word
  rw [UInt64.sub_add_cancel, hstate]

end SplitMix

end TimeSignal
