import TimeSignal.Proofs.Random.Mix

/-!
# The period of the generator

A step adds one odd constant to the word of a generator, so many steps add a multiple of it, and the
multiples of an odd constant come back to zero only after `2 ^ 64` of them.  Each generator on the
way has a result of its own, since no two words have the same one.  The results of a period are
therefore all words, each once.

## Main definitions

* `SplitMix.ahead`: a generator after a number of steps

## Main results

* `SplitMix.nextMany_fst`, `SplitMix.nextMany_snd`: a run of results, and the generator after it
* `SplitMix.ahead_eq_ahead_iff`, `SplitMix.exists_ahead_eq`: the generators on the way
* `SplitMix.nodup_nextMany`, `SplitMix.mem_nextMany_period`: the results of at most one period
* `SplitMix.nextMany_period`: the generator has full period, and a period has every word once
-/

namespace TimeSignal

namespace SplitMix

/-! ## Generators on the way -/

/-- The generator after `n` steps. -/
def ahead (generator : SplitMix) (n : Nat) : SplitMix :=
  ⟨generator.state + UInt64.ofNat n * increment⟩

theorem next_snd (generator : SplitMix) : generator.next.2 = generator.ahead 1 :=
  congrArg (fun step => mk (generator.state + step)) (UInt64.one_mul increment).symm

theorem ahead_zero (generator : SplitMix) : generator.ahead 0 = generator := by
  cases generator with
  | mk state =>
    change mk (state + 0 * increment) = mk state
    rw [UInt64.zero_mul, UInt64.add_zero]

theorem ahead_ahead (generator : SplitMix) (m n : Nat) :
    (generator.ahead m).ahead n = generator.ahead (m + n) := by
  rw [ahead, ahead, ahead, UInt64.ofNat_add, UInt64.add_mul, UInt64.add_assoc]

theorem isUnit_increment : IsUnit increment := isUnit_of_odd (by decide)

/-- Two generators on the way are the same only after a multiple of `2 ^ 64` steps. -/
theorem ahead_eq_ahead_iff {generator : SplitMix} {m n : Nat} :
    generator.ahead m = generator.ahead n ↔ m % 2 ^ 64 = n % 2 ^ 64 := by
  rw [ahead, ahead, mk.injEq, UInt64.add_right_inj, isUnit_increment.mul_left_inj,
    ← UInt64.toNat_inj, UInt64.toNat_ofNat', UInt64.toNat_ofNat']

theorem ahead_eq_self_iff {generator : SplitMix} {n : Nat} :
    generator.ahead n = generator ↔ 2 ^ 64 ∣ n := by
  have h : generator.ahead n = generator.ahead 0 ↔ n % 2 ^ 64 = 0 % 2 ^ 64 := ahead_eq_ahead_iff
  rwa [ahead_zero, Nat.zero_mod, ← Nat.dvd_iff_mod_eq_zero] at h

theorem toNat_state_ahead (generator : SplitMix) (n : Nat) :
    (generator.ahead n).state.toNat =
      (generator.state.toNat + n * increment.toNat) % 2 ^ 64 := by
  calc (generator.state + UInt64.ofNat n * increment).toNat
      = (generator.state.toNat + n % 2 ^ 64 * increment.toNat % 2 ^ 64) % 2 ^ 64 := by
        rw [UInt64.toNat_add, UInt64.toNat_mul, UInt64.toNat_ofNat']
    _ = (generator.state.toNat + n * increment.toNat) % 2 ^ 64 := by
        rw [Nat.mod_mul_mod, Nat.add_mod_mod]

theorem exists_ahead_eq (generator other : SplitMix) :
    ∃ n < 2 ^ 64, generator.ahead n = other := by
  obtain ⟨steps, hsteps⟩ := Finite.surjective_of_injective isUnit_increment.mul_left_injective
    (other.state - generator.state)
  refine ⟨steps.toNat, steps.toNat_lt, ?_⟩
  cases other
  rw [ahead, UInt64.ofNat_toNat, show steps * increment = _ from hsteps, UInt64.add_comm,
    UInt64.sub_add_cancel]

/-! ## Runs of results -/

theorem nextMany_succ (n : Nat) (generator : SplitMix) :
    nextMany (n + 1) generator =
      (generator.next.1 :: (nextMany n generator.next.2).1, (nextMany n generator.next.2).2) := rfl

theorem nextMany_snd (n : Nat) (generator : SplitMix) :
    (nextMany n generator).2 = generator.ahead n := by
  induction n generalizing generator with
  | zero => exact (ahead_zero generator).symm
  | succ n ih => rw [nextMany_succ, ih, next_snd, ahead_ahead, Nat.add_comm]

/-- A run consists of the next results of the generators on the way. -/
theorem nextMany_fst (n : Nat) (generator : SplitMix) :
    (nextMany n generator).1 = (List.range n).map fun i => (generator.ahead i).next.1 := by
  induction n generalizing generator with
  | zero => rfl
  | succ n ih =>
    rw [nextMany_succ, ih, List.range_succ_eq_map, List.map_cons, List.map_map, ahead_zero]
    refine congrArg _ (List.map_congr_left fun i _ => ?_)
    rw [next_snd, ahead_ahead, Function.comp_apply, Nat.succ_eq_one_add]

theorem nodup_nextMany {n : Nat} (hn : n ≤ 2 ^ 64) (generator : SplitMix) :
    (nextMany n generator).1.Nodup := by
  rw [nextMany_fst, List.nodup_map_iff_inj_on List.nodup_range]
  intro i hi j hj h
  have hmod := ahead_eq_ahead_iff.mp (next_fst_injective h)
  rw [List.mem_range] at hi hj
  omega

theorem mem_nextMany_period (generator : SplitMix) (word : UInt64) :
    word ∈ (nextMany (2 ^ 64) generator).1 := by
  obtain ⟨other, rfl⟩ := next_fst_bijective.surjective word
  obtain ⟨i, hi, rfl⟩ := exists_ahead_eq generator other
  rw [nextMany_fst]
  exact List.mem_map_of_mem (List.mem_range.mpr hi)

/-- **The generator has full period and loses no word.**  After `n` steps from a seed its word is
the seed plus `n` increments, modulo `2 ^ 64`, and it is back at its start after the multiples of
`2 ^ 64` steps only.  Every word is the result of exactly one generator, so the first `2 ^ 64`
results from any seed are pairwise distinct, and each word occurs among them exactly once. -/
theorem nextMany_period (seed : UInt64) :
    (∀ n, (nextMany n (ofSeed seed)).2.state.toNat =
        (seed.toNat + n * 0x9E3779B97F4A7C15) % 2 ^ 64) ∧
      (∀ n, (nextMany n (ofSeed seed)).2 = ofSeed seed ↔ 2 ^ 64 ∣ n) ∧
      (Function.Bijective fun generator : SplitMix => generator.next.1) ∧
      (nextMany (2 ^ 64) (ofSeed seed)).1.Nodup ∧
      ∀ word, (nextMany (2 ^ 64) (ofSeed seed)).1.count word = 1 := by
  refine ⟨fun n => ?_, fun n => ?_, next_fst_bijective, nodup_nextMany (Nat.le_refl _) _,
    fun word => ?_⟩
  · rw [nextMany_snd]
    exact toNat_state_ahead (ofSeed seed) n
  · rw [nextMany_snd]
    exact ahead_eq_self_iff
  · exact List.count_eq_one_of_mem (nodup_nextMany (Nat.le_refl _) _)
      (mem_nextMany_period (ofSeed seed) word)

end SplitMix

end TimeSignal
