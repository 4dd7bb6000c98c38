import TimeSignal.Proofs.Binary32.Sign
import TimeSignal.Proofs.Signal.Value

/-!
# Evaluating blends that are written out

A blend that is written out evaluates its weight twice, before its start and before its stop, and
subtracts it from one by a product with `-1`.  The product is exact.  If the weight has no noise,
its second evaluation repeats the first and draws nothing, so a signal evaluates as before, bit for
bit and on the same draws.  If the weight of some blend has noise, the second evaluation draws
again, and nothing else draws less for it.

## Main results

* `Signal.eval_lowerBlend`: one blend by a weight without noise
* `Signal.eval_lower_of_hasNoiseFreeWeights`: all blends of a signal
* `Signal.draws_lt_draws_lower`: a weight with noise costs additional draws
* `Signal.eval_lower`: writing blends out keeps evaluation exactly when no weight has noise
-/

namespace TimeSignal

namespace Signal

variable {σ : Type} [DrawSource σ]

/-! ## Weights without noise -/

@[simp] theorem hasNoise_lower (e : Signal) : e.lower.hasNoise = e.hasNoise := by
  induction e with
  | time | noise | const => rfl
  | add l r ihl ihr | mul l r ihl ihr => rw [lower, hasNoise, ihl, ihr, hasNoise]
  | lerp x y s ihx ihy ihs =>
    simp only [lower, lowerBlend, hasNoise, ihx, ihy, ihs]
    cases x.hasNoise <;> cases y.hasNoise <;> cases s.hasNoise <;> rfl

/-- A blend by a weight without noise evaluates as if it were not written out. -/
theorem eval_lowerBlend {s : Signal} (h : s.hasNoise = false) (x y : Signal) (t : Binary32) :
    ((lowerBlend x y s).eval t : StateM σ Binary32) = (lerp x y s).eval t := by
  -- Both copies of the weight, and the weight of the blend itself, have one value.
  have hs := eval_eq_pure (σ := σ) h t (Playback.start [])
  simp only [lowerBlend, eval, hs, pure_bind, bind_assoc, Binary32.add_neg_one_mul]
  rfl

theorem eval_lower_of_hasNoiseFreeWeights {e : Signal} (h : e.HasNoiseFreeWeights)
    (t : Binary32) : (e.lower.eval t : StateM σ Binary32) = e.eval t := by
  induction e with
  | time | noise | const => rfl
  | add l r ihl ihr | mul l r ihl ihr => rw [lower, eval, ihl h.1, ihr h.2, eval]
  | lerp x y s ihx ihy ihs =>
    obtain ⟨hx, hy, hs, hn⟩ := h
    have hl : s.lower.hasNoise = false := (hasNoise_lower s).trans hn
    rw [lower, eval_lowerBlend hl, eval, ihx hx, ihy hy, ihs hs, eval]

/-! ## Weights with noise -/

theorem draws_lowerBlend (x y s : Signal) :
    (lowerBlend x y s).draws = (lerp x y s).draws + s.draws := by
  simp only [lowerBlend, draws]
  omega

theorem draws_le_draws_lower (e : Signal) : e.draws ≤ e.lower.draws := by
  induction e with
  | time | noise | const => exact Nat.le_refl _
  | add l r ihl ihr | mul l r ihl ihr => exact Nat.add_le_add ihl ihr
  | lerp x y s ihx ihy ihs =>
    rw [lower, draws_lowerBlend, draws, draws]
    omega

/-- The second copy of a weight with noise draws again, and no operand draws less than before. -/
theorem draws_lt_draws_lower {e : Signal} (h : ¬ e.HasNoiseFreeWeights) :
    e.draws < e.lower.draws := by
  induction e with
  | time | noise | const => exact absurd trivial h
  | add l r ihl ihr | mul l r ihl ihr =>
    rw [HasNoiseFreeWeights, not_and_or] at h
    rw [lower, draws, draws]
    rcases h with h | h
    · exact Nat.add_lt_add_of_lt_of_le (ihl h) r.draws_le_draws_lower
    · exact Nat.add_lt_add_of_le_of_lt l.draws_le_draws_lower (ihr h)
  | lerp x y s ihx ihy ihs =>
    have hx := x.draws_le_draws_lower
    have hy := y.draws_le_draws_lower
    have hs := s.draws_le_draws_lower
    rw [HasNoiseFreeWeights, not_and_or, not_and_or, not_and_or] at h
    rw [lower, draws_lowerBlend, draws, draws]
    rcases h with h | h | h | h
    · have := ihx h
      omega
    · have := ihy h
      omega
    · have := ihs h
      omega
    · -- The weight itself has noise.
      have := mt draws_eq_zero_iff.mp h
      omega

/-- **Writing blends out keeps evaluation where no weight has noise, and only there.**  If no weight
has noise, then from any state of any source the two signals evaluate to the same number, leave the
source in the same state and read the same draws.  If some weight has noise, the signal that is
written out reads more draws. -/
theorem eval_lower (e : Signal) (t : Binary32) (source : σ) :
    (e.HasNoiseFreeWeights →
      e.lower.eval t source = e.eval t source ∧
        readings (e.lower.eval t) source = readings (e.eval t) source) ∧
      (¬ e.HasNoiseFreeWeights →
        (readings (e.eval t) source).length < (readings (e.lower.eval t) source).length) := by
  refine ⟨fun h => ⟨?_, ?_⟩, fun h => ?_⟩
  · rw [eval_lower_of_hasNoiseFreeWeights h]
  · rw [eval_lower_of_hasNoiseFreeWeights h]
  · rw [length_readings_eval, length_readings_eval]
    exact draws_lt_draws_lower h

/-- Blends of noise, one inside the other, by weights that depend on the time only. -/
def steadyWeights : Signal := lerp noise (lerp time noise (mul (const Binary32.half) time)) time

/-- A blend whose weight is a blend by noise. -/
def noisyWeight : Signal := add time (lerp noise time (lerp time (const 1) noise))

theorem eval_lower_steadyWeights :
    steadyWeights.HasNoiseFreeWeights ∧
      steadyWeights.lower.eval Binary32.half (Playback.start [1, Binary32.half]) =
        steadyWeights.eval Binary32.half (Playback.start [1, Binary32.half]) ∧
      ¬ noisyWeight.HasNoiseFreeWeights ∧
      (readings (noisyWeight.eval 1) (Playback.start [0])).length <
        (readings (noisyWeight.lower.eval 1) (Playback.start [0])).length := by
  have hs : steadyWeights.HasNoiseFreeWeights :=
    ⟨trivial, ⟨trivial, trivial, ⟨trivial, trivial⟩, rfl⟩, trivial, rfl⟩
  have hn : ¬ noisyWeight.HasNoiseFreeWeights := by
    rintro ⟨-, -, -, -, hw⟩
    cases hw
  exact ⟨hs, ((eval_lower steadyWeights _ _).1 hs).1, hn, (eval_lower noisyWeight _ _).2 hn⟩

end Signal

end TimeSignal
