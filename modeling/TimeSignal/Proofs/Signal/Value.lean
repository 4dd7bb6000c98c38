import TimeSignal.Proofs.Binary32.Value
import TimeSignal.Proofs.Signal.Constants
import TimeSignal.Proofs.Signal.Draws
import TimeSignal.Signal.Lower

/-!
# Exact values of signals

A signal with finite constants denotes a function of a rational time and of the values of its noise
leaves, which it takes in the order in which an evaluation draws them: a blend takes those of its
weight first.  Writing a blend out copies its weight, so it keeps the noise leaves if the weight has
none, and it keeps the exact value, since `1 - s` and `1 + -1 · s` are one rational.

## Main definitions

* `Signal.value`: the exact value at a rational time
* `Signal.HasNoiseFreeWeights`: no weight of a blend has a noise leaf

## Main results

* `Signal.draws_lower`, `Signal.value_lower`: writing blends out keeps draws and values
-/

namespace TimeSignal

namespace Signal

/-- The value at time `t` when the noise leaves, in the order of evaluation, have the values `d`. -/
def value (t : ℚ) : Signal → List ℚ → ℚ
  | time, _ => t
  | noise, d => d.headD 0
  | const a, _ => a.toRat
  | add l r, d => value t l (d.take l.draws) + value t r (d.drop l.draws)
  | mul l r, d => value t l (d.take l.draws) * value t r (d.drop l.draws)
  | lerp x y s, d =>
    let weight := value t s (d.take s.draws)
    let rest := d.drop s.draws
    (1 - weight) * value t x (rest.take x.draws) + weight * value t y (rest.drop x.draws)

/-- No weight of a blend has a noise leaf. -/
def HasNoiseFreeWeights : Signal → Prop
  | time | noise | const _ => True
  | add l r | mul l r => l.HasNoiseFreeWeights ∧ r.HasNoiseFreeWeights
  | lerp x y s =>
    x.HasNoiseFreeWeights ∧ y.HasNoiseFreeWeights ∧ s.HasNoiseFreeWeights ∧ s.hasNoise = false

/-! ## Blends written out -/

theorem draws_lower {e : Signal} (h : e.HasNoiseFreeWeights) : e.lower.draws = e.draws := by
  induction e with
  | time | noise | const => rfl
  | add l r ihl ihr | mul l r ihl ihr => rw [lower, draws, ihl h.1, ihr h.2, draws]
  | lerp x y s ihx ihy ihs =>
    obtain ⟨hx, hy, hs, hn⟩ := h
    simp only [lower, lowerBlend, draws, ihx hx, ihy hy, ihs hs, draws_eq_zero_iff.mpr hn]
    omega

/-- The two copies of the weight take no draw, nor does the weight itself, so start and stop take
theirs at the same places. -/
theorem value_lowerBlend {x y s : Signal} (h : s.draws = 0) (t : ℚ) (d : List ℚ) :
    (lowerBlend x y s).value t d =
      (1 - s.value t []) * x.value t (d.take x.draws) +
        s.value t [] * y.value t (d.drop x.draws) := by
  simp only [lowerBlend, value, draws, h, Nat.add_zero, Nat.zero_add, List.take_zero,
    List.drop_zero, Binary32.toRat_one, Binary32.toRat_neg]
  ring

theorem value_lower {e : Signal} (h : e.HasNoiseFreeWeights) (t : ℚ) (d : List ℚ) :
    e.lower.value t d = e.value t d := by
  induction e generalizing d with
  | time | noise | const => rfl
  | add l r ihl ihr | mul l r ihl ihr =>
    rw [lower, value, value, draws_lower h.1, ihl h.1, ihr h.2]
  | lerp x y s ihx ihy ihs =>
    obtain ⟨hx, hy, hs, hn⟩ := h
    have hd := draws_eq_zero_iff.mpr hn
    rw [lower, value_lowerBlend ((draws_lower hs).trans hd), draws_lower hx, ihx hx, ihy hy, ihs hs,
      value, hd]
    rfl

theorem hasFiniteConsts_lower {e : Signal} (h : e.HasFiniteConsts) : e.lower.HasFiniteConsts := by
  induction e with
  | time | noise | const => exact h
  | add l r ihl ihr =>
    rw [hasFiniteConsts_add] at h
    exact hasFiniteConsts_add.mpr ⟨ihl h.1, ihr h.2⟩
  | mul l r ihl ihr =>
    rw [hasFiniteConsts_mul] at h
    exact hasFiniteConsts_mul.mpr ⟨ihl h.1, ihr h.2⟩
  | lerp x y s ihx ihy ihs =>
    rw [hasFiniteConsts_lerp] at h
    obtain ⟨hx, hy, hs⟩ := h
    have hone : (1 : Binary32).isFinite = true := rfl
    have hneg : (-1 : Binary32).isFinite = true := rfl
    simp only [lower, lowerBlend, hasFiniteConsts_add, hasFiniteConsts_mul, hasFiniteConsts_const]
    exact ⟨⟨⟨hone, hneg, ihs hs⟩, ihx hx⟩, ihs hs, ihy hy⟩

end Signal

end TimeSignal
