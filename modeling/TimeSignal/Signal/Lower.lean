import TimeSignal.Signal.Basic

/-!
# Lowering blends

A blend can be written with sums and products alone, at the price of a second copy of its weight.

## Main definitions

* `Signal.lowerBlend`: one blend over operands without blends.
* `Signal.lower`: the signal with every blend written out.

## Main results

* `Signal.hasLerp_lower`: no blend is left.
* `Signal.lower_of_hasLerp_eq_false`: a signal without blends stays as it is.
-/

namespace TimeSignal

namespace Signal

/-- A blend written out: `(1 + -1 * weight) * start + weight * stop`. -/
def lowerBlend (start stop weight : Signal) : Signal :=
  add (mul (add (const 1) (mul (const (-1)) weight)) start) (mul weight stop)

/-- The signal with every blend written out, operands first. -/
def lower : Signal → Signal
  | time => time
  | noise => noise
  | const value => const value
  | add l r => add l.lower r.lower
  | mul l r => mul l.lower r.lower
  | lerp x y s => lowerBlend x.lower y.lower s.lower

@[simp] theorem hasLerp_lower (e : Signal) : e.lower.hasLerp = false := by
  induction e with
  | time | noise | const => rfl
  | add l r ihl ihr | mul l r ihl ihr => simp [lower, hasLerp, ihl, ihr]
  | lerp x y s ihx ihy ihs => simp [lower, lowerBlend, hasLerp, ihx, ihy, ihs]

theorem lower_of_hasLerp_eq_false {e : Signal} (h : e.hasLerp = false) : e.lower = e := by
  induction e with
  | time | noise | const => rfl
  | add l r ihl ihr | mul l r ihl ihr =>
    rw [hasLerp, Bool.or_eq_false_iff] at h
    rw [lower, ihl h.1, ihr h.2]
  | lerp => cases h

end Signal

end TimeSignal
