import TimeSignal.Proofs.Signal.Draws
import TimeSignal.Signal.Substitute

/-!
# Evaluating a substituted signal

A replacement without noise has one value at a time, from whatever state of a source it is
evaluated, so a signal in which it stands for the time evaluates as the signal at that value.  The
replacement is evaluated again at every occurrence of the time: if it has noise, it draws as often.

## Main definitions

* `Signal.timeLeaves`: the number of occurrences of the time

## Main results

* `Signal.eval_substitute_of_hasNoise_eq_false`: the signal at the value of the replacement
* `Signal.draws_substitute`: how often a substituted signal draws
* `Signal.eval_substitute`: substitution is composition of functions
-/

namespace TimeSignal

namespace Signal

variable {σ τ : Type} [DrawSource σ] [DrawSource τ]

/-- The number of occurrences of the time. -/
def timeLeaves : Signal → Nat
  | time => 1
  | noise | const _ => 0
  | add l r | mul l r => l.timeLeaves + r.timeLeaves
  | lerp x y s => x.timeLeaves + y.timeLeaves + s.timeLeaves

/-- The replacement has the same value at every occurrence, whatever has been drawn before. -/
theorem eval_substitute_of_hasNoise_eq_false {r : Signal} (h : r.hasNoise = false) (e : Signal)
    (t : Binary32) (other : τ) :
    ((e.substitute r).eval t : StateM σ Binary32) = e.eval (r.eval t other).1 := by
  induction e with
  | time => exact eval_eq_pure h t other
  | noise | const => rfl
  | add a b iha ihb | mul a b iha ihb => rw [substitute, eval, iha, ihb, eval]
  | lerp x y s ihx ihy ihs => rw [substitute, eval, ihx, ihy, ihs, eval]

theorem draws_substitute (e r : Signal) :
    (e.substitute r).draws = e.draws + e.timeLeaves * r.draws := by
  induction e with
  | time => rw [substitute, draws, timeLeaves, Nat.one_mul, Nat.zero_add]
  | noise | const => rw [substitute, draws, timeLeaves, Nat.zero_mul]
  | add a b iha ihb | mul a b iha ihb =>
    rw [substitute, draws, iha, ihb, draws, timeLeaves, Nat.add_mul]
    omega
  | lerp x y s ihx ihy ihs =>
    rw [substitute, draws, ihx, ihy, ihs, draws, timeLeaves, Nat.add_mul, Nat.add_mul]
    omega

theorem eval_scale (e : Signal) (factor t : Binary32) :
    ((e.scale factor).eval t : StateM σ Binary32) = e.eval (factor * t) :=
  eval_substitute_of_hasNoise_eq_false (r := mul (const factor) time) rfl e t (Playback.start [])

theorem eval_offset (e : Signal) (delta t : Binary32) :
    ((e.offset delta).eval t : StateM σ Binary32) = e.eval (delta + t) :=
  eval_substitute_of_hasNoise_eq_false (r := add (const delta) time) rfl e t (Playback.start [])

/-- **Substitution is composition of functions.**  With a replacement without noise, the substituted
signal evaluates as the signal at the value of the replacement, which any source gives, and reads
the same draws; so a composed signal is the outer one at the value of the inner one, and a scaled or
shifted signal is evaluated at the scaled or shifted time.  With any replacement, an evaluation
reads one draw for each noise leaf of the signal, and those of the replacement at each occurrence of
the time. -/
theorem eval_substitute (e r : Signal) (t : Binary32) (source : σ) :
    (r.hasNoise = false → ∀ {τ : Type} [DrawSource τ] (other : τ),
      let u := (r.eval t other).1
      (e.substitute r).eval t source = e.eval u source ∧
        readings ((e.substitute r).eval t) source = readings (e.eval u) source ∧
        (e.compose r).eval t source = e.eval u source) ∧
      (∀ factor : Binary32, (e.scale factor).eval t source = e.eval (factor * t) source) ∧
      (∀ delta : Binary32, (e.offset delta).eval t source = e.eval (delta + t) source) ∧
      (readings ((e.substitute r).eval t) source).length =
        e.draws + e.timeLeaves * r.draws := by
  refine ⟨fun h τ _ other => ⟨?_, ?_, ?_⟩, fun factor => ?_, fun delta => ?_, ?_⟩
  · rw [eval_substitute_of_hasNoise_eq_false h e t other]
  · rw [eval_substitute_of_hasNoise_eq_false h e t other]
  · rw [compose, eval_substitute_of_hasNoise_eq_false h e t other]
  · rw [eval_scale]
  · rw [eval_offset]
  · rw [length_readings_eval, draws_substitute]

/-- Noise and times, of which one is the weight of a blend. -/
def noisyTimes : Signal := lerp noise (add time noise) (mul time time)

/-- A blend of the time and one. -/
def blendedTime : Signal := lerp time (const 1) (const Binary32.half)

theorem eval_substitute_blendedTime :
    blendedTime.hasNoise = false ∧
      (noisyTimes.substitute blendedTime).eval 0 (Playback.start [1, Binary32.half]) =
        noisyTimes.eval (blendedTime.eval 0 (Playback.start [])).1
          (Playback.start [1, Binary32.half]) :=
  ⟨rfl, ((eval_substitute noisyTimes blendedTime 0 (Playback.start [1, Binary32.half])).1 rfl
    (Playback.start [])).1⟩

end Signal

end TimeSignal
