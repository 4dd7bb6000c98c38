import TimeSignal.Proofs.Binary32.Agreement
import TimeSignal.Proofs.Signal.Draws

/-!
# Compiled samplers evaluate as their signals

A compiled sampler makes the operations of direct evaluation on the same draws.  It differs only at
the time, which it evaluates as `1 · t + 0`; this is `t`, unless `t` is the negative zero.

## Main results

* `Cubic.horner_identity`, `Cubic.agree_horner_identity`: the compiled time
* `Signal.agree_sample_compile`: the sampler agrees with the signal up to the sign of a zero
* `Signal.sample_compile_of_ne`: it is equal to the signal at any time but the negative zero
-/

namespace TimeSignal

open Binary32

namespace Cubic

theorem horner_identity_eq (t : Binary32) : identity.horner t = t + 0 := by
  change 1 * t + 0 = t + 0
  rw [one_mul]

theorem horner_identity {t : Binary32} (h : t ≠ signedZero true) : identity.horner t = t := by
  rw [horner_identity_eq, add_zero_of_ne h]

theorem agree_horner_identity (t : Binary32) : Binary32.Agree (identity.horner t) t := by
  rw [horner_identity_eq]
  exact Binary32.agree_add_zero t

end Cubic

theorem Binary32.Agree.blend {x x' y y' s s' : Binary32} (hx : Agree x x') (hy : Agree y y')
    (hs : Agree s s') : Agree (blend x y s) (blend x' y' s') :=
  (((Agree.refl 1).sub hs).mul hx).add (hs.mul hy)

namespace Signal

variable {σ : Type} [DrawSource σ]

theorem snd_sample_compile (e : Signal) (t : Binary32) (source : σ) :
    (e.compile.sample t source).2 = (e.eval t source).2 := by
  rw [Sampler.sample_snd, eval_snd, draws_compile]

/-- A relation that holds between the compiled time and the time, and that sums, products and blends
keep, holds between what the sampler and the signal evaluate to. -/
theorem sample_compile_induction {R : Binary32 → Binary32 → Prop} {t : Binary32}
    (refl : ∀ x, R x x) (time : R (Cubic.identity.horner t) t)
    (add : ∀ {x x' y y'}, R x x' → R y y' → R (x + y) (x' + y'))
    (mul : ∀ {x x' y y'}, R x x' → R y y' → R (x * y) (x' * y'))
    (lerp : ∀ {x x' y y' s s'}, R x x' → R y y' → R s s' →
      R (Binary32.blend x y s) (Binary32.blend x' y' s'))
    (e : Signal) (source : σ) : R (e.compile.sample t source).1 (e.eval t source).1 := by
  -- Operands are evaluated from the same states, since both sides draw equally often.
  induction e generalizing source with
  | time => exact time
  | noise | const => exact refl _
  | add l r ihl ihr =>
    rw [compile, Sampler.sample_add, eval_add, snd_sample_compile]
    exact add (ihl source) (ihr _)
  | mul l r ihl ihr =>
    rw [compile, Sampler.sample_mul, eval_mul, snd_sample_compile]
    exact mul (ihl source) (ihr _)
  | lerp x y s ihx ihy ihs =>
    rw [compile, Sampler.sample_lerp, eval_lerp]
    simp only [snd_sample_compile]
    exact lerp (ihx _) (ihy _) (ihs source)

theorem agree_sample_compile (e : Signal) (t : Binary32) (source : σ) :
    Agree (e.compile.sample t source).1 (e.eval t source).1 :=
  sample_compile_induction Agree.refl (Cubic.agree_horner_identity t) Agree.add Agree.mul
    Agree.blend e source

theorem sample_compile_of_ne (e : Signal) {t : Binary32} (h : t ≠ signedZero true) (source : σ) :
    e.compile.sample t source = e.eval t source := by
  apply Prod.ext _ (snd_sample_compile e t source)
  exact sample_compile_induction (R := Eq) (fun _ => rfl) (Cubic.horner_identity h)
    (by rintro _ _ _ _ rfl rfl; rfl) (by rintro _ _ _ _ rfl rfl; rfl)
    (by rintro _ _ _ _ _ _ rfl rfl rfl; rfl) e source

/-- **A compiled sampler evaluates as its signal.**  From any state of any source, both draw once
for each noise leaf and leave the source in the same state.  Their values are both `nan` or equal by
value, and they are the same number unless the time is the negative zero. -/
theorem sample_compile (e : Signal) (t : Binary32) (source : σ) :
    (e.compile.sample t source).2 = afterDraws e.draws source ∧
      (e.eval t source).2 = afterDraws e.draws source ∧
      Agree (e.compile.sample t source).1 (e.eval t source).1 ∧
      (t ≠ signedZero true → e.compile.sample t source = e.eval t source) := by
  refine ⟨?_, eval_snd e t source, agree_sample_compile e t source, fun h => ?_⟩
  · rw [snd_sample_compile, eval_snd]
  · exact sample_compile_of_ne e h source

theorem sample_compile_at_one :
    (1 : Binary32) ≠ signedZero true ∧
      (lerp time noise noise).compile.sample 1 (Playback.start [half, 0]) =
        (lerp time noise noise).eval 1 (Playback.start [half, 0]) := by
  have hone : (1 : Binary32) ≠ signedZero true := by decide
  exact ⟨hone, (sample_compile _ 1 _).2.2.2 hone⟩

/-- At the negative zero the two results may differ. -/
example : (time.compile.sample (signedZero true) (Playback.start [])).1 = signedZero false ∧
    (time.eval (signedZero true) (Playback.start [])).1 = signedZero true := by
  decide

end Signal

end TimeSignal
