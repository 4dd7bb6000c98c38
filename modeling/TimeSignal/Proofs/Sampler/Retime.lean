import TimeSignal.Proofs.Sampler.Compile
import TimeSignal.Proofs.Sampler.Lanes
import TimeSignal.Proofs.Signal.Substitute

/-!
# Samplers on a scaled and shifted time

A compiled signal can be retimed: it is then evaluated at a time that is scaled and shifted once,
before the evaluation begins.  Or the signal itself is shifted and scaled before it is compiled, and
every occurrence of the time becomes a sum and a product.  Both come to an evaluation of the signal
at one and the same time.  The compiled time, which changes the negative zero to zero, stands in the
two samplers at different places, so their values agree up to the sign of a zero.

## Main results

* `Signal.eval_scale_offset`: a shifted and scaled signal evaluates as the signal at another time
* `Signal.agree_sample_retimed`: the two samplers agree at one time
* `Signal.sample_retimed`: they agree at one time and lane by lane, and read the same draws
-/

namespace TimeSignal

open Binary32

namespace Signal

variable {σ : Type} [DrawSource σ]

/-! ## The shifted and scaled signal -/

/-- The shift is spliced in first, so the time is scaled before it is shifted. -/
theorem eval_scale_offset (e : Signal) (factor delta t : Binary32) :
    (((e.offset delta).scale factor).eval t : StateM σ Binary32) =
      e.eval (delta + factor * t) := by
  rw [eval_scale, eval_offset]

theorem draws_scale (e : Signal) (factor : Binary32) : (e.scale factor).draws = e.draws :=
  draws_substitute e (mul (const factor) time)

theorem draws_offset (e : Signal) (delta : Binary32) : (e.offset delta).draws = e.draws :=
  draws_substitute e (add (const delta) time)

theorem draws_compile_scale_offset (e : Signal) (factor delta : Binary32) :
    ((e.offset delta).scale factor).compile.draws = e.draws := by
  rw [draws_compile, draws_scale, draws_offset]

/-! ## The retimed sampler -/

theorem draws_compile_retimed (e : Signal) (factor delta : Binary32) :
    (e.compile.retimed factor delta).draws = e.draws :=
  draws_compile e

/-- The retimed sampler evaluates the signal at the same time, up to the sign of a zero. -/
theorem agree_sample_retimed_eval (e : Signal) (factor delta t : Binary32) (source : σ) :
    Agree ((e.compile.retimed factor delta).sample t source).1
      (e.eval (delta + factor * t) source).1 := by
  have htime : t * factor + delta = delta + factor * t := by
    rw [mul_comm, add_comm]
  rw [← htime]
  exact agree_sample_compile e (t * factor + delta) source

theorem agree_sample_retimed (e : Signal) (factor delta t : Binary32) (source : σ) :
    Agree ((e.compile.retimed factor delta).sample t source).1
      (((e.offset delta).scale factor).compile.sample t source).1 := by
  have hspliced := agree_sample_compile ((e.offset delta).scale factor) t source
  rw [eval_scale_offset] at hspliced
  exact (agree_sample_retimed_eval e factor delta t source).trans hspliced.symm

/-- **Retiming a compiled signal agrees with compiling the shifted and scaled signal.**  For any
factor, shift and time, infinities and `nan` among them, and from any state of any source, both
samplers read the same draws and leave the source in the same state, and their values are both `nan`
or equal by value.  The same holds in each lane when four times are evaluated at once. -/
theorem sample_retimed (e : Signal) (factor delta : Binary32) (source : σ) :
    let remapped := e.compile.retimed factor delta
    let spliced := ((e.offset delta).scale factor).compile
    (∀ t : Binary32,
      readings (remapped.sample t) source = readings (spliced.sample t) source ∧
        (remapped.sample t source).2 = (spliced.sample t source).2 ∧
        Agree (remapped.sample t source).1 (spliced.sample t source).1) ∧
      ∀ times : Lanes,
        readings (remapped.sample4 times) source = readings (spliced.sample4 times) source ∧
          (remapped.sample4 times source).2 = (spliced.sample4 times source).2 ∧
          ∀ i : Fin 4, Agree ((remapped.sample4 times source).1.get i)
            ((spliced.sample4 times source).1.get i) := by
  intro remapped spliced
  have hdraws : remapped.draws = spliced.draws :=
    (draws_compile_retimed e factor delta).trans (draws_compile_scale_offset e factor delta).symm
  refine ⟨fun t => ⟨?_, ?_, agree_sample_retimed e factor delta t source⟩, fun times => ⟨?_, ?_, ?_⟩⟩
  · rw [Sampler.readings_sample, Sampler.readings_sample, hdraws]
  · rw [Sampler.sample_snd, Sampler.sample_snd, hdraws]
  · rw [Sampler.readings_sample4, Sampler.readings_sample4, hdraws]
  · rw [Sampler.sample4_snd, Sampler.sample4_snd, hdraws]
  · -- A lane evaluates as if it were alone, so it agrees as the value at one time does.
    intro i
    exact Sampler.sample4_lanewise (agree_sample_retimed e factor delta) times source i

/-- The order of the two matters: a signal that is scaled first has its shift scaled as well. -/
example :
    let value (s : Sampler) := (s.sample 1 (Playback.start [])).1
    value (time.compile.retimed (1 + 1) 1) = value ((time.offset 1).scale (1 + 1)).compile ∧
      value (time.compile.retimed (1 + 1) 1) ≠ value ((time.scale (1 + 1)).offset 1).compile := by
  decide

end Signal

end TimeSignal
