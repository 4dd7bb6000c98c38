import TimeSignal.Proofs.Sampler.Compile
import TimeSignal.Proofs.Sampler.Lanes
import TimeSignal.Proofs.Signal.Lower

/-!
# Blends hit their ends

A blend adds up both of its ends, each with a factor.  At the weight zero the stop still takes part
as a product with zero, and at the weight one the start does.  Such a product is a zero if the end
is finite, a product with one is exact, and a sum with a zero changes at most the sign of a zero.
So the blend is equal by value to the end that its weight selects, for all finite ends and in all
ways of evaluating it: each of them evaluates the weight first, then the start, then the stop, and
combines the three numbers in one way.

## Main definitions

* `blendOperands`: the three operands of a blend, run one after the other
* `HitsEnds`: a computation gives the end that the weight selects
* `Lanes.lane`: a computation of four values seen from one lane

## Main results

* `Binary32.agree_blend_zero`, `Binary32.agree_blend_one`: blends of numbers
* `hitsEnds_blend`: three computations whose numbers are blended
* `Signal.lerp_hitsEnds`: blends in direct evaluation, in compiled samplers, in each of four lanes,
  and written out
-/

namespace TimeSignal

open Binary32

namespace Binary32

/-! ## Blends of numbers -/

theorem agree_blend_zero (x : Binary32) {y : Binary32} (hy : y.isFinite = true) :
    Agree (blend x y 0) x := by
  have hstart : (1 - 0 : Binary32) * x = x := by
    have hone : (1 - 0 : Binary32) = 1 := by decide
    rw [hone, one_mul]
  rw [blend, hstart]
  exact ((Agree.refl x).add (agree_zero_mul hy)).trans (agree_add_zero x)

theorem agree_blend_one {x : Binary32} (hx : x.isFinite = true) (y : Binary32) :
    Agree (blend x y 1) y := by
  have hzero : (1 - 1 : Binary32) = 0 := by decide
  rw [blend, hzero, one_mul]
  exact ((agree_zero_mul hx).add (Agree.refl y)).trans (agree_zero_add y)

/-- Where one number has a value, numbers that agree are equal by value. -/
theorem Agree.numEq {x y : Binary32} (h : Agree x y) (hy : y.isFinite = true) :
    x.numEq y = true :=
  h.resolve_left fun hnan => ne_nan_of_isFinite hy hnan.2

theorem numEq_blend_zero {x y s : Binary32} (hx : x.isFinite = true) (hy : y.isFinite = true)
    (hs : s.numEq 0 = true) : (blend x y s).numEq x = true := by
  have hblend : Agree (blend x y s) (blend x y 0) := (Agree.refl x).blend (.refl y) (Or.inr hs)
  exact (hblend.trans (agree_blend_zero x hy)).numEq hx

theorem numEq_blend_one {x y s : Binary32} (hx : x.isFinite = true) (hy : y.isFinite = true)
    (hs : s.numEq 1 = true) : (blend x y s).numEq y = true := by
  have hblend : Agree (blend x y s) (blend x y 1) := (Agree.refl x).blend (.refl y) (Or.inr hs)
  exact (hblend.trans (agree_blend_one hx y)).numEq hy

/-- An infinite end is not hit from the other side: its product with zero has no value. -/
example : blend 1 (infinite false) 0 = nan := by decide

end Binary32

/-! ## Computations that blend -/

/-- The numbers that the operands of a blend give. -/
structure BlendOperands where
  /-- The number of the weight. -/
  weight : Binary32
  /-- The number of the start. -/
  start : Binary32
  /-- The number of the stop. -/
  stop : Binary32

section Runs

variable {σ : Type}

/-- The weight, the start and the stop, run one after the other. -/
def blendOperands (weight start stop : StateM σ Binary32) : StateM σ BlendOperands := do
  let s ← weight
  let x ← start
  let y ← stop
  pure ⟨s, x, y⟩

/-- The computation `blended` runs the weight, the start and the stop one after the other.  Whenever
the start and the stop give finite numbers, it gives the number of the start where the weight is
zero, of either sign, and that of the stop where the weight is one. -/
structure HitsEnds (weight start stop blended : StateM σ Binary32) : Prop where
  /-- The source is left where the operands leave it. -/
  snd_eq : ∀ source, (blended source).2 = (blendOperands weight start stop source).2
  /-- The start is hit. -/
  start_of_zero : ∀ source,
    let operands := (blendOperands weight start stop source).1
    operands.start.isFinite = true → operands.stop.isFinite = true →
      operands.weight.numEq 0 = true → (blended source).1.numEq operands.start = true
  /-- The stop is hit. -/
  stop_of_one : ∀ source,
    let operands := (blendOperands weight start stop source).1
    operands.start.isFinite = true → operands.stop.isFinite = true →
      operands.weight.numEq 1 = true → (blended source).1.numEq operands.stop = true

theorem hitsEnds_blend (weight start stop : StateM σ Binary32) :
    HitsEnds weight start stop (do
      let s ← weight
      let x ← start
      let y ← stop
      pure (blend x y s)) where
  snd_eq _ := rfl
  start_of_zero _ := numEq_blend_zero
  stop_of_one _ := numEq_blend_one

/-- The value of lane `i` of a computation of four values. -/
def Lanes.lane (i : Fin 4) (run : StateM σ Lanes) : StateM σ Binary32 := do
  let values ← run
  pure (values.get i)

end Runs

variable {σ : Type} [DrawSource σ]

namespace Sampler

theorem lerp_hitsEnds_sample (x y s : Sampler) (t : Binary32) :
    HitsEnds (σ := σ) (s.sample t) (x.sample t) (y.sample t) ((lerp x y s).sample t) :=
  hitsEnds_blend (s.sample t) (x.sample t) (y.sample t)

theorem lerp_hitsEnds_sample4 (x y s : Sampler) (t : Lanes) (i : Fin 4) :
    HitsEnds (σ := σ) (Lanes.lane i (s.sample4 t)) (Lanes.lane i (x.sample4 t))
      (Lanes.lane i (y.sample4 t)) (Lanes.lane i ((lerp x y s).sample4 t)) := by
  -- A lane blends the numbers that the operands have in this lane.
  have hlane : Lanes.lane i ((lerp x y s).sample4 t : StateM σ Lanes) = (do
      let weight ← Lanes.lane i (s.sample4 t)
      let start ← Lanes.lane i (x.sample4 t)
      let stop ← Lanes.lane i (y.sample4 t)
      pure (blend start stop weight)) := by
    funext source
    exact congrArg (·, _) (Lanes.get_map₃ blend _ _ _ i)
  rw [hlane]
  exact hitsEnds_blend _ _ _

end Sampler

namespace Signal

theorem lerp_hitsEnds_eval (x y s : Signal) (t : Binary32) :
    HitsEnds (σ := σ) (s.eval t) (x.eval t) (y.eval t) ((lerp x y s).eval t) :=
  hitsEnds_blend (s.eval t) (x.eval t) (y.eval t)

/-- A blend that is written out evaluates its weight a second time before its stop.  Without noise
this draws nothing, so the stop is evaluated as it would be without it. -/
theorem lerp_hitsEnds_lower (x y : Signal) {s : Signal} (h : s.hasNoise = false) (t : Binary32) :
    HitsEnds (σ := σ) (s.lower.eval t) (x.lower.eval t)
      (do
        let _ ← s.lower.eval t
        y.lower.eval t)
      ((lerp x y s).lower.eval t) := by
  have hs : s.lower.hasNoise = false := (hasNoise_lower s).trans h
  have hweight := eval_eq_pure (σ := σ) hs t (Playback.start [])
  have hstop : (do
      let _ ← s.lower.eval t
      y.lower.eval t : StateM σ Binary32) = y.lower.eval t := by
    rw [hweight, pure_bind]
  rw [hstop, lower, eval_lowerBlend hs]
  exact lerp_hitsEnds_eval x.lower y.lower s.lower t

/-- **A blend hits its ends in every evaluator.**  In direct evaluation, in a compiled sampler, in
each lane of four, and, if the weight has no noise, written out with sums and products: whenever the
ends take finite values, a weight of zero gives the value of the start and a weight of one gives the
value of the stop. -/
theorem lerp_hitsEnds (x y s : Signal) (t : Binary32) :
    HitsEnds (σ := σ) (s.eval t) (x.eval t) (y.eval t) ((lerp x y s).eval t) ∧
      HitsEnds (σ := σ) (s.compile.sample t) (x.compile.sample t) (y.compile.sample t)
        ((lerp x y s).compile.sample t) ∧
      (∀ (times : Lanes) (i : Fin 4),
        HitsEnds (σ := σ) (Lanes.lane i (s.compile.sample4 times))
          (Lanes.lane i (x.compile.sample4 times)) (Lanes.lane i (y.compile.sample4 times))
          (Lanes.lane i ((lerp x y s).compile.sample4 times))) ∧
      (s.hasNoise = false →
        HitsEnds (σ := σ) (s.lower.eval t) (x.lower.eval t)
          (do
            let _ ← s.lower.eval t
            y.lower.eval t)
          ((lerp x y s).lower.eval t)) :=
  ⟨lerp_hitsEnds_eval x y s t,
    Sampler.lerp_hitsEnds_sample x.compile y.compile s.compile t,
    Sampler.lerp_hitsEnds_sample4 x.compile y.compile s.compile,
    fun h => lerp_hitsEnds_lower x y h t⟩

/-- The greatest finite number. -/
def greatest : Binary32 := ofRank false (infinityRank - 1)

/-- A weight that is the negative zero at time one. -/
def vanishingWeight : Signal := mul (const (signedZero true)) time

/-- The stop is noise over the whole range of the negative numbers, of which nothing is left. -/
theorem lerp_hitsEnds_greatest :
    vanishingWeight.hasNoise = false ∧
      (((lerp (const greatest) (mul noise (const (-greatest))) vanishingWeight).lower.eval 1
        (Playback.start [half])).1.numEq greatest = true) := by
  have hnoise : vanishingWeight.hasNoise = false := rfl
  obtain ⟨-, -, -, hlower⟩ := lerp_hitsEnds (σ := Playback) (const greatest)
    (mul noise (const (-greatest))) vanishingWeight 1
  refine ⟨hnoise, (hlower hnoise).start_of_zero (Playback.start [half]) rfl ?_ ?_⟩
  · decide +kernel
  · decide +kernel

end Signal

end TimeSignal
