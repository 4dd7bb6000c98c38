import TimeSignal.Proofs.Binary32.Sign
import TimeSignal.Proofs.Sampler.Exact
import TimeSignal.Sampler.Batch

/-!
# Integrals by the value at the middle

The integral over an interval is the value at its middle times its length.  The middle of two times
does not depend on their order, so exchanging them samples at the same time and on the same draws,
and changes the sign of the length only.  Without rounding, the middle is the mean of the two times,
and an affine function has its mean value there; it does not matter how the sampler computes the
affine function.

## Main definitions

* `Sampler.integrateOperations`: the rounded operations of an integral

## Main results

* `Sampler.agree_integrateMidpoint_swap`: exchanging the ends changes the sign of the integral
* `Sampler.toRat_integrateMidpoint`: without rounding, the integral is the exact value at the mean
  time, times the exact length
* `Sampler.integrateMidpoint_antisymmetric_affine`: integrals change their sign with their
  direction, and are exact for affine functions
-/

namespace TimeSignal

open Binary32

theorem Binary32.toRat_half : half.toRat = 1 / 2 := by
  have hunits : half.units = (1 * 2 ^ 148 : Nat) := by decide
  rw [toRat_of_units hunits (e := 1) (by decide)]
  norm_num

namespace Sampler

variable {σ : Type} [DrawSource σ]

/-- The middle of two times, as it is rounded. -/
def middle (first last : Binary32) : Binary32 := half * (first + last)

theorem integrateMidpoint_eq (n : Sampler) (first last : Binary32) (source : σ) :
    n.integrateMidpoint first last source =
      ((n.sample (middle first last) source).1 * (last - first),
        (n.sample (middle first last) source).2) := rfl

/-! ## Exchanging the ends -/

theorem middle_comm (first last : Binary32) : middle last first = middle first last := by
  rw [middle, middle, Binary32.add_comm]

theorem integrateMidpoint_snd (n : Sampler) (first last : Binary32) (source : σ) :
    (n.integrateMidpoint first last source).2 = afterDraws n.draws source := by
  rw [integrateMidpoint_eq, sample_snd]

theorem readings_integrateMidpoint (n : Sampler) (first last : Binary32) (source : σ) :
    readings (n.integrateMidpoint first last) source = (drawMany n.draws source).1 :=
  readings_eq_drawMany (integrateMidpoint_snd n first last) source

/-- Exchanging the ends changes the sign of the integral, whatever rounding, overflow and missing
values make of it. -/
theorem agree_integrateMidpoint_swap (n : Sampler) (first last : Binary32) (source : σ) :
    Agree (n.integrateMidpoint last first source).1
      (-(n.integrateMidpoint first last source).1) := by
  rw [integrateMidpoint_eq, integrateMidpoint_eq, middle_comm]
  dsimp only
  generalize (n.sample (middle first last) source).1 = x
  have hneg : x * -(last - first) = -(x * (last - first)) := by
    rw [Binary32.mul_comm, neg_mul, Binary32.mul_comm]
  rw [← hneg]
  exact (Agree.refl x).mul (agree_sub_swap last first)

/-! ## Integrals without rounding -/

/-- The operations of an integral, in the order in which it carries them out; a difference is the
sum with a changed sign. -/
def integrateOperations (n : Sampler) (first last : Binary32) (source : σ) : List Operation :=
  [.add first last, .mul half (first + last)] ++ n.operations (middle first last) source ++
    [.add last (-first), .mul (n.sample (middle first last) source).1 (last - first)]

/-- Without rounding, an integral is the exact value at the mean time, times the exact length. -/
theorem toRat_integrateMidpoint {n : Sampler} {first last : Binary32} {source : σ}
    (h : ∀ o ∈ n.integrateOperations first last source, o.IsExact) :
    (n.integrateMidpoint first last source).1.isFinite = true ∧
      (n.integrateMidpoint first last source).1.toRat =
        n.value ((first.toRat + last.toRat) / 2) (drawnValues n.draws source) *
          (last.toRat - first.toRat) := by
  simp only [integrateOperations, List.forall_mem_append, List.forall_mem_cons] at h
  obtain ⟨⟨⟨⟨-, hadd⟩, ⟨-, hmul⟩, -⟩, hsample⟩, ⟨-, hsub⟩, ⟨hfinite, hproduct⟩, -⟩ := h
  change (first + last).toRat = first.toRat + last.toRat at hadd
  change (middle first last).toRat = half.toRat * (first + last).toRat at hmul
  change (last - first).toRat = last.toRat + (-first).toRat at hsub
  change (n.integrateMidpoint first last source).1.toRat =
    (n.sample (middle first last) source).1.toRat * (last - first).toRat at hproduct
  have hmiddle : (middle first last).toRat = (first.toRat + last.toRat) / 2 := by
    rw [hmul, hadd, toRat_half]
    ring
  refine ⟨hfinite, ?_⟩
  rw [hproduct, toRat_sample n hsample, hmiddle, hsub, toRat_neg]
  ring

/-- **Integrals change their sign with their direction, and are exact for affine functions.**  From
any state of any source, integrals of one sampler over an interval in its two directions read the
same draws and leave the source in the same state, and one is the other with its sign changed: both
are `nan`, or they are equal by value.  For a tree without noise that has the exact value `a + b ·
t` at every time, whatever sums and products it is made of, the integral of its sampler is finite
and denotes the integral of that function, if no operation of it rounds. -/
theorem integrateMidpoint_antisymmetric_affine :
    (∀ (n : Sampler) (first last : Binary32) (source : σ),
      readings (n.integrateMidpoint last first) source =
          readings (n.integrateMidpoint first last) source ∧
        (n.integrateMidpoint last first source).2 = (n.integrateMidpoint first last source).2 ∧
        Agree (n.integrateMidpoint last first source).1
          (-(n.integrateMidpoint first last source).1)) ∧
    ∀ (p : Poly) (a b : ℚ), p.draws = 0 → (∀ t, p.value t [] = a + b * t) →
      ∀ (first last : Binary32) (source : σ),
        (∀ o ∈ p.compile.integrateOperations first last source, o.IsExact) →
          (p.compile.integrateMidpoint first last source).1.isFinite = true ∧
            (p.compile.integrateMidpoint first last source).1.toRat =
              a * (last.toRat - first.toRat) +
                b * (last.toRat ^ 2 - first.toRat ^ 2) / 2 := by
  refine ⟨fun n first last source => ⟨?_, ?_, ?_⟩, ?_⟩
  · rw [readings_integrateMidpoint, readings_integrateMidpoint]
  · rw [integrateMidpoint_snd, integrateMidpoint_snd]
  · exact agree_integrateMidpoint_swap n first last source
  · intro p a b hp hvalue first last source h
    obtain ⟨hfinite, hexact⟩ := toRat_integrateMidpoint h
    -- Without noise there are no drawn values, so the tree has its affine value at the mean time.
    have hdrawn : drawnValues p.compile.draws source = [] := by
      rw [Poly.draws_compile, hp]
      rfl
    refine ⟨hfinite, ?_⟩
    rw [hexact, hdrawn, Poly.value_compile, hvalue]
    ring

/-- The tree `(2 + t) * (2 - t) + (3 * t + t²)`, whose squares cancel. -/
def cancellingSquares : Poly :=
  .add
    (.mul (.concrete ⟨[1 + 1, 1], by simp, by simp⟩) (.concrete ⟨[1 + 1, -1], by simp, by simp⟩))
    (.concrete ⟨[0, 1 + 1 + 1, 1], by simp, by simp⟩)

/-- The function is `4 + 3 * t`, so its integral from zero to two is fourteen. -/
theorem integrateMidpoint_antisymmetric_affine_cancelling :
    cancellingSquares.draws = 0 ∧ (∀ t, cancellingSquares.value t [] = 4 + 3 * t) ∧
      (∀ o ∈ cancellingSquares.compile.integrateOperations 0 (1 + 1) (Playback.start []),
        o.IsExact) ∧
      (cancellingSquares.compile.integrateMidpoint 0 (1 + 1) (Playback.start [])).1.toRat = 14 := by
  have hthree : (1 + 1 + 1 : Binary32).toRat = 3 := by
    have hunits : (1 + 1 + 1 : Binary32).units = (3 * 2 ^ 149 : Nat) := by decide +kernel
    rw [toRat_of_units hunits (e := 0) (by decide)]
    norm_num
  have htwo : (1 + 1 : Binary32).toRat = 2 := by
    have hunits : (1 + 1 : Binary32).units = (2 * 2 ^ 149 : Nat) := by decide +kernel
    rw [toRat_of_units hunits (e := 0) (by decide)]
    norm_num
  have hvalue : ∀ t, cancellingSquares.value t [] = 4 + 3 * t := by
    intro t
    simp only [cancellingSquares, Poly.value, Cubic.value, Cubic.coeff, Finset.sum_range_succ,
      Finset.sum_range_zero, List.length_cons, List.length_nil]
    simp [toRat_one, toRat_neg, htwo, hthree]
    ring
  have hexact : ∀ o ∈ cancellingSquares.compile.integrateOperations 0 (1 + 1) (Playback.start []),
      o.IsExact := by
    decide +kernel
  obtain ⟨-, hintegral⟩ := (integrateMidpoint_antisymmetric_affine (σ := Playback)).2
    cancellingSquares 4 3 rfl hvalue 0 (1 + 1) (Playback.start []) hexact
  refine ⟨rfl, hvalue, hexact, ?_⟩
  rw [hintegral, htwo, toRat_zero]
  norm_num

end Sampler

end TimeSignal
