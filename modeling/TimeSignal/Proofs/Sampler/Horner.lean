import TimeSignal.Proofs.Sampler.Compile

/-!
# Two evaluations of a polynomial

The value of a polynomial is computed by nested products that start from zero, while its sampler
starts from the leading coefficient.  The additional first step is a product of zero with the time
and a sum with the leading coefficient.  At a finite time the product is a zero, so the step changes
at most the sign of a zero, and no later step can make more of this.  At other times the product has
no value, and neither has anything that is computed from it.

## Main results

* `Cubic.agree_valueAt_horner`: the two evaluations agree at finite times
* `Cubic.valueAt_eq_nan`: at other times the one that starts from zero has no value
* `Cubic.isFinite_horner_iff`: there the other one has a finite value for constants only
* `Cubic.forall_agree_valueAt_horner_iff`: they agree for all polynomials at finite times only
* `Poly.valueAt?_sample_compile`: the value of a polynomial and what its sampler returns
-/

namespace TimeSignal

namespace Binary32

/-! ## Operations on numbers that are not finite -/

variable {t : Binary32}

theorem zero_mul_eq_nan (ht : t.isFinite = false) : 0 * t = nan := by
  cases t with
  | nan => rfl
  | infinite => rfl
  | finite => cases ht

end Binary32

open Binary32

namespace Cubic

variable {t : Binary32}

/-! ## Finite times -/

theorem agree_foldr_hornerOf (ht : t.isFinite = true) (coeffs : List Binary32) :
    Binary32.Agree (coeffs.foldr (fun a value => value * t + a) 0) (hornerOf t coeffs) := by
  induction coeffs with
  | nil => exact Binary32.Agree.refl 0
  | cons a rest ih =>
    cases rest with
    | nil =>
      -- The additional step: `0 * t + a` in place of `a`.
      exact ((agree_zero_mul ht).add (Binary32.Agree.refl a)).trans (Binary32.agree_zero_add a)
    | cons b rest => exact (ih.mul_right t).add_right a

theorem agree_valueAt_horner (p : Cubic) (ht : t.isFinite = true) :
    Binary32.Agree (p.valueAt t) (p.horner t) :=
  agree_foldr_hornerOf ht p.coeffs

/-! ## Times that are not finite -/

theorem foldr_eq_nan (ht : t.isFinite = false) {coeffs : List Binary32} (h : coeffs ≠ []) :
    coeffs.foldr (fun a value => value * t + a) 0 = nan := by
  induction coeffs with
  | nil => exact absurd rfl h
  | cons a rest ih =>
    rw [List.foldr_cons]
    cases rest with
    | nil =>
      rw [List.foldr_nil, zero_mul_eq_nan ht]
      rfl
    | cons b rest =>
      rw [ih (List.cons_ne_nil b rest)]
      rfl

theorem valueAt_eq_nan (p : Cubic) (ht : t.isFinite = false) : p.valueAt t = nan :=
  foldr_eq_nan ht (List.ne_nil_of_length_pos p.length_pos)

/-- Nested products with at least one factor of the time are as little finite as the time. -/
theorem isFinite_hornerOf_eq_false (ht : t.isFinite = false) (a b : Binary32)
    (rest : List Binary32) : (hornerOf t (a :: b :: rest)).isFinite = false :=
  isFinite_add_eq_false (isFinite_mul_eq_false _ ht) a

/-- At a time that is not finite, only constants evaluate to finite numbers. -/
theorem isFinite_horner_iff (p : Cubic) (ht : t.isFinite = false) :
    (p.horner t).isFinite = true ↔ ∃ a : Binary32, a.isFinite = true ∧ p = constant a := by
  constructor
  · intro h
    obtain ⟨coeffs, hpos, hle⟩ := p
    match coeffs, hpos, hle with
    | [a], _, _ => exact ⟨a, h, rfl⟩
    | a :: b :: rest, _, _ =>
      rw [horner, isFinite_hornerOf_eq_false ht] at h
      cases h
  · rintro ⟨a, ha, rfl⟩
    exact ha

/-! ## All times -/

/-- At a time that is not finite, the two evaluations differ for the constant one. -/
theorem forall_agree_valueAt_horner_iff :
    (∀ p : Cubic, Binary32.Agree (p.valueAt t) (p.horner t)) ↔ t.isFinite = true := by
  refine ⟨fun h => ?_, fun ht p => p.agree_valueAt_horner ht⟩
  by_contra ht
  have hone := h (constant 1)
  rw [valueAt_eq_nan _ (Bool.eq_false_of_not_eq_true ht)] at hone
  rcases hone with ⟨-, hnan⟩ | hnum
  · cases hnan
  · cases hnum

end Cubic

namespace Poly

variable {σ : Type} [DrawSource σ]

/-- **The value of a polynomial and what its sampler returns agree at finite times, and only
there.**  At a finite time there is a value, and it and what the sampler returns are both `nan` or
equal by value.  At any other time the value is `nan`, also of a constant, of which the sampler still
returns the number; so the two agree for all polynomials if and only if the time is finite.  The
sampler does not draw. -/
theorem valueAt?_sample_compile (p : Cubic) (t : Binary32) (source : σ) :
    (t.isFinite = true → ∃ x, (concrete p).valueAt? t = some x ∧
        Binary32.Agree x ((concrete p).compile.sample t source).1) ∧
      (t.isFinite = false → (concrete p).valueAt? t = some nan ∧
        (((concrete p).compile.sample t source).1.isFinite = true ↔
          ∃ a : Binary32, a.isFinite = true ∧ p = Cubic.constant a)) ∧
      ((∀ q : Cubic, Binary32.Agree (q.valueAt t) ((concrete q).compile.sample t source).1) ↔
        t.isFinite = true) ∧
      ((concrete p).compile.sample t source).2 = source ∧
      readings ((concrete p).compile.sample t) source = [] := by
  refine ⟨fun ht => ⟨_, rfl, p.agree_valueAt_horner ht⟩,
    fun ht => ⟨congrArg some (p.valueAt_eq_nan ht), p.isFinite_horner_iff ht⟩,
    Cubic.forall_agree_valueAt_horner_iff, rfl, rfl⟩

/-- The polynomial `1/2 + t`. -/
def risingLine : Cubic := ⟨[half, 1], by simp, by simp⟩

theorem valueAt?_sample_compile_risingLine :
    half.isFinite = true ∧
      (∃ x, (concrete risingLine).valueAt? half = some x ∧
        Binary32.Agree x ((concrete risingLine).compile.sample half (Playback.start [])).1) ∧
      (infinite false).isFinite = false ∧
      (concrete risingLine).valueAt? (infinite false) = some nan ∧
      ((concrete risingLine).compile.sample (infinite false) (Playback.start [])).1 =
        infinite false := by
  have hfinite : half.isFinite = true := rfl
  have hinfinite : (infinite false).isFinite = false := rfl
  obtain ⟨hagree, -⟩ := valueAt?_sample_compile risingLine half (Playback.start [])
  obtain ⟨-, hnan, -⟩ := valueAt?_sample_compile risingLine (infinite false) (Playback.start [])
  exact ⟨hfinite, hagree hfinite, hinfinite, (hnan hinfinite).1, by decide⟩

end Poly

end TimeSignal
