import TimeSignal.Proofs.Poly.Signal
import TimeSignal.Proofs.Sampler.Compile
import TimeSignal.Proofs.Signal.Lower

/-!
# Samplers of polynomial trees

A signal becomes a sampler in two ways: compiled node by node, or converted to a polynomial tree
that is compiled in its turn.  The tree repeats the signal with its blends written out, so the
second way gives the sampler of that signal.  Where there are no blends, both ways give one sampler.

## Main results

* `Poly.TreeOf.compile_eq`: a tree that repeats a signal has the sampler of the signal
* `Poly.sample_compile_ofSignal`: the sampler of the tree evaluates as the signal
* `Poly.compile_ofSignal`: both ways to a sampler agree
-/

namespace TimeSignal

namespace Poly

theorem TreeOf.compile_eq {e : Signal} {p : Poly} (h : TreeOf e p) : p.compile = e.compile := by
  induction h with
  | time | noise | const => rfl
  | add _ _ ihl ihr | mul _ _ ihl ihr => rw [compile, Signal.compile, ihl, ihr]

theorem compile_of_ofSignal_eq {e : Signal} {p : Poly} (h : ofSignal e = .ok p) :
    p.compile = e.lower.compile := by
  obtain ⟨q, hq⟩ := exists_treeOf e.hasLerp_lower
  obtain rfl : q = p := Except.ok.inj (hq.ofLowered_eq.symm.trans h)
  exact hq.compile_eq

/-- If no weight of a blend has noise, the sampler of the tree evaluates as the signal itself,
except at the negative zero, which a compiled time changes to zero. -/
theorem sample_compile_ofSignal {σ : Type} [DrawSource σ] {e : Signal} {p : Poly}
    (h : ofSignal e = .ok p) (hw : e.HasNoiseFreeWeights) {t : Binary32}
    (ht : t ≠ Binary32.signedZero true) (source : σ) :
    p.compile.sample t source = e.eval t source := by
  rw [compile_of_ofSignal_eq h, Signal.sample_compile_of_ne e.lower ht,
    Signal.eval_lower_of_hasNoiseFreeWeights hw]

/-- **The two ways to a sampler commute.**  Every signal has a polynomial tree, whose sampler is
that of the signal with its blends written out.  If there are no blends, it is the sampler of the
signal itself, with the same values and the same draws at every time and from every source. -/
theorem compile_ofSignal (e : Signal) :
    ∃ p, ofSignal e = .ok p ∧ p.compile = e.lower.compile ∧
      (e.hasLerp = false → p.compile = e.compile ∧
        ∀ {σ : Type} [DrawSource σ] (t : Binary32) (source : σ),
          p.compile.sample t source = e.compile.sample t source ∧
            readings (p.compile.sample t) source = readings (e.compile.sample t) source) := by
  obtain ⟨p, hp⟩ := exists_ofSignal e
  have hlower := compile_of_ofSignal_eq hp
  refine ⟨p, hp, hlower, fun h => ?_⟩
  have hcompile : p.compile = e.compile := by
    rw [hlower, Signal.lower_of_hasLerp_eq_false h]
  refine ⟨hcompile, fun t source => ?_⟩
  rw [hcompile]
  exact ⟨rfl, rfl⟩

/-- Noise that grows with the time. -/
def risingNoise : Signal := .mul (.add .time (.const Binary32.half)) .noise

theorem compile_ofSignal_risingNoise :
    risingNoise.hasLerp = false ∧ ∃ p, ofSignal risingNoise = .ok p ∧
      p.compile = risingNoise.compile ∧
      p.compile.sample 1 (Playback.start [Binary32.half]) =
        risingNoise.compile.sample 1 (Playback.start [Binary32.half]) := by
  obtain ⟨p, hp, -, h⟩ := compile_ofSignal risingNoise
  obtain ⟨hcompile, hsample⟩ := h rfl
  exact ⟨rfl, p, hp, hcompile, (hsample 1 (Playback.start [Binary32.half])).1⟩

end Poly

end TimeSignal
