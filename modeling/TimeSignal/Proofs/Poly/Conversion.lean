import TimeSignal.Proofs.Poly.Simplify
import TimeSignal.Proofs.Signal.Visits
import TimeSignal.Signal.Substitute

/-!
# No signal is refused by the conversion

The conversion to a polynomial tree refuses a signal with a blend, wherever the blend stands, and no
other signal.  Blends are lowered first, operands before the node that joins them, so a lowered
blend is put together from operands that have no blends any more.  One pass is therefore enough, a
second one finds nothing to do, and the refusal is never seen.

## Main results

* `Signal.lower_eq_self_iff`: lowering changes the signals that have a blend, and no others
* `Signal.lower_lower`: lowering twice is lowering once
* `Signal.lower_substitute`: lowering commutes with substitution
* `Poly.ofLowered_eq_error_iff`: the conversion alone refuses the signals that have a blend
* `Signal.lower_complete`: lowering leaves no blend, and no signal is refused after it
-/

namespace TimeSignal

namespace Signal

/-! ## Lowering -/

theorem lower_eq_self_iff {e : Signal} : e.lower = e ↔ e.hasLerp = false := by
  refine ⟨fun h => ?_, lower_of_hasLerp_eq_false⟩
  rw [← h]
  exact hasLerp_lower e

theorem lower_lower (e : Signal) : e.lower.lower = e.lower :=
  lower_of_hasLerp_eq_false (hasLerp_lower e)

theorem lerp_notMem_visits_lower (e x y s : Signal) : lerp x y s ∉ e.lower.visits := by
  intro h
  have hlerp := hasLerp_eq_true_iff.mpr ⟨x, y, s, h⟩
  rw [hasLerp_lower] at hlerp
  cases hlerp

/-- Both copies of the weight are substituted in the same way. -/
theorem substitute_lowerBlend (x y s r : Signal) :
    (lowerBlend x y s).substitute r =
      lowerBlend (x.substitute r) (y.substitute r) (s.substitute r) := rfl

theorem lower_substitute (e r : Signal) :
    (e.substitute r).lower = e.lower.substitute r.lower := by
  induction e with
  | time | noise | const => rfl
  | add a b iha ihb | mul a b iha ihb =>
    rw [substitute, lower, iha, ihb, lower, substitute]
  | lerp x y s ihx ihy ihs =>
    rw [substitute, lower, ihx, ihy, ihs, lower, substitute_lowerBlend]

end Signal

namespace Poly

/-! ## Converting -/

/-- An operand with a blend is enough for a refusal; all refusals are the same. -/
theorem ofLowered_of_hasLerp {e : Signal} (h : e.hasLerp = true) :
    ofLowered e = .error .blendNotLowered := by
  induction e with
  | time | noise | const => cases h
  | add l r ihl ihr | mul l r ihl ihr =>
    rw [Signal.hasLerp, Bool.or_eq_true] at h
    rw [ofLowered]
    by_cases hl : l.hasLerp = true
    · rw [ihl hl]
      rfl
    · obtain ⟨p, hp⟩ :=
        exists_ofLowered_of_hasLerp_eq_false l (Bool.eq_false_of_not_eq_true hl)
      rw [hp, ihr (h.resolve_left hl)]
      rfl
  | lerp => rfl

theorem ofLowered_eq_error_iff {e : Signal} :
    ofLowered e = .error .blendNotLowered ↔ e.hasLerp = true := by
  refine ⟨fun h => ?_, ofLowered_of_hasLerp⟩
  by_contra hn
  obtain ⟨p, hp⟩ := exists_ofLowered_of_hasLerp_eq_false e (Bool.eq_false_of_not_eq_true hn)
  rw [hp] at h
  cases h

end Poly

namespace Signal

/-- **Lowering is complete, and the conversion never refuses a lowered signal.**  No node of a
lowered signal is a blend.  Lowering leaves a signal as it is if and only if it has no blend; so
lowering again changes nothing; and it makes no difference whether a replacement for the time is
lowered before or after it is spliced in.  The conversion refuses exactly the signals that have a
blend, so after lowering every signal has a polynomial tree, and every signal can be simplified. -/
theorem lower_complete (e : Signal) :
    (e.lower.hasLerp = false ∧ ∀ x y s, lerp x y s ∉ e.lower.visits) ∧
      (e.lower = e ↔ e.hasLerp = false) ∧
      e.lower.lower = e.lower ∧
      (∀ r, (e.substitute r).lower = e.lower.substitute r.lower) ∧
      (Poly.ofLowered e = .error .blendNotLowered ↔ e.hasLerp = true) ∧
      ∃ tree, Poly.ofSignal e = .ok tree ∧ e.simplify = .ok tree.optimize.toSignal := by
  obtain ⟨tree, htree⟩ := Poly.exists_ofSignal e
  exact ⟨⟨hasLerp_lower e, lerp_notMem_visits_lower e⟩, lower_eq_self_iff, lower_lower e,
    lower_substitute e, Poly.ofLowered_eq_error_iff, tree, htree, simplify_eq_ok htree⟩

end Signal

end TimeSignal
