import TimeSignal.Proofs.Poly.Expansion
import TimeSignal.Proofs.Poly.NormalForm

/-!
# Simplifying twice

A simplified signal is an optimized tree written out in monomials.  Its own tree is optimized to a
tree that agrees with the one written out, since that one is in normal form.  So a second run finds
the same nodes, and the same constants but for the signs of zeros.

## Main results

* `Poly.Agree.numEq_toSignal`: trees that agree are written out as signals that are equal by value
* `Signal.simplify_simplify`: a second simplification gives an equal signal
-/

namespace TimeSignal

open Binary32 (nan)

/-! ## Signals of trees that agree -/

theorem Signal.numEq_power (n : Nat) : (Poly.power n).numEq (Poly.power n) = true := by
  induction n with
  | zero => rfl
  | succ n ih => rw [Poly.power, Signal.numEq, ih]; rfl

/-- Monomials of equal coefficients are equal. -/
theorem Signal.numEq_monomials {as bs : List Binary32}
    (h : List.Forall₂ (fun a b => a.numEq b = true) as bs) :
    (Poly.monomials as).numEq (Poly.monomials bs) = true := by
  induction h with
  | nil => rfl
  | @cons a b as bs hab hrest ih =>
    cases hrest with
    | nil => exact hab
    | @cons a' b' as bs _ hrest =>
      simp only [Poly.monomials, Signal.numEq, Bool.and_eq_true]
      refine ⟨⟨hab, ?_⟩, ih⟩
      -- The rest is equally long, so the powers are the same.
      rw [hrest.length_eq]
      exact Signal.numEq_power _

theorem Cubic.Agree.forall₂_numEq {p q : Cubic} (h : p.Agree q)
    (hq : ∀ a ∈ q.coeffs, a ≠ nan) :
    List.Forall₂ (fun a b => a.numEq b = true) p.coeffs q.coeffs := by
  have hnum := h.numEq hq
  rw [Cubic.numEq, Bool.and_eq_true, List.all_eq_true, beq_iff_eq] at hnum
  exact List.forall₂_iff_zip.mpr ⟨hnum.1, fun hab => hnum.2 _ hab⟩

namespace Poly

/-- Without `nan`, trees that agree are written out as signals that are equal by value. -/
theorem Agree.numEq_toSignal {p q : Poly} (h : Agree p q) (hq : q.HasFiniteCoeffs) :
    p.toSignal.numEq q.toSignal = true := by
  induction h with
  | concrete h =>
    have hall := h.forall₂_numEq fun a ha => Binary32.ne_nan_of_isFinite (hq a ha)
    exact Signal.numEq_monomials (List.rel_reverse hall)
  | noise => rfl
  | add _ _ ihl ihr | mul _ _ ihl ihr =>
    rw [toSignal, toSignal, Signal.numEq, ihl hq.1, ihr hq.2]
    rfl

end Poly

namespace Signal

/-! ## Simplification -/

theorem simplify_eq_ok {e : Signal} {tree : Poly} (h : Poly.ofSignal e = .ok tree) :
    e.simplify = .ok tree.optimize.toSignal := by
  rw [simplify, h]
  rfl

/-- **Simplification is idempotent.**  If the tree of a signal is optimized to one with finite
coefficients, then the simplified signal is simplified to a signal that is equal to it by value:
node by node the same, with constants that may differ in the sign of a zero. -/
theorem simplify_simplify (e : Signal)
    (h : ∀ tree, Poly.ofSignal e = .ok tree → tree.optimize.HasFiniteCoeffs) :
    ∃ w w', e.simplify = .ok w ∧ w.simplify = .ok w' ∧ w'.numEq w = true := by
  obtain ⟨tree, htree⟩ := Poly.exists_ofSignal e
  have hfinite := h tree htree
  -- The expanded tree is optimized as the tree that was written out, and that one has nothing left
  -- to fold.
  obtain ⟨again, hagain, hagree⟩ := Poly.exists_treeOf_toSignal hfinite
  rw [Poly.optimize_optimize] at hagree
  have hok : Poly.ofSignal tree.optimize.toSignal = .ok again := by
    rw [Poly.ofSignal, lower_of_hasLerp_eq_false (Poly.hasLerp_toSignal _)]
    exact hagain.ofLowered_eq
  exact ⟨_, _, simplify_eq_ok htree, simplify_eq_ok hok, hagree.numEq_toSignal hfinite⟩

/-- The signal `noise * (-0 * (t * t))`. -/
def negativeZeroSquare : Signal :=
  mul noise (mul (const (.signedZero true)) (mul time time))

theorem simplify_simplify_negativeZeroSquare :
    (∀ tree, Poly.ofSignal negativeZeroSquare = .ok tree → tree.optimize.HasFiniteCoeffs) ∧
      ∃ w w', negativeZeroSquare.simplify = .ok w ∧ w.simplify = .ok w' ∧ w'.numEq w = true ∧
        w' ≠ w := by
  have hf : ∀ tree, Poly.ofSignal negativeZeroSquare = .ok tree →
      tree.optimize.HasFiniteCoeffs := by
    intro tree ht
    cases ht
    decide +kernel
  obtain ⟨w, w', hw, hw', hnum⟩ := simplify_simplify negativeZeroSquare hf
  refine ⟨hf, w, w', hw, hw', hnum, ?_⟩
  cases hw
  cases hw'
  -- The leading negative zero has become a positive one.
  decide +kernel

end Signal

end TimeSignal
