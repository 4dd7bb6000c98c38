import TimeSignal.Proofs.Poly.Agreement
import TimeSignal.Proofs.Poly.Signal
import TimeSignal.Proofs.Signal.Lower

/-!
# Which trees are folded completely

The formal degree of a tree can be read off its shape.  It bounds the degree of every subtree from
above, so a tree without noise whose formal degree is at most three has no product that cannot be
carried out.  The optimizer folds exactly these trees into one polynomial, and its degree is the
formal one, whatever the coefficients are: neither a dropped zero nor a vanishing leading
coefficient changes it.

## Main definitions

* `Poly.formalDegree`, `Signal.formalDegree`: the degree that the shape of a tree gives

## Main results

* `Poly.degree?_joinAdd`, `Poly.degree?_joinMul`: degrees in one step of the optimizer
* `Poly.degree?_optimize`: the degree of an optimized tree, if it is a single polynomial
* `Poly.exists_degree?_optimize_ofSignal`: the same for the tree of a signal
* `Poly.optimize_concrete`: the trees and signals that are folded completely, with their degrees
-/

namespace TimeSignal

/-- The degree that a signal has by its shape.  A blend is as high as a product with its weight. -/
def Signal.formalDegree : Signal → Nat
  | .time => 1
  | .noise | .const _ => 0
  | .add l r => max l.formalDegree r.formalDegree
  | .mul l r => l.formalDegree + r.formalDegree
  | .lerp x y s => s.formalDegree + max x.formalDegree y.formalDegree

namespace Poly

/-- The degree that a tree has by its shape: the larger one of the operands of a sum, and the sum of
those of a product. -/
def formalDegree : Poly → Nat
  | concrete c => c.degree
  | noise => 0
  | add l r => max l.formalDegree r.formalDegree
  | mul l r => l.formalDegree + r.formalDegree

/-! ## One step of the optimizer -/

theorem degree?_of_isZeroConstant {p : Poly} (h : p.isZeroConstant = true) :
    p.degree? = some 0 := by
  cases p with
  | concrete c => exact congrArg some (by rw [Cubic.degree, (Cubic.isZeroConstant_iff.mp h).1])
  | noise | add | mul => cases h

theorem degree?_add? (l r : Poly) :
    ((l.add? r).getD (add l r)).degree? = l.degree?.bind fun m => r.degree?.map (max m) := by
  cases l with
  | concrete p =>
    cases r with
    | concrete q => exact congrArg some (Cubic.degree_add p q)
    | noise | add | mul => rfl
  | noise | add | mul => rfl

/-- A sum has a degree if both operands have one.  A zero that is dropped has degree zero, so the
other operand has the degree of the sum. -/
theorem degree?_joinAdd (l r : Poly) :
    (joinAdd l r).degree? = l.degree?.bind fun m => r.degree?.map (max m) := by
  unfold joinAdd
  split_ifs with hl hr
  · rw [degree?_of_isZeroConstant hl]
    cases r.degree? <;> simp
  · rw [degree?_of_isZeroConstant hr]
    cases l.degree? <;> simp
  · exact degree?_add? l r

theorem degree?_joinMul (l r : Poly) :
    (joinMul l r).degree? =
      l.degree?.bind fun m => r.degree?.bind fun n => if m + n ≤ 3 then some (m + n) else none := by
  cases l with
  | concrete p =>
    cases r with
    | concrete q =>
      change (joinMul (concrete p) (concrete q)).degree? =
        if p.degree + q.degree ≤ 3 then some (p.degree + q.degree) else none
      rw [joinMul, mul?]
      split_ifs with h
      · obtain ⟨s, hs⟩ := Cubic.exists_mul? h
        rw [hs]
        exact congrArg some (Cubic.degree_mul? hs)
      · rw [Cubic.mul?_eq_none_iff.mpr (Nat.lt_of_not_le h)]
        rfl
    | noise | add | mul => rfl
  | noise | add | mul => rfl

/-! ## The optimizer -/

theorem degree?_optimize (p : Poly) :
    p.optimize.degree? =
      if p.draws = 0 ∧ p.formalDegree ≤ 3 then some p.formalDegree else none := by
  induction p with
  | concrete c => exact (if_pos ⟨rfl, c.degree_le⟩).symm
  | noise => rfl
  | add l r ihl ihr =>
    rw [optimize, degree?_joinAdd, ihl, ihr, draws, formalDegree]
    split_ifs <;> simp <;> omega
  | mul l r ihl ihr =>
    rw [optimize, degree?_joinMul, ihl, ihr, draws, formalDegree]
    split_ifs <;> simp <;> omega

theorem isConcrete_eq_isSome_degree? (p : Poly) : p.isConcrete = p.degree?.isSome :=
  Option.isSome_map.symm

theorem isConcrete_optimize_iff {p : Poly} :
    p.optimize.isConcrete = true ↔ p.draws = 0 ∧ p.formalDegree ≤ 3 := by
  rw [isConcrete_eq_isSome_degree?, degree?_optimize]
  by_cases h : p.draws = 0 ∧ p.formalDegree ≤ 3
  · rw [if_pos h]
    exact iff_of_true rfl h
  · rw [if_neg h]
    exact iff_of_false Bool.false_ne_true h

/-! ## Signals -/

theorem TreeOf.formalDegree_eq {e : Signal} {p : Poly} (h : TreeOf e p) :
    p.formalDegree = e.formalDegree := by
  induction h with
  | time | noise | const => rfl
  | add _ _ ihl ihr | mul _ _ ihl ihr => rw [formalDegree, Signal.formalDegree, ihl, ihr]

theorem formalDegree_lower (e : Signal) : e.lower.formalDegree = e.formalDegree := by
  induction e with
  | time | noise | const => rfl
  | add l r ihl ihr | mul l r ihl ihr =>
    rw [Signal.lower, Signal.formalDegree, ihl, ihr, Signal.formalDegree]
  | lerp x y s ihx ihy ihs =>
    simp only [Signal.lower, Signal.lowerBlend, Signal.formalDegree, ihx, ihy, ihs]
    omega

/-- A signal without noise, of a formal degree of at most three, is folded into a polynomial of this
degree. -/
theorem exists_degree?_optimize_ofSignal {e : Signal} (hn : e.hasNoise = false)
    (hd : e.formalDegree ≤ 3) :
    ∃ tree, ofSignal e = .ok tree ∧ tree.optimize.degree? = some e.formalDegree := by
  obtain ⟨tree, htree⟩ := exists_treeOf e.hasLerp_lower
  have hdegree : tree.formalDegree = e.formalDegree :=
    htree.formalDegree_eq.trans (formalDegree_lower e)
  have hdraws : tree.draws = 0 := by
    rw [htree.draws_eq, Signal.draws_eq_zero_iff, Signal.hasNoise_lower, hn]
  refine ⟨tree, htree.ofLowered_eq, ?_⟩
  rw [degree?_optimize, hdegree, if_pos ⟨hdraws, hd⟩]

/-- **The optimizer folds everything that can be folded.**  An optimized tree is a single polynomial
if and only if the tree has no noise and a formal degree of at most three, and its degree is then
the formal one.  So is that of the tree of a signal without noise. -/
theorem optimize_concrete (p : Poly) :
    (p.optimize.isConcrete = true ↔ p.draws = 0 ∧ p.formalDegree ≤ 3) ∧
      (p.optimize.isConcrete = true → p.optimize.degree? = some p.formalDegree) ∧
      ∀ e : Signal, e.hasNoise = false → e.formalDegree ≤ 3 →
        ∃ tree, ofSignal e = .ok tree ∧ tree.optimize.degree? = some e.formalDegree := by
  refine ⟨isConcrete_optimize_iff, fun h => ?_, fun e => exists_degree?_optimize_ofSignal⟩
  rw [degree?_optimize, if_pos (isConcrete_optimize_iff.mp h)]

/-- The tree `0 * (t * t) + 0`: a square with a leading coefficient of zero, and a zero to drop. -/
def vanishingSquare : Poly :=
  let time : Poly := concrete Cubic.identity
  let zero : Poly := concrete (Cubic.constant 0)
  add (mul zero (mul time time)) zero

/-- The signal `lerp(t * t, 1, t)`. -/
def cubicBlend : Signal := .lerp (.mul .time .time) (.const 1) .time

theorem optimize_concrete_vanishingSquare :
    vanishingSquare.optimize.isConcrete = true ∧ vanishingSquare.optimize.degree? = some 2 ∧
      cubicBlend.hasNoise = false ∧ cubicBlend.formalDegree ≤ 3 ∧
      ∃ tree, ofSignal cubicBlend = .ok tree ∧ tree.optimize.degree? = some 3 := by
  obtain ⟨hconcrete, hdegree, hsignal⟩ := optimize_concrete vanishingSquare
  have h := hconcrete.mpr ⟨rfl, by decide⟩
  exact ⟨h, hdegree h, rfl, by decide, hsignal cubicBlend rfl (by decide)⟩

end Poly

end TimeSignal
