import TimeSignal.Poly.Optimize
import TimeSignal.Proofs.Binary32.Agreement

/-!
# The normal form of the optimizer

The optimizer stops at trees in which no sum has a zero operand, no sum joins two polynomials and no
product can be carried out.  These trees are the ones that it returns, and the ones that it leaves
as they are.

## Main definitions

* `Poly.IsZero`: the tree is a constant of value zero
* `Poly.IsSettled`, `Poly.IsFolded`: the root cannot be folded, and no node can

## Main results

* `Poly.visits_add`, `Poly.visits_mul`: a fold visits the nodes of the operands, then the root
* `Poly.isFolded_add`, `Poly.isFolded_mul`: the normal form, from the operands up
* `Poly.IsFolded.joinAdd`, `Poly.IsFolded.joinMul`: a step of the optimizer keeps the normal form
* `Poly.IsFolded.optimize_eq`: a tree in normal form stays as it is
* `Poly.optimize_normalForm`: the optimizer returns normal forms, and they are its fixed points
-/

namespace TimeSignal

namespace Poly

variable {l r p : Poly}

/-! ## The nodes of a tree -/

theorem run_recordSteps_add (l r : Poly) (seen : List Poly) :
    (foldM recordSteps (add l r)).run seen =
      ((), ((foldM recordSteps r).run ((foldM recordSteps l).run seen).2).2 ++ [add l r]) := rfl

theorem run_recordSteps_mul (l r : Poly) (seen : List Poly) :
    (foldM recordSteps (mul l r)).run seen =
      ((), ((foldM recordSteps r).run ((foldM recordSteps l).run seen).2).2 ++ [mul l r]) := rfl

/-- What a fold visits comes after what has been seen before. -/
theorem run_recordSteps (p : Poly) (seen : List Poly) :
    (foldM recordSteps p).run seen = ((), seen ++ p.visits) := by
  -- The right operand is visited when the left one has been seen, so `seen` varies.
  induction p generalizing seen with
  | concrete | noise => rfl
  | add l r ihl ihr =>
    rw [visits, run_recordSteps_add, run_recordSteps_add, ihl seen, ihl [], ihr, ihr]
    simp
  | mul l r ihl ihr =>
    rw [visits, run_recordSteps_mul, run_recordSteps_mul, ihl seen, ihl [], ihr, ihr]
    simp

theorem visits_add (l r : Poly) : (add l r).visits = l.visits ++ r.visits ++ [add l r] := by
  rw [visits, run_recordSteps_add, run_recordSteps, run_recordSteps, List.nil_append]

theorem visits_mul (l r : Poly) : (mul l r).visits = l.visits ++ r.visits ++ [mul l r] := by
  rw [visits, run_recordSteps_mul, run_recordSteps, run_recordSteps, List.nil_append]

theorem mem_visits_add {q : Poly} :
    q ∈ (add l r).visits ↔ q ∈ l.visits ∨ q ∈ r.visits ∨ q = add l r := by
  rw [visits_add, List.mem_append, List.mem_append, List.mem_singleton, or_assoc]

theorem mem_visits_mul {q : Poly} :
    q ∈ (mul l r).visits ↔ q ∈ l.visits ∨ q ∈ r.visits ∨ q = mul l r := by
  rw [visits_mul, List.mem_append, List.mem_append, List.mem_singleton, or_assoc]

/-! ## Trees with nothing left to fold -/

/-- The tree is a constant that is equal to zero by value. -/
def IsZero (p : Poly) : Prop :=
  ∃ a : Binary32, a.numEq 0 = true ∧ p = concrete (Cubic.constant a)

/-- The root cannot be folded: a sum has no operand of value zero and does not join two polynomials,
and a product is not defined for its factors. -/
def IsSettled : Poly → Prop
  | concrete _ | noise => True
  | add l r => (¬ l.IsZero ∧ ¬ r.IsZero) ∧ ¬ (l.isConcrete = true ∧ r.isConcrete = true)
  | mul l r => l.mul? r = none

/-- No node of the tree can be folded. -/
def IsFolded (p : Poly) : Prop := ∀ q ∈ p.visits, q.IsSettled

theorem isFolded_concrete (c : Cubic) : (concrete c).IsFolded := by
  intro q hq
  rw [List.mem_singleton.mp hq]
  trivial

theorem isFolded_noise : noise.IsFolded := by
  intro q hq
  rw [List.mem_singleton.mp hq]
  trivial

theorem isFolded_add :
    (add l r).IsFolded ↔ l.IsFolded ∧ r.IsFolded ∧ (add l r).IsSettled := by
  simp only [IsFolded, mem_visits_add, or_imp, forall_and, forall_eq]

theorem isFolded_mul :
    (mul l r).IsFolded ↔ l.IsFolded ∧ r.IsFolded ∧ (mul l r).IsSettled := by
  simp only [IsFolded, mem_visits_mul, or_imp, forall_and, forall_eq]

/-! ## One step of the optimizer -/

theorem isZero_iff : p.IsZero ↔ p.isZeroConstant = true := by
  constructor
  · rintro ⟨a, ha, rfl⟩
    rcases (Binary32.numEq_iff.mp ha).2 with rfl | hz
    · rfl
    · exact hz.1
  · intro h
    cases p with
    | noise | add | mul => cases h
    | concrete c =>
      obtain ⟨coeffs, hpos, hle⟩ := c
      simp only [isZeroConstant, Cubic.isZeroConstant] at h
      split at h
      · next a =>
        refine ⟨a, Binary32.numEq_iff.mpr ⟨?_, .inr ⟨h, rfl⟩⟩, rfl⟩
        rintro rfl
        cases h
      · cases h

theorem add?_eq_none_iff :
    l.add? r = none ↔ ¬ (l.isConcrete = true ∧ r.isConcrete = true) := by
  rw [← Option.not_isSome_iff_eq_none, isSome_add?, Bool.and_eq_true]

theorem joinAdd_of_isSettled (h : (add l r).IsSettled) : joinAdd l r = add l r := by
  obtain ⟨⟨hl, hr⟩, hconcrete⟩ := h
  rw [isZero_iff] at hl hr
  rw [joinAdd, if_neg hl, if_neg hr, add?_eq_none_iff.mpr hconcrete]
  rfl

theorem joinMul_of_isSettled (h : (mul l r).IsSettled) : joinMul l r = mul l r := by
  rw [joinMul, show l.mul? r = none from h]
  rfl

namespace IsFolded

/-- A sum that is carried out is a polynomial, and one that is dropped leaves the other operand. -/
theorem joinAdd (hl : l.IsFolded) (hr : r.IsFolded) : (l.joinAdd r).IsFolded := by
  unfold Poly.joinAdd
  split_ifs with hzl hzr
  · exact hr
  · exact hl
  · cases hsum : l.add? r with
    | some s =>
      unfold add? at hsum
      split at hsum
      · cases hsum
        exact isFolded_concrete _
      · cases hsum
    | none =>
      rw [← isZero_iff] at hzl hzr
      exact isFolded_add.mpr ⟨hl, hr, ⟨hzl, hzr⟩, add?_eq_none_iff.mp hsum⟩

theorem joinMul (hl : l.IsFolded) (hr : r.IsFolded) : (l.joinMul r).IsFolded := by
  unfold Poly.joinMul
  cases hproduct : l.mul? r with
  | some s =>
    unfold mul? at hproduct
    split at hproduct
    · obtain ⟨c, -, rfl⟩ := Option.map_eq_some_iff.mp hproduct
      exact isFolded_concrete c
    · cases hproduct
  | none => exact isFolded_mul.mpr ⟨hl, hr, hproduct⟩

theorem optimize_eq (h : p.IsFolded) : p.optimize = p := by
  induction p with
  | concrete | noise => rfl
  | add l r ihl ihr =>
    obtain ⟨hl, hr, hroot⟩ := isFolded_add.mp h
    rw [optimize, ihl hl, ihr hr, joinAdd_of_isSettled hroot]
  | mul l r ihl ihr =>
    obtain ⟨hl, hr, hroot⟩ := isFolded_mul.mp h
    rw [optimize, ihl hl, ihr hr, joinMul_of_isSettled hroot]

end IsFolded

/-! ## The optimizer -/

theorem isFolded_optimize (p : Poly) : p.optimize.IsFolded := by
  induction p with
  | concrete c => exact isFolded_concrete c
  | noise => exact isFolded_noise
  | add l r ihl ihr => exact ihl.joinAdd ihr
  | mul l r ihl ihr => exact ihl.joinMul ihr

theorem optimize_optimize (p : Poly) : p.optimize.optimize = p.optimize :=
  (isFolded_optimize p).optimize_eq

/-- **The optimizer returns normal forms, and leaves exactly these as they are.**  Whatever the
coefficients are, no node of an optimized tree can be folded; a tree is in this form if and only if
it is optimized to itself; and so a second run changes nothing. -/
theorem optimize_normalForm (p : Poly) :
    p.optimize.IsFolded ∧ (p.IsFolded ↔ p.optimize = p) ∧ p.optimize.optimize = p.optimize := by
  refine ⟨isFolded_optimize p, ⟨fun h => h.optimize_eq, fun h => ?_⟩, optimize_optimize p⟩
  rw [← h]
  exact isFolded_optimize p

end Poly

end TimeSignal
