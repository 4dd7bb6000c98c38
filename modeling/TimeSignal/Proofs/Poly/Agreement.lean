import TimeSignal.Proofs.Binary32.Agreement
import TimeSignal.Proofs.Poly.Optimize
import Mathlib.Data.List.Forall2

/-!
# Polynomial trees that agree up to the signs of zeros

Two trees agree when they have the same shape and their coefficients agree.  The optimizer cannot
tell such trees apart.  It folds, drops and keeps the same nodes in both, since its decisions see
degrees and zeros of either sign alike, and the coefficients that it computes agree again, also
where they overflow.

## Main definitions

* `Cubic.Agree`: two polynomials of the same degree whose coefficients agree
* `Poly.Agree`: two trees of the same shape whose polynomials agree

## Main results

* `Cubic.Agree.add`, `Cubic.Agree.mul?`: sums and products of agreeing polynomials agree
* `Poly.Agree.joinAdd`, `Poly.Agree.joinMul`: a step of the optimizer keeps agreement
* `Poly.exists_joinAdd_concrete`: a zero that is dropped changes no more than signs of zeros
* `Poly.Agree.optimize`: optimized trees agree
-/

namespace TimeSignal

namespace Cubic

/-- The same degree, and in each order coefficients that are both `nan` or equal by value. -/
structure Agree (p q : Cubic) : Prop where
  /-- There are equally many coefficients. -/
  length_eq : p.coeffs.length = q.coeffs.length
  /-- The coefficients of each order agree. -/
  coeff (i : Nat) : Binary32.Agree (p.coeff i) (q.coeff i)

theorem isZeroConstant_iff {p : Cubic} :
    p.isZeroConstant = true ↔ p.coeffs.length = 1 ∧ (p.coeff 0).isZero = true := by
  unfold isZeroConstant coeff
  have hpos := p.length_pos
  rcases hp : p.coeffs with _ | ⟨a, _ | ⟨b, as⟩⟩
  · rw [hp] at hpos
    cases hpos
  · simp
  · simp

theorem getElem?_coeffs {p : Cubic} {i : Nat} (h : i < p.coeffs.length) :
    p.coeffs[i]? = some (p.coeff i) := by
  rw [coeff_eq_getElem h, List.getElem?_eq_getElem h]

/-- Sums from the left of lists that agree number by number. -/
theorem agree_sumFromLeft {xs ys : List Binary32} (h : List.Forall₂ Binary32.Agree xs ys) :
    Binary32.Agree (sumFromLeft xs) (sumFromLeft ys) := by
  cases h with
  | nil => exact Binary32.Agree.refl _
  | cons hx hxs => exact List.rel_foldl (fun _ _ h _ _ h' => h.add h') hx hxs

theorem mul?_eq_none_iff {p q : Cubic} : p.mul? q = none ↔ 3 < p.degree + q.degree := by
  unfold mul?
  split
  · next h => simp; omega
  · next h => simpa using h

theorem exists_mul? {p q : Cubic} (h : p.degree + q.degree ≤ 3) : ∃ r, p.mul? q = some r := by
  apply Option.ne_none_iff_exists'.mp
  rw [ne_eq, mul?_eq_none_iff]
  omega

namespace Agree

variable {p p' q q' r r' : Cubic}

theorem refl (p : Cubic) : p.Agree p := ⟨rfl, fun _ => Binary32.Agree.refl _⟩

theorem of_coeffs_eq (h : p.coeffs = q.coeffs) : p.Agree q := by
  constructor
  · rw [h]
  · intro i
    rw [Cubic.coeff, Cubic.coeff, h]
    exact Binary32.Agree.refl _

theorem symm (h : p.Agree q) : q.Agree p := ⟨h.length_eq.symm, fun i => (h.coeff i).symm⟩

theorem trans (h : p.Agree q) (h' : q.Agree r) : p.Agree r :=
  ⟨h.length_eq.trans h'.length_eq, fun i => (h.coeff i).trans (h'.coeff i)⟩

theorem degree_eq (h : p.Agree q) : p.degree = q.degree := by
  rw [degree, degree, h.length_eq]

theorem isZeroConstant_eq (h : p.Agree q) : p.isZeroConstant = q.isZeroConstant := by
  rw [Bool.eq_iff_iff, isZeroConstant_iff, isZeroConstant_iff, h.length_eq, (h.coeff 0).isZero_eq]

theorem add (hp : p.Agree p') (hq : q.Agree q') : (p.add q).Agree (p'.add q') := by
  constructor
  · rw [length_add, length_add, hp.length_eq, hq.length_eq]
  · intro i
    rw [coeff_of_add, coeff_of_add]
    exact (hp.coeff i).add (hq.coeff i)

theorem getElem? (h : p.Agree q) (i : Nat) :
    Option.Rel Binary32.Agree p.coeffs[i]? q.coeffs[i]? := by
  by_cases hi : i < p.coeffs.length
  · have hq : i < q.coeffs.length := h.length_eq ▸ hi
    rw [getElem?_coeffs hi, getElem?_coeffs hq]
    exact .some (h.coeff i)
  · have hp : p.coeffs.length ≤ i := Nat.not_lt.mp hi
    rw [List.getElem?_eq_none hp, List.getElem?_eq_none (h.length_eq ▸ hp)]
    exact .none

/-- The same pairs of coefficients are multiplied, and their products agree. -/
theorem crossTerms (hp : p.Agree p') (hq : q.Agree q') (k : Nat) :
    List.Forall₂ Binary32.Agree (p.crossTerms q k) (p'.crossTerms q' k) := by
  refine List.rel_filterMap (R := Eq) ?_ (List.forall₂_same.mpr fun _ _ => rfl)
  rintro i _ rfl
  dsimp only
  have hx := hp.getElem? i
  have hy := hq.getElem? (k - i)
  generalize p.coeffs[i]? = x, p'.coeffs[i]? = x' at hx ⊢
  generalize q.coeffs[k - i]? = y, q'.coeffs[k - i]? = y' at hy ⊢
  cases hx with
  | none => exact .none
  | some hx =>
    cases hy with
    | none => exact .none
    | some hy => exact .some (hx.mul hy)

theorem of_mul? (hp : p.Agree p') (hq : q.Agree q') (hr : p.mul? q = some r)
    (hr' : p'.mul? q' = some r') : r.Agree r' := by
  constructor
  · rw [length_of_mul? hr, length_of_mul? hr', hp.degree_eq, hq.degree_eq]
  · intro k
    rw [coeff_of_mul? hr, coeff_of_mul? hr']
    exact agree_sumFromLeft (hp.crossTerms hq k)

theorem mul? (hp : p.Agree p') (hq : q.Agree q') :
    Option.Rel Agree (p.mul? q) (p'.mul? q') := by
  have hnone : p.mul? q = none ↔ p'.mul? q' = none := by
    rw [mul?_eq_none_iff, mul?_eq_none_iff, hp.degree_eq, hq.degree_eq]
  cases hr : p.mul? q with
  | none =>
    rw [hnone.mp hr]
    exact .none
  | some r =>
    cases hr' : p'.mul? q' with
    | none => rw [hnone.mpr hr'] at hr; cases hr
    | some r' => exact .some (hp.of_mul? hq hr hr')

theorem exists_mul? (hp : p.Agree p') (hq : q.Agree q') (hr' : p'.mul? q' = some r') :
    ∃ r, p.mul? q = some r ∧ r.Agree r' := by
  have h := hp.mul? hq
  rw [hr'] at h
  generalize hr : p.mul? q = product at h
  cases h with
  | some h => exact ⟨_, rfl, h⟩

/-- Without `nan`, agreeing polynomials are equal by value. -/
theorem numEq (h : p.Agree q) (hq : ∀ a ∈ q.coeffs, a ≠ Binary32.nan) : p.numEq q = true := by
  unfold Cubic.numEq
  rw [Bool.and_eq_true, List.all_eq_true, beq_iff_eq]
  refine ⟨h.length_eq, fun ⟨a, b⟩ hab => ?_⟩
  obtain ⟨i, hi, heq⟩ := List.mem_iff_getElem.mp hab
  rw [List.getElem_zip, Prod.mk.injEq, ← coeff_eq_getElem, ← coeff_eq_getElem] at heq
  obtain ⟨rfl, rfl⟩ := heq
  rcases h.coeff i with ⟨-, hn⟩ | hn
  · exact absurd hn (hq _ (List.of_mem_zip hab).2)
  · exact hn

end Agree

theorem agree_coeff_of_isZeroConstant {p : Cubic} (h : p.isZeroConstant = true) (i : Nat) :
    Binary32.Agree (p.coeff i) 0 := by
  obtain ⟨hl, hz⟩ := isZeroConstant_iff.mp h
  cases i with
  | zero => exact Binary32.agree_iff.mpr (Or.inr ⟨hz, rfl⟩)
  | succ i =>
    rw [coeff_of_length_le (by omega)]
    exact Binary32.Agree.refl 0

theorem agree_zero_add {p : Cubic} (hp : p.isZeroConstant = true) (q : Cubic) :
    (p.add q).Agree q := by
  have hq := q.length_pos
  constructor
  · rw [length_add, (isZeroConstant_iff.mp hp).1]
    omega
  · intro i
    rw [coeff_of_add]
    exact ((agree_coeff_of_isZeroConstant hp i).add_right _).trans (Binary32.agree_zero_add _)

theorem agree_add_comm (p q : Cubic) : (p.add q).Agree (q.add p) := by
  constructor
  · rw [length_add, length_add, Nat.max_comm]
  · intro i
    rw [coeff_of_add, coeff_of_add, Binary32.add_comm]
    exact Binary32.Agree.refl _

theorem agree_add_zero (p : Cubic) {q : Cubic} (hq : q.isZeroConstant = true) :
    (p.add q).Agree p :=
  (agree_add_comm p q).trans (agree_zero_add hq p)

end Cubic

namespace Poly

/-- The same shape, with polynomials that agree. -/
inductive Agree : Poly → Poly → Prop
  /-- Polynomials that agree. -/
  | concrete {p q : Cubic} : p.Agree q → Agree (concrete p) (concrete q)
  /-- Noise leaves. -/
  | noise : Agree noise noise
  /-- Sums of operands that agree. -/
  | add {l l' r r' : Poly} : Agree l l' → Agree r r' → Agree (add l r) (add l' r')
  /-- Products of factors that agree. -/
  | mul {l l' r r' : Poly} : Agree l l' → Agree r r' → Agree (mul l r) (mul l' r')

/-- A dropped zero changes no more than signs of zeros: the sum of two polynomials agrees with the
one of their coefficients. -/
theorem exists_joinAdd_concrete (p q : Cubic) :
    ∃ s, joinAdd (concrete p) (concrete q) = concrete s ∧ s.Agree (p.add q) := by
  unfold joinAdd isZeroConstant
  split_ifs with hp hq
  · exact ⟨q, rfl, (Cubic.agree_zero_add hp q).symm⟩
  · exact ⟨p, rfl, (Cubic.agree_add_zero p hq).symm⟩
  · exact ⟨p.add q, rfl, .refl _⟩

namespace Agree

variable {l l' r r' : Poly}

theorem isZeroConstant_eq (h : Agree l l') : l.isZeroConstant = l'.isZeroConstant := by
  cases h with
  | concrete h => exact h.isZeroConstant_eq
  | noise | add | mul => rfl

theorem map_concrete {o o' : Option Cubic} (h : Option.Rel Cubic.Agree o o') :
    Option.Rel Agree (o.map Poly.concrete) (o'.map Poly.concrete) := by
  cases h with
  | none => exact .none
  | some h => exact .some (.concrete h)

theorem getD {o o' : Option Poly} (h : Option.Rel Agree o o') (hl : Agree l l') :
    Agree (o.getD l) (o'.getD l') := by
  cases h with
  | none => exact hl
  | some h => exact h

theorem add? (hl : Agree l l') (hr : Agree r r') : Option.Rel Agree (l.add? r) (l'.add? r') := by
  cases hl with
  | concrete hp =>
    cases hr with
    | concrete hq => exact .some (.concrete (hp.add hq))
    | noise | add | mul => exact .none
  | noise | add | mul => exact .none

theorem mul? (hl : Agree l l') (hr : Agree r r') : Option.Rel Agree (l.mul? r) (l'.mul? r') := by
  cases hl with
  | concrete hp =>
    cases hr with
    | concrete hq => exact map_concrete (hp.mul? hq)
    | noise | add | mul => exact .none
  | noise | add | mul => exact .none

theorem joinAdd (hl : Agree l l') (hr : Agree r r') : Agree (l.joinAdd r) (l'.joinAdd r') := by
  unfold Poly.joinAdd
  rw [hl.isZeroConstant_eq, hr.isZeroConstant_eq]
  split_ifs
  · exact hr
  · exact hl
  · exact getD (hl.add? hr) (hl.add hr)

theorem joinMul (hl : Agree l l') (hr : Agree r r') : Agree (l.joinMul r) (l'.joinMul r') :=
  getD (hl.mul? hr) (hl.mul hr)

/-- **The optimizer keeps agreement.** -/
theorem optimize (h : Agree l l') : Agree l.optimize l'.optimize := by
  induction h with
  | concrete h => exact .concrete h
  | noise => exact .noise
  | add _ _ ihl ihr => exact ihl.joinAdd ihr
  | mul _ _ ihl ihr => exact ihl.joinMul ihr

end Agree

end Poly

end TimeSignal
