import TimeSignal.Poly.Optimize
import TimeSignal.Proofs.Poly.Value

/-!
# The optimizer keeps exact values

The optimizer computes with rounded coefficients.  Where none of its operations rounds, the tree
that it returns has the exact value of the tree that it was given, at every time and for all values
of the noise leaves; so these leaves are neither lost nor copied nor exchanged.

## Main definitions

* `Cubic.addOperations`, `Cubic.mulOperations`: the operations that a sum and a product carry out
* `Poly.optimizeOperations`: the operations that the optimizer carries out on a tree
* `Poly.SameValue`: two trees with as many noise leaves and the same exact value

## Main results

* `Cubic.polynomial_add`, `Cubic.polynomial_mul?`: without rounding, sums and products of cubics are
  those of formal polynomials
* `Poly.sameValue_joinAdd`, `Poly.sameValue_joinMul`: one step of the optimizer keeps the value
* `Poly.value_optimize`: the optimizer keeps the value
-/

namespace TimeSignal

open Polynomial Binary32

namespace Cubic

/-! ## The operations of sums and products -/

/-- The operations of `p.add q`, one for each coefficient. -/
def addOperations (p q : Cubic) : List Operation :=
  (List.range (max p.coeffs.length q.coeffs.length)).map fun i => .add (p.coeff i) (q.coeff i)

/-- The operations that add `xs` to `total`, one after the other. -/
def runningSums (total : Binary32) : List Binary32 → List Operation
  | [] => []
  | x :: xs => .add total x :: runningSums (total + x) xs

/-- The operations of `sumFromLeft`. -/
def sumOperations : List Binary32 → List Operation
  | [] => []
  | x :: xs => runningSums x xs

/-- The operations of `crossTerms`. -/
def crossOperations (p q : Cubic) (k : Nat) : List Operation :=
  (List.range (k + 1)).filterMap fun i =>
    match p.coeffs[i]?, q.coeffs[k - i]? with
    | some x, some y => some (.mul x y)
    | _, _ => none

/-- The operations of `p.mul? q`, where it is defined. -/
def mulOperations (p q : Cubic) : List Operation :=
  (List.range (p.degree + q.degree + 1)).flatMap fun k =>
    crossOperations p q k ++ sumOperations (crossTerms p q k)

theorem coeffs_add (p q : Cubic) :
    (p.add q).coeffs = (p.addOperations q).map Operation.result := by
  simp [add, addOperations, Operation.result]

theorem length_add (p q : Cubic) :
    (p.add q).coeffs.length = max p.coeffs.length q.coeffs.length := by
  simp [add]

/-- Above both degrees this is the sum of two zeros. -/
theorem coeff_of_add (p q : Cubic) (i : Nat) : (p.add q).coeff i = p.coeff i + q.coeff i := by
  by_cases hi : i < max p.coeffs.length q.coeffs.length
  · rw [coeff_eq_getElem (by rwa [length_add])]
    simp [add]
  · rw [coeff_of_length_le (by rw [length_add]; omega), coeff_of_length_le (p := p) (by omega),
      coeff_of_length_le (p := q) (by omega)]
    rfl

theorem crossTerms_eq (p q : Cubic) (k : Nat) :
    crossTerms p q k = (crossOperations p q k).map Operation.result := by
  rw [crossTerms, crossOperations, List.map_filterMap]
  apply List.filterMap_congr
  intro i _
  cases p.coeffs[i]? <;> cases q.coeffs[k - i]? <;> rfl

/-! ## Sums -/

section Sums

variable {p q : Cubic} (h : ∀ o ∈ p.addOperations q, o.IsExact)

include h

theorem isFinite_of_mem_add {a : Binary32} (ha : a ∈ (p.add q).coeffs) : a.isFinite = true := by
  rw [coeffs_add] at ha
  obtain ⟨o, ho, rfl⟩ := List.mem_map.mp ha
  exact (h o ho).1

theorem toRat_coeff_add (i : Nat) :
    ((p.add q).coeff i).toRat = (p.coeff i).toRat + (q.coeff i).toRat := by
  rw [coeff_of_add]
  by_cases hi : i < max p.coeffs.length q.coeffs.length
  · have hs := h (.add (p.coeff i) (q.coeff i))
      (List.mem_map.mpr ⟨i, List.mem_range.mpr hi, rfl⟩)
    exact hs.2
  · -- Above both degrees the summands are zeros, whose sum is no operation that is carried out.
    have hp : p.coeffs.length ≤ i := by omega
    have hq : q.coeffs.length ≤ i := by omega
    rw [coeff_of_length_le hp, coeff_of_length_le hq]
    have hz : (0 : Binary32) + 0 = 0 := rfl
    rw [hz, toRat_zero, add_zero]

theorem polynomial_add : (p.add q).polynomial = p.polynomial + q.polynomial := by
  ext i
  simp only [coeff_add, coeff_polynomial, toRat_coeff_add h]

end Sums

/-! ## Products -/

theorem toRat_foldl_add {xs : List Binary32} {total : Binary32}
    (h : ∀ o ∈ runningSums total xs, o.IsExact) :
    (xs.foldl (· + ·) total).toRat = total.toRat + (xs.map toRat).sum := by
  -- The total so far varies: each sum is exact only over the sums before it.
  induction xs generalizing total with
  | nil => simp
  | cons x xs ih =>
    have hx : (total + x).toRat = total.toRat + x.toRat :=
      (h (.add total x) (List.mem_cons_self ..)).2
    rw [List.foldl_cons, ih fun o ho => h o (List.mem_cons_of_mem _ ho), hx, List.map_cons,
      List.sum_cons, add_assoc]

theorem isFinite_foldl_add {xs : List Binary32} {total : Binary32} (ht : total.isFinite = true)
    (h : ∀ o ∈ runningSums total xs, o.IsExact) :
    (xs.foldl (· + ·) total).isFinite = true := by
  induction xs generalizing total with
  | nil => exact ht
  | cons x xs ih =>
    exact ih (h (.add total x) (List.mem_cons_self ..)).1
      fun o ho => h o (List.mem_cons_of_mem _ ho)

theorem toRat_sumFromLeft {xs : List Binary32} (h : ∀ o ∈ sumOperations xs, o.IsExact) :
    (sumFromLeft xs).toRat = (xs.map toRat).sum := by
  cases xs with
  | nil => exact toRat_zero
  | cons x xs => rw [sumFromLeft, toRat_foldl_add h, List.map_cons, List.sum_cons]

theorem isFinite_sumFromLeft {xs : List Binary32} (hx : ∀ x ∈ xs, x.isFinite = true)
    (h : ∀ o ∈ sumOperations xs, o.IsExact) : (sumFromLeft xs).isFinite = true := by
  cases xs with
  | nil => rfl
  | cons x xs => exact isFinite_foldl_add (hx x (List.mem_cons_self ..)) h

/-- The products of order `k` add up to the coefficient of order `k` of the product. -/
theorem sum_crossOperations (p q : Cubic) (k : Nat) :
    ((crossOperations p q k).map Operation.exactResult).sum =
      ∑ i ∈ Finset.range (k + 1), (p.coeff i).toRat * (q.coeff (k - i)).toRat := by
  unfold crossOperations
  -- The order `k` stays while the range grows, so the bound is a variable of its own.
  generalize k + 1 = n
  induction n with
  | zero => rfl
  | succ n ih =>
    rw [List.range_succ, List.filterMap_append, List.map_append, List.sum_append, ih,
      Finset.sum_range_succ]
    congr 1
    -- An index outside of either list has no product, and a coefficient of zero.
    simp only [coeff, List.getD_eq_getElem?_getD]
    cases hp : p.coeffs[n]? <;> cases hq : q.coeffs[k - n]? <;>
      simp [hp, hq, Operation.exactResult]

section Products

variable {p q r : Cubic} (hr : p.mul? q = some r)

include hr

theorem coeffs_of_mul? :
    r.coeffs =
      (List.range (p.degree + q.degree + 1)).map fun k => sumFromLeft (crossTerms p q k) := by
  unfold mul? at hr
  split at hr
  · cases hr
    rfl
  · cases hr

theorem length_of_mul? : r.coeffs.length = p.degree + q.degree + 1 := by
  rw [coeffs_of_mul? hr, List.length_map, List.length_range]

/-- Above the degree of the product there are no products to add up. -/
theorem coeff_of_mul? (k : Nat) : r.coeff k = sumFromLeft (crossTerms p q k) := by
  by_cases hk : k < p.degree + q.degree + 1
  · rw [coeff, coeffs_of_mul? hr, List.getD_eq_getElem _ _ (by simpa using hk)]
    simp
  · have hp := p.length_pos
    have hq := q.length_pos
    have hnil : crossTerms p q k = [] := by
      refine List.filterMap_eq_nil_iff.mpr fun i _ => ?_
      unfold degree at hk
      by_cases hi : p.coeffs.length ≤ i
      · rw [List.getElem?_eq_none hi]
      · rw [List.getElem?_eq_none (l := q.coeffs) (by omega)]
        cases p.coeffs[i]? <;> rfl
    rw [hnil, coeff_of_length_le (by rw [length_of_mul? hr]; omega)]
    rfl

omit hr in
theorem isExact_of_mulOperations (h : ∀ o ∈ p.mulOperations q, o.IsExact) {k : Nat}
    (hk : k < p.degree + q.degree + 1) :
    (∀ o ∈ crossOperations p q k, o.IsExact) ∧
      ∀ o ∈ sumOperations (crossTerms p q k), o.IsExact := by
  have hm : ∀ o ∈ crossOperations p q k ++ sumOperations (crossTerms p q k), o.IsExact :=
    fun o ho => h o (List.mem_flatMap.mpr ⟨k, List.mem_range.mpr hk, ho⟩)
  constructor
  · exact fun o ho => hm o (List.mem_append_left _ ho)
  · exact fun o ho => hm o (List.mem_append_right _ ho)

variable (h : ∀ o ∈ p.mulOperations q, o.IsExact)

include h

theorem isFinite_of_mem_mul? {a : Binary32} (ha : a ∈ r.coeffs) : a.isFinite = true := by
  rw [coeffs_of_mul? hr] at ha
  obtain ⟨k, hk, rfl⟩ := List.mem_map.mp ha
  obtain ⟨hc, hs⟩ := isExact_of_mulOperations h (List.mem_range.mp hk)
  apply isFinite_sumFromLeft _ hs
  intro x hx
  -- The summands are products, which are exact as well.
  rw [crossTerms_eq] at hx
  obtain ⟨o, ho, rfl⟩ := List.mem_map.mp hx
  exact (hc o ho).1

theorem toRat_coeff_mul? {k : Nat} (hk : k < p.degree + q.degree + 1) :
    (r.coeff k).toRat =
      ∑ i ∈ Finset.range (k + 1), (p.coeff i).toRat * (q.coeff (k - i)).toRat := by
  obtain ⟨hc, hs⟩ := isExact_of_mulOperations h hk
  rw [coeff_of_mul? hr, toRat_sumFromLeft hs, crossTerms_eq, List.map_map,
    ← sum_crossOperations]
  exact congrArg List.sum (List.map_congr_left fun o ho => (hc o ho).2)

theorem polynomial_mul? : r.polynomial = p.polynomial * q.polynomial := by
  ext k
  rw [coeff_mul, Finset.Nat.sum_antidiagonal_eq_sum_range_succ
    (fun i j => p.polynomial.coeff i * q.polynomial.coeff j)]
  simp only [coeff_polynomial]
  by_cases hk : k < p.degree + q.degree + 1
  · exact toRat_coeff_mul? hr h hk
  · -- Above the degree of the product, one factor of each term is above its own degree.
    have hp := p.length_pos
    have hq := q.length_pos
    unfold degree at hk
    rw [coeff_of_length_le (by rw [length_of_mul? hr, degree, degree]; omega), toRat_zero]
    refine (Finset.sum_eq_zero fun i hi => ?_).symm
    have hi := Finset.mem_range.mp hi
    by_cases hpi : p.coeffs.length ≤ i
    · rw [coeff_of_length_le hpi, toRat_zero, zero_mul]
    · rw [coeff_of_length_le (p := q) (by omega), toRat_zero, mul_zero]

end Products

end Cubic

namespace Poly

/-! ## Trees with the same value -/

/-- Two trees have as many noise leaves, and the same exact value at every time whatever values
these leaves take. -/
def SameValue (p q : Poly) : Prop :=
  p.draws = q.draws ∧
    ∀ (t : ℚ) (d : List ℚ), d.length = q.draws → p.value t d = q.value t d

theorem SameValue.refl (p : Poly) : SameValue p p := ⟨rfl, fun _ _ _ => rfl⟩

theorem SameValue.trans {p q r : Poly} (h : SameValue p q) (h' : SameValue q r) : SameValue p r :=
  ⟨h.1.trans h'.1, fun t d hd => (h.2 t d (hd.trans h'.1.symm)).trans (h'.2 t d hd)⟩

/-- The draws of two operands are shared out alike, so each operand has its value. -/
theorem SameValue.operands {l l' r r' : Poly} (hl : SameValue l l') (hr : SameValue r r') (t : ℚ)
    {d : List ℚ} (hd : d.length = l'.draws + r'.draws) :
    value t l (d.take l.draws) = value t l' (d.take l'.draws) ∧
      value t r (d.drop l.draws) = value t r' (d.drop l'.draws) := by
  rw [hl.1]
  constructor
  · exact hl.2 t _ (by rw [List.length_take]; omega)
  · exact hr.2 t _ (by rw [List.length_drop]; omega)

theorem SameValue.add {l l' r r' : Poly} (hl : SameValue l l') (hr : SameValue r r') :
    SameValue (add l r) (add l' r') := by
  refine ⟨by simp only [draws, hl.1, hr.1], fun t d hd => ?_⟩
  obtain ⟨hvl, hvr⟩ := hl.operands hr t hd
  rw [value, value, hvl, hvr]

theorem SameValue.mul {l l' r r' : Poly} (hl : SameValue l l') (hr : SameValue r r') :
    SameValue (mul l r) (mul l' r') := by
  refine ⟨by simp only [draws, hl.1, hr.1], fun t d hd => ?_⟩
  obtain ⟨hvl, hvr⟩ := hl.operands hr t hd
  rw [value, value, hvl, hvr]

theorem sameValue_concrete_add {p q : Cubic} (h : ∀ o ∈ p.addOperations q, o.IsExact) :
    SameValue (concrete (p.add q)) (add (concrete p) (concrete q)) := by
  refine ⟨rfl, fun t d _ => ?_⟩
  simp only [value, ← Cubic.eval_polynomial, Cubic.polynomial_add h, eval_add]

theorem sameValue_concrete_mul {p q r : Cubic} (hr : p.mul? q = some r)
    (h : ∀ o ∈ p.mulOperations q, o.IsExact) :
    SameValue (concrete r) (mul (concrete p) (concrete q)) := by
  refine ⟨rfl, fun t d _ => ?_⟩
  simp only [value, ← Cubic.eval_polynomial, Cubic.polynomial_mul? hr h, eval_mul]

/-! ## One step of the optimizer -/

/-- The operations of `joinAdd`. -/
def joinAddOperations (left right : Poly) : List Operation :=
  if left.isZeroConstant then []
  else if right.isZeroConstant then []
  else
    match left, right with
    | concrete p, concrete q => p.addOperations q
    | _, _ => []

/-- The operations of `joinMul`. -/
def joinMulOperations (left right : Poly) : List Operation :=
  match left, right with
  | concrete p, concrete q => if p.degree + q.degree ≤ 3 then p.mulOperations q else []
  | _, _ => []

/-- The operations of `optimize`, in the order in which it carries them out. -/
def optimizeOperations : Poly → List Operation
  | concrete _ | noise => []
  | add l r =>
    l.optimizeOperations ++ r.optimizeOperations ++ joinAddOperations l.optimize r.optimize
  | mul l r =>
    l.optimizeOperations ++ r.optimizeOperations ++ joinMulOperations l.optimize r.optimize

theorem sameValue_zero_add {l r : Poly} (h : l.isZeroConstant = true) :
    SameValue r (add l r) := by
  cases l with
  | concrete p =>
    refine ⟨(Nat.zero_add _).symm, fun t d _ => ?_⟩
    simp [value, draws, Cubic.value_of_isZeroConstant h]
  | noise | add | mul => cases h

theorem sameValue_add_zero {l r : Poly} (h : r.isZeroConstant = true) :
    SameValue l (add l r) := by
  cases r with
  | concrete p =>
    refine ⟨rfl, fun t d hd => ?_⟩
    simp only [draws, Nat.add_zero] at hd
    simp [value, Cubic.value_of_isZeroConstant h, ← hd]
  | noise | add | mul => cases h

/-- One sum of the optimizer, whether it drops a zero, folds, or leaves the sum standing. -/
theorem sameValue_joinAdd {l r : Poly} (hl : l.HasFiniteCoeffs) (hr : r.HasFiniteCoeffs)
    (h : ∀ o ∈ joinAddOperations l r, o.IsExact) :
    (joinAdd l r).HasFiniteCoeffs ∧ SameValue (joinAdd l r) (add l r) := by
  unfold joinAdd
  unfold joinAddOperations at h
  split_ifs at h ⊢ with hzl hzr
  · -- The left operand is a constant, so no draw is dropped with it ...
    exact ⟨hr, sameValue_zero_add hzl⟩
  · -- ... nor with the right one.
    exact ⟨hl, sameValue_add_zero hzr⟩
  · split at h
    · exact ⟨fun a ha => Cubic.isFinite_of_mem_add h ha, sameValue_concrete_add h⟩
    · next hc =>
      -- An operand is not a single polynomial, so the sum stays.
      have hn : l.add? r = none := by
        unfold add?
        split
        · exact absurd rfl (hc _ _ rfl)
        · rfl
      rw [hn]
      exact ⟨⟨hl, hr⟩, SameValue.refl _⟩

/-- One product of the optimizer, whether it folds or leaves the product standing. -/
theorem sameValue_joinMul {l r : Poly} (hl : l.HasFiniteCoeffs) (hr : r.HasFiniteCoeffs)
    (h : ∀ o ∈ joinMulOperations l r, o.IsExact) :
    (joinMul l r).HasFiniteCoeffs ∧ SameValue (joinMul l r) (mul l r) := by
  unfold joinMul
  cases hm : l.mul? r with
  | none => exact ⟨⟨hl, hr⟩, SameValue.refl _⟩
  | some s =>
    unfold mul? at hm
    split at hm
    · next p q =>
      obtain ⟨c, hc, rfl⟩ := Option.map_eq_some_iff.mp hm
      -- A product that is defined has a degree of at most three.
      have hd : p.degree + q.degree ≤ 3 := by
        rw [← Cubic.degree_mul? hc]
        exact c.degree_le
      simp only [joinMulOperations, hd, if_true] at h
      exact ⟨fun a ha => Cubic.isFinite_of_mem_mul? hc h ha, sameValue_concrete_mul hc h⟩
    · cases hm

/-! ## The optimizer -/

theorem sameValue_optimize {p : Poly} (hp : p.HasFiniteCoeffs)
    (h : ∀ o ∈ p.optimizeOperations, o.IsExact) :
    p.optimize.HasFiniteCoeffs ∧ SameValue p.optimize p := by
  -- The operands keep their value by induction, and the step that joins them keeps it.
  induction p with
  | concrete c => exact ⟨hp, SameValue.refl _⟩
  | noise => exact ⟨trivial, SameValue.refl _⟩
  | add l r ihl ihr =>
    simp only [optimizeOperations, List.mem_append] at h
    obtain ⟨hl, sl⟩ := ihl hp.1 fun o ho => h o (Or.inl (Or.inl ho))
    obtain ⟨hr, sr⟩ := ihr hp.2 fun o ho => h o (Or.inl (Or.inr ho))
    obtain ⟨hf, hs⟩ := sameValue_joinAdd hl hr fun o ho => h o (Or.inr ho)
    exact ⟨hf, hs.trans (sl.add sr)⟩
  | mul l r ihl ihr =>
    simp only [optimizeOperations, List.mem_append] at h
    obtain ⟨hl, sl⟩ := ihl hp.1 fun o ho => h o (Or.inl (Or.inl ho))
    obtain ⟨hr, sr⟩ := ihr hp.2 fun o ho => h o (Or.inl (Or.inr ho))
    obtain ⟨hf, hs⟩ := sameValue_joinMul hl hr fun o ho => h o (Or.inr ho)
    exact ⟨hf, hs.trans (sl.mul sr)⟩

/-- **The optimizer keeps exact values.**  If no operation that it carries out rounds, the optimized
tree has finite coefficients and as many noise leaves, and the same exact value at every time for
all values of these leaves. -/
theorem value_optimize (p : Poly) (hp : p.HasFiniteCoeffs)
    (h : ∀ o ∈ p.optimizeOperations, o.IsExact) :
    p.optimize.HasFiniteCoeffs ∧ p.optimize.draws = p.draws ∧
      ∀ (t : ℚ) (d : List ℚ), d.length = p.draws → p.optimize.value t d = p.value t d := by
  obtain ⟨hf, hd, hv⟩ := sameValue_optimize hp h
  exact ⟨hf, hd, hv⟩

/-- The tree `((0 + noise) * (t + 1)) + (2 * (t + 1) * (t + 1) + noise)`. -/
def mixedTree : Poly :=
  let linear : Poly := concrete ⟨[1, 1], by simp, by simp⟩
  add (mul (add (concrete (Cubic.constant 0)) noise) linear)
    (add (mul (mul (concrete (Cubic.constant (1 + 1))) linear) linear) noise)

theorem value_optimize_mixedTree :
    mixedTree.HasFiniteCoeffs ∧ (∀ o ∈ mixedTree.optimizeOperations, o.IsExact) ∧
      mixedTree.optimize ≠ mixedTree ∧
      mixedTree.optimize.value 3 [1 / 2, 1 / 4] = mixedTree.value 3 [1 / 2, 1 / 4] := by
  have hf : mixedTree.HasFiniteCoeffs := by simp [mixedTree, HasFiniteCoeffs]; decide
  have he : ∀ o ∈ mixedTree.optimizeOperations, o.IsExact := by decide +kernel
  exact ⟨hf, he, by decide +kernel, (value_optimize mixedTree hf he).2.2 3 _ rfl⟩

end Poly

end TimeSignal
