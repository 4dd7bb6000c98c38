import TimeSignal.Proofs.Poly.Agreement
import TimeSignal.Proofs.Poly.Signal

/-!
# Expanding a tree and folding it again

The signal of a tree writes each polynomial as a sum of monomials.  Its own tree is a nest of sums
and products, which the optimizer folds back into a polynomial with the same coefficients, but for
the signs of zeros: it multiplies finite coefficients by zero and by one only, and adds zeros only.
So the expanded tree and the tree itself are optimized alike.

## Main definitions

* `Cubic.monomial`: the polynomial `a · tⁿ`
* `Poly.FoldsTo`: the tree of a signal is folded into one polynomial, up to signs of zeros

## Main results

* `Cubic.exists_identity_mul?`, `Cubic.exists_constant_mul?`: a power times the time is the next
  power, and a power times a constant is a monomial
* `Poly.FoldsTo.add`, `Poly.FoldsTo.mul`: sums and products of signals that are folded
* `Poly.foldsTo_monomials`: the monomials of a polynomial are folded into the polynomial
* `Poly.optimize_ofSignal_toSignal`: the expanded tree is optimized as the tree
-/

namespace TimeSignal

open Binary32 (agree_zero_mul agree_mul_zero)

namespace Cubic

/-! ## Products with a constant and with the time -/

/-- `crossTerms` of two lists of coefficients. -/
def crossTermsOf (xs ys : List Binary32) (k : Nat) : List Binary32 :=
  (List.range (k + 1)).filterMap fun i =>
    match xs[i]?, ys[k - i]? with
    | some x, some y => some (x * y)
    | _, _ => none

theorem crossTerms_eq_crossTermsOf (p q : Cubic) (k : Nat) :
    crossTerms p q k = crossTermsOf p.coeffs q.coeffs k := rfl

theorem crossTermsOf_nil (ys : List Binary32) (k : Nat) : crossTermsOf [] ys k = [] :=
  List.filterMap_eq_nil_iff.mpr fun _ _ => rfl

theorem crossTermsOf_cons_zero (x : Binary32) (xs ys : List Binary32) :
    crossTermsOf (x :: xs) ys 0 = (ys[0]?.map (x * ·)).toList := by
  unfold crossTermsOf
  cases h : ys[0]? <;> simp [h]

/-- The first coefficient meets the one of order `k + 1`, and each other one those of an order less
by one. -/
theorem crossTermsOf_cons_succ (x : Binary32) (xs ys : List Binary32) (k : Nat) :
    crossTermsOf (x :: xs) ys (k + 1) =
      (ys[k + 1]?.map (x * ·)).toList ++ crossTermsOf xs ys k := by
  unfold crossTermsOf
  rw [List.range_succ_eq_map, List.filterMap_cons, List.filterMap_map]
  simp only [Function.comp_def, Nat.succ_eq_add_one, List.getElem?_cons_succ,
    Nat.add_sub_add_right, List.getElem?_cons_zero, Nat.sub_zero]
  cases ys[k + 1]? <;> rfl

theorem crossTerms_constant (a : Binary32) (q : Cubic) (k : Nat) :
    crossTerms (constant a) q k = (q.coeffs[k]?.map (a * ·)).toList := by
  rw [crossTerms_eq_crossTermsOf, constant]
  cases k with
  | zero => exact crossTermsOf_cons_zero ..
  | succ k => rw [crossTermsOf_cons_succ, crossTermsOf_nil, List.append_nil]

theorem crossTerms_identity_zero (q : Cubic) :
    crossTerms identity q 0 = (q.coeffs[0]?.map (0 * ·)).toList :=
  crossTermsOf_cons_zero ..

theorem crossTerms_identity_succ (q : Cubic) (k : Nat) :
    crossTerms identity q (k + 1) =
      (q.coeffs[k + 1]?.map (0 * ·)).toList ++ (q.coeffs[k]?.map (1 * ·)).toList := by
  rw [crossTerms_eq_crossTermsOf, identity, crossTermsOf_cons_succ]
  exact congrArg _ (crossTerms_constant 1 q k)

/-- The polynomial `a · tⁿ`. -/
def monomial (a : Binary32) (n : Nat) (hn : n ≤ 3) : Cubic where
  coeffs := List.replicate n 0 ++ [a]
  length_pos := by simp
  length_le := by simp; omega

theorem length_monomial {a : Binary32} {n : Nat} (hn : n ≤ 3) :
    (monomial a n hn).coeffs.length = n + 1 := by
  simp [monomial]

theorem getD_append_singleton (xs : List Binary32) (a : Binary32) (i : Nat) :
    (xs ++ [a]).getD i 0 = if i = xs.length then a else xs.getD i 0 := by
  rcases Nat.lt_trichotomy i xs.length with hi | rfl | hi
  · rw [List.getD_append _ _ _ _ hi, if_neg (Nat.ne_of_lt hi)]
  · rw [List.getD_append_right _ _ _ _ (Nat.le_refl _), Nat.sub_self, if_pos rfl]
    rfl
  · rw [List.getD_eq_default _ _ (by simpa using hi), List.getD_eq_default _ _ (Nat.le_of_lt hi),
      if_neg (Nat.ne_of_gt hi)]

theorem coeff_monomial {a : Binary32} {n : Nat} (hn : n ≤ 3) (i : Nat) :
    (monomial a n hn).coeff i = if i = n then a else 0 := by
  rw [coeff, monomial, getD_append_singleton, List.length_replicate,
    List.getD_eq_getElem?_getD, List.getElem?_getD_replicate_default_eq]

theorem degree_monomial {a : Binary32} {n : Nat} (hn : n ≤ 3) :
    (monomial a n hn).degree = n := by
  rw [degree, length_monomial]
  rfl

section Products

variable {a : Binary32} {q r : Cubic}

theorem coeff_constant_mul? (hr : (constant a).mul? q = some r) {k : Nat}
    (hk : k < q.coeffs.length) : r.coeff k = a * q.coeff k := by
  rw [coeff_of_mul? hr, crossTerms_constant, getElem?_coeffs hk]
  rfl

theorem agree_coeff_zero_identity_mul? (hr : identity.mul? q = some r)
    (hq : ∀ i, (q.coeff i).isFinite = true) : Binary32.Agree (r.coeff 0) 0 := by
  rw [coeff_of_mul? hr, crossTerms_identity_zero, getElem?_coeffs q.length_pos]
  exact agree_zero_mul (hq 0)

/-- A product with the time moves each coefficient up by one order. -/
theorem agree_coeff_succ_identity_mul? (hr : identity.mul? q = some r)
    (hq : ∀ i, (q.coeff i).isFinite = true) (k : Nat) :
    Binary32.Agree (r.coeff (k + 1)) (q.coeff k) := by
  rw [coeff_of_mul? hr, crossTerms_identity_succ]
  rcases Nat.lt_trichotomy (k + 1) q.coeffs.length with hk | hk | hk
  · rw [getElem?_coeffs hk, getElem?_coeffs (Nat.lt_of_succ_lt hk)]
    change Binary32.Agree (0 * q.coeff (k + 1) + 1 * q.coeff k) (q.coeff k)
    rw [Binary32.one_mul]
    exact ((agree_zero_mul (hq _)).add_right _).trans (Binary32.agree_zero_add _)
  · rw [List.getElem?_eq_none (Nat.le_of_eq hk.symm), getElem?_coeffs (by omega)]
    change Binary32.Agree (1 * q.coeff k) (q.coeff k)
    rw [Binary32.one_mul]
    exact Binary32.Agree.refl _
  · rw [List.getElem?_eq_none (Nat.le_of_lt hk), List.getElem?_eq_none (by omega),
      coeff_of_length_le (by omega)]
    exact Binary32.Agree.refl _

end Products

theorem exists_identity_mul? {n : Nat} (hn : n + 1 ≤ 3) :
    ∃ r, identity.mul? (monomial 1 n (by omega)) = some r ∧ r.Agree (monomial 1 (n + 1) hn) := by
  have hle : n ≤ 3 := by omega
  have hdeg := degree_monomial (a := 1) hle
  have hid : identity.degree = 1 := rfl
  obtain ⟨r, hr⟩ := exists_mul? (p := identity) (q := monomial 1 n hle) (by omega)
  have hfin : ∀ i, ((monomial 1 n hle).coeff i).isFinite = true := by
    intro i
    rw [coeff_monomial]
    split_ifs <;> rfl
  refine ⟨r, hr, ?_, fun i => ?_⟩
  · rw [length_of_mul? hr, length_monomial]
    omega
  · rw [coeff_monomial]
    cases i with
    | zero => exact agree_coeff_zero_identity_mul? hr hfin
    | succ i =>
      have h := agree_coeff_succ_identity_mul? hr hfin i
      rw [coeff_monomial] at h
      simpa using h

theorem exists_constant_mul? {a : Binary32} (ha : a.isFinite = true) {n : Nat} (hn : n ≤ 3) :
    ∃ r, (constant a).mul? (monomial 1 n hn) = some r ∧ r.Agree (monomial a n hn) := by
  have hdeg := degree_monomial (a := 1) hn
  have hc : (constant a).degree = 0 := rfl
  obtain ⟨r, hr⟩ := exists_mul? (p := constant a) (q := monomial 1 n hn) (by omega)
  have hlen : r.coeffs.length = n + 1 := by
    rw [length_of_mul? hr]
    omega
  refine ⟨r, hr, ?_, fun i => ?_⟩
  · rw [hlen, length_monomial]
  · by_cases hi : i < n + 1
    · rw [coeff_constant_mul? hr (by rwa [length_monomial]), coeff_monomial, coeff_monomial]
      split_ifs
      · rw [Binary32.mul_comm, Binary32.one_mul]
        exact Binary32.Agree.refl a
      · exact agree_mul_zero ha
    · rw [coeff_of_length_le (by omega), coeff_of_length_le (by rw [length_monomial]; omega)]
      exact Binary32.Agree.refl 0

/-- A monomial above the degree of the other summand becomes the leading coefficient. -/
theorem agree_monomial_add {a : Binary32} {n : Nat} (hn : n ≤ 3) {p q : Cubic}
    (hp : p.coeffs.length = n) (hq : q.coeffs = p.coeffs ++ [a]) :
    ((monomial a n hn).add p).Agree q := by
  constructor
  · rw [length_add, length_monomial, hq, List.length_append, List.length_singleton, hp]
    omega
  · intro i
    have hqi : q.coeff i = if i = n then a else p.coeff i := by
      rw [coeff, hq, getD_append_singleton, hp, coeff]
    rw [coeff_of_add, coeff_monomial, hqi]
    split_ifs with hi
    · rw [coeff_of_length_le (p := p) (by omega)]
      exact Binary32.agree_add_zero a
    · exact Binary32.agree_zero_add _

end Cubic

namespace Poly

/-! ## Signals that are folded into a polynomial -/

/-- The tree of the signal is optimized to a single polynomial that agrees with `c`. -/
def FoldsTo (e : Signal) (c : Cubic) : Prop :=
  ∃ tree c', TreeOf e tree ∧ tree.optimize = concrete c' ∧ c'.Agree c

namespace FoldsTo

variable {e e' : Signal} {c c' r : Cubic}

theorem time : FoldsTo .time Cubic.identity := ⟨_, _, .time, rfl, .refl _⟩

theorem const (a : Binary32) : FoldsTo (.const a) (Cubic.constant a) :=
  ⟨_, _, .const a, rfl, .refl _⟩

theorem congr (h : FoldsTo e c) (hc : c.Agree c') : FoldsTo e c' := by
  obtain ⟨tree, b, ht, ho, hb⟩ := h
  exact ⟨tree, b, ht, ho, hb.trans hc⟩

theorem add (h : FoldsTo e c) (h' : FoldsTo e' c') : FoldsTo (.add e e') (c.add c') := by
  obtain ⟨p, b, hp, hpo, hb⟩ := h
  obtain ⟨q, b', hq, hqo, hb'⟩ := h'
  obtain ⟨s, hs, hsum⟩ := exists_joinAdd_concrete b b'
  refine ⟨_, s, hp.add hq, ?_, hsum.trans (hb.add hb')⟩
  rw [optimize, hpo, hqo, hs]

theorem mul (h : FoldsTo e c) (h' : FoldsTo e' c') (hr : c.mul? c' = some r) :
    FoldsTo (.mul e e') r := by
  obtain ⟨p, b, hp, hpo, hb⟩ := h
  obtain ⟨q, b', hq, hqo, hb'⟩ := h'
  obtain ⟨s, hs, hprod⟩ := hb.exists_mul? hb' hr
  refine ⟨_, s, hp.mul hq, ?_, hprod⟩
  rw [optimize, hpo, hqo, joinMul, mul?, hs]
  rfl

end FoldsTo

theorem foldsTo_power {n : Nat} (hn : n + 1 ≤ 3) :
    FoldsTo (power n) (Cubic.monomial 1 (n + 1) hn) := by
  induction n with
  | zero => exact FoldsTo.time
  | succ n ih =>
    obtain ⟨r, hr, hagree⟩ := Cubic.exists_identity_mul? hn
    exact (FoldsTo.time.mul (ih (by omega)) hr).congr hagree

theorem foldsTo_monomials {coeffs : List Binary32} {c : Cubic} (hc : c.coeffs = coeffs.reverse)
    (hf : ∀ a ∈ coeffs, a.isFinite = true) : FoldsTo (monomials coeffs) c := by
  fun_induction monomials coeffs generalizing c with
  | case1 =>
    have hpos := c.length_pos
    rw [hc] at hpos
    cases hpos
  | case2 a => exact (FoldsTo.const a).congr (.of_coeffs_eq hc.symm)
  | case3 a b rest ih =>
    have hlen := c.length_le
    rw [hc, List.length_reverse, List.length_cons, List.length_cons] at hlen
    have hn : rest.length + 1 ≤ 3 := by omega
    -- The monomials after the first are those of a polynomial of a lower degree.
    let c' : Cubic := ⟨(b :: rest).reverse, by simp, by simp; omega⟩
    have hrest : FoldsTo (monomials (b :: rest)) c' :=
      ih rfl fun x hx => hf x (List.mem_cons_of_mem _ hx)
    obtain ⟨r, hr, hagree⟩ := Cubic.exists_constant_mul? (hf a (List.mem_cons_self ..)) hn
    have hfirst := ((FoldsTo.const a).mul (foldsTo_power hn) hr).congr hagree
    have hsum := Cubic.agree_monomial_add (a := a) hn (p := c') (q := c) (by simp [c'])
      (by rw [hc, List.reverse_cons])
    exact (hfirst.add hrest).congr hsum

/-! ## The expanded tree -/

theorem exists_treeOf_toSignal {p : Poly} (hp : p.HasFiniteCoeffs) :
    ∃ tree, TreeOf p.toSignal tree ∧ Agree tree.optimize p.optimize := by
  induction p with
  | concrete c =>
    have hc : c.coeffs = c.coeffs.reverse.reverse := (List.reverse_reverse _).symm
    obtain ⟨tree, c', ht, ho, hc'⟩ :=
      foldsTo_monomials hc fun a ha => hp a (List.mem_reverse.mp ha)
    refine ⟨tree, ht, ?_⟩
    rw [ho]
    exact .concrete hc'
  | noise => exact ⟨_, .noise, .noise⟩
  | add l r ihl ihr =>
    obtain ⟨tl, hl, hal⟩ := ihl hp.1
    obtain ⟨tr, hr, har⟩ := ihr hp.2
    exact ⟨_, hl.add hr, hal.joinAdd har⟩
  | mul l r ihl ihr =>
    obtain ⟨tl, hl, hal⟩ := ihl hp.1
    obtain ⟨tr, hr, har⟩ := ihr hp.2
    exact ⟨_, hl.mul hr, hal.joinMul har⟩

/-- **Expanding a tree and folding it again loses nothing.**  The signal of a tree with finite
coefficients is converted to a tree that is optimized to the same shape as the tree itself, with
coefficients that are both `nan` or equal by value.  A single polynomial is found again with its
degree, whether or not its leading coefficients are zeros. -/
theorem optimize_ofSignal_toSignal (p : Poly) (hp : p.HasFiniteCoeffs) :
    ∃ q, ofSignal p.toSignal = .ok q ∧ Agree q.optimize p.optimize ∧
      ∀ c, p = concrete c → q.optimize.numEq p = true ∧ q.optimize.degree? = some c.degree := by
  obtain ⟨q, hq, hagree⟩ := exists_treeOf_toSignal hp
  refine ⟨q, ?_, hagree, ?_⟩
  · rw [ofSignal, Signal.lower_of_hasLerp_eq_false (hasLerp_toSignal p)]
    exact hq.ofLowered_eq
  · rintro c rfl
    -- The polynomial itself has nothing to fold.
    generalize q.optimize = folded at hagree ⊢
    cases hagree with
    | concrete h =>
      refine ⟨h.numEq fun a ha hn => ?_, congrArg some h.degree_eq⟩
      have hfinite := hp a ha
      rw [hn] at hfinite
      cases hfinite

/-- The polynomial `0t³ - 0t² + 2t - 0`. -/
def zeroLeading : Cubic := ⟨[.signedZero true, 1 + 1, .signedZero true, 0], by simp, by simp⟩

/-- The tree `noise * (0t³ - 0t² + 2t - 0) + huge * (huge * t + 1)`; its last product overflows. -/
def zeroLeadingTree : Poly :=
  let huge : Binary32 := .ofRank false 0x7f7fffff
  add (mul noise (concrete zeroLeading))
    (mul (concrete (Cubic.constant huge)) (concrete ⟨[1, huge], by simp, by simp⟩))

theorem optimize_ofSignal_toSignal_zeroLeading :
    zeroLeadingTree.HasFiniteCoeffs ∧
      (∃ q, ofSignal zeroLeadingTree.toSignal = .ok q ∧ Agree q.optimize zeroLeadingTree.optimize ∧
        q.optimize ≠ zeroLeadingTree.optimize) ∧
      ∃ q, ofSignal (concrete zeroLeading).toSignal = .ok q ∧
        q.optimize.numEq (concrete zeroLeading) = true ∧ q.optimize.degree? = some 3 := by
  have hc : (concrete zeroLeading).HasFiniteCoeffs := by simp [zeroLeading, HasFiniteCoeffs]; decide
  have hf : zeroLeadingTree.HasFiniteCoeffs := by
    refine ⟨⟨trivial, hc⟩, ?_⟩
    simp [HasFiniteCoeffs, Cubic.constant]
    decide
  obtain ⟨q, hq, hagree, -⟩ := optimize_ofSignal_toSignal zeroLeadingTree hf
  obtain ⟨q', hq', -, hvalue⟩ := optimize_ofSignal_toSignal (concrete zeroLeading) hc
  refine ⟨hf, ⟨q, hq, hagree, ?_⟩, q', hq', hvalue zeroLeading rfl⟩
  cases hq
  -- The negative zeros have become positive ones.
  decide +kernel

end Poly

end TimeSignal
