import TimeSignal.Proofs.Poly.Optimize
import TimeSignal.Proofs.Signal.Value

/-!
# Simplifying a signal keeps its exact value

A signal and its polynomial tree, and a tree and the signal that it is written out as, have the same
noise leaves in the same order and the same exact value.  With the optimizer between the two
conversions this makes simplification exact, wherever no operation on coefficients rounds.

## Main definitions

* `Poly.TreeOf`: a tree that repeats a signal node by node

## Main results

* `Poly.exists_treeOf`, `Poly.TreeOf.ofLowered_eq`: a signal without blends has such a tree, and the
  conversion returns it
* `Poly.TreeOf.draws_eq`, `Poly.TreeOf.value_eq`: the tree of a signal
* `Poly.draws_toSignal`, `Poly.value_toSignal`: the signal of a tree
* `Poly.toSignal_expansion`: writing a tree out as a signal keeps the exact value
* `Signal.value_simplify`: simplification keeps the exact value
-/

namespace TimeSignal

namespace Cubic

theorem value_identity (t : ℚ) : identity.value t = t := by
  simp [value, identity, coeff, Finset.sum_range_succ, Binary32.toRat_one]

theorem value_constant (a : Binary32) (t : ℚ) : (constant a).value t = a.toRat := by
  simp [value, constant, coeff]

end Cubic

namespace Poly

/-! ## The tree of a signal -/

/-- A tree repeats a signal without blends node by node. -/
inductive TreeOf : Signal → Poly → Prop
  /-- The time is a polynomial of degree one. -/
  | time : TreeOf .time (concrete Cubic.identity)
  /-- Noise is noise. -/
  | noise : TreeOf .noise noise
  /-- A constant is a polynomial of degree zero. -/
  | const (a : Binary32) : TreeOf (.const a) (concrete (Cubic.constant a))
  /-- A sum is a sum that has not been carried out. -/
  | add {l r : Signal} {p q : Poly} : TreeOf l p → TreeOf r q → TreeOf (.add l r) (add p q)
  /-- A product is a product that has not been carried out. -/
  | mul {l r : Signal} {p q : Poly} : TreeOf l p → TreeOf r q → TreeOf (.mul l r) (mul p q)

theorem exists_treeOf {e : Signal} (h : e.hasLerp = false) : ∃ p, TreeOf e p := by
  induction e with
  | time => exact ⟨_, .time⟩
  | noise => exact ⟨_, .noise⟩
  | const a => exact ⟨_, .const a⟩
  | add l r ihl ihr =>
    rw [Signal.hasLerp, Bool.or_eq_false_iff] at h
    obtain ⟨p, hp⟩ := ihl h.1
    obtain ⟨q, hq⟩ := ihr h.2
    exact ⟨_, hp.add hq⟩
  | mul l r ihl ihr =>
    rw [Signal.hasLerp, Bool.or_eq_false_iff] at h
    obtain ⟨p, hp⟩ := ihl h.1
    obtain ⟨q, hq⟩ := ihr h.2
    exact ⟨_, hp.mul hq⟩
  | lerp => cases h

namespace TreeOf

variable {e : Signal} {p : Poly}

theorem ofLowered_eq (h : TreeOf e p) : ofLowered e = .ok p := by
  induction h with
  | time | noise | const => rfl
  | add _ _ ihl ihr | mul _ _ ihl ihr =>
    rw [ofLowered, ihl, ihr]
    rfl

theorem draws_eq (h : TreeOf e p) : p.draws = e.draws := by
  induction h with
  | time | noise | const => rfl
  | add _ _ ihl ihr | mul _ _ ihl ihr => rw [draws, Signal.draws, ihl, ihr]

theorem value_eq (h : TreeOf e p) (t : ℚ) (d : List ℚ) : p.value t d = e.value t d := by
  -- Both sides share their draws out alike, since the operands have equally many.
  induction h generalizing d with
  | time => exact Cubic.value_identity t
  | noise => rfl
  | const a => exact Cubic.value_constant a t
  | add hl _ ihl ihr | mul hl _ ihl ihr =>
    rw [value, Signal.value, hl.draws_eq, ihl, ihr]

theorem hasFiniteCoeffs (h : TreeOf e p) (hf : e.HasFiniteConsts) : p.HasFiniteCoeffs := by
  induction h with
  | time =>
    intro a ha
    rcases List.mem_pair.mp ha with rfl | rfl <;> rfl
  | noise => exact trivial
  | const a =>
    intro b hb
    rw [List.mem_singleton.mp hb]
    exact Signal.hasFiniteConsts_const.mp hf
  | add _ _ ihl ihr =>
    rw [Signal.hasFiniteConsts_add] at hf
    exact ⟨ihl hf.1, ihr hf.2⟩
  | mul _ _ ihl ihr =>
    rw [Signal.hasFiniteConsts_mul] at hf
    exact ⟨ihl hf.1, ihr hf.2⟩

end TreeOf

/-! ## The signal of a tree -/

theorem draws_power (n : Nat) : (power n).draws = 0 := by
  induction n with
  | zero => rfl
  | succ n ih => rw [power, Signal.draws, Signal.draws, ih]

theorem value_power (n : Nat) (t : ℚ) (d : List ℚ) : (power n).value t d = t ^ (n + 1) := by
  induction n generalizing d with
  | zero => exact (pow_one t).symm
  | succ n ih => rw [power, Signal.value, Signal.value, ih, pow_succ' t (n + 1)]

theorem hasLerp_power (n : Nat) : (power n).hasLerp = false := by
  induction n with
  | zero => rfl
  | succ n ih => rw [power, Signal.hasLerp, Signal.hasLerp, ih, Bool.or_false]

theorem hasFiniteConsts_power (n : Nat) : (power n).HasFiniteConsts := by
  induction n with
  | zero => exact Signal.hasFiniteConsts_time
  | succ n ih => exact Signal.hasFiniteConsts_mul.mpr ⟨Signal.hasFiniteConsts_time, ih⟩

theorem draws_monomials (coeffs : List Binary32) : (monomials coeffs).draws = 0 := by
  fun_induction monomials coeffs with
  | case1 => rfl
  | case2 => rfl
  | case3 a b rest ih => rw [Signal.draws, Signal.draws, Signal.draws, draws_power, ih]

/-- The monomials add up to the polynomial whose coefficients are listed from the highest down. -/
theorem value_monomials (coeffs : List Binary32) (t : ℚ) (d : List ℚ) :
    (monomials coeffs).value t d =
      ∑ i ∈ Finset.range coeffs.length, (coeffs.reverse.getD i 0).toRat * t ^ i := by
  fun_induction monomials coeffs generalizing d with
  | case1 => exact Binary32.toRat_zero
  | case2 a => simp [Signal.value]
  | case3 a b rest ih =>
    -- The first coefficient listed is the last of the sum, and the others stay where they are.
    have hlast : ((a :: b :: rest).reverse.getD (rest.length + 1) 0) = a := by
      rw [List.reverse_cons, List.getD_append_right _ _ _ _ (by simp), List.length_reverse,
        List.length_cons, Nat.sub_self]
      rfl
    have hrest : ∀ i ∈ Finset.range (rest.length + 1),
        (a :: b :: rest).reverse.getD i 0 = (b :: rest).reverse.getD i 0 := by
      intro i hi
      rw [List.reverse_cons, List.getD_append]
      rw [List.length_reverse, List.length_cons]
      exact Finset.mem_range.mp hi
    rw [Signal.value, Signal.value, Signal.value, value_power, ih]
    calc a.toRat * t ^ (rest.length + 1) +
          ∑ i ∈ Finset.range (rest.length + 1), ((b :: rest).reverse.getD i 0).toRat * t ^ i
        = ∑ i ∈ Finset.range (rest.length + 1), ((a :: b :: rest).reverse.getD i 0).toRat * t ^ i +
            ((a :: b :: rest).reverse.getD (rest.length + 1) 0).toRat * t ^ (rest.length + 1) := by
          rw [hlast, add_comm]
          congr 1
          exact Finset.sum_congr rfl fun i hi => by rw [hrest i hi]
      _ = ∑ i ∈ Finset.range (rest.length + 2),
            ((a :: b :: rest).reverse.getD i 0).toRat * t ^ i := (Finset.sum_range_succ ..).symm

theorem draws_toSignal (p : Poly) : p.toSignal.draws = p.draws := by
  induction p with
  | concrete c => exact draws_monomials _
  | noise => rfl
  | add l r ihl ihr | mul l r ihl ihr => rw [toSignal, Signal.draws, ihl, ihr, draws]

theorem value_toSignal (p : Poly) (t : ℚ) (d : List ℚ) : p.toSignal.value t d = p.value t d := by
  induction p generalizing d with
  | concrete c =>
    rw [toSignal, value_monomials, List.reverse_reverse, List.length_reverse]
    rfl
  | noise => rfl
  | add l r ihl ihr | mul l r ihl ihr =>
    rw [toSignal, Signal.value, draws_toSignal, ihl, ihr, value]

theorem hasLerp_monomials (coeffs : List Binary32) : (monomials coeffs).hasLerp = false := by
  fun_induction monomials coeffs with
  | case1 => rfl
  | case2 => rfl
  | case3 a b rest ih =>
    rw [Signal.hasLerp, Signal.hasLerp, Signal.hasLerp, hasLerp_power, ih]
    rfl

theorem hasLerp_toSignal (p : Poly) : p.toSignal.hasLerp = false := by
  induction p with
  | concrete c => exact hasLerp_monomials _
  | noise => rfl
  | add l r ihl ihr | mul l r ihl ihr =>
    rw [toSignal, Signal.hasLerp, ihl, ihr]
    rfl

theorem hasFiniteConsts_monomials {coeffs : List Binary32}
    (h : ∀ a ∈ coeffs, a.isFinite = true) : (monomials coeffs).HasFiniteConsts := by
  fun_induction monomials coeffs with
  | case1 => exact Signal.hasFiniteConsts_const.mpr rfl
  | case2 a => exact Signal.hasFiniteConsts_const.mpr (h a (List.mem_cons_self ..))
  | case3 a b rest ih =>
    rw [Signal.hasFiniteConsts_add, Signal.hasFiniteConsts_mul, Signal.hasFiniteConsts_const]
    exact ⟨⟨h a (List.mem_cons_self ..), hasFiniteConsts_power _⟩,
      ih fun x hx => h x (List.mem_cons_of_mem _ hx)⟩

theorem hasFiniteConsts_toSignal {p : Poly} (h : p.HasFiniteCoeffs) :
    p.toSignal.HasFiniteConsts := by
  induction p with
  | concrete c => exact hasFiniteConsts_monomials fun a ha => h a (List.mem_reverse.mp ha)
  | noise => exact Signal.hasFiniteConsts_noise
  | add l r ihl ihr => exact Signal.hasFiniteConsts_add.mpr ⟨ihl h.1, ihr h.2⟩
  | mul l r ihl ihr => exact Signal.hasFiniteConsts_mul.mpr ⟨ihl h.1, ihr h.2⟩

/-- **Expanding a tree keeps exact values.**  The signal of a tree with finite coefficients has
finite constants, no blends and as many noise leaves as the tree, and it has the same exact value at
every time for all values of these leaves.  No operation of the expansion can round. -/
theorem toSignal_expansion (p : Poly) (hp : p.HasFiniteCoeffs) :
    p.toSignal.hasLerp = false ∧ p.toSignal.HasFiniteConsts ∧ p.toSignal.draws = p.draws ∧
      ∀ (t : ℚ) (d : List ℚ), p.toSignal.value t d = p.value t d :=
  ⟨hasLerp_toSignal p, hasFiniteConsts_toSignal hp, draws_toSignal p, value_toSignal p⟩

/-- The tree `noise * (t³ - t + 1) + noise`. -/
def noisyCubicTree : Poly :=
  add (mul noise (concrete ⟨[1, -1, 0, 1], by simp, by simp⟩)) noise

theorem toSignal_expansion_noisyCubicTree :
    noisyCubicTree.HasFiniteCoeffs ∧ noisyCubicTree.toSignal.draws = 2 ∧
      noisyCubicTree.toSignal.value (1 / 2) [1 / 2, 1 / 4] = 9 / 16 := by
  have hf : noisyCubicTree.HasFiniteCoeffs := by decide +kernel
  obtain ⟨-, -, hdraws, hvalue⟩ := toSignal_expansion noisyCubicTree hf
  refine ⟨hf, hdraws, ?_⟩
  rw [hvalue]
  norm_num [noisyCubicTree, value, draws, Cubic.value, Cubic.coeff, Finset.sum_range_succ,
    Binary32.toRat_one, Binary32.toRat_neg]

end Poly

namespace Signal

/-- **Simplification keeps exact values.**  If the constants of a signal are finite, no weight of a
blend has noise and no operation of the optimizer rounds, then the signal is simplified to one
without blends, with finite constants and as many noise leaves, which has the same exact value at
every time for all values of these leaves. -/
theorem value_simplify (e : Signal) (hf : e.HasFiniteConsts) (hw : e.HasNoiseFreeWeights)
    (h : ∀ tree, Poly.ofSignal e = .ok tree → ∀ o ∈ tree.optimizeOperations, o.IsExact) :
    ∃ w, e.simplify = .ok w ∧ w.hasLerp = false ∧ w.HasFiniteConsts ∧ w.draws = e.draws ∧
      ∀ (t : ℚ) (d : List ℚ), d.length = e.draws → w.value t d = e.value t d := by
  obtain ⟨tree, htree⟩ := Poly.exists_treeOf e.hasLerp_lower
  have hok : Poly.ofSignal e = .ok tree := htree.ofLowered_eq
  have hdraws : tree.draws = e.draws := htree.draws_eq.trans (draws_lower hw)
  obtain ⟨hfinite, hsame, hvalue⟩ :=
    Poly.sameValue_optimize (htree.hasFiniteCoeffs (hasFiniteConsts_lower hf)) (h tree hok)
  refine ⟨tree.optimize.toSignal, ?_, Poly.hasLerp_toSignal _,
    Poly.hasFiniteConsts_toSignal hfinite, ?_, fun t d hd => ?_⟩
  · rw [simplify, hok]
    rfl
  · rw [Poly.draws_toSignal, hsame, hdraws]
  · calc tree.optimize.toSignal.value t d
        = tree.optimize.value t d := Poly.value_toSignal _ t d
      _ = tree.value t d := hvalue t d (hd.trans hdraws.symm)
      _ = e.lower.value t d := htree.value_eq t d
      _ = e.value t d := value_lower hw t d

/-- The blend of `t + noise` and `t * t` by the weight `t / 2`. -/
def halfTimeBlend : Signal :=
  lerp (add time noise) (mul time time) (mul (const Binary32.half) time)

theorem value_simplify_halfTimeBlend :
    halfTimeBlend.HasFiniteConsts ∧ halfTimeBlend.HasNoiseFreeWeights ∧
      (∀ tree, Poly.ofSignal halfTimeBlend = .ok tree →
        ∀ o ∈ tree.optimizeOperations, o.IsExact) ∧
      ∃ w, halfTimeBlend.simplify = .ok w ∧ w.hasLerp = false ∧ w.draws = 1 ∧
        w.value 3 [1 / 4] = halfTimeBlend.value 3 [1 / 4] := by
  have hf : halfTimeBlend.HasFiniteConsts := by
    unfold HasFiniteConsts
    decide
  have hw : halfTimeBlend.HasNoiseFreeWeights := by
    simp [halfTimeBlend, HasNoiseFreeWeights, hasNoise]
  have hex : ∀ tree, Poly.ofSignal halfTimeBlend = .ok tree →
      ∀ o ∈ tree.optimizeOperations, o.IsExact := by
    intro tree ht
    cases ht
    decide +kernel
  obtain ⟨w, hok, hl, -, hd, hv⟩ := value_simplify halfTimeBlend hf hw hex
  exact ⟨hf, hw, hex, w, hok, hl, hd, hv 3 [1 / 4] rfl⟩

end Signal

end TimeSignal
