import TimeSignal.Proofs.Poly.Expansion
import Mathlib.Data.List.Nodup
import Mathlib.Data.List.Perm.Subperm
import Mathlib.Data.List.Permutation

/-!
# Sums and products of polynomials, coefficient by coefficient

Two polynomials have a sum, and they have a product if their degrees add up to at most three.  Each
coefficient of the product is a sum of products of coefficients, one for each pair of orders that
add up to its own.  Sums that are rounded depend on the order of their summands in general; but one
of the two factors has a degree of at most one, so there are two summands at most, and any order of
the pairs gives the same number.  For the same reason factors can be exchanged, and the product has
closed forms, one for each pair of degrees.

## Main definitions

* `Cubic.Enumerates`: a list of all pairs of orders that add up to a given one
* `Cubic.IsSum`, `Cubic.IsProduct`: sums and products, by degree and coefficients
* `Cubic.closedProduct?`: the closed forms of the product
* `Poly.combine?`: an operation on polynomials as one on trees
* `Poly.Reports`: a combination, or a fault that names the operation and the two shapes

## Main results

* `Cubic.isSum_iff`, `Cubic.isProduct_iff`: what sums and products are
* `Cubic.add_comm`, `Cubic.mul?_comm`: operands can be exchanged
* `Cubic.map_coeffs_mul?`: the closed forms give the product
* `Poly.algebra_table`: the combinations of trees are bounded polynomial arithmetic
-/

namespace TimeSignal

namespace Cubic

variable {p q r : Cubic}

/-! ## Polynomials by their coefficients -/

theorem length_coeffs (p : Cubic) : p.coeffs.length = p.degree + 1 := by
  have := p.length_pos
  unfold degree
  omega

/-- The degree and the coefficients up to it determine a polynomial. -/
theorem ext_coeff (hd : p.degree = q.degree) (h : ∀ i ≤ p.degree, p.coeff i = q.coeff i) :
    p = q := by
  have hlength : p.coeffs.length = q.coeffs.length := by
    rw [length_coeffs, length_coeffs, hd]
  have hcoeffs : p.coeffs = q.coeffs := by
    apply List.ext_getElem hlength
    intro i hp hq
    rw [← coeff_eq_getElem hp, ← coeff_eq_getElem hq]
    apply h
    rw [length_coeffs] at hp
    exact Nat.le_of_lt_succ hp
  cases p
  cases q
  congr

/-! ## Sums -/

/-- `r` is the sum of `p` and `q`: its degree is the larger one, and its coefficients are the sums
of theirs, which are zero above their degrees. -/
structure IsSum (p q r : Cubic) : Prop where
  /-- The degree. -/
  degree : r.degree = max p.degree q.degree
  /-- The coefficients. -/
  coeff (i : Nat) : i ≤ r.degree → r.coeff i = p.coeff i + q.coeff i

theorem isSum_add (p q : Cubic) : IsSum p q (p.add q) :=
  ⟨degree_add p q, fun i _ => coeff_of_add p q i⟩

theorem isSum_iff : IsSum p q r ↔ p.add q = r := by
  constructor
  · rintro ⟨hdegree, hcoeff⟩
    refine (ext_coeff (hdegree.trans (degree_add p q).symm) fun i hi => ?_).symm
    rw [hcoeff i hi, coeff_of_add]
  · rintro rfl
    exact isSum_add p q

theorem add_comm (p q : Cubic) : p.add q = q.add p := by
  apply isSum_iff.mp
  refine ⟨by rw [degree_add, Nat.max_comm], fun i _ => ?_⟩
  rw [coeff_of_add, Binary32.add_comm]

/-! ## Pairs of orders -/

/-- The list has each pair of orders of `p` and `q` that add up to `k`, once and in any order. -/
structure Enumerates (p q : Cubic) (k : Nat) (pairs : List (Nat × Nat)) : Prop where
  /-- No pair is listed twice. -/
  nodup : pairs.Nodup
  /-- The listed pairs are those that add up to `k`, within both degrees. -/
  mem_iff (i j : Nat) : (i, j) ∈ pairs ↔ i + j = k ∧ i ≤ p.degree ∧ j ≤ q.degree

/-- The products of the coefficients of the listed orders. -/
def products (p q : Cubic) (pairs : List (Nat × Nat)) : List Binary32 :=
  pairs.map fun (i, j) => p.coeff i * q.coeff j

/-- The pairs of orders that add up to `k`, by rising order of `p`. -/
def risingPairs (p q : Cubic) (k : Nat) : List (Nat × Nat) :=
  (List.range (k + 1)).filterMap fun i =>
    if i ≤ p.degree ∧ k - i ≤ q.degree then some (i, k - i) else none

theorem enumerates_risingPairs (p q : Cubic) (k : Nat) :
    Enumerates p q k (risingPairs p q k) := by
  constructor
  · refine List.Nodup.filterMap ?_ List.nodup_range
    intro i j pair hi hj
    split_ifs at hi hj <;> cases hi <;> cases hj
    rfl
  · intro i j
    simp only [risingPairs, List.mem_filterMap, List.mem_range]
    constructor
    · rintro ⟨a, ha, hpair⟩
      split_ifs at hpair with h
      cases hpair
      exact ⟨by omega, h⟩
    · rintro ⟨hk, hi, hj⟩
      obtain rfl : j = k - i := by omega
      exact ⟨i, by omega, if_pos ⟨hi, hj⟩⟩

theorem crossTerms_eq_products (p q : Cubic) (k : Nat) :
    crossTerms p q k = products p q (risingPairs p q k) := by
  rw [products, risingPairs, List.map_filterMap]
  apply List.filterMap_congr
  intro i _
  -- A pair is left out if either factor has no coefficient of its order.
  by_cases hi : i ≤ p.degree
  · have hp := getElem?_coeffs (p := p) (i := i) (by rw [length_coeffs]; omega)
    by_cases hj : k - i ≤ q.degree
    · have hq := getElem?_coeffs (p := q) (i := k - i) (by rw [length_coeffs]; omega)
      rw [hp, hq, if_pos ⟨hi, hj⟩]
      rfl
    · have hq : q.coeffs[k - i]? = none :=
        List.getElem?_eq_none (by rw [length_coeffs]; omega)
      rw [hp, hq, if_neg fun h => hj h.2]
      rfl
  · have hp : p.coeffs[i]? = none := List.getElem?_eq_none (by rw [length_coeffs]; omega)
    rw [hp, if_neg fun h => hi h.1]
    rfl

namespace Enumerates

variable {k : Nat} {pairs others : List (Nat × Nat)}

theorem perm (h : Enumerates p q k pairs) (h' : Enumerates p q k others) : pairs.Perm others := by
  rw [List.perm_ext_iff_of_nodup h.nodup h'.nodup]
  rintro ⟨i, j⟩
  rw [h.mem_iff, h'.mem_iff]

theorem swap (h : Enumerates p q k pairs) : Enumerates q p k (pairs.map Prod.swap) := by
  constructor
  · exact h.nodup.map Prod.swap_injective
  · intro i j
    have hswap : (i, j) ∈ pairs.map Prod.swap ↔ (j, i) ∈ pairs :=
      List.mem_map_of_injective Prod.swap_injective (a := (j, i))
    rw [hswap, h.mem_iff, Nat.add_comm, and_comm (a := j ≤ p.degree)]

/-- There are no more pairs than there are orders of the first factor ... -/
theorem length_le_left (h : Enumerates p q k pairs) : pairs.length ≤ p.degree + 1 := by
  -- The first order determines the second one, so the first orders differ as well.
  have hnodup : (pairs.map Prod.fst).Nodup := by
    refine List.Nodup.map_on ?_ h.nodup
    rintro ⟨i, j⟩ hij ⟨i', j'⟩ hij' rfl
    have hj := ((h.mem_iff _ _).mp hij).1
    have hj' := ((h.mem_iff _ _).mp hij').1
    simp only [Prod.mk.injEq, true_and] at hj hj' ⊢
    omega
  have hsub : pairs.map Prod.fst ⊆ List.range (p.degree + 1) := by
    intro i hi
    obtain ⟨⟨i, j⟩, hij, rfl⟩ := List.mem_map.mp hi
    exact List.mem_range.mpr (Nat.lt_succ_of_le ((h.mem_iff i j).mp hij).2.1)
  have hle := (List.subperm_of_subset hnodup hsub).length_le
  rwa [List.length_map, List.length_range] at hle

/-- ... or of the second one, so two at most if a product is defined. -/
theorem length_le_two (h : Enumerates p q k pairs) (hd : p.degree + q.degree ≤ 3) :
    pairs.length ≤ 2 := by
  have hp := h.length_le_left
  have hq := h.swap.length_le_left
  rw [List.length_map] at hq
  omega

end Enumerates

/-! ## Products -/

/-- The order of two summands does not matter. -/
theorem sumFromLeft_eq_of_perm {xs ys : List Binary32} (h : xs.Perm ys) (hl : xs.length ≤ 2) :
    sumFromLeft xs = sumFromLeft ys := by
  match xs, hl with
  | [], _ => rw [List.nil_perm.mp h]
  | [x], _ => rw [List.singleton_perm.mp h]
  | [x, y], _ =>
    rcases List.pair_perm.mp h with rfl | rfl
    · rfl
    · exact Binary32.add_comm x y

/-- The order of three summands does. -/
example : let huge : Binary32 := .ofRank false 0x7f7fffff
    sumFromLeft [huge, 1, -huge] ≠ sumFromLeft [huge, -huge, 1] := by
  decide +kernel

/-- Any order of the pairs gives the same sum of products. -/
theorem sumFromLeft_products_eq (hd : p.degree + q.degree ≤ 3) {k : Nat}
    {pairs others : List (Nat × Nat)} (h : Enumerates p q k pairs)
    (h' : Enumerates p q k others) :
    sumFromLeft (products p q pairs) = sumFromLeft (products p q others) := by
  apply sumFromLeft_eq_of_perm ((h.perm h').map _)
  rw [List.length_map]
  exact h.length_le_two hd

theorem products_swap (p q : Cubic) (pairs : List (Nat × Nat)) :
    products q p (pairs.map Prod.swap) = products p q pairs := by
  rw [products, List.map_map]
  exact List.map_congr_left fun _ _ => Binary32.mul_comm _ _

/-- `r` is the product of `p` and `q`: its degree is the sum of theirs, and each coefficient is the
sum of the products of their coefficients whose orders add up to its own, in whatever order these
are added. -/
structure IsProduct (p q r : Cubic) : Prop where
  /-- The degree. -/
  degree : r.degree = p.degree + q.degree
  /-- The coefficients. -/
  coeff (k : Nat) (pairs : List (Nat × Nat)) : k ≤ r.degree → Enumerates p q k pairs →
    r.coeff k = sumFromLeft (products p q pairs)

theorem isProduct_of_mul? (h : p.mul? q = some r) : IsProduct p q r := by
  have hdegree := degree_mul? h
  refine ⟨hdegree, fun k pairs _ hpairs => ?_⟩
  have hd : p.degree + q.degree ≤ 3 := hdegree ▸ r.degree_le
  rw [coeff_of_mul? h, crossTerms_eq_products]
  exact sumFromLeft_products_eq hd (enumerates_risingPairs p q k) hpairs

theorem IsProduct.symm (h : IsProduct p q r) : IsProduct q p r := by
  refine ⟨h.degree.trans (Nat.add_comm _ _), fun k pairs hk hpairs => ?_⟩
  rw [h.coeff k (pairs.map Prod.swap) hk hpairs.swap, products_swap]

theorem isProduct_iff : IsProduct p q r ↔ p.mul? q = some r := by
  constructor
  · intro h
    -- The product is defined, and has the degree and the coefficients of `r`.
    obtain ⟨s, hs⟩ := exists_mul? (p := p) (q := q) (h.degree ▸ r.degree_le)
    have hp := isProduct_of_mul? hs
    have hdegree := hp.degree.trans h.degree.symm
    rw [hs, ext_coeff hdegree fun k hk => ?_]
    have hpairs := enumerates_risingPairs p q k
    rw [hp.coeff k _ hk hpairs, h.coeff k _ (hdegree ▸ hk) hpairs]
  · exact isProduct_of_mul?

theorem mul?_comm (p q : Cubic) : p.mul? q = q.mul? p := by
  apply Option.ext
  intro r
  rw [← isProduct_iff, ← isProduct_iff]
  exact ⟨IsProduct.symm, IsProduct.symm⟩

/-! ## Closed forms of the product -/

/-- The coefficients of a product, written out for each pair of degrees. -/
def closedProduct? : List Binary32 → List Binary32 → Option (List Binary32)
  | [k], ys => some (ys.map (· * k))
  | xs, [k] => some (xs.map (· * k))
  | [x₀, x₁], [y₀, y₁] => some [x₀ * y₀, x₀ * y₁ + x₁ * y₀, x₁ * y₁]
  | [x₀, x₁], [y₀, y₁, y₂] | [y₀, y₁, y₂], [x₀, x₁] =>
    some [x₀ * y₀, x₀ * y₁ + x₁ * y₀, x₀ * y₂ + x₁ * y₁, x₁ * y₂]
  | _, _ => none

/-- A constant factor scales the coefficients. -/
theorem map_coeffs_constant_mul? (k : Binary32) (q : Cubic) :
    ((constant k).mul? q).map coeffs = some (q.coeffs.map (· * k)) := by
  -- Adding the degree of a constant changes nothing, so the product is always defined.
  have hdegree : (constant k).degree + q.degree = q.degree := Nat.zero_add _
  obtain ⟨r, hr⟩ := exists_mul? (hdegree ▸ q.degree_le)
  have hcoeffs : r.coeffs = q.coeffs.map (· * k) := by
    apply List.ext_getElem
    · rw [length_of_mul? hr, hdegree, List.length_map, length_coeffs]
    · intro i hi hi'
      rw [List.length_map] at hi'
      rw [List.getElem_map, ← coeff_eq_getElem, ← coeff_eq_getElem, coeff_constant_mul? hr hi',
        Binary32.mul_comm]
  rw [hr, Option.map_some, hcoeffs]

theorem map_coeffs_mul?_constant (p : Cubic) (k : Binary32) :
    (p.mul? (constant k)).map coeffs = some (p.coeffs.map (· * k)) := by
  rw [mul?_comm]
  exact map_coeffs_constant_mul? k p

/-- The cases of a polynomial by its degree. -/
theorem by_degree {motive : Cubic → Prop} (constant : ∀ a, motive (constant a))
    (linear : ∀ a b, motive ⟨[a, b], Nat.succ_pos _, Nat.le_of_ble_eq_true rfl⟩)
    (quadratic : ∀ a b c, motive ⟨[a, b, c], Nat.succ_pos _, Nat.le_of_ble_eq_true rfl⟩)
    (cubic : ∀ a b c d, motive ⟨[a, b, c, d], Nat.succ_pos _, Nat.le_of_ble_eq_true rfl⟩)
    (p : Cubic) : motive p := by
  obtain ⟨coeffs, hpos, hle⟩ := p
  match coeffs, hpos, hle with
  | [a], _, _ => exact constant a
  | [a, b], _, _ => exact linear a b
  | [a, b, c], _, _ => exact quadratic a b c
  | [a, b, c, d], _, _ => exact cubic a b c d

/-- **The closed forms give the product.** -/
theorem map_coeffs_mul? (p q : Cubic) :
    (p.mul? q).map coeffs = closedProduct? p.coeffs q.coeffs := by
  cases p using by_degree with
  | constant k => exact map_coeffs_constant_mul? k q
  | linear x₀ x₁ =>
    cases q using by_degree with
    | constant k => exact map_coeffs_mul?_constant _ k
    | linear | quadratic | cubic => rfl
  | quadratic x₀ x₁ x₂ =>
    cases q using by_degree with
    | constant k => exact map_coeffs_mul?_constant _ k
    | linear =>
      -- The closed form has the linear factor in front.
      rw [mul?_comm]
      rfl
    | quadratic | cubic => rfl
  | cubic x₀ x₁ x₂ x₃ =>
    cases q using by_degree with
    | constant k => exact map_coeffs_mul?_constant _ k
    | linear | quadratic | cubic => rfl

end Cubic

namespace Poly

variable {a b c : Poly}

/-! ## Combinations of trees -/

theorem concrete?_eq_some_iff {p : Cubic} : a.concrete? = some p ↔ a = concrete p := by
  cases a with
  | concrete q => rw [concrete?, Option.some_inj, concrete.injEq]
  | noise | add | mul => exact iff_of_false nofun nofun

/-- The combination of two trees that are single polynomials. -/
def combine? (op : Cubic → Cubic → Option Cubic) (a b : Poly) : Option Poly :=
  a.concrete?.bind fun p => b.concrete?.bind fun q => (op p q).map concrete

section Combine

variable {op : Cubic → Cubic → Option Cubic}

theorem combine?_eq_some_iff :
    combine? op a b = some c ↔
      ∃ p q r, a = concrete p ∧ b = concrete q ∧ c = concrete r ∧ op p q = some r := by
  simp only [combine?, Option.bind_eq_some_iff, Option.map_eq_some_iff, concrete?_eq_some_iff]
  constructor
  · rintro ⟨p, ha, q, hb, r, hr, rfl⟩
    exact ⟨p, q, r, ha, hb, rfl, hr⟩
  · rintro ⟨p, q, r, ha, hb, rfl, hr⟩
    exact ⟨p, ha, q, hb, r, hr, rfl⟩

theorem combine?_swap (h : ∀ p q, op p q = op q p) (hc : combine? op a b = some c) :
    combine? op b a = some c := by
  obtain ⟨p, q, r, ha, hb, hr, hop⟩ := combine?_eq_some_iff.mp hc
  exact combine?_eq_some_iff.mpr ⟨q, p, r, hb, ha, hr, h p q ▸ hop⟩

theorem combine?_comm (h : ∀ p q, op p q = op q p) (a b : Poly) :
    combine? op a b = combine? op b a :=
  Option.ext fun _ => ⟨combine?_swap h, combine?_swap h⟩

end Combine

theorem add?_eq_combine? (a b : Poly) :
    a.add? b = combine? (fun p q => some (p.add q)) a b := by
  cases a <;> cases b <;> rfl

theorem mul?_eq_combine? (a b : Poly) : a.mul? b = combine? Cubic.mul? a b := by
  cases a <;> cases b <;> rfl

theorem add?_eq_some_iff :
    a.add? b = some c ↔
      ∃ p q r, a = concrete p ∧ b = concrete q ∧ c = concrete r ∧ Cubic.IsSum p q r := by
  simp only [add?_eq_combine?, combine?_eq_some_iff, Option.some_inj, Cubic.isSum_iff]

theorem mul?_eq_some_iff :
    a.mul? b = some c ↔
      ∃ p q r, a = concrete p ∧ b = concrete q ∧ c = concrete r ∧ Cubic.IsProduct p q r := by
  simp only [mul?_eq_combine?, combine?_eq_some_iff, Cubic.isProduct_iff]

theorem add?_comm (a b : Poly) : a.add? b = b.add? a := by
  rw [add?_eq_combine?, add?_eq_combine?]
  exact combine?_comm (fun p q => congrArg some (Cubic.add_comm p q)) a b

theorem mul?_comm (a b : Poly) : a.mul? b = b.mul? a := by
  rw [mul?_eq_combine?, mul?_eq_combine?]
  exact combine?_comm Cubic.mul?_comm a b

theorem isSome_mul?_iff :
    (a.mul? b).isSome = true ↔ ∃ m n, a.degree? = some m ∧ b.degree? = some n ∧ m + n ≤ 3 := by
  constructor
  · intro h
    obtain ⟨c, hc⟩ := Option.isSome_iff_exists.mp h
    obtain ⟨p, q, r, rfl, rfl, rfl, hr⟩ := mul?_eq_some_iff.mp hc
    exact ⟨p.degree, q.degree, rfl, rfl, hr.degree ▸ r.degree_le⟩
  · rintro ⟨m, n, hm, hn, hle⟩
    obtain ⟨p, hp, rfl⟩ := Option.map_eq_some_iff.mp hm
    obtain ⟨q, hq, rfl⟩ := Option.map_eq_some_iff.mp hn
    rw [concrete?_eq_some_iff.mp hp, concrete?_eq_some_iff.mp hq, isSome_mul?]
    exact decide_eq_true hle

/-- The coefficients of a product of trees are given by the closed forms. -/
theorem coefficients?_mul? (a b : Poly) :
    (a.mul? b).bind coefficients? =
      a.coefficients?.bind fun xs => b.coefficients?.bind (Cubic.closedProduct? xs) := by
  cases a with
  | concrete p =>
    cases b with
    | concrete q =>
      calc ((p.mul? q).map concrete).bind coefficients?
          = (p.mul? q).map Cubic.coeffs := by cases p.mul? q <;> rfl
        _ = Cubic.closedProduct? p.coeffs q.coeffs := Cubic.map_coeffs_mul? p q
    | noise | add | mul => rfl
  | noise | add | mul => rfl

/-! ## Faults -/

/-- The result is the combination of `a` and `b`, where there is one, and otherwise a fault that
names the operation and the shapes of both. -/
structure Reports (operation : String) (a b : Poly) (combination : Option Poly)
    (result : Except Fault Poly) : Prop where
  /-- The combination is returned. -/
  ok_iff (c : Poly) : result = .ok c ↔ combination = some c
  /-- Operands without a combination are refused. -/
  error_iff (fault : Fault) : result = .error fault ↔ combination = none ∧
    fault = .unsupported
      (operation ++ " is not defined for " ++ a.shapeName ++ " and " ++ b.shapeName)

theorem reports_of_eq {operation : String} {combination : Option Poly}
    {result : Except Undefined Poly}
    (h : result = match combination with
      | some c => .ok c
      | none => .error ⟨operation, a.shapeName, b.shapeName⟩) :
    Reports operation a b combination (result.mapError Undefined.toFault) := by
  subst h
  cases combination with
  | some c => exact ⟨fun c' => by simp [Except.mapError], fun fault => by simp [Except.mapError]⟩
  | none =>
    refine ⟨fun c => by simp [Except.mapError], fun fault => ?_⟩
    simp [Except.mapError, Undefined.toFault, eq_comm]

theorem reports_combineAdd (a b : Poly) :
    Reports "add" a b (a.add? b) ((a.combineAdd b).mapError Undefined.toFault) :=
  reports_of_eq rfl

theorem reports_combineMul (a b : Poly) :
    Reports "multiply" a b (a.mul? b) ((a.combineMul b).mapError Undefined.toFault) :=
  reports_of_eq rfl

/-- **The combinations of trees are bounded polynomial arithmetic.**  A sum is defined for any two
single polynomials, and a product for two whose degrees add up to at most three.  Sums add the
coefficients of each order; products add up the products of all coefficients whose orders add up to
the given one, as the closed forms do.  Operands can be exchanged, and undefined combinations are
reported with the shapes of both operands. -/
theorem algebra_table (a b : Poly) :
    ((a.add? b).isSome = true ↔ a.isConcrete = true ∧ b.isConcrete = true) ∧
      (∀ c, a.add? b = some c ↔
        ∃ p q r, a = concrete p ∧ b = concrete q ∧ c = concrete r ∧ Cubic.IsSum p q r) ∧
      ((a.mul? b).isSome = true ↔
        ∃ m n, a.degree? = some m ∧ b.degree? = some n ∧ m + n ≤ 3) ∧
      (∀ c, a.mul? b = some c ↔
        ∃ p q r, a = concrete p ∧ b = concrete q ∧ c = concrete r ∧ Cubic.IsProduct p q r) ∧
      ((a.mul? b).bind coefficients? =
        a.coefficients?.bind fun xs => b.coefficients?.bind (Cubic.closedProduct? xs)) ∧
      (a.add? b = b.add? a ∧ a.mul? b = b.mul? a) ∧
      Reports "add" a b (a.add? b) ((a.combineAdd b).mapError Undefined.toFault) ∧
      Reports "multiply" a b (a.mul? b) ((a.combineMul b).mapError Undefined.toFault) := by
  refine ⟨?_, fun _ => add?_eq_some_iff, isSome_mul?_iff, fun _ => mul?_eq_some_iff,
    coefficients?_mul? a b, ⟨add?_comm a b, mul?_comm a b⟩, reports_combineAdd a b,
    reports_combineMul a b⟩
  rw [isSome_add?, Bool.and_eq_true]

end Poly

end TimeSignal
