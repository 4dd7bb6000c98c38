import TimeSignal.Poly.Cubic

/-!
# Polynomial trees

A polynomial tree is a sum or product tree over polynomials of degree at most three and noise.

## Main definitions

* `Poly`: the trees.
* `Poly.concrete?`: the polynomial of a tree that is one.
* `Poly.shapeName`: the name of a node's kind.
* `Poly.numEq`, `Poly.approxEq`: equality by value, and within a tolerance.
* `Poly.foldM`, `Poly.visits`: the fold of a tree, and the nodes in the order of its visits.
-/

namespace TimeSignal

/-- A tree of sums and products over polynomials of degree at most three and noise. -/
inductive Poly where
  /-- A polynomial of the time. -/
  | concrete (cubic : Cubic)
  /-- A fresh uniform draw in `[0, 1)`. -/
  | noise
  /-- A sum that has not been carried out. -/
  | add (left right : Poly)
  /-- A product that has not been carried out. -/
  | mul (left right : Poly)
deriving DecidableEq

namespace Poly

instance : Inhabited Poly := ⟨noise⟩

/-- The tree of a single polynomial with the given coefficients, if there are one to four. -/
def ofCoefficients? (coeffs : List Binary32) : Option Poly :=
  (Cubic.ofList? coeffs).map concrete

/-- The polynomial of a tree that is a single one. -/
def concrete? : Poly → Option Cubic
  | concrete p => some p
  | _ => none

/-- The tree is a single polynomial. -/
def isConcrete (p : Poly) : Bool := p.concrete?.isSome

/-- The degree of a tree that is a single polynomial. -/
def degree? (p : Poly) : Option Nat := p.concrete?.map Cubic.degree

/-- The coefficients of a tree that is a single polynomial. -/
def coefficients? (p : Poly) : Option (List Binary32) := p.concrete?.map Cubic.coeffs

/-- The value of a tree that is a single polynomial. -/
def valueAt? (p : Poly) (t : Binary32) : Option Binary32 := p.concrete?.map fun c => c.valueAt t

/-- The name of a node's kind. -/
def shapeName : Poly → String
  | concrete p => "degree" ++ toString p.degree
  | noise => "random"
  | add _ _ => "add"
  | mul _ _ => "multiply"

/-- Equality of shape, with coefficients compared by value. -/
def numEq : Poly → Poly → Bool
  | concrete p, concrete q => p.numEq q
  | noise, noise => true
  | add l r, add l' r' => l.numEq l' && r.numEq r'
  | mul l r, mul l' r' => l.numEq l' && r.numEq r'
  | _, _ => false

/-- Two polynomials agree within a tolerance; trees of other kinds agree if they are equal by
value. -/
def approxEq (p q : Poly) (eps : Binary32) : Bool :=
  match p, q with
  | concrete a, concrete b => a.approxEq b eps
  | p, q => p.numEq q

/-! ## Folding -/

/-- What a fold does at each kind of node, given the node and the results for its operands. -/
structure Steps (m : Type → Type) (α : Type) where
  /-- The step at a polynomial. -/
  concrete : Poly → Cubic → m α
  /-- The step at noise. -/
  noise : Poly → m α
  /-- The step at a sum. -/
  add : Poly → α → α → m α
  /-- The step at a product. -/
  mul : Poly → α → α → m α

/-- The fold of a tree: operands from left to right, then the node itself. -/
def foldM {m : Type → Type} [Monad m] {α : Type} (steps : Steps m α) : Poly → m α
  | concrete p => steps.concrete (concrete p) p
  | noise => steps.noise noise
  | add l r => do
    let a ← foldM steps l
    let b ← foldM steps r
    steps.add (add l r) a b
  | mul l r => do
    let a ← foldM steps l
    let b ← foldM steps r
    steps.mul (mul l r) a b

/-- Records the visit of a node. -/
def record (p : Poly) : StateM (List Poly) Unit := modify (· ++ [p])

/-- The steps that record each visited node. -/
def recordSteps : Steps (StateM (List Poly)) Unit where
  concrete p _ := record p
  noise := record
  add p _ _ := record p
  mul p _ _ := record p

/-- The nodes in the order in which a fold visits them. -/
def visits (p : Poly) : List Poly := ((foldM recordSteps p).run []).2

end Poly

end TimeSignal
