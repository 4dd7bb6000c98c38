import TimeSignal.Poly.Optimize
import TimeSignal.Signal.Lower

/-!
# Polynomial trees of signals

A signal without blends is a polynomial tree, node by node; a polynomial is written out as a signal
by its monomials.

## Main definitions

* `Poly.ofLowered`: the tree of a signal without blends.
* `Poly.ofSignal`: the tree of a signal, whose blends are lowered first.
* `Poly.toSignal`: the signal of a tree, with polynomials expanded into monomials.
* `Signal.simplify`: a signal folded through its polynomial tree.

## Main results

* `Poly.exists_ofSignal`: no signal is refused.
-/

namespace TimeSignal

/-- Why a signal has no polynomial tree. -/
inductive Poly.ConversionError where
  /-- A blend has not been lowered. -/
  | blendNotLowered
deriving DecidableEq

namespace Poly

/-- A refused conversion as a fault. -/
def ConversionError.toFault : ConversionError → Fault
  | .blendNotLowered => .invariant "lerp reached polynomial conversion; lower the tree first"

/-- The tree of a signal without blends, node by node. -/
def ofLowered : Signal → Except ConversionError Poly
  | .time => .ok (concrete Cubic.identity)
  | .noise => .ok noise
  | .const value => .ok (concrete (Cubic.constant value))
  | .add l r => do
    let left ← ofLowered l
    let right ← ofLowered r
    .ok (add left right)
  | .mul l r => do
    let left ← ofLowered l
    let right ← ofLowered r
    .ok (mul left right)
  | .lerp _ _ _ => .error .blendNotLowered

/-- The tree of a signal.  Sums and products are not combined. -/
def ofSignal (e : Signal) : Except ConversionError Poly := ofLowered e.lower

/-- The power `t · (t · …)` of order `n + 1`. -/
def power : Nat → Signal
  | 0 => .time
  | n + 1 => .mul .time (power n)

/-- The monomials of a list of coefficients, highest order first, added up from the highest. -/
def monomials : List Binary32 → Signal
  | [] => .const 0
  | [a] => .const a
  | a :: b :: rest => .add (.mul (.const a) (power rest.length)) (monomials (b :: rest))

/-- The signal of a tree: each polynomial as `aₙ · tⁿ + (… + a₀)`. -/
def toSignal : Poly → Signal
  | concrete p => monomials p.coeffs.reverse
  | noise => .noise
  | add l r => .add l.toSignal r.toSignal
  | mul l r => .mul l.toSignal r.toSignal

theorem exists_ofLowered_of_hasLerp_eq_false (e : Signal) (h : e.hasLerp = false) :
    ∃ p, ofLowered e = .ok p := by
  induction e with
  | time | noise | const => exact ⟨_, rfl⟩
  | add l r ihl ihr | mul l r ihl ihr =>
    simp only [Signal.hasLerp, Bool.or_eq_false_iff] at h
    obtain ⟨p, hp⟩ := ihl h.1
    obtain ⟨q, hq⟩ := ihr h.2
    exact ⟨_, by simp only [ofLowered, hp, hq]; rfl⟩
  | lerp => simp [Signal.hasLerp] at h

theorem exists_ofSignal (e : Signal) : ∃ p, ofSignal e = .ok p :=
  exists_ofLowered_of_hasLerp_eq_false e.lower e.hasLerp_lower

end Poly

namespace Signal

/-- The signal folded through its polynomial tree and written out again. -/
def simplify (e : Signal) : Except Poly.ConversionError Signal := do
  let tree ← Poly.ofSignal e
  .ok tree.optimize.toSignal

end Signal

end TimeSignal
