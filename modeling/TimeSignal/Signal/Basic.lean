import TimeSignal.Binary32.Order

/-!
# Signals

A signal is a scalar function of one time, given by an expression: time itself, uniform noise,
constants, sums, products and linear blends.

## Main definitions

* `Signal`: the expressions.
* `Signal.sub`: differences, as sums with a product by `-1`.
* `Signal.size`, `Signal.hasNoise`, `Signal.hasLerp`: what an expression is made of.
* `Signal.numEq`: equality of shape, with constants compared by value.
-/

namespace TimeSignal

/-- An expression for a scalar function of time. -/
inductive Signal where
  /-- The time. -/
  | time
  /-- A fresh uniform draw in `[0, 1)` at every evaluation. -/
  | noise
  /-- A constant. -/
  | const (value : Binary32)
  /-- The sum. -/
  | add (left right : Signal)
  /-- The product. -/
  | mul (left right : Signal)
  /-- The blend `(1 - weight) * start + weight * stop`. -/
  | lerp (start stop weight : Signal)
deriving DecidableEq, Inhabited

namespace Signal

instance : Add Signal := ⟨add⟩

instance : Mul Signal := ⟨mul⟩

instance : Coe Binary32 Signal := ⟨const⟩

/-- The difference, expressed as `left + (-1) * right`. -/
def sub (left right : Signal) : Signal := add left (mul (const (-1)) right)

instance : Sub Signal := ⟨sub⟩

/-- The number of nodes. -/
def size : Signal → Nat
  | time | noise | const _ => 1
  | add l r | mul l r => 1 + l.size + r.size
  | lerp x y s => 1 + x.size + y.size + s.size

/-- Some node is noise. -/
def hasNoise : Signal → Bool
  | noise => true
  | time | const _ => false
  | add l r | mul l r => l.hasNoise || r.hasNoise
  | lerp x y s => x.hasNoise || y.hasNoise || s.hasNoise

/-- Some node is a blend. -/
def hasLerp : Signal → Bool
  | time | noise | const _ => false
  | add l r | mul l r => l.hasLerp || r.hasLerp
  | lerp _ _ _ => true

/-- Equality of shape, with constants compared by value: the two zeros are equal, and `nan` differs
from everything. -/
def numEq : Signal → Signal → Bool
  | time, time => true
  | noise, noise => true
  | const a, const b => a.numEq b
  | add l r, add l' r' => l.numEq l' && r.numEq r'
  | mul l r, mul l' r' => l.numEq l' && r.numEq r'
  | lerp x y s, lerp x' y' s' => x.numEq x' && y.numEq y' && s.numEq s'
  | _, _ => false

theorem size_pos (e : Signal) : 0 < e.size := by
  cases e <;> simp only [size] <;> omega

end Signal

end TimeSignal
