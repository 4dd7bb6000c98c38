import TimeSignal.Poly.Cubic
import TimeSignal.Signal.Eval

/-!
# Samplers

A sampler is a signal made ready for evaluation at many times: polynomials are evaluated by nested
products, and four times can be evaluated at once.

## Main definitions

* `Sampler`: the evaluators.
* `Sampler.sample`: the value at one time.
* `Lanes`, `Sampler.sample4`: the values at four times.  Noise draws once for each lane, lane by
  lane, before the next node is evaluated.
* `Sampler.retimed`: a sampler on a scaled and shifted time.
-/

namespace TimeSignal

/-- Four values side by side. -/
structure Lanes where
  /-- The first lane. -/
  first : Binary32
  /-- The second lane. -/
  second : Binary32
  /-- The third lane. -/
  third : Binary32
  /-- The fourth lane. -/
  fourth : Binary32
deriving DecidableEq

namespace Lanes

/-- The same value in all lanes. -/
def replicate (x : Binary32) : Lanes := ⟨x, x, x, x⟩

/-- A function applied in each lane. -/
def map (f : Binary32 → Binary32) (a : Lanes) : Lanes :=
  ⟨f a.first, f a.second, f a.third, f a.fourth⟩

/-- A function of two values applied in each lane. -/
def map₂ (f : Binary32 → Binary32 → Binary32) (a b : Lanes) : Lanes :=
  ⟨f a.first b.first, f a.second b.second, f a.third b.third, f a.fourth b.fourth⟩

/-- A function of three values applied in each lane. -/
def map₃ (f : Binary32 → Binary32 → Binary32 → Binary32) (a b c : Lanes) : Lanes :=
  ⟨f a.first b.first c.first, f a.second b.second c.second, f a.third b.third c.third,
    f a.fourth b.fourth c.fourth⟩

/-- The value in lane `i`. -/
def get (a : Lanes) (i : Fin 4) : Binary32 :=
  match i with
  | 0 => a.first
  | 1 => a.second
  | 2 => a.third
  | 3 => a.fourth

@[simp] theorem get_replicate (x : Binary32) (i : Fin 4) : (replicate x).get i = x := by
  unfold get
  split <;> rfl

@[simp] theorem get_map (f : Binary32 → Binary32) (a : Lanes) (i : Fin 4) :
    (a.map f).get i = f (a.get i) := by
  unfold get
  split <;> rfl

@[simp] theorem get_map₂ (f : Binary32 → Binary32 → Binary32) (a b : Lanes) (i : Fin 4) :
    (map₂ f a b).get i = f (a.get i) (b.get i) := by
  unfold get
  split <;> rfl

@[simp] theorem get_map₃ (f : Binary32 → Binary32 → Binary32 → Binary32) (a b c : Lanes)
    (i : Fin 4) : (map₃ f a b c).get i = f (a.get i) (b.get i) (c.get i) := by
  unfold get
  split <;> rfl

/-- The lanes in order. -/
def toList (a : Lanes) : List Binary32 := [a.first, a.second, a.third, a.fourth]

/-- One draw for each lane, in order. -/
def draw {σ : Type} [DrawSource σ] : StateM σ Lanes := do
  let first ← DrawSource.draw
  let second ← DrawSource.draw
  let third ← DrawSource.draw
  let fourth ← DrawSource.draw
  pure ⟨first, second, third, fourth⟩

end Lanes

/-- An evaluator for a scalar function of time. -/
inductive Sampler where
  /-- A polynomial of the time. -/
  | cubic (polynomial : Cubic)
  /-- A fresh uniform draw in `[0, 1)` at every evaluation. -/
  | noise
  /-- The sum; the left operand is evaluated first. -/
  | add (left right : Sampler)
  /-- The product; the left operand is evaluated first. -/
  | mul (left right : Sampler)
  /-- The blend `(1 - weight) * start + weight * stop`; the weight is evaluated first. -/
  | lerp (start stop weight : Sampler)
  /-- The inner evaluator at `t * scale + offset`. -/
  | retime (scale offset : Binary32) (inner : Sampler)
deriving DecidableEq

namespace Sampler

instance : Inhabited Sampler := ⟨noise⟩

variable {σ : Type} [DrawSource σ]

/-- The value at time `t`. -/
def sample (t : Binary32) : Sampler → StateM σ Binary32
  | cubic p => pure (p.horner t)
  | noise => DrawSource.draw
  | add l r => do
    let a ← sample t l
    let b ← sample t r
    pure (a + b)
  | mul l r => do
    let a ← sample t l
    let b ← sample t r
    pure (a * b)
  | lerp x y s => do
    let weight ← sample t s
    let start ← sample t x
    let stop ← sample t y
    pure (Binary32.blend start stop weight)
  | retime scale offset inner => sample (t * scale + offset) inner

/-- The values at four times. -/
def sample4 (t : Lanes) : Sampler → StateM σ Lanes
  | cubic p => pure (t.map p.horner)
  | noise => Lanes.draw
  | add l r => do
    let a ← sample4 t l
    let b ← sample4 t r
    pure (Lanes.map₂ (· + ·) a b)
  | mul l r => do
    let a ← sample4 t l
    let b ← sample4 t r
    pure (Lanes.map₂ (· * ·) a b)
  | lerp x y s => do
    let weight ← sample4 t s
    let start ← sample4 t x
    let stop ← sample4 t y
    pure (Lanes.map₃ Binary32.blend start stop weight)
  | retime scale offset inner => sample4 (t.map fun u => u * scale + offset) inner

/-- The evaluator on the time `t * scale + offset`. -/
def retimed (s : Sampler) (scale offset : Binary32) : Sampler := retime scale offset s

/-- The number of draws of one evaluation at one time. -/
def draws : Sampler → Nat
  | cubic _ => 0
  | noise => 1
  | add l r | mul l r => l.draws + r.draws
  | lerp x y s => s.draws + x.draws + y.draws
  | retime _ _ inner => inner.draws

/-- Equality of shape, with numbers compared by value. -/
def numEq : Sampler → Sampler → Bool
  | cubic p, cubic q => p.numEq q
  | noise, noise => true
  | add l r, add l' r' => l.numEq l' && r.numEq r'
  | mul l r, mul l' r' => l.numEq l' && r.numEq r'
  | lerp x y s, lerp x' y' s' => x.numEq x' && y.numEq y' && s.numEq s'
  | retime scale offset inner, retime scale' offset' inner' =>
    scale.numEq scale' && offset.numEq offset' && inner.numEq inner'
  | _, _ => false

end Sampler

end TimeSignal
