import TimeSignal.Binary32.Arithmetic
import TimeSignal.Random.Source
import TimeSignal.Signal.Basic

/-!
# Evaluating a signal

The value of a signal at a time depends on a source of draws, whose state the evaluation threads
through the nodes.  Operands are evaluated from left to right, and a blend evaluates its weight
before its ends.

## Main definitions

* `Signal.eval`: the value at a time, with the state of the source after it.
* `Signal.evalAll`: the values at several times, one after the other.
-/

namespace TimeSignal

namespace Binary32

/-- The blend of two numbers by a weight. -/
def blend (start stop weight : Binary32) : Binary32 :=
  (1 - weight) * start + weight * stop

end Binary32

namespace Signal

variable {σ : Type} [DrawSource σ]

/-- The value at time `t`. -/
def eval (t : Binary32) : Signal → StateM σ Binary32
  | time => pure t
  | noise => DrawSource.draw
  | const value => pure value
  | add l r => do
    let a ← eval t l
    let b ← eval t r
    pure (a + b)
  | mul l r => do
    let a ← eval t l
    let b ← eval t r
    pure (a * b)
  | lerp x y s => do
    let weight ← eval t s
    let start ← eval t x
    let stop ← eval t y
    pure (Binary32.blend start stop weight)

/-- The values at several times, in order, from one source. -/
def evalAll (e : Signal) (times : List Binary32) : StateM σ (List Binary32) :=
  times.mapM fun t => e.eval t

theorem eval_add (t : Binary32) (l r : Signal) (source : σ) :
    (add l r).eval t source =
      (((l.eval t source).1 + (r.eval t (l.eval t source).2).1),
        (r.eval t (l.eval t source).2).2) := rfl

theorem eval_mul (t : Binary32) (l r : Signal) (source : σ) :
    (mul l r).eval t source =
      (((l.eval t source).1 * (r.eval t (l.eval t source).2).1),
        (r.eval t (l.eval t source).2).2) := rfl

/-- The text shown for a signal that stands ready for evaluation; its inside is not shown. -/
def evaluatorText : String := "Interpreted \x7b .. \x7d"

end Signal

end TimeSignal
