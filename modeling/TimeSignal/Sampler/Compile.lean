import TimeSignal.Poly.Signal
import TimeSignal.Sampler.Basic

/-!
# Samplers of signals and polynomial trees

Both kinds of trees are compiled node by node; the time becomes the polynomial `0 + 1 · t`.

## Main definitions

* `Signal.compile`: the sampler of a signal.
* `Poly.compile`: the sampler of a polynomial tree.
-/

namespace TimeSignal

/-- The sampler of a signal. -/
def Signal.compile : Signal → Sampler
  | .time => .cubic Cubic.identity
  | .noise => .noise
  | .const value => .cubic (Cubic.constant value)
  | .add l r => .add l.compile r.compile
  | .mul l r => .mul l.compile r.compile
  | .lerp x y s => .lerp x.compile y.compile s.compile

/-- The sampler of a polynomial tree. -/
def Poly.compile : Poly → Sampler
  | .concrete p => .cubic p
  | .noise => .noise
  | .add l r => .add l.compile r.compile
  | .mul l r => .mul l.compile r.compile

end TimeSignal
