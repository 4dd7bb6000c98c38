import TimeSignal.Signal.Basic

/-!
# Substituting for the time

Replacing the time in a signal by another signal composes the two functions.

## Main definitions

* `Signal.substitute`: the replacement of every occurrence of the time.
* `Signal.compose`: the outer signal at the values of the inner one.
* `Signal.scale`, `Signal.offset`: a signal on a scaled or shifted time.

## Main results

* `Signal.substitute_substitute`: substituting twice is substituting the substituted replacement.
-/

namespace TimeSignal

namespace Signal

/-- The signal with every occurrence of the time replaced. -/
def substitute (e replacement : Signal) : Signal :=
  match e with
  | time => replacement
  | noise => noise
  | const value => const value
  | add l r => add (l.substitute replacement) (r.substitute replacement)
  | mul l r => mul (l.substitute replacement) (r.substitute replacement)
  | lerp x y s =>
    lerp (x.substitute replacement) (y.substitute replacement) (s.substitute replacement)

/-- The outer signal at the values of the inner one. -/
def compose (outer inner : Signal) : Signal := outer.substitute inner

/-- The signal at `factor * t`. -/
def scale (e : Signal) (factor : Binary32) : Signal := e.substitute (mul (const factor) time)

/-- The signal at `delta + t`. -/
def offset (e : Signal) (delta : Binary32) : Signal := e.substitute (add (const delta) time)

theorem substitute_substitute (e first second : Signal) :
    (e.substitute first).substitute second = e.substitute (first.substitute second) := by
  induction e with
  | time | noise | const => rfl
  | add l r ihl ihr | mul l r ihl ihr => simp only [substitute, ihl, ihr]
  | lerp x y s ihx ihy ihs => simp only [substitute, ihx, ihy, ihs]

@[simp] theorem substitute_time (e : Signal) : e.substitute time = e := by
  induction e with
  | time | noise | const => rfl
  | add l r ihl ihr | mul l r ihl ihr => simp only [substitute, ihl, ihr]
  | lerp x y s ihx ihy ihs => simp only [substitute, ihx, ihy, ihs]

end Signal

end TimeSignal
