import TimeSignal.Signal.Basic

/-!
# The constants of a signal

Whether all constants of a signal are finite decides whether the signal has a text, and holds of
every signal that is read from one.

## Main definitions

* `Signal.consts`: the constants of a signal, from left to right
* `Signal.HasFiniteConsts`: no constant is an infinity or `nan`
* `Signal.nonFiniteConsts`: the number of constants that are
-/

namespace TimeSignal

namespace Signal

/-- The constants, from left to right. -/
def consts : Signal → List Binary32
  | time | noise => []
  | const value => [value]
  | add l r | mul l r => l.consts ++ r.consts
  | lerp x y s => x.consts ++ y.consts ++ s.consts

/-- Every constant is finite. -/
def HasFiniteConsts (e : Signal) : Prop := ∀ value ∈ e.consts, value.isFinite = true

@[simp] theorem hasFiniteConsts_time : HasFiniteConsts time := fun _ h => nomatch h

@[simp] theorem hasFiniteConsts_noise : HasFiniteConsts noise := fun _ h => nomatch h

@[simp] theorem hasFiniteConsts_const {value : Binary32} :
    HasFiniteConsts (const value) ↔ value.isFinite = true :=
  List.forall_mem_singleton

@[simp] theorem hasFiniteConsts_add {l r : Signal} :
    HasFiniteConsts (add l r) ↔ HasFiniteConsts l ∧ HasFiniteConsts r :=
  List.forall_mem_append

@[simp] theorem hasFiniteConsts_mul {l r : Signal} :
    HasFiniteConsts (mul l r) ↔ HasFiniteConsts l ∧ HasFiniteConsts r :=
  List.forall_mem_append

@[simp] theorem hasFiniteConsts_lerp {x y s : Signal} :
    HasFiniteConsts (lerp x y s) ↔
      HasFiniteConsts x ∧ HasFiniteConsts y ∧ HasFiniteConsts s := by
  simp only [HasFiniteConsts, consts, List.forall_mem_append, and_assoc]

/-- The number of constants that are infinite or `nan`. -/
def nonFiniteConsts (e : Signal) : Nat := e.consts.countP fun value => !value.isFinite

theorem nonFiniteConsts_const (value : Binary32) :
    (const value).nonFiniteConsts = if value.isFinite then 0 else 1 := by
  cases value <;> rfl

theorem nonFiniteConsts_add (l r : Signal) :
    (add l r).nonFiniteConsts = l.nonFiniteConsts + r.nonFiniteConsts := List.countP_append

theorem nonFiniteConsts_mul (l r : Signal) :
    (mul l r).nonFiniteConsts = l.nonFiniteConsts + r.nonFiniteConsts := List.countP_append

theorem nonFiniteConsts_lerp (x y s : Signal) :
    (lerp x y s).nonFiniteConsts =
      x.nonFiniteConsts + y.nonFiniteConsts + s.nonFiniteConsts := by
  rw [nonFiniteConsts, consts, List.countP_append, List.countP_append]
  rfl

theorem nonFiniteConsts_eq_zero_iff {e : Signal} :
    e.nonFiniteConsts = 0 ↔ e.HasFiniteConsts := by
  simp [nonFiniteConsts, HasFiniteConsts, List.countP_eq_zero]

end Signal

end TimeSignal
