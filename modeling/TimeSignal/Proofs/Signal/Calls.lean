import TimeSignal.Proofs.Signal.Visits
import Mathlib.Logic.Function.Basic

/-!
# The calls of a fold

A fold calls one step at each node, with that node, in post-order.  Whatever its steps do, this is
seen by noting each call before it is made.  The calls alone, with the values of the constants but
without the nodes, are a program for a stack: a leaf pushes, a sum, a product or a blend takes its
operands from the top.  Run on any stack, the calls of a signal push that signal, so they determine
it.

## Main definitions

* `Visit`: a call of a step, with the node that the step is given
* `noting`, `Signal.Steps.noted`: steps that note their calls
* `replay`, `Pushes`: calls run on a stack, and calls that push a node
* `Signal.postorder`: the nodes of the operands, from left to right, then the root
* `Signal.Call`, `Signal.calls`: what a fold calls

## Main results

* `Signal.run_foldM_noted`: any fold calls the steps of the nodes in post-order
* `Pushes.binary`, `Pushes.ternary`: a call comes after the calls that push its operands
* `Pushes.injective`: calls that push the node they are made for determine it
* `Signal.pushes_calls`, `Signal.calls_injective`: the calls of a signal push the signal, and
  determine it
-/

namespace TimeSignal

/-! ## Noted steps, and calls on a stack -/

/-- A call of a step: which step it is, and the node that the step is given. -/
structure Visit (Call Node : Type) where
  /-- The step, with the value that a leaf gives to it. -/
  call : Call
  /-- The node. -/
  node : Node
deriving DecidableEq

section Noting

variable {V : Type} {m : Type → Type} [Monad m] {α : Type}

/-- A step whose visit is noted before it is taken. -/
def noting (visit : V) (step : m α) : StateT (List V) m α := do
  modify (· ++ [visit])
  step

theorem run_noting [LawfulMonad m] (visit : V) (step : m α) (log : List V) :
    (noting visit step).run log = (fun a => (a, log ++ [visit])) <$> step := by
  simp [noting]

end Noting

section Stack

variable {Call Node : Type}

/-- Calls run one after the other on a stack. -/
def replay (apply : Call → List Node → Option (List Node)) (calls : List Call)
    (stack : List Node) : Option (List Node) :=
  calls.foldlM (fun stack call => apply call stack) stack

/-- The calls push a node, whatever is on the stack before and whatever is called after them. -/
def Pushes (apply : Call → List Node → Option (List Node)) (calls : List Call) (n : Node) : Prop :=
  ∀ stack more, replay apply (calls ++ more) stack = replay apply more (n :: stack)

namespace Pushes

variable {apply : Call → List Node → Option (List Node)} {c : Call} {n n' x y z : Node}
  {calls xs ys zs : List Call}

theorem leaf (h : ∀ stack, apply c stack = some (n :: stack)) : Pushes apply [c] n := by
  intro stack more
  rw [List.singleton_append, replay, List.foldlM_cons, h]
  rfl

/-- A call that takes two operands from the stack comes after the calls that push them. -/
theorem binary (hx : Pushes apply xs x) (hy : Pushes apply ys y)
    (h : ∀ stack, apply c (y :: x :: stack) = some (n :: stack)) :
    Pushes apply (xs ++ ys ++ [c]) n := by
  intro stack more
  rw [List.append_assoc, List.append_assoc, hx, hy, List.singleton_append, replay,
    List.foldlM_cons, h]
  rfl

theorem ternary (hx : Pushes apply xs x) (hy : Pushes apply ys y) (hz : Pushes apply zs z)
    (h : ∀ stack, apply c (z :: y :: x :: stack) = some (n :: stack)) :
    Pushes apply (xs ++ ys ++ zs ++ [c]) n := by
  intro stack more
  rw [List.append_assoc, List.append_assoc, List.append_assoc, hx, hy, hz, List.singleton_append,
    replay, List.foldlM_cons, h]
  rfl

theorem replay_eq (h : Pushes apply calls n) : replay apply calls [] = some [n] := by
  have hn := h [] []
  rwa [List.append_nil] at hn

/-- The calls push no other node. -/
theorem eq (h : Pushes apply calls n) (h' : Pushes apply calls n') : n = n' := by
  have hn := h.replay_eq.symm.trans h'.replay_eq
  exact (List.cons.inj (Option.some.inj hn)).1

/-- Calls that push the node they are made for determine the node. -/
theorem injective {calls : Node → List Call} (h : ∀ n, Pushes apply (calls n) n) :
    Function.Injective calls := by
  intro n n' hc
  have hn := h n
  rw [hc] at hn
  exact hn.eq (h n')

end Pushes

end Stack

namespace Signal

variable {m : Type → Type} [Monad m] {α : Type}

/-- The step that a fold calls, with the value of a constant. -/
inductive Call where
  /-- The step at the time. -/
  | time
  /-- The step at noise. -/
  | noise
  /-- The step at a constant. -/
  | const (value : Binary32)
  /-- The step at a sum. -/
  | add
  /-- The step at a product. -/
  | mul
  /-- The step at a blend. -/
  | lerp
deriving DecidableEq

/-- The step for a node. -/
def call : Signal → Call
  | time => .time
  | noise => .noise
  | const value => .const value
  | add _ _ => .add
  | mul _ _ => .mul
  | lerp _ _ _ => .lerp

/-- The call of the step for a node with that node. -/
def visit (e : Signal) : Visit Call Signal := ⟨e.call, e⟩

/-- The steps of a fold, each of which notes its call with the node that it is given. -/
def Steps.noted (steps : Steps m α) : Steps (StateT (List (Visit Call Signal)) m) α where
  time node := noting ⟨.time, node⟩ (steps.time node)
  noise node := noting ⟨.noise, node⟩ (steps.noise node)
  const node value := noting ⟨.const value, node⟩ (steps.const node value)
  add node a b := noting ⟨.add, node⟩ (steps.add node a b)
  mul node a b := noting ⟨.mul, node⟩ (steps.mul node a b)
  lerp node a b c := noting ⟨.lerp, node⟩ (steps.lerp node a b c)

@[simp] theorem Steps.noted_add (steps : Steps m α) (node : Signal) (a b : α) :
    steps.noted.add node a b = noting ⟨.add, node⟩ (steps.add node a b) := rfl

@[simp] theorem Steps.noted_mul (steps : Steps m α) (node : Signal) (a b : α) :
    steps.noted.mul node a b = noting ⟨.mul, node⟩ (steps.mul node a b) := rfl

@[simp] theorem Steps.noted_lerp (steps : Steps m α) (node : Signal) (a b c : α) :
    steps.noted.lerp node a b c = noting ⟨.lerp, node⟩ (steps.lerp node a b c) := rfl

/-- The nodes in post-order: those of the operands, from left to right, then the root. -/
def postorder : Signal → List Signal
  | time => [time]
  | noise => [noise]
  | const value => [const value]
  | add l r => l.postorder ++ r.postorder ++ [add l r]
  | mul l r => l.postorder ++ r.postorder ++ [mul l r]
  | lerp x y s => x.postorder ++ y.postorder ++ s.postorder ++ [lerp x y s]

/-- The steps that a fold calls, in order. -/
def calls (e : Signal) : List Call := e.postorder.map call

/-- A call on a stack of signals.  The operands are on top of the stack, the last one uppermost; it
fails if they are missing. -/
def Call.apply : Call → List Signal → Option (List Signal)
  | .time, stack => some (Signal.time :: stack)
  | .noise, stack => some (Signal.noise :: stack)
  | .const value, stack => some (Signal.const value :: stack)
  | .add, r :: l :: stack => some (Signal.add l r :: stack)
  | .mul, r :: l :: stack => some (Signal.mul l r :: stack)
  | .lerp, s :: y :: x :: stack => some (Signal.lerp x y s :: stack)
  | _, _ => none

/-! ## Any fold calls the steps of the nodes in post-order -/

theorem visits_eq_postorder (e : Signal) : e.visits = e.postorder := by
  induction e with
  | time | noise | const => rfl
  | add l r ihl ihr => rw [visits_add, ihl, ihr, postorder]
  | mul l r ihl ihr => rw [visits_mul, ihl, ihr, postorder]
  | lerp x y s ihx ihy ihs => rw [visits_lerp, ihx, ihy, ihs, postorder]

/-- **Any fold calls the steps of the nodes in post-order**, each with its own node; to note the
calls makes no difference to what the fold does. -/
theorem run_foldM_noted [LawfulMonad m] (steps : Steps m α) (e : Signal)
    (log : List (Visit Call Signal)) :
    (foldM steps.noted e).run log =
      (fun a => (a, log ++ e.postorder.map visit)) <$> foldM steps e := by
  -- Each operand is folded when the calls for those before it have been noted.
  induction e generalizing log with
  | time => exact run_noting _ _ log
  | noise => exact run_noting _ _ log
  | const value => exact run_noting _ _ log
  | add l r ihl ihr | mul l r ihl ihr =>
    simp [foldM, ihl, ihr, run_noting, postorder, visit, call]
  | lerp x y s ihx ihy ihs =>
    simp [foldM, ihx, ihy, ihs, run_noting, postorder, visit, call]

theorem length_postorder (e : Signal) : e.postorder.length = e.size := by
  induction e with
  | time | noise | const => rfl
  | add l r ihl ihr | mul l r ihl ihr =>
    simp only [postorder, size, List.length_append, List.length_singleton, ihl, ihr]
    omega
  | lerp x y s ihx ihy ihs =>
    simp only [postorder, size, List.length_append, List.length_singleton, ihx, ihy, ihs]
    omega

/-! ## The calls push the signal -/

theorem calls_add (l r : Signal) : (add l r).calls = l.calls ++ r.calls ++ [.add] := by
  simp [calls, postorder, call]

theorem calls_mul (l r : Signal) : (mul l r).calls = l.calls ++ r.calls ++ [.mul] := by
  simp [calls, postorder, call]

theorem calls_lerp (x y s : Signal) :
    (lerp x y s).calls = x.calls ++ y.calls ++ s.calls ++ [.lerp] := by
  simp [calls, postorder, call]

/-- **The calls of a signal push the signal.** -/
theorem pushes_calls (e : Signal) : Pushes Call.apply e.calls e := by
  induction e with
  | time => exact .leaf fun _ => rfl
  | noise => exact .leaf fun _ => rfl
  | const value => exact .leaf fun _ => rfl
  | add l r ihl ihr =>
    rw [calls_add]
    exact ihl.binary ihr fun _ => rfl
  | mul l r ihl ihr =>
    rw [calls_mul]
    exact ihl.binary ihr fun _ => rfl
  | lerp x y s ihx ihy ihs =>
    rw [calls_lerp]
    exact ihx.ternary ihy ihs fun _ => rfl

/-- **The calls determine the signal.** -/
theorem calls_injective : Function.Injective calls := Pushes.injective pushes_calls

/-! ## What the calls show -/

theorem hasNoise_eq_true_iff {e : Signal} : e.hasNoise = true ↔ .noise ∈ e.calls := by
  induction e with
  | time | noise | const => simp [hasNoise, calls, postorder, call]
  | add l r ihl ihr => simp [hasNoise, calls_add, ihl, ihr]
  | mul l r ihl ihr => simp [hasNoise, calls_mul, ihl, ihr]
  | lerp x y s ihx ihy ihs => simp [hasNoise, calls_lerp, ihx, ihy, ihs, or_assoc]

theorem hasLerp_eq_true_iff_mem_calls {e : Signal} : e.hasLerp = true ↔ .lerp ∈ e.calls := by
  rw [hasLerp_eq_true_iff, visits_eq_postorder, calls, List.mem_map]
  constructor
  · rintro ⟨x, y, s, h⟩
    exact ⟨lerp x y s, h, rfl⟩
  · rintro ⟨n, h, hn⟩
    cases n with
    | lerp x y s => exact ⟨x, y, s, h⟩
    | _ => cases hn

end Signal

end TimeSignal
