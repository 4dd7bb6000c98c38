import TimeSignal.Signal.Basic

/-!
# Folding a signal

A fold visits every node once, operands before the node that joins them, and combines what it made
of the operands.  Each step also sees the node that it stands for.

## Main definitions

* `Signal.Steps`: what a fold does at each kind of node.
* `Signal.foldM`: the fold, with effects in the order of the visits.
* `Signal.rebuild`: the fold whose steps build the same nodes again.
* `Signal.visits`: the nodes in the order in which a fold visits them.
-/

namespace TimeSignal

namespace Signal

/-- What a fold does at each kind of node, given the node and the results for its operands. -/
structure Steps (m : Type → Type) (α : Type) where
  /-- The step at the time. -/
  time : Signal → m α
  /-- The step at noise. -/
  noise : Signal → m α
  /-- The step at a constant. -/
  const : Signal → Binary32 → m α
  /-- The step at a sum. -/
  add : Signal → α → α → m α
  /-- The step at a product. -/
  mul : Signal → α → α → m α
  /-- The step at a blend: start, stop, weight. -/
  lerp : Signal → α → α → α → m α

variable {m : Type → Type} [Monad m] {α : Type}

/-- The fold of a signal: operands from left to right, then the node itself. -/
def foldM (steps : Steps m α) : Signal → m α
  | time => steps.time time
  | noise => steps.noise noise
  | const value => steps.const (const value) value
  | add l r => do
    let a ← foldM steps l
    let b ← foldM steps r
    steps.add (add l r) a b
  | mul l r => do
    let a ← foldM steps l
    let b ← foldM steps r
    steps.mul (mul l r) a b
  | lerp x y s => do
    let a ← foldM steps x
    let b ← foldM steps y
    let c ← foldM steps s
    steps.lerp (lerp x y s) a b c

/-- The steps that build each node again from its rebuilt operands. -/
def rebuildSteps : Steps Id Signal where
  time _ := time
  noise _ := noise
  const _ value := const value
  add _ l r := add l r
  mul _ l r := mul l r
  lerp _ x y s := lerp x y s

/-- The signal built again node by node. -/
def rebuild (e : Signal) : Signal := (foldM rebuildSteps e).run

theorem rebuild_eq (e : Signal) : e.rebuild = e := by
  induction e with
  | time | noise | const => rfl
  | add l r ihl ihr =>
    change add l.rebuild r.rebuild = add l r
    rw [ihl, ihr]
  | mul l r ihl ihr =>
    change mul l.rebuild r.rebuild = mul l r
    rw [ihl, ihr]
  | lerp x y s ihx ihy ihs =>
    change lerp x.rebuild y.rebuild s.rebuild = lerp x y s
    rw [ihx, ihy, ihs]

/-- Records the visit of a node. -/
def record (e : Signal) : StateM (List Signal) Unit := modify (· ++ [e])

/-- The steps that record each visited node. -/
def recordSteps : Steps (StateM (List Signal)) Unit where
  time := record
  noise := record
  const e _ := record e
  add e _ _ := record e
  mul e _ _ := record e
  lerp e _ _ _ := record e

/-- The nodes in the order in which a fold visits them. -/
def visits (e : Signal) : List Signal := ((foldM recordSteps e).run []).2

/-- The name of a node's kind. -/
def kind : Signal → String
  | time => "t"
  | noise => "rand"
  | const _ => "lit"
  | add _ _ => "add"
  | mul _ _ => "mul"
  | lerp _ _ _ => "lerp"

end Signal

end TimeSignal
