import TimeSignal.Proofs.Poly.NormalForm
import TimeSignal.Proofs.Signal.Calls

/-!
# The calls of a fold of a polynomial tree

What holds of the fold of a signal holds of the fold of a polynomial tree, whose nodes have two
operands at most: any fold calls the steps of the nodes in post-order, and the calls are a program
that pushes the tree on a stack.

## Main definitions

* `Poly.postorder`: the nodes of the operands, from left to right, then the root
* `Poly.Call`, `Poly.calls`: what a fold calls

## Main results

* `Poly.run_foldM_noted`: any fold calls the steps of the nodes in post-order
* `Poly.pushes_calls`, `Poly.calls_injective`: the calls push the tree, and determine it
* `foldM_postorder`: the folds of signals and of polynomial trees
-/

namespace TimeSignal

namespace Poly

variable {m : Type → Type} [Monad m] {α : Type}

/-- The step that a fold calls, with the polynomial of a leaf. -/
inductive Call where
  /-- The step at a polynomial. -/
  | concrete (cubic : Cubic)
  /-- The step at noise. -/
  | noise
  /-- The step at a sum. -/
  | add
  /-- The step at a product. -/
  | mul
deriving DecidableEq

/-- The step for a node. -/
def call : Poly → Call
  | concrete p => .concrete p
  | noise => .noise
  | add _ _ => .add
  | mul _ _ => .mul

/-- The call of the step for a node with that node. -/
def visit (p : Poly) : Visit Call Poly := ⟨p.call, p⟩

/-- The steps of a fold, each of which notes its call with the node that it is given. -/
def Steps.noted (steps : Steps m α) : Steps (StateT (List (Visit Call Poly)) m) α where
  concrete node cubic := noting ⟨.concrete cubic, node⟩ (steps.concrete node cubic)
  noise node := noting ⟨.noise, node⟩ (steps.noise node)
  add node a b := noting ⟨.add, node⟩ (steps.add node a b)
  mul node a b := noting ⟨.mul, node⟩ (steps.mul node a b)

@[simp] theorem Steps.noted_add (steps : Steps m α) (node : Poly) (a b : α) :
    steps.noted.add node a b = noting ⟨.add, node⟩ (steps.add node a b) := rfl

@[simp] theorem Steps.noted_mul (steps : Steps m α) (node : Poly) (a b : α) :
    steps.noted.mul node a b = noting ⟨.mul, node⟩ (steps.mul node a b) := rfl

/-- The nodes in post-order: those of the operands, from left to right, then the root. -/
def postorder : Poly → List Poly
  | concrete p => [concrete p]
  | noise => [noise]
  | add l r => l.postorder ++ r.postorder ++ [add l r]
  | mul l r => l.postorder ++ r.postorder ++ [mul l r]

/-- The steps that a fold calls, in order. -/
def calls (p : Poly) : List Call := p.postorder.map call

/-- A call on a stack of trees, with the right operand uppermost. -/
def Call.apply : Call → List Poly → Option (List Poly)
  | .concrete cubic, stack => some (Poly.concrete cubic :: stack)
  | .noise, stack => some (Poly.noise :: stack)
  | .add, r :: l :: stack => some (Poly.add l r :: stack)
  | .mul, r :: l :: stack => some (Poly.mul l r :: stack)
  | _, _ => none

theorem visits_eq_postorder (p : Poly) : p.visits = p.postorder := by
  induction p with
  | concrete | noise => rfl
  | add l r ihl ihr => rw [visits_add, ihl, ihr, postorder]
  | mul l r ihl ihr => rw [visits_mul, ihl, ihr, postorder]

/-- **Any fold calls the steps of the nodes in post-order**, each with its own node. -/
theorem run_foldM_noted [LawfulMonad m] (steps : Steps m α) (p : Poly)
    (log : List (Visit Call Poly)) :
    (foldM steps.noted p).run log =
      (fun a => (a, log ++ p.postorder.map visit)) <$> foldM steps p := by
  induction p generalizing log with
  | concrete cubic => exact run_noting _ _ log
  | noise => exact run_noting _ _ log
  | add l r ihl ihr | mul l r ihl ihr =>
    simp [foldM, ihl, ihr, run_noting, postorder, visit, call]

theorem calls_add (l r : Poly) : (add l r).calls = l.calls ++ r.calls ++ [.add] := by
  simp [calls, postorder, call]

theorem calls_mul (l r : Poly) : (mul l r).calls = l.calls ++ r.calls ++ [.mul] := by
  simp [calls, postorder, call]

/-- **The calls of a tree push the tree.** -/
theorem pushes_calls (p : Poly) : Pushes Call.apply p.calls p := by
  induction p with
  | concrete cubic => exact .leaf fun _ => rfl
  | noise => exact .leaf fun _ => rfl
  | add l r ihl ihr =>
    rw [calls_add]
    exact ihl.binary ihr fun _ => rfl
  | mul l r ihl ihr =>
    rw [calls_mul]
    exact ihl.binary ihr fun _ => rfl

/-- **The calls determine the tree.** -/
theorem calls_injective : Function.Injective calls := Pushes.injective pushes_calls

end Poly

/-- **A fold calls one step for each node, in post-order, and its calls determine the tree.**  Any
fold of a signal or of a polynomial tree, in whatever monad, calls the steps of the nodes in
post-order, each with its own node, and does the same if the calls are noted.  The calls without
the nodes, run on an empty stack, leave the tree as the only entry.  So trees with the same calls
are the same.  A signal has as many calls as nodes, and it has noise or a blend exactly if the step
for it is called. -/
theorem foldM_postorder (e : Signal) (p : Poly) :
    ((∀ {m : Type → Type} [Monad m] [LawfulMonad m] {α : Type} (steps : Signal.Steps m α)
          (log : List (Visit Signal.Call Signal)),
        (Signal.foldM steps.noted e).run log =
          (fun a => (a, log ++ e.postorder.map fun n => ⟨n.call, n⟩)) <$> Signal.foldM steps e) ∧
      e.visits = e.postorder ∧
      replay Signal.Call.apply (e.postorder.map Signal.call) [] = some [e] ∧
      (∀ e' : Signal, e'.postorder.map Signal.call = e.postorder.map Signal.call ↔ e' = e) ∧
      (e.postorder.map Signal.call).length = e.size ∧
      (e.hasNoise = true ↔ .noise ∈ e.postorder.map Signal.call) ∧
      (e.hasLerp = true ↔ .lerp ∈ e.postorder.map Signal.call)) ∧
    (∀ {m : Type → Type} [Monad m] [LawfulMonad m] {α : Type} (steps : Poly.Steps m α)
          (log : List (Visit Poly.Call Poly)),
        (Poly.foldM steps.noted p).run log =
          (fun a => (a, log ++ p.postorder.map fun n => ⟨n.call, n⟩)) <$> Poly.foldM steps p) ∧
      p.visits = p.postorder ∧
      replay Poly.Call.apply (p.postorder.map Poly.call) [] = some [p] ∧
      ∀ p' : Poly, p'.postorder.map Poly.call = p.postorder.map Poly.call ↔ p' = p := by
  refine ⟨⟨fun steps log => ?_, e.visits_eq_postorder, e.pushes_calls.replay_eq, fun e' => ?_, ?_,
    Signal.hasNoise_eq_true_iff, Signal.hasLerp_eq_true_iff_mem_calls⟩,
    fun steps log => ?_, p.visits_eq_postorder, p.pushes_calls.replay_eq, fun p' => ?_⟩
  · exact Signal.run_foldM_noted steps e log
  · exact Signal.calls_injective.eq_iff
  · rw [List.length_map, e.length_postorder]
  · exact Poly.run_foldM_noted steps p log
  · exact Poly.calls_injective.eq_iff

/-- A blend of noise and the half time, by noise. -/
def noisyHalfTime : Signal := .lerp .noise (.mul (.const Binary32.half) .time) .noise

/-- A sum of noise and the time. -/
def noisyLine : Poly := .add .noise (.concrete Cubic.identity)

theorem foldM_postorder_noisyHalfTime :
    (Signal.foldM Signal.rebuildSteps.noted noisyHalfTime).run [] =
        (noisyHalfTime, [⟨.noise, .noise⟩, ⟨.const Binary32.half, .const Binary32.half⟩,
          ⟨.time, .time⟩, ⟨.mul, .mul (.const Binary32.half) .time⟩, ⟨.noise, .noise⟩,
          ⟨.lerp, noisyHalfTime⟩]) ∧
      replay Signal.Call.apply
        [.noise, .const Binary32.half, .time, .mul, .noise, .lerp] [] = some [noisyHalfTime] ∧
      (Poly.foldM Poly.recordSteps.noted noisyLine).run [] =
        (fun a => (a, [⟨.noise, .noise⟩, ⟨.concrete Cubic.identity, .concrete Cubic.identity⟩,
          ⟨.add, noisyLine⟩])) <$> Poly.foldM Poly.recordSteps noisyLine ∧
      replay Poly.Call.apply [.noise, .concrete Cubic.identity, .add] [] = some [noisyLine] := by
  obtain ⟨⟨hcalls, -, hreplay, -⟩, hcalls', -, hreplay', -⟩ :=
    foldM_postorder noisyHalfTime noisyLine
  exact ⟨hcalls Signal.rebuildSteps [], hreplay, hcalls' Poly.recordSteps [], hreplay'⟩

end TimeSignal
