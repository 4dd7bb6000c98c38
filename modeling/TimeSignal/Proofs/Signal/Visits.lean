import TimeSignal.Signal.Fold

/-!
# The nodes of a signal

A fold visits the nodes of the operands of a node, from left to right, and then the node.  So the
nodes that it visits are those of the whole signal, and what is asked of some node of a signal can
be asked of the nodes that a fold visits.

## Main results

* `Signal.run_recordSteps`: what a fold visits comes after what has been seen before
* `Signal.visits_add`, `Signal.visits_mul`, `Signal.visits_lerp`: the nodes of the operands, then
  the root
* `Signal.hasLerp_eq_true_iff`: a signal has a blend if a fold visits one
-/

namespace TimeSignal

namespace Signal

variable {e l r : Signal}

/-! ## Visits -/

theorem run_recordSteps_add (l r : Signal) (seen : List Signal) :
    (foldM recordSteps (add l r)).run seen =
      ((), ((foldM recordSteps r).run ((foldM recordSteps l).run seen).2).2 ++ [add l r]) := rfl

theorem run_recordSteps_mul (l r : Signal) (seen : List Signal) :
    (foldM recordSteps (mul l r)).run seen =
      ((), ((foldM recordSteps r).run ((foldM recordSteps l).run seen).2).2 ++ [mul l r]) := rfl

theorem run_recordSteps_lerp (x y s : Signal) (seen : List Signal) :
    (foldM recordSteps (lerp x y s)).run seen =
      ((), ((foldM recordSteps s).run
        ((foldM recordSteps y).run ((foldM recordSteps x).run seen).2).2).2 ++ [lerp x y s]) := rfl

theorem run_recordSteps (e : Signal) (seen : List Signal) :
    (foldM recordSteps e).run seen = ((), seen ++ e.visits) := by
  -- Each operand is visited when those before it have been seen, so `seen` varies.
  induction e generalizing seen with
  | time | noise | const => rfl
  | add l r ihl ihr =>
    rw [visits, run_recordSteps_add, run_recordSteps_add, ihl seen, ihl [], ihr, ihr]
    simp
  | mul l r ihl ihr =>
    rw [visits, run_recordSteps_mul, run_recordSteps_mul, ihl seen, ihl [], ihr, ihr]
    simp
  | lerp x y s ihx ihy ihs =>
    rw [visits, run_recordSteps_lerp, run_recordSteps_lerp, ihx seen, ihx [], ihy, ihy, ihs, ihs]
    simp

theorem visits_add (l r : Signal) : (add l r).visits = l.visits ++ r.visits ++ [add l r] := by
  rw [visits, run_recordSteps_add, run_recordSteps, run_recordSteps, List.nil_append]

theorem visits_mul (l r : Signal) : (mul l r).visits = l.visits ++ r.visits ++ [mul l r] := by
  rw [visits, run_recordSteps_mul, run_recordSteps, run_recordSteps, List.nil_append]

theorem visits_lerp (x y s : Signal) :
    (lerp x y s).visits = x.visits ++ y.visits ++ s.visits ++ [lerp x y s] := by
  rw [visits, run_recordSteps_lerp, run_recordSteps, run_recordSteps, run_recordSteps,
    List.nil_append]

theorem mem_visits_add {n : Signal} :
    n ∈ (add l r).visits ↔ n ∈ l.visits ∨ n ∈ r.visits ∨ n = add l r := by
  rw [visits_add, List.mem_append, List.mem_append, List.mem_singleton, or_assoc]

theorem mem_visits_mul {n : Signal} :
    n ∈ (mul l r).visits ↔ n ∈ l.visits ∨ n ∈ r.visits ∨ n = mul l r := by
  rw [visits_mul, List.mem_append, List.mem_append, List.mem_singleton, or_assoc]

/-- The root is visited last. -/
theorem self_mem_visits (e : Signal) : e ∈ e.visits := by
  cases e with
  | time | noise | const => exact List.mem_singleton_self _
  | add l r => exact mem_visits_add.mpr (.inr (.inr rfl))
  | mul l r => exact mem_visits_mul.mpr (.inr (.inr rfl))
  | lerp x y s =>
    rw [visits_lerp]
    exact List.mem_append_right _ (List.mem_singleton_self _)

/-! ## Blends -/

theorem hasLerp_eq_true_iff : e.hasLerp = true ↔ ∃ x y s, lerp x y s ∈ e.visits := by
  induction e with
  | time | noise | const =>
    refine iff_of_false Bool.false_ne_true ?_
    rintro ⟨x, y, s, h⟩
    cases List.mem_singleton.mp h
  | add l r ihl ihr | mul l r ihl ihr =>
    -- The root of a sum or product is no blend, so a blend is in one of the operands.
    simp only [hasLerp, Bool.or_eq_true, ihl, ihr, mem_visits_add, mem_visits_mul, reduceCtorEq,
      or_false, exists_or]
  | lerp x y s => exact iff_of_true rfl ⟨x, y, s, self_mem_visits _⟩

end Signal

end TimeSignal
