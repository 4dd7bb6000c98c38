import TimeSignal.Proofs.Signal.Substitute

/-!
# The monoid of signals under composition

Composition splices a copy of the inner signal in place of each occurrence of the time in the outer
one, and leaves the copies alone.  It is therefore associative, also where all three signals depend
on the time, and the time is its neutral element on both sides.  Each copy takes the place of one
node.

## Main results

* `Signal.compose_assoc`, `Signal.compose_time`, `Signal.time_compose`: the laws of a monoid
* `Signal.size_substitute_add`: how many nodes a substituted signal has
* `Signal.compose_monoid`: the laws, and the number of nodes of a composed signal
-/

namespace TimeSignal

namespace Signal

theorem compose_assoc (a b c : Signal) :
    (a.compose b).compose c = a.compose (b.compose c) :=
  substitute_substitute a b c

@[simp] theorem compose_time (e : Signal) : e.compose time = e := substitute_time e

@[simp] theorem time_compose (e : Signal) : time.compose e = e := rfl

/-- Each occurrence of the time gives way to all nodes of the replacement. -/
theorem size_substitute_add (e r : Signal) :
    (e.substitute r).size + e.timeLeaves = e.size + e.timeLeaves * r.size := by
  -- Without a subtraction the counts of the operands add up.
  induction e with
  | time => rw [substitute, timeLeaves, size, Nat.one_mul, Nat.add_comm]
  | noise | const => rw [substitute, timeLeaves, Nat.zero_mul]
  | add a b iha ihb | mul a b iha ihb =>
    rw [substitute, timeLeaves, size, size, Nat.add_mul]
    omega
  | lerp x y s ihx ihy ihs =>
    rw [substitute, timeLeaves, size, size, Nat.add_mul, Nat.add_mul]
    omega

theorem size_compose (a b : Signal) :
    (a.compose b).size = a.size + a.timeLeaves * (b.size - 1) := by
  obtain ⟨n, hn⟩ := Nat.exists_eq_add_of_lt b.size_pos
  have hsize := size_substitute_add a b
  rw [hn, Nat.zero_add, Nat.mul_succ] at hsize
  rw [compose, hn, Nat.zero_add, Nat.add_sub_cancel]
  omega

/-- **Signals under composition form a monoid.**  Composition is associative and the time is neutral
on both sides, as an identity of expressions.  A composed signal has the nodes of the outer one, and
for each occurrence of the time in it the nodes of the inner one but one. -/
theorem compose_monoid (a b c : Signal) :
    (a.compose b).compose c = a.compose (b.compose c) ∧
      a.compose time = a ∧
      time.compose a = a ∧
      (a.compose b).size = a.size + a.timeLeaves * (b.size - 1) :=
  ⟨compose_assoc a b c, compose_time a, time_compose a, size_compose a b⟩

end Signal

end TimeSignal
