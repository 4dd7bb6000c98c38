import TimeSignal.Sampler.Compile

/-!
# How often an evaluation draws

An evaluation draws once for each noise leaf and from nowhere else, so the state in which it leaves
its source is the state after that many draws, whatever the source is.  What it reads is seen by
running it on a source that keeps a record.  A signal without noise reads nothing, so its value at a
time is a constant.

## Main definitions

* `afterDraws`: the state of a source after a number of draws
* `Recorded`: a source with a record of its draws
* `readings`: the draws that a computation reads from a source
* `Signal.draws`: the number of noise leaves of a signal

## Main results

* `Signal.eval_snd`, `Sampler.sample_snd`: evaluation draws once for each noise leaf
* `Signal.length_readings_eval`: evaluation reads as many draws as there are noise leaves
* `Signal.draws_eq_zero_iff`: only noise draws
* `Signal.eval_eq_pure`: without noise, the value does not depend on the source
* `Signal.draws_compile`: compilation keeps the noise leaves
-/

namespace TimeSignal

variable {σ τ : Type} [DrawSource σ] [DrawSource τ]

/-- The state of a source from which `n` more numbers have been drawn. -/
def afterDraws (n : Nat) (source : σ) : σ := (drawMany n source).2

@[simp] theorem afterDraws_zero (source : σ) : afterDraws 0 source = source := rfl

theorem afterDraws_succ (n : Nat) (source : σ) :
    afterDraws (n + 1) source = afterDraws n (DrawSource.draw source).2 := rfl

theorem afterDraws_add (m n : Nat) (source : σ) :
    afterDraws (m + n) source = afterDraws n (afterDraws m source) := by
  induction m generalizing source with
  | zero => rw [Nat.zero_add, afterDraws_zero]
  | succ m ih => rw [Nat.succ_add, afterDraws_succ, ih, afterDraws_succ]

theorem drawMany_succ_fst (n : Nat) (source : σ) :
    (drawMany (n + 1) source).1 =
      (DrawSource.draw source).1 :: (drawMany n (DrawSource.draw source).2).1 := rfl

theorem length_drawMany (n : Nat) (source : σ) : (drawMany n source).1.length = n := by
  induction n generalizing source with
  | zero => rfl
  | succ n ih => rw [drawMany_succ_fst, List.length_cons, ih]

theorem drawMany_add_fst (m n : Nat) (source : σ) :
    (drawMany (m + n) source).1 =
      (drawMany m source).1 ++ (drawMany n (afterDraws m source)).1 := by
  induction m generalizing source with
  | zero => rw [Nat.zero_add]; rfl
  | succ m ih =>
    rw [Nat.succ_add, drawMany_succ_fst, ih, drawMany_succ_fst, afterDraws_succ, List.cons_append]

/-! ## The draws that a computation reads -/

/-- A source together with the draws that have been made from it, in order. -/
structure Recorded (σ : Type) where
  /-- The source. -/
  source : σ
  /-- The record of its draws. -/
  drawn : List Binary32

namespace Recorded

/-- The next draw of the source, which goes to the end of the record. -/
def next (recorded : Recorded σ) : Binary32 × Recorded σ :=
  let (x, source) := DrawSource.draw recorded.source
  (x, ⟨source, recorded.drawn ++ [x]⟩)

instance : DrawSource (Recorded σ) := ⟨next⟩

theorem draw_snd (source : σ) (drawn : List Binary32) :
    (DrawSource.draw (⟨source, drawn⟩ : Recorded σ)).2 =
      ⟨(DrawSource.draw source).2, drawn ++ [(DrawSource.draw source).1]⟩ := rfl

/-- Drawing goes on below the record as it would without one. -/
theorem afterDraws_eq (n : Nat) (source : σ) (drawn : List Binary32) :
    afterDraws n (⟨source, drawn⟩ : Recorded σ) =
      ⟨afterDraws n source, drawn ++ (drawMany n source).1⟩ := by
  induction n generalizing source drawn with
  | zero => exact congrArg (mk source) (List.append_nil drawn).symm
  | succ n ih =>
    rw [afterDraws_succ, draw_snd, ih, drawMany_succ_fst, List.append_assoc, afterDraws_succ]
    rfl

end Recorded

/-- The draws that a computation reads from a source, in order. -/
def readings {α : Type} (run : StateM (Recorded σ) α) (source : σ) : List Binary32 :=
  (run ⟨source, []⟩).2.drawn

/-- A computation that leaves every source after `n` draws reads the first `n` draws. -/
theorem readings_eq_drawMany {α : Type} {run : StateM (Recorded σ) α} {n : Nat}
    (h : ∀ recorded, (run recorded).2 = afterDraws n recorded) (source : σ) :
    readings run source = (drawMany n source).1 := by
  rw [readings, h, Recorded.afterDraws_eq, List.nil_append]

namespace Signal

/-- The number of noise leaves; a blend draws for its weight first. -/
def draws : Signal → Nat
  | time | const _ => 0
  | noise => 1
  | add l r | mul l r => l.draws + r.draws
  | lerp x y s => s.draws + x.draws + y.draws

theorem eval_lerp (t : Binary32) (x y s : Signal) (source : σ) :
    (lerp x y s).eval t source =
      let weight := s.eval t source
      (Binary32.blend (x.eval t weight.2).1 (y.eval t (x.eval t weight.2).2).1 weight.1,
        (y.eval t (x.eval t weight.2).2).2) := rfl

theorem eval_snd (e : Signal) (t : Binary32) (source : σ) :
    (e.eval t source).2 = afterDraws e.draws source := by
  -- Each operand starts from the state that the one before it leaves.
  induction e generalizing source with
  | time | const => rfl
  | noise => rfl
  | add l r ihl ihr => rw [eval_add, ihr, ihl, draws, afterDraws_add]
  | mul l r ihl ihr => rw [eval_mul, ihr, ihl, draws, afterDraws_add]
  | lerp x y s ihx ihy ihs =>
    rw [eval_lerp, draws, afterDraws_add, afterDraws_add]
    simp only [ihx, ihy, ihs]

theorem readings_eval (e : Signal) (t : Binary32) (source : σ) :
    readings (e.eval t) source = (drawMany e.draws source).1 :=
  readings_eq_drawMany (eval_snd e t) source

theorem length_readings_eval (e : Signal) (t : Binary32) (source : σ) :
    (readings (e.eval t) source).length = e.draws := by
  rw [readings_eval, length_drawMany]

/-! ## Signals without noise -/

theorem draws_eq_zero_iff {e : Signal} : e.draws = 0 ↔ e.hasNoise = false := by
  induction e with
  | time | const => exact iff_of_true rfl rfl
  | noise => exact iff_of_false Nat.one_ne_zero nofun
  | add l r ihl ihr | mul l r ihl ihr =>
    rw [draws, Nat.add_eq_zero_iff, ihl, ihr, hasNoise, Bool.or_eq_false_iff]
  | lerp x y s ihx ihy ihs =>
    -- The weight draws first, but its noise is looked for last.
    rw [draws, Nat.add_eq_zero_iff, Nat.add_eq_zero_iff, ihx, ihy, ihs, hasNoise,
      Bool.or_eq_false_iff, Bool.or_eq_false_iff, and_assoc, and_comm]

/-- Without noise, the value at a time is one and the same from every source. -/
theorem eval_eq_pure {e : Signal} (h : e.hasNoise = false) (t : Binary32) (other : τ) :
    (e.eval t : StateM σ Binary32) = pure (e.eval t other).1 := by
  -- The other source changes from operand to operand, and each of its states will do.
  induction e generalizing other with
  | time | const => rfl
  | noise => cases h
  | add l r ihl ihr | mul l r ihl ihr =>
    rw [hasNoise, Bool.or_eq_false_iff] at h
    rw [eval, ihl h.1 other, pure_bind, ihr h.2 (l.eval t other).2, pure_bind]
    rfl
  | lerp x y s ihx ihy ihs =>
    rw [hasNoise, Bool.or_eq_false_iff, Bool.or_eq_false_iff] at h
    rw [eval, ihs h.2 other, pure_bind, ihx h.1.1 (s.eval t other).2, pure_bind,
      ihy h.1.2 (x.eval t (s.eval t other).2).2, pure_bind]
    rfl

/-! ## Compiled signals -/

@[simp] theorem draws_compile (e : Signal) : e.compile.draws = e.draws := by
  induction e with
  | time | noise | const => rfl
  | add l r ihl ihr | mul l r ihl ihr => simp only [compile, Sampler.draws, draws, ihl, ihr]
  | lerp x y s ihx ihy ihs => simp only [compile, Sampler.draws, draws, ihx, ihy, ihs]

end Signal

namespace Sampler

theorem sample_add (t : Binary32) (l r : Sampler) (source : σ) :
    (add l r).sample t source =
      (((l.sample t source).1 + (r.sample t (l.sample t source).2).1),
        (r.sample t (l.sample t source).2).2) := rfl

theorem sample_mul (t : Binary32) (l r : Sampler) (source : σ) :
    (mul l r).sample t source =
      (((l.sample t source).1 * (r.sample t (l.sample t source).2).1),
        (r.sample t (l.sample t source).2).2) := rfl

theorem sample_lerp (t : Binary32) (x y s : Sampler) (source : σ) :
    (lerp x y s).sample t source =
      let weight := s.sample t source
      (Binary32.blend (x.sample t weight.2).1 (y.sample t (x.sample t weight.2).2).1 weight.1,
        (y.sample t (x.sample t weight.2).2).2) := rfl

theorem sample_snd (n : Sampler) (t : Binary32) (source : σ) :
    (n.sample t source).2 = afterDraws n.draws source := by
  -- A retimed sampler evaluates its operand at another time, so the time varies as well.
  induction n generalizing t source with
  | cubic | noise => rfl
  | add l r ihl ihr => rw [sample_add, ihr, ihl, draws, afterDraws_add]
  | mul l r ihl ihr => rw [sample_mul, ihr, ihl, draws, afterDraws_add]
  | lerp x y s ihx ihy ihs =>
    rw [sample_lerp, draws, afterDraws_add, afterDraws_add]
    simp only [ihx, ihy, ihs]
  | retime scale offset inner ih => exact ih _ source

theorem readings_sample (n : Sampler) (t : Binary32) (source : σ) :
    readings (n.sample t) source = (drawMany n.draws source).1 :=
  readings_eq_drawMany (sample_snd n t) source

end Sampler

end TimeSignal
