import TimeSignal.Proofs.Binary32.Sign
import TimeSignal.Proofs.Formula.Accepted
import TimeSignal.Proofs.Signal.Draws

/-!
# The value of a formula

A formula has a value of its own: its derivation is evaluated with differences and changes of sign
as operations, from left to right, without a signal in between.  The signal that is read from the
formula has neither; it has sums with products by `-1` in their place, and constants whose sign has
been changed.  These are exact, so both evaluations make the same draws and end in the same number.

## Main definitions

* `Level.Evaluation`: what a level evaluates to
* `Derivation.eval`: the direct evaluation of a derivation
* `Level.EvaluatesTo`: the signal of a level evaluates as the level does

## Main results

* `Signal.eval_sub`, `Formula.eval_negated`: differences and minus signs
* `Formula.evaluatesTo_signal`: the signal of a derivation evaluates as the derivation
* `Formula.eval_parse`: the signal of a formula evaluates as the formula
-/

namespace TimeSignal

variable {σ : Type} [DrawSource σ]

/-! ## Differences and minus signs -/

theorem Binary32.blend_eq_difference (start stop weight : Binary32) :
    blend start stop weight = difference 1 weight * start + weight * stop := by
  rw [blend, sub_eq_difference]

namespace Signal

theorem eval_neg_one_mul (e : Signal) (t : Binary32) :
    ((mul (const (-1)) e).eval t : StateM σ Binary32) = (do
      let a ← e.eval t
      pure (-a)) := by
  rw [eval, eval]
  simp only [pure_bind, Binary32.neg_one_mul]

theorem eval_sub (l r : Signal) (t : Binary32) :
    ((sub l r).eval t : StateM σ Binary32) = (do
      let a ← l.eval t
      let b ← r.eval t
      pure (Binary32.difference a b)) := by
  simp only [sub, eval, bind_assoc, pure_bind, Binary32.add_neg_one_mul,
    Binary32.sub_eq_difference]

end Signal

namespace Formula

/-- A minus sign changes the sign of the value, also where it changes the sign of a constant. -/
theorem eval_negated (e : Signal) (t : Binary32) :
    ((negated e).eval t : StateM σ Binary32) = (do
      let a ← e.eval t
      pure (-a)) := by
  cases e with
  | const value => rfl
  | _ => exact Signal.eval_neg_one_mul _ t

/-! ## Direct evaluation -/

/-- What a level evaluates to: a number, or for a repetition the number that it makes of the one on
its left. -/
abbrev Level.Evaluation (σ : Type) : Level → Type
  | sum | product | signed | operand => StateM σ Binary32
  | terms | factors => Binary32 → StateM σ Binary32

/-- The value of a derivation at time `t`.  The operands of a sum or a product are evaluated from
left to right; a blend evaluates its weight first.  Each operation rounds its exact result. -/
def Derivation.eval (t : Binary32) : {level : Level} → Derivation level → level.Evaluation σ
  | _, sum first more => do
    let a ← first.eval t
    more.eval t a
  | _, noTerm => fun a => pure a
  | _, plus term more => fun a => do
    let b ← term.eval t
    more.eval t (a + b)
  | _, minus term more => fun a => do
    let b ← term.eval t
    more.eval t (Binary32.difference a b)
  | _, product first more => do
    let a ← first.eval t
    more.eval t a
  | _, noFactor => fun a => pure a
  | _, times factor more => fun a => do
    let b ← factor.eval t
    more.eval t (a * b)
  | _, negative inner => do
    let a ← inner.eval t
    pure (-a)
  | _, operand inner => inner.eval t
  | _, number value => pure value
  | _, time => pure t
  | _, rand => DrawSource.draw
  | _, lerp start stop weight => do
    let s ← weight.eval t
    let x ← start.eval t
    let y ← stop.eval t
    pure (Binary32.difference 1 s * x + s * y)
  | _, group inner => inner.eval t

/-- The signal of a level evaluates as the level does; a repetition goes on from the value of the
signal on its left. -/
def Level.EvaluatesTo (t : Binary32) : (level : Level) → level.Meaning → level.Evaluation σ → Prop
  | sum, e, run | product, e, run | signed, e, run | operand, e, run => e.eval t = run
  | terms, extend, run | factors, extend, run =>
    ∀ left : Signal, (extend left).eval t = left.eval t >>= run

theorem evaluatesTo_signal {level : Level} (d : Derivation level) (t : Binary32) :
    level.EvaluatesTo t d.signal (d.eval t : level.Evaluation σ) := by
  -- What stands on the left of a repetition grows with each operand, so it is not fixed.
  induction d with
  | sum first more ihf ihm | product first more ihf ihm =>
    calc (more.signal first.signal).eval t
        = first.signal.eval t >>= more.eval t := ihm first.signal
      _ = first.eval t >>= more.eval t := by rw [ihf]
  | noTerm | noFactor =>
    intro left
    exact (bind_pure (left.eval t)).symm
  | plus term more iht ihm =>
    intro left
    calc (more.signal (.add left term.signal)).eval t
        = (Signal.add left term.signal).eval t >>= more.eval t := ihm _
      _ = left.eval t >>= (Derivation.plus term more).eval t := by
        rw [Signal.eval, iht]
        simp only [bind_assoc, pure_bind]
        rfl
  | minus term more iht ihm =>
    intro left
    calc (more.signal (.sub left term.signal)).eval t
        = (Signal.sub left term.signal).eval t >>= more.eval t := ihm _
      _ = left.eval t >>= (Derivation.minus term more).eval t := by
        rw [Signal.eval_sub, iht]
        simp only [bind_assoc, pure_bind]
        rfl
  | times factor more ihf ihm =>
    intro left
    calc (more.signal (.mul left factor.signal)).eval t
        = (Signal.mul left factor.signal).eval t >>= more.eval t := ihm _
      _ = left.eval t >>= (Derivation.times factor more).eval t := by
        rw [Signal.eval, ihf]
        simp only [bind_assoc, pure_bind]
        rfl
  | negative inner ih =>
    change (Derivation.negative inner).signal.eval t = _
    rw [signal_negative, eval_negated, ih]
    rfl
  | operand inner ih => exact ih
  | number | time | rand => rfl
  | lerp start stop weight ihx ihy ihs =>
    change (Signal.lerp start.signal stop.signal weight.signal).eval t = _
    rw [Signal.eval, ihx, ihy, ihs]
    simp only [Binary32.blend_eq_difference]
    rfl
  | group inner ih => exact ih

/-- **A formula means what its text says.**  The tokens of a formula have one derivation, and the
signal that is read evaluates as the derivation does: at every time and from every state of a source
both end in the same number and the same state, and read the same draws in the same order. -/
theorem eval_parse {source : String} {e : Signal} (h : parse source = .ok e) :
    ∃ ls, lexemes (body source.toList) = .ok ls ∧
      ∃ d : Derivation .sum, d.tokens = ls.map Lexeme.token ∧
        (∀ d' : Derivation .sum, d'.tokens = ls.map Lexeme.token → d' = d) ∧
        ∀ {σ : Type} [DrawSource σ] (t : Binary32) (draws : σ),
          e.eval t draws = d.eval t draws ∧
            readings (e.eval t) draws = readings (d.eval t) draws := by
  obtain ⟨ls, hl, d, hd, rfl⟩ := parse_eq_ok_iff.mp h
  refine ⟨ls, hl, d, hd, fun d' hd' => Derivation.tokens_injective (hd'.trans hd.symm), ?_⟩
  intro σ _ t draws
  have heval : ∀ {τ : Type} [DrawSource τ], (d.signal.eval t : StateM τ Binary32) = d.eval t :=
    evaluatesTo_signal d t
  exact ⟨congrFun heval draws, congrArg (readings · draws) heval⟩

/-- The derivation of `-rand() - t`. -/
def negatedNoise : Derivation .sum :=
  .sum (.product (.negative (.operand .rand)) .noFactor)
    (.minus (.product (.operand .time) .noFactor) .noTerm)

theorem eval_parse_negatedNoise :
    parse "-rand() - t" =
        .ok (.add (.mul (.const (-1)) .noise) (.mul (.const (-1)) .time)) ∧
      (Signal.add (.mul (.const (-1)) .noise) (.mul (.const (-1)) .time)).eval Binary32.half
        (Playback.start [1]) = negatedNoise.eval Binary32.half (Playback.start [1]) := by
  have hl : lexemes (body "-rand() - t".toList) =
      .ok [⟨.minus, 0, 1⟩, ⟨.name "rand", 1, 5⟩, ⟨.leftParen, 5, 6⟩, ⟨.rightParen, 6, 7⟩,
        ⟨.minus, 8, 9⟩, ⟨.name "t", 10, 11⟩] := by
    have hb : body "-rand() - t".toList =
        ['-', 'r', 'a', 'n', 'd', '(', ')', ' ', '-', ' ', 't'] := by decide
    have hsign : nextToken '-' ['r', 'a', 'n', 'd', '(', ')', ' ', '-', ' ', 't'] =
        .ok (.minus, 0) := by rfl
    have hrand : nextToken 'r' ['a', 'n', 'd', '(', ')', ' ', '-', ' ', 't'] =
        .ok (.name "rand", 3) := by rfl
    have hopen : nextToken '(' [')', ' ', '-', ' ', 't'] = .ok (.leftParen, 0) := by rfl
    have hclose : nextToken ')' [' ', '-', ' ', 't'] = .ok (.rightParen, 0) := by rfl
    have hminus : nextToken '-' [' ', 't'] = .ok (.minus, 0) := by rfl
    have hlast : nextToken 't' [] = .ok (.name "t", 0) := by rfl
    rw [hb]
    simp [lexemes, lexemesFrom, hsign, hrand, hopen, hclose, hminus, hlast, isLayout]
  have hp := parse_eq_ok_iff.mpr ⟨_, hl, negatedNoise, rfl, rfl⟩
  obtain ⟨ls, hl', d, -, hunique, heval⟩ := eval_parse hp
  obtain rfl := Except.ok.inj (hl.symm.trans hl')
  rw [hunique negatedNoise rfl]
  exact ⟨hp, (heval Binary32.half (Playback.start [1])).1⟩

end Formula

end TimeSignal
