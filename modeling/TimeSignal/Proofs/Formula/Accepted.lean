import TimeSignal.Proofs.Binary32.Agreement
import TimeSignal.Proofs.Formula.Parser
import TimeSignal.Proofs.Signal.Constants

/-!
# The accepted formulas

A formula is accepted when its body lexes and the tokens are derived by the grammar.  The signal is
the one that the derivation stands for.  Its constants are finite: they are the numbers among the
tokens, which the lexer refuses beyond the largest finite one, up to their sign, or `-1`.

## Main definitions

* `Level.HasFiniteConsts`: what a level stands for has finite constants

## Main results

* `Formula.parse_eq_ok_iff`: a formula is accepted exactly if its tokens are derived
* `Formula.hasFiniteConsts_signal`: a derivation of finite numbers stands for finite constants
* `Formula.parse_grammar`: a formula is accepted exactly if its tokens are derived, and it is the
  signal of their derivation
-/

namespace TimeSignal

namespace Formula

/-- A level stands for a signal with finite constants, or for an extension of such signals. -/
def Level.HasFiniteConsts : (level : Level) → level.Meaning → Prop
  | sum, e | product, e | signed, e | operand, e => e.HasFiniteConsts
  | terms, extend | factors, extend =>
    ∀ left : Signal, left.HasFiniteConsts → (extend left).HasFiniteConsts

theorem hasFiniteConsts_negated {e : Signal} (h : e.HasFiniteConsts) :
    (negated e).HasFiniteConsts := by
  cases e with
  | const value =>
    rw [negated, Signal.hasFiniteConsts_const, Binary32.isFinite_neg]
    exact Signal.hasFiniteConsts_const.mp h
  | _ => exact Signal.hasFiniteConsts_mul.mpr ⟨Signal.hasFiniteConsts_const.mpr (by decide), h⟩

/-- A derivation of finite numbers stands for a signal with finite constants: besides the numbers,
only the `-1` of differences and of minus signs becomes a constant. -/
theorem hasFiniteConsts_signal {level : Level} (d : Derivation level)
    (h : ∀ value, .number value ∈ d.tokens → value.isFinite = true) :
    level.HasFiniteConsts d.signal := by
  have hone : (-1 : Binary32).isFinite = true := by decide
  induction d with
  | sum first more ihf ihm | product first more ihf ihm =>
    have hf := ihf fun value hv => h value (List.mem_append_left _ hv)
    exact ihm (fun value hv => h value (List.mem_append_right _ hv)) _ hf
  | noTerm | noFactor => exact fun left hl => hl
  | plus term more iht ihm =>
    have ht := iht fun value hv => h value (List.mem_cons_of_mem _ (List.mem_append_left _ hv))
    have hm := ihm fun value hv => h value (List.mem_cons_of_mem _ (List.mem_append_right _ hv))
    intro left hl
    exact hm _ (Signal.hasFiniteConsts_add.mpr ⟨hl, ht⟩)
  | minus term more iht ihm =>
    have ht := iht fun value hv => h value (List.mem_cons_of_mem _ (List.mem_append_left _ hv))
    have hm := ihm fun value hv => h value (List.mem_cons_of_mem _ (List.mem_append_right _ hv))
    intro left hl
    refine hm _ (Signal.hasFiniteConsts_add.mpr ⟨hl, ?_⟩)
    exact Signal.hasFiniteConsts_mul.mpr ⟨Signal.hasFiniteConsts_const.mpr hone, ht⟩
  | times factor more ihf ihm =>
    have hf := ihf fun value hv => h value (List.mem_cons_of_mem _ (List.mem_append_left _ hv))
    have hm := ihm fun value hv => h value (List.mem_cons_of_mem _ (List.mem_append_right _ hv))
    intro left hl
    exact hm _ (Signal.hasFiniteConsts_mul.mpr ⟨hl, hf⟩)
  | negative inner ih =>
    rw [signal_negative]
    exact hasFiniteConsts_negated (ih fun value hv => h value (List.mem_cons_of_mem _ hv))
  | operand inner ih => exact ih h
  | number value => exact Signal.hasFiniteConsts_const.mpr (h value List.mem_cons_self)
  | time => exact Signal.hasFiniteConsts_time
  | rand => exact Signal.hasFiniteConsts_noise
  | lerp start stop weight ihx ihy ihs =>
    simp only [Derivation.tokens, List.mem_cons, List.mem_append] at h
    refine Signal.hasFiniteConsts_lerp.mpr ⟨ihx fun value hv => ?_, ihy fun value hv => ?_,
      ihs fun value hv => ?_⟩
    · exact h value (by simp [hv])
    · exact h value (by simp [hv])
    · exact h value (by simp [hv])
  | group inner ih =>
    exact ih fun value hv => h value (List.mem_cons_of_mem _ (List.mem_append_left _ hv))

theorem parse_eq_ok_iff {source : String} {e : Signal} :
    parse source = .ok e ↔ ∃ ls, lexemes (body source.toList) = .ok ls ∧
      ∃ d : Derivation .sum, d.tokens = tokens ls ∧ d.signal = e := by
  rw [parse, parseChars]
  cases hl : lexemes (body source.toList) with
  | error refusal => simp
  | ok ls => simp only [parseLexemes_eq_ok_iff, Except.ok.injEq, exists_eq_left']

/-- **The parser accepts exactly the texts whose tokens the grammar derives**, and returns the
signal of the derivation.  The derivation is the only one of its tokens, and its signal holds finite
constants only. -/
theorem parse_grammar :
    (∀ (source : String) (e : Signal), parse source = .ok e ↔
      ∃ ls, lexemes (body source.toList) = .ok ls ∧
        ∃ d : Derivation .sum, d.tokens = ls.map Lexeme.token ∧ d.signal = e) ∧
    (∀ d d' : Derivation .sum, d.tokens = d'.tokens → d = d') ∧
    ∀ (source : String) (e : Signal), parse source = .ok e →
      ∀ value ∈ e.consts, value.isFinite = true := by
  refine ⟨fun source e => parse_eq_ok_iff, fun d d' => Derivation.tokens_injective, ?_⟩
  intro source e h
  obtain ⟨ls, hl, d, hd, rfl⟩ := parse_eq_ok_iff.mp h
  apply hasFiniteConsts_signal d
  intro value hv
  rw [hd] at hv
  exact (lexes_of_lexemesFrom hl).isFinite_of_mem hv

/-- A difference is read as a sum, and its constants are finite. -/
theorem parse_grammar_difference :
    parse " =t - t" = .ok (.add .time (.mul (.const (-1)) .time)) ∧
      ∀ value ∈ (Signal.add .time (.mul (.const (-1)) .time)).consts, value.isFinite = true := by
  have hl : lexemes (body " =t - t".toList) =
      .ok [⟨.name "t", 0, 1⟩, ⟨.minus, 2, 3⟩, ⟨.name "t", 4, 5⟩] := by
    have hb : body " =t - t".toList = ['t', ' ', '-', ' ', 't'] := by decide
    have hfirst : nextToken 't' [' ', '-', ' ', 't'] = .ok (.name "t", 0) := by rfl
    have hminus : nextToken '-' [' ', 't'] = .ok (.minus, 0) := by rfl
    have hlast : nextToken 't' [] = .ok (.name "t", 0) := by rfl
    rw [hb]
    simp [lexemes, lexemesFrom, hfirst, hminus, hlast, isLayout]
  have hp := (parse_grammar.1 " =t - t" _).mpr ⟨_, hl,
    .sum (.product (.operand .time) .noFactor)
      (.minus (.product (.operand .time) .noFactor) .noTerm), rfl, rfl⟩
  exact ⟨hp, parse_grammar.2.2 _ _ hp⟩

end Formula

end TimeSignal
