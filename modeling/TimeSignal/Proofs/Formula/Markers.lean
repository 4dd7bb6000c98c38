import TimeSignal.Command.Run
import TimeSignal.Proofs.Formula.Shader
import Mathlib.Data.List.Infix

/-!
# The markers in a shading-language text

Both markers start with a character that nothing else in the text of a signal has, and that no
marker has a second time.  So an occurrence of a marker starts where a marker has been written, and
it is the marker that has been written there: none arises across the pieces of the text or inside a
constant.  The markers in the text are therefore counted exactly, one for each noise leaf and one
for each constant that is not finite.  The constants of a signal that is read from text are finite,
so what is reported of it counts its noise leaves.

## Main definitions

* `Text.occurrences`: how many times a pattern stands in a text
* `Text.Holds`: a text holds a pattern a number of times, whatever comes after it

## Main results

* `Signal.holds_shader`: how many times the text of a signal holds a pattern that starts like the
  markers
* `Command.run_shader`: the outcome of printing an expression in shading language
* `shader_markers`: the count is that of the markers, and for a formula that of its random draws
-/

namespace TimeSignal

/-! ## Occurrences of a pattern -/

namespace Text

/-- How many times a pattern stands in a text: the number of ends of the text that start with it. -/
def occurrences (pattern text : List Char) : Nat := text.tails.countP pattern.isPrefixOf

theorem occurrences_cons (pattern : List Char) (c : Char) (text : List Char) :
    occurrences pattern (c :: text) =
      occurrences pattern text + if pattern.isPrefixOf (c :: text) then 1 else 0 := by
  rw [occurrences, List.tails_cons, List.countP_cons, occurrences]

/-- The text holds the pattern `n` times, and none of its ends starts an occurrence that reaches
into what comes after the text. -/
def Holds (pattern text : List Char) (n : Nat) : Prop :=
  ∀ rest, occurrences pattern (text ++ rest) = n + occurrences pattern rest

namespace Holds

variable {c : Char} {more pattern text front back : List Char} {m n : Nat}

theorem append (hf : Holds pattern front m) (hb : Holds pattern back n) :
    Holds pattern (front ++ back) (m + n) := by
  intro rest
  rw [List.append_assoc, hf, hb, Nat.add_assoc]

/-- A text without the first character of a pattern starts no occurrence of it. -/
theorem of_notMem (h : c ∉ text) : Holds (c :: more) text 0 := by
  intro rest
  induction text with
  | nil => rw [List.nil_append, Nat.zero_add]
  | cons d text ih =>
    obtain ⟨hd, ht⟩ := not_or.mp (mt List.mem_cons.mpr h)
    have hne : (c == d) = false := beq_eq_false_iff_ne.mpr hd
    rw [List.cons_append, occurrences_cons, ih ht, List.isPrefixOf, hne, Bool.false_and,
      if_neg Bool.false_ne_true, Nat.add_zero]

theorem of_subset {all : List Char} (h : c ∉ all) (hsub : text ⊆ all) : Holds (c :: more) text 0 :=
  of_notMem (mt (@hsub c) h)

/-- Where the first character of a pattern stands only at the front, an occurrence of the pattern
starts there or nowhere. -/
theorem occurrences_head (h : c ∉ text) (rest : List Char) :
    occurrences (c :: more) (c :: text ++ rest) =
      occurrences (c :: more) rest + if (c :: more).isPrefixOf (c :: text ++ rest) then 1 else 0 := by
  have htext : occurrences (c :: more) (text ++ rest) = 0 + occurrences (c :: more) rest :=
    of_notMem h rest
  rw [List.cons_append, occurrences_cons, htext, Nat.zero_add]

/-- A text that has its first character once holds itself once. -/
theorem self (h : c ∉ text) : Holds (c :: text) (c :: text) 1 := by
  intro rest
  have hprefix : (c :: text).isPrefixOf (c :: text ++ rest) = true :=
    List.isPrefixOf_iff_prefix.mpr (List.prefix_append _ rest)
  rw [occurrences_head h, if_pos hprefix, Nat.add_comm]

/-- A text that has its first character once does not hold a pattern with another second one. -/
theorem of_ne {d d' : Char} (h : c ∉ d' :: text) (hne : d ≠ d') :
    Holds (c :: d :: more) (c :: d' :: text) 0 := by
  intro rest
  have hprefix : ¬ (c :: d :: more).isPrefixOf (c :: d' :: text ++ rest) = true := by
    intro hp
    obtain ⟨-, htail⟩ := List.cons_prefix_cons.mp (List.isPrefixOf_iff_prefix.mp hp)
    exact hne (List.cons_prefix_cons.mp htail).1
  rw [occurrences_head h, if_neg hprefix, Nat.add_comm]

theorem occurrences_eq (h : Holds pattern text n) (hne : pattern ≠ []) :
    occurrences pattern text = n := by
  have hall := h []
  rw [List.append_nil] at hall
  obtain ⟨c, more, rfl⟩ := List.exists_cons_of_ne_nil hne
  exact hall

/-! ## Joined expressions -/

variable {l r x y s : Shader} {k : Nat}

theorem infixed (operator : Char) (hl : Holds (c :: more) l.chars m)
    (hr : Holds (c :: more) r.chars n) (h : c ∉ ['(', ' ', operator, ')']) :
    Holds (c :: more) (Shader.infixed operator l r).chars (m + n) := by
  have hopen : Holds (c :: more) ['('] 0 := of_subset h (by simp)
  have hsign : Holds (c :: more) [' ', operator, ' '] 0 := of_subset h (by simp)
  have hclose : Holds (c :: more) [')'] 0 := of_subset h (by simp)
  have hall := (((hopen.append hl).append hsign).append hr).append hclose
  rwa [Nat.zero_add, Nat.add_zero, Nat.add_zero] at hall

theorem blend (hx : Holds (c :: more) x.chars m) (hy : Holds (c :: more) y.chars n)
    (hs : Holds (c :: more) s.chars k) (h : c ∉ ['l', 'e', 'r', 'p', '(', ',', ' ', ')']) :
    Holds (c :: more) (Shader.blend x y s).chars (m + n + k) := by
  have hopen : Holds (c :: more) ['l', 'e', 'r', 'p', '('] 0 := of_subset h (by simp)
  have hcomma : Holds (c :: more) [',', ' '] 0 := of_subset h (by simp)
  have hclose : Holds (c :: more) [')'] 0 := of_subset h (by simp)
  have hall :=
    (((((hopen.append hx).append hcomma).append hy).append hcomma).append hs).append hclose
  rwa [Nat.zero_add, Nat.add_zero, Nat.add_zero, Nat.add_zero] at hall

end Holds

end Text

open Text (occurrences Holds)

/-! ## The markers in the text of a signal -/

namespace Shader

theorem noiseMarker_eq : noiseMarker = '<' :: 'r' :: "andom-not-supported>".toList := by decide

theorem constMarker_eq : constMarker = '<' :: 'n' :: "on-finite-not-supported>".toList := by decide

theorem holds_noiseMarker_self : Holds noiseMarker noiseMarker 1 := by
  rw [noiseMarker_eq]
  exact .self (by decide)

theorem holds_constMarker_self : Holds constMarker constMarker 1 := by
  rw [constMarker_eq]
  exact .self (by decide)

/-- The two markers differ in their second character. -/
theorem holds_noiseMarker_constMarker : Holds noiseMarker constMarker 0 := by
  rw [noiseMarker_eq, constMarker_eq]
  exact .of_ne (by decide) (by decide)

theorem holds_constMarker_noiseMarker : Holds constMarker noiseMarker 0 := by
  rw [noiseMarker_eq, constMarker_eq]
  exact .of_ne (by decide) (by decide)

end Shader

namespace Signal

/-- If a pattern starts like the markers and stands `m` times in the one and `n` times in the other,
then the text of a signal holds it so many times for each noise leaf, and for each constant that is
not finite. -/
theorem holds_shader {pattern : List Char} {m n : Nat} (hp : ∃ more, pattern = '<' :: more)
    (hm : Holds pattern Shader.noiseMarker m) (hn : Holds pattern Shader.constMarker n)
    (e : Signal) : Holds pattern e.shader.chars (m * e.draws + n * e.nonFiniteConsts) := by
  obtain ⟨more, rfl⟩ := hp
  induction e with
  | time =>
    have htime : Holds ('<' :: more) ['t'] 0 := Holds.of_notMem (by decide)
    exact htime
  | noise =>
    have hcount : m * noise.draws + n * noise.nonFiniteConsts = m := Nat.mul_one m
    rw [hcount]
    exact hm
  | const value =>
    rw [shader, nonFiniteConsts_const, draws, Nat.mul_zero, Nat.zero_add]
    split
    · next hf =>
      -- The characters of a numeral are not those of a marker.
      have hchars : '<' ∉ Shader.constant value := fun hc =>
        absurd (Formula.isNumeralChar_of_mem_constant hf hc) (by decide)
      exact Holds.of_notMem hchars
    · rw [Nat.mul_one]
      exact hn
  | add l r ihl ihr =>
    rw [draws, nonFiniteConsts_add, Nat.mul_add, Nat.mul_add, Nat.add_add_add_comm]
    exact ihl.infixed '+' ihr (by decide)
  | mul l r ihl ihr =>
    rw [draws, nonFiniteConsts_mul, Nat.mul_add, Nat.mul_add, Nat.add_add_add_comm]
    exact ihl.infixed '*' ihr (by decide)
  | lerp x y s ihx ihy ihs =>
    -- The text has the weight last, while its draws are counted first.
    have h := ihx.blend ihy ihs (by decide)
    have hsum : m * (s.draws + x.draws + y.draws) +
          n * (x.nonFiniteConsts + y.nonFiniteConsts + s.nonFiniteConsts) =
        m * x.draws + n * x.nonFiniteConsts + (m * y.draws + n * y.nonFiniteConsts) +
          (m * s.draws + n * s.nonFiniteConsts) := by ring
    rw [draws, nonFiniteConsts_lerp, hsum]
    exact h

theorem occurrences_noiseMarker (e : Signal) :
    occurrences Shader.noiseMarker e.shader.chars = e.draws := by
  have h := holds_shader ⟨_, Shader.noiseMarker_eq⟩ Shader.holds_noiseMarker_self
    Shader.holds_noiseMarker_constMarker e
  rw [Nat.one_mul, Nat.zero_mul, Nat.add_zero] at h
  exact h.occurrences_eq (by decide)

theorem occurrences_constMarker (e : Signal) :
    occurrences Shader.constMarker e.shader.chars = e.nonFiniteConsts := by
  have h := holds_shader ⟨_, Shader.constMarker_eq⟩ Shader.holds_constMarker_noiseMarker
    Shader.holds_constMarker_self e
  rw [Nat.one_mul, Nat.zero_mul, Nat.zero_add] at h
  exact h.occurrences_eq (by decide)

end Signal

/-! ## Signals that are read from text -/

namespace Formula

theorem hasFiniteConsts_of_parse {source : String} {e : Signal} (h : parse source = .ok e) :
    e.HasFiniteConsts := by
  obtain ⟨ls, hl, d, hd, rfl⟩ := parse_eq_ok_iff.mp h
  refine hasFiniteConsts_signal d fun value hv => ?_
  rw [hd] at hv
  exact (lexes_of_lexemesFrom hl).isFinite_of_mem hv

theorem unsupported_of_parse {source : String} {e : Signal} (h : parse source = .ok e) :
    e.shader.unsupported = e.draws := by
  have hnone := Signal.nonFiniteConsts_eq_zero_iff.mpr (hasFiniteConsts_of_parse h)
  rw [Signal.unsupported_eq, hnone, Nat.add_zero]

end Formula

namespace Command

/-- Printing an expression in shading language succeeds if the expression has no noise or markers
are allowed, and otherwise it reports how many draws there are. -/
theorem run_shader {arguments : List String} {expression : String} {allow : Bool} {e : Signal}
    (builder : Sampler.PoolBuilder) (ha : ofArguments arguments = .ok (.shader expression allow))
    (hp : Formula.parse expression = .ok e) :
    run arguments builder =
      if e.draws = 0 ∨ allow = true then ⟨0, e.shader.text ++ "\n", ""⟩
      else ⟨1, "", "Error: shader output contains " ++ toString e.draws ++
        " unsupported random draw(s): " ++ e.shader.text ++ "\n"⟩ := by
  have hcount := Formula.unsupported_of_parse hp
  have hread : readExpression expression = .ok e := by rw [readExpression, hp]
  have hvalid : (e.shader.isValid || allow) = true ↔ e.draws = 0 ∨ allow = true := by
    rw [Bool.or_eq_true, Shader.isValid, beq_iff_eq, hcount]
  rw [run, ha]
  dsimp only [perform]
  rw [hread]
  dsimp only [bind, Except.bind]
  by_cases h : e.draws = 0 ∨ allow = true
  · rw [if_pos h, if_pos (hvalid.mpr h)]
  · rw [if_neg h, if_neg (mt hvalid.mp h)]
    dsimp only [Failure.report]
    rw [hcount]

end Command

/-! ## The count -/

open Formula (body isLayout lexemes lexemesFrom nextToken parse parse_eq_ok_iff)

/-- **The count of a shading-language text is the number of markers in it**, which are one for each
noise leaf of the signal and one for each constant that is infinite or `nan`.  If the signal is read
from text, there are no such constants, so the count is that of the noise leaves; and so is the
number of random draws that the program reports when it refuses to print the text. -/
theorem shader_markers :
    (∀ e : Signal,
      e.shader.unsupported =
          occurrences Shader.noiseMarker e.shader.text.toList +
            occurrences Shader.constMarker e.shader.text.toList ∧
        occurrences Shader.noiseMarker e.shader.text.toList = e.draws ∧
        occurrences Shader.constMarker e.shader.text.toList = e.nonFiniteConsts) ∧
    (∀ (source : String) (e : Signal),
      parse source = .ok e → e.shader.unsupported = e.draws) ∧
    ∀ (arguments : List String) (expression : String) (allow : Bool) (e : Signal)
        (builder : Sampler.PoolBuilder),
      Command.ofArguments arguments = .ok (.shader expression allow) →
      parse expression = .ok e →
      Command.run arguments builder =
        if e.draws = 0 ∨ allow = true then ⟨0, e.shader.text ++ "\n", ""⟩
        else ⟨1, "", "Error: shader output contains " ++ toString e.draws ++
          " unsupported random draw(s): " ++ e.shader.text ++ "\n"⟩ := by
  refine ⟨fun e => ?_, fun source e => Formula.unsupported_of_parse,
    fun arguments expression allow e => Command.run_shader⟩
  rw [Shader.text, String.toList_ofList, e.occurrences_noiseMarker, e.occurrences_constMarker]
  exact ⟨e.unsupported_eq, rfl, rfl⟩

/-- The derivation of `rand() * rand()`. -/
def twoDraws : Formula.Derivation .sum :=
  .sum (.product (.operand .rand) (.times (.operand .rand) .noFactor)) .noTerm

theorem shader_markers_twoDraws :
    Command.ofArguments ["shader", "rand() * rand()"] = .ok (.shader "rand() * rand()" false) ∧
      parse "rand() * rand()" = .ok (.mul .noise .noise) ∧
      (Signal.mul .noise .noise).shader.unsupported = (Signal.mul .noise .noise).draws ∧
      Command.run ["shader", "rand() * rand()"] =
        ⟨1, "", "Error: shader output contains 2 unsupported random draw(s): " ++
          "(<random-not-supported> * <random-not-supported>)\n"⟩ := by
  have ha : Command.ofArguments ["shader", "rand() * rand()"] =
      .ok (.shader "rand() * rand()" false) := by decide
  have hl : lexemes (body "rand() * rand()".toList) =
      .ok [⟨.name "rand", 0, 4⟩, ⟨.leftParen, 4, 5⟩, ⟨.rightParen, 5, 6⟩, ⟨.star, 7, 8⟩,
        ⟨.name "rand", 9, 13⟩, ⟨.leftParen, 13, 14⟩, ⟨.rightParen, 14, 15⟩] := by
    have hb : body "rand() * rand()".toList =
        ['r', 'a', 'n', 'd', '(', ')', ' ', '*', ' ', 'r', 'a', 'n', 'd', '(', ')'] := by decide
    have hrand : nextToken 'r'
        ['a', 'n', 'd', '(', ')', ' ', '*', ' ', 'r', 'a', 'n', 'd', '(', ')'] =
          .ok (.name "rand", 3) := by rfl
    have hopen : nextToken '(' [')', ' ', '*', ' ', 'r', 'a', 'n', 'd', '(', ')'] =
        .ok (.leftParen, 0) := by rfl
    have hclose : nextToken ')' [' ', '*', ' ', 'r', 'a', 'n', 'd', '(', ')'] =
        .ok (.rightParen, 0) := by rfl
    have hstar : nextToken '*' [' ', 'r', 'a', 'n', 'd', '(', ')'] = .ok (.star, 0) := by rfl
    have hrand' : nextToken 'r' ['a', 'n', 'd', '(', ')'] = .ok (.name "rand", 3) := by rfl
    have hopen' : nextToken '(' [')'] = .ok (.leftParen, 0) := by rfl
    have hclose' : nextToken ')' [] = .ok (.rightParen, 0) := by rfl
    rw [hb]
    simp [lexemes, lexemesFrom, hrand, hopen, hclose, hstar, hrand', hopen', hclose', isLayout]
  have hp : parse "rand() * rand()" = .ok (.mul .noise .noise) :=
    parse_eq_ok_iff.mpr ⟨_, hl, twoDraws, rfl, rfl⟩
  have hrun := shader_markers.2.2 _ _ _ _ .inOrder ha hp
  refine ⟨ha, hp, shader_markers.2.1 _ _ hp, ?_⟩
  rw [hrun]
  decide

end TimeSignal
