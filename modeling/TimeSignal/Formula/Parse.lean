import TimeSignal.Formula.Token
import TimeSignal.Signal.Basic
import TimeSignal.Text.Blank

/-!
# Signals of formulas

The grammar of formulas:

* a sum is products joined by `+` or `-`, grouped from the left;
* a product is signed operands joined by `*`, grouped from the left;
* a signed operand is an operand, or `-` and a signed operand;
* an operand is a number, `t`, `rand()`, `lerp(sum, sum, sum)`, or a sum in parentheses.

White space around a formula, and one `=` in front of it, are dropped.

## Main definitions

* `Formula.parse`: the signal of a formula.
* `Formula.parseSum`, `Formula.parseProduct`, `Formula.parseSigned`, `Formula.parseOperand`: the
  levels of the grammar.  Each returns the lexemes that it left, which are fewer than it was given.
-/

namespace TimeSignal

namespace Formula

/-- The signal of a minus sign: a constant changes its sign, all else is multiplied by `-1`. -/
def negated : Signal → Signal
  | .const value => .const (-value)
  | e => .mul (.const (-1)) e

/-- A refusal at the first of the remaining lexemes, or at the end of the text. -/
def refuse {α : Type} (size : Nat) (lexemes : List Lexeme) (cause : Option Token → Cause) :
    Except Refusal α :=
  match lexemes with
  | [] => .error ⟨size, cause none⟩
  | lexeme :: _ => .error ⟨lexeme.start, cause (some lexeme.token)⟩

/-- A result together with the remaining lexemes, fewer than there were. -/
abbrev Parsed (α : Type) (lexemes : List Lexeme) : Type :=
  Except Refusal (α × { rest : List Lexeme // rest.length < lexemes.length })

/-- A result together with the remaining lexemes, not more than there were. -/
abbrev Continued (α : Type) (lexemes : List Lexeme) : Type :=
  Except Refusal (α × { rest : List Lexeme // rest.length ≤ lexemes.length })

/-- The token `wanted` at the start of the lexemes. -/
def expect (size : Nat) (wanted : Token) (lexemes : List Lexeme) : Parsed Unit lexemes :=
  match lexemes with
  | [] => refuse size [] (.expected (some wanted))
  | lexeme :: rest =>
    if lexeme.token = wanted then .ok ((), ⟨rest, Nat.lt_succ_self _⟩)
    else refuse size (lexeme :: rest) (.expected (some wanted))

mutual

/-- A sum. -/
def parseSum (size : Nat) (lexemes : List Lexeme) : Parsed Signal lexemes :=
  match parseProduct size lexemes with
  | .error refusal => .error refusal
  | .ok (first, ⟨rest, h⟩) =>
    match parseTerms size first rest with
    | .error refusal => .error refusal
    | .ok (e, ⟨rest', h'⟩) => .ok (e, ⟨rest', by omega⟩)
termination_by (lexemes.length, 3)

/-- The further products of a sum, added to or subtracted from the sum so far. -/
def parseTerms (size : Nat) (left : Signal) (lexemes : List Lexeme) : Continued Signal lexemes :=
  match lexemes with
  | [] => .ok (left, ⟨[], Nat.le_refl _⟩)
  | lexeme :: rest =>
    if lexeme.token = .plus ∨ lexeme.token = .minus then
      match parseProduct size rest with
      | .error refusal => .error refusal
      | .ok (right, ⟨rest', h⟩) =>
        let sum := if lexeme.token = .plus then Signal.add left right else Signal.sub left right
        match parseTerms size sum rest' with
        | .error refusal => .error refusal
        | .ok (e, ⟨rest'', h'⟩) => .ok (e, ⟨rest'', by simp only [List.length_cons]; omega⟩)
    else .ok (left, ⟨lexeme :: rest, Nat.le_refl _⟩)
termination_by (lexemes.length, 0)

/-- A product. -/
def parseProduct (size : Nat) (lexemes : List Lexeme) : Parsed Signal lexemes :=
  match parseSigned size lexemes with
  | .error refusal => .error refusal
  | .ok (first, ⟨rest, h⟩) =>
    match parseFactors size first rest with
    | .error refusal => .error refusal
    | .ok (e, ⟨rest', h'⟩) => .ok (e, ⟨rest', by omega⟩)
termination_by (lexemes.length, 2)

/-- The further operands of a product, multiplied to the product so far. -/
def parseFactors (size : Nat) (left : Signal) (lexemes : List Lexeme) :
    Continued Signal lexemes :=
  match lexemes with
  | [] => .ok (left, ⟨[], Nat.le_refl _⟩)
  | lexeme :: rest =>
    if lexeme.token = .star then
      match parseSigned size rest with
      | .error refusal => .error refusal
      | .ok (right, ⟨rest', h⟩) =>
        match parseFactors size (Signal.mul left right) rest' with
        | .error refusal => .error refusal
        | .ok (e, ⟨rest'', h'⟩) => .ok (e, ⟨rest'', by simp only [List.length_cons]; omega⟩)
    else .ok (left, ⟨lexeme :: rest, Nat.le_refl _⟩)
termination_by (lexemes.length, 0)

/-- An operand with any number of minus signs in front. -/
def parseSigned (size : Nat) (lexemes : List Lexeme) : Parsed Signal lexemes :=
  match lexemes with
  | [] => parseOperand size []
  | lexeme :: rest =>
    if lexeme.token = .minus then
      match parseSigned size rest with
      | .error refusal => .error refusal
      | .ok (e, ⟨rest', h⟩) => .ok (negated e, ⟨rest', by simp only [List.length_cons]; omega⟩)
    else parseOperand size (lexeme :: rest)
termination_by (lexemes.length, 1)

/-- An operand.  The arguments of a function are read before they are counted, and a wrong count is
refused at the function's name. -/
def parseOperand (size : Nat) (lexemes : List Lexeme) : Parsed Signal lexemes :=
  match lexemes with
  | [] => refuse size [] .unexpectedToken
  | lexeme :: rest =>
    match lexeme.token with
    | .number value => .ok (.const value, ⟨rest, Nat.lt_succ_self _⟩)
    | .name name =>
      if name = "t" then .ok (.time, ⟨rest, Nat.lt_succ_self _⟩)
      else if name = "rand" then
        match parseArguments size rest with
        | .error refusal => .error refusal
        | .ok ([], ⟨rest', h⟩) => .ok (.noise, ⟨rest', Nat.lt_succ_of_lt h⟩)
        | .ok (arguments, _) => .error ⟨lexeme.start, .wrongArity "rand" 0 arguments.length⟩
      else if name = "lerp" then
        match parseArguments size rest with
        | .error refusal => .error refusal
        | .ok ([x, y, s], ⟨rest', h⟩) => .ok (.lerp x y s, ⟨rest', Nat.lt_succ_of_lt h⟩)
        | .ok (arguments, _) => .error ⟨lexeme.start, .wrongArity "lerp" 3 arguments.length⟩
      else .error ⟨lexeme.start, .unknownName name⟩
    | .leftParen =>
      match parseSum size rest with
      | .error refusal => .error refusal
      | .ok (e, ⟨rest', h⟩) =>
        match expect size .rightParen rest' with
        | .error refusal => .error refusal
        | .ok ((), ⟨rest'', h'⟩) => .ok (e, ⟨rest'', by simp only [List.length_cons]; omega⟩)
    | _ => refuse size (lexeme :: rest) .unexpectedToken
termination_by (lexemes.length, 0)

/-- The arguments of a function, in parentheses. -/
def parseArguments (size : Nat) (lexemes : List Lexeme) : Parsed (List Signal) lexemes :=
  match expect size .leftParen lexemes with
  | .error refusal => .error refusal
  | .ok ((), ⟨rest, h⟩) =>
    match expect size .rightParen rest with
    | .ok ((), ⟨rest', h'⟩) => .ok ([], ⟨rest', by omega⟩)
    | .error _ =>
      -- The parentheses are not empty, so an argument has to follow.
      match parseArgumentList size rest with
      | .error refusal => .error refusal
      | .ok (arguments, ⟨rest', h'⟩) => .ok (arguments, ⟨rest', by omega⟩)
termination_by (lexemes.length, 0)

/-- One or more arguments with commas between them, and the closing parenthesis. -/
def parseArgumentList (size : Nat) (lexemes : List Lexeme) : Parsed (List Signal) lexemes :=
  match parseSum size lexemes with
  | .error refusal => .error refusal
  | .ok (e, ⟨rest, h⟩) =>
    match expect size .comma rest with
    | .ok ((), ⟨rest', h'⟩) =>
      -- A comma is never the last token before the parenthesis: an argument follows it.
      match parseArgumentList size rest' with
      | .error refusal => .error refusal
      | .ok (arguments, ⟨rest'', h''⟩) => .ok (e :: arguments, ⟨rest'', by omega⟩)
    | .error _ =>
      match expect size .rightParen rest with
      | .error refusal => .error refusal
      | .ok ((), ⟨rest', h'⟩) => .ok ([e], ⟨rest', by omega⟩)
termination_by (lexemes.length, 4)

end

/-- The signal of all lexemes of a text of `size` bytes. -/
def parseLexemes (size : Nat) (lexemes : List Lexeme) : Except Refusal Signal :=
  match parseSum size lexemes with
  | .error refusal => .error refusal
  | .ok (e, ⟨[], _⟩) => .ok e
  | .ok (_, ⟨lexeme :: rest, _⟩) => refuse size (lexeme :: rest) (.expected none)

/-- A formula without the white space around it and without one `=` in front. -/
def body (source : List Char) : List Char :=
  match Text.trim source with
  | '=' :: rest => rest
  | text => text

/-- The signal of a formula.  Offsets in a refusal count from the start of its body. -/
def parseChars (source : List Char) : Except Refusal Signal :=
  let text := body source
  match lexemes text with
  | .error refusal => .error refusal
  | .ok lexemes => parseLexemes (byteLength text) lexemes

/-- The signal of a formula. -/
def parse (source : String) : Except Refusal Signal := parseChars source.toList

end Formula

end TimeSignal
