import TimeSignal.Decimal.Scan
import TimeSignal.Decimal.Style
import TimeSignal.Fault

/-!
# Tokens of formulas

A formula is the text of a signal.  It is a sequence of tokens: names, numbers, and single
punctuation characters, with layout between them.

## Main definitions

* `Formula.Token`, `Formula.Lexeme`: a token, and a token with the place where it stands.
* `Formula.Cause`, `Formula.Refusal`: why and where a text is refused.
* `Formula.nextToken`: the token at the start of a text.
* `Formula.lexemes`: the tokens of a text.

Places are byte offsets.  A token holds characters of one byte only, so in a text that is not
refused each character counts one.
-/

namespace TimeSignal

namespace Formula

/-- A token. -/
inductive Token where
  /-- A name. -/
  | name (text : String)
  /-- A number without sign. -/
  | number (value : Binary32)
  /-- An opening parenthesis. -/
  | leftParen
  /-- A closing parenthesis. -/
  | rightParen
  /-- A comma. -/
  | comma
  /-- A plus sign. -/
  | plus
  /-- A minus sign. -/
  | minus
  /-- An asterisk. -/
  | star
deriving DecidableEq

/-- The word for a token in a report. -/
def Token.label : Token → String
  | .name text => "Ident(\"" ++ text ++ "\")"
  | .number value => "Number(" ++ String.ofList (value.text .pointed) ++ ")"
  | .leftParen => "LParen"
  | .rightParen => "RParen"
  | .comma => "Comma"
  | .plus => "Plus"
  | .minus => "Minus"
  | .star => "Star"

/-- The word for a token or, without one, for the end of the text. -/
def label (token : Option Token) : String :=
  match token with
  | some token => token.label
  | none => "Eof"

/-- A token with the offsets of its first byte and of the byte after its last. -/
structure Lexeme where
  /-- The token. -/
  token : Token
  /-- The offset of the first byte. -/
  start : Nat
  /-- The offset after the last byte. -/
  stop : Nat
deriving DecidableEq

/-- Why a text is refused. -/
inductive Cause where
  /-- A character starts no token. -/
  | unexpectedCharacter (c : Char)
  /-- The letter of an exponent is not followed by digits. -/
  | missingExponentDigits
  /-- A number is beyond the largest finite one. -/
  | numberOutOfRange
  /-- One token has to stand where there is another; no token is the end of the text. -/
  | expected (wanted found : Option Token)
  /-- No expression starts with a token. -/
  | unexpectedToken (found : Option Token)
  /-- A name has no meaning. -/
  | unknownName (name : String)
  /-- A function is applied to a wrong number of arguments. -/
  | wrongArity (function : String) (wanted found : Nat)
deriving DecidableEq

/-- The words of a cause. -/
def Cause.reason : Cause → String
  | .unexpectedCharacter c => "unexpected character '" ++ String.singleton c ++ "'"
  | .missingExponentDigits => "invalid number exponent (expected digits)"
  | .numberOutOfRange => "number out of range"
  | .expected wanted found => "expected " ++ label wanted ++ ", found " ++ label found
  | .unexpectedToken found => "unexpected token " ++ label found
  | .unknownName name => "unknown identifier '" ++ name ++ "'"
  | .wrongArity function wanted found =>
    function ++ " expects " ++ toString wanted ++ " argument(s), got " ++ toString found

/-- The refusal of a text at an offset. -/
structure Refusal where
  /-- The byte offset. -/
  offset : Nat
  /-- The cause. -/
  cause : Cause
deriving DecidableEq

/-- A refusal as a fault. -/
def Refusal.toFault (refusal : Refusal) : Fault := .parse refusal.offset refusal.cause.reason

/-! ## Characters -/

/-- The characters that separate tokens. -/
def isLayout (c : Char) : Bool :=
  c == ' ' || c == '\t' || c == '\n' || c == '\x0c' || c == '\r'

/-- The characters that start a name. -/
def isNameStart (c : Char) : Bool := c.isAlpha || c == '_'

/-- The characters that continue a name. -/
def isNameChar (c : Char) : Bool := c.isAlphanum || c == '_'

/-- The token of a punctuation character. -/
def punctuation? (c : Char) : Option Token :=
  match c with
  | '(' => some .leftParen
  | ')' => some .rightParen
  | ',' => some .comma
  | '+' => some .plus
  | '-' => some .minus
  | '*' => some .star
  | _ => none

/-- A text starts with a number: with a digit, or with a point and a digit. -/
def startsNumber (text : List Char) : Bool :=
  match text with
  | c :: _ => c.isDigit || !(Numeral.fractionDigits text).isEmpty
  | [] => false

/-! ## Texts -/

/-- The token at the start of the text `c :: rest`, with the count of characters that it takes from
`rest`.  An error is a cause and its distance from `c`. -/
def nextToken (c : Char) (rest : List Char) : Except (Nat × Cause) (Token × Nat) :=
  if startsNumber (c :: rest) then
    match Numeral.leading (c :: rest) with
    | .error width => .error (width, .missingExponentDigits)
    | .ok numeral =>
      let value := numeral.toBinary32
      if value.isFinite then .ok (.number value, numeral.toChars.length - 1)
      else .error (0, .numberOutOfRange)
  else if isNameStart c then
    let more := rest.takeWhile isNameChar
    .ok (.name (String.ofList (c :: more)), more.length)
  else
    match punctuation? c with
    | some token => .ok (token, 0)
    | none => .error (0, .unexpectedCharacter c)

/-- The tokens of a text whose first byte has the given offset. -/
def lexemesFrom (offset : Nat) (text : List Char) : Except Refusal (List Lexeme) :=
  match text with
  | [] => .ok []
  | c :: rest =>
    if isLayout c then lexemesFrom (offset + 1) rest
    else
      match nextToken c rest with
      | .error (distance, cause) => .error ⟨offset + distance, cause⟩
      | .ok (token, more) =>
        let stop := offset + 1 + more
        match lexemesFrom stop (rest.drop more) with
        | .error refusal => .error refusal
        | .ok lexemes => .ok (⟨token, offset, stop⟩ :: lexemes)
termination_by text.length
decreasing_by all_goals simp only [List.length_cons, List.length_drop]; omega

/-- The tokens of a text, in order. -/
def lexemes (text : List Char) : Except Refusal (List Lexeme) := lexemesFrom 0 text

/-- The length of a text in bytes. -/
def byteLength : List Char → Nat
  | [] => 0
  | c :: rest => c.utf8Size + byteLength rest

end Formula

end TimeSignal
