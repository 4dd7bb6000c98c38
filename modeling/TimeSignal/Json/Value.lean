import TimeSignal.Decimal.Numeral

/-!
# JSON values and their tokens

A JSON text is a sequence of tokens; a value is a scalar token, or a bracketed list of values, or a
braced list of values with keys.

## Main definitions

* `Json.Token`, `Json.Token.toChars`: the tokens and their compact text.
* `Json.Value`, `Json.Value.tokens`: the values and their tokens.
* `Json.Value.render`: the compact text of a value.

A text whose escapes name no characters is kept as a text without content, so that a value that
nobody reads may hold one.
-/

namespace TimeSignal

namespace Json

/-- A token of JSON text. -/
inductive Token where
  /-- An opening brace. -/
  | leftBrace
  /-- A closing brace. -/
  | rightBrace
  /-- An opening bracket. -/
  | leftBracket
  /-- A closing bracket. -/
  | rightBracket
  /-- A colon. -/
  | colon
  /-- A comma. -/
  | comma
  /-- The literal `null`. -/
  | null
  /-- The literal `true` or `false`. -/
  | bool (value : Bool)
  /-- A number. -/
  | number (numeral : Numeral)
  /-- A text; without content if its escapes name no characters. -/
  | text (content : Option String)
deriving DecidableEq

/-- The hexadecimal digits of a control character, as an escape. -/
def controlEscape (c : Char) : List Char :=
  ['\\', 'u', '0', '0', Nat.digitChar (c.toNat / 16), Nat.digitChar (c.toNat % 16)]

/-- A character inside a text. -/
def escape (c : Char) : List Char :=
  match c with
  | '"' => ['\\', '"']
  | '\\' => ['\\', '\\']
  | '\n' => ['\\', 'n']
  | '\r' => ['\\', 'r']
  | '\t' => ['\\', 't']
  | '\x08' => ['\\', 'b']
  | '\x0c' => ['\\', 'f']
  | c => if c < ' ' then controlEscape c else [c]

/-- A text in quotes. -/
def quote (content : Option String) : List Char :=
  match content with
  | some content => '"' :: content.toList.flatMap escape ++ ['"']
  | none => ['"', '\\', 'u', 'd', '8', '0', '0', '"']

/-- The characters of a token. -/
def Token.toChars : Token → List Char
  | .leftBrace => ['\x7b']
  | .rightBrace => ['\x7d']
  | .leftBracket => ['[']
  | .rightBracket => [']']
  | .colon => [':']
  | .comma => [',']
  | .null => ['n', 'u', 'l', 'l']
  | .bool true => ['t', 'r', 'u', 'e']
  | .bool false => ['f', 'a', 'l', 's', 'e']
  | .number numeral => numeral.toChars
  | .text content => quote content

/-- A JSON value.  The members of an object keep their order, and a key may occur twice. -/
inductive Value where
  /-- The value `null`. -/
  | null
  /-- A truth value. -/
  | bool (value : Bool)
  /-- A number, as it is written. -/
  | number (numeral : Numeral)
  /-- A text. -/
  | text (content : Option String)
  /-- A list of values. -/
  | array (items : List Value)
  /-- A list of values with keys. -/
  | object (members : List (Option String × Value))

namespace Value

instance : Inhabited Value := ⟨null⟩

mutual

/-- The tokens of a value. -/
def tokens : Value → List Token
  | null => [.null]
  | bool value => [.bool value]
  | number numeral => [.number numeral]
  | text content => [.text content]
  | array items => .leftBracket :: itemTokens items ++ [.rightBracket]
  | object members => .leftBrace :: memberTokens members ++ [.rightBrace]

/-- The tokens of the items of a list, with commas between them. -/
def itemTokens : List Value → List Token
  | [] => []
  | [item] => item.tokens
  | item :: next :: rest => item.tokens ++ .comma :: itemTokens (next :: rest)

/-- The tokens of the members of an object, with commas between them. -/
def memberTokens : List (Option String × Value) → List Token
  | [] => []
  | [(key, value)] => .text key :: .colon :: value.tokens
  | (key, value) :: next :: rest =>
    .text key :: .colon :: value.tokens ++ .comma :: memberTokens (next :: rest)

end

/-- The compact text of a value. -/
def renderChars (v : Value) : List Char := v.tokens.flatMap Token.toChars

/-- The compact text of a value. -/
def render (v : Value) : String := String.ofList v.renderChars

end Value

end Json

end TimeSignal
