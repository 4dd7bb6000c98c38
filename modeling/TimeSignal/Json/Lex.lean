import TimeSignal.Decimal.Scan
import TimeSignal.Json.Value

/-!
# Tokens of JSON text

## Main definitions

* `Json.TextUnit`, `Json.decodeText`: the inside of a quoted text, and the characters it stands for.
* `Json.nextToken`: the token at the start of a text.
* `Json.tokensOf`: the tokens of a text, or `none` if some part of it is no token.
-/

namespace TimeSignal

namespace Json

/-- The characters between tokens. -/
def isSpace (c : Char) : Bool := c == ' ' || c == '\n' || c == '\t' || c == '\r'

/-! ## Quoted texts -/

/-- A part of a quoted text: a character, or an escaped 16-bit unit. -/
inductive TextUnit where
  /-- A character. -/
  | char (c : Char)
  /-- An escaped 16-bit unit. -/
  | code (unit : Nat)

/-- The value of a hexadecimal digit. -/
def hexValue? (c : Char) : Option Nat :=
  if c.isDigit then some (c.toNat - '0'.toNat)
  else if 'a' ≤ c ∧ c ≤ 'f' then some (c.toNat - 'a'.toNat + 10)
  else if 'A' ≤ c ∧ c ≤ 'F' then some (c.toNat - 'A'.toNat + 10)
  else none

/-- The value of four hexadecimal digits. -/
def hexUnit? (a b c d : Char) : Option Nat := do
  let a ← hexValue? a
  let b ← hexValue? b
  let c ← hexValue? c
  let d ← hexValue? d
  some (((a * 16 + b) * 16 + c) * 16 + d)

/-- The character of an escape of one letter. -/
def unescape? (c : Char) : Option Char :=
  match c with
  | '"' => some '"'
  | '\\' => some '\\'
  | '/' => some '/'
  | 'b' => some '\x08'
  | 'f' => some '\x0c'
  | 'n' => some '\n'
  | 'r' => some '\r'
  | 't' => some '\t'
  | _ => none

/-- The inside of a quoted text, after the opening quote, with the count of its characters up to and
with the closing quote. -/
def quotedUnits : List Char → Option (List TextUnit × Nat)
  | [] => none
  | '"' :: _ => some ([], 1)
  | '\\' :: 'u' :: a :: b :: c :: d :: rest => do
    let unit ← hexUnit? a b c d
    let (units, count) ← quotedUnits rest
    some (.code unit :: units, count + 6)
  | '\\' :: letter :: rest => do
    let c ← unescape? letter
    let (units, count) ← quotedUnits rest
    some (.char c :: units, count + 2)
  | c :: rest => do
    if c < ' ' then none
    let (units, count) ← quotedUnits rest
    some (.char c :: units, count + 1)

/-- The unit is the first or only half of a pair. -/
def isHighHalf (unit : Nat) : Bool := 0xD800 ≤ unit && unit < 0xDC00

/-- The unit is the second half of a pair. -/
def isLowHalf (unit : Nat) : Bool := 0xDC00 ≤ unit && unit < 0xE000

/-- The characters of a quoted text.  Two escaped halves in a row are one character; a half alone is
none. -/
def decodeText : List TextUnit → Option (List Char)
  | [] => some []
  | .char c :: rest => (decodeText rest).map (c :: ·)
  | .code high :: .code low :: rest =>
    if isHighHalf high then
      if isLowHalf low then
        (decodeText rest).map
          (Char.ofNat ((high - 0xD800) * 0x400 + (low - 0xDC00) + 0x10000) :: ·)
      else none
    else if isLowHalf high then none
    else (decodeText (.code low :: rest)).map (Char.ofNat high :: ·)
  | .code unit :: rest =>
    if isHighHalf unit || isLowHalf unit then none
    else (decodeText rest).map (Char.ofNat unit :: ·)

/-! ## Tokens -/

/-- The number at the start of a text, with its sign.  It has digits before the point, and the first
of several is not zero. -/
def leadingNumber? (text : List Char) : Option Numeral :=
  let negative := text.head? == some '-'
  match Numeral.leading (if negative then text.drop 1 else text) with
  | .error _ => none
  | .ok numeral =>
    match numeral.whole with
    | [] => none
    | '0' :: _ :: _ => none
    | _ => some { numeral with negative }

/-- The token at the start of the text `c :: rest`, with the count of characters that it takes from
`rest`. -/
def nextToken (c : Char) (rest : List Char) : Option (Token × Nat) :=
  match c with
  | '\x7b' => some (.leftBrace, 0)
  | '\x7d' => some (.rightBrace, 0)
  | '[' => some (.leftBracket, 0)
  | ']' => some (.rightBracket, 0)
  | ':' => some (.colon, 0)
  | ',' => some (.comma, 0)
  | '"' => (quotedUnits rest).map fun (units, count) =>
    (.text ((decodeText units).map String.ofList), count)
  | 'n' => if ['u', 'l', 'l'].isPrefixOf rest then some (.null, 3) else none
  | 't' => if ['r', 'u', 'e'].isPrefixOf rest then some (.bool true, 3) else none
  | 'f' => if ['a', 'l', 's', 'e'].isPrefixOf rest then some (.bool false, 4) else none
  | c => (leadingNumber? (c :: rest)).map fun numeral =>
    (.number numeral, numeral.toChars.length - 1)

/-- The tokens of a text. -/
def tokensOf (text : List Char) : Option (List Token) :=
  match text with
  | [] => some []
  | c :: rest =>
    if isSpace c then tokensOf rest
    else
      match nextToken c rest with
      | none => none
      | some (token, more) => (tokensOf (rest.drop more)).map (token :: ·)
termination_by text.length
decreasing_by all_goals simp only [List.length_cons, List.length_drop]; omega

end Json

end TimeSignal
