import TimeSignal.Json.Lex

/-!
# Values of JSON text

The tokens are read one by one.  The containers that are still open are kept in a list, innermost
first, each with the part of it that has been read.

## Main definitions

* `Json.Frame`: an open container part way through.
* `Json.State`, `Json.State.next`: what has been read and what may come, and the step of one token.
* `Json.parse?`: the value of a text.
-/

namespace TimeSignal

namespace Json

/-- An open container; its parts stand in reverse order. -/
inductive Frame where
  /-- A list, whose next item is being read. -/
  | array (items : List Value)
  /-- An object, whose member with the given key is being read. -/
  | object (members : List (Option String × Value)) (key : Option String)

/-- What has been read and what may come. -/
inductive State where
  /-- A value comes. -/
  | value (frames : List Frame)
  /-- A list has been opened: an item comes, or its end. -/
  | arrayStart (frames : List Frame)
  /-- An object has been opened: a key comes, or its end. -/
  | objectStart (frames : List Frame)
  /-- A key comes. -/
  | key (members : List (Option String × Value)) (frames : List Frame)
  /-- The colon after a key comes. -/
  | colon (members : List (Option String × Value)) (key : Option String) (frames : List Frame)
  /-- A comma comes, or the end of the list. -/
  | afterItem (items : List Value) (frames : List Frame)
  /-- A comma comes, or the end of the object. -/
  | afterMember (members : List (Option String × Value)) (frames : List Frame)
  /-- The whole value has been read, and nothing may come. -/
  | finished (value : Value)

namespace State

/-- The state after a value has been completed inside the open containers. -/
def complete (v : Value) : List Frame → State
  | [] => finished v
  | .array items :: frames => afterItem (v :: items) frames
  | .object members k :: frames => afterMember ((k, v) :: members) frames

/-- The state after the first token of a value. -/
def startValue (frames : List Frame) : Token → Option State
  | .null => some (complete .null frames)
  | .bool b => some (complete (.bool b) frames)
  | .number numeral => some (complete (.number numeral) frames)
  | .text content => some (complete (.text content) frames)
  | .leftBracket => some (arrayStart frames)
  | .leftBrace => some (objectStart frames)
  | _ => none

/-- The state after one more token, if it may come. -/
def next : State → Token → Option State
  | value frames, token => startValue frames token
  | arrayStart frames, .rightBracket => some (complete (.array []) frames)
  | arrayStart frames, token => startValue (.array [] :: frames) token
  | objectStart frames, .rightBrace => some (complete (.object []) frames)
  | objectStart frames, .text k => some (colon [] k frames)
  | key members frames, .text k => some (colon members k frames)
  | colon members k frames, .colon => some (value (.object members k :: frames))
  | afterItem items frames, .comma => some (value (.array items :: frames))
  | afterItem items frames, .rightBracket => some (complete (.array items.reverse) frames)
  | afterMember members frames, .comma => some (key members frames)
  | afterMember members frames, .rightBrace => some (complete (.object members.reverse) frames)
  | _, _ => none

end State

/-- The value of a sequence of tokens. -/
def parseTokens? (tokens : List Token) : Option Value :=
  match tokens.foldlM State.next (State.value []) with
  | some (.finished v) => some v
  | _ => none

/-- The value of a text. -/
def parseChars? (text : List Char) : Option Value := (tokensOf text).bind parseTokens?

/-- The value of a text. -/
def parse? (text : String) : Option Value := parseChars? text.toList

end Json

end TimeSignal
