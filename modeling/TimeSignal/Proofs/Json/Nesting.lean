import TimeSignal.Proofs.Json.Lexer

/-!
# Nesting of JSON text

A text nests as deep as the greatest number of brackets and braces that are open at once.  For the
text of a value that is the depth of the value.

## Main definitions

* `Json.Value.depth`: how many containers stand around the innermost part of a value
* `Json.nesting`: the greatest number of brackets and braces that are open at once in a text

## Main results

* `Json.nesting_render`: the text of a value nests as deep as the value
-/

namespace TimeSignal

namespace Json

namespace Value

mutual

/-- How many lists and objects stand around the innermost part of a value. -/
def depth : Value → Nat
  | array items => itemsDepth items + 1
  | object members => membersDepth members + 1
  | _ => 0

/-- The depth of the deepest item. -/
def itemsDepth : List Value → Nat
  | [] => 0
  | item :: rest => max item.depth (itemsDepth rest)

/-- The depth of the deepest member. -/
def membersDepth : List (Option String × Value) → Nat
  | [] => 0
  | (_, value) :: rest => max value.depth (membersDepth rest)

end

end Value

/-- The number of open brackets and braces after a token, given the number before it. -/
def Token.levelAfter (level : Nat) : Token → Nat
  | .leftBrace | .leftBracket => level + 1
  | .rightBrace | .rightBracket => level - 1
  | _ => level

/-- The greatest number of open brackets and braces along tokens. -/
def deepest (level : Nat) : List Token → Nat
  | [] => level
  | token :: rest => max level (deepest (token.levelAfter level) rest)

/-- The greatest number of brackets and braces that are open at once in a text; zero in a text that
does not consist of tokens. -/
def nesting (text : String) : Nat := ((tokensOf text.toList).map (deepest 0)).getD 0

theorem le_deepest (level : Nat) (tokens : List Token) : level ≤ deepest level tokens := by
  cases tokens with
  | nil => exact Nat.le_refl level
  | cons token rest => exact Nat.le_max_left _ _

mutual

/-- The tokens of a value rise above the level around it by the depth of the value, and return to
the level. -/
theorem deepest_tokens : ∀ (v : Value) (level : Nat) (more : List Token),
    deepest level (v.tokens ++ more) = max (level + v.depth) (deepest level more)
  | .null, _, _ => rfl
  | .bool _, _, _ => rfl
  | .number _, _, _ => rfl
  | .text _, _, _ => rfl
  | .array items, level, more => by
    have hitems := deepest_itemTokens items (level + 1) (.rightBracket :: more)
    have hend : deepest (level + 1) (.rightBracket :: more) =
        max (level + 1) (deepest level more) := rfl
    have hle := le_deepest level more
    rw [Value.tokens, Value.depth, List.append_assoc]
    change max level (deepest (level + 1) (Value.itemTokens items ++ .rightBracket :: more)) = _
    omega
  | .object members, level, more => by
    have hmembers := deepest_memberTokens members (level + 1) (.rightBrace :: more)
    have hend : deepest (level + 1) (.rightBrace :: more) =
        max (level + 1) (deepest level more) := rfl
    have hle := le_deepest level more
    rw [Value.tokens, Value.depth, List.append_assoc]
    change max level (deepest (level + 1) (Value.memberTokens members ++ .rightBrace :: more)) = _
    omega

theorem deepest_itemTokens : ∀ (items : List Value) (level : Nat) (more : List Token),
    deepest level (Value.itemTokens items ++ more) =
      max (level + Value.itemsDepth items) (deepest level more)
  | [], level, more => (Nat.max_eq_right (le_deepest level more)).symm
  | [item], level, more => by
    rw [Value.itemTokens, deepest_tokens, Value.itemsDepth, Value.itemsDepth, Nat.max_zero]
  | item :: next :: rest, level, more => by
    have hrest := deepest_itemTokens (next :: rest) level more
    have hle := le_deepest level more
    rw [Value.itemTokens, List.append_assoc, deepest_tokens item, Value.itemsDepth]
    change max _ (max level (deepest level (Value.itemTokens (next :: rest) ++ more))) = _
    omega

theorem deepest_memberTokens : ∀ (members : List (Option String × Value)) (level : Nat)
    (more : List Token),
    deepest level (Value.memberTokens members ++ more) =
      max (level + Value.membersDepth members) (deepest level more)
  | [], level, more => (Nat.max_eq_right (le_deepest level more)).symm
  | [(key, value)], level, more => by
    have hvalue := deepest_tokens value level more
    have hle := le_deepest level more
    rw [Value.memberTokens, Value.membersDepth, Value.membersDepth, Nat.max_zero]
    change max level (max level (deepest level (value.tokens ++ more))) = _
    omega
  | (key, value) :: next :: rest, level, more => by
    have hvalue := deepest_tokens value level
      (.comma :: (Value.memberTokens (next :: rest) ++ more))
    have hcomma : deepest level (.comma :: (Value.memberTokens (next :: rest) ++ more)) =
        max level (deepest level (Value.memberTokens (next :: rest) ++ more)) := rfl
    have hrest := deepest_memberTokens (next :: rest) level more
    have hle := le_deepest level more
    rw [Value.memberTokens, List.append_assoc, Value.membersDepth]
    change max level (max level (deepest level
      (value.tokens ++ .comma :: (Value.memberTokens (next :: rest) ++ more)))) = _
    omega

end

/-- **The text of a value nests as deep as the value.** -/
theorem nesting_render {v : Value} (h : v.IsWritten) : nesting v.render = v.depth := by
  have hdeep := deepest_tokens v 0 []
  rw [List.append_nil, Nat.zero_add] at hdeep
  rw [nesting, Value.render, String.toList_ofList, tokensOf_renderChars h, Option.map_some,
    Option.getD_some, hdeep]
  exact Nat.max_eq_left (Nat.zero_le _)

end Json

end TimeSignal
