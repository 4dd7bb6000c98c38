import TimeSignal.Json.Parse
import TimeSignal.Proofs.Json.Lexer

/-!
# Written values are read back

The tokens of a value take the machine from any state in which a value comes to the state in which
that value has been completed, whatever containers are open around it.

## Main results

* `Json.foldlM_tokens`: what the tokens of a value do
* `Json.parse_render`: a written value is read back from its text
-/

namespace TimeSignal

namespace Json

open State (next)

/-- Tokens one by one, and then more tokens. -/
theorem foldlM_next_append {tokens more : List Token} {state state' : State}
    (h : tokens.foldlM next state = some state') :
    (tokens ++ more).foldlM next state = more.foldlM next state' := by
  rw [List.foldlM_append, h]
  rfl

/-- A value starts with a token that does not end a list. -/
theorem exists_tokens_eq_cons (v : Value) :
    ∃ token more, v.tokens = token :: more ∧ token ≠ .rightBracket := by
  cases v with
  | null => exact ⟨.null, _, rfl, nofun⟩
  | bool value => exact ⟨.bool value, _, rfl, nofun⟩
  | number n => exact ⟨.number n, _, rfl, nofun⟩
  | text content => exact ⟨.text content, _, rfl, nofun⟩
  | array => exact ⟨.leftBracket, _, rfl, nofun⟩
  | object => exact ⟨.leftBrace, _, rfl, nofun⟩

theorem exists_itemTokens_eq_append (item : Value) (rest : List Value) :
    ∃ more, Value.itemTokens (item :: rest) = item.tokens ++ more := by
  cases rest with
  | nil => exact ⟨[], (List.append_nil _).symm⟩
  | cons item' rest => exact ⟨_, rfl⟩

/-- The first item of a list is read like every other one. -/
theorem foldlM_arrayStart (item : Value) (rest : List Value) (frames : List Frame) :
    (Value.itemTokens (item :: rest)).foldlM next (.arrayStart frames) =
      (Value.itemTokens (item :: rest)).foldlM next (.value (.array [] :: frames)) := by
  obtain ⟨more, hmore⟩ := exists_itemTokens_eq_append item rest
  obtain ⟨token, tokens, htokens, hne⟩ := exists_tokens_eq_cons item
  rw [hmore, htokens, List.cons_append, List.foldlM_cons, List.foldlM_cons]
  congr 1
  cases token with
  | rightBracket => exact absurd rfl hne
  | _ => rfl

/-- The first member of an object is read like every other one. -/
theorem foldlM_objectStart (member : Option String × Value)
    (rest : List (Option String × Value)) (frames : List Frame) :
    (Value.memberTokens (member :: rest)).foldlM next (.objectStart frames) =
      (Value.memberTokens (member :: rest)).foldlM next (.key [] frames) := by
  obtain ⟨key, value⟩ := member
  cases rest with
  | nil => rfl
  | cons member' rest => rfl

mutual

/-- The tokens of a value complete it inside the open containers. -/
theorem foldlM_tokens : ∀ (v : Value) (frames : List Frame),
    v.tokens.foldlM next (.value frames) = some (.complete v frames)
  | .null, _ => rfl
  | .bool _, _ => rfl
  | .number _, _ => rfl
  | .text _, _ => rfl
  | .array [], _ => rfl
  | .array (item :: rest), frames => by
    have hitems := foldlM_itemTokens (item :: rest) (List.cons_ne_nil _ _) [] frames
    rw [← foldlM_arrayStart] at hitems
    change (Value.itemTokens (item :: rest) ++ [Token.rightBracket]).foldlM next
      (.arrayStart frames) = _
    rw [foldlM_next_append hitems, List.append_nil]
    change some (State.complete (.array (item :: rest).reverse.reverse) frames) = _
    rw [List.reverse_reverse]
  | .object [], _ => rfl
  | .object (member :: rest), frames => by
    have hmembers := foldlM_memberTokens (member :: rest) (List.cons_ne_nil _ _) [] frames
    rw [← foldlM_objectStart] at hmembers
    change (Value.memberTokens (member :: rest) ++ [Token.rightBrace]).foldlM next
      (.objectStart frames) = _
    rw [foldlM_next_append hmembers, List.append_nil]
    change some (State.complete (.object (member :: rest).reverse.reverse) frames) = _
    rw [List.reverse_reverse]

/-- The items of a list are kept in reverse order. -/
theorem foldlM_itemTokens : ∀ more : List Value, more ≠ [] →
    ∀ (items : List Value) (frames : List Frame),
      (Value.itemTokens more).foldlM next (.value (.array items :: frames)) =
        some (.afterItem (more.reverse ++ items) frames)
  | [], h, _, _ => absurd rfl h
  | [item], _, items, frames => foldlM_tokens item (.array items :: frames)
  | item :: item' :: rest, _, items, frames => by
    rw [Value.itemTokens, foldlM_next_append (foldlM_tokens item (.array items :: frames))]
    change (Value.itemTokens (item' :: rest)).foldlM next
      (.value (.array (item :: items) :: frames)) = _
    rw [foldlM_itemTokens (item' :: rest) (List.cons_ne_nil _ _) (item :: items) frames,
      List.reverse_cons (a := item), List.append_assoc]
    rfl

/-- The members of an object are kept in reverse order. -/
theorem foldlM_memberTokens : ∀ more : List (Option String × Value), more ≠ [] →
    ∀ (members : List (Option String × Value)) (frames : List Frame),
      (Value.memberTokens more).foldlM next (.key members frames) =
        some (.afterMember (more.reverse ++ members) frames)
  | [], h, _, _ => absurd rfl h
  | [(key, value)], _, members, frames => foldlM_tokens value (.object members key :: frames)
  | (key, value) :: member' :: rest, _, members, frames => by
    change (value.tokens ++ .comma :: Value.memberTokens (member' :: rest)).foldlM next
      (.value (.object members key :: frames)) = _
    rw [foldlM_next_append (foldlM_tokens value (.object members key :: frames))]
    change (Value.memberTokens (member' :: rest)).foldlM next
      (.key ((key, value) :: members) frames) = _
    rw [foldlM_memberTokens (member' :: rest) (List.cons_ne_nil _ _) ((key, value) :: members)
      frames, List.reverse_cons (a := (key, value)), List.append_assoc]
    rfl

end

/-- **A written value is read back from its text.** -/
theorem parse_render {v : Value} (h : v.IsWritten) : parse? v.render = some v := by
  rw [parse?, Value.render, String.toList_ofList, parseChars?, tokensOf_renderChars h,
    Option.bind_some, parseTokens?, foldlM_tokens]
  rfl

end Json

end TimeSignal
