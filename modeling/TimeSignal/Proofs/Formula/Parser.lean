import TimeSignal.Formula.Parse
import TimeSignal.Proofs.Formula.Grammar
import TimeSignal.Proofs.Formula.Lexer
import Mathlib.Tactic.SplitIfs

/-!
# The parser reads the grammar

Each reader of the parser returns, next to its result, a proof that it left fewer lexemes.  Without
these proofs the readers satisfy the equations of the grammar, and from these equations both
directions follow: what a reader returns is what some derivation of its level stands for, and on the
tokens of a derivation it returns what the derivation stands for.

## Main definitions

* `Formula.outcome`: a reader's result and the lexemes that it left
* `Level.Reads`: the reader of a level returns a meaning of that level

## Main results

* `Formula.exists_derivation_sum`: what the parser reads has a derivation
* `Formula.reads`: the parser reads every derivation
* `Formula.parseLexemes_eq_ok_iff`: the lexemes of a text are read exactly if they are derived
-/

namespace TimeSignal

namespace Formula

/-! ## Outcomes of readers -/

/-- The result of a reader with the lexemes that it left, or its refusal. -/
def outcome {α : Type} {p : List Lexeme → Prop}
    (read : Except Refusal (α × { rest : List Lexeme // p rest })) :
    Except Refusal (α × List Lexeme) :=
  match read with
  | .error refusal => .error refusal
  | .ok (a, rest) => .ok (a, rest.val)

theorem property_of_outcome {α : Type} {p : List Lexeme → Prop} {a : α} {rest : List Lexeme}
    {read : Except Refusal (α × { rest : List Lexeme // p rest })}
    (h : outcome read = .ok (a, rest)) : p rest := by
  unfold outcome at h
  split at h
  · cases h
  · next left =>
    cases h
    exact left.property

theorem outcome_expect (size : Nat) (wanted : Token) (lexemes : List Lexeme) :
    outcome (expect size wanted lexemes) =
      match lexemes with
      | [] => refuse size [] (.expected (some wanted))
      | lexeme :: rest =>
        if lexeme.token = wanted then .ok ((), rest)
        else refuse size (lexeme :: rest) (.expected (some wanted)) := by
  unfold expect
  cases lexemes with
  | nil => rfl
  | cons lexeme rest =>
    dsimp only
    split <;> rfl

theorem outcome_parseSum (size : Nat) (lexemes : List Lexeme) :
    outcome (parseSum size lexemes) =
      (outcome (parseProduct size lexemes)).bind fun read =>
        outcome (parseTerms size read.1 read.2) := by
  rw [parseSum]
  rcases parseProduct size lexemes with _ | ⟨first, rest, h⟩
  · rfl
  · simp only [outcome, Except.bind]
    rcases parseTerms size first rest with _ | ⟨e, rest', h'⟩ <;> rfl

theorem outcome_parseProduct (size : Nat) (lexemes : List Lexeme) :
    outcome (parseProduct size lexemes) =
      (outcome (parseSigned size lexemes)).bind fun read =>
        outcome (parseFactors size read.1 read.2) := by
  rw [parseProduct]
  rcases parseSigned size lexemes with _ | ⟨first, rest, h⟩
  · rfl
  · simp only [outcome, Except.bind]
    rcases parseFactors size first rest with _ | ⟨e, rest', h'⟩ <;> rfl

theorem outcome_parseTerms_nil (size : Nat) (left : Signal) :
    outcome (parseTerms size left []) = .ok (left, []) := by
  rw [parseTerms]
  rfl

theorem outcome_parseTerms_cons (size : Nat) (left : Signal) (lexeme : Lexeme)
    (rest : List Lexeme) :
    outcome (parseTerms size left (lexeme :: rest)) =
      if lexeme.token = .plus ∨ lexeme.token = .minus then
        (outcome (parseProduct size rest)).bind fun read =>
          outcome (parseTerms size
            (if lexeme.token = .plus then .add left read.1 else .sub left read.1) read.2)
      else .ok (left, lexeme :: rest) := by
  rw [parseTerms]
  dsimp only
  split
  · rcases parseProduct size rest with _ | ⟨right, rest', h⟩
    · rfl
    · simp only [outcome, Except.bind]
      rcases parseTerms size (if lexeme.token = .plus then .add left right else .sub left right)
        rest' with _ | ⟨e, rest'', h'⟩ <;> rfl
  · rfl

theorem outcome_parseFactors_nil (size : Nat) (left : Signal) :
    outcome (parseFactors size left []) = .ok (left, []) := by
  rw [parseFactors]
  rfl

theorem outcome_parseFactors_cons (size : Nat) (left : Signal) (lexeme : Lexeme)
    (rest : List Lexeme) :
    outcome (parseFactors size left (lexeme :: rest)) =
      if lexeme.token = .star then
        (outcome (parseSigned size rest)).bind fun read =>
          outcome (parseFactors size (.mul left read.1) read.2)
      else .ok (left, lexeme :: rest) := by
  rw [parseFactors]
  split
  · rcases parseSigned size rest with _ | ⟨right, rest', h⟩
    · rfl
    · simp only [outcome, Except.bind]
      rcases parseFactors size (Signal.mul left right) rest' with _ | ⟨e, rest'', h'⟩ <;> rfl
  · rfl

theorem outcome_parseSigned (size : Nat) (lexemes : List Lexeme) :
    outcome (parseSigned size lexemes) =
      match lexemes with
      | [] => outcome (parseOperand size [])
      | lexeme :: rest =>
        if lexeme.token = .minus then
          (outcome (parseSigned size rest)).bind fun read => .ok (negated read.1, read.2)
        else outcome (parseOperand size (lexeme :: rest)) := by
  rw [parseSigned.eq_def]
  cases lexemes with
  | nil => rfl
  | cons lexeme rest =>
    dsimp only
    split
    · rcases parseSigned size rest with _ | ⟨e, rest', h⟩ <;> rfl
    · rfl

theorem outcome_parseOperand (size : Nat) (lexemes : List Lexeme) :
    outcome (parseOperand size lexemes) =
      match lexemes with
      | [] => refuse size [] .unexpectedToken
      | lexeme :: rest =>
        match lexeme.token with
        | .number value => .ok (.const value, rest)
        | .name name =>
          if name = "t" then .ok (.time, rest)
          else if name = "rand" then
            (outcome (parseArguments size rest)).bind fun read =>
              match read.1 with
              | [] => .ok (.noise, read.2)
              | arguments => .error ⟨lexeme.start, .wrongArity "rand" 0 arguments.length⟩
          else if name = "lerp" then
            (outcome (parseArguments size rest)).bind fun read =>
              match read.1 with
              | [x, y, s] => .ok (.lerp x y s, read.2)
              | arguments => .error ⟨lexeme.start, .wrongArity "lerp" 3 arguments.length⟩
          else .error ⟨lexeme.start, .unknownName name⟩
        | .leftParen =>
          (outcome (parseSum size rest)).bind fun read =>
            (outcome (expect size .rightParen read.2)).bind fun closed => .ok (read.1, closed.2)
        | _ => refuse size (lexeme :: rest) .unexpectedToken := by
  rw [parseOperand.eq_def]
  cases lexemes with
  | nil => rfl
  | cons lexeme rest =>
    dsimp only
    cases lexeme.token with
    | name name =>
      dsimp only
      split_ifs
      · rfl
      · rcases parseArguments size rest with _ | ⟨_ | ⟨x, arguments⟩, rest', h⟩ <;> rfl
      · rcases parseArguments size rest with
          _ | ⟨_ | ⟨x, _ | ⟨y, _ | ⟨s, _ | ⟨z, arguments⟩⟩⟩⟩, rest', h⟩ <;> rfl
      · rfl
    | leftParen =>
      dsimp only
      rcases parseSum size rest with _ | ⟨e, rest', h⟩
      · rfl
      · simp only [outcome, Except.bind]
        rcases expect size .rightParen rest' with _ | ⟨_, rest'', h'⟩ <;> rfl
    | number | rightParen | comma | plus | minus | star => rfl

theorem outcome_parseArguments (size : Nat) (lexemes : List Lexeme) :
    outcome (parseArguments size lexemes) =
      (outcome (expect size .leftParen lexemes)).bind fun opened =>
        match outcome (expect size .rightParen opened.2) with
        | .ok closed => .ok ([], closed.2)
        | .error _ => outcome (parseArgumentList size opened.2) := by
  rw [parseArguments]
  rcases expect size .leftParen lexemes with _ | ⟨_, rest, h⟩
  · rfl
  · simp only [outcome, Except.bind]
    rcases expect size .rightParen rest with _ | ⟨_, rest', h'⟩
    · rcases parseArgumentList size rest with _ | ⟨arguments, rest', h'⟩ <;> rfl
    · rfl

theorem outcome_parseArgumentList (size : Nat) (lexemes : List Lexeme) :
    outcome (parseArgumentList size lexemes) =
      (outcome (parseSum size lexemes)).bind fun read =>
        match outcome (expect size .comma read.2) with
        | .ok next =>
          (outcome (parseArgumentList size next.2)).bind fun more => .ok (read.1 :: more.1, more.2)
        | .error _ =>
          (outcome (expect size .rightParen read.2)).bind fun closed =>
            .ok ([read.1], closed.2) := by
  rw [parseArgumentList]
  rcases parseSum size lexemes with _ | ⟨e, rest, h⟩
  · rfl
  · simp only [outcome, Except.bind]
    rcases expect size .comma rest with _ | ⟨_, rest', h'⟩
    · rcases expect size .rightParen rest with _ | ⟨_, rest', h'⟩ <;> rfl
    · dsimp only
      rcases parseArgumentList size rest' with _ | ⟨arguments, rest'', h''⟩ <;> rfl

theorem parseLexemes_eq (size : Nat) (lexemes : List Lexeme) :
    parseLexemes size lexemes =
      (outcome (parseSum size lexemes)).bind fun read =>
        match read.2 with
        | [] => .ok read.1
        | lexeme :: rest => refuse size (lexeme :: rest) (.expected none) := by
  unfold parseLexemes
  rcases parseSum size lexemes with _ | ⟨e, _ | ⟨lexeme, rest⟩, h⟩ <;> rfl

/-! ## What the parser accepts has a derivation -/

/-- The tokens of arguments, up to the parenthesis that closes the call. -/
def argumentTokens : List (Derivation .sum) → List Token
  | [] => [.rightParen]
  | [d] => d.tokens ++ [.rightParen]
  | d :: d' :: ds => d.tokens ++ .comma :: argumentTokens (d' :: ds)

theorem signal_negative (d : Derivation .signed) :
    (Derivation.negative d).signal = negated d.signal := by
  rw [Derivation.signal]
  cases d.signal <;> rfl

theorem of_bind_eq_ok {α β : Type} {x : Except Refusal α} {f : α → Except Refusal β} {b : β}
    (h : x.bind f = .ok b) : ∃ a, x = .ok a ∧ f a = .ok b := by
  cases x with
  | error => cases h
  | ok a => exact ⟨a, rfl, h⟩

theorem tokens_of_expect {size : Nat} {wanted : Token} {lexemes rest : List Lexeme} {u : Unit}
    (h : outcome (expect size wanted lexemes) = .ok (u, rest)) :
    tokens lexemes = wanted :: tokens rest := by
  rw [outcome_expect] at h
  cases lexemes with
  | nil => cases h
  | cons lexeme more =>
    dsimp only at h
    split at h
    · next ht =>
      cases h
      rw [tokens_cons, ht]
    · cases h

-- Each reader recurses on fewer lexemes, or on as many at a lower level of the grammar.
mutual

theorem exists_derivation_sum {size : Nat} {lexemes rest : List Lexeme} {e : Signal}
    (h : outcome (parseSum size lexemes) = .ok (e, rest)) :
    ∃ d : Derivation .sum, d.signal = e ∧ tokens lexemes = d.tokens ++ tokens rest := by
  rw [outcome_parseSum] at h
  obtain ⟨⟨first, rest₁⟩, hp, ht⟩ := of_bind_eq_ok h
  have hlt : rest₁.length < lexemes.length := property_of_outcome hp
  obtain ⟨d, rfl, hd⟩ := exists_derivation_product hp
  obtain ⟨m, rfl, hm⟩ := exists_derivation_terms ht
  exact ⟨.sum d m, rfl, by rw [hd, hm, Derivation.tokens, List.append_assoc]⟩
termination_by (lexemes.length, 3)

theorem exists_derivation_terms {size : Nat} {left : Signal} {lexemes rest : List Lexeme}
    {e : Signal} (h : outcome (parseTerms size left lexemes) = .ok (e, rest)) :
    ∃ d : Derivation .terms, d.signal left = e ∧ tokens lexemes = d.tokens ++ tokens rest := by
  cases hl : lexemes with
  | nil =>
    rw [hl, outcome_parseTerms_nil] at h
    cases h
    exact ⟨.noTerm, rfl, rfl⟩
  | cons lexeme more =>
    rw [hl, outcome_parseTerms_cons] at h
    have hlen : lexemes.length = more.length + 1 := by rw [hl, List.length_cons]
    split at h
    · next hsign =>
      -- a sign, a product, and the terms that follow it
      obtain ⟨⟨right, rest₁⟩, hp, ht⟩ := of_bind_eq_ok h
      have hlt : rest₁.length < more.length := property_of_outcome hp
      obtain ⟨d, rfl, hd⟩ := exists_derivation_product hp
      obtain ⟨m, rfl, hm⟩ := exists_derivation_terms ht
      rcases hsign with hs | hs
      · refine ⟨.plus d m, by rw [if_pos hs]; rfl, ?_⟩
        rw [tokens_cons, hs, hd, hm, Derivation.tokens, List.cons_append, List.append_assoc]
      · refine ⟨.minus d m, by rw [if_neg (by rw [hs]; decide)]; rfl, ?_⟩
        rw [tokens_cons, hs, hd, hm, Derivation.tokens, List.cons_append, List.append_assoc]
    · cases h
      exact ⟨.noTerm, rfl, rfl⟩
termination_by (lexemes.length, 0)

theorem exists_derivation_product {size : Nat} {lexemes rest : List Lexeme} {e : Signal}
    (h : outcome (parseProduct size lexemes) = .ok (e, rest)) :
    ∃ d : Derivation .product, d.signal = e ∧ tokens lexemes = d.tokens ++ tokens rest := by
  rw [outcome_parseProduct] at h
  obtain ⟨⟨first, rest₁⟩, hs, hf⟩ := of_bind_eq_ok h
  have hlt : rest₁.length < lexemes.length := property_of_outcome hs
  obtain ⟨d, rfl, hd⟩ := exists_derivation_signed hs
  obtain ⟨m, rfl, hm⟩ := exists_derivation_factors hf
  exact ⟨.product d m, rfl, by rw [hd, hm, Derivation.tokens, List.append_assoc]⟩
termination_by (lexemes.length, 2)

theorem exists_derivation_factors {size : Nat} {left : Signal} {lexemes rest : List Lexeme}
    {e : Signal} (h : outcome (parseFactors size left lexemes) = .ok (e, rest)) :
    ∃ d : Derivation .factors, d.signal left = e ∧ tokens lexemes = d.tokens ++ tokens rest := by
  cases hl : lexemes with
  | nil =>
    rw [hl, outcome_parseFactors_nil] at h
    cases h
    exact ⟨.noFactor, rfl, rfl⟩
  | cons lexeme more =>
    rw [hl, outcome_parseFactors_cons] at h
    have hlen : lexemes.length = more.length + 1 := by rw [hl, List.length_cons]
    split at h
    · next hstar =>
      -- an asterisk, a signed operand, and the factors that follow it
      obtain ⟨⟨right, rest₁⟩, hs, hf⟩ := of_bind_eq_ok h
      have hlt : rest₁.length < more.length := property_of_outcome hs
      obtain ⟨d, rfl, hd⟩ := exists_derivation_signed hs
      obtain ⟨m, rfl, hm⟩ := exists_derivation_factors hf
      refine ⟨.times d m, rfl, ?_⟩
      rw [tokens_cons, hstar, hd, hm, Derivation.tokens, List.cons_append, List.append_assoc]
    · cases h
      exact ⟨.noFactor, rfl, rfl⟩
termination_by (lexemes.length, 0)

theorem exists_derivation_signed {size : Nat} {lexemes rest : List Lexeme} {e : Signal}
    (h : outcome (parseSigned size lexemes) = .ok (e, rest)) :
    ∃ d : Derivation .signed, d.signal = e ∧ tokens lexemes = d.tokens ++ tokens rest := by
  rw [outcome_parseSigned] at h
  cases hl : lexemes with
  | nil =>
    have ho : outcome (parseOperand size lexemes) = .ok (e, rest) := by
      rw [hl] at h ⊢
      exact h
    obtain ⟨d, rfl, hd⟩ := exists_derivation_operand ho
    exact ⟨.operand d, rfl, by rw [← hl]; exact hd⟩
  | cons lexeme more =>
    rw [hl] at h
    have hlen : lexemes.length = more.length + 1 := by rw [hl, List.length_cons]
    dsimp only at h
    split at h
    · next hminus =>
      obtain ⟨⟨e', rest₁⟩, hs, he⟩ := of_bind_eq_ok h
      obtain ⟨d, rfl, hd⟩ := exists_derivation_signed hs
      cases he
      refine ⟨.negative d, signal_negative d, ?_⟩
      rw [tokens_cons, hminus, hd, Derivation.tokens, List.cons_append]
    · have ho : outcome (parseOperand size lexemes) = .ok (e, rest) := by
        rw [hl]
        exact h
      obtain ⟨d, rfl, hd⟩ := exists_derivation_operand ho
      exact ⟨.operand d, rfl, by rw [← hl]; exact hd⟩
termination_by (lexemes.length, 1)

theorem exists_derivation_operand {size : Nat} {lexemes rest : List Lexeme} {e : Signal}
    (h : outcome (parseOperand size lexemes) = .ok (e, rest)) :
    ∃ d : Derivation .operand, d.signal = e ∧ tokens lexemes = d.tokens ++ tokens rest := by
  rw [outcome_parseOperand] at h
  cases hl : lexemes with
  | nil =>
    rw [hl] at h
    cases h
  | cons lexeme more =>
    rw [hl] at h
    have hlen : lexemes.length = more.length + 1 := by rw [hl, List.length_cons]
    rw [tokens_cons]
    dsimp only at h
    split at h
    · next value hv =>
      -- a number
      cases h
      exact ⟨.number value, rfl, by rw [hv]; rfl⟩
    · next name hn =>
      -- the time, or a call: its arguments are read first, and then counted
      rw [hn]
      split_ifs at h with ht hr hlerp
      · cases h
        exact ⟨.time, rfl, by rw [ht]; rfl⟩
      · obtain ⟨⟨arguments, rest₁⟩, ha, he⟩ := of_bind_eq_ok h
        obtain ⟨ds, rfl, hd⟩ := exists_derivation_arguments ha
        match ds with
        | [] =>
          cases he
          exact ⟨.rand, rfl, by rw [hr, hd]; rfl⟩
        | _ :: _ => cases he
      · obtain ⟨⟨arguments, rest₁⟩, ha, he⟩ := of_bind_eq_ok h
        obtain ⟨ds, rfl, hd⟩ := exists_derivation_arguments ha
        -- All other counts are refused.
        match ds with
        | [x, y, s] =>
          cases he
          exact ⟨.lerp x y s, rfl, by simp [hlerp, hd, argumentTokens, Derivation.tokens]⟩
        | [] | [_] | [_, _] | _ :: _ :: _ :: _ :: _ => cases he
    · next hp =>
      -- a sum in parentheses
      obtain ⟨⟨e', rest₁⟩, hs, he⟩ := of_bind_eq_ok h
      obtain ⟨⟨u, rest₂⟩, hc, hr⟩ := of_bind_eq_ok he
      obtain ⟨d, rfl, hd⟩ := exists_derivation_sum hs
      have hclose := tokens_of_expect hc
      cases hr
      exact ⟨.group d, rfl, by simp [hp, hd, hclose, Derivation.tokens]⟩
    · cases h
termination_by (lexemes.length, 0)

theorem exists_derivation_arguments {size : Nat} {lexemes rest : List Lexeme}
    {arguments : List Signal} (h : outcome (parseArguments size lexemes) = .ok (arguments, rest)) :
    ∃ ds : List (Derivation .sum), ds.map Derivation.signal = arguments ∧
      tokens lexemes = .leftParen :: (argumentTokens ds ++ tokens rest) := by
  rw [outcome_parseArguments] at h
  obtain ⟨⟨u, rest₁⟩, ho, hr⟩ := of_bind_eq_ok h
  have hopen := tokens_of_expect ho
  have hlt : rest₁.length < lexemes.length := property_of_outcome ho
  dsimp only at hr
  split at hr
  · next closed hc =>
    -- The parentheses are empty.
    have hclose := tokens_of_expect hc
    cases hr
    exact ⟨[], rfl, by rw [hopen, hclose]; rfl⟩
  · obtain ⟨d, ds, hds, hd⟩ := exists_derivation_argumentList hr
    exact ⟨d :: ds, hds, by rw [hopen, hd]⟩
termination_by (lexemes.length, 0)

theorem exists_derivation_argumentList {size : Nat} {lexemes rest : List Lexeme}
    {arguments : List Signal}
    (h : outcome (parseArgumentList size lexemes) = .ok (arguments, rest)) :
    ∃ (d : Derivation .sum) (ds : List (Derivation .sum)),
      (d :: ds).map Derivation.signal = arguments ∧
      tokens lexemes = argumentTokens (d :: ds) ++ tokens rest := by
  rw [outcome_parseArgumentList] at h
  obtain ⟨⟨e, rest₁⟩, hs, hr⟩ := of_bind_eq_ok h
  have hlt : rest₁.length < lexemes.length := property_of_outcome hs
  obtain ⟨d, rfl, hd⟩ := exists_derivation_sum hs
  dsimp only at hr
  split at hr
  · next following hc =>
    -- A comma follows, and after it further arguments.
    obtain ⟨u, rest₂⟩ := following
    have hlt₂ : rest₂.length < rest₁.length := property_of_outcome hc
    have hcomma := tokens_of_expect hc
    obtain ⟨⟨arguments', rest₃⟩, ha, he⟩ := of_bind_eq_ok hr
    obtain ⟨d', ds, rfl, hd'⟩ := exists_derivation_argumentList ha
    cases he
    refine ⟨d, d' :: ds, rfl, ?_⟩
    rw [hd, hcomma, hd', argumentTokens, List.append_assoc, List.cons_append]
  · obtain ⟨⟨u, rest₂⟩, hc, he⟩ := of_bind_eq_ok hr
    have hclose := tokens_of_expect hc
    cases he
    refine ⟨d, [], rfl, ?_⟩
    rw [hd, hclose, argumentTokens, List.append_assoc]
    rfl
termination_by (lexemes.length, 4)

end

/-! ## The parser reads every derivation -/

/-- The reader of a level returns what the level stands for, and the remaining lexemes. -/
def Level.Reads (size : Nat) :
    (level : Level) → level.Meaning → List Lexeme → List Lexeme → Prop
  | sum, e, lexemes, rest => outcome (parseSum size lexemes) = .ok (e, rest)
  | terms, extend, lexemes, rest =>
    ∀ left, outcome (parseTerms size left lexemes) = .ok (extend left, rest)
  | product, e, lexemes, rest => outcome (parseProduct size lexemes) = .ok (e, rest)
  | factors, extend, lexemes, rest =>
    ∀ left, outcome (parseFactors size left lexemes) = .ok (extend left, rest)
  | signed, e, lexemes, rest => outcome (parseSigned size lexemes) = .ok (e, rest)
  | operand, e, lexemes, rest => outcome (parseOperand size lexemes) = .ok (e, rest)

section

variable {size : Nat} {lexeme : Lexeme} {lexemes rest : List Lexeme} {e : Signal}

theorem outcome_expect_of_eq {wanted : Token} (h : lexeme.token = wanted) :
    outcome (expect size wanted (lexeme :: rest)) = .ok ((), rest) := by
  rw [outcome_expect]
  exact if_pos h

theorem outcome_expect_of_ne (size : Nat) (rest : List Lexeme) {wanted : Token}
    (h : lexeme.token ≠ wanted) :
    ∃ refusal, outcome (expect size wanted (lexeme :: rest)) = .error refusal := by
  rw [outcome_expect]
  exact ⟨_, if_neg h⟩

theorem outcome_parseTerms_plus (hs : lexeme.token = .plus)
    (hp : outcome (parseProduct size lexemes) = .ok (e, rest)) (left : Signal) :
    outcome (parseTerms size left (lexeme :: lexemes)) =
      outcome (parseTerms size (.add left e) rest) := by
  rw [outcome_parseTerms_cons, if_pos (.inl hs), hp, Except.bind, if_pos hs]

theorem outcome_parseTerms_minus (hs : lexeme.token = .minus)
    (hp : outcome (parseProduct size lexemes) = .ok (e, rest)) (left : Signal) :
    outcome (parseTerms size left (lexeme :: lexemes)) =
      outcome (parseTerms size (.sub left e) rest) := by
  have hne : lexeme.token ≠ .plus := by rw [hs]; decide
  rw [outcome_parseTerms_cons, if_pos (.inr hs), hp, Except.bind, if_neg hne]

theorem outcome_parseTerms_end (left : Signal) (hr : Level.terms.Ends (tokens rest)) :
    outcome (parseTerms size left rest) = .ok (left, rest) := by
  cases rest with
  | nil => exact outcome_parseTerms_nil size left
  | cons lexeme rest =>
    rw [outcome_parseTerms_cons, if_neg]
    rintro (hs | hs)
    · exact hr _ rfl (by simp [hs, Level.continuers])
    · exact hr _ rfl (by simp [hs, Level.continuers])

theorem outcome_parseFactors_star (hs : lexeme.token = .star)
    (hp : outcome (parseSigned size lexemes) = .ok (e, rest)) (left : Signal) :
    outcome (parseFactors size left (lexeme :: lexemes)) =
      outcome (parseFactors size (.mul left e) rest) := by
  rw [outcome_parseFactors_cons, if_pos hs, hp, Except.bind]

theorem outcome_parseFactors_end (left : Signal) (hr : Level.factors.Ends (tokens rest)) :
    outcome (parseFactors size left rest) = .ok (left, rest) := by
  cases rest with
  | nil => exact outcome_parseFactors_nil size left
  | cons lexeme rest =>
    rw [outcome_parseFactors_cons, if_neg]
    intro hs
    exact hr _ rfl (by simp [hs, Level.continuers])

/-- No sum starts with a closing parenthesis. -/
theorem outcome_parseSum_rightParen (h : lexeme.token = .rightParen) :
    outcome (parseSum size (lexeme :: rest)) ≠ .ok (e, lexemes) := by
  simp [outcome_parseSum, outcome_parseProduct, outcome_parseSigned, outcome_parseOperand, h,
    Except.bind, refuse]

theorem outcome_parseArguments_nil {opening closing : Lexeme} (ho : opening.token = .leftParen)
    (hc : closing.token = .rightParen) :
    outcome (parseArguments size (opening :: closing :: rest)) = .ok ([], rest) := by
  rw [outcome_parseArguments, outcome_expect_of_eq ho, Except.bind, outcome_expect_of_eq hc]

theorem outcome_parseArguments_of_sum {opening : Lexeme} (ho : opening.token = .leftParen)
    (h : outcome (parseSum size lexemes) = .ok (e, rest)) :
    outcome (parseArguments size (opening :: lexemes)) =
      outcome (parseArgumentList size lexemes) := by
  rw [outcome_parseArguments, outcome_expect_of_eq ho, Except.bind]
  cases lexemes with
  | nil => rfl
  | cons lexeme more =>
    have hne : lexeme.token ≠ .rightParen := fun ht => outcome_parseSum_rightParen ht h
    -- There is no empty list of arguments to read, so the arguments are read one by one.
    obtain ⟨refusal, hr⟩ := outcome_expect_of_ne size more hne
    rw [hr]

theorem outcome_parseArgumentList_comma
    (h : outcome (parseSum size lexemes) = .ok (e, lexeme :: rest)) (hc : lexeme.token = .comma) :
    outcome (parseArgumentList size lexemes) =
      (outcome (parseArgumentList size rest)).bind fun more => .ok (e :: more.1, more.2) := by
  rw [outcome_parseArgumentList, h, Except.bind, outcome_expect_of_eq hc]

theorem outcome_parseArgumentList_last
    (h : outcome (parseSum size lexemes) = .ok (e, lexeme :: rest))
    (hc : lexeme.token = .rightParen) :
    outcome (parseArgumentList size lexemes) = .ok ([e], rest) := by
  have hne : lexeme.token ≠ .comma := by rw [hc]; decide
  obtain ⟨refusal, hr⟩ := outcome_expect_of_ne size rest hne
  rw [outcome_parseArgumentList, h, Except.bind, hr]
  dsimp only
  rw [outcome_expect_of_eq hc, Except.bind]

theorem outcome_parseOperand_number {value : Binary32} (h : lexeme.token = .number value) :
    outcome (parseOperand size (lexeme :: rest)) = .ok (.const value, rest) := by
  rw [outcome_parseOperand]
  dsimp only
  rw [h]

theorem outcome_parseOperand_name {name : String} (h : lexeme.token = .name name) :
    outcome (parseOperand size (lexeme :: rest)) =
      if name = "t" then .ok (.time, rest)
      else if name = "rand" then
        (outcome (parseArguments size rest)).bind fun read =>
          match read.1 with
          | [] => .ok (.noise, read.2)
          | arguments => .error ⟨lexeme.start, .wrongArity "rand" 0 arguments.length⟩
      else if name = "lerp" then
        (outcome (parseArguments size rest)).bind fun read =>
          match read.1 with
          | [x, y, s] => .ok (.lerp x y s, read.2)
          | arguments => .error ⟨lexeme.start, .wrongArity "lerp" 3 arguments.length⟩
      else .error ⟨lexeme.start, .unknownName name⟩ := by
  rw [outcome_parseOperand]
  dsimp only
  rw [h]

theorem outcome_parseOperand_lerp {name opening comma comma' closing : Lexeme}
    {ls ls' ls'' : List Lexeme} {x y s : Signal} (hn : name.token = .name "lerp")
    (ho : opening.token = .leftParen) (hc : comma.token = .comma) (hc' : comma'.token = .comma)
    (hp : closing.token = .rightParen) (hx : outcome (parseSum size ls) = .ok (x, comma :: ls'))
    (hy : outcome (parseSum size ls') = .ok (y, comma' :: ls''))
    (hs : outcome (parseSum size ls'') = .ok (s, closing :: rest)) :
    outcome (parseOperand size (name :: opening :: ls)) = .ok (.lerp x y s, rest) := by
  have harguments : outcome (parseArguments size (opening :: ls)) = .ok ([x, y, s], rest) := by
    rw [outcome_parseArguments_of_sum ho hx, outcome_parseArgumentList_comma hx hc,
      outcome_parseArgumentList_comma hy hc', outcome_parseArgumentList_last hs hp]
    rfl
  rw [outcome_parseOperand_name hn, if_neg (by decide), if_neg (by decide), if_pos rfl, harguments]
  rfl

theorem outcome_parseOperand_group {opening closing : Lexeme} (ho : opening.token = .leftParen)
    (hc : closing.token = .rightParen)
    (h : outcome (parseSum size lexemes) = .ok (e, closing :: rest)) :
    outcome (parseOperand size (opening :: lexemes)) = .ok (e, rest) := by
  rw [outcome_parseOperand]
  dsimp only
  rw [ho]
  dsimp only
  rw [h, Except.bind, outcome_expect_of_eq hc]
  rfl

end

/-- After a product come further terms, or what ends the sum. -/
theorem ends_tokens_append {more : Derivation .terms} {front rest : List Lexeme}
    (h : tokens front = more.tokens) (hr : Level.terms.Ends (tokens rest)) :
    Level.product.Ends (tokens (front ++ rest)) := by
  rw [tokens_append, h]
  exact Derivation.ends_append_terms more hr

/-- The reader of a level reads a derivation of the level, up to an end of the level. -/
theorem reads {level : Level} (size : Nat) (d : Derivation level) (front rest : List Lexeme)
    (h : tokens front = d.tokens) (hr : level.Ends (tokens rest)) :
    level.Reads size d.signal (front ++ rest) rest := by
  -- Induction on the derivation: the lexemes in front are cut where its parts meet.
  induction d generalizing front rest with
  | sum first more ihf ihm =>
    obtain ⟨front₁, front₂, rfl, h₁, h₂⟩ := List.map_eq_append_iff.mp h
    have hp := ihf front₁ (front₂ ++ rest) h₁ (ends_tokens_append h₂ hr)
    have ht := ihm front₂ rest h₂ hr
    rw [Level.Reads, outcome_parseSum, List.append_assoc, hp, Except.bind]
    exact ht _
  | noTerm =>
    cases List.map_eq_nil_iff.mp h
    intro left
    exact outcome_parseTerms_end left hr
  | plus term more iht ihm =>
    obtain ⟨sign, front', rfl, hs, h'⟩ := List.map_eq_cons_iff.mp h
    obtain ⟨front₁, front₂, rfl, h₁, h₂⟩ := List.map_eq_append_iff.mp h'
    have hp := iht front₁ (front₂ ++ rest) h₁ (ends_tokens_append h₂ hr)
    have ht := ihm front₂ rest h₂ hr
    intro left
    rw [List.cons_append, List.append_assoc, outcome_parseTerms_plus hs hp]
    exact ht _
  | minus term more iht ihm =>
    obtain ⟨sign, front', rfl, hs, h'⟩ := List.map_eq_cons_iff.mp h
    obtain ⟨front₁, front₂, rfl, h₁, h₂⟩ := List.map_eq_append_iff.mp h'
    have hp := iht front₁ (front₂ ++ rest) h₁ (ends_tokens_append h₂ hr)
    have ht := ihm front₂ rest h₂ hr
    intro left
    rw [List.cons_append, List.append_assoc, outcome_parseTerms_minus hs hp]
    exact ht _
  | product first more ihf ihm =>
    obtain ⟨front₁, front₂, rfl, h₁, h₂⟩ := List.map_eq_append_iff.mp h
    have hp := ihf front₁ (front₂ ++ rest) h₁ (Level.ends_signed _)
    have ht := ihm front₂ rest h₂ hr
    rw [Level.Reads, outcome_parseProduct, List.append_assoc, hp, Except.bind]
    exact ht _
  | noFactor =>
    cases List.map_eq_nil_iff.mp h
    intro left
    exact outcome_parseFactors_end left hr
  | times factor more ihf ihm =>
    obtain ⟨star, front', rfl, hs, h'⟩ := List.map_eq_cons_iff.mp h
    obtain ⟨front₁, front₂, rfl, h₁, h₂⟩ := List.map_eq_append_iff.mp h'
    have hp := ihf front₁ (front₂ ++ rest) h₁ (Level.ends_signed _)
    have ht := ihm front₂ rest h₂ hr
    intro left
    rw [List.cons_append, List.append_assoc, outcome_parseFactors_star hs hp]
    exact ht _
  | negative inner ih =>
    obtain ⟨minus, front', rfl, hs, h'⟩ := List.map_eq_cons_iff.mp h
    have hi := ih front' rest h' (Level.ends_signed _)
    rw [Level.Reads, outcome_parseSigned, List.cons_append]
    dsimp only
    rw [if_pos hs, hi, Except.bind, signal_negative]
  | operand inner ih =>
    have hi := ih front rest h (Level.ends_operand _)
    -- The first lexeme is not a minus sign, so the operand is read as it stands.
    obtain ⟨token, more, ht, hne⟩ := inner.exists_tokens_eq
    rw [Derivation.tokens, ht] at h
    obtain ⟨lexeme, front', rfl, rfl, -⟩ := List.map_eq_cons_iff.mp h
    rw [Level.Reads, outcome_parseSigned, List.cons_append]
    dsimp only
    rw [if_neg hne]
    exact hi
  | number value =>
    obtain ⟨lexeme, front', rfl, ht, h'⟩ := List.map_eq_cons_iff.mp h
    cases List.map_eq_nil_iff.mp h'
    exact outcome_parseOperand_number ht
  | time =>
    obtain ⟨lexeme, front', rfl, ht, h'⟩ := List.map_eq_cons_iff.mp h
    cases List.map_eq_nil_iff.mp h'
    rw [Level.Reads, List.cons_append, outcome_parseOperand_name ht, if_pos rfl]
    rfl
  | rand =>
    obtain ⟨name, front₁, rfl, ht, h₁⟩ := List.map_eq_cons_iff.mp h
    obtain ⟨opening, front₂, rfl, ho, h₂⟩ := List.map_eq_cons_iff.mp h₁
    obtain ⟨closing, front₃, rfl, hc, h₃⟩ := List.map_eq_cons_iff.mp h₂
    cases List.map_eq_nil_iff.mp h₃
    rw [Level.Reads, List.cons_append, outcome_parseOperand_name ht, if_neg (by decide), if_pos rfl,
      List.cons_append, List.cons_append, outcome_parseArguments_nil ho hc]
    rfl
  | lerp start stop weight ihx ihy ihs =>
    obtain ⟨name, front₁, rfl, ht, h₁⟩ := List.map_eq_cons_iff.mp h
    obtain ⟨opening, front₂, rfl, ho, h₂⟩ := List.map_eq_cons_iff.mp h₁
    obtain ⟨x, front₃, rfl, hx, h₃⟩ := List.map_eq_append_iff.mp h₂
    obtain ⟨comma, front₄, rfl, hc, h₄⟩ := List.map_eq_cons_iff.mp h₃
    obtain ⟨y, front₅, rfl, hy, h₅⟩ := List.map_eq_append_iff.mp h₄
    obtain ⟨comma', front₆, rfl, hc', h₆⟩ := List.map_eq_cons_iff.mp h₅
    obtain ⟨s, front₇, rfl, hs, h₇⟩ := List.map_eq_append_iff.mp h₆
    obtain ⟨closing, front₈, rfl, hp, h₈⟩ := List.map_eq_cons_iff.mp h₇
    cases List.map_eq_nil_iff.mp h₈
    -- Each argument ends at the lexeme behind it: a comma, or the closing parenthesis.
    have hends : ∀ {lexeme : Lexeme} (rest : List Lexeme),
        lexeme.token ∉ Level.sum.continuers → Level.sum.Ends (tokens (lexeme :: rest)) :=
      fun rest h => Level.ends_cons h _
    have readx := ihx x (comma :: (y ++ comma' :: (s ++ closing :: rest))) hx
      (hends _ (by simp [hc, Level.continuers]))
    have ready := ihy y (comma' :: (s ++ closing :: rest)) hy
      (hends _ (by simp [hc', Level.continuers]))
    have reads := ihs s (closing :: rest) hs (hends _ (by simp [hp, Level.continuers]))
    have hfront : (name :: opening :: (x ++ comma :: (y ++ comma' :: (s ++ [closing])))) ++ rest =
        name :: opening :: (x ++ comma :: (y ++ comma' :: (s ++ closing :: rest))) := by
      simp only [List.cons_append, List.append_assoc, List.nil_append]
    rw [Level.Reads, hfront]
    exact outcome_parseOperand_lerp ht ho hc hc' hp readx ready reads
  | group inner ih =>
    obtain ⟨opening, front₁, rfl, ho, h₁⟩ := List.map_eq_cons_iff.mp h
    obtain ⟨front₂, front₃, rfl, h₂, h₃⟩ := List.map_eq_append_iff.mp h₁
    obtain ⟨closing, front₄, rfl, hc, h₄⟩ := List.map_eq_cons_iff.mp h₃
    cases List.map_eq_nil_iff.mp h₄
    have hends : Level.sum.Ends (tokens (closing :: rest)) :=
      Level.ends_cons (by simp [hc, Level.continuers]) _
    have hi := ih front₂ (closing :: rest) h₂ hends
    rw [Level.Reads, List.cons_append, List.append_assoc]
    exact outcome_parseOperand_group ho hc hi

/-- The lexemes of a text are read exactly if their tokens are derived. -/
theorem parseLexemes_eq_ok_iff {size : Nat} {lexemes : List Lexeme} {e : Signal} :
    parseLexemes size lexemes = .ok e ↔
      ∃ d : Derivation .sum, d.tokens = tokens lexemes ∧ d.signal = e := by
  rw [parseLexemes_eq]
  constructor
  · intro h
    obtain ⟨⟨e', rest⟩, hs, he⟩ := of_bind_eq_ok h
    obtain ⟨d, rfl, hd⟩ := exists_derivation_sum hs
    -- A sum that leaves lexemes is refused, so the derivation has all of them.
    cases rest with
    | nil =>
      cases he
      exact ⟨d, by rw [hd]; exact (List.append_nil _).symm, rfl⟩
    | cons => cases he
  · rintro ⟨d, hd, rfl⟩
    have hs := reads size d lexemes [] hd.symm (Level.ends_nil _)
    rw [List.append_nil] at hs
    rw [hs]
    rfl

end Formula

end TimeSignal
