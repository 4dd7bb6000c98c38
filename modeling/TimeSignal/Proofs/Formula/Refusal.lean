import TimeSignal.Proofs.Formula.Parser
import TimeSignal.Proofs.Formula.Places

/-!
# Refusals of the parser

A reader is handed the lexemes from some position on, up to the end of the text.  It leaves the
lexemes from a later position on, or it refuses the text at one of them or at the end.  Every place
of a refusal is therefore the start of a lexeme, the place where the lexer refuses the text, or the
end, and each of these is between two characters of the text.

## Main definitions

* `Formula.Within`: a reader stays in the lexemes it was given
* `Formula.Advances`: what a reader does to its position

## Main results

* `Formula.within_parseSum` and the like: every reader stays within its lexemes
* `Formula.advances_of_within`: a reader that leaves fewer lexemes advances
* `Formula.parse_total`: a formula is read, or refused at a boundary of its text
-/

namespace TimeSignal

namespace Formula

/-! ## Staying within the lexemes -/

/-- The refusal is at the end of the text or at the start of a lexeme. -/
def Refusal.IsAt (size : Nat) (lexemes : List Lexeme) (refusal : Refusal) : Prop :=
  refusal.offset = size ∨ ∃ lexeme ∈ lexemes, refusal.offset = lexeme.start

/-- What is left is an end of the lexemes, and a refusal is at one of them or at the end. -/
def Within {α : Type} (size : Nat) (lexemes : List Lexeme) :
    Except Refusal (α × List Lexeme) → Prop
  | .ok read => read.2 <:+ lexemes
  | .error refusal => refusal.IsAt size lexemes

section

variable {α β : Type} {size : Nat} {lexeme : Lexeme} {lexemes lexemes' rest : List Lexeme}

theorem Within.mono {read : Except Refusal (α × List Lexeme)} (h : Within size lexemes' read)
    (hl : lexemes' <:+ lexemes) : Within size lexemes read := by
  cases read with
  | ok read => exact List.IsSuffix.trans h hl
  | error refusal => exact Or.imp_right (fun ⟨lexeme, hm, ho⟩ => ⟨lexeme, hl.mem hm, ho⟩) h

theorem Within.cons {read : Except Refusal (α × List Lexeme)} (h : Within size lexemes read) :
    Within size (lexeme :: lexemes) read :=
  h.mono (List.suffix_cons _ _)

/-- Readers that stay within their lexemes, one after the other, do so together. -/
theorem Within.bind {read : Except Refusal (α × List Lexeme)}
    {next : α × List Lexeme → Except Refusal (β × List Lexeme)} (h : Within size lexemes read)
    (hn : ∀ a rest, read = .ok (a, rest) → rest <:+ lexemes →
      Within size lexemes (next (a, rest))) : Within size lexemes (read.bind next) := by
  cases read with
  | ok read => exact hn read.1 read.2 rfl h
  | error refusal => exact h

theorem within_refuse (size : Nat) (lexemes : List Lexeme) (cause : Option Token → Cause) :
    Within size lexemes (refuse (α := α × List Lexeme) size lexemes cause) := by
  cases lexemes with
  | nil => exact Or.inl rfl
  | cons lexeme rest => exact Or.inr ⟨lexeme, List.mem_cons_self, rfl⟩

theorem within_start (size : Nat) (lexeme : Lexeme) (rest : List Lexeme) (cause : Cause) :
    Within (α := α) size (lexeme :: rest) (.error ⟨lexeme.start, cause⟩) :=
  Or.inr ⟨lexeme, List.mem_cons_self, rfl⟩

theorem within_expect (size : Nat) (wanted : Token) (lexemes : List Lexeme) :
    Within size lexemes (outcome (expect size wanted lexemes)) := by
  rw [outcome_expect]
  cases lexemes with
  | nil => exact within_refuse size [] _
  | cons lexeme rest =>
    dsimp only
    split
    · exact List.suffix_cons _ _
    · exact within_refuse size (lexeme :: rest) _

end

-- Each reader recurses on fewer lexemes, or on as many at a lower level of the grammar.
mutual

theorem within_parseSum (size : Nat) (lexemes : List Lexeme) :
    Within size lexemes (outcome (parseSum size lexemes)) := by
  rw [outcome_parseSum]
  refine (within_parseProduct size lexemes).bind fun first rest hp hrest => ?_
  have hlt : rest.length < lexemes.length := property_of_outcome hp
  exact (within_parseTerms size first rest).mono hrest
termination_by (lexemes.length, 3)

theorem within_parseTerms (size : Nat) (left : Signal) (lexemes : List Lexeme) :
    Within size lexemes (outcome (parseTerms size left lexemes)) := by
  cases lexemes with
  | nil =>
    rw [outcome_parseTerms_nil]
    exact List.suffix_refl _
  | cons lexeme more =>
    rw [outcome_parseTerms_cons]
    split
    · refine (within_parseProduct size more).cons.bind fun right rest hp hrest => ?_
      have hlt : rest.length < more.length := property_of_outcome hp
      exact (within_parseTerms size _ rest).mono hrest
    · exact List.suffix_refl _
termination_by (lexemes.length, 0)

theorem within_parseProduct (size : Nat) (lexemes : List Lexeme) :
    Within size lexemes (outcome (parseProduct size lexemes)) := by
  rw [outcome_parseProduct]
  refine (within_parseSigned size lexemes).bind fun first rest hp hrest => ?_
  have hlt : rest.length < lexemes.length := property_of_outcome hp
  exact (within_parseFactors size first rest).mono hrest
termination_by (lexemes.length, 2)

theorem within_parseFactors (size : Nat) (left : Signal) (lexemes : List Lexeme) :
    Within size lexemes (outcome (parseFactors size left lexemes)) := by
  cases lexemes with
  | nil =>
    rw [outcome_parseFactors_nil]
    exact List.suffix_refl _
  | cons lexeme more =>
    rw [outcome_parseFactors_cons]
    split
    · refine (within_parseSigned size more).cons.bind fun right rest hp hrest => ?_
      have hlt : rest.length < more.length := property_of_outcome hp
      exact (within_parseFactors size _ rest).mono hrest
    · exact List.suffix_refl _
termination_by (lexemes.length, 0)

theorem within_parseSigned (size : Nat) (lexemes : List Lexeme) :
    Within size lexemes (outcome (parseSigned size lexemes)) := by
  rw [outcome_parseSigned]
  cases lexemes with
  | nil => exact within_parseOperand size []
  | cons lexeme more =>
    dsimp only
    split
    · exact (within_parseSigned size more).cons.bind fun _ _ _ hrest => hrest
    · exact within_parseOperand size (lexeme :: more)
termination_by (lexemes.length, 1)

theorem within_parseOperand (size : Nat) (lexemes : List Lexeme) :
    Within size lexemes (outcome (parseOperand size lexemes)) := by
  rw [outcome_parseOperand]
  cases lexemes with
  | nil => exact within_refuse size [] _
  | cons lexeme more =>
    dsimp only
    split
    · exact List.suffix_cons _ _
    · split_ifs
      · exact List.suffix_cons _ _
      · refine (within_parseArguments size more).cons.bind fun arguments rest _ hrest => ?_
        dsimp only
        split
        · exact hrest
        · exact within_start ..
      · refine (within_parseArguments size more).cons.bind fun arguments rest _ hrest => ?_
        dsimp only
        split
        · exact hrest
        · exact within_start ..
      · exact within_start ..
    · refine (within_parseSum size more).cons.bind fun e rest _ hrest => ?_
      exact ((within_expect size _ rest).mono hrest).bind fun _ _ _ hrest' => hrest'
    · exact within_refuse size (lexeme :: more) _
termination_by (lexemes.length, 0)

theorem within_parseArguments (size : Nat) (lexemes : List Lexeme) :
    Within size lexemes (outcome (parseArguments size lexemes)) := by
  rw [outcome_parseArguments]
  refine (within_expect size _ lexemes).bind fun _ rest ho hrest => ?_
  have hlt : rest.length < lexemes.length := property_of_outcome ho
  dsimp only
  split
  · next closed hc =>
    have hclosed := within_expect size .rightParen rest
    rw [hc] at hclosed
    exact List.IsSuffix.trans hclosed hrest
  · exact (within_parseArgumentList size rest).mono hrest
termination_by (lexemes.length, 0)

theorem within_parseArgumentList (size : Nat) (lexemes : List Lexeme) :
    Within size lexemes (outcome (parseArgumentList size lexemes)) := by
  rw [outcome_parseArgumentList]
  refine (within_parseSum size lexemes).bind fun e rest hs hrest => ?_
  have hlt : rest.length < lexemes.length := property_of_outcome hs
  dsimp only
  split
  · next after hc =>
    have hafter := within_expect size .comma rest
    rw [hc] at hafter
    have hlt' : after.2.length < rest.length := property_of_outcome hc
    refine ((within_parseArgumentList size after.2).mono (List.IsSuffix.trans hafter hrest)).bind
      fun _ _ _ hrest' => hrest'
  · exact ((within_expect size _ rest).mono hrest).bind fun _ _ _ hrest' => hrest'
termination_by (lexemes.length, 4)

end

/-! ## Positions -/

/-- What a reader does from any position of the lexemes on.  The position after the last lexeme is
that of the end. -/
structure Advances {α : Type} (size : Nat) (lexemes : List Lexeme)
    (read : List Lexeme → Except Refusal (α × List Lexeme)) : Prop where
  /-- A reader that succeeds has moved the position forward, and not beyond the end. -/
  ok : ∀ p a rest, read (lexemes.drop p) = .ok (a, rest) →
    ∃ q, p < q ∧ q ≤ lexemes.length ∧ rest = lexemes.drop q
  /-- A reader refuses the text at the position, at a later one, or at the end. -/
  error : ∀ p refusal, read (lexemes.drop p) = .error refusal →
    refusal.IsAt size (lexemes.drop p)

/-- A reader that stays within its lexemes advances, since it leaves fewer of them. -/
theorem advances_of_within {α : Type} {size : Nat} (lexemes : List Lexeme)
    {read : (given : List Lexeme) → Parsed α given}
    (h : ∀ given, Within size given (outcome (read given))) :
    Advances size lexemes fun given => outcome (read given) where
  ok p a rest ho := by
    change outcome (read (lexemes.drop p)) = .ok (a, rest) at ho
    have hlt : rest.length < (lexemes.drop p).length := property_of_outcome ho
    have hwithin := h (lexemes.drop p)
    rw [ho] at hwithin
    have hrest : rest <:+ lexemes := List.IsSuffix.trans hwithin (List.drop_suffix p lexemes)
    rw [List.length_drop] at hlt
    exact ⟨lexemes.length - rest.length, by omega, by omega, List.suffix_iff_eq_drop.mp hrest⟩
  error p refusal ho := by
    change outcome (read (lexemes.drop p)) = .error refusal at ho
    have hwithin := h (lexemes.drop p)
    rwa [ho] at hwithin

/-! ## Refusals of formulas -/

theorem isAt_of_parseLexemes {size : Nat} {lexemes : List Lexeme} {refusal : Refusal}
    (h : parseLexemes size lexemes = .error refusal) : refusal.IsAt size lexemes := by
  have hwithin := within_parseSum size lexemes
  rw [parseLexemes_eq] at h
  cases hread : outcome (parseSum size lexemes) with
  | error refusal' =>
    rw [hread] at h hwithin
    cases h
    exact hwithin
  -- A sum that leaves lexemes is refused at the first one that it left.
  | ok read =>
    rw [hread] at h hwithin
    obtain ⟨e, rest⟩ := read
    cases rest with
    | nil => cases h
    | cons lexeme rest =>
      cases h
      exact Or.inr ⟨lexeme, hwithin.mem List.mem_cons_self, rfl⟩

theorem isBoundary_of_parseChars {source : List Char} {refusal : Refusal}
    (h : parseChars source = .error refusal) : IsBoundary (body source) refusal.offset := by
  unfold parseChars at h
  dsimp only at h
  split at h
  · next hlex =>
    cases h
    exact Reached.start.isBoundary_of_error hlex
  · next ls hlex =>
    -- The end is a boundary, and so is the start of every lexeme.
    rcases isAt_of_parseLexemes h with hend | ⟨lexeme, hmem, hstart⟩
    · rw [hend]
      exact isBoundary_byteLength (body source)
    · rw [hstart]
      exact (Reached.start.isSlice_of_mem hlex hmem).isBoundary

/-- A text is longer than a part of it. -/
theorem lt_length_append {n : Nat} {front back : String}
    (h : n < front.length ∨ n < back.length) : n < (front ++ back).length := by
  rw [String.length_append]
  omega

theorem Cause.lt_length_reason (cause : Cause) :
    "invalid number".length < cause.reason.length := by
  have hlength : "invalid number".length = 14 := by decide
  rw [hlength]
  cases cause with
  | missingExponentDigits | numberOutOfRange => decide
  | unexpectedCharacter c => exact lt_length_append (.inl (lt_length_append (.inl (by decide))))
  | expected wanted found =>
    have hfront : "expected ".length = 9 := by decide
    have hmiddle : ", found ".length = 8 := by decide
    change 14 < ("expected " ++ label wanted ++ ", found " ++ label found).length
    simp only [String.length_append, hfront, hmiddle]
    omega
  | unexpectedToken found => exact lt_length_append (.inl (by decide))
  | unknownName name => exact lt_length_append (.inl (lt_length_append (.inl (by decide))))
  | wrongArity function wanted found =>
    exact lt_length_append (.inl (lt_length_append (.inr (by decide))))

theorem Cause.reason_ne (cause : Cause) : cause.reason ≠ "invalid number" := by
  intro h
  have hlength := cause.lt_length_reason
  rw [h] at hlength
  exact Nat.lt_irrefl _ hlength

/-- **A formula is read, or refused at a place in its text.**  Every formula has a signal or is
refused as one that cannot be parsed, at an offset that is not beyond the end of its body and is
between two of its characters; the words of the refusal are never `invalid number`.  The lexer stays
between the characters of the body.  The readers of a sum, a product, a signed operand, an operand
and the arguments of a function move the position in any lexemes forward, and not beyond the end. -/
theorem parse_total (source : String) :
    ((∃ e, parse source = .ok e) ∨
      ∃ offset reason, (parse source).mapError Refusal.toFault = .error (.parse offset reason) ∧
        offset ≤ (String.ofList (body source.toList)).utf8ByteSize ∧
        IsBoundary (body source.toList) offset ∧ reason ≠ "invalid number") ∧
    CutsAtBoundaries (body source.toList) ∧
    ∀ size ls, Advances size ls (fun given => outcome (parseSum size given)) ∧
      Advances size ls (fun given => outcome (parseProduct size given)) ∧
      Advances size ls (fun given => outcome (parseSigned size given)) ∧
      Advances size ls (fun given => outcome (parseOperand size given)) ∧
      Advances size ls (fun given => outcome (parseArguments size given)) := by
  refine ⟨?_, cutsAtBoundaries _, fun size ls => ⟨advances_of_within ls (within_parseSum size),
    advances_of_within ls (within_parseProduct size),
    advances_of_within ls (within_parseSigned size),
    advances_of_within ls (within_parseOperand size),
    advances_of_within ls (within_parseArguments size)⟩⟩
  cases hparse : parse source with
  | ok e => exact Or.inl ⟨e, rfl⟩
  | error refusal =>
    have hboundary := isBoundary_of_parseChars hparse
    refine Or.inr ⟨refusal.offset, refusal.cause.reason, rfl, ?_, hboundary,
      refusal.cause.reason_ne⟩
    rw [utf8ByteSize_ofList]
    exact hboundary.le_byteLength

end Formula

end TimeSignal
