import TimeSignal.Formula.Token
import TimeSignal.Signal.Basic

/-!
# The grammar of formulas

    sum     := product (('+' | '-') product)*
    product := signed ('*' signed)*
    signed  := '-' signed | operand
    operand := number | 't' | 'rand' '(' ')' | 'lerp' '(' sum ',' sum ',' sum ')' | '(' sum ')'

A derivation is a tree over these rules.  The two repetitions are levels of their own, and what they
stand for is an extension of the signal on their left, so they group from the left.

## Main definitions

* `Derivation`: the derivations of each level
* `Derivation.tokens`, `Derivation.signal`: the tokens and the signal of a derivation
* `Level.Ends`: no further token of a list continues a level

## Main results

* `Derivation.tokens_append_inj`: the tokens of a derivation, together with an end, determine it
-/

namespace TimeSignal

namespace Formula

/-- The levels of the grammar, with a level for each of the two repetitions. -/
inductive Level where
  /-- Products joined by `+` and `-`. -/
  | sum
  /-- The products that follow the first one of a sum. -/
  | terms
  /-- Signed operands joined by `*`. -/
  | product
  /-- The signed operands that follow the first one of a product. -/
  | factors
  /-- An operand with any number of minus signs. -/
  | signed
  /-- A number, the time, a call, or a sum in parentheses. -/
  | operand
deriving DecidableEq

/-- The derivations of the grammar. -/
inductive Derivation : Level → Type where
  | sum (first : Derivation .product) (more : Derivation .terms) : Derivation .sum
  | noTerm : Derivation .terms
  | plus (term : Derivation .product) (more : Derivation .terms) : Derivation .terms
  | minus (term : Derivation .product) (more : Derivation .terms) : Derivation .terms
  | product (first : Derivation .signed) (more : Derivation .factors) : Derivation .product
  | noFactor : Derivation .factors
  | times (factor : Derivation .signed) (more : Derivation .factors) : Derivation .factors
  | negative (inner : Derivation .signed) : Derivation .signed
  | operand (inner : Derivation .operand) : Derivation .signed
  | number (value : Binary32) : Derivation .operand
  | time : Derivation .operand
  | rand : Derivation .operand
  | lerp (start stop weight : Derivation .sum) : Derivation .operand
  | group (inner : Derivation .sum) : Derivation .operand

/-- What a level stands for: a signal, or for a repetition the extension of the signal on its
left. -/
abbrev Level.Meaning : Level → Type
  | sum | product | signed | operand => Signal
  | terms | factors => Signal → Signal

namespace Derivation

/-- The tokens that a derivation derives. -/
def tokens : {level : Level} → Derivation level → List Token
  | _, sum first more => first.tokens ++ more.tokens
  | _, noTerm => []
  | _, plus term more => .plus :: (term.tokens ++ more.tokens)
  | _, minus term more => .minus :: (term.tokens ++ more.tokens)
  | _, product first more => first.tokens ++ more.tokens
  | _, noFactor => []
  | _, times factor more => .star :: (factor.tokens ++ more.tokens)
  | _, negative inner => .minus :: inner.tokens
  | _, operand inner => inner.tokens
  | _, number value => [.number value]
  | _, time => [.name "t"]
  | _, rand => [.name "rand", .leftParen, .rightParen]
  | _, lerp start stop weight =>
    .name "lerp" :: .leftParen :: (start.tokens ++ .comma :: (stop.tokens ++ .comma ::
      (weight.tokens ++ [.rightParen])))
  | _, group inner => .leftParen :: (inner.tokens ++ [.rightParen])

/-- The signal that a derivation stands for.  A difference adds the product by `-1`; a minus sign
changes the sign of a constant, and multiplies all else by `-1`. -/
def signal : {level : Level} → Derivation level → level.Meaning
  | _, sum first more => more.signal first.signal
  | _, noTerm => fun left => left
  | _, plus term more => fun left => more.signal (.add left term.signal)
  | _, minus term more => fun left => more.signal (.add left (.mul (.const (-1)) term.signal))
  | _, product first more => more.signal first.signal
  | _, noFactor => fun left => left
  | _, times factor more => fun left => more.signal (.mul left factor.signal)
  | _, negative inner =>
    match inner.signal with
    | .const value => .const (-value)
    | e => .mul (.const (-1)) e
  | _, operand inner => inner.signal
  | _, number value => .const value
  | _, time => .time
  | _, rand => .noise
  | _, lerp start stop weight => .lerp start.signal stop.signal weight.signal
  | _, group inner => inner.signal

end Derivation

/-! ## Where a level ends -/

/-- The tokens that continue a level. -/
def Level.continuers : Level → List Token
  | sum | terms => [.plus, .minus, .star]
  | product | factors => [.star]
  | signed | operand => []

/-- The first of the remaining tokens, if there is one, does not continue the level. -/
def Level.Ends (level : Level) (rest : List Token) : Prop :=
  ∀ token ∈ rest.head?, token ∉ level.continuers

namespace Level

theorem ends_nil (level : Level) : level.Ends [] := fun _ h => nomatch h

theorem ends_cons {level : Level} {token : Token} (h : token ∉ level.continuers)
    (rest : List Token) : level.Ends (token :: rest) := by
  intro token' ht
  cases ht
  exact h

theorem ends_signed (rest : List Token) : signed.Ends rest := fun _ _ => List.not_mem_nil

theorem ends_operand (rest : List Token) : operand.Ends rest := fun _ _ => List.not_mem_nil

theorem Ends.ne_cons {level : Level} {rest more : List Token} {token : Token}
    (h : level.Ends rest) (ht : token ∈ level.continuers) : rest ≠ token :: more := by
  rintro rfl
  exact h token rfl ht

end Level

namespace Derivation

theorem ends_append_terms (more : Derivation .terms) {rest : List Token}
    (h : Level.terms.Ends rest) : Level.product.Ends (more.tokens ++ rest) := by
  cases more with
  | noTerm =>
    -- The tokens that continue a product are among those that continue a sum.
    intro token ht hm
    exact h token ht (List.mem_cons_of_mem _ (List.mem_cons_of_mem _ hm))
  | plus | minus => exact Level.ends_cons (by simp [Level.continuers]) _

/-- An operand starts with a token that is not a minus sign. -/
theorem exists_tokens_eq (d : Derivation .operand) :
    ∃ token more, d.tokens = token :: more ∧ token ≠ .minus := by
  cases d with
  | number | time | rand | lerp | group => exact ⟨_, _, rfl, by simp⟩

/-! ## A derivation is determined by its tokens -/

/-- Two derivations of one level whose tokens start the same list, each up to an end of the level,
are the same. -/
theorem tokens_append_inj {level : Level} (d d' : Derivation level) {rest rest' : List Token}
    (hr : level.Ends rest) (hr' : level.Ends rest')
    (h : d.tokens ++ rest = d'.tokens ++ rest') : d = d' ∧ rest = rest' := by
  -- Induction on one derivation.  The first token that follows a part tells whether the part ends.
  induction d generalizing rest rest' with
  | sum first more ihf ihm =>
    cases d' with
    | sum first' more' =>
      simp only [tokens, List.append_assoc] at h
      obtain ⟨rfl, hm⟩ := ihf first' (ends_append_terms more hr) (ends_append_terms more' hr') h
      obtain ⟨rfl, rfl⟩ := ihm more' hr hr' hm
      exact ⟨rfl, rfl⟩
  | noTerm =>
    -- No term follows on the left, so no sign can follow on the right.
    cases d' with
    | noTerm => exact ⟨rfl, h⟩
    | plus | minus => exact absurd h (hr.ne_cons (by simp [Level.continuers]))
  | plus term more iht ihm =>
    cases d' with
    | plus term' more' =>
      simp only [tokens, List.cons_append, List.append_assoc, List.cons.injEq, true_and] at h
      obtain ⟨rfl, hm⟩ := iht term' (ends_append_terms more hr) (ends_append_terms more' hr') h
      obtain ⟨rfl, rfl⟩ := ihm more' hr hr' hm
      exact ⟨rfl, rfl⟩
    | noTerm => exact absurd h.symm (hr'.ne_cons (by simp [Level.continuers]))
    | minus => simp [tokens] at h
  | minus term more iht ihm =>
    cases d' with
    | minus term' more' =>
      simp only [tokens, List.cons_append, List.append_assoc, List.cons.injEq, true_and] at h
      obtain ⟨rfl, hm⟩ := iht term' (ends_append_terms more hr) (ends_append_terms more' hr') h
      obtain ⟨rfl, rfl⟩ := ihm more' hr hr' hm
      exact ⟨rfl, rfl⟩
    | noTerm => exact absurd h.symm (hr'.ne_cons (by simp [Level.continuers]))
    | plus => simp [tokens] at h
  | product first more ihf ihm =>
    cases d' with
    | product first' more' =>
      simp only [tokens, List.append_assoc] at h
      obtain ⟨rfl, hm⟩ := ihf first' (Level.ends_signed _) (Level.ends_signed _) h
      obtain ⟨rfl, rfl⟩ := ihm more' hr hr' hm
      exact ⟨rfl, rfl⟩
  | noFactor =>
    cases d' with
    | noFactor => exact ⟨rfl, h⟩
    | times => exact absurd h (hr.ne_cons (by simp [Level.continuers]))
  | times factor more ihf ihm =>
    cases d' with
    | times factor' more' =>
      simp only [tokens, List.cons_append, List.append_assoc, List.cons.injEq, true_and] at h
      obtain ⟨rfl, hm⟩ := ihf factor' (Level.ends_signed _) (Level.ends_signed _) h
      obtain ⟨rfl, rfl⟩ := ihm more' hr hr' hm
      exact ⟨rfl, rfl⟩
    | noFactor => exact absurd h.symm (hr'.ne_cons (by simp [Level.continuers]))
  | negative inner ih =>
    -- An operand never starts with a minus sign.
    cases d' with
    | negative inner' =>
      simp only [tokens, List.cons_append, List.cons.injEq, true_and] at h
      obtain ⟨rfl, rfl⟩ := ih inner' (Level.ends_signed _) (Level.ends_signed _) h
      exact ⟨rfl, rfl⟩
    | operand inner' => cases inner' <;> simp [tokens] at h
  | operand inner ih =>
    cases d' with
    | operand inner' =>
      obtain ⟨rfl, rfl⟩ := ih inner' (Level.ends_operand _) (Level.ends_operand _) h
      exact ⟨rfl, rfl⟩
    | negative => cases inner <;> simp [tokens] at h
  | number value =>
    cases d' with
    | number value' =>
      obtain ⟨ht, hrest⟩ := List.cons.inj h
      cases ht
      exact ⟨rfl, hrest⟩
    | time | rand | lerp | group => simp [tokens] at h
  | time =>
    cases d' with
    | time => exact ⟨rfl, by simpa [tokens] using h⟩
    | number | rand | lerp | group => simp [tokens] at h
  | rand =>
    cases d' with
    | rand => exact ⟨rfl, by simpa [tokens] using h⟩
    | number | time | lerp | group => simp [tokens] at h
  | lerp start stop weight ihx ihy ihs =>
    cases d' with
    | lerp start' stop' weight' =>
      simp only [tokens, List.cons_append, List.append_assoc, List.cons.injEq, true_and] at h
      -- The arguments end at the commas and at the closing parenthesis.
      have hc : ∀ rest, Level.sum.Ends (.comma :: rest) :=
        Level.ends_cons (by simp [Level.continuers])
      have hp : ∀ rest, Level.sum.Ends (.rightParen :: rest) :=
        Level.ends_cons (by simp [Level.continuers])
      obtain ⟨rfl, hx⟩ := ihx start' (hc _) (hc _) h
      obtain ⟨rfl, hy⟩ := ihy stop' (hc _) (hc _) (List.cons.inj hx).2
      obtain ⟨rfl, hs⟩ := ihs weight' (hp _) (hp _) (List.cons.inj hy).2
      exact ⟨rfl, (List.cons.inj hs).2⟩
    | number | time | rand | group => simp [tokens] at h
  | group inner ih =>
    cases d' with
    | group inner' =>
      simp only [tokens, List.cons_append, List.append_assoc, List.cons.injEq, true_and] at h
      have hp : ∀ rest, Level.sum.Ends (.rightParen :: rest) :=
        Level.ends_cons (by simp [Level.continuers])
      obtain ⟨rfl, hi⟩ := ih inner' (hp _) (hp _) h
      exact ⟨rfl, (List.cons.inj hi).2⟩
    | number | time | rand | lerp => simp [tokens] at h

theorem tokens_injective {level : Level} {d d' : Derivation level} (h : d.tokens = d'.tokens) :
    d = d' :=
  (tokens_append_inj d d' (Level.ends_nil _) (Level.ends_nil _) (congrArg (· ++ []) h)).1

end Derivation

end Formula

end TimeSignal
