import TimeSignal.Formula.Token
import TimeSignal.Proofs.Decimal.Scan
import TimeSignal.Text.Blank

/-!
# The tokens of a text

What the tokens of a text are does not depend on where the text stands, so it is a relation between
characters and tokens, with a case for each way in which a text can start.

## Main definitions

* `Formula.tokens`: lexemes without their places
* `Formula.Lexes`: a text consists of tokens and layout
* `Formula.Token.ReadFrom`, `Formula.Refused`: how a token is read, and why none is
* `Formula.Separates`: a text does not go on with a name or a number
* `Formula.Spells`: a text lexes to tokens in front of every text that separates from it
* `Formula.isTokenChar`: the characters of tokens

## Main results

* `Formula.lexes_of_lexemesFrom`, `Formula.Lexes.exists_lexemesFrom`: the lexer finds the tokens of
  every text that consists of tokens
* `Formula.exists_of_nextToken`, `Formula.refused_of_nextToken`: a token is read from the start of a
  text, or there is a reason why none is
* `Formula.Lexes.isFinite_of_mem`: no token is an infinite number
* `Formula.Lexes.punctuation`, `Formula.Lexes.name`, `Formula.Lexes.scanned`: how a token is spelled
* `Formula.Token.ReadFrom.spells`: what a token is read from is a spelling of it
* `Formula.toNat_of_isTokenChar`: the range of the characters of tokens
* `Formula.Lexes.isTokenChar_of_mem`: a text that lexes holds no other characters than these
-/

namespace TimeSignal

namespace Formula

/-- The tokens of lexemes. -/
def tokens (lexemes : List Lexeme) : List Token := lexemes.map Lexeme.token

theorem tokens_cons (lexeme : Lexeme) (lexemes : List Lexeme) :
    tokens (lexeme :: lexemes) = lexeme.token :: tokens lexemes := rfl

theorem tokens_append (lexemes lexemes' : List Lexeme) :
    tokens (lexemes ++ lexemes') = tokens lexemes ++ tokens lexemes' := List.map_append

/-- A text consists of tokens, perhaps with layout between them. -/
inductive Lexes : List Char → List Token → Prop where
  | nil : Lexes [] []
  | layout {c : Char} {rest : List Char} {ts : List Token} (hc : isLayout c = true)
      (more : Lexes rest ts) : Lexes (c :: rest) ts
  | token {c : Char} {rest : List Char} {token : Token} {width : Nat} {ts : List Token}
      (hc : isLayout c = false) (ht : nextToken c rest = .ok (token, width))
      (more : Lexes (rest.drop width) ts) : Lexes (c :: rest) (token :: ts)

theorem lexes_of_lexemesFrom {offset : Nat} {text : List Char} {lexemes : List Lexeme}
    (h : lexemesFrom offset text = .ok lexemes) : Lexes text (tokens lexemes) := by
  -- The cases of the lexer: the end, layout, a refused token, a refused rest, and a token.
  fun_induction lexemesFrom offset text generalizing lexemes with
  | case1 =>
    cases h
    exact .nil
  | case2 offset c rest hc ih => exact .layout hc (ih h)
  | case3 => cases h
  | case4 => cases h
  | case5 offset c rest hc token width ht stop lexemes hl =>
    rename_i ih
    cases h
    exact .token (Bool.eq_false_iff.mpr hc) ht (ih hl)

theorem Lexes.exists_lexemesFrom {text : List Char} {ts : List Token} (h : Lexes text ts)
    (offset : Nat) : ∃ lexemes, lexemesFrom offset text = .ok lexemes ∧ tokens lexemes = ts := by
  induction h generalizing offset with
  | nil =>
    rw [lexemesFrom]
    exact ⟨[], rfl, rfl⟩
  | layout hc more ih =>
    rw [lexemesFrom, if_pos hc]
    exact ih _
  | @token c rest token width ts hc ht more ih =>
    obtain ⟨lexemes, hl, rfl⟩ := ih (offset + 1 + width)
    refine ⟨⟨token, offset, offset + 1 + width⟩ :: lexemes, ?_, rfl⟩
    rw [lexemesFrom, hc, if_neg Bool.false_ne_true, ht]
    dsimp only
    rw [hl]

/-! ## How a token is read -/

/-- A numeral that is scanned where a number starts has a digit. -/
theorem hasDigit_of_startsNumber {text : List Char} {n : Numeral} (hs : startsNumber text = true)
    (h : Numeral.leading text = .ok n) : n.HasDigit := by
  obtain ⟨hw, hf⟩ := Numeral.digits_of_leading h
  cases text with
  | nil => cases hs
  | cons c rest =>
    cases hc : c.isDigit with
    | true =>
      rw [List.takeWhile_cons_of_pos hc] at hw
      exact Or.inl (hw ▸ List.cons_ne_nil _ _)
    | false =>
      rw [List.dropWhile_cons_of_neg (Bool.eq_false_iff.mp hc)] at hf
      rw [startsNumber, hc, Bool.false_or, ← hf] at hs
      refine Or.inr fun hnil => ?_
      rw [hnil] at hs
      cases hs

/-- The characters that a token is read from. -/
inductive Token.ReadFrom : List Char → Token → Prop where
  | name {c : Char} {more : List Char} (hc : isNameStart c = true)
      (hm : ∀ d ∈ more, isNameChar d = true) :
      ReadFrom (c :: more) (.name (String.ofList (c :: more)))
  | number {slice : List Char} {n : Numeral} (hs : Numeral.Scanned slice n)
      (hd : n.HasDigit) (hf : n.toBinary32.isFinite = true) :
      ReadFrom slice (.number n.toBinary32)
  | punctuation {c : Char} {token : Token} (hp : punctuation? c = some token) : ReadFrom [c] token

/-- Why no token is read from the start of a text, and after how many characters this is found. -/
inductive Refused : List Char → Nat → Cause → Prop where
  | exponent {slice back : List Char} {n : Numeral} (hs : Numeral.Scanned slice n) :
      Refused (slice ++ back) slice.length .missingExponentDigits
  | range {slice back : List Char} {n : Numeral} (hs : Numeral.Scanned slice n)
      (hd : n.HasDigit) (hf : n.toBinary32.isFinite = false) :
      Refused (slice ++ back) 0 .numberOutOfRange
  | character (c : Char) (rest : List Char) : Refused (c :: rest) 0 (.unexpectedCharacter c)

/-- A token is read from the start of the text, and the count is that of its further characters. -/
theorem exists_of_nextToken {c : Char} {rest : List Char} {token : Token} {width : Nat}
    (h : nextToken c rest = .ok (token, width)) :
    ∃ more back, rest = more ++ back ∧ more.length = width ∧ token.ReadFrom (c :: more) := by
  unfold nextToken at h
  split at h
  · next hstart =>
    split at h
    · cases h
    · next numeral hlead =>
      dsimp only at h
      split at h
      · next hfinite =>
        cases h
        have hd := hasDigit_of_startsNumber hstart hlead
        obtain ⟨slice, back, htext, hscan⟩ := Numeral.exists_of_leading hlead
        have hlen := hscan.length_eq
        obtain ⟨d, more, rfl, -⟩ := hscan.exists_cons hd
        obtain ⟨rfl, rfl⟩ := List.cons.inj htext
        refine ⟨more, back, rfl, ?_, .number hscan hd hfinite⟩
        rw [← hlen]
        rfl
      · cases h
  · split at h
    · next hstart =>
      cases h
      refine ⟨_, _, List.takeWhile_append_dropWhile.symm, rfl, .name hstart fun d hd => ?_⟩
      exact List.all_eq_true.mp List.all_takeWhile d hd
    · split at h
      · next token hp =>
        cases h
        exact ⟨[], rest, rfl, rfl, .punctuation hp⟩
      · cases h

theorem refused_of_nextToken {c : Char} {rest : List Char} {distance : Nat} {cause : Cause}
    (h : nextToken c rest = .error (distance, cause)) : Refused (c :: rest) distance cause := by
  unfold nextToken at h
  split at h
  · next hstart =>
    split at h
    · next hlead =>
      cases h
      obtain ⟨slice, back, n, htext, hscan, rfl⟩ := Numeral.exists_of_leading_error hlead
      rw [htext]
      exact .exponent hscan
    · next numeral hlead =>
      dsimp only at h
      split at h
      · cases h
      · next hfinite =>
        cases h
        have hd := hasDigit_of_startsNumber hstart hlead
        obtain ⟨slice, back, htext, hscan⟩ := Numeral.exists_of_leading hlead
        rw [htext]
        exact .range hscan hd (Bool.eq_false_iff.mpr hfinite)
  · split at h
    · cases h
    · split at h
      · cases h
      · cases h
        exact .character c rest

/-! ## Numbers are finite -/

theorem isFinite_of_nextToken {c : Char} {rest : List Char} {value : Binary32} {width : Nat}
    (h : nextToken c rest = .ok (.number value, width)) : value.isFinite = true := by
  obtain ⟨more, back, -, -, hread⟩ := exists_of_nextToken h
  cases hread with
  | number _ _ hf => exact hf
  | punctuation hp =>
    unfold punctuation? at hp
    split at hp <;> cases hp

theorem Lexes.isFinite_of_mem {text : List Char} {ts : List Token} (h : Lexes text ts)
    {value : Binary32} (hv : .number value ∈ ts) : value.isFinite = true := by
  induction h with
  | nil => cases hv
  | layout hc more ih => exact ih hv
  | token hc ht more ih =>
    rcases List.mem_cons.mp hv with rfl | hm
    · exact isFinite_of_nextToken ht
    · exact ih hm

/-! ## Texts of given tokens -/

/-- The text goes on with neither a name nor a number. -/
def Separates (rest : List Char) : Prop := ∀ c ∈ rest.head?, isNameChar c = false ∧ c ≠ '.'

theorem separates_nil : Separates [] := fun _ h => nomatch h

theorem separates_cons {c : Char} (h : isNameChar c = false) (hp : c ≠ '.') (rest : List Char) :
    Separates (c :: rest) := by
  rintro c' ⟨⟩
  exact ⟨h, hp⟩

theorem separates_of_punctuation {c : Char} {token : Token} (hp : punctuation? c = some token)
    (rest : List Char) : Separates (c :: rest) := by
  unfold punctuation? at hp
  split at hp <;> cases hp <;> exact separates_cons rfl (by decide) rest

theorem eq_of_isLayout {c : Char} (h : isLayout c = true) :
    c = ' ' ∨ c = '\t' ∨ c = '\n' ∨ c = '\x0c' ∨ c = '\r' := by
  simpa only [isLayout, Bool.or_eq_true, beq_iff_eq, or_assoc] using h

theorem separates_of_layout {c : Char} (hl : isLayout c = true) (rest : List Char) :
    Separates (c :: rest) := by
  rcases eq_of_isLayout hl with rfl | rfl | rfl | rfl | rfl <;>
    exact separates_cons rfl (by decide) rest

theorem isNameChar_of_isDigit {c : Char} (h : c.isDigit = true) : isNameChar c = true := by
  simp [isNameChar, Char.isAlphanum, h]

theorem Separates.stops {rest : List Char} (h : Separates rest) : Numeral.Stops rest := by
  intro c hc
  obtain ⟨hn, hp⟩ := h c hc
  refine ⟨Bool.eq_false_iff.mpr fun hd => ?_, hp, ?_, ?_⟩
  · rw [isNameChar_of_isDigit hd] at hn
    cases hn
  · rintro rfl
    cases hn
  · rintro rfl
    cases hn

theorem Lexes.punctuation {c : Char} {token : Token} {rest : List Char} {ts : List Token}
    (hp : punctuation? c = some token) (h : Lexes rest ts) : Lexes (c :: rest) (token :: ts) := by
  have hc : isLayout c = false ∧ nextToken c rest = .ok (token, 0) := by
    unfold punctuation? at hp
    split at hp <;> cases hp <;> exact ⟨rfl, rfl⟩
  exact .token hc.1 hc.2 h

/-- All letters come after the digits. -/
theorem not_isNameStart_of_isDigit {c : Char} (h : c.isDigit = true) : ¬ isNameStart c = true := by
  have hhigh : c.toNat ≤ 57 := (Char.isDigit_iff_toNat.mp h).2
  have hletter : ∀ d : Char, 57 < d.toNat → ¬ d.val ≤ c.val := by
    intro d hd hle
    have hnat : d.toNat ≤ c.toNat := UInt32.le_iff_toNat_le.mp hle
    omega
  intro hc
  rcases Bool.or_eq_true_iff.mp hc with halpha | hunderscore
  · rcases Bool.or_eq_true_iff.mp halpha with hupper | hlower
    · exact hletter 'A' (by decide) (of_decide_eq_true hupper).1
    · exact hletter 'a' (by decide) (of_decide_eq_true (Bool.and_eq_true_iff.mp hlower).1)
  · rw [beq_iff_eq.mp hunderscore] at h
    cases h

theorem startsNumber_of_isNameStart {c : Char} (hc : isNameStart c = true) (rest : List Char) :
    startsNumber (c :: rest) = false := by
  have hd : c.isDigit = false :=
    Bool.eq_false_iff.mpr fun hd => not_isNameStart_of_isDigit hd hc
  have hp : Numeral.fractionDigits (c :: rest) = [] := by
    unfold Numeral.fractionDigits
    split
    · next heq =>
      cases heq
      cases hc
    · rfl
  rw [startsNumber, hd, hp]
  rfl

theorem Lexes.name {c : Char} {more rest : List Char} {ts : List Token}
    (hl : isLayout c = false) (hc : isNameStart c = true) (hm : ∀ d ∈ more, isNameChar d = true)
    (hr : Separates rest) (h : Lexes rest ts) :
    Lexes (c :: (more ++ rest)) (.name (String.ofList (c :: more)) :: ts) := by
  have htake : (more ++ rest).takeWhile isNameChar = more :=
    Numeral.takeWhile_append_of_head hm fun d hd => (hr d hd).1
  have ht : nextToken c (more ++ rest) = .ok (.name (String.ofList (c :: more)), more.length) := by
    rw [nextToken, startsNumber_of_isNameStart hc, if_neg Bool.false_ne_true, if_pos hc, htake]
  exact .token hl ht (by rw [List.drop_left]; exact h)

/-- A scanned numeral with a digit starts a number: with its first digit, or with the point in front
of that. -/
theorem startsNumber_append {slice : List Char} {n : Numeral} (hs : Numeral.Scanned slice n)
    (hd : n.HasDigit) (rest : List Char) : startsNumber (slice ++ rest) = true := by
  cases hs with
  | @intro whole fraction part exponent hw hf he =>
    cases whole with
    | cons c whole =>
      have hc : c.isDigit = true := hw c List.mem_cons_self
      simp [startsNumber, hc]
    | nil =>
      cases fraction with
      | cons c fraction =>
        have hc : c.isDigit = true := hf c List.mem_cons_self
        simp [startsNumber, Numeral.fractionChars, Numeral.fractionDigits, hc]
      | nil => exact absurd rfl (hd.resolve_left fun h => h rfl)

theorem Lexes.scanned {slice : List Char} {n : Numeral} (hs : Numeral.Scanned slice n)
    (hd : n.HasDigit) (hf : n.toBinary32.isFinite = true) {rest : List Char} {ts : List Token}
    (hr : Separates rest) (h : Lexes rest ts) :
    Lexes (slice ++ rest) (.number n.toBinary32 :: ts) := by
  have hlead := hs.leading_append hr.stops
  have hstart := startsNumber_append hs hd rest
  have hlength := hs.length_eq
  obtain ⟨c, more, rfl, hc⟩ := hs.exists_cons hd
  have hlayout : isLayout c = false := by
    refine Bool.eq_false_iff.mpr fun hl => ?_
    rcases eq_of_isLayout hl with rfl | rfl | rfl | rfl | rfl <;> exact absurd hc (by decide)
  rw [List.cons_append] at hlead hstart ⊢
  have ht : nextToken c (more ++ rest) = .ok (.number n.toBinary32, more.length) := by
    rw [nextToken, if_pos hstart, hlead]
    dsimp only
    rw [if_pos hf, ← hlength]
    rfl
  exact .token hlayout ht (by rw [List.drop_left]; exact h)

/-- A text lexes to tokens in front of every text that separates from it. -/
def Spells (text : List Char) (ts : List Token) : Prop :=
  ∀ ⦃rest : List Char⦄ ⦃us : List Token⦄, Separates rest → Lexes rest us →
    Lexes (text ++ rest) (ts ++ us)

theorem spells_letter {c : Char} (hl : isLayout c = false) (hc : isNameStart c = true) :
    Spells [c] [.name (String.ofList [c])] :=
  fun _ _ hr h => Lexes.name hl hc (fun _ hd => nomatch hd) hr h

theorem spells_numeral {n : Numeral} (hn : n.IsWritten) (hneg : n.negative = false)
    (hf : n.toBinary32.isFinite = true) : Spells n.toChars [.number n.toBinary32] :=
  fun _ _ hr h => Lexes.scanned (hn.scanned hneg) (Or.inl hn.whole_ne_nil) hf hr h

theorem isLayout_of_isNameStart {c : Char} (hc : isNameStart c = true) : isLayout c = false := by
  refine Bool.eq_false_iff.mpr fun hl => ?_
  rcases eq_of_isLayout hl with rfl | rfl | rfl | rfl | rfl <;> cases hc

/-- What a token is read from is a spelling of it: it is read to the same token wherever it stands.
-/
theorem Token.ReadFrom.spells {slice : List Char} {token : Token} (h : token.ReadFrom slice) :
    Spells slice [token] := by
  intro rest us hr hl
  cases h with
  | name hc hm => exact Lexes.name (isLayout_of_isNameStart hc) hc hm hr hl
  | number hs hd hf => exact Lexes.scanned hs hd hf hr hl
  | punctuation hp => exact Lexes.punctuation hp hl

theorem Spells.negative {text : List Char} {ts : List Token} (h : Spells text ts) :
    Spells ('-' :: text) (.minus :: ts) :=
  fun _ _ hr hl => Lexes.punctuation rfl (h hr hl)

theorem Spells.lexes {text : List Char} {ts : List Token} (h : Spells text ts) : Lexes text ts := by
  have hl := h separates_nil Lexes.nil
  rwa [List.append_nil, List.append_nil] at hl

/-! ## The characters of tokens -/

/-- The characters of tokens. -/
def isTokenChar (c : Char) : Bool :=
  Numeral.isNumeralChar c || isNameChar c || (punctuation? c).isSome

theorem isNameChar_of_isNameStart {c : Char} (h : isNameStart c = true) : isNameChar c = true := by
  rcases Bool.or_eq_true_iff.mp h with ha | hu
  · simp [isNameChar, Char.isAlphanum, ha]
  · simp [isNameChar, hu]

theorem toNat_of_isNameChar {c : Char} (h : isNameChar c = true) :
    40 ≤ c.toNat ∧ c.toNat ≤ 122 ∧ c.toNat ≠ 61 := by
  rcases Bool.or_eq_true_iff.mp h with halphanum | hunderscore
  · rcases Bool.or_eq_true_iff.mp halphanum with halpha | hdigit
    · rcases Bool.or_eq_true_iff.mp halpha with hupper | hlower
      · obtain ⟨hA, hZ⟩ := of_decide_eq_true hupper
        have hlow : 65 ≤ c.toNat := UInt32.le_iff_toNat_le.mp hA
        have hhigh : c.toNat ≤ 90 := UInt32.le_iff_toNat_le.mp hZ
        omega
      · obtain ⟨ha, hz⟩ := Bool.and_eq_true_iff.mp hlower
        have hlow : 97 ≤ c.toNat := UInt32.le_iff_toNat_le.mp (of_decide_eq_true ha)
        have hhigh : c.toNat ≤ 122 := UInt32.le_iff_toNat_le.mp (of_decide_eq_true hz)
        omega
    · have hrange : 48 ≤ c.toNat ∧ c.toNat ≤ 57 := Char.isDigit_iff_toNat.mp hdigit
      omega
  · rw [beq_iff_eq.mp hunderscore]
    decide

/-- The characters of tokens are those from the opening parenthesis to the last small letter, and
the equality sign is not one of them. -/
theorem toNat_of_isTokenChar {c : Char} (h : isTokenChar c = true) :
    40 ≤ c.toNat ∧ c.toNat ≤ 122 ∧ c.toNat ≠ 61 := by
  simp only [isTokenChar, Bool.or_eq_true] at h
  rcases h with (hnumeral | hname) | hpunctuation
  · simp only [Numeral.isNumeralChar, Bool.or_eq_true, beq_iff_eq, or_assoc] at hnumeral
    rcases hnumeral with hdigit | rfl | rfl | rfl | rfl | rfl
    · exact toNat_of_isNameChar (isNameChar_of_isDigit hdigit)
    all_goals decide
  · exact toNat_of_isNameChar hname
  · unfold punctuation? at hpunctuation
    split at hpunctuation
    case h_7 => cases hpunctuation
    all_goals decide

/-- The characters of tokens are neither blank nor the sign that may stand in front of a formula. -/
theorem isBlank_of_isTokenChar {c : Char} (h : isTokenChar c = true) :
    Text.isBlank c = false ∧ c ≠ '=' := by
  obtain ⟨hfirst, hlast, hequals⟩ := toNat_of_isTokenChar h
  constructor
  · -- No range of blanks reaches the characters of tokens.
    simp only [Text.isBlank, Text.blankRanges, List.any_cons, List.any_nil, Bool.or_false,
      Bool.or_eq_false_iff, Bool.and_eq_false_iff, decide_eq_false_iff_not]
    omega
  · rintro rfl
    exact hequals rfl

theorem Token.ReadFrom.isTokenChar {slice : List Char} {token : Token} (h : token.ReadFrom slice)
    {c : Char} (hc : c ∈ slice) : isTokenChar c = true := by
  simp only [Formula.isTokenChar, Bool.or_eq_true]
  cases h with
  | name hstart hm =>
    refine Or.inl (Or.inr ?_)
    rcases List.mem_cons.mp hc with rfl | hc
    · exact isNameChar_of_isNameStart hstart
    · exact hm c hc
  | number hs => exact Or.inl (Or.inl (hs.isNumeralChar hc))
  | punctuation hp =>
    rw [List.mem_singleton.mp hc, hp]
    exact Or.inr rfl

theorem Lexes.isTokenChar_of_mem {text : List Char} {ts : List Token} (h : Lexes text ts) {c : Char}
    (hc : c ∈ text) : isLayout c = true ∨ isTokenChar c = true := by
  -- A token takes its first character and as many as it is wide; the rest is lexed in turn.
  induction h with
  | nil => cases hc
  | layout hl more ih =>
    rcases List.mem_cons.mp hc with rfl | hc
    · exact Or.inl hl
    · exact ih hc
  | @token c' rest token width ts hl ht more ih =>
    rw [← List.take_append_drop width rest, ← List.cons_append] at hc
    rcases List.mem_append.mp hc with hc | hc
    · obtain ⟨front, back, rfl, rfl, hread⟩ := exists_of_nextToken ht
      rw [List.take_left] at hc
      exact Or.inr (hread.isTokenChar hc)
    · exact ih hc

end Formula

end TimeSignal
