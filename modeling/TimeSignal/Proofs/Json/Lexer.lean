import TimeSignal.Json.Lex
import TimeSignal.Proofs.Decimal.Scan

/-!
# The tokens of written values

The text of a token is read back as the token, whatever text follows it; only a number needs a
following text that does not go on with it.  In the text of a value, a number is followed by a comma
or by the end of what holds it, so the tokens of the text are those of the value.

## Main definitions

* `Json.Token.IsWritten`: a token is not a number, or its digits can be read back
* `Json.Rereads`: tokens are read back from their text in front of every text that stops after them

## Main results

* `Json.tokensOf_toChars`: the text of a token is read back as the token
* `Json.tokensOf_renderChars`: the text of a value is read back as the tokens of the value
-/

namespace TimeSignal

namespace Json

theorem tokensOf_cons {c : Char} {rest : List Char} {token : Token} {more : Nat}
    (hc : isSpace c = false) (ht : nextToken c rest = some (token, more)) :
    tokensOf (c :: rest) = (tokensOf (rest.drop more)).map (token :: ·) := by
  rw [tokensOf, hc, if_neg Bool.false_ne_true, ht]

/-! ## Quoted texts -/

/-- The part of a quoted text stands for the character. -/
inductive TextUnit.Denotes : TextUnit → Char → Prop where
  | char (c : Char) : Denotes (.char c) c
  | code {c : Char} (hc : c.toNat < 32) : Denotes (.code c.toNat) c

theorem hexUnit_controlEscape : ∀ n < 32,
    hexUnit? '0' '0' (Nat.digitChar (n / 16)) (Nat.digitChar (n % 16)) = some n := by
  decide

theorem quotedUnits_letter {letter c : Char} {rest : List Char} {units : List TextUnit}
    {count : Nat} (hc : unescape? letter = some c) (h : quotedUnits rest = some (units, count)) :
    quotedUnits ('\\' :: letter :: rest) = some (.char c :: units, count + 2) := by
  have hu : letter ≠ 'u' := by
    rintro rfl
    cases hc
  rw [quotedUnits]
  · simp [hc, h]
  · intro _ _ _ _ _ hl _
    exact hu hl

/-- The written form of a character is read back as one part, which stands for the character. -/
theorem quotedUnits_escape (c : Char) :
    ∃ unit : TextUnit, unit.Denotes c ∧ ∀ rest units count,
      quotedUnits rest = some (units, count) →
        quotedUnits (escape c ++ rest) = some (unit :: units, count + (escape c).length) := by
  unfold escape
  split
  · exact ⟨.char _, .char _, fun _ _ _ h => quotedUnits_letter rfl h⟩
  · exact ⟨.char _, .char _, fun _ _ _ h => quotedUnits_letter rfl h⟩
  · exact ⟨.char _, .char _, fun _ _ _ h => quotedUnits_letter rfl h⟩
  · exact ⟨.char _, .char _, fun _ _ _ h => quotedUnits_letter rfl h⟩
  · exact ⟨.char _, .char _, fun _ _ _ h => quotedUnits_letter rfl h⟩
  · exact ⟨.char _, .char _, fun _ _ _ h => quotedUnits_letter rfl h⟩
  · exact ⟨.char _, .char _, fun _ _ _ h => quotedUnits_letter rfl h⟩
  · split
    · next hcontrol =>
      have hc : c.toNat < 32 := hcontrol
      refine ⟨.code c.toNat, .code hc, fun rest units count h => ?_⟩
      simp [controlEscape, quotedUnits, hexUnit_controlEscape _ hc, h]
    · next hquote hbackslash _ _ _ _ _ hcontrol =>
      refine ⟨.char c, .char c, fun rest units count h => ?_⟩
      rw [List.singleton_append, quotedUnits]
      · simp [hcontrol, h]
      · exact hquote
      · intro _ _ _ _ _ hc _
        exact hbackslash hc
      · intro _ _ hc _
        exact hbackslash hc

theorem decodeText_cons {unit : TextUnit} {c : Char} (h : unit.Denotes c)
    (units : List TextUnit) : decodeText (unit :: units) = (decodeText units).map (c :: ·) := by
  cases h with
  | char => rw [decodeText]
  | code hc =>
    have hhigh : isHighHalf c.toNat = false := by
      simp only [isHighHalf, Bool.and_eq_false_iff, decide_eq_false_iff_not]
      omega
    have hlow : isLowHalf c.toNat = false := by
      simp only [isLowHalf, Bool.and_eq_false_iff, decide_eq_false_iff_not]
      omega
    -- A control character is no half of a pair, so what follows it does not matter.
    rcases units with _ | ⟨_ | low, rest⟩
    · simp [decodeText, hhigh, hlow, Char.ofNat_toNat]
    · simp [decodeText, hhigh, hlow, Char.ofNat_toNat]
    · rw [decodeText, hhigh, hlow, Char.ofNat_toNat]
      rfl

/-- The inside of a quoted text is read back up to its closing quote. -/
theorem exists_quotedUnits (content rest : List Char) :
    ∃ units, quotedUnits (content.flatMap escape ++ '"' :: rest) =
      some (units, (content.flatMap escape).length + 1) ∧ decodeText units = some content := by
  induction content with
  | nil => exact ⟨[], rfl, rfl⟩
  | cons c content ih =>
    obtain ⟨units, hq, hd⟩ := ih
    obtain ⟨unit, hunit, hescape⟩ := quotedUnits_escape c
    refine ⟨unit :: units, ?_, by rw [decodeText_cons hunit, hd]; rfl⟩
    rw [List.flatMap_cons, List.append_assoc, hescape _ _ _ hq, List.length_append]
    congr 2
    omega

/-- A quoted text is one token. -/
theorem tokensOf_quote (content : Option String) (rest : List Char) :
    tokensOf (quote content ++ rest) = (tokensOf rest).map (.text content :: ·) := by
  cases content with
  | none =>
    have ht : nextToken '"' ('\\' :: 'u' :: 'd' :: '8' :: '0' :: '0' :: '"' :: rest) =
        some (.text none, 7) := rfl
    exact tokensOf_cons rfl ht
  | some content =>
    obtain ⟨units, hq, hd⟩ := exists_quotedUnits content.toList rest
    have ht : nextToken '"' (content.toList.flatMap escape ++ '"' :: rest) =
        some (.text (some content), (content.toList.flatMap escape).length + 1) := by
      simp [nextToken, hq, hd]
    have htext : quote (some content) ++ rest =
        '"' :: (content.toList.flatMap escape ++ '"' :: rest) := by
      simp [quote]
    rw [htext, tokensOf_cons rfl ht, ← List.drop_drop, List.drop_left]
    rfl

/-! ## Numbers -/

/-- A token that is not a number, or a written numeral without a needless zero in front. -/
def Token.IsWritten : Token → Prop
  | .number n => n.IsWritten ∧ ∀ d more, n.whole ≠ '0' :: d :: more
  | _ => True

/-- A numeral is read back from behind its sign. -/
theorem leadingNumber_of_leading {text : List Char} {n : Numeral} (hn : n.IsWritten)
    (hz : ∀ d more, n.whole ≠ '0' :: d :: more) (hsign : (text.head? == some '-') = n.negative)
    (hlead : Numeral.leading (if n.negative then text.drop 1 else text) =
      .ok { n with negative := false }) :
    leadingNumber? text = some n := by
  unfold leadingNumber?
  dsimp only
  rw [hsign, hlead]
  dsimp only
  split
  · next hwhole => exact absurd hwhole hn.whole_ne_nil
  · next hwhole => exact absurd hwhole (hz _ _)
  · rfl

theorem toChars_eq_sign_append (n : Numeral) :
    n.toChars = (if n.negative then ['-'] else []) ++ { n with negative := false }.toChars :=
  Numeral.toChars_signed (n := { n with negative := false }) rfl n.negative

/-- A written numeral starts with a digit behind its sign. -/
theorem exists_toChars_unsigned_eq {n : Numeral} (hn : n.IsWritten) :
    ∃ d more, d.isDigit = true ∧ { n with negative := false }.toChars = d :: more :=
  Numeral.IsWritten.exists_toChars_eq (n := { n with negative := false }) ⟨hn.1, hn.2, hn.3, hn.4⟩
    rfl

theorem leadingNumber_append {n : Numeral} (hn : n.IsWritten)
    (hz : ∀ d more, n.whole ≠ '0' :: d :: more) {rest : List Char} (hr : Numeral.Stops rest) :
    leadingNumber? (n.toChars ++ rest) = some n := by
  have hlead := Numeral.leading_append (n := { n with negative := false })
    ⟨hn.1, hn.2, hn.3, hn.4⟩ rfl hr
  obtain ⟨d, more, hd, hchars⟩ := exists_toChars_unsigned_eq hn
  rw [toChars_eq_sign_append]
  apply leadingNumber_of_leading hn hz
  · rw [hchars]
    cases n.negative with
    | true => rfl
    | false =>
      have hne : d ≠ '-' := by
        rintro rfl
        cases hd
      simp [hne]
  · cases n.negative with
    | true => exact hlead
    | false => exact hlead

theorem nextToken_of_leadingNumber {c : Char} {rest : List Char} {n : Numeral}
    (hc : c.isDigit = true ∨ c = '-') (h : leadingNumber? (c :: rest) = some n) :
    nextToken c rest = some (.number n, n.toChars.length - 1) := by
  unfold nextToken
  split
  all_goals try (rcases hc with hc | hc <;> cases hc)
  rw [h]
  rfl

theorem isSpace_eq_false {c : Char} (hc : c.isDigit = true ∨ c = '-') : isSpace c = false := by
  rcases hc with hd | rfl
  · cases hs : isSpace c with
    | false => rfl
    | true =>
      simp only [isSpace, Bool.or_eq_true, beq_iff_eq, or_assoc] at hs
      rcases hs with rfl | rfl | rfl | rfl <;> cases hd
  · rfl

/-- A number is one token in front of a text that does not go on with it. -/
theorem tokensOf_number {n : Numeral} (hn : n.IsWritten)
    (hz : ∀ d more, n.whole ≠ '0' :: d :: more) {rest : List Char} (hr : Numeral.Stops rest) :
    tokensOf (n.toChars ++ rest) = (tokensOf rest).map (.number n :: ·) := by
  have hlead := leadingNumber_append hn hz hr
  obtain ⟨c, more, hc, hchars⟩ :
      ∃ c more, (c.isDigit = true ∨ c = '-') ∧ n.toChars = c :: more := by
    obtain ⟨d, more, hd, hchars⟩ := exists_toChars_unsigned_eq hn
    rw [toChars_eq_sign_append, hchars]
    cases n.negative with
    | true => exact ⟨'-', _, Or.inr rfl, rfl⟩
    | false => exact ⟨d, more, Or.inl hd, rfl⟩
  rw [hchars, List.cons_append] at hlead ⊢
  have ht := nextToken_of_leadingNumber hc hlead
  rw [hchars] at ht
  rw [tokensOf_cons (isSpace_eq_false hc) ht]
  change (tokensOf ((more ++ rest).drop more.length)).map _ = _
  rw [List.drop_left]

/-! ## Tokens in front of a text -/

/-- A token whose characters are always the same. -/
theorem tokensOf_fixed {token : Token} {c : Char} {front : List Char}
    (hchars : token.toChars = c :: front) (hc : isSpace c = false)
    (ht : ∀ rest, nextToken c (front ++ rest) = some (token, front.length)) (rest : List Char) :
    tokensOf (token.toChars ++ rest) = (tokensOf rest).map (token :: ·) := by
  rw [hchars, List.cons_append, tokensOf_cons hc (ht rest), List.drop_left]

/-- **The text of a token is read back as the token**, from in front of every text, unless it is a
number that goes on. -/
theorem tokensOf_toChars {token : Token} (ht : token.IsWritten) {rest : List Char}
    (hr : ∀ n, token = .number n → Numeral.Stops rest) :
    tokensOf (token.toChars ++ rest) = (tokensOf rest).map (token :: ·) := by
  cases token with
  | leftBrace | rightBrace | leftBracket | rightBracket | colon | comma =>
    exact tokensOf_fixed rfl rfl (fun _ => rfl) rest
  | null => exact tokensOf_fixed rfl rfl (fun _ => rfl) rest
  | bool value => cases value <;> exact tokensOf_fixed rfl rfl (fun _ => rfl) rest
  | number n => exact tokensOf_number ht.1 ht.2 (hr n rfl)
  | text content => exact tokensOf_quote content rest

/-- The tokens are read back from their text in front of every text that does not go on with a
number. -/
def Rereads (tokens : List Token) : Prop :=
  ∀ ⦃rest : List Char⦄ ⦃more : List Token⦄, Numeral.Stops rest → tokensOf rest = some more →
    tokensOf (tokens.flatMap Token.toChars ++ rest) = some (tokens ++ more)

theorem rereads_nil : Rereads [] := fun _ _ _ h => h

theorem rereads_singleton (token : Token) (ht : token.IsWritten) : Rereads [token] := by
  intro rest more hr h
  rw [List.flatMap_singleton, tokensOf_toChars ht fun _ _ => hr, h]
  rfl

theorem Rereads.cons {tokens : List Token} (h : Rereads tokens) (token : Token)
    (ht : token.IsWritten) (hn : ∀ n, token ≠ .number n) : Rereads (token :: tokens) := by
  intro rest more hr hmore
  rw [List.flatMap_cons, List.append_assoc, tokensOf_toChars ht fun n he => absurd he (hn n),
    h hr hmore]
  rfl

/-- The token is a single character that does not go on with a number. -/
def Token.IsSeparator (token : Token) : Prop :=
  ∃ c, token.toChars = [c] ∧ c.isDigit = false ∧ c ≠ '.' ∧ c ≠ 'e' ∧ c ≠ 'E'

theorem Rereads.append_cons {tokens tokens' : List Token} {token : Token} (h : Rereads tokens)
    (h' : Rereads (token :: tokens')) (hs : token.IsSeparator) :
    Rereads (tokens ++ token :: tokens') := by
  intro rest more hr hmore
  obtain ⟨c, hc, hstop⟩ := hs
  have hnext : Numeral.Stops ((token :: tokens').flatMap Token.toChars ++ rest) := by
    rw [List.flatMap_cons, hc]
    rintro d ⟨⟩
    exact hstop
  rw [List.flatMap_append, List.append_assoc, h hnext (h' hr hmore), List.append_assoc]

/-! ## The tokens of a value -/

/-- All tokens of the value can be read back. -/
def Value.IsWritten (v : Value) : Prop := ∀ token ∈ v.tokens, token.IsWritten

theorem isWritten_text (content : Option String) : (Value.text content).IsWritten := by
  intro token ht
  obtain rfl := List.mem_singleton.mp ht
  trivial

theorem isWritten_array {items : List Value} (h : ∀ item ∈ items, item.IsWritten) :
    (Value.array items).IsWritten := by
  have hitems : ∀ token ∈ Value.itemTokens items, token.IsWritten := by
    induction items with
    | nil => exact fun _ ht => nomatch ht
    | cons item rest ih =>
      obtain ⟨hitem, hrest⟩ := List.forall_mem_cons.mp h
      cases rest with
      | nil => exact hitem
      | cons next rest =>
        exact List.forall_mem_append.mpr ⟨hitem, List.forall_mem_cons.mpr ⟨trivial, ih hrest⟩⟩
  exact List.forall_mem_append.mpr
    ⟨List.forall_mem_cons.mpr ⟨trivial, hitems⟩, List.forall_mem_singleton.mpr trivial⟩

theorem isWritten_object {members : List (Option String × Value)}
    (h : ∀ member ∈ members, member.2.IsWritten) : (Value.object members).IsWritten := by
  have hmembers : ∀ token ∈ Value.memberTokens members, token.IsWritten := by
    induction members with
    | nil => exact fun _ ht => nomatch ht
    | cons member rest ih =>
      obtain ⟨hvalue, hrest⟩ := List.forall_mem_cons.mp h
      have hpair : ∀ token ∈ .text member.1 :: .colon :: member.2.tokens, token.IsWritten :=
        List.forall_mem_cons.mpr ⟨trivial, List.forall_mem_cons.mpr ⟨trivial, hvalue⟩⟩
      cases rest with
      | nil => exact hpair
      | cons next rest =>
        exact List.forall_mem_append.mpr ⟨hpair, List.forall_mem_cons.mpr ⟨trivial, ih hrest⟩⟩
  exact List.forall_mem_append.mpr
    ⟨List.forall_mem_cons.mpr ⟨trivial, hmembers⟩, List.forall_mem_singleton.mpr trivial⟩

theorem isWritten_append_cons {token : Token} {tokens tokens' : List Token}
    (h : ∀ t ∈ tokens ++ token :: tokens', t.IsWritten) :
    (∀ t ∈ tokens, t.IsWritten) ∧ ∀ t ∈ tokens', t.IsWritten := by
  obtain ⟨hfront, hback⟩ := List.forall_mem_append.mp h
  exact ⟨hfront, (List.forall_mem_cons.mp hback).2⟩

mutual

theorem rereads_tokens : ∀ v : Value, (∀ token ∈ v.tokens, token.IsWritten) → Rereads v.tokens
  | .null, h => rereads_singleton _ (h _ (List.mem_singleton.mpr rfl))
  | .bool _, h => rereads_singleton _ (h _ (List.mem_singleton.mpr rfl))
  | .number _, h => rereads_singleton _ (h _ (List.mem_singleton.mpr rfl))
  | .text _, h => rereads_singleton _ (h _ (List.mem_singleton.mpr rfl))
  | .array items, h => by
    rw [Value.tokens] at h ⊢
    have hitems := (isWritten_append_cons fun t ht => h t (List.mem_cons_of_mem _ ht)).1
    have hend := rereads_singleton .rightBracket trivial
    exact ((rereads_itemTokens items hitems).append_cons hend ⟨']', rfl, by decide⟩).cons
      .leftBracket trivial nofun
  | .object members, h => by
    rw [Value.tokens] at h ⊢
    have hmembers := (isWritten_append_cons fun t ht => h t (List.mem_cons_of_mem _ ht)).1
    have hend := rereads_singleton .rightBrace trivial
    exact ((rereads_memberTokens members hmembers).append_cons hend ⟨'\x7d', rfl, by decide⟩).cons
      .leftBrace trivial nofun

theorem rereads_itemTokens : ∀ items : List Value,
    (∀ token ∈ Value.itemTokens items, token.IsWritten) → Rereads (Value.itemTokens items)
  | [], _ => rereads_nil
  | [item], h => rereads_tokens item h
  | item :: next :: rest, h => by
    rw [Value.itemTokens] at h ⊢
    obtain ⟨hitem, hrest⟩ := isWritten_append_cons h
    have hcomma := (rereads_itemTokens (next :: rest) hrest).cons .comma trivial nofun
    exact (rereads_tokens item hitem).append_cons hcomma ⟨',', rfl, by decide⟩

theorem rereads_memberTokens : ∀ members : List (Option String × Value),
    (∀ token ∈ Value.memberTokens members, token.IsWritten) → Rereads (Value.memberTokens members)
  | [], _ => rereads_nil
  | [(key, value)], h => by
    rw [Value.memberTokens] at h ⊢
    have hvalue := fun t ht => h t (List.mem_cons_of_mem _ (List.mem_cons_of_mem _ ht))
    exact ((rereads_tokens value hvalue).cons .colon trivial nofun).cons (.text key) trivial nofun
  | (key, value) :: next :: rest, h => by
    rw [Value.memberTokens] at h ⊢
    obtain ⟨hvalue, hrest⟩ := isWritten_append_cons
      fun t ht => h t (List.mem_cons_of_mem _ (List.mem_cons_of_mem _ ht))
    have hcomma := (rereads_memberTokens (next :: rest) hrest).cons .comma trivial nofun
    have hpair := (rereads_tokens value hvalue).append_cons hcomma ⟨',', rfl, by decide⟩
    exact (hpair.cons .colon trivial nofun).cons (.text key) trivial nofun

end

/-- **The text of a value is read back as the tokens of the value.** -/
theorem tokensOf_renderChars {v : Value} (h : v.IsWritten) :
    tokensOf v.renderChars = some v.tokens := by
  have hstops : Numeral.Stops [] := fun _ h => nomatch h
  have hrest : tokensOf [] = some [] := by rw [tokensOf]
  have hread := rereads_tokens v h hstops hrest
  rwa [List.append_nil, List.append_nil] at hread

end Json

end TimeSignal
