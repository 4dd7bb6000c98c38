import TimeSignal.Decimal.Scan
import TimeSignal.Proofs.Decimal.Layout

/-!
# Scanning written numerals

A numeral without sign is scanned part by part, and each part ends where a character follows that
cannot continue it.  A written numeral is therefore read back from the front of any text that does
not go on with a number, and whatever is scanned consists of the characters of numerals.

## Main definitions

* `Numeral.Stops`: a text does not go on with a numeral
* `Numeral.isNumeralChar`: the characters of numerals
* `Numeral.Scanned`: the characters of a numeral as it is scanned
* `Numeral.HasDigit`: a numeral has a digit before or after its point

## Main results

* `Numeral.leading_append`: a written numeral is scanned from a text that stops after it
* `Numeral.exists_of_leading`: what is scanned stands at the start of the text
* `Numeral.Scanned.isNumeralChar`: a scanned numeral takes characters of numerals only
-/

namespace TimeSignal

namespace Numeral

/-- The point and the fraction digits of a numeral. -/
def fractionChars (digits : List Char) : List Char :=
  if digits.isEmpty then [] else '.' :: digits

/-- The exponent part of a numeral. -/
def exponentChars : Option (ExponentSign × List Char) → List Char
  | none => []
  | some (sign, digits) => 'e' :: sign.toChars ++ digits

theorem toChars_eq {n : Numeral} (h : n.negative = false) :
    n.toChars = n.whole ++ (fractionChars n.fraction ++ exponentChars n.exponent) := by
  unfold toChars
  rw [h, ← List.append_assoc]
  rfl

theorem toChars_mantissa (whole fraction : List Char) :
    toChars ⟨false, whole, fraction, none⟩ = whole ++ fractionChars fraction := by
  rw [toChars_eq rfl]
  exact congrArg _ (List.append_nil _)

theorem IsWritten.exists_toChars_eq {n : Numeral} (hn : n.IsWritten) (h : n.negative = false) :
    ∃ d more, d.isDigit = true ∧ n.toChars = d :: more := by
  obtain ⟨d, whole, hw⟩ := List.exists_cons_of_ne_nil hn.whole_ne_nil
  have hd : d.isDigit = true := hn.whole d (by rw [hw]; exact List.mem_cons_self)
  have hchars := toChars_eq h
  rw [hw, List.cons_append] at hchars
  exact ⟨d, _, hd, hchars⟩

/-- The sign of a numeral stands in front of all else. -/
theorem toChars_signed {n : Numeral} (h : n.negative = false) (negative : Bool) :
    { n with negative }.toChars = (if negative then ['-'] else []) ++ n.toChars := by
  rw [toChars_eq h]
  unfold toChars
  simp only [List.append_assoc]
  rfl

/-! ## Scanned numerals -/

/-- The characters of an exponent part as it is scanned, with its letter in either case. -/
inductive ScannedExponent : List Char → Option (ExponentSign × List Char) → Prop where
  | absent : ScannedExponent [] none
  | present {letter : Char} {digits : List Char} (hl : letter = 'e' ∨ letter = 'E')
      (sign : ExponentSign) (hne : digits ≠ []) (hd : ∀ c ∈ digits, c.isDigit = true) :
      ScannedExponent (letter :: (sign.toChars ++ digits)) (some (sign, digits))

/-- The characters of a numeral without sign as it is scanned. -/
inductive Scanned : List Char → Numeral → Prop where
  | intro {whole fraction part : List Char} {exponent : Option (ExponentSign × List Char)}
      (hw : ∀ c ∈ whole, c.isDigit = true) (hf : ∀ c ∈ fraction, c.isDigit = true)
      (he : ScannedExponent part exponent) :
      Scanned (whole ++ (fractionChars fraction ++ part)) ⟨false, whole, fraction, exponent⟩

/-- A digit stands before or after the point. -/
def HasDigit (n : Numeral) : Prop := n.whole ≠ [] ∨ n.fraction ≠ []

/-- A written numeral is scanned as it stands. -/
theorem IsWritten.scanned {n : Numeral} (hn : n.IsWritten) (h : n.negative = false) :
    Scanned n.toChars n := by
  obtain ⟨negative, whole, fraction, exponent⟩ := n
  cases h
  rw [toChars_eq rfl]
  refine .intro hn.whole hn.fraction ?_
  cases exponent with
  | none => exact .absent
  | some part =>
    obtain ⟨hne, hd⟩ := hn.exponent part.1 part.2 rfl
    exact .present (Or.inl rfl) part.1 hne hd

theorem Scanned.length_eq {slice : List Char} {n : Numeral} (h : Scanned slice n) :
    slice.length = n.toChars.length := by
  cases h with
  | intro hw hf he =>
    rw [toChars_eq rfl, List.length_append, List.length_append, List.length_append,
      List.length_append]
    cases he with
    | absent => rfl
    | present => rfl

/-- A scanned numeral with a digit starts with a digit or a point. -/
theorem Scanned.exists_cons {slice : List Char} {n : Numeral} (h : Scanned slice n)
    (hd : n.HasDigit) : ∃ c more, slice = c :: more ∧ (c.isDigit = true ∨ c = '.') := by
  cases h with
  | @intro whole fraction part exponent hw hf he =>
    cases whole with
    | cons c whole => exact ⟨c, _, rfl, Or.inl (hw c List.mem_cons_self)⟩
    | nil =>
      cases fraction with
      | cons c fraction => exact ⟨'.', _, rfl, Or.inr rfl⟩
      | nil => exact absurd rfl (hd.resolve_left fun h => h rfl)

/-! ## Numerals in front of a text -/

/-- The text does not go on with a number. -/
def Stops (rest : List Char) : Prop :=
  ∀ c ∈ rest.head?, c.isDigit = false ∧ c ≠ '.' ∧ c ≠ 'e' ∧ c ≠ 'E'

/-- Characters of a kind are taken up to the first one that is not of the kind. -/
theorem takeWhile_append_of_head {kind : Char → Bool} {front rest : List Char}
    (h : ∀ c ∈ front, kind c = true) (hr : ∀ c ∈ rest.head?, kind c = false) :
    (front ++ rest).takeWhile kind = front := by
  rw [List.takeWhile_append_of_pos h]
  cases rest with
  | nil => exact List.append_nil _
  | cons c rest =>
    rw [List.takeWhile_cons, hr c rfl, if_neg Bool.false_ne_true, List.append_nil]

theorem fractionDigits_append {digits rest : List Char} (h : ∀ c ∈ digits, c.isDigit = true)
    (hr : ∀ c ∈ rest.head?, c.isDigit = false ∧ c ≠ '.') :
    fractionDigits (fractionChars digits ++ rest) = digits := by
  cases digits with
  | nil =>
    cases rest with
    | nil => rfl
    | cons c rest =>
      have hc : c ≠ '.' := (hr c rfl).2
      change fractionDigits (c :: rest) = []
      unfold fractionDigits
      split
      · next heq => exact absurd (List.cons.inj heq).1 hc
      · rfl
  | cons d digits => exact takeWhile_append_of_head h fun c hc => (hr c hc).1

theorem leadingSign_append (sign : ExponentSign) {d : Char} (hd : d.isDigit = true)
    (rest : List Char) : leadingSign (sign.toChars ++ d :: rest) = sign := by
  cases sign with
  | plus | minus => rfl
  | unsigned =>
    change leadingSign (d :: rest) = .unsigned
    unfold leadingSign
    split
    · next heq =>
      rw [(List.cons.inj heq).1] at hd
      cases hd
    · next heq =>
      rw [(List.cons.inj heq).1] at hd
      cases hd
    · rfl

theorem ScannedExponent.exponentPart_append {part rest : List Char}
    {exponent : Option (ExponentSign × List Char)} (h : ScannedExponent part exponent)
    (hr : Stops rest) : exponentPart (part ++ rest) = .ok exponent := by
  cases h with
  | absent =>
    cases rest with
    | nil => rfl
    | cons c rest =>
      obtain ⟨-, -, he, hE⟩ := hr c rfl
      change exponentPart (c :: rest) = .ok none
      unfold exponentPart
      dsimp only
      rw [if_neg (not_or.mpr ⟨he, hE⟩)]
  | @present letter digits hl sign hne hd =>
    obtain ⟨d, digits, rfl⟩ := List.exists_cons_of_ne_nil hne
    have hsign := leadingSign_append sign (hd d List.mem_cons_self) (digits ++ rest)
    -- The sign is found in front of the first digit, and the digits end where the text stops.
    rw [List.cons_append, List.append_assoc, List.cons_append]
    unfold exponentPart
    dsimp only
    rw [if_pos hl, hsign, List.drop_left, ← List.cons_append,
      takeWhile_append_of_head hd fun c hc => (hr c hc).1]
    rfl

theorem ScannedExponent.head_append {part rest : List Char}
    {exponent : Option (ExponentSign × List Char)} (h : ScannedExponent part exponent)
    (hr : Stops rest) : ∀ c ∈ (part ++ rest).head?, c.isDigit = false ∧ c ≠ '.' := by
  cases h with
  | absent =>
    intro c hc
    exact ⟨(hr c hc).1, (hr c hc).2.1⟩
  | present hl sign =>
    rintro c ⟨⟩
    rcases hl with rfl | rfl <;> exact ⟨rfl, by decide⟩

theorem head_fractionChars (digits : List Char) {rest : List Char}
    (hr : ∀ c ∈ rest.head?, c.isDigit = false ∧ c ≠ '.') :
    ∀ c ∈ (fractionChars digits ++ rest).head?, c.isDigit = false := by
  cases digits with
  | nil => exact fun c hc => (hr c hc).1
  | cons d digits =>
    rintro c ⟨⟩
    rfl

theorem Scanned.leading_append {slice rest : List Char} {n : Numeral} (h : Scanned slice n)
    (hr : Stops rest) : leading (slice ++ rest) = .ok n := by
  cases h with
  | @intro whole fraction part exponent hw hf he =>
    have hexp := he.head_append hr
    have hfrac := head_fractionChars fraction hexp
    -- Each part is scanned up to the next one, which does not start with what continues it.
    rw [List.append_assoc, List.append_assoc]
    unfold leading
    dsimp only
    rw [takeWhile_append_of_head hw hfrac, List.drop_left, fractionDigits_append hf hexp,
      toChars_mantissa, ← List.append_assoc, List.drop_left, he.exponentPart_append hr]

theorem leading_append {n : Numeral} (hn : n.IsWritten) (hneg : n.negative = false)
    {rest : List Char} (hr : Stops rest) : leading (n.toChars ++ rest) = .ok n :=
  (hn.scanned hneg).leading_append hr

/-! ## The characters of a numeral -/

/-- The characters of numerals. -/
def isNumeralChar (c : Char) : Bool :=
  c.isDigit || c == '.' || c == 'e' || c == 'E' || c == '+' || c == '-'

theorem isNumeralChar_of_isDigit {c : Char} (h : c.isDigit = true) : isNumeralChar c = true := by
  simp [isNumeralChar, h]

theorem isNumeralChar_of_mem_fractionChars {digits : List Char}
    (h : ∀ c ∈ digits, c.isDigit = true) {c : Char} (hc : c ∈ fractionChars digits) :
    isNumeralChar c = true := by
  cases digits with
  | nil => cases hc
  | cons d digits =>
    rcases List.mem_cons.mp hc with rfl | hc
    · rfl
    · exact isNumeralChar_of_isDigit (h c hc)

theorem ScannedExponent.isNumeralChar {part : List Char}
    {exponent : Option (ExponentSign × List Char)} (h : ScannedExponent part exponent) {c : Char}
    (hc : c ∈ part) : isNumeralChar c = true := by
  cases h with
  | absent => cases hc
  | present hl sign hne hd =>
    rcases List.mem_cons.mp hc with rfl | hc
    · rcases hl with rfl | rfl <;> rfl
    · rcases List.mem_append.mp hc with hs | hc
      · cases sign with
        | unsigned => cases hs
        | plus | minus =>
          rw [List.mem_singleton.mp hs]
          rfl
      · exact isNumeralChar_of_isDigit (hd c hc)

/-- A scanned numeral takes characters of numerals only. -/
theorem Scanned.isNumeralChar {slice : List Char} {n : Numeral} (h : Scanned slice n) {c : Char}
    (hc : c ∈ slice) : isNumeralChar c = true := by
  cases h with
  | intro hw hf he =>
    rcases List.mem_append.mp hc with hc | hc
    · exact isNumeralChar_of_isDigit (hw c hc)
    · rcases List.mem_append.mp hc with hc | hc
      · exact isNumeralChar_of_mem_fractionChars hf hc
      · exact he.isNumeralChar hc

theorem IsWritten.isNumeralChar {n : Numeral} (hn : n.IsWritten) {c : Char} (hc : c ∈ n.toChars) :
    isNumeralChar c = true := by
  obtain ⟨negative, whole, fraction, exponent⟩ := n
  have hwritten : IsWritten ⟨false, whole, fraction, exponent⟩ :=
    ⟨hn.whole_ne_nil, hn.whole, hn.fraction, hn.exponent⟩
  have hsigned := toChars_signed (n := ⟨false, whole, fraction, exponent⟩) rfl negative
  rcases List.mem_append.mp (hsigned ▸ hc) with hs | hc
  · split at hs
    · rw [List.mem_singleton.mp hs]
      rfl
    · cases hs
  · exact (hwritten.scanned rfl).isNumeralChar hc

/-! ## What a scan takes -/

theorem isDigit_of_mem_takeWhile {text : List Char} {c : Char}
    (hc : c ∈ text.takeWhile Char.isDigit) : c.isDigit = true :=
  List.all_eq_true.mp List.all_takeWhile c hc

theorem starts_fractionChars (text : List Char) : fractionChars (fractionDigits text) <+: text := by
  unfold fractionDigits
  split
  · next rest =>
    unfold fractionChars
    split
    · exact List.nil_prefix
    · exact List.cons_prefix_cons.mpr ⟨rfl, List.takeWhile_prefix _⟩
  · exact List.nil_prefix

theorem isDigit_of_mem_fractionDigits {text : List Char} {c : Char}
    (hc : c ∈ fractionDigits text) : c.isDigit = true := by
  unfold fractionDigits at hc
  split at hc
  · exact isDigit_of_mem_takeWhile hc
  · cases hc

theorem starts_leadingSign (text : List Char) : (leadingSign text).toChars <+: text := by
  unfold leadingSign
  split
  · exact List.cons_prefix_cons.mpr ⟨rfl, List.nil_prefix⟩
  · exact List.cons_prefix_cons.mpr ⟨rfl, List.nil_prefix⟩
  · exact List.nil_prefix

theorem exists_of_exponentPart {text : List Char} {exponent : Option (ExponentSign × List Char)}
    (h : exponentPart text = .ok exponent) :
    ∃ part rest, text = part ++ rest ∧ ScannedExponent part exponent := by
  unfold exponentPart at h
  split at h
  · next letter rest =>
    split at h
    · next hletter =>
      dsimp only at h
      split at h
      · cases h
      · next hne =>
        cases h
        obtain ⟨more, hmore⟩ := starts_leadingSign rest
        generalize leadingSign rest = sign at *
        subst hmore
        rw [List.drop_left] at hne ⊢
        obtain ⟨back, hback⟩ := List.takeWhile_prefix (l := more) Char.isDigit
        refine ⟨_, back, ?_, .present hletter sign (fun h => hne (List.isEmpty_iff.mpr h))
          fun c hc => isDigit_of_mem_takeWhile hc⟩
        rw [List.cons_append, List.append_assoc, hback]
    · cases h
      exact ⟨[], _, rfl, .absent⟩
  · cases h
    exact ⟨[], _, rfl, .absent⟩

theorem drop_length_takeWhile (text : List Char) :
    text.drop (text.takeWhile Char.isDigit).length = text.dropWhile Char.isDigit := by
  have h := List.takeWhile_append_dropWhile (p := Char.isDigit) (l := text)
  calc text.drop (text.takeWhile Char.isDigit).length
      = (text.takeWhile Char.isDigit ++ text.dropWhile Char.isDigit).drop
          (text.takeWhile Char.isDigit).length := by rw [h]
    _ = text.dropWhile Char.isDigit := List.drop_left

/-- The digits before the point and the fraction that are scanned are a beginning of the text, and
the exponent part is looked for after them. -/
theorem exists_leading_eq (text : List Char) : ∃ whole fraction rest,
    text = whole ++ (fractionChars fraction ++ rest) ∧
      (∀ c ∈ whole, c.isDigit = true) ∧ (∀ c ∈ fraction, c.isDigit = true) ∧
      (∀ exponent, exponentPart rest = .ok exponent →
        leading text = .ok ⟨false, whole, fraction, exponent⟩) ∧
      (exponentPart rest = .error () →
        leading text = .error (whole ++ fractionChars fraction).length) := by
  obtain ⟨rest, hrest⟩ := starts_fractionChars (text.dropWhile Char.isDigit)
  have htext : text = text.takeWhile Char.isDigit ++
      (fractionChars (fractionDigits (text.dropWhile Char.isDigit)) ++ rest) := by
    rw [hrest, List.takeWhile_append_dropWhile]
  have hdrop : ∀ front, text = front ++ rest → text.drop front.length = rest := by
    rintro front rfl
    exact List.drop_left
  have hback := hdrop _ (htext.trans (List.append_assoc ..).symm)
  refine ⟨_, _, rest, htext, fun c hc => isDigit_of_mem_takeWhile hc,
    fun c hc => isDigit_of_mem_fractionDigits hc, fun exponent he => ?_, fun he => ?_⟩
  · simp only [leading, drop_length_takeWhile, toChars_mantissa, hback, he]
  · simp only [leading, drop_length_takeWhile, toChars_mantissa, hback, he]

/-- The numeral that is found stands at the start of the text. -/
theorem exists_of_leading {text : List Char} {n : Numeral} (h : leading text = .ok n) :
    ∃ slice rest, text = slice ++ rest ∧ Scanned slice n := by
  obtain ⟨whole, fraction, rest, rfl, hw, hf, hok, herror⟩ := exists_leading_eq text
  cases he : exponentPart rest with
  | error =>
    rw [herror he] at h
    cases h
  | ok exponent =>
    rw [hok exponent he] at h
    cases h
    obtain ⟨part, back, rfl, hpart⟩ := exists_of_exponentPart he
    exact ⟨_, back, by simp only [List.append_assoc], .intro hw hf hpart⟩

theorem digits_of_leading {text : List Char} {n : Numeral} (h : leading text = .ok n) :
    n.whole = text.takeWhile Char.isDigit ∧
      n.fraction = fractionDigits (text.dropWhile Char.isDigit) := by
  unfold leading at h
  dsimp only at h
  rw [drop_length_takeWhile] at h
  split at h
  · cases h
    exact ⟨rfl, rfl⟩
  · cases h

/-- An exponent without digits is found after a numeral that has no exponent. -/
theorem exists_of_leading_error {text : List Char} {width : Nat} (h : leading text = .error width) :
    ∃ slice rest n, text = slice ++ rest ∧ Scanned slice n ∧ slice.length = width := by
  obtain ⟨whole, fraction, rest, rfl, hw, hf, hok, herror⟩ := exists_leading_eq text
  cases he : exponentPart rest with
  | error =>
    rw [herror he] at h
    cases h
    have hscanned := Scanned.intro hw hf .absent
    rw [List.append_nil] at hscanned
    exact ⟨_, rest, _, (List.append_assoc ..).symm, hscanned, rfl⟩
  | ok exponent =>
    rw [hok exponent he] at h
    cases h

end Numeral

end TimeSignal
