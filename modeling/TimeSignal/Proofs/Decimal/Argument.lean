import TimeSignal.Decimal.Argument
import TimeSignal.Proofs.Decimal.Scan

/-!
# Scanned numerals as whole texts

Numbers are read in two ways: at the start of a text, up to where the number ends, and as a whole
text, which may have a sign or be a word.  What the first way takes is read by the second way as the
same number, so a number that has been cut out of a text can always be read.

## Main definitions

* `Numeral.pointPart`: the digits after a point, and the text after them

## Main results

* `Numeral.Scanned.ofChars?_eq`: a scanned numeral is a whole text
* `Numeral.Scanned.ofString?_eq`: its text gives the number that it denotes
-/

namespace TimeSignal

namespace Numeral

variable {slice part : List Char} {n : Numeral} {exponent : Option (ExponentSign × List Char)}

theorem stops_nil : Stops [] := fun _ h => nomatch h

theorem ScannedExponent.exponentPart_eq (h : ScannedExponent part exponent) :
    exponentPart part = .ok exponent := by
  have happend := h.exponentPart_append stops_nil
  rwa [List.append_nil] at happend

theorem ScannedExponent.head (h : ScannedExponent part exponent) :
    ∀ c ∈ part.head?, c.isDigit = false ∧ c ≠ '.' := by
  have happend := h.head_append stops_nil
  rwa [List.append_nil] at happend

theorem dropWhile_append_of_head {kind : Char → Bool} {front rest : List Char}
    (h : ∀ c ∈ front, kind c = true) (hr : ∀ c ∈ rest.head?, kind c = false) :
    (front ++ rest).dropWhile kind = rest := by
  rw [List.dropWhile_append_of_pos h]
  cases rest with
  | nil => rfl
  | cons c rest => rw [List.dropWhile_cons, hr c rfl, if_neg Bool.false_ne_true]

/-- The digits after a point, if there is one, and the text after them. -/
def pointPart (text : List Char) : List Char × List Char :=
  match text with
  | '.' :: rest => (rest.takeWhile Char.isDigit, rest.dropWhile Char.isDigit)
  | rest => ([], rest)

theorem ofChars?_def (text : List Char) : ofChars? text =
    let whole := text.takeWhile Char.isDigit
    let parts := pointPart (text.dropWhile Char.isDigit)
    if whole.isEmpty && parts.1.isEmpty then none
    else
      match exponentPart parts.2 with
      | .ok none => if parts.2.isEmpty then some ⟨false, whole, parts.1, none⟩ else none
      | .ok (some (sign, digits)) =>
        if parts.2.length = 1 + sign.toChars.length + digits.length then
          some ⟨false, whole, parts.1, some (sign, digits)⟩
        else none
      | .error () => none := rfl

theorem pointPart_append {fraction : List Char} (hf : ∀ c ∈ fraction, c.isDigit = true)
    (hhead : ∀ c ∈ part.head?, c.isDigit = false ∧ c ≠ '.') :
    pointPart (fractionChars fraction ++ part) = (fraction, part) := by
  cases fraction with
  | nil =>
    change pointPart part = ([], part)
    unfold pointPart
    split
    · exact absurd rfl (hhead '.' rfl).2
    · rfl
  | cons d digits =>
    change ((d :: digits ++ part).takeWhile Char.isDigit,
      (d :: digits ++ part).dropWhile Char.isDigit) = _
    rw [takeWhile_append_of_head hf fun c hc => (hhead c hc).1,
      dropWhile_append_of_head hf fun c hc => (hhead c hc).1]

/-- A scanned numeral with a digit is a whole text. -/
theorem Scanned.ofChars?_eq (h : Scanned slice n) (hd : n.HasDigit) :
    ofChars? slice = some n := by
  cases h with
  | @intro whole fraction part exponent hw hf he =>
    have hfrac := head_fractionChars fraction he.head
    have hdigits : (whole.isEmpty && fraction.isEmpty) = false := by
      rw [Bool.and_eq_false_iff, List.isEmpty_eq_false_iff, List.isEmpty_eq_false_iff]
      exact hd
    rw [ofChars?_def, takeWhile_append_of_head hw hfrac, dropWhile_append_of_head hw hfrac,
      pointPart_append hf he.head]
    dsimp only
    rw [hdigits, if_neg Bool.false_ne_true, he.exponentPart_eq]
    cases he with
    | absent => rfl
    | @present letter digits hl sign hne =>
      have hlength : (letter :: (sign.toChars ++ digits)).length =
          1 + sign.toChars.length + digits.length := by
        rw [List.length_cons, List.length_append]
        omega
      exact if_pos hlength

/-- A text that starts with a digit or a point is not one of the words: it is read as a numeral. -/
theorem ofUnsigned?_cons {c : Char} (hc : c.isDigit = true ∨ c = '.') (more : List Char) :
    Binary32.ofUnsigned? (c :: more) = (ofChars? (c :: more)).map toBinary32 := by
  have hlower : c.toLower = c := by
    rcases hc with hc | rfl
    · have hhigh : c.toNat ≤ 57 := (Char.isDigit_iff_toNat.mp hc).2
      refine dif_neg ?_
      rintro ⟨hupper, -⟩
      have hlow : 65 ≤ c.toNat := UInt32.le_iff_toNat_le.mp hupper
      omega
    · rfl
  have hword : ∀ d rest, c ≠ d →
      String.ofList ((c :: more).map Char.toLower) ≠ String.ofList (d :: rest) := by
    intro d rest hne h
    have hlists := String.ofList_injective h
    rw [List.map_cons, hlower] at hlists
    exact hne (List.cons.inj hlists).1
  have hletter : ∀ d, d.isDigit = false → d ≠ '.' → c ≠ d := by
    rintro d hd hp rfl
    rcases hc with hc | hc
    · rw [hd] at hc
      cases hc
    · exact hp hc
  have hn := hletter 'n' rfl (by decide)
  have hi := hletter 'i' rfl (by decide)
  unfold Binary32.ofUnsigned?
  dsimp only
  rw [if_neg (hword 'n' ['a', 'n'] hn),
    if_neg (not_or.mpr ⟨hword 'i' ['n', 'f'] hi, hword 'i' ['n', 'f', 'i', 'n', 'i', 't', 'y'] hi⟩)]

/-- The text of a scanned numeral gives the number that the numeral denotes. -/
theorem Scanned.ofString?_eq (h : Scanned slice n) (hd : n.HasDigit) :
    Binary32.ofString? (String.ofList slice) = some n.toBinary32 := by
  have hchars := h.ofChars?_eq hd
  obtain ⟨c, more, rfl, hc⟩ := h.exists_cons hd
  have hunsigned : Binary32.ofUnsigned? (c :: more) = some n.toBinary32 := by
    rw [ofUnsigned?_cons hc, hchars]
    rfl
  unfold Binary32.ofString?
  rw [String.toList_ofList]
  split
  · next heq =>
    cases heq
    rcases hc with hc | hc <;> cases hc
  · next heq =>
    cases heq
    rcases hc with hc | hc <;> cases hc
  · exact hunsigned

end Numeral

end TimeSignal
