import TimeSignal.Proofs.Decimal.Argument
import TimeSignal.Proofs.Formula.Lexer

/-!
# Places in a text

The lexer counts characters, and places are byte offsets.  Layout and the characters of tokens have
one byte each, so up to the first character that starts no token the two counts agree: wherever the
lexer gets to, its offset is the number of bytes in front of it.  A token is therefore a slice of
the text between two boundaries of characters, and so is the part of a number that stands in front
of an exponent without digits.

## Main definitions

* `Formula.IsBoundary`: an offset is between two characters of a text
* `Formula.Reached`: the lexer of a text gets to an offset
* `Formula.Lexeme.IsSlice`: a lexeme is a slice of a text from which its token is read
* `Formula.CutsAtBoundaries`: the lexer of a text stays between its characters

## Main results

* `Formula.Reached.exists_front`: offsets are numbers of bytes
* `Formula.Reached.exists_number`: numbers are cut out between boundaries, and can be read
* `Formula.Reached.isSlice_of_mem`, `Formula.Reached.isBoundary_of_error`: what the lexer finds
* `Formula.cutsAtBoundaries`: the lexer of every text stays between its characters
-/

namespace TimeSignal

namespace Formula

/-! ## Lengths in bytes -/

theorem byteLength_append (text text' : List Char) :
    byteLength (text ++ text') = byteLength text + byteLength text' := by
  induction text with
  | nil => exact (Nat.zero_add _).symm
  | cons c text ih => rw [List.cons_append, byteLength, byteLength, ih, Nat.add_assoc]

theorem utf8ByteSize_ofList (text : List Char) :
    (String.ofList text).utf8ByteSize = byteLength text := by
  induction text with
  | nil => rfl
  | cons c text ih =>
    rw [String.ofList_cons, String.utf8ByteSize_append, String.utf8ByteSize_singleton, ih,
      byteLength]

theorem byteLength_eq_length {text : List Char} (h : ∀ c ∈ text, c.utf8Size = 1) :
    byteLength text = text.length := by
  induction text with
  | nil => rfl
  | cons c text ih =>
    rw [byteLength, h c List.mem_cons_self, ih fun d hd => h d (List.mem_cons_of_mem _ hd),
      List.length_cons, Nat.add_comm]

theorem utf8Size_of_isLayout {c : Char} (h : isLayout c = true) : c.utf8Size = 1 := by
  rcases eq_of_isLayout h with rfl | rfl | rfl | rfl | rfl <;> rfl

theorem utf8Size_of_isTokenChar {c : Char} (h : isTokenChar c = true) : c.utf8Size = 1 := by
  have hle : c.toNat ≤ 122 := (toNat_of_isTokenChar h).2.1
  refine Char.utf8Size_eq_one_iff.mpr (UInt32.le_iff_toNat_le.mpr ?_)
  exact hle.trans (by decide)

/-! ## Boundaries -/

/-- The offset is between two characters of the text, or at one of its ends. -/
def IsBoundary (text : List Char) (offset : Nat) : Prop :=
  String.Pos.Raw.IsValid (String.ofList text) ⟨offset⟩

theorem isBoundary_append (front back : List Char) :
    IsBoundary (front ++ back) (byteLength front) := by
  refine String.Pos.Raw.isValid_iff_exists_append.mpr
    ⟨String.ofList front, String.ofList back, String.ofList_append, ?_⟩
  rw [String.rawEndPos, utf8ByteSize_ofList]

theorem isBoundary_byteLength (text : List Char) : IsBoundary text (byteLength text) := by
  have h := isBoundary_append text []
  rwa [List.append_nil] at h

theorem IsBoundary.le_byteLength {text : List Char} {offset : Nat} (h : IsBoundary text offset) :
    offset ≤ byteLength text := by
  rw [← utf8ByteSize_ofList]
  exact String.Pos.Raw.IsValid.le_utf8ByteSize h

/-! ## Where the lexer gets to -/

/-- The lexer of a text gets to an offset, with the rest of the text in front of it. -/
inductive Reached (text : List Char) : Nat → List Char → Prop where
  | start : Reached text 0 text
  | layout {offset : Nat} {c : Char} {rest : List Char} (h : Reached text offset (c :: rest))
      (hc : isLayout c = true) : Reached text (offset + 1) rest
  | token {offset width : Nat} {c : Char} {rest : List Char} {token : Token}
      (h : Reached text offset (c :: rest)) (hc : isLayout c = false)
      (ht : nextToken c rest = .ok (token, width)) :
      Reached text (offset + 1 + width) (rest.drop width)

variable {text rest : List Char} {offset : Nat}

theorem byteLength_of_readFrom {slice : List Char} {token : Token} (h : token.ReadFrom slice) :
    byteLength slice = slice.length :=
  byteLength_eq_length fun _ hc => utf8Size_of_isTokenChar (h.isTokenChar hc)

/-- Wherever the lexer gets to, its offset is the number of bytes in front of it. -/
theorem Reached.exists_front (h : Reached text offset rest) :
    ∃ front, text = front ++ rest ∧ byteLength front = offset := by
  -- Each step of the lexer moves one-byte characters from the rest to the front.
  induction h with
  | start => exact ⟨[], rfl, rfl⟩
  | @layout offset c rest h hc ih =>
    obtain ⟨front, rfl, hfront⟩ := ih
    refine ⟨front ++ [c], by rw [List.append_assoc]; rfl, ?_⟩
    rw [byteLength_append, hfront, byteLength, utf8Size_of_isLayout hc]
    rfl
  | @token offset width c rest token h hc ht ih =>
    obtain ⟨front, rfl, hfront⟩ := ih
    obtain ⟨more, back, rfl, rfl, hread⟩ := exists_of_nextToken ht
    refine ⟨front ++ c :: more, ?_, ?_⟩
    · rw [List.drop_left, List.append_assoc]
      rfl
    · rw [byteLength_append, hfront, byteLength_of_readFrom hread, List.length_cons]
      omega

theorem Reached.isBoundary (h : Reached text offset rest) : IsBoundary text offset := by
  obtain ⟨front, rfl, rfl⟩ := h.exists_front
  exact isBoundary_append front rest

/-! ## What the lexer finds -/

/-- The lexeme is a slice of the text between two boundaries, from which its token is read. -/
def Lexeme.IsSlice (text : List Char) (lexeme : Lexeme) : Prop :=
  ∃ front slice back, text = front ++ (slice ++ back) ∧ byteLength front = lexeme.start ∧
    byteLength (front ++ slice) = lexeme.stop ∧ lexeme.token.ReadFrom slice

theorem Lexeme.IsSlice.isBoundary {lexeme : Lexeme} (h : lexeme.IsSlice text) :
    IsBoundary text lexeme.start := by
  obtain ⟨front, slice, back, rfl, hstart, -⟩ := h
  rw [← hstart]
  exact isBoundary_append front _

theorem Lexeme.IsSlice.isBoundary_stop {lexeme : Lexeme} (h : lexeme.IsSlice text) :
    IsBoundary text lexeme.stop := by
  obtain ⟨front, slice, back, rfl, -, hstop, -⟩ := h
  rw [← hstop, ← List.append_assoc]
  exact isBoundary_append (front ++ slice) back

theorem Reached.isSlice {c : Char} {token : Token} {width : Nat}
    (h : Reached text offset (c :: rest)) (ht : nextToken c rest = .ok (token, width)) :
    Lexeme.IsSlice text ⟨token, offset, offset + 1 + width⟩ := by
  obtain ⟨front, rfl, hfront⟩ := h.exists_front
  obtain ⟨more, back, rfl, rfl, hread⟩ := exists_of_nextToken ht
  refine ⟨front, c :: more, back, rfl, hfront, ?_, hread⟩
  rw [byteLength_append, hfront, byteLength_of_readFrom hread, List.length_cons]
  change _ = offset + 1 + more.length
  omega

/-- Where a token is refused, characters of one byte have been taken. -/
theorem Refused.exists_front {distance : Nat} {cause : Cause} (h : Refused text distance cause) :
    ∃ front back, text = front ++ back ∧ byteLength front = distance := by
  cases h with
  | exponent hs =>
    refine ⟨_, _, rfl, byteLength_eq_length fun c hc => utf8Size_of_isTokenChar ?_⟩
    rw [isTokenChar, hs.isNumeralChar hc]
    rfl
  | range => exact ⟨[], _, rfl, rfl⟩
  | character => exact ⟨[], _, rfl, rfl⟩

theorem Reached.isBoundary_of_refused {distance : Nat} {cause : Cause}
    (h : Reached text offset rest) (hr : Refused rest distance cause) :
    IsBoundary text (offset + distance) := by
  obtain ⟨front, rfl, rfl⟩ := h.exists_front
  obtain ⟨more, back, rfl, rfl⟩ := hr.exists_front
  rw [← byteLength_append, ← List.append_assoc]
  exact isBoundary_append (front ++ more) back

/-- A number that is cut out of the text ends at a boundary, and it is read as a whole text. -/
theorem Reached.exists_number (h : Reached text offset rest) (hs : startsNumber rest = true)
    {n : Numeral} (hn : Numeral.leading rest = .ok n) :
    ∃ slice back, rest = slice ++ back ∧ IsBoundary text (offset + byteLength slice) ∧
      Binary32.ofString? (String.ofList slice) = some n.toBinary32 := by
  obtain ⟨front, rfl, rfl⟩ := h.exists_front
  obtain ⟨slice, back, rfl, hscan⟩ := Numeral.exists_of_leading hn
  refine ⟨slice, back, rfl, ?_, hscan.ofString?_eq (hasDigit_of_startsNumber hs hn)⟩
  rw [← byteLength_append, ← List.append_assoc]
  exact isBoundary_append (front ++ slice) back

/-- From wherever the lexer gets to, it finds slices of the text. -/
theorem Reached.isSlice_of_mem (h : Reached text offset rest) {lexemes : List Lexeme}
    (hl : lexemesFrom offset rest = .ok lexemes) {lexeme : Lexeme} (hm : lexeme ∈ lexemes) :
    lexeme.IsSlice text := by
  fun_induction lexemesFrom offset rest generalizing lexemes with
  | case1 =>
    cases hl
    cases hm
  | case2 offset c rest hc ih => exact ih (h.layout hc) hl hm
  | case3 => cases hl
  | case4 => cases hl
  | case5 offset c rest hc token width ht stop more hmore ih =>
    cases hl
    rcases List.mem_cons.mp hm with rfl | hm
    · exact h.isSlice ht
    · exact ih (h.token (Bool.eq_false_iff.mpr hc) ht) hmore hm

/-- From wherever the lexer gets to, it refuses the text at a boundary. -/
theorem Reached.isBoundary_of_error (h : Reached text offset rest) {refusal : Refusal}
    (hl : lexemesFrom offset rest = .error refusal) : IsBoundary text refusal.offset := by
  fun_induction lexemesFrom offset rest generalizing refusal with
  | case1 => cases hl
  | case2 offset c rest hc ih => exact ih (h.layout hc) hl
  | case3 offset c rest hc distance cause ht =>
    cases hl
    exact h.isBoundary_of_refused (refused_of_nextToken ht)
  | case4 offset c rest hc token width ht stop refusal' hmore ih =>
    cases hl
    exact ih (h.token (Bool.eq_false_iff.mpr hc) ht) hmore
  | case5 => cases hl

/-- The lexer of a text stays between its characters.  Wherever it gets to is a boundary; a number
that it cuts out there ends at a boundary, and can be read as a whole text; and the lexemes that it
finds are slices of the text. -/
structure CutsAtBoundaries (text : List Char) : Prop where
  boundary : ∀ offset rest, Reached text offset rest → IsBoundary text offset
  number : ∀ offset rest n, Reached text offset rest → startsNumber rest = true →
    Numeral.leading rest = .ok n → ∃ slice back, rest = slice ++ back ∧
      IsBoundary text (offset + byteLength slice) ∧
        Binary32.ofString? (String.ofList slice) = some n.toBinary32
  lexeme : ∀ ls, lexemes text = .ok ls → ∀ lexeme ∈ ls, lexeme.IsSlice text

theorem cutsAtBoundaries (text : List Char) : CutsAtBoundaries text where
  boundary _ _ h := h.isBoundary
  number _ _ _ h hs hn := h.exists_number hs hn
  lexeme _ hl _ hm := Reached.start.isSlice_of_mem hl hm

end Formula

end TimeSignal
