import Mathlib.Data.List.DropRight
import Mathlib.Data.List.Forall2
import Mathlib.Data.String.Basic
import TimeSignal.Proofs.Formula.Accepted
import TimeSignal.Proofs.Formula.Places

/-!
# Tokens and the layout between them

The lexer divides a text that it accepts: each byte belongs to one token, or it is layout.  The
slice that a token stands in spells the token, so it is read to the same token wherever it stands
apart from other slices.  A text in which the same slices stand in order, with other layout between
them, therefore has the same tokens, and the parser, which does not look at places unless it refuses
a text, reads it to the same signal.

## Main definitions

* `Formula.spans`, `Formula.slices`: where the tokens of a text stand, and in which characters
* `Formula.Divides`: lexemes stand apart from each other in a text, with layout elsewhere
* `Formula.LaidOut`: a text has the given slices in order, with layout between them
* `Formula.Tiles`: how the lexer divides a text

## Main results

* `Formula.divides_of_lexemes`: the lexer divides the texts that it accepts
* `Formula.LaidOut.lexes`: the tokens of a text do not depend on its layout
* `Formula.LaidOut.body`: nor does it matter that blanks around a formula are dropped
* `Formula.lexemes_layout`: what the lexer finds, and that layout does not matter
-/

namespace TimeSignal

namespace Formula

/-! ## Spans and slices -/

/-- The offsets of the first byte and of the byte after the last. -/
def Lexeme.span (lexeme : Lexeme) : Nat × Nat := (lexeme.start, lexeme.stop)

/-- The spans of the tokens of a text, with the empty span of the end of the text as the last. -/
def spans (text : List Char) (ls : List Lexeme) : List (Nat × Nat) :=
  ls.map Lexeme.span ++ [(byteLength text, byteLength text)]

/-- The characters of a text between the offsets of a lexeme. -/
def Lexeme.slice (text : List Char) (lexeme : Lexeme) : List Char :=
  (String.Pos.Raw.extract (String.ofList text) ⟨lexeme.start⟩ ⟨lexeme.stop⟩).toList

/-- The characters that the tokens of a text stand in. -/
def slices (text : List Char) (ls : List Lexeme) : List (List Char) := ls.map (Lexeme.slice text)

/-- The bytes of a text. -/
def bytes (text : List Char) : List UInt8 := text.flatMap String.utf8EncodeChar

/-- The bytes of space, tab, line feed, form feed and carriage return. -/
def layoutBytes : List UInt8 := [0x20, 0x09, 0x0a, 0x0c, 0x0d]

/-- The tokens of a text stand apart from each other and from the end of the text, between
characters of the text, and all other bytes are layout. -/
structure Divides (text : List Char) (ls : List Lexeme) : Prop where
  nonempty : ∀ lexeme ∈ ls, lexeme.start < lexeme.stop
  ordered : (spans text ls).Pairwise fun earlier later => earlier.2 ≤ later.1
  boundary : ∀ span ∈ spans text ls, IsBoundary text span.1 ∧ IsBoundary text span.2
  layout : ∀ (i : Nat) (byte : UInt8), (bytes text)[i]? = some byte →
    (∀ span ∈ spans text ls, ¬ (span.1 ≤ i ∧ i < span.2)) → byte ∈ layoutBytes

/-- The text has the slices in order.  Layout may stand everywhere around them, and behind each
slice there is some, unless the text ends there. -/
inductive LaidOut : List (List Char) → List Char → Prop where
  | nil : LaidOut [] []
  | layout {c : Char} {rest : List Char} {slices : List (List Char)} (hc : isLayout c = true)
      (more : LaidOut slices rest) : LaidOut slices (c :: rest)
  | slice {slice rest : List Char} {slices : List (List Char)}
      (hr : ∀ c ∈ rest.head?, isLayout c = true) (more : LaidOut slices rest) :
      LaidOut (slice :: slices) (slice ++ rest)

/-! ## How the lexer divides a text -/

theorem Token.ReadFrom.length_pos {slice : List Char} {token : Token} (h : token.ReadFrom slice) :
    0 < slice.length := by
  cases h with
  | name | punctuation => exact Nat.succ_pos _
  | number hs hd =>
    obtain ⟨c, more, rfl, -⟩ := hs.exists_cons hd
    exact Nat.succ_pos _

/-- From an offset on, a text consists of layout and of the slices of lexemes. -/
inductive Tiles : Nat → List Char → List Lexeme → Prop where
  | nil (offset : Nat) : Tiles offset [] []
  | layout {offset : Nat} {c : Char} {rest : List Char} {ls : List Lexeme}
      (hc : isLayout c = true) (more : Tiles (offset + 1) rest ls) : Tiles offset (c :: rest) ls
  | token {offset stop : Nat} {slice rest : List Char} {token : Token} {ls : List Lexeme}
      (hread : token.ReadFrom slice) (hstop : stop = offset + slice.length)
      (more : Tiles stop rest ls) : Tiles offset (slice ++ rest) (⟨token, offset, stop⟩ :: ls)

theorem tiles_of_lexemesFrom {offset : Nat} {text : List Char} {ls : List Lexeme}
    (h : lexemesFrom offset text = .ok ls) : Tiles offset text ls := by
  -- The cases of the lexer: the end, layout, a refused token, a refused rest, and a token.
  fun_induction lexemesFrom offset text generalizing ls with
  | case1 =>
    cases h
    exact .nil _
  | case2 offset c rest hc ih => exact .layout hc (ih h)
  | case3 => cases h
  | case4 => cases h
  | case5 offset c rest hc token width ht stop more hmore =>
    rename_i ih
    cases h
    obtain ⟨front, back, rfl, rfl, hread⟩ := exists_of_nextToken ht
    have hrest := ih hmore
    rw [List.drop_left] at hrest
    have hstop : stop = offset + (c :: front).length := by
      rw [List.length_cons]
      omega
    exact Tiles.token hread hstop hrest

namespace Tiles

variable {offset : Nat} {text : List Char} {ls : List Lexeme}

/-- The lexemes are not empty, and they stand in the text. -/
theorem within (h : Tiles offset text ls) : ∀ lexeme ∈ ls,
    offset ≤ lexeme.start ∧ lexeme.start < lexeme.stop ∧
      lexeme.stop ≤ offset + text.length := by
  induction h with
  | nil => exact fun _ hm => nomatch hm
  | layout hc more ih =>
    intro lexeme hm
    obtain ⟨hstart, hlt, hstop⟩ := ih lexeme hm
    rw [List.length_cons]
    omega
  | token hread hstop more ih =>
    intro lexeme hm
    have hpos := hread.length_pos
    rw [List.length_append]
    rcases List.mem_cons.mp hm with rfl | hm
    · dsimp only
      omega
    · obtain ⟨hstart, hlt, hend⟩ := ih lexeme hm
      omega

/-- Each lexeme ends before the next one starts. -/
theorem pairwise (h : Tiles offset text ls) : ls.Pairwise fun l l' => l.stop ≤ l'.start := by
  induction h with
  | nil => exact .nil
  | layout hc more ih => exact ih
  | token hread hstop more ih => exact .cons (fun lexeme hm => (more.within lexeme hm).1) ih

/-- A character outside the lexemes is layout. -/
theorem isLayout_of_outside (h : Tiles offset text ls) {i : Nat} {c : Char}
    (hc : text[i]? = some c)
    (hout : ∀ lexeme ∈ ls, ¬ (lexeme.start ≤ offset + i ∧ offset + i < lexeme.stop)) :
    isLayout c = true := by
  induction h generalizing i with
  | nil => cases hc
  | layout hlayout more ih =>
    cases i with
    | zero =>
      cases hc
      exact hlayout
    | succ i =>
      refine ih hc fun lexeme hm => ?_
      rw [Nat.add_assoc, Nat.add_comm 1 i]
      exact hout lexeme hm
  | @token offset stop slice rest token ls hread hstop more ih =>
    obtain ⟨hhead, htail⟩ := List.forall_mem_cons.mp hout
    -- The character is behind the slice, so it is one of the rest.
    have hbehind : slice.length ≤ i := by
      dsimp only at hhead
      omega
    rw [List.getElem?_append_right hbehind] at hc
    refine ih hc fun lexeme hm => ?_
    have hplace : stop + (i - slice.length) = offset + i := by omega
    rw [hplace]
    exact htail lexeme hm

end Tiles

/-! ## Bytes -/

theorem bytes_eq_map {text : List Char} (h : ∀ c ∈ text, c.utf8Size = 1) :
    bytes text = text.map fun c => c.val.toUInt8 := by
  induction text with
  | nil => rfl
  | cons c text ih =>
    obtain ⟨hc, htext⟩ := List.forall_mem_cons.mp h
    rw [bytes, List.flatMap_cons, String.utf8EncodeChar_eq_singleton hc, ← bytes, ih htext]
    rfl

theorem mem_layoutBytes {c : Char} (h : isLayout c = true) : c.val.toUInt8 ∈ layoutBytes := by
  rcases eq_of_isLayout h with rfl | rfl | rfl | rfl | rfl <;> decide

theorem isBlank_of_isLayout {c : Char} (h : isLayout c = true) : Text.isBlank c = true := by
  rcases eq_of_isLayout h with rfl | rfl | rfl | rfl | rfl <;> decide

theorem Lexes.utf8Size_eq_one {text : List Char} {ts : List Token} (h : Lexes text ts) :
    ∀ c ∈ text, c.utf8Size = 1 := by
  intro c hc
  rcases h.isTokenChar_of_mem hc with hl | ht
  · exact utf8Size_of_isLayout hl
  · exact utf8Size_of_isTokenChar ht

/-- The lexer divides the texts that it accepts. -/
theorem divides_of_lexemes {text : List Char} {ls : List Lexeme} (h : lexemes text = .ok ls) :
    Divides text ls := by
  have htiles := tiles_of_lexemesFrom h
  have hsize := (lexes_of_lexemesFrom h).utf8Size_eq_one
  have hlength := byteLength_eq_length hsize
  refine ⟨fun lexeme hm => (htiles.within lexeme hm).2.1, ?_, ?_, ?_⟩
  · refine List.pairwise_append.mpr ⟨?_, List.pairwise_singleton _ _, ?_⟩
    · exact List.pairwise_map.mpr htiles.pairwise
    · intro span hm last hlast
      obtain ⟨lexeme, hmem, rfl⟩ := List.mem_map.mp hm
      rw [List.mem_singleton.mp hlast, hlength]
      have hstop := (htiles.within lexeme hmem).2.2
      rwa [Nat.zero_add] at hstop
  · intro span hm
    rcases List.mem_append.mp hm with hm | hm
    · obtain ⟨lexeme, hmem, rfl⟩ := List.mem_map.mp hm
      have hslice := Reached.start.isSlice_of_mem h hmem
      exact ⟨hslice.isBoundary, hslice.isBoundary_stop⟩
    · rw [List.mem_singleton.mp hm]
      exact ⟨isBoundary_byteLength text, isBoundary_byteLength text⟩
  · intro i byte hbyte hout
    rw [bytes_eq_map hsize, List.getElem?_map] at hbyte
    obtain ⟨c, hc, rfl⟩ := Option.map_eq_some_iff.mp hbyte
    refine mem_layoutBytes (htiles.isLayout_of_outside hc fun lexeme hm => ?_)
    rw [Nat.zero_add]
    exact hout _ (List.mem_append_left _ (List.mem_map_of_mem hm))

/-! ## Texts with the same slices -/

theorem utf8Len_eq (text : List Char) : String.utf8Len text = byteLength text := by
  induction text with
  | nil => rfl
  | cons c text ih => rw [String.utf8Len_cons, ih, byteLength, Nat.add_comm]

/-- The token of a lexeme is read from what stands between the offsets of the lexeme. -/
theorem Lexeme.IsSlice.readFrom_slice {text : List Char} {lexeme : Lexeme}
    (h : lexeme.IsSlice text) : lexeme.token.ReadFrom (lexeme.slice text) := by
  obtain ⟨front, slice, back, rfl, hstart, hstop, hread⟩ := h
  have hslice : lexeme.slice (front ++ (slice ++ back)) = slice := by
    rw [Lexeme.slice, ← hstart, ← hstop, byteLength_append, ← utf8Len_eq, ← utf8Len_eq,
      ← List.append_assoc, String.extract_of_valid, String.toList_ofList]
  rwa [hslice]

theorem readFrom_slices {text : List Char} {ls : List Lexeme} (h : lexemes text = .ok ls) :
    List.Forall₂ (fun slice token => token.ReadFrom slice) (slices text ls) (tokens ls) := by
  refine List.forall₂_map_left_iff.mpr (List.forall₂_map_right_iff.mpr ?_)
  exact List.forall₂_same.mpr fun lexeme hm => (Reached.start.isSlice_of_mem h hm).readFrom_slice

theorem rdropWhile_append {kind : Char → Bool} (front rest : List Char) :
    (front ++ rest).rdropWhile kind =
      if (rest.rdropWhile kind).isEmpty then front.rdropWhile kind
      else front ++ rest.rdropWhile kind := by
  simp only [List.rdropWhile, List.reverse_append, List.dropWhile_append, List.isEmpty_reverse]
  split
  · rfl
  · rw [List.reverse_append, List.reverse_reverse]

namespace LaidOut

variable {text : List Char} {slices : List (List Char)} {ts : List Token}

/-- **The tokens of a text do not depend on its layout.** -/
theorem lexes (h : LaidOut slices text)
    (hs : List.Forall₂ (fun slice token => token.ReadFrom slice) slices ts) : Lexes text ts := by
  induction h generalizing ts with
  | nil =>
    cases hs
    exact .nil
  | layout hc more ih => exact .layout hc (ih hs)
  | slice hr more ih =>
    cases hs with
    | cons hread hrest =>
      -- What follows the slice is layout or nothing, so it does not go on with the token.
      refine hread.spells (fun c hc => ?_) (ih hrest)
      exact separates_of_layout (hr c hc) [] c rfl

/-! ## Blanks around a text -/

section Blanks

variable (hs : ∀ slice ∈ slices, ∃ token : Token, token.ReadFrom slice)
include hs

theorem head_ne (h : LaidOut slices text) : ∀ c ∈ text.head?, c ≠ '=' := by
  cases h with
  | nil => exact fun _ hc => nomatch hc
  | layout hlayout more =>
    rintro c ⟨⟩ rfl
    cases hlayout
  | slice hr more =>
    obtain ⟨token, hread⟩ := hs _ List.mem_cons_self
    obtain ⟨c, tail, rfl⟩ := List.exists_cons_of_length_pos hread.length_pos
    rintro c' ⟨⟩
    exact (isBlank_of_isTokenChar (hread.isTokenChar List.mem_cons_self)).2

theorem dropWhile_isBlank (h : LaidOut slices text) :
    LaidOut slices (text.dropWhile Text.isBlank) := by
  induction h with
  | nil => exact .nil
  | layout hc more ih =>
    rw [List.dropWhile_cons_of_pos (isBlank_of_isLayout hc)]
    exact ih hs
  | slice hr more ih =>
    obtain ⟨token, hread⟩ := hs _ List.mem_cons_self
    obtain ⟨c, tail, rfl⟩ := List.exists_cons_of_length_pos hread.length_pos
    have hc := (isBlank_of_isTokenChar (hread.isTokenChar List.mem_cons_self)).1
    rw [List.cons_append, List.dropWhile_cons_of_neg (Bool.eq_false_iff.mp hc)]
    exact .slice hr more

theorem rdropWhile_isBlank (h : LaidOut slices text) :
    LaidOut slices (text.rdropWhile Text.isBlank) := by
  induction h with
  | nil => exact .nil
  | @layout c rest slices hc more ih =>
    have hrest := ih hs
    rw [← List.singleton_append, rdropWhile_append]
    -- Layout is dropped only where all of the rest is.
    split
    · next hempty =>
      rw [List.isEmpty_iff.mp hempty] at hrest
      rwa [List.rdropWhile_singleton, if_pos (isBlank_of_isLayout hc)]
    · exact .layout hc hrest
  | @slice slice rest slices hr more ih =>
    -- The last character of a slice is not blank, so only what stands behind it is dropped.
    obtain ⟨token, hread⟩ := hs _ List.mem_cons_self
    have hslice : slice.rdropWhile Text.isBlank = slice := by
      refine List.rdropWhile_eq_self_iff.mpr fun hne => Bool.eq_false_iff.mp ?_
      exact (isBlank_of_isTokenChar (hread.isTokenChar (List.getLast_mem hne))).1
    have htext : (slice ++ rest).rdropWhile Text.isBlank =
        slice ++ rest.rdropWhile Text.isBlank := by
      rw [rdropWhile_append, hslice]
      split
      · next hempty => rw [List.isEmpty_iff.mp hempty, List.append_nil]
      · rfl
    rw [htext]
    refine .slice (fun c hc => hr c ?_) (ih fun slice hm => hs slice (List.mem_cons_of_mem _ hm))
    obtain ⟨back, hback⟩ := List.rdropWhile_prefix Text.isBlank rest
    rw [← hback, List.head?_append, Option.mem_def.mp hc]
    rfl

/-- The blanks that are dropped around a formula are layout of it. -/
theorem body (h : LaidOut slices text) : LaidOut slices (body text) := by
  have htrim : LaidOut slices (Text.trim text) := (h.dropWhile_isBlank hs).rdropWhile_isBlank hs
  rw [Formula.body]
  split
  · next rest htext =>
    rw [htext] at htrim
    exact absurd rfl (htrim.head_ne hs '=' rfl)
  · exact htrim

end Blanks

end LaidOut

/-! ## Layout does not matter -/

/-- The parser looks only at the tokens of a text that it accepts. -/
theorem parse_congr {source source' : String} {ls ls' : List Lexeme}
    (h : lexemes (body source.toList) = .ok ls) (h' : lexemes (body source'.toList) = .ok ls')
    (ht : tokens ls' = tokens ls) (e : Signal) : parse source' = .ok e ↔ parse source = .ok e := by
  rw [parse_eq_ok_iff, parse_eq_ok_iff, h, h']
  simp only [Except.ok.injEq, exists_eq_left', ht]

/-- **Layout does not matter.**  In a text that the lexer accepts, the tokens stand apart from each
other, between characters and in order, and every other byte is layout.  Any text in which the same
slices stand in the same order, with layout between them, has the same tokens, and a formula with
such a text is read to the same signal. -/
theorem lexemes_layout (text : List Char) (ls : List Lexeme) (h : lexemes text = .ok ls) :
    Divides text ls ∧
    (∀ text', LaidOut (slices text ls) text' →
      ∃ ls', lexemes text' = .ok ls' ∧ ls'.map Lexeme.token = ls.map Lexeme.token) ∧
    ∀ source source' : String, body source.toList = text →
      LaidOut (slices text ls) source'.toList ∨ LaidOut (slices text ls) (body source'.toList) →
        ∀ e, parse source' = .ok e ↔ parse source = .ok e := by
  have hread := readFrom_slices h
  have hrelex : ∀ text', LaidOut (slices text ls) text' →
      ∃ ls', lexemes text' = .ok ls' ∧ tokens ls' = tokens ls :=
    fun text' hlaid => (hlaid.lexes hread).exists_lexemesFrom 0
  refine ⟨divides_of_lexemes h, hrelex, fun source source' hsource hlaid e => ?_⟩
  -- A formula may be laid out itself, or only behind its equality sign.
  have hbody : LaidOut (slices text ls) (body source'.toList) := by
    refine hlaid.elim (fun hlaid => hlaid.body fun slice hm => ?_) id
    obtain ⟨lexeme, hmem, rfl⟩ := List.mem_map.mp hm
    exact ⟨lexeme.token, (Reached.start.isSlice_of_mem h hmem).readFrom_slice⟩
  obtain ⟨ls', hls', htokens⟩ := hrelex _ hbody
  subst hsource
  exact parse_congr h hls' htokens e

/-- The lexemes of `.5e1*t`. -/
def fiveTimes : List Lexeme :=
  [⟨.number (Binary32.ofNat 5), 0, 4⟩, ⟨.star, 4, 5⟩, ⟨.name "t", 5, 6⟩]

/-- A formula without layout, and the same tokens with much of it. -/
theorem lexemes_layout_fiveTimes :
    lexemes ".5e1*t".toList = .ok fiveTimes ∧
      LaidOut (slices ".5e1*t".toList fiveTimes) "\t.5e1 \n*\r\x0ct ".toList ∧
      parse "\t.5e1 \n*\r\x0ct " = .ok (.mul (.const (Binary32.ofNat 5)) .time) := by
  have hl : lexemes ".5e1*t".toList = .ok fiveTimes := by
    have hnumber : nextToken '.' ['5', 'e', '1', '*', 't'] =
        .ok (.number (Binary32.ofNat 5), 3) := by rfl
    have hstar : nextToken '*' ['t'] = .ok (.star, 0) := by rfl
    have htime : nextToken 't' [] = .ok (.name "t", 0) := by rfl
    simp [lexemes, lexemesFrom, hnumber, hstar, htime, isLayout, fiveTimes]
  have hslices : slices ".5e1*t".toList fiveTimes = [['.', '5', 'e', '1'], ['*'], ['t']] := by
    rfl
  have hgap : ∀ {c : Char} {rest : List Char}, isLayout c = true →
      ∀ c' ∈ (c :: rest).head?, isLayout c' = true := by
    rintro c rest hc c' ⟨⟩
    exact hc
  have hlaid : LaidOut (slices ".5e1*t".toList fiveTimes) "\t.5e1 \n*\r\x0ct ".toList := by
    rw [hslices]
    refine .layout rfl (.slice (hgap rfl) (.layout rfl (.layout rfl (.slice (hgap rfl) ?_))))
    exact .layout rfl (.layout rfl (.slice (hgap rfl) (.layout rfl .nil)))
  have hbody : body ".5e1*t".toList = ".5e1*t".toList := by decide
  have hparse : parse ".5e1*t" = .ok (.mul (.const (Binary32.ofNat 5)) .time) := by
    refine parse_eq_ok_iff.mpr ⟨fiveTimes, by rw [hbody, hl], ?_⟩
    exact ⟨.sum (.product (.operand (.number (Binary32.ofNat 5)))
      (.times (.operand .time) .noFactor)) .noTerm, rfl, rfl⟩
  exact ⟨hl, hlaid, ((lexemes_layout _ _ hl).2.2 _ _ hbody (.inl hlaid) _).mpr hparse⟩

end Formula

end TimeSignal
