import TimeSignal.Proofs.Formula.Accepted
import TimeSignal.Proofs.Signal.Draws
import TimeSignal.Signal.Shader

/-!
# Shading-language text is read back

The text of a signal is a formula, and the formula is read as the signal, node by node: a sum or a
product stands in parentheses, and a constant is a numeral, with a minus sign in front that changes
the sign of the constant when it is read.  A marker holds a character that no token has, so a text
with a marker in it is refused.

## Main results

* `Signal.unsupported_eq`: how many markers the text of a signal has
* `Signal.unsupported_eq_zero_iff`: which signals have a text without markers
* `Formula.exists_derivation_shader`: the text of such a signal spells a derivation of the signal
* `Formula.parse_shader`: the texts without markers are the ones that are read back
-/

namespace TimeSignal

open Binary32 (finite shortest)

/-! ## Signals whose text has no marker -/

namespace Signal

/-- There is a marker for each noise leaf and for each constant that is not finite. -/
theorem unsupported_eq (e : Signal) : e.shader.unsupported = e.draws + e.nonFiniteConsts := by
  induction e with
  | time | noise => rfl
  | const value =>
    rw [shader, nonFiniteConsts_const, draws, Nat.zero_add]
    split <;> rfl
  | add l r ihl ihr =>
    simp only [shader, Shader.infixed, draws, nonFiniteConsts_add, ihl, ihr]
    omega
  | mul l r ihl ihr =>
    simp only [shader, Shader.infixed, draws, nonFiniteConsts_mul, ihl, ihr]
    omega
  | lerp x y s ihx ihy ihs =>
    simp only [shader, Shader.blend, draws, nonFiniteConsts_lerp, ihx, ihy, ihs]
    omega

theorem unsupported_eq_zero_iff {e : Signal} :
    e.shader.unsupported = 0 ↔ e.hasNoise = false ∧ e.HasFiniteConsts := by
  rw [unsupported_eq, Nat.add_eq_zero_iff, draws_eq_zero_iff, nonFiniteConsts_eq_zero_iff]

end Signal

theorem Shader.mem_infixed {c operator : Char} {l r : Shader}
    (hl : l.unsupported ≠ 0 → c ∈ l.chars) (hr : r.unsupported ≠ 0 → c ∈ r.chars)
    (h : (infixed operator l r).unsupported ≠ 0) : c ∈ (infixed operator l r).chars := by
  simp only [infixed, List.mem_append, List.mem_cons]
  have hsum : l.unsupported ≠ 0 ∨ r.unsupported ≠ 0 := by
    rw [← not_and_or, ← Nat.add_eq_zero_iff]
    exact h
  rcases hsum with h | h
  · simp [hl h]
  · simp [hr h]

/-- A marker shows in the text. -/
theorem Signal.mem_shader_of_unsupported {e : Signal} (h : e.shader.unsupported ≠ 0) :
    '<' ∈ e.shader.chars := by
  induction e with
  | time => exact absurd rfl h
  | noise => decide
  | const value =>
    unfold shader at h ⊢
    split at h
    · exact absurd rfl h
    · next hf =>
      rw [if_neg hf]
      decide
  | add l r ihl ihr | mul l r ihl ihr => exact Shader.mem_infixed ihl ihr h
  | lerp x y s ihx ihy ihs =>
    simp only [shader, Shader.blend, List.mem_append]
    by_cases hx : x.shader.unsupported = 0
    · by_cases hy : y.shader.unsupported = 0
      · have hs : s.shader.unsupported ≠ 0 := by
          intro hs
          exact h (by rw [shader, Shader.blend, hx, hy, hs])
        simp [ihs hs]
      · simp [ihy hy]
    · simp [ihx hx]

namespace Formula

/-! ## The text of a signal spells a derivation -/

theorem exists_style_constant (value : Binary32) :
    ∃ style : NumeralStyle, style.keepsPoint = false ∧ style.exponentSign ≠ .minus ∧
      Shader.constant value = value.text style := by
  unfold Shader.constant
  dsimp only
  split
  · exact ⟨.exponential, rfl, by decide, rfl⟩
  · exact ⟨.plain, rfl, by decide, rfl⟩

/-- The text of a finite constant is a numeral without sign, after a minus sign if it is
negative. -/
theorem exists_numeral_constant (negative : Bool) (rank : Fin Binary32.infinityRank) :
    ∃ n : Numeral, n.IsWritten ∧ n.negative = false ∧ n.toBinary32 = finite false rank ∧
      Shader.constant (finite negative rank) = (if negative then ['-'] else []) ++ n.toChars := by
  obtain ⟨style, hp, hs, hc⟩ := exists_style_constant (finite negative rank)
  -- The sign plays no part in the layout, so the text without it is that of the positive number.
  have hneg : (style.numeral false (shortest style.tie rank)).negative = false := by
    rw [style.numeral_eq]
  refine ⟨style.numeral false (shortest style.tie rank), style.isWritten_numeral _ _, hneg,
    Binary32.toBinary32_numeral_shortest style hp hs false rank, ?_⟩
  rw [hc, ← Numeral.toChars_signed hneg, ← style.numeral_eq]
  rfl

theorem spells_infixed (operator : Char) {token : Token} (ho : punctuation? operator = some token)
    {l r : Shader} {ls rs : List Token} (hl : Spells l.chars ls) (hr : Spells r.chars rs) :
    Spells (Shader.infixed operator l r).chars
      (.leftParen :: (ls ++ token :: (rs ++ [.rightParen]))) := by
  intro rest us hrest h
  -- From the end: what follows an operand is a blank or the closing parenthesis.
  have hclose : Lexes (')' :: rest) (.rightParen :: us) := Lexes.punctuation rfl h
  have hright := hr (separates_of_punctuation rfl rest) hclose
  have hsign := Lexes.punctuation ho (Lexes.layout (c := ' ') rfl hright)
  have hop := Lexes.layout (c := ' ') rfl hsign
  have hleft := hl (separates_of_layout rfl _) hop
  have hall := Lexes.punctuation (c := '(') rfl hleft
  simpa [Shader.infixed] using hall

theorem spells_blend {x y s : Shader} {xs ys ss : List Token} (hx : Spells x.chars xs)
    (hy : Spells y.chars ys) (hs : Spells s.chars ss) :
    Spells (Shader.blend x y s).chars (.name "lerp" :: .leftParen ::
      (xs ++ .comma :: (ys ++ .comma :: (ss ++ [.rightParen])))) := by
  intro rest us hrest h
  have hclose : Lexes (')' :: rest) (.rightParen :: us) := Lexes.punctuation rfl h
  have hweight := hs (separates_of_punctuation rfl rest) hclose
  have hcomma := Lexes.punctuation (c := ',') rfl (Lexes.layout (c := ' ') rfl hweight)
  have hstop := hy (separates_of_punctuation rfl _) hcomma
  have hcomma' := Lexes.punctuation (c := ',') rfl (Lexes.layout (c := ' ') rfl hstop)
  have hstart := hx (separates_of_punctuation rfl _) hcomma'
  have hopen := Lexes.punctuation (c := '(') rfl hstart
  -- The name ends at the parenthesis.
  have hname : ∀ d ∈ ['e', 'r', 'p'], isNameChar d = true := by
    intro d hd
    rw [List.mem_cons, List.mem_cons, List.mem_singleton] at hd
    rcases hd with rfl | rfl | rfl <;> rfl
  have hall := Lexes.name (c := 'l') rfl rfl hname (separates_of_punctuation rfl _) hopen
  simpa [Shader.blend] using hall

theorem exists_derivation_shader {e : Signal} (hn : e.hasNoise = false) (hc : e.HasFiniteConsts) :
    ∃ d : Derivation .signed, d.signal = e ∧ Spells e.shader.chars d.tokens := by
  induction e with
  | time => exact ⟨.operand .time, rfl, spells_letter rfl rfl⟩
  | noise => cases hn
  | const value =>
    have hf := Signal.hasFiniteConsts_const.mp hc
    cases value with
    | nan | infinite => cases hf
    | finite negative rank =>
      obtain ⟨n, hw, hneg, hv, hchars⟩ := exists_numeral_constant negative rank
      have hspell := spells_numeral hw hneg (by rw [hv]; rfl)
      rw [hv] at hspell
      rw [Signal.shader, if_pos hf]
      dsimp only
      rw [hchars]
      -- A minus sign in front of a number is read back into the constant.
      cases negative with
      | false => exact ⟨.operand (.number (finite false rank)), rfl, hspell⟩
      | true => exact ⟨.negative (.operand (.number (finite false rank))), rfl, hspell.negative⟩
  | add l r ihl ihr =>
    obtain ⟨hnl, hnr⟩ := Bool.or_eq_false_iff.mp hn
    obtain ⟨hcl, hcr⟩ := Signal.hasFiniteConsts_add.mp hc
    obtain ⟨dl, rfl, hl⟩ := ihl hnl hcl
    obtain ⟨dr, rfl, hr⟩ := ihr hnr hcr
    refine ⟨.operand (.group (.sum (.product dl .noFactor)
      (.plus (.product dr .noFactor) .noTerm))), rfl, ?_⟩
    simpa [Signal.shader, Derivation.tokens] using spells_infixed '+' rfl hl hr
  | mul l r ihl ihr =>
    obtain ⟨hnl, hnr⟩ := Bool.or_eq_false_iff.mp hn
    obtain ⟨hcl, hcr⟩ := Signal.hasFiniteConsts_mul.mp hc
    obtain ⟨dl, rfl, hl⟩ := ihl hnl hcl
    obtain ⟨dr, rfl, hr⟩ := ihr hnr hcr
    refine ⟨.operand (.group (.sum (.product dl (.times dr .noFactor)) .noTerm)), rfl, ?_⟩
    simpa [Signal.shader, Derivation.tokens] using spells_infixed '*' rfl hl hr
  | lerp x y s ihx ihy ihs =>
    obtain ⟨hnxy, hns⟩ := Bool.or_eq_false_iff.mp hn
    obtain ⟨hnx, hny⟩ := Bool.or_eq_false_iff.mp hnxy
    obtain ⟨hcx, hcy, hcs⟩ := Signal.hasFiniteConsts_lerp.mp hc
    obtain ⟨dx, rfl, hx⟩ := ihx hnx hcx
    obtain ⟨dy, rfl, hy⟩ := ihy hny hcy
    obtain ⟨ds, rfl, hs⟩ := ihs hns hcs
    let sum (d : Derivation .signed) : Derivation .sum := .sum (.product d .noFactor) .noTerm
    refine ⟨.operand (.lerp (sum dx) (sum dy) (sum ds)), rfl, ?_⟩
    simpa [Signal.shader, Derivation.tokens, sum] using spells_blend hx hy hs

/-! ## The text of a signal is its own body -/

theorem trim_eq_self {text : List Char} (hh : ∀ c ∈ text.head?, Text.isBlank c = false)
    (hl : ∀ c ∈ text.getLast?, Text.isBlank c = false) : Text.trim text = text := by
  have hd : ∀ l : List Char, (∀ c ∈ l.head?, Text.isBlank c = false) →
      l.dropWhile Text.isBlank = l := by
    intro l h
    cases l with
    | nil => rfl
    | cons c l => rw [List.dropWhile_cons, h c rfl, if_neg Bool.false_ne_true]
  rw [Text.trim, hd text hh, hd text.reverse (by rw [List.head?_reverse]; exact hl),
    List.reverse_reverse]

theorem body_eq_self {text : List Char}
    (hh : ∀ c ∈ text.head?, Text.isBlank c = false ∧ c ≠ '=')
    (hl : ∀ c ∈ text.getLast?, Text.isBlank c = false) : body text = text := by
  rw [body, trim_eq_self (fun c hc => (hh c hc).1) hl]
  split
  · exact absurd rfl (hh '=' rfl).2
  · rfl

theorem isBlank_of_isNumeralChar {c : Char} (h : Numeral.isNumeralChar c = true) :
    Text.isBlank c = false ∧ c ≠ '=' := by
  have htoken : isTokenChar c = true := by
    rw [isTokenChar, h]
    rfl
  exact isBlank_of_isTokenChar htoken

theorem isNumeralChar_of_mem_constant {value : Binary32} (hf : value.isFinite = true) {c : Char}
    (hc : c ∈ Shader.constant value) : Numeral.isNumeralChar c = true := by
  cases value with
  | nan | infinite => cases hf
  | finite negative rank =>
    obtain ⟨n, hw, -, -, hchars⟩ := exists_numeral_constant negative rank
    rw [hchars] at hc
    rcases List.mem_append.mp hc with hs | hn
    · split at hs
      · rw [List.mem_singleton.mp hs]
        rfl
      · cases hs
    · exact hw.isNumeralChar hn

theorem edges_of_eq {text : List Char} {first last : Char} (hh : text.head? = some first)
    (hl : text.getLast? = some last) (hfirst : Text.isBlank first = false ∧ first ≠ '=')
    (hlast : Text.isBlank last = false) :
    (∀ c ∈ text.head?, Text.isBlank c = false ∧ c ≠ '=') ∧
      ∀ c ∈ text.getLast?, Text.isBlank c = false := by
  rw [hh, hl]
  constructor
  · rintro c ⟨⟩
    exact hfirst
  · rintro c ⟨⟩
    exact hlast

theorem edges_shader (e : Signal) :
    (∀ c ∈ e.shader.chars.head?, Text.isBlank c = false ∧ c ≠ '=') ∧
      ∀ c ∈ e.shader.chars.getLast?, Text.isBlank c = false := by
  cases e with
  | time => exact edges_of_eq rfl rfl ⟨rfl, by decide⟩ rfl
  | noise => exact edges_of_eq rfl rfl ⟨rfl, by decide⟩ rfl
  | const value =>
    unfold Signal.shader
    split
    · next hf =>
      constructor
      · intro c hc
        exact isBlank_of_isNumeralChar (isNumeralChar_of_mem_constant hf (List.mem_of_head? hc))
      · intro c hc
        exact (isBlank_of_isNumeralChar
          (isNumeralChar_of_mem_constant hf (List.mem_of_getLast? hc))).1
    · exact edges_of_eq rfl rfl ⟨rfl, by decide⟩ rfl
  | add l r | mul l r => exact edges_of_eq rfl List.getLast?_concat ⟨rfl, by decide⟩ rfl
  | lerp x y s => exact edges_of_eq rfl List.getLast?_concat ⟨rfl, by decide⟩ rfl

theorem body_shader (e : Signal) : body e.shader.text.toList = e.shader.chars := by
  rw [Shader.text, String.toList_ofList]
  exact body_eq_self (edges_shader e).1 (edges_shader e).2

/-! ## Reading back -/

theorem parse_shader_of_valid {e : Signal} (hn : e.hasNoise = false) (hc : e.HasFiniteConsts) :
    parse e.shader.text = .ok e := by
  obtain ⟨d, rfl, hd⟩ := exists_derivation_shader hn hc
  -- The whole text is one signed operand, so it is a sum of one product of one factor.
  obtain ⟨ls, hl, ht⟩ := hd.lexes.exists_lexemesFrom 0
  refine parse_eq_ok_iff.mpr ⟨ls, ?_, .sum (.product d .noFactor) .noTerm, ?_, rfl⟩
  · rw [body_shader]
    exact hl
  · rw [ht]
    simp [Derivation.tokens]

theorem unsupported_eq_zero_of_parse {e e' : Signal} (h : parse e.shader.text = .ok e') :
    e.shader.unsupported = 0 := by
  obtain ⟨ls, hl, -⟩ := parse_eq_ok_iff.mp h
  rw [body_shader] at hl
  by_contra hne
  -- No token and no layout has the first character of a marker.
  have hc := (lexes_of_lexemesFrom hl).isTokenChar_of_mem (Signal.mem_shader_of_unsupported hne)
  revert hc
  decide

/-- **The text of a signal is read back exactly if it has no marker.**  That is, if the signal has
no noise and all its constants are finite; and then what is read is the signal itself. -/
theorem parse_shader (e : Signal) :
    ((∃ e', parse e.shader.text = .ok e') ↔ e.shader.isValid = true) ∧
      (e.shader.isValid = true ↔
        e.hasNoise = false ∧ ∀ value ∈ e.consts, value.isFinite = true) ∧
      (e.shader.isValid = true → parse e.shader.text = .ok e) := by
  have hvalid : e.shader.isValid = true ↔ e.hasNoise = false ∧ e.HasFiniteConsts := by
    rw [Shader.isValid, beq_iff_eq, Signal.unsupported_eq_zero_iff]
  have hback : e.shader.isValid = true → parse e.shader.text = .ok e := by
    intro h
    obtain ⟨hn, hc⟩ := hvalid.mp h
    exact parse_shader_of_valid hn hc
  refine ⟨⟨?_, fun h => ⟨e, hback h⟩⟩, hvalid, hback⟩
  rintro ⟨e', h⟩
  rw [Shader.isValid, beq_iff_eq]
  exact unsupported_eq_zero_of_parse h

/-- A signal of the negative zero, the largest number with a minus sign, and the smallest one. -/
def extremes : Signal :=
  .lerp (.const (Binary32.signedZero true))
    (.mul .time (.const (finite true ⟨0x7f7fffff, by decide⟩)))
    (.const (finite false ⟨1, by decide⟩))

theorem parse_shader_extremes :
    extremes.shader.isValid = true ∧ parse extremes.shader.text = .ok extremes := by
  have h : extremes.shader.isValid = true := by decide +kernel
  exact ⟨h, (parse_shader extremes).2.2 h⟩

end Formula

end TimeSignal
