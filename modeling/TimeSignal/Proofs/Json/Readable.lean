import TimeSignal.Proofs.Json.Tree

/-!
# Which written trees can be read

The text of a tree is always a JSON text, but not always one of a tree.  Reading opens one level for
the tag of a node and a second one for its operands or its coefficients, and gives both back behind
the node; so it needs as many levels as the tree nests, and a tree that nests too deep is refused on
the way down.  A number that is not finite is written as `null`, which no number is read from.
There is no other reason for a refusal, and what is read is the tree that was written.

## Main definitions

* `Signal.nest`, `Poly.nest`: the levels that the text of a tree opens

## Main results

* `Signal.nesting_jsonText`, `Poly.nesting_jsonText`: the text of a tree nests as deep as the tree
* `Signal.of_ofJson_toJson`, `Poly.of_ofJson_toJson`: what is read has finite numbers, and nests no
  deeper than the levels that may be opened
* `Json.ofJsonText_jsonText_eq_some_iff`: the trees that can be read back from their text
-/

namespace TimeSignal

namespace Json

/-! ## Numbers -/

theorem isFinite_of_toBinary32 {x y : Binary32} (h : toBinary32? (ofBinary32 x) = some y) :
    x.isFinite = true := by
  cases x with
  | finite => rfl
  | nan | infinite => cases h

theorem isFinite_of_toNumbers {xs ys : List Binary32}
    (h : toNumbers? (xs.map ofBinary32) = some ys) : ∀ x ∈ xs, x.isFinite = true := by
  induction xs generalizing ys with
  | nil => exact fun _ hx => nomatch hx
  | cons x xs ih =>
    rw [toNumbers?, List.map_cons, List.mapM_cons] at h
    obtain ⟨y, hy, h⟩ := Option.bind_eq_some_iff.mp h
    obtain ⟨zs, hzs, -⟩ := Option.bind_eq_some_iff.mp h
    exact List.forall_mem_cons.mpr ⟨isFinite_of_toBinary32 hy, ih hzs⟩

end Json

namespace Signal

open Json (Value)

/-! ## Signals -/

/-- The levels that the text of a signal opens: one for the tag of a node that is not a mere tag,
and one for its operands. -/
def nest : Signal → Nat
  | time | noise => 0
  | const _ => 1
  | add l r | mul l r => 2 + max l.nest r.nest
  | lerp x y s => 2 + max x.nest (max y.nest s.nest)

theorem depth_toJson (e : Signal) : e.toJson.depth = e.nest := by
  induction e with
  | time | noise => rfl
  | const value => cases value <;> rfl
  | add l r ihl ihr | mul l r ihl ihr =>
    rw [toJson, Json.depth_tagged, Json.depth_operands, ihl, ihr, nest]
    omega
  | lerp x y s ihx ihy ihs =>
    rw [toJson, Json.depth_tagged, nest]
    simp only [Value.depth, Value.membersDepth, ihx, ihy, ihs]
    omega

theorem nesting_jsonText (e : Signal) : Json.nesting e.jsonText = e.nest := by
  rw [jsonText, Json.nesting_render e.isWritten_toJson, depth_toJson]

/-- A tag with `null` is a signal without parts. -/
theorem ofTag_of_ofJson_null {levels : Nat} {name : String} {e : Signal}
    (h : ofJson? levels (Json.tagged name .null) = some e) : ofTag? name = some e := by
  rcases levels with _ | _ | k
  · simp [Json.tagged, ofJson?] at h
  · simpa [Json.tagged, ofJson?] using h
  · simpa [Json.tagged, ofJson?] using h

/-- Two operands are read at two levels less. -/
theorem exists_of_ofJson_operands {levels : Nat} {name : String} {l r : Value} {e : Signal}
    (h : ofJson? levels (Json.tagged name (.array [l, r])) = some e) :
    ∃ k a b, levels = k + 2 ∧ ofJson? k l = some a ∧ ofJson? k r = some b := by
  rcases levels with _ | _ | k
  · simp [Json.tagged, ofJson?] at h
  · simp [Json.tagged, ofJson?, Json.toBinary32?] at h
  · rw [Json.tagged, ofJson?] at h
    obtain ⟨a, ha, h⟩ := Option.bind_eq_some_iff.mp h
    obtain ⟨b, hb, -⟩ := Option.bind_eq_some_iff.mp h
    exact ⟨k, a, b, rfl, ha, hb⟩

/-- The three operands of a blend are read at two levels less. -/
theorem exists_of_ofJson_blend {levels : Nat} {x y s : Value} {e : Signal}
    (h : ofJson? levels
      (Json.tagged "Lerp" (.object [(some "x", x), (some "y", y), (some "s", s)])) = some e) :
    ∃ k a b c, levels = k + 2 ∧ ofJson? k x = some a ∧ ofJson? k y = some b ∧
      ofJson? k s = some c := by
  rcases levels with _ | _ | k
  · simp [Json.tagged, ofJson?] at h
  · simp [Json.tagged, ofJson?] at h
  · rw [Json.tagged, ofJson?] at h
    -- Each of the three keys occurs once, so it is found with its own value.
    have hx : Json.field? "x" [(some "x", x), (some "y", y), (some "s", s)] = some x := by
      simp [Json.field?]
    have hy : Json.field? "y" [(some "x", x), (some "y", y), (some "s", s)] = some y := by
      simp [Json.field?]
    have hs : Json.field? "s" [(some "x", x), (some "y", y), (some "s", s)] = some s := by
      simp [Json.field?]
    simp only [hx, hy, hs, Option.bind_eq_bind, Option.bind_some] at h
    obtain ⟨a, ha, h⟩ := Option.bind_eq_some_iff.mp h
    obtain ⟨b, hb, h⟩ := Option.bind_eq_some_iff.mp h
    obtain ⟨c, hc, -⟩ := Option.bind_eq_some_iff.mp h
    exact ⟨k, a, b, c, rfl, ha, hb, hc⟩

/-- A signal that can be read from its value has finite constants, and nests no deeper than the
levels that may be opened. -/
theorem of_ofJson_toJson {levels : Nat} {e read : Signal}
    (h : ofJson? levels e.toJson = some read) : e.HasFiniteConsts ∧ e.nest ≤ levels := by
  induction e generalizing levels read with
  | time => exact ⟨hasFiniteConsts_time, Nat.zero_le _⟩
  | noise => exact ⟨hasFiniteConsts_noise, Nat.zero_le _⟩
  | const value =>
    rw [hasFiniteConsts_const, nest]
    cases value with
    | nan | infinite =>
      have htag : ofTag? "Literal" = none := by simp [ofTag?]
      cases htag.symm.trans (ofTag_of_ofJson_null h)
    | finite negative rank =>
      refine ⟨rfl, ?_⟩
      rcases levels with _ | k
      · simp [toJson, Json.tagged, ofJson?] at h
      · exact Nat.succ_le_succ (Nat.zero_le k)
  | add l r ihl ihr | mul l r ihl ihr =>
    obtain ⟨k, a, b, rfl, ha, hb⟩ := exists_of_ofJson_operands h
    obtain ⟨hl, hkl⟩ := ihl ha
    obtain ⟨hr, hkr⟩ := ihr hb
    exact ⟨by simp [hl, hr], by rw [nest]; omega⟩
  | lerp x y s ihx ihy ihs =>
    obtain ⟨k, a, b, c, rfl, ha, hb, hc⟩ := exists_of_ofJson_blend h
    obtain ⟨hx, hkx⟩ := ihx ha
    obtain ⟨hy, hky⟩ := ihy hb
    obtain ⟨hs, hks⟩ := ihs hc
    exact ⟨hasFiniteConsts_lerp.mpr ⟨hx, hy, hs⟩, by rw [nest]; omega⟩

end Signal

namespace Poly

open Json (Value)

/-! ## Polynomial trees -/

/-- The levels that the text of a polynomial tree opens: one for the tag of a node that is not a
mere tag, and one for its operands, or for its coefficients if it has more than one. -/
def nest : Poly → Nat
  | noise => 0
  | concrete p => if p.degree = 0 then 1 else 2
  | add l r | mul l r => 2 + max l.nest r.nest

theorem itemsDepth_ofBinary32 (xs : List Binary32) :
    Value.itemsDepth (xs.map Json.ofBinary32) = 0 := by
  induction xs with
  | nil => rfl
  | cons x xs ih =>
    have hx : (Json.ofBinary32 x).depth = 0 := by cases x <;> rfl
    rw [List.map_cons, Value.itemsDepth, hx, ih, Nat.max_self]

theorem depth_cubicJson (p : Cubic) : (cubicJson p).depth = if p.degree = 0 then 0 else 1 := by
  obtain ⟨_ | ⟨a, _ | ⟨b, rest⟩⟩, hpos, hle⟩ := p
  · exact absurd hpos (Nat.lt_irrefl 0)
  · cases a <;> rfl
  · have hitems := itemsDepth_ofBinary32 (a :: b :: rest)
    simpa [cubicJson, Value.depth, Cubic.degree] using hitems

theorem depth_toJson (p : Poly) : p.toJson.depth = p.nest := by
  induction p with
  | noise => rfl
  | concrete p =>
    rw [toJson, Json.depth_tagged, depth_cubicJson, nest]
    split <;> rfl
  | add l r ihl ihr | mul l r ihl ihr =>
    rw [toJson, Json.depth_tagged, Json.depth_operands, ihl, ihr, nest]
    omega

theorem nesting_jsonText (p : Poly) : Json.nesting p.jsonText = p.nest := by
  rw [jsonText, Json.nesting_render p.isWritten_toJson, depth_toJson]

/-- Two operands are read at two levels less. -/
theorem exists_of_ofJson_operands {levels : Nat} {name : String} {l r : Value} {p : Poly}
    (hname : name = "Add" ∨ name = "Multiply")
    (h : ofJson? levels (Json.tagged name (.array [l, r])) = some p) :
    ∃ k a b, levels = k + 2 ∧ ofJson? k l = some a ∧ ofJson? k r = some b := by
  rcases levels with _ | _ | k
  · simp [Json.tagged, ofJson?] at h
  · simp [Json.tagged, ofJson?, ofNumberJson?, Json.toBinary32?] at h
  · rw [Json.tagged, ofJson?, if_pos hname] at h
    obtain ⟨a, ha, h⟩ := Option.bind_eq_some_iff.mp h
    obtain ⟨b, hb, -⟩ := Option.bind_eq_some_iff.mp h
    exact ⟨k, a, b, rfl, ha, hb⟩

/-- A tag with `null` is a tree without parts. -/
theorem ofTag_of_ofJson_null {levels : Nat} {name : String} {p : Poly}
    (h : ofJson? levels (Json.tagged name .null) = some p) : ofTag? name = some p := by
  rcases levels with _ | _ | k
  · simp [Json.tagged, ofJson?] at h
  · simpa [Json.tagged, ofJson?] using h
  · simpa [Json.tagged, ofJson?] using h

theorem ofTag_degreeTag (n : Nat) : ofTag? ("Degree" ++ toString n) = none := by
  refine if_neg fun h => ?_
  have := congrArg String.toList h
  simp at this

/-- A list of coefficients that can be read has finite coefficients, and takes two levels. -/
theorem of_ofJson_coefficients {levels : Nat} {p : Cubic} {q : Poly}
    (h : ofJson? levels (Json.tagged ("Degree" ++ toString p.degree)
      (.array (p.coeffs.map Json.ofBinary32))) = some q) :
    (∀ a ∈ p.coeffs, a.isFinite = true) ∧ 2 ≤ levels := by
  rcases levels with _ | _ | k
  · simp [Json.tagged, ofJson?] at h
  · simp [Json.tagged, ofJson?, ofNumberJson?, Json.toBinary32?] at h
  · refine ⟨?_, Nat.le_add_left 2 k⟩
    obtain ⟨hadd, hmul⟩ := degreeTag_ne p.degree
    -- Whether there are two coefficients or another number of them, no operands are read.
    have hread : ofCoefficientJson? ("Degree" ++ toString p.degree)
        (p.coeffs.map Json.ofBinary32) = some q := by
      rw [Json.tagged, ofJson?.eq_def] at h
      dsimp only at h
      split at h
      · next l r hitems => rwa [if_neg (not_or.mpr ⟨hadd, hmul⟩), ← hitems] at h
      · exact h
    rw [ofCoefficientJson?] at hread
    split at hread
    · obtain ⟨ys, hys, -⟩ := Option.bind_eq_some_iff.mp hread
      exact Json.isFinite_of_toNumbers hys
    · cases hread

/-- A polynomial tree that can be read from its value has finite coefficients, and nests no deeper
than the levels that may be opened. -/
theorem of_ofJson_toJson {levels : Nat} {p read : Poly}
    (h : ofJson? levels p.toJson = some read) : p.HasFiniteCoeffs ∧ p.nest ≤ levels := by
  induction p generalizing levels read with
  | noise => exact ⟨trivial, Nat.zero_le _⟩
  | concrete p =>
    obtain ⟨_ | ⟨a, _ | ⟨b, rest⟩⟩, hpos, hle⟩ := p
    · exact absurd hpos (Nat.lt_irrefl 0)
    · cases a with
      | nan | infinite => cases (ofTag_degreeTag 0).symm.trans (ofTag_of_ofJson_null h)
      | finite negative rank =>
        refine ⟨List.forall_mem_singleton.mpr rfl, ?_⟩
        rcases levels with _ | k
        · simp [toJson, Json.tagged, ofJson?] at h
        · exact Nat.succ_le_succ (Nat.zero_le k)
    · obtain ⟨hf, hlevels⟩ := of_ofJson_coefficients (p := ⟨a :: b :: rest, hpos, hle⟩) h
      exact ⟨hf, by simpa [nest, Cubic.degree] using hlevels⟩
  | add l r ihl ihr | mul l r ihl ihr =>
    obtain ⟨k, a, b, rfl, ha, hb⟩ := exists_of_ofJson_operands (by simp) h
    obtain ⟨hl, hkl⟩ := ihl ha
    obtain ⟨hr, hkr⟩ := ihr hb
    exact ⟨⟨hl, hr⟩, by rw [nest]; omega⟩

end Poly

/-! ## Trees as text -/

theorem Signal.of_ofJsonText {e read : Signal} (h : ofJsonText? e.jsonText = some read) :
    e.HasFiniteConsts ∧ e.nest ≤ Json.maxLevels := by
  rw [ofJsonText?, jsonText, Json.parse_render e.isWritten_toJson, Option.bind_some] at h
  exact of_ofJson_toJson h

theorem Poly.of_ofJsonText {p read : Poly} (h : ofJsonText? p.jsonText = some read) :
    p.HasFiniteCoeffs ∧ p.nest ≤ Json.maxLevels := by
  rw [ofJsonText?, jsonText, Json.parse_render p.isWritten_toJson, Option.bind_some] at h
  exact of_ofJson_toJson h

namespace Json

/-- If what is written can be read under a condition, and nothing is read without it, then what is
read is what was written. -/
theorem eq_some_iff_of_reads {α : Type} {result : Option α} {written : α} {condition : Prop}
    (hwritten : condition → result = some written)
    (hread : ∀ read, result = some read → condition) (read : α) :
    result = some read ↔ condition ∧ read = written := by
  constructor
  · intro h
    have hcondition := hread read h
    exact ⟨hcondition, Option.some.inj (h.symm.trans (hwritten hcondition))⟩
  · rintro ⟨hcondition, rfl⟩
    exact hwritten hcondition

/-- **The trees that can be read back from their text** are those with finite numbers that nest at
most 127 levels deep, and what is read is the tree that was written. -/
theorem ofJsonText_jsonText_eq_some_iff :
    (∀ e read : Signal, Signal.ofJsonText? e.jsonText = some read ↔
      (e.HasFiniteConsts ∧ e.nest ≤ 127) ∧ read = e) ∧
    (∀ p read : Poly, Poly.ofJsonText? p.jsonText = some read ↔
      (p.HasFiniteCoeffs ∧ p.nest ≤ 127) ∧ read = p) := by
  constructor
  · intro e
    refine eq_some_iff_of_reads (fun h => ?_) fun read => Signal.of_ofJsonText
    exact Signal.ofJsonText_of_nesting_le h.1 (e.nesting_jsonText.trans_le h.2)
  · intro p
    refine eq_some_iff_of_reads (fun h => ?_) fun read => Poly.of_ofJsonText
    exact Poly.ofJsonText_of_nesting_le h.1 (p.nesting_jsonText.trans_le h.2)

/-- A constant in a given number of sums, each of them with the time on its right. -/
def sumsAround (value : Binary32) : Nat → Signal
  | 0 => .const value
  | n + 1 => .add (sumsAround value n) .time

theorem nest_sumsAround (value : Binary32) (n : Nat) : (sumsAround value n).nest = 2 * n + 1 := by
  induction n with
  | zero => rfl
  | succ n ih =>
    rw [sumsAround, Signal.nest, ih, Signal.nest]
    omega

theorem hasFiniteConsts_sumsAround (value : Binary32) (n : Nat) :
    (sumsAround value n).HasFiniteConsts ↔ value.isFinite = true := by
  induction n with
  | zero => exact Signal.hasFiniteConsts_const
  | succ n ih => simp [sumsAround, ih]

/-- Three coefficients, of which the last is an infinity. -/
def unreadableQuadratic : Cubic :=
  ⟨[.signedZero true, .half, .infinite false], by decide, by decide⟩

/-- A constant in 63 sums takes all the levels, in 64 sums there is none for it; an infinite
coefficient is refused however many levels there are. -/
theorem ofJsonText_jsonText_boundary :
    Signal.ofJsonText? (sumsAround .one 63).jsonText = some (sumsAround .one 63) ∧
      Signal.ofJsonText? (sumsAround .one 64).jsonText = none ∧
      Poly.ofJsonText? (Poly.concrete unreadableQuadratic).jsonText = none := by
  refine ⟨?_, ?_, ?_⟩
  · refine (ofJsonText_jsonText_eq_some_iff.1 _ _).mpr ⟨⟨?_, ?_⟩, rfl⟩
    · exact (hasFiniteConsts_sumsAround _ _).mpr rfl
    · exact (nest_sumsAround _ _).le
  · refine Option.eq_none_iff_forall_ne_some.mpr fun read hread => ?_
    obtain ⟨⟨-, hn⟩, -⟩ := (ofJsonText_jsonText_eq_some_iff.1 _ _).mp hread
    rw [nest_sumsAround] at hn
    omega
  · refine Option.eq_none_iff_forall_ne_some.mpr fun read hread => ?_
    obtain ⟨⟨hf, -⟩, -⟩ := (ofJsonText_jsonText_eq_some_iff.2 _ _).mp hread
    exact absurd hf (by decide)

end Json

end TimeSignal
