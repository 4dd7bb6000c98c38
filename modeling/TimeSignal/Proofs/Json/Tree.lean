import TimeSignal.Json.Tree
import TimeSignal.Proofs.Json.Nesting
import TimeSignal.Proofs.Json.Number
import TimeSignal.Proofs.Json.Parser
import TimeSignal.Proofs.Poly.Value
import TimeSignal.Proofs.Signal.Constants

/-!
# Trees are read back from JSON

The value of a tree is read back node by node.  A node opens one level for its tag, and a second one
for its operands or its coefficients if it has more than one; so the levels that are left are always
as many as the value is deep.  The numbers of a tree survive because each of them does.

## Main results

* `Signal.ofJson_toJson`, `Poly.ofJson_toJson`: a tree with finite numbers is read back from its
  value if that is not deeper than the levels that may be opened
* `Json.ofJsonText_jsonText`: a tree with finite numbers is read back from its text if that does not
  nest too deep
-/

namespace TimeSignal

namespace Json

/-! ## The tokens of trees -/

/-- The value of a number can be read back: its digits do not start with a needless zero. -/
theorem isWritten_ofBinary32 (x : Binary32) : (ofBinary32 x).IsWritten := by
  intro token ht
  cases x with
  | finite negative rank =>
    obtain rfl := List.mem_singleton.mp ht
    refine ⟨numberStyle.isWritten_numeral _ _, numberStyle.whole_ne_zero_cons _ _ ?_⟩
    by_cases hrank : rank.val = 0
    · intro _
      rw [hrank]
      decide
    · exact fun hc => absurd hc (Binary32.coefficient_shortest_ne_zero _ hrank)
  | nan | infinite =>
    obtain rfl := List.mem_singleton.mp ht
    trivial

/-- The value of a finite number is a numeral that is read back. -/
theorem exists_ofBinary32_eq {x : Binary32} (h : x.isFinite = true) :
    ∃ numeral, ofBinary32 x = .number numeral ∧ toBinary32? (.number numeral) = some x := by
  have hread := toBinary32?_ofBinary32 h
  cases x with
  | finite negative rank => exact ⟨_, rfl, hread⟩
  | nan | infinite => cases h

/-- The values of finite numbers are read back in order. -/
theorem toNumbers_ofBinary32 {xs : List Binary32} (h : ∀ x ∈ xs, x.isFinite = true) :
    toNumbers? (xs.map ofBinary32) = some xs := by
  induction xs with
  | nil => rfl
  | cons x xs ih =>
    obtain ⟨hx, hxs⟩ := List.forall_mem_cons.mp h
    have hread := ih hxs
    unfold toNumbers? at hread ⊢
    rw [List.map_cons, List.mapM_cons, toBinary32?_ofBinary32 hx, hread]
    rfl

/-! ## Nodes -/

theorem isWritten_tagged {content : Value} (name : String) (h : content.IsWritten) :
    (tagged name content).IsWritten :=
  isWritten_object (List.forall_mem_singleton.mpr h)

theorem isWritten_operands {l r : Value} (hl : l.IsWritten) (hr : r.IsWritten) :
    (Value.array [l, r]).IsWritten :=
  isWritten_array (List.forall_mem_cons.mpr ⟨hl, List.forall_mem_singleton.mpr hr⟩)

theorem depth_tagged (name : String) (content : Value) :
    (tagged name content).depth = content.depth + 1 := by
  simp [tagged, Value.depth, Value.membersDepth]

theorem depth_operands (l r : Value) : (Value.array [l, r]).depth = max l.depth r.depth + 1 := by
  simp [Value.depth, Value.itemsDepth]

theorem depth_array_pos (items : List Value) : 0 < (Value.array items).depth := Nat.succ_pos _

end Json

namespace Signal

open Json (Value)

/-- **A signal with finite constants is read back from its value** if that is not deeper than the
levels that may be opened. -/
theorem ofJson_toJson (e : Signal) {levels : Nat} (hf : e.HasFiniteConsts)
    (hd : e.toJson.depth ≤ levels) : ofJson? levels e.toJson = some e := by
  induction e generalizing levels with
  | time => simp [toJson, Json.tag, ofJson?, ofTag?]
  | noise => simp [toJson, Json.tag, ofJson?, ofTag?]
  | const value =>
    obtain ⟨numeral, hvalue, hread⟩ := Json.exists_ofBinary32_eq (hasFiniteConsts_const.mp hf)
    rw [toJson, hvalue] at hd ⊢
    rw [Json.depth_tagged] at hd
    rcases levels with _ | _ | levels
    · omega
    · simp [Json.tagged, ofJson?, hread]
    · simp [Json.tagged, ofJson?, hread]
  | add l r ihl ihr =>
    obtain ⟨hl, hr⟩ := hasFiniteConsts_add.mp hf
    rw [toJson, Json.depth_tagged, Json.depth_operands] at hd
    obtain ⟨levels, rfl⟩ := Nat.exists_eq_add_of_le' (show 2 ≤ levels by omega)
    simp [toJson, Json.tagged, ofJson?, ihl hl (show _ ≤ levels by omega),
      ihr hr (show _ ≤ levels by omega)]
  | mul l r ihl ihr =>
    obtain ⟨hl, hr⟩ := hasFiniteConsts_mul.mp hf
    rw [toJson, Json.depth_tagged, Json.depth_operands] at hd
    obtain ⟨levels, rfl⟩ := Nat.exists_eq_add_of_le' (show 2 ≤ levels by omega)
    simp [toJson, Json.tagged, ofJson?, ihl hl (show _ ≤ levels by omega),
      ihr hr (show _ ≤ levels by omega)]
  | lerp x y s ihx ihy ihs =>
    obtain ⟨hx, hy, hs⟩ := hasFiniteConsts_lerp.mp hf
    rw [toJson, Json.depth_tagged] at hd
    simp only [Value.depth, Value.membersDepth] at hd
    obtain ⟨levels, rfl⟩ := Nat.exists_eq_add_of_le' (show 2 ≤ levels by omega)
    simp [toJson, Json.tagged, ofJson?, Json.field?, Json.keysReadable,
      ihx hx (show _ ≤ levels by omega), ihy hy (show _ ≤ levels by omega),
      ihs hs (show _ ≤ levels by omega)]

theorem isWritten_toJson (e : Signal) : e.toJson.IsWritten := by
  induction e with
  | time | noise => exact Json.isWritten_text _
  | const value => exact Json.isWritten_tagged _ (Json.isWritten_ofBinary32 value)
  | add l r ihl ihr | mul l r ihl ihr =>
    exact Json.isWritten_tagged _ (Json.isWritten_operands ihl ihr)
  | lerp x y s ihx ihy ihs =>
    refine Json.isWritten_tagged _ (Json.isWritten_object ?_)
    exact List.forall_mem_cons.mpr
      ⟨ihx, List.forall_mem_cons.mpr ⟨ihy, List.forall_mem_singleton.mpr ihs⟩⟩

end Signal

namespace Poly

open Json (Value)

theorem degreeTag_ne (n : Nat) :
    "Degree" ++ toString n ≠ "Add" ∧ "Degree" ++ toString n ≠ "Multiply" := by
  constructor
  · intro h
    have := congrArg String.toList h
    simp at this
  · intro h
    have := congrArg String.toList h
    simp at this

/-- A list of coefficients is read back at the level of a node. -/
theorem ofJson_coefficients {p : Cubic} (hf : ∀ a ∈ p.coeffs, a.isFinite = true)
    (hlen : 2 ≤ p.coeffs.length) (levels : Nat) :
    ofJson? (levels + 2) (Json.tagged ("Degree" ++ toString p.degree)
      (.array (p.coeffs.map Json.ofBinary32))) = some (concrete p) := by
  have hlength : (p.coeffs.map Json.ofBinary32).length = p.coeffs.length := List.length_map _
  have hread : ofCoefficientJson? ("Degree" ++ toString p.degree)
      (p.coeffs.map Json.ofBinary32) = some (concrete p) := by
    unfold ofCoefficientJson?
    rw [hlength, if_pos ⟨hlen, rfl⟩, Json.toNumbers_ofBinary32 hf, Option.bind_some,
      ofCoefficients?, Cubic.ofList?, dif_pos ⟨p.length_pos, p.length_le⟩]
    rfl
  obtain ⟨hadd, hmul⟩ := degreeTag_ne p.degree
  rw [Json.tagged, ofJson?.eq_def]
  dsimp only
  split
  · next l r hitems =>
    rw [if_neg (not_or.mpr ⟨hadd, hmul⟩), ← hitems, hread]
  · exact hread

/-- **A polynomial tree with finite coefficients is read back from its value** if that is not deeper
than the levels that may be opened. -/
theorem ofJson_toJson (p : Poly) {levels : Nat} (hf : p.HasFiniteCoeffs)
    (hd : p.toJson.depth ≤ levels) : ofJson? levels p.toJson = some p := by
  induction p generalizing levels with
  | noise => simp [toJson, Json.tag, ofJson?, ofTag?]
  | concrete p =>
    obtain ⟨_ | ⟨a, _ | ⟨b, rest⟩⟩, hpos, hle⟩ := p
    · exact absurd hpos (Nat.lt_irrefl 0)
    · -- A polynomial of degree zero is written as its only coefficient.
      obtain ⟨numeral, hvalue, hread⟩ := Json.exists_ofBinary32_eq (hf a List.mem_cons_self)
      have htag : "Degree" ++ toString (0 : Nat) = "Degree0" := rfl
      rw [toJson, cubicJson, Cubic.degree] at hd ⊢
      dsimp only [List.length_singleton] at hd ⊢
      rw [hvalue] at hd ⊢
      rw [Json.depth_tagged] at hd
      rw [htag]
      rcases levels with _ | _ | levels
      · omega
      · simp [Json.tagged, ofJson?, ofNumberJson?, hread, Cubic.constant]
      · simp [Json.tagged, ofJson?, ofNumberJson?, hread, Cubic.constant]
    · rw [toJson, Json.depth_tagged, cubicJson] at hd
      have hdeep := Json.depth_array_pos ((a :: b :: rest).map Json.ofBinary32)
      dsimp only at hd
      obtain ⟨levels, rfl⟩ := Nat.exists_eq_add_of_le' (show 2 ≤ levels by omega)
      exact ofJson_coefficients (p := ⟨a :: b :: rest, hpos, hle⟩) hf (by simp) levels
  | add l r ihl ihr =>
    rw [toJson, Json.depth_tagged, Json.depth_operands] at hd
    obtain ⟨levels, rfl⟩ := Nat.exists_eq_add_of_le' (show 2 ≤ levels by omega)
    simp [toJson, Json.tagged, ofJson?, ihl hf.1 (show _ ≤ levels by omega),
      ihr hf.2 (show _ ≤ levels by omega)]
  | mul l r ihl ihr =>
    rw [toJson, Json.depth_tagged, Json.depth_operands] at hd
    obtain ⟨levels, rfl⟩ := Nat.exists_eq_add_of_le' (show 2 ≤ levels by omega)
    simp [toJson, Json.tagged, ofJson?, ihl hf.1 (show _ ≤ levels by omega),
      ihr hf.2 (show _ ≤ levels by omega)]

theorem isWritten_toJson (p : Poly) : p.toJson.IsWritten := by
  induction p with
  | noise => exact Json.isWritten_text _
  | concrete p =>
    refine Json.isWritten_tagged _ ?_
    unfold cubicJson
    split
    · exact Json.isWritten_ofBinary32 _
    · refine Json.isWritten_array fun item hitem => ?_
      obtain ⟨a, -, rfl⟩ := List.mem_map.mp hitem
      exact Json.isWritten_ofBinary32 a
  | add l r ihl ihr | mul l r ihl ihr =>
    exact Json.isWritten_tagged _ (Json.isWritten_operands ihl ihr)

end Poly

/-! ## Trees as text -/

theorem Signal.ofJsonText_of_nesting_le {e : Signal} (hf : e.HasFiniteConsts)
    (hn : Json.nesting e.jsonText ≤ Json.maxLevels) : ofJsonText? e.jsonText = some e := by
  have hwritten := e.isWritten_toJson
  rw [jsonText, Json.nesting_render hwritten] at hn
  rw [ofJsonText?, jsonText, Json.parse_render hwritten, Option.bind_some]
  exact e.ofJson_toJson hf hn

theorem Poly.ofJsonText_of_nesting_le {p : Poly} (hf : p.HasFiniteCoeffs)
    (hn : Json.nesting p.jsonText ≤ Json.maxLevels) : ofJsonText? p.jsonText = some p := by
  have hwritten := p.isWritten_toJson
  rw [jsonText, Json.nesting_render hwritten] at hn
  rw [ofJsonText?, jsonText, Json.parse_render hwritten, Option.bind_some]
  exact p.ofJson_toJson hf hn

namespace Json

/-- **JSON is a faithful store of both kinds of trees.**  A tree whose numbers are finite and whose
text opens at most 127 levels is read back from the text, with the same numbers. -/
theorem ofJsonText_jsonText :
    (∀ e : Signal, e.HasFiniteConsts → nesting e.jsonText ≤ 127 →
      Signal.ofJsonText? e.jsonText = some e) ∧
    (∀ p : Poly, p.HasFiniteCoeffs → nesting p.jsonText ≤ 127 →
      Poly.ofJsonText? p.jsonText = some p) :=
  ⟨fun _ => Signal.ofJsonText_of_nesting_le, fun _ => Poly.ofJsonText_of_nesting_le⟩

/-- A blend of the time and of two constants: negative zero, and a number whose shortest decimal,
`7.038531e-26`, is next to a midpoint. -/
def delicateBlend : Signal :=
  .lerp .time (.const (.finite false ⟨0x15ae43fd, by decide⟩))
    (.mul (.const (.signedZero true)) .noise)

/-- A sum of noise and a polynomial with two coefficients: the largest subnormal number with a minus
sign, and the largest power of two. -/
def wideSum : Poly :=
  .add (.concrete ⟨[.finite true ⟨0x007fffff, by decide⟩, .finite false ⟨0x7f000000, by decide⟩],
    by decide, by decide⟩) .noise

theorem ofJsonText_jsonText_delicate :
    (delicateBlend.HasFiniteConsts ∧ nesting delicateBlend.jsonText ≤ 127 ∧
      Signal.ofJsonText? delicateBlend.jsonText = some delicateBlend) ∧
    (wideSum.HasFiniteCoeffs ∧ nesting wideSum.jsonText ≤ 127 ∧
      Poly.ofJsonText? wideSum.jsonText = some wideSum) := by
  have hblend : delicateBlend.HasFiniteConsts := by
    simp [delicateBlend, Binary32.signedZero, Binary32.isFinite]
  have hsum : wideSum.HasFiniteCoeffs := by decide
  have hblendNesting : nesting delicateBlend.jsonText ≤ 127 := by
    rw [Signal.jsonText, nesting_render delicateBlend.isWritten_toJson]
    decide +kernel
  have hsumNesting : nesting wideSum.jsonText ≤ 127 := by
    rw [Poly.jsonText, nesting_render wideSum.isWritten_toJson]
    decide +kernel
  exact ⟨⟨hblend, hblendNesting, ofJsonText_jsonText.1 _ hblend hblendNesting⟩,
    ⟨hsum, hsumNesting, ofJsonText_jsonText.2 _ hsum hsumNesting⟩⟩

end Json

end TimeSignal
