import TimeSignal.Proofs.Sampler.Batch
import Mathlib.Tactic.Ring

/-!
# Which draws reach which entry of a list of times

Sampling a list of times takes the draws of one source group by group, and within a group noise
leaf by noise leaf, four lanes at a time; the times behind the last full group take theirs one time
after the other.  So every entry has its own draws, whose numbers depend on its place and on the
length of the list, and its value is that of an evaluation on these draws alone.

A buffer is filled in place by writes that follow one another from its first slot to its last.  The
slots hold the values of the list in the end, and a buffer of another length stays as it is.

## Main definitions

* `Sampler.drawNumber`: the number of a draw, by the place of the entry that it reaches
* `Sampler.Filling`, `Sampler.fill`: a buffer that is filled in place, and the loop that fills it

## Main results

* `Sampler.sampleAll_snd`: a list of times draws once for each time and noise leaf
* `Sampler.getElem?_sampleAll`: the value of one entry
* `Sampler.fills`: the writes of the loop leave the values of the list, one in each slot
* `Sampler.sampleInto_layout`: what a buffer and a source hold after sampling into the buffer
-/

namespace TimeSignal

namespace Sampler

variable {σ τ : Type} [DrawSource σ] [DrawSource τ]

/-! ## How often a list of times draws -/

theorem sampleAll_snd (s : Sampler) (ts : List Binary32) (source : σ) :
    (sampleAll s ts source).2 = afterDraws (s.draws * ts.length) source := by
  induction ts using group_induction generalizing source with
  | nil => rfl
  | single t rest hr ih =>
    rw [sampleAll_single s hr]
    simp only
    rw [ih, sample_snd, ← afterDraws_add, List.length_cons, Nat.mul_succ, Nat.add_comm]
  | group a b c d rest ih =>
    rw [sampleAll_group]
    simp only
    rw [ih, sample4_snd, ← afterDraws_add]
    congr 1
    simp only [List.length_cons]
    ring

/-! ## The draws of one entry -/

/-- The number of the `k`-th draw for entry `i` of `n` times, when each time takes `r` draws.  A full
group takes its draws leaf by leaf, one for each of its entries at a time. -/
def drawNumber (r n i k : Nat) : Nat :=
  if i < 4 * (n / 4) then 4 * r * (i / 4) + 4 * k + i % 4
  else 4 * r * (n / 4) + r * (i - 4 * (n / 4)) + k

theorem drawNumber_group {r n g l k : Nat} (hg : g < n / 4) (hl : l < 4) :
    drawNumber r n (4 * g + l) k = 4 * r * g + 4 * k + l := by
  have hdiv : (4 * g + l) / 4 = g := by omega
  have hmod : (4 * g + l) % 4 = l := by omega
  rw [drawNumber, if_pos (by omega), hdiv, hmod]

theorem drawNumber_rest (r n j k : Nat) :
    drawNumber r n (4 * (n / 4) + j) k = 4 * r * (n / 4) + r * j + k := by
  rw [drawNumber, if_neg (by omega), Nat.add_sub_cancel_left]

/-- The first group takes the first draws. -/
theorem drawNumber_of_lt {r n i : Nat} (hi : i < 4) (k : Nat) :
    drawNumber r (n + 4) i k = 4 * k + i := by
  have h := drawNumber_group (r := r) (n := n + 4) (g := 0) (k := k) (by omega) hi
  rwa [Nat.mul_zero, Nat.zero_add, Nat.mul_zero, Nat.zero_add] at h

/-- Behind a group all draws are later by those of the group. -/
theorem drawNumber_add_four (r n i k : Nat) :
    drawNumber r (n + 4) (i + 4) k = 4 * r + drawNumber r n i k := by
  have hn : (n + 4) / 4 = n / 4 + 1 := by omega
  have hi : (i + 4) / 4 = i / 4 + 1 := by omega
  unfold drawNumber
  rw [hn, hi, Nat.add_mod_right]
  by_cases h : i < 4 * (n / 4)
  · rw [if_pos h, if_pos (by omega)]
    ring
  · have hsub : i + 4 - 4 * (n / 4 + 1) = i - 4 * (n / 4) := by omega
    rw [if_neg h, if_neg (by omega), hsub]
    ring

/-- Fewer than four times take their draws one time after the other. -/
theorem drawNumber_of_length_lt {r n : Nat} (hn : n < 4) (i k : Nat) :
    drawNumber r n i k = r * i + k := by
  have hdiv : n / 4 = 0 := by omega
  have h := drawNumber_rest r n i k
  rwa [hdiv, Nat.mul_zero, Nat.zero_add, Nat.mul_zero, Nat.zero_add] at h

/-- An entry has the value of an evaluation at its time on any source that makes its draws. -/
theorem getElem?_sampleAll (s : Sampler) {ts : List Binary32} {i : Nat} {t : Binary32}
    (ht : ts[i]? = some t) {source : σ} {lane : τ}
    (h : ∀ k < s.draws, drawAt k lane = drawAt (drawNumber s.draws ts.length i k) source) :
    (sampleAll s ts source).1[i]? = some (s.sample t lane).1 := by
  -- The entries behind the first group, or the first time, start where it leaves the source.
  induction ts using group_induction generalizing i source with
  | nil => cases ht
  | single a rest hr ih =>
    have hlen : (a :: rest).length < 4 := by rw [List.length_cons]; omega
    simp only [drawNumber_of_length_lt hlen] at h
    rw [sampleAll_single s hr]
    cases i with
    | zero =>
      obtain rfl : a = t := by simpa using ht
      simp only [Nat.mul_zero, Nat.zero_add] at h
      rw [List.getElem?_cons_zero, sample_fst_congr s a h]
    | succ i =>
      rw [List.getElem?_cons_succ] at ht ⊢
      refine ih ht fun k hk => ?_
      rw [h k hk, sample_snd, drawAt_afterDraws, drawNumber_of_length_lt (by omega)]
      congr 1
      ring
  | group a b c d rest ih =>
    simp only [List.length_cons] at h
    rw [sampleAll_group]
    rcases Nat.lt_or_ge i 4 with hi | hi
    · have hfeeds : Feeds ⟨i, hi⟩ s.draws source lane := by
        intro k hk
        rw [h k hk, drawNumber_of_lt hi]
      have hlane := get_sample4 s ⟨a, b, c, d⟩ hfeeds
      rw [List.getElem?_append_left (by exact hi)]
      match i, hi with
      | 0, _ | 1, _ | 2, _ | 3, _ =>
        obtain rfl := Option.some.inj ht
        exact congrArg some hlane
    · obtain ⟨i, rfl⟩ := Nat.exists_eq_add_of_le' hi
      rw [List.getElem?_append_right (by exact hi)]
      refine ih ht fun k hk => ?_
      rw [h k hk, drawNumber_add_four, sample4_snd, drawAt_afterDraws]

/-! ## Filling a buffer in place -/

/-- A buffer that is being filled, and the source of the draws. -/
structure Filling (σ : Type) where
  /-- The buffer. -/
  buffer : List Binary32
  /-- The source. -/
  source : σ

namespace Filling

/-- A computation that draws from the source and leaves the buffer alone. -/
def drawing {α : Type} (run : StateM σ α) : StateM (Filling σ) α := fun filling =>
  let (value, source) := run filling.source
  (value, { filling with source })

/-- Values are written to the slots from `start` on. -/
def write (start : Nat) (values : List Binary32) : StateM (Filling σ) Unit :=
  modify fun filling => { filling with buffer := overwrite filling.buffer start values }

end Filling

/-- The values at a list of times are written to the slots from `start` on: a group of four at a
time, then the rest one by one. -/
def fillFrom (s : Sampler) (start : Nat) : List Binary32 → StateM (Filling σ) Unit
  | a :: b :: c :: d :: rest => do
    let values ← Filling.drawing (s.sample4 ⟨a, b, c, d⟩)
    Filling.write start values.toList
    fillFrom s (start + 4) rest
  | t :: rest => do
    let value ← Filling.drawing (s.sample t)
    Filling.write start [value]
    fillFrom s (start + 1) rest
  | [] => pure ()

/-- The buffer is filled with the values at a list of times, if it has the length of the list. -/
def fill (s : Sampler) (times : List Binary32) :
    ExceptT SamplingError (StateM (Filling σ)) Unit := do
  let filling ← get
  if times.length = filling.buffer.length then ExceptT.lift (fillFrom s 0 times)
  else throw (.bufferLength filling.buffer.length times.length)

theorem fillFrom_group (s : Sampler) (start : Nat) (a b c d : Binary32) (rest : List Binary32)
    (buffer : List Binary32) (source : σ) :
    fillFrom s start (a :: b :: c :: d :: rest) ⟨buffer, source⟩ =
      let group := s.sample4 ⟨a, b, c, d⟩ source
      fillFrom s (start + 4) rest ⟨overwrite buffer start group.1.toList, group.2⟩ := rfl

theorem fillFrom_single (s : Sampler) (start : Nat) {t : Binary32} {rest : List Binary32}
    (h : rest.length < 3) (buffer : List Binary32) (source : σ) :
    fillFrom s start (t :: rest) ⟨buffer, source⟩ =
      let value := s.sample t source
      fillFrom s (start + 1) rest ⟨overwrite buffer start [value.1], value.2⟩ := by
  match rest, h with
  | [], _ | [_], _ | [_, _], _ => rfl
  | _ :: _ :: _ :: _, h =>
    simp only [List.length_cons] at h
    omega

/-- The loop leaves the values of a list from the slot `start` on. -/
def Fills (s : Sampler) (start : Nat) (ts : List Binary32) : Prop :=
  ∀ (buffer : List Binary32) (source : σ), start + ts.length ≤ buffer.length →
    fillFrom s start ts ⟨buffer, source⟩ =
      ((), ⟨overwrite buffer start (sampleAll s ts source).1, (sampleAll s ts source).2⟩)

/-- The rest of the loop goes on behind a write and leaves it as it is. -/
theorem Fills.after_write {s : Sampler} {start next : Nat} {rest buffer values : List Binary32}
    (hrest : Fills (σ := σ) s next rest) (hn : start + values.length = next)
    (h : next + rest.length ≤ buffer.length) (source : σ) :
    fillFrom s next rest ⟨overwrite buffer start values, source⟩ =
      ((), ⟨overwrite buffer start (values ++ (sampleAll s rest source).1),
        (sampleAll s rest source).2⟩) := by
  have hlength := length_sampleAll s rest source
  have hwrite : (overwrite buffer start values).length = buffer.length :=
    length_overwrite (by omega)
  rw [hrest _ _ (by rwa [hwrite]), overwrite_overwrite hn (by rwa [hlength])]

/-- Each write begins in the slot behind the one before it, so no slot is skipped and none is
written twice. -/
theorem fills (s : Sampler) (start : Nat) (ts : List Binary32) : Fills (σ := σ) s start ts := by
  -- The start varies with the writes, and so does the buffer in `Fills`.
  induction ts using group_induction generalizing start with
  | nil =>
    intro buffer source _
    exact congrArg (fun b => ((), (⟨b, source⟩ : Filling σ))) (overwrite_nil ..).symm
  | single t rest hr ih =>
    intro buffer source h
    rw [List.length_cons] at h
    rw [fillFrom_single s start hr, sampleAll_single s hr]
    exact (ih (start + 1)).after_write rfl (by omega) _
  | group a b c d rest ih =>
    intro buffer source h
    simp only [List.length_cons] at h
    rw [fillFrom_group, sampleAll_group]
    exact (ih (start + 4)).after_write rfl (by omega) _

section Fill

variable (s : Sampler) {times buffer : List Binary32} (source : σ)

theorem run_fill :
    (fill s times).run ⟨buffer, source⟩ =
      (if times.length = buffer.length then ExceptT.lift (fillFrom s 0 times)
        else throw (.bufferLength buffer.length times.length) :
          ExceptT SamplingError (StateM (Filling σ)) Unit).run ⟨buffer, source⟩ := rfl

theorem run_fill_of_length_eq (h : times.length = buffer.length) :
    (fill s times).run ⟨buffer, source⟩ =
      (.ok (), ⟨(sampleAll s times source).1, (sampleAll s times source).2⟩) := by
  have hlift : (ExceptT.lift (fillFrom s 0 times) :
      ExceptT SamplingError (StateM (Filling σ)) Unit).run ⟨buffer, source⟩ =
      (.ok (), (fillFrom s 0 times ⟨buffer, source⟩).2) := rfl
  have hslots := overwrite_zero ((length_sampleAll s times source).trans h)
  rw [run_fill, if_pos h, hlift, fills s 0 times _ _ (by omega), hslots]

theorem run_fill_of_length_ne (h : times.length ≠ buffer.length) :
    (fill s times).run ⟨buffer, source⟩ =
      (.error (.bufferLength buffer.length times.length), ⟨buffer, source⟩) := by
  rw [run_fill, if_neg h]
  rfl

theorem run_sampleInto_of_length_ne (h : times.length ≠ buffer.length) :
    (sampleInto s times buffer).run source =
      (.error (.bufferLength buffer.length times.length), source) := by
  rw [sampleInto, if_neg h]
  rfl

theorem run_sampleInto_snd (h : times.length = buffer.length) :
    ((sampleInto s times buffer).run source).2 = afterDraws (s.draws * times.length) source := by
  rw [run_sampleInto_of_length_eq s h, sampleAll_snd]

end Fill

/-- **Every slot of a buffer has its own draws.**  Sampling `n` times into a buffer of `n` slots
succeeds and draws once for each time and noise leaf, and the buffer then holds the values.  Let `r`
be the number of noise leaves and `G` that of the full groups of four.  The value in slot `4g + l`
of a group is that of an evaluation at its time on the draws `4rg + 4k + l` of the source, for
`k < r`; the one in slot `4G + j` behind the groups is that on the draws `4rG + rj + k`.  A buffer
of any other length is refused: nothing is drawn, and the buffer and the source stay as they are.
Filling the buffer in place, write by write, leaves the same buffer and the same source.  A source
that makes the draws of one slot and no others is always at hand, see `Selected`. -/
theorem sampleInto_layout (s : Sampler) (times buffer : List Binary32) (source : σ) :
    let r := s.draws
    let groups := times.length / 4
    (buffer.length = times.length →
      ∃ values : List Binary32,
        (sampleInto s times buffer).run source =
          (.ok values, afterDraws (r * times.length) source) ∧
        (fill s times).run ⟨buffer, source⟩ =
          (.ok (), ⟨values, afterDraws (r * times.length) source⟩) ∧
        readings (sampleInto s times buffer).run source = (drawMany (r * times.length) source).1 ∧
        values.length = times.length ∧
        (∀ g < groups, ∀ l < 4, ∀ t, times[4 * g + l]? = some t →
          ∀ {τ : Type} [DrawSource τ] (lane : τ),
            (∀ k < r, drawAt k lane = drawAt (4 * r * g + 4 * k + l) source) →
              values[4 * g + l]? = some (s.sample t lane).1) ∧
        (∀ j t, times[4 * groups + j]? = some t →
          ∀ {τ : Type} [DrawSource τ] (lane : τ),
            (∀ k < r, drawAt k lane = drawAt (4 * r * groups + r * j + k) source) →
              values[4 * groups + j]? = some (s.sample t lane).1)) ∧
    (buffer.length ≠ times.length →
      let refusal := SamplingError.bufferLength buffer.length times.length
      (sampleInto s times buffer).run source = (.error refusal, source) ∧
        (fill s times).run ⟨buffer, source⟩ = (.error refusal, ⟨buffer, source⟩) ∧
        readings (sampleInto s times buffer).run source = [] ∧
        refusal.toFault = .validation
          ("sample buffer length " ++ toString buffer.length ++ " does not match "
            ++ toString times.length ++ " sample times")) := by
  intro r groups
  refine ⟨fun h => ?_, fun h => ?_⟩
  · have hsnd := sampleAll_snd s times source
    refine ⟨(sampleAll s times source).1, ?_, ?_, ?_, length_sampleAll s times source, ?_, ?_⟩
    · rw [run_sampleInto_of_length_eq s h.symm, hsnd]
    · rw [run_fill_of_length_eq s source h.symm, hsnd]
    · exact readings_eq_drawMany (fun recorded => run_sampleInto_snd s recorded h.symm) source
    · intro g hg l hl t ht τ _ lane hlane
      apply getElem?_sampleAll s ht
      intro k hk
      rw [hlane k hk, drawNumber_group hg hl]
    · intro j t ht τ _ lane hlane
      apply getElem?_sampleAll s ht
      intro k hk
      rw [hlane k hk, drawNumber_rest]
  · refine ⟨run_sampleInto_of_length_ne s source h.symm, run_fill_of_length_ne s source h.symm, ?_,
      rfl⟩
    rw [readings, run_sampleInto_of_length_ne s _ h.symm]

/-- Six times, which make one group of four and leave two. -/
def sixTimes : List Binary32 := [0, 1, Binary32.half, 1, Binary32.half, 0]

/-- Slot `2` is in the group, and slot `5` is the second one behind it. -/
theorem sampleInto_layout_sixTimes :
    let source := quarters (List.range 18)
    (∀ k < 3, drawAt k (quarters [2, 6, 10]) = drawAt (4 * 3 * 0 + 4 * k + 2) source) ∧
      (∀ k < 3, drawAt k (quarters [15, 16, 17]) = drawAt (4 * 3 * 1 + 3 * 1 + k) source) ∧
      (∃ values : List Binary32,
        (sampleInto noisyBlend sixTimes (List.replicate 6 1)).run source =
          (.ok values, afterDraws (3 * 6) source) ∧
        values[2]? = some (noisyBlend.sample Binary32.half (quarters [2, 6, 10])).1 ∧
        values[5]? = some (noisyBlend.sample 0 (quarters [15, 16, 17])).1) ∧
      (fill noisyBlend sixTimes).run ⟨[1], source⟩ =
        (.error (.bufferLength 1 6), ⟨[1], source⟩) := by
  intro source
  have hgroup : ∀ k < 3,
      drawAt k (quarters [2, 6, 10]) = drawAt (4 * 3 * 0 + 4 * k + 2) source := by
    decide +kernel
  have hrest : ∀ k < 3,
      drawAt k (quarters [15, 16, 17]) = drawAt (4 * 3 * 1 + 3 * 1 + k) source := by
    decide +kernel
  have hdraws : noisyBlend.draws = 3 := rfl
  have hlength : sixTimes.length = 6 := rfl
  obtain ⟨values, hok, -, -, -, hg, hr⟩ :=
    (sampleInto_layout noisyBlend sixTimes (List.replicate 6 1) source).1 rfl
  have hrefused := (sampleInto_layout noisyBlend sixTimes [1] source).2 (by decide)
  simp only [hdraws, hlength] at hok hg hr
  refine ⟨hgroup, hrest, ⟨values, hok, ?_, ?_⟩, hrefused.2.1⟩
  · exact hg 0 (by decide) 2 (by decide) Binary32.half rfl _ hgroup
  · exact hr 1 0 rfl _ hrest

end Sampler

end TimeSignal
