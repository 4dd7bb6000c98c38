import TimeSignal.Proofs.Sampler.Chunks
import TimeSignal.Proofs.Sampler.Lanes

/-!
# Sampling a list of times, and the chunks of a batch in any order

A list is sampled group by group from one source, and each value takes one place in the result.  The
chunks of a batch are written to disjoint slices from generators of their own, so every order that
names each chunk leaves the same buffer.

## Main definitions

* `Sampler.sampleChunk`: the values of one chunk
* `Sampler.writeChunk`, `Sampler.writeChunks`: a buffer after one chunk, and after a run of chunks
* `Sampler.batchValues`: the values of all chunks, one chunk after the other

## Main results

* `Sampler.sampleAll_eq_map_of_draws_eq_zero`: without noise, a list is sampled time by time
* `Sampler.run_sampleInto_of_length_eq`: a buffer of the right length is filled
* `Sampler.sampleChunks_eq_ok`: sampling chunk after chunk is not refused
* `Sampler.sampleChunks_eq_batchValues`: the chunks leave the same values in any order
* `Sampler.batchValues_eq_map`: without noise, a batch is sampled time by time
-/

namespace TimeSignal

namespace Sampler

/-! ## A list of times -/

section Source

variable {σ : Type} [DrawSource σ]

theorem sampleAll_group (s : Sampler) (a b c d : Binary32) (rest : List Binary32) (source : σ) :
    sampleAll s (a :: b :: c :: d :: rest) source =
      let group := s.sample4 ⟨a, b, c, d⟩ source
      (group.1.toList ++ (sampleAll s rest group.2).1, (sampleAll s rest group.2).2) := rfl

/-- Fewer than four times are sampled one by one. -/
theorem sampleAll_of_length_lt (s : Sampler) {ts : List Binary32} (h : ts.length < 4) :
    sampleAll (σ := σ) s ts = ts.mapM fun t => s.sample t := by
  match ts, h with
  | [], _ | [_], _ | [_, _], _ | [_, _, _], _ => rfl
  | _ :: _ :: _ :: _ :: rest, h =>
    simp only [List.length_cons] at h
    omega

theorem sampleAll_single (s : Sampler) {t : Binary32} {rest : List Binary32}
    (h : rest.length < 3) (source : σ) :
    sampleAll s (t :: rest) source =
      let value := s.sample t source
      (value.1 :: (sampleAll s rest value.2).1, (sampleAll s rest value.2).2) := by
  rw [sampleAll_of_length_lt s (by rw [List.length_cons]; omega),
    sampleAll_of_length_lt s (by omega), List.mapM_cons]
  rfl

/-- What holds of no time, of a time in front of fewer than three, and of a group of four in front
of any times holds of all lists of times. -/
theorem group_induction {P : List Binary32 → Prop} (nil : P [])
    (single : ∀ t rest, rest.length < 3 → P rest → P (t :: rest))
    (group : ∀ a b c d rest, P rest → P (a :: b :: c :: d :: rest)) : ∀ ts, P ts
  | [] => nil
  | [a] => single a [] (by simp) nil
  | [a, b] => single a [b] (by simp) (single b [] (by simp) nil)
  | [a, b, c] =>
    single a [b, c] (by simp) (single b [c] (by simp) (single c [] (by simp) nil))
  | a :: b :: c :: d :: rest => group a b c d rest (group_induction nil single group rest)

theorem length_sampleAll (s : Sampler) (ts : List Binary32) (source : σ) :
    (sampleAll s ts source).1.length = ts.length := by
  induction ts using group_induction generalizing source with
  | nil => rfl
  | single t rest hr ih => rw [sampleAll_single s hr, List.length_cons, List.length_cons, ih]
  | group a b c d rest ih =>
    rw [sampleAll_group, List.length_append, ih]
    simp only [Lanes.toList, List.length_cons, List.length_nil]
    omega

theorem sampleAll_eq_map_of_draws_eq_zero {s : Sampler} (h : s.draws = 0) (ts : List Binary32)
    (source : σ) : sampleAll s ts source = (ts.map fun t => (s.sample t source).1, source) := by
  -- No evaluation changes the source, so all of them start from the same state.
  induction ts using group_induction with
  | nil => rfl
  | single t rest hr ih =>
    rw [sampleAll_single s hr]
    simp only [sample_snd_of_draws_eq_zero h, ih, List.map_cons]
  | group a b c d rest ih =>
    rw [sampleAll_group, sample4_eq_of_draws_eq_zero h]
    simp only [ih]
    rfl

theorem run_sampleInto_of_length_eq (s : Sampler) {times buffer : List Binary32}
    (h : times.length = buffer.length) (source : σ) :
    (sampleInto s times buffer).run source =
      (.ok (sampleAll s times source).1, (sampleAll s times source).2) := by
  rw [sampleInto, if_pos h]
  rfl

end Source

/-! ## Chunks in any order -/

variable (s : Sampler) (size : Nat) (seed : UInt64) (times : List Binary32)

/-- The values at the times of chunk `k`, from the generator of stream `k`. -/
def sampleChunk (k : Nat) : List Binary32 :=
  (sampleAll s (chunkOf size k times) (SplitMix.stream seed (UInt64.ofNat k))).1

theorem length_sampleChunk (k : Nat) :
    (sampleChunk s size seed times k).length = (chunkOf size k times).length :=
  length_sampleAll s _ _

/-- The buffer after one chunk has been sampled into its slice. -/
def writeChunk (buffer : List Binary32) (k : Nat) : List Binary32 :=
  overwrite buffer (k * size) (sampleChunk s size seed times k)

section Write

variable {times}
variable {buffer : List Binary32} (h : buffer.length = times.length)

include h

/-- The values of a chunk fill its slice. -/
theorem length_sampleChunk_eq (k : Nat) :
    (sampleChunk s size seed times k).length = (chunkOf size k buffer).length := by
  rw [length_sampleChunk, length_chunkOf_congr size k h]

/-- They are written from the start of the slice on, and stay inside. -/
theorem length_sampleChunk_le (k : Nat) :
    0 + (sampleChunk s size seed times k).length ≤ (chunkOf size k buffer).length := by
  rw [Nat.zero_add]
  exact Nat.le_of_eq (length_sampleChunk_eq s size seed h k)

theorem length_writeChunk (k : Nat) :
    (writeChunk s size seed times buffer k).length = times.length := by
  rw [← h]
  exact length_overwrite_chunk (length_sampleChunk_le s size seed h k)

theorem chunkOf_writeChunk (j k : Nat) :
    chunkOf size j (writeChunk s size seed times buffer k) =
      if j = k then sampleChunk s size seed times j else chunkOf size j buffer := by
  have hl := length_sampleChunk_le s size seed h k
  split_ifs with hj
  · subst hj
    exact (chunkOf_overwrite_self hl).trans (overwrite_zero (length_sampleChunk_eq s size seed h j))
  · exact chunkOf_overwrite_of_ne hl hj

/-- After a run of chunks, those that were sampled hold their values, and the others what they held
before. -/
theorem foldl_writeChunk_slices (order : List Nat) :
    (order.foldl (writeChunk s size seed times) buffer).length = times.length ∧
      ∀ j, chunkOf size j (order.foldl (writeChunk s size seed times) buffer) =
        if j ∈ order then sampleChunk s size seed times j else chunkOf size j buffer := by
  induction order generalizing buffer with
  | nil => exact ⟨h, by simp⟩
  | cons k order ih =>
    obtain ⟨hlength, hslices⟩ := ih (length_writeChunk s size seed h k)
    refine ⟨hlength, fun j => ?_⟩
    rw [List.foldl_cons, hslices, chunkOf_writeChunk s size seed h]
    by_cases hk : j = k <;> by_cases ho : j ∈ order <;> simp [hk, ho]

/-- The slice of a chunk has the length of its times, so sampling into it is not refused. -/
theorem fillChunk_eq_ok (k : Nat) :
    fillChunk s size seed times buffer k = .ok (writeChunk s size seed times buffer k) := by
  dsimp only [fillChunk]
  rw [run_sampleInto_of_length_eq s (length_chunkOf_congr size k h).symm]
  rfl

theorem foldlM_fillChunk (order : List Nat) :
    order.foldlM (fillChunk s size seed times) buffer =
      .ok (order.foldl (writeChunk s size seed times) buffer) := by
  induction order generalizing buffer with
  | nil => rfl
  | cons k order ih =>
    rw [List.foldlM_cons, fillChunk_eq_ok s size seed h]
    exact ih (length_writeChunk s size seed h k)

end Write

/-- The buffer of a batch whose chunks have been sampled one after the other. -/
def writeChunks (order : List Nat) : List Binary32 :=
  order.foldl (writeChunk s size seed times) (List.replicate times.length 0)

theorem sampleChunks_eq_ok (order : List Nat) :
    sampleChunks s size seed times order = .ok (writeChunks s size seed times order) :=
  foldlM_fillChunk s size seed List.length_replicate order

theorem writeChunks_slices (order : List Nat) :
    (writeChunks s size seed times order).length = times.length ∧
      ∀ j ∈ order, chunkOf size j (writeChunks s size seed times order) =
        sampleChunk s size seed times j := by
  have hb : (List.replicate times.length (0 : Binary32)).length = times.length :=
    List.length_replicate
  obtain ⟨hlength, hslices⟩ := foldl_writeChunk_slices s size seed hb order
  exact ⟨hlength, fun j hj => (hslices j).trans (if_pos hj)⟩

/-! ## The values of a batch -/

/-- The values of all chunks, one chunk after the other. -/
def batchValues : List Binary32 :=
  (List.range (chunkCount size times.length)).flatMap (sampleChunk s size seed times)

theorem BatchOptions.chunk_pos (options : BatchOptions) : 0 < options.chunk := by
  unfold BatchOptions.chunk
  omega

section Values

variable (hs : 0 < size)

include hs

/-- A buffer whose slices hold the values of their chunks holds those of the batch. -/
theorem eq_batchValues_of_chunkOf {buffer : List Binary32} (hb : buffer.length = times.length)
    (h : ∀ k < chunkCount size times.length,
      chunkOf size k buffer = sampleChunk s size seed times k) :
    buffer = batchValues s size seed times :=
  eq_flatMap_of_chunkOf hs hb h

theorem writeChunks_eq_batchValues {order : List Nat}
    (h : ∀ k < chunkCount size times.length, k ∈ order) :
    writeChunks s size seed times order = batchValues s size seed times := by
  obtain ⟨hlength, hslices⟩ := writeChunks_slices s size seed times order
  exact eq_batchValues_of_chunkOf s size seed times hs hlength fun k hk => hslices k (h k hk)

/-- Whatever order names every chunk, the buffer ends with the values of the batch. -/
theorem sampleChunks_eq_batchValues {order : List Nat}
    (h : ∀ k < chunkCount size times.length, k ∈ order) :
    sampleChunks s size seed times order = .ok (batchValues s size seed times) := by
  rw [sampleChunks_eq_ok, writeChunks_eq_batchValues s size seed times hs h]

/-- There is one value for each time, and each slice holds what the chunk alone samples. -/
theorem batchValues_slices :
    (batchValues s size seed times).length = times.length ∧
      ∀ k < chunkCount size times.length,
        chunkOf size k (batchValues s size seed times) = sampleChunk s size seed times k := by
  rw [← writeChunks_eq_batchValues s size seed times hs fun _ hk => List.mem_range.mpr hk]
  obtain ⟨hlength, hslices⟩ := writeChunks_slices s size seed times
    (List.range (chunkCount size times.length))
  exact ⟨hlength, fun k hk => hslices k (List.mem_range.mpr hk)⟩

/-- Without noise, each value is that of its time alone. -/
theorem batchValues_eq_map {σ : Type} [DrawSource σ] (h : s.draws = 0) (source : σ) :
    batchValues s size seed times = times.map fun t => (s.sample t source).1 := by
  have hchunk : ∀ k, sampleChunk s size seed times k =
      chunkOf size k (times.map fun t => (s.sample t source).1) := by
    intro k
    rw [sampleChunk, sampleAll_eq_map_of_draws_eq_zero h, map_chunkOf]
    exact List.map_congr_left fun t _ => sample_fst_eq_of_draws_eq_zero h t _ source
  refine (eq_batchValues_of_chunkOf s size seed times hs (List.length_map _) fun k _ => ?_).symm
  rw [hchunk]

end Values

end Sampler

end TimeSignal
