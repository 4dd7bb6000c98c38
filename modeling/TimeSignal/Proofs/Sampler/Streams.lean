import TimeSignal.Proofs.Random.Mix
import TimeSignal.Proofs.Sampler.Schedule

/-!
# The generators of a batch

Each chunk of a batch is sampled from a generator of its own, whose word is a result of the
generator itself: that of the seed, changed by an exclusive or with a multiple of the index.
Exclusive or, the product with an odd constant and the result are all injective, so two indices of
one seed give different generators, and so do two seeds at one index.

## Main results

* `SplitMix.stream_injective`: different streams of a seed start differently
* `SplitMix.stream_injective_seed`: streams of different seeds start differently
* `Sampler.chunkOf_sampleBatch`: what a chunk of a batch is sampled from
* `Sampler.sampleBatch_streams`: no two chunks of a batch start from one generator
-/

namespace TimeSignal

namespace SplitMix

theorem ofSeed_injective : Function.Injective ofSeed :=
  fun _ _ h => congrArg state h

theorem stream_eq_stream_iff {seed seed' index index' : UInt64} :
    stream seed index = stream seed' index' ↔
      seed ^^^ (index * 0xD6E8FEB86659FD93) = seed' ^^^ (index' * 0xD6E8FEB86659FD93) := by
  rw [stream, stream, ofSeed_injective.eq_iff, next_fst_injective.eq_iff, ofSeed_injective.eq_iff]

theorem stream_injective (seed : UInt64) : Function.Injective (stream seed) := by
  have hunit : IsUnit (0xD6E8FEB86659FD93 : UInt64) := isUnit_of_odd (by decide)
  intro i j h
  exact hunit.mul_left_injective ((UInt64.xor_right_inj seed).mp (stream_eq_stream_iff.mp h))

theorem stream_injective_seed (index : UInt64) :
    Function.Injective fun seed => stream seed index := by
  intro seed seed' h
  exact (UInt64.xor_left_inj _).mp (stream_eq_stream_iff.mp h)

/-- Natural numbers that fit into a word number different streams. -/
theorem stream_ofNat_ne {seed : UInt64} {j k : Nat} (hj : j < 2 ^ 64) (hk : k < 2 ^ 64)
    (h : j ≠ k) : stream seed (UInt64.ofNat j) ≠ stream seed (UInt64.ofNat k) := by
  intro heq
  have hwords := congrArg UInt64.toNat (stream_injective seed heq)
  rw [UInt64.toNat_ofNat', UInt64.toNat_ofNat', Nat.mod_eq_of_lt hj, Nat.mod_eq_of_lt hk] at hwords
  exact h hwords

end SplitMix

namespace Sampler

theorem chunkOf_sampleBatch {s : Sampler} {times : List Binary32} {options : BatchOptions}
    {builder : PoolBuilder} (hruns : options.parallel = true → builder.RunsAll)
    {values : List Binary32}
    (h : s.sampleBatch times options builder = .ok values) {k : Nat}
    (hk : k < chunkCount options.chunk times.length) :
    chunkOf options.chunk k values = (sampleAll s (chunkOf options.chunk k times)
      (SplitMix.stream options.seed (UInt64.ofNat k))).1 := by
  obtain ⟨-, -, rfl⟩ := (sampleBatch_eq_ok_iff s times hruns).mp h
  exact (batchValues_slices s _ options.seed times (BatchOptions.chunk_pos options)).2 k hk

/-- **Chunks do not share a generator.**  The streams of a seed are different for all indices, and
those of an index for all seeds.  So in every batch that is not refused, one chunk after the other
or on pools that run all of their jobs, the values of each chunk are sampled from a generator that
no other chunk starts from, if there are not more chunks than words to number them. -/
theorem sampleBatch_streams :
    (∀ seed, Function.Injective (SplitMix.stream seed)) ∧
      (∀ index, Function.Injective fun seed => SplitMix.stream seed index) ∧
      ∀ (s : Sampler) (times : List Binary32) (options : BatchOptions) (builder : PoolBuilder)
          (values : List Binary32),
        let count := chunkCount options.chunk times.length
        let generator (k : Nat) := SplitMix.stream options.seed (UInt64.ofNat k)
        (options.parallel = true → builder.RunsAll) → count ≤ 2 ^ 64 →
          s.sampleBatch times options builder = .ok values → ∀ k < count,
            chunkOf options.chunk k values =
                (sampleAll s (chunkOf options.chunk k times) (generator k)).1 ∧
              ∀ j < count, j ≠ k → generator j ≠ generator k := by
  refine ⟨SplitMix.stream_injective, SplitMix.stream_injective_seed, ?_⟩
  intro s times options builder values count generator hruns hcount hok k hk
  refine ⟨chunkOf_sampleBatch hruns hok hk, fun j hj hjk => ?_⟩
  exact SplitMix.stream_ofNat_ne (Nat.lt_of_lt_of_le hj hcount) (Nat.lt_of_lt_of_le hk hcount) hjk

/-- Chunks of a single time, and a seed with all bits set: in parallel on four threads, or one chunk
after the other. -/
def singleTimes (parallel : Bool) : BatchOptions := ⟨parallel, 0, some 4, 0xFFFFFFFFFFFFFFFF⟩

theorem sampleBatch_streams_singleTimes :
    PoolBuilder.inOrder.RunsAll ∧
      (∀ parallel, chunkCount (singleTimes parallel).chunk [0, 0, 1].length ≤ 2 ^ 64) ∧
      SplitMix.stream 1 2 ≠ SplitMix.stream 1 3 ∧ SplitMix.stream 1 2 ≠ SplitMix.stream 0 2 ∧
      ∀ parallel, ∃ values,
        noise.sampleBatch [0, 0, 1] (singleTimes parallel) .inOrder = .ok values ∧
          chunkOf 1 1 values = (sampleAll noise [0] (SplitMix.stream 0xFFFFFFFFFFFFFFFF 1)).1 ∧
          SplitMix.stream 0xFFFFFFFFFFFFFFFF 0 ≠ SplitMix.stream 0xFFFFFFFFFFFFFFFF 1 := by
  obtain ⟨hindex, hseed, hbatch⟩ := sampleBatch_streams
  have hruns := PoolBuilder.runsAll_inOrder
  have hcount : ∀ parallel,
      chunkCount (singleTimes parallel).chunk [(0 : Binary32), 0, 1].length = 3 := by decide
  have hc : ∀ parallel,
      chunkCount (singleTimes parallel).chunk [(0 : Binary32), 0, 1].length ≤ 2 ^ 64 := by decide
  have ht : ∀ parallel, (singleTimes parallel).threads ≠ some 0 := by decide
  refine ⟨hruns, hc, (hindex 1).ne (by decide), (hseed 2).ne (by decide), fun parallel => ?_⟩
  have hok : noise.sampleBatch [0, 0, 1] (singleTimes parallel) .inOrder = .ok _ :=
    (sampleBatch_eq_ok_iff noise _ fun _ => hruns).mpr ⟨ht parallel, fun _ => ⟨_, rfl⟩, rfl⟩
  obtain ⟨hvalues, hdistinct⟩ := hbatch noise [0, 0, 1] (singleTimes parallel) .inOrder _
    (fun _ => hruns) (hc parallel) hok 1 (by rw [hcount]; decide)
  exact ⟨_, hok, hvalues, hdistinct 0 (by rw [hcount]; decide) (by decide)⟩

end Sampler

end TimeSignal
