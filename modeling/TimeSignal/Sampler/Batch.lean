import TimeSignal.Decimal.Style
import TimeSignal.Fault
import TimeSignal.Sampler.Pool

/-!
# Sampling at many times

Times are sampled in groups of four, and those left over one by one.  A batch samples chunks of its
times, each from a generator of its own: one after the other, or on a pool of threads.

## Main definitions

* `Sampler.sampleAll`: the values at a list of times, from one source.
* `Sampler.sampleInto`: the same, into a buffer that must have the length of the list.
* `Sampler.sampleChunks`: a batch whose chunks are sampled one after the other.
* `Sampler.samplePool`: a batch whose chunks are sampled by a pool of threads.
* `Sampler.sampleBatch`: the values of a batch.
* `evenTimes`: evenly spaced times.
* `Sampler.integrateMidpoint`: the integral over an interval by the value at its middle.
-/

namespace TimeSignal

/-- Why sampling is refused. -/
inductive SamplingError where
  /-- A buffer has another length than the list of times. -/
  | bufferLength (buffer times : Nat)
  /-- A batch is to use no thread. -/
  | noThreads
  /-- An end of a range of times is not finite. -/
  | infiniteRange (first last : Binary32)
  /-- A range of times has no step. -/
  | noSteps
  /-- The machine builds no pool of threads. -/
  | noPool (cause : String)
deriving DecidableEq

namespace SamplingError

/-- The words of a refusal. -/
def reason : SamplingError → String
  | bufferLength buffer times =>
    "sample buffer length " ++ toString buffer ++ " does not match " ++ toString times
      ++ " sample times"
  | noThreads => "batch sampling 'threads' must be >= 1 when set"
  | infiniteRange first last =>
    "sample range must be finite, got " ++ String.ofList (first.text .plain) ++ ".."
      ++ String.ofList (last.text .plain)
  | noSteps => "sample 'steps' must be >= 1"
  | noPool cause => "failed to build rayon thread pool: " ++ cause

/-- A refusal as a fault.  All refusals are of the arguments, but that of the machine. -/
def toFault (e : SamplingError) : Fault :=
  match e with
  | noPool _ => .other e.reason
  | _ => .validation e.reason

end SamplingError

namespace Sampler

section Source

variable {σ : Type} [DrawSource σ]

/-- The values at a list of times: full groups of four first, then the rest one by one. -/
def sampleAll (s : Sampler) : List Binary32 → StateM σ (List Binary32)
  | a :: b :: c :: d :: rest => do
    let values ← s.sample4 ⟨a, b, c, d⟩
    let others ← sampleAll s rest
    pure (values.toList ++ others)
  | rest => rest.mapM fun t => s.sample t

/-- The contents of a buffer after the values at a list of times have been written to it. -/
def sampleInto (s : Sampler) (times buffer : List Binary32) :
    ExceptT SamplingError (StateM σ) (List Binary32) :=
  if times.length = buffer.length then ExceptT.lift (sampleAll s times)
  else throw (.bufferLength buffer.length times.length)

/-- The integral over `[first, last]`, by the value at the middle. -/
def integrateMidpoint (s : Sampler) (first last : Binary32) : StateM σ Binary32 := do
  let value ← s.sample (Binary32.half * (first + last))
  pure (value * (last - first))

end Source

/-! ## Batches -/

/-- How a batch is sampled. -/
structure BatchOptions where
  /-- Chunks may be sampled at the same time. -/
  parallel : Bool := false
  /-- The number of times in a chunk; zero counts as one. -/
  chunkSize : Nat := 256
  /-- The number of threads, if it is fixed. -/
  threads : Option Nat := none
  /-- The seed of the generators of all chunks. -/
  seed : UInt64 := 0
deriving DecidableEq

/-- The number of times in a chunk, at least one. -/
def BatchOptions.chunk (options : BatchOptions) : Nat := max options.chunkSize 1

/-- The buffer after chunk `k` has been sampled into its slice, from the generator of stream `k`. -/
def fillChunk (s : Sampler) (size : Nat) (seed : UInt64) (times buffer : List Binary32) (k : Nat) :
    Except SamplingError (List Binary32) := do
  let slice := sampleInto s (chunkOf size k times) (chunkOf size k buffer)
  let values ← (slice.run (SplitMix.stream seed (UInt64.ofNat k))).1
  pure (overwrite buffer (k * size) values)

/-- The buffer after the chunks have been sampled one after the other, in the given order. -/
def sampleChunks (s : Sampler) (size : Nat) (seed : UInt64) (times : List Binary32)
    (order : List Nat) : Except SamplingError (List Binary32) :=
  order.foldlM (fillChunk s size seed times) (List.replicate times.length 0)

/-- Refuse a chunk whose slice of the buffer has another length than its times. -/
def checkSlice (size : Nat) (times buffer : List Binary32) (k : Nat) : Except SamplingError Unit :=
  let chunk := chunkOf size k times
  let slice := chunkOf size k buffer
  if chunk.length = slice.length then .ok ()
  else .error (.bufferLength slice.length chunk.length)

/-- The jobs of a batch: how many writes each of its chunks takes. -/
def batchJobs (size : Nat) (times : List Binary32) : List Nat :=
  (List.range (chunkCount size times.length)).map fun k => writeCount (chunkOf size k times).length

/-- The buffer after a pool has sampled the chunks at the same time, each as a job of its own.  When
a chunk is refused, so is the batch. -/
def samplePool (s : Sampler) (size : Nat) (seed : UInt64) (times : List Binary32)
    (pool : ThreadPool) : Except SamplingError (List Binary32) := do
  let buffer := List.replicate times.length 0
  forM (List.range (chunkCount size times.length)) (checkSlice size times buffer)
  pure (Progress.run s size seed times (pool.schedule (batchJobs size times))).buffer

/-- The values of a batch, which must not ask for zero threads.  In parallel, a pool is built for
the number of threads and samples the chunks, and without a pool there are no values; otherwise the
chunks are sampled one after the other, in ascending order. -/
def sampleBatch (s : Sampler) (times : List Binary32) (options : BatchOptions)
    (builder : PoolBuilder := .inOrder) : Except SamplingError (List Binary32) :=
  if options.threads = some 0 then .error .noThreads
  else if options.parallel then
    match builder.build options.threads with
    | .error cause => .error (.noPool cause)
    | .ok pool => samplePool s options.chunk options.seed times pool
  else
    sampleChunks s options.chunk options.seed times
      (List.range (chunkCount options.chunk times.length))

end Sampler

/-! ## Times -/

/-- The given number of evenly spaced times from `first` to `last`, both included. -/
def evenTimes (first last : Binary32) (steps : Nat) : Except SamplingError (List Binary32) :=
  if !first.isFinite || !last.isFinite then .error (.infiniteRange first last)
  else
    match steps with
    | 0 => .error .noSteps
    | 1 => .ok [first]
    | n + 2 =>
      let step := (last - first) / Binary32.ofNat (n + 1)
      -- The last time is given, not computed, so rounding cannot move it.
      .ok ((List.range (n + 1)).map (fun i => first + step * Binary32.ofNat i) ++ [last])

end TimeSignal
