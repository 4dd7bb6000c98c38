import TimeSignal.Random.SplitMix
import TimeSignal.Sampler.Basic

/-!
# Chunks and the threads that sample them

A batch cuts its times into chunks and its buffer into slices of the same lengths.  Each chunk is a
job: a worker samples the times of the chunk from a generator of its own and writes the values to
the slice, a group of four at a time and then those left over one by one.  A pool of threads has
many workers write at the same time, and it is up to the pool which of them writes next.

## Main definitions

* `Sampler.chunkOf`, `Sampler.chunkCount`: cutting a list into chunks.
* `Sampler.Worker`, `Sampler.Worker.advance`: a chunk that is being sampled, and its next write.
* `Sampler.Progress`, `Sampler.Progress.run`: a batch under way, and the writes of a schedule.
* `Sampler.ThreadPool`, `Sampler.PoolBuilder`: the threads of a machine.
-/

namespace TimeSignal

namespace Sampler

/-! ## Chunks -/

/-- The entries of chunk `k` in a list that is cut into chunks of `size`. -/
def chunkOf {α : Type} (size k : Nat) (entries : List α) : List α :=
  (entries.drop (k * size)).take size

/-- The number of chunks of `size` that cover `n` entries. -/
def chunkCount (size n : Nat) : Nat := (n + size - 1) / size

/-- The buffer with its entries from `start` on overwritten by `values`. -/
def overwrite {α : Type} (buffer : List α) (start : Nat) (values : List α) : List α :=
  buffer.take start ++ values ++ buffer.drop (start + values.length)

/-! ## Workers -/

/-- A chunk that is being sampled. -/
structure Worker where
  /-- How many values of the chunk have been written. -/
  written : Nat
  /-- The times of the chunk whose values are missing. -/
  left : List Binary32
  /-- The generator of the chunk. -/
  generator : SplitMix

/-- The number of writes for `n` times: one for each group of four, and one for each time left
over. -/
def writeCount (n : Nat) : Nat := n / 4 + n % 4

/-- The values of the next write and the worker after it: a group of four, or a single value when
fewer times are left. -/
def Worker.advance (s : Sampler) : Worker → List Binary32 × Worker
  | ⟨written, a :: b :: c :: d :: rest, generator⟩ =>
    let (values, generator) := s.sample4 ⟨a, b, c, d⟩ generator
    (values.toList, ⟨written + 4, rest, generator⟩)
  | ⟨written, t :: rest, generator⟩ =>
    let (value, generator) := s.sample t generator
    ([value], ⟨written + 1, rest, generator⟩)
  | ⟨written, [], generator⟩ => ([], ⟨written, [], generator⟩)

/-- The buffer of a batch and the workers of its chunks. -/
structure Progress where
  /-- The values written so far; zero where there is none. -/
  buffer : List Binary32
  /-- The worker of each chunk. -/
  workers : Nat → Worker

namespace Progress

/-- No chunk has been touched. -/
def start (size : Nat) (seed : UInt64) (times : List Binary32) : Progress where
  buffer := List.replicate times.length 0
  workers k := ⟨0, chunkOf size k times, SplitMix.stream seed (UInt64.ofNat k)⟩

/-- The worker of chunk `k` makes its next write, behind its earlier ones. -/
def step (s : Sampler) (size : Nat) (p : Progress) (k : Nat) : Progress :=
  let (values, worker) := (p.workers k).advance s
  { buffer := overwrite p.buffer (k * size + (p.workers k).written) values
    workers := fun j => if j = k then worker else p.workers j }

/-- The workers make one write after the other, in the order of a schedule of chunk indices. -/
def run (s : Sampler) (size : Nat) (seed : UInt64) (times : List Binary32)
    (schedule : List Nat) : Progress :=
  schedule.foldl (step s size) (start size seed times)

end Progress

/-! ## Threads -/

/-- A pool of threads, by what it does with jobs.  Its schedule is given the number of steps that
each job takes, and names the jobs in the order in which the threads carry out their steps. -/
structure ThreadPool where
  /-- The jobs, once for each step that they make. -/
  schedule : List Nat → List Nat

/-- The pool gives every job as many turns as it has steps. -/
def ThreadPool.RunsAll (pool : ThreadPool) : Prop :=
  ∀ (jobs : List Nat) (k steps : Nat), jobs[k]? = some steps → steps ≤ (pool.schedule jobs).count k

/-- A pool that carries out one job after the other. -/
def ThreadPool.inOrder : ThreadPool where
  schedule jobs := jobs.zipIdx.flatMap fun job => List.replicate job.1 job.2

/-- How a machine builds pools: for a number of threads, or for one that it chooses itself.  When
it builds none, it says why. -/
structure PoolBuilder where
  /-- The pool for a number of threads. -/
  build : Option Nat → Except String ThreadPool

/-- All pools that are built run all of their jobs. -/
def PoolBuilder.RunsAll (builder : PoolBuilder) : Prop :=
  ∀ threads pool, builder.build threads = .ok pool → pool.RunsAll

/-- Every pool is built, and carries out one job after the other. -/
def PoolBuilder.inOrder : PoolBuilder where
  build _ := .ok .inOrder

end Sampler

end TimeSignal
