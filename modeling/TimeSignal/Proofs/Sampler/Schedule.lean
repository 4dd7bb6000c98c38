import TimeSignal.Proofs.Sampler.Batch
import Mathlib.Algebra.Order.BigOperators.Group.List
import Mathlib.Algebra.Order.Ring.Nat

/-!
# Chunks that are sampled at the same time

When the threads of a pool sample the chunks of a batch, their writes to the buffer come in any
order.  A worker holds the times that its chunk has left and the generator of the chunk, so the next
write of a worker depends on its own writes alone.  Every schedule that finishes all chunks leaves
the buffer that sampling them one by one leaves, and a pool that runs all jobs has such a schedule.

## Main definitions

* `Sampler.Progress.OnTrack`: what the writes of a chunk so far and those to come add up to
* `Sampler.Progress.Sound`: all chunks are on track
* `Sampler.Progress.Finished`: no chunk has times left

## Main results

* `Sampler.Progress.Sound.step`, `Sampler.Progress.sound_run`: the writes to one chunk disturb no
  other, and every chunk stays on track
* `Sampler.Progress.Sound.buffer_eq`: a finished batch holds the values of all chunks
* `Sampler.Progress.finished_run_iff`: a run is finished when each chunk has had its turns
* `Sampler.samplePool_eq_ok`: a pool that runs all jobs samples the values of the batch
* `Sampler.sampleBatch_eq_ok_iff`, `Sampler.sampleBatch_fault_iff`: the outcome of a batch
* `Sampler.sampleBatch_of_schedule`: neither threads nor order show in the result of a batch
-/

namespace TimeSignal

namespace Sampler

/-! ## The writes of a worker -/

theorem writeCount_eq_zero_iff {n : Nat} : writeCount n = 0 ↔ n = 0 := by
  unfold writeCount
  omega

theorem writeCount_of_lt {n : Nat} (h : n < 3) : writeCount n = writeCount (n + 1) - 1 := by
  unfold writeCount
  omega

theorem writeCount_add_four (n : Nat) : writeCount n = writeCount (n + 4) - 1 := by
  unfold writeCount
  omega

namespace Worker

/-- The values that a worker has still to write. -/
def pending (s : Sampler) (w : Worker) : List Binary32 := (sampleAll s w.left w.generator).1

/-- A write takes its values from the front of the pending ones. -/
structure Advances (s : Sampler) (w : Worker) (values : List Binary32) (next : Worker) : Prop where
  /-- The values written and those that stay pending. -/
  pending : w.pending s = values ++ next.pending s
  /-- As many times as values are done. -/
  left : w.left.length = values.length + next.left.length
  /-- All values are counted. -/
  written : next.written = w.written + values.length
  /-- One write less is to come, if there was any. -/
  writes : writeCount next.left.length = writeCount w.left.length - 1

theorem advance_group (s : Sampler) (written : Nat) (a b c d : Binary32) (rest : List Binary32)
    (generator : SplitMix) :
    advance s ⟨written, a :: b :: c :: d :: rest, generator⟩ =
      let group := s.sample4 ⟨a, b, c, d⟩ generator
      (group.1.toList, ⟨written + 4, rest, group.2⟩) := rfl

theorem advance_single (s : Sampler) (written : Nat) {t : Binary32} {rest : List Binary32}
    (h : rest.length < 3) (generator : SplitMix) :
    advance s ⟨written, t :: rest, generator⟩ =
      let value := s.sample t generator
      ([value.1], ⟨written + 1, rest, value.2⟩) := by
  match rest, h with
  | [], _ | [_], _ | [_, _], _ => rfl
  | _ :: _ :: _ :: _, h =>
    simp only [List.length_cons] at h
    omega

theorem advances_advance (s : Sampler) (w : Worker) :
    Advances s w (w.advance s).1 (w.advance s).2 := by
  obtain ⟨written, left, generator⟩ := w
  induction left using group_induction with
  | nil => exact ⟨rfl, rfl, rfl, show writeCount 0 = writeCount 0 - 1 from rfl⟩
  | single t rest hr _ =>
    rw [advance_single s written hr]
    refine ⟨?_, Nat.add_comm _ _, rfl, writeCount_of_lt hr⟩
    rw [pending, sampleAll_single s hr]
    rfl
  | group a b c d rest _ =>
    rw [advance_group]
    exact ⟨rfl, Nat.add_comm rest.length 4, rfl, writeCount_add_four rest.length⟩

end Worker

/-! ## A batch under way -/

variable (s : Sampler) (size : Nat) (seed : UInt64) (times : List Binary32)

namespace Progress

theorem workers_step_self (s : Sampler) (size : Nat) (p : Progress) (k : Nat) :
    (p.step s size k).workers k = ((p.workers k).advance s).2 :=
  if_pos rfl

theorem workers_step_of_ne (s : Sampler) (size : Nat) (p : Progress) {j k : Nat} (h : j ≠ k) :
    (p.step s size k).workers j = p.workers j :=
  if_neg h

/-- No worker has times left. -/
def Finished (p : Progress) : Prop := ∀ k, (p.workers k).left = []

/-- The writes to chunk `k` so far and those to come are its values, and fill its slice. -/
structure OnTrack (p : Progress) (k : Nat) : Prop where
  /-- What is written and what is pending. -/
  values : (chunkOf size k p.buffer).take (p.workers k).written ++ (p.workers k).pending s =
    sampleChunk s size seed times k
  /-- Each time of the chunk is done or left. -/
  length : (p.workers k).written + (p.workers k).left.length = (chunkOf size k times).length

/-- The buffer has a place for each time, and all chunks are on track. -/
structure Sound (p : Progress) : Prop where
  /-- The length of the buffer. -/
  length_buffer : p.buffer.length = times.length
  /-- The chunks. -/
  onTrack : ∀ k, OnTrack s size seed times p k

theorem sound_start : Sound s size seed times (start size seed times) := by
  refine ⟨List.length_replicate, fun k => ⟨rfl, Nat.zero_add _⟩⟩

variable {s size seed times} {p : Progress}

/-- The next write of a worker stays in the slice of its chunk. -/
theorem Sound.write_le (h : Sound s size seed times p) (k : Nat) :
    (p.workers k).written + ((p.workers k).advance s).1.length ≤
      (chunkOf size k p.buffer).length := by
  have ha := (Worker.advances_advance s (p.workers k)).left
  have hl := (h.onTrack k).length
  rw [length_chunkOf_congr size k h.length_buffer]
  omega

/-- **A write keeps every chunk on track**: its own, because the written values move over from the
pending ones, and all others, because it does not reach their slices. -/
theorem Sound.step (h : Sound s size seed times p) (k : Nat) :
    Sound s size seed times (p.step s size k) := by
  have hw := h.write_le k
  refine ⟨(length_overwrite_chunk hw).trans h.length_buffer, fun j => ?_⟩
  by_cases hj : j = k
  · subst hj
    obtain ⟨hp, hl, hn, -⟩ := Worker.advances_advance s (p.workers j)
    obtain ⟨hv, hc⟩ := h.onTrack j
    refine ⟨?_, ?_⟩
    · rw [workers_step_self, hn]
      calc _ = (overwrite (chunkOf size j p.buffer) (p.workers j).written
              ((p.workers j).advance s).1).take
              ((p.workers j).written + ((p.workers j).advance s).1.length) ++
            ((p.workers j).advance s).2.pending s := by
            rw [← chunkOf_overwrite_self hw]
            rfl
        _ = (chunkOf size j p.buffer).take (p.workers j).written ++
            (((p.workers j).advance s).1 ++ ((p.workers j).advance s).2.pending s) := by
            rw [take_overwrite hw, List.append_assoc]
        _ = sampleChunk s size seed times j := by rw [← hp, hv]
    · rw [workers_step_self, hn]
      omega
  · obtain ⟨hv, hc⟩ := h.onTrack j
    refine ⟨?_, ?_⟩
    · rw [workers_step_of_ne s size p hj, ← hv]
      congr 2
      exact chunkOf_overwrite_of_ne hw hj
    · rw [workers_step_of_ne s size p hj, hc]

theorem sound_run (schedule : List Nat) :
    Sound s size seed times (run s size seed times schedule) :=
  List.foldlRecOn schedule _ (sound_start s size seed times) fun _ h k _ => h.step k

/-! ## Finished batches -/

/-- A finished chunk holds its values. -/
theorem OnTrack.chunkOf_buffer (hb : p.buffer.length = times.length) {k : Nat}
    (h : OnTrack s size seed times p k) (hl : (p.workers k).left = []) :
    chunkOf size k p.buffer = sampleChunk s size seed times k := by
  obtain ⟨hv, hc⟩ := h
  have hp : (p.workers k).pending s = [] := by
    rw [Worker.pending, hl]
    rfl
  rw [hl, List.length_nil, Nat.add_zero] at hc
  rwa [hp, List.append_nil, hc, ← length_chunkOf_congr size k hb, List.take_length] at hv

theorem Sound.buffer_eq (hs : 0 < size) (h : Sound s size seed times p) (hf : p.Finished) :
    p.buffer = batchValues s size seed times :=
  eq_batchValues_of_chunkOf s size seed times hs h.length_buffer fun k _ =>
    (h.onTrack k).chunkOf_buffer h.length_buffer (hf k)

/-- A write takes one from the writes that its chunk has left. -/
theorem writeCount_step (s : Sampler) (size : Nat) (p : Progress) (k j : Nat) :
    writeCount ((p.step s size k).workers j).left.length =
      writeCount (p.workers j).left.length - if k = j then 1 else 0 := by
  split_ifs with hj
  · subst hj
    rw [workers_step_self, (Worker.advances_advance s (p.workers k)).writes]
  · rw [workers_step_of_ne s size p (Ne.symm hj), Nat.sub_zero]

theorem writeCount_foldl (s : Sampler) (size : Nat) (p : Progress) (schedule : List Nat) (j : Nat) :
    writeCount ((schedule.foldl (step s size) p).workers j).left.length =
      writeCount (p.workers j).left.length - schedule.count j := by
  induction schedule generalizing p with
  | nil => rfl
  | cons k schedule ih =>
    rw [List.foldl_cons, ih, writeCount_step, List.count_cons, Nat.sub_sub, Nat.add_comm]
    simp only [beq_iff_eq]

/-- A run is finished when every chunk has had as many turns as it takes writes, and not before. -/
theorem finished_run_iff {schedule : List Nat} :
    (run s size seed times schedule).Finished ↔
      ∀ k, writeCount (chunkOf size k times).length ≤ schedule.count k := by
  refine forall_congr' fun k => ?_
  have hcount : writeCount ((run s size seed times schedule).workers k).left.length =
      writeCount (chunkOf size k times).length - schedule.count k :=
    writeCount_foldl s size (start size seed times) schedule k
  rw [← List.length_eq_zero_iff, ← writeCount_eq_zero_iff, hcount, Nat.sub_eq_zero_iff_le]

end Progress

/-! ## A pool of threads -/

/-- The pool that carries out one job after the other gives a job all of its turns at once. -/
theorem ThreadPool.runsAll_inOrder : ThreadPool.inOrder.RunsAll := by
  intro jobs k steps h
  have hturns : List.replicate steps k ∈
      jobs.zipIdx.map fun job => List.replicate job.1 job.2 :=
    List.mem_map.mpr ⟨(steps, k), List.mem_zipIdx_iff_getElem?.mpr h, rfl⟩
  calc steps = (List.replicate steps k).count k := List.count_replicate_self.symm
    _ ≤ (inOrder.schedule jobs).count k := (List.sublist_flatten_of_mem hturns).count_le k

theorem PoolBuilder.runsAll_inOrder : PoolBuilder.inOrder.RunsAll := by
  rintro threads pool ⟨⟩
  exact ThreadPool.runsAll_inOrder

section Slices

variable {size times}

theorem checkSlice_eq_ok {buffer : List Binary32} (h : buffer.length = times.length) (k : Nat) :
    checkSlice size times buffer k = .ok () :=
  if_pos (length_chunkOf_congr size k h).symm

theorem forM_checkSlice {buffer : List Binary32} (h : buffer.length = times.length)
    (chunks : List Nat) : forM chunks (checkSlice size times buffer) = .ok () := by
  induction chunks with
  | nil => rfl
  | cons k chunks ih =>
    rw [List.forM_cons, checkSlice_eq_ok h]
    exact ih

end Slices

/-- All slices have the length of their times, so the pool makes its writes. -/
theorem samplePool_eq_run (pool : ThreadPool) :
    samplePool s size seed times pool =
      .ok (Progress.run s size seed times (pool.schedule (batchJobs size times))).buffer := by
  dsimp only [samplePool]
  rw [forM_checkSlice List.length_replicate]
  rfl

/-- A pool that runs all jobs finishes every chunk: those of the batch have their turns, and those
behind the last one are empty. -/
theorem ThreadPool.RunsAll.finished {size : Nat} (hs : 0 < size) {pool : ThreadPool}
    (h : pool.RunsAll) :
    (Progress.run s size seed times (pool.schedule (batchJobs size times))).Finished := by
  refine Progress.finished_run_iff.mpr fun k => ?_
  by_cases hk : k < chunkCount size times.length
  · refine h _ k _ ?_
    rw [batchJobs, List.getElem?_map, List.getElem?_range hk, Option.map_some]
  · rw [chunkOf_eq_nil hs (Nat.le_of_not_lt hk)]
    exact Nat.zero_le _

/-- A pool that runs all jobs leaves the values of the batch. -/
theorem samplePool_eq_ok {size : Nat} (hs : 0 < size) {pool : ThreadPool} (h : pool.RunsAll) :
    samplePool s size seed times pool = .ok (batchValues s size seed times) := by
  rw [samplePool_eq_run, (Progress.sound_run _).buffer_eq hs (h.finished s seed times hs)]

/-! ## The result of a batch -/

/-- A batch is refused when it is to use no thread, and otherwise only in parallel, when the machine
builds no pool. -/
theorem sampleBatch_eq_error_iff {options : BatchOptions} {builder : PoolBuilder}
    {e : SamplingError} :
    s.sampleBatch times options builder = .error e ↔
      (options.threads = some 0 ∧ e = .noThreads) ∨
        (options.threads ≠ some 0 ∧ options.parallel = true ∧
          ∃ cause, builder.build options.threads = .error cause ∧ e = .noPool cause) := by
  unfold sampleBatch
  split_ifs with hthreads hparallel
  · rw [Except.error.injEq, eq_comm]
    simp [hthreads]
  · cases hbuild : builder.build options.threads with
    | error cause =>
      rw [Except.error.injEq, eq_comm]
      simp [hthreads, hparallel]
    | ok pool => simp [hthreads, samplePool_eq_run]
  · simp [hthreads, hparallel, sampleChunks_eq_ok]

/-- The fault of a refused batch: zero threads are an argument out of range, and a pool that is not
built is reported in the words of the machine. -/
theorem sampleBatch_fault_iff {options : BatchOptions} {builder : PoolBuilder} {fault : Fault} :
    (s.sampleBatch times options builder).mapError SamplingError.toFault = .error fault ↔
      (options.threads = some 0 ∧
          fault = .validation "batch sampling 'threads' must be >= 1 when set") ∨
        (options.threads ≠ some 0 ∧ options.parallel = true ∧
          ∃ cause, builder.build options.threads = .error cause ∧
            fault = .other ("failed to build rayon thread pool: " ++ cause)) := by
  have hmap : ∀ result : Except SamplingError (List Binary32),
      result.mapError SamplingError.toFault = .error fault ↔
        ∃ e, result = .error e ∧ e.toFault = fault := by
    intro result
    cases result <;> simp [Except.mapError]
  simp only [hmap, sampleBatch_eq_error_iff]
  constructor
  · rintro ⟨e, ⟨ht, rfl⟩ | ⟨ht, hp, cause, hc, rfl⟩, rfl⟩
    · exact .inl ⟨ht, rfl⟩
    · exact .inr ⟨ht, hp, cause, hc, rfl⟩
  · rintro (⟨ht, rfl⟩ | ⟨ht, hp, cause, hc, rfl⟩)
    · exact ⟨_, .inl ⟨ht, rfl⟩, rfl⟩
    · exact ⟨_, .inr ⟨ht, hp, cause, hc, rfl⟩, rfl⟩

/-- A batch that is not refused has the values of all chunks in order, in parallel too if the pools
run all of their jobs. -/
theorem sampleBatch_eq_ok_iff {options : BatchOptions} {builder : PoolBuilder}
    (hruns : options.parallel = true → builder.RunsAll) {values : List Binary32} :
    s.sampleBatch times options builder = .ok values ↔
      options.threads ≠ some 0 ∧
        (options.parallel = true → ∃ pool, builder.build options.threads = .ok pool) ∧
        batchValues s options.chunk options.seed times = values := by
  have hs := BatchOptions.chunk_pos options
  unfold sampleBatch
  split_ifs with hthreads hparallel
  · simp [hthreads]
  · cases hbuild : builder.build options.threads with
    | error cause => simp [hparallel]
    | ok pool => simp [hthreads, samplePool_eq_ok _ _ _ hs (hruns hparallel _ _ hbuild)]
  · rw [sampleChunks_eq_batchValues _ _ _ _ hs fun _ hk => List.mem_range.mpr hk]
    simp [hthreads, hparallel]

/-- **Neither threads nor the order of the chunks show in the result of a batch.**  With any number
of threads but zero, a batch has one value for each time, and these are the values of the chunks in
order; in parallel, the machine must build a pool, and its pools must run all of their jobs.  The
values of chunk `k` are what sampling the times of this chunk from stream `k` of the seed writes.
The same values result when the chunks are sampled one by one in any order, on every pool that runs
all jobs, and when the writes of the chunks come in any order; such a run comes to its end exactly
when every chunk has had a turn for each of its writes.  Without noise, each value is that of its
time alone. -/
theorem sampleBatch_of_schedule (s : Sampler) (times : List Binary32) (options : BatchOptions)
    (builder : PoolBuilder) (h : options.threads ≠ some 0)
    (hruns : options.parallel = true → builder.RunsAll)
    (hbuilt : options.parallel = true → ∃ pool, builder.build options.threads = .ok pool) :
    let size := options.chunk
    let values := (List.range (chunkCount size times.length)).flatMap
      (sampleChunk s size options.seed times)
    s.sampleBatch times options builder = .ok values ∧
      values.length = times.length ∧
      (∀ k < chunkCount size times.length,
        chunkOf size k values = sampleChunk s size options.seed times k) ∧
      (∀ k (slice : List Binary32), slice.length = (chunkOf size k times).length →
        ((sampleInto s (chunkOf size k times) slice).run
          (SplitMix.stream options.seed (UInt64.ofNat k))).1 =
            .ok (sampleChunk s size options.seed times k)) ∧
      (∀ order : List Nat, order.Perm (List.range (chunkCount size times.length)) →
        sampleChunks s size options.seed times order = .ok values) ∧
      (∀ pool : ThreadPool, pool.RunsAll →
        samplePool s size options.seed times pool = .ok values) ∧
      (∀ schedule : List Nat, (Progress.run s size options.seed times schedule).Finished →
        (Progress.run s size options.seed times schedule).buffer = values) ∧
      (∀ schedule : List Nat, (Progress.run s size options.seed times schedule).Finished ↔
        ∀ k, writeCount (chunkOf size k times).length ≤ schedule.count k) ∧
      (s.draws = 0 → ∀ {σ : Type} [DrawSource σ] (source : σ),
        values = times.map fun t => (s.sample t source).1) := by
  intro size values
  have hs : 0 < size := BatchOptions.chunk_pos options
  obtain ⟨hlength, hslices⟩ := batchValues_slices s size options.seed times hs
  refine ⟨(sampleBatch_eq_ok_iff s times hruns).mpr ⟨h, hbuilt, rfl⟩, hlength, hslices,
    ?_, ?_, ?_, ?_, ?_, ?_⟩
  · intro k slice hl
    rw [run_sampleInto_of_length_eq s hl.symm]
    rfl
  · intro order ho
    exact sampleChunks_eq_batchValues s size _ times hs fun k hk =>
      ho.mem_iff.mpr (List.mem_range.mpr hk)
  · intro pool hp
    exact samplePool_eq_ok s _ times hs hp
  · intro schedule hf
    exact (Progress.sound_run schedule).buffer_eq hs hf
  · intro schedule
    exact Progress.finished_run_iff
  · intro hd σ _ source
    exact batchValues_eq_map s size _ times hs hd source

/-- A pool that gives all jobs one turn after the other, as often as they have steps together. -/
def ThreadPool.inTurns : ThreadPool where
  schedule jobs := (List.replicate jobs.sum (List.range jobs.length)).flatten

theorem ThreadPool.runsAll_inTurns : ThreadPool.inTurns.RunsAll := by
  intro jobs k steps h
  obtain ⟨hk, -⟩ := List.getElem?_eq_some_iff.mp h
  have hcount : (inTurns.schedule jobs).count k = jobs.sum := by
    rw [inTurns, List.count_flatten, List.map_replicate, List.count_range, if_pos hk,
      List.sum_replicate_nat, Nat.mul_one]
  rw [hcount]
  exact List.le_sum_of_mem (List.mem_of_getElem? h)

/-- Every pool is built, and gives its jobs their turns. -/
def PoolBuilder.inTurns : PoolBuilder where
  build _ := .ok .inTurns

/-- Three threads, and chunks of two times. -/
def threeThreads : BatchOptions := ⟨true, 2, some 3, 7⟩

/-- Five times, which make two full chunks and a partial one. -/
def fiveTimes : List Binary32 := [0, 1, Binary32.half, 1, 0]

theorem sampleBatch_of_schedule_threeThreads :
    threeThreads.threads ≠ some 0 ∧ PoolBuilder.inTurns.RunsAll ∧
      PoolBuilder.inTurns.build threeThreads.threads = .ok .inTurns ∧
      noise.sampleBatch fiveTimes threeThreads .inTurns =
        sampleChunks noise 2 7 fiveTimes [2, 0, 1] ∧
      ((sampleInto noise [0] [1]).run (SplitMix.stream 7 2)).1 =
        .ok (chunkOf 2 2 (writeChunks noise 2 7 fiveTimes [2, 0, 1])) ∧
      samplePool noise 2 7 fiveTimes .inOrder = noise.sampleBatch fiveTimes threeThreads .inTurns ∧
      (Progress.run noise 2 7 fiveTimes [1, 2, 0, 1, 0]).Finished ∧
      .ok (Progress.run noise 2 7 fiveTimes [1, 2, 0, 1, 0]).buffer =
        sampleChunks noise 2 7 fiveTimes [2, 0, 1] ∧
      (cubic Cubic.identity).sampleBatch fiveTimes threeThreads .inTurns =
        .ok (fiveTimes.map fun t => ((cubic Cubic.identity).sample t (Playback.start [])).1) := by
  have ht : threeThreads.threads ≠ some 0 := by decide
  have hruns : PoolBuilder.inTurns.RunsAll := by
    rintro threads pool ⟨⟩
    exact ThreadPool.runsAll_inTurns
  have hbuilt : threeThreads.parallel = true →
      ∃ pool, PoolBuilder.inTurns.build threeThreads.threads = .ok pool := fun _ => ⟨_, rfl⟩
  obtain ⟨hok, -, hslices, hinto, horder, hpool, hbuffer, hfinished, -⟩ :=
    sampleBatch_of_schedule noise fiveTimes threeThreads .inTurns ht (fun _ => hruns) hbuilt
  obtain ⟨hok', -, -, -, -, -, -, -, hmap⟩ := sampleBatch_of_schedule (cubic Cubic.identity)
    fiveTimes threeThreads .inTurns ht (fun _ => hruns) hbuilt
  have horder' := horder [2, 0, 1] (by decide)
  have hcount : ∀ k, writeCount (chunkOf threeThreads.chunk k fiveTimes).length ≤
      [1, 2, 0, 1, 0].count k := by
    intro k
    match k with
    | 0 | 1 | 2 => decide
    | k + 3 =>
      rw [chunkOf_eq_nil (BatchOptions.chunk_pos threeThreads) (Nat.le_add_left 3 k)]
      exact Nat.zero_le _
  have hf := (hfinished _).mpr hcount
  refine ⟨ht, hruns, rfl, hok.trans horder'.symm, ?_, ?_, hf, ?_, ?_⟩
  · have hwritten := Except.ok.inj ((sampleChunks_eq_ok noise 2 7 fiveTimes [2, 0, 1]).symm.trans
      horder')
    rw [hwritten]
    exact (hinto 2 [1] rfl).trans (congrArg Except.ok (hslices 2 (by decide)).symm)
  · exact (hpool .inOrder ThreadPool.runsAll_inOrder).trans hok.symm
  · exact (congrArg Except.ok (hbuffer _ hf)).trans horder'.symm
  · rw [hok', ← hmap rfl]

end Sampler

end TimeSignal
