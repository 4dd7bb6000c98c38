import TimeSignal.Sampler.Batch
import Mathlib.Data.List.Basic

/-!
# A buffer and its chunks

Chunks of a common size are disjoint slices of a buffer that cover it.  A write that stays inside
one chunk changes this chunk as it would change a buffer of its own, and leaves all others as they
are.

## Main results

* `Sampler.flatMap_chunkOf`: the chunks of a list, one after the other, are the list
* `Sampler.overwrite_overwrite`: two writes, one right behind the other
* `Sampler.chunkOf_overwrite_self`, `Sampler.chunkOf_overwrite_of_ne`: what a write to one chunk
  does to it and to the others
-/

namespace TimeSignal

namespace Sampler

variable {α : Type}

/-! ## Coverage -/

theorem length_chunkOf (size k : Nat) (entries : List α) :
    (chunkOf size k entries).length = min size (entries.length - k * size) := by
  rw [chunkOf, List.length_take, List.length_drop]

theorem length_chunkOf_congr {entries : List α} {β : Type} {others : List β} (size k : Nat)
    (h : entries.length = others.length) :
    (chunkOf size k entries).length = (chunkOf size k others).length := by
  rw [length_chunkOf, length_chunkOf, h]

theorem map_chunkOf {β : Type} (f : α → β) (size k : Nat) (entries : List α) :
    chunkOf size k (entries.map f) = (chunkOf size k entries).map f := by
  rw [chunkOf, chunkOf, List.map_take, List.map_drop]

/-- The first `n` chunks are the first `n * size` entries. -/
theorem flatMap_chunkOf_range (size n : Nat) (entries : List α) :
    (List.range n).flatMap (fun k => chunkOf size k entries) = entries.take (n * size) := by
  induction n with
  | zero => simp
  | succ n ih =>
    rw [List.range_succ, List.flatMap_append, ih, List.flatMap_singleton, Nat.succ_mul,
      List.take_add, chunkOf]

theorem le_chunkCount_mul {size : Nat} (hs : 0 < size) (n : Nat) :
    n ≤ chunkCount size n * size := by
  have h := Nat.div_add_mod (n + size - 1) size
  have hr := Nat.mod_lt (n + size - 1) hs
  rw [Nat.mul_comm] at h
  unfold chunkCount
  omega

/-- There is nothing behind the last chunk. -/
theorem chunkOf_eq_nil {size k : Nat} (hs : 0 < size) {entries : List α}
    (h : chunkCount size entries.length ≤ k) : chunkOf size k entries = [] := by
  have hcover : entries.length ≤ k * size :=
    Nat.le_trans (le_chunkCount_mul hs entries.length) (Nat.mul_le_mul_right size h)
  rw [chunkOf, List.drop_eq_nil_of_le hcover, List.take_nil]

theorem flatMap_chunkOf {size : Nat} (hs : 0 < size) (entries : List α) :
    (List.range (chunkCount size entries.length)).flatMap (fun k => chunkOf size k entries) =
      entries := by
  rw [flatMap_chunkOf_range, List.take_of_length_le (le_chunkCount_mul hs entries.length)]

/-- A buffer is known from its chunks. -/
theorem eq_flatMap_of_chunkOf {size n : Nat} (hs : 0 < size) {entries : List α}
    (hn : entries.length = n) {values : Nat → List α}
    (h : ∀ k < chunkCount size n, chunkOf size k entries = values k) :
    entries = (List.range (chunkCount size n)).flatMap values := by
  calc entries
      = (List.range (chunkCount size n)).flatMap fun k => chunkOf size k entries := by
        rw [← hn, flatMap_chunkOf hs]
    _ = (List.range (chunkCount size n)).flatMap values :=
        List.flatMap_congr fun k hk => h k (List.mem_range.mp hk)

/-! ## Writes -/

@[simp] theorem overwrite_nil (buffer : List α) (start : Nat) :
    overwrite buffer start [] = buffer := by
  simp [overwrite]

theorem overwrite_zero {buffer values : List α} (h : values.length = buffer.length) :
    overwrite buffer 0 values = values := by
  simp [overwrite, h]

theorem length_overwrite {buffer values : List α} {start : Nat}
    (h : start + values.length ≤ buffer.length) :
    (overwrite buffer start values).length = buffer.length := by
  simp only [overwrite, List.length_append, List.length_take, List.length_drop]
  omega

/-- The part of a buffer up to the end of what was written to it. -/
theorem take_overwrite {buffer values : List α} {start : Nat}
    (h : start + values.length ≤ buffer.length) :
    (overwrite buffer start values).take (start + values.length) =
      buffer.take start ++ values := by
  apply List.take_left'
  rw [List.length_append, List.length_take]
  omega

/-- A write that goes on where another one ended makes one write with it. -/
theorem overwrite_overwrite {buffer values more : List α} {start next : Nat}
    (hn : start + values.length = next) (h : next + more.length ≤ buffer.length) :
    overwrite (overwrite buffer start values) next more =
      overwrite buffer start (values ++ more) := by
  subst hn
  have htake : (overwrite buffer start values).take (start + values.length) =
      buffer.take start ++ values := take_overwrite (Nat.le_of_add_right_le h)
  have hlength : (buffer.take start ++ values).length = start + values.length := by
    rw [List.length_append, List.length_take]
    omega
  have hdrop : (overwrite buffer start values).drop (start + values.length + more.length) =
      buffer.drop (start + values.length + more.length) := by
    rw [← List.drop_drop, overwrite, ← hlength, List.drop_left, hlength, List.drop_drop]
  rw [overwrite, htake, hdrop, overwrite, List.length_append, List.append_assoc _ values,
    Nat.add_assoc]

theorem getElem?_chunkOf (size k i : Nat) (entries : List α) :
    (chunkOf size k entries)[i]? = if i < size then entries[k * size + i]? else none := by
  rw [chunkOf, List.getElem?_take, List.getElem?_drop]

theorem getElem?_overwrite {buffer values : List α} {start : Nat}
    (h : start + values.length ≤ buffer.length) (i : Nat) :
    (overwrite buffer start values)[i]? =
      if start ≤ i ∧ i < start + values.length then values[i - start]? else buffer[i]? := by
  have hs : min start buffer.length = start := Nat.min_eq_left (by omega)
  rw [overwrite, List.getElem?_append, List.getElem?_append, List.length_append,
    List.length_take, hs, List.getElem?_take, List.getElem?_drop]
  by_cases hlow : i < start
  · rw [if_pos (by omega), if_pos hlow, if_pos hlow, if_neg (by omega)]
  · by_cases hhigh : i < start + values.length
    · rw [if_pos hhigh, if_neg hlow, if_pos (by omega)]
    · rw [if_neg hhigh, if_neg (by omega)]
      congr 1
      omega

section Writes

variable {size offset k : Nat} {buffer values : List α}
  (h : offset + values.length ≤ (chunkOf size k buffer).length)

include h

/-- A write inside a chunk stays inside the buffer. -/
theorem offset_add_length_le (hv : values ≠ []) :
    k * size + offset + values.length ≤ buffer.length := by
  have hpos := List.length_pos_of_ne_nil hv
  rw [length_chunkOf] at h
  omega

theorem length_overwrite_chunk :
    (overwrite buffer (k * size + offset) values).length = buffer.length := by
  rcases eq_or_ne values [] with rfl | hv
  · rw [overwrite_nil]
  · exact length_overwrite (offset_add_length_le h hv)

theorem chunkOf_overwrite_self :
    chunkOf size k (overwrite buffer (k * size + offset) values) =
      overwrite (chunkOf size k buffer) offset values := by
  rcases eq_or_ne values [] with rfl | hv
  · rw [overwrite_nil, overwrite_nil]
  · have hb := offset_add_length_le h hv
    apply List.ext_getElem?
    intro i
    rw [getElem?_chunkOf, getElem?_overwrite hb, getElem?_overwrite h, getElem?_chunkOf]
    rw [length_chunkOf] at h
    by_cases hi : i < size
    · rw [if_pos hi, if_pos hi, Nat.add_sub_add_left]
      exact if_congr (by omega) rfl rfl
    · rw [if_neg hi, if_neg hi, if_neg (by omega)]

theorem chunkOf_overwrite_of_ne {j : Nat} (hj : j ≠ k) :
    chunkOf size j (overwrite buffer (k * size + offset) values) = chunkOf size j buffer := by
  rcases eq_or_ne values [] with rfl | hv
  · rw [overwrite_nil]
  · have hb := offset_add_length_le h hv
    apply List.ext_getElem?
    intro i
    rw [getElem?_chunkOf, getElem?_chunkOf, getElem?_overwrite hb]
    rw [length_chunkOf] at h
    by_cases hi : i < size
    · -- The entries of chunk `j` lie before or behind those of chunk `k`.
      have hne : ¬(k * size + offset ≤ j * size + i ∧
          j * size + i < k * size + offset + values.length) := by
        rcases Nat.lt_or_gt_of_ne hj with hlt | hgt
        · have := Nat.mul_le_mul_right size (Nat.succ_le_of_lt hlt)
          rw [Nat.succ_mul] at this
          omega
        · have := Nat.mul_le_mul_right size (Nat.succ_le_of_lt hgt)
          rw [Nat.succ_mul] at this
          omega
      rw [if_pos hi, if_pos hi, if_neg hne]
    · rw [if_neg hi, if_neg hi]

end Writes

end Sampler

end TimeSignal
