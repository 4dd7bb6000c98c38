import TimeSignal.Proofs.Poly.Value
import TimeSignal.Proofs.Signal.Draws
import TimeSignal.Sampler.Compile

/-!
# Exact values of samplers

A sampler denotes a function of a rational time and of the values of its noise leaves, which it
takes in the order in which an evaluation draws them.  An evaluation rounds at each of its
operations. Where none of them rounds, it returns what the sampler denotes at the time that it is
given, for the numbers that it has drawn.

## Main definitions

* `Sampler.operations`: the rounded operations of an evaluation, in their order
* `Sampler.value`: the exact value at a rational time

## Main results

* `Cubic.toRat_horner`: nested products without rounding give the value of a polynomial
* `Sampler.toRat_sample`: an evaluation without rounding returns the exact value
* `Poly.value_compile`: a compiled tree denotes what the tree denotes
-/

namespace TimeSignal

open Binary32

/-! ## Operations -/

namespace Cubic

/-- The operations of `hornerOf`, from the last coefficient down. -/
def hornerOperations (t : Binary32) : List Binary32 → List Operation
  | [] => []
  | [_] => []
  | a :: rest =>
    hornerOperations t rest ++ [.mul (hornerOf t rest) t, .add (hornerOf t rest * t) a]

end Cubic

/-- The operations of `blend`; a difference is the sum with a changed sign. -/
def Binary32.blendOperations (start stop weight : Binary32) : List Operation :=
  [.add 1 (-weight), .mul (1 - weight) start, .mul weight stop,
    .add ((1 - weight) * start) (weight * stop)]

namespace Sampler

variable {σ : Type} [DrawSource σ]

/-- The operations of an evaluation at time `t`, in the order in which it carries them out. -/
def operations (t : Binary32) : Sampler → σ → List Operation
  | cubic p, _ => Cubic.hornerOperations t p.coeffs
  | noise, _ => []
  | add l r, source =>
    let left := l.sample t source
    let right := r.sample t left.2
    operations t l source ++ operations t r left.2 ++ [.add left.1 right.1]
  | mul l r, source =>
    let left := l.sample t source
    let right := r.sample t left.2
    operations t l source ++ operations t r left.2 ++ [.mul left.1 right.1]
  | lerp x y s, source =>
    let weight := s.sample t source
    let start := x.sample t weight.2
    let stop := y.sample t start.2
    operations t s source ++ operations t x weight.2 ++ operations t y start.2 ++
      blendOperations start.1 stop.1 weight.1
  | retime scale offset inner, source =>
    .mul t scale :: .add (t * scale) offset :: operations (t * scale + offset) inner source

/-! ## Exact values -/

/-- The value at time `t` when the noise leaves, in the order of evaluation, have the values `d`. -/
def value (t : ℚ) : Sampler → List ℚ → ℚ
  | cubic p, _ => p.value t
  | noise, d => d.headD 0
  | add l r, d => value t l (d.take l.draws) + value t r (d.drop l.draws)
  | mul l r, d => value t l (d.take l.draws) * value t r (d.drop l.draws)
  | lerp x y s, d =>
    let weight := value t s (d.take s.draws)
    let rest := d.drop s.draws
    (1 - weight) * value t x (rest.take x.draws) + weight * value t y (rest.drop x.draws)
  | retime scale offset inner, d => value (t * scale.toRat + offset.toRat) inner d

end Sampler

/-! ## Evaluation without rounding -/

theorem Cubic.toRat_hornerOf {t : Binary32} {coeffs : List Binary32}
    (h : ∀ o ∈ hornerOperations t coeffs, o.IsExact) :
    (hornerOf t coeffs).toRat =
      ∑ i ∈ Finset.range coeffs.length, (coeffs.getD i 0).toRat * t.toRat ^ i := by
  fun_induction hornerOf t coeffs with
  | case1 => simp
  | case2 a => simp
  | case3 a rest hrest ih =>
    rw [hornerOperations] at h
    · simp only [List.forall_mem_append, List.forall_mem_cons] at h
      obtain ⟨hinner, ⟨-, hmul⟩, ⟨-, hadd⟩, -⟩ := h
      change (hornerOf t rest * t).toRat = (hornerOf t rest).toRat * t.toRat at hmul
      change (hornerOf t rest * t + a).toRat = (hornerOf t rest * t).toRat + a.toRat at hadd
      rw [hadd, hmul, ih hinner, List.length_cons, Finset.sum_range_succ', Finset.sum_mul]
      simp [pow_succ, mul_assoc]
    · exact hrest

theorem Cubic.toRat_horner {p : Cubic} {t : Binary32}
    (h : ∀ o ∈ hornerOperations t p.coeffs, o.IsExact) : (p.horner t).toRat = p.value t.toRat :=
  toRat_hornerOf h

theorem Binary32.toRat_blend {x y s : Binary32} (h : ∀ o ∈ blendOperations x y s, o.IsExact) :
    (blend x y s).toRat = (1 - s.toRat) * x.toRat + s.toRat * y.toRat := by
  simp only [blendOperations, List.forall_mem_cons] at h
  obtain ⟨⟨-, hsub⟩, ⟨-, hstart⟩, ⟨-, hstop⟩, ⟨-, hadd⟩, -⟩ := h
  change (1 - s).toRat = toRat 1 + (-s).toRat at hsub
  change ((1 - s) * x).toRat = (1 - s).toRat * x.toRat at hstart
  change (s * y).toRat = s.toRat * y.toRat at hstop
  change (blend x y s).toRat = ((1 - s) * x).toRat + (s * y).toRat at hadd
  rw [hadd, hstart, hstop, hsub, toRat_one, toRat_neg]
  ring

variable {σ : Type} [DrawSource σ]

/-- The values of the next `n` draws. -/
def drawnValues (n : Nat) (source : σ) : List ℚ := (drawMany n source).1.map toRat

/-- Operands share the draws out in the order in which they are evaluated. -/
theorem take_drawnValues (m n : Nat) (source : σ) :
    (drawnValues (m + n) source).take m = drawnValues m source := by
  have hlength : ((drawMany m source).1.map toRat).length = m := by
    rw [List.length_map, length_drawMany]
  rw [drawnValues, drawMany_add_fst, List.map_append, List.take_left' hlength, drawnValues]

theorem drop_drawnValues (m n : Nat) (source : σ) :
    (drawnValues (m + n) source).drop m = drawnValues n (afterDraws m source) := by
  have hlength : ((drawMany m source).1.map toRat).length = m := by
    rw [List.length_map, length_drawMany]
  rw [drawnValues, drawMany_add_fst, List.map_append, List.drop_left' hlength, drawnValues]

namespace Sampler

/-- **An evaluation without rounding returns the exact value** at its time, for the numbers that it
draws. -/
theorem toRat_sample (n : Sampler) {t : Binary32} {source : σ}
    (h : ∀ o ∈ n.operations t source, o.IsExact) :
    (n.sample t source).1.toRat = n.value t.toRat (drawnValues n.draws source) := by
  induction n generalizing t source with
  | cubic p => exact Cubic.toRat_horner h
  | noise => rfl
  | add l r ihl ihr =>
    simp only [operations, List.forall_mem_append, List.forall_mem_singleton] at h
    obtain ⟨⟨hl, hr⟩, -, hadd⟩ := h
    change ((add l r).sample t source).1.toRat = _ + _ at hadd
    rw [hadd, ihl hl, ihr hr, value, draws, take_drawnValues, drop_drawnValues, sample_snd]
  | mul l r ihl ihr =>
    simp only [operations, List.forall_mem_append, List.forall_mem_singleton] at h
    obtain ⟨⟨hl, hr⟩, -, hmul⟩ := h
    change ((mul l r).sample t source).1.toRat = _ * _ at hmul
    rw [hmul, ihl hl, ihr hr, value, draws, take_drawnValues, drop_drawnValues, sample_snd]
  | lerp x y s ihx ihy ihs =>
    simp only [operations, List.forall_mem_append] at h
    obtain ⟨⟨⟨hs, hx⟩, hy⟩, hblend⟩ := h
    rw [sample_lerp]
    dsimp only
    rw [toRat_blend hblend, ihs hs, ihx hx, ihy hy, value, draws]
    simp only [Nat.add_assoc, take_drawnValues, drop_drawnValues, sample_snd]
  | retime scale offset inner ih =>
    simp only [operations, List.forall_mem_cons] at h
    obtain ⟨⟨-, hscale⟩, ⟨-, hoffset⟩, hinner⟩ := h
    change (t * scale).toRat = t.toRat * scale.toRat at hscale
    change (t * scale + offset).toRat = (t * scale).toRat + offset.toRat at hoffset
    have hvalue := ih hinner
    rw [hoffset, hscale] at hvalue
    exact hvalue

end Sampler

namespace Poly

/-! ## Compiled trees -/

theorem draws_compile (p : Poly) : p.compile.draws = p.draws := by
  induction p with
  | concrete | noise => rfl
  | add l r ihl ihr | mul l r ihl ihr => rw [compile, Sampler.draws, ihl, ihr, draws]

/-- A compiled tree denotes what the tree denotes. -/
theorem value_compile (p : Poly) (t : ℚ) (d : List ℚ) : p.compile.value t d = p.value t d := by
  induction p generalizing d with
  | concrete | noise => rfl
  | add l r ihl ihr | mul l r ihl ihr =>
    rw [compile, Sampler.value, draws_compile, ihl, ihr, value]

end Poly

end TimeSignal
