import TimeSignal.Proofs.Signal.Draws

/-!
# Four lanes on one source

Evaluation at four times draws at each noise leaf for all lanes, lane after lane, before it goes on
to the next leaf.  So the draws that reach one lane are every fourth draw of the source, and the
value of the lane is that of an evaluation at one time that has these draws to itself.

## Main definitions

* `drawAt`: the draw that a source makes after a number of others
* `Selected`: a source that makes chosen draws of another one
* `Feeds`: the first draws of one source are those of one lane of another
* `Sampler.sampleEach`: four evaluations, one after the other

## Main results

* `Sampler.sample4_snd`: four lanes draw four times for each noise leaf
* `Sampler.get_sample4`: a lane has the value of an evaluation on the draws of this lane
* `Sampler.sample4_lanewise`: what relates the values at one time relates those of each lane
* `Sampler.sample_fst_congr`: a value depends on as many draws as there are noise leaves
* `Sampler.sample4_eq_sampleEach`: without noise, four lanes are four evaluations
-/

namespace TimeSignal

variable {σ τ : Type} [DrawSource σ] [DrawSource τ]

/-! ## The draws of one lane -/

/-- The number drawn from a source after `k` others. -/
def drawAt (k : Nat) (source : σ) : Binary32 := (DrawSource.draw (afterDraws k source)).1

theorem drawAt_zero (source : σ) : drawAt 0 source = (DrawSource.draw source).1 := rfl

theorem drawAt_afterDraws (k n : Nat) (source : σ) :
    drawAt k (afterDraws n source) = drawAt (n + k) source := by
  rw [drawAt, drawAt, afterDraws_add]

/-- A source that makes chosen draws of another source. -/
structure Selected (σ : Type) where
  /-- The other source. -/
  source : σ
  /-- The numbers of the chosen draws, in the order in which they are made. -/
  number : Nat → Nat

namespace Selected

/-- The next chosen draw. -/
def next (selected : Selected σ) : Binary32 × Selected σ :=
  (drawAt (selected.number 0) selected.source,
    ⟨selected.source, fun k => selected.number (k + 1)⟩)

instance : DrawSource (Selected σ) := ⟨next⟩

theorem afterDraws_eq (n : Nat) (selected : Selected σ) :
    afterDraws n selected = ⟨selected.source, fun k => selected.number (k + n)⟩ := by
  induction n generalizing selected with
  | zero => rfl
  | succ n ih =>
    rw [afterDraws_succ, ih]
    exact congrArg (mk selected.source) (funext fun k => congrArg selected.number (by omega))

theorem drawAt_eq (k : Nat) (source : σ) (number : Nat → Nat) :
    drawAt k (⟨source, number⟩ : Selected σ) = drawAt (number k) source := by
  rw [drawAt, afterDraws_eq, DrawSource.draw]
  exact congrArg (fun n => drawAt (number n) source) (Nat.zero_add k)

end Selected

/-- The first `n` draws of `lane` are every fourth draw of `source`, from draw `i` on. -/
def Feeds (i : Fin 4) (n : Nat) (source : σ) (lane : τ) : Prop :=
  ∀ k < n, drawAt k lane = drawAt (4 * k + i) source

namespace Feeds

variable {i : Fin 4} {m n : Nat} {source : σ} {lane : τ}

/-- Without draws any source will do. -/
theorem of_eq_zero (h : n = 0) : Feeds i n source lane := by
  intro k hk
  omega

/-- Every lane can have its draws to itself. -/
theorem selected (i : Fin 4) (n : Nat) (source : σ) :
    Feeds i n source (⟨source, fun k => 4 * k + i⟩ : Selected σ) := by
  intro k _
  rw [Selected.drawAt_eq]

theorem left (h : Feeds i (m + n) source lane) : Feeds i m source lane := by
  intro k hk
  exact h k (by omega)

/-- After `m` draws of the lane the source has made four times as many. -/
theorem right (h : Feeds i (m + n) source lane) :
    Feeds i n (afterDraws (4 * m) source) (afterDraws m lane) := by
  intro k hk
  rw [drawAt_afterDraws, drawAt_afterDraws, h (m + k) (by omega)]
  congr 1
  omega

theorem head (h : Feeds i 1 source lane) : (DrawSource.draw lane).1 = drawAt i source := by
  have hd := h 0 Nat.one_pos
  rwa [drawAt_zero, Nat.mul_zero, Nat.zero_add] at hd

end Feeds

namespace Lanes

theorem draw_snd (source : σ) : (draw source).2 = afterDraws 4 source := rfl

theorem get_draw (source : σ) (i : Fin 4) : (draw source).1.get i = drawAt i source := by
  unfold get
  split <;> rfl

theorem eq_of_get_eq {a b : Lanes} (h : ∀ i, a.get i = b.get i) : a = b := by
  obtain ⟨a₀, a₁, a₂, a₃⟩ := a
  obtain ⟨b₀, b₁, b₂, b₃⟩ := b
  rw [mk.injEq]
  exact ⟨h 0, h 1, h 2, h 3⟩

end Lanes

namespace Sampler

/-! ## Evaluation of the composite samplers -/

theorem sample4_add (t : Lanes) (l r : Sampler) (source : σ) :
    (add l r).sample4 t source =
      (Lanes.map₂ (· + ·) (l.sample4 t source).1 (r.sample4 t (l.sample4 t source).2).1,
        (r.sample4 t (l.sample4 t source).2).2) := rfl

theorem sample4_mul (t : Lanes) (l r : Sampler) (source : σ) :
    (mul l r).sample4 t source =
      (Lanes.map₂ (· * ·) (l.sample4 t source).1 (r.sample4 t (l.sample4 t source).2).1,
        (r.sample4 t (l.sample4 t source).2).2) := rfl

theorem sample4_lerp (t : Lanes) (x y s : Sampler) (source : σ) :
    (lerp x y s).sample4 t source =
      let weight := s.sample4 t source
      (Lanes.map₃ Binary32.blend (x.sample4 t weight.2).1
          (y.sample4 t (x.sample4 t weight.2).2).1 weight.1,
        (y.sample4 t (x.sample4 t weight.2).2).2) := rfl

/-! ## How often four lanes draw -/

theorem sample4_snd (n : Sampler) (t : Lanes) (source : σ) :
    (n.sample4 t source).2 = afterDraws (4 * n.draws) source := by
  induction n generalizing t source with
  | cubic => rfl
  | noise => exact Lanes.draw_snd source
  | add l r ihl ihr => rw [sample4_add, ihr, ihl, draws, Nat.mul_add, afterDraws_add]
  | mul l r ihl ihr => rw [sample4_mul, ihr, ihl, draws, Nat.mul_add, afterDraws_add]
  | lerp x y s ihx ihy ihs =>
    rw [sample4_lerp, draws, Nat.mul_add, Nat.mul_add, afterDraws_add, afterDraws_add]
    simp only [ihx, ihy, ihs]
  | retime scale offset inner ih => exact ih _ source

theorem readings_sample4 (n : Sampler) (t : Lanes) (source : σ) :
    readings (n.sample4 t) source = (drawMany (4 * n.draws) source).1 :=
  readings_eq_drawMany (sample4_snd n t) source

/-! ## The value of one lane -/

/-- A lane has the value of an evaluation at its time on a source that makes its draws. -/
theorem get_sample4 (n : Sampler) (t : Lanes) {i : Fin 4} {source : σ} {lane : τ}
    (h : Feeds i n.draws source lane) :
    (n.sample4 t source).1.get i = (n.sample (t.get i) lane).1 := by
  -- Each operand starts where the one before it leaves both sources, which `Feeds.right` follows.
  induction n generalizing t source lane with
  | cubic p => exact Lanes.get_map p.horner t i
  | noise =>
    calc (Lanes.draw source).1.get i = drawAt i source := Lanes.get_draw source i
      _ = (DrawSource.draw lane).1 := h.head.symm
  | add l r ihl ihr =>
    rw [sample4_add, Lanes.get_map₂, sample_add, ihl t h.left, sample4_snd, sample_snd,
      ihr t h.right]
  | mul l r ihl ihr =>
    rw [sample4_mul, Lanes.get_map₂, sample_mul, ihl t h.left, sample4_snd, sample_snd,
      ihr t h.right]
  | lerp x y s ihx ihy ihs =>
    rw [sample4_lerp, sample_lerp]
    simp only [Lanes.get_map₃, sample4_snd, sample_snd]
    -- The weight draws first, then the start, then the stop.
    have hs : Feeds i s.draws source lane := h.left.left
    have hx := h.left.right
    have hy := h.right
    rw [Nat.mul_add, afterDraws_add, afterDraws_add] at hy
    rw [ihs t hs, ihx t hx, ihy t hy]
  | retime scale offset inner ih =>
    have hi := ih (t.map fun u => u * scale + offset) h
    rw [Lanes.get_map] at hi
    exact hi

/-- What relates the values of two samplers at one time relates those of each lane. -/
theorem sample4_lanewise {R : Binary32 → Binary32 → Prop} {m n : Sampler}
    (h : ∀ (t : Binary32) (lane : Selected σ), R (m.sample t lane).1 (n.sample t lane).1)
    (t : Lanes) (source : σ) (i : Fin 4) :
    R ((m.sample4 t source).1.get i) ((n.sample4 t source).1.get i) := by
  rw [get_sample4 m t (.selected i m.draws source), get_sample4 n t (.selected i n.draws source)]
  exact h (t.get i) _

/-- An evaluation tells sources apart only by as many draws as there are noise leaves. -/
theorem sample_fst_congr (n : Sampler) (t : Binary32) {source : σ} {other : τ}
    (h : ∀ k < n.draws, drawAt k source = drawAt k other) :
    (n.sample t source).1 = (n.sample t other).1 := by
  -- Both are the first lane of one evaluation, whose source repeats each draw for all lanes.
  let lanes : Selected σ := ⟨source, fun k => k / 4⟩
  have hlanes : ∀ k, drawAt (4 * k + (0 : Fin 4)) lanes = drawAt k source := by
    intro k
    rw [Selected.drawAt_eq]
    congr 1
    simp
  have hs : Feeds 0 n.draws lanes source := fun k _ => (hlanes k).symm
  have ho : Feeds 0 n.draws lanes other := fun k hk => by rw [← h k hk, hlanes]
  have hl := get_sample4 n (Lanes.replicate t) hs
  rw [get_sample4 n (Lanes.replicate t) ho, Lanes.get_replicate] at hl
  exact hl.symm

/-! ## Samplers without noise -/

/-- The values at four times, evaluated at one time after the other. -/
def sampleEach (t : Lanes) (n : Sampler) : StateM σ Lanes := do
  let first ← n.sample t.first
  let second ← n.sample t.second
  let third ← n.sample t.third
  let fourth ← n.sample t.fourth
  pure ⟨first, second, third, fourth⟩

theorem sampleEach_eq (t : Lanes) (n : Sampler) (source : σ) :
    n.sampleEach t source =
      let first := n.sample t.first source
      let second := n.sample t.second first.2
      let third := n.sample t.third second.2
      let fourth := n.sample t.fourth third.2
      (⟨first.1, second.1, third.1, fourth.1⟩, fourth.2) := rfl

section NoNoise

variable {n : Sampler} (h : n.draws = 0)

include h

theorem sample_snd_of_draws_eq_zero (t : Binary32) (source : σ) :
    (n.sample t source).2 = source := by
  rw [sample_snd, h, afterDraws_zero]

/-- A sampler without noise has one value at a time, whatever the source. -/
theorem sample_fst_eq_of_draws_eq_zero (t : Binary32) (source : σ) (other : τ) :
    (n.sample t source).1 = (n.sample t other).1 := by
  apply sample_fst_congr
  intro k hk
  omega

theorem sample4_eq_of_draws_eq_zero (t : Lanes) (source : σ) :
    n.sample4 t source = (t.map fun u => (n.sample u source).1, source) := by
  refine Prod.ext (Lanes.eq_of_get_eq fun i => ?_) ?_
  · rw [Lanes.get_map]
    exact get_sample4 n t (.of_eq_zero h)
  · rw [sample4_snd, h, Nat.mul_zero, afterDraws_zero]

theorem sample4_eq_sampleEach (t : Lanes) (source : σ) :
    n.sample4 t source = n.sampleEach t source := by
  rw [sample4_eq_of_draws_eq_zero h, sampleEach_eq]
  simp only [sample_snd_of_draws_eq_zero h]
  rfl

end NoNoise

/-- **A lane evaluates as if it were alone.**  From any state of any source, evaluation at four
times draws four times for each noise leaf.  The value in lane `i` is that of an evaluation at the
time of this lane, from any source whose draws are every fourth draw of the first source, from draw
`i` on.
Without noise, the four values are those of four evaluations, and the source stays as it is. -/
theorem sample4_refines_sample (n : Sampler) (t : Lanes) (source : σ) :
    (n.sample4 t source).2 = afterDraws (4 * n.draws) source ∧
      (∀ (i : Fin 4) {τ : Type} [DrawSource τ] (lane : τ), Feeds i n.draws source lane →
        (n.sample4 t source).1.get i = (n.sample (t.get i) lane).1) ∧
      (n.draws = 0 →
        n.sample4 t source = n.sampleEach t source ∧ (n.sample4 t source).2 = source) := by
  refine ⟨sample4_snd n t source, fun i τ _ lane h => get_sample4 n t h, fun h => ⟨?_, ?_⟩⟩
  · exact sample4_eq_sampleEach h t source
  · rw [sample4_snd, h, Nat.mul_zero, afterDraws_zero]

/-- A blend of noise with noise at a shifted time, by a weight that is noise. -/
def noisyBlend : Sampler := lerp noise (retime 1 1 (add (cubic Cubic.identity) noise)) noise

/-- The recorded draws `k / 4` for the given `k`. -/
def quarters (counts : List Nat) : Playback :=
  Playback.start (counts.map fun k => Binary32.ofNat k * (Binary32.half * Binary32.half))

theorem sample4_refines_sample_noisyBlend :
    Feeds 2 noisyBlend.draws (quarters (List.range 12)) (quarters [2, 6, 10]) ∧
      (noisyBlend.sample4 ⟨0, 1, Binary32.half, 1⟩ (quarters (List.range 12))).1.get 2 =
        (noisyBlend.sample Binary32.half (quarters [2, 6, 10])).1 ∧
      (retime 1 1 (cubic Cubic.identity)).draws = 0 ∧
      (retime 1 1 (cubic Cubic.identity)).sample4 ⟨0, 1, Binary32.half, 1⟩ (quarters [3]) =
        (retime 1 1 (cubic Cubic.identity)).sampleEach ⟨0, 1, Binary32.half, 1⟩ (quarters [3]) := by
  have h : Feeds 2 noisyBlend.draws (quarters (List.range 12)) (quarters [2, 6, 10]) := by
    unfold Feeds
    decide +kernel
  have hd : (retime 1 1 (cubic Cubic.identity)).draws = 0 := rfl
  exact ⟨h, (sample4_refines_sample noisyBlend _ _).2.1 2 _ h, hd,
    ((sample4_refines_sample _ _ _).2.2 hd).1⟩

end Sampler

end TimeSignal
