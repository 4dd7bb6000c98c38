import TimeSignal.Binary32.Basic

/-!
# Sources of random draws

Nothing that is evaluated holds a generator of its own: every evaluation threads the state of a
source through its draws, in the order in which it makes them.

## Main definitions

* `DrawSource`: a type of states with a way to draw the next number.
* `drawMany`: several draws in order.
* `Playback`: the source that repeats a recorded list of draws.
-/

namespace TimeSignal

/-- A type of states from which numbers are drawn, uniform in `[0, 1)` by intent. -/
class DrawSource (σ : Type) where
  /-- The next number, and the state after it. -/
  draw : StateM σ Binary32

/-- The next `n` numbers, in order. -/
def drawMany {σ : Type} [DrawSource σ] : Nat → StateM σ (List Binary32)
  | 0 => pure []
  | n + 1 => do
    let x ← DrawSource.draw
    let xs ← drawMany n
    pure (x :: xs)

/-- A recorded list of draws, read from its start again whenever it is used up. -/
structure Playback where
  /-- The whole record. -/
  record : List Binary32
  /-- The part that has not been read in this round. -/
  unread : List Binary32

namespace Playback

/-- The source at the start of a record. -/
def start (record : List Binary32) : Playback := ⟨record, record⟩

/-- The next recorded number; an empty record yields zeros. -/
def next (source : Playback) : Binary32 × Playback :=
  match source.unread with
  | x :: rest => (x, { source with unread := rest })
  | [] =>
    match source.record with
    | x :: rest => (x, { source with unread := rest })
    | [] => (0, source)

instance : DrawSource Playback := ⟨next⟩

end Playback

end TimeSignal
