import TimeSignal.Binary32.Arithmetic
import TimeSignal.Random.Source

/-!
# The SplitMix generator

A generator is one 64-bit word.  A step adds a fixed odd constant to it and mixes the sum; the mixed
word is the result.  Words wrap around at `2 ^ 64`.

## Main definitions

* `SplitMix.next`: the next 64-bit result.
* `SplitMix.fraction`: the top 24 bits of a result, as a fraction in `[0, 1)`.
* `SplitMix.stream`: the generator of one of many independent streams of a seed.
-/

namespace TimeSignal

/-- A generator is determined by its current word. -/
structure SplitMix where
  /-- The current word. -/
  state : UInt64
deriving DecidableEq

namespace SplitMix

/-- The increment of the state. -/
def increment : UInt64 := 0x9E3779B97F4A7C15

/-- The output function: two rounds of shift, exclusive or and multiply, and a last shift. -/
def mix (word : UInt64) : UInt64 :=
  let first := (word ^^^ (word >>> 30)) * 0xBF58476D1CE4E5B9
  let second := (first ^^^ (first >>> 27)) * 0x94D049BB133111EB
  second ^^^ (second >>> 31)

/-- The generator started from a seed. -/
def ofSeed (seed : UInt64) : SplitMix := ⟨seed⟩

/-- The next result and the generator after it. -/
def next (generator : SplitMix) : UInt64 × SplitMix :=
  let state := generator.state + increment
  (mix state, ⟨state⟩)

/-- The generator of stream `index` of a seed. -/
def stream (seed index : UInt64) : SplitMix :=
  ofSeed (ofSeed (seed ^^^ (index * 0xD6E8FEB86659FD93))).next.1

/-- The spacing of the fractions, `2 ^ (-24)`. -/
def fractionStep : Binary32 := .finite false ⟨0x33800000, by decide⟩

/-- The top 24 bits of a word as a fraction in `[0, 1)`. -/
def fraction (word : UInt64) : Binary32 := Binary32.ofNat (word >>> 40).toNat * fractionStep

instance : DrawSource SplitMix := ⟨fun generator =>
  let (word, generator) := generator.next
  (fraction word, generator)⟩

/-- The next `n` results, in order. -/
def nextMany : Nat → StateM SplitMix (List UInt64)
  | 0 => pure []
  | n + 1 => do
    let word ← next
    let words ← nextMany n
    pure (word :: words)

end SplitMix

end TimeSignal
