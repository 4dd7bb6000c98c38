import TimeSignal.BinaryFormat

/-!
# Single-precision numbers

A single-precision number is a finite number with a sign, a signed infinity, or the one `nan`.
A finite number is its sign and the rank of its magnitude on the grid of the format, so there are
two zeros and no two other values coincide.

## Main definitions

* `Binary32`: the numbers.
* `Binary32.ofBits`, `Binary32.toBits`: the 32-bit patterns; all patterns of `nan` are one value.
* `Binary32.ofRank`: the number with a given sign and rank, infinite past the last finite rank.

## Main results

* `Binary32.ofBits_toBits`: a number is read back from its bit pattern.
-/

namespace TimeSignal

/-- A single-precision number. -/
inductive Binary32 where
  /-- The result of an operation without a value. -/
  | nan
  /-- An infinity. -/
  | infinite (negative : Bool)
  /-- A finite number, by its sign and the rank of its magnitude. -/
  | finite (negative : Bool) (rank : Fin 0x7f800000)
deriving DecidableEq, Inhabited

namespace Binary32

/-- The rank that stands for infinity. -/
abbrev infinityRank : Nat := 0x7f800000

theorem infinityRank_eq : BinaryFormat.binary32.infinityRank = infinityRank := by decide

/-- The number with the given sign and rank; an infinity from `infinityRank` on. -/
def ofRank (negative : Bool) (rank : Nat) : Binary32 :=
  if h : rank < infinityRank then finite negative ⟨rank, h⟩ else infinite negative

/-- The number nearest to `num / den` smallest positive numbers, with the given sign. -/
def nearest (negative : Bool) (num den : Nat) : Binary32 :=
  ofRank negative (BinaryFormat.binary32.nearest num den)

/-- The number nearest to a natural number. -/
def ofNat (n : Nat) : Binary32 :=
  ofRank false (BinaryFormat.binary32.ofNat n)

/-- The number with the given bit pattern. -/
def ofBits (bits : UInt32) : Binary32 :=
  let negative := 0x80000000 ≤ bits.toNat
  let rank := bits.toNat % 0x80000000
  if rank ≤ infinityRank then ofRank negative rank else nan

/-- The bit pattern of a number; `nan` has its quiet, positive pattern. -/
def toBits : Binary32 → UInt32
  | nan => 0x7fc00000
  | infinite negative => (if negative then 0x80000000 else 0) + 0x7f800000
  | finite negative rank => (if negative then 0x80000000 else 0) + UInt32.ofNat rank

/-- The zero with the given sign. -/
def signedZero (negative : Bool) : Binary32 := finite negative ⟨0, by decide⟩

/-- Positive zero. -/
def zero : Binary32 := signedZero false

/-- One. -/
def one : Binary32 := finite false ⟨0x3f800000, by decide⟩

/-- One half. -/
def half : Binary32 := finite false ⟨0x3f000000, by decide⟩

instance : Zero Binary32 := ⟨zero⟩

instance : One Binary32 := ⟨one⟩

/-- A number that is neither infinite nor `nan`. -/
def isFinite : Binary32 → Bool
  | finite _ _ => true
  | _ => false

/-- A zero of either sign. -/
def isZero : Binary32 → Bool
  | finite _ rank => rank.val == 0
  | _ => false

/-- The number with its sign changed. -/
def neg : Binary32 → Binary32
  | nan => nan
  | infinite negative => infinite (!negative)
  | finite negative rank => finite (!negative) rank

/-- The number without its sign. -/
def abs : Binary32 → Binary32
  | nan => nan
  | infinite _ => infinite false
  | finite _ rank => finite false rank

instance : Neg Binary32 := ⟨neg⟩

theorem ofRank_of_lt {negative : Bool} {rank : Nat} (h : rank < infinityRank) :
    ofRank negative rank = finite negative ⟨rank, h⟩ := by
  simp [ofRank, h]

/-- The bit pattern of a finite number is its rank, with the sign bit in front. -/
theorem toNat_toBits_finite (negative : Bool) (rank : Fin infinityRank) :
    (toBits (finite negative rank)).toNat = (if negative then 0x80000000 else 0) + rank.val := by
  have h := rank.isLt
  simp only [infinityRank] at h
  cases negative <;> simp [toBits] <;> omega

theorem ofBits_toBits (x : Binary32) : ofBits x.toBits = x := by
  cases x with
  | nan => rfl
  | infinite negative => cases negative <;> rfl
  | finite negative rank =>
    have h : rank.val < infinityRank := rank.isLt
    have magnitude : ((if negative then 0x80000000 else 0) + rank.val) % 0x80000000 = rank.val := by
      simp only [infinityRank] at h
      split <;> omega
    have sign :
        decide (0x80000000 ≤ (if negative then 0x80000000 else 0) + rank.val) = negative := by
      simp only [infinityRank] at h
      cases negative
      · simp only [Bool.false_eq_true, ↓reduceIte, decide_eq_false_iff_not]
        omega
      · simp
    simp only [ofBits, toNat_toBits_finite, magnitude, sign, Nat.le_of_lt h, ↓reduceIte]
    exact ofRank_of_lt h

@[simp] theorem neg_neg (x : Binary32) : - -x = x := by
  cases x <;> simp [Neg.neg, neg]

end Binary32

end TimeSignal
