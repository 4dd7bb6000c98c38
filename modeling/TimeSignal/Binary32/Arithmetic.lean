import TimeSignal.Binary32.Basic

/-!
# Single-precision arithmetic

Each operation forms the exact result in whole units and rounds once, to nearest with ties to even.

## Main definitions

* `Binary32.add`, `Binary32.sub`, `Binary32.mul`, `Binary32.div` and their instances.
* `Binary32.units`: the exact value of a finite number, a whole number of smallest positive numbers.

## Main results

* `Binary32.add_comm`, `Binary32.mul_comm`: sums and products do not depend on the order of their
  two operands, down to the sign of a zero.
-/

namespace TimeSignal

namespace Binary32

/-- The magnitude of a rank, in units of the smallest positive number. -/
def magnitude (rank : Fin infinityRank) : Nat := BinaryFormat.binary32.units rank

/-- The exact value in units of the smallest positive number; `0` for numbers without one. -/
def units : Binary32 → Int
  | finite false rank => magnitude rank
  | finite true rank => -magnitude rank
  | _ => 0

/-- The sum.  A sum that is exactly zero is negative only if both operands are. -/
def add : Binary32 → Binary32 → Binary32
  | nan, _ => nan
  | _, nan => nan
  | infinite a, infinite b => if a = b then infinite a else nan
  | infinite a, finite _ _ => infinite a
  | finite _ _, infinite b => infinite b
  | finite a m, finite b n =>
    let sum := (finite a m).units + (finite b n).units
    if sum = 0 then signedZero (a && b) else nearest (sum < 0) sum.natAbs 1

/-- The product; its sign is negative when exactly one operand is. -/
def mul : Binary32 → Binary32 → Binary32
  | nan, _ => nan
  | _, nan => nan
  | infinite a, infinite b => infinite (a ^^ b)
  | infinite a, finite b n => if n.val = 0 then nan else infinite (a ^^ b)
  | finite a m, infinite b => if m.val = 0 then nan else infinite (a ^^ b)
  | finite a m, finite b n => ofRank (a ^^ b) (BinaryFormat.binary32.mul m n)

/-- The quotient; a non-zero number over zero is infinite. -/
def div : Binary32 → Binary32 → Binary32
  | nan, _ => nan
  | _, nan => nan
  | infinite _, infinite _ => nan
  | infinite a, finite b _ => infinite (a ^^ b)
  | finite a _, infinite b => signedZero (a ^^ b)
  | finite a m, finite b n =>
    if n.val = 0 then
      if m.val = 0 then nan else infinite (a ^^ b)
    else ofRank (a ^^ b) (BinaryFormat.binary32.div m n)

instance : Add Binary32 := ⟨add⟩

instance : Mul Binary32 := ⟨mul⟩

instance : Div Binary32 := ⟨div⟩

/-- The difference is the sum with the second operand's sign changed. -/
instance : Sub Binary32 := ⟨fun x y => x + -y⟩

theorem sub_eq_add_neg (x y : Binary32) : x - y = x + -y := rfl

theorem add_comm (x y : Binary32) : x + y = y + x := by
  change add x y = add y x
  cases x <;> cases y <;> simp only [add]
  case infinite.infinite a b =>
    by_cases h : a = b
    · simp [h]
    · simp [h, Ne.symm h]
  case finite.finite a m b n =>
    rw [Int.add_comm, Bool.and_comm]

theorem mul_comm (x y : Binary32) : x * y = y * x := by
  change mul x y = mul y x
  cases x <;> cases y <;> simp only [mul, BinaryFormat.mul, Bool.xor_comm, Nat.mul_comm]

end Binary32

end TimeSignal
