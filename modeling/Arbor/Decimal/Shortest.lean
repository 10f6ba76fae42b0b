/-
  The shortest decimal that reads back to a given binary float.

  A decimal reads back when it lies in the interval of reals that round to the
  float; the ends belong to the interval exactly when the significand is even.
  For one, two, ... digits the two neighbours of the float on that decimal grid
  are tested in exact integer arithmetic.  The first grid with a hit wins; of
  two hits the nearer one, and of two equally near ones the one that the format
  prefers.
-/
import Arbor.Number.Binary

set_option autoImplicit false

namespace Arbor

/-- A decimal `digits · 10 ^ exponent`. -/
structure Decimal where
  /-- The significant digits as one number. -/
  digits : Nat
  /-- The power of ten that scales them. -/
  exponent : Int
  deriving DecidableEq, Inhabited

/-- Which of two equally near neighbours on a grid is taken. -/
inductive Tie where
  /-- The larger one. -/
  | larger
  /-- The one with an even last digit. -/
  | even
  deriving DecidableEq, Inhabited

/-- Whether the smaller of two equally near neighbours `below` and `below + 1` is taken. -/
def Tie.keepsBelow (tie : Tie) (below : Nat) : Bool :=
  match tie with
  | larger => false
  | even => below % 2 == 0

namespace Decimal

/-- Number of decimal digits of a positive number. -/
def width (n : Nat) : Nat := (Nat.toDigits 10 n).length

/-- Drops trailing zeros; `fuel` bounds their number. -/
def trim : Nat → Decimal → Decimal
  | 0, d => d
  | fuel + 1, d =>
      if d.digits ≠ 0 ∧ d.digits % 10 = 0 then trim fuel ⟨d.digits / 10, d.exponent + 1⟩ else d

/-- `base ^ e` as a fraction, for an exponent of either sign. -/
def powFraction (base : Nat) (e : Int) : Nat × Nat :=
  if 0 ≤ e then (Nat.pow base e.toNat, 1) else (1, Nat.pow base (-e).toNat)

/-- The exponent `p` with `10 ^ (p - 1) ≤ num / den < 10 ^ p`, for a positive fraction. -/
def point (num den : Nat) : Int :=
  if den ≤ num then width (num / den)
  else
    let inverse := (den + num - 1) / num
    1 - (width (inverse - 1) : Int)

/-- Tests the two neighbours of the float on the grid `10 ^ grid`. -/
def onGrid? (tie : Tie) (b : Binary) (grid : Int) : Option Decimal :=
  -- All bounds are quarters of the last binary place.
  let (binNum, binDen) := powFraction 2 (b.exponent - 2)
  let (decNum, decDen) := powFraction 10 grid
  let step := decNum * binDen
  let scale := binNum * decDen
  let value := 4 * b.significand * scale
  let low := (4 * b.significand - (if b.narrowBelow then 1 else 2)) * scale
  let high := (4 * b.significand + 2) * scale
  let closed := b.significand % 2 == 0
  let below := value / step
  let inLow := if closed then low ≤ below * step else low < below * step
  let inHigh := if closed then (below + 1) * step ≤ high else (below + 1) * step < high
  if inLow && inHigh then
    let twice := 2 * (value - below * step)
    if twice < step || (twice == step && tie.keepsBelow below) then some ⟨below, grid⟩
    else some ⟨below + 1, grid⟩
  else if inLow then some ⟨below, grid⟩
  else if inHigh then some ⟨below + 1, grid⟩
  else none

/-- Searches the grids with `count`, `count + 1`, ... digits before the point `p`. -/
def search (tie : Tie) (b : Binary) (p : Int) : Nat → Nat → Decimal
  | 0, count => (onGrid? tie b (p - count)).getD ⟨0, 0⟩
  | fuel + 1, count =>
      match onGrid? tie b (p - count) with
      | some d => d
      | none => search tie b p fuel (count + 1)

/-- The shortest decimal of the magnitude of a float; seventeen digits always suffice. -/
def shortest (tie : Tie) (b : Binary) : Decimal :=
  if b.significand = 0 then ⟨0, 0⟩
  else
    let (num, den) := powFraction 2 b.exponent
    trim 20 (search tie b (point (b.significand * num) den) 17 1)

end Decimal

end Arbor
