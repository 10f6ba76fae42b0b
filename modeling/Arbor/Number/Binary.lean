/-
  The exact value of a finite binary float, as sign, significand and power of
  two.  Truncation to an integer and the remainder of a division are computed
  on these exact values.
-/

set_option autoImplicit false

namespace Arbor

/-- A finite binary float: `significand · 2 ^ exponent`, negated if `negative`. -/
structure Binary where
  /-- The sign bit. -/
  negative : Bool
  /-- The integer significand. -/
  significand : Nat
  /-- The power of two that scales the significand. -/
  exponent : Int
  /-- The next smaller float is only half as far away as the next larger one. -/
  narrowBelow : Bool

namespace Binary

/-- Decodes a bit pattern with the given field widths; infinities and NaN have no exact value. -/
def ofBits? (fractionBits exponentBits : Nat) (pattern : Nat) : Option Binary :=
  let hidden := Nat.pow 2 fractionBits
  let fields := Nat.pow 2 exponentBits
  let fraction := pattern % hidden
  let field := pattern / hidden % fields
  let negative := pattern / (hidden * fields) % 2 == 1
  let bias : Int := (fields / 2 : Nat) - 1
  if field == fields - 1 then none
  else if field == 0 then some ⟨negative, fraction, 1 - bias - fractionBits, false⟩
  else
    some ⟨negative, hidden + fraction, field - bias - fractionBits,
      fraction == 0 && 1 < field⟩

/-- The exact value of a double, unless it is infinite or not a number. -/
def ofDouble? (x : Float) : Option Binary := ofBits? 52 11 x.toBits.toNat

/-- The exact value of a single, unless it is infinite or not a number. -/
def ofSingle? (x : Float32) : Option Binary := ofBits? 23 8 x.toBits.toNat

/-- The value rounded toward zero. -/
def truncate (b : Binary) : Int :=
  let magnitude : Nat :=
    if 0 ≤ b.exponent then b.significand * Nat.pow 2 b.exponent.toNat
    else b.significand / Nat.pow 2 (-b.exponent).toNat
  if b.negative then -(magnitude : Int) else magnitude

/-- Remainder of the magnitudes on the finer of the two binary grids: its integer part there. -/
def remainder (a b : Binary) : Nat × Int :=
  let grid := min a.exponent b.exponent
  let dividend := a.significand * Nat.pow 2 (a.exponent - grid).toNat
  let divisor := b.significand * Nat.pow 2 (b.exponent - grid).toNat
  (dividend % divisor, grid)

end Binary

/-- Remainder of the truncated division; the result has the sign of the dividend and is exact. -/
def remDouble (x y : Float) : Float :=
  match Binary.ofDouble? x, Binary.ofDouble? y with
  | some a, some b =>
      if b.significand == 0 then 0.0 / 0.0
      else
        let (rest, grid) := a.remainder b
        let magnitude := Float.scaleB (Float.ofNat rest) grid
        if a.negative then -magnitude else magnitude
  | some _, none => if y.isNaN then y else x
  | none, _ => 0.0 / 0.0

/-- Remainder of the truncated division of singles; the exact result is a single again. -/
def remSingle (x y : Float32) : Float32 :=
  (remDouble x.toFloat y.toFloat).toFloat32

end Arbor
