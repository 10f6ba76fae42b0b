/-
  Text of floating-point numbers: the shortest digits that read back, written
  positionally in a middle range of magnitudes and with an exponent outside it.
-/
import Arbor.Decimal.Shortest
import Arbor.Number.Basic

set_option autoImplicit false

namespace Arbor

/-- Where positional notation is used, how an exponent is marked and how ties are broken. A number
is positional when the digits before the point, counted from the first significant one (negative for
leading zeros after the point), lie between the two bounds. -/
structure FloatStyle where
  /-- Least position of the point that is written positionally. -/
  lowest : Int
  /-- Greatest position of the point that is written positionally. -/
  highest : Int
  /-- What stands before an exponent that is not negative. -/
  plus : String
  /-- Which of two equally near decimals is written. -/
  tie : Tie

/-- Positional from `0.0001` up to, but excluding, `1e16`; `1e20` has an unsigned exponent, and of
two equally near decimals the larger is written. -/
def FloatStyle.display : FloatStyle := ⟨-3, 16, "", .larger⟩

/-- Positional from `0.00001` up to, but excluding, `1e+16`, as data files write numbers; every
exponent is signed, and of two equally near decimals the one with an even last digit is written. -/
def FloatStyle.data : FloatStyle := ⟨-4, 16, "+", .even⟩

/-- A run of zeros. -/
def zeros (n : Nat) : String := String.ofList (List.replicate n '0')

namespace Decimal

/-- Writes a positive decimal in the given style; positional text has at least one fraction digit. -/
def text (style : FloatStyle) (d : Decimal) : String :=
  let digits := Nat.toDigits 10 d.digits
  let count := digits.length
  let point : Int := count + d.exponent
  if style.lowest ≤ point ∧ point ≤ style.highest then
    if point ≤ 0 then "0." ++ zeros (-point).toNat ++ String.ofList digits
    else if (count : Int) ≤ point then
      String.ofList digits ++ zeros (point - count).toNat ++ ".0"
    else
      String.ofList (digits.take point.toNat) ++ "." ++ String.ofList (digits.drop point.toNat)
  else
    let head := String.ofList (digits.take 1)
    let tail := String.ofList (digits.drop 1)
    let mantissa := if count ≤ 1 then head else head ++ "." ++ tail
    let sign := if 0 < point then style.plus else ""
    mantissa ++ "e" ++ sign ++ toString (point - 1)

end Decimal

namespace Binary

/-- Writes a finite float in the given style. -/
def text (style : FloatStyle) (b : Binary) : String :=
  let magnitude := if b.significand = 0 then "0.0" else (Decimal.shortest style.tie b).text style
  if b.negative then "-" ++ magnitude else magnitude

end Binary

namespace Num

/-- Printed text of a number: integers in decimal, floats by their shortest digits. -/
def text (a : Num) : String :=
  match a with
  | int _ w => toString w.val
  | a =>
      match a.binary? with
      | some b => b.text .display
      | none =>
          if a.isNaN then "NaN"
          else if a.toDouble < 0 then "-inf"
          else "inf"

end Num

end Arbor
