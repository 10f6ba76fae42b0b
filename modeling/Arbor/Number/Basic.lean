/-
  Numeric values: a word of some integer kind, a single or a double, with the
  exact readings that the rest of the library uses.
-/
import Arbor.Number.Word
import Arbor.Number.Binary

set_option autoImplicit false

namespace Arbor

/-- A number tagged with its representation. -/
inductive Num where
  | int (kind : IntKind) (word : Word kind)
  | single (value : Float32)
  | double (value : Float)

namespace Num

instance : Inhabited Num := ⟨int .i32 (.zero .i32)⟩

/-- The representation of a number. -/
def kind : Num → NumKind
  | int k _ => .int k
  | single _ => .single
  | double _ => .double

/-- A 32-bit signed number, wrapped into range. -/
def i32 (n : Int) : Num := int .i32 (.wrap .i32 n)

/-- The exact value of an integer number. -/
def toInt? : Num → Option Int
  | int _ w => some w.val
  | single _ | double _ => none

/-- The nearest double. -/
def toDouble : Num → Float
  | int _ w => Float.ofInt w.val
  | single x => x.toFloat
  | double x => x

/-- The exact value of a finite float; `none` for integers, infinities and NaN. -/
def binary? : Num → Option Binary
  | int _ _ => none
  | single x => Binary.ofSingle? x
  | double x => Binary.ofDouble? x

/-- Whether the number is not a number. -/
def isNaN : Num → Bool
  | int _ _ => false
  | single x => x.isNaN
  | double x => x.isNaN

/-- Numeric zero, of either sign. -/
def isZero : Num → Bool
  | int _ w => w.val == 0
  | single x => x == 0
  | double x => x == 0

/-- Equality of numbers: equal kinds and equal values, so NaN differs from itself. -/
def same : Num → Num → Bool
  | int j a, int k b => j == k && a.val == b.val
  | single x, single y => x == y
  | double x, double y => x == y
  | _, _ => false

/-- A float as a word: rounded toward zero, moved to the nearest end when out of range, NaN as zero. -/
def saturate (k : IntKind) (x : Float) : Word k :=
  match Binary.ofDouble? x with
  | some b => .clamp k b.truncate
  | none =>
      if x.isNaN then .zero k
      else if x < 0 then .clamp k k.min
      else .clamp k k.max

/-- The number as a 64-bit index: unsigned words are reinterpreted and floats saturate. -/
def toIndex : Num → Int
  | int _ w => (Word.wrap .i64 w.val).val
  | single x => (saturate .i64 x.toFloat).val
  | double x => (saturate .i64 x).val

/-- The zero of a kind. -/
def zero : NumKind → Num
  | .int k => int k (.zero k)
  | .single => single 0
  | .double => double 0

/-- The one of a kind, the step of increments and decrements. -/
def one : NumKind → Num
  | .int k => int k (.one k)
  | .single => single 1
  | .double => double 1

/-- The zero of a kind has that kind. -/
@[simp] theorem kind_zero (k : NumKind) : (zero k).kind = k := by
  cases k <;> rfl

/-- The one of a kind has that kind. -/
@[simp] theorem kind_one (k : NumKind) : (one k).kind = k := by
  cases k <;> rfl

end Num

end Arbor
