/-
  Arithmetic at the declared width.  Operands of a binary operation share their
  kind (shift counts excepted); nothing is promoted or coerced.  Checked integer
  operations report overflow, unchecked ones wrap; division by zero and the
  quotient of the least value by minus one are faults in both modes.
-/
import Arbor.Number.Basic

set_option autoImplicit false

namespace Arbor

/-- Arithmetic operators. -/
inductive ArithOp where
  | add
  | sub
  | mul
  | div
  | rem
  deriving DecidableEq, Inhabited

namespace ArithOp

/-- The operators in declaration order. -/
def all : List ArithOp := [add, sub, mul, div, rem]

/-- Spelling in listings. -/
def mnemonic : ArithOp → String
  | add => "add"
  | sub => "sub"
  | mul => "mul"
  | div => "div"
  | rem => "rem"

/-- Tag in developer texts. -/
def tag : ArithOp → String
  | add => "Add"
  | sub => "Sub"
  | mul => "Mul"
  | div => "Div"
  | rem => "Rem"

end ArithOp

/-- Bitwise operators, on integer kinds only. -/
inductive BitOp where
  | and
  | or
  | xor
  | shl
  | shr
  deriving DecidableEq, Inhabited

namespace BitOp

/-- The operators in declaration order. -/
def all : List BitOp := [and, or, xor, shl, shr]

/-- Spelling in listings. -/
def mnemonic : BitOp → String
  | and => "and"
  | or => "or"
  | xor => "xor"
  | shl => "shl"
  | shr => "shr"

/-- Tag in developer texts. -/
def tag : BitOp → String
  | and => "And"
  | or => "Or"
  | xor => "Xor"
  | shl => "Shl"
  | shr => "Shr"

/-- Whether the operator shifts. -/
def isShift : BitOp → Bool
  | shl | shr => true
  | and | or | xor => false

end BitOp

/-- Why a numeric operation has no result. -/
inductive NumFault where
  | overflow
  | divideByZero
  | kindMismatch (left right : NumKind)
  | notIntegral (kind : NumKind)
  deriving DecidableEq

/-- Text of a numeric fault. -/
def NumFault.message : NumFault → String
  | overflow => "arithmetic operation resulted in an overflow"
  | divideByZero => "attempted to divide by zero"
  | kindMismatch l r => s!"operand kinds differ: {l.name} and {r.name}"
  | notIntegral k => s!"operation requires an integral operand, found {k.name}"

namespace Word

/-- The word with exactly the value `n`, or an overflow. -/
def exact (k : IntKind) (n : Int) : Except NumFault (Word k) :=
  match ofInt? k n with
  | some w => .ok w
  | none => .error .overflow

/-- The result `n` of an operation: exact or a fault when checked, wrapped otherwise. -/
def finish (k : IntKind) (checked : Bool) (n : Int) : Except NumFault (Word k) :=
  if checked then exact k n else .ok (wrap k n)

/-- Arithmetic on two values of the kind `k`. -/
def arith (k : IntKind) (op : ArithOp) (a b : Int) (checked : Bool) : Except NumFault (Word k) :=
  match op with
  | .add => finish k checked (a + b)
  | .sub => finish k checked (a - b)
  | .mul => finish k checked (a * b)
  | .div => if b = 0 then .error .divideByZero else exact k (a.tdiv b)
  | .rem =>
      if b = 0 then .error .divideByZero
      else (exact k (a.tdiv b)).map fun _ => wrap k (a.tmod b)

/-- Negation: `0 - a` under the same policy. -/
def neg (k : IntKind) (a : Int) (checked : Bool) : Except NumFault (Word k) :=
  finish k checked (-a)

/-- Bitwise complement. -/
def complement (k : IntKind) (a : Int) : Word k := wrap k (-a - 1)

/-- The number of places of a shift: the count is cut down to 32 bits and masked to the width. -/
def places (k : IntKind) (count : Int) : Nat :=
  (BitVec.ofInt 32 count &&& BitVec.ofNat 32 (k.bits - 1)).toNat

/-- Conjunction, disjunction and exclusive disjunction of the bit patterns, and shifts, of which the one
to the right keeps the sign. -/
def bitwise (k : IntKind) (op : BitOp) (a b : Int) : Word k :=
  let x := BitVec.ofInt k.bits a
  let y := BitVec.ofInt k.bits b
  let count := places k b
  match op with
  | .and => wrap k (x &&& y).toNat
  | .or => wrap k (x ||| y).toNat
  | .xor => wrap k (x ^^^ y).toNat
  | .shl => wrap k (a * Nat.pow 2 count)
  | .shr => wrap k (a / Nat.pow 2 count)

end Word

namespace Num

/-- Floats of magnitude `10 ^ 38` and above never convert to an integer with checks on. -/
def checkedLimit : Float := 1.0e38

/-- Conversion to the kind `k`.  Checked conversions fail when the value, rounded toward zero, is
out of range; unchecked ones wrap integers and saturate floats. -/
def convert (a : Num) (k : NumKind) (checked : Bool) : Except NumFault Num :=
  match a, k with
  | int _ w, .int k => (Word.finish k checked w.val).map (int k)
  | int _ w, .single => .ok (single (Float32.ofInt w.val))
  | int _ w, .double => .ok (double (Float.ofInt w.val))
  | a, .single => .ok (single a.toDouble.toFloat32)
  | a, .double => .ok (double a.toDouble)
  | a, .int k =>
      if checked then
        if checkedLimit ≤ a.toDouble.abs then .error .overflow
        else
          match Binary.ofDouble? a.toDouble with
          | some b => (Word.exact k b.truncate).map (int k)
          | none => .error .overflow
      else .ok (int k (saturate k a.toDouble))

/-- Unchecked conversion, which always has a result. -/
def cast (a : Num) (k : NumKind) : Num :=
  match a.convert k false with
  | .ok b => b
  | .error _ => zero k

/-- Arithmetic on two doubles. -/
def arithDouble (op : ArithOp) (x y : Float) : Float :=
  match op with
  | .add => x + y
  | .sub => x - y
  | .mul => x * y
  | .div => x / y
  | .rem => remDouble x y

/-- Arithmetic on two singles. -/
def arithSingle (op : ArithOp) (x y : Float32) : Float32 :=
  match op with
  | .add => x + y
  | .sub => x - y
  | .mul => x * y
  | .div => x / y
  | .rem => remSingle x y

/-- Arithmetic on two numbers of one kind. -/
def arith (op : ArithOp) (a b : Num) (checked : Bool) : Except NumFault Num :=
  match a, b with
  | int j x, int k y =>
      if j = k then (Word.arith j op x.val y.val checked).map (int j)
      else .error (.kindMismatch (.int j) (.int k))
  | single x, single y => .ok (single (arithSingle op x y))
  | double x, double y => .ok (double (arithDouble op x y))
  | a, b => .error (.kindMismatch a.kind b.kind)

/-- Arithmetic negation. -/
def neg (a : Num) (checked : Bool) : Except NumFault Num :=
  match a with
  | int k w => (Word.neg k w.val checked).map (int k)
  | single x => .ok (single (-x))
  | double x => .ok (double (-x))

/-- Bitwise complement of an integer. -/
def complement (a : Num) : Except NumFault Num :=
  match a with
  | int k w => .ok (int k (Word.complement k w.val))
  | a => .error (.notIntegral a.kind)

/-- Bitwise operation.  A shift count may be of any integer kind; other operands share theirs. -/
def bitwise (op : BitOp) (a b : Num) : Except NumFault Num :=
  match a, b with
  | int j x, int k y =>
      if op.isShift || j == k then .ok (int j (Word.bitwise j op x.val y.val))
      else .error (.kindMismatch (.int j) (.int k))
  | a, b =>
      if op.isShift then
        match b with
        | int _ _ => .error (.notIntegral a.kind)
        | b => .error (.notIntegral b.kind)
      else if a.kind = b.kind then .error (.notIntegral a.kind)
      else .error (.kindMismatch a.kind b.kind)

/-- Order of two floats; `none` when they are unordered. -/
def orderDouble (x y : Float) : Option Ordering :=
  if x < y then some .lt
  else if y < x then some .gt
  else if x == y then some .eq
  else none

/-- Order of two numbers of one kind; `none` when an operand is NaN. -/
def order (a b : Num) : Except NumFault (Option Ordering) :=
  match a, b with
  | int j x, int k y =>
      if j = k then .ok (some (compare x.val y.val))
      else .error (.kindMismatch (.int j) (.int k))
  | single x, single y => .ok (orderDouble x.toFloat y.toFloat)
  | double x, double y => .ok (orderDouble x y)
  | a, b => .error (.kindMismatch a.kind b.kind)

end Num

end Arbor
