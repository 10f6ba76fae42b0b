/-
  The ten numeric representations: eight integer kinds and two binary
  floating-point kinds, with their widths, ranges and spellings.
-/

set_option autoImplicit false

namespace Arbor

/-- A fixed-width integer representation. -/
inductive IntKind where
  | i8
  | u8
  | i16
  | u16
  | i32
  | u32
  | i64
  | u64
  deriving DecidableEq, Inhabited

namespace IntKind

/-- Whether the representation is two's complement. -/
def signed : IntKind → Bool
  | i8 | i16 | i32 | i64 => true
  | u8 | u16 | u32 | u64 => false

/-- Width in bits. -/
def bits : IntKind → Nat
  | i8 | u8 => 8
  | i16 | u16 => 16
  | i32 | u32 => 32
  | i64 | u64 => 64

/-- Number of bit patterns. -/
def modulus (k : IntKind) : Nat := Nat.pow 2 k.bits

/-- Smallest value of the kind. -/
def min (k : IntKind) : Int :=
  if k.signed then -(k.modulus / 2 : Nat) else 0

/-- Largest value of the kind. -/
def max (k : IntKind) : Int :=
  if k.signed then (k.modulus / 2 : Nat) - 1 else k.modulus - 1

/-- The kinds in declaration order. -/
def all : List IntKind := [i8, u8, i16, u16, i32, u32, i64, u64]

/-- Every range contains zero. -/
theorem min_le_zero (k : IntKind) : k.min ≤ 0 := by
  cases k <;> decide

/-- Every range reaches at least to one. -/
theorem one_le_max (k : IntKind) : 1 ≤ k.max := by
  cases k <;> decide

end IntKind

/-- A numeric representation: an integer kind, or a binary float of 32 or 64 bits. -/
inductive NumKind where
  | int (kind : IntKind)
  | single
  | double
  deriving DecidableEq, Inhabited

namespace NumKind

/-- The ten kinds in declaration order. -/
def all : List NumKind := IntKind.all.map int ++ [single, double]

/-- Whether the kind is a binary float. -/
def isFloat : NumKind → Bool
  | int _ => false
  | single | double => true

/-- Whether the kind is an integer kind. -/
def isIntegral (k : NumKind) : Bool := !k.isFloat

/-- Whether negative values are representable; floats are signed. -/
def isSigned : NumKind → Bool
  | int k => k.signed
  | single | double => true

/-- Width in bits. -/
def bits : NumKind → Nat
  | int k => k.bits
  | single => 32
  | double => 64

/-- Suffix that conversion and constant instructions carry in a listing. -/
def suffix : NumKind → String
  | int .i8 => "i1"
  | int .u8 => "u1"
  | int .i16 => "i2"
  | int .u16 => "u2"
  | int .i32 => "i4"
  | int .u32 => "u4"
  | int .i64 => "i8"
  | int .u64 => "u8"
  | single => "r4"
  | double => "r8"

/-- Surface spelling of the kind as a type. -/
def name : NumKind → String
  | int .i8 => "sbyte"
  | int .u8 => "byte"
  | int .i16 => "short"
  | int .u16 => "ushort"
  | int .i32 => "int"
  | int .u32 => "uint"
  | int .i64 => "long"
  | int .u64 => "ulong"
  | single => "float"
  | double => "double"

/-- Tag of the kind in tree files and in developer texts. -/
def tag : NumKind → String
  | int .i8 => "I8"
  | int .u8 => "U8"
  | int .i16 => "I16"
  | int .u16 => "U16"
  | int .i32 => "I32"
  | int .u32 => "U32"
  | int .i64 => "I64"
  | int .u64 => "U64"
  | single => "F32"
  | double => "F64"

/-- The kind with the given tag. -/
def ofTag? (text : String) : Option NumKind :=
  all.find? fun k => k.tag == text

end NumKind

end Arbor
