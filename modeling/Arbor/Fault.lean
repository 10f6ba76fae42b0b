/-
  The faults that the machine raises on its own, each with the name of its
  exception type and its default message.
-/
import Arbor.Number.Arith

set_option autoImplicit false

namespace Arbor

/-- A fault that the machine can raise. -/
inductive Fault where
  | nullReference
  | indexOutOfRange
  | overflow
  | divideByZero
  | invalidCast
  | argument
  | invalidOperation
  deriving DecidableEq, Inhabited

namespace Fault

/-- The faults in the order of their exception types. -/
def all : List Fault :=
  [nullReference, indexOutOfRange, overflow, divideByZero, invalidCast, argument, invalidOperation]

/-- Name of the exception type. -/
def typeName : Fault → String
  | nullReference => "NullReferenceException"
  | indexOutOfRange => "IndexOutOfRangeException"
  | overflow => "OverflowException"
  | divideByZero => "DivideByZeroException"
  | invalidCast => "InvalidCastException"
  | argument => "ArgumentException"
  | invalidOperation => "InvalidOperationException"

/-- Message of the exception that the machine raises. -/
def message : Fault → String
  | nullReference => "Object reference not set to an instance of an object."
  | indexOutOfRange => "Index was outside the bounds of the array."
  | overflow => "Arithmetic operation resulted in an overflow."
  | divideByZero => "Attempted to divide by zero."
  | invalidCast => "Specified cast is not valid."
  | argument => "Value does not fall within the expected range."
  | invalidOperation => "Operation is not valid due to the current state of the object."

/-- The fault whose exception type has the given name. -/
def ofTypeName? (name : String) : Option Fault :=
  all.find? fun f => f.typeName == name

/-- Short name of the fault. -/
def tag : Fault → String
  | nullReference => "NullReference"
  | indexOutOfRange => "IndexOutOfRange"
  | overflow => "Overflow"
  | divideByZero => "DivideByZero"
  | invalidCast => "InvalidCast"
  | argument => "Argument"
  | invalidOperation => "InvalidOperation"

/-- The fault with the given short name. -/
def ofTag? (text : String) : Option Fault := all.find? fun f => f.tag == text

/-- Position of the fault among all faults. -/
def index : Fault → Nat
  | nullReference => 0
  | indexOutOfRange => 1
  | overflow => 2
  | divideByZero => 3
  | invalidCast => 4
  | argument => 5
  | invalidOperation => 6

/-- Name of the root exception type. -/
def rootTypeName : String := "Exception"

end Fault

/-- The fault that stands for a failed numeric operation. -/
def NumFault.fault : NumFault → Fault
  | overflow => .overflow
  | divideByZero => .divideByZero
  | kindMismatch _ _ | notIntegral _ => .invalidOperation

end Arbor
