/-
  Why a tree that is well-formed as data cannot be compiled.
-/
import Arbor.Registry.Lookup
import Arbor.Tree.Basic

set_option autoImplicit false

namespace Arbor

/-- The two accessors of a property. -/
inductive Accessor where
  | getter
  | setter
  deriving DecidableEq

/-- Word for an accessor. -/
def Accessor.text : Accessor → String
  | getter => "getter"
  | setter => "setter"

/-- Why a tree cannot be compiled. -/
inductive CompileError where
  | argumentCount (what : String) (expected found : Nat)
  /-- The kind of node that was to be assigned. -/
  | notAssignable (kind : String)
  | typeMismatch (context expected found : String)
  | missingAccessor (member : String) (accessor : Accessor)
  | notSupported (what : String)
  | unknownVariable (id : VarId)
  | unknownLabel (id : LabelId)
  | build (error : BuildError)
  | metadata (error : MetadataError)
  deriving DecidableEq

namespace CompileError

/-- Text of a compile error. -/
def message : CompileError → String
  | argumentCount what expected found => s!"{what} expects {expected} argument(s), got {found}"
  | notAssignable kind => s!"{kind} expression is not assignable"
  | typeMismatch context expected found =>
      s!"type mismatch in {context}: expected {expected}, found {found}"
  | missingAccessor member accessor => s!"{member} has no {accessor.text}"
  | notSupported what => s!"unsupported: {what}"
  | unknownVariable id => s!"variable #{id} is not in scope"
  | unknownLabel id => s!"label #{id} is not defined in this function"
  | build e => s!"internal emission error: {e.message}"
  | metadata e => s!"metadata lookup failed: {e.message}"

/-- Diagnostic code of a compile error. -/
def code : CompileError → String
  | argumentCount .. => "exprc::argument_count"
  | notAssignable _ => "exprc::not_assignable"
  | typeMismatch .. => "exprc::type_mismatch"
  | missingAccessor .. => "exprc::missing_accessor"
  | notSupported _ => "exprc::unsupported"
  | unknownVariable _ => "exprc::unknown_variable"
  | unknownLabel _ => "exprc::unknown_label"
  | build _ => "exprc::internal"
  | metadata _ => "exprc::metadata"

/-- Advice that a diagnostic adds. -/
def help : CompileError → Option String
  | notAssignable _ =>
      some
        "assign to a variable, field, property, array or list element, or closure variable"
  | _ => none

end CompileError

end Arbor
