/-
  What can go wrong when a program file is loaded or its arguments are
  converted.
-/
import Arbor.Registry.Lookup

set_option autoImplicit false

namespace Arbor

/-- Why a program cannot be loaded or called. -/
inductive ProgramError where
  /-- The file cannot be read. -/
  | io (path message : String)
  /-- The file is not JSON, or not a program. -/
  | json
  | unknownType (name : String)
  | structBase (name : String)
  | argumentCount (name : String) (expected found : Nat)
  | badValue (what expected found : String)
  | metadata (error : MetadataError)

namespace ProgramError

/-- Text of a program error. -/
def message : ProgramError → String
  | io path message => s!"cannot read {path}: {message}"
  | json => "invalid program JSON"
  | unknownType name => s!"unknown base type '{name}'"
  | structBase name => s!"structs cannot derive from '{name}'"
  | argumentCount name expected found => s!"{name} expects {expected} argument(s), got {found}"
  | badValue what expected found => s!"{what}: expected {expected}, found {found}"
  | metadata e => e.message

/-- Diagnostic code of a program error. -/
def code : ProgramError → String
  | io .. => "exprc::program::io"
  | json => "exprc::program::json"
  | unknownType _ => "exprc::program::unknown_type"
  | structBase _ => "exprc::program::struct_base"
  | argumentCount .. => "exprc::program::argument_count"
  | badValue .. => "exprc::program::bad_value"
  | metadata _ => "exprc::program::metadata"

/-- Advice that a diagnostic adds. -/
def help : ProgramError → Option String
  | json => some "see `exprc --help` for the program file layout"
  | unknownType _ => some "declare base classes before the types deriving from them"
  | _ => none

end ProgramError

end Arbor
