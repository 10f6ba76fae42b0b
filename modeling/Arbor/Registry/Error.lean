/-
  Why a lookup of a declared type or of one of its members has no answer.
-/
import Arbor.Code.Routine

set_option autoImplicit false

namespace Arbor

/-- The lists of members that a type has. -/
inductive MemberList where
  | field
  | property
  | method
  deriving DecidableEq

/-- Name of a member list in messages. -/
def MemberList.text : MemberList → String
  | field => "field"
  | property => "property"
  | method => "method"

/-- Why a lookup has no answer. -/
inductive MetadataError where
  | unknownType (id : TypeId)
  | unknownMember (typeName : String) (what : MemberList) (index : Nat)
  | unknownName (typeName : String) (name : String)
  /-- A type is its own base, or a struct holds itself. -/
  | endless (id : TypeId)
  deriving DecidableEq

/-- Text of a failed lookup. -/
def MetadataError.message : MetadataError → String
  | unknownType id => s!"unknown type #{id}"
  | unknownMember ty what index => s!"type '{ty}' has no {what.text} #{index}"
  | unknownName ty name => s!"type '{ty}' has no member named '{name}'"
  | endless id => s!"type #{id} contains itself"

end Arbor
