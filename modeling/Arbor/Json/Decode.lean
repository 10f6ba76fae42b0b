/-
  Reading typed data out of JSON values.

  A record is an object with named fields, of which unknown ones are ignored and
  known ones may not be repeated, or an array with the fields in order.  A
  variant is a string naming it, or an object with the name as its only key; the
  fields of a variant may stand in an array in text only.
-/
import Arbor.Json.Basic
import Arbor.Number.Word

set_option autoImplicit false

namespace Arbor.Json

mutual

/-- How deep containers are nested in the value, itself included. -/
def depth : Json → Nat
  | arr items => depthItems items + 1
  | obj members => depthMembers members + 1
  | null => 0
  | bool _ => 0
  | int _ => 0
  | float _ => 0
  | str _ => 0
  | unreadable => 0
  termination_by structural j => j

/-- Greatest depth among items. -/
def depthItems : List Json → Nat
  | [] => 0
  | j :: rest => max (depth j) (depthItems rest)
  termination_by structural js => js

/-- Greatest depth among members. -/
def depthMembers : List (String × Json) → Nat
  | [] => 0
  | (_, j) :: rest => max (depth j) (depthMembers rest)
  termination_by structural ms => ms

end

/-! ## Scalars -/

/-- A truth value. -/
def bool? : Json → Option Bool
  | bool b => some b
  | _ => none

/-- A text. -/
def str? : Json → Option String
  | str s => some s
  | _ => none

/-- An integer with a value below `limit`. -/
def natBelow? (limit : Nat) : Json → Option Nat
  | int n => if 0 ≤ n ∧ n < limit then some n.toNat else none
  | _ => none

/-- An unsigned integer of 16 bits. -/
def u16? : Json → Option Nat := natBelow? 0x10000

/-- An unsigned integer of 32 bits. -/
def u32? : Json → Option Nat := natBelow? 0x100000000

/-- An unsigned integer of 64 bits. -/
def u64? : Json → Option Nat := natBelow? 0x10000000000000000

/-- An integer of a given kind. -/
def word? (k : IntKind) : Json → Option (Word k)
  | int n => Word.ofInt? k n
  | _ => none

/-- A double; integers are accepted. -/
def double? : Json → Option Float
  | int n => some (Float.ofInt n)
  | float x => some x
  | _ => none

/-- A single; integers are accepted, and doubles are rounded. -/
def single? : Json → Option Float32
  | int n => some (Float32.ofInt n)
  | float x => some x.toFloat32
  | _ => none

/-- An array with every item decoded. -/
def list? {α : Type} (item? : Json → Option α) : Json → Option (List α)
  | arr items => items.mapM item?
  | _ => none

/-- A value or null. -/
def nullable? {α : Type} (value? : Json → Option α) : Json → Option (Option α)
  | null => some none
  | j => (value? j).map some

/-! ## Variants -/

/-- The name of a variant and its content. -/
def variant? : Json → Option (String × Option Json)
  | str name => some (name, none)
  | obj [(name, content)] => some (name, some content)
  | _ => none

/-- The name of a variant without content, for which null may stand. -/
def unitVariant? (j : Json) : Option String :=
  match variant? j with
  | some (name, none) => some name
  | some (name, some null) => some name
  | _ => none

/-! ## Records -/

/-- The fields found in a record. -/
structure Record where
  /-- The record was written as an array. -/
  positional : Bool
  fields : List (String × Json)

/-- Whether a key occurs more than once among members. -/
def repeated (key : String) (members : List (String × Json)) : Bool :=
  1 < (members.filter fun m => m.1 == key).length

/-- The record with the given field names. -/
def record? (names : List String) : Json → Option Record
  | obj members => if names.any (repeated · members) then none else some ⟨false, members⟩
  | arr items => if names.length < items.length then none else some ⟨true, names.zip items⟩
  | _ => none

/-- Where data is read from. -/
inductive Source where
  /-- The text of a file. -/
  | text
  /-- A value at hand. -/
  | value
  deriving DecidableEq, Inhabited

/-- The fields of a variant with the given names: a record, which only text may give as an array. -/
def fields? (src : Source) (names : List String) (j : Json) : Option Record :=
  match src, j with
  | .value, arr _ => none
  | _, j => record? names j

namespace Record

/-- A field as it stands. -/
def field? (r : Record) (name : String) : Option Json := member? name r.fields

/-- A field that has to be there. -/
def required? {α : Type} (r : Record) (name : String) (value? : Json → Option α) : Option α :=
  (r.field? name).bind value?

/-- A field that may be null, or missing from an object. -/
def optional? {α : Type} (r : Record) (name : String) (value? : Json → Option α) :
    Option (Option α) :=
  match r.field? name with
  | some j => nullable? value? j
  | none => if r.positional then none else some none

/-- A field with a default. -/
def defaulted? {α : Type} (r : Record) (name : String) (value? : Json → Option α) (value : α) :
    Option α :=
  match r.field? name with
  | some j => value? j
  | none => some value

end Record

/-! ## Encoding -/

/-- A variant with content. -/
def tagged (name : String) (content : Json) : Json := obj [(name, content)]

/-- A value or null. -/
def ofOption {α : Type} (f : α → Json) : Option α → Json
  | none => null
  | some a => f a

/-- An array. -/
def ofList {α : Type} (f : α → Json) (items : List α) : Json := arr (items.map f)

/-- A natural number. -/
def ofNat (n : Nat) : Json := int n

end Arbor.Json
