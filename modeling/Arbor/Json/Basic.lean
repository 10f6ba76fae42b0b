/-
  JSON values.  Objects keep the order of the text and repeated keys, integers
  stay apart from floats, and a part of a document that is well-formed but
  cannot be held as a value is kept as `unreadable`: passing over it is allowed,
  using it is not.
-/

set_option autoImplicit false

namespace Arbor

/-- A JSON value. -/
inductive Json where
  | null
  | bool (value : Bool)
  /-- An integer that fits into 64 bits, with or without sign. -/
  | int (value : Int)
  | float (value : Float)
  | str (value : String)
  | arr (items : List Json)
  | obj (members : List (String × Json))
  /-- A number beyond the floats, a text with a lone surrogate, or a container nested too deep. -/
  | unreadable

namespace Json

instance : Inhabited Json := ⟨null⟩

/-- Inserts a member into a list sorted by key; an equal key is replaced. -/
def insertMember (key : String) (value : Json) : List (String × Json) → List (String × Json)
  | [] => [(key, value)]
  | (k, v) :: rest =>
      if key < k then (key, value) :: (k, v) :: rest
      else if key = k then (key, value) :: rest
      else (k, v) :: insertMember key value rest

/-- Members sorted by key; of repeated keys the last one counts. -/
def sortMembers (members : List (String × Json)) : List (String × Json) :=
  members.foldl (fun sorted m => insertMember m.1 m.2 sorted) []

mutual

/-- The value with all objects sorted by key and without repeated keys. -/
def canonical : Json → Json
  | arr items => arr (canonicalItems items)
  | obj members => obj (sortMembers (canonicalMembers members))
  | null => null
  | bool b => bool b
  | int n => int n
  | float x => float x
  | str s => str s
  | unreadable => unreadable
  termination_by structural j => j

/-- Every item in canonical form. -/
def canonicalItems : List Json → List Json
  | [] => []
  | j :: rest => canonical j :: canonicalItems rest
  termination_by structural js => js

/-- Every member's value in canonical form. -/
def canonicalMembers : List (String × Json) → List (String × Json)
  | [] => []
  | (k, j) :: rest => (k, canonical j) :: canonicalMembers rest
  termination_by structural ms => ms

end

mutual

/-- Whether the whole value can be held. -/
def readable : Json → Bool
  | arr items => readableItems items
  | obj members => readableMembers members
  | unreadable => false
  | null => true
  | bool _ => true
  | int _ => true
  | float _ => true
  | str _ => true
  termination_by structural j => j

/-- Whether every item can be held. -/
def readableItems : List Json → Bool
  | [] => true
  | j :: rest => readable j && readableItems rest
  termination_by structural js => js

/-- Whether every member's value can be held. -/
def readableMembers : List (String × Json) → Bool
  | [] => true
  | (_, j) :: rest => readable j && readableMembers rest
  termination_by structural ms => ms

end

/-- The last member with the given key. -/
def member? (key : String) : List (String × Json) → Option Json
  | [] => none
  | (k, v) :: rest =>
      match member? key rest with
      | some found => some found
      | none => if k = key then some v else none

/-- The member of an object with the given key. -/
def get? (j : Json) (key : String) : Option Json :=
  match j with
  | obj members => member? key members
  | _ => none

end Json

end Arbor
