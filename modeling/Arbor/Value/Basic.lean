/-
  Runtime values.

  Objects, arrays, lists and function values live on a heap and are compared by
  reference; numbers, truth values, texts, optionals and structs are copied and
  compared by content.
-/
import Arbor.Code.Routine

set_option autoImplicit false

namespace Arbor

/-- Position of a cell on the heap. -/
abbrev Ref := Nat

/-- Address of a storage location. -/
inductive Addr where
  | local (frame slot : Nat)
  | arg (frame index : Nat)
  | field (object : Ref) (slot : Nat)
  | static (field : FieldRef)
  | elem (array : Ref) (index : Nat)
  /-- A field of the struct stored at the base address. -/
  | inner (base : Addr) (slot : Nat)
  deriving DecidableEq, Inhabited

/-- A runtime value. -/
inductive Value where
  /-- The null reference, also the result of calls without a value. -/
  | null
  | bool (value : Bool)
  | num (value : Num)
  | str (value : String)
  /-- An empty optional. -/
  | absent
  /-- An optional that holds a value. -/
  | present (inner : Value)
  | struct (ty : TypeId) (fields : List Value)
  | object (ref : Ref)
  | array (ref : Ref)
  | list (ref : Ref)
  | func (ref : Ref)
  | fnPtr (routine : Routine)
  | addr (addr : Addr)
  deriving Inhabited

namespace Value

/-- A 32-bit integer value, wrapped into range. -/
def int (n : Int) : Value := num (.i32 n)

mutual

/-- Equality of values: references by identity, everything else by content; addresses never equal. -/
def same : Value → Value → Bool
  | null, null => true
  | bool a, bool b => a == b
  | num a, num b => a.same b
  | str a, str b => a == b
  | absent, absent => true
  | present a, present b => same a b
  | struct t as, struct u bs => t == u && sameList as bs
  | object a, object b => a == b
  | array a, array b => a == b
  | list a, list b => a == b
  | func a, func b => a == b
  | fnPtr a, fnPtr b => a.key == b.key
  | _, _ => false
  termination_by structural a => a

/-- Equality of lists of values. -/
def sameList : List Value → List Value → Bool
  | [], [] => true
  | a :: as, b :: bs => same a b && sameList as bs
  | _, _ => false
  termination_by structural as => as

end

/-- A null reference or an empty optional. -/
def isAbsent : Value → Bool
  | null | absent => true
  | _ => false

/-- What a branch takes as true: true, numbers other than zero, and whatever is there. -/
def isTruthy : Value → Bool
  | null | absent => false
  | bool b => b
  | num n => !n.isZero
  | _ => true

/-- The value of an integer number, as a 64-bit index. -/
def toIndex? : Value → Option Int
  | num n => if n.kind.isIntegral then some n.toIndex else none
  | _ => none

/-- The text of a text value. -/
def text? : Value → Option String
  | str s => some s
  | _ => none

/-- The value without the optionals around it. -/
def core : Value → Value
  | present v => core v
  | v => v

/-- Representation of a value in a slot of the root type: optionals lose their wrapper. -/
def boxed : Value → Value
  | present v => v
  | absent => null
  | v => v

/-- The value of an inline constant. -/
def ofLiteral : Literal → Value
  | .null => null
  | .bool b => bool b
  | .num n => num n
  | .str s => str s

end Value

/-! ## The heap -/

/-- An instance of a class. -/
structure ObjectCell where
  ty : TypeId
  fields : Array Value
  deriving Inhabited

/-- An array of one or more dimensions; elements are stored row by row. -/
structure ArrayCell where
  elem : Ty
  dims : List Nat
  data : Array Value
  deriving Inhabited

/-- A growable list. -/
structure ListCell where
  elem : Ty
  items : Array Value
  deriving Inhabited

/-- A routine with the leading arguments that it was closed over. -/
structure Callable where
  routine : Routine
  captured : List Value
  deriving Inhabited

/-- Number of arguments that callers supply. -/
def Callable.arity (c : Callable) : Nat := c.routine.params.length - c.captured.length

/-- Types of the arguments that callers supply. -/
def Callable.params (c : Callable) : List Ty := c.routine.params.drop c.captured.length

/-- The cells of all references, one store for every kind. -/
structure Heap where
  objects : Array ObjectCell
  arrays : Array ArrayCell
  lists : Array ListCell
  functions : Array Callable
  deriving Inhabited

/-- Row-major offset of an index vector, counted in 64 bits; `none` when an index is out of range. -/
def rowMajor? : Nat → List Nat → List Int → Option Nat
  | acc, [], [] => some acc
  | acc, d :: ds, i :: is =>
      if 0 ≤ i ∧ i < d then rowMajor? ((acc * d + i.toNat) % 0x10000000000000000) ds is else none
  | _, _, _ => none

namespace ArrayCell

/-- Number of elements. -/
def size (a : ArrayCell) : Nat := a.data.size

/-- Offset of the element with the given indices. -/
def offset? (a : ArrayCell) (indices : List Int) : Option Nat := rowMajor? 0 a.dims indices

end ArrayCell

namespace Heap

/-- The heap without cells. -/
def empty : Heap := ⟨#[], #[], #[], #[]⟩

/-- Adds an object. -/
def newObject (h : Heap) (c : ObjectCell) : Value × Heap :=
  (.object h.objects.size, { h with objects := h.objects.push c })

/-- Adds an array. -/
def newArray (h : Heap) (c : ArrayCell) : Value × Heap :=
  (.array h.arrays.size, { h with arrays := h.arrays.push c })

/-- Adds an array of one dimension with the given elements. -/
def newVector (h : Heap) (elem : Ty) (items : List Value) : Value × Heap :=
  h.newArray ⟨elem, [items.length], items.toArray⟩

/-- Adds a list. -/
def newList (h : Heap) (c : ListCell) : Value × Heap :=
  (.list h.lists.size, { h with lists := h.lists.push c })

/-- Adds a function value. -/
def newFunction (h : Heap) (c : Callable) : Value × Heap :=
  (.func h.functions.size, { h with functions := h.functions.push c })

/-- A field of an object. -/
def field? (h : Heap) (object : Ref) (slot : Nat) : Option Value := do
  let c ← h.objects[object]?
  c.fields[slot]?

/-- Replaces a field of an object; a slot that is not there is ignored. -/
def setField (h : Heap) (object : Ref) (slot : Nat) (v : Value) : Heap :=
  { h with
    objects := h.objects.modify object fun c => { c with fields := c.fields.setIfInBounds slot v } }

/-- An element of an array. -/
def elem? (h : Heap) (array : Ref) (index : Nat) : Option Value := do
  let c ← h.arrays[array]?
  c.data[index]?

/-- Replaces an element of an array; a position that is not there is ignored. -/
def setElem (h : Heap) (array : Ref) (index : Nat) (v : Value) : Heap :=
  { h with
    arrays := h.arrays.modify array fun c => { c with data := c.data.setIfInBounds index v } }

/-- Type of an object. -/
def objectType? (h : Heap) (object : Ref) : Option TypeId := (h.objects[object]?).map (·.ty)

end Heap

end Arbor
