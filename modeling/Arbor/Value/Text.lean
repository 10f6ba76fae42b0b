/-
  Texts of values: `render` for users, `describe` for messages about malformed
  programs.
-/
import Arbor.Registry.Lookup
import Arbor.Code.Describe

set_option autoImplicit false

namespace Arbor

namespace Value

/-- Containers inside containers are shown down to this depth. -/
def renderDepth : Nat := 4

/-- Text of a value for users; `room` is how many levels are left to show. -/
def renderWithin (r : Registry) (h : Heap) : Nat → Value → String
  | 0, _ => "..."
  | room + 1, v =>
      let join (items : List Value) : String :=
        ", ".intercalate (items.map (renderWithin r h room))
      let record (ty : TypeId) (fields : List Value) : String :=
        r.typeName ty ++ " \x7b " ++ join fields ++ " \x7d"
      match v.core with
      | null | absent | present _ => "null"
      | bool b => toString b
      | num n => n.text
      | str s => Text.quoted s
      | struct ty fields => record ty fields
      | object ref =>
          match h.objects[ref]? with
          | some c => record c.ty c.fields.toList
          | none => "null"
      | array ref => "[" ++ join ((h.arrays[ref]?).elim [] (·.data.toList)) ++ "]"
      | list ref => "List [" ++ join ((h.lists[ref]?).elim [] (·.items.toList)) ++ "]"
      | func ref => "<func " ++ (h.functions[ref]?).elim "" (·.routine.name) ++ ">"
      | fnPtr routine => "<fnptr " ++ routine.name ++ ">"
      | addr _ => "<address>"

/-- Text of a value for users. -/
def render (r : Registry) (h : Heap) (v : Value) : String := renderWithin r h (renderDepth + 1) v

/-! ## Developer texts -/

/-- An object, by its type only. -/
def describeObject (h : Heap) (ref : Ref) : String :=
  Describe.app "Object" ("#" ++ (h.objects[ref]?).elim "" (toString ·.ty))

/-- An array, by its element type and bounds. -/
def describeArray (h : Heap) (ref : Ref) : String :=
  let (elem, dims) := (h.arrays[ref]?).elim ("", "") fun c =>
    (c.elem.describe, Describe.list (c.dims.map toString))
  "ArrayObj \x7b elem: " ++ elem ++ ", dims: " ++ dims ++ ", .. \x7d"

/-- An address. -/
def describeAddr (h : Heap) : Addr → String
  | .local frame slot =>
      Describe.struct "Local" [("frame", toString frame), ("slot", toString slot)]
  | .arg frame index =>
      Describe.struct "Arg" [("frame", toString frame), ("index", toString index)]
  | .field owner slot =>
      Describe.struct "Field" [("obj", describeObject h owner), ("slot", toString slot)]
  | .static field => Describe.app "Static" (Describe.field field)
  | .elem whole index =>
      Describe.struct "Elem" [("array", describeArray h whole), ("index", toString index)]
  | .inner base slot =>
      Describe.struct "Inner" [("base", describeAddr h base), ("slot", toString slot)]

mutual

/-- Developer text of a value; `func` describes function values. -/
def describeWith (h : Heap) (func : Ref → String) : Value → String
  | null => "Null"
  | bool b => Describe.app "Bool" (toString b)
  | num n => Describe.app "Num" (Describe.num n)
  | str s => Describe.app "Str" (Text.quoted s)
  | absent => "Opt(None)"
  | present v => "Opt(Some(" ++ describeWith h func v ++ "))"
  | struct ty fields =>
      Describe.app "Struct"
        (Describe.struct "StructVal"
          [("ty", toString ty), ("fields", Describe.list (describeAll h func fields))])
  | object ref => Describe.app "Object" (describeObject h ref)
  | array ref => Describe.app "Array" (describeArray h ref)
  | list ref =>
      let size := (h.lists[ref]?).elim 0 (·.items.size)
      Describe.app "List" s!"ListObj(len = {size})"
  | .func ref => Describe.app "Func" (func ref)
  | fnPtr routine => Describe.app "FnPtr" (Describe.routine routine)
  | addr a => Describe.app "Addr" (describeAddr h a)
  termination_by structural v => v

/-- Developer texts of values. -/
def describeAll (h : Heap) (func : Ref → String) : List Value → List String
  | [] => []
  | v :: vs => describeWith h func v :: describeAll h func vs
  termination_by structural vs => vs

end

/-- Developer text of a function value; `fuel` bounds functions captured by functions. -/
def describeFunction (h : Heap) : Nat → Ref → String
  | 0, _ => "..."
  | fuel + 1, ref =>
      match h.functions[ref]? with
      | none => "..."
      | some c =>
          Describe.struct "Callable"
            [("routine", Describe.routine c.routine),
              ("captured", Describe.list (describeAll h (describeFunction h fuel) c.captured))]

/-- Developer text of a value.  A function is created after those that it captures, so their chain
is no longer than the number of functions. -/
def describe (h : Heap) (v : Value) : String :=
  describeWith h (describeFunction h (h.functions.size + 1)) v

end Value

end Arbor
