/-
  JSON form of types and of references to members.
-/
import Arbor.Ty.Basic
import Arbor.Json.Decode

set_option autoImplicit false

namespace Arbor

open Json

/-- Reads the tag of a numeric kind. -/
def NumKind.ofJson? (j : Json) : Option NumKind := (unitVariant? j).bind NumKind.ofTag?

namespace Ty

mutual

/-- Writes a type. -/
def toJson : Ty → Json
  | void => .str "void"
  | bool => .str "bool"
  | num k => tagged "num" (.str k.tag)
  | str => .str "str"
  | object => .str "object"
  | nullable t => tagged "nullable" (toJson t)
  | classTy id => tagged "class" (.ofNat id)
  | structTy id => tagged "struct" (.ofNat id)
  | array t => tagged "array" (toJson t)
  | mdArray t rank => tagged "md_array" (.obj [("elem", toJson t), ("rank", .ofNat rank)])
  | list t => tagged "list" (toJson t)
  | func ps ret => tagged "func" (.obj [("params", .arr (toJsonList ps)), ("ret", toJson ret)])
  | byRef t => tagged "by_ref" (toJson t)
  termination_by structural t => t

/-- Writes types. -/
def toJsonList : List Ty → List Json
  | [] => []
  | t :: ts => toJson t :: toJsonList ts
  termination_by structural ts => ts

end

/-- The type of a variant without content. -/
def ofName? : String → Option Ty
  | "void" => some void
  | "bool" => some bool
  | "str" => some str
  | "object" => some object
  | _ => none

/-- Reads a type; `fuel` bounds the nesting. -/
def decode (src : Source) : Nat → Json → Option Ty
  | 0, _ => none
  | fuel + 1, j =>
      match variant? j with
      | none => none
      | some (name, none) => ofName? name
      | some (name, some .null) => ofName? name
      | some (name, some content) =>
          match name with
          | "num" => (NumKind.ofJson? content).map num
          | "nullable" => (decode src fuel content).map nullable
          | "class" => (u32? content).map classTy
          | "struct" => (u32? content).map structTy
          | "array" => (decode src fuel content).map array
          | "md_array" => do
              let r ← fields? src ["elem", "rank"] content
              let elem ← r.required? "elem" (decode src fuel)
              let rank ← r.required? "rank" u32?
              pure (mdArray elem rank)
          | "list" => (decode src fuel content).map list
          | "func" => do
              let r ← fields? src ["params", "ret"] content
              let params ← r.required? "params" (list? (decode src fuel))
              let ret ← r.required? "ret" (decode src fuel)
              pure (func params ret)
          | "by_ref" => (decode src fuel content).map byRef
          | _ => none

/-- Reads a type.  Every level of the type is a level of the value. -/
def ofJson? (src : Source) (j : Json) : Option Ty := decode src (j.depth + 1) j

end Ty

namespace FieldRef

/-- Writes a field reference. -/
def toJson (f : FieldRef) : Json := .obj [("ty", .ofNat f.ty), ("index", .ofNat f.index)]

/-- Reads a field reference. -/
def ofJson? (j : Json) : Option FieldRef := do
  let r ← record? ["ty", "index"] j
  pure ⟨← r.required? "ty" u32?, ← r.required? "index" u32?⟩

end FieldRef

namespace PropertyRef

/-- Writes a property reference. -/
def toJson (p : PropertyRef) : Json := .obj [("ty", .ofNat p.ty), ("index", .ofNat p.index)]

/-- Reads a property reference. -/
def ofJson? (j : Json) : Option PropertyRef := do
  let r ← record? ["ty", "index"] j
  pure ⟨← r.required? "ty" u32?, ← r.required? "index" u32?⟩

end PropertyRef

namespace Intrinsic

/-- Writes an operation on multi-dimensional arrays. -/
def mdJson (name : String) (elem : Ty) (rank : Nat) : Json :=
  tagged name (.obj [("elem", elem.toJson), ("rank", .ofNat rank)])

/-- Writes an intrinsic. -/
def toJson : Intrinsic → Json
  | listAdd t => tagged "list_add" t.toJson
  | listGet t => tagged "list_get" t.toJson
  | listSet t => tagged "list_set" t.toJson
  | listCount t => tagged "list_count" t.toJson
  | arrayResize t => tagged "array_resize" t.toJson
  | mdGet t rank => mdJson "md_get" t rank
  | mdSet t rank => mdJson "md_set" t rank
  | mdLength t rank => mdJson "md_length" t rank
  | strConcat => .str "str_concat"
  | strLength => .str "str_length"
  | objEquals => .str "obj_equals"

/-- The intrinsic of a variant without content. -/
def ofName? : String → Option Intrinsic
  | "str_concat" => some strConcat
  | "str_length" => some strLength
  | "obj_equals" => some objEquals
  | _ => none

/-- Reads element type and rank of an operation on multi-dimensional arrays. -/
def mdOfJson? (src : Source) (op : Ty → Nat → Intrinsic) (j : Json) : Option Intrinsic := do
  let r ← fields? src ["elem", "rank"] j
  pure (op (← r.required? "elem" (Ty.ofJson? src)) (← r.required? "rank" u32?))

/-- Reads an intrinsic. -/
def ofJson? (src : Source) (j : Json) : Option Intrinsic :=
  match variant? j with
  | none => none
  | some (name, none) => ofName? name
  | some (name, some .null) => ofName? name
  | some (name, some content) =>
      match name with
      | "list_add" => (Ty.ofJson? src content).map listAdd
      | "list_get" => (Ty.ofJson? src content).map listGet
      | "list_set" => (Ty.ofJson? src content).map listSet
      | "list_count" => (Ty.ofJson? src content).map listCount
      | "array_resize" => (Ty.ofJson? src content).map arrayResize
      | "md_get" => mdOfJson? src mdGet content
      | "md_set" => mdOfJson? src mdSet content
      | "md_length" => mdOfJson? src mdLength content
      | _ => none

end Intrinsic

namespace MethodRef

/-- Writes a method reference. -/
def toJson : MethodRef → Json
  | method ty index => tagged "method" (.obj [("ty", .ofNat ty), ("index", .ofNat index)])
  | intrinsic op => tagged "intrinsic" op.toJson

/-- Reads a method reference. -/
def ofJson? (src : Source) (j : Json) : Option MethodRef :=
  match variant? j with
  | some ("method", some content) => do
      let r ← fields? src ["ty", "index"] content
      pure (method (← r.required? "ty" u32?) (← r.required? "index" u32?))
  | some ("intrinsic", some content) => (Intrinsic.ofJson? src content).map intrinsic
  | _ => none

end MethodRef

end Arbor
