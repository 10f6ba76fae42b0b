/-
  Program files: declared types, the function to compile with the values of its
  hidden parameters, options and arguments.

  Declared types are numbered in order, after the exception types.  A base is
  named and has to stand before the types derived from it; fields can be of any
  declared type.  Declared properties have a field of their own.
-/
import Arbor.Compile.Options
import Arbor.Json.Reader
import Arbor.Program.Argument
import Arbor.Tree.Json

set_option autoImplicit false

namespace Arbor

/-! ## Declarations -/

/-- A declared type. -/
structure TypeDecl where
  name : String
  kind : TypeKind
  base : Option String
  fields : List FieldDef
  properties : List FieldDef

/-- A hoisted constant, with the type that its value is converted to. -/
structure ConstantDecl where
  ty : Ty
  value : Json

/-- The content of a program file. -/
structure ProgramFile where
  types : List TypeDecl
  lambda : Lambda Expr
  constants : List ConstantDecl
  closure : List Ty
  options : Options
  args : List Json

/-- A kind of declared types. -/
def TypeKind.ofJson? (j : Json) : Option TypeKind :=
  match j.unitVariant? with
  | some "Class" => some .classKind
  | some "Struct" => some .structKind
  | _ => none

/-- A declared field or property. -/
def FieldDef.ofJson? (j : Json) : Option FieldDef := do
  let r ← j.record? ["name", "ty", "static"]
  let name ← r.required? "name" Json.str?
  let ty ← r.required? "ty" (Ty.ofJson? .text)
  let isStatic ← r.defaulted? "static" Json.bool? false
  pure ⟨name, ty, isStatic⟩

/-- A value that is kept as it stands. -/
def Json.any? (j : Json) : Option Json := if j.readable then some j else none

/-- A declared type. -/
def TypeDecl.ofJson? (j : Json) : Option TypeDecl := do
  let r ← j.record? ["name", "kind", "base", "fields", "properties"]
  let name ← r.required? "name" Json.str?
  let kind ← r.defaulted? "kind" TypeKind.ofJson? .classKind
  let base ← r.defaulted? "base" (Json.nullable? Json.str?) none
  let fields ← r.defaulted? "fields" (Json.list? FieldDef.ofJson?) []
  let properties ← r.defaulted? "properties" (Json.list? FieldDef.ofJson?) []
  pure ⟨name, kind, base, fields, properties⟩

/-- A hoisted constant; without a value it is null. -/
def ConstantDecl.ofJson? (j : Json) : Option ConstantDecl := do
  let r ← j.record? ["ty", "value"]
  let ty ← r.required? "ty" (Ty.ofJson? .text)
  let value ← r.defaulted? "value" Json.any? .null
  pure ⟨ty, value⟩

/-- The content of a program file. -/
def ProgramFile.ofJson? (j : Json) : Option ProgramFile := do
  let r ← j.record? ["types", "lambda", "constants", "closure", "options", "args"]
  let types ← r.defaulted? "types" (Json.list? TypeDecl.ofJson?) []
  let lambda ← r.required? "lambda" (Lambda.ofJson? .text)
  let constants ← r.defaulted? "constants" (Json.list? ConstantDecl.ofJson?) []
  let closure ← r.defaulted? "closure" (Json.list? (Ty.ofJson? .text)) []
  let options ← r.defaulted? "options" Options.ofJson? .default
  let args ← r.defaulted? "args" (Json.list? Json.any?) []
  pure ⟨types, lambda, constants, closure, options, args⟩

/-! ## Registries -/

namespace Registry

/-- Adds a declared type, without its members. -/
def declare (r : Registry) (d : TypeDecl) : Except ProgramError Registry :=
  match d.kind, d.base with
  | .classKind, none => .ok (r.defineClass d.name none)
  | .classKind, some name =>
      match r.findType? name with
      | some base => .ok (r.defineClass d.name (some base))
      | none => .error (.unknownType name)
  | .structKind, none => .ok (r.defineStruct d.name)
  | .structKind, some name => .error (.structBase name)

/-- Adds the members of a declared type. -/
def addMembers (r : Registry) (id : TypeId) (d : TypeDecl) : Registry :=
  d.properties.foldl (fun r p => r.addAutoProperty id p)
    (d.fields.foldl (fun r f => r.addField id f) r)

/-- The registry of declared types: all types first, so that members can refer to later ones. -/
def ofDecls (ds : List TypeDecl) : Except ProgramError Registry := do
  let r ← ds.foldlM declare builtin
  pure ((ds.mapIdx fun i d => (builtin.size + i, d)).foldl (fun r (id, d) => r.addMembers id d) r)

end Registry

/-! ## Programs -/

/-- A loaded program. -/
structure Program where
  registry : Registry
  lambda : Lambda Expr
  constants : List Value
  closure : List Ty
  options : Options
  args : List Json
  /-- The heap with the constants. -/
  heap : Heap

namespace Program

/-- How many containers can be nested in each other in a file. -/
def nesting : Nat := 127

/-- Converts named values in order. -/
def convertAll (r : Registry) : List (Json × Ty × String) → Heap →
    Except ProgramError (List Value × Heap)
  | [], h => .ok ([], h)
  | (j, t, what) :: rest, h => do
      let (v, h) ← j.toValue r t what h
      let (vs, h) ← convertAll r rest h
      pure (v :: vs, h)

/-- Loads the content of a file. -/
def ofFile (file : ProgramFile) : Except ProgramError Program := do
  let r ← Registry.ofDecls file.types
  let named := file.constants.mapIdx fun i c => (c.value, c.ty, s!"constant #{i}")
  let (constants, heap) ← convertAll r named .empty
  pure ⟨r, file.lambda, constants, file.closure, file.options, file.args, heap⟩

/-- Loads the text of a file. -/
def parse (text : String) : Except ProgramError Program :=
  match (Json.read? text (some nesting)).bind ProgramFile.ofJson? with
  | some file => ofFile file
  | none => .error .json

/-- Converts arguments, or those of the file, by the parameters of the function. -/
def arguments (p : Program) (args : Option (List Json)) (h : Heap) :
    Except ProgramError (List Value × Heap) :=
  let args := args.getD p.args
  if args.length ≠ p.lambda.params.length then
    .error (.argumentCount p.lambda.name p.lambda.params.length args.length)
  else
    convertAll p.registry
      ((args.zip p.lambda.params).map fun (j, param) => (j, param.ty, param.name)) h

end Program

end Arbor
