/-
  Declared types: classes and structs with their fields, properties and methods.

  Every class has an implicit parameterless constructor as its first method; a
  struct has none and is created zeroed.  The first types of every registry are
  the root exception, whose only field is its message, and one exception type
  for every fault.
-/
import Arbor.Machine.State

set_option autoImplicit false

namespace Arbor

/-- Whether instances are references or values. -/
inductive TypeKind where
  | classKind
  | structKind
  deriving DecidableEq, Inhabited

/-- A field. -/
structure FieldDef where
  name : String
  ty : Ty
  isStatic : Bool

/-- A property; one with index parameters is read and written like an element. -/
structure PropertyDef where
  name : String
  ty : Ty
  getter : Option MethodRef
  setter : Option MethodRef
  indexParams : List Ty
  isStatic : Bool

/-- A declared parameter; one passed by address can be assigned by the callee. -/
structure ParamDef where
  name : String
  ty : Ty
  byRef : Bool

/-- How a method is called. -/
inductive MethodKind where
  /-- A method with a receiver. -/
  | member
  | static
  /-- A static method whose first parameter is written as the receiver. -/
  | extension
  | ctor
  deriving DecidableEq, Inhabited

namespace MethodKind

/-- The kinds in declaration order. -/
def all : List MethodKind := [.member, .static, .extension, .ctor]

/-- Name of a kind. -/
def tag : MethodKind → String
  | .member => "Instance"
  | .static => "Static"
  | .extension => "Extension"
  | .ctor => "Ctor"

end MethodKind

/-- What a method does; instance methods receive their receiver as first argument. -/
inductive MethodBody where
  | host (method : Host)
  /-- Reads the field. -/
  | getter (field : FieldRef)
  /-- Writes the field. -/
  | setter (field : FieldRef)
  | routine (routine : Routine)
  | empty

/-- A method; its parameters do not include the receiver. -/
structure MethodDef where
  name : String
  params : List ParamDef
  ret : Ty
  kind : MethodKind
  body : MethodBody

/-- A declared type. -/
structure TypeDef where
  name : String
  kind : TypeKind
  base : Option TypeId
  fields : Array FieldDef
  properties : Array PropertyDef
  methods : Array MethodDef

/-- All types that a compilation or a run knows. -/
structure Registry where
  types : Array TypeDef

namespace TypeDef

/-- The static type of instances, given the index of the declared type. -/
def ty (d : TypeDef) (id : TypeId) : Ty :=
  match d.kind with
  | .classKind => .classTy id
  | .structKind => .structTy id

end TypeDef

namespace Registry

/-! ## Definition -/

/-- Number of types, which is the index of the next one. -/
def size (r : Registry) : Nat := r.types.size

/-- The parameterless constructor that every class starts with. -/
def implicitCtor : MethodDef := ⟨".ctor", [], .void, .ctor, .empty⟩

/-- Adds a class; its index is the number of types before. -/
def defineClass (r : Registry) (name : String) (base : Option TypeId) : Registry :=
  ⟨r.types.push ⟨name, .classKind, base, #[], #[], #[implicitCtor]⟩⟩

/-- Adds a struct; its index is the number of types before. -/
def defineStruct (r : Registry) (name : String) : Registry :=
  ⟨r.types.push ⟨name, .structKind, none, #[], #[], #[]⟩⟩

/-- Changes one type. -/
def modifyType (r : Registry) (id : TypeId) (f : TypeDef → TypeDef) : Registry :=
  ⟨r.types.modify id f⟩

/-- Adds a field. -/
def addField (r : Registry) (id : TypeId) (field : FieldDef) : Registry :=
  r.modifyType id fun d => { d with fields := d.fields.push field }

/-- Adds a method. -/
def addMethod (r : Registry) (id : TypeId) (method : MethodDef) : Registry :=
  r.modifyType id fun d => { d with methods := d.methods.push method }

/-- Adds a property. -/
def addProperty (r : Registry) (id : TypeId) (property : PropertyDef) : Registry :=
  r.modifyType id fun d => { d with properties := d.properties.push property }

/-- Adds a property over a field of its own, with a method that reads and one that writes it. -/
def addAutoProperty (r : Registry) (id : TypeId) (property : FieldDef) : Registry :=
  r.modifyType id fun d =>
    let backing : FieldRef := ⟨id, d.fields.size⟩
    let kind := if property.isStatic then MethodKind.static else .member
    let getter : MethodDef := ⟨"get_" ++ property.name, [], property.ty, kind, .getter backing⟩
    let setter : MethodDef :=
      ⟨"set_" ++ property.name, [⟨"value", property.ty, false⟩], .void, kind, .setter backing⟩
    let accessors := d.methods.size
    { d with
      fields := d.fields.push ⟨"<" ++ property.name ++ ">k__BackingField", property.ty, property.isStatic⟩
      methods := (d.methods.push getter).push setter
      properties := d.properties.push
        ⟨property.name, property.ty, some (.method id accessors), some (.method id (accessors + 1)),
          [], property.isStatic⟩ }

/-- Index of the root exception type. -/
def rootException : TypeId := 0

/-- Index of the exception type of a fault. -/
def exceptionType (f : Fault) : TypeId := f.index + 1

/-- The message field of the root exception type. -/
def messageField : FieldRef := ⟨rootException, 0⟩

/-- The registry with the exception types only. -/
def builtin : Registry :=
  let root := (Registry.mk #[]).defineClass Fault.rootTypeName none
  let root := root.addField rootException ⟨"Message", .str, false⟩
  Fault.all.foldl (fun r f => r.defineClass f.typeName (some rootException)) root

instance : Inhabited Registry := ⟨builtin⟩

end Registry

end Arbor
