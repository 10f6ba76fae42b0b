/-
  Looking up declared types and their members, the storage layout of instances,
  subtyping, and the zero values of types.

  Walks along base types are bounded by the number of types: a longer chain
  repeats a type, and the walk is reported as endless.
-/
import Arbor.Registry.Basic

set_option autoImplicit false

namespace Arbor

namespace Registry

/-! ## Types and members -/

/-- A declared type. -/
def typeDef (r : Registry) (id : TypeId) : Except MetadataError TypeDef :=
  match r.types[id]? with
  | some d => .ok d
  | none => .error (.unknownType id)

/-- Name of a type, for listings and messages. -/
def typeName (r : Registry) (id : TypeId) : String :=
  match r.types[id]? with
  | some d => d.name
  | none => "<unknown>"

/-- The static type of instances of a declared type. -/
def tyOf (r : Registry) (id : TypeId) : Except MetadataError Ty :=
  (r.typeDef id).map fun d => d.ty id

/-- The first type with the given name. -/
def findType? (r : Registry) (name : String) : Option TypeId :=
  r.types.findIdx? fun d => d.name == name

/-- A field. -/
def field (r : Registry) (f : FieldRef) : Except MetadataError FieldDef := do
  let d ← r.typeDef f.ty
  match d.fields[f.index]? with
  | some def_ => .ok def_
  | none => .error (.unknownMember d.name .field f.index)

/-- A property. -/
def property (r : Registry) (p : PropertyRef) : Except MetadataError PropertyDef := do
  let d ← r.typeDef p.ty
  match d.properties[p.index]? with
  | some def_ => .ok def_
  | none => .error (.unknownMember d.name .property p.index)

/-- A method. -/
def method (r : Registry) (id : TypeId) (index : Nat) : Except MetadataError MethodDef := do
  let d ← r.typeDef id
  match d.methods[index]? with
  | some def_ => .ok def_
  | none => .error (.unknownMember d.name .method index)

/-- Looks for a member in a type and then in its bases; `fuel` bounds the chain. -/
def findUp (r : Registry) (start : TypeId) (name : String) (position? : TypeDef → Option Nat) :
    Nat → TypeId → Except MetadataError (TypeId × Nat)
  | 0, id => .error (.endless id)
  | fuel + 1, id =>
      match r.types[id]? with
      | none => .error (.unknownType id)
      | some d =>
          match position? d with
          | some index => .ok (id, index)
          | none =>
              match d.base with
              | some base => findUp r start name position? fuel base
              | none => .error (.unknownName (r.typeName start) name)

/-- A field by name, in the type or its bases. -/
def findField (r : Registry) (id : TypeId) (name : String) : Except MetadataError FieldRef :=
  (r.findUp id name (fun d => d.fields.findIdx? (·.name == name)) (r.size + 1) id).map
    fun (ty, index) => ⟨ty, index⟩

/-- A property by name, in the type or its bases. -/
def findProperty (r : Registry) (id : TypeId) (name : String) : Except MetadataError PropertyRef :=
  (r.findUp id name (fun d => d.properties.findIdx? (·.name == name)) (r.size + 1) id).map
    fun (ty, index) => ⟨ty, index⟩

/-- A method by name, in the type or its bases. -/
def findMethod (r : Registry) (id : TypeId) (name : String) : Except MetadataError MethodRef :=
  (r.findUp id name (fun d => d.methods.findIdx? (·.name == name)) (r.size + 1) id).map
    fun (ty, index) => .method ty index

/-- The parameterless constructor of a type. -/
def defaultCtor? (r : Registry) (id : TypeId) : Option MethodRef :=
  match r.types[id]? with
  | some d =>
      (d.methods.findIdx? fun m => m.kind == .ctor && m.params.isEmpty).map (MethodRef.method id)
  | none => none

/-- Call shape of a method; a constructor yields the new instance. -/
def signature (r : Registry) (m : MethodRef) : Except MetadataError Signature :=
  match m with
  | .intrinsic op => .ok op.signature
  | .method id index => do
      let d ← r.method id index
      let own ← r.tyOf id
      let params := d.params.map fun p => (p.ty, p.byRef)
      match d.kind with
      | .member => .ok ⟨some own, params, d.ret⟩
      | .ctor => .ok ⟨some own, params, own⟩
      | .static | .extension => .ok ⟨none, params, d.ret⟩

/-! ## Names -/

mutual

/-- Surface text of a type. -/
def tyText (r : Registry) : Ty → String
  | .void => "void"
  | .bool => "bool"
  | .num k => k.name
  | .str => "string"
  | .object => "object"
  | .nullable t => r.tyText t ++ "?"
  | .classTy id => r.typeName id
  | .structTy id => r.typeName id
  | .array t => r.tyText t ++ "[]"
  | .mdArray t rank => r.tyText t ++ "[" ++ String.ofList (List.replicate (rank - 1) ',') ++ "]"
  | .list t => "List<" ++ r.tyText t ++ ">"
  | .func ps ret =>
      "Func<(" ++ ", ".intercalate (r.tyTexts ps) ++ ") -> " ++ r.tyText ret ++ ">"
  | .byRef t => r.tyText t ++ "&"
  termination_by structural t => t

/-- Surface texts of types. -/
def tyTexts (r : Registry) : List Ty → List String
  | [] => []
  | t :: ts => r.tyText t :: r.tyTexts ts
  termination_by structural ts => ts

end

/-- Name of an intrinsic. -/
def intrinsicName (r : Registry) : Intrinsic → String
  | .listAdd t => "List<" ++ r.tyText t ++ ">::Add"
  | .listGet t => "List<" ++ r.tyText t ++ ">::get_Item"
  | .listSet t => "List<" ++ r.tyText t ++ ">::set_Item"
  | .listCount t => "List<" ++ r.tyText t ++ ">::get_Count"
  | .arrayResize t => "Array::Resize<" ++ r.tyText t ++ ">"
  | .mdGet t rank => r.tyText (.mdArray t rank) ++ "::Get"
  | .mdSet t rank => r.tyText (.mdArray t rank) ++ "::Set"
  | .mdLength t rank => r.tyText (.mdArray t rank) ++ "::GetLength"
  | .strConcat => "string::Concat"
  | .strLength => "string::get_Length"
  | .objEquals => "object::Equals"

/-- Name of a method with its type. -/
def methodName (r : Registry) : MethodRef → String
  | .intrinsic op => r.intrinsicName op
  | .method id index =>
      match r.method id index with
      | .ok d => s!"{r.typeName id}::{d.name}"
      | .error _ => s!"{r.typeName id}::<method #{index}>"

/-- Name of a field with its type. -/
def fieldName (r : Registry) (f : FieldRef) : String :=
  match r.field f with
  | .ok d => s!"{r.typeName f.ty}::{d.name}"
  | .error _ => s!"{r.typeName f.ty}::<field #{f.index}>"

/-! ## Layout and subtyping -/

/-- Types of the instance fields that a type declares itself. -/
def ownLayout (d : TypeDef) : List Ty :=
  (d.fields.toList.filter fun f => !f.isStatic).map (·.ty)

/-- Types of all instance fields, those of the bases first; `fuel` bounds the chain of bases. -/
def layoutFrom (r : Registry) : Nat → TypeId → Except MetadataError (List Ty)
  | 0, id => .error (.endless id)
  | fuel + 1, id =>
      match r.types[id]? with
      | none => .error (.unknownType id)
      | some d =>
          match d.base with
          | none => .ok (ownLayout d)
          | some base => (layoutFrom r fuel base).map (· ++ ownLayout d)

/-- Types of all instance fields, those of the bases first. -/
def layout (r : Registry) (id : TypeId) : Except MetadataError (List Ty) :=
  r.layoutFrom (r.size + 1) id

/-- Storage slot of an instance field in every instance of its type. -/
def fieldSlot (r : Registry) (f : FieldRef) : Except MetadataError Nat := do
  let d ← r.typeDef f.ty
  let inherited ←
    match d.base with
    | none => pure 0
    | some base => (r.layout base).map List.length
  pure (inherited + ((d.fields.toList.take f.index).filter fun g => !g.isStatic).length)

/-- Whether `sup` occurs in the chain of bases that starts with `sub`; `fuel` bounds the chain. -/
def subclassWithin (r : Registry) (sup : TypeId) : Nat → TypeId → Bool
  | 0, _ => false
  | fuel + 1, sub =>
      if sub == sup then true
      else
        match r.types[sub]? with
        | some d =>
            match d.base with
            | some base => subclassWithin r sup fuel base
            | none => false
        | none => false

/-- Whether `sub` is `sup` or derived from it. -/
def isSubclass (r : Registry) (sub sup : TypeId) : Bool := r.subclassWithin sup (r.size + 1) sub

/-- Whether a value of the first type can be stored in a slot of the second without conversion. -/
def isAssignable (r : Registry) (source target : Ty) : Bool :=
  if source = target then true
  else
    match source, target with
    | source, .object => !source.isVoid
    | .classTy a, .classTy b => r.isSubclass a b
    | _, _ => false

/-- Whether a type is an exception type. -/
def isException (r : Registry) (id : TypeId) : Bool := r.isSubclass id rootException

/-! ## Zero values -/

/-- Zero value of a type; `fuel` bounds how deep structs are nested in structs. -/
def zeroFrom (r : Registry) : Nat → Ty → Except MetadataError Value
  | _, .bool => .ok (.bool false)
  | _, .num k => .ok (.num (.zero k))
  | _, .nullable _ => .ok .absent
  | 0, .structTy id => .error (.endless id)
  | fuel + 1, .structTy id => do
      let layout ← r.layout id
      let fields ← layout.mapM (zeroFrom r fuel)
      pure (.struct id fields)
  | _, _ => .ok .null

/-- Zero value of a type: false, zero, an empty optional, a zeroed struct, or null.  A struct nested
deeper than there are types holds itself. -/
def zero (r : Registry) (t : Ty) : Except MetadataError Value := r.zeroFrom (r.size + 1) t

/-- The zero value of an optional is absent. -/
theorem zero_nullable (r : Registry) {t : Ty} (h : t.isNullable = true) : r.zero t = .ok .absent := by
  cases t with
  | nullable inner => simp [zero, zeroFrom]
  | _ => cases h

/-- The zero value of the truth values is false. -/
theorem zero_bool (r : Registry) : r.zero .bool = .ok (.bool false) := by
  simp [zero, zeroFrom]

end Registry

end Arbor
