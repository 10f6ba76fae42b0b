/-
  Static types of values, storage slots and expressions, and references to the
  members of declared types.
-/
import Arbor.Number.Kind

set_option autoImplicit false

namespace Arbor

/-- Index of a declared type in a registry. -/
abbrev TypeId := Nat

/-- Static type of a value, slot or expression. -/
inductive Ty where
  | void
  | bool
  | num (kind : NumKind)
  | str
  /-- Root of all types: a slot of this type holds any value. -/
  | object
  /-- Optional value of a value type. -/
  | nullable (inner : Ty)
  /-- Reference to an instance of a declared class. -/
  | classTy (id : TypeId)
  /-- Value of a declared struct. -/
  | structTy (id : TypeId)
  | array (elem : Ty)
  | mdArray (elem : Ty) (rank : Nat)
  /-- Growable collection. -/
  | list (elem : Ty)
  | func (params : List Ty) (ret : Ty)
  /-- Address of a storage location. -/
  | byRef (target : Ty)
  deriving Inhabited

namespace Ty

/-! ## Equality -/

mutual

/-- Equality test of types. -/
def beq : Ty → Ty → Bool
  | void, void => true
  | bool, bool => true
  | num j, num k => j == k
  | str, str => true
  | object, object => true
  | nullable a, nullable b => beq a b
  | classTy i, classTy j => i == j
  | structTy i, structTy j => i == j
  | array a, array b => beq a b
  | mdArray a m, mdArray b n => beq a b && m == n
  | list a, list b => beq a b
  | func ps r, func qs s => beqList ps qs && beq r s
  | byRef a, byRef b => beq a b
  | _, _ => false
  termination_by structural a => a

/-- Equality test of lists of types. -/
def beqList : List Ty → List Ty → Bool
  | [], [] => true
  | a :: as, b :: bs => beq a b && beqList as bs
  | _, _ => false
  termination_by structural as => as

end

mutual

/-- The equality test accepts equal types. -/
theorem beq_self : (a : Ty) → beq a a = true
  | void => rfl
  | bool => rfl
  | num k => by simp [beq]
  | str => rfl
  | object => rfl
  | nullable a => by simp [beq, beq_self a]
  | classTy i => by simp [beq]
  | structTy i => by simp [beq]
  | array a => by simp [beq, beq_self a]
  | mdArray a n => by simp [beq, beq_self a]
  | list a => by simp [beq, beq_self a]
  | func ps r => by simp [beq, beqList_self ps, beq_self r]
  | byRef a => by simp [beq, beq_self a]

/-- The equality test accepts equal lists. -/
theorem beqList_self : (as : List Ty) → beqList as as = true
  | [] => rfl
  | a :: as => by simp [beqList, beq_self a, beqList_self as]

end

mutual

/-- The equality test accepts only equal types. -/
theorem eq_of_beq' : (a b : Ty) → beq a b = true → a = b
  | void, b, h => by cases b <;> simp_all [beq]
  | bool, b, h => by cases b <;> simp_all [beq]
  | num k, b, h => by cases b <;> simp_all [beq]
  | str, b, h => by cases b <;> simp_all [beq]
  | object, b, h => by cases b <;> simp_all [beq]
  | nullable a, b, h => by
      cases b <;> simp only [beq, Bool.false_eq_true] at h
      exact congrArg nullable (eq_of_beq' a _ h)
  | classTy i, b, h => by cases b <;> simp_all [beq]
  | structTy i, b, h => by cases b <;> simp_all [beq]
  | array a, b, h => by
      cases b <;> simp only [beq, Bool.false_eq_true] at h
      exact congrArg array (eq_of_beq' a _ h)
  | mdArray a n, b, h => by
      cases b <;> simp only [beq, Bool.false_eq_true, Bool.and_eq_true, beq_iff_eq] at h
      rw [eq_of_beq' a _ h.1, h.2]
  | list a, b, h => by
      cases b <;> simp only [beq, Bool.false_eq_true] at h
      exact congrArg list (eq_of_beq' a _ h)
  | func ps r, b, h => by
      cases b <;> simp only [beq, Bool.false_eq_true, Bool.and_eq_true] at h
      rw [eq_of_beqList ps _ h.1, eq_of_beq' r _ h.2]
  | byRef a, b, h => by
      cases b <;> simp only [beq, Bool.false_eq_true] at h
      exact congrArg byRef (eq_of_beq' a _ h)

/-- The equality test accepts only equal lists. -/
theorem eq_of_beqList : (as bs : List Ty) → beqList as bs = true → as = bs
  | [], bs, h => by cases bs <;> simp_all [beqList]
  | a :: as, bs, h => by
      cases bs <;> simp only [beqList, Bool.false_eq_true, Bool.and_eq_true] at h
      rw [eq_of_beq' a _ h.1, eq_of_beqList as _ h.2]

end

instance : DecidableEq Ty := fun a b =>
  decidable_of_iff (beq a b = true) ⟨eq_of_beq' a b, fun h => h ▸ beq_self a⟩

/-! ## Classification -/

/-- The 32-bit signed integer type of indices, counts and stack depths. -/
def int : Ty := num (.int .i32)

/-- The optional of a type; an optional stays as it is. -/
def optional : Ty → Ty
  | nullable t => nullable t
  | t => nullable t

/-- Whether there is no value of the type. -/
def isVoid : Ty → Bool
  | void => true
  | _ => false

/-- Values of the type are copied on assignment and are never a null reference. -/
def isValueType : Ty → Bool
  | bool | num _ | structTy _ | nullable _ => true
  | _ => false

/-- Values of the type are references, the null reference among them. -/
def isReference : Ty → Bool
  | str | object | classTy _ | array _ | mdArray _ _ | list _ | func _ _ => true
  | void | bool | num _ | nullable _ | structTy _ | byRef _ => false

/-- Whether the type is an optional. -/
def isNullable : Ty → Bool
  | nullable _ => true
  | _ => false

/-- Whether a value may be absent: a null reference or an empty optional. -/
def canBeAbsent (t : Ty) : Bool := t.isReference || t.isNullable

/-- Whether the type is numeric. -/
def isNum : Ty → Bool
  | num _ => true
  | _ => false

/-- The type inside an optional. -/
def inner? : Ty → Option Ty
  | nullable t => some t
  | _ => none

/-- The type with one level of optional removed. -/
def underlying : Ty → Ty
  | nullable t => t
  | t => t

/-- A type that is no optional is its own underlying type. -/
theorem underlying_eq_self {t : Ty} (h : t.isNullable = false) : t.underlying = t := by
  cases t <;> first | rfl | cases h

/-- Numeric kind of the type or of the type inside its optional. -/
def numKind? (t : Ty) : Option NumKind :=
  match t.underlying with
  | num k => some k
  | _ => none

/-- Whether the type, or the type inside its optional, is an integer type. -/
def isIntegral (t : Ty) : Bool :=
  match t.numKind? with
  | some k => k.isIntegral
  | none => false

/-- Element type of arrays and lists. -/
def element? : Ty → Option Ty
  | array t | list t | mdArray t _ => some t
  | _ => none

mutual

/-- Developer text of a type. -/
def describe : Ty → String
  | void => "Void"
  | bool => "Bool"
  | num k => s!"Num({k.tag})"
  | str => "Str"
  | object => "Object"
  | nullable t => "Nullable(" ++ describe t ++ ")"
  | classTy i => s!"Class({i})"
  | structTy i => s!"Struct({i})"
  | array t => "Array(" ++ describe t ++ ")"
  | mdArray t rank => "MdArray \x7b elem: " ++ describe t ++ s!", rank: {rank} \x7d"
  | list t => "List(" ++ describe t ++ ")"
  | func ps r =>
      "Func \x7b params: [" ++ ", ".intercalate (describeList ps) ++ "], ret: " ++ describe r ++ " \x7d"
  | byRef t => "ByRef(" ++ describe t ++ ")"
  termination_by structural t => t

/-- Developer texts of types. -/
def describeList : List Ty → List String
  | [] => []
  | t :: ts => describe t :: describeList ts
  termination_by structural ts => ts

end

end Ty

/-! ## References to members -/

/-- A field, by its position among the fields of the declaring type. -/
structure FieldRef where
  ty : TypeId
  index : Nat
  deriving DecidableEq, Inhabited

/-- A property, by its position among the properties of the declaring type. -/
structure PropertyRef where
  ty : TypeId
  index : Nat
  deriving DecidableEq, Inhabited

/-- Operations on texts and containers that every registry offers. -/
inductive Intrinsic where
  | listAdd (elem : Ty)
  | listGet (elem : Ty)
  | listSet (elem : Ty)
  | listCount (elem : Ty)
  /-- Copy into a new array of the requested length. -/
  | arrayResize (elem : Ty)
  | mdGet (elem : Ty) (rank : Nat)
  | mdSet (elem : Ty) (rank : Nat)
  /-- Length of one dimension. -/
  | mdLength (elem : Ty) (rank : Nat)
  | strConcat
  | strLength
  /-- Equality of any two values. -/
  | objEquals
  deriving DecidableEq, Inhabited

/-- A callable member: a declared method or an intrinsic. -/
inductive MethodRef where
  | method (ty : TypeId) (index : Nat)
  | intrinsic (op : Intrinsic)
  deriving DecidableEq, Inhabited

/-- Call shape of a method. -/
structure Signature where
  /-- Receiver type of instance methods and constructors. -/
  this : Option Ty
  /-- Declared parameters, each with its type and whether it is passed by address. -/
  params : List (Ty × Bool)
  ret : Ty
  deriving DecidableEq

/-- Number of operands of a call, the receiver included. -/
def Signature.arity (s : Signature) : Nat := s.params.length + s.this.isSome.toNat

/-- Call shape of an intrinsic. -/
def Intrinsic.signature : Intrinsic → Signature
  | listAdd t => ⟨some (.list t), [(t, false)], .void⟩
  | listGet t => ⟨some (.list t), [(.int, false)], t⟩
  | listSet t => ⟨some (.list t), [(.int, false), (t, false)], .void⟩
  | listCount t => ⟨some (.list t), [], .int⟩
  | arrayResize t => ⟨none, [(.array t, false), (.int, false)], .array t⟩
  | mdGet t rank => ⟨some (.mdArray t rank), List.replicate rank (.int, false), t⟩
  | mdSet t rank =>
      ⟨some (.mdArray t rank), List.replicate rank (.int, false) ++ [(t, false)], .void⟩
  | mdLength t rank => ⟨some (.mdArray t rank), [(.int, false)], .int⟩
  | strConcat => ⟨none, [(.str, false), (.str, false)], .str⟩
  | strLength => ⟨some .str, [], .int⟩
  | objEquals => ⟨none, [(.object, false), (.object, false)], .bool⟩

/-- Number of operands of an intrinsic, the receiver included. -/
def Intrinsic.arity (op : Intrinsic) : Nat := op.signature.arity

end Arbor
