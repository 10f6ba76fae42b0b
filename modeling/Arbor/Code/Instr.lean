/-
  The instruction set: a typed stack machine whose operands live on an
  evaluation stack of the current call, whose locals and arguments are numbered
  slots, and whose protected regions are described beside the code.
-/
import Arbor.Literal
import Arbor.Number.Arith
import Arbor.Ty.Basic

set_option autoImplicit false

namespace Arbor

/-- A branch target, bound to an instruction index when the routine is finished. -/
structure Label where
  index : Nat
  deriving DecidableEq, Inhabited

/-- Comparison operators. -/
inductive CmpOp where
  | eq
  | ne
  | lt
  | le
  | gt
  | ge
  deriving DecidableEq, Inhabited

namespace CmpOp

/-- The operators in declaration order. -/
def all : List CmpOp := [eq, ne, lt, le, gt, ge]

/-- Spelling in listings. -/
def mnemonic : CmpOp → String
  | eq => "ceq"
  | ne => "cne"
  | lt => "clt"
  | le => "cle"
  | gt => "cgt"
  | ge => "cge"

/-- Tag in developer texts. -/
def tag : CmpOp → String
  | eq => "Eq"
  | ne => "Ne"
  | lt => "Lt"
  | le => "Le"
  | gt => "Gt"
  | ge => "Ge"

/-- Whether an order of two operands satisfies the operator; unordered operands only differ. -/
def holds (op : CmpOp) (order : Option Ordering) : Bool :=
  match op with
  | eq => order == some .eq
  | ne => order != some .eq
  | lt => order == some .lt
  | le => order == some .lt || order == some .eq
  | gt => order == some .gt
  | ge => order == some .gt || order == some .eq

end CmpOp

/-- An instruction. -/
inductive Instr where
  | nop
  | const (value : Literal)
  /-- Push the zero value of a type. -/
  | loadDefault (ty : Ty)
  | loadArg (index : Nat)
  | loadArgAddr (index : Nat)
  | storeArg (index : Nat)
  | loadLocal (slot : Nat)
  | loadLocalAddr (slot : Nat)
  | storeLocal (slot : Nat)
  | dup
  | pop
  | arith (op : ArithOp) (checked : Bool)
  | bitwise (op : BitOp)
  | neg (checked : Bool)
  /-- Complement of an integer or negation of a truth value. -/
  | not
  | conv (kind : NumKind) (checked : Bool)
  | compare (op : CmpOp)
  | jump (target : Label)
  | jumpIfTrue (target : Label)
  | jumpIfFalse (target : Label)
  /-- Pop a value; jump when it is null or an absent optional. -/
  | jumpIfAbsent (target : Label)
  /-- Pop a value; jump when it is neither null nor an absent optional. -/
  | jumpIfPresent (target : Label)
  /-- Pop an integer; jump to the target at that position, or go on when there is none. -/
  | switch (targets : List Label)
  /-- Leave protected regions, running the `finally` blocks that the jump leaves. -/
  | leave (target : Label)
  | endFinally
  /-- Pop the verdict of a filter and end the filter block. -/
  | endFilter
  | throw
  | rethrow
  | ret
  | newObject (ctor : MethodRef)
  /-- Pop an address and store the zero value of the type there. -/
  | initObject (ty : Ty)
  | loadField (field : FieldRef)
  | loadFieldAddr (field : FieldRef)
  | storeField (field : FieldRef)
  | loadStatic (field : FieldRef)
  | loadStaticAddr (field : FieldRef)
  | storeStatic (field : FieldRef)
  | call (method : MethodRef)
  /-- Call a child routine. -/
  | callChild (index : Nat)
  /-- Pop a length and allocate an array. -/
  | newArray (elem : Ty)
  /-- Pop one length for every dimension and allocate a multi-dimensional array. -/
  | newMdArray (elem : Ty) (rank : Nat)
  | newList (elem : Ty)
  | loadLength
  | loadElem
  | loadElemAddr
  | storeElem
  | loadIndirect
  | storeIndirect
  | optHasValue
  | optValueOrDefault (ty : Ty)
  | optValue
  | optWrap
  /-- Keep the value if it is an instance of the type, else push null. -/
  | isInstance (ty : Ty) (exact : Bool)
  | castClass (ty : Ty)
  | box (ty : Ty)
  | unbox (ty : Ty)
  /-- Push a pointer to a child routine. -/
  | loadFunction (index : Nat)
  /-- Pop a function pointer and captured values; push a function value over both. -/
  | newInvoker (captured : Nat)
  /-- Pop a function value and arguments; call it. -/
  | callInvoker (argc : Nat)
  /-- Record the depth of the evaluation stack in a local. -/
  | markStack (slot : Nat)
  /-- Cut the evaluation stack down to the depth recorded in a local. -/
  | resetStack (slot : Nat)
  /-- Pop a switch value and push its bucket. -/
  | hashBucket (size : Nat)
  deriving Inhabited

/-- Kind of the handler of a protected region, with positions of type `α`. -/
inductive RegionKind (α : Type) where
  | catch (ty : Ty)
  /-- Filter block from the given position up to the handler. -/
  | filter (start : α)
  | finally
  | fault

/-- A protected region: the ranges of its body and handler, each without its end. -/
structure Region (α : Type) where
  tryStart : α
  tryEnd : α
  handlerStart : α
  handlerEnd : α
  kind : RegionKind α
  /-- Local that holds the stack depth at entry. -/
  stackMark : Nat

namespace Region

/-- Whether the handler is a `finally` block. -/
def isFinally {α : Type} (r : Region α) : Bool :=
  match r.kind with
  | .finally => true
  | _ => false

/-- Whether the handler only runs on the way out: a `finally` or a `fault` block. -/
def isUnwinding {α : Type} (r : Region α) : Bool :=
  match r.kind with
  | .finally | .fault => true
  | .catch _ | .filter _ => false

/-- Whether the position lies in the protected body. -/
def tryContains (r : Region Nat) (pc : Nat) : Bool := r.tryStart ≤ pc && pc < r.tryEnd

/-- Whether the position lies in the handler or its filter block. -/
def handlerContains (r : Region Nat) (pc : Nat) : Bool :=
  let start :=
    match r.kind with
    | .filter start => start
    | _ => r.handlerStart
  start ≤ pc && pc < r.handlerEnd

end Region

end Arbor
