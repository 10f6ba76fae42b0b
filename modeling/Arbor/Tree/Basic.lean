/-
  Typed expression trees.

  A node is a kind and its static result type.  `ExprKind α` describes one layer
  of a tree whose operands are of type `α`; `Expr` ties the knot.  Functions on
  trees are written for one layer and carried through the tree by `Expr.fold`
  and `Expr.para`.

  Variables are unique within one function; a nested function has its own
  parameters, and what it shares with the enclosing function reaches it through
  hoisted constants or closure variables.  Labels carry the type of the value
  that a jump delivers.
-/
import Arbor.Ty.Basic
import Arbor.Literal

set_option autoImplicit false

namespace Arbor

universe u v

/-- Number of a variable within its function. -/
abbrev VarId := Nat

/-- Number of a label within its function. -/
abbrev LabelId := Nat

/-- A declared variable. -/
structure Variable where
  id : VarId
  name : String
  ty : Ty
  deriving DecidableEq, Inhabited

/-- A label and the type of the value that jumps deliver to it. -/
structure LabelTarget where
  id : LabelId
  ty : Ty
  deriving DecidableEq, Inhabited

/-- What a member access reads. -/
inductive Member where
  | field (field : FieldRef)
  | property (property : PropertyRef)
  | arrayLength
  | listCount
  | strLength
  | hasValue
  | value
  deriving DecidableEq, Inhabited

/-- Unary operators. -/
inductive UnaryOp where
  | negate
  | plus
  | not
  | increment
  | decrement
  | isTrue
  | isFalse
  deriving DecidableEq, Inhabited

/-- Binary operators. -/
inductive BinaryOp where
  | add
  | sub
  | mul
  | div
  | rem
  | and
  | or
  | xor
  | shl
  | shr
  | eq
  | ne
  | lt
  | le
  | gt
  | ge
  deriving DecidableEq, Inhabited

/-- Short-circuit operators. -/
inductive LogicalOp where
  | andAlso
  | orElse
  deriving DecidableEq, Inhabited

/-- Plain assignment, compound assignments and steps. -/
inductive AssignOp where
  | assign
  | add
  | sub
  | mul
  | div
  | rem
  | and
  | or
  | xor
  | shl
  | shr
  | preIncrement
  | preDecrement
  | postIncrement
  | postDecrement
  deriving DecidableEq, Inhabited

/-- How a jump was written; all kinds mean the same. -/
inductive GotoKind where
  | jump
  | exitLoop
  | nextRound
  | exitFunction
  deriving DecidableEq, Inhabited

namespace BinaryOp

/-- Whether the operator yields a truth value. -/
def isComparison : BinaryOp → Bool
  | eq | ne | lt | le | gt | ge => true
  | _ => false

/-- Whether the operator tests equality. -/
def isEquality : BinaryOp → Bool
  | eq | ne => true
  | _ => false

/-- Whether the operator shifts. -/
def isShift : BinaryOp → Bool
  | shl | shr => true
  | _ => false

end BinaryOp

namespace AssignOp

/-- The operator that a compound assignment or step applies. -/
def binary? : AssignOp → Option BinaryOp
  | assign => none
  | add | preIncrement | postIncrement => some .add
  | sub | preDecrement | postDecrement => some .sub
  | mul => some .mul
  | div => some .div
  | rem => some .rem
  | and => some .and
  | or => some .or
  | xor => some .xor
  | shl => some .shl
  | shr => some .shr

/-- Whether the operator increments or decrements. -/
def isStep : AssignOp → Bool
  | preIncrement | preDecrement | postIncrement | postDecrement => true
  | _ => false

/-- Whether the node yields the value held before the update. -/
def yieldsOldValue : AssignOp → Bool
  | postIncrement | postDecrement => true
  | _ => false

end AssignOp

/-- A case of a switch: it runs when the value equals one of its tests. -/
structure SwitchCase (α : Type u) where
  tests : List α
  body : α

/-- A handler of a protected block. -/
structure CatchBlock (α : Type u) where
  ty : Ty
  binder : Option Variable
  filter : Option α
  body : α

/-- Contents of a new array: its elements, or its bounds. -/
inductive ArrayInit (α : Type u) where
  | elements (items : List α)
  | bounds (items : List α)

/-- One call of an adding method in a collection initializer. -/
structure ElementInit (α : Type u) where
  add : MethodRef
  args : List α

/-- The member that a binding sets or fills. -/
inductive MemberTarget where
  | field (field : FieldRef)
  | property (property : PropertyRef)
  deriving DecidableEq, Inhabited

/-- One binding of a member initializer. -/
inductive Binding (α : Type u) where
  | assign (member : MemberTarget) (value : α)
  | member (member : MemberTarget) (bindings : List (Binding α))
  | list (member : MemberTarget) (items : List (ElementInit α))

/-- Which hidden leading parameters a function receives. -/
structure HiddenParams where
  /-- The table of hoisted constants. -/
  constants : Bool
  /-- The shared closure environment. -/
  closure : Bool
  deriving DecidableEq, Inhabited

/-- Number of hidden parameters. -/
def HiddenParams.count (h : HiddenParams) : Nat := h.constants.toNat + h.closure.toNat

/-- A function of the tree. -/
structure Lambda (α : Type u) where
  name : String
  params : List Variable
  ret : Ty
  body : α
  hidden : HiddenParams

/-- Type of a function as a value. -/
def Lambda.funcTy {α : Type u} (l : Lambda α) : Ty := .func (l.params.map (·.ty)) l.ret

/-- One layer of an expression tree with operands of type `α`. -/
inductive ExprKind (α : Type u) where
  | constant (value : Literal)
  | default
  | parameter (id : VarId)
  | hoisted (index : Nat)
  | closureVar (index : Nat)
  | member (receiver : Option α) (member : Member)
  | index (receiver : α) (args : List α) (indexer : Option PropertyRef)
  | unary (op : UnaryOp) (operand : α) (checked : Bool) (method : Option MethodRef)
  | binary (op : BinaryOp) (left right : α) (checked : Bool) (method : Option MethodRef)
  | logical (op : LogicalOp) (left right : α)
  | coalesce (left right : α)
  | conditional (test ifTrue ifFalse : α)
  | block (vars : List Variable) (body : List α)
  | loop (body : α) (breakLabel continueLabel : Option LabelTarget)
  | switch (value : α) (cases : List (SwitchCase α)) (default : Option α)
      (comparison : Option MethodRef)
  | tryCatch (body : α) (handlers : List (CatchBlock α)) (finallyBlock faultBlock : Option α)
  | call (method : MethodRef) (receiver : Option α) (args : List α)
  | invoke (func : α) (args : List α)
  | new (ctor : Option MethodRef) (args : List α)
  | newArray (elem : Ty) (init : ArrayInit α)
  | listInit (new : α) (items : List (ElementInit α))
  | memberInit (new : α) (bindings : List (Binding α))
  | lambda (function : Lambda α)
  | assign (op : AssignOp) (target : α) (value : Option α) (checked autoExtend : Bool)
  | typeTest (operand : α) (target : Ty) (exact : Bool)
  | convert (operand : α) (checked : Bool) (method : Option MethodRef)
  | typeAs (operand : α)
  | throw (operand : Option α)
  | goto (kind : GotoKind) (target : LabelTarget) (value : Option α)
  | label (target : LabelTarget) (default : Option α)

/-- An expression tree. -/
inductive Expr where
  | node (kind : ExprKind Expr) (ty : Ty)

namespace Expr

/-- The topmost layer. -/
def kind : Expr → ExprKind Expr
  | node k _ => k

/-- The static result type. -/
def ty : Expr → Ty
  | node _ t => t

instance : Inhabited Expr := ⟨node .default .void⟩

end Expr

end Arbor
