/-
  Building trees with inferred types.

  Arithmetic keeps the type of its left operand, lifted if an operand is an
  optional; comparisons are truth values; branches give their node its type, and
  a block has the type of its last node.  `Tree.typed` overrides what was
  inferred.
-/
import Arbor.Tree.Basic

set_option autoImplicit false

namespace Arbor.Tree

/-- Replaces the type of a node. -/
def typed (e : Expr) (ty : Ty) : Expr := .node e.kind ty

/-! ## Leaves -/

/-- A numeric constant. -/
def num (n : Num) : Expr := .node (.constant (.num n)) (.num n.kind)

/-- A truth value. -/
def bool (b : Bool) : Expr := .node (.constant (.bool b)) .bool

/-- A text. -/
def text (s : String) : Expr := .node (.constant (.str s)) .str

/-- The null reference, or the absent value of an optional type. -/
def null (ty : Ty) : Expr := .node (.constant .null) ty

/-- A numeric constant as an optional. -/
def someNum (n : Num) : Expr := typed (num n) (Ty.num n.kind).optional

/-- The default of a type. -/
def default (ty : Ty) : Expr := .node .default ty

/-- A node without effect and value. -/
def empty : Expr := default .void

/-- A variable. -/
def var (v : Variable) : Expr := .node (.parameter v.id) v.ty

/-- A hoisted constant. -/
def hoisted (index : Nat) (ty : Ty) : Expr := .node (.hoisted index) ty

/-- A closure variable. -/
def closureVar (index : Nat) (ty : Ty) : Expr := .node (.closureVar index) ty

/-! ## Members and elements -/

/-- A member of a type. -/
def member (receiver : Option Expr) (m : Member) (ty : Ty) : Expr := .node (.member receiver m) ty

/-- The length of an array. -/
def arrayLength (array : Expr) : Expr := member (some array) .arrayLength .int

/-- The number of items of a list. -/
def listCount (list : Expr) : Expr := member (some list) .listCount .int

/-- The length of a text. -/
def strLength (s : Expr) : Expr := member (some s) .strLength .int

/-- Whether an optional is present. -/
def hasValue (opt : Expr) : Expr := member (some opt) .hasValue .bool

/-- What an optional holds. -/
def value (opt : Expr) : Expr := member (some opt) .value opt.ty.underlying

/-- An element of an array or list. -/
def index (receiver : Expr) (args : List Expr) : Expr :=
  .node (.index receiver args none) (receiver.ty.element?.getD .object)

/-- A property with index arguments. -/
def indexer (receiver : Expr) (p : PropertyRef) (args : List Expr) (ty : Ty) : Expr :=
  .node (.index receiver args (some p)) ty

/-! ## Operators -/

/-- A unary operator. -/
def unary (op : UnaryOp) (operand : Expr) : Expr :=
  let ty :=
    match op with
    | .isTrue | .isFalse => if operand.ty.isNullable then operand.ty else .bool
    | _ => operand.ty
  .node (.unary op operand false none) ty

/-- Whether one of two operands is an optional. -/
def lifts (left right : Expr) : Bool := left.ty.isNullable || right.ty.isNullable

/-- A binary operator. -/
def binary (op : BinaryOp) (left right : Expr) : Expr :=
  let ty :=
    if op.isComparison then .bool
    else if lifts left right then left.ty.underlying.optional
    else left.ty
  .node (.binary op left right false none) ty

/-- A comparison that yields an optional truth value. -/
def compareLifted (op : BinaryOp) (left right : Expr) : Expr :=
  typed (binary op left right) (.nullable .bool)

/-- Marks an operator, conversion or assignment as checked. -/
def checked (e : Expr) : Expr :=
  match e with
  | .node (.unary op operand _ method) ty => .node (.unary op operand true method) ty
  | .node (.binary op left right _ method) ty => .node (.binary op left right true method) ty
  | .node (.convert operand _ method) ty => .node (.convert operand true method) ty
  | .node (.assign op target value _ autoExtend) ty =>
      .node (.assign op target value true autoExtend) ty
  | e => e

/-- Gives an operator, a conversion or the comparison of a switch to a method. -/
def withMethod (e : Expr) (m : MethodRef) : Expr :=
  match e with
  | .node (.unary op operand checked _) ty => .node (.unary op operand checked (some m)) ty
  | .node (.binary op left right checked _) ty =>
      .node (.binary op left right checked (some m)) ty
  | .node (.convert operand checked _) ty => .node (.convert operand checked (some m)) ty
  | .node (.switch value cases fallback _) ty => .node (.switch value cases fallback (some m)) ty
  | e => e

/-- A short-circuit operator. -/
def logical (op : LogicalOp) (left right : Expr) : Expr :=
  .node (.logical op left right) (if lifts left right then .nullable .bool else .bool)

/-- The left operand, or the right one where the left is absent. -/
def coalesce (left right : Expr) : Expr := .node (.coalesce left right) right.ty

/-! ## Control flow -/

/-- A choice between two values. -/
def condition (test ifTrue ifFalse : Expr) : Expr :=
  .node (.conditional test ifTrue ifFalse) ifTrue.ty

/-- A body that runs only if the test holds. -/
def ifThen (test body : Expr) : Expr := typed (condition test body empty) .void

/-- A block with variables. -/
def block (vars : List Variable) (body : List Expr) : Expr :=
  .node (.block vars body) ((body.getLast?.map Expr.ty).getD .void)

/-- A loop with the labels that leave and continue it. -/
def loop (body : Expr) (breakLabel continueLabel : Option LabelTarget) : Expr :=
  .node (.loop body breakLabel continueLabel) ((breakLabel.map (·.ty)).getD .void)

/-- A switch; its type is that of the default, else of the first case. -/
def switch (value : Expr) (cases : List (SwitchCase Expr)) (fallback : Option Expr) : Expr :=
  let ty := (fallback.map Expr.ty) <|> (cases.head?.map fun c => c.body.ty)
  .node (.switch value cases fallback none) (ty.getD .void)

/-- A protected block. -/
def tryFull (body : Expr) (handlers : List (CatchBlock Expr))
    (finallyBlock faultBlock : Option Expr) : Expr :=
  .node (.tryCatch body handlers finallyBlock faultBlock) body.ty

/-- A throw, or without an operand a rethrow. -/
def throw (operand : Option Expr) : Expr := .node (.throw operand) .void

/-- A jump. -/
def goto (kind : GotoKind) (target : LabelTarget) (value : Option Expr) : Expr :=
  .node (.goto kind target value) .void

/-- A label. -/
def label (target : LabelTarget) (value : Option Expr) : Expr :=
  .node (.label target value) target.ty

/-! ## Calls and construction -/

/-- A call of a method. -/
def call (method : MethodRef) (receiver : Option Expr) (args : List Expr) (ret : Ty) : Expr :=
  .node (.call method receiver args) ret

/-- A call of a function value. -/
def invoke (func : Expr) (args : List Expr) : Expr :=
  let ty :=
    match func.ty with
    | .func _ ret => ret
    | _ => .object
  .node (.invoke func args) ty

/-- A new instance. -/
def newObject (ctor : Option MethodRef) (args : List Expr) (ty : Ty) : Expr :=
  .node (.new ctor args) ty

/-- A new array with the given elements. -/
def newArrayOf (elem : Ty) (items : List Expr) : Expr :=
  .node (.newArray elem (.elements items)) (.array elem)

/-- A new array with the given bounds; one bound makes a plain array. -/
def newArrayBounds (elem : Ty) (bounds : List Expr) : Expr :=
  .node (.newArray elem (.bounds bounds))
    (if bounds.length = 1 then .array elem else .mdArray elem bounds.length)

/-- A container with added elements. -/
def listInit (start : Expr) (items : List (ElementInit Expr)) : Expr :=
  .node (.listInit start items) start.ty

/-- An instance with bound members. -/
def memberInit (start : Expr) (bindings : List (Binding Expr)) : Expr :=
  .node (.memberInit start bindings) start.ty

/-- A nested function. -/
def lambda (l : Lambda Expr) : Expr := .node (.lambda l) l.funcTy

/-! ## Assignments -/

/-- An assignment, or without a value a step. -/
def assign (op : AssignOp) (target : Expr) (value : Option Expr) : Expr :=
  .node (.assign op target value false false) target.ty

/-- Lets an assignment create what is missing on the way to its target. -/
def autoExtend (e : Expr) : Expr :=
  match e with
  | .node (.assign op target value checked _) ty => .node (.assign op target value checked true) ty
  | e => e

/-! ## Types -/

/-- A type test. -/
def typeTest (operand : Expr) (target : Ty) (exact : Bool) : Expr :=
  .node (.typeTest operand target exact) .bool

/-- A conversion. -/
def convert (operand : Expr) (ty : Ty) : Expr := .node (.convert operand false none) ty

/-- A cast that yields an absent value where it fails. -/
def typeAs (operand : Expr) (ty : Ty) : Expr := .node (.typeAs operand) ty

end Arbor.Tree
