/-
  Emitters of leaves and operators: constants, variables, unary, binary and
  short-circuit operators, and coalescing.
-/
import Arbor.Emit.Place
import Arbor.Truth

set_option autoImplicit false

namespace Arbor

/-- Type of the values that a literal other than null denotes. -/
def Literal.ty? : Literal → Option Ty
  | null => none
  | bool _ => some .bool
  | num n => some (.num n.kind)
  | str _ => some .str

namespace UnaryOp

/-- Whether an operand of the type fits the operator. -/
def accepts (op : UnaryOp) (operand : Ty) : Bool :=
  let t := operand.underlying
  match op with
  | negate | plus | increment | decrement => t.isNum
  | not => t = .bool || t.isIntegral
  | isTrue | isFalse => t = .bool

/-- The step constant of a numeric type. -/
def stepConst (ty : Ty) : List Instr :=
  match ty.numKind? with
  | some k => [.const (.num (.one k))]
  | none => []

/-- The instructions of an operator on a present operand of the type. -/
def instrs (op : UnaryOp) (checked : Bool) (ty : Ty) : List Instr :=
  match op with
  | plus | isTrue => []
  | negate => [.neg checked]
  | not | isFalse => [.not]
  | increment => stepConst ty ++ [.arith .add checked]
  | decrement => stepConst ty ++ [.arith .sub checked]

end UnaryOp

/-- The truth value of a constant operand of a logical operator. -/
def Expr.constantTruth? (e : Expr) : Option Truth :=
  match e.kind with
  | .constant (.bool b) => some (.ofOption (some b))
  | .constant .null => if e.ty.isNullable then some .absent else none
  | .default => some (if e.ty.isNullable then .absent else .false)
  | _ => none

namespace Emit

/-! ## Leaves -/

/-- A constant, which has to be of the type of its node. -/
def constant (value : Literal) (ty : Ty) : Emit Emitted := do
  match value.ty? with
  | none =>
      if ty.isValueType && !ty.isNullable then
        mismatch "null constant" "a nullable or reference type" ty
      else
        pushDefault ty
        pure (.ofTy ty false)
  | some found =>
      instr (.const value)
      if ty.underlying ≠ found && ty ≠ .object then mismatch "constant" (← tyText ty) found
      else
        wrapIf ty.isNullable
        pure (.ofTy ty false)

/-- A variable. -/
def parameter (id : VarId) (shape : Shape) : Emit Emitted := do
  let (slot, ty) ← varSlot id
  if shape.wantsAddress ty then
    loadVarAddr slot
    pure (.address false)
  else
    loadVar slot
    pure (.ofTy ty false)

/-- A hoisted constant. -/
def hoisted (index : Nat) (ty : Ty) : Emit Emitted := do
  match (← hiddenParams).constantsArg? with
  | some table =>
      loadTableElement table index ty
      pure (.ofTy ty false)
  | none => unsupported "hoisted constant in a function compiled without a constants table"

/-- A closure variable. -/
def closureVar (index : Nat) (ty : Ty) : Emit Emitted := do
  loadTableElement (← closureTable) index ty
  pure (.ofTy ty false)

/-! ## Unary and binary operators -/

/-- The code of a unary operator, or of the method that stands for it, on a present operand. -/
def unaryCode (op : UnaryOp) (checked : Bool) (method : Option MethodRef) (ty : Ty) : List Instr :=
  match method with
  | some m => [.call m]
  | none => op.instrs checked ty

/-- A unary operator. -/
def unary (op : UnaryOp) (operand : Node) (checked : Bool) (method : Option MethodRef) (ty : Ty)
    (exit : Option Label) : Emit Emitted := do
  if method.isNone && !op.accepts operand.ty then
    mismatch s!"unary {op.tag}" "a numeric or boolean operand" operand.ty
  else if !operand.ty.isNullable then
    let used ← operand.value exit
    instrs (unaryCode op checked method operand.ty)
    wrapIf ty.isNullable
    pure (.ofTy ty used)
  else if op = .isTrue && !ty.isNullable && method.isNone then
    let used ← operand.value exit
    instr (.optValueOrDefault .bool)
    pure (.ofTy ty used)
  else if !ty.isNullable && op ≠ .isTrue && op ≠ .isFalse then
    mismatch "lifted unary operator" (← tyText ty.optional) ty
  else
    withTemps do
      let used ← operand.value exit
      let v ← spillOperand operand.ty
      let absent := if ty.isNullable then Instr.loadDefault ty else .const (.bool false)
      lifted [v] ty.isNullable (instr absent) do
        loadInner v
        instrs (unaryCode op checked method operand.ty.underlying)
      pure (.ofTy ty used)

/-- A binary operator. -/
def binary (op : BinaryOp) (left right : Node) (checked : Bool) (method : Option MethodRef)
    (ty : Ty) (exit : Option Label) : Emit Emitted := do
  if method.isNone then checkBinary op left.ty right.ty
  if method.isNone && !(left.ty.isNullable || right.ty.isNullable) then
    let usedLeft ← left.value exit
    let usedRight ← right.value exit
    instr (op.instr checked left.ty)
    wrapIf ty.isNullable
    pure (.ofTy ty (usedLeft || usedRight))
  else
    withTemps do
      let usedLeft ← left.value exit
      let l ← spillOperand left.ty
      let usedRight ← right.value exit
      let r ← spillOperand right.ty
      binarySlots op checked method l r ty
      pure (.ofTy ty (usedLeft || usedRight))

/-! ## Short-circuit operators -/

/-- The truth value that decides the operator when the left operand has it. -/
def decisive : LogicalOp → Bool
  | .andAlso => false
  | .orElse => true

/-- Jumps when the value on the stack decides the operator. -/
def decide (op : LogicalOp) (target : Label) : Instr :=
  match op with
  | .andAlso => .jumpIfFalse target
  | .orElse => .jumpIfTrue target

/-- The operator on constant operands. -/
def foldLogical : LogicalOp → Truth → Truth → Truth
  | .andAlso => Truth.and
  | .orElse => Truth.or

/-- Pushes a truth value of a plain or optional type. -/
def pushTruth (t : Truth) (ty : Ty) : Emit Unit := do
  match t.toOption with
  | none => instr (.loadDefault ty)
  | some b =>
      instr (.const (.bool b))
      wrapIf ty.isNullable

/-- Jumps when an operand is absent. -/
def jumpIfMissing (o : Operand) (target : Label) : Emit Unit := do
  if o.ty.isNullable then instrs [.loadLocal o.slot, .optHasValue, .jumpIfFalse target]

/-- The result where the left operand is absent: the right one if it decides, else absent. -/
def leftAbsent (op : LogicalOp) (l r : Operand) (ty : Ty) (entry decided done : Label) :
    Emit Unit := do
  if l.ty.isNullable then
    mark entry
    let absent ← newLabel
    jumpIfMissing r absent
    loadInner r
    instr (decide op decided)
    mark absent
    instrs [.loadDefault ty, .jump done]

/-- A short-circuit operator on operands of which one may be absent.  The left operand decides
alone only if it is present; otherwise the right one is evaluated, once, and both are combined. -/
def liftedLogical (op : LogicalOp) (left right : Node) (ty : Ty) (exit : Option Label) :
    Emit Emitted := withTemps do
  let decided ← newLabel
  let evalRight ← newLabel
  let done ← newLabel
  let usedLeft ← left.value exit
  let l ← spillOperand left.ty
  jumpIfMissing l evalRight
  loadInner l
  instr (decide op decided)
  mark evalRight
  let usedRight ← right.value exit
  let r ← spillOperand right.ty
  let entry ← newLabel
  jumpIfMissing l entry
  loadOperand r
  wrapIf !r.ty.isNullable
  instr (.jump done)
  leftAbsent op l r ty entry decided done
  mark decided
  instrs [.const (.bool (decisive op)), .optWrap]
  mark done
  pure (.ofTy ty (usedLeft || usedRight))

/-- A short-circuit operator. -/
def logical (op : LogicalOp) (left right : Node) (ty : Ty) (exit : Option Label) :
    Emit Emitted := do
  let isLifted := left.ty.isNullable || right.ty.isNullable
  if left.ty.underlying ≠ .bool then mismatch "logical operand" "bool" left.ty
  else if right.ty.underlying ≠ .bool then mismatch "logical operand" "bool" right.ty
  else if isLifted && !ty.isNullable then mismatch "lifted logical operator" "bool?" ty
  else
    match left.expr.constantTruth?, right.expr.constantTruth? with
    | some l, some r =>
        pushTruth (foldLogical op l r) ty
        pure (.ofTy ty false)
    | _, _ =>
        if isLifted then liftedLogical op left right ty exit
        else
          let done ← newLabel
          let usedLeft ← left.value exit
          instrs [.dup, decide op done, .pop]
          let usedRight ← right.value exit
          mark done
          wrapIf ty.isNullable
          pure (.ofTy ty (usedLeft || usedRight))

/-- Coalescing of an optional.  Its content is the result, unless the result is an optional, too. -/
def coalesceOptional (left right : Node) (ty : Ty) (exit : Option Label) : Emit Emitted :=
  withTemps do
    let done ← newLabel
    let useRight ← newLabel
    let _ ← left.guarded .value
    let slot ← spill left.ty
    instrs [.loadLocal slot, .optHasValue, .jumpIfFalse useRight]
    instr (.loadLocal slot)
    unwrapIf !ty.isNullable
    instr (.jump done)
    mark useRight
    let used ← right.value exit
    wrapIf (ty.isNullable && !right.ty.isNullable)
    mark done
    pure (.ofTy ty used)

/-- Coalescing of a reference. -/
def coalesceReference (left right : Node) (ty : Ty) (exit : Option Label) : Emit Emitted := do
  let done ← newLabel
  let _ ← left.guarded .value
  instrs [.dup, .jumpIfPresent done, .pop]
  let used ← right.value exit
  mark done
  pure (.ofTy ty used)

/-- The left operand, or the right one where the left is absent.  Exits of the left operand lead to
the right one. -/
def coalesce (left right : Node) (ty : Ty) (exit : Option Label) : Emit Emitted := do
  let fits := (← registry).isAssignable right.ty ty || (ty.isNullable && ty.underlying = right.ty)
  if !left.ty.canBeAbsent then
    mismatch "coalesce" "a nullable or reference left operand" left.ty
  else if !fits then mismatch "coalesce" (← tyText ty) right.ty
  else if left.ty.isNullable then coalesceOptional left right ty exit
  else coalesceReference left right ty exit

end Emit

end Arbor
