/-
  Operators on operands held in temporaries, lifted over optionals.

  An operand that is absent makes the result absent.  Equality is an exception:
  two absent operands are equal and an absent one differs from every present
  one.  An ordering is false on absent operands, or absent if the node is an
  optional truth value and three-valued comparisons are on.
-/
import Arbor.Emit.Node
import Arbor.Tree.Names

set_option autoImplicit false

namespace Arbor

/-- An operand held in a temporary. -/
structure Operand where
  slot : Nat
  ty : Ty

namespace BinaryOp

/-- The instruction of an operator on two present operands of a type; only sums, differences and
products can be checked. -/
def instr (op : BinaryOp) (checked : Bool) (operandTy : Ty) : Instr :=
  match op with
  | add =>
      if operandTy.underlying = .str then .call (.intrinsic .strConcat) else .arith .add checked
  | sub => .arith .sub checked
  | mul => .arith .mul checked
  | div => .arith .div false
  | rem => .arith .rem false
  | and => .bitwise .and
  | or => .bitwise .or
  | xor => .bitwise .xor
  | shl => .bitwise .shl
  | shr => .bitwise .shr
  | eq => .compare .eq
  | ne => .compare .ne
  | lt => .compare .lt
  | le => .compare .le
  | gt => .compare .gt
  | ge => .compare .ge

/-- Whether operands of the types fit the operator. -/
def accepts (op : BinaryOp) (left right : Ty) : Bool :=
  let l := left.underlying
  let r := right.underlying
  match op with
  | shl | shr => l.isIntegral && r.isIntegral
  | add | lt | le | gt | ge => l = r && (l.isNum || l = .str)
  | sub | mul | div | rem => l = r && l.isNum
  | and | or | xor => l = r && (l.isIntegral || l = .bool)
  | eq | ne =>
      l = r || (left.isReference && right.isReference) || left = .object || right = .object

end BinaryOp

namespace Emit

/-- Moves the value on the stack into an operand. -/
def spillOperand (ty : Ty) : Emit Operand := do return ⟨← spill ty, ty⟩

/-- Loads an operand as it is. -/
def loadOperand (o : Operand) : Emit Unit := instr (.loadLocal o.slot)

/-- Loads what is inside an operand; the zero value stands for an absent one. -/
def loadInner (o : Operand) : Emit Unit := do
  loadOperand o
  match o.ty.inner? with
  | some t => instr (.optValueOrDefault t)
  | none => pure ()

/-- Loads whether an operand is present. -/
def loadPresence (o : Operand) : Emit Unit := do
  if o.ty.isNullable then
    loadOperand o
    instr .optHasValue
  else instr (.const (.bool true))

/-- Runs `body` when all operands are present, and `absent` otherwise. -/
def lifted (operands : List Operand) (wrap : Bool) (absent body : Emit Unit) : Emit Unit := do
  let missing ← newLabel
  let done ← newLabel
  (operands.filter (·.ty.isNullable)).forM fun o =>
    instrs [.loadLocal o.slot, .optHasValue, .jumpIfFalse missing]
  body
  wrapIf wrap
  instr (.jump done)
  mark missing
  absent
  mark done

/-- Equality of two operands of which one may be absent. -/
def liftedEquality (op : BinaryOp) (left right : Operand) (result : Ty) : Emit Unit := do
  let differ ← newLabel
  let bothAbsent ← newLabel
  let done ← newLabel
  loadPresence left
  loadPresence right
  instrs [.compare .ne, .jumpIfTrue differ]
  loadPresence left
  instr (.jumpIfFalse bothAbsent)
  loadInner left
  loadInner right
  instrs [.compare (if op = .eq then .eq else .ne), .jump done]
  mark bothAbsent
  instrs [.const (.bool (op = .eq)), .jump done]
  mark differ
  instr (.const (.bool (op = .ne)))
  mark done
  wrapIf result.isNullable

/-- An operator that a method implements; it is lifted unless the method takes optionals. -/
def operatorCall (method : MethodRef) (left right : Operand) (result : Ty) : Emit Unit := do
  let sig ← lookup (·.signature method)
  if sig.arity = 2 then
    let takesOptional := sig.params.any fun p => p.1.isNullable
    if (left.ty.isNullable || right.ty.isNullable) && !takesOptional then
      lifted [left, right] (result.isNullable && !sig.ret.isNullable) (pushDefault result) do
        loadInner left
        loadInner right
        instr (.call method)
    else
      loadOperand left
      loadOperand right
      instr (.call method)
  else fail (.argumentCount ((← registry).methodName method) sig.arity 2)

/-- An ordering or an arithmetic operator of which one operand may be absent. -/
def liftedOperator (op : BinaryOp) (checked : Bool) (left right : Operand) (result : Ty) :
    Emit Unit := do
  let body : Emit Unit := do
    loadInner left
    loadInner right
    instr (op.instr checked left.ty.underlying)
  if op.isComparison then
    let threeValued := result.isNullable && (← options).threeValuedComparisons
    let absent : Emit Unit :=
      if threeValued then instr (.loadDefault result)
      else do
        instr (.const (.bool false))
        wrapIf result.isNullable
    lifted [left, right] result.isNullable absent body
  else if result.isNullable then
    lifted [left, right] true (instr (.loadDefault result)) body
  else
    mismatch "lifted operator" ((← tyText result) ++ "?") result

/-- An operator on two operands, which leaves a value of the result type. -/
def binarySlots (op : BinaryOp) (checked : Bool) (method : Option MethodRef)
    (left right : Operand) (result : Ty) : Emit Unit := do
  match method with
  | some m => operatorCall m left right result
  | none =>
      if !(left.ty.isNullable || right.ty.isNullable) then
        loadOperand left
        loadOperand right
        instr (op.instr checked left.ty)
      else if op.isEquality then liftedEquality op left right result
      else liftedOperator op checked left right result

/-- Operands of a plain operator have to fit it. -/
def checkBinary (op : BinaryOp) (left right : Ty) : Emit Unit := do
  if op.accepts left right then pure ()
  else mismatch s!"binary {op.tag}" (← tyText left) right

end Emit

end Arbor
