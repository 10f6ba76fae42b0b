/-
  Emitters of assignments and steps.

  The target is prepared as a place once; the new value is computed in
  temporaries and stored through the same operands.  A postfix step yields the
  value held before; every other assignment yields the stored value.
-/
import Arbor.Emit.Place

set_option autoImplicit false

namespace Arbor.Emit

/-- What an assignment leaves for its node. -/
def assigned (ty : Ty) (slot : Nat) (keep used : Bool) : Emit Emitted := do
  if keep then
    instr (.loadLocal slot)
    pure (.ofTy ty used)
  else pure (.nothing used)

/-- A plain assignment. -/
def store (target value : Node) (extend : Bool) (exit : Option Label) (keep : Bool) :
    Emit Emitted :=
  withTemps do
    let (p, usedTarget) ← target.place exit extend
    let usedValue ← value.value exit
    coerce value.ty target.ty "assignment"
    let slot ← spill target.ty
    storePlace p slot
    assigned target.ty slot keep (usedTarget || usedValue)

/-- An assignment that applies an operator to the old value. -/
def update (op : BinaryOp) (target value : Node) (checked extend : Bool) (exit : Option Label)
    (keep : Bool) : Emit Emitted := do
  checkBinary op target.ty value.ty
  withTemps do
    let (p, usedTarget) ← target.place exit extend
    loadPlace p
    let old ← spillOperand target.ty
    let usedValue ← value.value exit
    let operand ← spillOperand value.ty
    binarySlots op checked none old operand target.ty
    let slot ← spill target.ty
    storePlace p slot
    assigned target.ty slot keep (usedTarget || usedValue)

/-- The operator of a step. -/
def stepOp : AssignOp → ArithOp
  | .preIncrement | .postIncrement => .add
  | _ => .sub

/-- The value one step away from an operand; an absent one stays absent. -/
def stepped (op : ArithOp) (k : NumKind) (checked : Bool) (old : Operand) : Emit Unit := do
  let addOne := instrs [.const (.num (.one k)), .arith op checked]
  if old.ty.isNullable then
    lifted [old] true (instr (.loadDefault old.ty)) do
      loadInner old
      addOne
  else
    loadOperand old
    addOne

/-- An increment or decrement. -/
def step (op : AssignOp) (target : Node) (checked extend : Bool) (exit : Option Label)
    (keep : Bool) : Emit Emitted := do
  match target.ty.underlying.numKind? with
  | none => mismatch op.tag "a numeric target" target.ty
  | some k =>
      withTemps do
        let (p, used) ← target.place exit extend
        loadPlace p
        let old ← spillOperand target.ty
        stepped (stepOp op) k checked old
        let slot ← spill target.ty
        storePlace p slot
        assigned target.ty (if op.yieldsOldValue then old.slot else slot) keep used

/-- An assignment of any kind; a step takes no value and every other assignment takes one. -/
def assign (op : AssignOp) (target : Node) (value : Option Node) (checked autoExtend : Bool)
    (exit : Option Label) (shape : Shape) : Emit Emitted := do
  let extend := autoExtend || (← options).autoExtendAssign
  let keep := shape ≠ .nothing
  let count : CompileError :=
    .argumentCount (op.tag ++ " assignment") (!op.isStep).toNat value.isSome.toNat
  match op.isStep, value with
  | true, none => step op target checked extend exit keep
  | false, some value =>
      match op.binary? with
      | none => store target value extend exit keep
      | some bin => update bin target value checked extend exit keep
  | _, _ => fail count

end Arbor.Emit
