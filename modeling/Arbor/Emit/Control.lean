/-
  Emitters of control flow: conditionals, blocks, loops, jumps and throws.
-/
import Arbor.Emit.Node

set_option autoImplicit false

namespace Arbor.Emit

/-- Leaves the truth value of a test of the type; an absent one counts as false. -/
def testTruth (ty : Ty) : Emit Unit :=
  if ty.isNullable then instr (.optValueOrDefault .bool) else pure ()

/-- The branches of a node of the given type have to fit it, unless it is void. -/
def checkBranches (ty : Ty) (branches : List Node) : Emit Unit :=
  if ty.isVoid then pure () else branches.forM (·.checkBranch ty)

/-- A conditional; an absent test counts as false. -/
def conditional (test ifTrue ifFalse : Node) (ty : Ty) (exit : Option Label) (shape : Shape) :
    Emit Emitted := do
  if test.ty.underlying ≠ .bool then mismatch "conditional test" "bool" test.ty
  else
    let discard := ty.isVoid || shape = .nothing
    checkBranches ty [ifTrue, ifFalse]
    let otherwise ← newLabel
    let done ← newLabel
    let _ ← test.guarded .value
    testTruth test.ty
    instr (.jumpIfFalse otherwise)
    let usedTrue ← ifTrue.branch ty exit discard
    instr (.jump done)
    mark otherwise
    let usedFalse ← ifFalse.branch ty exit discard
    mark done
    let used := usedTrue || usedFalse
    pure (if discard then .nothing used else .ofTy ty used)

/-! ## Blocks -/

/-- A statement: its exits go on behind it. -/
def statement (n : Node) : Emit Unit := do
  let _ ← withLanding .void fun exit => n.emit exit .nothing false

/-- Statements and a last node that yields the value of the block. -/
def statements (ty : Ty) (exit : Option Label) (shape : Shape) : List Node → Emit Emitted
  | [] => do
      pushDefault ty
      pure (.ofTy ty false)
  | [last] => do
      if ty.isVoid then return .nothing (← last.effect exit)
      else
        last.checkBranch ty
        if last.ty = ty then last.emit exit shape false
        else
          let used ← last.branch ty exit false
          pure (.ofTy ty used)
  | first :: rest => do
      statement first
      statements ty exit shape rest

/-- A block with variables. -/
def block (vars : List Variable) (body : List Node) (ty : Ty) (exit : Option Label)
    (shape : Shape) : Emit Emitted :=
  withTemps (withLocals vars (statements ty exit shape body))

/-! ## Loops and jumps -/

/-- What a label leaves behind its mark: the value that jumps deliver. -/
def labelValue (info : LabelInfo) : Emit Emitted := do
  match info.valueSlot with
  | some slot =>
      instr (.loadLocal slot)
      pure (.ofTy info.ty false)
  | none => pure (.nothing false)

/-- A loop that only jumps end. -/
def loop (body : Node) (breakLabel continueLabel : Option LabelTarget) (ty : Ty) :
    Emit Emitted := do
  let start ←
    match continueLabel with
    | some target => (·.label) <$> labelInfo target.id
    | none => newLabel
  mark start
  statement body
  instr (.jump start)
  match breakLabel with
  | some target =>
      let info ← labelInfo target.id
      mark info.label
      labelValue info
  | none =>
      pushDefault ty
      pure (.ofTy ty false)

/-- A jump, with the value that it delivers. -/
def goto (target : LabelTarget) (value : Option Node) : Emit Emitted := do
  let info ← labelInfo target.id
  match value with
  | some v =>
      let _ ← v.guarded .value
      match info.valueSlot with
      | some slot =>
          wrapIf (info.ty.isNullable && !v.ty.isNullable)
          instr (.storeLocal slot)
      | none => if v.ty.isVoid then pure () else instr .pop
  | none =>
      if info.ty.isVoid then pure ()
      else fail (.typeMismatch "jump" (← tyText info.ty) "void")
  jumpTo info
  pure (.nothing false)

/-- A label; control that arrives without a jump delivers the default. -/
def label (target : LabelTarget) (default : Option Node) : Emit Emitted := do
  let info ← labelInfo target.id
  match info.valueSlot, default with
  | some slot, some d =>
      let _ ← d.guarded .value
      wrapIf (info.ty.isNullable && !d.ty.isNullable)
      instr (.storeLocal slot)
  | some slot, none =>
      pushDefault info.ty
      instr (.storeLocal slot)
  | none, some d =>
      let _ ← d.guarded .nothing
  | none, none => pure ()
  mark info.label
  labelValue info

/-- A throw, or without an operand a rethrow. -/
def throw (operand : Option Node) : Emit Emitted := do
  match operand with
  | some n =>
      if n.ty.isReference then
        let _ ← n.guarded .value
        instr .throw
      else mismatch "throw" "an exception object" n.ty
  | none => instr .rethrow
  pure (.nothing false)

end Arbor.Emit
