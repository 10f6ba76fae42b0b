/-
  Emitters of type tests and conversions.

  A numeric conversion of an optional to an optional leaves an absent operand
  absent.  Taking an absent optional out of its wrapper faults, as a failing
  reference cast does.
-/
import Arbor.Emit.Lifted

set_option autoImplicit false

namespace Arbor.Emit

/-- Emits an operand as an object. -/
def boxedOperand (operand : Node) (exit : Option Label) : Emit Bool := do
  let used ← operand.value exit
  if operand.ty.isValueType then instr (.box operand.ty)
  pure used

/-- A type test. -/
def typeTest (operand : Node) (target : Ty) (exact : Bool) (exit : Option Label) :
    Emit Emitted := do
  let used ← boxedOperand operand exit
  instrs [.isInstance target exact, .const .null, .compare .ne]
  pure (.ofTy .bool used)

/-- A cast that yields an absent value where it fails. -/
def typeAs (operand : Node) (ty : Ty) (exit : Option Label) : Emit Emitted := do
  if !ty.canBeAbsent then mismatch "as" "a reference or nullable type" ty
  else
    let used ← boxedOperand operand exit
    instr (.isInstance ty false)
    if ty.isNullable then instr (.unbox ty)
    pure (.ofTy ty used)

/-- Ends the compilation because there is no conversion between two types. -/
def noConversion {α : Type} (source target : Ty) : Emit α := do
  let sourceText ← tyText source
  let targetText ← tyText target
  unsupported s!"conversion from {sourceText} to {targetText}"

/-- A conversion that keeps numbers as they are: wrapping, unwrapping, boxing, unboxing and
reference casts. -/
def plainConversion (source target : Ty) : Emit Unit := do
  if target.isVoid then
    if source.isVoid then pure () else instr .pop
  else if source = target then pure ()
  else if target.isNullable && target.underlying = source then instr .optWrap
  else if source.isNullable && source.underlying = target then instr .optValue
  else if source.isValueType && target.isReference then
    if target = .object then instr (.box source) else noConversion source target
  else if source.isReference && target.isValueType then
    if source = .object then instr (.unbox target) else noConversion source target
  else if source.isReference && target.isReference then
    if (← registry).isAssignable source target then pure () else instr (.castClass target)
  else noConversion source target

/-- A conversion between numeric types and their optionals. -/
def numericConversion (operand : Node) (source target : NumKind) (checked : Bool) (ty : Ty)
    (exit : Option Label) : Emit Emitted := do
  let conversion := if source = target then [] else [Instr.conv target checked]
  if operand.ty.isNullable && ty.isNullable then
    withTemps do
      let used ← operand.value exit
      let v ← spillOperand operand.ty
      lifted [v] true (instr (.loadDefault ty)) do
        loadInner v
        instrs conversion
      pure (.ofTy ty used)
  else
    let used ← operand.value exit
    unwrapIf operand.ty.isNullable
    instrs conversion
    wrapIf ty.isNullable
    pure (.ofTy ty used)

/-- A conversion that a method implements; it is lifted over an optional operand if the method
takes none. -/
def userConversion (operand : Node) (method : MethodRef) (ty : Ty) (exit : Option Label) :
    Emit Emitted := do
  let sig ← lookup (·.signature method)
  let name := (← registry).methodName method
  match sig.params with
  | [(param, _)] =>
      if !(operand.ty.isNullable && !param.isNullable) then
        let used ← operand.value exit
        coerce operand.ty param name
        instr (.call method)
        plainConversion sig.ret ty
        pure (.ofTy ty used)
      else if !ty.canBeAbsent then mismatch "lifted conversion" (← tyText ty.optional) ty
      else
        withTemps do
          let used ← operand.value exit
          let v ← spillOperand operand.ty
          lifted [v] (ty.isNullable && !sig.ret.isNullable) (pushDefault ty) do
            loadInner v
            instr (.call method)
          pure (.ofTy ty used)
  | params => fail (.argumentCount name 1 params.length)

/-- A conversion. -/
def convert (operand : Node) (checked : Bool) (method : Option MethodRef) (ty : Ty)
    (exit : Option Label) : Emit Emitted := do
  match method with
  | some m => userConversion operand m ty exit
  | none =>
      match operand.ty.underlying.numKind?, ty.underlying.numKind? with
      | some source, some target => numericConversion operand source target checked ty exit
      | _, _ =>
          let used ← operand.value exit
          plainConversion operand.ty ty
          pure (.ofTy ty used)

end Arbor.Emit
