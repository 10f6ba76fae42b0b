/-
  Emitters of reads: members, elements, and values that are created where they
  are missing.
-/
import Arbor.Emit.Place

set_option autoImplicit false

namespace Arbor.Emit

/-! ## Members -/

/-- The receiver of a member. -/
def requireReceiver (receiver : Option Node) (what : String) : Emit Node := do
  match receiver with
  | some n => pure n
  | none => unsupported s!"{what} access without a receiver"

/-- The type of a member has to fit the type of its node. -/
def checkMember (declared node : Ty) (member : String) : Emit Unit := do
  if (← registry).isAssignable declared node then pure ()
  else mismatch s!"access to {member}" (← tyText node) declared

/-- A field. -/
def field (f : FieldRef) (receiver : Option Node) (ty : Ty) (exit : Option Label) (shape : Shape) :
    Emit Emitted := do
  let d ← lookup (·.field f)
  checkMember d.ty ty ((← registry).fieldName f)
  let address := shape.wantsAddress ty
  if d.isStatic then
    instr (if address then .loadStaticAddr f else .loadStatic f)
    pure (if address then .address false else .ofTy ty false)
  else
    let receiver ← requireReceiver receiver "field"
    let emitted ← receiver.receiver exit .receiver false
    instr (if address then .loadFieldAddr f else .loadField f)
    pure (if address then .address emitted.usedExit else .ofTy ty emitted.usedExit)

/-- A property without index parameters. -/
def property (p : PropertyRef) (receiver : Option Node) (ty : Ty) (exit : Option Label) :
    Emit Emitted := do
  let d ← lookup (·.property p)
  if !d.indexParams.isEmpty then fail (.argumentCount d.name d.indexParams.length 0)
  else
    checkMember d.ty ty ((← registry).typeName p.ty ++ "::" ++ d.name)
    let getter ← accessor p .getter
    let used ←
      if d.isStatic then pure false
      else do
        let receiver ← requireReceiver receiver "property"
        pure (← receiver.receiver exit .receiver false).usedExit
    instr (.call getter)
    pure (.ofTy ty used)

/-- A length or count that an instruction reads off a receiver. -/
def measure (receiver : Node) (i : Instr) (ty : Ty) (exit : Option Label) : Emit Emitted := do
  let emitted ← receiver.receiver exit .value false
  instr i
  pure (.ofTy ty emitted.usedExit)

/-- A member. -/
def member (receiver : Option Node) (m : Member) (ty : Ty) (exit : Option Label) (shape : Shape) :
    Emit Emitted := do
  match m with
  | .field f => field f receiver ty exit shape
  | .property p => property p receiver ty exit
  | .arrayLength =>
      let receiver ← requireReceiver receiver "length"
      match receiver.ty with
      | .array _ => measure receiver .loadLength ty exit
      | t => mismatch "array length" "a compatible receiver" t
  | .listCount =>
      let receiver ← requireReceiver receiver "count"
      match receiver.ty with
      | .list elem => measure receiver (.call (.intrinsic (.listCount elem))) ty exit
      | t => mismatch "list count" "a list" t
  | .strLength =>
      let receiver ← requireReceiver receiver "length"
      match receiver.ty with
      | .str => measure receiver (.call (.intrinsic .strLength)) ty exit
      | t => mismatch "string length" "a compatible receiver" t
  | .hasValue =>
      let receiver ← requireReceiver receiver "has-value"
      if receiver.ty.isNullable then
        let used ← receiver.value exit
        instr .optHasValue
        pure (.ofTy ty used)
      else mismatch "has-value" "a compatible receiver" receiver.ty
  | .value =>
      let receiver ← requireReceiver receiver "value"
      if receiver.ty.isNullable then
        let used ← receiver.value exit
        let checked ← nullCheck exit
        instr .optValue
        pure (.ofTy ty (used || checked))
      else mismatch "optional value" "a compatible receiver" receiver.ty

/-! ## Elements -/

/-- The receiver and index of an element that is read without preparing a place: an element of an
array, with neither bounds check nor extension. -/
def directIndex? (receiver : Node) (args : List Node) (indexer : Option PropertyRef)
    (o : Options) (exit : Option Label) : Option Node :=
  match receiver.ty, args, indexer with
  | .array _, [arg], none =>
      if o.autoExtendRead || (o.boundsChecks && exit.isSome) then none else some arg
  | _, _, _ => none

/-- An element; `place` prepares it where it is not read directly. -/
def index (receiver : Node) (args : List Node) (indexer : Option PropertyRef) (ty : Ty)
    (exit : Option Label) (shape : Shape) (place : Option Label → Bool → Emit (Place × Bool)) :
    Emit Emitted := do
  let o ← options
  match directIndex? receiver args indexer o exit with
  | some arg =>
      let emitted ← receiver.receiver exit .value false
      let usedIndex ← indexOperand arg exit
      let used := emitted.usedExit || usedIndex
      if shape.wantsAddress ty then
        instr .loadElemAddr
        pure (.address used)
      else
        instr .loadElem
        pure (.ofTy ty used)
  | none =>
      withTemps do
        let (p, used) ← place exit o.autoExtendRead
        let addressed ← if shape.wantsAddress ty then loadPlaceAddr p else pure false
        if addressed then pure (.address used)
        else
          loadPlace p
          pure (.ofTy ty used)

/-- The value of a place, created there if it is missing. -/
def created (ty : Ty) (exit : Option Label) (place : Option Label → Bool → Emit (Place × Bool)) :
    Emit Emitted :=
  withTemps do
    let (p, used) ← place exit true
    let slot ← createdPlace p
    instr (.loadLocal slot)
    pure (.ofTy ty used)

end Arbor.Emit
