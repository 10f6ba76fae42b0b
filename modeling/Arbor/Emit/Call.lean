/-
  Emitters of calls and construction.

  The receiver comes first, then the arguments from left to right.  A receiver of
  a value type is passed by address, so that methods can change it, and a null
  receiver of an instance method takes the exit.  Arguments passed by address
  take no part in null propagation and extension.
-/
import Arbor.Emit.Place

set_option autoImplicit false

namespace Arbor.Emit

/-! ## Arguments -/

/-- Emits one argument for a parameter. -/
def argument (what : String) (arg : Node) (param : Ty × Bool) (exit : Option Label) :
    Emit Bool := do
  let (ty, byRef) := param
  if byRef then
    if arg.ty = ty then
      let _ ← arg.emit none .address false
      pure false
    else mismatch s!"by-reference argument of {what}" (← tyText ty) arg.ty
  else
    let used ← arg.value exit
    coerce arg.ty ty what
    pure used

/-- Emits arguments for as many parameters. -/
def eachArgument (what : String) (exit : Option Label) : List (Node × Ty × Bool) → Emit Bool
  | [] => pure false
  | (arg, param) :: rest => do
      let used ← argument what arg param exit
      let usedRest ← eachArgument what exit rest
      pure (used || usedRest)

/-- Emits arguments; their number has to be that of the parameters. -/
def arguments (what : String) (params : List (Ty × Bool)) (args : List Node)
    (exit : Option Label) : Emit Bool := do
  if params.length ≠ args.length then fail (.argumentCount what params.length args.length)
  else eachArgument what exit (args.zip params)

/-- What a call leaves for its node. -/
def callResult (ret node : Ty) (used : Bool) : Emit Emitted := do
  if ret.isVoid then pure (.nothing used)
  else if node.isVoid then
    instr .pop
    pure (.nothing used)
  else pure (.ofTy node used)

/-! ## Calls -/

/-- How a method is called. -/
def methodKind (method : MethodRef) (sig : Signature) : Emit MethodKind := do
  match method with
  | .method ty i => return (← lookup (·.method ty i)).kind
  | .intrinsic _ => pure (if sig.this.isSome then .member else .static)

/-- A call of a method. -/
def call (method : MethodRef) (receiver : Option Node) (args : List Node) (ty : Ty)
    (exit : Option Label) : Emit Emitted := do
  let sig ← lookup (·.signature method)
  let kind ← methodKind method sig
  let name := (← registry).methodName method
  let finish (used : Bool) (args : List Node) : Emit Emitted := do
    let usedArgs ← arguments name sig.params args exit
    instr (.call method)
    callResult sig.ret ty (used || usedArgs)
  match kind, receiver with
  | .member, some receiver =>
      let emitted ← receiver.receiver exit .receiver false
      finish emitted.usedExit args
  | .member, none => unsupported s!"instance call to {name} without a receiver"
  | .extension, some receiver => finish false (receiver :: args)
  | .ctor, _ => unsupported s!"direct call to constructor {name}"
  | _, some _ => unsupported s!"static method {name} called with a receiver"
  | _, none => finish false args

/-- A call of a function value. -/
def invoke (func : Node) (args : List Node) (ty : Ty) (exit : Option Label) : Emit Emitted := do
  match func.ty with
  | .func params ret =>
      let emitted ← func.receiver exit .value false
      let used ← arguments "function value" (params.map fun t => (t, false)) args exit
      instr (.callInvoker (args.length % Builder.slotLimit))
      callResult ret ty (emitted.usedExit || used)
  | t => mismatch "invoke" "a function value" t

/-! ## Construction -/

/-- A new value without constructor arguments. -/
def newPlain (ty : Ty) : Emit Unit := do
  match ty with
  | .structTy _ =>
      withTemps do
        let slot ← temp ty
        instrs [.loadLocalAddr slot, .initObject ty, .loadLocal slot]
  | .classTy id =>
      match (← registry).defaultCtor? id with
      | some ctor => instr (.newObject ctor)
      | none => unsupported ((← tyText ty) ++ " has no parameterless constructor")
  | .list elem => instr (.newList elem)
  | _ => unsupported ("construction of " ++ (← tyText ty))

/-- A new instance. -/
def construct (ctor : Option MethodRef) (args : List Node) (ty : Ty) (exit : Option Label) :
    Emit Emitted := do
  match ctor with
  | some method =>
      let sig ← lookup (·.signature method)
      let used ← arguments ((← registry).methodName method) sig.params args exit
      instr (.newObject method)
      pure (.ofTy ty used)
  | none =>
      if args.isEmpty then
        newPlain ty
        pure (.ofTy ty false)
      else fail (.argumentCount ("new " ++ (← tyText ty)) 0 args.length)

/-- Stores items, numbered from `i` on, into the array on the stack. -/
def arrayItems (elem : Ty) (exit : Option Label) : Nat → List Node → Emit Bool
  | _, [] => pure false
  | i, item :: rest => do
      instr .dup
      int i
      let used ← item.value exit
      coerce item.ty elem "array element"
      instr .storeElem
      let usedRest ← arrayItems elem exit (i + 1) rest
      pure (used || usedRest)

/-- Emits the bounds of an array. -/
def arrayBounds (exit : Option Label) : List Node → Emit Bool
  | [] => pure false
  | bound :: rest => do
      let used ← indexOperand bound exit
      let usedRest ← arrayBounds exit rest
      pure (used || usedRest)

/-- A new array. -/
def newArray (elem : Ty) (init : ArrayInit Node) (ty : Ty) (exit : Option Label) :
    Emit Emitted := do
  match init with
  | .elements items =>
      int items.length
      instr (.newArray elem)
      let used ← arrayItems elem exit 0 items
      pure (.ofTy ty used)
  | .bounds [] => fail (.argumentCount "array bounds" 1 0)
  | .bounds bounds =>
      let used ← arrayBounds exit bounds
      instr (if bounds.length = 1 then .newArray elem else .newMdArray elem bounds.length)
      pure (.ofTy ty used)

/-! ## Initializers -/

/-- Calls an adding method on the container on the stack, which stays there. -/
def elementInit (item : ElementInit Node) (exit : Option Label) : Emit Bool := do
  let sig ← lookup (·.signature item.add)
  let name := (← registry).methodName item.add
  instr .dup
  let used ← arguments name sig.params item.args exit
  instr (.call item.add)
  if !sig.ret.isVoid then instr .pop
  pure used

/-- Calls adding methods in order. -/
def elementInits (exit : Option Label) : List (ElementInit Node) → Emit Bool
  | [] => pure false
  | item :: rest => do
      let used ← elementInit item exit
      let usedRest ← elementInits exit rest
      pure (used || usedRest)

/-- A container with added elements. -/
def listInit (start : Node) (items : List (ElementInit Node)) (exit : Option Label) :
    Emit Emitted := do
  let used ← start.value exit
  let usedItems ← elementInits exit items
  pure (.ofTy start.ty (used || usedItems))

/-- Stores the value on the stack in a member of the instance below it. -/
def storeMember (m : MemberTarget) (source : Ty) : Emit Unit := do
  match m with
  | .field f =>
      let d ← lookup (·.field f)
      coerce source d.ty d.name
      instr (.storeField f)
  | .property p =>
      let d ← lookup (·.property p)
      coerce source d.ty d.name
      instr (.call (← accessor p .setter))

/-- Replaces the instance on the stack by what a member of it holds; a value type is given by
address. -/
def loadMember (m : MemberTarget) : Emit Unit := do
  match m with
  | .field f =>
      let d ← lookup (·.field f)
      instr (if d.ty.isValueType then .loadFieldAddr f else .loadField f)
  | .property p =>
      let d ← lookup (·.property p)
      if d.ty.isValueType then
        unsupported s!"member bindings on value-type property {d.name}"
      else instr (.call (← accessor p .getter))

mutual

/-- Applies a binding to the instance on the stack, which is consumed. -/
def binding (exit : Option Label) : Binding Node → Emit Bool
  | .assign m value => do
      let used ← value.value exit
      storeMember m value.ty
      pure used
  | .member m bindings => do
      loadMember m
      let used ← eachBinding exit (instr .dup) bindings
      instr .pop
      pure used
  | .list m items => do
      loadMember m
      let used ← elementInits exit items
      instr .pop
      pure used
  termination_by structural b => b

/-- Applies bindings in order, each to an instance that `load` pushes. -/
def eachBinding (exit : Option Label) (load : Emit Unit) : List (Binding Node) → Emit Bool
  | [] => pure false
  | b :: rest => do
      load
      let used ← binding exit b
      let usedRest ← eachBinding exit load rest
      pure (used || usedRest)
  termination_by structural bs => bs

end

/-- An instance with bound members. -/
def memberInit (start : Node) (bindings : List (Binding Node)) (exit : Option Label) :
    Emit Emitted := do
  if start.ty.isValueType then
    withTemps do
      let used ← start.value exit
      let slot ← spill start.ty
      let usedBindings ← eachBinding exit (instr (.loadLocalAddr slot)) bindings
      instr (.loadLocal slot)
      pure (.ofTy start.ty (used || usedBindings))
  else
    let used ← start.value exit
    let usedBindings ← eachBinding exit (instr .dup) bindings
    pure (.ofTy start.ty (used || usedBindings))

end Arbor.Emit
