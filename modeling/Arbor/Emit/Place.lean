/-
  Places: storage locations that can be read, written, addressed and created.

  Preparing a place evaluates its receiver and indices once, into temporaries.
  With extension, missing receivers are created, arrays are grown and stored
  back where they came from, and lists are padded.
-/
import Arbor.Emit.Lifted

set_option autoImplicit false

namespace Arbor

namespace Emit

/-! ## Loading and storing -/

/-- An accessor of a property. -/
def accessor (p : PropertyRef) (which : Accessor) : Emit MethodRef := do
  let d ← lookup (·.property p)
  let method :=
    match which with
    | .getter => d.getter
    | .setter => d.setter
  match method with
  | some m => pure m
  | none => fail (.missingAccessor ((← registry).typeName p.ty ++ "::" ++ d.name) which)

/-- Argument with the closure environment. -/
def closureTable : Emit Nat := do
  match (← hiddenParams).closureArg? with
  | some table => pure table
  | none =>
      unsupported "closure variable in a function compiled without a closure environment"

/-- Loads an element of a table of boxed values that an argument holds. -/
def loadTableElement (table index : Nat) (ty : Ty) : Emit Unit := do
  instr (.loadArg table)
  int index
  instr .loadElem
  if ty = .object then pure () else instr (.unbox ty)

/-- Loads the receiver and the indices of a place. -/
def loadPlaceOperands (p : Place) : Emit Unit :=
  instrs ((p.receiver.toList ++ p.indices).map Instr.loadLocal)

/-- Loads the value of a place. -/
def loadPlace (p : Place) : Emit Unit := do
  match p.kind with
  | .var slot => loadVar slot
  | .closure i => loadTableElement (← closureTable) i p.ty
  | .field f =>
      loadPlaceOperands p
      instr (.loadField f)
  | .staticField f => instr (.loadStatic f)
  | .property q =>
      let getter ← accessor q .getter
      loadPlaceOperands p
      instr (.call getter)
  | .arrayElem =>
      loadPlaceOperands p
      instr .loadElem
  | .listElem elem =>
      loadPlaceOperands p
      instr (.call (.intrinsic (.listGet elem)))
  | .mdElem elem rank =>
      loadPlaceOperands p
      instr (.call (.intrinsic (.mdGet elem rank)))

/-- Stores the value of a local into a place. -/
def storePlace (p : Place) (value : Nat) : Emit Unit := do
  let store (i : Instr) : Emit Unit := do
    loadPlaceOperands p
    instrs [.loadLocal value, i]
  match p.kind with
  | .var slot =>
      instr (.loadLocal value)
      storeVar slot
  | .closure i =>
      instr (.loadArg (← closureTable))
      int i
      instrs [.loadLocal value, .box p.ty, .storeElem]
  | .field f => store (.storeField f)
  | .staticField f => instrs [.loadLocal value, .storeStatic f]
  | .property q => store (.call (← accessor q .setter))
  | .arrayElem => store .storeElem
  | .listElem elem => store (.call (.intrinsic (.listSet elem)))
  | .mdElem elem rank => store (.call (.intrinsic (.mdSet elem rank)))

/-- Loads the address of a place, if it has one. -/
def loadPlaceAddr (p : Place) : Emit Bool := do
  match p.kind with
  | .var slot =>
      loadVarAddr slot
      pure true
  | .field f =>
      loadPlaceOperands p
      instr (.loadFieldAddr f)
      pure true
  | .staticField f =>
      instr (.loadStaticAddr f)
      pure true
  | .arrayElem =>
      loadPlaceOperands p
      instr .loadElemAddr
      pure true
  | _ => pure false

/-! ## Creation -/

/-- Pushes a new empty instance of a class, array or list type. -/
def pushNew (ty : Ty) : Emit Unit := do
  match ty with
  | .classTy id =>
      match (← registry).defaultCtor? id with
      | some ctor => instr (.newObject ctor)
      | none =>
          let text ← tyText ty
          unsupported s!"auto-extension of {text} requires a parameterless constructor"
  | .array elem =>
      int 0
      instr (.newArray elem)
  | .list elem => instr (.newList elem)
  | _ => unsupported ("auto-extension of " ++ (← tyText ty))

/-- Loads a place into a temporary; a missing value is created and stored first. -/
def createdPlace (p : Place) : Emit Nat := do
  loadPlace p
  let slot ← spill p.ty
  if p.ty.isCreatable then
    let present ← newLabel
    instrs [.loadLocal slot, .jumpIfPresent present]
    pushNew p.ty
    instr (.storeLocal slot)
    storePlace p slot
    mark present
  pure slot

/-! ## Elements -/

/-- The place kind of the elements of a container, and their number of indices. -/
def elementKind? : Ty → Option (PlaceKind × Nat)
  | .array _ => some (.arrayElem, 1)
  | .list elem => some (.listElem elem, 1)
  | .mdArray elem rank => some (.mdElem elem rank, rank)
  | _ => none

/-- Emits an index as a 32-bit integer. -/
def indexOperand (arg : Node) (exit : Option Label) : Emit Bool := do
  let used ← arg.value exit
  match arg.ty with
  | .num (.int k) =>
      if k = .i32 then pure used
      else
        instr (.conv (.int .i32) true)
        pure used
  | t => mismatch "index" "an integral type" t

/-- Emits indices into temporaries. -/
def spillIndices (exit : Option Label) : List Node → Emit (List Nat × Bool)
  | [] => pure ([], false)
  | arg :: rest => do
      let used ← indexOperand arg exit
      let slot ← spill .int
      let (slots, usedRest) ← spillIndices exit rest
      pure (slot :: slots, used || usedRest)

/-- Loads the length of a dimension of the container of an element place. -/
def loadDimension (kind : PlaceKind) (dim : Nat) : Emit Unit := do
  match kind with
  | .listElem elem => instr (.call (.intrinsic (.listCount elem)))
  | .mdElem elem rank =>
      int dim
      instr (.call (.intrinsic (.mdLength elem rank)))
  | _ => instr .loadLength

/-- Jumps to the exit when an index of an element place, numbered from `dim` on, is out of range. -/
def checkIndices (pad : Label) (kind : PlaceKind) (container : Nat) : Nat → List Nat → Emit Unit
  | _, [] => pure ()
  | dim, index :: rest => do
      instr (.loadLocal index)
      int 0
      instrs [.compare .lt, .jumpIfTrue pad, .loadLocal index, .loadLocal container]
      loadDimension kind dim
      instrs [.compare .lt, .jumpIfFalse pad]
      checkIndices pad kind container (dim + 1) rest

/-- Jumps to the exit when an index of an element place is out of range, where bounds checks are
on. -/
def boundsCheck (kind : PlaceKind) (container : Nat) (indices : List Nat) (exit : Option Label) :
    Emit Bool := do
  match exit with
  | some pad =>
      if (← options).boundsChecks then
        checkIndices pad kind container 0 indices
        pure true
      else pure false
  | none => pure false

/-- Prepares an element of a container that is itself a place: the container is created there if it
is missing, and grown to hold the index. -/
def grownElement (kind : PlaceKind) (receiver arg : Node) (exit : Option Label) :
    Emit (Nat × Nat × Bool) := do
  let (outer, usedOuter) ← receiver.place exit true
  let usedIndex ← indexOperand arg exit
  let index ← spill .int
  let container ← createdPlace outer
  match kind with
  | .listElem elem =>
      let child ← helper .ensureListCount elem
      instrs [.loadLocal container, .loadLocal index]
      int 1
      instrs [.arith .add true, .callChild child]
  | _ =>
      let child ← helper .ensureArrayLength (receiver.ty.element?.getD .object)
      instrs [.loadLocal container, .loadLocal index, .callChild child, .storeLocal container]
      storePlace outer container
  pure (container, index, usedOuter || usedIndex)

/-- Prepares an element of an array or list. -/
def elementPlace (ty : Ty) (receiver : Node) (args : List Node) (exit : Option Label)
    (extend : Bool) : Emit (Place × Bool) := do
  match elementKind? receiver.ty with
  | none => mismatch "element access" "an array or list" receiver.ty
  | some (kind, rank) =>
      if args.length ≠ rank then
        fail (.argumentCount ((← tyText receiver.ty) ++ " indexer") rank args.length)
      else
        let plain : Emit (Nat × List Nat × Bool) := do
          let emitted ← receiver.receiver exit .value false
          let container ← spill receiver.ty
          let (indices, usedIndices) ← spillIndices exit args
          pure (container, indices, emitted.usedExit || usedIndices)
        let prepared : Emit (Nat × List Nat × Bool) :=
          match kind, args with
          | .mdElem .., _ => plain
          | _, [arg] =>
              if extend && receiver.expr.kind.isPlace then do
                let (container, index, used) ← grownElement kind receiver arg exit
                pure (container, [index], used)
              else plain
          | _, _ => plain
        let (container, indices, used) ← prepared
        let checked ← boundsCheck kind container indices exit
        pure (⟨kind, some container, indices, ty⟩, used || checked)

/-! ## Preparation -/

/-- Emits a receiver into a temporary: an address for value types. -/
def spillReceiver (receiver : Node) (exit : Option Label) (extend : Bool) : Emit (Nat × Bool) := do
  let emitted ← receiver.receiver exit .receiver extend
  let ty := if emitted.form = .address then Ty.byRef receiver.ty else receiver.ty
  pure (← spill ty, emitted.usedExit)

/-- The receiver of an instance member. -/
def instanceReceiver (receiver : Option Node) (what : String) : Emit Node := do
  match receiver with
  | some n => pure n
  | none => unsupported s!"instance {what} access without a receiver"

/-- Prepares a field. -/
def fieldPlace (ty : Ty) (f : FieldRef) (receiver : Option Node) (exit : Option Label)
    (extend : Bool) : Emit (Place × Bool) := do
  if (← lookup (·.field f)).isStatic then pure (.plain (.staticField f) ty, false)
  else
    let receiver ← instanceReceiver receiver "field"
    let (slot, used) ← spillReceiver receiver exit extend
    pure (⟨.field f, some slot, [], ty⟩, used)

/-- Emits arguments into temporaries. -/
def spillArgs (exit : Option Label) : List Node → Emit (List Nat × Bool)
  | [] => pure ([], false)
  | arg :: rest => do
      let used ← arg.value exit
      let slot ← spill arg.ty
      let (slots, usedRest) ← spillArgs exit rest
      pure (slot :: slots, used || usedRest)

/-- Prepares a property, with its index arguments if it takes any. -/
def propertyPlace (ty : Ty) (p : PropertyRef) (receiver : Option Node) (args : List Node)
    (exit : Option Label) (extend : Bool) : Emit (Place × Bool) := do
  let d ← lookup (·.property p)
  if d.indexParams.length ≠ args.length then
    fail (.argumentCount d.name d.indexParams.length args.length)
  else
    let (slot, usedReceiver) ←
      if d.isStatic then pure (none, false)
      else do
        let receiver ← instanceReceiver receiver "property"
        let (slot, used) ← spillReceiver receiver exit extend
        pure (some slot, used)
    let (indices, usedArgs) ← spillArgs exit args
    pure (⟨.property p, slot, indices, ty⟩, usedReceiver || usedArgs)

/-- Prepares a node as a place. -/
def placeOf (k : ExprKind Node) (ty : Ty) (exit : Option Label) (extend : Bool) :
    Emit (Place × Bool) := do
  match k with
  | .parameter id =>
      let (slot, _) ← varSlot id
      pure (.plain (.var slot) ty, false)
  | .closureVar i =>
      let _ ← closureTable
      pure (.plain (.closure i) ty, false)
  | .member receiver (.field f) => fieldPlace ty f receiver exit extend
  | .member receiver (.property p) => propertyPlace ty p receiver [] exit extend
  | .index receiver args (some p) => propertyPlace ty p (some receiver) args exit extend
  | .index receiver args none => elementPlace ty receiver args exit extend
  | _ => fail (.notAssignable k.name)

end Emit

end Arbor
