/-
  Nodes as emitters.

  The meaning of a tree for emission is a `Node`: the tree itself, an emitter of
  its value in a requested shape, and an emitter that prepares it as a place.
  Emitters of larger trees are built from the nodes of their operands.

  A check that fails jumps to an exit, if the node was given one, and a landing
  pad turns the exit into a default value.  Each emitter reports whether it used
  the exit, so that a pad is only set up where some check needs it.
-/
import Arbor.Emit.State

set_option autoImplicit false

namespace Arbor

/-- What the consumer of a node wants on the stack. -/
inductive Shape where
  /-- Nothing: a value is discarded. -/
  | nothing
  | value
  /-- The address of the value, which is moved to a temporary if it has none. -/
  | address
  /-- The address of a value type, the value of a reference type. -/
  | receiver
  deriving DecidableEq

/-- Whether a node of the type should leave an address. -/
def Shape.wantsAddress (shape : Shape) (ty : Ty) : Bool :=
  match shape with
  | address => true
  | receiver => ty.isValueType
  | nothing | value => false

/-- What an emitter left on the stack. -/
inductive Form where
  | nothing
  | value
  | address
  deriving DecidableEq, Inhabited

/-- What an emitter reports. -/
structure Emitted where
  /-- Some check jumps to the exit that was passed in. -/
  usedExit : Bool
  form : Form
  deriving DecidableEq, Inhabited

namespace Emitted

/-- A value of the type, of which void has none. -/
def ofTy (ty : Ty) (usedExit : Bool) : Emitted :=
  ⟨usedExit, if ty.isVoid then .nothing else .value⟩

/-- Nothing was left. -/
def nothing (usedExit : Bool) : Emitted := ⟨usedExit, .nothing⟩

/-- An address was left. -/
def address (usedExit : Bool) : Emitted := ⟨usedExit, .address⟩

end Emitted

/-- Kinds of storage locations. -/
inductive PlaceKind where
  | var (slot : VarSlot)
  | field (field : FieldRef)
  | staticField (field : FieldRef)
  | property (property : PropertyRef)
  | arrayElem
  | listElem (elem : Ty)
  | mdElem (elem : Ty) (rank : Nat)
  | closure (index : Nat)
  deriving DecidableEq

/-- A storage location whose operands have been evaluated into temporaries, so that it can be
loaded and stored any number of times. -/
structure Place where
  kind : PlaceKind
  /-- Temporary with the receiver: an object, the address of a struct, an array or a list. -/
  receiver : Option Nat
  /-- Temporaries with the indices. -/
  indices : List Nat
  ty : Ty

/-- A place with neither receiver nor indices. -/
def Place.plain (kind : PlaceKind) (ty : Ty) : Place := ⟨kind, none, [], ty⟩

/-- A tree with its emitters. -/
structure Node where
  expr : Expr
  /-- Emits the value in a shape, given an exit; the flag asks to create what is missing. -/
  emit : Option Label → Shape → Bool → Emit Emitted
  /-- Prepares the tree as a place, given an exit; the flag asks to create what is missing. -/
  place : Option Label → Bool → Emit (Place × Bool)

/-! ## Classification -/

/-- Whether a node names a storage location. -/
def ExprKind.isPlace {α : Type} : ExprKind α → Bool
  | parameter _ | closureVar _ | index .. => true
  | member _ (.field _) | member _ (.property _) => true
  | _ => false

/-- Whether missing values of the type can be created. -/
def Ty.isCreatable : Ty → Bool
  | classTy _ | array _ | list _ => true
  | _ => false

/-- Whether a node of the kind and type can yield null. -/
def ExprKind.mayBeNull {α : Type} (k : ExprKind α) (ty : Ty) : Bool :=
  match k with
  | new .. | newArray .. | listInit .. | memberInit .. | lambda _ => false
  | constant .null => true
  | constant _ => false
  | _ => ty.canBeAbsent

namespace Node

/-- Static type of the tree. -/
def ty (n : Node) : Ty := n.expr.ty

/-- Whether the tree is a place whose missing value can be created. -/
def canCreate (n : Node) : Bool := n.expr.kind.isPlace && n.ty.isCreatable

/-- Emits the value. -/
def value (n : Node) (exit : Option Label) : Emit Bool := do
  return (← n.emit exit .value false).usedExit

/-- Emits the tree for its effects. -/
def effect (n : Node) (exit : Option Label) : Emit Bool := do
  return (← n.emit exit .nothing false).usedExit

end Node

namespace Emit

/-! ## Exits -/

/-- Jumps to the exit when the value on the stack is absent, where null checks are on. -/
def nullCheck (exit : Option Label) : Emit Bool := do
  match exit with
  | some pad =>
      if (← options).nullChecks then
        instrs [.dup, .jumpIfAbsent pad]
        pure true
      else pure false
  | none => pure false

/-- What stands at a landing pad: the default of the type, in the form that the body left. -/
def pushLanding (ty : Ty) (form : Form) : Emit Unit :=
  match form with
  | .nothing => pure ()
  | .value => pushDefault ty
  | .address => do
      let slot ← temp ty
      pushDefault ty
      instrs [.storeLocal slot, .loadLocalAddr slot]

/-- Emits a body with an exit of its own.  An exit that is used lands behind the body, where the
stack is cut down to its depth before the body and the default of the type is produced. -/
def withLanding (ty : Ty) (body : Option Label → Emit Emitted) : Emit Emitted := do
  if (← options).usesExits then
    let depth ← temp .int
    let guardedBody : Emit (Label × Emitted) := do
      let pad ← newLabel
      let emitted ← body (some pad)
      pure (pad, emitted)
    let (pad, emitted) ← reserved guardedBody fun result =>
      if result.2.usedExit then some (.markStack depth) else none
    if emitted.usedExit then
      let done ← newLabel
      instr (.jump done)
      mark pad
      instr (.resetStack depth)
      pushLanding ty emitted.form
      mark done
      pure ⟨false, emitted.form⟩
    else
      mark pad
      pure emitted
  else body none

/-! ## Adapting results -/

/-- Brings what an emitter left into the requested shape. -/
def adapt (ty : Ty) (emitted : Emitted) (shape : Shape) : Emit Emitted :=
  match emitted.form with
  | .nothing => pure emitted
  | .value =>
      if shape = .nothing then do
        instr .pop
        pure ⟨emitted.usedExit, .nothing⟩
      else if shape.wantsAddress ty then do
        let slot ← spill ty
        instr (.loadLocalAddr slot)
        pure ⟨emitted.usedExit, .address⟩
      else pure emitted
  | .address =>
      if shape = .nothing then do
        instr .pop
        pure ⟨emitted.usedExit, .nothing⟩
      else if shape.wantsAddress ty then pure emitted
      else do
        instr .loadIndirect
        pure ⟨emitted.usedExit, .value⟩

/-- A value stored in a slot of another type without a user conversion: wrapped into an optional,
boxed, or left as it is. -/
def coerce (source target : Ty) (context : String) : Emit Unit := do
  if source = target then pure ()
  else if target.isNullable && target.underlying = source then instr .optWrap
  else if (← registry).isAssignable source target then
    if target = .object && source.isValueType then instr (.box source) else pure ()
  else mismatch context (← tyText target) source

end Emit

namespace Node

/-- Emits the tree with exits of its own, which land on its default. -/
def guarded (n : Node) (shape : Shape) : Emit Emitted :=
  Emit.withLanding n.ty fun exit => n.emit exit shape false

/-- Emits the receiver of a member.  A null receiver takes the exit, unless it was created. -/
def receiver (n : Node) (exit : Option Label) (shape : Shape) (extend : Bool) : Emit Emitted := do
  let extend := extend || (← Emit.options).autoExtendRead
  let emitted ← n.emit exit shape extend
  let created := extend && n.canCreate
  if emitted.form = .value && !created && n.ty.isReference && n.expr.kind.mayBeNull n.ty then
    let checked ← Emit.nullCheck exit
    pure ⟨emitted.usedExit || checked, emitted.form⟩
  else pure emitted

/-- A branch must fit the type of its node, or the type inside that optional. -/
def checkBranch (n : Node) (ty : Ty) : Emit Unit := do
  if (← Emit.registry).isAssignable n.ty ty || (ty.isNullable && ty.underlying = n.ty) then pure ()
  else Emit.mismatch "branch" (← Emit.tyText ty) n.ty

/-- Emits a branch of a node of the given type. -/
def branch (n : Node) (ty : Ty) (exit : Option Label) (discard : Bool) : Emit Bool := do
  if discard then n.effect exit
  else
    let used ← n.value exit
    Emit.wrapIf (ty.isNullable && !n.ty.isNullable)
    pure used

end Node

end Arbor
