/-
  The world of an evaluation.

  Trees are evaluated directly, without code, over a world of variables, static
  fields and a heap.  An evaluation ends early when a check fails, which a landing
  turns into a default, or when the run traps; it is stuck where the tree has no
  direct meaning.
-/
import Arbor.Emit.Node
import Arbor.Proofs.Machine.Instructions

set_option autoImplicit false

namespace Arbor

/-- Why an evaluation ends early. -/
inductive Stop where
  /-- A check failed; evaluation goes on at the nearest landing. -/
  | exit
  | trap (trap : Trap)
  /-- The tree has no direct meaning here. -/
  | stuck

/-- Variables with their types and values, inner ones first. -/
abbrev Vars := List (VarId × Ty × Value)

namespace Vars

/-- Gives the innermost variable of a number a value. -/
def assign (id : VarId) (v : Value) : Vars → Vars
  | [] => []
  | (i, ty, old) :: rest =>
      if id == i then (i, ty, v) :: rest else (i, ty, old) :: assign id v rest

end Vars

/-- What an evaluation reads and changes; function values are held by their outlines. -/
structure World where
  heap : Heap
  statics : Statics
  vars : Vars

/-- An evaluation. -/
abbrev Eval := EStateM Stop World

/-- What a node leaves. -/
inductive Result where
  | nothing
  | value (v : Value)

namespace Eval

/-- The tree has no direct meaning. -/
def stuck {α : Type} : Eval α := throw .stuck

/-- A failed check. -/
def exit {α : Type} : Eval α := throw .exit

/-- An action of the machine that needs no frames. -/
def lift {α : Type} (x : Run α) : Eval α := fun w =>
  match x ⟨w.heap, [], w.statics⟩ with
  | .ok a s => .ok a { w with heap := s.heap, statics := s.statics }
  | .error t s => .error (.trap t) { w with heap := s.heap, statics := s.statics }

/-- The type and value of a variable. -/
def lookup (id : VarId) : Eval (Ty × Value) := fun w =>
  match w.vars.lookup id with
  | some v => .ok v w
  | none => .error .stuck w

/-- Gives a variable a value. -/
def writeVar (id : VarId) (v : Value) : Eval PUnit := fun w =>
  .ok ⟨⟩ { w with vars := w.vars.assign id v }

/-- Evaluates with further variables, the last of them innermost; they are gone afterwards. -/
def within {α : Type} (vars : Vars) (act : Eval α) : Eval α := fun w =>
  match act { w with vars := vars.reverse ++ w.vars } with
  | .ok a w => .ok a { w with vars := w.vars.drop vars.length }
  | .error e w => .error e { w with vars := w.vars.drop vars.length }

/-- Goes on with a landing where a check fails. -/
def orLand {α : Type} (body landing : Eval α) : Eval α := fun w =>
  match body w with
  | .error .exit w => landing w
  | out => out

/-- The default of a type that has values. -/
def defaultOf (r : Registry) (ty : Ty) : Eval Value :=
  if ty.isValueType then lift (Run.ofLookup (r.zero ty)) else pure .null

/-- A value of a node of the type; no node of type void leaves one. -/
def yield (ty : Ty) (v : Value) : Eval Result :=
  if ty.isVoid then stuck else pure (.value v)

end Eval

/-- A value where an optional may be expected. -/
def Value.wrapIf (condition : Bool) (v : Value) : Value := if condition then v.wrapped else v

/-- What is inside an operand of the type. -/
def Value.payloadAt? (ty : Ty) (v : Value) : Option Value :=
  if ty.isNullable then v.payload? else some v

/-- Whether a type is that of truth values or an integer type. -/
def Ty.isScalar : Ty → Bool
  | bool => true
  | num k => k.isIntegral
  | _ => false

/-- Whether a value is one of a truth value, numeric or text type, or of an optional of these. -/
def Value.isOf : Value → Ty → Bool
  | bool _, .bool => true
  | num n, .num k => n.kind = k
  | str _, .str => true
  | null, .str => true
  | absent, .nullable _ => true
  | present v, .nullable t => v.isOf t
  | _, _ => false

/-- The form in which a node of the type is left. -/
def Shape.form (shape : Shape) (ty : Ty) : Form :=
  if ty.isVoid then .nothing
  else if shape = .nothing then .nothing
  else if shape.wantsAddress ty then .address
  else .value

end Arbor
