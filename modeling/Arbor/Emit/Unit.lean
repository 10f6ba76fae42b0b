/-
  Units: the code of whole functions.

  A function becomes a routine of its own; its hidden parameters come first.  All
  labels of the function are made known before its body is emitted, so that jumps
  can lead forward.  A nested function is compiled where it occurs and becomes a
  function value over the hidden arguments of the enclosing one.
-/
import Arbor.Emit.Access
import Arbor.Emit.Assign
import Arbor.Emit.Call
import Arbor.Emit.Control
import Arbor.Emit.Convert
import Arbor.Emit.Operator
import Arbor.Emit.Protected
import Arbor.Emit.Switch
import Arbor.Tree.Traverse

set_option autoImplicit false

namespace Arbor

/-! ## Labels of a function -/

/-- Labels that a layer defines itself. -/
def ExprKind.ownTargets {α : Type} : ExprKind α → List LabelTarget
  | label target _ => [target]
  | loop _ breakLabel continueLabel => breakLabel.toList ++ continueLabel.toList
  | _ => []

/-- Number of protected regions that a layer puts around its operands. -/
def ExprKind.regionDepth {α : Type} : ExprKind α → Nat
  | tryCatch .. => 1
  | _ => 0

/-- Labels of one layer and its operands, where `depth` protected regions are around it. -/
def layerTargets (k : ExprKind (Nat → List (LabelTarget × Nat))) (_ : Ty) (depth : Nat) :
    List (LabelTarget × Nat) :=
  k.ownTargets.map (fun target => (target, depth)) ++
    k.children.flatMap fun operand => operand (depth + k.regionDepth)

/-- Labels of a tree, each with the number of protected regions around it, where `depth` of them
are around the tree. -/
def Expr.targetsAt (e : Expr) (depth : Nat) : List (LabelTarget × Nat) := fold layerTargets e depth

/-! ## Function values -/

/-- How a function is packaged as a value. -/
structure InvokerShape where
  /-- Number of hidden values bundled with the function. -/
  captured : Nat
  ty : Ty

/-- Largest number of parameters of a function value. -/
def InvokerShape.maxParams : Nat := 16

/-- The package of a function. -/
def InvokerShape.of (captured : Nat) (params : List Ty) (ret : Ty) :
    Except CompileError InvokerShape :=
  if maxParams < params.length then
    .error (.notSupported
      s!"function values with {params.length} parameters (at most {maxParams})")
  else if captured < Builder.slotLimit then .ok ⟨captured, .func params ret⟩
  else .error (.notSupported s!"{captured} captured values")

namespace Emit

/-! ## Units -/

/-- Parameters as arguments numbered from `index` on. -/
def paramScope (count : Nat) : Nat → List Variable → Except CompileError Scope
  | _, [] => .ok []
  | i, v :: rest =>
      if i < Builder.slotLimit then
        (paramScope count (i + 1) rest).map ((v.id, .arg i, v.ty) :: ·)
      else .error (.notSupported s!"{count} parameters")

/-- A section in which the parameters are in scope, as arguments numbered from `index` on. -/
def withParams {α : Type} (index : Nat) (params : List Variable) (act : Emit α) : Emit α :=
  match paramScope params.length index params with
  | .ok scope => inScope scope act
  | .error e => fail e

/-- Finishes the routine of the unit. -/
def finishUnit : Emit Routine where
  run _ s :=
    match s.builder.finish (.unit s.session.finished.size) with
    | .ok routine =>
        .ok routine
          { s with session := { s.session with finished := s.session.finished.push routine } }
    | .error e => .error (.build e) s
  grows h := by
    split at h
    · cases h; exact .finish _ _
    · cases h

/-- Emits the body of a function whose parameters are in scope. -/
def functionBody (l : Lambda Node) : Emit Routine := do
  (l.body.expr.targetsAt 0).forM fun (target, depth) => defineTarget target depth
  if l.ret.isVoid then
    let _ ← l.body.guarded .nothing
  else
    l.body.checkBranch l.ret
    let _ ← l.body.guarded .value
    wrapIf (l.ret.isNullable && !l.body.ty.isNullable)
  instr .ret
  finishUnit

/-- Emits a function from the start of its unit on. -/
def unitBody (l : Lambda Node) : Emit Routine :=
  withParams l.hidden.count l.params (functionBody l)

/-- The state at the start of the unit of a function. -/
def unitStart (l : Lambda Node) (session : Session) : Emission :=
  let params := List.replicate l.hidden.count (Ty.array .object) ++ l.params.map (·.ty)
  .start session (.empty l.name params l.ret) l.hidden

/-- The routine of a unit has the number of a finished unit as its key. -/
theorem unitBody_key (l : Lambda Node) :
    (unitBody l).Yields fun routine s =>
      ∃ k, routine.key = .unit k ∧ k < s.session.finished.size := by
  have hfinish : finishUnit.Yields fun routine s =>
      ∃ k, routine.key = .unit k ∧ k < s.session.finished.size := by
    intro setting s t routine h
    simp only [finishUnit] at h
    split at h
    · next hbuilder =>
        cases h
        refine ⟨s.session.finished.size, ?_, by simp⟩
        simp only [Builder.finish, bind, Except.bind, pure, Except.pure] at hbuilder
        split at hbuilder
        · cases hbuilder
        · split at hbuilder
          · cases hbuilder
          · cases hbuilder; rfl
    · cases h
  have hbody : (functionBody l).Yields fun routine s =>
      ∃ k, routine.key = .unit k ∧ k < s.session.finished.size := by
    refine Yields.andThen fun _ => ?_
    split
    · exact Yields.andThen fun _ => Yields.andThen fun _ => hfinish
    · exact Yields.andThen fun _ => Yields.andThen fun _ => Yields.andThen fun _ =>
        Yields.andThen fun _ => hfinish
  intro setting s t routine h
  simp only [unitBody, withParams] at h
  split at h
  · simp only [inScope] at h
    split at h
    · next inner hact => cases h; exact hbody setting _ inner _ hact
    · cases h
  · simp [fail] at h

/-- What a nested unit leaves to the enclosing one. -/
theorem nestedUnit_grows {l : Lambda Node} {setting : Setting} {s inner : Emission}
    {routine : Routine} (h : (unitBody l).run setting (unitStart l s.session) = .ok routine inner) :
    s.Grows { s with
      session := inner.session, builder := (s.builder.addChild routine).2,
      units := s.units ++ routine :: inner.units } := by
  have hgrows := (unitBody l).grows h
  obtain ⟨k, hkey, hfinished⟩ := unitBody_key l _ _ _ _ h
  have hhelpers : s.Linked → ∀ e ∈ inner.session.helpers.entries, e.2 = e.1.1.routine e.1.2 := by
    intro hs
    exact (hgrows.linked ⟨hs.helpers, by simp [unitStart, Emission.start, Builder.empty]⟩).helpers
  have hunits : s.session.finished.toList <+: inner.session.finished.toList := hgrows.finished
  refine (Emission.Grows.addChild inner.session routine hunits hhelpers ?_).addUnits _
  intro _
  simpa [Emission.Known, hkey] using hfinished

/-- Compiles a nested function as a child; it and the functions nested in it are recorded. -/
def nestedUnit (l : Lambda Node) : Emit Nat where
  run setting s :=
    match (unitBody l).run setting (unitStart l s.session) with
    | .ok routine inner =>
        let (i, builder) := s.builder.addChild routine
        .ok i
          { s with
            session := inner.session, builder, units := s.units ++ routine :: inner.units }
    | .error e inner => .error e { s with session := inner.session }
  grows h := by
    split at h
    · next hbody => cases h; exact nestedUnit_grows hbody
    · cases h

/-- A nested function as a value. -/
def function (l : Lambda Node) : Emit Emitted := do
  let own ← hiddenParams
  if (l.hidden.constants && !own.constants) || (l.hidden.closure && !own.closure) then
    unsupported
      s!"lambda {l.name} needs hidden arguments its enclosing function does not receive"
  else
    match InvokerShape.of l.hidden.count (l.params.map (·.ty)) l.ret with
    | .error e => fail e
    | .ok package =>
        let child ← nestedUnit l
        if l.hidden.constants then instrs (own.constantsArg?.toList.map Instr.loadArg)
        if l.hidden.closure then instrs (own.closureArg?.toList.map Instr.loadArg)
        instrs [.loadFunction child, .newInvoker package.captured]
        pure (.ofTy package.ty false)

/-! ## Trees -/

/-- Emits one layer; `place` prepares the node as a place. -/
def layer (k : ExprKind Node) (ty : Ty) (place : Option Label → Bool → Emit (Place × Bool))
    (exit : Option Label) (shape : Shape) : Emit Emitted :=
  match k with
  | .constant value => constant value ty
  | .default => do
      pushDefault ty
      pure (.ofTy ty false)
  | .parameter id => parameter id shape
  | .hoisted i => hoisted i ty
  | .closureVar i => closureVar i ty
  | .member receiver m => member receiver m ty exit shape
  | .index receiver args indexer => index receiver args indexer ty exit shape place
  | .unary op operand checked method => unary op operand checked method ty exit
  | .binary op left right checked method => binary op left right checked method ty exit
  | .logical op left right => logical op left right ty exit
  | .coalesce left right => coalesce left right ty exit
  | .conditional test ifTrue ifFalse => conditional test ifTrue ifFalse ty exit shape
  | .block vars body => block vars body ty exit shape
  | .loop body breakLabel continueLabel => loop body breakLabel continueLabel ty
  | .switch value cases fallback comparison => switch value cases fallback comparison ty exit
  | .tryCatch body handlers finallyBlock faultBlock =>
      tryCatch body handlers finallyBlock faultBlock ty
  | .call method receiver args => call method receiver args ty exit
  | .invoke func args => invoke func args ty exit
  | .new ctor args => construct ctor args ty exit
  | .newArray elem init => newArray elem init ty exit
  | .listInit start items => listInit start items exit
  | .memberInit start bindings => memberInit start bindings exit
  | .lambda l => function l
  | .assign op target value checked autoExtend =>
      assign op target value checked autoExtend exit shape
  | .typeTest operand target exact => typeTest operand target exact exit
  | .convert operand checked method => convert operand checked method ty exit
  | .typeAs operand => typeAs operand ty exit
  | .throw operand => throw operand
  | .goto _ target value => goto target value
  | .label target value => label target value

end Emit

namespace Node

/-- The node of one layer over the nodes of its operands. -/
def ofKind (k : ExprKind Node) (ty : Ty) : Node where
  expr := .node (k.map Node.expr) ty
  place := Emit.placeOf k ty
  emit := fun exit shape extend => do
    let emitted ←
      if extend && k.isPlace && ty.isCreatable then Emit.created ty exit (Emit.placeOf k ty)
      else Emit.layer k ty (Emit.placeOf k ty) exit shape
    Emit.adapt ty emitted shape

end Node

/-- The node of a tree. -/
def Expr.toNode : Expr → Node := fold Node.ofKind

end Arbor
