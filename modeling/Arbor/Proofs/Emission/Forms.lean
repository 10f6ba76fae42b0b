/-
  What layers leave on the stack.

  A layer other than a variable leaves an address only where the requested shape
  wants one: fields and elements do so, and so does the last node of a block, which
  is asked for the same shape.  All other layers leave values.
-/
import Arbor.Emit.Unit
import Arbor.Proofs.Semantics.Induction

set_option autoImplicit false

namespace Arbor

namespace Emit

variable {α : Type} {ty : Ty} {shape : Shape} {exit : Option Label} {l r n : Node}

/-- Whenever the emitter leaves an address, the shape wants one of the type. -/
def Fitting (shape : Shape) (ty : Ty) (x : Emit Emitted) : Prop :=
  x.Yields fun e _ => e.form = .address → shape.wantsAddress ty = true

/-! ## Composition -/

theorem run_bind {β : Type} {x : Emit α} {f : α → Emit β} {setting : Setting} {s t : Emission}
    {b : β} (h : (x >>= f).run setting s = .ok b t) :
    ∃ a u, x.run setting s = .ok a u ∧ (f a).run setting u = .ok b t := by
  change (Emit.andThen x f).run setting s = .ok b t at h
  simp only [Emit.andThen] at h
  split at h
  · next a u hx => exact ⟨a, u, hx, h⟩
  · cases h

/-- Emitters that do the same with every result go on in the same way. -/
theorem bind_congr {β : Type} {x : Emit α} {f g : α → Emit β}
    (h : x.Yields fun a _ => f a = g a) : x >>= f = x >>= g := by
  change andThen x f = andThen x g
  simp only [andThen, mk.injEq]
  funext setting s
  split
  · next a t hrun => rw [h setting s t a hrun]
  · rfl

theorem bind_assoc_emit {β γ : Type} (x : Emit α) (f : α → Emit β) (g : β → Emit γ) :
    (x >>= f) >>= g = x >>= fun a => f a >>= g := by
  change andThen (andThen x f) g = andThen x fun a => andThen (f a) g
  simp only [andThen, mk.injEq]
  funext setting s
  cases x.run setting s <;> rfl

theorem fitting_seq {x : Emit α} {f : α → Emit Emitted} (h : ∀ a, Fitting shape ty (f a)) :
    Fitting shape ty (x >>= f) :=
  Yields.andThen h

theorem fitting_of_pure {a : α} {f : α → Emit Emitted} (h : Fitting shape ty (f a)) :
    Fitting shape ty (pure a >>= f) :=
  fun _ _ _ _ hrun => h _ _ _ _ hrun

theorem fitting_ite {c : Prop} [Decidable c] {x y : Emit Emitted} (hx : Fitting shape ty x)
    (hy : Fitting shape ty y) : Fitting shape ty (if c then x else y) := by
  split
  · exact hx
  · exact hy

theorem fitting_pure {e : Emitted} (h : e.form = .address → shape.wantsAddress ty = true) :
    Fitting shape ty (pure e) := by
  intro setting s t a hrun
  cases hrun
  exact h

theorem fitting_ofTy {result : Ty} {used : Bool} :
    Fitting shape ty (pure (.ofTy result used)) := by
  refine fitting_pure fun h => ?_
  simp only [Emitted.ofTy] at h
  split at h <;> cases h

theorem fitting_nothing {used : Bool} : Fitting shape ty (pure (.nothing used)) :=
  fitting_pure nofun

theorem fitting_fail {e : CompileError} : Fitting shape ty (fail e) := fun _ _ _ _ hrun => nomatch hrun

theorem fitting_mismatch {context expected : String} {found : Ty} :
    Fitting shape ty (mismatch context expected found) := fitting_seq fun _ => fitting_fail

theorem fitting_withTemps {x : Emit Emitted} (hx : Fitting shape ty x) :
    Fitting shape ty (withTemps x) := by
  intro setting s t a hrun
  simp only [withTemps] at hrun
  split at hrun
  · next hxu =>
      cases hrun
      exact hx _ _ _ _ hxu
  · cases hrun

theorem fitting_withLocals {vars : List Variable} {x : Emit Emitted} (hx : Fitting shape ty x) :
    Fitting shape ty (withLocals vars x) := by
  refine fitting_seq fun bound setting s t a hrun => ?_
  simp only [inScope] at hrun
  split at hrun
  · next hxu =>
      cases hrun
      exact hx _ _ _ _ hxu
  · cases hrun

/-! ## Leaves and operators -/

theorem fitting_constant {value : Literal} : Fitting shape ty (constant value ty) := by
  unfold constant
  split
  · exact fitting_ite fitting_mismatch (fitting_seq fun _ => fitting_ofTy)
  · exact fitting_seq fun _ => fitting_ite (fitting_seq fun _ => fitting_mismatch)
      (fitting_seq fun _ => fitting_ofTy)

theorem fitting_hoisted {index : Nat} : Fitting shape ty (hoisted index ty) := by
  refine fitting_seq fun _ => ?_
  split
  · exact fitting_seq fun _ => fitting_ofTy
  · exact fitting_fail

theorem fitting_closureVar {index : Nat} : Fitting shape ty (closureVar index ty) :=
  fitting_seq fun _ => fitting_seq fun _ => fitting_ofTy

theorem fitting_unary {op : UnaryOp} {checked : Bool} {method : Option MethodRef} :
    Fitting shape ty (unary op n checked method ty exit) := by
  refine fitting_ite fitting_mismatch <| fitting_ite ?_ <| fitting_ite ?_ <|
    fitting_ite (fitting_seq fun _ => fitting_mismatch) (fitting_withTemps ?_)
  · exact fitting_seq fun _ => fitting_seq fun _ => fitting_seq fun _ => fitting_ofTy
  · exact fitting_seq fun _ => fitting_seq fun _ => fitting_ofTy
  · exact fitting_seq fun _ => fitting_seq fun _ => fitting_seq fun _ => fitting_ofTy

/-- A binary operator. -/
theorem fitting_binary {op : BinaryOp} {checked : Bool} {method : Option MethodRef} :
    Fitting shape ty (binary op l r checked method ty exit) := by
  have hrest : ∀ {c : Prop} [Decidable c], Fitting shape ty (if c then do
      let usedLeft ← l.value exit
      let usedRight ← r.value exit
      instr (op.instr checked l.ty)
      wrapIf ty.isNullable
      pure (Emitted.ofTy ty (usedLeft || usedRight))
    else withTemps do
      let usedLeft ← l.value exit
      let left ← spillOperand l.ty
      let usedRight ← r.value exit
      let right ← spillOperand r.ty
      binarySlots op checked method left right ty
      pure (Emitted.ofTy ty (usedLeft || usedRight))) := by
    refine fun {c} _ => fitting_ite ?_ (fitting_withTemps ?_)
    · exact fitting_seq fun _ => fitting_seq fun _ => fitting_seq fun _ => fitting_seq fun _ =>
        fitting_ofTy
    · exact fitting_seq fun _ => fitting_seq fun _ => fitting_seq fun _ => fitting_seq fun _ =>
        fitting_seq fun _ => fitting_ofTy
  exact fitting_ite (fitting_seq fun _ => hrest) hrest

/-- A short-circuit operator. -/
theorem fitting_logical {op : LogicalOp} : Fitting shape ty (logical op l r ty exit) := by
  refine fitting_ite fitting_mismatch <| fitting_ite fitting_mismatch <| fitting_ite fitting_mismatch ?_
  split
  · exact fitting_seq fun _ => fitting_ofTy
  · refine fitting_ite (fitting_withTemps ?_) ?_
    · exact fitting_seq fun _ => fitting_seq fun _ => fitting_seq fun _ => fitting_seq fun _ =>
        fitting_seq fun _ => fitting_seq fun _ => fitting_seq fun _ => fitting_seq fun _ =>
        fitting_seq fun _ => fitting_seq fun _ => fitting_seq fun _ => fitting_seq fun _ =>
        fitting_seq fun _ => fitting_seq fun _ => fitting_seq fun _ => fitting_seq fun _ =>
        fitting_seq fun _ => fitting_seq fun _ => fitting_seq fun _ => fitting_seq fun _ => fitting_ofTy
    · exact fitting_seq fun _ => fitting_seq fun _ => fitting_seq fun _ => fitting_seq fun _ =>
        fitting_seq fun _ => fitting_seq fun _ => fitting_ofTy

theorem fitting_coalesce : Fitting shape ty (coalesce l r ty exit) := by
  refine fitting_seq fun _ => fitting_ite fitting_mismatch <|
    fitting_ite (fitting_seq fun _ => fitting_mismatch) <| fitting_ite (fitting_withTemps ?_) ?_
  · exact fitting_seq fun _ => fitting_seq fun _ => fitting_seq fun _ => fitting_seq fun _ =>
      fitting_seq fun _ => fitting_seq fun _ => fitting_seq fun _ => fitting_seq fun _ =>
      fitting_seq fun _ => fitting_seq fun _ => fitting_seq fun _ => fitting_seq fun _ => fitting_ofTy
  · exact fitting_seq fun _ => fitting_seq fun _ => fitting_seq fun _ => fitting_seq fun _ =>
      fitting_seq fun _ => fitting_ofTy

/-! ## Reads -/

theorem fitting_wanted {used : Bool} : Fitting shape ty (pure
    (if shape.wantsAddress ty then .address used else .ofTy ty used)) := by
  split
  · next hwants => exact fitting_pure fun _ => hwants
  · exact fitting_ofTy

theorem fitting_field {f : FieldRef} {receiver : Option Node} :
    Fitting shape ty (field f receiver ty exit shape) :=
  fitting_seq fun _ => fitting_seq fun _ => fitting_seq fun _ =>
    fitting_ite (fitting_seq fun _ => fitting_wanted)
      (fitting_seq fun _ => fitting_seq fun _ => fitting_seq fun _ => fitting_wanted)

theorem fitting_property {p : PropertyRef} {receiver : Option Node} :
    Fitting shape ty (property p receiver ty exit) :=
  fitting_seq fun _ => fitting_ite fitting_fail <| fitting_seq fun _ => fitting_seq fun _ =>
    fitting_seq fun _ => fitting_ite
      (fitting_seq fun _ => fitting_seq fun _ => fitting_ofTy)
      (fitting_seq fun _ => fitting_seq fun _ => fitting_seq fun _ => fitting_seq fun _ => fitting_ofTy)

theorem fitting_measure {i : Instr} : Fitting shape ty (measure n i ty exit) :=
  fitting_seq fun _ => fitting_seq fun _ => fitting_ofTy

/-- A member. -/
theorem fitting_member {receiver : Option Node} {m : Member} :
    Fitting shape ty (member receiver m ty exit shape) := by
  cases m with
  | field f => exact fitting_field
  | property p => exact fitting_property
  | arrayLength | listCount | strLength =>
      refine fitting_seq fun _ => ?_
      split
      · exact fitting_measure
      · exact fitting_mismatch
  | hasValue =>
      exact fitting_seq fun _ => fitting_ite
        (fitting_seq fun _ => fitting_seq fun _ => fitting_ofTy) fitting_mismatch
  | value =>
      exact fitting_seq fun _ => fitting_ite
        (fitting_seq fun _ => fitting_seq fun _ => fitting_seq fun _ => fitting_ofTy) fitting_mismatch

/-- An element. -/
theorem fitting_index {args : List Node} {indexer : Option PropertyRef}
    {place : Option Label → Bool → Emit (Place × Bool)} :
    Fitting shape ty (index n args indexer ty exit shape place) := by
  refine fitting_seq fun _ => ?_
  split
  · refine fitting_seq fun _ => fitting_seq fun _ => ?_
    split
    · next hwants => exact fitting_seq fun _ => fitting_pure fun _ => hwants
    · exact fitting_seq fun _ => fitting_ofTy
  · refine fitting_withTemps (fitting_seq fun _ => ?_)
    have hplain : ∀ {p : Place} {used : Bool}, Fitting shape ty (do
        loadPlace p
        pure (Emitted.ofTy ty used)) := fitting_seq fun _ => fitting_ofTy
    dsimp only
    by_cases hwants : shape.wantsAddress ty = true
    · rw [if_pos hwants]
      exact fitting_seq fun _ => fitting_ite (fitting_pure fun _ => hwants) hplain
    · -- No address was loaded.
      rw [if_neg hwants]
      exact fitting_of_pure hplain

/-! ## Control flow -/

theorem fitting_conditional : Fitting shape ty (conditional l r n ty exit shape) := by
  refine fitting_ite fitting_mismatch (fitting_seq fun _ => fitting_seq fun _ => fitting_seq fun _ =>
    fitting_seq fun _ => fitting_seq fun _ => fitting_seq fun _ => fitting_seq fun _ =>
    fitting_seq fun _ => fitting_seq fun _ => fitting_seq fun _ => fitting_seq fun _ => ?_)
  dsimp only
  split
  · exact fitting_nothing
  · exact fitting_ofTy

theorem fitting_labelValue {info : LabelInfo} : Fitting shape ty (labelValue info) := by
  unfold labelValue
  split
  · exact fitting_seq fun _ => fitting_ofTy
  · exact fitting_nothing

/-- What is emitted of a loop behind its start. -/
def loopRest (body : Node) (breakLabel : Option LabelTarget) (ty : Ty) (start : Label) : Emit Emitted := do
  statement body
  instr (.jump start)
  match breakLabel with
  | some target =>
      let info ← labelInfo target.id
      mark info.label
      labelValue info
  | none =>
      pushDefault ty
      pure (.ofTy ty false)

/-- A loop. -/
theorem fitting_loop {breakLabel continueLabel : Option LabelTarget} :
    Fitting shape ty (loop n breakLabel continueLabel ty) := by
  have hrest : ∀ start, Fitting shape ty (loopRest n breakLabel ty start) := by
    intro start
    refine fitting_seq fun _ => fitting_seq fun _ => ?_
    cases breakLabel with
    | some target => exact fitting_seq fun _ => fitting_seq fun _ => fitting_labelValue
    | none => exact fitting_seq fun _ => fitting_ofTy
  cases continueLabel with
  | some target => exact fitting_seq fun start => fitting_seq fun _ => hrest start
  | none => exact fitting_seq fun start => fitting_seq fun _ => hrest start

/-- A jump of the tree. -/
theorem fitting_goto {target : LabelTarget} {value : Option Node} :
    Fitting shape ty (goto target value) := by
  refine fitting_seq fun info => ?_
  have hjump : Fitting shape ty (do
      jumpTo info
      pure (.nothing false)) := fitting_seq fun _ => fitting_nothing
  cases value with
  | some v =>
      refine fitting_seq fun _ => ?_
      dsimp only
      split
      · exact fitting_seq fun _ => fitting_seq fun _ => hjump
      · exact fitting_ite hjump (fitting_seq fun _ => hjump)
  | none => exact fitting_ite hjump (fitting_seq fun _ => fitting_seq fun _ => hjump)

/-- A label of the tree. -/
theorem fitting_label {target : LabelTarget} {default : Option Node} :
    Fitting shape ty (label target default) := by
  refine fitting_seq fun info => ?_
  have hmark : Fitting shape ty (do
      mark info.label
      labelValue info) := fitting_seq fun _ => fitting_labelValue
  dsimp only
  split
  · exact fitting_seq fun _ => fitting_seq fun _ => fitting_seq fun _ => hmark
  · exact fitting_seq fun _ => fitting_seq fun _ => hmark
  · exact fitting_seq fun _ => hmark
  · exact hmark

theorem fitting_throw {operand : Option Node} : Fitting shape ty (throw operand) := by
  cases operand with
  | some n =>
      exact fitting_ite (fitting_seq fun _ => fitting_seq fun _ => fitting_nothing)
        (fitting_seq fun _ => fitting_nothing)
  | none => exact fitting_seq fun _ => fitting_nothing

theorem fitting_switch {cases : List (SwitchCase Node)} {fallback : Option Node}
    {comparison : Option MethodRef} : Fitting shape ty (switch n cases fallback comparison ty exit) :=
  fitting_seq fun _ => fitting_withTemps <| fitting_seq fun _ => fitting_seq fun _ =>
    fitting_seq fun _ => fitting_seq fun _ => fitting_seq fun _ => fitting_seq fun _ =>
    fitting_seq fun _ => fitting_seq fun _ => fitting_seq fun _ => fitting_seq fun _ => fitting_ofTy

/-- What is emitted of a protected block behind the temporary for its result. -/
def tryRest (body : Node) (handlers : List (CatchBlock Node)) (finallyBlock faultBlock : Option Node)
    (ty : Ty) (result : Option Nat) : Emit Emitted := do
  let depth ← temp .int
  let bodyStart ← newLabel
  let bodyEnd ← newLabel
  let done ← newLabel
  instr (.markStack depth)
  mark bodyStart
  regions body handlers finallyBlock faultBlock ⟨ty, result, depth, bodyStart, bodyEnd, done⟩
  mark done
  match result with
  | some slot => instr (.loadLocal slot)
  | none => pure ()
  pure (.ofTy ty false)

/-- A protected block. -/
theorem fitting_tryCatch {handlers : List (CatchBlock Node)} {finallyBlock faultBlock : Option Node} :
    Fitting shape ty (tryCatch n handlers finallyBlock faultBlock ty) := by
  have hrest : ∀ result, Fitting shape ty (tryRest n handlers finallyBlock faultBlock ty result) := by
    intro result
    refine fitting_seq fun _ => fitting_seq fun _ => fitting_seq fun _ => fitting_seq fun _ =>
      fitting_seq fun _ => fitting_seq fun _ => fitting_seq fun _ => fitting_seq fun _ => ?_
    cases result with
    | some slot => exact fitting_seq fun _ => fitting_ofTy
    | none => exact fitting_ofTy
  have htemps : Fitting shape ty (withTemps do
      let result ← if ty.isVoid then pure none else some <$> temp ty
      tryRest n handlers finallyBlock faultBlock ty result) :=
    fitting_withTemps (fitting_ite (fitting_seq fun result => hrest result)
      (fitting_seq fun result => hrest result))
  exact fitting_seq fun _ => fitting_ite (fitting_seq fun _ => fitting_seq fun _ => htemps) htemps

/-! ## Calls and construction -/

theorem fitting_callResult {ret node : Ty} {used : Bool} :
    Fitting shape ty (callResult ret node used) :=
  fitting_ite fitting_nothing (fitting_ite (fitting_seq fun _ => fitting_nothing) fitting_ofTy)

/-- A call of a method. -/
theorem fitting_call {method : MethodRef} {receiver : Option Node} {args : List Node} :
    Fitting shape ty (call method receiver args ty exit) := by
  refine fitting_seq fun sig => fitting_seq fun kind => fitting_seq fun name => ?_
  have hfinish : ∀ {name : String} {used : Bool} {args : List Node}, Fitting shape ty (do
      let usedArgs ← arguments name sig.params args exit
      instr (.call method)
      callResult sig.ret ty (used || usedArgs)) :=
    fitting_seq fun _ => fitting_seq fun _ => fitting_callResult
  dsimp only
  split
  · exact fitting_seq fun _ => hfinish
  · exact fitting_fail
  · exact hfinish
  · exact fitting_fail
  · exact fitting_fail
  · exact hfinish

theorem fitting_invoke {args : List Node} : Fitting shape ty (invoke n args ty exit) := by
  unfold invoke
  split
  · exact fitting_seq fun _ => fitting_seq fun _ => fitting_seq fun _ => fitting_callResult
  · exact fitting_mismatch

theorem fitting_construct {ctor : Option MethodRef} {args : List Node} :
    Fitting shape ty (construct ctor args ty exit) := by
  cases ctor with
  | some method =>
      exact fitting_seq fun _ => fitting_seq fun _ => fitting_seq fun _ => fitting_seq fun _ =>
        fitting_ofTy
  | none =>
      exact fitting_ite (fitting_seq fun _ => fitting_ofTy) (fitting_seq fun _ => fitting_fail)

theorem fitting_newArray {elem : Ty} {init : ArrayInit Node} :
    Fitting shape ty (newArray elem init ty exit) := by
  unfold newArray
  split
  · exact fitting_seq fun _ => fitting_seq fun _ => fitting_seq fun _ => fitting_ofTy
  · exact fitting_fail
  · exact fitting_seq fun _ => fitting_seq fun _ => fitting_ofTy

theorem fitting_listInit {items : List (ElementInit Node)} :
    Fitting shape ty (listInit n items exit) :=
  fitting_seq fun _ => fitting_seq fun _ => fitting_ofTy

theorem fitting_memberInit {bindings : List (Binding Node)} :
    Fitting shape ty (memberInit n bindings exit) :=
  fitting_ite
    (fitting_withTemps (fitting_seq fun _ => fitting_seq fun _ => fitting_seq fun _ =>
      fitting_seq fun _ => fitting_ofTy))
    (fitting_seq fun _ => fitting_seq fun _ => fitting_ofTy)

/-- A nested function as a value. -/
theorem fitting_function {f : Lambda Node} : Fitting shape ty (function f) := by
  refine fitting_seq fun own => fitting_ite fitting_fail ?_
  split
  · exact fitting_fail
  · next package _ =>
      have hend : ∀ {child : Nat}, Fitting shape ty (do
          instrs [.loadFunction child, .newInvoker package.captured]
          pure (Emitted.ofTy package.ty false)) := fitting_seq fun _ => fitting_ofTy
      exact fitting_seq fun _ => fitting_ite
        (fitting_seq fun _ => fitting_ite (fitting_seq fun _ => hend) hend)
        (fitting_ite (fitting_seq fun _ => hend) hend)

theorem fitting_created {place : Option Label → Bool → Emit (Place × Bool)} :
    Fitting shape ty (created ty exit place) :=
  fitting_withTemps (fitting_seq fun _ => fitting_seq fun _ => fitting_seq fun _ => fitting_ofTy)

theorem fitting_assigned {result : Ty} {slot : Nat} {keep used : Bool} :
    Fitting shape ty (assigned result slot keep used) :=
  fitting_ite (fitting_seq fun _ => fitting_ofTy) fitting_nothing

/-- An assignment. -/
theorem fitting_assign {op : AssignOp} {value : Option Node} {checked autoExtend : Bool}
    {asked : Shape} : Fitting shape ty (assign op n value checked autoExtend exit asked) := by
  refine fitting_seq fun _ => ?_
  dsimp only
  split
  · unfold step
    split
    · exact fitting_mismatch
    · exact fitting_withTemps (fitting_seq fun _ => fitting_seq fun _ => fitting_seq fun _ =>
        fitting_seq fun _ => fitting_seq fun _ => fitting_seq fun _ => fitting_assigned)
  · split
    · exact fitting_withTemps (fitting_seq fun _ => fitting_seq fun _ => fitting_seq fun _ =>
        fitting_seq fun _ => fitting_seq fun _ => fitting_assigned)
    · exact fitting_seq fun _ => fitting_withTemps (fitting_seq fun _ => fitting_seq fun _ =>
        fitting_seq fun _ => fitting_seq fun _ => fitting_seq fun _ => fitting_seq fun _ =>
        fitting_seq fun _ => fitting_seq fun _ => fitting_assigned)
  · exact fitting_fail

/-! ## Conversions -/

theorem fitting_typeAs : Fitting shape ty (typeAs n ty exit) := by
  refine fitting_ite fitting_mismatch (fitting_seq fun _ => fitting_seq fun _ => ?_)
  exact fitting_ite (fitting_seq fun _ => fitting_ofTy) fitting_ofTy

/-- A conversion. -/
theorem fitting_convert {checked : Bool} {method : Option MethodRef} :
    Fitting shape ty (convert n checked method ty exit) := by
  cases method with
  | some m =>
      refine fitting_seq fun _ => fitting_seq fun _ => ?_
      dsimp only
      split
      · refine fitting_ite ?_ (fitting_ite (fitting_seq fun _ => fitting_mismatch)
          (fitting_withTemps ?_))
        · exact fitting_seq fun _ => fitting_seq fun _ => fitting_seq fun _ => fitting_seq fun _ =>
            fitting_ofTy
        · exact fitting_seq fun _ => fitting_seq fun _ => fitting_seq fun _ => fitting_ofTy
      · exact fitting_fail
  | none =>
      unfold convert
      dsimp only
      split
      · refine fitting_ite (fitting_withTemps ?_) ?_
        · exact fitting_seq fun _ => fitting_seq fun _ => fitting_seq fun _ => fitting_ofTy
        · exact fitting_seq fun _ => fitting_seq fun _ => fitting_seq fun _ => fitting_seq fun _ =>
            fitting_ofTy
      · exact fitting_seq fun _ => fitting_seq fun _ => fitting_ofTy

/-! ## Layers -/

/-- A result brought into a shape has a form that fits. -/
theorem fitting_adapt {e : Emitted} : Fitting shape ty (adapt ty e shape) := by
  unfold adapt
  split
  · next hform => exact fitting_pure fun h => nomatch hform.symm.trans h
  · next hform =>
      refine fitting_ite (fitting_seq fun _ => fitting_pure nofun) ?_
      split
      · next hwants => exact fitting_seq fun _ => fitting_seq fun _ => fitting_pure fun _ => hwants
      · exact fitting_pure fun h => nomatch hform.symm.trans h
  · refine fitting_ite (fitting_seq fun _ => fitting_pure nofun) ?_
    split
    · next hwants => exact fitting_pure fun _ => hwants
    · exact fitting_seq fun _ => fitting_pure nofun

/-- Every node of a tree leaves an address only where the shape wants one of its type. -/
def FitsShapes (n : Node) : Prop :=
  ∀ exit shape extend, Fitting shape n.ty (n.emit exit shape extend)

/-- Statements of which the last one yields the value. -/
theorem fitting_statements : ∀ {nodes : List Node}, (∀ n ∈ nodes, FitsShapes n) →
    Fitting shape ty (statements ty exit shape nodes)
  | [], _ => fitting_seq fun _ => fitting_ofTy
  | [last], h => by
      unfold statements
      refine fitting_ite (fitting_seq fun _ => fitting_nothing) (fitting_seq fun _ => ?_)
      split
      · next hty =>
          rw [← hty]
          exact h last List.mem_cons_self exit shape false
      · exact fitting_seq fun _ => fitting_ofTy
  | _ :: _ :: _, h =>
      fitting_seq fun _ => fitting_statements fun n hn => h n (List.mem_cons_of_mem _ hn)

/-- A layer other than a variable leaves an address only where the shape wants one. -/
theorem fitting_layer {k : ExprKind Node} (hk : ∀ n ∈ k.children, FitsShapes n)
    (hvar : ∀ id, k ≠ .parameter id) {place : Option Label → Bool → Emit (Place × Bool)} :
    Fitting shape ty (layer k ty place exit shape) := by
  cases k with
  | parameter id => exact absurd rfl (hvar id)
  | constant value => exact fitting_constant
  | default => exact fitting_seq fun _ => fitting_ofTy
  | hoisted i => exact fitting_hoisted
  | closureVar i => exact fitting_closureVar
  | member receiver m => exact fitting_member
  | index receiver args indexer => exact fitting_index
  | unary op operand checked method => exact fitting_unary
  | binary op left right checked method => exact fitting_binary
  | logical op left right => exact fitting_logical
  | coalesce left right => exact fitting_coalesce
  | conditional test ifTrue ifFalse => exact fitting_conditional
  | block vars body => exact fitting_withTemps (fitting_withLocals (fitting_statements hk))
  | loop body breakLabel continueLabel => exact fitting_loop
  | switch value cases fallback comparison => exact fitting_switch
  | tryCatch body handlers finallyBlock faultBlock => exact fitting_tryCatch
  | call method receiver args => exact fitting_call
  | invoke func args => exact fitting_invoke
  | new ctor args => exact fitting_construct
  | newArray elem init => exact fitting_newArray
  | listInit start items => exact fitting_listInit
  | memberInit start bindings => exact fitting_memberInit
  | lambda l => exact fitting_function
  | assign op target value checked autoExtend => exact fitting_assign
  | typeTest operand target exact =>
      exact fitting_seq fun _ => fitting_seq fun _ => fitting_ofTy
  | convert operand checked method => exact fitting_convert
  | typeAs operand => exact fitting_typeAs
  | throw operand => exact fitting_throw
  | goto kind target value => exact fitting_goto
  | label target value => exact fitting_label

theorem fitsShapes_ofKind (k : ExprKind Node) (ty : Ty) : FitsShapes (Node.ofKind k ty) := by
  intro exit shape extend
  have hadapt : ∀ {x : Emit Emitted}, Fitting shape ty (do
      let emitted ← x
      adapt ty emitted shape) := fitting_seq fun _ => fitting_adapt
  exact fitting_ite hadapt hadapt

/-- Every tree leaves an address only where the shape wants one. -/
theorem fitsShapes_toNode (e : Expr) : FitsShapes e.toNode := by
  cases e with
  | node k ty =>
      rw [Expr.toNode_node]
      exact fitsShapes_ofKind _ ty

end Emit

end Arbor
