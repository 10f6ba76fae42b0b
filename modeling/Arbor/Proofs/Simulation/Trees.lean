/-
  Trees follow their evaluation.

  Every layer follows its evaluation if its operands do, whatever shape is asked
  for; by induction the code of a whole tree does.
-/
import Arbor.Emit.Unit
import Arbor.Proofs.Simulation.Assignments
import Arbor.Proofs.Simulation.Control
import Arbor.Proofs.Simulation.Conversions
import Arbor.Proofs.Simulation.Frugal
import Arbor.Proofs.Simulation.ShortCircuit
import Arbor.Proofs.Simulation.Switches

set_option autoImplicit false

namespace Arbor

theorem ExprKind.isPlace_map {α β : Type} (f : α → β) (k : ExprKind α) :
    (k.map f).isPlace = k.isPlace := by
  cases k with
  | member receiver m => cases m <;> rfl
  | _ => rfl

/-- The form in which what was left is brought into a shape. -/
def Form.adapted (form : Form) (ty : Ty) (shape : Shape) : Form :=
  match form with
  | .nothing => .nothing
  | .value | .address =>
      if shape = .nothing then .nothing else if shape.wantsAddress ty then .address else .value

theorem Emitted.ofTy_adapted (ty : Ty) (shape : Shape) :
    (Emitted.ofTy ty false).form.adapted ty shape = shape.form ty := by
  unfold Emitted.ofTy Shape.form
  cases ty.isVoid <;> rfl

namespace Job

variable {J : Job} {start : Nat} {s t : Emission} {c : Site} {m : Memory} {stack : List Value}
  {w : World}

theorem discardedForm_adapted (ty : Ty) (shape : Shape) :
    (discardedForm ty shape).adapted ty shape = shape.form ty := by
  unfold discardedForm Shape.form
  cases ty.isVoid <;> cases shape <;> simp [Form.adapted, Shape.wantsAddress]

/-- Statements are brought into the form of the shape. -/
theorem statementsForm_adapted (ty : Ty) (shape : Shape) (nodes : List Node) :
    (statementsForm ty shape nodes).adapted ty shape = shape.form ty := by
  induction nodes with
  | nil => exact Emitted.ofTy_adapted ty shape
  | cons n nodes ih =>
      cases nodes with
      | nil =>
          unfold statementsForm
          split
          · unfold Shape.form
            cases ty.isVoid <;> cases shape <;> cases hvalue : ty.isValueType <;>
              simp [Form.adapted, Shape.wantsAddress, hvalue]
          · exact Emitted.ofTy_adapted ty shape
      | cons n' nodes => exact ih

/-! ## Leaves -/

theorem Realizes.stuck {x : Option Label → Emit Emitted} {form : Form} :
    J.Realizes x (fun _ => Eval.stuck) form :=
  fun _ _ _ _ _ _ _ _ _ _ _ _ _ => .stuck _

/-- A default follows its evaluation. -/
theorem Realizes.default {ty : Ty} :
    J.Realizes (fun _ => do Emit.pushDefault ty; pure (.ofTy ty false))
      (fun _ => Eval.default J.setting ty) (Emitted.ofTy ty false).form := by
  intro start exit s t e h _ a w m stack hholds hlength
  rw [Emits.seq_iff] at h
  obtain ⟨u, hpush, h⟩ := h
  obtain ⟨rfl, rfl⟩ := h.pure
  unfold Eval.default
  cases hvoid : ty.isVoid with
  | true =>
      simp only [Emit.pushDefault, hvoid, if_true] at hpush
      obtain ⟨-, rfl⟩ := hpush.pure
      exact .ok hlength hholds ⟨by simp [Emitted.ofTy, hvoid], rfl⟩
  | false =>
      refine .bind (.pushDefault hpush hvoid hholds hlength) hpush.retains ?_
      rintro v w k rest ⟨rfl, -⟩ hholds _ hlength
      exact .ok hlength hholds ⟨by simp [Emitted.ofTy, hvoid], rfl⟩

/-- A constant follows its evaluation. -/
theorem Realizes.constant {value : Literal} {ty : Ty} :
    J.Realizes (fun _ => Emit.constant value ty) (fun _ => Eval.constant J.setting value ty)
      (Emitted.ofTy ty false).form := by
  intro start exit s t e h hexit a w m stack hholds hlength
  unfold Emit.constant at h
  unfold Eval.constant
  cases hfound : value.ty? with
  | none =>
      simp only [hfound] at h ⊢
      split at h
      · exact h.mismatch.elim
      · exact Realizes.default _ exit _ _ _ h hexit a w m stack hholds hlength
  | some found =>
      simp only [hfound] at h ⊢
      rw [Emits.seq_iff] at h
      obtain ⟨u, hconst, h⟩ := h
      split at h
      · rw [Emits.bind_iff] at h
        obtain ⟨_, _, _, h⟩ := h
        exact h.mismatch.elim
      · rw [Emits.seq_iff] at h
        obtain ⟨v, hwrap, h⟩ := h
        obtain ⟨rfl, rfl⟩ := h.pure
        refine .instr hconst (.const _ _ _ _) (.refl _ _) ?_
        exact .wrapYield false hwrap (by grind) (hholds.later hconst.retains)

/-- A variable follows its evaluation. -/
theorem Realizes.parameter {id : VarId} {ty : Ty} {shape : Shape} :
    J.Realizes (fun _ => Emit.parameter id shape) (fun _ => Eval.parameter id ty shape)
      (Emitted.ofTy ty false).form := by
  intro start exit s t e h hexit a w m stack hholds hlength
  rw [Emit.parameter, Emits.bind_iff] at h
  obtain ⟨⟨slot, declared⟩, u, hvar, h⟩ := h
  obtain ⟨hslot, rfl⟩ := hvar.varSlot
  obtain ⟨v, hv, hvalue⟩ := hholds.lookup hslot
  have hlookup : Eval.lookup id w = .ok (declared, v) w := by simp [Eval.lookup, hv]
  change J.Follows _ _ _ _ _ (EStateM.bind (Eval.lookup id) _ w) _
  simp only [EStateM.bind, hlookup]
  split
  · exact .stuck _
  next hty =>
  simp only [ne_eq, Bool.or_eq_true, decide_eq_true_eq, not_or, Decidable.not_not] at hty
  obtain ⟨rfl, hshape⟩ := hty
  dsimp only at h
  rw [if_neg hshape, Emits.seq_iff] at h
  obtain ⟨u, hload, h⟩ := h
  obtain ⟨rfl, rfl⟩ := h.pure
  have hposition : t.position = s.position + 1 := by
    cases slot <;> exact Emits.instr_position hload
  refine .loadVar hload hvalue ?_
  exact .yield false (by simp only [List.length_cons]; omega) (hholds.later hload.retains)

/-! ## Shapes -/

/-- What is reported after a result was brought into a shape. -/
theorem Emits.adapt {ty : Ty} {shape : Shape} {before after : Emitted}
    (h : J.Emits start (Emit.adapt ty before shape) s after t) :
    after = ⟨before.usedExit, before.form.adapted ty shape⟩ := by
  obtain ⟨used, form⟩ := before
  unfold Emit.adapt at h
  unfold Form.adapted
  cases form with
  | nothing => exact h.pure.1
  | value | address =>
      dsimp only at h ⊢
      split at h
      · next hshape =>
          rw [seq_iff] at h
          obtain ⟨_, _, h⟩ := h
          rw [if_pos hshape]
          exact h.pure.1
      · next hshape =>
          rw [if_neg hshape]
          split at h
          · next haddress =>
              rw [if_pos haddress]
              first
                | exact h.pure.1
                | simp only [↓seq_iff, bind_iff] at h
                  obtain ⟨_, _, _, _, _, h⟩ := h
                  exact h.pure.1
          · next haddress =>
              rw [if_neg haddress]
              first
                | exact h.pure.1
                | rw [seq_iff] at h
                  obtain ⟨_, _, h⟩ := h
                  exact h.pure.1

/-- Bringing a result into a shape. -/
theorem Follows.adapt {ty : Ty} {shape : Shape} {result : Result} {before after : Emitted}
    {rest : List Value} (h : J.Emits start (Emit.adapt ty before shape) s after t)
    (hleft : result.Left before.form stack rest) (hholds : J.Holds s.scope w m)
    (hlength : rest.length ≤ s.position) :
    J.Follows c s t.position m rest ((Eval.adapt ty result shape).run w)
      (fun result _ rest => result.Left after.form stack rest) := by
  obtain ⟨used, form⟩ := before
  unfold Emit.adapt at h
  unfold Eval.adapt
  cases result with
  | nothing =>
      obtain ⟨rfl, rfl⟩ := hleft
      obtain ⟨rfl, rfl⟩ := h.pure
      exact .ok hlength hholds ⟨rfl, rfl⟩
  | value v =>
      obtain ⟨rfl, rfl⟩ := hleft
      dsimp only at h ⊢
      split at h
      · next hshape =>
          rw [if_pos hshape]
          rw [Emits.seq_iff] at h
          obtain ⟨u, hpop, h⟩ := h
          obtain ⟨rfl, rfl⟩ := h.pure
          refine .instr hpop (.pop _ _ _ _) (.refl _ _) ?_
          exact .ok (by grind) (hholds.later hpop.retains) ⟨rfl, rfl⟩
      · next hshape =>
          rw [if_neg hshape]
          split at h
          · next haddress =>
              rw [if_pos haddress]
              exact .stuck _
          · next haddress =>
              rw [if_neg haddress]
              obtain ⟨rfl, rfl⟩ := h.pure
              exact .ok hlength hholds ⟨rfl, rfl⟩

/-! ## Layers -/

theorem implements_list {es : List Expr}
    (h : ∀ e ∈ es, J.Implements e.toNode (e.toMeaning J.setting)) :
    List.Forall₂ J.Implements (es.map Expr.toNode) (es.map (Expr.toMeaning J.setting)) := by
  induction es with
  | nil => exact .nil
  | cons e es ih =>
      exact .cons (h e List.mem_cons_self) (ih fun e he => h e (List.mem_cons_of_mem _ he))

/-- Cases follow their meanings if their tests and bodies do. -/
theorem implements_cases {cs : List (SwitchCase Expr)}
    (h : ∀ e ∈ cs.flatMap fun c => c.tests ++ [c.body],
      J.Implements e.toNode (e.toMeaning J.setting)) :
    List.Forall₂ J.ImplementsCase (cs.map (SwitchCase.map Expr.toNode))
      (cs.map (SwitchCase.map (Expr.toMeaning J.setting))) := by
  induction cs with
  | nil => exact .nil
  | cons c cs ih =>
      simp only [List.flatMap_cons, List.mem_append, List.mem_singleton] at h
      refine .cons ⟨implements_list fun e he => h e (.inl (.inl he)), h c.body (.inl (.inr rfl))⟩
        (ih fun e he => h e (.inr (by simpa using he)))

/-- A layer follows its evaluation if its operands do. -/
theorem Realizes.layer {k : ExprKind Expr} (ty : Ty) (shape : Shape)
    (place : Option Label → Bool → Emit (Place × Bool))
    (hk : ∀ e ∈ k.operands, J.Implements e.toNode (e.toMeaning J.setting)) :
    ∃ form : Form, form.adapted ty shape = shape.form ty ∧
      J.Realizes (fun exit => Emit.layer (k.map Expr.toNode) ty place exit shape)
        (fun exits => Eval.layer J.setting (k.map (Expr.toMeaning J.setting)) ty exits shape)
        form := by
  cases k with
  | constant value => exact ⟨_, Emitted.ofTy_adapted ty shape, .constant⟩
  | default => exact ⟨_, Emitted.ofTy_adapted ty shape, .default⟩
  | parameter id => exact ⟨_, Emitted.ofTy_adapted ty shape, .parameter⟩
  | member receiver m =>
      cases receiver with
      | none => exact ⟨_, Emitted.ofTy_adapted ty shape, .stuck⟩
      | some receiver =>
          exact ⟨_, Emitted.ofTy_adapted ty shape, .member (hk receiver List.mem_cons_self)⟩
  | unary op operand checked method =>
      cases method with
      | none => exact ⟨_, Emitted.ofTy_adapted ty shape, .unary (hk operand List.mem_cons_self)⟩
      | some m => exact ⟨_, Emitted.ofTy_adapted ty shape, .stuck⟩
  | binary op left right checked method =>
      cases method with
      | none =>
          exact ⟨_, Emitted.ofTy_adapted ty shape,
            .binary (hk left List.mem_cons_self) (hk right (by simp [ExprKind.operands,
              ExprKind.children]))⟩
      | some m => exact ⟨_, Emitted.ofTy_adapted ty shape, .stuck⟩
  | logical op left right =>
      exact ⟨_, Emitted.ofTy_adapted ty shape,
        .logical (hk left List.mem_cons_self) (hk right (by simp [ExprKind.operands,
          ExprKind.children]))⟩
  | coalesce left right =>
      exact ⟨_, Emitted.ofTy_adapted ty shape,
        .coalesce (hk left List.mem_cons_self) (hk right (by simp [ExprKind.operands,
          ExprKind.children]))⟩
  | conditional test ifTrue ifFalse =>
      exact ⟨_, discardedForm_adapted ty shape,
        .conditional (hk test List.mem_cons_self)
          (hk ifTrue (by simp [ExprKind.operands, ExprKind.children]))
          (hk ifFalse (by simp [ExprKind.operands, ExprKind.children]))⟩
  | block vars body =>
      exact ⟨_, statementsForm_adapted ty shape _, .block (implements_list hk)⟩
  | switch value cases fallback comparison =>
      cases comparison with
      | none =>
          refine ⟨_, Emitted.ofTy_adapted ty shape,
            .switch (hk value List.mem_cons_self) (implements_cases fun e he => hk e ?_) ?_⟩
          · simp only [ExprKind.operands, ExprKind.children, List.mem_cons, List.mem_append]
            exact .inl (.inr he)
          · cases fallback with
            | none => exact .none
            | some body => exact .some (hk body (by simp [ExprKind.operands, ExprKind.children]))
      | some m => exact ⟨_, Emitted.ofTy_adapted ty shape, .stuck⟩
  | assign op target value checked autoExtend =>
      refine ⟨_, discardedForm_adapted ty shape, .assign (hk target List.mem_cons_self) ?_ ?_⟩
      · intro node hnode
        obtain ⟨e, rfl, rfl⟩ := Option.map_eq_some_iff.mp hnode
        exact ⟨_, rfl, hk e (by simp [ExprKind.operands, ExprKind.children])⟩
      · intro hnone
        rw [Option.map_eq_none_iff.mp hnone]
        rfl
  | convert operand checked method =>
      cases method with
      | none => exact ⟨_, Emitted.ofTy_adapted ty shape, .convert (hk operand List.mem_cons_self)⟩
      | some m => exact ⟨_, Emitted.ofTy_adapted ty shape, .stuck⟩
  | _ => exact ⟨_, Emitted.ofTy_adapted ty shape, .stuck⟩

/-- A variable as a place. -/
theorem Follows.place {k : ExprKind Expr} {ty : Ty} {exit : Option Label} {extend : Bool}
    {p : Place × Bool} (h : J.Emits start (Emit.placeOf (k.map Expr.toNode) ty exit extend) s p t)
    (hholds : J.Holds s.scope w m) (hlength : stack.length ≤ s.position) :
    J.Follows c s t.position m stack
      ((Eval.placeOf (k.map (Expr.toMeaning J.setting))).run w)
      (fun spot _ rest => Prepared t p.1 ty spot ∧ rest = stack) := by
  cases k with
  | parameter id =>
      simp only [Emit.placeOf, ExprKind.map] at h
      rw [Emits.bind_iff] at h
      obtain ⟨⟨slot, declared⟩, u, hvar, h⟩ := h
      obtain ⟨hslot, rfl⟩ := hvar.varSlot
      obtain ⟨rfl, rfl⟩ := h.pure
      exact .ok hlength hholds ⟨⟨slot, declared, rfl, hslot⟩, rfl⟩
  | _ => exact .stuck _

/-- The evaluation of a layer whose value is asked for. -/
theorem ofKind_value (setting : Setting) (k : ExprKind Meaning) (ty : Ty) (exits : Bool) :
    (Meaning.ofKind setting k ty).eval exits .value false = Eval.layer setting k ty exits .value := by
  have hadapt : ∀ result, Eval.adapt ty result .value = pure result := by
    intro result
    cases result <;> rfl
  simp [Meaning.ofKind, hadapt]

/-- The code of a tree follows its evaluation. -/
theorem implements_tree (e : Expr) : J.Implements e.toNode (e.toMeaning J.setting) := by
  induction e using Expr.induct with
  | node k ty ih =>
      have hnode : (Expr.node k ty).toNode = Node.ofKind (k.map Expr.toNode) ty :=
        Expr.fold_node _ _ _
      have hmeaning : (Expr.node k ty).toMeaning J.setting =
          Meaning.ofKind J.setting (k.map (Expr.toMeaning J.setting)) ty :=
        Expr.fold_node _ _ _
      have hkind : ((Expr.node k ty).toMeaning J.setting).expr.kind = k := by
        rw [Expr.toMeaning_expr]
        rfl
      have hty : (Expr.node k ty).toNode.ty = ty := by
        rw [Node.ty, Expr.toNode_expr]
        rfl
      have hdty : ((Expr.node k ty).toMeaning J.setting).ty = ty := by
        rw [Meaning.ty, Expr.toMeaning_expr]
        rfl
      refine ⟨by rw [Expr.toNode_expr, Expr.toMeaning_expr], ?_, ?_, ?_, ?_⟩
      · intro shape extend start exit s t e h hexit a w m stack hholds hlength
        rw [hty]
        rw [hnode] at h
        rw [hmeaning]
        simp only [Node.ofKind, ExprKind.isPlace_map] at h
        simp only [Meaning.ofKind, ExprKind.isPlace_map]
        cases hcreate : extend && k.isPlace && ty.isCreatable with
        | true => exact .stuck _
        | false =>
            simp only [hcreate, Bool.false_eq_true, if_false] at h ⊢
            rw [Emits.bind_iff] at h
            obtain ⟨before, u, hlayer, hadapt⟩ := h
            obtain ⟨form, hform, hrealizes⟩ :=
              Realizes.layer ty shape (Emit.placeOf (k.map Expr.toNode) ty) ih
            obtain rfl := hadapt.adapt
            refine .bind ((hrealizes start exit s u before hlayer hexit a w m stack hholds
              hlength).widen rfl List.suffix_rfl ?_) hlayer.retains ?_
            · rintro l ⟨hlands, hused, rfl⟩
              exact ⟨hlands, hused, hform⟩
            · intro result w n rest hleft hholds _ hlength
              exact .adapt hadapt hleft hholds hlength
      · intro start exit extend s t p h hexit a w m stack hholds hlength
        rw [hty]
        rw [hnode] at h
        rw [hmeaning]
        exact .place h hholds hlength
      · intro value hvalue exits
        rw [hkind] at hvalue
        rw [hdty, hmeaning, hvalue, ofKind_value]
        rfl
      · intro hdefault exits
        rw [hkind] at hdefault
        rw [hdty, hmeaning, hdefault, ofKind_value]
        rfl

end Job

end Arbor
