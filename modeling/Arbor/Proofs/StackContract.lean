/-
  The stack contract of emitted code.

  Code that is entered with a stack reaches its end with that stack and exactly
  what its emitter reported above it; control that leaves through an exit arrives
  with the stack still below whatever was pushed, and a landing cuts it down to
  where it was.  In particular no instruction takes a value from below: with an
  empty stack the code never underflows it.
-/
import Arbor.Proofs.Simulation.Functions
import Arbor.Proofs.Simulation.Regimes

set_option autoImplicit false

namespace Arbor

/-! ## Evaluations do not underflow a stack -/

/-- The regime of evaluations that do not underflow a stack. -/
def Regime.balanced : Regime := ⟨fun _ _ => True, fun e _ => e ≠ .invalid .stackUnderflow⟩

namespace Run

/-- An action that does not underflow a stack. -/
abbrev Balanced {α : Type} (x : Run α) : Prop := Gives Regime.balanced.traps x fun _ => True

namespace Balanced

variable {α : Type} {r : Registry}

theorem invalid {d : Defect} (h : d ≠ .stackUnderflow) : Balanced (invalid d : Run α) := by
  intro s heq
  cases heq
  exact h rfl

theorem ofLookup (e : Except MetadataError α) : Balanced (ofLookup e) := by
  cases e with
  | ok a => exact .pure trivial
  | error e => exact invalid fun h => nomatch h

/-- A raised fault. -/
theorem raise (f : Fault) : Balanced (raise r f : Run α) := by
  have halloc : Balanced (allocObject r (Registry.exceptionType f)) :=
    .bind (ofLookup _) fun _ _ => .bind (ofLookup _) fun _ _ => fun _ => trivial
  refine .bind halloc fun ref _ => .bind (p := fun _ => True) (fun _ => trivial) fun _ _ => ?_
  intro s h
  cases h

theorem ofNumeric (e : Except NumFault α) : Balanced (ofNumeric r e) := by
  cases e with
  | ok a => exact .pure trivial
  | error f => cases f <;> first | exact raise _ | exact invalid fun h => nomatch h

theorem asNum (v : Value) : Balanced (asNum v) := by
  cases v <;> first | exact .pure trivial | exact invalid fun h => nomatch h

theorem arithValues (op : ArithOp) (checked : Bool) (a b : Value) :
    Balanced (arithValues r op checked a b) :=
  .bind (asNum b) fun _ _ => .bind (asNum a) fun _ _ => .bind (ofNumeric _) fun _ _ => .pure trivial

theorem convValue (k : NumKind) (checked : Bool) (v : Value) : Balanced (convValue r k checked v) :=
  .bind (asNum v) fun _ _ => .bind (ofNumeric _) fun _ _ => .pure trivial

/-- A comparison. -/
theorem compareValues (op : CmpOp) (a b : Value) : Balanced (compareValues op a b) := by
  refine .bind (p := fun _ => True) ?_ fun _ _ => .pure trivial
  cases h : Value.compare op a b with
  | ok c => exact .pure trivial
  | error d =>
      refine invalid ?_
      rintro rfl
      unfold Value.compare at h
      split at h
      · split at h <;> cases h
      · cases h
      · cases h
      · split at h <;> cases h

/-- A bitwise operation. -/
theorem bitwise (op : BitOp) (a b : Value) : Balanced (bitwise r op a b) := by
  unfold Run.bitwise
  split
  · cases op <;> first | exact .pure trivial | exact invalid fun h => nomatch h
  · exact .bind (ofNumeric _) fun _ _ => .pure trivial
  · exact invalid fun h => nomatch h

/-- A complement. -/
theorem complement (v : Value) : Balanced (complement r v) := by
  unfold Run.complement
  split
  · exact .pure trivial
  · exact .bind (ofNumeric _) fun _ _ => .pure trivial
  · exact invalid fun h => nomatch h

theorem payloadOf (v : Value) : Balanced (payloadOf r v) := by
  cases v <;> first | exact .pure trivial | exact raise _

/-- A unary operator. -/
theorem unaryValue (op : UnaryOp) (checked : Bool) (ty : Ty) (v : Value) :
    Balanced (unaryValue r op checked ty v) := by
  cases op with
  | plus | isTrue => exact .pure trivial
  | negate => exact .bind (asNum v) fun _ _ => .bind (ofNumeric _) fun _ _ => .pure trivial
  | not | isFalse => exact complement v
  | increment | decrement => exact arithValues _ _ _ _

/-- A binary operator. -/
theorem binaryValue (op : BinaryOp) (checked : Bool) (ty : Ty) (a b : Value) :
    Balanced (binaryValue r op checked ty a b) := by
  cases op with
  | add =>
      unfold Run.binaryValue
      dsimp only
      split
      · exact fun _ => trivial
      · exact arithValues _ _ _ _
  | sub | mul | div | rem => exact arithValues _ _ _ _
  | and => exact bitwise .and a b
  | or => exact bitwise .or a b
  | xor => exact bitwise .xor a b
  | shl => exact bitwise .shl a b
  | shr => exact bitwise .shr a b
  | eq | ne | lt | le | gt | ge => exact compareValues _ _ _

end Balanced

end Run

namespace Regime.balanced

open Eval

variable {setting : Setting} {ctx : Context} {ty : Ty}

/-- Every default is provided. -/
theorem provides (r : Registry) (ty : Ty) : Regime.balanced.Provides r ty := by
  intro ctx
  unfold Eval.defaultOf
  split
  · exact .lift (Run.Balanced.ofLookup _)
  · exact .pure trivial

theorem fits (result : Result) : result.Fits .balanced ty := by
  cases result <;> trivial

theorem yield (v : Value) : Ensures .balanced ctx (Eval.yield ty v) (Result.Fits .balanced ty) :=
  .yield trivial

/-- A binary operator on values. -/
theorem binaryOn (op : BinaryOp) (checked : Bool) (left right : Ty) (a b : Value) :
    Ensures .balanced ctx (binaryOn setting op checked left right ty a b) fun _ => True := by
  unfold Eval.binaryOn
  split
  · exact .bind (.lift (Run.Balanced.binaryValue _ _ _ _ _)) fun _ _ => .pure trivial
  · exact .pure trivial

/-- What is inside an optional. -/
theorem payloadIf (condition : Bool) (v : Value) :
    Ensures .balanced ctx (payloadIf setting condition v) fun _ => True := by
  unfold Eval.payloadIf
  split
  · exact .lift (Run.Balanced.payloadOf v)
  · exact .pure trivial

/-- A short-circuit operator. -/
theorem logical {l r : Meaning} (hl : l.Obeys .balanced ctx) (hr : r.Obeys .balanced ctx)
    (op : LogicalOp) (exits : Bool) :
    Ensures .balanced ctx (logical op l r ty exits) (Result.Fits .balanced ty) := by
  refine .bind (hl.value exits) fun a _ => ?_
  split
  · split
    · exact yield _
    · refine .bind (hr.value exits) fun b _ => ?_
      unfold Eval.combined
      split
      · exact yield _
      · split <;> exact yield _
  · split
    · exact yield _
    · exact .bind (hr.value exits) fun b _ => yield _

/-- A coalescing. -/
theorem coalesce {l r : Meaning} (hl : l.Obeys .balanced ctx) (hr : r.Obeys .balanced ctx)
    (exits : Bool) :
    Ensures .balanced ctx (coalesce setting l r ty exits) (Result.Fits .balanced ty) := by
  refine .bind (hl.guardedValue fun _ => provides _ _) fun a _ => ?_
  split
  · exact .bind (hr.value exits) fun b _ => yield _
  · exact .bind (payloadIf _ _) fun x _ => yield _

/-- A member. -/
theorem member {d : Option Meaning} (hd : ∀ r, d = some r → r.Obeys .balanced ctx) (m : Member)
    (exits : Bool) :
    Ensures .balanced ctx (member setting d m ty exits) (Result.Fits .balanced ty) := by
  unfold Eval.member
  split
  · exact .bind ((hd _ rfl).value exits) fun v _ => yield _
  · refine .bind ((hd _ rfl).value exits) fun v _ => ?_
    split
    · exact .exit
    · exact .bind (.lift (Run.Balanced.payloadOf v)) fun x _ => yield _
  · exact .stuck

/-- A conversion. -/
theorem convert {d : Meaning} (hd : d.Obeys .balanced ctx) (checked exits : Bool) :
    Ensures .balanced ctx (convert setting d checked ty exits) (Result.Fits .balanced ty) := by
  have hnum : ∀ source target v,
      Ensures .balanced ctx (convertNum setting source target checked v) fun _ => True := by
    intro source target v
    unfold Eval.convertNum
    split
    · exact .pure trivial
    · exact .lift (Run.Balanced.convValue _ _ _)
  unfold Eval.convert
  split
  · refine .bind (hd.value exits) fun v _ => ?_
    split
    · split
      · exact .bind (hnum _ _ _) fun y _ => yield _
      · exact yield _
    · exact .bind (payloadIf _ _) fun x _ => .bind (hnum _ _ _) fun y _ => yield _
  · exact .stuck

/-- A switch. -/
theorem switch {value : Meaning} {cases : List (SwitchCase Meaning)} {fallback : Option Meaning}
    (hvalue : value.Obeys .balanced ctx)
    (htests : ∀ c ∈ cases, ∀ d ∈ c.tests, d.Obeys .balanced ctx)
    (hbodies : ∀ c ∈ cases, c.body.Obeys .balanced ctx)
    (hfallback : ∀ d, fallback = some d → d.Obeys .balanced ctx) (exits : Bool) :
    Ensures .balanced ctx (switch setting value cases fallback ty exits)
      (Result.Fits .balanced ty) := by
  refine .bind (hvalue.value exits) fun v _ => ?_
  split
  · exact .stuck
  · refine .bind (Meaning.Obeys.select fun c hc d hd =>
      ⟨htests c hc d hd, fun _ => provides _ _, fun x _ => binaryOn _ _ _ _ _ _⟩) fun chosen h => ?_
    split
    · next body hbody =>
        refine Meaning.Obeys.branch ?_ (fun _ _ _ => trivial) exits
        cases chosen with
        | some chosen =>
            cases hbody
            obtain ⟨c, hc, rfl⟩ := h _ rfl
            exact hbodies c hc
        | none => exact hfallback body hbody
    · exact .default fun _ => provides _ _

/-- A layer does not underflow a stack if its operands do not. -/
theorem layer {k : ExprKind Meaning} (hk : ∀ d ∈ k.operands, d.Obeys .balanced ctx)
    (hblock : ∀ vars body, k = .block vars body → ∀ d ∈ body, d.Obeys .balanced (ctx.add vars))
    (exits : Bool) (shape : Shape) :
    Ensures .balanced ctx (layer setting k ty exits shape) (Result.Fits .balanced ty) := by
  cases k with
  | constant value =>
      change Ensures .balanced ctx (Eval.constant setting value ty) _
      unfold Eval.constant
      split
      · exact .default fun _ => provides _ _
      · exact yield _
  | default => exact .default fun _ => provides _ _
  | parameter id => exact .parameter id shape
  | member receiver m =>
      refine member (fun r hr => hk r ?_) m exits
      cases hr
      exact List.mem_cons_self
  | unary op operand checked method =>
      cases method with
      | none =>
          refine .bind ((hk operand List.mem_cons_self).value exits) fun v _ => ?_
          split
          · exact .bind (.lift (Run.Balanced.unaryValue _ _ _ _)) fun y _ => yield _
          · exact yield _
      | some m => exact .stuck
  | binary op left right checked method =>
      cases method with
      | none =>
          exact .bind ((hk left List.mem_cons_self).value exits) fun a _ =>
            .bind ((hk right (by simp [ExprKind.operands, ExprKind.children])).value exits)
              fun b _ => .bind (binaryOn _ _ _ _ _ _) fun y _ => yield _
      | some m => exact .stuck
  | logical op left right =>
      exact logical (hk left List.mem_cons_self)
        (hk right (by simp [ExprKind.operands, ExprKind.children])) op exits
  | coalesce left right =>
      exact coalesce (hk left List.mem_cons_self)
        (hk right (by simp [ExprKind.operands, ExprKind.children])) exits
  | conditional test ifTrue ifFalse =>
      exact Meaning.Obeys.conditional (hk test List.mem_cons_self)
        (hk ifTrue (by simp [ExprKind.operands, ExprKind.children]))
        (hk ifFalse (by simp [ExprKind.operands, ExprKind.children])) (fun _ => provides _ _)
        (fun _ => ⟨fun _ _ => trivial, fun _ _ => trivial⟩) exits shape
  | block vars body =>
      exact Meaning.Obeys.block (fun _ _ => provides _ _) (hblock vars body rfl)
        (fun _ => provides _ _) (fun _ _ _ _ _ _ => trivial) exits shape
  | switch value cases fallback comparison =>
      cases comparison with
      | none =>
          refine switch (hk value List.mem_cons_self) (fun c hc d hd => hk d ?_)
            (fun c hc => hk c.body ?_) (fun d hd => hk d ?_) exits
          · simp only [ExprKind.operands, ExprKind.children, List.mem_cons, List.mem_append,
              List.mem_flatMap]
            exact .inl (.inr ⟨c, hc, .inl hd⟩)
          · simp only [ExprKind.operands, ExprKind.children, List.mem_cons, List.mem_append,
              List.mem_flatMap]
            exact .inl (.inr ⟨c, hc, .inr (.inl rfl)⟩)
          · simp [ExprKind.operands, ExprKind.children, hd]
      | some m => exact .stuck
  | assign op target value checked autoExtend =>
      have htarget := hk target List.mem_cons_self
      have hvalue : ∀ v, value = some v → v.Obeys .balanced ctx := by
        rintro v rfl
        exact hk v (by simp [ExprKind.operands, ExprKind.children])
      have hstepped : ∀ sign k old,
          Ensures .balanced ctx (stepped setting sign k checked target.ty old) fun _ => True := by
        intro sign k old
        unfold Eval.stepped
        split
        · exact .pure trivial
        · exact .bind (.lift (Run.Balanced.arithValues _ _ _ _)) fun _ _ => .pure trivial
      exact Meaning.Obeys.assign
        (fun _ _ => Meaning.Obeys.step htarget fun k old _ _ => hstepped _ k old)
        (fun v hv _ => Meaning.Obeys.replace htarget (hvalue v hv) fun _ _ => trivial)
        (fun v _ hv _ => Meaning.Obeys.update htarget (hvalue v hv) fun _ _ _ _ =>
          binaryOn _ _ _ _ _ _) autoExtend exits shape
  | convert operand checked method =>
      cases method with
      | none => exact convert (hk operand List.mem_cons_self) checked exits
      | some m => exact .stuck
  | _ => exact .stuck

end Regime.balanced

/-- The evaluation of a tree does not underflow a stack. -/
theorem Expr.obeys_balanced (setting : Setting) (e : Expr) (ctx : Context) :
    (e.toMeaning setting).Obeys .balanced ctx := by
  induction e using Expr.induct generalizing ctx with
  | node k ty ih =>
      rw [toMeaning_node]
      have hoperands : ∀ ctx, ∀ d ∈ (k.map (toMeaning setting)).operands, d.Obeys .balanced ctx := by
        intro ctx d hd
        rw [ExprKind.operands_map] at hd
        obtain ⟨e, he, rfl⟩ := List.mem_map.mp hd
        exact ih e he ctx
      refine .ofKind (fun exits shape => Regime.balanced.layer (hoperands ctx) ?_ exits shape)
        fun _ _ _ _ _ => Iff.rfl
      intro vars body hblock d hd
      refine hoperands _ d ?_
      rw [hblock]
      exact hd

/-! ## The contract -/

/-- What has become of a stack, by the form that was left above it. -/
def Form.Above (form : Form) (stack rest : List Value) : Prop :=
  match form with
  | .nothing => rest = stack
  | .value | .address => ∃ v, rest = v :: stack

/-- What a result leaves is what its form says. -/
theorem Result.Left.above {result : Result} {form : Form} {stack rest : List Value}
    (h : result.Left form stack rest) : form.Above stack rest := by
  cases result with
  | nothing =>
      obtain ⟨rfl, rfl⟩ := h
      rfl
  | value v =>
      obtain ⟨rfl, rfl⟩ := h
      exact ⟨v, rfl⟩

namespace Job

/-- What becomes of the stack with which code from one position to another is entered. -/
inductive Balances (J : Job) (a : Around) (exit : Option Label) (e : Emitted) (p q : Nat) (m : Memory)
    (stack : List Value) : Prop where
  /-- At the end of the code the stack carries what the emitter reported. -/
  | done {n : Memory} {rest : List Value}
      (hleads : J.Leads p (m.state a stack) q (n.state a rest)) (habove : e.form.Above stack rest)
  /-- Through the exit control arrives with the stack below what was pushed. -/
  | left {l : Nat} {n : Memory} {top : List Value} (hlands : J.Lands exit l)
      (hused : e.usedExit = true) (hleads : J.Leads p (m.state a stack) l (n.state a (top ++ stack)))
  /-- The code traps, and not because the stack underflowed. -/
  | trapped {trap : Trap} {u : State} (hends : J.Ends p (m.state a stack) (.error trap u))
      (htrap : trap ≠ .invalid .stackUnderflow)

/-- Code that does not underflow a stack balances the stack that it is entered with. -/
theorem Obeys.balances {J : Job} {ctx : Context} {a : Around} {exit : Option Label} {ty : Ty}
    {e : Emitted} {s : Emission} {q : Nat} {m : Memory} {stack : List Value}
    (h : J.Obeys .balanced ctx a exit ty e s q m stack) :
    J.Balances a exit e s.position q m stack := by
  cases h with
  | done hleads _ _ _ hleft => exact .done hleads hleft.above
  | left hlands hused hleads => exact .left hlands hused hleads
  | trapped hends htrap => exact .trapped hends htrap

/-- Wherever a tree is emitted and its evaluation is defined, in every shape and with every exit, its
code balances every stack that it is entered with; emitted with a landing of its own it does so
without an exit. -/
theorem balances_tree (J : Job) (e : Expr) {s : Emission} {w : World} {m : Memory}
    (hholds : J.Holds s.scope w m) {stack : List Value} (hlength : stack.length ≤ s.position)
    (a : Around) :
    (∀ start exit shape extend emitted t,
      J.Emits start (e.toNode.emit exit shape extend) s emitted t → J.Resolves exit →
        ((e.toMeaning J.setting).eval exit.isSome shape extend).IsDefined w →
          J.Balances a exit emitted s.position t.position m stack) ∧
    ∀ start shape emitted t, J.Emits start (e.toNode.guarded shape) s emitted t →
      (Eval.guarded J.setting (e.toMeaning J.setting) shape).IsDefined w →
        J.Balances a none emitted s.position t.position m stack := by
  have hfits : w.Fits .balanced (w.vars.map fun x => (x.1, x.2.1)) := ⟨rfl, fun _ _ => trivial⟩
  obtain ⟨hemit, hguarded⟩ := obeys_tree (e.obeys_balanced J.setting _)
    (fun _ => Regime.balanced.provides _ _) hholds hfits hlength a
  exact ⟨fun start exit shape extend emitted t h hexit hdefined =>
      (hemit start exit shape extend emitted t h hexit hdefined).balances,
    fun start shape emitted t h hdefined => (hguarded start shape emitted t h hdefined).balances⟩

end Job

namespace Machine

/-- The content of an optional integer. -/
def content : Lambda Expr :=
  let x : Variable := ⟨0, "x", .nullable .int⟩
  ⟨"content", [x], .int, Tree.value (Tree.var x), ⟨false, false⟩⟩

set_option maxRecDepth 4000 in
/-- The body of the function, emitted with a landing, balances the empty stack where the content is
absent and its check fails. -/
theorem balances_content :
    ∃ (J : Job) (s t : Emission) (emitted : Emitted) (m : Memory),
      J.Emits 0 (content.body.toNode.guarded .value) s emitted t ∧ m.args = #[.absent] ∧
        J.Balances ⟨[], []⟩ none emitted s.position t.position m [] := by
  obtain ⟨c, hc⟩ : ∃ c, (compile ⟨.builtin, .default⟩ content).result = .ok c := ⟨_, rfl⟩
  have hlimits : c.routine.WithinLimits := by
    have hcompiled : (match (compile ⟨.builtin, .default⟩ content).result with
        | .ok c => decide c.routine.WithinLimits
        | .error _ => false) = true := by decide +kernel
    rw [hc] at hcompiled
    exact of_decide_eq_true hcompiled
  have hcaptured : ([] : List Value).length = content.hidden.count := rfl
  have hone : [Value.absent].length = content.params.length := rfl
  obtain ⟨J, s, t, e, m, hsetting, -, hguarded, hholds, hargs⟩ :=
    body_of_compiled hc rfl hlimits rfl hcaptured hone .empty []
  have hdefined : (Eval.guarded J.setting (content.body.toMeaning J.setting) .value).IsDefined
      ⟨.outline .empty, [], content.bound [.absent]⟩ := by
    rw [hsetting]
    intro u hu
    have hvalue : (Eval.guarded ⟨.builtin, .default⟩
        (content.body.toMeaning ⟨.builtin, .default⟩) .value).run
          ⟨.outline .empty, [], content.bound [.absent]⟩ =
        .ok (.value (.int 0)) ⟨.outline .empty, [], content.bound [.absent]⟩ := rfl
    cases hvalue.symm.trans hu
  exact ⟨J, s, t, e, m, hguarded, hargs,
    (Job.balances_tree J content.body hholds (Nat.zero_le _) ⟨[], []⟩).2 0 .value e t hguarded
      hdefined⟩

end Machine

end Arbor
