/-
  Scalar trees.

  A scalar tree computes with truth values, integers and their optionals in
  variables, and every node has the type that is inferred for it.  Its evaluation
  is never stuck: it yields a value exactly where its type has one, and the
  variables in scope stay those in scope.
-/
import Arbor.Proofs.Semantics.Induction
import Arbor.Proofs.Semantics.Meaning
import Arbor.Tree.Infer

set_option autoImplicit false

namespace Arbor

/-- Variables with their types, inner ones first. -/
abbrev Context := List (VarId × Ty)

/-- The context with further variables, the last of them innermost. -/
def Context.add (ctx : Context) (vars : List Variable) : Context :=
  (vars.map fun v => (v.id, v.ty)).reverse ++ ctx

/-- Whether a type is that of truth values or integers, or the optional of such a type. -/
def Ty.isBasic (ty : Ty) : Bool := ty.underlying.isScalar

theorem Ty.isVoid_of_isBasic {ty : Ty} (h : ty.isBasic = true) : ty.isVoid = false := by
  cases ty <;> first | rfl | cases h

theorem Ty.isBasic_optional {ty : Ty} (h : ty.isBasic = true) :
    ty.underlying.optional.isBasic = true := by
  unfold isBasic at h
  cases hty : ty.underlying <;> simp [hty, isScalar] at h <;>
    simp [optional, isBasic, underlying, isScalar, h]

theorem Ty.isBasic_underlying {ty : Ty} (h : ty.isBasic = true) : ty.underlying.isBasic = true := by
  unfold isBasic at h
  cases hty : ty.underlying <;> simp [hty, isScalar] at h <;> simp [isBasic, underlying, isScalar, h]

/-- Scalar trees, by the variables in scope. -/
inductive Expr.Scalar : Context → Expr → Prop where
  | constant {ctx : Context} {value : Literal} {ty : Ty} (hty : ty.isBasic = true)
      (hvalue : value = .null ∧ ty.isNullable = true ∨ value.ty? = some ty.underlying) :
      Scalar ctx (.node (.constant value) ty)
  | default {ctx : Context} {ty : Ty} (hty : ty.isBasic = true ∨ ty = .void) :
      Scalar ctx (Tree.default ty)
  | parameter {ctx : Context} {v : Variable} (hv : ctx.lookup v.id = some v.ty)
      (hty : v.ty.isBasic = true) : Scalar ctx (Tree.var v)
  | unary {ctx : Context} {op : UnaryOp} {operand : Expr} {checked : Bool}
      (hoperand : Scalar ctx operand) (hty : operand.ty.isBasic = true) :
      Scalar ctx (.node (.unary op operand checked none) (Tree.unary op operand).ty)
  | binary {ctx : Context} {op : BinaryOp} {left right : Expr} {checked : Bool} {ty : Ty}
      (hleft : Scalar ctx left) (hright : Scalar ctx right) (hl : left.ty.isBasic = true)
      (hr : right.ty.isBasic = true)
      (hty : ty = (Tree.binary op left right).ty ∨
        op.isComparison = true ∧ ty = (Tree.compareLifted op left right).ty) :
      Scalar ctx (.node (.binary op left right checked none) ty)
  | logical {ctx : Context} {op : LogicalOp} {left right : Expr} (hleft : Scalar ctx left)
      (hright : Scalar ctx right) (hl : left.ty.isBasic = true) (hr : right.ty.isBasic = true) :
      Scalar ctx (Tree.logical op left right)
  | coalesce {ctx : Context} {left right : Expr} (hleft : Scalar ctx left)
      (hright : Scalar ctx right) (hl : left.ty.isBasic = true) (hnullable : left.ty.isNullable = true)
      (hr : right.ty.underlying = left.ty.underlying) : Scalar ctx (Tree.coalesce left right)
  | conditional {ctx : Context} {test ifTrue ifFalse : Expr} {ty : Ty} (htest : Scalar ctx test)
      (htrue : Scalar ctx ifTrue) (hfalse : Scalar ctx ifFalse) (ht : test.ty.isBasic = true)
      (hty : ty = .void ∨
        ty = ifTrue.ty ∧ ifTrue.ty.isBasic = true ∧ ifFalse.ty.isBasic = true) :
      Scalar ctx (.node (.conditional test ifTrue ifFalse) ty)
  | convert {ctx : Context} {operand : Expr} {checked : Bool} {ty : Ty} {source target : NumKind}
      (hoperand : Scalar ctx operand) (hsource : operand.ty.underlying = .num source)
      (htarget : ty.underlying = .num target) (hty : ty.isBasic = true) :
      Scalar ctx (.node (.convert operand checked none) ty)
  | hasValue {ctx : Context} {operand : Expr} (hoperand : Scalar ctx operand)
      (hty : operand.ty.isBasic = true) : Scalar ctx (Tree.hasValue operand)
  | value {ctx : Context} {operand : Expr} (hoperand : Scalar ctx operand)
      (hty : operand.ty.isBasic = true) : Scalar ctx (Tree.value operand)
  | block {ctx : Context} {vars : List Variable} {body : List Expr}
      (hvars : ∀ v ∈ vars, v.ty.isBasic = true) (hbody : ∀ e ∈ body, Scalar (ctx.add vars) e) :
      Scalar ctx (Tree.block vars body)
  | assign {ctx : Context} {op : AssignOp} {v : Variable} {value : Expr} {checked autoExtend : Bool}
      (hv : ctx.lookup v.id = some v.ty) (hty : v.ty.isBasic = true) (hop : op.isStep = false)
      (hvalue : Scalar ctx value) (hvalueTy : value.ty.isBasic = true) :
      Scalar ctx (.node (.assign op (Tree.var v) (some value) checked autoExtend) v.ty)
  | step {ctx : Context} {op : AssignOp} {v : Variable} {checked autoExtend : Bool}
      (hv : ctx.lookup v.id = some v.ty) (hty : v.ty.isBasic = true) (hop : op.isStep = true)
      (hnum : v.ty.underlying ≠ .bool) :
      Scalar ctx (.node (.assign op (Tree.var v) none checked autoExtend) v.ty)

/-- A function over scalars: its parameters are, its body is a scalar tree, and unless nothing is
returned the body has a value. -/
structure Lambda.Scalar (l : Lambda Expr) : Prop where
  params : ∀ v ∈ l.params, v.ty.isBasic = true
  body : Expr.Scalar (Context.add [] l.params) l.body
  ret : l.ret = .void ∨ l.ret.isBasic = true ∧ l.body.ty.isBasic = true

namespace Tree

theorem unary_isBasic {op : UnaryOp} {operand : Expr} (h : operand.ty.isBasic = true) :
    (unary op operand).ty.isBasic = true := by
  have hbool : (if operand.ty.isNullable then operand.ty else Ty.bool).isBasic = true := by
    split
    · exact h
    · rfl
  cases op <;> first | exact h | exact hbool

/-- A binary operator on a basic left operand is basic. -/
theorem binary_isBasic {op : BinaryOp} {left right : Expr} (h : left.ty.isBasic = true) :
    (binary op left right).ty.isBasic = true := by
  change Ty.isBasic (if op.isComparison then .bool
    else if lifts left right then left.ty.underlying.optional else left.ty) = true
  split
  · rfl
  · split
    · exact Ty.isBasic_optional h
    · exact h

theorem logical_isBasic (op : LogicalOp) (left right : Expr) :
    (logical op left right).ty.isBasic = true := by
  change Ty.isBasic (if lifts left right then .nullable .bool else .bool) = true
  split <;> rfl

end Tree

/-- What a scalar binary node is typed as is basic. -/
theorem Expr.Scalar.isBasic_binary {op : BinaryOp} {left right : Expr} {ty : Ty}
    (h : left.ty.isBasic = true)
    (hty : ty = (Tree.binary op left right).ty ∨
      op.isComparison = true ∧ ty = (Tree.compareLifted op left right).ty) : ty.isBasic = true := by
  rcases hty with rfl | ⟨-, rfl⟩
  · exact Tree.binary_isBasic h
  · rfl

theorem Ty.isBasic_of_underlying_eq {ty other : Ty} (h : other.isBasic = true)
    (heq : ty.underlying = other.underlying) : ty.isBasic = true := by
  rw [isBasic, heq]
  exact h

/-! ## Evaluations that are not stuck -/

/-- The variables of the world are those of the context. -/
def World.Has (w : World) (ctx : Context) : Prop := w.vars.map (fun x => (x.1, x.2.1)) = ctx

namespace Eval

variable {α β : Type} {ctx : Context}

/-- An evaluation ended without being stuck, with the variables of the context in scope. -/
def Settled (ctx : Context) (post : α → Prop) : EStateM.Result Stop World α → Prop
  | .ok a w => w.Has ctx ∧ post a
  | .error .exit w => w.Has ctx
  | .error (.trap _) _ => True
  | .error .stuck _ => False

/-- An evaluation that is not stuck where the variables of the context are in scope, and keeps them
in scope. -/
def Safe (ctx : Context) (x : Eval α) (post : α → Prop) : Prop :=
  ∀ w : World, w.Has ctx → Settled ctx post (x.run w)

namespace Safe

theorem pure {a : α} {post : α → Prop} (h : post a) : Safe ctx (pure a : Eval α) post :=
  fun _ hw => ⟨hw, h⟩

/-- Evaluations one after the other. -/
theorem bind {x : Eval α} {f : α → Eval β} {p : α → Prop} {post : β → Prop}
    (hx : Safe ctx x p) (hf : ∀ a, p a → Safe ctx (f a) post) : Safe ctx (x >>= f) post := by
  intro w hw
  have hfirst := hx w hw
  change Settled ctx p (x w) at hfirst
  change Settled ctx post (EStateM.bind x f w)
  unfold EStateM.bind
  revert hfirst
  cases x w with
  | ok a w =>
      rintro ⟨hw, hmid⟩
      exact hf a hmid w hw
  | error e w =>
      intro hfirst
      cases e <;> exact hfirst

theorem imp {x : Eval α} {mid post : α → Prop} (hx : Safe ctx x mid) (h : ∀ a, mid a → post a) :
    Safe ctx x post := by
  intro w hw
  have hx := hx w hw
  revert hx
  cases x.run w with
  | ok a w => exact fun hx => ⟨hx.1, h a hx.2⟩
  | error e w => cases e <;> exact id

theorem lift (x : Run α) : Safe ctx (lift x) fun _ => True := by
  intro w hw
  simp only [EStateM.run, Eval.lift]
  cases x ⟨w.heap, [], w.statics⟩ with
  | ok a s => exact ⟨hw, trivial⟩
  | error e s => trivial

theorem exit {post : α → Prop} : Safe ctx (exit : Eval α) post := fun _ hw => hw

/-- A landing. -/
theorem orLand {x land : Eval α} {post : α → Prop} (hx : Safe ctx x post)
    (hland : Safe ctx land post) : Safe ctx (orLand x land) post := by
  intro w hw
  have hx := hx w hw
  simp only [EStateM.run, Eval.orLand] at hx ⊢
  revert hx
  cases x w with
  | ok a w => exact id
  | error e w =>
      intro hx
      cases e with
      | exit => exact hland w hx
      | trap e => trivial
      | stuck => exact hx

/-- A variable of the context. -/
theorem lookup {id : VarId} {ty : Ty} (h : ctx.lookup id = some ty) :
    Safe ctx (lookup id) fun v => v.1 = ty := by
  intro w hw
  have hvars : ∃ v, w.vars.lookup id = some (ty, v) := by
    have hw : w.vars.map (fun x => (x.1, x.2.1)) = ctx := hw
    rw [← hw] at h
    clear hw
    generalize w.vars = vars at h ⊢
    induction vars with
    | nil => cases h
    | cons x vars ih =>
        obtain ⟨i, t, v⟩ := x
        simp only [List.map_cons, List.lookup_cons] at h ⊢
        cases hid : id == i with
        | true =>
            rw [hid] at h
            cases h
            exact ⟨v, rfl⟩
        | false =>
            rw [hid] at h
            exact ih h
  obtain ⟨v, hv⟩ := hvars
  simp only [EStateM.run, Eval.lookup, hv]
  exact ⟨hw, rfl⟩

/-- An assigned variable. -/
theorem writeVar (id : VarId) (v : Value) : Safe ctx (writeVar id v) fun _ => True := by
  intro w hw
  refine ⟨?_, trivial⟩
  have hassign : ∀ vars : Vars,
      (vars.assign id v).map (fun x => (x.1, x.2.1)) = vars.map (fun x => (x.1, x.2.1)) := by
    intro vars
    induction vars with
    | nil => rfl
    | cons x vars ih =>
        obtain ⟨i, t, old⟩ := x
        simp only [Vars.assign]
        split
        · rfl
        · rw [List.map_cons, ih, List.map_cons]
  exact (hassign w.vars).trans hw

/-- Further variables. -/
theorem within {x : Eval α} {post : α → Prop} {vars : List Variable} {bound : Vars}
    (hbound : bound.map (fun x => (x.1, x.2.1)) = vars.map fun v => (v.id, v.ty))
    (hx : Safe (ctx.add vars) x post) : Safe ctx (within bound x) post := by
  have hlength : bound.length = vars.length := by
    simpa using congrArg List.length hbound
  have hdrop : ∀ w : World, w.Has (ctx.add vars) →
      World.Has { w with vars := w.vars.drop bound.length } ctx := by
    intro w hw
    have hw : w.vars.map (fun x => (x.1, x.2.1)) = ctx.add vars := hw
    unfold World.Has
    rw [List.map_drop, hw, Context.add, hlength]
    exact List.drop_left' (by simp)
  intro w hw
  have hw : w.vars.map (fun x => (x.1, x.2.1)) = ctx := hw
  have hinner : World.Has { w with vars := bound.reverse ++ w.vars } (ctx.add vars) := by
    simp only [World.Has, List.map_append, List.map_reverse, hbound, hw, Context.add]
  have hx := hx _ hinner
  simp only [EStateM.run, Eval.within] at hx ⊢
  revert hx
  cases x { w with vars := bound.reverse ++ w.vars } with
  | ok a w => exact fun hx => ⟨hdrop w hx.1, hx.2⟩
  | error e w =>
      intro hx
      cases e with
      | exit => exact hdrop w hx
      | trap e => trivial
      | stuck => exact hx

theorem yield {ty : Ty} {v : Value} (hty : ty.isVoid = false) :
    Safe ctx (yield ty v) fun result => ∃ v, result = .value v := by
  simp only [Eval.yield, hty, Bool.false_eq_true, if_false]
  exact pure ⟨v, rfl⟩

theorem defaultOf (r : Registry) (ty : Ty) : Safe ctx (defaultOf r ty) fun _ => True := by
  unfold Eval.defaultOf
  split
  · exact lift _
  · exact pure trivial

end Safe

end Eval

/-! ## Meanings that are not stuck -/

/-- A meaning that yields a value where its type has one, and nothing where its value is discarded. -/
structure Meaning.Settles (ctx : Context) (d : Meaning) : Prop where
  yields : d.ty.isVoid = false → ∀ exits,
    Eval.Safe ctx (d.eval exits .value false) fun result => ∃ v, result = .value v
  discards : ∀ exits, Eval.Safe ctx (d.eval exits .nothing false) fun result => result = .nothing

namespace Meaning.Settles

open Eval

variable {setting : Setting} {ctx : Context} {d l r : Meaning} {ty : Ty}

theorem value (hd : d.Settles ctx) (hty : d.ty.isVoid = false) (exits : Bool) :
    Safe ctx (d.value exits) fun _ => True := by
  refine .bind (hd.yields hty exits) ?_
  rintro _ ⟨v, rfl⟩
  exact .pure trivial

theorem effect (hd : d.Settles ctx) (exits : Bool) : Safe ctx (d.effect exits) fun _ => True := by
  refine .bind (hd.discards exits) ?_
  rintro _ rfl
  exact .pure trivial

/-- The value of a meaning with a landing of its own. -/
theorem guardedValue (hd : d.Settles ctx) (hty : d.ty.isVoid = false) :
    Safe ctx (guardedValue setting d) fun _ => True := by
  have hform : Shape.value.form d.ty = .value := by simp [Shape.form, hty, Shape.wantsAddress]
  refine .bind (p := fun result => ∃ v, result = .value v) (.orLand (hd.yields hty _) ?_) ?_
  · rw [hform]
    exact .bind (.defaultOf _ _) fun v _ => .pure ⟨v, rfl⟩
  · rintro _ ⟨v, rfl⟩
    exact .pure trivial

theorem statement (hd : d.Settles ctx) : Safe ctx (statement setting d) fun _ => True := by
  refine .bind (p := fun result => result = .nothing) (.orLand (hd.discards _) (.pure rfl)) ?_
  rintro _ rfl
  exact .pure trivial

theorem branch (hd : d.Settles ctx) {discard : Bool} (hty : discard = false → d.ty.isVoid = false)
    (exits : Bool) :
    Safe ctx (branch d ty exits discard) fun result =>
      if discard then result = .nothing else ∃ v, result = .value v := by
  unfold Eval.branch
  cases discard with
  | true => exact .bind (hd.effect exits) fun _ _ => .pure rfl
  | false => exact .bind (hd.value (hty rfl) exits) fun v _ => .pure ⟨_, rfl⟩

/-! ## Layers -/

theorem default (ty : Ty) : Safe ctx (Eval.default setting ty) fun result =>
    if ty.isVoid then result = .nothing else ∃ v, result = .value v := by
  unfold Eval.default
  split
  · exact .pure rfl
  · exact .bind (.defaultOf _ _) fun v _ => .pure ⟨v, rfl⟩

theorem unary (hd : d.Settles ctx) (hd' : d.ty.isVoid = false) (hty : ty.isVoid = false) (op : UnaryOp)
    (checked exits : Bool) :
    Safe ctx (unary setting op d checked ty exits) fun result => ∃ v, result = .value v := by
  refine .bind (hd.value hd' exits) fun v _ => ?_
  split
  · exact .bind (.lift _) fun y _ => .yield hty
  · exact .yield hty

theorem binaryOn (op : BinaryOp) (checked : Bool) (left right ty : Ty) (a b : Value) :
    Safe ctx (binaryOn setting op checked left right ty a b) fun _ => True := by
  unfold Eval.binaryOn
  split
  · exact .bind (.lift _) fun y _ => .pure trivial
  · exact .pure trivial

theorem binary (hl : l.Settles ctx) (hr : r.Settles ctx) (hl' : l.ty.isVoid = false)
    (hr' : r.ty.isVoid = false) (hty : ty.isVoid = false) (op : BinaryOp) (checked exits : Bool) :
    Safe ctx (binary setting op l r checked ty exits) fun result => ∃ v, result = .value v :=
  .bind (hl.value hl' exits) fun _ _ => .bind (hr.value hr' exits) fun _ _ =>
    .bind (binaryOn _ _ _ _ _ _ _) fun _ _ => .yield hty

/-- A short-circuit operator. -/
theorem logical (hl : l.Settles ctx) (hr : r.Settles ctx) (hl' : l.ty.isVoid = false)
    (hr' : r.ty.isVoid = false) (hty : ty.isVoid = false) (op : LogicalOp) (exits : Bool) :
    Safe ctx (logical op l r ty exits) fun result => ∃ v, result = .value v := by
  refine .bind (hl.value hl' exits) fun a _ => ?_
  split
  · split
    · exact .yield hty
    · refine .bind (hr.value hr' exits) fun b _ => ?_
      unfold Eval.combined
      split
      · exact .yield hty
      · split <;> exact .yield hty
  · split
    · exact .yield hty
    · exact .bind (hr.value hr' exits) fun b _ => .yield hty

theorem payloadIf (condition : Bool) (v : Value) :
    Safe ctx (payloadIf setting condition v) fun _ => True := by
  unfold Eval.payloadIf
  split
  · exact .lift _
  · exact .pure trivial

theorem coalesce (hl : l.Settles ctx) (hr : r.Settles ctx) (hl' : l.ty.isVoid = false)
    (hr' : r.ty.isVoid = false) (hty : ty.isVoid = false) (exits : Bool) :
    Safe ctx (coalesce setting l r ty exits) fun result => ∃ v, result = .value v := by
  refine .bind (hl.guardedValue hl') fun a _ => ?_
  split
  · exact .bind (hr.value hr' exits) fun b _ => .yield hty
  · exact .bind (payloadIf _ _) fun x _ => .yield hty

theorem member (hd : d.Settles ctx) (hd' : d.ty.isVoid = false) (hty : ty.isVoid = false)
    {field : Member} (hfield : field = .hasValue ∨ field = .value) (exits : Bool) :
    Safe ctx (member setting (.some d) field ty exits) fun result => ∃ v, result = .value v := by
  rcases hfield with rfl | rfl
  · exact .bind (hd.value hd' exits) fun v _ => .yield hty
  · refine .bind (hd.value hd' exits) fun v _ => ?_
    split
    · exact .exit
    · exact .bind (.lift _) fun x _ => .yield hty

/-- A conversion between numeric types. -/
theorem convert (hd : d.Settles ctx) (hd' : d.ty.isVoid = false) (hty : ty.isVoid = false)
    {source target : NumKind} (hsource : d.ty.underlying = .num source)
    (htarget : ty.underlying = .num target) (checked exits : Bool) :
    Safe ctx (convert setting d checked ty exits) fun result => ∃ v, result = .value v := by
  have hnum : ∀ v, Safe ctx (convertNum setting source target checked v) fun _ => True := by
    intro v
    unfold Eval.convertNum
    split
    · exact .pure trivial
    · exact .lift _
  simp only [Eval.convert, hsource, htarget, Ty.numKind?]
  refine .bind (hd.value hd' exits) fun v _ => ?_
  split
  · split
    · exact .bind (hnum _) fun y _ => .yield hty
    · exact .yield hty
  · exact .bind (payloadIf _ _) fun x _ => .bind (hnum _) fun y _ => .yield hty

/-- A conditional. -/
theorem conditional {test ifTrue ifFalse : Meaning} (htest : test.Settles ctx) (htrue : ifTrue.Settles ctx)
    (hfalse : ifFalse.Settles ctx) (htest' : test.ty.isVoid = false)
    (hty : ty.isVoid = false → ifTrue.ty.isVoid = false ∧ ifFalse.ty.isVoid = false) (exits : Bool)
    (shape : Shape) :
    Safe ctx (conditional setting test ifTrue ifFalse ty exits shape) fun result =>
      if ty.isVoid || shape = .nothing then result = .nothing else ∃ v, result = .value v := by
  have hvalue : (ty.isVoid || decide (shape = .nothing)) = false → ty.isVoid = false := by
    simp only [Bool.or_eq_false_iff]
    exact And.left
  refine .bind (htest.guardedValue htest') fun t _ => ?_
  dsimp only
  split
  · exact htrue.branch (fun h => (hty (hvalue h)).1) exits
  · exact hfalse.branch (fun h => (hty (hvalue h)).2) exits

/-- Statements of a block of the type of the last one. -/
theorem statements {ds : List Meaning} (hds : ∀ d ∈ ds, d.Settles ctx)
    (hty : ty = (ds.getLast?.map Meaning.ty).getD .void) (exits : Bool) {shape : Shape}
    (hshape : shape = .value ∨ shape = .nothing) :
    Safe ctx (statements setting ty exits shape ds) fun result =>
      if ty.isVoid || shape = .nothing then result = .nothing else ∃ v, result = .value v := by
  induction ds with
  | nil =>
      subst hty
      exact .pure rfl
  | cons d ds ih =>
      have hd := hds d List.mem_cons_self
      cases ds with
      | nil =>
          have hty : ty = d.ty := hty
          subst hty
          unfold Eval.statements
          split
          · next hvoid =>
              simp only [hvoid, Bool.true_or, if_true]
              exact .bind (hd.effect exits) fun _ _ => .pure rfl
          · next hvoid =>
              have hvoid : d.ty.isVoid = false := by simpa using hvoid
              simp only [if_true, hvoid, Bool.false_or]
              rcases hshape with rfl | rfl
              · exact hd.yields hvoid exits
              · exact hd.discards exits
      | cons d' ds =>
          exact .bind hd.statement fun _ _ =>
            ih (fun d hd => hds d (List.mem_cons_of_mem _ hd)) (by simpa using hty)

/-- Fresh variables. -/
theorem fresh {vars : List Variable} (h : ∀ v ∈ vars, v.ty.isVoid = false) :
    Safe ctx (fresh setting vars) fun bound =>
      bound.map (fun x => (x.1, x.2.1)) = vars.map fun v => (v.id, v.ty) := by
  induction vars with
  | nil => exact .pure rfl
  | cons v vars ih =>
      have hv := h v List.mem_cons_self
      simp only [Eval.fresh, hv, Bool.false_eq_true, if_false]
      refine .bind (.defaultOf _ _) fun zero _ => .bind (ih fun v hv => h v (.tail _ hv)) ?_
      intro bound hbound
      exact .pure (by rw [List.map_cons, hbound, List.map_cons])

/-- What an assignment leaves. -/
theorem assigned (hty : ty.isVoid = false) (shape : Shape) (v : Value) :
    Safe ctx (assigned ty shape v) fun result =>
      if ty.isVoid || shape = .nothing then result = .nothing else ∃ v, result = .value v := by
  unfold Eval.assigned
  split
  · next hshape =>
      simp only [hshape, decide_true, Bool.or_true, if_true]
      exact .pure rfl
  · next hshape =>
      simp only [hty, hshape, decide_false, Bool.or_self, Bool.false_eq_true, if_false]
      exact .yield hty

theorem load {id : VarId} (hid : ctx.lookup id = .some ty) :
    Safe ctx (load (.var id)) fun _ => True :=
  .bind (.lookup hid) fun _ _ => .pure trivial

/-- An assignment of a value to a variable. -/
theorem assign {target value : Meaning} {id : VarId} {op : AssignOp}
    (hplace : ∀ exits extend, target.place exits extend = pure (.var id)) (htarget : target.ty = ty)
    (hid : ctx.lookup id = .some ty) (hty : ty.isVoid = false) (hop : op.isStep = false)
    (hvalue : value.Settles ctx) (hvalue' : value.ty.isVoid = false) (checked autoExtend exits : Bool)
    (shape : Shape) :
    Safe ctx (assign setting op target (.some value) checked autoExtend ty exits shape) fun result =>
      if ty.isVoid || shape = .nothing then result = .nothing else ∃ v, result = .value v := by
  simp only [Eval.assign, htarget, ne_eq, not_true_eq_false, if_false, hop]
  split
  · refine .bind (p := fun _ => True) ?_ fun v _ => assigned hty shape v
    simp only [Eval.replace, hplace, pure_bind]
    exact .bind (hvalue.value hvalue' exits) fun v _ => .bind (.writeVar _ _) fun _ _ => .pure trivial
  · refine .bind (p := fun _ => True) ?_ fun v _ => assigned hty shape v
    simp only [Eval.update, hplace, pure_bind]
    exact .bind (load hid) fun old _ => .bind (hvalue.value hvalue' exits) fun v _ =>
      .bind (binaryOn _ _ _ _ _ _ _) fun new _ => .bind (.writeVar _ _) fun _ _ => .pure trivial

/-- An increment or decrement of a variable. -/
theorem step {target : Meaning} {id : VarId} {op : AssignOp} {k : NumKind}
    (hplace : ∀ exits extend, target.place exits extend = pure (.var id)) (htarget : target.ty = ty)
    (hid : ctx.lookup id = .some ty) (hty : ty.isVoid = false) (hop : op.isStep = true)
    (hk : ty.underlying = .num k) (checked autoExtend exits : Bool) (shape : Shape) :
    Safe ctx (Eval.assign setting op target .none checked autoExtend ty exits shape) fun result =>
      if ty.isVoid || shape = .nothing then result = .nothing else ∃ v, result = .value v := by
  have hstepped : ∀ (sign : ArithOp) old,
      Safe ctx (stepped setting sign k checked ty old) fun _ => True := by
    intro sign old
    unfold Eval.stepped
    split
    · exact .pure trivial
    · exact .bind (.lift _) fun y _ => .pure trivial
  simp only [Eval.assign, htarget, ne_eq, not_true_eq_false, if_false, hop]
  refine .bind (p := fun _ => True) ?_ fun v _ => assigned hty shape v
  simp only [Eval.step, htarget, hk, Ty.numKind?, hplace, pure_bind]
  exact .bind (load hid) fun old _ => .bind (hstepped _ old) fun new _ =>
    .bind (.writeVar _ _) fun _ _ => .pure trivial

/-- A layer that yields a value where its type has one, and is not stuck where its value is
discarded. -/
theorem ofKind {k : ExprKind Meaning} (hvalue : ty.isVoid = false → ∀ exits,
      Safe ctx (Eval.layer setting k ty exits .value) fun result => ∃ v, result = .value v)
    (hnothing : ∀ exits, Safe ctx (Eval.layer setting k ty exits .nothing) fun _ => True) :
    (Meaning.ofKind setting k ty).Settles ctx := by
  constructor
  · intro hty exits
    refine .bind (hvalue hty exits) ?_
    rintro _ ⟨v, rfl⟩
    exact .pure ⟨v, rfl⟩
  · intro exits
    refine .bind (hnothing exits) fun result _ => ?_
    cases result <;> exact .pure rfl

theorem ofValue {k : ExprKind Meaning}
    (h : ∀ exits shape, Safe ctx (Eval.layer setting k ty exits shape) fun result =>
      ∃ v, result = .value v) : (Meaning.ofKind setting k ty).Settles ctx :=
  ofKind (fun _ exits => h exits _) fun exits => (h exits _).imp fun _ _ => trivial

/-- A layer that yields a value unless its type has none or its value is discarded. -/
theorem ofDiscarded {k : ExprKind Meaning}
    (h : ∀ exits shape, shape = .value ∨ shape = .nothing →
      Safe ctx (Eval.layer setting k ty exits shape) fun result =>
        if ty.isVoid || shape = .nothing then result = .nothing else ∃ v, result = .value v) :
    (Meaning.ofKind setting k ty).Settles ctx := by
  refine ofKind (fun hvoid exits => ?_) fun exits => (h exits _ (.inr rfl)).imp fun _ _ => trivial
  refine (h exits _ (.inl rfl)).imp fun result hresult => ?_
  simpa [hvoid] using hresult

end Meaning.Settles

theorem Meaning.place_var (setting : Setting) (v : Variable) (exits extend : Bool) :
    ((Tree.var v).toMeaning setting).place exits extend = pure (.var v.id) := by
  rw [Tree.var, Expr.toMeaning_node]
  rfl

/-- The meaning of a scalar tree is not stuck. -/
theorem Expr.Scalar.settles (setting : Setting) {ctx : Context} {e : Expr} (h : Expr.Scalar ctx e) :
    (e.toMeaning setting).Settles ctx := by
  have hvoid : ∀ {e : Expr}, e.ty.isBasic = true → (e.toMeaning setting).ty.isVoid = false := by
    intro e he
    rw [toMeaning_ty]
    exact Ty.isVoid_of_isBasic he
  induction h with
  | @constant ctx value ty hbasic hvalue =>
      rw [toMeaning_node]
      refine .ofValue fun exits shape => ?_
      change Eval.Safe ctx (Eval.constant setting value ty) _
      have hty := Ty.isVoid_of_isBasic hbasic
      unfold Eval.constant
      split
      · simp only [hty]
        exact .bind (.defaultOf _ _) fun v _ => .pure ⟨v, rfl⟩
      · exact .yield hty
  | @default ctx ty hty =>
      rw [Tree.default, toMeaning_node]
      refine .ofKind (fun hty exits => ?_) fun exits => ?_
      · exact (Meaning.Settles.default ty).imp fun result hresult => by simpa [hty] using hresult
      · exact (Meaning.Settles.default ty).imp fun _ _ => trivial
  | @parameter ctx v hv hty =>
      rw [Tree.var, toMeaning_node]
      have hlayer : ∀ {shape : Shape}, shape.wantsAddress v.ty = false →
          Eval.Safe ctx (Eval.parameter v.id v.ty shape) fun result => ∃ v, result = .value v := by
        intro shape hshape
        refine .bind (.lookup hv) ?_
        rintro ⟨_, value⟩ rfl
        simp only [ne_eq, not_true_eq_false, decide_false, hshape, Bool.or_self]
        exact .yield (Ty.isVoid_of_isBasic hty)
      exact .ofKind (fun _ exits => hlayer rfl) fun exits => (hlayer rfl).imp fun _ _ => trivial
  | @unary ctx op operand checked hoperand hty ih =>
      rw [toMeaning_node]
      exact .ofValue fun exits _ => ih.unary (hvoid hty)
        (Ty.isVoid_of_isBasic (Tree.unary_isBasic hty)) op checked exits
  | @binary ctx op left right checked ty hleft hright hl hr hty ihl ihr =>
      rw [toMeaning_node]
      exact .ofValue fun exits _ => ihl.binary ihr (hvoid hl) (hvoid hr)
        (Ty.isVoid_of_isBasic (isBasic_binary hl hty)) op checked exits
  | @logical ctx op left right hleft hright hl hr ihl ihr =>
      rw [Tree.logical, toMeaning_node]
      exact .ofValue fun exits _ => ihl.logical ihr (hvoid hl) (hvoid hr)
        (Ty.isVoid_of_isBasic (Tree.logical_isBasic op left right)) op exits
  | @coalesce ctx left right hleft hright hl hnullable hr ihl ihr =>
      have hright := Ty.isBasic_of_underlying_eq hl hr
      rw [Tree.coalesce, toMeaning_node]
      exact .ofValue fun exits _ => ihl.coalesce ihr (hvoid hl) (hvoid hright)
        (Ty.isVoid_of_isBasic hright) exits
  | @conditional ctx test ifTrue ifFalse ty htest htrue hfalse ht hty iht ihtrue ihfalse =>
      rw [toMeaning_node]
      refine .ofDiscarded fun exits shape _ =>
        Meaning.Settles.conditional iht ihtrue ihfalse (hvoid ht) ?_ exits shape
      intro hvalue
      rcases hty with rfl | ⟨-, htrueTy, hfalseTy⟩
      · cases hvalue
      · exact ⟨hvoid htrueTy, hvoid hfalseTy⟩
  | @convert ctx operand checked ty source target hoperand hsource htarget hty ih =>
      rw [toMeaning_node]
      have hsource' : (operand.toMeaning setting).ty.underlying = .num source := by
        rw [toMeaning_ty]
        exact hsource
      refine .ofValue fun exits _ =>
        ih.convert ?_ (Ty.isVoid_of_isBasic hty) hsource' htarget checked exits
      cases h : (operand.toMeaning setting).ty <;> first | rfl | (rw [h] at hsource'; cases hsource')
  | @hasValue ctx operand hoperand hty ih =>
      rw [Tree.hasValue, Tree.member, toMeaning_node]
      refine .ofValue fun exits _ => ?_
      change Eval.Safe ctx (Eval.member setting (some (operand.toMeaning setting)) .hasValue .bool exits) _
      exact ih.member (hvoid hty) rfl (.inl rfl) exits
  | @value ctx operand hoperand hty ih =>
      rw [Tree.value, Tree.member, toMeaning_node]
      exact .ofValue fun exits _ => ih.member (hvoid hty)
        (Ty.isVoid_of_isBasic (Ty.isBasic_underlying hty)) (.inr rfl) exits
  | @block ctx vars body hvars hbody ih =>
      rw [Tree.block, toMeaning_node]
      refine .ofDiscarded fun exits shape hshape => ?_
      refine .bind (Meaning.Settles.fresh fun v hv => Ty.isVoid_of_isBasic (hvars v hv)) ?_
      intro bound hbound
      refine .within hbound (Meaning.Settles.statements ?_ ?_ exits hshape)
      · intro d hd
        obtain ⟨e, he, rfl⟩ := List.mem_map.mp hd
        exact ih e he
      · rw [List.getLast?_map, Option.map_map]
        congr 2
        funext e
        exact (toMeaning_ty setting e).symm
  | @assign ctx op v value checked autoExtend hv hty hop hvalue hvalueTy ih =>
      rw [toMeaning_node]
      exact .ofDiscarded fun exits shape _ => Meaning.Settles.assign (Meaning.place_var setting v)
        (toMeaning_ty setting _) hv (Ty.isVoid_of_isBasic hty) hop ih (hvoid hvalueTy) checked
        autoExtend exits shape
  | @step ctx op v checked autoExtend hv hty hop hnum =>
      obtain ⟨k, hk⟩ : ∃ k, v.ty.underlying = .num k := by
        unfold Ty.isBasic at hty
        cases h : v.ty.underlying with
        | bool => exact (hnum h).elim
        | num k => exact ⟨k, rfl⟩
        | _ =>
            rw [h] at hty
            cases hty
      rw [toMeaning_node]
      exact .ofDiscarded fun exits shape _ => Meaning.Settles.step (Meaning.place_var setting v)
        (toMeaning_ty setting _) hv (Ty.isVoid_of_isBasic hty) hop hk checked autoExtend exits shape

end Arbor
