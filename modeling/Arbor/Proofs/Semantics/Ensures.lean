/-
  What evaluations ensure.

  A regime says which values fit a type and in which traps an evaluation may end.
  An evaluation under a regime keeps the values of the variables in scope fitting,
  ends only in such traps, and ensures a postcondition of its result; a stuck one
  ensures anything.  The control flow of a tree keeps to every regime that its
  operands keep to; the operators on values are what a regime has to settle.
-/
import Arbor.Proofs.Semantics.Scalar

set_option autoImplicit false

namespace Arbor

/-- Which values fit a type, and in which traps, with the heap left behind, an evaluation may
end. -/
structure Regime where
  fits : Ty → Value → Prop
  traps : Trap → Heap → Prop

/-- What an action of the machine yields, and in which traps it may end. -/
def Run.Gives {α : Type} (traps : Trap → Heap → Prop) (x : Run α) (post : α → Prop) : Prop :=
  ∀ s, match x s with
    | .ok a _ => post a
    | .error e t => traps e t.heap

namespace Run.Gives

variable {α β : Type} {traps : Trap → Heap → Prop}

theorem pure {a : α} {post : α → Prop} (h : post a) : Gives traps (pure a : Run α) post :=
  fun _ => h

/-- Actions one after the other. -/
theorem bind {x : Run α} {f : α → Run β} {p : α → Prop} {post : β → Prop}
    (hx : Gives traps x p) (hf : ∀ a, p a → Gives traps (f a) post) :
    Gives traps (x >>= f) post := by
  intro s
  have hfirst := hx s
  change match EStateM.bind x f s with
    | .ok a _ => post a
    | .error e t => traps e t.heap
  unfold EStateM.bind
  revert hfirst
  cases x s with
  | ok a t => exact fun hmid => hf a hmid t
  | error e t => exact id

theorem imp {x : Run α} {mid post : α → Prop} (hx : Gives traps x mid) (h : ∀ a, mid a → post a) :
    Gives traps x post := by
  intro s
  have hx := hx s
  revert hx
  cases x s with
  | ok a t => exact h a
  | error e t => exact id

end Run.Gives

namespace World

/-- The variables of the world are those of the context, and their values fit their types. -/
structure Fits (w : World) (R : Regime) (ctx : Context) : Prop where
  has : w.Has ctx
  vars : ∀ x ∈ w.vars, R.fits x.2.1 x.2.2

/-- A variable of the world is one of the context, and its value fits its type. -/
theorem Fits.lookup {w : World} {R : Regime} {ctx : Context} (h : w.Fits R ctx) {id : VarId}
    {ty : Ty} {v : Value} (hv : w.vars.lookup id = some (ty, v)) :
    ctx.lookup id = some ty ∧ R.fits ty v := by
  obtain ⟨hhas, hfits⟩ := h
  have hhas : w.vars.map (fun x => (x.1, x.2.1)) = ctx := hhas
  rw [← hhas]
  clear hhas
  generalize w.vars = vars at hv hfits ⊢
  induction vars with
  | nil => cases hv
  | cons x vars ih =>
      obtain ⟨i, t, value⟩ := x
      simp only [List.map_cons, List.lookup_cons] at hv ⊢
      cases hid : id == i with
      | true =>
          rw [hid] at hv
          cases hv
          exact ⟨rfl, hfits _ List.mem_cons_self⟩
      | false =>
          rw [hid] at hv
          exact ih hv fun x hx => hfits x (List.mem_cons_of_mem _ hx)

/-- An assigned variable keeps the values fitting. -/
theorem Fits.assign {w : World} {R : Regime} {ctx : Context} (h : w.Fits R ctx) {id : VarId}
    {v : Value} (hv : ∀ ty, ctx.lookup id = some ty → R.fits ty v) :
    Fits { w with vars := w.vars.assign id v } R ctx := by
  obtain ⟨hhas, hfits⟩ := h
  have hhas : w.vars.map (fun x => (x.1, x.2.1)) = ctx := hhas
  have hassign : ∀ vars : Vars, (∀ x ∈ vars, R.fits x.2.1 x.2.2) →
      (∀ ty, (vars.map fun x => (x.1, x.2.1)).lookup id = some ty → R.fits ty v) →
      (vars.assign id v).map (fun x => (x.1, x.2.1)) = vars.map (fun x => (x.1, x.2.1)) ∧
        ∀ x ∈ vars.assign id v, R.fits x.2.1 x.2.2 := by
    intro vars hvars hid
    induction vars with
    | nil => exact ⟨rfl, fun _ hx => nomatch hx⟩
    | cons x vars ih =>
        obtain ⟨i, t, old⟩ := x
        simp only [List.map_cons, List.lookup_cons] at hid
        simp only [Vars.assign]
        cases heq : id == i with
        | true =>
            rw [heq] at hid
            exact ⟨rfl, List.forall_mem_cons.mpr
              ⟨hid t rfl, fun x hx => hvars x (List.mem_cons_of_mem _ hx)⟩⟩
        | false =>
            rw [heq] at hid
            obtain ⟨hmap, hrest⟩ := ih (fun x hx => hvars x (List.mem_cons_of_mem _ hx)) hid
            refine ⟨by simp [hmap], List.forall_mem_cons.mpr ⟨?_, hrest⟩⟩
            exact hvars _ List.mem_cons_self
  obtain ⟨hmap, hvars⟩ := hassign w.vars hfits (by rw [hhas]; exact hv)
  exact ⟨hmap.trans hhas, hvars⟩

end World

namespace Eval

variable {α β : Type} {R : Regime} {ctx : Context}

/-- How an evaluation under a regime may end. -/
def Regular (R : Regime) (ctx : Context) (post : α → Prop) : EStateM.Result Stop World α → Prop
  | .ok a w => w.Fits R ctx ∧ post a
  | .error .exit w => w.Fits R ctx
  | .error (.trap e) w => R.traps e w.heap
  | .error .stuck _ => True

/-- What an evaluation ensures where the values of the variables fit their types. -/
def Ensures (R : Regime) (ctx : Context) (x : Eval α) (post : α → Prop) : Prop :=
  ∀ w : World, w.Fits R ctx → Regular R ctx post (x.run w)

namespace Ensures

theorem pure {a : α} {post : α → Prop} (h : post a) : Ensures R ctx (pure a : Eval α) post :=
  fun _ hw => ⟨hw, h⟩

theorem stuck {post : α → Prop} : Ensures R ctx (stuck : Eval α) post := fun _ _ => trivial

theorem exit {post : α → Prop} : Ensures R ctx (exit : Eval α) post := fun _ hw => hw

/-- Evaluations one after the other. -/
theorem bind {x : Eval α} {f : α → Eval β} {p : α → Prop} {post : β → Prop}
    (hx : Ensures R ctx x p) (hf : ∀ a, p a → Ensures R ctx (f a) post) :
    Ensures R ctx (x >>= f) post := by
  intro w hw
  have hfirst := hx w hw
  change Regular R ctx p (x w) at hfirst
  change Regular R ctx post (EStateM.bind x f w)
  unfold EStateM.bind
  revert hfirst
  cases x w with
  | ok a w =>
      rintro ⟨hw, hmid⟩
      exact hf a hmid w hw
  | error e w =>
      intro hfirst
      cases e <;> exact hfirst

theorem imp {x : Eval α} {mid post : α → Prop} (hx : Ensures R ctx x mid)
    (h : ∀ a, mid a → post a) : Ensures R ctx x post := by
  intro w hw
  have hx := hx w hw
  revert hx
  cases x.run w with
  | ok a w => exact fun hx => ⟨hx.1, h a hx.2⟩
  | error e w => cases e <;> exact id

theorem lift {x : Run α} {post : α → Prop} (hx : x.Gives R.traps post) :
    Ensures R ctx (lift x) post := by
  intro w hw
  have hx := hx ⟨w.heap, [], w.statics⟩
  simp only [EStateM.run, Eval.lift]
  revert hx
  cases x ⟨w.heap, [], w.statics⟩ with
  | ok a s => exact fun hpost => ⟨⟨hw.has, hw.vars⟩, hpost⟩
  | error e s => exact id

/-- A landing. -/
theorem orLand {x land : Eval α} {post : α → Prop} (hx : Ensures R ctx x post)
    (hland : Ensures R ctx land post) : Ensures R ctx (orLand x land) post := by
  intro w hw
  have hx := hx w hw
  simp only [EStateM.run, Eval.orLand] at hx ⊢
  revert hx
  cases x w with
  | ok a w => exact id
  | error e w =>
      intro hx
      cases e with
      | exit => exact hland w hx
      | trap e => exact hx
      | stuck => exact hx

theorem lookup (id : VarId) :
    Ensures R ctx (lookup id) fun v => ctx.lookup id = some v.1 ∧ R.fits v.1 v.2 := by
  intro w hw
  simp only [EStateM.run, Eval.lookup]
  cases hv : w.vars.lookup id with
  | none => trivial
  | some v => exact ⟨hw, hw.lookup hv⟩

theorem writeVar {id : VarId} {v : Value} (hv : ∀ ty, ctx.lookup id = some ty → R.fits ty v) :
    Ensures R ctx (writeVar id v) fun _ => True :=
  fun _ hw => ⟨hw.assign hv, trivial⟩

/-- Further variables. -/
theorem within {x : Eval α} {post : α → Prop} {vars : List Variable} {bound : Vars}
    (hbound : bound.map (fun x => (x.1, x.2.1)) = vars.map fun v => (v.id, v.ty))
    (hfits : ∀ x ∈ bound, R.fits x.2.1 x.2.2) (hx : Ensures R (ctx.add vars) x post) :
    Ensures R ctx (within bound x) post := by
  have hlength : bound.length = vars.length := by
    simpa using congrArg List.length hbound
  have hdrop : ∀ w : World, w.Fits R (ctx.add vars) →
      World.Fits { w with vars := w.vars.drop bound.length } R ctx := by
    intro w hw
    have hhas : w.vars.map (fun x => (x.1, x.2.1)) = ctx.add vars := hw.has
    refine ⟨?_, fun x hx => hw.vars x (List.mem_of_mem_drop hx)⟩
    unfold World.Has
    rw [List.map_drop, hhas, Context.add, hlength]
    exact List.drop_left' (by simp)
  intro w hw
  have hhas : w.vars.map (fun x => (x.1, x.2.1)) = ctx := hw.has
  have hinner : World.Fits { w with vars := bound.reverse ++ w.vars } R (ctx.add vars) := by
    refine ⟨?_, fun x hx => ?_⟩
    · simp only [World.Has, List.map_append, List.map_reverse, hbound, hhas, Context.add]
    · rcases List.mem_append.mp hx with hx | hx
      · exact hfits x (List.mem_reverse.mp hx)
      · exact hw.vars x hx
  have hx := hx _ hinner
  simp only [EStateM.run, Eval.within] at hx ⊢
  revert hx
  cases x { w with vars := bound.reverse ++ w.vars } with
  | ok a w => exact fun hx => ⟨hdrop w hx.1, hx.2⟩
  | error e w =>
      intro hx
      cases e with
      | exit => exact hdrop w hx
      | trap e => exact hx
      | stuck => exact hx

end Ensures

end Eval

/-! ## Meanings under a regime -/

/-- A result whose value, if there is one, fits the type. -/
def Result.Fits (R : Regime) (ty : Ty) : Result → Prop
  | .nothing => True
  | .value v => R.fits ty v

/-- The default of a type fits it. -/
def Regime.Provides (R : Regime) (r : Registry) (ty : Ty) : Prop :=
  ∀ ctx, Eval.Ensures R ctx (Eval.defaultOf r ty) (R.fits ty)

/-- A value of the first type that becomes the result of a node of the second fits it. -/
def Regime.Widens (R : Regime) (source target : Ty) : Prop :=
  ∀ v, R.fits source v → R.fits target (v.wrapIf (target.isNullable && !source.isNullable))

/-- A meaning whose values fit its type; as a place it holds such values. -/
structure Meaning.Obeys (R : Regime) (ctx : Context) (d : Meaning) : Prop where
  eval : ∀ exits shape extend, Eval.Ensures R ctx (d.eval exits shape extend) (Result.Fits R d.ty)
  place : ∀ exits extend, Eval.Ensures R ctx (d.place exits extend) fun spot =>
    match spot with
    | .var id => ∀ ty, ctx.lookup id = some ty → ∀ v, R.fits ty v ↔ R.fits d.ty v

namespace Eval.Ensures

variable {R : Regime} {ctx : Context} {setting : Setting} {ty : Ty}

theorem yield {v : Value} (h : R.fits ty v) : Ensures R ctx (Eval.yield ty v) (Result.Fits R ty) := by
  unfold Eval.yield
  split
  · exact .stuck
  · exact .pure h

theorem default (hty : ty.isVoid = false → R.Provides setting.registry ty) :
    Ensures R ctx (Eval.default setting ty) (Result.Fits R ty) := by
  unfold Eval.default
  split
  · exact .pure trivial
  · next hvoid => exact .bind (hty (by simpa using hvoid) ctx) fun v hv => .pure hv

theorem landed {form : Form} (hty : form = .value → R.Provides setting.registry ty) :
    Ensures R ctx (Eval.landed setting ty form) (Result.Fits R ty) := by
  unfold Eval.landed
  cases form with
  | nothing => exact .pure trivial
  | value => exact .bind (hty rfl ctx) fun v hv => .pure hv
  | address => exact .stuck

/-- A result brought into a shape. -/
theorem adapt {result : Result} (h : result.Fits R ty) (shape : Shape) :
    Ensures R ctx (Eval.adapt ty result shape) (Result.Fits R ty) := by
  cases result with
  | nothing => exact .pure trivial
  | value v =>
      simp only [Eval.adapt]
      split
      · exact .pure trivial
      · split
        · exact .stuck
        · exact .pure h

/-- A variable. -/
theorem parameter (id : VarId) (shape : Shape) :
    Ensures R ctx (Eval.parameter id ty shape) (Result.Fits R ty) := by
  refine .bind (.lookup id) ?_
  rintro ⟨declared, v⟩ hv
  dsimp only
  split
  · exact .stuck
  · next hty =>
      simp only [ne_eq, Bool.or_eq_true, decide_eq_true_eq, not_or, Decidable.not_not] at hty
      exact .yield (hty.1 ▸ hv.2)

/-- Fresh variables. -/
theorem fresh {vars : List Variable} (h : ∀ v ∈ vars, R.Provides setting.registry v.ty) :
    Ensures R ctx (Eval.fresh setting vars) fun bound =>
      bound.map (fun x => (x.1, x.2.1)) = vars.map (fun v => (v.id, v.ty)) ∧
        ∀ x ∈ bound, R.fits x.2.1 x.2.2 := by
  induction vars with
  | nil => exact .pure ⟨rfl, fun _ hx => nomatch hx⟩
  | cons v vars ih =>
      simp only [Eval.fresh]
      split
      · exact .stuck
      · refine .bind (h v List.mem_cons_self ctx) fun zero hzero =>
          .bind (ih fun v hv => h v (List.mem_cons_of_mem _ hv)) ?_
        rintro bound ⟨hbound, hfits⟩
        exact .pure ⟨by simp [hbound], List.forall_mem_cons.mpr ⟨hzero, hfits⟩⟩

end Eval.Ensures

namespace Meaning.Obeys

open Eval

variable {R : Regime} {ctx : Context} {setting : Setting} {ty : Ty} {d : Meaning}

theorem value (hd : d.Obeys R ctx) (exits : Bool) : Ensures R ctx (d.value exits) (R.fits d.ty) := by
  refine .bind (hd.eval exits .value false) fun result hresult => ?_
  cases result with
  | nothing => exact .stuck
  | value v => exact .pure hresult

theorem effect (hd : d.Obeys R ctx) (exits : Bool) :
    Ensures R ctx (d.effect exits) fun _ => True := by
  refine .bind (hd.eval exits .nothing false) fun result _ => ?_
  cases result with
  | nothing => exact .pure trivial
  | value v => exact .stuck

theorem guarded (hd : d.Obeys R ctx)
    (hty : d.ty.isVoid = false → R.Provides setting.registry d.ty) (shape : Shape) :
    Ensures R ctx (guarded setting d shape) (Result.Fits R d.ty) := by
  refine .orLand (hd.eval _ shape false) (.landed fun hform => hty ?_)
  cases hvoid : d.ty.isVoid with
  | false => rfl
  | true => simp [Shape.form, hvoid] at hform

/-- The value of a meaning with a landing of its own. -/
theorem guardedValue (hd : d.Obeys R ctx)
    (hty : d.ty.isVoid = false → R.Provides setting.registry d.ty) :
    Ensures R ctx (guardedValue setting d) (R.fits d.ty) := by
  refine .bind (hd.guarded hty .value) fun result hresult => ?_
  cases result with
  | nothing => exact .stuck
  | value v => exact .pure hresult

theorem statement (hd : d.Obeys R ctx) : Ensures R ctx (statement setting d) fun _ => True := by
  refine .bind (p := fun _ => True)
    (.orLand ((hd.eval _ .nothing false).imp fun _ _ => trivial) (.pure trivial)) fun result _ => ?_
  cases result with
  | nothing => exact .pure trivial
  | value v => exact .stuck

theorem branch (hd : d.Obeys R ctx) {discard : Bool} (hty : discard = false → R.Widens d.ty ty)
    (exits : Bool) : Ensures R ctx (branch d ty exits discard) (Result.Fits R ty) := by
  unfold Eval.branch
  cases discard with
  | true => exact .bind (hd.effect exits) fun _ _ => .pure trivial
  | false => exact .bind (hd.value exits) fun v hv => .pure (hty rfl v hv)

/-! ## Layers -/

/-- A layer under a regime. -/
theorem ofKind {k : ExprKind Meaning}
    (hlayer : ∀ exits shape, Ensures R ctx (layer setting k ty exits shape) (Result.Fits R ty))
    (hplace : ∀ id, k = .parameter id → ∀ declared, ctx.lookup id = some declared →
      ∀ v, R.fits declared v ↔ R.fits ty v) :
    (Meaning.ofKind setting k ty).Obeys R ctx := by
  refine ⟨fun exits shape extend => ?_, fun exits extend => ?_⟩
  · change Ensures R ctx (if extend && k.isPlace && ty.isCreatable then stuck
      else (do let result ← layer setting k ty exits shape; adapt ty result shape)) (Result.Fits R ty)
    split
    · exact .stuck
    · exact .bind (hlayer exits shape) fun result hresult => .adapt hresult shape
  · change Ensures R ctx (placeOf k) _
    cases k with
    | parameter id => exact .pure (hplace id rfl)
    | _ => exact .stuck

/-- A conditional. -/
theorem conditional {test ifTrue ifFalse : Meaning} (htest : test.Obeys R ctx)
    (htrue : ifTrue.Obeys R ctx) (hfalse : ifFalse.Obeys R ctx)
    (hdefault : test.ty.isVoid = false → R.Provides setting.registry test.ty)
    (hty : ty.isVoid = false → R.Widens ifTrue.ty ty ∧ R.Widens ifFalse.ty ty) (exits : Bool)
    (shape : Shape) :
    Ensures R ctx (conditional setting test ifTrue ifFalse ty exits shape) (Result.Fits R ty) := by
  have hvalue : (ty.isVoid || decide (shape = .nothing)) = false → ty.isVoid = false := by
    simp only [Bool.or_eq_false_iff]
    exact And.left
  refine .bind (htest.guardedValue hdefault) fun t _ => ?_
  dsimp only
  split
  · exact htrue.branch (fun h => (hty (hvalue h)).1) exits
  · exact hfalse.branch (fun h => (hty (hvalue h)).2) exits

/-- Statements of a block. -/
theorem statements {ds : List Meaning} (hds : ∀ d ∈ ds, d.Obeys R ctx)
    (hnil : ty.isVoid = false → R.Provides setting.registry ty)
    (hlast : ∀ d, ds.getLast? = some d → ty.isVoid = false → d.ty ≠ ty → R.Widens d.ty ty)
    (exits : Bool) (shape : Shape) :
    Ensures R ctx (statements setting ty exits shape ds) (Result.Fits R ty) := by
  induction ds with
  | nil => exact .default hnil
  | cons d ds ih =>
      have hd := hds d List.mem_cons_self
      cases ds with
      | nil =>
          unfold Eval.statements
          split
          · exact .bind (hd.effect exits) fun _ _ => .pure trivial
          · next hvoid =>
              split
              · next hty => exact hty ▸ hd.eval exits shape false
              · next hty => exact hd.branch (fun _ => hlast d rfl (by simpa using hvoid) hty) exits
      | cons d' ds =>
          refine .bind hd.statement fun _ _ => ih (fun d hd => hds d (List.mem_cons_of_mem _ hd)) ?_
          intro last hlast' hvoid hty
          exact hlast last (by simpa using hlast') hvoid hty

theorem block {vars : List Variable} {ds : List Meaning}
    (hvars : ∀ v ∈ vars, R.Provides setting.registry v.ty)
    (hds : ∀ d ∈ ds, d.Obeys R (ctx.add vars))
    (hnil : ty.isVoid = false → R.Provides setting.registry ty)
    (hlast : ∀ d, ds.getLast? = some d → ty.isVoid = false → d.ty ≠ ty → R.Widens d.ty ty)
    (exits : Bool) (shape : Shape) :
    Ensures R ctx (block setting vars ds ty exits shape) (Result.Fits R ty) := by
  refine .bind (.fresh hvars) ?_
  rintro bound ⟨hbound, hfits⟩
  exact .within hbound hfits (statements hds hnil hlast exits shape)

/-- A tested value. -/
theorem matchesAny {subject : Ty} {v : Value} {tests : List Meaning}
    (htests : ∀ d ∈ tests, d.Obeys R ctx ∧
      (d.ty.isVoid = false → R.Provides setting.registry d.ty) ∧
      ∀ x, R.fits d.ty x →
        Ensures R ctx (binaryOn setting .eq false subject d.ty .bool v x) fun _ => True) :
    Ensures R ctx (matchesAny setting subject v tests) fun _ => True := by
  induction tests with
  | nil => exact .pure trivial
  | cons d tests ih =>
      obtain ⟨hd, hdefault, hequal⟩ := htests d List.mem_cons_self
      refine .bind (hd.guardedValue hdefault) fun x hx => .bind (hequal x hx) fun same _ => ?_
      split
      · exact .pure trivial
      · exact ih fun d hd => htests d (List.mem_cons_of_mem _ hd)

/-- A selected case. -/
theorem select {subject : Ty} {v : Value} {cases : List (SwitchCase Meaning)}
    (htests : ∀ c ∈ cases, ∀ d ∈ c.tests, d.Obeys R ctx ∧
      (d.ty.isVoid = false → R.Provides setting.registry d.ty) ∧
      ∀ x, R.fits d.ty x →
        Ensures R ctx (binaryOn setting .eq false subject d.ty .bool v x) fun _ => True) :
    Ensures R ctx (select setting subject v cases) fun chosen =>
      ∀ body, chosen = some body → ∃ c ∈ cases, body = c.body := by
  induction cases with
  | nil => exact .pure fun _ h => nomatch h
  | cons c cases ih =>
      refine .bind (matchesAny (htests c List.mem_cons_self)) fun found _ => ?_
      split
      · refine .pure fun body hbody => ?_
        cases hbody
        exact ⟨c, List.mem_cons_self, rfl⟩
      · refine (ih fun c hc => htests c (List.mem_cons_of_mem _ hc)).imp fun chosen h body hbody => ?_
        obtain ⟨c, hc, hbody⟩ := h body hbody
        exact ⟨c, List.mem_cons_of_mem _ hc, hbody⟩

theorem assigned (shape : Shape) {v : Value} (h : R.fits ty v) :
    Ensures R ctx (assigned ty shape v) (Result.Fits R ty) := by
  unfold Eval.assigned
  split
  · exact .pure trivial
  · exact .yield h

theorem load {spot : Spot} (hspot : match spot with
      | .var id => ∀ declared, ctx.lookup id = some declared →
          ∀ v, R.fits declared v ↔ R.fits ty v) :
    Ensures R ctx (load spot) (R.fits ty) := by
  cases spot with
  | var id => exact .bind (.lookup id) fun v hv => .pure ((hspot v.1 hv.1 v.2).mp hv.2)

theorem store {spot : Spot} {v : Value} (hspot : match spot with
      | .var id => ∀ declared, ctx.lookup id = some declared →
          ∀ v, R.fits declared v ↔ R.fits ty v) (hv : R.fits ty v) :
    Ensures R ctx (store spot v) fun _ => True := by
  cases spot with
  | var id => exact .writeVar fun declared hid => (hspot declared hid v).mpr hv

theorem replace {target value : Meaning} (htarget : target.Obeys R ctx) (hvalue : value.Obeys R ctx)
    (hcoerced : ∀ v, R.fits value.ty v → R.fits target.ty (coerced value.ty target.ty v))
    (extend exits : Bool) : Ensures R ctx (replace target value extend exits) (R.fits target.ty) :=
  .bind (htarget.place exits extend) fun _ hspot => .bind (hvalue.value exits) fun v hv =>
    .bind (store hspot (hcoerced v hv)) fun _ _ => .pure (hcoerced v hv)

theorem update {op : BinaryOp} {target value : Meaning} {checked : Bool}
    (htarget : target.Obeys R ctx) (hvalue : value.Obeys R ctx)
    (hop : ∀ old v, R.fits target.ty old → R.fits value.ty v →
      Ensures R ctx (binaryOn setting op checked target.ty value.ty target.ty old v)
        (R.fits target.ty)) (extend exits : Bool) :
    Ensures R ctx (update setting op target value checked extend exits) (R.fits target.ty) :=
  .bind (htarget.place exits extend) fun _ hspot => .bind (load hspot) fun old hold =>
    .bind (hvalue.value exits) fun v hv => .bind (hop old v hold hv) fun _ hnew =>
      .bind (store hspot hnew) fun _ _ => .pure hnew

/-- An increment or decrement. -/
theorem step {op : AssignOp} {target : Meaning} {checked : Bool} (htarget : target.Obeys R ctx)
    (hop : ∀ k old, target.ty.underlying.numKind? = some k → R.fits target.ty old →
      Ensures R ctx (stepped setting (Emit.stepOp op) k checked target.ty old) (R.fits target.ty))
    (extend exits : Bool) :
    Ensures R ctx (step setting op target checked extend exits) (R.fits target.ty) := by
  unfold Eval.step
  split
  · exact .stuck
  · next k hk =>
      refine .bind (htarget.place exits extend) fun spot hspot => .bind (load hspot) fun old hold =>
        .bind (hop k old hk hold) fun new hnew => .bind (store hspot hnew) fun _ _ => .pure ?_
      split
      · exact hold
      · exact hnew

/-- An assignment. -/
theorem assign {op : AssignOp} {target : Meaning} {value : Option Meaning} {checked : Bool}
    (hstep : op.isStep = true → value = none → ∀ extend exits,
      Ensures R ctx (Eval.step setting op target checked extend exits) (R.fits target.ty))
    (hreplace : ∀ v, value = some v → op.binary? = none → ∀ extend exits,
      Ensures R ctx (Eval.replace target v extend exits) (R.fits target.ty))
    (hupdate : ∀ v bin, value = some v → op.binary? = some bin → ∀ extend exits,
      Ensures R ctx (Eval.update setting bin target v checked extend exits) (R.fits target.ty))
    (autoExtend exits : Bool) (shape : Shape) :
    Ensures R ctx (assign setting op target value checked autoExtend ty exits shape)
      (Result.Fits R ty) := by
  unfold Eval.assign
  dsimp only
  split
  · exact .stuck
  · next hty =>
      obtain rfl : ty = target.ty := by simpa using hty
      split
      · next hop => exact .bind (hstep hop rfl _ exits) fun v hv => assigned shape hv
      · next v _ =>
          split
          · next hbin => exact .bind (hreplace v rfl hbin _ exits) fun v hv => assigned shape hv
          · next bin hbin => exact .bind (hupdate v bin rfl hbin _ exits) fun v hv => assigned shape hv
      · exact .stuck

end Meaning.Obeys

end Arbor
