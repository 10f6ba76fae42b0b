/-
  Checks only change runs that would have failed.

  Without checks no evaluation takes an exit, and a value that a check would
  have stopped at faults.  Whatever an evaluation without checks yields, the
  evaluation with checks therefore yields as well (`Kept`), and the code of the
  two compilations shows it.
-/
import Arbor.Proofs.SwitchDispatch

set_option autoImplicit false

namespace Arbor

/-- A setting in which nothing is checked. -/
structure Setting.Unchecked (setting : Setting) : Prop where
  nullChecks : setting.options.nullChecks = false
  boundsChecks : setting.options.boundsChecks = false

/-- The setting with another choice of checks. -/
def Setting.checking (setting : Setting) (nulls bounds : Bool) : Setting :=
  { setting with options := { setting.options with nullChecks := nulls, boundsChecks := bounds } }

namespace Eval

variable {α β γ δ : Type}

/-- The first evaluation takes no exit, and what it yields the second one yields as well. -/
def Kept (P : α → β → Prop) (x : Eval α) (y : Eval β) : Prop :=
  ∀ w, match x w with
    | .ok a u => ∃ b, y w = .ok b u ∧ P a b
    | .error .exit _ => False
    | .error _ _ => True

namespace Kept

/-- An evaluation that takes no exit is kept. -/
theorem of_eq {P : α → α → Prop} (hP : ∀ a, P a a) {x : Eval α}
    (hx : ∀ w u, x w ≠ .error .exit u) : Kept P x x := by
  intro w
  cases hrun : x w with
  | ok a u => exact ⟨a, rfl, hP a⟩
  | error e u =>
      cases e with
      | exit => exact (hx w u hrun).elim
      | trap e => trivial
      | stuck => trivial

theorem pure {P : α → β → Prop} {a : α} {b : β} (h : P a b) :
    Kept P (Pure.pure a : Eval α) (Pure.pure b : Eval β) :=
  fun _ => ⟨b, rfl, h⟩

theorem stuck {P : α → β → Prop} {y : Eval β} : Kept P stuck y := fun _ => trivial

/-- Evaluations one after the other. -/
theorem bind {P : α → β → Prop} {Q : γ → δ → Prop} {x : Eval α} {y : Eval β} {f : α → Eval γ}
    {g : β → Eval δ} (hx : Kept P x y) (hf : ∀ a b, P a b → Kept Q (f a) (g b)) :
    Kept Q (x >>= f) (y >>= g) := by
  intro w
  have hfirst := hx w
  change match EStateM.bind x f w with
    | .ok c u => ∃ d, EStateM.bind y g w = .ok d u ∧ Q c d
    | .error .exit _ => False
    | .error _ _ => True
  unfold EStateM.bind
  cases hrun : x w with
  | ok a u =>
      rw [hrun] at hfirst
      obtain ⟨b, hb, hab⟩ := hfirst
      rw [hb]
      exact hf a b hab u
  | error e u =>
      rw [hrun] at hfirst
      cases e <;> exact hfirst

/-- An exit is taken only where the first evaluation yields nothing. -/
theorem orExit {P : α → β → Prop} {condition : Bool} {x : Eval α} {y : Eval β}
    (hnone : condition = true → ∀ w a u, x w ≠ .ok a u) (h : Kept P x y) :
    Kept P x (if condition then Eval.exit else y) := by
  cases condition with
  | false => exact h
  | true =>
      intro w
      have h := h w
      cases hrun : x w with
      | ok a u => exact (hnone rfl w a u hrun).elim
      | error e u =>
          rw [hrun] at h
          cases e <;> exact h

theorem lift (x : Run α) : Kept Eq (lift x) (lift x) := by
  refine of_eq (fun _ => rfl) fun w u h => ?_
  unfold Eval.lift at h
  split at h <;> cases h

theorem lookup (id : VarId) : Kept Eq (lookup id) (lookup id) := by
  refine of_eq (fun _ => rfl) fun w u h => ?_
  unfold Eval.lookup at h
  split at h <;> cases h

theorem writeVar (id : VarId) (v : Value) : Kept Eq (writeVar id v) (writeVar id v) :=
  of_eq (fun _ => rfl) fun _ _ h => nomatch h

/-- Further variables. -/
theorem within {P : α → β → Prop} {x : Eval α} {y : Eval β} (vars : Vars) (h : Kept P x y) :
    Kept P (within vars x) (within vars y) := by
  intro w
  have h := h { w with vars := vars.reverse ++ w.vars }
  unfold Eval.within
  cases hrun : x { w with vars := vars.reverse ++ w.vars } with
  | ok a u =>
      rw [hrun] at h
      obtain ⟨b, hb, hab⟩ := h
      rw [hb]
      exact ⟨b, rfl, hab⟩
  | error e u =>
      rw [hrun] at h
      cases e <;> exact h

/-- Where no exit is taken, nothing lands. -/
theorem orLand {P : α → β → Prop} {x land : Eval α} {y land' : Eval β} (h : Kept P x y) :
    Kept P (orLand x land) (orLand y land') := by
  intro w
  have h := h w
  unfold Eval.orLand
  cases hrun : x w with
  | ok a u =>
      rw [hrun] at h
      obtain ⟨b, hb, hab⟩ := h
      rw [hb]
      exact ⟨b, rfl, hab⟩
  | error e u =>
      rw [hrun] at h
      cases e with
      | exit => exact h.elim
      | trap e => trivial
      | stuck => trivial

end Kept

end Eval

/-! ## Meanings -/

/-- What the first meaning yields without exits, the second one yields. -/
structure Meaning.Kept (d d' : Meaning) : Prop where
  expr : d'.expr = d.expr
  eval : ∀ exits shape extend, Eval.Kept Eq (d.eval false shape extend) (d'.eval exits shape extend)
  place : ∀ exits extend, Eval.Kept Eq (d.place false extend) (d'.place exits extend)

namespace Meaning.Kept

open Eval

variable {d d' : Meaning}

theorem ty (h : d.Kept d') : d'.ty = d.ty := congrArg Expr.ty h.expr

/-- The value of a meaning. -/
theorem value (h : d.Kept d') (exits : Bool) : Eval.Kept Eq (d.value false) (d'.value exits) := by
  refine .bind (h.eval exits .value false) ?_
  rintro result _ rfl
  cases result with
  | nothing => exact .stuck
  | value v => exact .pure rfl

/-- The effect of a meaning. -/
theorem effect (h : d.Kept d') (exits : Bool) : Eval.Kept Eq (d.effect false) (d'.effect exits) := by
  refine .bind (h.eval exits .nothing false) ?_
  rintro result _ rfl
  cases result with
  | nothing => exact .pure rfl
  | value v => exact .stuck

/-- A branch. -/
theorem branch (h : d.Kept d') (ty : Ty) (exits discard : Bool) :
    Eval.Kept Eq (branch d ty false discard) (branch d' ty exits discard) := by
  unfold Eval.branch
  rw [h.ty]
  cases discard with
  | true => exact .bind (h.effect exits) fun _ _ _ => .pure rfl
  | false =>
      refine .bind (h.value exits) ?_
      rintro v _ rfl
      exact .pure rfl

end Meaning.Kept

namespace Eval.Kept

variable {setting : Setting} {nulls bounds : Bool} {d d' l l' r r' : Meaning} {ty : Ty}

/-- A value of a type. -/
theorem yield (ty : Ty) (v : Value) : Kept Eq (yield ty v) (yield ty v) := by
  unfold Eval.yield
  split
  · exact .stuck
  · exact .pure rfl

/-- The default of a type. -/
theorem defaultOf (registry : Registry) (ty : Ty) :
    Kept Eq (defaultOf registry ty) (defaultOf registry ty) := by
  unfold Eval.defaultOf
  split
  · exact .lift _
  · exact .pure rfl

/-- What a layer without operands yields for a type. -/
theorem default (ty : Ty) :
    Kept Eq (default setting ty) (default (setting.checking nulls bounds) ty) := by
  unfold Eval.default
  split
  · exact .pure rfl
  · refine .bind (.defaultOf _ _) ?_
    rintro v _ rfl
    exact .pure rfl

/-- A body with a landing of its own. -/
theorem landing {body body' : Bool → Eval Result} (hs : setting.Unchecked)
    (h : ∀ exits, Kept Eq (body false) (body' exits)) (ty : Ty) (form : Form) :
    Kept Eq (landing setting ty form body)
      (landing (setting.checking nulls bounds) ty form body') := by
  have hexits : setting.options.usesExits = false := by
    simp [Options.usesExits, hs.nullChecks, hs.boundsChecks]
  unfold Eval.landing
  rw [hexits]
  exact .orLand (h _)

/-- A node with a landing of its own. -/
theorem guarded (hs : setting.Unchecked) (hd : d.Kept d') (shape : Shape) :
    Kept Eq (guarded setting d shape) (guarded (setting.checking nulls bounds) d' shape) := by
  unfold Eval.guarded
  rw [hd.ty]
  refine .landing hs ?_ _ _
  exact fun exits => hd.eval exits shape false

/-- The value of a node with a landing of its own. -/
theorem guardedValue (hs : setting.Unchecked) (hd : d.Kept d') :
    Kept Eq (guardedValue setting d) (guardedValue (setting.checking nulls bounds) d') := by
  refine .bind (.guarded hs hd .value) ?_
  rintro result _ rfl
  cases result with
  | nothing => exact .stuck
  | value v => exact .pure rfl

/-- A result in a shape. -/
theorem adapt (ty : Ty) (result : Result) (shape : Shape) :
    Kept Eq (adapt ty result shape) (adapt ty result shape) := by
  cases result with
  | nothing => exact .pure rfl
  | value v =>
      simp only [Eval.adapt]
      split
      · exact .pure rfl
      · split
        · exact .stuck
        · exact .pure rfl

/-! ## Operators -/

/-- A unary operator. -/
theorem unary (hd : d.Kept d') (op : UnaryOp) (checked : Bool) (exits : Bool) :
    Kept Eq (unary setting op d checked ty false)
      (unary (setting.checking nulls bounds) op d' checked ty exits) := by
  unfold Eval.unary
  rw [hd.ty]
  refine .bind (hd.value exits) ?_
  rintro v _ rfl
  cases v.payloadAt? d.ty with
  | none => exact .yield _ _
  | some x =>
      refine .bind (.lift _) ?_
      rintro y _ rfl
      exact .yield _ _

/-- A binary operator on values. -/
theorem binaryOn (op : BinaryOp) (checked : Bool) (left right ty : Ty) (a b : Value) :
    Kept Eq (binaryOn setting op checked left right ty a b)
      (binaryOn (setting.checking nulls bounds) op checked left right ty a b) := by
  unfold Eval.binaryOn
  cases a.payloadAt? left with
  | none => exact .pure rfl
  | some x =>
      cases b.payloadAt? right with
      | none => exact .pure rfl
      | some y =>
          refine .bind (.lift _) ?_
          rintro v _ rfl
          exact .pure rfl

/-- A binary operator. -/
theorem binary (hl : l.Kept l') (hr : r.Kept r') (op : BinaryOp) (checked exits : Bool) :
    Kept Eq (binary setting op l r checked ty false)
      (binary (setting.checking nulls bounds) op l' r' checked ty exits) := by
  unfold Eval.binary
  rw [hl.ty, hr.ty]
  refine .bind (hl.value exits) ?_
  rintro a _ rfl
  refine .bind (hr.value exits) ?_
  rintro b _ rfl
  refine .bind (.binaryOn _ _ _ _ _ _ _) ?_
  rintro v _ rfl
  exact .yield _ _

/-- A short-circuit operator. -/
theorem logical (hl : l.Kept l') (hr : r.Kept r') (op : LogicalOp) (exits : Bool) :
    Kept Eq (logical op l r ty false) (logical op l' r' ty exits) := by
  unfold Eval.logical
  rw [hl.ty, hr.ty]
  refine .bind (hl.value exits) ?_
  rintro a _ rfl
  split
  · split
    · exact .yield _ _
    · refine .bind (hr.value exits) ?_
      rintro b _ rfl
      unfold combined
      split
      · exact .yield _ _
      · split <;> exact .yield _ _
  · split
    · exact .yield _ _
    · refine .bind (hr.value exits) ?_
      rintro b _ rfl
      exact .yield _ _

/-- What is inside an optional. -/
theorem payloadIf (condition : Bool) (v : Value) :
    Kept Eq (payloadIf setting condition v)
      (payloadIf (setting.checking nulls bounds) condition v) := by
  unfold Eval.payloadIf
  split
  · exact .lift _
  · exact .pure rfl

/-- Coalescing. -/
theorem coalesce (hs : setting.Unchecked) (hl : l.Kept l') (hr : r.Kept r') (exits : Bool) :
    Kept Eq (coalesce setting l r ty false)
      (coalesce (setting.checking nulls bounds) l' r' ty exits) := by
  unfold Eval.coalesce
  rw [hl.ty, hr.ty]
  refine .bind (.guardedValue hs hl) ?_
  rintro a _ rfl
  split
  · refine .bind (hr.value exits) ?_
    rintro b _ rfl
    exact .yield _ _
  · refine .bind (.payloadIf _ _) ?_
    rintro v _ rfl
    exact .yield _ _

/-! ## Members and conversions -/

/-- Raising a fault yields nothing. -/
theorem raise_ne_ok {α : Type} {registry : Registry} {f : Fault} {s t : State} {a : α} :
    Run.raise registry f s ≠ .ok a t := by
  intro h
  unfold Run.raise Run.throwNew at h
  change EStateM.bind (Run.allocObject registry _) _ s = _ at h
  unfold EStateM.bind at h
  split at h <;> cases h

/-- An absent value has no content. -/
theorem isAbsent_of_payloadOf {registry : Registry} {v content : Value} {s t : State}
    (h : Run.payloadOf registry v s = .ok content t) : v.isAbsent = false := by
  cases v with
  | absent => exact (raise_ne_ok h).elim
  | null => exact (raise_ne_ok h).elim
  | _ => rfl

/-- The content of an optional: where it is absent the first evaluation faults, so that the second
takes no exit where the first yields a value. -/
theorem content (hd : d.Kept d') (exits : Bool) :
    Kept Eq (member setting (some d) .value ty false)
      (member (setting.checking nulls bounds) (some d') .value ty exits) := by
  refine .bind (hd.value exits) ?_
  rintro v _ rfl
  simp only [Bool.and_false, Bool.false_and, Bool.false_eq_true, if_false]
  refine .orExit ?_ (.bind (.lift _) ?_)
  · intro hcheck w a u hrun
    have hpresent : v.isAbsent = false := by
      change EStateM.bind (Eval.lift (Run.payloadOf setting.registry v)) _ w = _ at hrun
      unfold EStateM.bind Eval.lift at hrun
      cases hpayload : Run.payloadOf setting.registry v ⟨w.heap, [], w.statics⟩ with
      | ok x s => exact isAbsent_of_payloadOf hpayload
      | error e s =>
          rw [hpayload] at hrun
          cases hrun
    simp [hpresent] at hcheck
  · rintro y _ rfl
    exact .yield _ _

/-- A member. -/
theorem member {receiver receiver' : Option Meaning}
    (h : Option.Rel Meaning.Kept receiver receiver') (m : Member) (exits : Bool) :
    Kept Eq (member setting receiver m ty false)
      (member (setting.checking nulls bounds) receiver' m ty exits) := by
  cases h with
  | none => exact .stuck
  | some hd =>
      cases m with
      | hasValue =>
          refine .bind (hd.value exits) ?_
          rintro v _ rfl
          exact .yield _ _
      | value => exact .content hd exits
      | _ => exact .stuck

/-- A number in another kind. -/
theorem convertNum (source target : NumKind) (checked : Bool) (v : Value) :
    Kept Eq (convertNum setting source target checked v)
      (convertNum (setting.checking nulls bounds) source target checked v) := by
  unfold Eval.convertNum
  split
  · exact .pure rfl
  · exact .lift _

/-- A conversion. -/
theorem convert (hd : d.Kept d') (checked exits : Bool) :
    Kept Eq (convert setting d checked ty false)
      (convert (setting.checking nulls bounds) d' checked ty exits) := by
  unfold Eval.convert
  rw [hd.ty]
  split
  · unfold Eval.numericConversion
    rw [hd.ty]
    refine .bind (hd.value exits) ?_
    rintro v _ rfl
    split
    · cases v.payload? with
      | none => exact .yield _ _
      | some x =>
          refine .bind (.convertNum _ _ _ _) ?_
          rintro y _ rfl
          exact .yield _ _
    · refine .bind (.payloadIf _ _) ?_
      rintro x _ rfl
      refine .bind (.convertNum _ _ _ _) ?_
      rintro y _ rfl
      exact .yield _ _
  · exact .stuck

end Eval.Kept

namespace Eval.Kept

variable {setting : Setting} {nulls bounds : Bool} {ty : Ty}

/-! ## Control flow -/

/-- A conditional. -/
theorem conditional {t t' l l' r r' : Meaning} (hs : setting.Unchecked) (ht : t.Kept t')
    (hl : l.Kept l') (hr : r.Kept r') (exits : Bool) (shape : Shape) :
    Kept Eq (conditional setting t l r ty false shape)
      (conditional (setting.checking nulls bounds) t' l' r' ty exits shape) := by
  unfold Eval.conditional
  rw [ht.ty]
  refine .bind (.guardedValue hs ht) ?_
  rintro v _ rfl
  split
  · exact hl.branch ty exits _
  · exact hr.branch ty exits _

/-- The tests of a case. -/
theorem matchesAny {tests tests' : List Meaning} (hs : setting.Unchecked)
    (h : List.Forall₂ Meaning.Kept tests tests') (subject : Ty) (v : Value) :
    Kept Eq (matchesAny setting subject v tests)
      (matchesAny (setting.checking nulls bounds) subject v tests') := by
  induction h with
  | nil => exact .pure rfl
  | cons htest _ ih =>
      unfold Eval.matchesAny
      rw [htest.ty]
      refine .bind (.guardedValue hs htest) ?_
      rintro x _ rfl
      refine .bind (.binaryOn _ _ _ _ _ _ _) ?_
      rintro same _ rfl
      split
      · exact .pure rfl
      · exact ih

/-- The selected case. -/
theorem select {cases cases' : List (SwitchCase Meaning)} (hs : setting.Unchecked)
    (h : List.Forall₂ (fun c c' => List.Forall₂ Meaning.Kept c.tests c'.tests ∧
      c.body.Kept c'.body) cases cases') (subject : Ty) (v : Value) :
    Kept (Option.Rel Meaning.Kept) (select setting subject v cases)
      (select (setting.checking nulls bounds) subject v cases') := by
  induction h with
  | nil => exact .pure .none
  | cons hcase _ ih =>
      refine .bind (.matchesAny hs hcase.1 _ _) ?_
      rintro found _ rfl
      cases found with
      | true => exact .pure (.some hcase.2)
      | false => exact ih

/-- A statement. -/
theorem statement {d d' : Meaning} (hs : setting.Unchecked) (hd : d.Kept d') :
    Kept Eq (statement setting d) (statement (setting.checking nulls bounds) d') := by
  unfold Eval.statement
  refine .bind (.landing hs ?_ _ _) ?_
  · exact fun exits => hd.eval exits .nothing false
  · rintro result _ rfl
    cases result with
    | nothing => exact .pure rfl
    | value v => exact .stuck

/-- The statements of a block. -/
theorem statements {body body' : List Meaning} (hs : setting.Unchecked)
    (h : List.Forall₂ Meaning.Kept body body') (exits : Bool) (shape : Shape) :
    Kept Eq (statements setting ty false shape body)
      (statements (setting.checking nulls bounds) ty exits shape body') := by
  induction h with
  | nil => exact .default ty
  | @cons d d' rest rest' hd hrest ih =>
      cases hrest with
      | nil =>
          simp only [Eval.statements, hd.ty]
          split
          · exact .bind (hd.effect exits) fun _ _ _ => .pure rfl
          · split
            · exact hd.eval exits shape false
            · exact hd.branch ty exits false
      | cons => exact .bind (.statement hs hd) fun _ _ _ => ih

/-- New variables. -/
theorem fresh (vars : List Variable) :
    Kept Eq (fresh setting vars) (fresh (setting.checking nulls bounds) vars) := by
  induction vars with
  | nil => exact .pure rfl
  | cons v vars ih =>
      unfold Eval.fresh
      split
      · exact .stuck
      · refine .bind (.defaultOf _ _) ?_
        rintro zero _ rfl
        refine .bind ih ?_
        rintro rest _ rfl
        exact .pure rfl

/-! ## Assignments -/

variable {d d' value value' : Meaning}

/-- The value of a place. -/
theorem load (spot : Spot) : Kept Eq (load spot) (load spot) := by
  cases spot with
  | var id =>
      refine .bind (.lookup id) ?_
      rintro v _ rfl
      exact .pure rfl

theorem store (spot : Spot) (v : Value) : Kept Eq (store spot v) (store spot v) := by
  cases spot with
  | var id => exact .writeVar id v

/-- What an assignment leaves. -/
theorem assigned (shape : Shape) (v : Value) :
    Kept Eq (assigned ty shape v) (assigned ty shape v) := by
  unfold Eval.assigned
  split
  · exact .pure rfl
  · exact .yield _ _

/-- A plain assignment. -/
theorem replace (hd : d.Kept d') (hvalue : value.Kept value') (extend exits : Bool) :
    Kept Eq (replace d value extend false) (replace d' value' extend exits) := by
  unfold Eval.replace
  rw [hd.ty, hvalue.ty]
  refine .bind (hd.place exits extend) ?_
  rintro spot _ rfl
  refine .bind (hvalue.value exits) ?_
  rintro v _ rfl
  exact .bind (.store _ _) fun _ _ _ => .pure rfl

/-- An assignment with an operator. -/
theorem update (hd : d.Kept d') (hvalue : value.Kept value') (op : BinaryOp)
    (checked extend exits : Bool) :
    Kept Eq (update setting op d value checked extend false)
      (update (setting.checking nulls bounds) op d' value' checked extend exits) := by
  unfold Eval.update
  rw [hd.ty, hvalue.ty]
  refine .bind (hd.place exits extend) ?_
  rintro spot _ rfl
  refine .bind (.load spot) ?_
  rintro old _ rfl
  refine .bind (hvalue.value exits) ?_
  rintro v _ rfl
  refine .bind (.binaryOn _ _ _ _ _ _ _) ?_
  rintro new _ rfl
  exact .bind (.store _ _) fun _ _ _ => .pure rfl

/-- A stepped value. -/
theorem stepped (op : ArithOp) (k : NumKind) (checked : Bool) (old : Value) :
    Kept Eq (stepped setting op k checked ty old)
      (stepped (setting.checking nulls bounds) op k checked ty old) := by
  unfold Eval.stepped
  cases old.payloadAt? ty with
  | none => exact .pure rfl
  | some x =>
      refine .bind (.lift _) ?_
      rintro y _ rfl
      exact .pure rfl

/-- A step. -/
theorem step (hd : d.Kept d') (op : AssignOp) (checked extend exits : Bool) :
    Kept Eq (step setting op d checked extend false)
      (step (setting.checking nulls bounds) op d' checked extend exits) := by
  unfold Eval.step
  rw [hd.ty]
  split
  · exact .stuck
  · refine .bind (hd.place exits extend) ?_
    rintro spot _ rfl
    refine .bind (.load spot) ?_
    rintro old _ rfl
    refine .bind (.stepped _ _ _ _) ?_
    rintro new _ rfl
    exact .bind (.store _ _) fun _ _ _ => .pure rfl

/-- An assignment. -/
theorem assign (hd : d.Kept d') {value value' : Option Meaning}
    (hvalue : Option.Rel Meaning.Kept value value') (op : AssignOp) (checked autoExtend exits : Bool)
    (shape : Shape) :
    Kept Eq (assign setting op d value checked autoExtend ty false shape)
      (assign (setting.checking nulls bounds) op d' value' checked autoExtend ty exits shape) := by
  unfold Eval.assign
  rw [hd.ty]
  split
  · exact .stuck
  · cases hvalue with
    | none =>
        cases op.isStep with
        | false => exact .stuck
        | true =>
            refine .bind (.step hd _ _ _ _) ?_
            rintro v _ rfl
            exact .assigned _ _
    | some hvalue =>
        cases op.isStep with
        | true => exact .stuck
        | false =>
            cases op.binary? with
            | none =>
                refine .bind (.replace hd hvalue _ _) ?_
                rintro v _ rfl
                exact .assigned _ _
            | some bin =>
                refine .bind (.update hd hvalue _ _ _ _) ?_
                rintro v _ rfl
                exact .assigned _ _

end Eval.Kept

/-! ## Trees -/

section

variable {setting : Setting} {nulls bounds : Bool}

/-- Meanings of listed operands are kept one by one. -/
theorem Meaning.kept_list {es : List Expr}
    (h : ∀ e ∈ es, (e.toMeaning setting).Kept (e.toMeaning (setting.checking nulls bounds))) :
    List.Forall₂ Meaning.Kept (es.map (Expr.toMeaning setting))
      (es.map (Expr.toMeaning (setting.checking nulls bounds))) := by
  rw [List.forall₂_map_left_iff, List.forall₂_map_right_iff, List.forall₂_same]
  exact h

/-- Meanings of cases are kept one by one. -/
theorem Meaning.kept_cases {cs : List (SwitchCase Expr)}
    (h : ∀ e ∈ cs.flatMap fun c => c.tests ++ [c.body],
      (e.toMeaning setting).Kept (e.toMeaning (setting.checking nulls bounds))) :
    List.Forall₂ (fun c c' => List.Forall₂ Meaning.Kept c.tests c'.tests ∧ c.body.Kept c'.body)
      (cs.map (SwitchCase.map (Expr.toMeaning setting)))
      (cs.map (SwitchCase.map (Expr.toMeaning (setting.checking nulls bounds)))) := by
  rw [List.forall₂_map_left_iff, List.forall₂_map_right_iff, List.forall₂_same]
  intro c hc
  refine ⟨kept_list fun e he => ?_, ?_⟩
  · exact h e (List.mem_flatMap.mpr ⟨c, hc, List.mem_append_left _ he⟩)
  · exact h c.body (List.mem_flatMap.mpr ⟨c, hc, by simp⟩)

/-- The meaning of an operand that may be missing is kept. -/
theorem Meaning.kept_option {o : Option Expr}
    (h : ∀ e ∈ o.toList, (e.toMeaning setting).Kept (e.toMeaning (setting.checking nulls bounds))) :
    Option.Rel Meaning.Kept (o.map (Expr.toMeaning setting))
      (o.map (Expr.toMeaning (setting.checking nulls bounds))) := by
  cases o with
  | none => exact .none
  | some e => exact .some (h e List.mem_cons_self)

/-- A switch. -/
theorem Eval.Kept.switch {value value' : Meaning} {cases cases' : List (SwitchCase Meaning)}
    {fallback fallback' : Option Meaning} (hs : setting.Unchecked) (hvalue : value.Kept value')
    (hcases : List.Forall₂ (fun c c' => List.Forall₂ Meaning.Kept c.tests c'.tests ∧
      c.body.Kept c'.body) cases cases') (hfallback : Option.Rel Meaning.Kept fallback fallback')
    (ty : Ty) (exits : Bool) :
    Kept Eq (switch setting value cases fallback ty false)
      (switch (setting.checking nulls bounds) value' cases' fallback' ty exits) := by
  have htests : cases'.flatMap (fun c => c.tests.map (·.expr)) =
      cases.flatMap fun c => c.tests.map (·.expr) := by
    induction hcases with
    | nil => rfl
    | cons hcase _ ih =>
        have hexprs : ∀ {ds ds' : List Meaning}, List.Forall₂ Meaning.Kept ds ds' →
            ds'.map (·.expr) = ds.map (·.expr) := by
          intro ds ds' hds
          induction hds with
          | nil => rfl
          | cons hd _ ih => rw [List.map_cons, hd.expr, ih, List.map_cons]
        rw [List.flatMap_cons, List.flatMap_cons, ih, hexprs hcase.1]
  unfold Eval.switch
  rw [hvalue.ty, htests]
  refine .bind (hvalue.value exits) ?_
  rintro v _ rfl
  split
  · exact .stuck
  · refine .bind (.select hs hcases _ _) ?_
    intro found found' hfound
    cases hfound with
    | some hbody => exact hbody.branch ty exits _
    | none =>
        cases hfallback with
        | some hbody => exact hbody.branch ty exits _
        | none => exact .default ty

/-- A layer whose operands are kept. -/
theorem Eval.Kept.layer (hs : setting.Unchecked) {k : ExprKind Expr} (ty : Ty)
    (h : ∀ operand ∈ k.operands, (operand.toMeaning setting).Kept
      (operand.toMeaning (setting.checking nulls bounds))) (exits : Bool) (shape : Shape) :
    Kept Eq (layer setting (k.map (Expr.toMeaning setting)) ty false shape)
      (layer (setting.checking nulls bounds)
        (k.map (Expr.toMeaning (setting.checking nulls bounds))) ty exits shape) := by
  cases k with
  | constant value =>
      simp only [ExprKind.map, Eval.layer, Eval.constant]
      split
      · exact .default ty
      · exact .yield _ _
  | default => exact .default ty
  | parameter id =>
      refine .bind (.lookup id) ?_
      rintro ⟨declared, v⟩ _ rfl
      simp only []
      split
      · exact .stuck
      · exact .yield _ _
  | member receiver m => exact .member (Meaning.kept_option h) m exits
  | unary op operand checked method =>
      cases method with
      | none => exact .unary (h operand List.mem_cons_self) _ _ _
      | some m => exact .stuck
  | binary op left right checked method =>
      cases method with
      | none =>
          exact .binary (h left List.mem_cons_self)
            (h right (by simp [ExprKind.operands, ExprKind.children])) _ _ _
      | some m => exact .stuck
  | logical op left right =>
      exact .logical (h left List.mem_cons_self)
        (h right (by simp [ExprKind.operands, ExprKind.children])) _ _
  | coalesce left right =>
      exact .coalesce hs (h left List.mem_cons_self)
        (h right (by simp [ExprKind.operands, ExprKind.children])) _
  | conditional test ifTrue ifFalse =>
      exact .conditional hs (h test List.mem_cons_self)
        (h ifTrue (by simp [ExprKind.operands, ExprKind.children]))
        (h ifFalse (by simp [ExprKind.operands, ExprKind.children])) _ _
  | block vars body =>
      refine .bind (.fresh vars) ?_
      rintro bound _ rfl
      exact .within bound (.statements hs (Meaning.kept_list h) exits shape)
  | switch value cases fallback comparison =>
      cases comparison with
      | none =>
          refine .switch hs (h value List.mem_cons_self) (Meaning.kept_cases fun e he => h e ?_)
            (Meaning.kept_option fun e he => h e ?_) ty exits
          · simp only [ExprKind.operands, ExprKind.children, List.mem_cons, List.mem_append]
            exact .inl (.inr he)
          · simp only [ExprKind.operands, ExprKind.children, List.mem_cons, List.mem_append]
            exact .inr he
      | some m => exact .stuck
  | assign op target value checked autoExtend =>
      exact .assign (h target List.mem_cons_self)
        (Meaning.kept_option fun e he => h e (List.mem_cons_of_mem _ he)) _ _ _ _ _
  | convert operand checked method =>
      cases method with
      | none => exact .convert (h operand List.mem_cons_self) _ _
      | some m => exact .stuck
  | _ => exact .stuck

/-- Whatever the evaluation of a tree yields without checks, it yields with them. -/
theorem Expr.kept_toMeaning (hs : setting.Unchecked) (e : Expr) :
    (e.toMeaning setting).Kept (e.toMeaning (setting.checking nulls bounds)) := by
  induction e using Expr.induct with
  | node k ty ih =>
      refine ⟨by rw [toMeaning_expr, toMeaning_expr], ?_, ?_⟩
      · intro exits shape extend
        simp only [toMeaning_node, Meaning.ofKind, ExprKind.isPlace_map]
        split
        · exact .stuck
        · refine .bind (.layer hs ty ih exits shape) ?_
          rintro result _ rfl
          exact .adapt _ _ _
      · intro exits extend
        simp only [toMeaning_node, Meaning.ofKind]
        cases k with
        | parameter id => exact .pure rfl
        | _ => exact .stuck

/-- A call that returns a value without checks returns it with them. -/
theorem Lambda.evaluate_checking (hs : setting.Unchecked) {l : Lambda Expr} {args : List Value}
    {h : Heap} {st : Statics} {v : Value} {w : World}
    (heval : l.evaluate setting args h st = .ok v w) :
    l.evaluate (setting.checking nulls bounds) args h st = .ok v w := by
  have hbody : Meaning.Kept (l.body.toMeaning setting)
      (l.body.toMeaning (setting.checking nulls bounds)) := l.body.kept_toMeaning hs
  have hkept : Eval.Kept Eq (Eval.function setting (l.map (Expr.toMeaning setting)))
      (Eval.function (setting.checking nulls bounds)
        (l.map (Expr.toMeaning (setting.checking nulls bounds)))) := by
    cases hvoid : l.ret.isVoid with
    | true =>
        simp only [Eval.function, Lambda.map, hvoid, if_true]
        refine .bind (.guarded hs hbody .nothing) ?_
        rintro result _ rfl
        cases result with
        | nothing => exact .pure rfl
        | value v => exact .stuck
    | false =>
        simp only [Eval.function, Lambda.map, hvoid, Bool.false_eq_true, if_false, hbody.ty]
        refine .bind (.guardedValue hs hbody) ?_
        rintro v _ rfl
        exact .pure rfl
  have hkept := hkept ⟨h.outline, st, l.bound args⟩
  change Eval.function setting _ _ = _ at heval
  rw [heval] at hkept
  obtain ⟨_, hrun, rfl⟩ := hkept
  exact hrun

end

namespace Machine

/-- Where a direct function compiled without checks returns a value, it returns the same value with
the same effects when it is compiled with checks. -/
theorem invoke_checking {setting : Setting} (hs : setting.Unchecked) {nulls bounds : Bool}
    {l : Lambda Expr} (hdirect : l.body.isDirect = true) {c c' : CompiledUnit}
    (hcompile : (compile setting l).result = .ok c)
    (hcompile' : (compile (setting.checking nulls bounds) l).result = .ok c')
    (hlimits : c.routine.WithinLimits) (hlimits' : c'.routine.WithinLimits)
    {captured args : List Value} (hcaptured : captured.length = l.hidden.count)
    (hargs : args.length = l.params.length) {s : State}
    (hdepth : s.frames.length < Run.maxCallDepth)
    (hstuck : ∀ w, l.evaluate setting args s.heap s.statics ≠ .error .stuck w) :
    ∃ enough, ∀ budget, enough ≤ budget → ∀ v u,
      invokeWithin budget setting.registry ⟨c.routine, captured⟩ args s = (.ok v, u) →
      ∃ u', invokeWithin budget setting.registry ⟨c'.routine, captured⟩ args s = (.ok v, u') ∧
        u'.heap.outline = u.heap.outline ∧ u'.statics = u.statics := by
  obtain ⟨first, hfirst⟩ :=
    shows_of_compiled hcompile hdirect hlimits hcaptured hargs hdepth hstuck
  cases heval : l.evaluate setting args s.heap s.statics with
  | error e w =>
      -- A run that shows a failed evaluation returns no value.
      refine ⟨first, fun budget hbudget v u hrun => ?_⟩
      have hshows := hfirst budget hbudget
      rw [heval, hrun] at hshows
      cases e with
      | trap e => exact nomatch hshows.1
      | exit => exact hshows.elim
      | stuck => exact hshows.elim
  | ok x w =>
      have heval' : l.evaluate (setting.checking nulls bounds) args s.heap s.statics = .ok x w :=
        Lambda.evaluate_checking hs heval
      have hstuck' : ∀ w, l.evaluate (setting.checking nulls bounds) args s.heap s.statics ≠
          .error .stuck w := by
        intro w hw
        cases heval'.symm.trans hw
      obtain ⟨second, hsecond⟩ :=
        shows_of_compiled hcompile' hdirect hlimits' hcaptured hargs hdepth hstuck'
      refine ⟨max first second, fun budget hbudget v u hrun => ?_⟩
      have hshows := hfirst budget (by omega)
      have hshows' := hsecond budget (by omega)
      rw [heval, hrun] at hshows
      rw [heval'] at hshows'
      obtain ⟨hvalue, hheap, hstatics⟩ := hshows
      obtain ⟨hvalue', hheap', hstatics'⟩ := hshows'
      cases hvalue
      exact ⟨_, Prod.ext hvalue' rfl, hheap'.symm.trans hheap, hstatics'.symm.trans hstatics⟩

/-- The content of an optional integer, plus one. -/
def successor : Lambda Expr :=
  let x : Variable := ⟨0, "x", .nullable .int⟩
  ⟨"successor", [x], .int,
    Tree.binary .add (Tree.value (Tree.var x)) (.node (.constant (.num (.i32 1))) .int),
    ⟨false, false⟩⟩

set_option maxRecDepth 4000 in
/-- The successor of a present integer is returned without checks, and with them. -/
theorem invoke_successor :
    ∃ c c', (compile ⟨.builtin, .strict⟩ successor).result = .ok c ∧
      (compile (Setting.checking ⟨.builtin, .strict⟩ true true) successor).result = .ok c' ∧
      ∃ enough, ∀ budget, enough ≤ budget →
        (invokeWithin budget .builtin ⟨c.routine, []⟩ [.present (.int 3)] .initial).1 = .ok (.int 4) ∧
        (invokeWithin budget .builtin ⟨c'.routine, []⟩ [.present (.int 3)] .initial).1 =
          .ok (.int 4) := by
  obtain ⟨c, hc⟩ : ∃ c, (compile ⟨.builtin, .strict⟩ successor).result = .ok c := ⟨_, rfl⟩
  obtain ⟨c', hc'⟩ : ∃ c, (compile (Setting.checking ⟨.builtin, .strict⟩ true true)
    successor).result = .ok c := ⟨_, rfl⟩
  have hcompiled : (match (compile ⟨.builtin, .strict⟩ successor).result,
      (compile (Setting.checking ⟨.builtin, .strict⟩ true true) successor).result with
      | .ok c, .ok c' => decide (c.routine.WithinLimits ∧ c'.routine.WithinLimits)
      | _, _ => false) = true := by decide +kernel
  rw [hc, hc'] at hcompiled
  obtain ⟨hlimits, hlimits'⟩ := of_decide_eq_true hcompiled
  have hdirect : successor.body.isDirect = true := rfl
  have hcaptured : ([] : List Value).length = successor.hidden.count := rfl
  have hargs : [Value.present (.int 3)].length = successor.params.length := rfl
  have hdepth : State.initial.frames.length < Run.maxCallDepth := by decide
  have hvalue : successor.evaluate ⟨.builtin, .strict⟩ [.present (.int 3)] State.initial.heap
      State.initial.statics =
        .ok (.int 4) ⟨.outline .empty, [], successor.bound [.present (.int 3)]⟩ := rfl
  have hstuck : ∀ w, successor.evaluate ⟨.builtin, .strict⟩ [.present (.int 3)] State.initial.heap
      State.initial.statics ≠ .error .stuck w := fun w hw => nomatch hvalue.symm.trans hw
  obtain ⟨first, hfirst⟩ := shows_of_compiled hc hdirect hlimits hcaptured hargs hdepth hstuck
  obtain ⟨second, hsecond⟩ := invoke_checking ⟨rfl, rfl⟩ hdirect hc hc' hlimits hlimits' hcaptured
    hargs hdepth hstuck
  refine ⟨c, c', hc, hc', max first second, fun budget hbudget => ?_⟩
  have hreturns := (hfirst budget (by omega)).1
  obtain ⟨u, hrun, -⟩ := hsecond budget (by omega) _ _ (Prod.ext hreturns rfl)
  exact ⟨hreturns, congrArg Prod.fst hrun⟩

end Machine

end Arbor
