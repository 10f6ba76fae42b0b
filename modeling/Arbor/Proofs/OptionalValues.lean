/-
  Optionals are represented by their types.

  Where no node passes an optional on as the value of a node that is none, a node
  of an optional type evaluates to an optional and every other node to a value that
  is none; an optional that is assigned to a variable of type object is boxed to
  what is inside, or to null.  The conditions are local to a node: they compare
  its type with the types of its operands.
-/
import Arbor.Proofs.Simulation.Functions
import Arbor.Proofs.Simulation.Regimes

set_option autoImplicit false

namespace Arbor

/-! ## Representation -/

namespace Value

/-- Whether a value is an optional. -/
def isOptional : Value → Bool
  | absent | present _ => true
  | _ => false

/-- Whether a value is represented as its type says: an optional exactly where the type is one, with
no optional inside. -/
def agrees : Value → Ty → Bool
  | absent, ty => ty.isNullable
  | present v, ty => ty.isNullable && !v.isOptional
  | _, ty => !ty.isNullable

theorem agrees_iff_of_not_nullable {v : Value} {ty : Ty} (h : ty.isNullable = false) :
    v.agrees ty = true ↔ v.isOptional = false := by
  cases v <;> simp [agrees, isOptional, h]

/-- What is inside a value is no optional; only an optional can be absent. -/
theorem agrees_payloadAt? {v : Value} {ty : Ty} (h : v.agrees ty = true) :
    (∀ x, v.payloadAt? ty = some x → x.isOptional = false) ∧
      (v.payloadAt? ty = none → ty.isNullable = true) := by
  unfold payloadAt?
  cases hty : ty.isNullable with
  | false =>
      refine ⟨fun x hx => ?_, fun hx => by cases hx⟩
      cases hx
      exact (agrees_iff_of_not_nullable hty).mp h
  | true =>
      refine ⟨fun x hx => ?_, fun _ => rfl⟩
      cases v with
      | present y =>
          cases hx
          simpa [agrees, hty] using h
      | absent => cases hx
      | _ => simp [agrees, hty] at h

/-- A value that is no optional becomes one where the type is one. -/
theorem agrees_wrapIf {v : Value} {ty : Ty} (h : v.isOptional = false) :
    (v.wrapIf ty.isNullable).agrees ty = true := by
  cases hty : ty.isNullable with
  | false => exact (agrees_iff_of_not_nullable hty).mpr h
  | true =>
      cases v with
      | absent | present _ => cases h
      | _ => simp [wrapIf, wrapped, agrees, isOptional, hty]

theorem agrees_congr {v : Value} {ty other : Ty} (h : ty.isNullable = other.isNullable) :
    v.agrees ty = v.agrees other := by
  cases v <;> simp [agrees, h]

theorem agrees_absent {ty : Ty} (h : ty.isNullable = true) : absent.agrees ty = true := h

theorem isOptional_ofLiteral (value : Literal) : (ofLiteral value).isOptional = false := by
  cases value <;> rfl

/-- A boxed value is no optional. -/
theorem isOptional_boxed {v : Value} {ty : Ty} (h : v.agrees ty = true) :
    v.boxed.isOptional = false := by
  cases v with
  | present x =>
      simp only [agrees, Bool.and_eq_true, Bool.not_eq_true'] at h
      exact h.2
  | _ => rfl

end Value

/-- The zero value of a type is represented as the type says. -/
theorem Registry.agrees_zero {r : Registry} {ty : Ty} {v : Value} (h : r.zero ty = .ok v) :
    v.agrees ty = true := by
  unfold zero at h
  cases ty with
  | structTy id =>
      simp only [zeroFrom] at h
      cases hlayout : r.layout id with
      | error e =>
          rw [hlayout] at h
          cases h
      | ok layout =>
          rw [hlayout] at h
          change (do
            let fields ← layout.mapM (r.zeroFrom r.size)
            pure (Value.struct id fields)) = .ok v at h
          cases hfields : layout.mapM (r.zeroFrom r.size) with
          | error e =>
              rw [hfields] at h
              cases h
          | ok fields =>
              rw [hfields] at h
              cases h
              rfl
  | _ =>
      simp only [zeroFrom] at h
      cases h
      rfl

/-! ## Actions on values -/

namespace Run

variable {r : Registry}

/-- An action that yields no optional. -/
abbrev YieldsPlain (x : Run Value) : Prop := Gives (fun _ _ => True) x fun v => v.isOptional = false

theorem Gives.any {α : Type} (x : Run α) : Gives (fun _ _ => True) x fun _ => True := by
  intro s
  cases x s <;> trivial

theorem Gives.trap {α : Type} (e : Trap) {post : α → Prop} :
    Gives (fun _ _ => True) (throw e : Run α) post := fun _ => trivial

theorem yieldsPlain_arithValues (op : ArithOp) (checked : Bool) (a b : Value) :
    YieldsPlain (arithValues r op checked a b) :=
  .bind (.any _) fun _ _ => .bind (.any _) fun _ _ => .bind (.any _) fun _ _ => .pure rfl

theorem yieldsPlain_convValue (k : NumKind) (checked : Bool) (v : Value) :
    YieldsPlain (convValue r k checked v) :=
  .bind (.any _) fun _ _ => .bind (.any _) fun _ _ => .pure rfl

theorem yieldsPlain_compareValues (op : CmpOp) (a b : Value) : YieldsPlain (compareValues op a b) :=
  .bind (.any _) fun _ _ => .pure rfl

/-- A bitwise operation. -/
theorem yieldsPlain_bitwise (op : BitOp) (a b : Value) : YieldsPlain (bitwise r op a b) := by
  unfold bitwise
  split
  · cases op <;> first | exact .pure rfl | exact .trap _
  · exact .bind (.any _) fun _ _ => .pure rfl
  · exact .trap _

/-- A complement. -/
theorem yieldsPlain_complement (v : Value) : YieldsPlain (complement r v) := by
  unfold complement
  split
  · exact .pure rfl
  · exact .bind (.any _) fun _ _ => .pure rfl
  · exact .trap _

/-- What is inside a value. -/
theorem yieldsPlain_payloadOf {v : Value} {ty : Ty} (hv : v.agrees ty = true) :
    YieldsPlain (payloadOf r v) := by
  have hboxed := Value.isOptional_boxed hv
  cases v with
  | present x => exact .pure hboxed
  | absent | null => exact (Gives.any _).bind fun _ _ => .bind (.any _) fun _ _ => .trap _
  | _ => exact .pure rfl

/-- A unary operator. -/
theorem yieldsPlain_unaryValue (op : UnaryOp) (checked : Bool) (ty : Ty) {v : Value}
    (hv : v.isOptional = false) : YieldsPlain (unaryValue r op checked ty v) := by
  cases op with
  | plus | isTrue => exact .pure hv
  | negate => exact .bind (.any _) fun _ _ => .bind (.any _) fun _ _ => .pure rfl
  | not | isFalse => exact yieldsPlain_complement v
  | increment | decrement => exact yieldsPlain_arithValues _ _ _ _

/-- A binary operator. -/
theorem yieldsPlain_binaryValue (op : BinaryOp) (checked : Bool) (ty : Ty) (a b : Value) :
    YieldsPlain (binaryValue r op checked ty a b) := by
  cases op with
  | add =>
      unfold binaryValue
      dsimp only
      split
      · exact fun _ => rfl
      · exact yieldsPlain_arithValues _ _ _ _
  | sub | mul | div | rem => exact yieldsPlain_arithValues _ _ _ _
  | and => exact yieldsPlain_bitwise .and a b
  | or => exact yieldsPlain_bitwise .or a b
  | xor => exact yieldsPlain_bitwise .xor a b
  | shl => exact yieldsPlain_bitwise .shl a b
  | shr => exact yieldsPlain_bitwise .shr a b
  | eq | ne | lt | le | gt | ge => exact yieldsPlain_compareValues _ _ _

end Run

/-! ## Conditions on nodes -/

namespace Ty

/-- Whether an optional stays one as the value of a node of another type. -/
def passesTo (source target : Ty) : Bool := !source.isNullable || target.isNullable

/-- Whether a value of the first type is represented as the second says once it is stored there. -/
def fillsSlot (source target : Ty) : Bool :=
  source = target || target = .object || (!source.isNullable && !target.isNullable) ||
    (!source.isNullable && target.isNullable && target.underlying = source)

end Ty

/-- The variables in scope for the operands of a node. -/
def ExprKind.scope {α : Type} (ctx : Context) : ExprKind α → Context
  | block vars _ => ctx.add vars
  | _ => ctx

/-- What the type of a node has to do with the types of its operands so that optionals stay what
they are.  Only variables are assigned to, and they are of their declared types. -/
def ExprKind.PassesOptionals (ctx : Context) (ty : Ty) : ExprKind Expr → Prop
  | parameter id => ∀ declared, ctx.lookup id = some declared → declared = ty
  | member _ .hasValue | member _ .value => ty.isNullable = false
  | binary op left right _ _ =>
      op.isComparison = false → left.ty.passesTo ty = true ∧ right.ty.passesTo ty = true
  | logical _ left right => left.ty.passesTo ty = true ∧ right.ty.passesTo ty = true
  | coalesce left right => right.ty.passesTo ty = true ∧ ty.passesTo left.ty = true
  | conditional _ ifTrue ifFalse =>
      ty.isVoid = false → ifTrue.ty.passesTo ty = true ∧ ifFalse.ty.passesTo ty = true
  | switch _ cases fallback _ => ty.isVoid = false →
      (∀ c ∈ cases, c.body.ty.passesTo ty = true) ∧ ∀ d, fallback = some d → d.ty.passesTo ty = true
  | block _ body => ty.isVoid = false → ∀ last, body.getLast? = some last → last.ty.passesTo ty = true
  | assign op target value _ _ => ∀ v, value = some v →
      if op.binary?.isSome then v.ty.passesTo target.ty = true else v.ty.fillsSlot target.ty = true
  | _ => True

/-- Trees whose nodes keep optionals what they are, by the variables in scope. -/
inductive Expr.PassesOptionals : Context → Expr → Prop where
  | node {ctx : Context} {k : ExprKind Expr} {ty : Ty} (hkind : k.PassesOptionals ctx ty)
      (hoperands : ∀ e ∈ k.operands, PassesOptionals (k.scope ctx) e) :
      PassesOptionals ctx (.node k ty)

/-! ## Nodes -/

/-- The regime of values that are represented as their types say. -/
def Regime.represented : Regime := ⟨fun ty v => v.agrees ty = true, fun _ _ => True⟩

namespace Regime.represented

open Eval

variable {setting : Setting} {ctx : Context} {d l r : Meaning} {ty : Ty}

/-- Every default is represented as its type says. -/
theorem provides (r : Registry) (ty : Ty) : Regime.represented.Provides r ty := by
  intro ctx
  unfold Eval.defaultOf
  split
  · refine .lift ?_
    cases hzero : r.zero ty with
    | ok v => exact .pure (Registry.agrees_zero hzero)
    | error e => exact .trap _
  · next hvalue =>
      refine .pure ((Value.agrees_iff_of_not_nullable ?_).mpr rfl)
      cases ty <;> first | rfl | exact (hvalue rfl).elim

/-- A branch that passes its optional on. -/
theorem widens {source target : Ty} (h : source.passesTo target = true) :
    Regime.represented.Widens source target := by
  intro v hv
  cases htarget : target.isNullable with
  | false =>
      have hsource : source.isNullable = false := by simpa [Ty.passesTo, htarget] using h
      have hplain := (Value.agrees_iff_of_not_nullable hsource).mp hv
      exact (Value.agrees_iff_of_not_nullable htarget).mpr hplain
  | true =>
      cases hsource : source.isNullable with
      | false =>
          have hplain := (Value.agrees_iff_of_not_nullable hsource).mp hv
          have hwrapped : (v.wrapIf target.isNullable).agrees target = true :=
            Value.agrees_wrapIf hplain
          rwa [htarget] at hwrapped
      | true => exact (Value.agrees_congr (htarget.trans hsource.symm)).trans hv

/-- A value stored in a slot of another type. -/
theorem coerced {source target : Ty} (h : source.fillsSlot target = true) {v : Value}
    (hv : v.agrees source = true) : (Eval.coerced source target v).agrees target = true := by
  unfold Eval.coerced
  split
  · next hsame => exact hsame ▸ hv
  · next hdiffer =>
      split
      · next hoptional =>
          simp only [Bool.and_eq_true, decide_eq_true_eq] at hoptional
          have hobject : target ≠ .object := by
            rintro rfl
            cases hoptional.1
          have hsource : source.isNullable = false := by
            simpa [Ty.fillsSlot, hdiffer, hobject, hoptional.1, hoptional.2] using h
          have hwrapped : (v.wrapIf target.isNullable).agrees target = true :=
            Value.agrees_wrapIf ((Value.agrees_iff_of_not_nullable hsource).mp hv)
          rwa [hoptional.1] at hwrapped
      · next hother =>
          split
          · next hobject =>
              obtain ⟨rfl, -⟩ : target = .object ∧ source.isValueType = true := by simpa using hobject
              exact (Value.agrees_iff_of_not_nullable rfl).mpr (Value.isOptional_boxed hv)
          · next hobject =>
              -- Neither type is an optional: a reference became an object, or nothing was one.
              have hplain : source.isNullable = false ∧ target.isNullable = false := by
                by_cases htarget : target = .object
                · subst htarget
                  refine ⟨?_, rfl⟩
                  cases source <;> first | rfl | exact (hobject rfl).elim
                · have hcases : source.isNullable = false ∧ target.isNullable = false ∨
                      (source.isNullable = false ∧ target.isNullable = true) ∧
                        target.underlying = source := by
                    simpa [Ty.fillsSlot, hdiffer, htarget] using h
                  rcases hcases with hplain | ⟨⟨-, hnullable⟩, hinner⟩
                  · exact hplain
                  · exact (hother (by simp [hnullable, hinner])).elim
              exact (Value.agrees_congr (hplain.2.trans hplain.1.symm)).trans hv

/-- The result of an operator of which an operand is absent. -/
theorem onAbsent {op : BinaryOp} (h : op.isComparison = false → ty.isNullable = true) (o : Options)
    (both : Bool) : (op.onAbsent o ty both).agrees ty = true := by
  unfold BinaryOp.onAbsent
  split
  · exact Value.agrees_wrapIf rfl
  · split
    · exact Value.agrees_wrapIf rfl
    · next hother =>
        refine Value.agrees_absent ?_
        cases hcomparison : op.isComparison with
        | false => exact h hcomparison
        | true =>
            simp only [hcomparison, Bool.true_and, Bool.not_eq_true', Bool.not_eq_false,
              Bool.and_eq_true] at hother
            exact hother.1

/-- A binary operator on values. -/
theorem binaryOn {op : BinaryOp} {left right : Ty}
    (h : op.isComparison = false → left.passesTo ty = true ∧ right.passesTo ty = true) {a b : Value}
    (ha : a.agrees left = true) (hb : b.agrees right = true) (checked : Bool) :
    Ensures .represented ctx (binaryOn setting op checked left right ty a b)
      (Regime.represented.fits ty) := by
  obtain ⟨-, haabsent⟩ := Value.agrees_payloadAt? ha
  obtain ⟨-, hbabsent⟩ := Value.agrees_payloadAt? hb
  unfold Eval.binaryOn
  split
  · exact .bind (.lift (Run.yieldsPlain_binaryValue _ _ _ _ _)) fun v hv =>
      .pure (Value.agrees_wrapIf hv)
  · next hnone =>
      refine .pure (onAbsent (fun hcomparison => ?_) _ _)
      obtain ⟨hleft, hright⟩ := h hcomparison
      cases hx : a.payloadAt? left with
      | none => simpa [Ty.passesTo, haabsent hx] using hleft
      | some x =>
          cases hy : b.payloadAt? right with
          | none => simpa [Ty.passesTo, hbabsent hy] using hright
          | some y => exact (hnone x y hx hy).elim

/-- A unary operator. -/
theorem unary (hd : d.Obeys .represented ctx) (op : UnaryOp) (checked exits : Bool) :
    Ensures .represented ctx (unary setting op d checked ty exits) (Result.Fits .represented ty) := by
  refine .bind (hd.value exits) fun v hv => ?_
  split
  · next x hx =>
      have hplain := (Value.agrees_payloadAt? hv).1 x hx
      exact .bind (.lift (Run.yieldsPlain_unaryValue _ _ _ hplain)) fun y hy =>
        .yield (Value.agrees_wrapIf hy)
  · refine .yield ?_
    split
    · next hty => exact Value.agrees_absent hty
    · next hty => exact (Value.agrees_iff_of_not_nullable (by simpa using hty)).mpr rfl

/-- A short-circuit operator. -/
theorem logical (hl : l.Obeys .represented ctx) (hr : r.Obeys .represented ctx)
    (hleft : l.ty.passesTo ty = true) (hright : r.ty.passesTo ty = true) (op : LogicalOp)
    (exits : Bool) :
    Ensures .represented ctx (logical op l r ty exits) (Result.Fits .represented ty) := by
  refine .bind (hl.value exits) fun a ha => ?_
  split
  · next hlifted =>
      have hty : ty.isNullable = true := by
        simp only [Ty.passesTo, Bool.or_eq_true, Bool.not_eq_true'] at hleft hright hlifted
        rcases hlifted with h | h <;> simp_all
      have htruth : ∀ b, (Value.present (.bool b)).agrees ty = true := fun b => by
        simp [Value.agrees, Value.isOptional, hty]
      split
      · exact .yield (htruth _)
      · refine .bind (hr.value exits) fun b hb => ?_
        unfold Eval.combined
        split
        · refine .yield ?_
          have hwidens := widens hright b hb
          rwa [hty, Bool.true_and] at hwidens
        · split
          · refine .yield ?_
            split
            · exact htruth _
            · exact Value.agrees_absent hty
          · exact .yield (Value.agrees_absent hty)
  · next hplain =>
      have hplain : l.ty.isNullable = false ∧ r.ty.isNullable = false := by simpa using hplain
      split
      · exact .yield (Value.agrees_wrapIf ((Value.agrees_iff_of_not_nullable hplain.1).mp ha))
      · exact .bind (hr.value exits) fun b hb =>
          .yield (Value.agrees_wrapIf ((Value.agrees_iff_of_not_nullable hplain.2).mp hb))

/-- A coalescing. -/
theorem coalesce (hl : l.Obeys .represented ctx) (hr : r.Obeys .represented ctx)
    (hright : r.ty.passesTo ty = true) (hleft : ty.passesTo l.ty = true) (exits : Bool) :
    Ensures .represented ctx (coalesce setting l r ty exits) (Result.Fits .represented ty) := by
  refine .bind (hl.guardedValue fun _ => provides _ _) fun a ha => ?_
  cases hty : ty.isNullable with
  | false =>
      have hr' : r.ty.isNullable = false := by simpa [Ty.passesTo, hty] using hright
      split
      · refine .bind (hr.value exits) fun b hb => .yield ?_
        simp only [Bool.and_false, Bool.false_and, Value.wrapIf, Bool.false_eq_true, if_false]
        exact (Value.agrees_congr (hty.trans hr'.symm)).trans hb
      · refine .bind (p := fun x => x.isOptional = false) ?_ fun x hx =>
          .yield ((Value.agrees_iff_of_not_nullable hty).mpr hx)
        unfold Eval.payloadIf
        split
        · exact .lift (Run.yieldsPlain_payloadOf ha)
        · next hnone =>
            refine .pure ((Value.agrees_iff_of_not_nullable ?_).mp ha)
            simpa using hnone
  | true =>
      have hl' : l.ty.isNullable = true := by simpa [Ty.passesTo, hty] using hleft
      split
      · refine .bind (hr.value exits) fun b hb => .yield ?_
        have hwidens := widens hright b hb
        rw [hty, Bool.true_and] at hwidens
        rwa [hl', Bool.and_self, Bool.true_and]
      · refine .bind (p := Regime.represented.fits ty) ?_ fun x hx => .yield hx
        unfold Eval.payloadIf
        simp only [Bool.not_true, Bool.and_false, Bool.false_eq_true, if_false]
        exact .pure ((Value.agrees_congr (hty.trans hl'.symm)).trans ha)

/-- A member. -/
theorem member {receiver : Option Meaning} (hreceiver : ∀ d, receiver = some d → d.Obeys .represented ctx)
    {m : Member} (hm : m = .hasValue ∨ m = .value → ty.isNullable = false) (exits : Bool) :
    Ensures .represented ctx (member setting receiver m ty exits) (Result.Fits .represented ty) := by
  unfold Eval.member
  split
  · exact .bind ((hreceiver _ rfl).value exits) fun v _ =>
      .yield ((Value.agrees_iff_of_not_nullable (hm (.inl rfl))).mpr rfl)
  · refine .bind ((hreceiver _ rfl).value exits) fun v hv => ?_
    split
    · exact .exit
    · exact .bind (.lift (Run.yieldsPlain_payloadOf hv)) fun x hx =>
        .yield ((Value.agrees_iff_of_not_nullable (hm (.inr rfl))).mpr hx)
  · exact .stuck

/-- A conversion. -/
theorem convert (hd : d.Obeys .represented ctx) (checked exits : Bool) :
    Ensures .represented ctx (convert setting d checked ty exits) (Result.Fits .represented ty) := by
  have hnum : ∀ source target {v : Value}, v.isOptional = false →
      Ensures .represented ctx (convertNum setting source target checked v) fun y =>
        y.isOptional = false := by
    intro source target v hv
    unfold Eval.convertNum
    split
    · exact .pure hv
    · exact .lift (Run.yieldsPlain_convValue _ _ _)
  unfold Eval.convert
  split
  · refine .bind (hd.value exits) fun v hv => ?_
    split
    · next hboth =>
        simp only [Bool.and_eq_true] at hboth
        split
        · next x hx =>
            have hplain := (Value.agrees_payloadAt? hv).1 x (by simpa [Value.payloadAt?, hboth.1] using hx)
            refine .bind (hnum _ _ hplain) fun y hy => .yield ?_
            have hwrapped : (y.wrapIf ty.isNullable).agrees ty = true := Value.agrees_wrapIf hy
            rwa [hboth.2] at hwrapped
        · exact .yield (Value.agrees_absent hboth.2)
    · refine .bind (p := fun x => x.isOptional = false) ?_ fun x hx =>
        .bind (hnum _ _ hx) fun y hy => .yield (Value.agrees_wrapIf hy)
      unfold Eval.payloadIf
      split
      · exact .lift (Run.yieldsPlain_payloadOf hv)
      · next hnone => exact .pure ((Value.agrees_iff_of_not_nullable (by simpa using hnone)).mp hv)
  · exact .stuck

/-- A switch. -/
theorem switch {value : Meaning} {cases : List (SwitchCase Meaning)} {fallback : Option Meaning}
    (hvalue : value.Obeys .represented ctx)
    (htests : ∀ c ∈ cases, ∀ d ∈ c.tests, d.Obeys .represented ctx)
    (hbodies : ∀ c ∈ cases, c.body.Obeys .represented ctx ∧
      (ty.isVoid = false → c.body.ty.passesTo ty = true))
    (hfallback : ∀ d, fallback = some d → d.Obeys .represented ctx ∧
      (ty.isVoid = false → d.ty.passesTo ty = true)) (exits : Bool) :
    Ensures .represented ctx (switch setting value cases fallback ty exits)
      (Result.Fits .represented ty) := by
  refine .bind (hvalue.value exits) fun v hv => ?_
  split
  · exact .stuck
  · refine .bind (Meaning.Obeys.select fun c hc d hd => ⟨htests c hc d hd, fun _ => provides _ _,
      fun x hx => (binaryOn (by simp [BinaryOp.isComparison]) hv hx _).imp fun _ _ => trivial⟩)
      fun chosen h => ?_
    have hchosen : ∀ body, chosen.or fallback = some body → body.Obeys .represented ctx ∧
        (ty.isVoid = false → body.ty.passesTo ty = true) := by
      intro body hbody
      cases chosen with
      | some chosen =>
          cases hbody
          obtain ⟨c, hc, rfl⟩ := h _ rfl
          exact hbodies c hc
      | none => exact hfallback body hbody
    split
    · next body hbody =>
        obtain ⟨hobeys, hpasses⟩ := hchosen body hbody
        exact hobeys.branch (fun hvoid => widens (hpasses hvoid)) exits
    · exact .default fun _ => provides _ _

/-- The value one step away. -/
theorem stepped {old : Value} (hold : old.agrees ty = true) (op : ArithOp) (k : NumKind)
    (checked : Bool) :
    Ensures .represented ctx (stepped setting op k checked ty old) (Regime.represented.fits ty) := by
  unfold Eval.stepped
  split
  · next hx => exact .pure (Value.agrees_absent ((Value.agrees_payloadAt? hold).2 hx))
  · exact .bind (.lift (Run.yieldsPlain_arithValues _ _ _ _)) fun y hy =>
      .pure (Value.agrees_wrapIf hy)

end Regime.represented

/-! ## Trees -/

/-- A tree that keeps optionals what they are evaluates to values that are represented as their
types say. -/
theorem Expr.PassesOptionals.obeys (setting : Setting) {ctx : Context} {e : Expr}
    (h : e.PassesOptionals ctx) : (e.toMeaning setting).Obeys .represented ctx := by
  have hmeaning : ∀ e : Expr, (e.toMeaning setting).ty = e.ty := toMeaning_ty setting
  induction h with
  | @node ctx k ty hkind hoperands ih =>
      rw [toMeaning_node]
      refine .ofKind (fun exits shape => ?_) fun id hid declared hdeclared value => ?_
      · cases k with
        | constant value =>
            change Eval.Ensures .represented ctx (Eval.constant setting value ty) _
            unfold Eval.constant
            split
            · exact .default fun _ => Regime.represented.provides _ _
            · exact .yield (Value.agrees_wrapIf (Value.isOptional_ofLiteral value))
        | default => exact .default fun _ => Regime.represented.provides _ _
        | parameter id => exact .parameter id shape
        | member receiver m =>
            refine Regime.represented.member (fun d hd => ?_) (fun hm => ?_) exits
            · obtain ⟨e, rfl, rfl⟩ := Option.map_eq_some_iff.mp hd
              exact ih e List.mem_cons_self
            · rcases hm with rfl | rfl <;> exact hkind
        | unary op operand checked method =>
            cases method with
            | none => exact Regime.represented.unary (ih operand List.mem_cons_self) op checked exits
            | some m => exact .stuck
        | binary op left right checked method =>
            cases method with
            | none =>
                have hleft := ih left List.mem_cons_self
                have hright := ih right (by simp [ExprKind.operands, ExprKind.children])
                refine .bind (hleft.value exits) fun a ha => .bind (hright.value exits) fun b hb =>
                  .bind (Regime.represented.binaryOn ?_ ha hb checked) fun v hv => .yield hv
                rw [hmeaning, hmeaning]
                exact hkind
            | some m => exact .stuck
        | logical op left right =>
            refine Regime.represented.logical (ih left List.mem_cons_self)
              (ih right (by simp [ExprKind.operands, ExprKind.children])) ?_ ?_ op exits
            · rw [hmeaning]
              exact hkind.1
            · rw [hmeaning]
              exact hkind.2
        | coalesce left right =>
            refine Regime.represented.coalesce (ih left List.mem_cons_self)
              (ih right (by simp [ExprKind.operands, ExprKind.children])) ?_ ?_ exits
            · rw [hmeaning]
              exact hkind.1
            · rw [hmeaning]
              exact hkind.2
        | conditional test ifTrue ifFalse =>
            refine Meaning.Obeys.conditional (ih test List.mem_cons_self)
              (ih ifTrue (by simp [ExprKind.operands, ExprKind.children]))
              (ih ifFalse (by simp [ExprKind.operands, ExprKind.children]))
              (fun _ => Regime.represented.provides _ _) (fun hvoid => ?_) exits shape
            rw [hmeaning, hmeaning]
            exact ⟨Regime.represented.widens (hkind hvoid).1,
              Regime.represented.widens (hkind hvoid).2⟩
        | block vars body =>
            refine Meaning.Obeys.block (fun _ _ => Regime.represented.provides _ _) (fun d hd => ?_)
              (fun _ => Regime.represented.provides _ _) (fun d hd hvoid _ => ?_) exits shape
            · obtain ⟨e, he, rfl⟩ := List.mem_map.mp hd
              exact ih e he
            · rw [List.getLast?_map] at hd
              obtain ⟨last, hlast, rfl⟩ := Option.map_eq_some_iff.mp hd
              rw [hmeaning]
              exact Regime.represented.widens (hkind hvoid last hlast)
        | switch value cases fallback comparison =>
            cases comparison with
            | none =>
                have hmem : ∀ {e}, (∃ c ∈ cases, e ∈ c.tests ∨ e = c.body) ∨ fallback = some e →
                    (e.toMeaning setting).Obeys .represented ctx := by
                  intro e he
                  refine ih e ?_
                  simp only [ExprKind.operands, ExprKind.children, List.mem_cons, List.mem_append,
                    List.mem_flatMap, Option.mem_toList]
                  rcases he with ⟨c, hc, he⟩ | he
                  · exact .inl (.inr ⟨c, hc, he.imp id .inl⟩)
                  · exact .inr he
                refine Regime.represented.switch (ih value List.mem_cons_self) (fun c hc d hd => ?_)
                  (fun c hc => ?_) (fun d hd => ?_) exits
                · obtain ⟨c, hcase, rfl⟩ := List.mem_map.mp hc
                  obtain ⟨e, he, rfl⟩ := List.mem_map.mp hd
                  exact hmem (.inl ⟨c, hcase, .inl he⟩)
                · obtain ⟨c, hcase, rfl⟩ := List.mem_map.mp hc
                  refine ⟨hmem (.inl ⟨c, hcase, .inr rfl⟩), fun hvoid => ?_⟩
                  change (c.body.toMeaning setting).ty.passesTo ty = true
                  rw [hmeaning]
                  exact (hkind hvoid).1 c hcase
                · obtain ⟨e, rfl, rfl⟩ := Option.map_eq_some_iff.mp hd
                  refine ⟨hmem (.inr rfl), fun hvoid => ?_⟩
                  rw [hmeaning]
                  exact (hkind hvoid).2 e rfl
            | some m => exact .stuck
        | assign op target value checked autoExtend =>
            have htarget := ih target List.mem_cons_self
            have hvalue : ∀ v, value = some v → (v.toMeaning setting).Obeys .represented ctx := by
              rintro v rfl
              exact ih v (by simp [ExprKind.operands, ExprKind.children])
            refine Meaning.Obeys.assign (fun _ _ => Meaning.Obeys.step htarget
              fun k old _ hold => Regime.represented.stepped hold _ k checked)
              (fun d hd hbin => ?_) (fun d bin hd hbin => ?_) autoExtend exits shape
            · obtain ⟨v, hv, rfl⟩ := Option.map_eq_some_iff.mp hd
              have hslot := hkind v hv
              rw [hbin, ← hmeaning, ← hmeaning target] at hslot
              exact Meaning.Obeys.replace htarget (hvalue v hv) fun x hx =>
                Regime.represented.coerced hslot hx
            · obtain ⟨v, hv, rfl⟩ := Option.map_eq_some_iff.mp hd
              have hpasses := hkind v hv
              rw [hbin, ← hmeaning, ← hmeaning target] at hpasses
              refine Meaning.Obeys.update htarget (hvalue v hv) fun old x hold hx =>
                Regime.represented.binaryOn (fun _ => ⟨?_, hpasses⟩) hold hx checked
              simp [Ty.passesTo]
        | convert operand checked method =>
            cases method with
            | none => exact Regime.represented.convert (ih operand List.mem_cons_self) checked exits
            | some m => exact .stuck
        | _ => exact .stuck
      · cases k <;> cases hid
        rw [hkind declared hdeclared]

/-! ## The representation -/

/-- Wherever a tree that keeps optionals what they are is emitted and its evaluation is defined, in
every shape and with every exit, its code arrives with a value that is an optional exactly where the
type of the tree is one, and leaves every variable with such a value; emitted with a landing of its
own it does so without an exit. -/
theorem Job.represents_tree (J : Job) {ctx : Context} {e : Expr} (he : e.PassesOptionals ctx)
    {s : Emission} {w : World} {m : Memory} (hholds : J.Holds s.scope w m)
    (hfits : w.Fits .represented ctx) {stack : List Value} (hlength : stack.length ≤ s.position)
    (a : Around) :
    (∀ start exit shape extend emitted t,
      J.Emits start (e.toNode.emit exit shape extend) s emitted t → J.Resolves exit →
        ((e.toMeaning J.setting).eval exit.isSome shape extend).IsDefined w →
          J.Obeys .represented ctx a exit e.ty emitted s t.position m stack) ∧
    ∀ start shape emitted t, J.Emits start (e.toNode.guarded shape) s emitted t →
      (Eval.guarded J.setting (e.toMeaning J.setting) shape).IsDefined w →
        J.Obeys .represented ctx a none e.ty emitted s t.position m stack :=
  obeys_tree (he.obeys J.setting) (fun _ => Regime.represented.provides _ _) hholds hfits hlength a

namespace Machine

/-- An optional integer as an object. -/
def asObject : Lambda Expr :=
  let x : Variable := ⟨0, "x", .nullable .int⟩
  let o : Variable := ⟨1, "o", .object⟩
  ⟨"asObject", [x], .object,
    Tree.block [o] [Tree.assign .assign (Tree.var o) (some (Tree.var x)), Tree.var o], ⟨false, false⟩⟩

/-- Boxing keeps optionals what they are. -/
theorem asObject_passesOptionals :
    asObject.body.PassesOptionals (Context.add [] asObject.params) := by
  have hx : Expr.PassesOptionals (Context.add (Context.add [] asObject.params) [⟨1, "o", .object⟩])
      (Tree.var ⟨0, "x", .nullable .int⟩) := by
    refine .node (fun declared hdeclared => ?_) fun e he => by cases he
    cases hdeclared
    rfl
  have ho : Expr.PassesOptionals (Context.add (Context.add [] asObject.params) [⟨1, "o", .object⟩])
      (Tree.var ⟨1, "o", .object⟩) := by
    refine .node (fun declared hdeclared => ?_) fun e he => by cases he
    cases hdeclared
    rfl
  refine .node (fun _ last hlast => ?_) (List.forall_mem_cons.mpr ⟨?_, List.forall_mem_singleton.mpr ho⟩)
  · cases hlast
    rfl
  · refine .node (fun v hv => ?_) (List.forall_mem_cons.mpr ⟨ho, List.forall_mem_singleton.mpr hx⟩)
    cases hv
    rfl

set_option maxRecDepth 4000 in
/-- The body of the function, emitted with a landing, leaves no optional where its argument is an
absent one. -/
theorem represents_asObject :
    ∃ (J : Job) (s t : Emission) (emitted : Emitted) (m : Memory),
      J.Emits 0 (asObject.body.toNode.guarded .value) s emitted t ∧ m.args = #[.absent] ∧
        J.Obeys .represented (Context.add [] asObject.params) ⟨[], []⟩ none .object emitted s
          t.position m [] := by
  obtain ⟨c, hc⟩ : ∃ c, (compile ⟨.builtin, .default⟩ asObject).result = .ok c := ⟨_, rfl⟩
  have hlimits : c.routine.WithinLimits := by
    have hcompiled : (match (compile ⟨.builtin, .default⟩ asObject).result with
        | .ok c => decide c.routine.WithinLimits
        | .error _ => false) = true := by decide +kernel
    rw [hc] at hcompiled
    exact of_decide_eq_true hcompiled
  have hcaptured : ([] : List Value).length = asObject.hidden.count := rfl
  have hone : [Value.absent].length = asObject.params.length := rfl
  obtain ⟨J, s, t, e, m, hsetting, -, hguarded, hholds, hargs⟩ :=
    body_of_compiled hc rfl hlimits rfl hcaptured hone .empty []
  have hfits : World.Fits ⟨.outline .empty, [], asObject.bound [.absent]⟩ .represented
      (Context.add [] asObject.params) :=
    ⟨rfl, List.forall_mem_singleton.mpr rfl⟩
  have hdefined : (Eval.guarded J.setting (asObject.body.toMeaning J.setting) .value).IsDefined
      ⟨.outline .empty, [], asObject.bound [.absent]⟩ := by
    rw [hsetting]
    intro u hu
    have hvalue : (Eval.guarded ⟨.builtin, .default⟩
        (asObject.body.toMeaning ⟨.builtin, .default⟩) .value).run
          ⟨.outline .empty, [], asObject.bound [.absent]⟩ =
        .ok (.value .null) ⟨.outline .empty, [], asObject.bound [.absent]⟩ := rfl
    cases hvalue.symm.trans hu
  exact ⟨J, s, t, e, m, hguarded, hargs,
    (Job.represents_tree J asObject_passesOptionals hholds hfits (Nat.zero_le _) ⟨[], []⟩).2 0 .value e
      t hguarded hdefined⟩

end Machine

end Arbor
