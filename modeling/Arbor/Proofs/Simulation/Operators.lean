/-
  Unary and binary operators follow their evaluation.
-/
import Arbor.Proofs.Simulation.Lifted

set_option autoImplicit false

namespace Arbor.Run

variable {r : Registry} {R : Routine}

theorem Local.strConcat (a b : Value) : Local (intrinsic r .strConcat [a, b]) :=
  .pure (Value.str (a.text?.getD "" ++ b.text?.getD ""))

/-- The instruction of a binary operator. -/
theorem Computes.binary (op : BinaryOp) (checked : Bool) (ty : Ty) (a b : Value) :
    Computes r R (op.instr checked ty) [b, a] (binaryValue r op checked ty a b) := by
  cases op with
  | add =>
      simp only [BinaryOp.instr, binaryValue]
      split
      · exact .of_local (.strConcat a b) fun _ _ _ _ => rfl
      · exact .arith .add checked a b
  | sub => exact .arith .sub checked a b
  | mul => exact .arith .mul checked a b
  | div => exact .arith .div false a b
  | rem => exact .arith .rem false a b
  | and => exact .bitwise .and a b
  | or => exact .bitwise .or a b
  | xor => exact .bitwise .xor a b
  | shl => exact .bitwise .shl a b
  | shr => exact .bitwise .shr a b
  | eq => exact .compare .eq a b
  | ne => exact .compare .ne a b
  | lt => exact .compare .lt a b
  | le => exact .compare .le a b
  | gt => exact .compare .gt a b
  | ge => exact .compare .ge a b

end Arbor.Run

namespace Arbor

/-- A type whose underlying type is an integer type has an integer type inside. -/
theorem Ty.isIntegral_underlying {ty : Ty} (h : ty.isIntegral = true) :
    ty.underlying.isIntegral = true := by
  unfold isIntegral numKind? at h ⊢
  cases hty : ty.underlying with
  | num k =>
      simp only [hty] at h ⊢
      exact h
  | _ => simp [hty] at h

/-- What fits an operator as an optional fits it without. -/
theorem UnaryOp.accepts_underlying {op : UnaryOp} {ty : Ty} (h : op.accepts ty = true) :
    op.accepts ty.underlying = true := by
  have hnum : ty.underlying.isNum = true → ty.underlying.underlying.isNum = true := by
    cases hty : ty.underlying <;> simp [Ty.isNum, Ty.underlying]
  have hbool : ty.underlying = .bool → ty.underlying.underlying = .bool := by
    intro hty
    rw [hty]
    rfl
  cases op with
  | negate | plus | increment | decrement => exact hnum h
  | isTrue | isFalse => simpa [accepts] using hbool (by simpa [accepts] using h)
  | not =>
      simp only [accepts, Bool.or_eq_true, decide_eq_true_eq] at h ⊢
      exact h.imp hbool Ty.isIntegral_underlying

end Arbor

namespace Arbor.Job

variable {J : Job} {start : Nat} {s t u : Emission} {c : Site} {q : Nat} {m : Memory}
  {stack : List Value} {w : World}

namespace Follows

theorem yield {ty : Ty} {v : Value} (used : Bool) (hlength : (v :: stack).length ≤ s.position)
    (hholds : J.Holds s.scope w m) :
    J.Follows c s s.position m (v :: stack) ((Eval.yield ty v).run w)
      (fun result _ rest => result.Left (Emitted.ofTy ty used).form stack rest) := by
  unfold Eval.yield
  cases hty : ty.isVoid with
  | true => exact .stuck _
  | false => exact .ok hlength hholds ⟨by simp [Emitted.ofTy, hty], rfl⟩

/-- The value of a node, wrapped where an optional is expected. -/
theorem wrapYield {ty : Ty} {v : Value} {condition : Bool} (used : Bool)
    (h : J.Emits start (Emit.wrapIf condition) s () t)
    (hlength : (v :: stack).length ≤ s.position) (hholds : J.Holds s.scope w m) :
    J.Follows c s t.position m (v :: stack) ((Eval.yield ty (v.wrapIf condition)).run w)
      (fun result _ rest => result.Left (Emitted.ofTy ty used).form stack rest) :=
  wrapIf h (yield used (Nat.le_trans hlength h.grows.position_le) (hholds.later h.retains))

/-- Taking what is inside an optional, where one is there and none is expected. -/
theorem unwrapIf {condition : Bool} {v : Value}
    (h : J.Emits start (Emit.unwrapIf condition) s () t) (hholds : J.Holds s.scope w m)
    (hlength : (v :: stack).length ≤ s.position) :
    J.Follows c s t.position m (v :: stack)
      ((Eval.payloadIf J.setting condition v).run w) (fun v _ rest => rest = v :: stack) := by
  unfold Emit.unwrapIf at h
  unfold Eval.payloadIf
  cases condition with
  | true =>
      refine (computes h (.optValue v) hholds ?_).imp fun v n rest hpost => hpost.1
      simp only [List.length_cons] at hlength
      omega
  | false =>
      obtain ⟨-, rfl⟩ := h.pure
      exact .ok hlength hholds rfl

/-- Adding or subtracting one. -/
theorem stepCode {op : ArithOp} {checked : Bool} {k : NumKind} {v : Value}
    (h : J.Emits start (Emit.instrs [.const (.num (.one k)), .arith op checked]) s () t)
    (hholds : J.Holds s.scope w m) (hlength : (v :: stack).length ≤ s.position) :
    J.Follows c s t.position m (v :: stack)
      ((Eval.lift (Run.arithValues J.setting.registry op checked v (.num (.one k)))).run w)
      (fun v n rest => rest = v :: stack ∧ n.args = m.args ∧ n.locals = m.locals) := by
  obtain ⟨s₁, hconst, h⟩ := h.instrs_cons
  obtain ⟨s₂, harith, h⟩ := h.instrs_cons
  obtain rfl := h.instrs_nil
  refine instr hconst (.const _ _ _ _) (.refl _ _) ?_
  refine computes harith (.arith op checked v _) ?_ ?_
  · rw [hconst.retains.scope]
    exact hholds
  · have hposition := hconst.grows.position_le
    simp only [List.length_cons] at hlength
    omega

/-- The code of a unary operator on an operand that fits it. -/
theorem unaryCode {op : UnaryOp} {checked : Bool} {ty : Ty} {v : Value}
    (h : J.Emits start (Emit.instrs (Emit.unaryCode op checked none ty)) s () t)
    (hfits : op.accepts ty = true) (hholds : J.Holds s.scope w m)
    (hlength : (v :: stack).length ≤ s.position) :
    J.Follows c s t.position m (v :: stack)
      ((Eval.lift (Run.unaryValue J.setting.registry op checked ty v)).run w)
      (fun v n rest => rest = v :: stack ∧ n.args = m.args ∧ n.locals = m.locals) := by
  have hless : stack.length ≤ s.position := by
    simp only [List.length_cons] at hlength
    omega
  have hstep : ty.underlying.isNum = true → ∃ k, ty.numKind? = some k := by
    intro hnum
    unfold Ty.numKind?
    cases hty : ty.underlying with
    | num k => exact ⟨k, rfl⟩
    | _ => simp [hty, Ty.isNum] at hnum
  cases op with
  | plus | isTrue =>
      obtain rfl := h.instrs_nil
      exact .ok hlength hholds ⟨rfl, rfl, rfl⟩
  | negate =>
      obtain ⟨u, hneg, h⟩ := h.instrs_cons
      obtain rfl := h.instrs_nil
      exact computes hneg (.neg checked v) hholds hless
  | not | isFalse =>
      obtain ⟨u, hnot, h⟩ := h.instrs_cons
      obtain rfl := h.instrs_nil
      exact computes hnot (.not v) hholds hless
  | increment | decrement =>
      obtain ⟨k, hk⟩ := hstep hfits
      simp only [Emit.unaryCode, UnaryOp.instrs, UnaryOp.stepConst, hk] at h
      simp only [Run.unaryValue, hk, Option.getD_some]
      exact stepCode h hholds hlength

end Follows

/-- A unary operator follows its evaluation. -/
theorem Realizes.unary {op : UnaryOp} {n : Node} {d : Meaning} {checked : Bool} {ty : Ty}
    (hn : J.Implements n d) :
    J.Realizes (fun exit => Emit.unary op n checked none ty exit)
      (fun exits => Eval.unary J.setting op d checked ty exits) (Emitted.ofTy ty false).form := by
  intro start exit s t e h hexit a w m stack hholds hlength
  simp only [Emit.unary, Option.isNone_none, Bool.true_and, Bool.and_true] at h
  split at h
  · exact h.mismatch.elim
  next haccepts =>
  have haccepts : op.accepts n.ty = true := by simpa using haccepts
  split at h
  · -- The operand is no optional.
    next hty =>
    have hty : d.ty.isNullable = false := by simpa [hn.ty] using hty
    obtain ⟨used, s₁, hoperand, h⟩ := h.bind
    obtain ⟨_, s₂, hcode, h⟩ := h.bind
    obtain ⟨_, s₃, hwrap, h⟩ := h.bind
    obtain ⟨rfl, rfl⟩ := h.pure
    refine .bind ((hn.value hoperand hexit hholds hlength).widen rfl List.suffix_rfl
      fun l hl => ⟨hl.1, hl.2, rfl⟩) hoperand.retains ?_
    rintro v w k rest rfl hholds _ hlength
    have hpayload : v.payloadAt? d.ty = some v := by simp [Value.payloadAt?, hty]
    have hunder : d.ty.underlying = n.ty := by rw [Ty.underlying_eq_self hty, hn.ty]
    simp only [hpayload, hunder]
    refine .bind (.unaryCode hcode haccepts hholds hlength) hcode.retains ?_
    rintro v w k rest ⟨rfl, -⟩ hholds _ hlength
    exact .wrapYield used hwrap hlength hholds
  next hty =>
  have hty : d.ty.isNullable = true := by simpa [hn.ty] using hty
  split at h
  · -- The truth of an optional: an absent one is not true.
    next hop =>
    obtain ⟨rfl, hresult⟩ : op = .isTrue ∧ ty.isNullable = false := by simpa using hop
    obtain ⟨used, s₁, hoperand, h⟩ := h.bind
    obtain ⟨_, s₂, hcode, h⟩ := h.bind
    obtain ⟨rfl, rfl⟩ := h.pure
    refine .bind ((hn.value hoperand hexit hholds hlength).widen rfl List.suffix_rfl
      fun l hl => ⟨hl.1, hl.2, rfl⟩) hoperand.retains ?_
    rintro v w k rest rfl hholds _ hlength
    have hpayload : v.payloadAt? d.ty = v.payload? := by simp [Value.payloadAt?, hty]
    have hlater := Nat.le_trans hlength hcode.grows.position_le
    rw [hpayload]
    cases hv : v.payload? with
    | some x =>
        refine .instr hcode (.optValueOrDefault _ _ _ _ hv) (.refl _ _) ?_
        rw [hresult]
        exact .yield used hlater (hholds.later hcode.retains)
    | none =>
        refine .instr hcode (.optDefault _ _ _ hv (Registry.zero_bool _)) (.refl _ _) ?_
        rw [hresult]
        exact .yield used hlater (hholds.later hcode.retains)
  split at h
  · obtain ⟨_, _, _, h⟩ := h.bind
    exact h.mismatch.elim
  · -- The operator is lifted over the optional.
    obtain ⟨u, h, hend⟩ := h.withTemps
    rw [hend]
    obtain ⟨used, s₁, hoperand, h⟩ := h.bind
    obtain ⟨o, s₂, hspill, h⟩ := h.bind
    obtain ⟨_, s₃, hlifted, h⟩ := h.bind
    obtain ⟨rfl, rfl⟩ := h.pure
    obtain ⟨slot, _, hspill, ho⟩ := hspill.bind
    obtain ⟨rfl, rfl⟩ := ho.pure
    refine .bind ((hn.value hoperand hexit hholds hlength).widen rfl List.suffix_rfl
      fun l hl => ⟨hl.1, hl.2, rfl⟩) hoperand.retains ?_
    rintro v w k rest rfl hholds _ hlength
    refine .spill hspill hholds ?_
    intro k htemp hholds _
    have hlength : stack.length ≤ s₂.position := by
      have hposition := hspill.grows.position_le
      simp only [List.length_cons] at hlength
      omega
    have hpayload : v.payloadAt? d.ty = v.payloadAt? n.ty := by rw [hn.ty]
    rw [hpayload]
    refine .lifted hlifted (.cons htemp .nil) ?_ ?_
    · intro hall u₁ u₂ u₃ hbody hwrap hgrows
      obtain ⟨x, hx⟩ := Option.isSome_iff_exists.mp (List.forall₂_cons.mp hall).1
      obtain ⟨_, u₄, hinner, hcode⟩ := hbody.bind
      have hholds := hholds.later (hgrows.retains.trans hinner.retains)
      have hunder : d.ty.underlying = n.ty.underlying := by rw [hn.ty]
      have hfits := UnaryOp.accepts_underlying haccepts
      refine .loadInner hinner (htemp.later hgrows.retains) hx ?_
      simp only [hx, hunder]
      refine .bind (.unaryCode hcode hfits hholds ?_) hcode.retains ?_
      · have hposition := hinner.loadInner_position
        have hbefore := hgrows.position_le
        simp only [List.length_cons]
        omega
      · rintro y w k rest ⟨rfl, -⟩ hholds _ hlength
        exact .wrapYield used hwrap hlength hholds
    · intro hall u₁ u₂ habsent hgrows
      have hx : v.payloadAt? n.ty = none := by
        cases hv : v.payloadAt? n.ty with
        | none => rfl
        | some x => exact (hall (.cons (by simp [hv]) .nil)).elim
      have hholds := hholds.later (hgrows.retains.trans habsent.retains)
      have hlength : stack.length + 1 ≤ u₂.position := by
        have hposition := habsent.instr.2.1
        have hbefore := hgrows.position_le
        omega
      simp only [hx]
      cases hresult : ty.isNullable with
      | true =>
          simp only [hresult, if_true] at habsent ⊢
          exact .instr habsent (.loadDefault _ _ _ (Registry.zero_nullable _ hresult)) (.refl _ _)
            (.yield used hlength hholds)
      | false =>
          simp only [hresult, Bool.false_eq_true, if_false] at habsent ⊢
          exact .instr habsent (.const _ _ _ _) (.refl _ _) (.yield used hlength hholds)

/-! ## Binary operators -/

theorem binaryOn_absent {setting : Setting} {op : BinaryOp} {checked : Bool} {left right result : Ty}
    {a b : Value} (h : (a.payloadAt? left).isSome = false ∨ (b.payloadAt? right).isSome = false) :
    Eval.binaryOn setting op checked left right result a b =
      pure (op.onAbsent setting.options result
        ((a.payloadAt? left).isNone && (b.payloadAt? right).isNone)) := by
  unfold Eval.binaryOn
  cases ha : a.payloadAt? left with
  | none => rfl
  | some x =>
      cases hb : b.payloadAt? right with
      | none => rfl
      | some y => simp [ha, hb] at h

theorem binaryOn_present {setting : Setting} {op : BinaryOp} {checked : Bool}
    {left right result : Ty} {a b x y : Value} (ha : a.payloadAt? left = some x)
    (hb : b.payloadAt? right = some y) :
    Eval.binaryOn setting op checked left right result a b =
      Eval.lift (Run.binaryValue setting.registry op checked left.underlying x y) >>= fun v =>
        pure (v.wrapIf result.isNullable) := by
  unfold Eval.binaryOn
  simp only [ha, hb]

namespace Follows

/-- Equality of two operands, of which one may be absent, compares presence first. -/
theorem liftedEquality {op : BinaryOp} {checked : Bool} {left right : Operand} {result : Ty}
    {a b : Value} (h : J.Emits start (Emit.liftedEquality op left right result) s () t)
    (hop : op = .eq ∨ op = .ne) (hleft : m.Temp s left.slot a) (hright : m.Temp s right.slot b)
    (hholds : J.Holds s.scope w m) (hlength : stack.length ≤ s.position) :
    J.Follows c s t.position m stack
      ((Eval.binaryOn J.setting op checked left.ty right.ty result a b).run w)
      (fun v _ rest => rest = v :: stack) := by
  simp only [Emit.liftedEquality, ↓Emits.seq_iff, Emits.bind_iff, Emits.instrs_cons_iff,
    Emits.instrs_one_iff] at h
  obtain ⟨differ, s₁, hdiffer, bothAbsent, s₂, hbothAbsent, done, s₃, hdone, s₄, hleftThere, s₅,
    hrightThere, s₇, ⟨s₆, hne, hjumpDiffer⟩, s₈, hagain, s₉, hjumpAbsent, s₁₀, hleftInner, s₁₁,
    hrightInner, s₁₃, ⟨s₁₂, hoperator, hjumpDone⟩, s₁₄, hmarkAbsent, s₁₆, ⟨s₁₅, hconst, hskip⟩,
    s₁₇, hmarkDiffer, s₁₈, hconstDiffer, s₁₉, hmarkDone, hwrap⟩ := h
  have hdifferTarget : J.routine.target? differ = some s₁₇.position := by grind
  have habsentTarget : J.routine.target? bothAbsent = some s₁₄.position := by grind
  have hdoneTarget : J.routine.target? done = some s₁₉.position := by grind
  -- All paths end with a truth value at the last label, where it is wrapped.
  have harrive : ∀ v w k, J.Holds s.scope w k →
      J.Follows c s₁₉ t.position k (v :: stack) (.ok (v.wrapIf result.isNullable) w)
        (fun v _ rest => rest = v :: stack) := by
    intro v w k hk
    have hretains : s ≤ t := by grind
    exact .wrapIf hwrap (.ok (by grind) (hk.later hretains) rfl)
  refine .move (by grind : s ≤ s₃) (by grind) ?_
  refine .loadPresence hleftThere (hleft.later (by grind)) ?_
  refine .loadPresence hrightThere (hright.later (by grind)) ?_
  refine .instr hne (.compareBool _ _ _ _ _) (.refl _ _) ?_
  refine .branch hjumpDiffer (.jumpIfTrue _ _ _ _ hdifferTarget) (by grind) ?_ ?_
  · -- One operand is absent and the other is not.
    intro hcondition
    refine .instr hconstDiffer (.const _ _ _ _) (.refl _ _) (.move hmarkDone.retains (by grind) ?_)
    have hvalue : Eval.binaryOn J.setting op checked left.ty right.ty result a b =
        pure (Value.wrapIf result.isNullable (.bool (op = .ne))) := by
      simp only [Value.isTruthy, bne_iff_ne, ne_eq] at hcondition
      cases ha : a.payloadAt? left.ty <;> cases hb : b.payloadAt? right.ty <;>
        simp only [ha, hb, Option.isSome_none, Option.isSome_some, not_true_eq_false] at hcondition
      all_goals
        rw [binaryOn_absent (by simp [ha, hb]), ha, hb]
        rcases hop with rfl | rfl <;> rfl
    rw [hvalue]
    exact harrive _ w m hholds
  · intro hcondition
    refine .loadPresence hagain (hleft.later (by grind)) ?_
    refine .branch hjumpAbsent (.jumpIfFalse _ _ _ _ habsentTarget) (by grind) ?_ ?_
    · -- Both are absent.
      intro hmissing
      refine .instr hconst (.const _ _ _ _) (.refl _ _) ?_
      refine .jump hskip (.jump _ _ _ hdoneTarget) (by grind) ?_
      have hvalue : Eval.binaryOn J.setting op checked left.ty right.ty result a b =
          pure (Value.wrapIf result.isNullable (.bool (op = .eq))) := by
        simp only [Value.isTruthy, bne_eq_false_iff_eq, Bool.not_eq_true'] at hcondition hmissing
        have ha : a.payloadAt? left.ty = none := by simpa using hmissing
        have hb : b.payloadAt? right.ty = none := by simpa [ha] using hcondition.symm
        rw [binaryOn_absent (.inl hmissing), ha, hb]
        rcases hop with rfl | rfl <;> rfl
      rw [hvalue]
      exact harrive _ w m hholds
    · -- Both are present and are compared.
      intro hthere
      simp only [Value.isTruthy, bne_eq_false_iff_eq, Bool.not_eq_false'] at hcondition hthere
      obtain ⟨x, hx⟩ := Option.isSome_iff_exists.mp hthere
      obtain ⟨y, hy⟩ := Option.isSome_iff_exists.mp (hcondition ▸ hthere)
      refine .loadInner hleftInner (hleft.later (by grind)) hx ?_
      refine .loadInner hrightInner (hright.later (by grind)) hy ?_
      rw [binaryOn_present hx hy]
      have hcode : J.Computes (.compare (if op = .eq then .eq else .ne)) [y, x]
          (Run.binaryValue J.setting.registry op checked left.ty.underlying x y) := by
        rcases hop with rfl | rfl <;> exact .compare _ x y
      have hholds : J.Holds s₁₁.scope w m := hholds.later (by grind)
      refine .bind (.computes hoperator hcode hholds (by grind)) hoperator.retains ?_
      rintro v w k rest ⟨rfl, -⟩ hholds _ _
      refine .jump hjumpDone (.jump _ _ _ hdoneTarget) (by grind) (harrive v w k ?_)
      rw [(by grind : s.scope = s₁₂.scope)]
      exact hholds

/-- The operator of a lifted body on operands that are present. -/
theorem liftedBody {op : BinaryOp} {checked wrap : Bool} {left right : Operand} {result : Ty}
    {a b x y : Value} (h : J.Emits start (do
      Emit.loadInner left
      Emit.loadInner right
      Emit.instr (op.instr checked left.ty.underlying)) s () u)
    (hwrap : J.Emits start (Emit.wrapIf wrap) u () t) (hresult : wrap = result.isNullable)
    (hleft : m.Temp s left.slot a) (hright : m.Temp s right.slot b)
    (hx : a.payloadAt? left.ty = some x) (hy : b.payloadAt? right.ty = some y)
    (hholds : J.Holds s.scope w m) (hlength : stack.length ≤ s.position) :
    J.Follows c s t.position m stack
      ((Eval.binaryOn J.setting op checked left.ty right.ty result a b).run w)
      (fun v _ rest => rest = v :: stack) := by
  simp only [↓Emits.seq_iff] at h
  obtain ⟨s₁, hleftInner, s₂, hrightInner, hoperator⟩ := h
  refine .loadInner hleftInner hleft hx ?_
  refine .loadInner hrightInner (hright.later hleftInner.retains) hy ?_
  rw [binaryOn_present hx hy, ← hresult]
  have hholds : J.Holds s₂.scope w m := hholds.later (by grind)
  refine .bind (.computes hoperator (.binary op checked _ x y) hholds (by grind))
    hoperator.retains ?_
  rintro v w k rest ⟨rfl, -⟩ hholds _ _
  exact .wrapIf hwrap (.ok (by grind) (hholds.later hwrap.retains) rfl)

/-- An ordering or arithmetic operator of which one operand may be absent. -/
theorem liftedOperator {op : BinaryOp} {checked : Bool} {left right : Operand} {result : Ty}
    {a b : Value} (h : J.Emits start (Emit.liftedOperator op checked left right result) s () t)
    (hop : op.isEquality = false) (hleft : m.Temp s left.slot a) (hright : m.Temp s right.slot b)
    (hholds : J.Holds s.scope w m) (hlength : stack.length ≤ s.position) :
    J.Follows c s t.position m stack
      ((Eval.binaryOn J.setting op checked left.ty right.ty result a b).run w)
      (fun v _ rest => rest = v :: stack) := by
  have htemps : List.Forall₂ (fun (o : Operand) v => m.Temp s o.slot v) [left, right] [a, b] :=
    .cons hleft (.cons hright .nil)
  have hmissing : ¬ List.Forall₂ (fun (o : Operand) v => (v.payloadAt? o.ty).isSome = true)
      [left, right] [a, b] →
      (a.payloadAt? left.ty).isSome = false ∨ (b.payloadAt? right.ty).isSome = false := by
    intro hall
    by_contra hboth
    simp only [not_or, Bool.not_eq_false] at hboth
    exact hall (.cons hboth.1 (.cons hboth.2 .nil))
  have hpresent : List.Forall₂ (fun (o : Operand) v => (v.payloadAt? o.ty).isSome = true)
      [left, right] [a, b] → ∃ x y, a.payloadAt? left.ty = some x ∧ b.payloadAt? right.ty = some y := by
    intro hall
    obtain ⟨hx, hall⟩ := List.forall₂_cons.mp hall
    obtain ⟨x, hx⟩ := Option.isSome_iff_exists.mp hx
    obtain ⟨y, hy⟩ := Option.isSome_iff_exists.mp (List.forall₂_cons.mp hall).1
    exact ⟨x, y, hx, hy⟩
  simp only [Emit.liftedOperator] at h
  split at h
  · next hcomparison =>
    obtain ⟨o, s₁, ho, h⟩ := h.bind
    obtain ⟨rfl, rfl⟩ := ho.options
    refine .lifted h htemps ?_ ?_
    · intro hall u₁ u₂ u₃ hbody hwrap hgrows
      obtain ⟨x, y, hx, hy⟩ := hpresent hall
      exact .liftedBody hbody hwrap rfl (hleft.later hgrows.retains) (hright.later hgrows.retains)
        hx hy (hholds.later hgrows.retains) (Nat.le_trans hlength hgrows.position_le)
    · intro hall u₁ u₂ habsent hgrows
      have hholds := hholds.later (hgrows.retains.trans habsent.retains)
      have hbefore := hgrows.position_le
      rw [binaryOn_absent (hmissing hall)]
      simp only [BinaryOp.onAbsent, hop, hcomparison, Bool.false_eq_true, if_false, Bool.true_and]
      split at habsent
      · next hthree =>
        have hnullable : result.isNullable = true := by simp at hthree; exact hthree.1
        simp only [hthree, Bool.not_true, Bool.false_eq_true, if_false]
        exact .instr habsent (.loadDefault _ _ _ (Registry.zero_nullable _ hnullable)) (.refl _ _)
          (.ok (by grind) hholds rfl)
      · next hthree =>
        simp only [hthree, Bool.not_false, if_true]
        obtain ⟨_, u₃, hconst, hwrap⟩ := habsent.bind
        exact .instr hconst (.const _ _ _ _) (.refl _ _) (.wrapIf hwrap (.ok (by grind) hholds rfl))
  · next hcomparison =>
    split at h
    · next hresult =>
      refine .lifted h htemps ?_ ?_
      · intro hall u₁ u₂ u₃ hbody hwrap hgrows
        obtain ⟨x, y, hx, hy⟩ := hpresent hall
        exact .liftedBody hbody hwrap hresult.symm (hleft.later hgrows.retains)
          (hright.later hgrows.retains) hx hy (hholds.later hgrows.retains)
          (Nat.le_trans hlength hgrows.position_le)
      · intro hall u₁ u₂ habsent hgrows
        have hholds := hholds.later (hgrows.retains.trans habsent.retains)
        have hbefore := hgrows.position_le
        rw [binaryOn_absent (hmissing hall)]
        simp only [BinaryOp.onAbsent, hop, hcomparison, Bool.false_eq_true, if_false,
          Bool.false_and]
        exact .instr habsent (.loadDefault _ _ _ (Registry.zero_nullable _ hresult)) (.refl _ _)
          (.ok (by grind) hholds rfl)
    · obtain ⟨_, _, _, h⟩ := h.bind
      exact h.mismatch.elim

/-- An operator on two operands in temporaries; without optionals the result is none either. -/
theorem binarySlots {op : BinaryOp} {checked : Bool} {left right : Operand} {result : Ty}
    {a b : Value} (h : J.Emits start (Emit.binarySlots op checked none left right result) s () t)
    (hresult : (left.ty.isNullable || right.ty.isNullable) = false → result.isNullable = false)
    (hleft : m.Temp s left.slot a) (hright : m.Temp s right.slot b)
    (hholds : J.Holds s.scope w m) (hlength : stack.length ≤ s.position) :
    J.Follows c s t.position m stack
      ((Eval.binaryOn J.setting op checked left.ty right.ty result a b).run w)
      (fun v _ rest => rest = v :: stack) := by
  simp only [Emit.binarySlots] at h
  split at h
  · next hplain =>
    have hplain : (left.ty.isNullable || right.ty.isNullable) = false := by simpa using hplain
    obtain ⟨hl, hr⟩ := Bool.or_eq_false_iff.mp hplain
    simp only [↓Emits.seq_iff] at h
    obtain ⟨s₁, hloadLeft, s₂, hloadRight, hoperator⟩ := h
    refine .loadTemp hloadLeft hleft (.loadTemp hloadRight (hright.later hloadLeft.retains) ?_)
    rw [binaryOn_present (x := a) (y := b) (by simp [Value.payloadAt?, hl])
      (by simp [Value.payloadAt?, hr]), Ty.underlying_eq_self hl, hresult hplain]
    have hposition : s₂.position = s.position + 2 := by
      rw [hloadRight.instr_position, hloadLeft.instr_position]
    have hholds : J.Holds s₂.scope w m := hholds.later (by grind)
    refine .bind (.computes hoperator (.binary op checked _ a b) hholds (by omega))
      hoperator.retains ?_
    rintro v w k rest ⟨rfl, -⟩ hholds _ hlength
    exact .ok hlength hholds rfl
  · split at h
    · next hop =>
      have hop : op = .eq ∨ op = .ne := by cases op <;> simp [BinaryOp.isEquality] at hop ⊢
      exact .liftedEquality h hop hleft hright hholds hlength
    · next hop => exact .liftedOperator h (by simpa using hop) hleft hright hholds hlength

end Follows

theorem Emits.checkBinary {op : BinaryOp} {left right : Ty}
    (h : J.Emits start (Emit.checkBinary op left right) s () t) : t = s := by
  unfold Emit.checkBinary at h
  split at h
  · exact h.pure.2
  · obtain ⟨_, _, _, h⟩ := h.bind
    exact h.mismatch.elim

/-- A binary operator follows its evaluation. -/
theorem Realizes.binary {op : BinaryOp} {l r : Node} {dl dr : Meaning} {checked : Bool} {ty : Ty}
    (hl : J.Implements l dl) (hr : J.Implements r dr) :
    J.Realizes (fun exit => Emit.binary op l r checked none ty exit)
      (fun exits => Eval.binary J.setting op dl dr checked ty exits)
      (Emitted.ofTy ty false).form := by
  intro start exit s t e h hexit a w m stack hholds hlength
  simp only [Emit.binary, Option.isNone_none, if_true, Bool.true_and] at h
  rw [Emits.seq_iff] at h
  obtain ⟨s₀, hcheck, h⟩ := h
  obtain rfl := hcheck.checkBinary
  split at h
  · -- Neither operand is an optional.
    next hplain =>
    have hplain : (l.ty.isNullable || r.ty.isNullable) = false := by simpa using hplain
    obtain ⟨hlty, hrty⟩ := Bool.or_eq_false_iff.mp hplain
    simp only [↓Emits.seq_iff, Emits.bind_iff] at h
    obtain ⟨usedLeft, s₁, hleft, usedRight, s₂, hright, s₃, hoperator, s₄, hwrap, h⟩ := h
    obtain ⟨rfl, rfl⟩ := h.pure
    refine .bind (hl.operand hleft hexit hholds hlength List.suffix_rfl ?_) hleft.retains ?_
    · intro pad hpad hused
      exact ⟨hpad, by simp [Emitted.ofTy, hused], rfl⟩
    rintro x w k rest rfl hholds _ hlength
    refine .bind (hr.operand hright hexit hholds hlength (List.suffix_cons _ _) ?_) hright.retains ?_
    · intro pad hpad hused
      exact ⟨hpad, by simp [Emitted.ofTy, hused], rfl⟩
    rintro y w k rest rfl hholds _ hlength
    rw [hl.ty, hr.ty, binaryOn_present (x := x) (y := y) (by simp [Value.payloadAt?, hlty])
      (by simp [Value.payloadAt?, hrty]), Ty.underlying_eq_self hlty, bind_assoc]
    refine .bind (.computes hoperator (.binary op checked _ x y) hholds ?_) hoperator.retains ?_
    · simp only [List.length_cons] at hlength
      omega
    rintro v w k rest ⟨rfl, -⟩ hholds _ hlength
    rw [pure_bind]
    exact .wrapYield _ hwrap hlength hholds
  · -- The operands wait in temporaries.
    next hlifted =>
    have hlifted : ¬ (l.ty.isNullable || r.ty.isNullable) = false := by simpa using hlifted
    obtain ⟨u, h, hend⟩ := h.withTemps
    rw [hend]
    simp only [Emit.spillOperand, ↓Emits.seq_iff, Emits.bind_iff] at h
    obtain ⟨usedLeft, s₁, hleft, o, s₂, ⟨slot, _, hspill, ho⟩, usedRight, s₃, hright, o', s₄,
      ⟨slot', _, hspill', ho'⟩, s₅, hslots, h⟩ := h
    obtain ⟨rfl, rfl⟩ := h.pure
    obtain ⟨rfl, rfl⟩ := ho.pure
    obtain ⟨rfl, rfl⟩ := ho'.pure
    refine .bind (hl.operand hleft hexit hholds hlength List.suffix_rfl ?_) hleft.retains ?_
    · intro pad hpad hused
      exact ⟨hpad, by simp [Emitted.ofTy, hused], rfl⟩
    rintro x w k rest rfl hholds _ _
    refine .spill hspill hholds fun k htemp hholds _ => ?_
    have hlength : stack.length ≤ s₂.position := by grind
    refine .bind (hr.operand hright hexit hholds hlength List.suffix_rfl ?_) hright.retains ?_
    · intro pad hpad hused
      exact ⟨hpad, by simp [Emitted.ofTy, hused], rfl⟩
    rintro y w n rest rfl hholds hkeeps _
    have htemp := htemp.kept hkeeps hright.retains
    refine .spill hspill' hholds fun k htemp' hholds hkeeps => ?_
    have htemp := htemp.kept hkeeps hspill'.retains
    rw [hl.ty, hr.ty]
    refine .bind (.binarySlots hslots (fun h => absurd h hlifted) htemp htemp' hholds (by grind))
      hslots.retains ?_
    rintro v w k rest rfl hholds _ hlength
    exact .yield _ hlength hholds

end Arbor.Job
