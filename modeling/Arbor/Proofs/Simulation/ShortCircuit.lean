/-
  Short-circuit operators and coalescing follow their evaluation.

  The paths of a lifted operator meet twice: where the right operand is evaluated
  and where the result is on the stack.  What follows from each meeting point is
  shown once and used by every path that leads there.
-/
import Arbor.Proofs.Simulation.Landing
import Arbor.Proofs.Simulation.Operators

set_option autoImplicit false

namespace Arbor

/-- Only an optional type has an absent constant. -/
theorem Expr.isNullable_of_constantTruth? {e : Expr} (h : e.constantTruth? = some .absent) :
    e.ty.isNullable = true := by
  unfold constantTruth? at h
  split at h
  · next b _ => cases b <;> simp [Truth.ofOption] at h
  · split at h
    · assumption
    · cases h
  · split at h
    · assumption
    · cases h
  · cases h

namespace Truth

/-- The optional truth value of a type as a value. -/
def value (t : Truth) (ty : Ty) : Value :=
  match t.toOption with
  | none => .absent
  | some b => (Value.bool b).wrapIf ty.isNullable

theorem payloadAt?_value {t : Truth} {ty : Ty} (h : t = absent → ty.isNullable = .true) :
    (t.value ty).payloadAt? ty = t.toOption.map Value.bool := by
  cases hty : ty.isNullable with
  | true => cases t <;> simp [value, toOption, Value.payloadAt?, Value.payload?, Value.wrapIf,
      Value.wrapped, hty]
  | false =>
      cases t with
      | absent => simp [hty] at h
      | true | false => simp [value, toOption, Value.payloadAt?, Value.wrapIf, hty]

theorem wrapIf_value {t : Truth} {ty : Ty} (h : t = absent → ty.isNullable = .true) :
    (t.value ty).wrapIf (!ty.isNullable) = t.value (.nullable .bool) := by
  have hbool : (Ty.nullable .bool).isNullable = .true := rfl
  cases hty : ty.isNullable with
  | true => cases t <;> simp [value, toOption, Value.wrapIf, Value.wrapped, hty, hbool]
  | false =>
      cases t with
      | absent => simp [hty] at h
      | true | false => simp [value, toOption, Value.wrapIf, Value.wrapped, hty, hbool]

/-- The value of a truth value of a type that is no optional. -/
theorem exists_value {t : Truth} {ty : Ty} (h : t = absent → ty.isNullable = .true)
    (hty : ty.isNullable = .false) : ∃ x, t = .ofOption (some x) ∧ t.value ty = .bool x := by
  cases t with
  | absent => simp [hty] at h
  | true => exact ⟨.true, rfl, by simp [value, toOption, Value.wrapIf, hty]⟩
  | false => exact ⟨.false, rfl, by simp [value, toOption, Value.wrapIf, hty]⟩

theorem value_congr {t : Truth} {ty other : Ty} (h : ty.isNullable = other.isNullable) :
    t.value ty = t.value other := by
  simp [value, h]

end Truth

/-- The code that tests whether a value decides an operator. -/
theorem Run.Steps.decide {r : Registry} {R : Routine} {op : LogicalOp} {l : Label} {q : Nat}
    (m : Memory) (a : Around) (stack : List Value) (v : Value) (h : R.target? l = some q) :
    Steps r R (Emit.decide op l) (m.state a (v :: stack))
      (.ok (branch (Eval.decides op v) q) (m.state a stack)) := by
  cases op with
  | andAlso =>
      have hv : Eval.decides .andAlso v = !v.isTruthy := by
        unfold Eval.decides
        cases v.isTruthy <;> rfl
      rw [hv]
      exact jumpIfFalse m a stack v h
  | orElse =>
      have hv : Eval.decides .orElse v = v.isTruthy := by
        unfold Eval.decides
        cases v.isTruthy <;> rfl
      rw [hv]
      exact jumpIfTrue m a stack v h

/-- A short-circuit operator on constant operands is folded. -/
theorem Eval.logical_constant {op : LogicalOp} {l r : Meaning} {a b : Truth} {ty : Ty}
    {exits : Bool} {w : World} (hl : (l.value exits).run w = .ok (a.value l.ty) w)
    (hr : (r.value exits).run w = .ok (b.value r.ty) w)
    (ha : a = .absent → l.ty.isNullable = true) (hb : b = .absent → r.ty.isNullable = true)
    (hty : (l.ty.isNullable || r.ty.isNullable) = true → ty.isNullable = true) :
    (Eval.logical op l r ty exits).run w =
      (Eval.yield ty ((Emit.foldLogical op a b).value ty)).run w := by
  have hrun : ∀ {β : Type} (d : Meaning) (v : Value) (f : Value → Eval β),
      (d.value exits).run w = .ok v w → ((d.value exits) >>= f).run w = (f v).run w := by
    intro β d v f h
    simp only [EStateM.run, bind, EStateM.bind] at h ⊢
    rw [h]
  rw [Eval.logical, hrun l _ _ hl]
  cases hlifted : l.ty.isNullable || r.ty.isNullable with
  | false =>
      obtain ⟨hlty, hrty⟩ := Bool.or_eq_false_iff.mp hlifted
      obtain ⟨x, rfl, hx⟩ := Truth.exists_value ha hlty
      obtain ⟨y, rfl, hy⟩ := Truth.exists_value hb hrty
      simp only [Bool.false_eq_true, if_false, hx]
      split
      · next hdecides => cases op <;> cases x <;> cases y <;> first | rfl | cases hdecides
      · next hdecides =>
          rw [hrun r _ _ hr, hy]
          cases op <;> cases x <;> cases y <;> first | rfl | exact absurd rfl hdecides
  | true =>
      have hnullable : (Ty.nullable .bool).isNullable = ty.isNullable := by rw [hty hlifted]; rfl
      simp only [if_true, Eval.combined, Truth.payloadAt?_value ha]
      rw [← Truth.value_congr hnullable]
      split
      · next hdecides => cases op <;> cases a <;> first | rfl | cases hdecides
      · next hdecides =>
          rw [hrun r _ _ hr, Truth.payloadAt?_value hb, Truth.wrapIf_value hb]
          cases op <;> cases a <;> first | exact absurd rfl hdecides | (cases b <;> rfl)

namespace Job

variable {J : Job} {start : Nat} {s t u : Emission} {c : Site} {q : Nat} {m : Memory}
  {stack : List Value} {w : World} {l r : Node} {dl dr : Meaning}

/-- A constant truth value evaluates to itself. -/
theorem Implements.truth (hl : J.Implements l dl) {b : Truth}
    (h : dl.expr.constantTruth? = some b) (hbool : dl.ty.underlying = .bool) (exits : Bool)
    (w : World) : (dl.value exits).run w = .ok (b.value dl.ty) w := by
  have hvoid : dl.ty.isVoid = false := by
    cases hty : dl.ty <;> first | rfl | simp [hty, Ty.underlying] at hbool
  have hzero : (Eval.default J.setting dl.ty).run w =
      .ok (.value ((if dl.ty.isNullable then Truth.absent else .false).value dl.ty)) w := by
    cases hty : dl.ty with
    | bool => simp [Eval.default, Eval.defaultOf, Eval.lift, Ty.isVoid, Ty.isValueType,
        Registry.zero_bool, Run.ofLookup, Truth.value, Truth.toOption, Value.wrapIf, Ty.isNullable,
        EStateM.run, bind, EStateM.bind, pure, EStateM.pure]
    | nullable inner =>
        have hnullable : (Ty.nullable inner).isNullable = true := rfl
        simp [Eval.default, Eval.defaultOf, Eval.lift, Ty.isVoid, Ty.isValueType,
          Registry.zero_nullable _ hnullable, Run.ofLookup, Truth.value, Truth.toOption,
          hnullable, EStateM.run, bind, EStateM.bind, pure, EStateM.pure]
    | _ => simp [hty, Ty.underlying] at hbool
  have hvalue : ∀ v, (dl.eval exits .value false).run w = .ok (.value v) w →
      (dl.value exits).run w = .ok v w := by
    intro v hv
    simp only [Meaning.value, EStateM.run, bind, EStateM.bind] at hv ⊢
    rw [hv]
    rfl
  refine hvalue _ ?_
  unfold Expr.constantTruth? at h
  split at h
  · next x hkind =>
      cases h
      rw [hl.constant _ hkind]
      cases x <;> simp [Eval.constant, Literal.ty?, Eval.yield, hvoid, Truth.value, Truth.ofOption,
        Truth.toOption, Value.ofLiteral, EStateM.run, pure, EStateM.pure]
  · next hkind =>
      split at h
      · next hnullable =>
          cases h
          rw [hl.constant _ hkind]
          have hnullable : dl.ty.isNullable = true := hnullable
          rw [hnullable] at hzero
          exact hzero
      · cases h
  · next hkind =>
      cases h
      rw [hl.default hkind]
      exact hzero
  · cases h

/-- Pushing a truth value. -/
theorem Follows.pushTruth {b : Truth} {ty : Ty} (used : Bool)
    (h : J.Emits start (Emit.pushTruth b ty) s () t)
    (hb : b = .absent → ty.isNullable = true) (hholds : J.Holds s.scope w m)
    (hlength : stack.length ≤ s.position) :
    J.Follows c s t.position m stack ((Eval.yield ty (b.value ty)).run w)
      (fun result _ rest => result.Left (Emitted.ofTy ty used).form stack rest) := by
  have hafter : J.Holds t.scope w m := hholds.later h.retains
  unfold Emit.pushTruth at h
  unfold Truth.value
  cases hoption : b.toOption with
  | none =>
      simp only [hoption] at h
      have hnullable : ty.isNullable = true := by
        cases b with
        | absent => exact hb rfl
        | true | false => cases hoption
      exact .instr h (.loadDefault _ _ _ (Registry.zero_nullable _ hnullable)) (.refl _ _)
        (.yield used (by grind) hafter)
  | some x =>
      simp only [hoption] at h
      obtain ⟨_, u, hconst, hwrap⟩ := h.bind
      exact .instr hconst (.const _ _ _ _) (.refl _ _)
        (.wrapYield used hwrap (by grind) (hholds.later hconst.retains))

/-- The code for an absent left operand starts at its label. -/
theorem Emits.leftAbsent_entry {op : LogicalOp} {o o' : Operand} {ty : Ty}
    {entry decided done : Label}
    (h : J.Emits start (Emit.leftAbsent op o o' ty entry decided done) s () t)
    (ho : o.ty.isNullable = true) : J.routine.target? entry = some s.position := by
  simp only [Emit.leftAbsent, ho, if_true] at h
  obtain ⟨_, u, hmark, -⟩ := h.bind
  exact hmark.mark.1

/-- The result where the left operand of a lifted operator is absent. -/
theorem Follows.leftAbsent {op : LogicalOp} {o o' : Operand} {ty : Ty} {entry decided done : Label}
    {b : Value} {before after : Emission} {used : Bool}
    (h : J.Emits start (Emit.leftAbsent op o o' ty entry decided done) s () t)
    (ho : o.ty.isNullable = true) (hty : ty.isNullable = true)
    (htemp : m.Temp s o'.slot b) (hholds : J.Holds s.scope w m)
    (hdecided : J.routine.target? decided = some before.position) (hbefore : t ≤ before)
    (hdone : J.routine.target? done = some after.position) (hafter : t ≤ after)
    (hlength : stack.length ≤ s.position) (hlast : t.position ≤ after.position)
    (hpath : J.Follows c before after.position m stack
      ((Eval.yield ty (.present (.bool (Emit.decisive op)))).run w)
      (fun result _ rest => result.Left (Emitted.ofTy ty used).form stack rest)) :
    J.Follows c s after.position m stack
      ((match b.payloadAt? o'.ty with
        | some y => Eval.yield ty
            (if Eval.decides op y then .present (.bool (Emit.decisive op)) else .absent)
        | none => Eval.yield ty .absent).run w)
      (fun result _ rest => result.Left (Emitted.ofTy ty used).form stack rest) := by
  simp only [Emit.leftAbsent, ho, if_true] at h
  simp only [↓Emits.seq_iff, Emits.bind_iff, Emits.instrs_cons_iff,
    Emits.instrs_one_iff] at h
  obtain ⟨s₁, hmark, absent, s₂, habsent, s₃, hmissing, s₄, hinner, s₅, hdecide, s₆, hmarkAbsent,
    s₇, hdefault, hjump⟩ := h
  -- Where neither operand decides, the result is absent.
  have hnone : J.Follows c s₆ after.position m stack ((Eval.yield ty .absent).run w)
      (fun result _ rest => result.Left (Emitted.ofTy ty used).form stack rest) := by
    refine .instr hdefault (.loadDefault _ _ _ (Registry.zero_nullable _ hty)) (.refl _ _) ?_
    refine .jump hjump (.jump _ _ _ hdone) (by grind) (.yield used (by grind) ?_)
    exact hholds.later (by grind)
  refine .move (by grind : s ≤ s₂) (by grind) ?_
  refine .jumpIfMissing hmissing (htemp.later (by grind)) (u := s₆) (by grind) (by grind) ?_ ?_
  · intro hb
    simp only [hb]
    exact hnone
  · intro y hb
    simp only [hb]
    refine .loadInner hinner (htemp.later (by grind)) hb ?_
    refine .branch hdecide (.decide _ _ _ _ hdecided) (by grind) ?_ ?_
    · intro hy
      simp only [hy, if_true]
      exact hpath
    · intro hy
      simp only [hy, Bool.false_eq_true, if_false]
      exact .move hmarkAbsent.retains (by grind) hnone

/-- What a lifted short-circuit operator emits: its labels, the left operand with the test whether it
decides, the right operand with the paths for a value and for none on the left, and the result of an
operand that decided. -/
structure LogicalCode (J : Job) (start : Nat) (op : LogicalOp) (l r : Node) (ty : Ty)
    (exit : Option Label) (s : Emission) (e : Emitted) (t : Emission) where
  {decided evalRight done entry : Label}
  {usedLeft usedRight : Bool}
  {slot slot' : Nat}
  {s₁ s₂ s₃ s₄ s₅ s₆ s₇ s₈ s₉ s₁₀ s₁₁ s₁₂ s₁₃ s₁₄ s₁₅ s₁₆ s₁₇ s₁₈ s₁₉ s₂₀ : Emission}
  decidedLabel : J.Emits start Emit.newLabel s decided s₁
  rightLabel : J.Emits start Emit.newLabel s₁ evalRight s₂
  doneLabel : J.Emits start Emit.newLabel s₂ done s₃
  left : J.Emits start (l.value exit) s₃ usedLeft s₄
  spillLeft : J.Emits start (Emit.spill l.ty) s₄ slot s₅
  leftMissing : J.Emits start (Emit.jumpIfMissing ⟨slot, l.ty⟩ evalRight) s₅ () s₆
  leftInner : J.Emits start (Emit.loadInner ⟨slot, l.ty⟩) s₆ () s₇
  decide : J.Emits start (Emit.instr (Emit.decide op decided)) s₇ () s₈
  markRight : J.Emits start (Emit.mark evalRight) s₈ () s₉
  right : J.Emits start (r.value exit) s₉ usedRight s₁₀
  spillRight : J.Emits start (Emit.spill r.ty) s₁₀ slot' s₁₁
  entryLabel : J.Emits start Emit.newLabel s₁₁ entry s₁₂
  stillMissing : J.Emits start (Emit.jumpIfMissing ⟨slot, l.ty⟩ entry) s₁₂ () s₁₃
  loadRight : J.Emits start (Emit.instr (.loadLocal slot')) s₁₃ () s₁₄
  wrapRight : J.Emits start (Emit.wrapIf !r.ty.isNullable) s₁₄ () s₁₅
  jump : J.Emits start (Emit.instr (.jump done)) s₁₅ () s₁₆
  absent : J.Emits start (Emit.leftAbsent op ⟨slot, l.ty⟩ ⟨slot', r.ty⟩ ty entry decided done) s₁₆ () s₁₇
  markDecided : J.Emits start (Emit.mark decided) s₁₇ () s₁₈
  const : J.Emits start (Emit.instr (.const (.bool (Emit.decisive op)))) s₁₈ () s₁₉
  present : J.Emits start (Emit.instr .optWrap) s₁₉ () s₂₀
  markDone : J.Emits start (Emit.mark done) s₂₀ () t
  emitted : e = .ofTy ty (usedLeft || usedRight)

/-- The code of a lifted short-circuit operator, piece by piece. -/
theorem Emits.liftedLogical {op : LogicalOp} {ty : Ty} {exit : Option Label} {e : Emitted}
    (h : J.Emits start (Emit.liftedLogical op l r ty exit) s e t) :
    ∃ u, t.position = u.position ∧ Nonempty (J.LogicalCode start op l r ty exit s e u) := by
  obtain ⟨u, h, hend⟩ := h.withTemps
  simp only [Emit.spillOperand, Emit.loadOperand, ↓Emits.seq_iff, Emits.bind_iff,
    Emits.instrs_cons_iff, Emits.instrs_one_iff] at h
  obtain ⟨decided, s₁, hdecided, evalRight, s₂, hevalRight, done, s₃, hdone, usedLeft, s₄, hleft, o,
    s₅, ⟨slot, _, hspill, ho⟩, h⟩ := h
  obtain ⟨rfl, rfl⟩ := ho.pure
  obtain ⟨s₆, hmissing, s₇, hinner, s₈, hdecide, s₉, hmarkRight, usedRight, s₁₀, hright, o', s₁₁,
    ⟨slot', _, hspill', ho'⟩, h⟩ := h
  obtain ⟨rfl, rfl⟩ := ho'.pure
  obtain ⟨entry, s₁₂, hentry, s₁₃, hmissing', s₁₄, hload, s₁₅, hwrap, s₁₆, hjump, s₁₇, habsent, s₁₈,
    hmarkDecided, s₂₀, ⟨s₁₉, hconst, hpresent⟩, _, hmarkDone, h⟩ := h
  obtain ⟨rfl, rfl⟩ := h.pure
  exact ⟨_, hend, ⟨⟨hdecided, hevalRight, hdone, hleft, hspill, hmissing, hinner, hdecide, hmarkRight,
    hright, hspill', hentry, hmissing', hload, hwrap, hjump, habsent, hmarkDecided, hconst, hpresent,
    hmarkDone, rfl⟩⟩⟩

/-- A lifted short-circuit operator follows its evaluation. -/
theorem Realizes.liftedLogical {op : LogicalOp} {ty : Ty} (hl : J.Implements l dl)
    (hr : J.Implements r dr) (hlifted : (l.ty.isNullable || r.ty.isNullable) = true)
    (hty : ty.isNullable = true) :
    J.Realizes (fun exit => Emit.liftedLogical op l r ty exit)
      (fun exits => Eval.logical op dl dr ty exits) (Emitted.ofTy ty false).form := by
  intro start exit s t e h hexit a w m stack hholds hlength
  obtain ⟨s₂₁, hend, ⟨@⟨decided, evalRight, done, entry, usedLeft, usedRight, slot, slot', s₁, s₂, s₃, s₄,
    s₅, s₆, s₇, s₈, s₉, s₁₀, s₁₁, s₁₂, s₁₃, s₁₄, s₁₅, s₁₆, s₁₇, s₁₈, s₁₉, s₂₀, hdecided, hevalRight,
    hdone, hleft, hspill, hmissing, hinner, hdecide, hmarkRight, hright, hspill', hentry, hmissing',
    hload, hwrap, hjump, habsent, hmarkDecided, hconst, hpresent, hmarkDone, rfl⟩⟩⟩ := h.liftedLogical
  rw [hend]
  have hdecidedTarget : J.routine.target? decided = some s₁₈.position := by grind
  have hdoneTarget : J.routine.target? done = some s₂₁.position := by grind
  have hrightTarget : J.routine.target? evalRight = some s₉.position := by grind
  have hdone' : ∀ {c : Site} {x : Value} {w : World} {k : Memory}, J.Holds s.scope w k →
      J.Follows c s₂₁ s₂₁.position k (x :: stack) ((Eval.yield ty x).run w)
        (fun result _ rest =>
          result.Left (Emitted.ofTy ty (usedLeft || usedRight)).form stack rest) := by
    intro c x w k hk
    exact .yield _ (by grind) (hk.later (by grind))
  have hdecided' : ∀ {c : Site} {w : World} {k : Memory}, J.Holds s.scope w k →
      J.Follows c s₁₈ s₂₁.position k stack
        ((Eval.yield ty (.present (.bool (Emit.decisive op)))).run w)
        (fun result _ rest =>
          result.Left (Emitted.ofTy ty (usedLeft || usedRight)).form stack rest) := by
    intro c w k hk
    refine .instr hconst (.const _ _ _ _) (.refl _ _) ?_
    refine .instr hpresent (.optWrap _ _ _ _) (.refl _ _) ?_
    exact .move hmarkDone.retains (by grind) (hdone' hk)
  -- Both ways to the right operand meet here.
  have hright' : ∀ {w : World} {k : Memory} {x : Value}, k.Temp s₉ slot x → J.Holds s.scope w k →
      J.Follows ⟨a, stack, fun l => J.Lands exit l ∧
          (Emitted.ofTy ty (usedLeft || usedRight)).usedExit = true ∧
          (Emitted.ofTy ty (usedLeft || usedRight)).form = (Emitted.ofTy ty false).form⟩
        s₉ s₂₁.position k stack
        ((dr.value exit.isSome >>= fun y => Eval.combined op l.ty r.ty ty x y).run w)
        (fun result _ rest =>
          result.Left (Emitted.ofTy ty (usedLeft || usedRight)).form stack rest) := by
    intro w k x htemp hk
    refine .bind (hr.operand hright hexit (hk.later (by grind)) (by grind) List.suffix_rfl ?_)
      hright.retains ?_
    · intro pad hpad hused
      exact ⟨hpad, by simp [Emitted.ofTy, hused], rfl⟩
    rintro y w k rest rfl hholds hkeeps _
    have htemp := htemp.kept hkeeps hright.retains
    refine .spill hspill' hholds fun k htemp' hholds hkeeps => ?_
    have htemp := htemp.kept hkeeps hspill'.retains
    have hk : J.Holds s.scope w k := by
      rw [(by grind : s.scope = s₁₁.scope)]
      exact hholds
    refine .move hentry.retains (by grind) ?_
    refine .jumpIfMissing hmissing' (htemp.later (by grind)) (u := s₁₆)
      habsent.leftAbsent_entry (by grind) ?_ ?_
    · intro hx
      have hnullable : l.ty.isNullable = true := by
        cases hl : l.ty.isNullable with
        | true => rfl
        | false => simp [Value.payloadAt?, hl] at hx
      simp only [Eval.combined, hx]
      exact .leftAbsent habsent hnullable hty (htemp'.later (by grind)) (hk.later (by grind))
        hdecidedTarget hmarkDecided.retains hdoneTarget (by grind) (by grind) (by grind)
        (hdecided' hk)
    · intro x' hx
      simp only [Eval.combined, hx]
      refine .loadTemp hload (htemp'.later (by grind)) (.wrapIf hwrap ?_)
      exact .jump hjump (.jump _ _ _ hdoneTarget) (by grind) (hdone' hk)
  refine .move (by grind : s ≤ s₃) (by grind) ?_
  refine .bind (hl.operand hleft hexit (hholds.later (by grind)) (by grind) List.suffix_rfl ?_)
    hleft.retains ?_
  · intro pad hpad hused
    exact ⟨hpad, by simp [Emitted.ofTy, hused], rfl⟩
  rintro x w k rest rfl hholds _ _
  refine .spill hspill hholds fun k htemp hholds _ => ?_
  have hk : J.Holds s.scope w k := by
    rw [(by grind : s.scope = s₅.scope)]
    exact hholds
  simp only [hl.ty, hr.ty, hlifted, if_true]
  refine .jumpIfMissing hmissing (htemp.later (by grind)) (u := s₉) (fun _ => hrightTarget)
    (by grind) ?_ ?_
  · intro hx
    simp only [hx, Option.any_none, Bool.false_eq_true, if_false]
    exact hright' (htemp.later (by grind)) hk
  · intro x' hx
    simp only [hx, Option.any_some]
    refine .loadInner hinner (htemp.later (by grind)) hx ?_
    refine .branch hdecide (.decide _ _ _ _ hdecidedTarget) (by grind) ?_ ?_
    · intro hdecides
      simp only [hdecides, if_true]
      exact hdecided' hk
    · intro hdecides
      simp only [hdecides, Bool.false_eq_true, if_false]
      exact .move hmarkRight.retains (by grind) (hright' (htemp.later (by grind)) hk)

/-- A short-circuit operator on plain operands follows its evaluation. -/
theorem Realizes.plainLogical {op : LogicalOp} {ty : Ty} (hl : J.Implements l dl)
    (hr : J.Implements r dr) (hplain : (l.ty.isNullable || r.ty.isNullable) = false) :
    J.Realizes (fun exit => do
      let done ← Emit.newLabel
      let usedLeft ← l.value exit
      Emit.instrs [.dup, Emit.decide op done, .pop]
      let usedRight ← r.value exit
      Emit.mark done
      Emit.wrapIf ty.isNullable
      pure (.ofTy ty (usedLeft || usedRight)))
      (fun exits => Eval.logical op dl dr ty exits) (Emitted.ofTy ty false).form := by
  intro start exit s t e h hexit a w m stack hholds hlength
  simp only [↓Emits.seq_iff, Emits.bind_iff, Emits.instrs_cons_iff, Emits.instrs_one_iff] at h
  obtain ⟨done, s₁, hdone, usedLeft, s₂, hleft, s₅, ⟨s₃, hdup, s₄, hdecide, hpop⟩, usedRight, s₆,
    hright, s₇, hmark, s₈, hwrap, h⟩ := h
  obtain ⟨rfl, rfl⟩ := h.pure
  have hdoneTarget : J.routine.target? done = some s₇.position := by grind
  refine .move hdone.retains (by grind) ?_
  refine .bind (hl.operand hleft hexit (hholds.later hdone.retains) (by grind) List.suffix_rfl ?_)
    hleft.retains ?_
  · intro pad hpad hused
    exact ⟨hpad, by simp [Emitted.ofTy, hused], rfl⟩
  rintro x w k rest rfl hholds _ hlength
  simp only [hl.ty, hr.ty, hplain, Bool.false_eq_true, if_false]
  refine .instr hdup (.dup _ _ _ x) (.refl _ _) ?_
  refine .branch hdecide (.decide _ _ _ _ hdoneTarget) (by grind) ?_ ?_
  · intro hdecides
    simp only [hdecides, if_true]
    exact .wrapYield _ hwrap (by grind) (hholds.later (by grind))
  · intro hdecides
    simp only [hdecides, Bool.false_eq_true, if_false]
    refine .instr hpop (.pop _ _ _ x) (.refl _ _) ?_
    refine .bind (hr.operand hright hexit (hholds.later (by grind)) (by grind) List.suffix_rfl ?_)
      hright.retains ?_
    · intro pad hpad hused
      exact ⟨hpad, by simp [Emitted.ofTy, hused], rfl⟩
    rintro y w k rest rfl hholds _ hlength
    refine .move hmark.retains (by grind) ?_
    exact .wrapYield _ hwrap (by grind) (hholds.later hmark.retains)

/-- A short-circuit operator follows its evaluation. -/
theorem Realizes.logical {op : LogicalOp} {ty : Ty} (hl : J.Implements l dl)
    (hr : J.Implements r dr) :
    J.Realizes (fun exit => Emit.logical op l r ty exit)
      (fun exits => Eval.logical op dl dr ty exits) (Emitted.ofTy ty false).form := by
  intro start exit s t e h hexit a w m stack hholds hlength
  simp only [Emit.logical] at h
  split at h
  · exact h.mismatch.elim
  next hlbool =>
  split at h
  · exact h.mismatch.elim
  next hrbool =>
  split at h
  · exact h.mismatch.elim
  next hty =>
  have hty : (l.ty.isNullable || r.ty.isNullable) = true → ty.isNullable = true := by
    intro hlifted
    simpa [hlifted] using hty
  split at h
  · -- Both operands are constants.
    next x y hx hy =>
    obtain ⟨_, u, hpush, h⟩ := h.bind
    obtain ⟨rfl, rfl⟩ := h.pure
    have hx : dl.expr.constantTruth? = some x := by rw [hl.expr]; exact hx
    have hy : dr.expr.constantTruth? = some y := by rw [hr.expr]; exact hy
    have hxty : x = .absent → dl.ty.isNullable = true := by
      rintro rfl
      exact Expr.isNullable_of_constantTruth? hx
    have hyty : y = .absent → dr.ty.isNullable = true := by
      rintro rfl
      exact Expr.isNullable_of_constantTruth? hy
    have hlvalue := hl.truth hx (by rw [hl.ty]; simpa using hlbool) exit.isSome w
    have hrvalue := hr.truth hy (by rw [hr.ty]; simpa using hrbool) exit.isSome w
    rw [← hl.ty, ← hr.ty] at hty
    rw [Eval.logical_constant hlvalue hrvalue hxty hyty hty]
    refine .pushTruth false hpush ?_ hholds hlength
    intro habsent
    refine hty ?_
    cases op <;> cases x <;> cases y <;> simp_all [Emit.foldLogical, Truth.and, Truth.or]
  · split at h
    · next hlifted =>
      exact Realizes.liftedLogical hl hr hlifted (hty hlifted) start exit s t e h hexit a w m stack
        hholds hlength
    · next hplain =>
      exact Realizes.plainLogical hl hr (by simpa using hplain) start exit s t e h hexit a w m stack
        hholds hlength

/-! ## Coalescing -/

/-- Coalescing of an optional follows its evaluation. -/
theorem Realizes.coalesceOptional {ty : Ty} (hl : J.Implements l dl) (hr : J.Implements r dr)
    (hnullable : l.ty.isNullable = true) :
    J.Realizes (fun exit => Emit.coalesceOptional l r ty exit)
      (fun exits => Eval.coalesce J.setting dl dr ty exits) (Emitted.ofTy ty false).form := by
  intro start exit s t e h hexit a w m stack hholds hlength
  obtain ⟨v, h, hend⟩ := h.withTemps
  rw [hend]
  simp only [↓Emits.seq_iff, Emits.bind_iff] at h
  obtain ⟨done, s₁, hdone, useRight, s₂, huseRight, _, s₃, hleft, slot, s₄, hspill, s₅, htest, s₆,
    hload, s₇, hunwrap, s₈, hjump, s₉, hmarkRight, used, s₁₀, hright, s₁₁, hwrap, _, hmark, h⟩ := h
  obtain ⟨rfl, rfl⟩ := h.pure
  have hdoneTarget : J.routine.target? done = some v.position := by grind
  refine .move (by grind : s ≤ s₂) (by grind) ?_
  refine .bind (hl.guardedValue hleft (hholds.later (by grind)) (by grind)) hleft.retains ?_
  rintro x w k rest rfl hholds _ _
  refine .spill hspill hholds fun k htemp hholds _ => ?_
  simp only [hl.ty, hr.ty, hnullable, Bool.true_and]
  refine .presenceTest htest htemp (u := s₉) (by grind) (by grind) ?_ ?_
  · intro hx
    have habsent : x.isAbsent = true := by rw [← Value.payload?_isNone, hx]; rfl
    simp only [habsent, if_true]
    refine .bind (hr.operand hright hexit (hholds.later (by grind)) (by grind) List.suffix_rfl ?_)
      hright.retains ?_
    · intro pad hpad hused
      exact ⟨hpad, hused, rfl⟩
    rintro y w k rest rfl hholds _ hlength
    refine .wrapIf hwrap (.move hmark.retains (by grind) (.yield used (by grind) ?_))
    exact hholds.later (by grind)
  · intro y hx
    have hpresent : x.isAbsent = false := by rw [← Value.payload?_isNone, hx]; rfl
    simp only [hpresent, Bool.false_eq_true, if_false]
    refine .loadTemp hload (htemp.later (by grind)) ?_
    refine .bind (.unwrapIf hunwrap (hholds.later (by grind)) (by grind)) hunwrap.retains ?_
    rintro y w k rest rfl hholds _ _
    refine .jump hjump (.jump _ _ _ hdoneTarget) (by grind) (.yield used (by grind) ?_)
    exact hholds.later (by grind)

/-- Coalescing of a reference follows its evaluation. -/
theorem Realizes.coalesceReference {ty : Ty} (hl : J.Implements l dl) (hr : J.Implements r dr)
    (hnullable : l.ty.isNullable = false) :
    J.Realizes (fun exit => Emit.coalesceReference l r ty exit)
      (fun exits => Eval.coalesce J.setting dl dr ty exits) (Emitted.ofTy ty false).form := by
  intro start exit s t e h hexit a w m stack hholds hlength
  simp only [Emit.coalesceReference, ↓Emits.seq_iff, Emits.bind_iff, Emits.instrs_cons_iff,
    Emits.instrs_one_iff] at h
  obtain ⟨done, s₁, hdone, _, s₂, hleft, s₅, ⟨s₃, hdup, s₄, hjump, hpop⟩, used, s₆, hright, s₇,
    hmark, h⟩ := h
  obtain ⟨rfl, rfl⟩ := h.pure
  refine .move hdone.retains (by grind) ?_
  refine .bind (hl.guardedValue hleft (hholds.later hdone.retains) (by grind)) hleft.retains ?_
  rintro x w k rest rfl hholds _ hlength
  simp only [hl.ty, hnullable, Bool.false_and, Eval.payloadIf, Bool.false_eq_true, if_false,
    pure_bind]
  refine .instr hdup (.dup _ _ _ x) (.refl _ _) ?_
  refine .branch hjump (.jumpIfPresent _ _ _ _ (by grind : _ = some t.position)) (by grind) ?_ ?_
  · intro hpresent
    have hpresent : x.isAbsent = false := by simpa using hpresent
    simp only [hpresent, Bool.false_eq_true, if_false]
    exact .yield used (by grind) (hholds.later (by grind))
  · intro habsent
    have habsent : x.isAbsent = true := by simpa using habsent
    simp only [habsent, if_true]
    refine .instr hpop (.pop _ _ _ x) (.refl _ _) ?_
    refine .bind (hr.operand hright hexit (hholds.later (by grind)) (by grind) List.suffix_rfl ?_)
      hright.retains ?_
    · intro pad hpad hused
      exact ⟨hpad, hused, rfl⟩
    rintro y w k rest rfl hholds _ hlength
    exact .move hmark.retains (by grind) (.yield used (by grind) (hholds.later hmark.retains))

/-- Coalescing follows its evaluation. -/
theorem Realizes.coalesce {ty : Ty} (hl : J.Implements l dl) (hr : J.Implements r dr) :
    J.Realizes (fun exit => Emit.coalesce l r ty exit)
      (fun exits => Eval.coalesce J.setting dl dr ty exits) (Emitted.ofTy ty false).form := by
  intro start exit s t e h hexit a w m stack hholds hlength
  obtain ⟨_, _, hregistry, h⟩ := h.bind
  obtain ⟨rfl, rfl⟩ := hregistry.registry
  dsimp only at h
  split at h
  · exact h.mismatch.elim
  split at h
  · obtain ⟨_, _, _, h⟩ := h.bind
    exact h.mismatch.elim
  split at h
  · next hnullable => exact coalesceOptional hl hr hnullable _ _ _ _ _ h hexit _ _ _ _ hholds hlength
  · next hnullable =>
      exact coalesceReference hl hr (by simpa using hnullable) _ _ _ _ _ h hexit _ _ _ _ hholds
        hlength

end Job

end Arbor
