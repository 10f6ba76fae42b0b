/-
  Runs of the short-circuit operators.

  The code of such an operator has the values of its operands in two sections.  An
  execution passes through the first one and then, unless the value there decides
  the operator, through the second one; between and behind them it passes positions
  of the operator alone.  The theorem is about every routine and every way in which
  an execution gets through the sections, calls, assignments and handlers included.
  What it asks of the second one is that it leaves the temporaries alone in which
  the operator waits; its code names none of them.

  Two constants are folded.  What is pushed is what the values that the code of the
  constants pushes combine to.
-/
import Arbor.Proofs.Simulation.Functions
import Arbor.Proofs.Simulation.Sections
import Arbor.Proofs.Simulation.ShortCircuit

set_option autoImplicit false

namespace Arbor

/-! ## Truth values -/

namespace Truth

theorem value_ofOption (x : Bool) (ty : Ty) :
    (Truth.ofOption (some x)).value ty = (Value.bool x).wrapIf ty.isNullable := by
  cases x <;> rfl

theorem value_of_isNullable {x : Bool} {ty : Ty} (hty : ty.isNullable = .true) :
    (Truth.ofOption (some x)).value ty = .present (.bool x) := by
  rw [value_ofOption, hty]
  rfl

/-- A truth value that has something inside is present. -/
theorem exists_of_payloadAt? {x : Truth} {ty : Ty} {v : Value}
    (hx : x = absent → ty.isNullable = .true) (h : (x.value ty).payloadAt? ty = some v) :
    ∃ b, x = .ofOption (some b) ∧ v = .bool b := by
  rw [payloadAt?_value hx] at h
  cases x with
  | absent => cases h
  | true => exact ⟨.true, rfl, (Option.some.inj h).symm⟩
  | false => exact ⟨.false, rfl, (Option.some.inj h).symm⟩

/-- A truth value that has nothing inside is absent. -/
theorem eq_absent_of_payloadAt? {x : Truth} {ty : Ty}
    (hx : x = absent → ty.isNullable = .true) (h : (x.value ty).payloadAt? ty = none) :
    x = absent := by
  rw [payloadAt?_value hx] at h
  cases x with
  | absent => rfl
  | true | false => cases h

end Truth

namespace LogicalOp

/-- Whether the value of the left operand alone decides the operator. -/
def decidedBy (op : LogicalOp) (x : Truth) : Bool :=
  match op with
  | .andAlso => x.decidesAnd
  | .orElse => x.decidesOr

theorem decidedBy_ofOption (op : LogicalOp) (x : Bool) :
    op.decidedBy (.ofOption (some x)) = Eval.decides op (.bool x) := by
  cases op <;> cases x <;> rfl

theorem fold_of_decidedBy {op : LogicalOp} {x : Truth} (h : op.decidedBy x = true)
    (y : Truth) : Emit.foldLogical op x y = x := by
  cases op with
  | andAlso => exact Truth.and_eq_left_of_decidesAnd h y
  | orElse => exact Truth.or_eq_left_of_decidesOr h y

theorem fold_of_not_decidedBy {op : LogicalOp} {x : Bool}
    (h : op.decidedBy (.ofOption (some x)) = false) (y : Truth) :
    Emit.foldLogical op (.ofOption (some x)) y = y := by
  cases op <;> cases x <;> first | exact absurd h (by decide) | (cases y <;> rfl)

theorem eq_of_decidedBy {op : LogicalOp} {x : Truth} (h : op.decidedBy x = true) :
    x = .ofOption (some (Emit.decisive op)) := by
  cases op <;> cases x <;> first | rfl | cases h

theorem fold_absent (op : LogicalOp) (y : Truth) :
    Emit.foldLogical op .absent y = if op.decidedBy y then y else .absent := by
  cases op <;> cases y <;> rfl

theorem absent_of_fold {op : LogicalOp} {x y : Truth}
    (h : Emit.foldLogical op x y = .absent) : x = .absent ∨ y = .absent := by
  cases op <;> cases x <;> cases y <;> first | exact .inl rfl | exact .inr rfl | cases h

end LogicalOp

/-! ## Sections -/


variable {setting : Setting} {R : Routine} {hR : R.WithinLimits} {start : Nat} {s t : Emission}
  {l r : Node} {op : LogicalOp} {ty : Ty} {exit : Option Label}

/-- How the operator goes on behind its operands. -/
structure ShortCircuits (op : LogicalOp) (ty : Ty)
    (o : Sections (Job.ofRoutine setting hR) start l r exit s t) : Prop where
  decided : ∀ (span : Span) (a : Around) (m : Memory) (stack : List Value) (x : Truth),
    m.locals.size = R.locals.size → (x = .absent → l.ty.isNullable = true) →
    op.decidedBy x = true → ∃ n, m.Spares s n ∧
      Run.Via setting.registry R span o.Own o.leftEnd.position (m.state a (x.value l.ty :: stack))
        t.position (n.state a (x.value ty :: stack))
  undecided : ∀ (span : Span) (a : Around) (m : Memory) (stack : List Value) (x : Truth),
    m.locals.size = R.locals.size → (x = .absent → l.ty.isNullable = true) →
    op.decidedBy x = false → ∃ n, m.Spares s n ∧
      Run.Via setting.registry R span o.Own o.leftEnd.position (m.state a (x.value l.ty :: stack))
        o.rightStart.position (n.state a stack) ∧
      ∀ (a : Around) (k : Memory) (y : Truth), k.locals.size = R.locals.size →
        (y = .absent → r.ty.isNullable = true) → o.Saves n k → ∃ k', k.Spares s k' ∧
          Run.Via setting.registry R span o.Own o.rightEnd.position
            (k.state a (y.value r.ty :: stack)) t.position
            (k'.state a ((Emit.foldLogical op x y).value ty :: stack))

/-! ## Plain operands -/

/-- Execution goes on at the target of the jump if the value decides the operator, and behind the
jump otherwise. -/
theorem Run.Via.decide {u : Emission} {span : Span} {within : Nat → Prop} {a : Around} {m : Memory}
    {stack : List Value} {q : Nat} {c : State} {x : Bool} {l : Label}
    (h : (Job.ofRoutine setting hR).Emits start (Emit.instr (Emit.decide op l)) s () t)
    (htarget : R.target? l = some u.position) (hp : within s.position)
    (hjump : op.decidedBy (.ofOption (some x)) = true →
      Via setting.registry R span within u.position (m.state a stack) q c)
    (hnext : op.decidedBy (.ofOption (some x)) = false →
      Via setting.registry R span within t.position (m.state a stack) q c) :
    Via setting.registry R span within s.position (m.state a (.bool x :: stack)) q c := by
  have hquiet : Quiet setting.registry R (Emit.decide op l) := by cases op <;> exact fun _ => rfl
  rw [LogicalOp.decidedBy_ofOption] at hjump hnext
  exact branch h hquiet hp (.decide _ _ _ _ htarget) hjump hnext

/-- An operator on plain operands short-circuits. -/
theorem shortCircuits_plain {e : Emitted} (hplain : (l.ty.isNullable || r.ty.isNullable) = false)
    (h : (Job.ofRoutine setting hR).Emits start (do
      let done ← Emit.newLabel
      let usedLeft ← l.value exit
      Emit.instrs [.dup, Emit.decide op done, .pop]
      let usedRight ← r.value exit
      Emit.mark done
      Emit.wrapIf ty.isNullable
      pure (.ofTy ty (usedLeft || usedRight))) s e t) :
    ∃ o : Sections (Job.ofRoutine setting hR) start l r exit s t, ShortCircuits op ty o := by
  simp only [↓Job.Emits.seq_iff, Job.Emits.bind_iff, Job.Emits.instrs_cons_iff,
    Job.Emits.instrs_one_iff] at h
  obtain ⟨done, s₁, hdone, usedLeft, s₂, hleft, s₅, ⟨s₃, hdup, s₄, hdecide, hpop⟩, usedRight, s₆,
    hright, s₇, hmark, s₈, hwrap, h⟩ := h
  obtain ⟨rfl, rfl⟩ := h.pure
  have hdoneTarget : R.target? done = some s₇.position := by grind
  obtain ⟨hl, hr⟩ := Bool.or_eq_false_iff.mp hplain
  refine ⟨⟨s₁, s₂, s₅, s₆, usedLeft, usedRight, hleft, hright, by grind, by grind,
    by grind, by grind, by grind⟩, ?_, ?_⟩
  · intro span a m stack x hsize hx hdecided
    obtain ⟨x, rfl, hvalue⟩ := Truth.exists_value hx hl
    refine ⟨m, .refl _ _, ?_⟩
    rw [hvalue, Truth.value_ofOption]
    refine .instr hdup (fun _ => rfl) (.inl (by grind)) (.dup _ _ _ _) ?_
    refine .decide hdecide hdoneTarget (.inl (by grind)) ?_ fun hopen => ?_
    · intro _
      exact .wrapIf hwrap (fun p hp hp' => .inr (by grind)) (.refl _ _)
    · rw [hopen] at hdecided
      cases hdecided
  · intro span a m stack x hsize hx hopen
    obtain ⟨x, rfl, hvalue⟩ := Truth.exists_value hx hl
    refine ⟨m, .refl _ _, ?_, ?_⟩
    · rw [hvalue]
      refine .instr hdup (fun _ => rfl) (.inl (by grind)) (.dup _ _ _ _) ?_
      refine .decide hdecide hdoneTarget (.inl (by grind)) (fun hdecided => ?_) ?_
      · rw [hopen] at hdecided
        cases hdecided
      · intro _
        exact .instr hpop (fun _ => rfl) (.inl (by grind)) (.pop _ _ _ _) (.refl _ _)
    · intro a k y hsize hy _
      obtain ⟨y, rfl, hvalue⟩ := Truth.exists_value hy hr
      refine ⟨k, .refl _ _, ?_⟩
      rw [hvalue, LogicalOp.fold_of_not_decidedBy hopen, Truth.value_ofOption]
      refine .move (u := s₇) (by grind) ?_
      exact .wrapIf hwrap (fun p hp hp' => .inr (by grind)) (.refl _ _)

/-! ## Optional operands -/

/-- The result where the left operand is absent. -/
theorem Run.Via.leftAbsent {u v : Emission} {o o' : Operand} {entry decided done : Label} {span : Span}
    {within : Nat → Prop} {a : Around} {m : Memory} {stack : List Value} {y : Truth}
    (h : (Job.ofRoutine setting hR).Emits start (Emit.leftAbsent op o o' ty entry decided done) s ()
      t)
    (ho : o.ty.isNullable = true) (hty : ty.isNullable = true)
    (hy : y = .absent → o'.ty.isNullable = true) (htemp : m.Temp s o'.slot (y.value o'.ty))
    (hp : ∀ p, s.position ≤ p → p < t.position → within p)
    (hdecided : R.target? decided = some u.position) (hdone : R.target? done = some v.position)
    (hpath : Via setting.registry R span within u.position (m.state a stack) v.position
      (m.state a ((Truth.ofOption (some (Emit.decisive op))).value ty :: stack))) :
    Via setting.registry R span within s.position (m.state a stack) v.position
      (m.state a ((Emit.foldLogical op .absent y).value ty :: stack)) := by
  simp only [Emit.leftAbsent, ho, if_true] at h
  simp only [↓Job.Emits.seq_iff, Job.Emits.bind_iff, Job.Emits.instrs_cons_iff,
    Job.Emits.instrs_one_iff] at h
  obtain ⟨s₁, hmark, absent, s₂, habsent, s₃, hmissing, s₄, hinner, s₅, hdecide, s₆, hmarkAbsent,
    s₇, hdefault, hjump⟩ := h
  rw [LogicalOp.fold_absent]
  -- Where neither operand decides, the result is absent.
  have hnone : Via setting.registry R span within s₆.position (m.state a stack) v.position
      (m.state a (Truth.absent.value ty :: stack)) := by
    refine .instr hdefault (fun _ => rfl) (hp _ (by grind) (by grind))
      (.loadDefault _ _ _ (Registry.zero_nullable _ hty)) ?_
    exact .goto hjump (fun _ => rfl) (hp _ (by grind) (by grind)) (.jump _ _ _ hdone) (.refl _ _)
  refine .move (by grind : s₂.position = s.position) ?_
  refine .jumpIfMissing hmissing (htemp.later (by grind)) (u := s₆) (by grind)
    (fun p hp' hp'' => hp p (by grind) (by grind)) ?_ ?_
  · intro hmissing
    obtain rfl := Truth.eq_absent_of_payloadAt? hy hmissing
    cases op <;> exact hnone
  · intro z hz
    obtain ⟨y, rfl, rfl⟩ := Truth.exists_of_payloadAt? hy hz
    refine .loadInner hinner (htemp.later (by grind)) hz (fun p hp' hp'' => hp p (by grind) (by grind)) ?_
    refine .decide hdecide hdecided (hp _ (by grind) (by grind)) ?_ ?_
    · intro hy
      rw [hy, LogicalOp.eq_of_decidedBy hy]
      exact hpath
    · intro hy
      rw [hy]
      exact .move (by grind) hnone

/-- Behind the left operand its value waits in a temporary, and execution goes on where the operator is
decided if the value decides it, and at the right operand otherwise. -/
theorem Run.Via.leftHalf {s₁ s₂ s₃ s₄ u : Emission} {slot : Nat} {evalRight decided : Label}
    {lty : Ty} {span : Span} {within : Nat → Prop} {a : Around} {m : Memory} {stack : List Value}
    {q : Nat} {c : State} {x : Truth}
    (hspill : (Job.ofRoutine setting hR).Emits start (Emit.spill lty) s slot s₁)
    (hmissing : (Job.ofRoutine setting hR).Emits start
      (Emit.jumpIfMissing ⟨slot, lty⟩ evalRight) s₁ () s₂)
    (hinner : (Job.ofRoutine setting hR).Emits start (Emit.loadInner ⟨slot, lty⟩) s₂ () s₃)
    (hdecide : (Job.ofRoutine setting hR).Emits start (Emit.instr (Emit.decide op decided)) s₃ () s₄)
    (hmark : (Job.ofRoutine setting hR).Emits start (Emit.mark evalRight) s₄ () t)
    (htarget : R.target? decided = some u.position) (hsize : m.locals.size = R.locals.size)
    (hx : x = .absent → lty.isNullable = true)
    (hp : ∀ p, s.position ≤ p → p < t.position → within p)
    (hdecided : op.decidedBy x = true → Via setting.registry R span within u.position
      ((m.setLocal slot (x.value lty)).state a stack) q c)
    (hopen : op.decidedBy x = false → Via setting.registry R span within t.position
      ((m.setLocal slot (x.value lty)).state a stack) q c) :
    Via setting.registry R span within s.position (m.state a (x.value lty :: stack)) q c := by
  have htemp := hspill.spilled hsize (x.value lty)
  refine .spill hspill hsize (hp _ (by grind) (by grind)) ?_
  refine .jumpIfMissing hmissing htemp (u := t) (fun _ => by grind)
    (fun p hp' hp'' => hp p (by grind) (by grind)) ?_ ?_
  · intro hmissing
    obtain rfl := Truth.eq_absent_of_payloadAt? hx hmissing
    exact hopen (by cases op <;> rfl)
  · intro z hz
    obtain ⟨x, rfl, rfl⟩ := Truth.exists_of_payloadAt? hx hz
    refine .loadInner hinner (htemp.later (by grind)) hz
      (fun p hp' hp'' => hp p (by grind) (by grind)) ?_
    refine .decide hdecide htarget (hp _ (by grind) (by grind)) hdecided fun h => ?_
    exact .move (by grind) (hopen h)

/-- From the value of the right operand the code leads to the result of the operator, with the value
of the left operand in its temporary. -/
theorem Run.Via.rightHalf {s₁ s₂ s₃ s₄ s₅ s₆ u v : Emission} {o : Operand} {slot : Nat}
    {rty : Ty} {entry decided done : Label} {span : Span} {within : Nat → Prop} {a : Around}
    {m : Memory} {stack : List Value} {x y : Truth}
    (hspill : (Job.ofRoutine setting hR).Emits start (Emit.spill rty) s slot s₁)
    (hentry : (Job.ofRoutine setting hR).Emits start Emit.newLabel s₁ entry s₂)
    (hmissing : (Job.ofRoutine setting hR).Emits start (Emit.jumpIfMissing o entry) s₂ () s₃)
    (hload : (Job.ofRoutine setting hR).Emits start (Emit.instr (.loadLocal slot)) s₃ () s₄)
    (hwrap : (Job.ofRoutine setting hR).Emits start (Emit.wrapIf !rty.isNullable) s₄ () s₅)
    (hjump : (Job.ofRoutine setting hR).Emits start (Emit.instr (.jump done)) s₅ () s₆)
    (habsent : (Job.ofRoutine setting hR).Emits start
      (Emit.leftAbsent op o ⟨slot, rty⟩ ty entry decided done) s₆ () t)
    (hdecided : R.target? decided = some u.position) (hdone : R.target? done = some v.position)
    (hty : ty.isNullable = true) (hsize : m.locals.size = R.locals.size)
    (hx : x = .absent → o.ty.isNullable = true) (hy : y = .absent → rty.isNullable = true)
    (hopen : op.decidedBy x = false) (htemp : m.Temp s o.slot (x.value o.ty))
    (hp : ∀ p, s.position ≤ p → p < t.position → within p)
    (hpath : ∀ n : Memory, Via setting.registry R span within u.position (n.state a stack) v.position
      (n.state a ((Truth.ofOption (some (Emit.decisive op))).value ty :: stack))) :
    Via setting.registry R span within s.position (m.state a (y.value rty :: stack)) v.position
      ((m.setLocal slot (y.value rty)).state a ((Emit.foldLogical op x y).value ty :: stack)) := by
  have htemp : (m.setLocal slot (y.value rty)).Temp s o.slot (x.value o.ty) :=
    (Memory.Spares.setLocal hspill.spill.2 _).temp htemp
  have htemp' := hspill.spilled hsize (y.value rty)
  refine .spill hspill hsize (hp _ (by grind) (by grind)) ?_
  refine .move (u := s₂) (by grind) ?_
  refine .jumpIfMissing hmissing (htemp.later (by grind)) (u := s₆)
    (fun ho => habsent.leftAbsent_entry ho) (fun p hp' hp'' => hp p (by grind) (by grind)) ?_ ?_
  · intro hmissing
    obtain rfl := Truth.eq_absent_of_payloadAt? hx hmissing
    exact .leftAbsent habsent (hx rfl) hty hy (htemp'.later (by grind))
      (fun p hp' hp'' => hp p (by grind) (by grind)) hdecided hdone (hpath _)
  · intro z hz
    obtain ⟨x, rfl, rfl⟩ := Truth.exists_of_payloadAt? hx hz
    have hresult : (Emit.foldLogical op (.ofOption (some x)) y).value ty =
        (y.value rty).wrapIf (!rty.isNullable) := by
      rw [LogicalOp.fold_of_not_decidedBy hopen, Truth.wrapIf_value hy]
      exact Truth.value_congr hty
    rw [hresult]
    refine .loadTemp hload (htemp'.later (by grind)) (hp _ (by grind) (by grind)) ?_
    refine .wrapIf hwrap (fun p hp' hp'' => hp p (by grind) (by grind)) ?_
    exact .goto hjump (fun _ => rfl) (hp _ (by grind) (by grind)) (.jump _ _ _ hdone) (.refl _ _)

/-- A lifted operator short-circuits. -/
theorem shortCircuits_lifted {e : Emitted} (hty : ty.isNullable = true)
    (h : (Job.ofRoutine setting hR).Emits start (Emit.liftedLogical op l r ty exit) s e t) :
    ∃ o : Sections (Job.ofRoutine setting hR) start l r exit s t, ShortCircuits op ty o := by
  obtain ⟨u, hend, ⟨@⟨decided, evalRight, done, entry, usedLeft, usedRight, slot, slot', s₁, s₂, s₃, s₄,
    s₅, s₆, s₇, s₈, s₉, s₁₀, s₁₁, s₁₂, s₁₃, s₁₄, s₁₅, s₁₆, s₁₇, s₁₈, s₁₉, s₂₀, hdecided, hevalRight,
    hdone, hleft, hspill, hmissing, hinner, hdecide, hmarkRight, hright, hspill', hentry, hmissing',
    hload, hwrap, hjump, habsent, hmarkDecided, hconst, hpresent, hmarkDone, rfl⟩⟩⟩ := h.liftedLogical
  have hdecidedTarget : R.target? decided = some s₁₈.position := by grind
  have hdoneTarget : R.target? done = some t.position := by grind
  have hretains : s ≤ s₄ := by grind
  have hpath : ∀ (within : Nat → Prop) (span : Span) (a : Around) (m : Memory) (stack : List Value),
      (∀ p, s₁₈.position ≤ p → p < t.position → within p) →
      Run.Via setting.registry R span within s₁₈.position (m.state a stack) t.position
        (m.state a ((Truth.ofOption (some (Emit.decisive op))).value ty :: stack)) := by
    intro within span a m stack hp
    rw [Truth.value_of_isNullable hty]
    refine .instr hconst (fun _ => rfl) (hp _ (by grind) (by grind)) (.const _ _ _ _) ?_
    refine .instr hpresent (fun _ => rfl) (hp _ (by grind) (by grind)) (.optWrap _ _ _ _) ?_
    exact .move (by grind) (.refl _ _)
  refine ⟨⟨s₃, s₄, s₉, s₁₀, usedLeft, usedRight, hleft, hright, by grind, by grind,
    by grind, by grind, by grind⟩, ?_, ?_⟩
  · intro span a m stack x hsize hx hdecides
    obtain rfl := LogicalOp.eq_of_decidedBy hdecides
    have hspares := Memory.Spares.setLocal (m := m) hspill.spill.2
      ((Truth.ofOption (some (Emit.decisive op))).value l.ty)
    refine ⟨_, hspares.before hretains, ?_⟩
    refine .leftHalf hspill hmissing hinner hdecide hmarkRight hdecidedTarget hsize hx
      (fun p hp hp' => .inl ⟨hp, hp'⟩) (fun _ => hpath _ _ _ _ _ fun p hp hp' => .inr (by grind)) ?_
    intro hopen
    rw [hopen] at hdecides
    cases hdecides
  · intro span a m stack x hsize hx hopen
    have htemp := (hspill.spilled hsize (x.value l.ty)).later (by grind : s₅ ≤ s₉)
    refine ⟨_, (Memory.Spares.setLocal hspill.spill.2 (x.value l.ty)).before hretains, ?_, ?_⟩
    · refine .leftHalf hspill hmissing hinner hdecide hmarkRight hdecidedTarget hsize hx
        (fun p hp hp' => .inl ⟨hp, hp'⟩) (fun hdecided => ?_) fun _ => .refl _ _
      rw [hopen] at hdecided
      cases hdecided
    · intro a k y hsize' hy hsaves
      have hfresh : slot ∉ s.pool.live := fun h => hspill.spill.2 (hretains.live h)
      have htemp : k.Temp s₁₀ slot (x.value l.ty) :=
        ⟨(htemp.later hright.retains).holding,
          (hsaves slot ⟨htemp.holding.2 slot rfl, hfresh⟩).trans htemp.value⟩
      refine ⟨_, (Memory.Spares.setLocal hspill'.spill.2 (y.value r.ty)).before (by grind), ?_⟩
      exact .rightHalf hspill' hentry hmissing' hload hwrap hjump habsent hdecidedTarget hdoneTarget
        hty hsize' hx hy hopen htemp (fun p hp hp' => .inr (by grind)) fun n =>
          hpath _ _ _ _ _ fun p hp hp' => .inr (by grind)

/-! ## Constants -/

/-- Pushing a truth value. -/
theorem Run.Via.pushTruth {span : Span} {within : Nat → Prop} {a : Around} {m : Memory}
    {stack : List Value} {x : Truth}
    (h : (Job.ofRoutine setting hR).Emits start (Emit.pushTruth x ty) s () t)
    (hx : x = .absent → ty.isNullable = true)
    (hp : ∀ p, s.position ≤ p → p < t.position → within p) :
    Via setting.registry R span within s.position (m.state a stack) t.position
      (m.state a (x.value ty :: stack)) := by
  unfold Emit.pushTruth at h
  unfold Truth.value
  cases hoption : x.toOption with
  | none =>
      simp only [hoption] at h
      have hnullable : ty.isNullable = true := by
        cases x with
        | absent => exact hx rfl
        | true | false => cases hoption
      have hend := h.instr_position
      exact .instr h (fun _ => rfl) (hp _ (by omega) (by omega))
        (.loadDefault _ _ _ (Registry.zero_nullable _ hnullable)) (.refl _ _)
  | some b =>
      simp only [hoption] at h
      obtain ⟨_, u, hconst, hwrap⟩ := h.bind
      refine .instr hconst (fun _ => rfl) (hp _ (by grind) (by grind)) (.const _ _ _ _) ?_
      exact .wrapIf hwrap (fun p hp' hp'' => hp p (by grind) (by grind)) (.refl _ _)

/-- The code of a constant pushes its truth value. -/
theorem Expr.pushes_of_constantTruth? {e : Expr} {x : Truth} (hx : e.constantTruth? = some x)
    (hbool : e.ty.underlying = .bool) : e.Pushes setting hR (x.value e.ty) := by
  obtain ⟨k, ty⟩ := e
  replace hbool : ty.underlying = .bool := hbool
  cases k with
  | constant value =>
    cases value with
    | null =>
      obtain ⟨hnullable, rfl⟩ : ty.isNullable = true ∧ x = .absent := by
        cases hty : ty.isNullable with
        | true => simpa [Expr.constantTruth?, Expr.kind, Expr.ty, hty, eq_comm] using hx
        | false => simp [Expr.constantTruth?, Expr.kind, Expr.ty, hty] at hx
      exact pushes_null hnullable
    | bool b =>
      obtain rfl := Option.some.inj hx
      rw [Truth.value_ofOption]
      exact pushes_literal rfl
    | _ => cases hx
  | default =>
    obtain rfl := Option.some.inj hx
    change (Expr.node .default ty).Pushes setting hR
      ((if ty.isNullable then Truth.absent else .false).value ty)
    cases ty with
    | bool => exact pushes_default rfl (Registry.zero_bool _)
    | nullable inner => exact pushes_default rfl (Registry.zero_nullable _ rfl)
    | _ => cases hbool
  | _ => cases hx

/-! ## Evaluation -/

/-- A short-circuit operator folds two constants, and short-circuits otherwise. -/
theorem logical_cases {e : Emitted}
    (h : (Job.ofRoutine setting hR).Emits start (Emit.logical op l r ty exit) s e t) :
    (∃ x y, l.expr.constantTruth? = some x ∧ r.expr.constantTruth? = some y ∧
      l.ty.underlying = .bool ∧ r.ty.underlying = .bool ∧ e.usedExit = false ∧
      ∀ (span : Span) (a : Around) (m : Memory) (stack : List Value),
        Run.Via setting.registry R span (fun p => s.position ≤ p ∧ p < t.position) s.position
          (m.state a stack) t.position (m.state a ((Emit.foldLogical op x y).value ty :: stack))) ∨
      ((∀ x y, l.expr.constantTruth? = some x → r.expr.constantTruth? ≠ some y) ∧
        ∃ o : Sections (Job.ofRoutine setting hR) start l r exit s t, ShortCircuits op ty o) := by
  simp only [Emit.logical] at h
  split at h
  · exact h.mismatch.elim
  next hl =>
  split at h
  · exact h.mismatch.elim
  next hr =>
  split at h
  · exact h.mismatch.elim
  next hty =>
  have hty : (l.ty.isNullable || r.ty.isNullable) = true → ty.isNullable = true := by
    intro hlifted
    simpa [hlifted] using hty
  split at h
  · next x y hx hy =>
    obtain ⟨_, u, hpush, h⟩ := h.bind
    obtain ⟨rfl, rfl⟩ := h.pure
    refine .inl ⟨x, y, hx, hy, not_not.mp hl, not_not.mp hr, rfl, fun span a m stack => ?_⟩
    refine .pushTruth hpush ?_ fun p hp hp' => ⟨hp, hp'⟩
    intro habsent
    refine hty (Bool.or_eq_true_iff.mpr ?_)
    rcases LogicalOp.absent_of_fold habsent with rfl | rfl
    · exact .inl (Expr.isNullable_of_constantTruth? hx)
    · exact .inr (Expr.isNullable_of_constantTruth? hy)
  · next hconstant =>
    refine .inr ⟨fun x y hx hy => hconstant x y hx hy, ?_⟩
    split at h
    · next hlifted => exact shortCircuits_lifted (hty hlifted) h
    · next hplain => exact shortCircuits_plain (by simpa using hplain) h

/-- The value of a short-circuit operator of a tree. -/
theorem logicalNode {left right : Expr} {used : Bool}
    (h : (Job.ofRoutine setting hR).Emits start
      ((Expr.node (.logical op left right) ty).toNode.value exit) s used t) :
    ∃ e, e.usedExit = used ∧ (Job.ofRoutine setting hR).Emits start
      (Emit.logical op left.toNode right.toNode ty exit) s e t :=
  h.layer fun id h => by cases h

/-- A short-circuit operator on two constants pushes what their truth values combine to. -/
theorem Expr.pushes_logical {left right : Expr} {x y : Truth} (hx : left.constantTruth? = some x)
    (hy : right.constantTruth? = some y) :
    (Expr.node (.logical op left right) ty).Pushes setting hR ((Emit.foldLogical op x y).value ty) := by
  intro start exit s t used h
  obtain ⟨e, rfl, hlogical⟩ := logicalNode h
  rcases logical_cases hlogical with ⟨x', y', hx', hy', -, -, hused, hfold⟩ | ⟨hconstant, -⟩
  · rw [toNode_expr] at hx' hy'
    obtain rfl := Option.some.inj (hx.symm.trans hx')
    obtain rfl := Option.some.inj (hy.symm.trans hy')
    exact ⟨hused, hfold⟩
  · rw [toNode_expr, toNode_expr] at hconstant
    exact absurd hy (hconstant x y hx)

/-- **Short-circuit evaluation.**  In every routine, the code of a short-circuit operator either folds
two constant operands, to the value that those combine to which the constants push, or it has the
values of its operands in two sections.  From an evaluation of the left one to a truth value it goes
on to the result without the right one if that value decides the operator.  Otherwise it goes on to
the right one, and from an evaluation of that to the result, provided that this evaluation leaves the
locals alone in which the node waits.  The code of the right operand names none of these unless the
value of a label is there; so it leaves them alone if nothing leads to them (`Sections.saves`).  What the node adds to the moments of the evaluations are positions of its
own code. -/
theorem passes_logical {left right : Expr} {used : Bool}
    (h : (Job.ofRoutine setting hR).Emits start
      ((Expr.node (.logical op left right) ty).toNode.value exit) s used t) :
    (∃ x y, left.constantTruth? = some x ∧ right.constantTruth? = some y ∧
      left.Pushes setting hR (x.value left.ty) ∧ right.Pushes setting hR (y.value right.ty) ∧
      (Expr.node (.logical op left right) ty).Pushes setting hR ((Emit.foldLogical op x y).value ty)) ∨
    ∃ o : Sections (Job.ofRoutine setting hR) start left.toNode right.toNode exit s t,
      (∀ k, o.Waits k →
        (∀ id info, o.rightStart.labels.lookup id = some info → info.valueSlot ≠ some k) →
        o.Unnamed k) ∧
      ∀ (span : Span) (a₀ a₁ : Around) (m₀ m₁ : Memory) (stack : List Value) (x : Truth)
        (ms₁ : List Moment),
        Run.Passes setting.registry R span s.position (m₀.state a₀ stack) ms₁ o.leftEnd.position
          (m₁.state a₁ (x.value left.ty :: stack)) →
        m₁.locals.size = R.locals.size → (x = .absent → left.ty.isNullable = true) →
        ∃ n own, m₁.Spares s n ∧ (∀ k ∈ own, k.routine = R ∧ o.Own k.pc) ∧
          (op.decidedBy x = true → ∀ y,
            Run.Passes setting.registry R span s.position (m₀.state a₀ stack) (ms₁ ++ own) t.position
              (n.state a₁ ((Emit.foldLogical op x y).value ty :: stack))) ∧
          (op.decidedBy x = false →
            Run.Passes setting.registry R span s.position (m₀.state a₀ stack) (ms₁ ++ own)
              o.rightStart.position (n.state a₁ stack) ∧
            ∀ (a₂ : Around) (m₂ : Memory) (y : Truth) (ms₂ : List Moment),
              Run.Passes setting.registry R span o.rightStart.position (n.state a₁ stack) ms₂
                o.rightEnd.position (m₂.state a₂ (y.value right.ty :: stack)) →
              m₂.locals.size = R.locals.size → (y = .absent → right.ty.isNullable = true) →
              o.Saves n m₂ → ∃ n₂ own₂, m₂.Spares s n₂ ∧
                (∀ k ∈ own₂, k.routine = R ∧ o.Own k.pc) ∧
                Run.Passes setting.registry R span s.position (m₀.state a₀ stack)
                  (ms₁ ++ own ++ ms₂ ++ own₂) t.position
                  (n₂.state a₂ ((Emit.foldLogical op x y).value ty :: stack))) := by
  obtain ⟨e, -, h⟩ := logicalNode h
  rcases logical_cases h with ⟨x, y, hx, hy, hleft, hright, -⟩ | ⟨-, o, ho⟩
  · rw [Expr.toNode_expr] at hx hy
    rw [Expr.toNode_ty] at hleft hright
    exact .inl ⟨x, y, hx, hy, Expr.pushes_of_constantTruth? hx hleft,
      Expr.pushes_of_constantTruth? hy hright, Expr.pushes_logical hx hy⟩
  · refine .inr ⟨o, fun k => o.unnamed h.sound, fun span a₀ a₁ m₀ m₁ stack x ms₁ hleft hsize hx => ?_⟩
    have hdecided := ho.decided span a₁ m₁ stack x hsize
    have hundecided := ho.undecided span a₁ m₁ stack x hsize
    simp only [Expr.toNode_ty] at hdecided hundecided
    cases hdecides : op.decidedBy x with
    | true =>
        obtain ⟨n, hspares, own, hpasses, hown⟩ := hdecided hx hdecides
        refine ⟨n, own, hspares, hown, fun _ y => ?_, fun h => by cases h⟩
        rw [LogicalOp.fold_of_decidedBy hdecides]
        exact hleft.trans hpasses
    | false =>
        obtain ⟨n, hspares, ⟨own, hpasses, hown⟩, hrest⟩ := hundecided hx hdecides
        refine ⟨n, own, hspares, hown, fun h => (by cases h), fun _ => ⟨hleft.trans hpasses, ?_⟩⟩
        intro a₂ m₂ y ms₂ hright hsize hy hsaves
        obtain ⟨n₂, hspares, own₂, hpasses', hown₂⟩ := hrest a₂ m₂ y hsize hy hsaves
        exact ⟨n₂, own₂, hspares, hown₂, ((hleft.trans hpasses).trans hright).trans hpasses'⟩

/-- The conjunction of the parameters. -/
def conjunction : Expr :=
  .node (.logical .andAlso (.node (.parameter 0) (.nullable .bool))
    (.node (.parameter 1) (.nullable .bool))) (.nullable .bool)

/-- The conjunction of a present `true` and an absent operand evaluates both, and is absent. -/
theorem passes_conjunction :
    ∃ (R : Routine) (hR : R.WithinLimits) (t : Emission) (used : Bool),
      (Job.ofRoutine ⟨.builtin, .default⟩ hR).Emits 0 (conjunction.toNode.value none) beforeFlags used
        t ∧
      ∀ (span : Span) (a : Around) (m : Memory), m.args = #[.present (.bool true), .absent] →
        m.locals.size = R.locals.size → ∃ (ms : List Moment) (n : Memory),
          Run.Passes .builtin R span 0 (m.state a []) ms t.position (n.state a [.absent]) := by
  obtain ⟨used, t, R, hrun, hfinish, hR⟩ : ∃ used t R,
      (conjunction.toNode.value none).run ⟨.builtin, .default⟩ beforeFlags = .ok used t ∧
        t.builder.finish (.unit 0) = .ok R ∧ R.WithinLimits := ⟨_, _, _, rfl, rfl, by decide⟩
  have h : (Job.ofRoutine ⟨.builtin, .default⟩ hR).Emits 0 (conjunction.toNode.value none)
      beforeFlags used t := .ofFinish hrun sound_beforeFlags hfinish
  refine ⟨R, hR, t, used, h, fun span a m hargs hsize => ?_⟩
  rcases passes_logical h with ⟨x, y, hx, -⟩ | ⟨o, -, ho⟩
  · cases hx
  have hleft := o.entered.scope
  have hright := (o.left.retains.trans o.passed).scope.trans hleft
  obtain ⟨ms₁, hfirst, -⟩ : Run.Via .builtin R span (fun _ => True) _ (m.state a []) _ _ :=
    .argument 0 o.left (by rw [hleft]; rfl) rfl (by rw [hargs]; rfl) fun _ _ _ => trivial
  rw [o.first] at hfirst
  obtain ⟨n, own, hspares, -, -, hopen⟩ := ho span a a m m [] .true ms₁ hfirst hsize
    fun h => by cases h
  obtain ⟨-, hrest⟩ := hopen rfl
  obtain ⟨ms₂, hsecond, -⟩ : Run.Via .builtin R span (fun _ => True) _ (n.state a []) _ _ :=
    .argument 1 o.right (by rw [hright]; rfl) rfl (by rw [hspares.args, hargs]; rfl)
      fun _ _ _ => trivial
  obtain ⟨n₂, own₂, -, -, hpasses⟩ := hrest a n .absent ms₂ hsecond (hspares.size.trans hsize)
    (fun _ => rfl) fun _ _ => rfl
  exact ⟨_, n₂, hpasses⟩

end Arbor
