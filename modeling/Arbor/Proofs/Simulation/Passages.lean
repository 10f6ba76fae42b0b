/-
  Emitted code that calls nothing, as passages.

  The lemmas take the code of an emitter from front to back, as those about code
  that follows evaluations do, but they hold in every routine: protected regions
  play no part as long as nothing traps.
-/
import Arbor.Proofs.Machine.Passages
import Arbor.Proofs.Simulation.Lifted

set_option autoImplicit false

namespace Arbor

/-- The job of a routine, with its protected regions left aside. -/
def Job.ofRoutine (setting : Setting) {R : Routine} (h : R.WithinLimits) : Job where
  setting := setting
  routine := { R with regions := [] }
  limits := ⟨h.locals, h.code⟩
  flat := rfl

@[grind →]
theorem Job.Emits.target {setting : Setting} {R : Routine} {hR : R.WithinLimits} {start : Nat}
    {s t : Emission} {l : Label} (h : (Job.ofRoutine setting hR).Emits start (Emit.mark l) s () t) :
    R.target? l = some t.position := by
  obtain ⟨htarget, hposition, -⟩ := h.mark
  rw [hposition]
  exact htarget

/-- Moving a value into a temporary takes an instruction; the temporary was not in use. -/
@[grind →]
theorem Job.Emits.spill {J : Job} {start : Nat} {s t : Emission} {ty : Ty} {slot : Nat}
    (h : J.Emits start (Emit.spill ty) s slot t) :
    t.position = s.position + 1 ∧ slot ∉ s.pool.live := by
  obtain ⟨slot', u, htemp, h⟩ := h.bind
  obtain ⟨_, v, hstore, h⟩ := h.bind
  obtain ⟨rfl, rfl⟩ := h.pure
  obtain ⟨hposition, -, hfresh, -⟩ := htemp.temp
  exact ⟨by rw [hstore.instr_position, hposition], hfresh⟩

/-- A temporary into which a value has been moved is in use for it. -/
theorem Job.Emits.spillHolding {J : Job} {start : Nat} {s t : Emission} {ty : Ty} {slot : Nat}
    (h : J.Emits start (Emit.spill ty) s slot t) :
    t.Holding (.local slot) ∧ slot < J.routine.locals.size := by
  obtain ⟨slot', u, htemp, h⟩ := h.bind
  obtain ⟨_, t', hstore, h⟩ := h.bind
  obtain ⟨rfl, rfl⟩ := h.pure
  obtain ⟨-, hlive, hfresh, hbound⟩ := htemp.temp
  have hlive : slot ∈ t.pool.live := by
    rw [hstore.instr.2.2.1, hlive]
    exact List.mem_cons_self
  exact ⟨htemp.sound.holding (htemp.retains.trans hstore.retains) hlive hfresh, hbound⟩

/-- A value that has been moved into a temporary is there. -/
theorem Job.Emits.spilled {J : Job} {start : Nat} {s t : Emission} {ty : Ty} {slot : Nat} {m : Memory}
    (h : J.Emits start (Emit.spill ty) s slot t) (hsize : m.locals.size = J.routine.locals.size)
    (v : Value) : (m.setLocal slot v).Temp t slot v := by
  obtain ⟨hholding, hbound⟩ := h.spillHolding
  rw [← hsize] at hbound
  exact ⟨hholding, by simp [Memory.setLocal, hbound]⟩

/-- The second memory is the first one but for locals that are not in use. -/
structure Memory.Spares (s : Emission) (m n : Memory) : Prop where
  heap : n.heap = m.heap
  statics : n.statics = m.statics
  args : n.args = m.args
  size : n.locals.size = m.locals.size
  live : ∀ i ∈ s.pool.live, n.locals[i]? = m.locals[i]?

namespace Memory.Spares

variable {s t : Emission} {m n k : Memory}

theorem refl (s : Emission) (m : Memory) : m.Spares s m := ⟨rfl, rfl, rfl, rfl, fun _ _ => rfl⟩

theorem trans (h : m.Spares s n) (h' : n.Spares s k) : m.Spares s k where
  heap := h'.heap.trans h.heap
  statics := h'.statics.trans h.statics
  args := h'.args.trans h.args
  size := h'.size.trans h.size
  live i hi := (h'.live i hi).trans (h.live i hi)

theorem before (h : m.Spares t n) (hretains : s ≤ t) : m.Spares s n :=
  ⟨h.heap, h.statics, h.args, h.size, fun i hi => h.live i (hretains.live hi)⟩

theorem setLocal {slot : Nat} (h : slot ∉ s.pool.live) (v : Value) :
    m.Spares s (m.setLocal slot v) where
  heap := rfl
  statics := rfl
  args := rfl
  size := by simp [Memory.setLocal]
  live i hi := by
    have hne : slot ≠ i := fun heq => h (heq ▸ hi)
    simp [Memory.setLocal, Array.getElem?_setIfInBounds_ne hne]

theorem temp {slot : Nat} {v : Value} (h : m.Spares s n) (htemp : m.Temp s slot v) :
    n.Temp s slot v :=
  ⟨htemp.holding, (h.live slot (htemp.holding.2 slot rfl)).trans htemp.value⟩

end Memory.Spares

namespace Run.Via

variable {setting : Setting} {R : Routine} {hR : R.WithinLimits} {start : Nat} {s t u : Emission}
  {span : Span} {within : Nat → Prop} {a : Around} {m n : Memory} {stack rest : List Value} {q : Nat}
  {b c : State}

theorem move (hposition : u.position = s.position)
    (h : Via setting.registry R span within u.position b q c) :
    Via setting.registry R span within s.position b q c := hposition ▸ h

/-- Execution goes on behind an instruction that calls no routine. -/
theorem silent {i : Instr} (h : (Job.ofRoutine setting hR).Emits start (Emit.instr i) s () t)
    (hi : Silent setting.registry R i) (hp : within s.position)
    (hstep : Steps setting.registry R i (m.state a stack) (.ok .next (n.state a rest)))
    (hrest : Via setting.registry R span within t.position (n.state a rest) q c) :
    Via setting.registry R span within s.position (m.state a stack) q c := by
  obtain ⟨hcode, hposition, -⟩ := h.instr
  rw [hposition] at hrest
  exact next hcode hi hp hstep hrest

theorem instr {i : Instr} (h : (Job.ofRoutine setting hR).Emits start (Emit.instr i) s () t)
    (hi : Quiet setting.registry R i) (hp : within s.position)
    (hstep : Steps setting.registry R i (m.state a stack) (.ok .next (n.state a rest)))
    (hrest : Via setting.registry R span within t.position (n.state a rest) q c) :
    Via setting.registry R span within s.position (m.state a stack) q c :=
  silent h hi.silent hp hstep hrest

theorem goto {i : Instr} (h : (Job.ofRoutine setting hR).Emits start (Emit.instr i) s () t)
    (hi : Quiet setting.registry R i) (hp : within s.position)
    (hstep : Steps setting.registry R i (m.state a stack)
      (.ok (.jump u.position) (m.state a rest)))
    (hrest : Via setting.registry R span within u.position (m.state a rest) q c) :
    Via setting.registry R span within s.position (m.state a stack) q c :=
  jump h.instr.1 hi.silent hp hstep hrest

/-- Execution goes on at the target of a conditional jump, or behind it. -/
theorem branch {i : Instr} {condition : Bool}
    (h : (Job.ofRoutine setting hR).Emits start (Emit.instr i) s () t)
    (hi : Quiet setting.registry R i) (hp : within s.position)
    (hstep : Steps setting.registry R i (m.state a stack)
      (.ok (Steps.branch condition u.position) (m.state a rest)))
    (hjump : condition = true → Via setting.registry R span within u.position (m.state a rest) q c)
    (hnext : condition = false →
      Via setting.registry R span within t.position (m.state a rest) q c) :
    Via setting.registry R span within s.position (m.state a stack) q c := by
  cases condition with
  | true => exact goto h hi hp hstep (hjump rfl)
  | false => exact instr h hi hp hstep (hnext rfl)

/-! ## Operands in temporaries -/

/-- The value on the stack is moved into a fresh temporary. -/
theorem spill {ty : Ty} {slot : Nat} {v : Value}
    (h : (Job.ofRoutine setting hR).Emits start (Emit.spill ty) s slot t)
    (hsize : m.locals.size = R.locals.size) (hp : within s.position)
    (hrest : Via setting.registry R span within t.position ((m.setLocal slot v).state a stack) q c) :
    Via setting.registry R span within s.position (m.state a (v :: stack)) q c := by
  obtain ⟨slot', s₁, htemp, h⟩ := h.bind
  obtain ⟨_, s₂, hstore, h⟩ := h.bind
  obtain ⟨rfl, rfl⟩ := h.pure
  obtain ⟨hposition, -, -, hbound⟩ := htemp.temp
  have hbound : slot < m.locals.size := by
    rw [hsize]
    exact hbound
  exact move hposition
    (instr hstore (fun _ => rfl) (hposition ▸ hp) (.storeLocal _ _ _ _ hbound) hrest)

theorem loadTemp {slot : Nat} {v : Value}
    (h : (Job.ofRoutine setting hR).Emits start (Emit.instr (.loadLocal slot)) s () t)
    (htemp : m.Temp s slot v) (hp : within s.position)
    (hrest : Via setting.registry R span within t.position (m.state a (v :: stack)) q c) :
    Via setting.registry R span within s.position (m.state a stack) q c :=
  instr h (fun _ => rfl) hp (.loadLocal _ _ _ htemp.value) hrest

theorem wrapIf {condition : Bool} {v : Value}
    (h : (Job.ofRoutine setting hR).Emits start (Emit.wrapIf condition) s () t)
    (hp : ∀ p, s.position ≤ p → p < t.position → within p)
    (hrest : Via setting.registry R span within t.position
      (m.state a (v.wrapIf condition :: stack)) q c) :
    Via setting.registry R span within s.position (m.state a (v :: stack)) q c := by
  rcases h.wrapIf with ⟨rfl, h⟩ | ⟨rfl, rfl⟩
  · have hend := h.instr_position
    exact instr h (fun _ => rfl) (hp _ (by omega) (by omega)) (.optWrap _ _ _ v) hrest
  · exact hrest

/-- Loading what is inside an operand that is present. -/
theorem loadInner {o : Operand} {v x : Value}
    (h : (Job.ofRoutine setting hR).Emits start (Emit.loadInner o) s () t)
    (htemp : m.Temp s o.slot v) (hx : v.payloadAt? o.ty = some x)
    (hp : ∀ p, s.position ≤ p → p < t.position → within p)
    (hrest : Via setting.registry R span within t.position (m.state a (x :: stack)) q c) :
    Via setting.registry R span within s.position (m.state a stack) q c := by
  obtain ⟨_, u, hload, h⟩ := h.bind
  have hafter := h.position_le
  have hposition := hload.instr_position
  refine loadTemp hload htemp (hp _ (Nat.le_refl _) (by omega)) ?_
  unfold Value.payloadAt? at hx
  cases hty : o.ty with
  | nullable inner =>
      simp only [hty, Ty.inner?, Ty.isNullable, if_true] at h hx
      have hend := h.instr_position
      exact instr h (fun _ => rfl) (hp _ (by omega) (by omega)) (.optValueOrDefault _ _ _ inner hx)
        hrest
  | _ =>
      simp only [hty, Ty.inner?, Ty.isNullable, Bool.false_eq_true, if_false,
        Option.some.injEq] at h hx
      obtain ⟨-, rfl⟩ := h.pure
      rw [hx]
      exact hrest

/-- Loading whether an operand is present. -/
theorem loadPresence {o : Operand} {v : Value}
    (h : (Job.ofRoutine setting hR).Emits start (Emit.loadPresence o) s () t)
    (htemp : m.Temp s o.slot v) (hp : ∀ p, s.position ≤ p → p < t.position → within p)
    (hrest : Via setting.registry R span within t.position
      (m.state a (.bool (v.payloadAt? o.ty).isSome :: stack)) q c) :
    Via setting.registry R span within s.position (m.state a stack) q c := by
  unfold Emit.loadPresence at h
  unfold Value.payloadAt? at hrest
  cases hty : o.ty.isNullable with
  | true =>
      simp only [hty, if_true] at h hrest
      obtain ⟨_, u, hload, h⟩ := h.bind
      have hposition := hload.instr_position
      have hend := h.instr_position
      refine loadTemp hload htemp (hp _ (by omega) (by omega)) ?_
      refine instr h (fun _ => rfl) (hp _ (by omega) (by omega)) (.optHasValue _ _ _ v) ?_
      rw [← Value.payload?_isNone, Option.not_isNone]
      exact hrest
  | false =>
      simp only [hty, Bool.false_eq_true, if_false, Option.isSome_some] at h hrest
      have hend := h.instr_position
      exact instr h (fun _ => rfl) (hp _ (by omega) (by omega)) (.const _ _ _ _) hrest

/-- A jump where an optional in a temporary is absent. -/
theorem presenceTest {slot : Nat} {v : Value} {missing : Label}
    (h : (Job.ofRoutine setting hR).Emits start
      (Emit.instrs [.loadLocal slot, .optHasValue, .jumpIfFalse missing]) s () t)
    (htemp : m.Temp s slot v) (htarget : R.target? missing = some u.position)
    (hp : ∀ p, s.position ≤ p → p < t.position → within p)
    (hmissing : v.payload? = none →
      Via setting.registry R span within u.position (m.state a stack) q c)
    (hpresent : ∀ x, v.payload? = some x →
      Via setting.registry R span within t.position (m.state a stack) q c) :
    Via setting.registry R span within s.position (m.state a stack) q c := by
  obtain ⟨s₁, hload, h⟩ := h.instrs_cons
  obtain ⟨s₂, hhas, h⟩ := h.instrs_cons
  obtain ⟨s₃, hjump, h⟩ := h.instrs_cons
  obtain rfl := h.instrs_nil
  have hfirst := hload.instr_position
  have hsecond := hhas.instr_position
  have hthird := hjump.instr_position
  refine loadTemp hload htemp (hp _ (by omega) (by omega)) ?_
  refine instr hhas (fun _ => rfl) (hp _ (by omega) (by omega)) (.optHasValue _ _ _ v) ?_
  rw [← Value.payload?_isNone, Option.not_isNone]
  refine branch hjump (fun _ => rfl) (hp _ (by omega) (by omega)) (.jumpIfFalse _ _ _ _ htarget) ?_ ?_
  · intro habsent
    refine hmissing ?_
    cases hv : v.payload? with
    | none => rfl
    | some x => simp [hv, Value.isTruthy] at habsent
  · intro hthere
    cases hv : v.payload? with
    | none => simp [hv, Value.isTruthy] at hthere
    | some x => exact hpresent x hv

/-- A jump where an operand is absent. -/
theorem jumpIfMissing {o : Operand} {v : Value} {missing : Label}
    (h : (Job.ofRoutine setting hR).Emits start (Emit.jumpIfMissing o missing) s () t)
    (htemp : m.Temp s o.slot v)
    (htarget : o.ty.isNullable = true → R.target? missing = some u.position)
    (hp : ∀ p, s.position ≤ p → p < t.position → within p)
    (hmissing : v.payloadAt? o.ty = none →
      Via setting.registry R span within u.position (m.state a stack) q c)
    (hpresent : ∀ x, v.payloadAt? o.ty = some x →
      Via setting.registry R span within t.position (m.state a stack) q c) :
    Via setting.registry R span within s.position (m.state a stack) q c := by
  unfold Emit.jumpIfMissing at h
  unfold Value.payloadAt? at hmissing hpresent
  cases hty : o.ty.isNullable with
  | true =>
      simp only [hty, if_true] at h hmissing hpresent
      exact presenceTest h htemp (htarget hty) hp hmissing hpresent
  | false =>
      simp only [hty, Bool.false_eq_true, if_false] at h hpresent
      obtain ⟨-, rfl⟩ := h.pure
      exact hpresent v rfl

/-- The presence tests of operands lead behind them if all are present. -/
theorem presenceTests {os : List Operand} {vs : List Value} {missing : Label}
    (h : (Job.ofRoutine setting hR).Emits start ((os.filter (·.ty.isNullable)).forM fun o =>
      Emit.instrs [.loadLocal o.slot, .optHasValue, .jumpIfFalse missing]) s () t)
    (htemps : List.Forall₂ (fun o v => m.Temp s o.slot v) os vs)
    (htarget : R.target? missing = some u.position)
    (hp : ∀ p, s.position ≤ p → p < t.position → within p)
    (hmissing : ¬ List.Forall₂ (fun o v => (v.payloadAt? o.ty).isSome = true) os vs →
      Via setting.registry R span within u.position (m.state a stack) q c)
    (hpresent : List.Forall₂ (fun o v => (v.payloadAt? o.ty).isSome = true) os vs →
      Via setting.registry R span within t.position (m.state a stack) q c) :
    Via setting.registry R span within s.position (m.state a stack) q c := by
  induction os generalizing s vs with
  | nil =>
      cases htemps
      obtain ⟨-, rfl⟩ := h.pure
      exact hpresent .nil
  | cons o os ih =>
      obtain ⟨v, vs, htemp, hothers, rfl⟩ := List.forall₂_cons_left_iff.mp htemps
      cases hty : o.ty.isNullable with
      | true =>
          simp only [List.filter_cons, hty, if_true] at h
          obtain ⟨_, s₁, hfirst, hrest⟩ := h.bind
          have hfirstEnd := hfirst.position_le
          have hrestEnd := hrest.position_le
          refine presenceTest hfirst htemp htarget (fun p hp' hp'' => hp p hp' (by omega)) ?_ ?_
          · intro hv
            refine hmissing ?_
            intro hall
            cases hall with
            | cons hhead _ => simp [Value.payloadAt?, hty, hv] at hhead
          · intro x hx
            have hhead : (v.payloadAt? o.ty).isSome = true := by simp [Value.payloadAt?, hty, hx]
            refine ih hrest ?_ (fun p hp' hp'' => hp p (by omega) hp'')
              (fun hsome => hmissing fun hall => ?_) fun hall => hpresent (.cons hhead hall)
            · exact hothers.imp fun _ _ htemp => htemp.later hfirst.retains
            · cases hall with
              | cons _ htail => exact hsome htail
      | false =>
          simp only [List.filter_cons, hty, Bool.false_eq_true, if_false] at h
          have hhead : (v.payloadAt? o.ty).isSome = true := by simp [Value.payloadAt?, hty]
          refine ih h hothers hp (fun hsome => hmissing fun hall => ?_) fun hall =>
            hpresent (.cons hhead hall)
          cases hall with
          | cons _ htail => exact hsome htail

/-- Pushing the default of a type that has a zero value. -/
theorem pushDefault {ty : Ty} {v : Value}
    (h : (Job.ofRoutine setting hR).Emits start (Emit.pushDefault ty) s () t)
    (hvoid : ty.isVoid = false) (hzero : setting.registry.zero ty = .ok v)
    (hp : ∀ p, s.position ≤ p → p < t.position → within p)
    (hrest : Via setting.registry R span within t.position (m.state a (v :: stack)) q c) :
    Via setting.registry R span within s.position (m.state a stack) q c := by
  simp only [Emit.pushDefault, hvoid, Bool.false_eq_true, if_false] at h
  split at h
  · have hend := h.instr_position
    exact instr h (fun _ => rfl) (hp _ (by omega) (by omega)) (.loadDefault _ _ _ hzero) hrest
  · next hvalue =>
    have hnull : v = .null := by
      cases ty with
      | bool | num k | nullable inner | structTy id => exact absurd rfl hvalue
      | _ => simpa [Registry.zero, Registry.zeroFrom, eq_comm] using hzero
    have hend := h.instr_position
    rw [hnull] at hrest
    exact instr h (fun _ => rfl) (hp _ (by omega) (by omega)) (.const _ _ _ _) hrest

end Run.Via

end Arbor
