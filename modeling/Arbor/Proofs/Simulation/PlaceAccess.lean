/-
  Accesses to prepared places, and the operators of assignments.

  An access first pushes what it goes by: the operands of the place, which wait in
  temporaries, or the closure environment and the number of the variable.  Then it
  reads or writes.  The operator of an assignment has its operands in temporaries.
-/
import Arbor.Proofs.ElementAccess
import Arbor.Proofs.Simulation.TargetOperands

set_option autoImplicit false

namespace Arbor

/-! ## Accesses -/

namespace Emit

/-- Pushes what an access to a place goes by. -/
def addressPlace (p : Place) : Emit Unit := do
  match p.kind with
  | .closure i =>
      instr (.loadArg (← closureTable))
      int i
  | _ => loadPlaceOperands p

/-- Reads a place that is addressed. -/
def readPlace (p : Place) : Emit Unit := do
  match p.kind with
  | .var slot => loadVar slot
  | .closure _ =>
      instr .loadElem
      if p.ty = .object then pure () else instr (.unbox p.ty)
  | .field f => instr (.loadField f)
  | .staticField f => instr (.loadStatic f)
  | .property q => instr (.call (← accessor q .getter))
  | kind => instr kind.reader

/-- Writes a place that is addressed, with the value on top. -/
def writePlace (p : Place) : Emit Unit := do
  match p.kind with
  | .var slot => storeVar slot
  | .closure _ => instrs [.box p.ty, .storeElem]
  | .field f => instr (.storeField f)
  | .staticField f => instr (.storeStatic f)
  | .property q => instr (.call (← accessor q .setter))
  | kind => instr kind.writer

end Emit

/-- Places of the kind have a receiver or indices. -/
def PlaceKind.takesOperands : PlaceKind → Bool
  | .var _ | .closure _ | .staticField _ => false
  | _ => true

/-- The temporaries in which the operands of the place wait. -/
def Place.slots (p : Place) : List Nat := p.receiver.toList ++ p.indices

/-- A place of a kind without operands has none. -/
def Place.IsBare (p : Place) : Prop := p.kind.takesOperands = false → p.slots = []

namespace Job

variable {J : Job} {start : Nat} {s t : Emission} {p : Place}

/-- Where something is emitted, an accessor may be looked up first. -/
theorem emits_accessor {α : Type} {x : Emit α} {b : α} {q : PropertyRef} {which : Accessor} {d : PropertyDef}
    {m : MethodRef} (hd : J.setting.registry.property q = .ok d) (hm : d.accessor? which = some m)
    (h : J.Emits start x s b t) : J.Emits start (Emit.accessor q which) s m s := by
  have hnothing := emits_nothing h
  have hlookup : J.Emits start (Emit.lookup (·.property q)) s d s :=
    Emits.bind_iff.mpr ⟨J.setting.registry, s, ⟨rfl, hnothing.sound, hnothing.completes, hnothing.reached⟩, by
      simp only [hd]
      exact ⟨rfl, hnothing.sound, hnothing.completes, hnothing.reached⟩⟩
  refine Emits.bind_iff.mpr ⟨d, s, hlookup, ?_⟩
  cases which
  all_goals
    simp only [PropertyDef.accessor?] at hm
    simp only [hm]
    exact ⟨rfl, hnothing.sound, hnothing.completes, hnothing.reached⟩

/-- Loading a place addresses it and reads it. -/
theorem emits_loadPlace (hbare : p.IsBare) (h : J.Emits start (Emit.loadPlace p) s () t) :
    ∃ u, J.Emits start (Emit.addressPlace p) s () u ∧ J.Emits start (Emit.readPlace p) u () t := by
  obtain ⟨kind, receiver, indices, ty⟩ := p
  cases kind with
  | var slot | staticField f =>
      have hnone := hbare rfl
      simp only [Place.slots, List.append_eq_nil_iff, Option.toList_eq_nil_iff] at hnone
      obtain ⟨rfl, rfl⟩ := hnone
      exact ⟨s, emits_nothing h, h⟩
  | closure i =>
      obtain ⟨n, u, htable, hload⟩ := Emits.bind (x := Emit.closureTable) h
      obtain ⟨-, rfl⟩ := htable.closureTable
      simp only [Emit.loadTableElement, ↓Job.Emits.seq_iff] at hload
      obtain ⟨v, harg, w, hint, hrest⟩ := hload
      refine ⟨w, ?_, Emits.seq_iff.mpr hrest⟩
      exact Emits.bind_iff.mpr ⟨n, u, htable, Emits.seq_iff.mpr ⟨v, harg, hint⟩⟩
  | property q =>
      obtain ⟨m, u, hgetter, hload⟩ := Emits.bind (x := Emit.accessor q .getter) h
      obtain ⟨rfl, d, hd, hm⟩ := hgetter.accessor
      obtain ⟨v, hoperands, hcall⟩ := Emits.seq_iff.mp hload
      exact ⟨v, hoperands, Emits.bind_iff.mpr ⟨m, v, emits_accessor hd hm hcall, hcall⟩⟩
  | field f | arrayElem | listElem elem | mdElem elem rank => exact Emits.seq_iff.mp h

/-- Storing into a place addresses it, loads the value, and writes. -/
theorem emits_storePlace {slot : Nat} (hbare : p.IsBare) (h : J.Emits start (Emit.storePlace p slot) s () t) :
    ∃ u v, J.Emits start (Emit.addressPlace p) s () u ∧ J.Emits start (Emit.instr (.loadLocal slot)) u () v ∧
      J.Emits start (Emit.writePlace p) v () t := by
  have hstore : ∀ {q : Place} {i : Instr}, J.Emits start (do
      Emit.loadPlaceOperands q
      Emit.instrs [.loadLocal slot, i]) s () t →
      ∃ u v, J.Emits start (Emit.loadPlaceOperands q) s () u ∧
        J.Emits start (Emit.instr (.loadLocal slot)) u () v ∧ J.Emits start (Emit.instr i) v () t := by
    intro q i h
    simp only [↓Job.Emits.seq_iff, Job.Emits.instrs_cons_iff, Job.Emits.instrs_one_iff] at h
    obtain ⟨u, hoperands, v, hvalue, hwrite⟩ := h
    exact ⟨u, v, hoperands, hvalue, hwrite⟩
  obtain ⟨kind, receiver, indices, ty⟩ := p
  cases kind with
  | var target =>
      have hnone := hbare rfl
      simp only [Place.slots, List.append_eq_nil_iff, Option.toList_eq_nil_iff] at hnone
      obtain ⟨rfl, rfl⟩ := hnone
      obtain ⟨v, hvalue, hwrite⟩ := Emits.seq_iff.mp h
      exact ⟨s, v, emits_nothing h, hvalue, hwrite⟩
  | staticField f =>
      have hnone := hbare rfl
      simp only [Place.slots, List.append_eq_nil_iff, Option.toList_eq_nil_iff] at hnone
      obtain ⟨rfl, rfl⟩ := hnone
      have hinstrs : J.Emits start (Emit.instrs [.loadLocal slot, .storeStatic f]) s () t := h
      simp only [Job.Emits.instrs_cons_iff, Job.Emits.instrs_one_iff] at hinstrs
      obtain ⟨v, hvalue, hwrite⟩ := hinstrs
      exact ⟨s, v, emits_nothing h, hvalue, hwrite⟩
  | closure i =>
      obtain ⟨n, u, htable, hrest⟩ := Emits.bind (x := Emit.closureTable) h
      obtain ⟨-, rfl⟩ := htable.closureTable
      simp only [↓Job.Emits.seq_iff, Job.Emits.instrs_cons_iff] at hrest
      obtain ⟨v, harg, w, hint, x, hvalue, hwrite⟩ := hrest
      refine ⟨w, x, ?_, hvalue, ?_⟩
      · exact Emits.bind_iff.mpr ⟨n, u, htable, Emits.seq_iff.mpr ⟨v, harg, hint⟩⟩
      · exact Emits.instrs_cons_iff.mpr hwrite
  | property q =>
      obtain ⟨m, u, hsetter, hrest⟩ := Emits.bind (x := Emit.accessor q .setter) h
      obtain ⟨rfl, d, hd, hm⟩ := hsetter.accessor
      obtain ⟨v, w, hoperands, hvalue, hcall⟩ := hstore hrest
      exact ⟨v, w, hoperands, hvalue, Emits.bind_iff.mpr ⟨m, w, emits_accessor hd hm hcall, hcall⟩⟩
  | field f | arrayElem | listElem elem | mdElem elem rank => exact hstore h

end Job

/-- What an access to the place goes by, where its operands have the values: these, or the closure
environment in an argument and the number of the variable. -/
def Place.Pushes (p : Place) (table : Option Nat) (m : Memory) (ws vs : List Value) : Prop :=
  match p.kind with
  | .closure i => ∃ n v, table = some n ∧ m.args[n]? = some v ∧ vs = [v, .num (.i32 i)]
  | _ => vs = ws

namespace Run.Via

variable {setting : Setting} {R : Routine} {hR : R.WithinLimits} {start : Nat} {s t : Emission}
  {span : Span} {within : Nat → Prop} {a : Around} {m : Memory} {stack : List Value} {q : Nat} {c : State}
  {p : Place} {ws vs : List Value}

/-- What an access goes by is pushed. -/
theorem addressPlace (h : (Job.ofRoutine setting hR).Emits start (Emit.addressPlace p) s () t)
    (hslots : List.Forall₂ (fun (slot : Nat) (v : Value) => m.locals[slot]? = some v) p.slots ws)
    (hpushes : p.Pushes s.hidden.closureArg? m ws vs) (hp : ∀ p, s.position ≤ p → p < t.position → within p)
    (hrest : Via setting.registry R span within t.position (m.state a (vs.reverse ++ stack)) q c) :
    Via setting.registry R span within s.position (m.state a stack) q c := by
  have hoperands : vs = ws → (Job.ofRoutine setting hR).Emits start (Emit.loadPlaceOperands p) s () t →
      Via setting.registry R span within s.position (m.state a stack) q c := by
    rintro rfl h
    exact .loadLocals h hslots hp hrest
  unfold Emit.addressPlace at h
  unfold Place.Pushes at hpushes
  split at h
  · next i hkind =>
    simp only [hkind] at hpushes
    obtain ⟨n, v, hn, hv, rfl⟩ := hpushes
    obtain ⟨n', u, htable, hpush⟩ := Job.Emits.bind (x := Emit.closureTable) h
    obtain ⟨hfound, rfl⟩ := htable.closureTable
    obtain rfl : n' = n := by simpa [hfound] using hn
    obtain ⟨w, harg, hint⟩ := Job.Emits.seq_iff.mp hpush
    have hmiddle := harg.instr_position
    have hend := Job.Emits.instr_position (i := .const (.num (.i32 i))) hint
    refine .instr harg (fun _ => rfl) (hp _ (by omega) (by omega)) (.loadArg _ _ _ hv) ?_
    exact .instr (i := .const (.num (.i32 i))) hint (fun _ => rfl) (hp _ (by omega) (by omega))
      (.const _ _ _ _) hrest
  · next hkind =>
    refine hoperands ?_ h
    split at hpushes
    · next i hi => exact absurd hi (hkind i)
    · exact hpushes

end Run.Via

/-! ## Operators -/

/-- The operator makes the third value of the other two: its instruction makes it if both are present. -/
def BinaryOp.Gives (op : BinaryOp) (setting : Setting) (checked : Bool) (left right ty : Ty) (m : Memory)
    (x y z : Value) : Prop :=
  match x.payloadAt? left, y.payloadAt? right with
  | some x', some y' => ∃ v s, Run.binaryValue setting.registry op checked left.underlying x' y'
      (Run.bare m.heap m.statics) = .ok v s ∧ z = v.wrapIf ty.isNullable
  | x', y' => z = op.onAbsent setting.options ty (x'.isNone && y'.isNone)

/-- The operator of an assignment makes the third value of the old one and that of the operand; a step has
no operand, and takes one instead. -/
def AssignOp.Gives (op : AssignOp) (setting : Setting) (checked : Bool) (ty : Ty) (value : Option Expr)
    (m : Memory) (x : Value) (ys : List Value) (z : Value) : Prop :=
  ∃ b, op.binary? = some b ∧
    match value with
    | some e => ∃ y, ys = [y] ∧ b.Gives setting checked ty e.ty ty m x y z
    | none => ∃ k, ty.underlying.numKind? = some k ∧
        b.Gives setting checked ty (.num k) ty m x (.num (.one k)) z

namespace Run

variable {setting : Setting} {R : Routine} {hR : R.WithinLimits} {start : Nat} {s t : Emission}
  {span : Span} {a : Around} {m : Memory} {stack : List Value} {checked : Bool}

theorem Steps.binaryValue {op : BinaryOp} {ty : Ty} {x y v : Value} {u : State}
    (h : Run.binaryValue setting.registry op checked ty x y (bare m.heap m.statics) = .ok v u) :
    Steps setting.registry R (op.instr checked ty) (m.state a (y :: x :: stack))
      (.ok .next (m.state a (v :: stack))) := by
  have houtcome := (Computes.binary (r := setting.registry) (R := R) op checked ty x y).outcome
    (Leaves.binaryValue op checked _ x y) m a stack
  rwa [h] at houtcome

namespace Via

/-- An operator on operands in temporaries, of which the left one is of the type of the result. -/
theorem binarySlots {op : BinaryOp} {left right : Operand} {x y z : Value}
    (h : (Job.ofRoutine setting hR).Emits start (Emit.binarySlots op checked none left right left.ty) s () t)
    (hx : m.Temp s left.slot x) (hy : m.Temp s right.slot y)
    (hgives : op.Gives setting checked left.ty right.ty left.ty m x y z) :
    Via setting.registry R span (fun q => s.position ≤ q ∧ q < t.position) s.position (m.state a stack)
      t.position (m.state a (z :: stack)) := by
  unfold BinaryOp.Gives at hgives
  cases hnullable : left.ty.isNullable || right.ty.isNullable with
  | true =>
      obtain ⟨p, hp⟩ := Treatment.ofSlots_binary hnullable h
      have hinside := hp.inside
      split at hgives
      · next x' y' hx' hy' =>
        obtain ⟨v, u, hv, rfl⟩ := hgives
        refine Via.trans ((hp.present span a m stack x y x' y' hx hy hx' hy').imp fun q hq => hq.1) ?_
        exact .next hp.code (op.silent_instr _ _ _ _) hinside (.binaryValue hv)
          ((hp.behind span a m stack v).imp fun q hq => hq.1)
      · next hmissing =>
        refine (hp.missing span a m stack x y z hx hy ?_ hgives).imp fun q hq => hq.1
        cases hx' : x.payloadAt? left.ty with
        | none => exact .inl rfl
        | some x' =>
            cases hy' : y.payloadAt? right.ty with
            | none => exact .inr rfl
            | some y' => exact (hmissing x' y' hx' hy').elim
  | false =>
      obtain ⟨hleft, hright⟩ := Bool.or_eq_false_iff.mp hnullable
      simp only [Value.payloadAt?, hleft, hright, Bool.false_eq_true, if_false] at hgives
      obtain ⟨v, u, hv, rfl⟩ := hgives
      simp only [Emit.binarySlots, hnullable, Bool.not_false, if_true, ↓Job.Emits.seq_iff] at h
      obtain ⟨s₁, hloadLeft, s₂, hloadRight, hinstr⟩ := h
      have hfirst := Job.Emits.instr_position (i := .loadLocal left.slot) hloadLeft
      have hsecond := Job.Emits.instr_position (i := .loadLocal right.slot) hloadRight
      have hthird := hinstr.instr_position
      have hunderlying : left.ty.underlying = left.ty := by
        cases hty : left.ty <;> first | rfl | (rw [hty] at hleft; cases hleft)
      rw [hunderlying] at hv
      refine .loadTemp hloadLeft hx ⟨by omega, by omega⟩ ?_
      refine .loadTemp hloadRight (hy.later hloadLeft.retains) ⟨by omega, by omega⟩ ?_
      exact .silent hinstr (op.silent_instr _ _ _ _) ⟨by omega, by omega⟩ (.binaryValue hv) (.refl _ _)

/-- The value one step away from an operand in a temporary. -/
theorem stepped {op : AssignOp} {b : BinaryOp} {old : Operand} {k : NumKind} {x z : Value}
    (hstep : op.isStep = true) (hb : op.binary? = some b) (hk : old.ty.underlying.numKind? = some k)
    (h : (Job.ofRoutine setting hR).Emits start (Emit.stepped (Emit.stepOp op) k checked old) s () t)
    (hx : m.Temp s old.slot x)
    (hgives : b.Gives setting checked old.ty (.num k) old.ty m x (.num (.one k)) z) :
    Via setting.registry R span (fun q => s.position ≤ q ∧ q < t.position) s.position (m.state a stack)
      t.position (m.state a (z :: stack)) := by
  have hnumber : old.ty.underlying.underlying ≠ .str := by
    intro hstr
    simp [Ty.numKind?, hstr] at hk
  have hinstr : b.instr checked old.ty.underlying = .arith (Emit.stepOp op) checked ∧
      ∀ both, b.onAbsent setting.options old.ty both = .absent := by
    cases op <;> cases hstep <;> cases hb <;> exact ⟨by simp [BinaryOp.instr, hnumber, Emit.stepOp],
      fun _ => rfl⟩
  -- The code on a present operand pushes one and comes to the operator.
  have hadds : ∀ {u w : Emission} {x' v : Value} {st : State}, (Job.ofRoutine setting hR).Emits start
      (Emit.instrs [.const (.num (.one k)), .arith (Emit.stepOp op) checked]) u () w →
      Run.binaryValue setting.registry b checked old.ty.underlying x' (.num (.one k))
        (Run.bare m.heap m.statics) = .ok v st →
      Via setting.registry R span (fun q => u.position ≤ q ∧ q < w.position) u.position
        (m.state a (x' :: stack)) w.position (m.state a (v :: stack)) := by
    intro u w x' v st hcode hv
    simp only [Job.Emits.instrs_cons_iff, Job.Emits.instrs_one_iff] at hcode
    obtain ⟨u', hconst, harith⟩ := hcode
    have hfirst := hconst.instr_position
    have hsecond := harith.instr_position
    rw [← hinstr.1] at harith
    refine .instr hconst (fun _ => rfl) ⟨by omega, by omega⟩ (.const _ _ _ _) ?_
    exact .silent harith (b.silent_instr _ _ _ _) ⟨by omega, by omega⟩ (.binaryValue hv) (.refl _ _)
  unfold BinaryOp.Gives at hgives
  have hone : (Value.num (.one k)).payloadAt? (.num k) = some (.num (.one k)) := rfl
  rw [hone] at hgives
  unfold Emit.stepped at h
  cases hnullable : old.ty.isNullable with
  | true =>
      simp only [hnullable, if_true] at h
      obtain ⟨c⟩ := LiftedCode.of_emits h
      have hbefore := c.before
      have hbehind := c.behind
      have hwithin := c.within
      have hwrap := c.wrap.position_le
      have hlast := c.last
      have hmissing := c.missing.instr_position
      cases hx' : x.payloadAt? old.ty with
      | some x' =>
          simp only [hx', hnullable] at hgives
          obtain ⟨v, st, hv, rfl⟩ := hgives
          obtain ⟨u, hload, hadd⟩ := Job.Emits.seq_iff.mp c.body
          have hfirst := hload.position_le
          have hsecond := hadd.position_le
          refine Via.trans ((c.enters span a m stack [x] (.cons hx .nil) (.cons (by rw [hx']; rfl) .nil)).imp
            fun q hq => ⟨hq.1, by omega⟩) ?_
          refine .loadInner hload (hx.later c.retains) hx' (fun q hq hq' => ⟨by omega, by omega⟩) ?_
          refine Via.trans ((hadds hadd hv).imp fun q hq => ⟨by omega, by omega⟩) ?_
          exact (c.leaves span a m stack v).imp fun q hq => ⟨by omega, hq.2⟩
      | none =>
          simp only [hx'] at hgives
          rw [hinstr.2] at hgives
          subst hgives
          refine Via.trans ((c.skips span a m stack [x] (.cons hx .nil) ?_).imp
            fun q hq => ⟨hq.1, by omega⟩) ?_
          · intro hall
            cases hall with
            | cons hhead _ =>
              rw [hx'] at hhead
              cases hhead
          · refine .instr c.missing (fun _ => rfl) ⟨by omega, by omega⟩
              (.loadDefault _ _ _ (Registry.zero_nullable _ hnullable)) ?_
            exact .move hlast (.refl _ _)
  | false =>
      simp only [hnullable, Bool.false_eq_true, if_false] at h
      simp only [Value.payloadAt?, hnullable, Bool.false_eq_true, if_false] at hgives
      obtain ⟨v, st, hv, rfl⟩ := hgives
      obtain ⟨u, hload, hadd⟩ := Job.Emits.seq_iff.mp h
      have hfirst := Job.Emits.instr_position (i := .loadLocal old.slot) hload
      have hsecond := hadd.position_le
      refine .loadTemp hload hx ⟨by omega, by omega⟩ ?_
      exact (hadds hadd hv).imp fun q hq => ⟨by omega, hq.2⟩

end Via

end Run

end Arbor
