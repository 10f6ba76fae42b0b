/-
  Nodes around the code of their operands.

  The code of a node has the values of its operands in sections.  An execution that
  gets through these, whatever it does there, passes positions of the node alone
  between them.  The node may wait for its second operand with temporaries; the code
  of that operand names none of them.
-/
import Arbor.Proofs.Emission.Forms
import Arbor.Proofs.Emission.Sparing
import Arbor.Proofs.Machine.Waiting
import Arbor.Proofs.Simulation.Functions
import Arbor.Proofs.Simulation.Passages

set_option autoImplicit false

namespace Arbor

/-! ## Nodes -/

/-- The value of a node other than a variable is what its layer leaves. -/
theorem Job.Emits.layer {J : Job} {start : Nat} {k : ExprKind Expr} {ty : Ty} {exit : Option Label}
    {s t : Emission} {used : Bool} (hvar : ∀ id, k ≠ .parameter id)
    (h : J.Emits start ((Expr.node k ty).toNode.value exit) s used t) :
    ∃ e, e.usedExit = used ∧ J.Emits start (Emit.layer (k.map Expr.toNode) ty
      (Emit.placeOf (k.map Expr.toNode) ty) exit .value) s e t := by
  rw [Expr.toNode_node] at h
  obtain ⟨_, u, hemit, h⟩ := h.bind
  obtain ⟨hused, rfl⟩ := h.pure
  obtain ⟨e, v, hlayer, hadapt⟩ := hemit.bind
  have hfits : Emit.Fitting .value ty (Emit.layer (k.map Expr.toNode) ty
      (Emit.placeOf (k.map Expr.toNode) ty) exit .value) := by
    refine Emit.fitting_layer (fun n hn => ?_) fun id => ?_
    · rw [ExprKind.children_map] at hn
      obtain ⟨e, -, rfl⟩ := List.mem_map.mp hn
      exact Emit.fitsShapes_toNode e
    · cases k with
      | parameter id' => exact absurd rfl (hvar id')
      | _ => simp [ExprKind.map]
  have hform : e.form ≠ .address := fun h => by cases hfits _ _ _ _ hlayer.run h
  simp only [Emit.adapt] at hadapt
  cases hform' : e.form with
  | address => exact absurd hform' hform
  | nothing | value =>
    simp only [hform'] at hadapt
    obtain ⟨rfl, rfl⟩ := hadapt.pure
    exact ⟨_, hused.symm, hlayer⟩

theorem Job.Emits.lookup {J : Job} {α : Type} {query : Registry → Except MetadataError α} {a : α}
    {start : Nat} {s t : Emission} (h : J.Emits start (Emit.lookup query) s a t) :
    query J.setting.registry = .ok a ∧ s = t := by
  obtain ⟨r, u, hr, h⟩ := h.bind
  obtain ⟨rfl, rfl⟩ := hr.registry
  split at h
  · next hquery =>
    obtain ⟨rfl, rfl⟩ := h.pure
    exact ⟨hquery, rfl⟩
  · exact h.fail.elim

theorem Job.Emits.toValue {J : Job} {start : Nat} {n : Node} {exit : Option Label} {e : Emitted}
    {s t : Emission} (h : J.Emits start (n.emit exit .value false) s e t) :
    J.Emits start (n.value exit) s e.usedExit t :=
  Job.Emits.bind_iff.mpr
    ⟨e, t, h, rfl, h.sound_after, h.completes, Nat.le_trans h.reached h.position_le⟩

/-- With a landing of its own a node has the code of its value somewhere. -/
theorem Job.Emits.guardedValue {J : Job} {start : Nat} {n : Node} {e : Emitted} {s t : Emission}
    (h : J.Emits start (n.guarded .value) s e t) :
    ∃ start' exit s' used t', J.Emits start' (n.value exit) s' used t' := by
  obtain ⟨o, _, ho, h⟩ := h.bind
  obtain ⟨rfl, rfl⟩ := ho.options
  split at h
  · obtain ⟨depth, s₁, htemp, h⟩ := h.bind
    obtain ⟨_, s₂, hbody, h⟩ := h.bind
    obtain ⟨u, v, hinner, -⟩ := hbody.reserved
    obtain ⟨pad, u', hpad, hinner⟩ := hinner.bind
    obtain ⟨e', v', hemit, hinner⟩ := hinner.bind
    exact ⟨_, _, _, _, _, hemit.toValue⟩
  · exact ⟨_, _, _, _, _, h.toValue⟩

/-- Code that spares what is reserved names no local that is in use for something else than a variable
or a label. -/
theorem Job.Emits.sparing {J : Job} {start k p : Nat} {α : Type} {x : Emit α} {a : α}
    {exit : Option Label} {s t : Emission} {i : Instr}
    (hx : (Emit.sparing k s.position).Ok [] exit x) (h : J.Emits start x s a t)
    (hk : s.Holding (.local k))
    (hlabels : ∀ id info, s.labels.lookup id = some info → info.valueSlot ≠ some k)
    (hp : s.position ≤ p) (hp' : p < t.position) (hi : J.routine.code[p]? = some i) :
    k ∉ i.slots := by
  have hscope : ∀ v ∈ s.scope, v.2.1 ≠ .local k := fun v hv hslot =>
    hk.1 (List.mem_map.mpr ⟨v, hv, hslot⟩)
  have hcode : ∀ (q : Nat) (j : Instr), s.position ≤ q → s.builder.code[q]? = some j → k ∉ j.slots := by
    intro q j hq hj
    obtain ⟨hlt, -⟩ := Array.getElem?_eq_some_iff.mp hj
    exact absurd hlt (Nat.not_lt.mpr hq)
  have hreserves : s.Reserves k s.position :=
    ⟨h.sound.tidy, hk.2 k rfl, hscope, hlabels, hcode⟩
  obtain ⟨hafter, -⟩ := hx _ _ _ _ h.run h.limit hreserves
  rw [h.completes.code p (Nat.le_trans h.reached hp) hp'] at hi
  exact hafter.code p i hp hi

/-- The code of a tree names no local that is in use for something else than a variable or a label. -/
theorem Job.Emits.spares {J : Job} {start k p : Nat} {e : Expr} {exit : Option Label}
    {s t : Emission} {used : Bool} {i : Instr} (h : J.Emits start (e.toNode.value exit) s used t)
    (hk : s.Holding (.local k))
    (hlabels : ∀ id info, s.labels.lookup id = some info → info.valueSlot ≠ some k)
    (hp : s.position ≤ p) (hp' : p < t.position) (hi : J.routine.code[p]? = some i) :
    k ∉ i.slots :=
  h.sparing (Emit.spares_tree e k s.position).value hk hlabels hp hp' hi

/-! ## Sections -/

/-- The sections of code in which a node has the values of its two operands. -/
structure Sections (J : Job) (start : Nat) (l r : Node) (exit : Option Label) (s t : Emission) where
  leftStart : Emission
  leftEnd : Emission
  rightStart : Emission
  rightEnd : Emission
  leftExits : Bool
  rightExits : Bool
  left : J.Emits start (l.value exit) leftStart leftExits leftEnd
  right : J.Emits start (r.value exit) rightStart rightExits rightEnd
  first : leftStart.position = s.position
  between : leftEnd.position ≤ rightStart.position
  entered : s ≤ leftStart
  passed : leftEnd ≤ rightStart
  last : rightEnd.position ≤ t.position

namespace Sections

variable {J : Job} {start : Nat} {l r : Node} {exit : Option Label} {s t : Emission}

/-- The positions of the code that the node has beside its operands. -/
def Own (o : Sections J start l r exit s t) (p : Nat) : Prop :=
  (o.leftEnd.position ≤ p ∧ p < o.rightStart.position) ∨
    (o.rightEnd.position ≤ p ∧ p < t.position)

/-- The node has acquired the local before it comes to the right operand. -/
def Waits (o : Sections J start l r exit s t) (k : Nat) : Prop :=
  k ∈ o.rightStart.pool.live ∧ k ∉ s.pool.live

/-- The locals in which the node waits for the right operand are left as they were. -/
def Saves (o : Sections J start l r exit s t) (m n : Memory) : Prop :=
  ∀ k, o.Waits k → n.locals[k]? = m.locals[k]?

/-- No instruction in the section of the right operand names the local. -/
def Unnamed (o : Sections J start l r exit s t) (k : Nat) : Prop :=
  ∀ (p : Nat) (i : Instr), o.rightStart.position ≤ p → p < o.rightEnd.position →
    J.routine.code[p]? = some i → k ∉ i.slots

/-- The code of the right operand names no local in which the node waits. -/
theorem unnamed {right : Expr} (o : Sections J start l right.toNode exit s t) (hs : s.Sound) {k : Nat}
    (hk : o.Waits k)
    (hlabels : ∀ id info, o.rightStart.labels.lookup id = some info → info.valueSlot ≠ some k) :
    o.Unnamed k := by
  have hretains : s ≤ o.rightStart := o.entered.trans (o.left.retains.trans o.passed)
  intro p i hp hp' hi
  exact o.right.spares (hs.holding hretains hk.1 hk.2) hlabels hp hp' hi

/-- An evaluation of the right operand leaves the locals alone in which the node waits, if its code names
none of them, nothing leads to them where it starts, and the call that the node belongs to stays in that
code.  The routines that it calls may be any. -/
theorem saves {setting : Setting} {R : Routine} {hR : R.WithinLimits}
    (o : Sections (Job.ofRoutine setting hR) start l r exit s t) {span : Span} {a b : Around} {m n : Memory}
    {stack rest : List Value} {ms : List Moment} (hspare : setting.registry.HostsSpare)
    (hkeep : setting.registry.HostsKeep State.SameWaiting) (hunnamed : ∀ k, o.Waits k → o.Unnamed k)
    (hwithin : ∀ k, o.Waits k → (m.state a stack).Within (.sparing a.outer.length k))
    (hpass : Run.Passes setting.registry R span o.rightStart.position (m.state a stack) ms
      o.rightEnd.position (n.state b rest))
    (hstays : ∀ x ∈ ms, x.state.frames.length = a.outer.length + 1 →
      x.routine = R ∧ o.rightStart.position ≤ x.pc ∧ x.pc < o.rightEnd.position) :
    o.Saves m n := by
  intro k hk
  have hstart : (m.state a stack).Spared a.outer.length k m.locals[k]? :=
    ⟨⟨_, Run.Keeping.frame?_current _ _, rfl⟩, hwithin k hk⟩
  have hend := hpass.spares hspare hstart fun x hx hdepth i hi => by
    obtain ⟨hroutine, hfirst, hlast⟩ := hstays x hx hdepth
    rw [hroutine] at hi
    exact hunnamed k hk x.pc i hfirst hlast hi
  have houter : b.outer.length = a.outer.length := Nat.succ.inj (hpass.aroundSame hkeep).1
  obtain ⟨f, hf, hvalue⟩ := hend.value
  rw [← houter, Memory.state, Run.Keeping.frame?_current] at hf
  cases hf
  exact hvalue

end Sections

/-! ## Trees that push a value -/

variable {setting : Setting} {R : Routine} {hR : R.WithinLimits} {start : Nat} {s t : Emission}

/-- The code of a tree, wherever it is emitted, does nothing but push the value. -/
def Expr.Pushes (setting : Setting) {R : Routine} (hR : R.WithinLimits) (e : Expr) (v : Value) : Prop :=
  ∀ (start : Nat) (exit : Option Label) (s t : Emission) (used : Bool),
    (Job.ofRoutine setting hR).Emits start (e.toNode.value exit) s used t →
      used = false ∧ ∀ (span : Span) (a : Around) (m : Memory) (stack : List Value),
        Run.Via setting.registry R span (fun p => s.position ≤ p ∧ p < t.position) s.position
          (m.state a stack) t.position (m.state a (v :: stack))

namespace Expr

/-- A null constant of an optional type is absent. -/
theorem pushes_null {ty : Ty} (hty : ty.isNullable = true) :
    (Expr.node (.constant .null) ty).Pushes setting hR .absent := by
  intro start exit s t used h
  obtain ⟨e, rfl, hlayer⟩ := h.layer fun id h => by cases h
  have h : (Job.ofRoutine setting hR).Emits start (Emit.constant .null ty) s e t := hlayer
  simp only [Emit.constant, Literal.ty?, hty, Bool.not_true, Bool.and_false, Bool.false_eq_true,
    if_false, ↓Job.Emits.seq_iff] at h
  obtain ⟨u, hpush, h⟩ := h
  obtain ⟨rfl, rfl⟩ := h.pure
  have hvoid : ty.isVoid = false := by
    cases ty <;> first | rfl | cases hty
  exact ⟨rfl, fun span a m stack => .pushDefault hpush hvoid (Registry.zero_nullable _ hty)
    (fun p hp hp' => ⟨hp, hp'⟩) (.refl _ _)⟩

/-- A constant other than null is its literal, wrapped in an optional type. -/
theorem pushes_literal {value : Literal} {ty found : Ty} (hvalue : value.ty? = some found) :
    (Expr.node (.constant value) ty).Pushes setting hR
      ((Value.ofLiteral value).wrapIf ty.isNullable) := by
  intro start exit s t used h
  obtain ⟨e, rfl, hlayer⟩ := h.layer fun id h => by cases h
  have h : (Job.ofRoutine setting hR).Emits start (Emit.constant value ty) s e t := hlayer
  simp only [Emit.constant, hvalue, ↓Job.Emits.seq_iff] at h
  obtain ⟨u, hconst, h⟩ := h
  split at h
  · obtain ⟨_, _, _, h⟩ := h.bind
    exact h.mismatch.elim
  · obtain ⟨_, u', hwrap, h⟩ := h.bind
    obtain ⟨rfl, rfl⟩ := h.pure
    have hmiddle := hconst.instr_position
    have hend := hwrap.position_le
    refine ⟨rfl, fun span a m stack => ?_⟩
    refine .instr hconst (fun _ => rfl) ⟨Nat.le_refl _, by omega⟩ (.const _ _ _ _) ?_
    exact .wrapIf hwrap (fun p hp hp' => ⟨by omega, hp'⟩) (.refl _ _)

theorem pushes_default {ty : Ty} {v : Value} (hvoid : ty.isVoid = false)
    (hzero : setting.registry.zero ty = .ok v) : (Expr.node .default ty).Pushes setting hR v := by
  intro start exit s t used h
  obtain ⟨e, rfl, hlayer⟩ := h.layer fun id h => by cases h
  obtain ⟨_, u, hpush, h⟩ := Job.Emits.bind (x := Emit.pushDefault ty) hlayer
  obtain ⟨rfl, rfl⟩ := h.pure
  exact ⟨rfl, fun span a m stack => .pushDefault hpush hvoid hzero (fun p hp hp' => ⟨hp, hp'⟩)
    (.refl _ _)⟩

end Expr

namespace Run.Via

variable {span : Span} {within : Nat → Prop} {a : Around} {m : Memory} {stack : List Value} {q : Nat}
  {c : State}

/-- With a landing of its own a tree that pushes a value does the same. -/
theorem guarded {test : Expr} {v : Value} {e : Emitted} (hv : test.Pushes setting hR v)
    (h : (Job.ofRoutine setting hR).Emits start (test.toNode.guarded .value) s e t)
    (hp : ∀ p, s.position ≤ p → p < t.position → within p)
    (hrest : Via setting.registry R span within t.position (m.state a (v :: stack)) q c) :
    Via setting.registry R span within s.position (m.state a stack) q c := by
  obtain ⟨o, _, ho, h⟩ := h.bind
  obtain ⟨rfl, rfl⟩ := ho.options
  split at h
  · obtain ⟨depth, s₁, htemp, h⟩ := h.bind
    obtain ⟨⟨pad, e'⟩, s₂, hbody, h⟩ := h.bind
    obtain ⟨u, v, hinner, -, hu, -, hv', hcode⟩ := hbody.reserved
    obtain ⟨pad', u', hpad, hinner⟩ := hinner.bind
    obtain ⟨e'', v', hemit, hinner⟩ := hinner.bind
    obtain ⟨heq, rfl⟩ := hinner.pure
    cases heq
    obtain ⟨hused, hpush⟩ := hv _ _ _ _ _ hemit.toValue
    simp only [hused, Bool.false_eq_true, if_false, Option.getD_none] at h hcode
    obtain ⟨_, s₃, hmark, h⟩ := h.bind
    obtain ⟨rfl, rfl⟩ := h.pure
    have hstart := htemp.temp.1
    have hbodyStart := hpad.newLabel.1
    have hbodyEnd := hemit.position_le
    have hend := hmark.mark.2.1
    -- No check leaves the body, so a placeholder stands where its depth would be recorded.
    refine .move hstart ?_
    refine .next hcode (Run.Quiet.silent fun _ => rfl) (hp _ (by omega) (by omega)) (.nop _ _ _) ?_
    rw [← hu, ← hbodyStart]
    refine .trans ((hpush span a m stack).imp fun p hp' => hp p (by omega) (by omega)) ?_
    exact .move (by omega) hrest
  · obtain ⟨-, hpush⟩ := hv _ _ _ _ _ h.toValue
    exact ((hpush span a m stack).imp fun p hp' => hp p hp'.1 hp'.2).trans hrest

/-- Loading a variable that is an argument. -/
theorem argument {id : VarId} {ty : Ty} (index : Nat) {exit : Option Label} {used : Bool}
    {value : Value}
    (h : (Job.ofRoutine setting hR).Emits start ((Expr.node (.parameter id) ty).toNode.value exit) s used t)
    (hscope : s.scope.lookup id = some (.arg index, ty)) (hvoid : ty.isVoid = false)
    (hvalue : m.args[index]? = some value) (hp : ∀ p, s.position ≤ p → p < t.position → within p) :
    Via setting.registry R span within s.position (m.state a stack) t.position
      (m.state a (value :: stack)) := by
  obtain ⟨e, u, hemit, h⟩ := h.bind
  obtain ⟨-, rfl⟩ := h.pure
  obtain ⟨e', u, hemit, hadapt⟩ := hemit.bind
  obtain ⟨_, u', hslot, h⟩ := Job.Emits.bind (x := Emit.varSlot id) hemit
  obtain ⟨hlookup, rfl⟩ := hslot.varSlot
  obtain rfl := Option.some.inj (hscope.symm.trans hlookup)
  obtain ⟨_, u', hload, h⟩ := Job.Emits.bind (x := Emit.instr (.loadArg index)) h
  obtain ⟨rfl, rfl⟩ := h.pure
  simp only [Emit.adapt, Emitted.ofTy, hvoid] at hadapt
  obtain ⟨rfl, rfl⟩ := hadapt.pure
  have hend := hload.instr_position
  exact .instr hload (fun _ => rfl) (hp _ (by omega) (by omega)) (.loadArg _ _ _ hvalue) (.refl _ _)


end Run.Via

/-! ## Code on parameters -/

/-- A run that ends where the routine is finished is a run within it. -/
theorem Job.Emits.ofFinish {α : Type} {x : Emit α} {v : α} {key : RoutineKey}
    (hrun : x.run setting s = .ok v t) (hs : s.Sound) (hfinish : t.builder.finish key = .ok R) :
    (Job.ofRoutine setting hR).Emits 0 x s v t := by
  have hcompletes := Emission.completes_of_finish hfinish
  exact ⟨hrun, hs, ⟨hcompletes.code, hcompletes.size, hcompletes.marks, hcompletes.locals⟩,
    Nat.zero_le _⟩

/-- Whether code is emitted and finished as a routine within the limits. -/
def Emit.compiles {α : Type} (x : Emit α) (setting : Setting) (s : Emission) : Bool :=
  match x.run setting s with
  | .ok _ t =>
      match t.builder.finish (.unit 0) with
      | .ok R => Decidable.decide R.WithinLimits
      | .error _ => false
  | .error _ _ => false

theorem Emit.exists_of_compiles {α : Type} {x : Emit α} (h : x.compiles setting s = true) :
    ∃ v t R, x.run setting s = .ok v t ∧ t.builder.finish (.unit 0) = .ok R ∧ R.WithinLimits := by
  rw [compiles] at h
  split at h
  · next v t hrun =>
    split at h
    · next R hfinish => exact ⟨v, t, R, hrun, hfinish, of_decide_eq_true h⟩
    · cases h
  · cases h

/-- The state in which code on parameters is emitted. -/
def beforeCode (name : String) (params : List Variable) (ret : Ty) : Emission :=
  { Emission.start default (Builder.empty name (params.map (·.ty)) ret) ⟨false, false⟩ with
    scope := params.mapIdx fun i v => (v.id, .arg i, v.ty) }

/-- Nothing is in use there. -/
theorem sound_beforeCode (name : String) (params : List Variable) (ret : Ty) :
    (beforeCode name params ret).Sound := by
  have hslots : (beforeCode name params ret).scope.slots = (List.range params.length).map .arg := by
    apply List.ext_getElem
    · simp [beforeCode, Scope.slots]
    · intro i hi hi'
      simp [beforeCode, Scope.slots]
  refine ⟨SlotPool.tidy_empty, ?_, ?_⟩
  · rw [hslots]
    exact List.nodup_range.map fun i j hij => by cases hij; rfl
  · intro slot hslot
    rw [hslots] at hslot
    simp at hslot

/-- Two optional parameters. -/
def optionalFlags : List Variable := [⟨0, "p", .nullable .bool⟩, ⟨1, "q", .nullable .bool⟩]

/-- The state in which code on two optional parameters is emitted. -/
def beforeFlags : Emission :=
  let builder := Builder.empty "flags" (optionalFlags.map (·.ty)) (.nullable .bool)
  { Emission.start default builder ⟨false, false⟩ with
    scope := optionalFlags.mapIdx fun i v => (v.id, .arg i, v.ty) }

theorem sound_beforeFlags : beforeFlags.Sound := sound_beforeCode "flags" optionalFlags (.nullable .bool)

end Arbor
