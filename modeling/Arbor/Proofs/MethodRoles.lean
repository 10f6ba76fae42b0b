/-
  Methods in the roles that nodes give them.

  A node may use a method as a getter or setter, as an operator, as a conversion or
  to add elements.  Its code pushes operands, calls the method and deals with what
  that returns.  The call takes as many operands as the method has, whatever the
  code pushed, and leaves what the method returns, whatever the code expects.  So
  what lies below the operands is untouched if the signature of the method fits its
  role; only for some of the roles emission checks that.
-/
import Arbor.Proofs.OperatorRuns
import Arbor.Proofs.Machine.Waiting
import Arbor.Proofs.Simulation.Places

set_option autoImplicit false

namespace Arbor

/-! ## Roles -/

/-- The roles that nodes give to methods. -/
inductive MethodRole where
  /-- The getter of a property that is read. -/
  | read (p : PropertyRef) (receiver : Option Node) (ty : Ty) (exit : Option Label)
  /-- The getter of a property, with its operands in temporaries. -/
  | load (p : PropertyRef) (receiver : Option Nat) (indices : List Nat) (ty : Ty)
  /-- The setter of a property, with its operands and the value in temporaries. -/
  | store (p : PropertyRef) (receiver : Option Nat) (indices : List Nat) (ty : Ty) (value : Nat)
  /-- The getter of a property whose value a binding goes into. -/
  | loadMember (p : PropertyRef)
  /-- The setter of a property that is bound. -/
  | storeMember (p : PropertyRef) (source : Ty)
  /-- A unary operator. -/
  | unary (op : UnaryOp) (operand : Node) (checked : Bool) (m : MethodRef) (ty : Ty)
      (exit : Option Label)
  /-- A binary operator, or the comparison of a switch. -/
  | operator (op : BinaryOp) (checked : Bool) (m : MethodRef) (left right : Operand) (ty : Ty)
  /-- A conversion. -/
  | conversion (operand : Node) (m : MethodRef) (ty : Ty) (exit : Option Label)
  /-- The addition of an element to a container. -/
  | add (item : ElementInit Node) (exit : Option Label)

/-- What a call leaves of what the method returns. -/
def Signature.results (sig : Signature) (v : Value) : List Value := if sig.ret.isVoid then [] else [v]

/-- Whether a method on two operands is called only if both are present. -/
def Signature.isLifted (sig : Signature) (left right : Ty) : Bool :=
  (left.isNullable || right.isNullable) && !sig.params.any fun p => p.1.isNullable

/-- Whether a conversion method is called only if the operand is present. -/
def Signature.lifts (sig : Signature) (operand : Ty) : Bool :=
  operand.isNullable && !sig.params.any fun p => p.1.isNullable

namespace MethodRole

/-- The code from `s` to `t` is that of the role. -/
def Emits (J : Job) (start : Nat) (s t : Emission) : MethodRole → Prop
  | read p receiver ty exit => ∃ e, J.Emits start (Emit.property p receiver ty exit) s e t
  | load p receiver indices ty => J.Emits start (Emit.loadPlace ⟨.property p, receiver, indices, ty⟩) s () t
  | store p receiver indices ty value =>
      J.Emits start (Emit.storePlace ⟨.property p, receiver, indices, ty⟩ value) s () t
  | loadMember p => J.Emits start (Emit.loadMember (.property p)) s () t
  | storeMember p source => J.Emits start (Emit.storeMember (.property p) source) s () t
  | unary op operand checked m ty exit =>
      ∃ e, J.Emits start (Emit.unary op operand checked (some m) ty exit) s e t
  | operator op checked m left right ty =>
      J.Emits start (Emit.binarySlots op checked (some m) left right ty) s () t
  | conversion operand m ty exit => ∃ e, J.Emits start (Emit.userConversion operand m ty exit) s e t
  | add item exit => ∃ used, J.Emits start (Emit.elementInit item exit) s used t

/-- The method is the one in the role. -/
def Calls (r : Registry) (m : MethodRef) : MethodRole → Prop
  | read p .. | load p .. | loadMember p => ∃ d, r.property p = .ok d ∧ d.accessor? .getter = some m
  | store p .. | storeMember p _ => ∃ d, r.property p = .ok d ∧ d.accessor? .setter = some m
  | unary _ _ _ m' .. | operator _ _ m' .. | conversion _ m' .. => m = m'
  | add item _ => m = item.add

/-- The code from `s` to `u` is that of operands that are trees. -/
def Operands (J : Job) (start : Nat) (s u : Emission) : MethodRole → Prop
  | read p receiver _ exit => ∃ d, J.setting.registry.property p = .ok d ∧
      if d.isStatic then u = s
      else ∃ n e, receiver = some n ∧ J.Emits start (n.receiver exit .receiver false) s e u
  | unary _ operand _ _ _ exit | conversion operand _ _ exit =>
      ∃ used, J.Emits start (operand.value exit) s used u
  | add item exit => ∃ sig v used, J.setting.registry.signature item.add = .ok sig ∧
      J.Emits start (Emit.instr .dup) s () v ∧
      J.Emits start (Emit.arguments (J.setting.registry.methodName item.add) sig.params item.args exit) v
        used u
  | _ => u = s

/-- What emission has seen of the signature. -/
def Checked (sig : Signature) : MethodRole → Prop
  | operator .. => sig.arity = 2
  | conversion .. => sig.params.length = 1
  | add item _ => sig.params.length = item.args.length
  | _ => True

/-- With `given` on the stack and temporaries in `n` at `u` the code pushes `pushed` for the call. -/
def Pushes (r : Registry) (sig : Signature) (u : Emission) (n : Memory) (given pushed : List Value) :
    MethodRole → Prop
  | read p .. => ∃ d, r.property p = .ok d ∧ given = pushed ∧ pushed.length = (!d.isStatic).toNat
  | load _ receiver indices _ => given = [] ∧
      List.Forall₂ (fun (slot : Nat) (v : Value) => n.locals[slot]? = some v) (receiver.toList ++ indices)
        pushed.reverse
  | store _ receiver indices _ value => given = [] ∧ ∃ v operands, pushed = v :: operands ∧
      n.locals[value]? = some v ∧
      List.Forall₂ (fun (slot : Nat) (v : Value) => n.locals[slot]? = some v) (receiver.toList ++ indices)
        operands.reverse
  | loadMember _ => given = pushed ∧ pushed.length = 1
  | storeMember p source => ∃ d v x, r.property p = .ok d ∧ given = [v, x] ∧
      pushed = [Eval.coerced source d.ty v, x]
  | unary _ operand .. => ∃ x y, x.payloadAt? operand.ty = some y ∧ given = [x] ∧ pushed = [y]
  | operator _ _ _ left right _ => given = [] ∧ ∃ x y, n.Temp u left.slot x ∧ n.Temp u right.slot y ∧
      if sig.isLifted left.ty right.ty then
        ∃ x' y', x.payloadAt? left.ty = some x' ∧ y.payloadAt? right.ty = some y' ∧ pushed = [y', x']
      else pushed = [y, x]
  | conversion operand .. => ∃ x, given = [x] ∧
      if sig.lifts operand.ty then ∃ y, x.payloadAt? operand.ty = some y ∧ pushed = [y]
      else pushed = sig.params.map fun p => Eval.coerced operand.ty p.1 x
  | add item _ => given = pushed ∧ pushed.length = item.args.length + 1

/-- The method returns a value if and only if the role has a use for one. -/
def Returns (sig : Signature) : MethodRole → Prop
  | read _ _ ty _ | load _ _ _ ty | unary _ _ _ _ ty _ | operator _ _ _ _ _ ty => sig.ret.isVoid = ty.isVoid
  | loadMember _ => sig.ret.isVoid = false
  | store .. | storeMember .. => sig.ret.isVoid = true
  | conversion _ _ ty _ => sig.ret.isVoid = true → ty.isVoid = true
  | add .. => True

/-- The method takes what the code pushes, and returns what it expects. -/
def Fits (sig : Signature) (pushed : List Value) (role : MethodRole) : Prop :=
  sig.arity = pushed.length ∧ role.Returns sig

/-- How many values the node leaves. -/
def width : MethodRole → Nat
  | read _ _ ty _ | load _ _ _ ty | unary _ _ _ _ ty _ | operator _ _ _ _ _ ty | conversion _ _ ty _ =>
      (!ty.isVoid).toNat
  | loadMember _ => 1
  | store .. | storeMember .. | add .. => 0

/-- What the node leaves where the method returns `v`. -/
def Result (sig : Signature) (v : Value) (results : List Value) : MethodRole → Prop
  | read .. | load .. | loadMember _ => results = sig.results v
  | unary _ _ _ _ ty _ => results = (sig.results v).map (Value.wrapIf ty.isNullable)
  | operator _ _ _ left right ty => results = (sig.results v).map
      (Value.wrapIf (sig.isLifted left.ty right.ty && (ty.isNullable && !sig.ret.isNullable)))
  | conversion .. => True
  | store .. | storeMember .. | add .. => True

end MethodRole

/-! ## Code that arrives -/

namespace Run

variable {r : Registry} {R : Routine} {span : Span} {within : Nat → Prop} {q : Nat} {post : State → Prop}

/-- An execution gets from a point to the position `q` with the property, unless an instruction on the
way faults. -/
inductive Arrives (r : Registry) (R : Routine) (span : Span) (within : Nat → Prop) (q : Nat)
    (post : State → Prop) : Nat → State → Prop
  | via {p : Nat} {s t : State} (h : Via r R span within p s q t) (ht : post t) :
      Arrives r R span within q post p s
  | step {p : Nat} {s : State} {i : Instr} (hp : within p) (hcode : R.code[p]? = some i)
      (hnext : ∀ (flow : Flow) (t : State), Steps r R i s (.ok flow t) → flow = .next)
      (hrest : ∀ (flow : Flow) (t : State), Steps r R i s (.ok flow t) →
        Arrives r R span within q post (p + 1) t) :
      Arrives r R span within q post p s

/-- Weaker properties of the positions and of the end. -/
theorem Arrives.imp {within' : Nat → Prop} {post' : State → Prop} {p : Nat} {s : State}
    (h : Arrives r R span within q post p s) (hwithin : ∀ p, within p → within' p)
    (hpost : ∀ t, post t → post' t) : Arrives r R span within' q post' p s := by
  induction h with
  | via h ht => exact .via (h.imp hwithin) (hpost _ ht)
  | step hp hcode hnext _ ih => exact .step (hwithin _ hp) hcode hnext ih

/-- An instruction that pops a value and pushes what an action makes of it. -/
theorem Steps.replaces {i : Instr} {m : Memory} {a : Around} {stack : List Value} {v : Value}
    {z : Run Value} {flow : Flow} {t : State} (hz : Leaves z)
    (hi : ∀ call : Caller, step r call R i (m.state a (v :: stack)) = (z >>= pushNext) (m.state a stack))
    (h : Steps r R i (m.state a (v :: stack)) (.ok flow t)) :
    flow = .next ∧ ∃ w, t = m.state a (w :: stack) := by
  obtain ⟨fuel, h⟩ := h
  have h := h fuel (Nat.le_refl _)
  rw [hi] at h
  obtain ⟨w, s, hw, hpush⟩ := ok_of_bind h
  obtain rfl := hz _ _ _ hw
  cases hpush
  exact ⟨rfl, w, rfl⟩

/-- Taking a value out of a slot of the root type changes nothing. -/
theorem Leaves.unbox (v : Value) (t : Ty) : Leaves (Run.unbox r v t) := by
  intro s w u h
  obtain ⟨s', u', hs, h⟩ := ok_of_bind (x := get) h
  cases hs
  dsimp only at h
  split at h
  all_goals
    split at h
    · first
        | (split at h <;> first | exact Leaves.raise _ _ _ _ h | exact Leaves.pure _ _ _ _ h)
        | exact Leaves.pure _ _ _ _ h
    · split at h
      · exact Leaves.pure _ _ _ _ h
      · exact Leaves.raise _ _ _ _ h

/-- A reference as one of a class, or a fault. -/
def castClass (r : Registry) (v : Value) (t : Ty) : Run Value := fun s =>
  if v.isAbsent || v.isInstance r s.heap t false then .ok v s else raise r .invalidCast s

/-- A cast changes nothing. -/
theorem Leaves.castClass (v : Value) (t : Ty) : Leaves (castClass r v t) := by
  intro s w u h
  unfold Run.castClass at h
  split at h
  · cases h
    rfl
  · exact Leaves.raise _ _ _ _ h

/-- The instruction of a cast. -/
theorem step_castClass {call : Caller} {t : Ty} {m : Memory} {a : Around} {stack : List Value} {v : Value} :
    step r call R (.castClass t) (m.state a (v :: stack)) =
      (castClass r v t >>= pushNext) (m.state a stack) := by
  change (if v.isAbsent || v.isInstance r m.heap t false then pushNext v else raise r .invalidCast)
    (m.state a stack) = EStateM.bind (castClass r v t) pushNext (m.state a stack)
  have hheap : (m.state a stack).heap = m.heap := rfl
  cases hcondition : v.isAbsent || v.isInstance r m.heap t false with
  | true => simp only [EStateM.bind, castClass, hheap, hcondition, if_true]
  | false =>
      have hcast : castClass r v t (m.state a stack) = raise r .invalidCast (m.state a stack) := by
        simp only [castClass, hheap, hcondition, Bool.false_eq_true, if_false]
      simp only [Bool.false_eq_true, if_false, EStateM.bind, hcast]
      exact (raise_bind .invalidCast pushNext (m.state a stack)).symm

end Run

section

variable {setting : Setting} {R : Routine} {hR : R.WithinLimits} {start : Nat} {s t u : Emission}
  {span : Span} {a : Around} {m : Memory} {stack : List Value} {post : State → Prop}

/-- One instruction, whatever it leaves. -/
theorem Run.Arrives.one {i : Instr} {b : State}
    (h : (Job.ofRoutine setting hR).Emits start (Emit.instr i) s () t)
    (hstep : ∀ flow x, Run.Steps setting.registry R i b (.ok flow x) → flow = .next ∧ post x) :
    Run.Arrives setting.registry R span (fun q => s.position ≤ q ∧ q < t.position) t.position post
      s.position b := by
  have hend := h.instr_position
  refine .step ⟨Nat.le_refl _, by omega⟩ h.instr.1 (fun flow x hx => (hstep flow x hx).1)
    fun flow x hx => .via ?_ (hstep flow x hx).2
  rw [hend]
  exact .refl _ _

/-- A conversion without a method turns a value into one of its target, or into nothing if that is
void. -/
theorem Run.Arrives.plainConversion {source target : Ty} {v : Value}
    (h : (Job.ofRoutine setting hR).Emits start (Emit.plainConversion source target) s () t)
    (hvoid : source.isVoid = true → target.isVoid = true) :
    Run.Arrives setting.registry R span (fun q => s.position ≤ q ∧ q < t.position) t.position
      (fun x => ∃ results : List Value, results.length = (!target.isVoid).toNat ∧
        x = m.state a (results ++ stack)) s.position
      (m.state a ((if source.isVoid then [] else [v]) ++ stack)) := by
  unfold Emit.plainConversion at h
  cases htarget : target.isVoid with
  | true =>
      simp only [htarget, if_true] at h
      split at h
      · next hsource =>
        obtain ⟨-, rfl⟩ := h.pure
        rw [hsource]
        exact .via (.refl _ _) ⟨[], rfl, rfl⟩
      · next hsource =>
        rw [if_neg hsource]
        refine .one h fun flow x hx => ?_
        obtain ⟨fuel, hx⟩ := hx
        cases hx fuel (Nat.le_refl _)
        exact ⟨rfl, [], rfl, rfl⟩
  | false =>
      have hsource : source.isVoid = false := by
        rw [Bool.eq_false_iff]
        intro hsource
        rw [hvoid hsource] at htarget
        cases htarget
      simp only [htarget, Bool.false_eq_true, if_false] at h
      rw [hsource]
      have hone : ∀ {i : Instr} {z : Run Value}, Run.Leaves z →
          (∀ call : Caller, Run.step setting.registry call R i (m.state a (v :: stack)) =
            (z >>= Run.pushNext) (m.state a stack)) →
          (Job.ofRoutine setting hR).Emits start (Emit.instr i) s () t →
          Run.Arrives setting.registry R span (fun q => s.position ≤ q ∧ q < t.position) t.position
            (fun x => ∃ results : List Value, results.length = (!false).toNat ∧
              x = m.state a (results ++ stack)) s.position (m.state a (v :: stack)) := by
        intro i z hz hi h
        refine .one h fun flow x hx => ?_
        obtain ⟨hflow, w, rfl⟩ := Run.Steps.replaces hz hi hx
        exact ⟨hflow, [w], rfl, rfl⟩
      have hpure : t = s → Run.Arrives setting.registry R span
          (fun q => s.position ≤ q ∧ q < t.position) t.position
          (fun x => ∃ results : List Value, results.length = (!false).toNat ∧
            x = m.state a (results ++ stack)) s.position (m.state a (v :: stack)) := by
        rintro rfl
        exact .via (.refl _ _) ⟨[v], rfl, rfl⟩
      have hno : ¬ (Job.ofRoutine setting hR).Emits start
          (Emit.noConversion source target : Emit Unit) s () t := by
        intro h
        obtain ⟨_, _, _, h⟩ := h.bind
        obtain ⟨_, _, _, h⟩ := h.bind
        exact h.unsupported.elim
      split at h
      · exact hpure h.pure.2
      split at h
      · exact hone (z := pure v.wrapped) (.pure _) (fun _ => by cases v <;> rfl) h
      split at h
      · exact hone (z := Run.payloadOf setting.registry v) (by
          cases v <;> first | exact .pure _ | exact .raise _) (fun _ => by
          cases v <;> first | rfl | exact (Run.raise_bind _ _ _).symm) h
      split at h
      · split at h
        · exact hone (z := pure v.boxed) (.pure _) (fun _ => rfl) h
        · exact absurd h hno
      split at h
      · split at h
        · exact hone (.unbox v target) (fun _ => rfl) h
        · exact absurd h hno
      split at h
      · obtain ⟨_, _, hregistry, h⟩ := h.bind
        obtain ⟨rfl, rfl⟩ := hregistry.registry
        split at h
        · exact hpure h.pure.2
        · exact hone (.castClass v target) (fun _ => Run.step_castClass) h
      · exact absurd h hno

end

/-! ## Uses of methods -/

/-- A call that stands for a method in a role, at the position `site` of code from `s` to `t`.  Behind
`u` the code pushes operands, and behind the call it deals with what the method returned. -/
structure MethodUse (setting : Setting) {R : Routine} (hR : R.WithinLimits) (start : Nat)
    (role : MethodRole) (m : MethodRef) (s u t : Emission) (site : Nat) : Prop where
  calls : role.Calls setting.registry m
  code : R.code[site]? = some (.call m)
  operands : role.Operands (Job.ofRoutine setting hR) start s u
  inside : s.position ≤ u.position ∧ u.position ≤ site ∧ site < t.position
  checked : ∀ sig, setting.registry.signature m = .ok sig → role.Checked sig
  pushes : ∀ (span : Span) (a : Around) (n : Memory) (stack given pushed : List Value) (sig : Signature),
    n.locals.size = R.locals.size → setting.registry.signature m = .ok sig →
    role.Pushes setting.registry sig u n given pushed → ∃ k : Memory, n.Spares u k ∧
      Run.Via setting.registry R span (fun q => u.position ≤ q ∧ q < t.position) u.position
        (n.state a (given ++ stack)) site (k.state a (pushed ++ stack))
  settles : ∀ (span : Span) (a : Around) (n : Memory) (stack : List Value) (sig : Signature) (v : Value),
    setting.registry.signature m = .ok sig → role.Returns sig →
    Run.Arrives setting.registry R span (fun q => u.position ≤ q ∧ q < t.position) t.position
      (fun x => ∃ results : List Value, results.length = role.width ∧ role.Result sig v results ∧
        x = n.state a (results ++ stack)) (site + 1) (n.state a (sig.results v ++ stack))

theorem Signature.length_results (sig : Signature) (v : Value) :
    (sig.results v).length = (!sig.ret.isVoid).toNat := by
  unfold results
  cases sig.ret.isVoid <;> rfl

section

variable {setting : Setting} {R : Routine} {hR : R.WithinLimits} {start : Nat} {s t : Emission}
  {exit : Option Label}

/-- A check of the type of a member emits nothing. -/
theorem Job.Emits.checkMember {J : Job} {declared node : Ty} {member : String}
    (h : J.Emits start (Emit.checkMember declared node member) s () t) : t = s := by
  obtain ⟨_, _, hregistry, h⟩ := h.bind
  obtain ⟨rfl, rfl⟩ := hregistry.registry
  split at h
  · exact h.pure.2
  · obtain ⟨_, _, _, h⟩ := h.bind
    exact h.mismatch.elim

/-- Wrapping what a call leaves.  Nothing is wrapped where the method returns nothing. -/
theorem Run.Via.wrapResults {condition : Bool} {span : Span} {within : Nat → Prop} {a : Around}
    {n : Memory} {stack : List Value} {sig : Signature}
    (h : (Job.ofRoutine setting hR).Emits start (Emit.wrapIf condition) s () t)
    (hvoid : sig.ret.isVoid = true → condition = false) (hp : ∀ q, s.position ≤ q → q < t.position → within q)
    (v : Value) :
    Run.Via setting.registry R span within s.position (n.state a (sig.results v ++ stack)) t.position
      (n.state a ((sig.results v).map (Value.wrapIf condition) ++ stack)) := by
  unfold Signature.results
  cases hret : sig.ret.isVoid with
  | true =>
      rw [hvoid hret] at h
      obtain ⟨-, rfl⟩ := Job.Emits.pure h
      exact .refl _ _
  | false => exact .wrapIf h hp (.refl _ _)

/-- The body of lifted code lies in it, with code behind. -/
theorem LiftedCode.positions {operands : List Operand} {wraps : Bool} {absent body : Emit Unit}
    (c : LiftedCode hR setting start operands wraps absent body s t) :
    s.position ≤ c.inner.position ∧ c.inner.position ≤ c.outer.position ∧
      c.outer.position < t.position := by
  have hwrap := c.wrap.position_le
  have hwithin := c.within
  have hmissing := c.missing.position_le
  have hlast := c.last
  exact ⟨c.before, c.behind, by omega⟩

/-- Behind its body lifted code wraps what a call in the body left. -/
theorem LiftedCode.leavesResults {operands : List Operand} {wraps : Bool} {absent body : Emit Unit}
    (c : LiftedCode hR setting start operands wraps absent body s t) {sig : Signature}
    (hvoid : sig.ret.isVoid = true → wraps = false) (span : Span) (a : Around) (n : Memory)
    (stack : List Value) (v : Value) :
    Run.Via setting.registry R span (fun q => c.outer.position ≤ q ∧ q < t.position) c.outer.position
      (n.state a (sig.results v ++ stack)) t.position
      (n.state a ((sig.results v).map (Value.wrapIf wraps) ++ stack)) := by
  have hwrap := c.wrap.position_le
  have hwithin := c.within
  have hmissing := c.missing.position_le
  have hlast := c.last
  refine (Run.Via.wrapResults c.wrap hvoid (fun q hq hq' => ⟨hq, by omega⟩) v).trans ?_
  exact (c.joins span a n _).imp fun q hq => ⟨by omega, hq.2⟩

/-- An operand that is moved into a temporary and is present is pushed again, without its wrapper. -/
theorem LiftedCode.pushes {ty : Ty} {wraps : Bool} {absent body : Emit Unit} {slot : Nat}
    {u x : Emission} (c : LiftedCode hR setting start [⟨slot, ty⟩] wraps absent body s t)
    (hspill : (Job.ofRoutine setting hR).Emits start (Emit.spill ty) u slot s)
    (hinner : (Job.ofRoutine setting hR).Emits start (Emit.loadInner ⟨slot, ty⟩) c.inner () x)
    (hx : x.position ≤ c.outer.position) (span : Span) (a : Around) (n : Memory) (stack : List Value)
    {z y : Value} (hsize : n.locals.size = R.locals.size) (hzy : z.payloadAt? ty = some y) :
    ∃ k : Memory, n.Spares u k ∧
      Run.Via setting.registry R span (fun q => u.position ≤ q ∧ q < t.position) u.position
        (n.state a (z :: stack)) x.position (k.state a (y :: stack)) := by
  have hstart := hspill.position_le
  have hload := hinner.position_le
  obtain ⟨hbefore, -, hbehind⟩ := c.positions
  have htemp := hspill.spilled hsize z
  have hpresent : List.Forall₂ (fun (o : Operand) v => (v.payloadAt? o.ty).isSome = true)
      [⟨slot, ty⟩] [z] := .cons (by rw [hzy]; rfl) .nil
  have hend := hspill.spill.1
  refine ⟨_, .setLocal hspill.spill.2 z, ?_⟩
  refine .spill hspill hsize ⟨Nat.le_refl _, by omega⟩ ?_
  refine ((c.enters span a _ stack [z] (.cons htemp .nil) hpresent).imp fun q hq =>
    ⟨by omega, by omega⟩).trans ?_
  exact .loadInner hinner (htemp.later c.retains) hzy (fun q hq hq' => ⟨by omega, by omega⟩) (.refl _ _)

theorem Ty.isNullable_of_isVoid {ty : Ty} (h : ty.isVoid = true) : ty.isNullable = false := by
  cases ty <;> first | rfl | cases h

namespace MethodUse

/-- A call at the end of code leaves what the method returns. -/
theorem of_last {role : MethodRole} {m : MethodRef} {u w : Emission}
    (hcalls : role.Calls setting.registry m)
    (hcall : (Job.ofRoutine setting hR).Emits start (Emit.instr (.call m)) w () t)
    (hoperands : role.Operands (Job.ofRoutine setting hR) start s u)
    (hinside : s.position ≤ u.position ∧ u.position ≤ w.position)
    (hchecked : ∀ sig, setting.registry.signature m = .ok sig → role.Checked sig)
    (hresult : ∀ (sig : Signature) (v : Value), setting.registry.signature m = .ok sig →
      role.Returns sig → role.width = (!sig.ret.isVoid).toNat ∧ role.Result sig v (sig.results v))
    (hpushes : ∀ (span : Span) (a : Around) (n : Memory) (stack given pushed : List Value)
      (sig : Signature), setting.registry.signature m = .ok sig →
      role.Pushes setting.registry sig u n given pushed →
      Run.Via setting.registry R span (fun q => u.position ≤ q ∧ q < t.position) u.position
        (n.state a (given ++ stack)) w.position (n.state a (pushed ++ stack))) :
    MethodUse setting hR start role m s u t w.position := by
  have hend := hcall.instr_position
  refine ⟨hcalls, hcall.instr.1, hoperands, ⟨hinside.1, hinside.2, by omega⟩, hchecked, ?_, ?_⟩
  · intro span a n stack given pushed sig _ hsig h
    exact ⟨n, .refl _ _, hpushes span a n stack given pushed sig hsig h⟩
  · intro span a n stack sig v hsig hreturns
    obtain ⟨hwidth, hresult⟩ := hresult sig v hsig hreturns
    rw [← hend]
    exact .via (.refl _ _) ⟨_, (sig.length_results v).trans hwidth.symm, hresult, rfl⟩

/-- The getter of a property that is read. -/
theorem of_property {p : PropertyRef} {receiver : Option Node} {ty : Ty} {e : Emitted}
    (h : (Job.ofRoutine setting hR).Emits start (Emit.property p receiver ty exit) s e t) :
    ∃ m u site, MethodUse setting hR start (.read p receiver ty exit) m s u t site := by
  obtain ⟨d, s₀, hlookup, h⟩ := h.bind
  obtain ⟨hd, rfl⟩ := hlookup.lookup
  split at h
  · exact h.fail.elim
  simp only [↓Job.Emits.seq_iff, Job.Emits.bind_iff] at h
  obtain ⟨_, s₁, hregistry, s₂, hcheck, m, s₃, haccessor, hcode⟩ := h
  obtain ⟨-, rfl⟩ := hregistry.registry
  obtain rfl := hcheck.checkMember
  obtain ⟨rfl, hm⟩ := haccessor.accessor
  -- The receiver of an instance property comes before the call.
  obtain ⟨u, used, hoperands, hcall, hoperand⟩ : ∃ u used,
      (if d.isStatic then u = s₃ else ∃ n e, receiver = some n ∧
        (Job.ofRoutine setting hR).Emits start (n.receiver exit .receiver false) s₃ e u) ∧
      (Job.ofRoutine setting hR).Emits start (do
        Emit.instr (.call m)
        return .ofTy ty used) u e t ∧ s₃.position ≤ u.position := by
    split at hcode
    · next hstatic =>
      obtain ⟨used, u, hused, hcode⟩ := hcode.bind
      obtain ⟨rfl, rfl⟩ := hused.pure
      exact ⟨_, _, by rw [if_pos hstatic], hcode, Nat.le_refl _⟩
    · next hstatic =>
      obtain ⟨n, s₄, hrequire, hbehind⟩ := hcode.bind
      obtain ⟨e', u, hemit, hbehind⟩ := hbehind.bind
      obtain ⟨_, _, hused, hlast⟩ := hbehind.bind
      obtain ⟨rfl, rfl⟩ := hused.pure
      unfold Emit.requireReceiver at hrequire
      cases receiver with
      | none => exact hrequire.unsupported.elim
      | some receiver =>
          obtain ⟨rfl, rfl⟩ := hrequire.pure
          refine ⟨_, _, ?_, hlast, hemit.position_le⟩
          rw [if_neg hstatic]
          exact ⟨_, e', rfl, hemit⟩
  rw [Job.Emits.seq_iff] at hcall
  obtain ⟨_, hcall, hdone⟩ := hcall
  obtain ⟨-, rfl⟩ := hdone.pure
  refine ⟨m, u, u.position, of_last hm hcall ⟨d, hd, hoperands⟩ ⟨hoperand, Nat.le_refl _⟩
    (fun _ _ => trivial) (fun sig v _ hreturns => ⟨?_, rfl⟩) ?_⟩
  · rw [show sig.ret.isVoid = ty.isVoid from hreturns]
    rfl
  · intro span a n stack given pushed sig _ hpushes
    obtain ⟨d', -, rfl, -⟩ := hpushes
    exact .refl _ _

/-- The getter of a property with operands in temporaries. -/
theorem of_load {p : PropertyRef} {receiver : Option Nat} {indices : List Nat} {ty : Ty}
    (h : (Job.ofRoutine setting hR).Emits start
      (Emit.loadPlace ⟨.property p, receiver, indices, ty⟩) s () t) :
    ∃ m u site, MethodUse setting hR start (.load p receiver indices ty) m s u t site := by
  obtain ⟨m, s₁, haccessor, hcode⟩ := Job.Emits.bind (x := Emit.accessor p .getter) h
  obtain ⟨rfl, hm⟩ := haccessor.accessor
  simp only [↓Job.Emits.seq_iff] at hcode
  obtain ⟨u, hoperands, hcall⟩ := hcode
  have hbefore := hoperands.position_le
  have hend := hcall.instr_position
  refine ⟨m, s₁, u.position, of_last hm hcall rfl ⟨Nat.le_refl _, hbefore⟩ (fun _ _ => trivial)
    (fun sig v _ hreturns => ⟨?_, rfl⟩) ?_⟩
  · rw [show sig.ret.isVoid = ty.isVoid from hreturns]
    rfl
  · intro span a n stack given pushed sig _ hpushes
    obtain ⟨rfl, hslots⟩ := hpushes
    refine .loadLocals hoperands hslots (fun q hq hq' => ⟨hq, by omega⟩) ?_
    rw [List.reverse_reverse]
    exact .refl _ _

/-- The setter of a property with operands and the value in temporaries. -/
theorem of_store {p : PropertyRef} {receiver : Option Nat} {indices : List Nat} {ty : Ty} {value : Nat}
    (h : (Job.ofRoutine setting hR).Emits start
      (Emit.storePlace ⟨.property p, receiver, indices, ty⟩ value) s () t) :
    ∃ m u site, MethodUse setting hR start (.store p receiver indices ty value) m s u t
      site := by
  obtain ⟨m, s₁, haccessor, hcode⟩ := Job.Emits.bind (x := Emit.accessor p .setter) h
  obtain ⟨rfl, hm⟩ := haccessor.accessor
  simp only [↓Job.Emits.seq_iff, Job.Emits.instrs_cons_iff, Job.Emits.instrs_one_iff] at hcode
  obtain ⟨u, hoperands, w, hvalue, hcall⟩ := hcode
  have hbefore := hoperands.position_le
  have hmiddle := hvalue.instr_position
  have hend := hcall.instr_position
  refine ⟨m, s₁, w.position, of_last hm hcall rfl ⟨Nat.le_refl _, by omega⟩ (fun _ _ => trivial)
    (fun sig v _ hreturns => ⟨?_, trivial⟩) ?_⟩
  · rw [show sig.ret.isVoid = true from hreturns]
    rfl
  · intro span a n stack given pushed sig _ hpushes
    obtain ⟨rfl, v, operands, rfl, hlast, hslots⟩ := hpushes
    refine .loadLocals hoperands hslots (fun q hq hq' => ⟨hq, by omega⟩) ?_
    rw [List.reverse_reverse]
    exact .instr hvalue (fun _ => rfl) ⟨hbefore, by omega⟩ (.loadLocal _ _ _ hlast) (.refl _ _)

/-- The getter of a property whose value a binding goes into. -/
theorem of_loadMember {p : PropertyRef}
    (h : (Job.ofRoutine setting hR).Emits start (Emit.loadMember (.property p)) s () t) :
    ∃ m u site, MethodUse setting hR start (.loadMember p) m s u t site := by
  obtain ⟨d, s₁, hlookup, hcode⟩ := Job.Emits.bind (x := Emit.lookup (·.property p)) h
  obtain ⟨hd, rfl⟩ := hlookup.lookup
  split at hcode
  · exact hcode.unsupported.elim
  obtain ⟨m, s₂, haccessor, hcall⟩ := hcode.bind
  obtain ⟨rfl, hm⟩ := haccessor.accessor
  refine ⟨m, _, _, of_last hm hcall rfl ⟨Nat.le_refl _, Nat.le_refl _⟩ (fun _ _ => trivial)
    (fun sig v _ hreturns => ⟨?_, rfl⟩) ?_⟩
  · rw [show sig.ret.isVoid = false from hreturns]
    rfl
  · intro span a n stack given pushed sig _ hpushes
    obtain ⟨rfl, -⟩ := hpushes
    exact .refl _ _

/-- The setter of a property that is bound. -/
theorem of_storeMember {p : PropertyRef} {source : Ty}
    (h : (Job.ofRoutine setting hR).Emits start (Emit.storeMember (.property p) source) s () t) :
    ∃ m u site, MethodUse setting hR start (.storeMember p source) m s u t site := by
  obtain ⟨d, s₁, hlookup, hcode⟩ := Job.Emits.bind (x := Emit.lookup (·.property p)) h
  obtain ⟨hd, rfl⟩ := hlookup.lookup
  simp only [↓Job.Emits.seq_iff, Job.Emits.bind_iff] at hcode
  obtain ⟨u, hcoerce, m, s₂, haccessor, hcall⟩ := hcode
  obtain ⟨rfl, hm⟩ := haccessor.accessor
  have hbefore := hcoerce.position_le
  have hend := hcall.instr_position
  refine ⟨m, _, _, of_last hm hcall rfl ⟨Nat.le_refl _, hbefore⟩ (fun _ _ => trivial)
    (fun sig v _ hreturns => ⟨?_, trivial⟩) ?_⟩
  · rw [show sig.ret.isVoid = true from hreturns]
    rfl
  · intro span a n stack given pushed sig _ hpushes
    obtain ⟨d', v, x, hd', rfl, rfl⟩ := hpushes
    obtain rfl := Except.ok.inj (hd.symm.trans hd')
    exact .coerce hcoerce (fun q hq hq' => ⟨hq, by omega⟩) (.refl _ _)

/-- A unary operator. -/
theorem of_unary {op : UnaryOp} {operand : Node} {checked : Bool} {m : MethodRef} {ty : Ty}
    {e : Emitted}
    (h : (Job.ofRoutine setting hR).Emits start (Emit.unary op operand checked (some m) ty exit) s e t) :
    ∃ u site, MethodUse setting hR start (.unary op operand checked m ty exit) m s u t
      site := by
  simp only [Emit.unary, Option.isNone_some, Bool.false_and, Bool.false_eq_true, if_false,
    Bool.and_false] at h
  have hresult : ∀ (sig : Signature) (v : Value), sig.ret.isVoid = ty.isVoid →
      ((sig.results v).map (Value.wrapIf ty.isNullable)).length = (!ty.isVoid).toNat := by
    intro sig v hreturns
    rw [List.length_map, sig.length_results, hreturns]
  have hvoid : ∀ sig : Signature, sig.ret.isVoid = ty.isVoid → sig.ret.isVoid = true →
      ty.isNullable = false := fun sig hreturns hret => Ty.isNullable_of_isVoid (hreturns.symm.trans hret)
  split at h
  · next hplain =>
    simp only [↓Job.Emits.seq_iff, Job.Emits.bind_iff] at h
    obtain ⟨used, u, hoperand, w, hcode, w', hwrap, hdone⟩ := h
    obtain ⟨-, rfl⟩ := hdone.pure
    have hcall : (Job.ofRoutine setting hR).Emits start (Emit.instr (.call m)) u () w :=
      Job.Emits.instrs_one_iff.mp hcode
    have hbefore := hoperand.position_le
    have hmiddle := hcall.instr_position
    have hlast := hwrap.position_le
    refine ⟨u, u.position, rfl, hcall.instr.1, ⟨used, hoperand⟩, ⟨hbefore, Nat.le_refl _, by omega⟩,
      fun _ _ => trivial, ?_, ?_⟩
    · intro span a n stack given pushed sig hsize hsig hpushes
      obtain ⟨x, y, hxy, rfl, rfl⟩ := hpushes
      have hnullable : operand.ty.isNullable = false := by simpa using hplain
      simp only [Value.payloadAt?, hnullable, Bool.false_eq_true, if_false, Option.some.injEq] at hxy
      subst hxy
      exact ⟨n, .refl _ _, .refl _ _⟩
    · intro span a n stack sig v hsig hreturns
      rw [← hmiddle]
      exact .via (.wrapResults hwrap (hvoid sig hreturns) (fun q hq hq' => ⟨by omega, by omega⟩) v)
        ⟨_, hresult sig v hreturns, rfl, rfl⟩
  · split at h
    · obtain ⟨_, _, _, h⟩ := h.bind
      exact h.mismatch.elim
    obtain ⟨t', h, hend⟩ := h.withTemps
    simp only [Emit.spillOperand, ↓Job.Emits.seq_iff, Job.Emits.bind_iff] at h
    obtain ⟨used, u, hoperand, o, w, ⟨slot, w', hspill, ho⟩, w'', hlifted, hdone⟩ := h
    obtain ⟨rfl, rfl⟩ := ho.pure
    obtain ⟨-, rfl⟩ := hdone.pure
    obtain ⟨c⟩ := LiftedCode.of_emits hlifted
    have hbody := c.body
    simp only [↓Job.Emits.seq_iff] at hbody
    obtain ⟨x, hinner, hcode⟩ := hbody
    have hcall : (Job.ofRoutine setting hR).Emits start (Emit.instr (.call m)) x () c.outer :=
      Job.Emits.instrs_one_iff.mp hcode
    have hstart := hspill.position_le
    have hload := hinner.position_le
    have hmiddle := hcall.instr_position
    obtain ⟨hbefore, -, hbehind⟩ := c.positions
    refine ⟨u, x.position, rfl, hcall.instr.1, ⟨used, hoperand⟩,
      ⟨hoperand.position_le, by omega, by omega⟩, fun _ _ => trivial, ?_, ?_⟩
    · intro span a n stack given pushed sig hsize hsig hpushes
      obtain ⟨z, y, hzy, rfl, rfl⟩ := hpushes
      rw [hend]
      exact c.pushes hspill hinner (by omega) span a n stack hsize hzy
    · intro span a n stack sig v hsig hreturns
      rw [← hmiddle, hend]
      exact .via ((c.leavesResults (hvoid sig hreturns) span a n stack v).imp fun q hq =>
        ⟨by omega, by omega⟩) ⟨_, hresult sig v hreturns, rfl, rfl⟩

/-- A binary operator on operands in temporaries. -/
theorem of_operator {op : BinaryOp} {checked : Bool} {m : MethodRef} {left right : Operand} {ty : Ty}
    (h : (Job.ofRoutine setting hR).Emits start (Emit.binarySlots op checked (some m) left right ty) s ()
      t) :
    ∃ site, MethodUse setting hR start (.operator op checked m left right ty) m s s t
      site := by
  obtain ⟨sig, s₁, hlookup, h⟩ := Job.Emits.bind (x := Emit.lookup (·.signature m)) h
  obtain ⟨hsig, rfl⟩ := hlookup.lookup
  dsimp only at h
  split at h
  · next harity =>
    have hchecked : ∀ sig', setting.registry.signature m = .ok sig' → sig'.arity = 2 := by
      intro sig' hsig'
      obtain rfl := Except.ok.inj (hsig.symm.trans hsig')
      exact harity
    split at h
    · next hlifted =>
      have hlifted : sig.isLifted left.ty right.ty = true := hlifted
      obtain ⟨c⟩ := LiftedCode.of_emits h
      have hbody := c.body
      simp only [↓Job.Emits.seq_iff] at hbody
      obtain ⟨u, hleft, w, hright, hcall⟩ := hbody
      have hload := hleft.position_le
      have hload' := hright.position_le
      have hmiddle := hcall.instr_position
      obtain ⟨hbefore, -, hbehind⟩ := c.positions
      refine ⟨w.position, rfl, hcall.instr.1, rfl, ⟨Nat.le_refl _, by omega, by omega⟩, hchecked, ?_, ?_⟩
      · intro span a n stack given pushed sig' hsize hsig' hpushes
        obtain rfl := Except.ok.inj (hsig.symm.trans hsig')
        obtain ⟨rfl, x, y, hx, hy, hpushed⟩ := hpushes
        rw [if_pos hlifted] at hpushed
        obtain ⟨x', y', hx', hy', rfl⟩ := hpushed
        have hpresent : List.Forall₂ (fun (o : Operand) v => (v.payloadAt? o.ty).isSome = true)
            [left, right] [x, y] := .cons (by rw [hx']; rfl) (.cons (by rw [hy']; rfl) .nil)
        refine ⟨n, .refl _ _, ((c.enters span a n _ [x, y] (.cons hx (.cons hy .nil)) hpresent).imp
          fun q hq => ⟨hq.1, by omega⟩).trans ?_⟩
        refine .loadInner hleft (hx.later c.retains) hx' (fun q hq hq' => ⟨by omega, by omega⟩) ?_
        exact .loadInner hright (hy.later (c.retains.trans hleft.retains)) hy'
          (fun q hq hq' => ⟨by omega, by omega⟩) (.refl _ _)
      · intro span a n stack sig' v hsig' hreturns
        obtain rfl := Except.ok.inj (hsig.symm.trans hsig')
        have hreturns : sig.ret.isVoid = ty.isVoid := hreturns
        have hvoid : sig.ret.isVoid = true → (ty.isNullable && !sig.ret.isNullable) = false := by
          intro hret
          rw [Ty.isNullable_of_isVoid (hreturns.symm.trans hret), Bool.false_and]
        rw [← hmiddle]
        refine .via ((c.leavesResults hvoid span a n stack v).imp fun q hq => ⟨by omega, hq.2⟩)
          ⟨_, ?_, ?_, rfl⟩
        · rw [List.length_map, sig.length_results, hreturns]
          rfl
        · rw [← Bool.true_and (ty.isNullable && !sig.ret.isNullable), ← hlifted]
          rfl
    · next hplain =>
      have hplain : sig.isLifted left.ty right.ty = false := Bool.eq_false_iff.mpr hplain
      simp only [Emit.loadOperand, ↓Job.Emits.seq_iff] at h
      obtain ⟨u, hleft, w, hright, hcall⟩ := h
      have hload := hleft.instr_position
      have hload' := hright.instr_position
      have hend := hcall.instr_position
      refine ⟨w.position, of_last rfl hcall rfl ⟨Nat.le_refl _, by omega⟩ hchecked ?_ ?_⟩
      · intro sig' v hsig' hreturns
        obtain rfl := Except.ok.inj (hsig.symm.trans hsig')
        have hreturns : sig.ret.isVoid = ty.isVoid := hreturns
        refine ⟨by rw [hreturns]; rfl, ?_⟩
        change sig.results v = (sig.results v).map _
        rw [hplain, Bool.false_and]
        exact (List.map_id _).symm
      · intro span a n stack given pushed sig' hsig' hpushes
        obtain rfl := Except.ok.inj (hsig.symm.trans hsig')
        obtain ⟨rfl, x, y, hx, hy, hpushed⟩ := hpushes
        rw [if_neg (by rw [hplain]; exact Bool.false_ne_true)] at hpushed
        subst hpushed
        refine .loadTemp hleft hx ⟨Nat.le_refl _, by omega⟩ ?_
        exact .loadTemp hright (hy.later hleft.retains) ⟨by omega, by omega⟩ (.refl _ _)
  · obtain ⟨_, _, _, h⟩ := h.bind
    exact h.fail.elim

/-- A conversion. -/
theorem of_conversion {operand : Node} {m : MethodRef} {ty : Ty} {e : Emitted}
    (h : (Job.ofRoutine setting hR).Emits start (Emit.userConversion operand m ty exit) s e t) :
    ∃ u site, MethodUse setting hR start (.conversion operand m ty exit) m s u t site := by
  obtain ⟨sig, s₁, hlookup, h⟩ := Job.Emits.bind (x := Emit.lookup (·.signature m)) h
  obtain ⟨hsig, rfl⟩ := hlookup.lookup
  obtain ⟨_, s₂, hregistry, h⟩ := h.bind
  obtain ⟨rfl, rfl⟩ := hregistry.registry
  dsimp only at h
  split at h
  · next param byRef hparams =>
    have hchecked : ∀ sig', setting.registry.signature m = .ok sig' → sig'.params.length = 1 := by
      intro sig' hsig'
      obtain rfl := Except.ok.inj (hsig.symm.trans hsig')
      rw [hparams]
      rfl
    have hlifts : sig.lifts operand.ty = (operand.ty.isNullable && !param.isNullable) := by
      simp only [Signature.lifts, hparams, List.any_cons, List.any_nil, Bool.or_false]
    split at h
    · next hplain =>
      have hplain : sig.lifts operand.ty = false := by
        rw [hlifts]
        simpa only [Bool.not_eq_true'] using hplain
      simp only [↓Job.Emits.seq_iff, Job.Emits.bind_iff] at h
      obtain ⟨used, u, hoperand, w, hcoerce, x, hcall, t', hconversion, hdone⟩ := h
      obtain ⟨-, rfl⟩ := hdone.pure
      have hbefore := hoperand.position_le
      have hcoerced := hcoerce.position_le
      have hmiddle := hcall.instr_position
      have hlast := hconversion.position_le
      refine ⟨u, w.position, rfl, hcall.instr.1, ⟨used, hoperand⟩, ⟨hbefore, hcoerced, by omega⟩,
        hchecked, ?_, ?_⟩
      · intro span a n stack given pushed sig' hsize hsig' hpushes
        obtain rfl := Except.ok.inj (hsig.symm.trans hsig')
        obtain ⟨z, rfl, hpushed⟩ := hpushes
        rw [if_neg (by rw [hplain]; exact Bool.false_ne_true), hparams] at hpushed
        subst hpushed
        exact ⟨n, .refl _ _, .coerce hcoerce (fun q hq hq' => ⟨hq, by omega⟩) (.refl _ _)⟩
      · intro span a n stack sig' v hsig' hreturns
        obtain rfl := Except.ok.inj (hsig.symm.trans hsig')
        have hreturns : sig.ret.isVoid = true → ty.isVoid = true := hreturns
        rw [← hmiddle]
        refine (Run.Arrives.plainConversion hconversion hreturns).imp (fun q hq => ⟨by omega, hq.2⟩) ?_
        rintro _ ⟨results, hwidth, rfl⟩
        exact ⟨results, hwidth, trivial, rfl⟩
    · next hlifted =>
      have hlifted : sig.lifts operand.ty = true := by
        rw [hlifts]
        simpa only [Bool.not_eq_true', Bool.not_eq_false] using hlifted
      split at h
      · obtain ⟨_, _, _, h⟩ := h.bind
        exact h.mismatch.elim
      next habsent =>
      have hvalue : ty.isVoid = false := by
        rw [Bool.eq_false_iff]
        intro hvoid
        cases ty with
        | void => exact habsent rfl
        | _ => cases hvoid
      obtain ⟨t', h, hend⟩ := h.withTemps
      simp only [Emit.spillOperand, ↓Job.Emits.seq_iff, Job.Emits.bind_iff] at h
      obtain ⟨used, u, hoperand, o, w, ⟨slot, w', hspill, ho⟩, w'', hcode, hdone⟩ := h
      obtain ⟨rfl, rfl⟩ := ho.pure
      obtain ⟨-, rfl⟩ := hdone.pure
      obtain ⟨c⟩ := LiftedCode.of_emits hcode
      have hbody := c.body
      simp only [↓Job.Emits.seq_iff] at hbody
      obtain ⟨x, hinner, hcall⟩ := hbody
      have hstart := hspill.position_le
      have hload := hinner.position_le
      have hmiddle := hcall.instr_position
      obtain ⟨hbefore, -, hbehind⟩ := c.positions
      refine ⟨u, x.position, rfl, hcall.instr.1, ⟨used, hoperand⟩,
        ⟨hoperand.position_le, by omega, by omega⟩, hchecked, ?_, ?_⟩
      · intro span a n stack given pushed sig' hsize hsig' hpushes
        obtain rfl := Except.ok.inj (hsig.symm.trans hsig')
        obtain ⟨z, rfl, hpushed⟩ := hpushes
        rw [if_pos hlifted] at hpushed
        obtain ⟨y, hzy, rfl⟩ := hpushed
        rw [hend]
        exact c.pushes hspill hinner (by omega) span a n stack hsize hzy
      · intro span a n stack sig' v hsig' hreturns
        obtain rfl := Except.ok.inj (hsig.symm.trans hsig')
        have hret : sig.ret.isVoid = false := by
          rw [Bool.eq_false_iff]
          intro hret
          rw [show ty.isVoid = true from hreturns hret] at hvalue
          cases hvalue
        rw [← hmiddle, hend]
        refine .via ((c.leavesResults (fun h => absurd (hret.symm.trans h) Bool.false_ne_true) span a n
          stack v).imp fun q hq => ⟨by omega, by omega⟩) ⟨_, ?_, trivial, rfl⟩
        rw [List.length_map, sig.length_results, hret, MethodRole.width, hvalue]
  · exact h.fail.elim

/-- The addition of an element. -/
theorem of_elementInit {item : ElementInit Node} {used : Bool}
    (h : (Job.ofRoutine setting hR).Emits start (Emit.elementInit item exit) s used t) :
    ∃ u site, MethodUse setting hR start (.add item exit) item.add s u t site := by
  obtain ⟨sig, s₁, hlookup, h⟩ := Job.Emits.bind (x := Emit.lookup (·.signature item.add)) h
  obtain ⟨hsig, rfl⟩ := hlookup.lookup
  obtain ⟨_, s₂, hregistry, h⟩ := h.bind
  obtain ⟨rfl, rfl⟩ := hregistry.registry
  simp only [↓Job.Emits.seq_iff, Job.Emits.bind_iff] at h
  obtain ⟨w, hdup, usedArgs, u, hargs, x, hcall, hdrop⟩ := h
  have hchecked : ∀ sig', setting.registry.signature item.add = .ok sig' →
      sig'.params.length = item.args.length := by
    intro sig' hsig'
    obtain rfl := Except.ok.inj (hsig.symm.trans hsig')
    have hargs' := hargs
    unfold Emit.arguments at hargs'
    split at hargs'
    · exact hargs'.fail.elim
    · next hlength => exact not_not.mp hlength
  have hbefore := hdup.position_le
  have harguments := hargs.position_le
  have hmiddle := hcall.instr_position
  have hlast := hdrop.position_le
  refine ⟨u, u.position, rfl, hcall.instr.1, ⟨sig, w, usedArgs, hsig, hdup, hargs⟩,
    ⟨by omega, Nat.le_refl _, by omega⟩, hchecked, ?_, ?_⟩
  · intro span a n stack given pushed sig' hsize hsig' hpushes
    obtain ⟨rfl, -⟩ := hpushes
    exact ⟨n, .refl _ _, .refl _ _⟩
  · intro span a n stack sig' v hsig' hreturns
    obtain rfl := Except.ok.inj (hsig.symm.trans hsig')
    rw [← hmiddle]
    refine .via ?_ ⟨[], rfl, trivial, rfl⟩
    unfold Signature.results
    split at hdrop
    · next hvalue =>
      rw [Job.Emits.seq_iff] at hdrop
      obtain ⟨y, hpop, hdone⟩ := hdrop
      obtain ⟨-, rfl⟩ := hdone.pure
      have hend := hpop.instr_position
      rw [if_neg (by simpa using hvalue)]
      exact .instr hpop (fun _ => rfl) ⟨by omega, by omega⟩ (.pop _ _ _ v) (.refl _ _)
    · next hnothing =>
      obtain ⟨-, rfl⟩ := hdrop.pure
      rw [if_pos (by simpa using hnothing)]
      exact .refl _ _

end MethodUse

/-- Every role has its use of a method. -/
theorem MethodRole.Emits.use {role : MethodRole} (h : role.Emits (Job.ofRoutine setting hR) start s t) :
    ∃ m u site, MethodUse setting hR start role m s u t site := by
  cases role with
  | read =>
      obtain ⟨_, h⟩ := h
      exact MethodUse.of_property h
  | load => exact MethodUse.of_load h
  | store => exact MethodUse.of_store h
  | loadMember => exact MethodUse.of_loadMember h
  | storeMember => exact MethodUse.of_storeMember h
  | unary =>
      obtain ⟨_, h⟩ := h
      exact ⟨_, MethodUse.of_unary h⟩
  | operator => exact ⟨_, _, MethodUse.of_operator h⟩
  | conversion =>
      obtain ⟨_, h⟩ := h
      exact ⟨_, MethodUse.of_conversion h⟩
  | add =>
      obtain ⟨_, h⟩ := h
      exact ⟨_, MethodUse.of_elementInit h⟩

end

/-- The code of a method in a role pushes operands, calls the method and deals with what is returned.  The
method is compiled code, or the host implements it and leaves what the calls around wait with.  A call that
returns takes as many values off the stack as the signature has operands and leaves its result, whatever was
pushed.  If the signature fits the role, the node leaves its own result, and below that the stack is as it
was below the operands; and the calls around wait with what they waited with. -/
theorem method_settles_in_role {setting : Setting} (hhosts : setting.registry.HostsKeep State.SameWaiting)
    {R : Routine} (hR : R.WithinLimits) {start : Nat}
    {s t : Emission} {role : MethodRole} (h : role.Emits (Job.ofRoutine setting hR) start s t) :
    ∃ (m : MethodRef) (u : Emission) (site : Nat),
      role.Calls setting.registry m ∧ R.code[site]? = some (.call m) ∧
      role.Operands (Job.ofRoutine setting hR) start s u ∧
      (s.position ≤ u.position ∧ u.position ≤ site ∧ site < t.position) ∧
      ∀ sig, setting.registry.signature m = .ok sig → role.Checked sig ∧
        ∀ (span : Span) (a : Around) (n : Memory) (stack given pushed : List Value),
          n.locals.size = R.locals.size → role.Pushes setting.registry sig u n given pushed →
          ∃ k : Memory, n.Spares u k ∧
            Run.Via setting.registry R span (fun q => u.position ≤ q ∧ q < t.position) u.position
              (n.state a (given ++ stack)) site (k.state a (pushed ++ stack)) ∧
            ∀ flow x, Run.Steps setting.registry R (.call m) (k.state a (pushed ++ stack)) (.ok flow x) →
              flow = .next ∧ sig.arity ≤ (pushed ++ stack).length ∧
                ∃ (after : Memory) (b : Around) (v : Value), Run.Around.Same a b ∧
                  x = after.state b (sig.results v ++ (pushed ++ stack).drop sig.arity) ∧
                  (role.Fits sig pushed → Run.Arrives setting.registry R span
                    (fun q => u.position ≤ q ∧ q < t.position) t.position
                    (fun y => ∃ results : List Value, results.length = role.width ∧
                      role.Result sig v results ∧ y = after.state b (results ++ stack)) (site + 1) x) := by
  obtain ⟨m, u, site, use⟩ := h.use
  refine ⟨m, u, site, use.calls, use.code, use.operands, use.inside, fun sig hsig =>
    ⟨use.checked sig hsig, fun span a n stack given pushed hsize hpushes => ?_⟩⟩
  obtain ⟨k, hspares, hvia⟩ := use.pushes span a n stack given pushed sig hsize hsig hpushes
  refine ⟨k, hspares, hvia, fun flow x hstep => ?_⟩
  obtain ⟨hflow, harity, after, b, v, hsame, -, hx⟩ := Run.Steps.call_ok hhosts hsig hstep
  have hx : x = after.state b (sig.results v ++ (pushed ++ stack).drop sig.arity) := by
    rw [hx]
    unfold Signature.results
    cases sig.ret.isVoid <;> rfl
  refine ⟨hflow, harity, after, b, v, hsame, hx, fun hfits => ?_⟩
  have hdrop : (pushed ++ stack).drop sig.arity = stack := by
    rw [hfits.1, List.drop_left]
  rw [hx, hdrop]
  exact use.settles span b after stack sig v hsig hfits.2

/-- The host yields the length of a text. -/
def measurer : Registry :=
  .hosting [.str] .int (.acting fun args => pure (.int ((args.head?.bind Value.text?).getD "").length))

/-- The method of the host as a unary operator on a parameter. -/
def lengthRole : MethodRole :=
  .unary .plus (Expr.node (.parameter 0) .str).toNode false Registry.hosted .int none

/-- The length replaces the text, whatever is below. -/
theorem method_settles_in_role_length :
    ∃ (R : Routine) (hR : R.WithinLimits) (t : Emission) (site : Nat),
      lengthRole.Emits (Job.ofRoutine ⟨measurer, .default⟩ hR) 0
        (beforeCode "length" [⟨0, "p", .str⟩] .int) t ∧
      ∀ (span : Span) (a : Around) (m : Memory) (stack : List Value), m.locals.size = R.locals.size →
        m.args = #[.str "ab"] → ∃ n : Memory,
          Run.Via measurer R span (fun _ => True) 0 (m.state a stack) site
            (n.state a (.str "ab" :: stack)) ∧
          Run.Arrives measurer R span (fun _ => True) t.position
            (fun y => y = n.state a (.int 2 :: stack)) (site + 1) (n.state a (.int 2 :: stack)) := by
  have hhosts : measurer.HostsKeep State.SameWaiting := by
    intro f hf
    obtain rfl := List.mem_singleton.mp hf
    exact Host.keeps_acting fun _ _ => rfl
  obtain ⟨e, t, R, hrun, hfinish, hR⟩ : ∃ e t R,
      (Emit.unary .plus (Expr.node (.parameter 0) .str).toNode false (some Registry.hosted) .int
        none).run ⟨measurer, .default⟩ (beforeCode "length" [⟨0, "p", .str⟩] .int) = .ok e t ∧
      t.builder.finish (.unit 0) = .ok R ∧ R.WithinLimits := ⟨_, _, _, rfl, rfl, by decide⟩
  have h : lengthRole.Emits (Job.ofRoutine ⟨measurer, .default⟩ hR) 0
      (beforeCode "length" [⟨0, "p", .str⟩] .int) t :=
    ⟨e, .ofFinish hrun (sound_beforeCode _ _ _) hfinish⟩
  obtain ⟨m, u, site, rfl, -, ⟨used, hoperand⟩, -, hcalls⟩ := method_settles_in_role hhosts hR h
  obtain ⟨-, hcalls⟩ := hcalls _ rfl
  refine ⟨R, hR, t, site, h, fun span a m stack hsize hargs => ?_⟩
  have hloads : Run.Via measurer R span (fun _ => True) 0 (m.state a stack) u.position
      (m.state a (.str "ab" :: stack)) :=
    .argument 0 hoperand rfl rfl (by rw [hargs]; rfl) fun _ _ _ => trivial
  obtain ⟨n, -, hvia, hcall⟩ := hcalls span a m stack [.str "ab"] [.str "ab"] hsize
    ⟨_, _, rfl, rfl, rfl⟩
  have hstep : Run.Steps measurer R (.call Registry.hosted) (n.state a (.str "ab" :: stack))
      (.ok .next (n.state a (.int 2 :: stack))) := by
    refine ⟨0, fun fuel _ => ?_⟩
    change (Run.callMethod measurer (Run.call measurer fuel) Registry.hosted [.str "ab"] >>= fun v =>
      Run.pushNext v) (n.state a stack) = _
    rfl
  obtain ⟨-, -, after, b, v, -, hx, hsettles⟩ := hcall _ _ hstep
  refine ⟨n, hloads.trans (hvia.imp fun _ _ => trivial), ?_⟩
  refine (hsettles ⟨rfl, rfl⟩).imp (fun _ _ => trivial) ?_
  rintro _ ⟨results, -, rfl, rfl⟩
  exact hx.symm

end Arbor
