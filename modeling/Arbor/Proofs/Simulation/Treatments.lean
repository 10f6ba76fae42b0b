/-
  What the code of an operator does with the values of its two operands.

  One instruction sees the values of the operands.  Where an operand may be absent,
  both wait in temporaries and that instruction is reached exactly if both are
  present; otherwise the right operand is evaluated on top of the left one.
-/
import Arbor.Proofs.Simulation.Sections

set_option autoImplicit false

namespace Arbor

section

variable {setting : Setting} {R : Routine} {hR : R.WithinLimits} {start : Nat} {s t : Emission}

/-! ## Lifted code -/

/-- Code that is lifted over operands in temporaries: the tests of their presence, a body that is
reached if all are present, what stands for the result if one is not, and the wrapping. -/
structure LiftedCode (hR : R.WithinLimits) (setting : Setting) (start : Nat) (operands : List Operand)
    (wraps : Bool) (absent body : Emit Unit) (s t : Emission) where
  inner : Emission
  outer : Emission
  joined : Emission
  absentStart : Emission
  absentEnd : Emission
  body : (Job.ofRoutine setting hR).Emits start body inner () outer
  wrap : (Job.ofRoutine setting hR).Emits start (Emit.wrapIf wraps) outer () joined
  missing : (Job.ofRoutine setting hR).Emits start absent absentStart () absentEnd
  retains : s ≤ inner
  before : s.position ≤ inner.position
  within : joined.position < absentStart.position
  behind : inner.position ≤ outer.position
  last : t.position = absentEnd.position
  enters : ∀ (span : Span) (a : Around) (m : Memory) (stack : List Value) (vs : List Value),
    List.Forall₂ (fun (o : Operand) v => m.Temp s o.slot v) operands vs →
    List.Forall₂ (fun (o : Operand) v => (v.payloadAt? o.ty).isSome = true) operands vs →
    Run.Via setting.registry R span (fun q => s.position ≤ q ∧ q < inner.position) s.position
      (m.state a stack) inner.position (m.state a stack)
  skips : ∀ (span : Span) (a : Around) (m : Memory) (stack : List Value) (vs : List Value),
    List.Forall₂ (fun (o : Operand) v => m.Temp s o.slot v) operands vs →
    ¬ List.Forall₂ (fun (o : Operand) v => (v.payloadAt? o.ty).isSome = true) operands vs →
    Run.Via setting.registry R span (fun q => s.position ≤ q ∧ q < inner.position) s.position
      (m.state a stack) absentStart.position (m.state a stack)
  joins : ∀ (span : Span) (a : Around) (m : Memory) (stack : List Value),
    Run.Via setting.registry R span (fun q => joined.position ≤ q ∧ q < t.position) joined.position
      (m.state a stack) t.position (m.state a stack)

/-- What `lifted` emits. -/
theorem LiftedCode.of_emits {operands : List Operand} {wraps : Bool} {absent body : Emit Unit}
    (h : (Job.ofRoutine setting hR).Emits start (Emit.lifted operands wraps absent body) s () t) :
    Nonempty (LiftedCode hR setting start operands wraps absent body s t) := by
  simp only [Emit.lifted, ↓Job.Emits.seq_iff, Job.Emits.bind_iff] at h
  obtain ⟨missing, s₁, hmissing, done, s₂, hdone, s₃, htests, s₄, hbody, s₅, hwrap, s₆, hjump, s₇, hmark,
    s₈, habsent, hmarkDone⟩ := h
  have hmissingTarget : R.target? missing = some s₇.position := by grind
  have hdoneTarget : R.target? done = some t.position := by grind
  refine ⟨s₃, s₄, s₅, s₇, s₈, hbody, hwrap, habsent, by grind, by grind, by grind, by grind, by grind, ?_, ?_,
    ?_⟩
  · intro span a m stack vs htemps hall
    refine .move (by grind : s₂.position = s.position) ?_
    refine .presenceTests htests (htemps.imp fun _ _ htemp => htemp.later (by grind)) hmissingTarget
      (fun p hp hp' => by grind) ?_ fun _ => .refl _ _
    exact fun hmissing => absurd hall hmissing
  · intro span a m stack vs htemps hone
    refine .move (by grind : s₂.position = s.position) ?_
    refine .presenceTests htests (htemps.imp fun _ _ htemp => htemp.later (by grind)) hmissingTarget
      (fun p hp hp' => by grind) (fun _ => .refl _ _) ?_
    exact fun hall => absurd hall hone
  · intro span a m stack
    exact .goto hjump (fun _ => rfl) (by grind) (.jump _ _ _ hdoneTarget) (.refl _ _)

theorem LiftedCode.leaves {operands : List Operand} {wraps : Bool} {absent body : Emit Unit}
    (c : LiftedCode hR setting start operands wraps absent body s t) (span : Span) (a : Around)
    (m : Memory) (stack : List Value) (v : Value) :
    Run.Via setting.registry R span (fun q => c.outer.position ≤ q ∧ q < t.position) c.outer.position
      (m.state a (v :: stack)) t.position (m.state a (v.wrapIf wraps :: stack)) := by
  have hwrap := c.wrap.position_le
  have hwithin := c.within
  have hmissing := c.missing.position_le
  have hlast := c.last
  refine .wrapIf c.wrap (fun q hq hq' => ⟨hq, by omega⟩) ?_
  exact (c.joins span a m _).imp fun q hq => ⟨by omega, hq.2⟩

end

/-! ## Treatments -/

/-- How the code of an operator treats the values of its operands: the instruction that sees them,
what stands for the result where one or both are absent, and whether what the instruction yields is
wrapped. -/
structure Treatment where
  instr : Instr
  absent : Bool → Value → Prop
  wraps : Bool

/-- Positions of the code from `s` to `t` other than `p`. -/
abbrev Emission.Beside (s t : Emission) (p q : Nat) : Prop :=
  (s.position ≤ q ∧ q < t.position) ∧ q ≠ p

namespace Treatment

variable {setting : Setting} {R : Routine} {hR : R.WithinLimits} {start : Nat} {s t : Emission}
  {l r : Node} {ty : Ty} {exit : Option Label} {T : Treatment}

/-- The code from `s` to `t` treats operands in temporaries that way, and has the instruction that sees
their values at one position. -/
structure OfSlots (T : Treatment) (setting : Setting) (R : Routine) (left right : Operand)
    (s t : Emission) (p : Nat) : Prop where
  inside : s.position ≤ p ∧ p < t.position
  code : R.code[p]? = some T.instr
  missing : ∀ (span : Span) (a : Around) (m : Memory) (stack : List Value) (x y d : Value),
    m.Temp s left.slot x → m.Temp s right.slot y →
    (x.payloadAt? left.ty).isSome = false ∨ (y.payloadAt? right.ty).isSome = false →
    T.absent ((x.payloadAt? left.ty).isNone && (y.payloadAt? right.ty).isNone) d →
    Run.Via setting.registry R span (s.Beside t p) s.position
      (m.state a stack) t.position (m.state a (d :: stack))
  present : ∀ (span : Span) (a : Around) (m : Memory) (stack : List Value) (x y x' y' : Value),
    m.Temp s left.slot x → m.Temp s right.slot y → x.payloadAt? left.ty = some x' →
    y.payloadAt? right.ty = some y' →
    Run.Via setting.registry R span (s.Beside t p) s.position
      (m.state a stack) p (m.state a (y' :: x' :: stack))
  behind : ∀ (span : Span) (a : Around) (m : Memory) (stack : List Value) (v : Value),
    Run.Via setting.registry R span (s.Beside t p) (p + 1)
      (m.state a (v :: stack)) t.position (m.state a (v.wrapIf T.wraps :: stack))

/-- Code that is lifted over operands in temporaries treats them as the instruction in it and the code
for an absent operand say. -/
theorem ofSlots_lifted {left right : Operand} {absent : Emit Unit}
    (h : (Job.ofRoutine setting hR).Emits start (Emit.lifted [left, right] T.wraps absent do
      Emit.loadInner left
      Emit.loadInner right
      Emit.instr T.instr) s () t)
    (habsent : ∀ {u v : Emission}, (Job.ofRoutine setting hR).Emits start absent u () v →
      ∀ (span : Span) (a : Around) (m : Memory) (stack : List Value) (both : Bool) (d : Value),
        T.absent both d → Run.Via setting.registry R span
          (fun q => u.position ≤ q ∧ q < v.position) u.position (m.state a stack) v.position
          (m.state a (d :: stack))) :
    ∃ p, T.OfSlots setting R left right s t p := by
  obtain ⟨c⟩ := LiftedCode.of_emits h
  have hbody := c.body
  simp only [↓Job.Emits.seq_iff] at hbody
  obtain ⟨u, hleftInner, v, hrightInner, hoperator⟩ := hbody
  have hpresent : ∀ {x y x' y' : Value}, x.payloadAt? left.ty = some x' →
      y.payloadAt? right.ty = some y' → List.Forall₂
        (fun (o : Operand) v => (v.payloadAt? o.ty).isSome = true) [left, right] [x, y] :=
    fun hx hy => .cons (by rw [hx]; rfl) (.cons (by rw [hy]; rfl) .nil)
  have hbefore := c.before
  have hbehind := c.behind
  have hwithin := c.within
  have hwrap := c.wrap.position_le
  have hlast := c.last
  have hinner := hleftInner.position_le
  have hinner' := hrightInner.position_le
  have houter := hoperator.instr_position
  have hmissing := c.missing.position_le
  refine ⟨v.position, ⟨by omega, by omega⟩, hoperator.instr.1, ?_, ?_, ?_⟩
  · intro span a k stack x y d hx hy hone hd
    have hgone := c.skips span a k stack [x, y] (.cons hx (.cons hy .nil)) ?_
    · refine (hgone.imp fun q hq => ⟨⟨hq.1, by omega⟩, by omega⟩).trans ?_
      refine ((habsent c.missing span a k stack _ d hd).imp fun q hq =>
        ⟨⟨by omega, by omega⟩, by omega⟩).trans ?_
      exact .move c.last (.refl _ _)
    · intro hall
      cases hall with
      | cons hl hall =>
        cases hall with
        | cons hr _ =>
          rcases hone with hone | hone
          · rw [hone] at hl
            cases hl
          · rw [hone] at hr
            cases hr
  · intro span a k stack x y x' y' hx hy hx' hy'
    have henters := c.enters span a k stack [x, y] (.cons hx (.cons hy .nil)) (hpresent hx' hy')
    refine (henters.imp fun q hq => ⟨⟨hq.1, by omega⟩, by omega⟩).trans ?_
    refine .loadInner hleftInner (hx.later c.retains) hx' (fun p hp hp' =>
      ⟨⟨by omega, by omega⟩, by omega⟩) ?_
    refine .loadInner hrightInner (hy.later (c.retains.trans hleftInner.retains)) hy' (fun p hp hp' =>
      ⟨⟨by omega, by omega⟩, by omega⟩) (.refl _ _)
  · intro span a k stack v
    rw [← houter]
    exact (c.leaves span a k stack v).imp fun q hq => ⟨⟨by omega, hq.2⟩, by omega⟩

/-- What is on the stack of the left operand while the right one is evaluated. -/
def held (keeps : Bool) (x : Value) : List Value := if keeps then [x] else []

/-- A node treats operands that it evaluates one after the other that way.  The left value stays on the
stack, or it waits in a temporary. -/
structure OfNode (T : Treatment) (keeps : Bool)
    (o : Sections (Job.ofRoutine setting hR) start l r exit s t) (p : Nat) : Prop where
  inside : o.Own p
  code : R.code[p]? = some T.instr
  between : ∀ (span : Span) (a : Around) (m : Memory) (stack : List Value) (x : Value),
    m.locals.size = R.locals.size → ∃ n, m.Spares s n ∧
      Run.Via setting.registry R span (fun q => o.Own q ∧ q ≠ p) o.leftEnd.position
        (m.state a (x :: stack)) o.rightStart.position (n.state a (held keeps x ++ stack)) ∧
      ∀ (a : Around) (k : Memory) (y : Value), k.locals.size = R.locals.size → o.Saves n k →
        ∃ k', k.Spares s k' ∧
          (∀ d, (x.payloadAt? l.ty).isSome = false ∨ (y.payloadAt? r.ty).isSome = false →
            T.absent ((x.payloadAt? l.ty).isNone && (y.payloadAt? r.ty).isNone) d →
            Run.Via setting.registry R span (fun q => o.Own q ∧ q ≠ p) o.rightEnd.position
              (k.state a (y :: held keeps x ++ stack)) t.position (k'.state a (d :: stack))) ∧
          ∀ x' y', x.payloadAt? l.ty = some x' → y.payloadAt? r.ty = some y' →
            Run.Via setting.registry R span (fun q => o.Own q ∧ q ≠ p) o.rightEnd.position
              (k.state a (y :: held keeps x ++ stack)) p (k'.state a (y' :: x' :: stack))
  behind : ∀ (span : Span) (a : Around) (m : Memory) (stack : List Value) (v : Value),
    Run.Via setting.registry R span (fun q => o.Own q ∧ q ≠ p) (p + 1) (m.state a (v :: stack))
      t.position (m.state a (v.wrapIf T.wraps :: stack))

/-- Operands that are moved into temporaries are treated as the code on the temporaries does it. -/
theorem ofNode_of_slots {code : Operand → Operand → Emit Unit} {e : Emitted}
    (hslots : ∀ (left right : Operand) (s t : Emission), left.ty = l.ty → right.ty = r.ty →
      (Job.ofRoutine setting hR).Emits start (code left right) s () t →
      ∃ p, T.OfSlots setting R left right s t p)
    (h : (Job.ofRoutine setting hR).Emits start (Emit.withTemps do
      let usedLeft ← l.value exit
      let left ← Emit.spillOperand l.ty
      let usedRight ← r.value exit
      let right ← Emit.spillOperand r.ty
      code left right
      pure (.ofTy ty (usedLeft || usedRight))) s e t) :
    ∃ (o : Sections (Job.ofRoutine setting hR) start l r exit s t) (p : Nat), T.OfNode false o p := by
  obtain ⟨u, h, hend⟩ := h.withTemps
  simp only [Emit.spillOperand, ↓Job.Emits.seq_iff, Job.Emits.bind_iff] at h
  obtain ⟨usedLeft, s₁, hleft, a, s₂, ⟨slot, _, hspill, ha⟩, usedRight, s₃, hright, b, s₄,
    ⟨slot', _, hspill', hb⟩, s₅, hcode, h⟩ := h
  obtain ⟨rfl, rfl⟩ := h.pure
  obtain ⟨rfl, rfl⟩ := ha.pure
  obtain ⟨rfl, rfl⟩ := hb.pure
  obtain ⟨p, hconsults⟩ := hslots _ _ _ _ rfl rfl hcode
  have hinside := hconsults.inside
  refine ⟨⟨_, s₁, s₂, s₃, usedLeft, usedRight, hleft, hright, rfl, by grind, le_refl _, by grind,
    by grind⟩, p, .inr ⟨by grind, by grind⟩, hconsults.code, ?_, ?_⟩
  · intro span a m stack x hsize
    have htemp := hspill.spilled hsize x
    refine ⟨_, (Memory.Spares.setLocal hspill.spill.2 x).before hleft.retains, ?_, ?_⟩
    · exact .spill hspill hsize ⟨.inl ⟨Nat.le_refl _, by grind⟩, by grind⟩ (.refl _ _)
    · intro a k y hsize hsaves
      have hsaved := hsaves slot
        ⟨htemp.holding.2 slot rfl, fun h => hspill.spill.2 (hleft.retains.live h)⟩
      have hkept : k.Temp s₃ slot x :=
        ⟨(htemp.later hright.retains).holding, hsaved.trans htemp.value⟩
      have hspares := Memory.Spares.setLocal (m := k) hspill'.spill.2 y
      have hx := (hspares.temp hkept).later hspill'.retains
      have hy := hspill'.spilled hsize y
      refine ⟨_, hspares.before (by grind), ?_, ?_⟩
      · intro d hmissing hd
        refine .spill hspill' hsize ⟨.inr ⟨Nat.le_refl _, by grind⟩, by grind⟩ ?_
        rw [hend]
        refine (hconsults.missing span a _ stack x y d hx hy hmissing hd).imp fun q hq => ?_
        exact ⟨.inr ⟨by grind, by grind⟩, hq.2⟩
      · intro x' y' hx' hy'
        refine .spill hspill' hsize ⟨.inr ⟨Nat.le_refl _, by grind⟩, by grind⟩ ?_
        refine (hconsults.present span a _ stack x y x' y' hx hy hx' hy').imp fun q hq => ?_
        exact ⟨.inr ⟨by grind, by grind⟩, hq.2⟩
  · intro span a m stack v
    rw [hend]
    refine (hconsults.behind span a m stack v).imp fun q hq => ?_
    exact ⟨.inr ⟨by grind, by grind⟩, hq.2⟩

end Treatment

end Arbor
