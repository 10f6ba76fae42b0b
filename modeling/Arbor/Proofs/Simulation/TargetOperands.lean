/-
  Operands of targets.

  A target is prepared by evaluating its operands one after the other, the receiver
  first and then the indices, each into a temporary.  Nothing else of the
  preparation evaluates them.  An element whose container is to grow is prepared in
  another way.
-/
import Arbor.Proofs.CheckedIndices
import Arbor.Proofs.Machine.Locations
import Arbor.Proofs.Machine.Passages
import Arbor.Proofs.Simulation.ChainPlaces
import Arbor.Proofs.Simulation.Places

set_option autoImplicit false

namespace Arbor

/-! ## Operands -/

/-- An operand of a target. -/
inductive TargetOperand where
  /-- The receiver of a member: the address of a value type, or a reference, which may be created where
  it is missing. -/
  | receiver (e : Expr) (extend : Bool)
  /-- The container of an element. -/
  | container (e : Expr)
  /-- An index of an element. -/
  | index (e : Expr)
  /-- An argument of an indexed property. -/
  | argument (e : Expr)

namespace TargetOperand

/-- Emits the operand. -/
def evaluate (exit : Option Label) : TargetOperand → Emit Emitted
  | receiver e extend => e.toNode.receiver exit .receiver extend
  | container e => e.toNode.receiver exit .value false
  | index e | argument e => e.toNode.emit exit .value false

/-- Emits what its value is brought into: an index of another integer type is converted. -/
def convert : TargetOperand → Emit Unit
  | index e => if e.ty = .int then pure () else Emit.instr (.conv (.int .i32) true)
  | _ => pure ()

/-- The value that waits for an operand that was evaluated to a value. -/
def Becomes (o : TargetOperand) (v w : Value) : Prop :=
  match o with
  | index e =>
      if e.ty = .int then w = v
      else ∃ (k : IntKind) (n : Word k) (i : IndexWord),
        v = .num (.int k n) ∧ Word.ofInt? .i32 n.val = some i ∧ w = i.value
  | _ => w = v

/-- The code of an operand from `s` to `t`: it is evaluated up to `stop`, and its value is moved into a
temporary. -/
structure Code (J : Job) (start : Nat) (exit : Option Label) (o : TargetOperand) (slot : Nat)
    (s stop t : Emission) : Prop where
  evaluates : ∃ e, J.Emits start (o.evaluate exit) s e stop
  waits : ∃ (u : Emission) (ty : Ty), J.Emits start o.convert stop () u ∧ J.Emits start (Emit.spill ty) u slot t

/-- The code of operands from `s` to `t`, one after the other, with the points between which each is
evaluated and the temporaries in which they wait. -/
inductive Codes (J : Job) (start : Nat) (exit : Option Label) :
    List TargetOperand → List (Emission × Emission) → List Nat → Emission → Emission → Prop
  | nil {s : Emission} : Codes J start exit [] [] [] s s
  | cons {o : TargetOperand} {os : List TargetOperand} {slot : Nat} {slots : List Nat}
      {stretches : List (Emission × Emission)} {s stop u t : Emission}
      (first : o.Code J start exit slot s stop u) (rest : Codes J start exit os stretches slots u t) :
      Codes J start exit (o :: os) ((s, stop) :: stretches) (slot :: slots) s t

end TargetOperand

/-- Temporaries in use are left alone. -/
structure Memory.Leaves (s : Emission) (m n : Memory) : Prop where
  keeps : m.Keeps s n
  size : n.locals.size = m.locals.size

theorem Memory.Leaves.trans {s : Emission} {m n k : Memory} (h : m.Leaves s n) (h' : n.Leaves s k) :
    m.Leaves s k :=
  ⟨h.keeps.trans h'.keeps, h'.size.trans h.size⟩

theorem Memory.Leaves.before {s t : Emission} {m n : Memory} (h : m.Leaves t n) (hretains : s ≤ t) :
    m.Leaves s n :=
  ⟨h.keeps.before hretains, h.size⟩

theorem Memory.Leaves.setLocal {s : Emission} {m : Memory} {slot : Nat} (h : slot ∉ s.pool.live)
    (v : Value) : m.Leaves s (m.setLocal slot v) :=
  ⟨Job.keeps_setLocal h v, by simp [Memory.setLocal]⟩

theorem Memory.Leaves.shared (s : Emission) (m : Memory) (h : Heap) (st : Statics) :
    m.Leaves s (m.shared h st) :=
  ⟨.shared s m h st, rfl⟩

theorem Memory.Leaves.refl (s : Emission) (m : Memory) : m.Leaves s m := ⟨.refl s m, rfl⟩

/-- Positions of the code from `s` to `t` outside of the stretches. -/
def Emission.Own (s t : Emission) (stretches : List (Emission × Emission)) (q : Nat) : Prop :=
  (s.position ≤ q ∧ q < t.position) ∧
    ∀ x ∈ stretches, ¬ (x.1.position ≤ q ∧ q < x.2.position)

namespace TargetOperand

/-- Operands are evaluated one after the other, on top of the same stack: each comes to its end with a
value and leaves the temporaries alone that are in use.  Listed are the points between which they are
evaluated, the temporaries, the values that wait, and the passages. -/
inductive Evaluates (r : Registry) (R : Routine) (span : Span) (stack : List Value) :
    List TargetOperand → List (Emission × Emission) → List Nat → Scene → List Value → List (List Moment) →
    Scene → Prop
  | nil {c : Scene} : Evaluates r R span stack [] [] [] c [] [] c
  | cons {o : TargetOperand} {os : List TargetOperand} {s stop : Emission}
      {stretches : List (Emission × Emission)} {slot : Nat} {slots : List Nat} {c c₁ c' : Scene}
      {v w : Value} {ws : List Value} {ms : List Moment} {mss : List (List Moment)}
      (hpass : Run.Passes r R span s.position (c.state stack) ms stop.position (c₁.state (v :: stack)))
      (hleaves : c.memory.Leaves s c₁.memory) (hbecomes : o.Becomes v w)
      (hrest : Evaluates r R span stack os stretches slots ⟨c₁.memory.setLocal slot w, c₁.around⟩ ws mss c') :
      Evaluates r R span stack (o :: os) ((s, stop) :: stretches) (slot :: slots) c (w :: ws) (ms :: mss) c'

variable {setting : Setting} {R : Routine} {hR : R.WithinLimits} {start : Nat} {exit : Option Label}
  {s t stop : Emission} {os : List TargetOperand} {stretches : List (Emission × Emission)}
  {slots : List Nat} {slot : Nat} {o : TargetOperand}

/-- The points of the code of an operand are in order. -/
theorem Code.position_le {J : Job} (h : o.Code J start exit slot s stop t) :
    s.position ≤ stop.position ∧ stop.position ≤ t.position := by
  obtain ⟨⟨_, hcode⟩, u, ty, hconvert, hspill⟩ := h
  have hmiddle := hconvert.position_le
  have hend := hspill.position_le
  exact ⟨hcode.position_le, by omega⟩

theorem Code.retains {J : Job} (h : o.Code J start exit slot s stop t) : s ≤ t := by
  obtain ⟨⟨_, hcode⟩, u, ty, hconvert, hspill⟩ := h
  exact hcode.retains.trans (hconvert.retains.trans hspill.retains)

/-- More is in use behind operands, and the stretches lie between the ends. -/
theorem Codes.bounds {J : Job} (h : Codes J start exit os stretches slots s t) :
    s ≤ t ∧ s.position ≤ t.position ∧
      ∀ x ∈ stretches, s.position ≤ x.1.position ∧ x.2.position ≤ t.position := by
  induction h with
  | nil => exact ⟨le_rfl, Nat.le_refl _, fun x hx => absurd hx List.not_mem_nil⟩
  | cons first _ ih =>
      obtain ⟨hretains, hle, hstretches⟩ := ih
      obtain ⟨hfirst, hstop⟩ := first.position_le
      refine ⟨first.retains.trans hretains, by omega, List.forall_mem_cons.mpr ⟨⟨Nat.le_refl _, by
        simp only; omega⟩, fun x hx => ?_⟩⟩
      obtain ⟨hbegin, hend⟩ := hstretches x hx
      exact ⟨by omega, hend⟩

/-- The value of an operand is moved into its temporary. -/
theorem Code.moves (h : o.Code (Job.ofRoutine setting hR) start exit slot s stop t) {span : Span}
    {m : Memory} {a : Around} {stack : List Value} {v w : Value} (hsize : m.locals.size = R.locals.size)
    (hbecomes : o.Becomes v w) :
    Run.Via setting.registry R span (fun q => stop.position ≤ q ∧ q < t.position) stop.position
        (m.state a (v :: stack)) t.position ((m.setLocal slot w).state a stack) ∧
      (m.setLocal slot w).Temp t slot w ∧ m.Leaves s (m.setLocal slot w) := by
  obtain ⟨⟨_, hcode⟩, u, ty, hconvert, hspill⟩ := h
  have hfresh : slot ∉ s.pool.live := fun hlive =>
    hspill.spill.2 (hconvert.retains.live (hcode.retains.live hlive))
  refine ⟨?_, hspill.spilled hsize w, .setLocal hfresh w⟩
  have hmiddle := hconvert.position_le
  have hend := hspill.spill.1
  have hspilled : Run.Via setting.registry R span (fun q => stop.position ≤ q ∧ q < t.position) u.position
      (m.state a (w :: stack)) t.position ((m.setLocal slot w).state a stack) :=
    .spill hspill hsize ⟨by omega, by omega⟩ (.refl _ _)
  cases o with
  | index e =>
      simp only [convert] at hconvert
      simp only [Becomes] at hbecomes
      split at hconvert
      · next hint =>
        obtain rfl : w = v := by rwa [if_pos hint] at hbecomes
        obtain ⟨-, rfl⟩ := hconvert.pure
        exact hspilled
      · next hint =>
        rw [if_neg hint] at hbecomes
        obtain ⟨k, n, i, rfl, hfits, rfl⟩ := hbecomes
        have hposition := hconvert.instr_position
        exact .instr hconvert (fun _ => rfl) ⟨Nat.le_refl _, by omega⟩ (.conv_fits hfits) hspilled
  | receiver | container | argument =>
      obtain rfl : w = v := hbecomes
      obtain ⟨-, rfl⟩ := hconvert.pure
      exact hspilled

/-- The code of operands evaluates each of them once, in their order, and their values wait in the
temporaries. -/
theorem Codes.visits (h : Codes (Job.ofRoutine setting hR) start exit os stretches slots s t) {span : Span}
    {stack : List Value} {c c' : Scene} {ws : List Value} {mss : List (List Moment)}
    (hevaluates : Evaluates setting.registry R span stack os stretches slots c ws mss c')
    (hsize : c.memory.locals.size = R.locals.size) :
    Run.Visits setting.registry R span (s.Own t stretches) mss s.position (c.state stack) t.position
        (c'.state stack) ∧
      c.memory.Leaves s c'.memory ∧
      List.Forall₂ (fun (slot : Nat) (w : Value) => c'.memory.Temp t slot w) slots ws := by
  induction h generalizing c ws mss with
  | nil =>
      cases hevaluates
      exact ⟨.straight (.refl _ _), .refl _ _, .nil⟩
  | cons first rest ih =>
      cases hevaluates with
      | cons hpass hleaves hbecomes hrest =>
        obtain ⟨hmoves, htemp, hsets⟩ := first.moves (hleaves.size.trans hsize) hbecomes
        obtain ⟨hvisits, hlater, htemps⟩ := ih hrest (hsets.size.trans (hleaves.size.trans hsize))
        obtain ⟨hretains, hle, hstretches⟩ := rest.bounds
        obtain ⟨hbegin, hend⟩ := first.position_le
        refine ⟨.passing hpass (.after (hmoves.imp fun q hq => ?_) (hvisits.imp fun q hq => ?_)),
          hleaves.trans (hsets.trans (hlater.before first.retains)),
          .cons (htemp.kept hlater.keeps hretains) htemps⟩
        · refine ⟨⟨by omega, by omega⟩, List.forall_mem_cons.mpr ⟨fun hin => ?_, fun x hx hin => ?_⟩⟩
          · simp only at hin
            omega
          · have hx := (hstretches x hx).1
            omega
        · obtain ⟨⟨hlow, hhigh⟩, hout⟩ := hq
          refine ⟨⟨by omega, hhigh⟩, List.forall_mem_cons.mpr ⟨fun hin => ?_, hout⟩⟩
          simp only at hin
          omega

end TargetOperand

/-! ## Targets -/

/-- The container of the element is to grow. -/
def ExprKind.grows (extend : Bool) : ExprKind Expr → Bool
  | .index receiver [_] none =>
      extend && receiver.kind.isPlace && (Emit.elementKind? receiver.ty).any fun x =>
        match x.1 with
        | .mdElem .. => false
        | _ => true
  | _ => false

/-- The kind of place that a target is, and its operands in their order. -/
inductive ExprKind.Operands (r : Registry) (extend : Bool) :
    ExprKind Expr → PlaceKind → List TargetOperand → Prop
  | parameter {id : VarId} {slot : VarSlot} : Operands r extend (.parameter id) (.var slot) []
  | closureVar {i : Nat} : Operands r extend (.closureVar i) (.closure i) []
  | staticField {receiver : Option Expr} {f : FieldRef} {d : FieldDef} (hd : r.field f = .ok d)
      (hstatic : d.isStatic = true) : Operands r extend (.member receiver (.field f)) (.staticField f) []
  | field {receiver : Expr} {f : FieldRef} {d : FieldDef} (hd : r.field f = .ok d)
      (hinstance : d.isStatic = false) :
      Operands r extend (.member (some receiver) (.field f)) (.field f) [.receiver receiver extend]
  | staticProperty {receiver : Option Expr} {p : PropertyRef} {d : PropertyDef} (hd : r.property p = .ok d)
      (hstatic : d.isStatic = true) : Operands r extend (.member receiver (.property p)) (.property p) []
  | property {receiver : Expr} {p : PropertyRef} {d : PropertyDef} (hd : r.property p = .ok d)
      (hinstance : d.isStatic = false) :
      Operands r extend (.member (some receiver) (.property p)) (.property p) [.receiver receiver extend]
  | staticIndexer {receiver : Expr} {args : List Expr} {p : PropertyRef} {d : PropertyDef}
      (hd : r.property p = .ok d) (hstatic : d.isStatic = true) :
      Operands r extend (.index receiver args (some p)) (.property p) (args.map .argument)
  | indexer {receiver : Expr} {args : List Expr} {p : PropertyRef} {d : PropertyDef}
      (hd : r.property p = .ok d) (hinstance : d.isStatic = false) :
      Operands r extend (.index receiver args (some p)) (.property p)
        (.receiver receiver extend :: args.map .argument)
  | element {receiver : Expr} {args : List Expr} {kind : PlaceKind}
      (hkind : Emit.elementKind? receiver.ty = some (kind, args.length)) :
      Operands r extend (.index receiver args none) kind (.container receiver :: args.map .index)

theorem Job.emits_nothing {J : Job} {start : Nat} {α : Type} {x : Emit α} {s t : Emission} {a : α}
    (h : J.Emits start x s a t) : J.Emits start (pure ()) s () s :=
  ⟨rfl, h.sound, h.completes.before h.grows, h.reached⟩

namespace TargetOperand

variable {J : Job} {start : Nat} {exit : Option Label} {s t u : Emission} {slot : Nat} {used : Bool}

/-- A receiver of a member is moved into a temporary. -/
theorem Code.of_receiver {e : Expr} {extend : Bool}
    (h : J.Emits start (Emit.spillReceiver e.toNode exit extend) s (slot, used) t) :
    ∃ stop, (receiver e extend).Code J start exit slot s stop t := by
  obtain ⟨emitted, stop, hreceiver, h⟩ := Job.Emits.bind h
  obtain ⟨slot', w, hspill, hdone⟩ := h.bind
  obtain ⟨heq, rfl⟩ := hdone.pure
  cases heq
  exact ⟨stop, ⟨_, hreceiver⟩, stop, _, Job.emits_nothing hspill, hspill⟩

/-- An index is moved into a temporary. -/
theorem Code.of_index {e : Expr} (h : J.Emits start (Emit.indexOperand e.toNode exit) s used u)
    (hspill : J.Emits start (Emit.spill .int) u slot t) :
    ∃ stop, (index e).Code J start exit slot s stop t := by
  obtain ⟨_, stop, hvalue, h⟩ := h.bind
  obtain ⟨emitted, stop', hemit, hdone⟩ := hvalue.bind
  obtain ⟨-, rfl⟩ := hdone.pure
  refine ⟨_, ⟨_, hemit⟩, u, _, ?_, hspill⟩
  rw [Expr.toNode_ty] at h
  simp only [convert]
  split at h
  · next k hk =>
    split at h
    · next hint =>
      obtain ⟨-, rfl⟩ := h.pure
      rw [if_pos (by rw [hk, hint]; rfl)]
      exact Job.emits_nothing hspill
    · next hint =>
      obtain ⟨⟨⟩, v, hconv, hdone⟩ := h.bind
      obtain ⟨-, rfl⟩ := hdone.pure
      rw [if_neg (by rw [hk]; intro heq; cases heq; exact hint rfl)]
      exact hconv
  · exact h.mismatch.elim

theorem Code.of_argument {e : Expr} {ty : Ty} (h : J.Emits start (e.toNode.value exit) s used u)
    (hspill : J.Emits start (Emit.spill ty) u slot t) :
    ∃ stop, (argument e).Code J start exit slot s stop t := by
  obtain ⟨emitted, stop, hemit, hdone⟩ := h.bind
  obtain ⟨-, rfl⟩ := hdone.pure
  exact ⟨_, ⟨_, hemit⟩, _, _, Job.emits_nothing hspill, hspill⟩

/-- Operands of one sort that are moved into temporaries one after the other. -/
theorem Codes.of_each {sort : Expr → TargetOperand} {one : Node → Emit Bool} (ty : Node → Ty)
    {each : List Node → Emit (List Nat × Bool)} (hnil : each [] = pure ([], false))
    (hcons : ∀ arg rest, each (arg :: rest) = do
      let used ← one arg
      let slot ← Emit.spill (ty arg)
      let (slots, usedRest) ← each rest
      pure (slot :: slots, used || usedRest))
    (hone : ∀ {e : Expr} {s u t : Emission} {used : Bool} {slot : Nat},
      J.Emits start (one e.toNode) s used u → J.Emits start (Emit.spill (ty e.toNode)) u slot t →
      ∃ stop, (sort e).Code J start exit slot s stop t)
    {args : List Expr} {slots : List Nat} (h : J.Emits start (each (args.map Expr.toNode)) s (slots, used) t) :
    ∃ stretches, Codes J start exit (args.map sort) stretches slots s t := by
  induction args generalizing s slots used with
  | nil =>
      rw [List.map_nil, hnil] at h
      obtain ⟨heq, rfl⟩ := h.pure
      cases heq
      exact ⟨[], .nil⟩
  | cons arg args ih =>
      rw [List.map_cons, hcons] at h
      obtain ⟨usedFirst, u, hfirst, h⟩ := h.bind
      obtain ⟨slot, v, hspill, h⟩ := h.bind
      obtain ⟨⟨slots', usedRest⟩, w, hrest, hdone⟩ := h.bind
      obtain ⟨heq, rfl⟩ := hdone.pure
      cases heq
      obtain ⟨stop, hcode⟩ := hone hfirst hspill
      obtain ⟨stretches, hcodes⟩ := ih hrest
      exact ⟨_, .cons hcode hcodes⟩

theorem Codes.of_indices {args : List Expr} {slots : List Nat}
    (h : J.Emits start (Emit.spillIndices exit (args.map Expr.toNode)) s (slots, used) t) :
    ∃ stretches, Codes J start exit (args.map .index) stretches slots s t :=
  Codes.of_each (fun _ => .int) rfl (fun _ _ => rfl) Code.of_index h

theorem Codes.of_arguments {args : List Expr} {slots : List Nat}
    (h : J.Emits start (Emit.spillArgs exit (args.map Expr.toNode)) s (slots, used) t) :
    ∃ stretches, Codes J start exit (args.map .argument) stretches slots s t :=
  Codes.of_each Node.ty rfl (fun _ _ => rfl) Code.of_argument h

end TargetOperand

/-- The code that prepares a target from `s` to `t`: its operands are evaluated up to `stop`, and behind
them the indices of an element may be checked. -/
structure TargetCode (J : Job) (start : Nat) (exit : Option Label) (k : ExprKind Expr) (extend : Bool)
    (p : Place) (s t : Emission) where
  operands : List TargetOperand
  stretches : List (Emission × Emission)
  stop : Emission
  designates : k.Operands J.setting.registry extend p.kind operands
  named : ∀ id, k = .parameter id → ∃ slot ty, s.scope.lookup id = some (slot, ty) ∧ p.kind = .var slot
  code : TargetOperand.Codes J start exit operands stretches (p.receiver.toList ++ p.indices) s stop
  checks : t = stop ∨ ∃ (pad : Label) (container : Nat), exit = some pad ∧ p.receiver = some container ∧
    J.Emits start (Emit.checkIndices pad p.kind container 0 p.indices) stop () t

namespace TargetCode

variable {J : Job} {start : Nat} {exit : Option Label} {s t u : Emission} {extend used : Bool}
  {p : Place} {ty : Ty}

theorem plain {k : ExprKind Expr} {kind : PlaceKind} (hk : k.Operands J.setting.registry extend kind [])
    (hnamed : ∀ id, k = .parameter id → ∃ slot ty, s.scope.lookup id = some (slot, ty) ∧ kind = .var slot) :
    Nonempty (TargetCode J start exit k extend (.plain kind ty) s s) :=
  ⟨[], [], s, hk, hnamed, .nil, .inl rfl⟩

/-- A field. -/
theorem of_field {f : FieldRef} {receiver : Option Expr}
    (h : J.Emits start (Emit.fieldPlace ty f (receiver.map Expr.toNode) exit extend) s (p, used) t) :
    Nonempty (TargetCode J start exit (.member receiver (.field f)) extend p s t) := by
  obtain ⟨d, u, hlookup, h⟩ := h.bind
  obtain ⟨hd, rfl⟩ := hlookup.lookup
  split at h
  · next hstatic =>
    obtain ⟨heq, rfl⟩ := h.pure
    cases heq
    exact plain (.staticField hd hstatic) fun id hid => by cases hid
  · next hinstance =>
    cases receiver with
    | none =>
        obtain ⟨_, _, hreceiver, -⟩ := h.bind
        exact hreceiver.unsupported.elim
    | some receiver =>
        obtain ⟨_, u, hreceiver, hplace⟩ := h.bind
        obtain ⟨rfl, rfl⟩ := hreceiver.pure
        obtain ⟨⟨slot, usedReceiver⟩, v, hspill, hdone⟩ := hplace.bind
        obtain ⟨heq, rfl⟩ := hdone.pure
        cases heq
        obtain ⟨stop, hcode⟩ := TargetOperand.Code.of_receiver hspill
        exact ⟨⟨_, _, _, .field hd (by simpa using hinstance), (fun id hid => by cases hid),
          .cons hcode .nil, .inl rfl⟩⟩

/-- The receiver of a property, and its arguments behind it. -/
theorem of_property {q : PropertyRef} (receiver : Option Expr) (args : List Expr) {k : ExprKind Expr}
    (hstatic : ∀ d, J.setting.registry.property q = .ok d → d.isStatic = true →
      k.Operands J.setting.registry extend (.property q) (args.map .argument))
    (hinstance : ∀ d e, J.setting.registry.property q = .ok d → d.isStatic = false → receiver = some e →
      k.Operands J.setting.registry extend (.property q) (.receiver e extend :: args.map .argument))
    (hk : ∀ id, k ≠ .parameter id)
    (h : J.Emits start (Emit.propertyPlace ty q (receiver.map Expr.toNode) (args.map Expr.toNode) exit extend)
      s (p, used) t) : Nonempty (TargetCode J start exit k extend p s t) := by
  obtain ⟨d, u, hlookup, h⟩ := h.bind
  obtain ⟨hd, rfl⟩ := hlookup.lookup
  split at h
  · exact h.fail.elim
  have hargs : ∀ {slot : Option Nat} {usedReceiver : Bool} {u : Emission}, J.Emits start (do
      let (indices, usedArgs) ← Emit.spillArgs exit (args.map Expr.toNode)
      pure (⟨.property q, slot, indices, ty⟩, usedReceiver || usedArgs)) u (p, used) t →
      p.kind = .property q ∧ p.receiver = slot ∧
        ∃ stretches, TargetOperand.Codes J start exit (args.map .argument) stretches p.indices u t := by
    intro slot usedReceiver u h
    obtain ⟨⟨slots, usedArgs⟩, v, hargs, hdone⟩ := h.bind
    obtain ⟨heq, rfl⟩ := hdone.pure
    cases heq
    exact ⟨rfl, rfl, TargetOperand.Codes.of_arguments hargs⟩
  dsimp only at h
  split at h
  · next hd' =>
    obtain ⟨_, u, hnone, hrest⟩ := h.bind
    obtain ⟨rfl, rfl⟩ := hnone.pure
    obtain ⟨hkind, hreceiver, stretches, hcodes⟩ := hargs hrest
    refine ⟨⟨args.map .argument, stretches, t, ?_, fun id hid => absurd hid (hk id), ?_, .inl rfl⟩⟩
    · rw [hkind]
      exact hstatic d hd hd'
    · rw [hreceiver]
      exact hcodes
  · next hd' =>
    cases receiver with
    | none =>
        obtain ⟨_, _, hmissing, -⟩ := h.bind
        exact hmissing.unsupported.elim
    | some receiver =>
        obtain ⟨_, w, hfound, hrest⟩ := h.bind
        obtain ⟨rfl, rfl⟩ := hfound.pure
        obtain ⟨⟨slot, usedReceiver⟩, w, hspill, hrest⟩ := hrest.bind
        obtain ⟨_, w', hsome, hrest⟩ := hrest.bind
        obtain ⟨rfl, rfl⟩ := hsome.pure
        obtain ⟨hkind, hreceiver, stretches, hcodes⟩ := hargs hrest
        obtain ⟨stop, hcode⟩ := TargetOperand.Code.of_receiver hspill
        have hcodes := TargetOperand.Codes.cons hcode hcodes
        rw [show slot :: p.indices = p.receiver.toList ++ p.indices by rw [hreceiver]; rfl] at hcodes
        refine ⟨⟨_, _, t, ?_, fun id hid => absurd hid (hk id), hcodes, .inl rfl⟩⟩
        rw [hkind]
        exact hinstance d _ hd (by simpa using hd') rfl

/-- An element whose container does not grow. -/
theorem of_element {receiver : Expr} {args : List Expr}
    (hgrows : ExprKind.grows extend (.index receiver args none) = false)
    (h : J.Emits start (Emit.elementPlace ty receiver.toNode (args.map Expr.toNode) exit extend) s (p, used)
      t) : Nonempty (TargetCode J start exit (.index receiver args none) extend p s t) := by
  unfold Emit.elementPlace at h
  split at h
  · exact h.mismatch.elim
  next kind rank hkind =>
  split at h
  · obtain ⟨_, _, _, h⟩ := h.bind
    exact h.fail.elim
  next hrank =>
  have hrank : args.length = rank := by simpa using hrank
  rw [Expr.toNode_ty, ← hrank] at hkind
  obtain ⟨⟨container, slots, usedPlain⟩, u, hplain, hrest⟩ := h.bind
  obtain ⟨checked, v, hcheck, hdone⟩ := hrest.bind
  obtain ⟨heq, rfl⟩ := hdone.pure
  cases heq
  have hplain : J.Emits start (do
      let emitted ← receiver.toNode.receiver exit .value false
      let container ← Emit.spill receiver.toNode.ty
      let indices ← Emit.spillIndices exit (args.map Expr.toNode)
      pure (container, indices.1, emitted.usedExit || indices.2)) s (container, slots, usedPlain) u := by
    split at hplain
    · exact hplain
    · next arg hmatrix hargs =>
      obtain ⟨arg, rfl, rfl⟩ := List.map_eq_singleton_iff.mp hargs
      rw [if_neg ?_] at hplain
      · exact hplain
      · rw [Expr.toNode_expr]
        intro hplace
        simp only [ExprKind.grows, hkind, hplace, Bool.true_and, Option.any_some] at hgrows
        cases hgrows
    · exact hplain
  obtain ⟨result, loaded, hbase, hplain⟩ := hplain.bind
  obtain ⟨container', stored, hspill, hplain⟩ := hplain.bind
  obtain ⟨⟨slots', usedIndices⟩, u', hindices, hplain⟩ := hplain.bind
  obtain ⟨heq, rfl⟩ := hplain.pure
  cases heq
  obtain ⟨stretches, hcodes⟩ := TargetOperand.Codes.of_indices hindices
  have hcontainer : (TargetOperand.container receiver).Code J start exit container s loaded stored :=
    ⟨⟨_, hbase⟩, _, _, Job.emits_nothing hspill, hspill⟩
  refine ⟨⟨_, _, _, .element hkind, (fun id hid => by cases hid), .cons hcontainer hcodes, ?_⟩⟩
  cases exit with
  | none =>
      obtain ⟨-, rfl⟩ := hcheck.pure
      exact .inl rfl
  | some pad =>
      obtain ⟨o, w, hoptions, hcheck⟩ := Job.Emits.bind (x := Emit.options) hcheck
      obtain ⟨rfl, rfl⟩ := hoptions.options
      split at hcheck
      · rw [Job.Emits.seq_iff] at hcheck
        obtain ⟨w, hcheck, hdone⟩ := hcheck
        obtain ⟨-, rfl⟩ := hdone.pure
        exact .inr ⟨pad, container, rfl, rfl, hcheck⟩
      · obtain ⟨-, rfl⟩ := hcheck.pure
        exact .inl rfl

/-- A target that is prepared, unless it is an element whose container grows. -/
theorem of_emits {k : ExprKind Expr} (hgrows : k.grows extend = false)
    (h : J.Emits start (Emit.placeOf (k.map Expr.toNode) ty exit extend) s (p, used) t) :
    Nonempty (TargetCode J start exit k extend p s t) := by
  cases k with
  | parameter id =>
      obtain ⟨⟨slot, slotTy⟩, u, hslot, hdone⟩ := h.bind
      obtain ⟨hlookup, rfl⟩ := hslot.varSlot
      obtain ⟨heq, rfl⟩ := hdone.pure
      cases heq
      exact plain .parameter fun id hid => by
        cases hid
        exact ⟨slot, slotTy, hlookup, rfl⟩
  | closureVar i =>
      obtain ⟨table, u, htable, hdone⟩ := h.bind
      obtain ⟨-, rfl⟩ := htable.closureTable
      obtain ⟨heq, rfl⟩ := hdone.pure
      cases heq
      exact plain .closureVar fun id hid => by cases hid
  | member receiver m =>
      cases m with
      | field f => exact of_field h
      | property q =>
          exact of_property receiver [] (fun d hd hstatic => .staticProperty hd hstatic)
            (fun d e hd hinstance he => by
              subst he
              exact .property hd hinstance) (fun id hid => by cases hid) h
      | _ => exact h.fail.elim
  | index receiver args property =>
      cases property with
      | none => exact of_element hgrows h
      | some q =>
          exact of_property (some receiver) args (fun d hd hstatic => .staticIndexer hd hstatic)
            (fun d e hd hinstance he => by
              cases he
              exact .indexer hd hinstance) (fun id hid => by cases hid) h
  | _ => exact h.fail.elim

end TargetCode

end Arbor
