/-
  Runs of binary operators.

  The emitter accepts operands by their types, the machine looks at their values.
  The two agree but for comparisons: numbers of different kinds, which only the root
  type can bring together, are not compared at all, and a text that is null has no
  place in an order.  Everywhere else an operator yields a value of the type of its
  node or throws the exception of a fault.
-/
import Arbor.Proofs.EqualityRuns
import Arbor.Proofs.TypeSoundness

set_option autoImplicit false

namespace Arbor

/-! ## Values -/

/-- The value can be one of a type.  Behind a reference there may be anything. -/
def Value.Fills (v : Value) (ty : Ty) : Prop := ty.isPrimitive = true → v.isOf ty = true

namespace BinaryOp

/-- The defect in which an operator ends on values of types that it accepts. -/
def rejects? (op : BinaryOp) (x y : Value) : Option Defect :=
  if op.isComparison then
    match x, y with
    | .num a, .num b =>
        if a.kind = b.kind then none else some (.numeric (.kindMismatch a.kind b.kind))
    | .str _, .str _ | .bool _, .bool _ => none
    | x, y => if op.isEquality then none else some (.unordered x y)
  else none

end BinaryOp

/-- Numbers of different kinds have no order. -/
theorem Num.order_kinds (a b : Num) :
    if a.kind = b.kind then ∃ o, a.order b = .ok o
    else a.order b = .error (.kindMismatch a.kind b.kind) := by
  split
  · next h => exact order_ok h
  · next h =>
    cases a with
    | int j x =>
        cases b with
        | int k y =>
            have hne : j ≠ k := fun hjk => h (congrArg NumKind.int hjk)
            simp only [order, hne, if_false, kind]
        | single y => rfl
        | double y => rfl
    | single x =>
        cases b with
        | single y => exact absurd rfl h
        | int k y => rfl
        | double y => rfl
    | double x =>
        cases b with
        | double y => exact absurd rfl h
        | int k y => rfl
        | single y => rfl

/-- A comparison of two values fails exactly where the operator rejects them. -/
theorem Value.compare_rejects {op : BinaryOp} {c : CmpOp} (hop : op.isComparison = true)
    (hc : op.isEquality = true ↔ c = .eq ∨ c = .ne) (x y : Value) :
    match op.rejects? x y with
    | none => ∃ b, compare c x y = .ok b
    | some d => compare c x y = .error d := by
  generalize hresult : op.rejects? x y = result
  unfold BinaryOp.rejects? at hresult
  rw [if_pos hop] at hresult
  split at hresult <;> subst hresult
  · next a b =>
    have horder := Num.order_kinds a b
    split at horder
    · next hkind =>
      obtain ⟨o, ho⟩ := horder
      simp only [hkind, if_true]
      exact ⟨c.holds o, by simp only [compare, ho]⟩
    · next hkind =>
      simp only [hkind, if_false, compare, horder]
  · exact ⟨_, rfl⟩
  · exact ⟨_, rfl⟩
  · next hnum hstr hbool =>
    have hother : compare c x y = if c = .eq then .ok (x.same y)
        else if c = .ne then .ok (!x.same y) else .error (.unordered x y) := by
      unfold compare
      split
      · exact (hnum _ _ rfl rfl).elim
      · exact (hstr _ _ rfl rfl).elim
      · exact (hbool _ _ rfl rfl).elim
      · cases c <;> rfl
    rw [hother]
    cases hequality : op.isEquality with
    | true =>
        rcases hc.mp hequality with rfl | rfl
        · exact ⟨_, rfl⟩
        · exact ⟨_, rfl⟩
    | false =>
        have hne : ¬ (c = .eq ∨ c = .ne) := fun h => by simp [hc.mpr h] at hequality
        obtain ⟨heq, hne⟩ := not_or.mp hne
        simp only [heq, hne, if_false, Bool.false_eq_true]

/-- An integer type that is no optional is numeric. -/
theorem Ty.eq_num_of_isIntegral {ty : Ty} (hplain : ty.isNullable = false)
    (h : ty.isIntegral = true) : ∃ k, ty = .num k ∧ k.isIntegral = true := by
  cases ty with
  | num k => exact ⟨k, rfl, h⟩
  | nullable t => cases hplain
  | _ => cases h

theorem Ty.eq_num_of_isNum {ty : Ty} (h : ty.isNum = true) : ∃ k, ty = .num k := by
  cases ty <;> first | exact ⟨_, rfl⟩ | cases h

/-- Operators other than comparisons are on primitive operands. -/
theorem BinaryOp.isPrimitive_of_accepts (op : BinaryOp) {left right : Ty}
    (hleft : left.underlying.isNullable = false) (h : op.accepts left right = true)
    (hcomparison : op.isComparison = false) : left.underlying.isPrimitive = true := by
  have hnum : left.underlying.isNum = true → left.underlying.isPrimitive = true := by
    intro hnum
    obtain ⟨k, hk⟩ := Ty.eq_num_of_isNum hnum
    rw [hk]
    rfl
  have hintegral : left.underlying.isIntegral = true → left.underlying.isPrimitive = true := by
    intro hintegral
    obtain ⟨k, hk, -⟩ := Ty.eq_num_of_isIntegral hleft hintegral
    rw [hk]
    rfl
  cases op with
  | add =>
      simp only [accepts, Bool.and_eq_true, Bool.or_eq_true, decide_eq_true_eq] at h
      exact h.2.elim hnum fun hstr => by rw [hstr]; rfl
  | sub | mul | div | rem =>
      simp only [accepts, Bool.and_eq_true, decide_eq_true_eq] at h
      exact hnum h.2
  | and | or | xor =>
      simp only [accepts, Bool.and_eq_true, Bool.or_eq_true, decide_eq_true_eq] at h
      exact h.2.elim hintegral fun hbool => by rw [hbool]; rfl
  | shl | shr =>
      simp only [accepts, Bool.and_eq_true] at h
      exact hintegral h.1
  | _ => cases hcomparison

namespace Run

variable {r : Registry} {op : BinaryOp} {x y : Value}

/-- An operator that compares is the comparison of the values. -/
theorem binaryValue_comparison (hop : op.isComparison = true) :
    ∃ c, (op.isEquality = true ↔ c = .eq ∨ c = .ne) ∧ ∀ (checked : Bool) (ty : Ty) (x y : Value),
      binaryValue r op checked ty x y = compareValues c x y := by
  cases op with
  | eq => exact ⟨.eq, by decide, fun _ _ _ _ => rfl⟩
  | ne => exact ⟨.ne, by decide, fun _ _ _ _ => rfl⟩
  | lt => exact ⟨.lt, by decide, fun _ _ _ _ => rfl⟩
  | le => exact ⟨.le, by decide, fun _ _ _ _ => rfl⟩
  | gt => exact ⟨.gt, by decide, fun _ _ _ _ => rfl⟩
  | ge => exact ⟨.ge, by decide, fun _ _ _ _ => rfl⟩
  | _ => cases hop

/-- Values that an operator rejects are a defect. -/
theorem binaryValue_rejected {d : Defect} (h : op.rejects? x y = some d) (checked : Bool) (ty : Ty) :
    binaryValue r op checked ty x y = invalid d := by
  have hop : op.isComparison = true := by
    by_contra hop
    unfold BinaryOp.rejects? at h
    rw [if_neg hop] at h
    cases h
  obtain ⟨c, hc, hvalue⟩ := binaryValue_comparison (r := r) hop
  have hcompare := Value.compare_rejects hop hc x y
  rw [h] at hcompare
  rw [hvalue, compareValues, hcompare]
  rfl

/-- Arithmetic on values of one numeric type. -/
theorem gives_arith (hr : r.HasFaults) {u w : Ty} (hsame : u = w) (hnum : u.isNum = true)
    (hx : x.Fills u) (hy : y.Fills w) (op : ArithOp) (checked : Bool) :
    Gives Trap.IsFault (arithValues r op checked x y) fun v => v.isOf u = true := by
  subst hsame
  obtain ⟨k, rfl⟩ := Ty.eq_num_of_isNum hnum
  exact gives_arithValues hr (hx rfl) (hy rfl) op checked

/-- Values of types that an operator accepts, and which it does not reject, give a value or a fault. -/
theorem gives_accepted (hr : r.HasFaults) {left right : Ty}
    (hplain : op.isComparison = false →
      left.underlying.isNullable = false ∧ right.underlying.isNullable = false)
    (hop : op.accepts left right = true) (hx : x.Fills left.underlying)
    (hy : y.Fills right.underlying) (hrejects : op.rejects? x y = none) (checked : Bool) :
    Gives Trap.IsFault (binaryValue r op checked left.underlying x y) fun v =>
      v.isOf (if op.isComparison then .bool else left.underlying) = true := by
  cases hcomparison : op.isComparison with
  | true =>
      obtain ⟨c, hc, hvalue⟩ := binaryValue_comparison (r := r) hcomparison
      have hcompare := Value.compare_rejects hcomparison hc x y
      rw [hrejects] at hcompare
      obtain ⟨b, hb⟩ := hcompare
      simp only [hvalue, compareValues, hb]
      exact fun _ => rfl
  | false =>
      obtain ⟨hleft, hright⟩ := hplain hcomparison
      simp only [Bool.false_eq_true, if_false]
      have hbitwise : left.underlying = right.underlying →
          (left.underlying.isIntegral = true ∨ left.underlying = .bool) → ∀ bit : BitOp,
          bit.isShift = false →
          Gives Trap.IsFault (bitwise r bit x y) fun v => v.isOf left.underlying = true := by
        intro hsame hkind bit hbit
        rw [← hsame] at hy
        have hscalar : left.underlying.isScalar = true ∧ left.underlying.isPrimitive = true := by
          rcases hkind with hkind | hkind
          · obtain ⟨k, hk, hintegral⟩ := Ty.eq_num_of_isIntegral hleft hkind
            exact hk ▸ ⟨hintegral, rfl⟩
          · exact hkind ▸ ⟨rfl, rfl⟩
        exact gives_bitwise hr hscalar.1 (hx hscalar.2) (hy hscalar.2) bit hbit
      have hshift : left.underlying.isIntegral = true → right.underlying.isIntegral = true →
          ∀ bit : BitOp, bit.isShift = true →
          Gives Trap.IsFault (bitwise r bit x y) fun v => v.isOf left.underlying = true := by
        intro hl hr' bit hbit
        obtain ⟨j, hj, hintegral⟩ := Ty.eq_num_of_isIntegral hleft hl
        obtain ⟨k, hk, hintegral'⟩ := Ty.eq_num_of_isIntegral hright hr'
        rw [hj] at hx ⊢
        rw [hk] at hy
        exact gives_shift hr hintegral hintegral' (hx rfl) (hy rfl) bit hbit
      cases op with
      | add =>
          simp only [BinaryOp.accepts, Bool.and_eq_true, Bool.or_eq_true, decide_eq_true_eq] at hop
          obtain ⟨hsame, hnum | hstr⟩ := hop
          · have hno : left.underlying.underlying ≠ .str := by
              rw [Ty.underlying_eq_self hleft]
              exact fun h => by simp [h, Ty.isNum] at hnum
            simp only [binaryValue, hno, if_false]
            exact gives_arith hr hsame hnum hx hy .add checked
          · simp only [binaryValue, hstr]
            exact fun _ => rfl
      | sub =>
          simp only [BinaryOp.accepts, Bool.and_eq_true, decide_eq_true_eq] at hop
          exact gives_arith hr hop.1 hop.2 hx hy .sub checked
      | mul =>
          simp only [BinaryOp.accepts, Bool.and_eq_true, decide_eq_true_eq] at hop
          exact gives_arith hr hop.1 hop.2 hx hy .mul checked
      | div =>
          simp only [BinaryOp.accepts, Bool.and_eq_true, decide_eq_true_eq] at hop
          exact gives_arith hr hop.1 hop.2 hx hy .div false
      | rem =>
          simp only [BinaryOp.accepts, Bool.and_eq_true, decide_eq_true_eq] at hop
          exact gives_arith hr hop.1 hop.2 hx hy .rem false
      | and =>
          simp only [BinaryOp.accepts, Bool.and_eq_true, Bool.or_eq_true, decide_eq_true_eq] at hop
          exact hbitwise hop.1 hop.2 .and rfl
      | or =>
          simp only [BinaryOp.accepts, Bool.and_eq_true, Bool.or_eq_true, decide_eq_true_eq] at hop
          exact hbitwise hop.1 hop.2 .or rfl
      | xor =>
          simp only [BinaryOp.accepts, Bool.and_eq_true, Bool.or_eq_true, decide_eq_true_eq] at hop
          exact hbitwise hop.1 hop.2 .xor rfl
      | shl =>
          simp only [BinaryOp.accepts, Bool.and_eq_true] at hop
          exact hshift hop.1 hop.2 .shl rfl
      | shr =>
          simp only [BinaryOp.accepts, Bool.and_eq_true] at hop
          exact hshift hop.1 hop.2 .shr rfl
      | _ => cases hcomparison

/-! ## States -/

/-- An action that changes nothing if it yields something. -/
def Leaves {α : Type} (z : Run α) : Prop := ∀ s a t, z s = .ok a t → t = s

namespace Leaves

variable {α β : Type}

theorem pure (a : α) : Leaves (pure a : Run α) := by
  intro s b t h
  cases h
  rfl

theorem invalid (d : Defect) : Leaves (Run.invalid d : Run α) := fun _ _ _ h => nomatch h

/-- Actions one after the other. -/
theorem bind {z : Run α} {f : α → Run β} (hz : Leaves z) (hf : ∀ a, Leaves (f a)) :
    Leaves (z >>= f) := by
  intro s b t h
  change EStateM.bind z f s = .ok b t at h
  unfold EStateM.bind at h
  split at h
  · next a u hfirst =>
    obtain rfl := hz _ _ _ hfirst
    exact hf a _ _ _ h
  · cases h

/-- A raised fault yields nothing. -/
theorem raise (f : Fault) : Leaves (Run.raise r f : Run α) := by
  intro s a t h
  change EStateM.bind (allocObject r (Registry.exceptionType f)) _ s = .ok a t at h
  unfold EStateM.bind at h
  split at h <;> cases h

theorem ofNumeric (e : Except NumFault α) : Leaves (Run.ofNumeric r e) := by
  cases e with
  | ok a => exact .pure a
  | error f => cases f <;> first | exact .raise _ | exact .invalid _

theorem asNum (v : Value) : Leaves (Run.asNum v) := by
  cases v <;> first | exact .pure _ | exact .invalid _

theorem arithValues (op : ArithOp) (checked : Bool) (x y : Value) :
    Leaves (Run.arithValues r op checked x y) :=
  .bind (.asNum y) fun _ => .bind (.asNum x) fun _ => .bind (.ofNumeric _) fun _ => .pure _

/-- Bitwise operations. -/
theorem bitwise (op : BitOp) (x y : Value) : Leaves (Run.bitwise r op x y) := by
  unfold Run.bitwise
  split
  · cases op <;> first | exact .pure _ | exact .invalid _
  · exact .bind (.ofNumeric _) fun _ => .pure _
  · exact .invalid _

/-- Comparisons. -/
theorem compareValues (op : CmpOp) (x y : Value) : Leaves (Run.compareValues op x y) := by
  refine .bind ?_ fun _ => .pure _
  cases Value.compare op x y with
  | ok b => exact .pure b
  | error d => exact .invalid d

/-- Binary operators. -/
theorem binaryValue (op : BinaryOp) (checked : Bool) (ty : Ty) (x y : Value) :
    Leaves (Run.binaryValue r op checked ty x y) := by
  cases op with
  | add =>
      simp only [Run.binaryValue]
      split
      · exact .pure _
      · exact .arithValues _ _ _ _
  | sub | mul | div | rem => exact .arithValues _ _ _ _
  | and => exact .bitwise .and _ _
  | or => exact .bitwise .or _ _
  | xor => exact .bitwise .xor _ _
  | shl => exact .bitwise .shl _ _
  | shr => exact .bitwise .shr _ _
  | eq | ne | lt | le | gt | ge => exact .compareValues _ _ _

end Leaves

end Run

theorem Heap.eq_of_outline {h k : Heap} (houtline : h.outline = k.outline)
    (hfunctions : h.functions = k.functions) : h = k := by
  obtain ⟨⟩ := h
  obtain ⟨⟩ := k
  simp_all [Heap.outline]

namespace Run

variable {R : Routine} {r : Registry}

/-- An instruction that computes a value and changes nothing else has one of three outcomes: it goes on
with the value, throws, or is a defect. -/
theorem Computes.outcome {i : Instr} {operands : List Value} {z : Run Value}
    (h : Computes r R i operands z) (hleaves : Leaves z) (m : Memory) (a : Around)
    (stack : List Value) :
    match z (bare m.heap m.statics) with
    | .ok v _ => Steps r R i (m.state a (operands ++ stack)) (.ok .next (m.state a (v :: stack)))
    | .error e s => ∃ t, Steps r R i (m.state a (operands ++ stack)) (.error e t) ∧
        s.heap = t.heap.outline := by
  have hstep := h m a stack
  have hsame := hleaves (bare m.heap m.statics)
  revert hstep hsame
  cases z (bare m.heap m.statics) with
  | ok v s =>
      rintro ⟨k, hheap, hfunctions, hstep⟩ hsame
      obtain rfl := hsame v s rfl
      obtain rfl := Heap.eq_of_outline hheap.symm hfunctions
      exact hstep
  | error e s =>
      rintro ⟨t, hstep, hheap, -, -⟩ -
      exact ⟨t, hstep, hheap⟩

end Run

/-! ## Nodes -/

section

variable {setting : Setting} {R : Routine} {hR : R.WithinLimits} {start : Nat} {s t : Emission}
  {op : BinaryOp} {checked : Bool} {exit : Option Label} {ty : Ty}

/-- How a node of a binary operator treats its operands. -/
def BinaryOp.treatment (op : BinaryOp) (setting : Setting) (checked : Bool) (left ty : Ty) :
    Treatment :=
  ⟨op.instr checked left.underlying, fun both d => d = op.onAbsent setting.options ty both,
    ty.isNullable⟩

/-- The instruction of an operator calls no routine. -/
theorem BinaryOp.silent_instr (op : BinaryOp) (r : Registry) (R : Routine) (checked : Bool) (ty : Ty) :
    Run.Silent r R (op.instr checked ty) := by
  cases op with
  | add =>
      simp only [instr]
      split
      · exact .intrinsic _
      · exact Run.Quiet.silent fun _ => rfl
  | _ => exact Run.Quiet.silent fun _ => rfl

namespace Treatment

/-- An operator on operands in temporaries, of which one may be absent. -/
theorem ofSlots_binary {left right : Operand}
    (hnullable : (left.ty.isNullable || right.ty.isNullable) = true)
    (h : (Job.ofRoutine setting hR).Emits start (Emit.binarySlots op checked none left right ty) s () t) :
    ∃ p, (op.treatment setting checked left.ty ty).OfSlots setting R left right s t p := by
  simp only [Emit.binarySlots, hnullable, Bool.not_true, Bool.false_eq_true, if_false] at h
  split at h
  · next hequality =>
    have hop : op = .eq ∨ op = .ne := by cases op <;> first | exact .inl rfl | exact .inr rfl | cases hequality
    obtain ⟨p, hp⟩ := consults_liftedEquality hop h
    refine ⟨p, hp.inside, ?_, ?_, hp.present, hp.behind⟩
    · rw [hp.code]
      rcases hop with rfl | rfl <;> rfl
    · rintro span a m stack x y d hx hy hmissing rfl
      refine hp.missing span a m stack x y _ hx hy hmissing ?_
      rcases hop with rfl | rfl <;> rfl
  · next hequality =>
    have hequality : op.isEquality = false := by simpa using hequality
    simp only [Emit.liftedOperator] at h
    split at h
    · next hcomparison =>
      obtain ⟨o, s₁, ho, h⟩ := h.bind
      obtain ⟨rfl, rfl⟩ := ho.options
      refine ofSlots_lifted (T := op.treatment setting checked left.ty ty) h ?_
      rintro u v hzero span a m stack both d rfl
      simp only [BinaryOp.onAbsent, hequality, hcomparison, Bool.false_eq_true, if_false,
        Bool.true_and]
      split at hzero
      · next hthree =>
        have hthree : (ty.isNullable && setting.options.threeValuedComparisons) = true := hthree
        have hnullable : ty.isNullable = true := (Bool.and_eq_true_iff.mp hthree).1
        have hend := hzero.instr_position
        simp only [hthree, Bool.not_true, Bool.false_eq_true, if_false]
        exact .instr hzero (fun _ => rfl) ⟨Nat.le_refl _, by omega⟩
          (.loadDefault _ _ _ (Registry.zero_nullable _ hnullable)) (.refl _ _)
      · next hthree =>
        have hthree : ¬ (ty.isNullable && setting.options.threeValuedComparisons) = true := hthree
        simp only [hthree, Bool.not_false, if_true]
        obtain ⟨_, u₁, hconst, hwrap⟩ := hzero.bind
        have hmiddle := hconst.instr_position
        have hend := hwrap.position_le
        refine .instr hconst (fun _ => rfl) ⟨Nat.le_refl _, by omega⟩ (.const _ _ _ _) ?_
        exact .wrapIf hwrap (fun p hp hp' => ⟨by omega, hp'⟩) (.refl _ _)
    · next hcomparison =>
      split at h
      · next hresult =>
        rw [← hresult] at h
        refine ofSlots_lifted (T := op.treatment setting checked left.ty ty) h ?_
        rintro u v hzero span a m stack both d rfl
        have hend := hzero.instr_position
        simp only [BinaryOp.onAbsent, hequality, hcomparison, Bool.false_eq_true, if_false,
          Bool.false_and]
        exact .instr hzero (fun _ => rfl) ⟨Nat.le_refl _, by omega⟩
          (.loadDefault _ _ _ (Registry.zero_nullable _ hresult)) (.refl _ _)
      · obtain ⟨_, _, _, h⟩ := h.bind
        exact h.mismatch.elim

/-- An operator on operands without optionals. -/
theorem ofNode_plain {l r : Node} {e : Emitted} {T : Treatment}
    (hl : l.ty.isNullable = false) (hr : r.ty.isNullable = false)
    (h : (Job.ofRoutine setting hR).Emits start (do
      let usedLeft ← l.value exit
      let usedRight ← r.value exit
      Emit.instr T.instr
      Emit.wrapIf T.wraps
      pure (.ofTy ty (usedLeft || usedRight))) s e t) :
    ∃ (o : Sections (Job.ofRoutine setting hR) start l r exit s t) (p : Nat), T.OfNode true o p := by
  simp only [↓Job.Emits.seq_iff, Job.Emits.bind_iff] at h
  obtain ⟨usedLeft, s₁, hleft, usedRight, s₂, hright, s₃, hoperator, s₄, hwrap, h⟩ := h
  obtain ⟨rfl, rfl⟩ := h.pure
  have hmiddle := hoperator.instr_position
  have hend := hwrap.position_le
  refine ⟨⟨_, s₁, s₁, s₂, usedLeft, usedRight, hleft, hright, rfl, Nat.le_refl _, le_refl _,
    le_refl _, by omega⟩, s₂.position, .inr ⟨Nat.le_refl _, by omega⟩, hoperator.instr.1, ?_, ?_⟩
  · intro span a m stack x hsize
    refine ⟨m, .refl _ _, .refl _ _, fun a k y hsize _ => ⟨k, .refl _ _, ?_, ?_⟩⟩
    · intro d hmissing
      simp [Value.payloadAt?, hl, hr] at hmissing
    · intro x' y' hx hy
      simp only [Value.payloadAt?, hl, hr, Bool.false_eq_true, if_false, Option.some.injEq] at hx hy
      subst hx hy
      exact .refl _ _
  · intro span a m stack v
    rw [← hmiddle]
    exact .wrapIf hwrap (fun p hp hp' => ⟨.inr ⟨by simp only; omega, hp'⟩, by omega⟩) (.refl _ _)

/-- A node of a binary operator without a method. -/
theorem ofNode_binary {l r : Node} {e : Emitted}
    (h : (Job.ofRoutine setting hR).Emits start (Emit.binary op l r checked none ty exit) s e t) :
    op.accepts l.ty r.ty = true ∧
      ∃ (o : Sections (Job.ofRoutine setting hR) start l r exit s t) (p : Nat),
        (op.treatment setting checked l.ty ty).OfNode (!(l.ty.isNullable || r.ty.isNullable)) o p := by
  simp only [Emit.binary, Option.isNone_none, if_true, Bool.true_and] at h
  rw [Job.Emits.seq_iff] at h
  obtain ⟨s₀, hcheck, h⟩ := h
  have haccepts : op.accepts l.ty r.ty = true := by
    unfold Emit.checkBinary at hcheck
    split at hcheck
    · assumption
    · obtain ⟨_, _, _, hcheck⟩ := hcheck.bind
      exact hcheck.mismatch.elim
  obtain rfl := hcheck.checkBinary
  refine ⟨haccepts, ?_⟩
  split at h
  · next hplain =>
    have hplain : (l.ty.isNullable || r.ty.isNullable) = false := by simpa using hplain
    obtain ⟨hl, hr⟩ := Bool.or_eq_false_iff.mp hplain
    rw [hplain, Bool.not_false]
    have hinstr : (op.treatment setting checked l.ty ty).instr = op.instr checked l.ty := by
      rw [BinaryOp.treatment, Ty.underlying_eq_self hl]
    rw [← hinstr] at h
    exact ofNode_plain hl hr h
  · next hlifted =>
    have hlifted : (l.ty.isNullable || r.ty.isNullable) = true := by
      simpa only [Bool.not_eq_true', Bool.not_eq_false] using hlifted
    rw [hlifted, Bool.not_true]
    refine ofNode_of_slots (fun left right s t hl hr h => ?_) h
    rw [← hl]
    rw [← hl, ← hr] at hlifted
    exact ofSlots_binary hlifted h

end Treatment

/-- A node of a binary operator on accepted operands.  Of each pair of values of the operands its
instruction makes a value of the type of the node or throws the exception of a fault, except for the
values that the operator rejects, and where an operand is absent the result is of the type of the
node. -/
structure BinaryOp.Operates {l r : Node} (op : BinaryOp) (checked : Bool) (ty : Ty)
    (o : Sections (Job.ofRoutine setting hR) start l r exit s t) (p : Nat) : Prop where
  treats : (op.treatment setting checked l.ty ty).OfNode (!(l.ty.isNullable || r.ty.isNullable)) o p
  absent : (l.ty.isNullable || r.ty.isNullable) = true →
    ∀ both, (op.onAbsent setting.options ty both).isOf ty = true
  decides : ∀ (x y : Value), x.Fills l.ty.underlying → y.Fills r.ty.underlying →
    ∀ (span : Span) (a : Around) (m : Memory) (stack : List Value),
      match op.rejects? x y with
      | none =>
          (∃ v : Value, (v.wrapIf ty.isNullable).isOf ty = true ∧
            Run.Via setting.registry R span (· = p) p (m.state a (y :: x :: stack)) (p + 1)
              (m.state a (v :: stack))) ∨
          op.isComparison = false ∧
            ∃ e u, Run.Steps setting.registry R (op.instr checked l.ty.underlying)
              (m.state a (y :: x :: stack)) (.error e u) ∧ e.IsFault u.heap
      | some d => ∃ u, Run.Steps setting.registry R (op.instr checked l.ty.underlying)
            (m.state a (y :: x :: stack)) (.error (.invalid d) u)

/-- The instruction of an operator on values of accepted types. -/
theorem BinaryOp.operates {l r : Node} {o : Sections (Job.ofRoutine setting hR) start l r exit s t}
    {p : Nat} (hfaults : setting.registry.HasFaults)
    (hplain : op.isComparison = false →
      l.ty.underlying.isNullable = false ∧ r.ty.underlying.isNullable = false)
    (haccepts : op.accepts l.ty r.ty = true)
    (hinner : ty.underlying = if op.isComparison then .bool else l.ty.underlying)
    (hlifted : op.isComparison = false → l.ty.isNullable = true ∨ r.ty.isNullable = true →
      ty.isNullable = true)
    (htreats : (op.treatment setting checked l.ty ty).OfNode (!(l.ty.isNullable || r.ty.isNullable))
      o p) : op.Operates checked ty o p := by
  refine ⟨htreats, fun hnullable both => ?_, fun x y hx hy span a m stack => ?_⟩
  · refine Regime.typed.onAbsent hinner (fun hcomparison => ?_) _ _
    exact hlifted hcomparison (by simpa using hnullable)
  · have houtcome := (Run.Computes.binary (r := setting.registry) (R := R) op checked l.ty.underlying x
      y).outcome (Run.Leaves.binaryValue op checked _ x y) m a stack
    split
    · next hrejects =>
      have hgives := Run.gives_accepted hfaults hplain haccepts hx hy hrejects checked
        (Run.bare m.heap m.statics)
      have hcompares : op.isComparison = true → ∃ v, Run.binaryValue setting.registry op checked
          l.ty.underlying x y = pure v := by
        intro hcomparison
        obtain ⟨c, hc, hvalue⟩ := Run.binaryValue_comparison (r := setting.registry) hcomparison
        obtain ⟨b, hb⟩ : ∃ b, Value.compare c x y = .ok b := by
          simpa only [hrejects] using Value.compare_rejects hcomparison hc x y
        exact ⟨.bool b, by rw [hvalue, Run.compareValues, hb]; rfl⟩
      revert houtcome hgives
      cases houtcome : Run.binaryValue setting.registry op checked l.ty.underlying x y
          (Run.bare m.heap m.statics) with
      | ok v u =>
          intro hstep hv
          refine .inl ⟨v, Value.isOf_wrapIf ?_ (hinner ▸ hv), ?_⟩
          · rw [hinner]
            cases hcomparison : op.isComparison with
            | true => rfl
            | false => exact op.isPrimitive_of_accepts (hplain hcomparison).1 haccepts hcomparison
          · exact .next htreats.code (op.silent_instr _ _ _ _) rfl hstep (.refl _ _)
      | error e u =>
          rintro ⟨u', hstep, hheap⟩ he
          have he : e.IsFault u.heap := he
          rw [hheap] at he
          refine .inr ⟨?_, e, u', hstep, he⟩
          by_contra hcomparison
          obtain ⟨v, hv⟩ := hcompares (by simpa using hcomparison)
          rw [hv] at houtcome
          cases houtcome
    · next d hrejects =>
      rw [Run.binaryValue_rejected hrejects] at houtcome
      obtain ⟨u, hstep, -⟩ := houtcome
      exact ⟨u, hstep⟩

end

/-! ## Evaluation -/

/-- **Accepted operators.**  In every routine, the code of a binary operator without a method has the
values of its operands in two sections and then comes to one instruction that sees both, or to what
their absence says.  Whatever values of their types the operands have, the node leaves a value of its
type or throws the exception of a fault, with two exceptions: numbers of different kinds are not
compared, and a text that is null has no place in an order.  Operators other than comparisons have no
optionals of optionals for operands, and the node has the type that is inferred for it. -/
theorem binary_yields_or_faults {setting : Setting} {R : Routine} (hR : R.WithinLimits)
    (hfaults : setting.registry.HasFaults) {start : Nat} {s t : Emission} {op : BinaryOp}
    {checked : Bool} {left right : Expr} {ty : Ty} {exit : Option Label} {used : Bool}
    (hplain : op.isComparison = false →
      left.ty.underlying.isNullable = false ∧ right.ty.underlying.isNullable = false)
    (hty : ty = (Tree.binary op left right).ty ∨
      op.isComparison = true ∧ ty = (Tree.compareLifted op left right).ty)
    (h : (Job.ofRoutine setting hR).Emits start
      ((Expr.node (.binary op left right checked none) ty).toNode.value exit) s used t) :
    ∃ (o : Sections (Job.ofRoutine setting hR) start left.toNode right.toNode exit s t) (p : Nat),
      op.Operates checked ty o p ∧ ∀ k, o.Waits k →
        (∀ id info, o.rightStart.labels.lookup id = some info → info.valueSlot ≠ some k) →
        o.Unnamed k := by
  obtain ⟨e, -, h⟩ := h.layer fun id h => by cases h
  obtain ⟨haccepts, o, p, htreats⟩ := Treatment.ofNode_binary h
  obtain ⟨hinner, hlifted⟩ := Tree.binary_ty (fun h => (hplain h).1) hty
  refine ⟨o, p, BinaryOp.operates hfaults ?_ haccepts ?_ ?_ htreats, fun k => o.unnamed h.sound⟩
  · rwa [Expr.toNode_ty, Expr.toNode_ty]
  · rwa [Expr.toNode_ty]
  · rwa [Expr.toNode_ty, Expr.toNode_ty]

/-- Two parameters that hold anything. -/
def objects : List Variable := [⟨0, "p", .object⟩, ⟨1, "q", .object⟩]

/-- Whether they are equal. -/
def objectsEqual : Expr :=
  .node (.binary .eq (.node (.parameter 0) .object) (.node (.parameter 1) .object) false none) .bool

/-- A text and a number are compared; two numbers of different kinds are not. -/
theorem binary_yields_or_faults_objects :
    ∃ (R : Routine) (hR : R.WithinLimits) (t : Emission) (p : Nat) (used : Bool),
      (Job.ofRoutine ⟨.builtin, .default⟩ hR).Emits 0 (objectsEqual.toNode.value none)
        (beforeCode "objects" objects .bool) used t ∧
      ∀ (span : Span) (a : Around) (m : Memory), m.locals.size = R.locals.size →
        (m.args = #[.str "1", .num (.one (.int .i32))] → ∃ (n : Memory) (v : Value),
          v.isOf .bool = true ∧
            Run.Via .builtin R span (fun _ => True) 0 (m.state a []) t.position (n.state a [v])) ∧
        (m.args = #[.num (.one (.int .i64)), .num (.one (.int .i32))] → ∃ s u : State,
          Run.Via .builtin R span (fun _ => True) 0 (m.state a []) p s ∧
            Run.Steps .builtin R (.compare .eq) s
              (.error (.invalid (.numeric (.kindMismatch (.int .i64) (.int .i32)))) u)) := by
  obtain ⟨used, t, R, hrun, hfinish, hR⟩ : ∃ used t R,
      (objectsEqual.toNode.value none).run ⟨.builtin, .default⟩ (beforeCode "objects" objects .bool) =
        .ok used t ∧ t.builder.finish (.unit 0) = .ok R ∧ R.WithinLimits := ⟨_, _, _, rfl, rfl, by decide⟩
  have h : (Job.ofRoutine ⟨.builtin, .default⟩ hR).Emits 0 (objectsEqual.toNode.value none)
      (beforeCode "objects" objects .bool) used t := .ofFinish hrun (sound_beforeCode _ _ _) hfinish
  have hnode : (Job.ofRoutine ⟨.builtin, .default⟩ hR).Emits 0 ((Expr.node (.binary .eq
      (.node (.parameter 0) .object) (.node (.parameter 1) .object) false none) .bool).toNode.value none)
      (beforeCode "objects" objects .bool) used t := h
  obtain ⟨o, p, ho, -⟩ := binary_yields_or_faults hR .builtin (fun h => by cases h) (.inl rfl) hnode
  refine ⟨R, hR, t, p, used, h, fun span a m hsize => ?_⟩
  have hleft := o.entered.scope
  have hright := (o.left.retains.trans o.passed).scope.trans hleft
  -- Both parameters are loaded, whatever they hold.
  have hloads : ∀ x y : Value, m.args = #[x, y] → ∃ n : Memory,
      Run.Via .builtin R span (fun _ => True) 0 (m.state a []) p (n.state a [y, x]) := by
    intro x y hargs
    have hfirst : Run.Via .builtin R span (fun _ => True) _ (m.state a []) _ _ :=
      .argument 0 o.left (by rw [hleft]; rfl) rfl (by rw [hargs]; rfl) fun _ _ _ => trivial
    obtain ⟨n, hn, hbetween, hrest⟩ := ho.treats.between span a m [] x hsize
    have hsecond : Run.Via .builtin R span (fun _ => True) _ (n.state a [x]) _ _ :=
      .argument 1 o.right (by rw [hright]; rfl) rfl (by rw [hn.args, hargs]; rfl) fun _ _ _ => trivial
    obtain ⟨k, -, -, hpresent⟩ := hrest a n y (hn.size.trans hsize) fun _ _ => rfl
    rw [o.first] at hfirst
    exact ⟨k, hfirst.trans ((hbetween.imp fun _ _ => trivial).trans
      (hsecond.trans ((hpresent x y rfl rfl).imp fun _ _ => trivial)))⟩
  constructor
  · intro hargs
    obtain ⟨n, hloads⟩ := hloads _ _ hargs
    rcases ho.decides (.str "1") (.num (.one (.int .i32))) (fun h => by cases h) (fun h => by cases h)
      span a n [] with ⟨v, hv, hvia⟩ | ⟨hcomparison, -⟩
    · refine ⟨n, v, hv, hloads.trans ((hvia.imp fun _ _ => trivial).trans ?_)⟩
      exact (ho.treats.behind span a n [] v).imp fun _ _ => trivial
    · cases hcomparison
  · intro hargs
    obtain ⟨n, hloads⟩ := hloads _ _ hargs
    obtain ⟨u, hstep⟩ := ho.decides (.num (.one (.int .i64))) (.num (.one (.int .i32)))
      (fun h => by cases h) (fun h => by cases h) span a n []
    exact ⟨_, u, hloads, hstep⟩

end Arbor
