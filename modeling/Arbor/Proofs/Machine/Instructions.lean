/-
  What single instructions do to the evaluation stack and the memory.

  Most instructions replace operands on the stack by the result of an action on
  them; `Computes` says so, on the outline of the heap for the result and on the
  machine for the step.  Loads, stores and jumps have lemmas of their own.
-/
import Arbor.Proofs.Machine.Memory
import Arbor.Proofs.Machine.Runs

set_option autoImplicit false

namespace Arbor.Run

/-! ## Actions on operands -/

/-- The number in a value. -/
def asNum (v : Value) : Run Num :=
  match v with
  | .num n => pure n
  | v => invalid (.notNumber v)

/-- Arithmetic on two values. -/
def arithValues (r : Registry) (op : ArithOp) (checked : Bool) (a b : Value) : Run Value := do
  let y ← asNum b
  let x ← asNum a
  pure (.num (← ofNumeric r (Num.arith op x y checked)))

/-- Negation of a value. -/
def negValue (r : Registry) (checked : Bool) (a : Value) : Run Value := do
  let x ← asNum a
  pure (.num (← ofNumeric r (x.neg checked)))

/-- Conversion of a value to a numeric kind. -/
def convValue (r : Registry) (k : NumKind) (checked : Bool) (a : Value) : Run Value := do
  let x ← asNum a
  pure (.num (← ofNumeric r (x.convert k checked)))

/-- Comparison of two values. -/
def compareValues (op : CmpOp) (a b : Value) : Run Value := do
  pure (.bool (← ofCompare (Value.compare op a b)))

/-- What is inside an optional; an absent one faults. -/
def payloadOf (r : Registry) (v : Value) : Run Value :=
  match v with
  | .present v => pure v
  | .absent | .null => raise r .invalidOperation
  | v => pure v

end Arbor.Run

namespace Arbor.Value

/-- What is inside an optional; a value that is no optional is inside itself. -/
def payload? : Value → Option Value
  | present v => some v
  | absent | null => none
  | v => some v

/-- A value as an optional; an optional stays as it is. -/
def wrapped : Value → Value
  | present v => present v
  | absent => absent
  | v => present v

theorem payload?_isNone (v : Value) : v.payload?.isNone = v.isAbsent := by
  cases v <;> rfl

end Arbor.Value

namespace Arbor.Run

theorem Local.asNum (v : Value) : Local (asNum v) := by
  unfold Run.asNum
  split
  · exact .pure _
  · exact .invalid _

theorem Local.arithValues (r : Registry) (op : ArithOp) (checked : Bool) (a b : Value) :
    Local (arithValues r op checked a b) :=
  .bind (.asNum b) fun _ => .bind (.asNum a) fun _ => .bind (.ofNumeric r _) fun _ => .pure _

theorem Local.negValue (r : Registry) (checked : Bool) (a : Value) :
    Local (negValue r checked a) :=
  .bind (.asNum a) fun _ => .bind (.ofNumeric r _) fun _ => .pure _

theorem Local.convValue (r : Registry) (k : NumKind) (checked : Bool) (a : Value) :
    Local (convValue r k checked a) :=
  .bind (.asNum a) fun _ => .bind (.ofNumeric r _) fun _ => .pure _

theorem Local.compareValues (op : CmpOp) (a b : Value) : Local (compareValues op a b) :=
  .bind (.ofCompare _) fun _ => .pure _

theorem Local.payloadOf (r : Registry) (v : Value) : Local (payloadOf r v) := by
  cases v <;> first | exact .pure _ | exact .raise r _

theorem Local.bitwise (r : Registry) (op : BitOp) (a b : Value) : Local (bitwise r op a b) := by
  unfold Run.bitwise
  split
  · cases op with
    | and | or | xor => exact .pure _
    | _ => exact .invalid _
  · exact .bind (.ofNumeric r _) fun _ => .pure _
  · exact .invalid _

theorem Local.complement (r : Registry) (v : Value) : Local (complement r v) := by
  unfold Run.complement
  split
  · exact .pure _
  · exact .bind (.ofNumeric r _) fun _ => .pure _
  · exact .invalid _

/-! ## Instructions that compute -/

variable {r : Registry} {R : Routine}

/-- The instruction replaces operands, the last pushed first, by the result of an action. -/
def Computes (r : Registry) (R : Routine) (i : Instr) (operands : List Value) (x : Run Value) :
    Prop :=
  ∀ (m : Memory) (a : Around) (stack : List Value),
    match x (bare m.heap m.statics) with
    | .ok v s => ∃ h, s.heap = h.outline ∧ h.functions = m.heap.functions ∧
        Steps r R i (m.state a (operands ++ stack))
          (.ok .next ((m.shared h s.statics).state a (v :: stack)))
    | .error e s => ∃ t, Steps r R i (m.state a (operands ++ stack)) (.error e t) ∧
        s.heap = t.heap.outline ∧ s.statics = t.statics ∧ t.frames.tail = a.outer

/-- An instruction that pops its operands and pushes what a local action yields. -/
theorem Computes.of_local {i : Instr} {operands : List Value} {x : Run Value} (hx : Local x)
    (h : ∀ (call : Caller) (m : Memory) (a : Around) (stack : List Value),
      step r call R i (m.state a (operands ++ stack)) = (x >>= pushNext) (m.state a stack)) :
    Computes r R i operands x := by
  intro m a stack
  have hmirror := hx m.heap m.statics (m.state a stack).frames
  have hstep : ∀ call, step r call R i (m.state a (operands ++ stack)) =
      EStateM.bind x pushNext (m.state a stack) := fun call => h call m a stack
  unfold EStateM.bind at hstep
  revert hmirror hstep
  change Mirrors _ _ _ (x (m.state a stack)) → _
  cases x (bare m.heap m.statics) with
  | ok v s =>
      cases x (m.state a stack) with
      | ok w t =>
          rintro ⟨rfl, hheap, hstatics, -, hframes, hfunctions⟩ hstep
          refine ⟨t.heap, hheap, hfunctions, .of_forall fun call => (hstep call).trans ?_⟩
          obtain ⟨heap, frames, statics⟩ := t
          simp only at hframes hstatics
          subst hframes
          simp [pushNext, push, modifyFrame, Memory.state, Memory.shared, hstatics, bind,
            EStateM.bind, pure, EStateM.pure]
      | error f t => exact False.elim
  | error e s =>
      cases x (m.state a stack) with
      | ok w t => exact False.elim
      | error f t =>
          rintro ⟨rfl, hheap, hstatics, -, hframes, -⟩ hstep
          refine ⟨t, .of_forall hstep, hheap, hstatics, ?_⟩
          rw [hframes]
          rfl

/-- An instruction that fails on its operands as the action does, wherever in the popping. -/
theorem Computes.of_invalid {i : Instr} {operands : List Value} {x : Run Value} {d : Defect}
    (hx : x = invalid d)
    (h : ∀ (m : Memory) (a : Around) (stack : List Value), ∃ rest, ∀ call : Caller,
      step r call R i (m.state a (operands ++ stack)) = .error (.invalid d) (m.state a rest)) :
    Computes r R i operands x := by
  intro m a stack
  subst hx
  obtain ⟨rest, hstep⟩ := h m a stack
  exact ⟨m.state a rest, .of_forall hstep, rfl, rfl, rfl⟩

theorem pushNext_map {α : Type} (x : Run α) (f : α → Value) (s : State) :
    (x >>= fun a => pushNext (f a)) s = ((x >>= fun a => pure (f a)) >>= pushNext) s := by
  simp only [bind, EStateM.bind]
  cases x s <;> rfl

theorem raise_bind {α β : Type} (f : Fault) (g : α → Run β) (s : State) :
    ((raise r f : Run α) >>= g) s = (raise r f : Run β) s := by
  simp only [raise, throwNew, bind, EStateM.bind]
  cases allocObject r (Registry.exceptionType f) s <;> rfl

namespace Computes

theorem loadDefault (t : Ty) : Computes r R (.loadDefault t) [] (ofLookup (r.zero t)) :=
  .of_local (.ofLookup _) fun _ _ _ _ => rfl

theorem arith (op : ArithOp) (checked : Bool) (a b : Value) :
    Computes r R (.arith op checked) [b, a] (arithValues r op checked a b) := by
  cases b with
  | num y =>
      cases a with
      | num x => exact .of_local (.arithValues r op checked _ _) fun _ _ _ _ => pushNext_map _ _ _
      | _ => exact .of_invalid rfl fun _ _ stack => ⟨stack, fun _ => rfl⟩
  | _ => exact .of_invalid rfl fun _ _ stack => ⟨a :: stack, fun _ => rfl⟩

theorem neg (checked : Bool) (a : Value) :
    Computes r R (.neg checked) [a] (negValue r checked a) := by
  cases a with
  | num x => exact .of_local (.negValue r checked _) fun _ _ _ _ => pushNext_map _ _ _
  | _ => exact .of_invalid rfl fun _ _ stack => ⟨stack, fun _ => rfl⟩

theorem conv (k : NumKind) (checked : Bool) (a : Value) :
    Computes r R (.conv k checked) [a] (convValue r k checked a) := by
  cases a with
  | num x => exact .of_local (.convValue r k checked _) fun _ _ _ _ => pushNext_map _ _ _
  | _ => exact .of_invalid rfl fun _ _ stack => ⟨stack, fun _ => rfl⟩

theorem bitwise (op : BitOp) (a b : Value) :
    Computes r R (.bitwise op) [b, a] (bitwise r op a b) :=
  .of_local (.bitwise r op a b) fun _ _ _ _ => rfl

theorem not (a : Value) : Computes r R .not [a] (complement r a) :=
  .of_local (.complement r a) fun _ _ _ _ => rfl

theorem compare (op : CmpOp) (a b : Value) :
    Computes r R (.compare op) [b, a] (compareValues op a b) :=
  .of_local (.compareValues op a b) fun _ _ _ _ => pushNext_map _ _ _

theorem optValue (v : Value) : Computes r R .optValue [v] (payloadOf r v) :=
  .of_local (.payloadOf r v) fun _ _ _ _ => by
    cases v <;> first | rfl | exact (raise_bind _ _ _).symm

end Computes

/-! ## Instructions that move values and control -/

namespace Steps

variable (m : Memory) (a : Around) (stack : List Value)

theorem nop : Steps r R .nop (m.state a stack) (.ok .next (m.state a stack)) :=
  .of_forall fun _ => rfl

theorem const (c : Literal) :
    Steps r R (.const c) (m.state a stack) (.ok .next (m.state a (.ofLiteral c :: stack))) :=
  .of_forall fun _ => rfl

theorem loadDefault {t : Ty} {v : Value} (h : r.zero t = .ok v) :
    Steps r R (.loadDefault t) (m.state a stack) (.ok .next (m.state a (v :: stack))) :=
  .of_forall fun _ => by
    simp [step, h, ofLookup, pushNext, push, modifyFrame, Memory.state, bind, EStateM.bind, pure,
      EStateM.pure]

theorem optHasValue (v : Value) :
    Steps r R .optHasValue (m.state a (v :: stack))
      (.ok .next (m.state a (.bool (!v.isAbsent) :: stack))) :=
  .of_forall fun _ => rfl

theorem optValueOrDefault (t : Ty) {v x : Value} (h : v.payload? = some x) :
    Steps r R (.optValueOrDefault t) (m.state a (v :: stack))
      (.ok .next (m.state a (x :: stack))) :=
  .of_forall fun _ => by cases v <;> cases h <;> rfl

/-- The zero value of a type in place of an absent optional. -/
theorem optDefault {t : Ty} {v z : Value} (h : v.payload? = none) (hz : r.zero t = .ok z) :
    Steps r R (.optValueOrDefault t) (m.state a (v :: stack))
      (.ok .next (m.state a (z :: stack))) :=
  .of_forall fun _ => by
    cases v with
    | null | absent =>
        simp [step, Run.pop, hz, ofLookup, pushNext, push, modifyFrame, Memory.state, bind,
          EStateM.bind, pure, EStateM.pure]
    | _ => cases h

theorem optWrap (v : Value) :
    Steps r R .optWrap (m.state a (v :: stack)) (.ok .next (m.state a (v.wrapped :: stack))) :=
  .of_forall fun _ => by cases v <;> rfl

theorem box (t : Ty) (v : Value) :
    Steps r R (.box t) (m.state a (v :: stack)) (.ok .next (m.state a (v.boxed :: stack))) :=
  .of_forall fun _ => rfl

theorem loadLocal {slot : Nat} {v : Value} (h : m.locals[slot]? = some v) :
    Steps r R (.loadLocal slot) (m.state a stack) (.ok .next (m.state a (v :: stack))) :=
  .of_forall fun _ => by
    simp [step, Run.loadLocal, pushNext, push, modifyFrame, Memory.state, h, bind, EStateM.bind,
      pure, EStateM.pure]

theorem loadArg {i : Nat} {v : Value} (h : m.args[i]? = some v) :
    Steps r R (.loadArg i) (m.state a stack) (.ok .next (m.state a (v :: stack))) :=
  .of_forall fun _ => by
    simp [step, Run.loadArg, pushNext, push, modifyFrame, Memory.state, h, bind, EStateM.bind,
      pure, EStateM.pure]

theorem storeLocal {slot : Nat} (v : Value) (h : slot < m.locals.size) :
    Steps r R (.storeLocal slot) (m.state a (v :: stack))
      (.ok .next ((m.setLocal slot v).state a stack)) :=
  .of_forall fun _ => by
    simp [step, Run.storeLocal, Run.pop, Memory.state, Memory.setLocal, h, bind, EStateM.bind,
      pure, EStateM.pure]

theorem storeArg {i : Nat} (v : Value) (h : i < m.args.size) :
    Steps r R (.storeArg i) (m.state a (v :: stack))
      (.ok .next ((m.setArg i v).state a stack)) :=
  .of_forall fun _ => by
    simp [step, Run.storeArg, Run.pop, Memory.state, Memory.setArg, h, bind, EStateM.bind, pure,
      EStateM.pure]

theorem dup (v : Value) :
    Steps r R .dup (m.state a (v :: stack)) (.ok .next (m.state a (v :: v :: stack))) :=
  .of_forall fun _ => rfl

theorem pop (v : Value) :
    Steps r R .pop (m.state a (v :: stack)) (.ok .next (m.state a stack)) :=
  .of_forall fun _ => rfl

theorem compareBool (x y : Bool) :
    Steps r R (.compare .ne) (m.state a (.bool y :: .bool x :: stack))
      (.ok .next (m.state a (.bool (x != y) :: stack))) :=
  .of_forall fun _ => by cases x <;> cases y <;> rfl

theorem compare {op : CmpOp} {x y : Value} {result : Bool} (h : Value.compare op x y = .ok result) :
    Steps r R (.compare op) (m.state a (y :: x :: stack))
      (.ok .next (m.state a (.bool result :: stack))) :=
  .of_forall fun _ => by
    simp [step, Run.pop, h, ofCompare, pushNext, push, modifyFrame, Memory.state, bind, EStateM.bind,
      pure, EStateM.pure]

theorem hashBucket {size : Nat} {v : Value} {key : SwitchKey} (hkey : switchKey v = pure key)
    (hsize : 0 < size) :
    Steps r R (.hashBucket size) (m.state a (v :: stack))
      (.ok .next (m.state a (.int (Bucket.of key size) :: stack))) :=
  .of_forall fun _ => by
    simp [step, Run.pop, hkey, Nat.max_eq_left hsize, pushNext, push, modifyFrame, Memory.state, bind,
      EStateM.bind, pure, EStateM.pure]

theorem jump {l : Label} {q : Nat} (h : R.target? l = some q) :
    Steps r R (.jump l) (m.state a stack) (.ok (.jump q) (m.state a stack)) :=
  .of_forall fun _ => by simp [step, target, h, bind, EStateM.bind, pure, EStateM.pure]

/-- Where control goes after a conditional jump. -/
def branch (condition : Bool) (q : Nat) : Flow := if condition then .jump q else .next

theorem jumpWhen {l : Label} {q : Nat} (condition : Bool) (s : State)
    (h : R.target? l = some q) :
    Run.jumpWhen R condition l s = .ok (branch condition q) s := by
  cases condition <;> simp [Run.jumpWhen, target, h, branch, bind, EStateM.bind, pure, EStateM.pure]

theorem jumpIfTrue {l : Label} {q : Nat} (v : Value) (h : R.target? l = some q) :
    Steps r R (.jumpIfTrue l) (m.state a (v :: stack))
      (.ok (branch v.isTruthy q) (m.state a stack)) :=
  .of_forall fun _ => jumpWhen _ _ h

theorem jumpIfFalse {l : Label} {q : Nat} (v : Value) (h : R.target? l = some q) :
    Steps r R (.jumpIfFalse l) (m.state a (v :: stack))
      (.ok (branch (!v.isTruthy) q) (m.state a stack)) :=
  .of_forall fun _ => jumpWhen _ _ h

theorem jumpIfAbsent {l : Label} {q : Nat} (v : Value) (h : R.target? l = some q) :
    Steps r R (.jumpIfAbsent l) (m.state a (v :: stack))
      (.ok (branch v.isAbsent q) (m.state a stack)) :=
  .of_forall fun _ => jumpWhen _ _ h

theorem jumpIfPresent {l : Label} {q : Nat} (v : Value) (h : R.target? l = some q) :
    Steps r R (.jumpIfPresent l) (m.state a (v :: stack))
      (.ok (branch (!v.isAbsent) q) (m.state a stack)) :=
  .of_forall fun _ => jumpWhen _ _ h

theorem markStack {slot : Nat} (h : slot < m.locals.size) :
    Steps r R (.markStack slot) (m.state a stack)
      (.ok .next ((m.setLocal slot (.int stack.length)).state a stack)) :=
  .of_forall fun _ => by
    have hstore : Run.storeLocal slot (.int stack.length) (m.state a stack) =
        .ok () ((m.setLocal slot (.int stack.length)).state a stack) := by
      simp [Run.storeLocal, Memory.state, Memory.setLocal, h]
    change EStateM.bind (Run.storeLocal slot (.int stack.length)) _ (m.state a stack) = _
    simp only [EStateM.bind, hstore]
    rfl

/-- A recorded depth is read back as long as it is below the limit. -/
theorem toIndex?_int {n : Nat} (h : n < depthLimit) : (Value.int n).toIndex? = some (n : Int) := by
  unfold depthLimit at h
  have h32 : IntKind.i32.min ≤ (n : Int) ∧ (n : Int) ≤ IntKind.i32.max := by
    simp only [IntKind.min, IntKind.max, IntKind.signed, IntKind.modulus, IntKind.bits, if_true,
      Nat.pow_eq, Nat.reducePow] at *
    omega
  have h64 : IntKind.i64.min ≤ (n : Int) ∧ (n : Int) ≤ IntKind.i64.max := by
    simp only [IntKind.min, IntKind.max, IntKind.signed, IntKind.modulus, IntKind.bits, if_true,
      Nat.pow_eq, Nat.reducePow] at *
    omega
  simp [Value.int, Value.toIndex?, Num.i32, Num.kind, NumKind.isIntegral, NumKind.isFloat,
    Num.toIndex, Word.wrap, Word.residue_eq_self h32, Word.residue_eq_self h64]

theorem switch {ls : List Label} {v : Value} {i q : Nat} {l : Label}
    (hv : v.toIndex? = some (i : Int)) (hl : ls[i]? = some l) (h : R.target? l = some q) :
    Steps r R (.switch ls) (m.state a (v :: stack)) (.ok (.jump q) (m.state a stack)) :=
  .of_forall fun _ => by
    simp [step, popIndex, Run.pop, hv, hl, target, h, Memory.state, bind, EStateM.bind, pure,
      EStateM.pure]

theorem resetStack {slot : Nat} (top : List Value)
    (h : m.locals[slot]? = some (.int stack.length)) (hlimit : stack.length < depthLimit) :
    Steps r R (.resetStack slot) (m.state a (top ++ stack)) (.ok .next (m.state a stack)) :=
  .of_forall fun _ => by
    have hdepth : markedDepth ⟨m.args, m.locals, top ++ stack, a.handling⟩ slot = stack.length := by
      simp [markedDepth, h, toIndex?_int hlimit]
    simp [step, resetToMark, modifyFrame, Memory.state, hdepth, cut, bind, EStateM.bind, pure,
      EStateM.pure]

theorem ret (v : Value) (h : R.ret.isVoid = false) :
    Steps r R .ret (m.state a (v :: stack)) (.ok (.ret v) (m.state a stack)) :=
  .of_forall fun _ => by
    simp [step, h, Run.pop, Memory.state, bind, EStateM.bind, pure, EStateM.pure]

theorem retVoid (h : R.ret.isVoid = true) :
    Steps r R .ret (m.state a stack) (.ok (.ret .null) (m.state a stack)) :=
  .of_forall fun _ => by simp [step, h, pure, EStateM.pure]

end Steps

end Arbor.Run
