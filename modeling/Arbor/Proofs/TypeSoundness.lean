/-
  Type soundness of scalar functions.

  A scalar tree that could be emitted passed the type checks of its operators.  So
  every operator is applied to values of kinds that it accepts, every node yields
  a value of exactly its type, and the only traps are the faults of the machine.
-/
import Arbor.Proofs.ScalarFunctions
import Arbor.Proofs.Semantics.Declarations
import Arbor.Proofs.Semantics.Ensures
import Arbor.Proofs.Simulation.Acceptance

set_option autoImplicit false

namespace Arbor

/-! ## Faults -/

/-- The exception types of the faults come first in a registry. -/
def Registry.HasFaults (r : Registry) : Prop := builtin.types.toList <+: r.types.toList

namespace Registry.HasFaults

variable {r : Registry}

/-- The first types are the known ones. -/
theorem types (h : r.HasFaults) {id : TypeId} (hid : id < builtin.types.size) :
    r.types[id]? = builtin.types[id]? := by
  obtain ⟨rest, hrest⟩ := h
  have hlist : r.types.toList[id]? = builtin.types.toList[id]? := by
    rw [← hrest, List.getElem?_append_left (by simpa using hid)]
  simpa using hlist

theorem exceptionType (h : r.HasFaults) (f : Fault) :
    r.types[Registry.exceptionType f]? =
      some ⟨f.typeName, .classKind, some rootException, #[], #[], #[implicitCtor]⟩ := by
  cases f <;> exact (h.types (by decide)).trans rfl

/-- An instance of the exception of a fault holds a text. -/
theorem layout (h : r.HasFaults) (f : Fault) : r.layout (Registry.exceptionType f) = .ok [.str] := by
  have hroot : r.types[rootException]? = some ⟨Fault.rootTypeName, .classKind, none,
      #[⟨"Message", .str, false⟩], #[], #[implicitCtor]⟩ := (h.types (by decide)).trans rfl
  obtain ⟨size, hsize⟩ : ∃ size, r.size = size + 1 := by
    have hlength := h.length_le
    have hbuiltin : builtin.types.toList.length = 8 := rfl
    exact ⟨r.size - 1, by simp only [Array.length_toList, size] at *; omega⟩
  simp only [Registry.layout, hsize, layoutFrom, h.exceptionType f, hroot]
  rfl

theorem typeName (h : r.HasFaults) (f : Fault) :
    r.typeName (Registry.exceptionType f) = f.typeName := by
  simp only [Registry.typeName, h.exceptionType f]

theorem builtin : Registry.builtin.HasFaults := List.prefix_rfl

theorem push (h : r.HasFaults) (d : TypeDef) : HasFaults ⟨r.types.push d⟩ := by
  unfold HasFaults
  rw [Array.toList_push]
  exact h.trans (List.prefix_append _ _)

/-- A changed type that is no exception type of a fault. -/
theorem modifyType (h : r.HasFaults) {id : TypeId} (hid : Registry.builtin.size ≤ id)
    (f : TypeDef → TypeDef) : HasFaults (r.modifyType id f) := by
  refine List.prefix_iff_getElem?.mpr fun i hi => ?_
  have hne : id ≠ i := Nat.ne_of_gt (Nat.lt_of_lt_of_le hi hid)
  rw [Registry.modifyType, Array.toList_modify, List.getElem?_modify_ne f _ hne]
  exact List.prefix_iff_getElem?.mp h i hi

/-- The registry of every list of declared types. -/
theorem ofDecls {ds : List TypeDecl} (h : Registry.ofDecls ds = .ok r) : r.HasFaults := by
  refine ofDecls_induct builtin ?_ (fun _ _ f hid _ h => h.modifyType hid f) h
  intro r₀ r d hd hr
  unfold declare at hd
  split at hd
  · cases hd
    exact hr.push _
  · split at hd <;> cases hd
    exact hr.push _
  · cases hd
    exact hr.push _
  · cases hd

end Registry.HasFaults

theorem Fault.ofTypeName?_typeName (f : Fault) : ofTypeName? f.typeName = some f := by
  cases f <;> decide

/-- The trap throws the exception of the fault, with its message. -/
def Trap.Throws (e : Trap) (f : Fault) (h : Heap) : Prop :=
  ∃ ref, e = .thrown ref ∧ h.objectType? ref = some (Registry.exceptionType f) ∧
    h.field? ref 0 = some (.str f.message)

/-- A trap that throws the exception of a fault, with its message. -/
def Trap.IsFault (e : Trap) (h : Heap) : Prop :=
  ∃ f ref, e = .thrown ref ∧ h.objectType? ref = some (Registry.exceptionType f) ∧
    h.field? ref 0 = some (.str f.message)

/-- From outside a fault is seen as its exception. -/
theorem Trap.IsFault.runtimeError {e : Trap} {h : Heap} (he : e.IsFault h) {r : Registry}
    (hr : r.HasFaults) {s : State} (hs : h = s.heap.outline) :
    ∃ f : Fault, Machine.runtimeError r s e = .unhandled f.typeName f.message (some f) := by
  obtain ⟨f, ref, rfl, hty, hmessage⟩ := he
  subst hs
  have hty : s.heap.objectType? ref = some (Registry.exceptionType f) := hty
  have hmessage : s.heap.field? ref 0 = some (.str f.message) := hmessage
  refine ⟨f, ?_⟩
  simp [Machine.runtimeError, hty, hmessage, hr.typeName, Fault.ofTypeName?_typeName, Value.text?]

/-! ## Numbers -/

/-- A numeric operation yields a number of the kind, or overflows, or divides by zero. -/
def NumKind.Yields (k : NumKind) : Except NumFault Num → Prop
  | .ok n => n.kind = k
  | .error f => f = .overflow ∨ f = .divideByZero

namespace Num

/-- A result in range, or an overflow. -/
theorem yields_finish (k : IntKind) (checked : Bool) (n : Int) :
    NumKind.Yields (.int k) ((Word.finish k checked n).map (int k)) := by
  unfold Word.finish Word.exact
  cases checked with
  | false => exact rfl
  | true =>
      simp only [if_true]
      cases Word.ofInt? k n with
      | none => exact .inl rfl
      | some w => exact rfl

/-- An exact result, or an overflow. -/
theorem yields_exact (k : IntKind) (n : Int) :
    NumKind.Yields (.int k) ((Word.exact k n).map (int k)) := by
  unfold Word.exact
  cases Word.ofInt? k n with
  | none => exact .inl rfl
  | some w => exact rfl

/-- Arithmetic on numbers of one kind. -/
theorem yields_arith (op : ArithOp) {a b : Num} {k : NumKind} (ha : a.kind = k) (hb : b.kind = k)
    (checked : Bool) : k.Yields (arith op a b checked) := by
  subst ha
  cases a with
  | int j x =>
      cases b with
      | int k y =>
          cases hb
          simp only [arith, if_true]
          cases op with
          | add | sub | mul => exact yields_finish j checked _
          | div =>
              simp only [Word.arith]
              split
              · exact .inr rfl
              · exact yields_exact j _
          | rem =>
              simp only [Word.arith]
              split
              · exact .inr rfl
              · unfold Word.exact
                cases Word.ofInt? j (x.val.tdiv y.val) with
                | none => exact .inl rfl
                | some w => exact rfl
      | single y => cases hb
      | double y => cases hb
  | single x =>
      cases b with
      | single y => exact rfl
      | int k y => cases hb
      | double y => cases hb
  | double x =>
      cases b with
      | double y => exact rfl
      | int k y => cases hb
      | single y => cases hb

/-- Negation. -/
theorem yields_neg (a : Num) (checked : Bool) : a.kind.Yields (a.neg checked) := by
  cases a with
  | int k w => exact yields_finish k checked _
  | single x => exact rfl
  | double x => exact rfl

/-- Complements of integers. -/
theorem yields_complement {a : Num} (ha : a.kind.isIntegral = true) : a.kind.Yields a.complement := by
  cases a with
  | int k w => exact rfl
  | single x => cases ha
  | double x => cases ha

/-- Bitwise operations on integers. -/
theorem yields_bitwise {op : BitOp} {a b : Num} (ha : a.kind.isIntegral = true)
    (hb : b.kind.isIntegral = true) (hkind : op.isShift = true ∨ a.kind = b.kind) :
    a.kind.Yields (bitwise op a b) := by
  cases a with
  | int j x =>
      cases b with
      | int k y =>
          have hop : (op.isShift || j == k) = true := by
            rcases hkind with hshift | hkind
            · simp [hshift]
            · cases hkind
              simp
          simp only [bitwise, hop, if_true]
          exact rfl
      | single y => cases hb
      | double y => cases hb
  | single x => cases ha
  | double x => cases ha

/-- Conversions. -/
theorem yields_convert (a : Num) (k : NumKind) (checked : Bool) : k.Yields (a.convert k checked) := by
  -- A float becomes an integer, unless it is too large, is no number or does not fit.
  have hfloat : ∀ (tooLarge : Prop) [Decidable tooLarge] {j : IntKind} {e : Except NumFault Num}
      {w : Word j}, NumKind.Yields (.int j) e →
        NumKind.Yields (.int j) (if checked = true then if tooLarge then .error .overflow else e
          else .ok (int j w)) := by
    intro tooLarge _ j e w he
    split
    · split
      · exact .inl rfl
      · exact he
    · exact rfl
  cases k with
  | int j =>
      cases a with
      | int i w => exact yields_finish j checked _
      | single x =>
          refine hfloat _ ?_
          cases Binary.ofDouble? (Num.toDouble (single x)) with
          | none => exact .inl rfl
          | some b => exact yields_exact j _
      | double x =>
          refine hfloat _ ?_
          cases Binary.ofDouble? (Num.toDouble (double x)) with
          | none => exact .inl rfl
          | some b => exact yields_exact j _
  | single => cases a <;> exact rfl
  | double => cases a <;> exact rfl

/-- Numbers of one kind are ordered or not. -/
theorem order_ok {a b : Num} (h : a.kind = b.kind) : ∃ o, order a b = .ok o := by
  cases a <;> cases b <;> cases h
  · exact ⟨_, if_pos rfl⟩
  · exact ⟨_, rfl⟩
  · exact ⟨_, rfl⟩

end Num

/-! ## Values -/

/-- Whether a type is that of truth values, of numbers of a kind or of texts. -/
def Ty.isPrimitive : Ty → Bool
  | bool | num _ | str => true
  | _ => false

theorem Ty.isPrimitive_underlying {ty : Ty} (h : ty.isBasic = true) :
    ty.underlying.isPrimitive = true := by
  unfold isBasic at h
  cases hty : ty.underlying <;> rw [hty] at h <;> first | rfl | cases h

namespace Value

theorem isOf_num {v : Value} {k : NumKind} (h : v.isOf (.num k) = true) :
    ∃ n : Num, v = .num n ∧ n.kind = k := by
  cases v <;> first | cases h | skip
  exact ⟨_, rfl, by simpa [isOf] using h⟩

theorem isOf_bool {v : Value} (h : v.isOf .bool = true) : ∃ b, v = .bool b := by
  cases v <;> first | exact ⟨_, rfl⟩ | cases h

/-- What is inside a value of a type is of the type inside; only an optional can be absent. -/
theorem isOf_payloadAt? {v : Value} {ty : Ty} (h : v.isOf ty = true) :
    (∀ x, v.payloadAt? ty = some x → x.isOf ty.underlying = true) ∧
      (v.payloadAt? ty = none → ty.isNullable = true) := by
  cases ty with
  | nullable t =>
      refine ⟨fun x hx => ?_, fun _ => rfl⟩
      cases v with
      | present y =>
          cases hx
          exact h
      | absent => cases hx
      | _ => cases h
  | _ =>
      refine ⟨fun x hx => ?_, fun hx => nomatch hx⟩
      cases hx
      exact h

theorem wrapped_of_isOf {v : Value} {ty : Ty} (hty : ty.isPrimitive = true)
    (h : v.isOf ty = true) : v.wrapped = .present v := by
  cases v with
  | present x | absent => cases ty <;> simp [Ty.isPrimitive, isOf] at hty h
  | _ => rfl

/-- A value of the type inside becomes one of the type. -/
theorem isOf_wrapIf {v : Value} {ty : Ty} (hty : ty.underlying.isPrimitive = true)
    (h : v.isOf ty.underlying = true) : (v.wrapIf ty.isNullable).isOf ty = true := by
  cases ty with
  | nullable t =>
      simp only [wrapIf, Ty.isNullable, if_true, wrapped_of_isOf hty h]
      exact h
  | _ => exact h

theorem isOf_absent {ty : Ty} (h : ty.isNullable = true) : absent.isOf ty = true := by
  cases ty <;> first | rfl | cases h

/-- Numbers of one kind and truth values can be compared. -/
theorem compare_ok (op : CmpOp) {a b : Value} {ty : Ty} (hty : ty.isScalar = true)
    (ha : a.isOf ty = true) (hb : b.isOf ty = true) : ∃ c, compare op a b = .ok c := by
  cases ty <;> first | cases hty | skip
  · obtain ⟨x, rfl⟩ := isOf_bool ha
    obtain ⟨y, rfl⟩ := isOf_bool hb
    exact ⟨_, rfl⟩
  · obtain ⟨x, rfl, hx⟩ := isOf_num ha
    obtain ⟨y, rfl, hy⟩ := isOf_num hb
    obtain ⟨o, ho⟩ := Num.order_ok (hx.trans hy.symm)
    exact ⟨_, by simp only [compare, ho]; rfl⟩

end Value

/-- A basic type that fits a basic node is its type, or the type inside. -/
theorem Registry.eq_of_isAssignable {r : Registry} {source target : Ty} (h : target.isBasic = true)
    (hfits : r.isAssignable source target = true) : source = target := by
  unfold isAssignable at hfits
  split at hfits
  · assumption
  · split at hfits
    · cases h
    · cases h
    · cases hfits

/-! ## Operands -/

/-- How the types of the operands of an operator are related. -/
inductive OperandKind where
  /-- Two integers, of any kinds. -/
  | shift
  /-- Two numbers of one kind. -/
  | number
  /-- Two values of one type. -/
  | alike

theorem Ty.isScalar_cases {ty : Ty} (h : ty.isScalar = true) : ty = .bool ∨ ∃ k, ty = .num k := by
  cases ty <;> first | exact .inl rfl | exact .inr ⟨_, rfl⟩ | cases h

namespace BinaryOp

/-- How the types of the operands of an operator on scalars are related. -/
def operandKind : BinaryOp → OperandKind
  | shl | shr => .shift
  | add | sub | mul | div | rem => .number
  | _ => .alike

variable {op : BinaryOp} {left right : Ty}

/-- Integers are shifted by integers. -/
theorem accepts_shift (hleft : left.isScalar = true) (hright : right.isScalar = true)
    (hkind : op.operandKind = .shift) (h : op.accepts left right = true) :
    ∃ j k, left = .num j ∧ right = .num k := by
  cases op with
  | shl | shr =>
      rcases Ty.isScalar_cases hleft with rfl | ⟨j, rfl⟩
      · cases h
      · rcases Ty.isScalar_cases hright with rfl | ⟨k, rfl⟩
        · simp [accepts, Ty.underlying, Ty.isIntegral, Ty.numKind?] at h
        · exact ⟨j, k, rfl, rfl⟩
  | _ => cases hkind

/-- Numbers of one kind are added and multiplied. -/
theorem accepts_number (hleft : left.isScalar = true) (hright : right.isScalar = true)
    (hkind : op.operandKind = .number) (h : op.accepts left right = true) :
    ∃ k, left = .num k ∧ right = .num k := by
  cases op with
  | add | sub | mul | div | rem =>
      rcases Ty.isScalar_cases hleft with rfl | ⟨j, rfl⟩ <;>
        rcases Ty.isScalar_cases hright with rfl | ⟨k, rfl⟩ <;>
          simp [accepts, Ty.underlying, Ty.isNum] at h
      exact ⟨j, rfl, by rw [h]⟩
  | _ => cases hkind

/-- Values of one type are compared and combined. -/
theorem accepts_alike (hleft : left.isScalar = true) (hright : right.isScalar = true)
    (hkind : op.operandKind = .alike) (h : op.accepts left right = true) : left = right := by
  rcases Ty.isScalar_cases hleft with rfl | ⟨j, rfl⟩ <;>
    rcases Ty.isScalar_cases hright with rfl | ⟨k, rfl⟩
  · rfl
  · cases op with
    | shl | shr | add | sub | mul | div | rem => cases hkind
    | _ => simp [accepts, Ty.underlying, Ty.isReference] at h
  · cases op with
    | shl | shr | add | sub | mul | div | rem => cases hkind
    | _ => simp [accepts, Ty.underlying, Ty.isReference] at h
  · cases op with
    | shl | shr | add | sub | mul | div | rem => cases hkind
    | and | or | xor | lt | le | gt | ge =>
        simp only [accepts, Ty.underlying, Bool.and_eq_true] at h
        exact of_decide_eq_true h.1
    | eq | ne => simpa [accepts, Ty.underlying, Ty.isReference] using h

end BinaryOp

/-! ## Actions on values -/

/-- Values are of their types, and traps are faults. -/
def Regime.typed : Regime := ⟨fun ty v => v.isOf ty = true, Trap.IsFault⟩

namespace Run

variable {α : Type} {r : Registry}

/-- A raised fault throws its exception, with its message. -/
theorem raise_throws (hr : r.HasFaults) (f : Fault) (s : State) :
    ∃ e t, (raise r f : Run α) s = .error e t ∧ e.Throws f t.heap := by
  have hzeros : [Ty.str].mapM r.zero = .ok [.null] := rfl
  have halloc : allocObject r (Registry.exceptionType f) s =
      .ok s.heap.objects.size { s with
        heap := (s.heap.newObject ⟨Registry.exceptionType f, #[.null]⟩).2 } := by
    simp only [allocObject, hr.layout f, ofLookup]
    change (do
      let fields ← ofLookup ([Ty.str].mapM r.zero)
      modifyGet fun s => (s.heap.objects.size, { s with
        heap := (s.heap.newObject ⟨Registry.exceptionType f, fields.toArray⟩).2 }) : Run Ref) s = _
    rw [hzeros]
    rfl
  have hraise : (raise r f : Run α) s = .error (.thrown s.heap.objects.size) { s with
      heap := (s.heap.newObject ⟨Registry.exceptionType f, #[.null]⟩).2.setField
        s.heap.objects.size 0 (.str f.message) } := by
    change EStateM.bind (allocObject r (Registry.exceptionType f)) _ s = _
    simp only [EStateM.bind, halloc]
    rfl
  refine ⟨_, _, hraise, _, rfl, ?_, ?_⟩
  · simp [Heap.objectType?, Heap.setField, Heap.newObject, Array.getElem_modify]
  · simp [Heap.field?, Heap.setField, Heap.newObject, Array.getElem_modify]

/-- A raised fault is one. -/
theorem gives_raise (hr : r.HasFaults) (f : Fault) {post : α → Prop} :
    Gives Trap.IsFault (raise r f : Run α) post := by
  intro s
  obtain ⟨e, t, hraise, he⟩ := raise_throws (α := α) hr f s
  rw [hraise]
  exact ⟨f, he⟩

theorem gives_ofNumeric (hr : r.HasFaults) {k : NumKind} {e : Except NumFault Num} (h : k.Yields e) :
    Gives Trap.IsFault (ofNumeric r e) fun n => n.kind = k := by
  cases e with
  | ok n => exact .pure h
  | error f => rcases h with rfl | rfl <;> exact gives_raise hr _

theorem gives_num {k : NumKind} {x : Run Num} (hx : Gives Trap.IsFault x fun n => n.kind = k) :
    Gives Trap.IsFault (do pure (Value.num (← x))) fun v => v.isOf (.num k) = true :=
  .bind hx fun n hn => .pure (by simpa [Value.isOf] using hn)

/-- Arithmetic on numbers of one kind. -/
theorem gives_arithValues (hr : r.HasFaults) {k : NumKind} {a b : Value}
    (ha : a.isOf (.num k) = true) (hb : b.isOf (.num k) = true) (op : ArithOp) (checked : Bool) :
    Gives Trap.IsFault (arithValues r op checked a b) fun v => v.isOf (.num k) = true := by
  obtain ⟨x, rfl, hx⟩ := Value.isOf_num ha
  obtain ⟨y, rfl, hy⟩ := Value.isOf_num hb
  exact gives_num (gives_ofNumeric hr (Num.yields_arith op hx hy checked))

/-- A comparison of values of one type. -/
theorem gives_compareValues {ty : Ty} (hty : ty.isScalar = true) {a b : Value}
    (ha : a.isOf ty = true) (hb : b.isOf ty = true) (op : CmpOp) :
    Gives Trap.IsFault (compareValues op a b) fun v => v.isOf .bool = true := by
  obtain ⟨c, hc⟩ := Value.compare_ok op hty ha hb
  simp only [compareValues, hc]
  exact fun _ => rfl

/-- A bitwise operation on values of one type. -/
theorem gives_bitwise (hr : r.HasFaults) {ty : Ty} (hty : ty.isScalar = true) {a b : Value}
    (ha : a.isOf ty = true) (hb : b.isOf ty = true) (op : BitOp) (hop : op.isShift = false) :
    Gives Trap.IsFault (bitwise r op a b) fun v => v.isOf ty = true := by
  cases ty <;> first | cases hty | skip
  · obtain ⟨x, rfl⟩ := Value.isOf_bool ha
    obtain ⟨y, rfl⟩ := Value.isOf_bool hb
    cases op <;> first | exact .pure rfl | cases hop
  · obtain ⟨x, rfl, rfl⟩ := Value.isOf_num ha
    obtain ⟨y, rfl, hy⟩ := Value.isOf_num hb
    exact gives_num (gives_ofNumeric hr
      (Num.yields_bitwise hty (by rw [hy]; exact hty) (.inr hy.symm)))

/-- A shift of an integer by an integer. -/
theorem gives_shift (hr : r.HasFaults) {j k : NumKind} (hj : j.isIntegral = true)
    (hk : k.isIntegral = true) {a b : Value} (ha : a.isOf (.num j) = true)
    (hb : b.isOf (.num k) = true) (op : BitOp) (hop : op.isShift = true) :
    Gives Trap.IsFault (bitwise r op a b) fun v => v.isOf (.num j) = true := by
  obtain ⟨x, rfl, rfl⟩ := Value.isOf_num ha
  obtain ⟨y, rfl, rfl⟩ := Value.isOf_num hb
  exact gives_num (gives_ofNumeric hr (Num.yields_bitwise hj hk (.inl hop)))

/-- What is inside an optional. -/
theorem gives_payloadOf (hr : r.HasFaults) {ty : Ty} (hty : ty.isBasic = true) {v : Value}
    (hv : v.isOf ty = true) :
    Gives Trap.IsFault (payloadOf r v) fun x => x.isOf ty.underlying = true := by
  cases ty with
  | nullable t =>
      cases v with
      | present x => exact .pure hv
      | absent => exact gives_raise hr _
      | _ => cases hv
  | bool =>
      obtain ⟨b, rfl⟩ := Value.isOf_bool hv
      exact .pure rfl
  | num k =>
      obtain ⟨n, rfl, -⟩ := Value.isOf_num hv
      exact .pure hv
  | _ => cases hty

/-- A unary operator on a value of a type that it accepts. -/
theorem gives_unaryValue (hr : r.HasFaults) {op : UnaryOp} {ty : Ty} (hty : ty.isScalar = true)
    (hop : op.accepts ty = true) {v : Value} (hv : v.isOf ty = true) (checked : Bool) :
    Gives Trap.IsFault (unaryValue r op checked ty v) fun y => y.isOf ty = true := by
  cases ty <;> first | cases hty | skip
  · obtain ⟨b, rfl⟩ := Value.isOf_bool hv
    cases op <;> first | exact .pure rfl | cases hop
  · next k =>
      have hone : Value.isOf (.num (.one k)) (.num k) = true := by
        cases k <;> simp [Value.isOf, Num.one, Num.kind]
      cases op with
      | plus => exact .pure hv
      | negate =>
          obtain ⟨n, rfl, rfl⟩ := Value.isOf_num hv
          exact gives_num (gives_ofNumeric hr (Num.yields_neg n checked))
      | not =>
          obtain ⟨n, rfl, rfl⟩ := Value.isOf_num hv
          exact gives_num (gives_ofNumeric hr (Num.yields_complement hty))
      | increment => exact gives_arithValues hr hv hone .add checked
      | decrement => exact gives_arithValues hr hv hone .sub checked
      | isTrue | isFalse => cases hop

/-- A binary operator on values of types that it accepts. -/
theorem gives_binaryValue (hr : r.HasFaults) {op : BinaryOp} {left right : Ty}
    (hleft : left.isScalar = true) (hright : right.isScalar = true)
    (hop : op.accepts left right = true) {a b : Value} (ha : a.isOf left = true)
    (hb : b.isOf right = true) (checked : Bool) :
    Gives Trap.IsFault (binaryValue r op checked left a b) fun v =>
      v.isOf (if op.isComparison then .bool else left) = true := by
  cases hkind : op.operandKind with
  | shift =>
      obtain ⟨j, k, rfl, rfl⟩ := BinaryOp.accepts_shift hleft hright hkind hop
      cases op with
      | shl => exact gives_shift hr hleft hright ha hb .shl rfl
      | shr => exact gives_shift hr hleft hright ha hb .shr rfl
      | _ => cases hkind
  | number =>
      obtain ⟨k, rfl, rfl⟩ := BinaryOp.accepts_number hleft hright hkind hop
      cases op with
      | add => exact gives_arithValues hr ha hb .add checked
      | sub => exact gives_arithValues hr ha hb .sub checked
      | mul => exact gives_arithValues hr ha hb .mul checked
      | div => exact gives_arithValues hr ha hb .div false
      | rem => exact gives_arithValues hr ha hb .rem false
      | _ => cases hkind
  | alike =>
      obtain rfl := BinaryOp.accepts_alike hleft hright hkind hop
      cases op with
      | and => exact gives_bitwise hr hleft ha hb .and rfl
      | or => exact gives_bitwise hr hleft ha hb .or rfl
      | xor => exact gives_bitwise hr hleft ha hb .xor rfl
      | eq => exact gives_compareValues hleft ha hb .eq
      | ne => exact gives_compareValues hleft ha hb .ne
      | lt => exact gives_compareValues hleft ha hb .lt
      | le => exact gives_compareValues hleft ha hb .le
      | gt => exact gives_compareValues hleft ha hb .gt
      | ge => exact gives_compareValues hleft ha hb .ge
      | _ => cases hkind

end Run

/-! ## Nodes -/

theorem Ty.isNullable_underlying {ty : Ty} (h : ty.isBasic = true) :
    ty.underlying.isNullable = false := by
  unfold isBasic at h
  cases hty : ty.underlying <;> first | rfl | (rw [hty] at h; cases h)

theorem Ty.isReference_of_isBasic {ty : Ty} (h : ty.isBasic = true) :
    ty.isReference = false ∧ ty ≠ .object := by
  cases ty with
  | bool | num _ | nullable _ => exact ⟨rfl, fun h => nomatch h⟩
  | _ => cases h

theorem Ty.underlying_underlying {ty : Ty} (h : ty.isBasic = true) :
    ty.underlying.underlying = ty.underlying :=
  Ty.underlying_eq_self (isNullable_underlying h)

/-- Operators on basic operands look at what is inside only. -/
theorem BinaryOp.accepts_underlying {op : BinaryOp} {left right : Ty} (hleft : left.isBasic = true)
    (hright : right.isBasic = true) :
    op.accepts left.underlying right.underlying = op.accepts left right := by
  have hl := Ty.isReference_of_isBasic hleft
  have hr := Ty.isReference_of_isBasic hright
  have hl' := Ty.isReference_of_isBasic (Ty.isBasic_underlying hleft)
  have hr' := Ty.isReference_of_isBasic (Ty.isBasic_underlying hright)
  cases op with
  | eq | ne =>
      simp only [accepts, Ty.underlying_underlying hleft, Ty.underlying_underlying hright, hl.1, hl'.1,
        hl.2, hl'.2, hr.2, hr'.2, Bool.false_and]
  | _ => simp only [accepts, Ty.underlying_underlying hleft, Ty.underlying_underlying hright]

namespace Regime.typed

open Eval

variable {setting : Setting} {ctx : Context} {d l r : Meaning} {ty : Ty}

/-- The default of a basic type is of the type. -/
theorem provides {r : Registry} (hty : ty.isBasic = true) : Regime.typed.Provides r ty := by
  have hzero : ty.isValueType = true ∧ ∃ v, r.zero ty = .ok v ∧ v.isOf ty = true := by
    cases ty with
    | bool => exact ⟨rfl, _, rfl, rfl⟩
    | num k => exact ⟨rfl, _, rfl, decide_eq_true (Num.kind_zero k)⟩
    | nullable t => exact ⟨rfl, _, rfl, rfl⟩
    | _ => cases hty
  obtain ⟨hvalue, v, hv, hof⟩ := hzero
  intro ctx
  simp only [Eval.defaultOf, hvalue, if_true, hv]
  exact .lift (.pure hof)

/-- A branch that fits a basic node is of the type of the node. -/
theorem widens {r : Registry} {source target : Ty} (htarget : target.isBasic = true)
    (hfits : r.fitsBranch source target) : Regime.typed.Widens source target := by
  intro v hv
  rcases hfits with hfits | ⟨hnullable, hfits⟩
  · obtain rfl := Registry.eq_of_isAssignable htarget hfits
    simpa [Value.wrapIf] using hv
  · subst hfits
    rw [Ty.isNullable_underlying htarget, Bool.not_false, Bool.and_true]
    exact Value.isOf_wrapIf (Ty.isPrimitive_underlying htarget) hv

/-- A value assigned to a variable of a basic type is of the type. -/
theorem coerced {r : Registry} {source target : Ty} (htarget : target.isBasic = true)
    (hfits : source = target ∨ (target.isNullable = true ∧ target.underlying = source) ∨
      r.isAssignable source target = true) {v : Value} (hv : v.isOf source = true) :
    (Eval.coerced source target v).isOf target = true := by
  have hfits : source = target ∨ (target.isNullable = true ∧ target.underlying = source) := by
    rcases hfits with h | h | h
    · exact .inl h
    · exact .inr h
    · exact .inl (Registry.eq_of_isAssignable htarget h)
  unfold Eval.coerced
  split
  · next hsame => exact hsame ▸ hv
  · next hdiffer =>
      obtain ⟨hnullable, rfl⟩ := hfits.resolve_left hdiffer
      rw [if_pos (by simp [hnullable])]
      have hwrapped := Value.isOf_wrapIf (Ty.isPrimitive_underlying htarget) hv
      simpa only [Value.wrapIf, hnullable, if_true] using hwrapped

/-- A unary operator on an operand that it accepts. -/
theorem unary (hr : setting.registry.HasFaults) (hd : d.Obeys .typed ctx) (hty : d.ty.isBasic = true)
    {op : UnaryOp} (hop : op.accepts d.ty = true) (checked exits : Bool) :
    Ensures .typed ctx (unary setting op d checked d.ty exits) (Result.Fits .typed d.ty) := by
  refine .bind (hd.value exits) fun v hv => ?_
  obtain ⟨hpresent, habsent⟩ := Value.isOf_payloadAt? hv
  split
  · next x hx =>
      have hop : op.accepts d.ty.underlying = true := by
        simpa [UnaryOp.accepts, Ty.underlying_underlying hty] using hop
      refine .bind (.lift (Run.gives_unaryValue hr hty hop (hpresent x hx) checked)) fun y hy => ?_
      exact .yield (Value.isOf_wrapIf (Ty.isPrimitive_underlying hty) hy)
  · next hx =>
      rw [habsent hx, if_pos rfl]
      exact .yield (Value.isOf_absent (habsent hx))

/-- The result of an operator of which an operand is absent. -/
theorem onAbsent {op : BinaryOp} {inner : Ty}
    (hinner : ty.underlying = if op.isComparison then .bool else inner)
    (habsent : op.isComparison = false → ty.isNullable = true) (o : Options) (both : Bool) :
    (op.onAbsent o ty both).isOf ty = true := by
  have hbool : op.isComparison = true → ∀ b, (Value.wrapIf ty.isNullable (.bool b)).isOf ty = true := by
    intro hcomparison b
    rw [if_pos hcomparison] at hinner
    refine Value.isOf_wrapIf ?_ ?_
    · rw [hinner]
      rfl
    · rw [hinner]
      rfl
  unfold BinaryOp.onAbsent
  split
  · next hequality => exact hbool (by cases op <;> first | rfl | cases hequality) _
  · split
    · next hcomparison => exact hbool (by simp_all) false
    · next hother =>
        refine Value.isOf_absent ?_
        cases hcomparison : op.isComparison with
        | false => exact habsent hcomparison
        | true =>
            simp only [hcomparison, Bool.true_and, Bool.not_eq_true', Bool.not_eq_false,
              Bool.and_eq_true] at hother
            exact hother.1

/-- A binary operator on values of types that it accepts. -/
theorem binaryOn (hr : setting.registry.HasFaults) {op : BinaryOp} {left right : Ty}
    (hleft : left.isBasic = true) (hright : right.isBasic = true)
    (hop : op.accepts left right = true) (hty : ty.isBasic = true)
    (hinner : ty.underlying = if op.isComparison then .bool else left.underlying)
    (hlifted : op.isComparison = false → left.isNullable = true ∨ right.isNullable = true →
      ty.isNullable = true) {a b : Value} (ha : a.isOf left = true) (hb : b.isOf right = true)
    (checked : Bool) :
    Ensures .typed ctx (binaryOn setting op checked left right ty a b) (Regime.typed.fits ty) := by
  obtain ⟨hapresent, haabsent⟩ := Value.isOf_payloadAt? ha
  obtain ⟨hbpresent, hbabsent⟩ := Value.isOf_payloadAt? hb
  unfold Eval.binaryOn
  split
  · next x y hx hy =>
      have hop : op.accepts left.underlying right.underlying = true :=
        (BinaryOp.accepts_underlying hleft hright).trans hop
      refine .bind (.lift (Run.gives_binaryValue hr hleft hright hop (hapresent x hx)
        (hbpresent y hy) checked)) fun v hv => .pure ?_
      rw [← hinner] at hv
      exact Value.isOf_wrapIf (Ty.isPrimitive_underlying hty) hv
  · next hnone =>
      have habsent : op.isComparison = false → ty.isNullable = true := by
        intro hcomparison
        refine hlifted hcomparison ?_
        cases hx : a.payloadAt? left with
        | none => exact .inl (haabsent hx)
        | some x =>
            cases hy : b.payloadAt? right with
            | none => exact .inr (hbabsent hy)
            | some y => exact (hnone x y hx hy).elim
      exact .pure (onAbsent hinner habsent _ _)

/-- A short-circuit operator on truth values. -/
theorem logical (hl : l.Obeys .typed ctx) (hr : r.Obeys .typed ctx)
    (hleft : l.ty.underlying = .bool) (hright : r.ty.underlying = .bool) (op : LogicalOp)
    (exits : Bool) :
    Ensures .typed ctx
      (logical op l r (if l.ty.isNullable || r.ty.isNullable then .nullable .bool else .bool) exits)
      (Result.Fits .typed
        (if l.ty.isNullable || r.ty.isNullable then .nullable .bool else .bool)) := by
  have hwrap : ∀ {d : Meaning} {v : Value}, d.ty.underlying = .bool → v.isOf d.ty = true →
      (v.wrapIf !d.ty.isNullable).isOf (.nullable .bool) = true := by
    intro d v hd hv
    cases hty : d.ty <;> rw [hty] at hd hv <;> cases hd
    · obtain ⟨b, rfl⟩ := Value.isOf_bool hv
      rfl
    · exact hv
  refine .bind (hl.value exits) fun a ha => ?_
  split
  · split
    · exact .yield rfl
    · refine .bind (hr.value exits) fun b hb => ?_
      unfold Eval.combined
      split
      · exact .yield (hwrap hright hb)
      · split
        · refine .yield ?_
          split <;> rfl
        · exact .yield rfl
  · next hplain =>
      have hplain : l.ty.isNullable = false ∧ r.ty.isNullable = false := by simpa using hplain
      rw [(Ty.underlying_eq_self hplain.1).symm.trans hleft] at ha
      split
      · exact .yield ha
      · refine .bind (hr.value exits) fun b hb => .yield ?_
        rw [(Ty.underlying_eq_self hplain.2).symm.trans hright] at hb
        exact hb

/-- The left operand, or the right one where the left is absent. -/
theorem coalesce (hf : setting.registry.HasFaults) (hl : l.Obeys .typed ctx) (hr : r.Obeys .typed ctx)
    (hleft : l.ty.isBasic = true) (hnullable : l.ty.isNullable = true)
    (hright : r.ty.underlying = l.ty.underlying) (exits : Bool) :
    Ensures .typed ctx (coalesce setting l r r.ty exits) (Result.Fits .typed r.ty) := by
  refine .bind (hl.guardedValue fun _ => provides hleft) fun a ha => ?_
  split
  · refine .bind (hr.value exits) fun b hb => .yield ?_
    rw [Bool.and_assoc, Bool.and_not_self, Bool.and_false]
    exact hb
  · refine .bind (p := Regime.typed.fits r.ty) ?_ fun x hx => .yield hx
    unfold Eval.payloadIf
    cases hoptional : r.ty.isNullable with
    | false =>
        simp only [hnullable, Bool.not_false, Bool.and_true, if_true]
        rw [← Ty.underlying_eq_self hoptional, hright]
        exact .lift (Run.gives_payloadOf hf hleft ha)
    | true =>
        have hsame : l.ty = r.ty := by
          cases hlt : l.ty <;> rw [hlt] at hnullable <;> cases hnullable
          cases hrt : r.ty <;> rw [hrt] at hoptional <;> cases hoptional
          rw [hlt, hrt] at hright
          exact congrArg Ty.nullable hright.symm
        simp only [Bool.not_true, Bool.and_false, Bool.false_eq_true, if_false]
        exact .pure (hsame ▸ ha)

/-- The presence or content of an optional. -/
theorem member (hf : setting.registry.HasFaults) (hd : d.Obeys .typed ctx) (hty : d.ty.isBasic = true)
    (exits : Bool) :
    Ensures .typed ctx (member setting (some d) .hasValue .bool exits) (Result.Fits .typed .bool) ∧
      Ensures .typed ctx (member setting (some d) .value d.ty.underlying exits)
        (Result.Fits .typed d.ty.underlying) := by
  refine ⟨.bind (hd.value exits) fun v _ => .yield rfl, .bind (hd.value exits) fun v hv => ?_⟩
  split
  · exact .exit
  · exact .bind (.lift (Run.gives_payloadOf hf hty hv)) fun x hx => .yield hx

/-- A conversion between numeric types. -/
theorem convert (hf : setting.registry.HasFaults) (hd : d.Obeys .typed ctx)
    {source target : NumKind} (hsource : d.ty.underlying = .num source)
    (htarget : ty.underlying = .num target) (hdty : d.ty.isBasic = true) (hty : ty.isBasic = true)
    (checked exits : Bool) :
    Ensures .typed ctx (convert setting d checked ty exits) (Result.Fits .typed ty) := by
  have hnum : ∀ v : Value, v.isOf (.num source) = true →
      Ensures .typed ctx (convertNum setting source target checked v)
        (Regime.typed.fits ty.underlying) := by
    intro v hv
    unfold Eval.convertNum
    split
    · next hsame =>
        rw [htarget, ← hsame]
        exact .pure hv
    · obtain ⟨n, rfl, -⟩ := Value.isOf_num hv
      rw [htarget]
      exact .lift (Run.gives_num (Run.gives_ofNumeric hf (Num.yields_convert n target checked)))
  simp only [Eval.convert, hsource, htarget, Ty.numKind?]
  refine .bind (hd.value exits) fun v hv => ?_
  split
  · next hboth =>
      simp only [Bool.and_eq_true] at hboth
      have hpresent := (Value.isOf_payloadAt? hv).1
      simp only [Value.payloadAt?, hboth.1, if_true, hsource] at hpresent
      split
      · next x hx =>
          refine .bind (hnum x (hpresent x hx)) fun y hy => .yield ?_
          have hwrapped := Value.isOf_wrapIf (Ty.isPrimitive_underlying hty) hy
          rw [Value.wrapIf, if_pos hboth.2] at hwrapped
          exact hwrapped
      · exact .yield (Value.isOf_absent hboth.2)
  · refine .bind (p := fun x => x.isOf (.num source) = true) ?_ fun x hx =>
      .bind (hnum x hx) fun y hy => .yield (Value.isOf_wrapIf (Ty.isPrimitive_underlying hty) hy)
    unfold Eval.payloadIf
    split
    · rw [← hsource]
      exact .lift (Run.gives_payloadOf hf hdty hv)
    · next hplain =>
        have hplain : d.ty.isNullable = false := by simpa using hplain
        rw [← hsource, Ty.underlying_eq_self hplain]
        exact .pure hv

/-- The value one step away. -/
theorem stepped (hf : setting.registry.HasFaults) (hty : ty.isBasic = true) {k : NumKind}
    (hk : ty.underlying = .num k) {old : Value} (hold : old.isOf ty = true) (op : ArithOp)
    (checked : Bool) :
    Ensures .typed ctx (stepped setting op k checked ty old) (Regime.typed.fits ty) := by
  obtain ⟨hpresent, habsent⟩ := Value.isOf_payloadAt? hold
  have hone : Value.isOf (.num (.one k)) (.num k) = true := by
    cases k <;> simp [Value.isOf, Num.one, Num.kind]
  unfold Eval.stepped
  split
  · next hx => exact .pure (Value.isOf_absent (habsent hx))
  · next x hx =>
      have hx := hpresent x hx
      rw [hk] at hx
      refine .bind (.lift (Run.gives_arithValues hf hx hone op checked)) fun y hy => .pure ?_
      rw [← hk] at hy
      exact Value.isOf_wrapIf (Ty.isPrimitive_underlying hty) hy

end Regime.typed

/-! ## Trees -/

theorem Node.Requires.of {setting : Setting} {n : Node} {P : Prop} (h : P) : n.Requires setting P :=
  fun _ _ _ => .of h

namespace Tree

/-- What is inside the type of a binary operator, and when it is an optional. -/
theorem binary_ty {op : BinaryOp} {left right : Expr} {ty : Ty}
    (hl : op.isComparison = false → left.ty.underlying.isNullable = false)
    (hty : ty = (binary op left right).ty ∨
      op.isComparison = true ∧ ty = (compareLifted op left right).ty) :
    (ty.underlying = if op.isComparison then .bool else left.ty.underlying) ∧
      (op.isComparison = false → left.ty.isNullable = true ∨ right.ty.isNullable = true →
        ty.isNullable = true) := by
  rcases hty with rfl | ⟨hcomparison, rfl⟩
  · change Ty.underlying (if op.isComparison then .bool
        else if lifts left right then left.ty.underlying.optional else left.ty) = _ ∧ _
    cases hcomparison : op.isComparison with
    | true => exact ⟨rfl, fun h => nomatch h⟩
    | false =>
        have hoptional : left.ty.underlying.optional.underlying = left.ty.underlying ∧
            left.ty.underlying.optional.isNullable = true := by
          have hl := hl hcomparison
          cases hty : left.ty.underlying <;> rw [hty] at hl <;>
            first | exact ⟨rfl, rfl⟩ | cases hl
        simp only [Bool.false_eq_true, if_false]
        refine ⟨?_, fun _ hlifted => ?_⟩
        · split
          · exact hoptional.1
          · rfl
        · change (if op.isComparison then Ty.bool
            else if lifts left right then left.ty.underlying.optional else left.ty).isNullable = true
          have hlifts : lifts left right = true := by simpa [lifts] using hlifted
          rw [hcomparison, hlifts]
          exact hoptional.2
  · rw [hcomparison]
    exact ⟨rfl, fun h => nomatch h⟩

end Tree

namespace Expr.Scalar

variable {setting : Setting} {ctx : Context}

end Expr.Scalar

/-! ## Functions -/

namespace Lambda

/-- Arguments of the types of the parameters. -/
def Takes (l : Lambda Expr) (args : List Value) : Prop :=
  List.Forall₂ (fun v x => x.isOf v.ty = true) l.params args

/-- A value of the return type, or null where nothing is returned. -/
def Returns (l : Lambda Expr) (v : Value) : Prop :=
  if l.ret.isVoid then v = .null else v.isOf l.ret = true

/-- The variables at the start of a call are of their types. -/
theorem Takes.fits {l : Lambda Expr} {args : List Value} (h : l.Takes args) (heap : Heap)
    (st : Statics) : World.Fits ⟨heap, st, l.bound args⟩ .typed (Context.add [] l.params) := by
  have hbound : ∀ {params : List Variable} {args : List Value},
      List.Forall₂ (fun (v : Variable) (x : Value) => x.isOf v.ty = true) params args →
      let bound := (params.zip args).map fun x => (x.1.id, x.1.ty, x.2)
      bound.map (fun x => (x.1, x.2.1)) = params.map (fun v => (v.id, v.ty)) ∧
        ∀ x ∈ bound, x.2.2.isOf x.2.1 = true := by
    intro params args h
    induction h with
    | nil => exact ⟨rfl, fun _ hx => by cases hx⟩
    | cons hx h ih =>
        simp only [List.zip_cons_cons, List.map_cons, List.forall_mem_cons]
        exact ⟨by rw [ih.1], hx, ih.2⟩
  obtain ⟨hvars, hfits⟩ := hbound h
  refine ⟨?_, fun x hx => hfits x (List.mem_reverse.mp hx)⟩
  simp only [World.Has, Lambda.bound, Context.add, List.map_reverse, List.append_nil, hvars]

end Lambda

namespace Machine

/-- What a call may show: a value of the return type, or the exception of a fault. -/
def Sound (l : Lambda Expr) : Except RuntimeError Value → Prop
  | .ok v => l.Returns v
  | .error e => ∃ f : Fault, e = .unhandled f.typeName f.message (some f)

/-- Divides an optional integer by an integer. -/
def quotient : Lambda Expr :=
  let x : Variable := ⟨0, "x", .nullable .int⟩
  let y : Variable := ⟨1, "y", .int⟩
  ⟨"quotient", [x, y], .nullable .int, Tree.binary .div (Tree.var x) (Tree.var y), ⟨false, false⟩⟩

end Machine

end Arbor
