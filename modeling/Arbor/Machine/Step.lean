/-
  One instruction.  Calls of routines and of methods of the host go through the
  parameter `call`, so a step needs no recursion of its own.
-/
import Arbor.Machine.Intrinsics
import Arbor.Bucket

set_option autoImplicit false

namespace Arbor

/-- Where control goes after an instruction. -/
inductive Flow where
  | next
  | jump (pc : Nat)
  /-- Jump out of protected regions. -/
  | leave (pc : Nat)
  | ret (value : Value)
  | endFinally
  | endFilter (verdict : Bool)

/-- How a routine or a method of the host is called with all of its arguments. -/
abbrev Caller := Callee → List Value → Run Value

namespace Run

/-! ## Calls -/

/-- Calls a function value. -/
def callValue (r : Registry) (call : Caller) (f : Value) (args : List Value) : Run Value := do
  match f with
  | .func ref =>
      match (← get).heap.functions[ref]? with
      | some c => call (.routine c.routine) (c.captured ++ args)
      | none => invalid (.notCallable f)
  | .null => raise r .nullReference
  | v => invalid (.notCallable v)

/-- Runs the body of a method. -/
def runBody (r : Registry) (call : Caller) (body : MethodBody) (kind : MethodKind)
    (args : List Value) : Run Value :=
  let isStatic := kind == .static || kind == .extension
  match body with
  | .host method => call (.host method) args
  | .routine routine => call (.routine routine) args
  | .empty => pure .null
  | .getter f => if isStatic then loadStatic r f else loadField r (args.headD .null) f
  | .setter f => do
      let v := args.getLastD .null
      if isStatic then storeStatic f v
      else storeField r (args.dropLast.headD .null) f v
      pure .null

/-- Calls a method or intrinsic with its arguments, the receiver first. -/
def callMethod (r : Registry) (call : Caller) (m : MethodRef) (args : List Value) : Run Value :=
  match m with
  | .intrinsic op => intrinsic r op args
  | .method id index => do
      let d ← ofLookup (r.method id index)
      match d.kind, args with
      | .member, .null :: _ => raise r .nullReference
      | kind, args => runBody r call d.body kind args

/-- Creates an instance from constructor arguments on the stack.  A constructor of a class changes
the instance; one of a struct yields the value. -/
def construct (r : Registry) (call : Caller) (m : MethodRef) : Run Value :=
  match m with
  | .intrinsic _ => invalid .constructorRequired
  | .method id index => do
      let d ← ofLookup (r.method id index)
      if d.kind ≠ .ctor then invalid (.notConstructor m)
      else
        let args ← popN d.params.length
        let own ← ofLookup (r.tyOf id)
        let fresh ←
          match own with
          | .structTy _ => ofLookup (r.zero own)
          | _ => do pure (Value.object (← allocObject r id))
        match ← runBody r call d.body d.kind (fresh :: args) with
        | .struct ty fields => pure (.struct ty fields)
        | _ => pure fresh

/-! ## Instructions -/

/-- Instruction index of a label. -/
def target (routine : Routine) (l : Label) : Run Nat :=
  match routine.target? l with
  | some pc => pure pc
  | none => invalid (.unknownLabel routine.name l)

/-- A child of a routine. -/
def child (routine : Routine) (index : Nat) : Run Routine :=
  match routine.children[index]? with
  | some c => pure c
  | none => invalid (.missingChild routine.name index)

/-- Jumps to a label when the condition holds. -/
def jumpWhen (routine : Routine) (condition : Bool) (l : Label) : Run Flow := do
  if condition then pure (.jump (← target routine l)) else pure .next

/-- Bitwise operation on numbers or on truth values. -/
def bitwise (r : Registry) (op : BitOp) (a b : Value) : Run Value :=
  match a, b with
  | .bool x, .bool y =>
      match op with
      | .and => pure (.bool (x && y))
      | .or => pure (.bool (x || y))
      | .xor => pure (.bool (x != y))
      | .shl | .shr => invalid .booleanShift
  | .num x, .num y => do pure (.num (← ofNumeric r (Num.bitwise op x y)))
  | a, b => invalid (.bitwiseOperands a b)

/-- Complement of a number or negation of a truth value. -/
def complement (r : Registry) (v : Value) : Run Value :=
  match v with
  | .bool b => pure (.bool !b)
  | .num n => do pure (.num (← ofNumeric r n.complement))
  | v => invalid (.notNegatable v)

/-- The key that a switch value is hashed by. -/
def switchKey (v : Value) : Run SwitchKey :=
  match v with
  | .num n => pure (.int n.toIndex)
  | .bool b => pure (.bool b)
  | .str s => pure (.text s)
  | v => invalid (.notHashable v)

/-- Pushes a value and goes on. -/
def pushNext (v : Value) : Run Flow := do
  push v
  pure .next

/-- Throws what a `throw` instruction popped. -/
def throwValue {α : Type} (r : Registry) (v : Value) : Run α := do
  match v with
  | .object ref =>
      match (← get).heap.objectType? ref with
      | some ty => if r.isException ty then throw (.thrown ref) else invalid (.notThrowable v)
      | none => invalid (.notThrowable v)
  | .null => raise r .nullReference
  | v => invalid (.notThrowable v)

/-- The exception that the latest active handler is handling. -/
def handled : Run Ref := fun s =>
  match s.frames with
  | [] => .error (.invalid .noFrame) s
  | f :: _ =>
      match f.handling with
      | (_, ref) :: _ => .ok ref s
      | [] => .error (.invalid .strayRethrow) s

/-- Executes one instruction of a routine. -/
def step (r : Registry) (call : Caller) (routine : Routine) (i : Instr) : Run Flow := do
  match i with
  | .nop => pure .next
  | .const c => pushNext (.ofLiteral c)
  | .loadDefault t => pushNext (← ofLookup (r.zero t))
  | .loadArg n => pushNext (← loadArg n)
  | .loadArgAddr n => pushNext (.addr (.arg (← currentFrame) n))
  | .storeArg n => do
      let v ← pop
      storeArg n v
      pure .next
  | .loadLocal n => pushNext (← loadLocal n)
  | .loadLocalAddr n => pushNext (.addr (.local (← currentFrame) n))
  | .storeLocal n => do
      let v ← pop
      storeLocal n v
      pure .next
  | .dup => do
      let v ← pop
      push v
      pushNext v
  | .pop => do
      let _ ← pop
      pure .next
  | .arith op checked => do
      let b ← popNum
      let a ← popNum
      pushNext (.num (← ofNumeric r (Num.arith op a b checked)))
  | .bitwise op => do
      let b ← pop
      let a ← pop
      pushNext (← bitwise r op a b)
  | .neg checked => do
      let a ← popNum
      pushNext (.num (← ofNumeric r (a.neg checked)))
  | .not => do
      let v ← pop
      pushNext (← complement r v)
  | .conv k checked => do
      let a ← popNum
      pushNext (.num (← ofNumeric r (a.convert k checked)))
  | .compare op => do
      let b ← pop
      let a ← pop
      pushNext (.bool (← ofCompare (Value.compare op a b)))
  | .jump l => do pure (.jump (← target routine l))
  | .jumpIfTrue l => do
      let v ← pop
      jumpWhen routine v.isTruthy l
  | .jumpIfFalse l => do
      let v ← pop
      jumpWhen routine (!v.isTruthy) l
  | .jumpIfAbsent l => do
      let v ← pop
      jumpWhen routine v.isAbsent l
  | .jumpIfPresent l => do
      let v ← pop
      jumpWhen routine (!v.isAbsent) l
  | .switch ls => do
      let n ← popIndex
      match (if 0 ≤ n then ls[n.toNat]? else none) with
      | some l => pure (.jump (← target routine l))
      | none => pure .next
  | .leave l => do pure (.leave (← target routine l))
  | .endFinally => pure .endFinally
  | .endFilter => do
      let v ← pop
      pure (.endFilter v.isTruthy)
  | .throw => do
      let v ← pop
      throwValue r v
  | .rethrow => do
      let ref ← handled
      throw (.thrown ref)
  | .ret =>
      if routine.ret.isVoid then pure (.ret .null)
      else do
        let v ← pop
        pure (.ret v)
  | .newObject m => pushNext (← construct r call m)
  | .initObject t => do
      let a ← popAddr r
      let v ← ofLookup (r.zero t)
      storeAddr r a v
      pure .next
  | .loadField f => do
      let receiver ← pop
      pushNext (← loadField r receiver f)
  | .loadFieldAddr f => do
      let slot ← ofLookup (r.fieldSlot f)
      let receiver ← pop
      pushNext (.addr (← fieldAddr r receiver slot))
  | .storeField f => do
      let v ← pop
      let receiver ← pop
      storeField r receiver f v
      pure .next
  | .loadStatic f => pushNext (← loadStatic r f)
  | .loadStaticAddr f => pushNext (.addr (.static f))
  | .storeStatic f => do
      let v ← pop
      storeStatic f v
      pure .next
  | .call m => do
      let sig ← ofLookup (r.signature m)
      let args ← popN sig.arity
      let v ← callMethod r call m args
      if sig.ret.isVoid then pure .next else pushNext v
  | .callChild n => do
      let c ← child routine n
      let args ← popN c.params.length
      let v ← call (.routine c) args
      if c.ret.isVoid then pure .next else pushNext v
  | .newArray t => do
      let n ← popIndex
      pushNext (← newArray r t [n])
  | .newMdArray t rank => do
      let bounds ← popN rank
      match bounds.mapM Value.toIndex? with
      | some dims => pushNext (← newArray r t dims)
      | none => invalid .boundNotInteger
  | .newList t => do
      let v ← modifyGet fun s =>
        let (v, heap) := s.heap.newList ⟨t, #[]⟩
        (v, { s with heap := heap })
      pushNext v
  | .loadLength => do
      let (_, c) ← arrayCell r (← pop) .notLengthy
      pushNext (.int c.size)
  | .loadElem => do
      let index ← popIndex
      let a ← elementAddr r (← pop) index
      pushNext (← loadAddr r a)
  | .loadElemAddr => do
      let index ← popIndex
      pushNext (.addr (← elementAddr r (← pop) index))
  | .storeElem => do
      let v ← pop
      let index ← popIndex
      let a ← elementAddr r (← pop) index
      storeAddr r a v
      pure .next
  | .loadIndirect => do
      let a ← popAddr r
      pushNext (← loadAddr r a)
  | .storeIndirect => do
      let v ← pop
      let a ← popAddr r
      storeAddr r a v
      pure .next
  | .optHasValue => do
      let v ← pop
      pushNext (.bool !v.isAbsent)
  | .optValueOrDefault t => do
      match ← pop with
      | .present v => pushNext v
      | .absent | .null => pushNext (← ofLookup (r.zero t))
      | v => pushNext v
  | .optValue => do
      match ← pop with
      | .present v => pushNext v
      | .absent | .null => raise r .invalidOperation
      | v => pushNext v
  | .optWrap => do
      match ← pop with
      | .present v => pushNext (.present v)
      | .absent => pushNext .absent
      | v => pushNext (.present v)
  | .isInstance t exact => do
      let v ← pop
      pushNext (if v.isInstance r (← get).heap t exact then v else .null)
  | .castClass t => do
      let v ← pop
      if v.isAbsent || v.isInstance r (← get).heap t false then pushNext v
      else raise r .invalidCast
  | .box _ => do
      let v ← pop
      pushNext v.boxed
  | .unbox t => do
      let v ← pop
      pushNext (← unbox r v t)
  | .loadFunction n => pushNext (.fnPtr (← child routine n))
  | .newInvoker n => do
      match ← pop with
      | .fnPtr c =>
          let captured ← popN n
          let v ← modifyGet fun s =>
            let (v, heap) := s.heap.newFunction ⟨c, captured⟩
            (v, { s with heap := heap })
          pushNext v
      | v => invalid (.notFunctionPointer v)
  | .callInvoker n => do
      let args ← popN n
      let f ← pop
      let heap := (← get).heap
      let returns :=
        match f with
        | .func ref => (heap.functions[ref]?).elim true fun c => !c.routine.ret.isVoid
        | _ => true
      let v ← callValue r call f args
      if returns then pushNext v else pure .next
  | .markStack slot => do
      let depth := ((← get).frames.head?.map (·.stack.length)).getD 0
      storeLocal slot (.int depth)
      pure .next
  | .resetStack slot => do
      resetToMark slot
      pure .next
  | .hashBucket size => do
      let v ← pop
      let key ← switchKey v
      pushNext (.int (Bucket.of key (max size 1)))

/-- A plain jump leads to its label. -/
theorem step_jump {r : Registry} {call : Caller} {routine : Routine} {l : Label} {landing : Nat}
    (h : routine.target? l = some landing) (s : State) :
    step r call routine (.jump l) s = .ok (.jump landing) s := by
  simp only [step, target, h]
  rfl

/-- A jump out of regions leads to its label. -/
theorem step_leave {r : Registry} {call : Caller} {routine : Routine} {l : Label} {landing : Nat}
    (h : routine.target? l = some landing) (s : State) :
    step r call routine (.leave l) s = .ok (.leave landing) s := by
  simp only [step, target, h]
  rfl

end Run

end Arbor
