/-
  Steps of a run.

  A `Run` keeps the state also when it ends abruptly, because a handler goes on
  from there.
-/
import Arbor.Registry.Lookup
import Arbor.Value.Text

set_option autoImplicit false

namespace Arbor

/-- Text of a defect. -/
def Defect.message (r : Registry) (h : Heap) : Defect → String
  | callDepth => "call depth limit exceeded"
  | argumentCount routine expected found =>
      s!"{routine} expects {expected} arguments, got {found}"
  | strayTerminator routine => s!"{routine}: handler terminator outside a handler block"
  | metadata e => e.message
  | numeric f => f.message
  | ranPast routine pc =>
      let digits := Nat.toDigits 16 pc
      s!"{routine}: control ran past IL_" ++ zeros (4 - digits.length) ++ String.ofList digits
  | unfinishedFinally => "finally block must end with endfinally"
  | noFrame => "no active frame"
  | stackUnderflow => "evaluation stack underflow"
  | notNumber v => "expected a number, found " ++ v.describe h
  | notInteger v => "expected an integer, found " ++ v.describe h
  | unknownLabel routine l => s!"{routine}: unknown label L{l.index}"
  | booleanShift => "shift of a boolean"
  | bitwiseOperands a b => "bitwise operands " ++ a.describe h ++ " and " ++ b.describe h
  | notNegatable v => "cannot negate " ++ v.describe h
  | notThrowable v => "cannot throw " ++ v.describe h
  | strayRethrow => "rethrow outside a catch block"
  | missingChild routine i => s!"{routine}: no child routine #{i}"
  | boundNotInteger => "array bound is not an integer"
  | notLengthy v => "ldlen on " ++ v.describe h
  | fieldAddressOf v => "ldflda on " ++ v.describe h
  | fieldOf v => "ldfld on " ++ v.describe h
  | fieldThroughAddress => "ldfld through a non-struct address"
  | storeFieldOf v => "stfld on " ++ v.describe h
  | missingSlot => "field slot out of range"
  | notFunctionPointer v => "newinvoker on " ++ v.describe h
  | notHashable v => "cannot hash " ++ v.describe h
  | notCallable v => "cannot call " ++ v.describe h
  | constructorRequired => "newobj requires a constructor"
  | notConstructor m => r.methodName m ++ " is not a constructor"
  | notAddress v => "expected an address, found " ++ v.describe h
  | elementOf v => "element access on " ++ v.describe h
  | dangling a => "dangling address " ++ Value.describeAddr h a
  | unordered a b => "cannot order " ++ a.describe h ++ " and " ++ b.describe h
  | operandCount op => s!"{r.intrinsicName op} expects {op.arity} operands"
  | dimensionOf v => "GetLength on " ++ v.describe h
  | textLengthOf v => "string length of " ++ v.describe h
  | notList v => "expected a list, found " ++ v.describe h
  | reported message => message

namespace Run

/-- Ends the run because of a defect. -/
def invalid {α : Type} (d : Defect) : Run α := throw (.invalid d)

/-- The result of a lookup, where a failed lookup is a defect. -/
def ofLookup {α : Type} (e : Except MetadataError α) : Run α :=
  match e with
  | .ok a => pure a
  | .error e => invalid (.metadata e)

/-! ## The heap -/

/-- Adds an object with zeroed fields; no constructor runs. -/
def allocObject (r : Registry) (ty : TypeId) : Run Ref := do
  let layout ← ofLookup (r.layout ty)
  let fields ← ofLookup (layout.mapM r.zero)
  modifyGet fun s =>
    (s.heap.objects.size, { s with heap := (s.heap.newObject ⟨ty, fields.toArray⟩).2 })

/-- Throws a new exception of the type with the message. -/
def throwNew {α : Type} (r : Registry) (ty : TypeId) (message : String) : Run α := do
  let ref ← allocObject r ty
  modify fun s => { s with heap := s.heap.setField ref 0 (.str message) }
  throw (.thrown ref)

/-- Throws the exception of a fault. -/
def raise {α : Type} (r : Registry) (f : Fault) : Run α :=
  throwNew r (Registry.exceptionType f) f.message

/-- The result of a numeric operation: overflow and division by zero are thrown, the rest are
defects. -/
def ofNumeric {α : Type} (r : Registry) (e : Except NumFault α) : Run α :=
  match e with
  | .ok a => pure a
  | .error .overflow => raise r .overflow
  | .error .divideByZero => raise r .divideByZero
  | .error f => invalid (.numeric f)

/-! ## The evaluation stack -/

/-- Changes the current frame. -/
def modifyFrame (f : Frame → Frame) : Run PUnit := fun s =>
  match s.frames with
  | [] => .error (.invalid .noFrame) s
  | frame :: rest => .ok ⟨⟩ { s with frames := f frame :: rest }

/-- Pushes a value. -/
def push (v : Value) : Run PUnit := modifyFrame fun f => { f with stack := v :: f.stack }

/-- Pops a value. -/
def pop : Run Value := fun s =>
  match s.frames with
  | [] => .error (.invalid .noFrame) s
  | frame :: rest =>
      match frame.stack with
      | [] => .error (.invalid .stackUnderflow) s
      | v :: vs => .ok v { s with frames := { frame with stack := vs } :: rest }

/-- Pops `n` values; the first pushed comes first. -/
def popN (n : Nat) : Run (List Value) := fun s =>
  match s.frames with
  | [] => .error (.invalid .noFrame) s
  | frame :: rest =>
      if frame.stack.length < n then .error (.invalid .stackUnderflow) s
      else
        .ok (frame.stack.take n).reverse
          { s with frames := { frame with stack := frame.stack.drop n } :: rest }

/-- Pops a number. -/
def popNum : Run Num := do
  match ← pop with
  | .num n => pure n
  | v => invalid (.notNumber v)

/-- Pops an integer, as a 64-bit index. -/
def popIndex : Run Int := do
  let v ← pop
  match v.toIndex? with
  | some i => pure i
  | none => invalid (.notInteger v)

/-- Pops an address. -/
def popAddr (r : Registry) : Run Addr := do
  match ← pop with
  | .addr a => pure a
  | .null => raise r .nullReference
  | v => invalid (.notAddress v)

/-- Cuts a stack, given top first, down to a depth. -/
def cut (depth : Nat) (stack : List Value) : List Value := stack.drop (stack.length - depth)

/-- The stack depth recorded in a local of a frame. -/
def markedDepth (f : Frame) (mark : Nat) : Nat :=
  (((f.locals[mark]?).bind Value.toIndex?).getD 0).toNat

/-- Cuts the evaluation stack down to the depth recorded in a local. -/
def resetToMark (mark : Nat) : Run PUnit :=
  modifyFrame fun f => { f with stack := cut (markedDepth f mark) f.stack }

end Run

/-! ## Methods of the host -/

namespace Host

/-- Calls nothing. -/
def acting (action : List Value → Run Value) : Host := fun args s => .done (action args s)

/-- Calls its first argument with the others, and ends as that call does. -/
def applying (r : Registry) : Host := fun args s =>
  match args.headD .null with
  | .func ref =>
      match s.heap.functions[ref]? with
      | some c => .call c.routine (c.captured ++ args.tail) s .done
      | none => .done (Run.invalid (.notCallable (.func ref)) s)
  | .null => .done (Run.raise r .nullReference s)
  | v => .done (Run.invalid (.notCallable v) s)

end Host

end Arbor
