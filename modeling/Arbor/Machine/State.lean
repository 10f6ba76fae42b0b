/-
  Machine states: the heap, the stack of call frames and the static fields, and
  the ways in which a step can end abruptly.

  What a method of the host does between the calls that it makes is not described
  here: it is given, for every method, as a tree that says what comes next after
  each outcome of a call.  What is relied on about it is a hypothesis of the
  statements that need it.
-/
import Arbor.Value.Basic
import Arbor.Registry.Error
import Arbor.Fault

set_option autoImplicit false

namespace Arbor

/-- Why a program is malformed.  Such a defect ends the run; no handler sees it. -/
inductive Defect where
  | callDepth
  | argumentCount (routine : String) (expected found : Nat)
  | strayTerminator (routine : String)
  | metadata (error : MetadataError)
  | numeric (fault : NumFault)
  | ranPast (routine : String) (pc : Nat)
  | unfinishedFinally
  | noFrame
  | stackUnderflow
  | notNumber (found : Value)
  | notInteger (found : Value)
  | unknownLabel (routine : String) (label : Label)
  | booleanShift
  | bitwiseOperands (left right : Value)
  | notNegatable (found : Value)
  | notThrowable (found : Value)
  | strayRethrow
  | missingChild (routine : String) (index : Nat)
  | boundNotInteger
  | notLengthy (found : Value)
  | fieldAddressOf (found : Value)
  | fieldOf (found : Value)
  | fieldThroughAddress
  | storeFieldOf (found : Value)
  | missingSlot
  | notFunctionPointer (found : Value)
  | notHashable (found : Value)
  | notCallable (found : Value)
  | constructorRequired
  | notConstructor (method : MethodRef)
  | notAddress (found : Value)
  | elementOf (found : Value)
  | dangling (addr : Addr)
  | unordered (left right : Value)
  | operandCount (op : Intrinsic)
  | dimensionOf (found : Value)
  | textLengthOf (found : Value)
  | notList (found : Value)
  /-- The host reports a defect of its own. -/
  | reported (message : String)

/-- What a run is cut short by. -/
inductive Limit where
  /-- The step budget of the run is used up. -/
  | steps
  /-- More storage is asked for than can be addressed. -/
  | storage

/-- How a step ends abruptly. -/
inductive Trap where
  /-- An exception object was thrown; handlers can catch it. -/
  | thrown (exception : Ref)
  /-- The program is malformed. -/
  | invalid (defect : Defect)
  /-- The run is cut short, whatever handlers there are. -/
  | halted (limit : Limit)

/-- The state of one call. -/
structure Frame where
  args : Array Value
  locals : Array Value
  /-- The evaluation stack, top first. -/
  stack : List Value
  /-- The exceptions that active handlers are handling, each with the position of its region; the
  latest comes first. -/
  handling : List (Nat × Ref)
  deriving Inhabited

/-- Static fields that have been written. -/
abbrev Statics := List (FieldRef × Value)

/-- The written value of a static field. -/
def Statics.get? (s : Statics) (f : FieldRef) : Option Value :=
  match s with
  | [] => none
  | (g, v) :: rest => if g = f then some v else Statics.get? rest f

/-- Writes a static field. -/
def Statics.set (s : Statics) (f : FieldRef) (v : Value) : Statics :=
  match s with
  | [] => [(f, v)]
  | (g, w) :: rest => if g = f then (f, v) :: rest else (g, w) :: Statics.set rest f v

/-- Everything that a run changes. -/
structure State where
  heap : Heap
  /-- Active calls, innermost first. -/
  frames : List Frame
  statics : Statics
  deriving Inhabited

/-- The state before the first call. -/
def State.initial : State := ⟨.empty, [], []⟩

/-- A step of a run. -/
abbrev Run := EStateM Trap State

/-- How a call ends: with a value or abruptly, and in a state either way. -/
abbrev Outcome := EStateM.Result Trap State Value

/-! ## Methods of the host -/

/-- A method of the host at work: it ends, or it calls a routine in the state that it has brought
about, and goes on from the outcome of the call. -/
inductive HostRun where
  | done (outcome : Outcome)
  | call (routine : Routine) (args : List Value) (s : State) (resume : Outcome → HostRun)

/-- A method of the host, given its arguments and the state in which it is called. -/
abbrev Host := List Value → State → HostRun

/-- What can be called. -/
inductive Callee where
  | routine (routine : Routine)
  | host (method : Host)

/-- How a method of the host ends, given how calls of routines end.  It does not go on behind a call
that is cut short. -/
def HostRun.run (callRoutine : Routine → List Value → Run Value) : HostRun → Outcome
  | done outcome => outcome
  | call routine args s resume =>
      match callRoutine routine args s with
      | .error (.halted limit) t => .error (.halted limit) t
      | outcome => (resume outcome).run callRoutine

end Arbor
