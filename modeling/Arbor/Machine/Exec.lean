/-
  Running routines.

  An exception is dispatched within the routine in two phases: the filters and
  catch types of all regions around the throw point are consulted from the
  inside out, and only then the `finally` and `fault` blocks on the way to the
  selected handler run.  Without a selected handler the exception leaves the
  routine after those blocks.  `finally`, `fault` and filter blocks run as
  executions of their own, bounded to their range; an exception that escapes one
  is dispatched again from the start of the block.

  The functions are total by a step budget: every instruction and every dispatch
  uses one unit.
-/
import Arbor.Machine.Step

set_option autoImplicit false

namespace Arbor

/-- How an execution of a range of instructions ends. -/
inductive Exit where
  | returned (value : Value)
  | finallyDone
  | filterDone (verdict : Bool)

/-- A range of instructions, without its end. -/
structure Span where
  first : Nat
  last : Nat

/-- Whether a region lies in the span with its body and its handler. -/
def Span.covers (s : Span) (g : Region Nat) : Bool :=
  s.first ≤ g.tryStart && g.handlerEnd ≤ s.last

/-- Executes a routine from a position on; handlers outside the span are not considered. -/
abbrev Executor := Routine → Nat → Span → Run Exit

namespace Run

/-- Greatest number of active calls. -/
def maxCallDepth : Nat := 256

/-- Removes the current frame. -/
def popFrame (s : State) : State := { s with frames := s.frames.tail }

/-- Calls a routine with all of its arguments.  The frame is removed on every outcome. -/
def callRoutine (r : Registry) (run : Executor) (routine : Routine) (args : List Value) :
    Run Value := fun s =>
  if maxCallDepth ≤ s.frames.length then .error (.invalid .callDepth) s
  else if args.length ≠ routine.params.length then
    .error (.invalid (.argumentCount routine.name routine.params.length args.length)) s
  else
    match routine.locals.mapM r.zero with
    | .error e => .error (.invalid (.metadata e)) s
    | .ok locals =>
        let frame : Frame := ⟨args.toArray, locals, [], []⟩
        match run routine 0 ⟨0, routine.code.size⟩ { s with frames := frame :: s.frames } with
        | .ok (.returned v) s => .ok v (popFrame s)
        | .ok .finallyDone s | .ok (.filterDone _) s =>
            .error (.invalid (.strayTerminator routine.name)) (popFrame s)
        | .error e s => .error e (popFrame s)

/-- Calls a routine or a method of the host with all of its arguments. -/
def caller (r : Registry) (run : Executor) : Caller
  | .routine routine, args => callRoutine r run routine args
  | .host method, args => fun s => (method args s).run (callRoutine r run)

/-- Forgets the exceptions of handlers that a jump from `pc` to `target` leaves. -/
def leaveHandlers (routine : Routine) (pc target : Nat) : Run PUnit :=
  modifyFrame fun f =>
    { f with
      handling := f.handling.filter fun (i, _) =>
        match routine.regions[i]? with
        | some g => !(g.handlerContains pc && !g.handlerContains target)
        | none => true }

/-- Runs a `finally` or `fault` block; the result is an exception that escapes it. -/
def runUnwinding (run : Executor) (routine : Routine) (g : Region Nat) : Run (Option Ref) :=
  fun s =>
    match run routine g.handlerStart ⟨g.handlerStart, g.handlerEnd⟩ s with
    | .ok .finallyDone s => .ok none s
    | .ok _ s => .error (.invalid .unfinishedFinally) s
    | .error (.thrown e) s => .ok (some e) s
    | .error e s => .error e s

/-- Runs the `finally` blocks of the given regions that a jump from `pc` to `target` leaves.  When an
exception escapes one of them, the result is the start of its block and the exception. -/
def leaveRegions (run : Executor) (routine : Routine) (pc target : Nat) :
    List (Region Nat) → Run (Option (Nat × Ref))
  | [] => pure none
  | g :: rest =>
      if g.isFinally && g.tryContains pc && !g.tryContains target then do
        match ← runUnwinding run routine g with
        | some e => pure (some (g.handlerStart, e))
        | none => leaveRegions run routine pc target rest
      else leaveRegions run routine pc target rest

/-- Leaves protected regions by a jump from `pc` to `target`. -/
def leave (run : Executor) (routine : Routine) (pc target : Nat) : Run (Option (Nat × Ref)) := do
  leaveHandlers routine pc target
  leaveRegions run routine pc target routine.regions

/-! ## Dispatch -/

/-- Whether a catch block of the type takes the exception. -/
def catches (r : Registry) (t : Ty) (e : Ref) : Run Bool := do
  match t with
  | .object => pure true
  | .classTy id =>
      match (← get).heap.objectType? e with
      | some ty => pure (r.isSubclass ty id)
      | none => pure false
  | _ => pure false

/-- Runs a filter block on an exception; a filter that fails does not select its handler. -/
def runFilter (run : Executor) (routine : Routine) (g : Region Nat) (start : Nat) (e : Ref) :
    Run Bool := do
  resetToMark g.stackMark
  push (.object e)
  let verdict ← fun s =>
    match run routine start ⟨start, g.handlerStart⟩ s with
    | .ok (.filterDone verdict) s => .ok verdict s
    | .ok _ s => .ok false s
    | .error (.halted limit) s => .error (.halted limit) s
    | .error _ s => .ok false s
  resetToMark g.stackMark
  pure verdict

/-- Whether a region handles the exception. -/
def selects (r : Registry) (run : Executor) (routine : Routine) (g : Region Nat) (e : Ref) :
    Run Bool :=
  match g.kind with
  | .catch t => catches r t e
  | .filter start => runFilter run routine g start e
  | .finally | .fault => pure false

/-- The first of the numbered regions that handles the exception. -/
def select (r : Registry) (run : Executor) (routine : Routine) (e : Ref) :
    List (Nat × Region Nat) → Run (Option (Nat × Region Nat))
  | [] => pure none
  | (i, g) :: rest => do
      if ← selects r run routine g e then pure (some (i, g)) else select r run routine e rest

/-- Runs the `finally` and `fault` blocks of the numbered regions before the selected one.  When an
exception escapes one of them, the result is the start of its block and the exception. -/
def unwind (run : Executor) (routine : Routine) (chosen : Option Nat) :
    List (Nat × Region Nat) → Run (Option (Nat × Ref))
  | [] => pure none
  | (i, g) :: rest =>
      if chosen = some i then pure none
      else if g.isUnwinding then do
        resetToMark g.stackMark
        match ← runUnwinding run routine g with
        | some e => pure (some (g.handlerStart, e))
        | none => unwind run routine chosen rest
      else unwind run routine chosen rest

/-- The numbered regions around a throw point that the span covers, inner ones first. -/
def candidates (routine : Routine) (pc : Nat) (span : Span) : List (Nat × Region Nat) :=
  (routine.regions.mapIdx fun i g => (i, g)).filter fun (_, g) =>
    g.tryContains pc && span.covers g

/-- Enters a handler with the exception: the stack is cut down to the entry of the region and the
exception pushed. -/
def enterHandler (routine : Routine) (pc : Nat) (i : Nat) (g : Region Nat) (e : Ref) : Run Nat := do
  resetToMark g.stackMark
  leaveHandlers routine pc g.handlerStart
  modifyFrame fun f => { f with handling := (i, e) :: f.handling, stack := .object e :: f.stack }
  pure g.handlerStart

mutual

/-- Executes a routine from `pc` on until its span is left. -/
def exec (r : Registry) (fuel : Nat) (routine : Routine) (pc : Nat) (span : Span) : Run Exit :=
  fun s =>
    match fuel with
    | 0 => .error (.halted .steps) s
    | fuel + 1 =>
        match routine.code[pc]? with
        | none => .error (.invalid (.ranPast routine.name pc)) s
        | some i =>
            match step r (caller r (exec r fuel)) routine i s with
            | .ok .next s => exec r fuel routine (pc + 1) span s
            | .ok (.jump landing) s => exec r fuel routine landing span s
            | .ok (.leave landing) s =>
                match leave (exec r fuel) routine pc landing s with
                | .ok none s => exec r fuel routine landing span s
                | .ok (some (start, e)) s =>
                    match dispatch r fuel routine start e span s with
                    | .ok handler s => exec r fuel routine handler span s
                    | .error t s => .error t s
                | .error t s => .error t s
            | .ok (.ret v) s => .ok (.returned v) s
            | .ok .endFinally s => .ok .finallyDone s
            | .ok (.endFilter verdict) s => .ok (.filterDone verdict) s
            | .error (.thrown e) s =>
                match dispatch r fuel routine pc e span s with
                | .ok handler s => exec r fuel routine handler span s
                | .error t s => .error t s
            | .error t s => .error t s
  termination_by structural fuel

/-- Finds the handler for an exception thrown at `pc`, and its entry. -/
def dispatch (r : Registry) (fuel : Nat) (routine : Routine) (pc : Nat) (e : Ref) (span : Span) :
    Run Nat := fun s =>
  match fuel with
  | 0 => .error (.halted .steps) s
  | fuel + 1 =>
      let regions := candidates routine pc span
      match select r (exec r fuel) routine e regions s with
      | .error t s => .error t s
      | .ok chosen s =>
          match unwind (exec r fuel) routine (chosen.map (·.1)) regions s with
          | .error t s => .error t s
          | .ok (some (start, replacement)) s => dispatch r fuel routine start replacement span s
          | .ok none s =>
              match chosen with
              | none => .error (.thrown e) s
              | some (i, g) => enterHandler routine pc i g e s
  termination_by structural fuel

end

/-- Calls a routine or a method of the host within a step budget. -/
def call (r : Registry) (fuel : Nat) : Caller := caller r (exec r fuel)

end Run

/-! ## Invocation -/

/-- What a caller from outside sees when a run fails. -/
inductive RuntimeError where
  /-- An exception left the routine. -/
  | unhandled (typeName message : String) (fault : Option Fault)
  | invalidProgram (message : String)
  /-- The run was cut short. -/
  | halted (limit : Limit)

/-- Text of a failed run. -/
def RuntimeError.message : RuntimeError → String
  | unhandled typeName message _ => s!"unhandled {typeName}: {message}"
  | invalidProgram message => s!"invalid program: {message}"
  | halted .steps => "step budget exceeded"
  | halted .storage => "capacity overflow"

namespace Machine

/-- Step budget of every invocation. -/
def stepBudget : Nat := 0x4000000000000000

/-- The outside view of a trap in the state it left behind. -/
def runtimeError (r : Registry) (s : State) : Trap → RuntimeError
  | .thrown e =>
      let typeName := r.typeName ((s.heap.objectType? e).getD 0)
      let message := ((s.heap.field? e 0).bind Value.text?).getD ""
      .unhandled typeName message (Fault.ofTypeName? typeName)
  | .invalid d => .invalidProgram (d.message r s.heap)
  | .halted limit => .halted limit

/-- Runs an action and turns a trap into a runtime error. -/
def observe {α : Type} (r : Registry) (action : Run α) (s : State) :
    Except RuntimeError α × State :=
  match action s with
  | .ok a s => (.ok a, s)
  | .error t s => (.error (runtimeError r s t), s)

/-- Calls a callable with the arguments that callers supply, within a step budget. -/
def invokeWithin (budget : Nat) (r : Registry) (c : Callable) (args : List Value) (s : State) :
    Except RuntimeError Value × State :=
  observe r (Run.call r budget (.routine c.routine) (c.captured ++ args)) s

/-- Calls a callable with the arguments that callers supply. -/
def invoke (r : Registry) (c : Callable) (args : List Value) (s : State) :
    Except RuntimeError Value × State :=
  invokeWithin stepBudget r c args s

/-- Calls a function value. -/
def callValue (r : Registry) (f : Value) (args : List Value) (s : State) :
    Except RuntimeError Value × State :=
  observe r (Run.callValue r (Run.call r stepBudget) f args) s

end Machine

end Arbor
