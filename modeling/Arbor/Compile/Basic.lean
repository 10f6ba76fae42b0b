/-
  Compiling functions and binding their hidden arguments.
-/
import Arbor.Code.Listing
import Arbor.Emit.Unit
import Arbor.Registry.Lookup

set_option autoImplicit false

namespace Arbor

/-- A compiled function. -/
structure CompiledUnit where
  routine : Routine
  /-- The functions nested in it, in the order of their discovery. -/
  units : List Routine

/-- The outcome of a compilation.  What was finished is there also when it fails. -/
structure Compilation where
  result : Except CompileError CompiledUnit
  /-- Helpers, those made before included. -/
  helpers : HelperCache
  /-- Units in the order in which they were finished. -/
  finished : List Routine

/-- Compiles a function, given the helpers made before. -/
def compileWith (helpers : HelperCache) (setting : Setting) (l : Lambda Expr) : Compilation :=
  let nodes := l.map Expr.toNode
  match (Emit.unitBody nodes).run setting (Emit.unitStart nodes ⟨helpers, #[]⟩) with
  | .ok routine s => ⟨.ok ⟨routine, s.units⟩, s.session.helpers, s.session.finished.toList⟩
  | .error e s => ⟨.error e, s.session.helpers, s.session.finished.toList⟩

/-- Compiles a function. -/
def compile (setting : Setting) (l : Lambda Expr) : Compilation := compileWith .empty setting l

namespace CompiledUnit

/-- Makes the compiled function callable: the constants and the zeroed closure variables are put
into tables on the heap that all calls share. -/
def bindHidden (c : CompiledUnit) (r : Registry) (hidden : HiddenParams) (constants : List Value)
    (closure : List Ty) (h : Heap) : Except CompileError (Callable × Heap) := do
  let (tables, h) :=
    if hidden.constants then
      let (table, h) := h.newVector .object (constants.map Value.boxed)
      ([table], h)
    else ([], h)
  if hidden.closure then
    match closure.mapM r.zero with
    | .error e => .error (.metadata e)
    | .ok zeros =>
        let (table, h) := h.newVector .object (zeros.map Value.boxed)
        pure (⟨c.routine, tables ++ [table]⟩, h)
  else pure (⟨c.routine, tables⟩, h)

/-- Listing of the function and of all functions nested in it. -/
def listing (c : CompiledUnit) (r : Registry) : List String :=
  c.routine.listing r ++ c.units.flatMap fun u => "" :: u.listing r

end CompiledUnit

end Arbor
