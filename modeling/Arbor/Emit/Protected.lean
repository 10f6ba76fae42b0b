/-
  Emitters of protected blocks.

  All ways through a protected block store its value in one local:

      markstack m
      body:     ...; stloc r; leave end
      filter:   stloc e; ...; endfilter
      handler:  stloc e; ...; stloc r; leave end
      fault:    ...; endfinally
      finally:  ...; endfinally
      end:      ldloc r

  Handlers are registered before the fault and the finally block, which cover
  them; the finally block also covers the fault block.
-/
import Arbor.Emit.Node

set_option autoImplicit false

namespace Arbor.Emit

/-- What the parts of one protected block share. -/
structure ProtectedBlock where
  ty : Ty
  /-- Local with the value, unless the block is void. -/
  result : Option Nat
  /-- Local with the stack depth at entry. -/
  depth : Nat
  bodyStart : Label
  bodyEnd : Label
  done : Label

/-- Whether a handler can catch values of the type. -/
def isCatchable (r : Registry) : Ty → Bool
  | .object => true
  | .classTy id => r.isException id
  | _ => false

/-- The type and the filter of a handler have to fit. -/
def checkHandler (h : CatchBlock Node) : Emit Unit := do
  if !isCatchable (← registry) h.ty then mismatch "catch" "an exception type" h.ty
  else
    match h.filter with
    | some filter =>
        if filter.ty.underlying = .bool then pure ()
        else mismatch "exception filter" "bool" filter.ty
    | none => pure ()

/-- The body or a handler, whose exits land in it and whose value goes to the result. -/
def protectedPart (part : Node) (p : ProtectedBlock) : Emit Unit := do
  match p.result with
  | some slot =>
      let _ ← part.guarded .value
      wrapIf (p.ty.isNullable && !part.ty.isNullable)
      instr (.storeLocal slot)
  | none =>
      let _ ← part.guarded .nothing

/-- Moves the exception on the stack to the variable of its handler, or drops it. -/
def storeException (binder : Option Variable) : Emit Unit := do
  match binder with
  | some v => storeVar (← varSlot v.id).1
  | none => instr .pop

/-- A handler with its filter. -/
def handler (h : CatchBlock Node) (p : ProtectedBlock) : Emit Unit :=
  withLocals h.binder.toList do
    let kind ←
      match h.filter with
      | some filter => do
          let start ← newLabel
          mark start
          storeException h.binder
          let _ ← filter.guarded .value
          if filter.ty.isNullable then instr (.optValueOrDefault .bool)
          instr .endFilter
          pure (RegionKind.filter start)
      | none => pure (RegionKind.catch h.ty)
    let handlerStart ← newLabel
    let handlerEnd ← newLabel
    mark handlerStart
    storeException h.binder
    protectedPart h.body p
    instr (.leave p.done)
    mark handlerEnd
    addRegion ⟨p.bodyStart, p.bodyEnd, handlerStart, handlerEnd, kind, p.depth⟩

/-- A finally or fault block that covers everything from the body up to a label; yields the label
behind the block. -/
def unwindBlock (block : Node) (kind : RegionKind Label) (coveredEnd : Label)
    (p : ProtectedBlock) : Emit Label := do
  let handlerStart ← newLabel
  let handlerEnd ← newLabel
  mark handlerStart
  let _ ← block.guarded .nothing
  instr .endFinally
  mark handlerEnd
  addRegion ⟨p.bodyStart, coveredEnd, handlerStart, handlerEnd, kind, p.depth⟩
  pure handlerEnd

/-- The regions of a protected block. -/
def regions (body : Node) (handlers : List (CatchBlock Node)) (finallyBlock faultBlock : Option Node)
    (p : ProtectedBlock) : Emit Unit :=
  inRegion do
    protectedPart body p
    instr (.leave p.done)
    mark p.bodyEnd
    handlers.forM fun h => handler h p
    let handlersEnd ← newLabel
    mark handlersEnd
    let coveredEnd ←
      match faultBlock with
      | some block => unwindBlock block .fault handlersEnd p
      | none => pure handlersEnd
    match finallyBlock with
    | some block =>
        let _ ← unwindBlock block .finally coveredEnd p
    | none => pure ()

/-- A protected block. -/
def tryCatch (body : Node) (handlers : List (CatchBlock Node))
    (finallyBlock faultBlock : Option Node) (ty : Ty) : Emit Emitted := do
  handlers.forM checkHandler
  if !ty.isVoid then
    body.checkBranch ty
    handlers.forM fun h => h.body.checkBranch ty
  withTemps do
    let result ← if ty.isVoid then pure none else some <$> temp ty
    let depth ← temp .int
    let bodyStart ← newLabel
    let bodyEnd ← newLabel
    let done ← newLabel
    instr (.markStack depth)
    mark bodyStart
    regions body handlers finallyBlock faultBlock ⟨ty, result, depth, bodyStart, bodyEnd, done⟩
    mark done
    match result with
    | some slot => instr (.loadLocal slot)
    | none => pure ()
    pure (.ofTy ty false)

end Arbor.Emit
