/-
  Storage: reading and writing through addresses, fields of objects and structs,
  static fields, and the allocation of arrays.
-/
import Arbor.Machine.Run

set_option autoImplicit false

namespace Arbor.Run

/-- Place in the list of frames, innermost first, of the frame with the given number; frames are
numbered from the outermost. -/
def framePlace? (frames : List Frame) (number : Nat) : Option Nat :=
  if number < frames.length then some (frames.length - 1 - number) else none

/-- The frame with the given number. -/
def frame? (frames : List Frame) (number : Nat) : Option Frame := do
  let place ← framePlace? frames number
  frames[place]?

/-- Replaces the frame with the given number. -/
def setFrame (frames : List Frame) (number : Nat) (f : Frame) : List Frame :=
  match framePlace? frames number with
  | some place => frames.set place f
  | none => frames

/-- Number of the current frame. -/
def currentFrame : Run Nat := do
  pure ((← get).frames.length - 1)

/-- Value of a static field: what was written last, or the zero of its type. -/
def loadStatic (r : Registry) (f : FieldRef) : Run Value := do
  match (← get).statics.get? f with
  | some v => pure v
  | none =>
      let d ← ofLookup (r.field f)
      ofLookup (r.zero d.ty)

/-- Writes a static field. -/
def storeStatic (f : FieldRef) (v : Value) : Run PUnit :=
  modify fun s => { s with statics := s.statics.set f v }

/-- The value that must be there. -/
def orDangling {α : Type} (a : Addr) (found : Option α) : Run α :=
  match found with
  | some v => pure v
  | none => invalid (.dangling a)

/-- Value at an address. -/
def loadAddr (r : Registry) (a : Addr) : Run Value := do
  match a with
  | .local frame slot =>
      orDangling a ((frame? (← get).frames frame).bind fun f => f.locals[slot]?)
  | .arg frame index =>
      orDangling a ((frame? (← get).frames frame).bind fun f => f.args[index]?)
  | .field object slot => orDangling a ((← get).heap.field? object slot)
  | .static f => loadStatic r f
  | .elem array index => orDangling a ((← get).heap.elem? array index)
  | .inner base slot =>
      match ← loadAddr r base with
      | .struct _ fields => orDangling a fields[slot]?
      | .object ref => orDangling a ((← get).heap.field? ref slot)
      | .null => raise r .nullReference
      | _ => invalid (.dangling a)

/-- Writes a value to an address.  A write inside a struct replaces the struct where it is stored. -/
def storeAddr (r : Registry) (a : Addr) (v : Value) : Run PUnit := do
  match a with
  | .local frame slot =>
      let f ← orDangling a (frame? (← get).frames frame)
      if slot < f.locals.size then
        modify fun s =>
          { s with
            frames := setFrame s.frames frame { f with locals := f.locals.setIfInBounds slot v } }
      else invalid (.dangling a)
  | .arg frame index =>
      let f ← orDangling a (frame? (← get).frames frame)
      if index < f.args.size then
        modify fun s =>
          { s with
            frames := setFrame s.frames frame { f with args := f.args.setIfInBounds index v } }
      else invalid (.dangling a)
  | .field object slot =>
      let _ ← orDangling a ((← get).heap.field? object slot)
      modify fun s => { s with heap := s.heap.setField object slot v }
  | .static f => storeStatic f v
  | .elem array index =>
      let _ ← orDangling a ((← get).heap.elem? array index)
      modify fun s => { s with heap := s.heap.setElem array index v }
  | .inner base slot =>
      match ← loadAddr r base with
      | .struct ty fields =>
          if slot < fields.length then storeAddr r base (.struct ty (fields.set slot v))
          else invalid (.dangling a)
      | .object ref =>
          let _ ← orDangling a ((← get).heap.field? ref slot)
          modify fun s => { s with heap := s.heap.setField ref slot v }
      | .null => raise r .nullReference
      | _ => invalid (.dangling a)

/-- Local of the current frame. -/
def loadLocal (slot : Nat) : Run Value := fun s =>
  match s.frames with
  | [] => .error (.invalid .noFrame) s
  | f :: rest =>
      match f.locals[slot]? with
      | some v => .ok v s
      | none => .error (.invalid (.dangling (.local rest.length slot))) s

/-- Writes a local of the current frame. -/
def storeLocal (slot : Nat) (v : Value) : Run PUnit := fun s =>
  match s with
  | ⟨heap, frames, statics⟩ =>
      match frames with
      | [] => .error (.invalid .noFrame) ⟨heap, [], statics⟩
      | ⟨args, locals, stack, handling⟩ :: rest =>
          if slot < locals.size then
            .ok ⟨⟩ ⟨heap, ⟨args, locals.setIfInBounds slot v, stack, handling⟩ :: rest, statics⟩
          else
            .error (.invalid (.dangling (.local rest.length slot)))
              ⟨heap, ⟨args, locals, stack, handling⟩ :: rest, statics⟩

/-- Argument of the current frame. -/
def loadArg (index : Nat) : Run Value := fun s =>
  match s.frames with
  | [] => .error (.invalid .noFrame) s
  | f :: rest =>
      match f.args[index]? with
      | some v => .ok v s
      | none => .error (.invalid (.dangling (.arg rest.length index))) s

/-- Writes an argument of the current frame. -/
def storeArg (index : Nat) (v : Value) : Run PUnit := fun s =>
  match s.frames with
  | [] => .error (.invalid .noFrame) s
  | f :: rest =>
      if index < f.args.size then
        .ok ⟨⟩ { s with frames := { f with args := f.args.setIfInBounds index v } :: rest }
      else .error (.invalid (.dangling (.arg rest.length index))) s

/-! ## Fields -/

/-- A field of an object or struct value. -/
def slot? (h : Heap) (v : Value) (slot : Nat) : Option Value :=
  match v with
  | .object ref => h.field? ref slot
  | .struct _ fields => fields[slot]?
  | _ => none

/-- Reads a field of an object, a struct, or a struct at an address. -/
def loadField (r : Registry) (receiver : Value) (f : FieldRef) : Run Value := do
  let slot ← ofLookup (r.fieldSlot f)
  match receiver with
  | .null => raise r .nullReference
  | .addr a =>
      let target ← loadAddr r a
      match slot? (← get).heap target slot with
      | some v => pure v
      | none => invalid .fieldThroughAddress
  | v =>
      match slot? (← get).heap v slot with
      | some v => pure v
      | none => invalid (.fieldOf v)

/-- Writes a field of an object or of a struct at an address. -/
def storeField (r : Registry) (receiver : Value) (f : FieldRef) (v : Value) : Run PUnit := do
  let slot ← ofLookup (r.fieldSlot f)
  match receiver with
  | .null => raise r .nullReference
  | .object ref =>
      match (← get).heap.field? ref slot with
      | some _ => modify fun s => { s with heap := s.heap.setField ref slot v }
      | none => invalid .missingSlot
  | .addr base => storeAddr r (.inner base slot) v
  | v => invalid (.storeFieldOf v)

/-- Address of a field of an object or of a struct at an address. -/
def fieldAddr (r : Registry) (receiver : Value) (slot : Nat) : Run Addr :=
  match receiver with
  | .object ref => pure (.field ref slot)
  | .addr base => pure (.inner base slot)
  | .null => raise r .nullReference
  | v => invalid (.fieldAddressOf v)

/-! ## Arrays -/

/-- The array cell of an array value. -/
def arrayCell (r : Registry) (v : Value) (other : Value → Defect) : Run (Ref × ArrayCell) := do
  match v with
  | .array ref =>
      match (← get).heap.arrays[ref]? with
      | some c => pure (ref, c)
      | none => invalid (other v)
  | .null => raise r .nullReference
  | v => invalid (other v)

/-- Address of an array element by its position. -/
def elementAddr (r : Registry) (v : Value) (index : Int) : Run Addr := do
  let (ref, c) ← arrayCell r v .elementOf
  if 0 ≤ index ∧ index < c.size then pure (.elem ref index.toNat) else raise r .indexOutOfRange

/-- Address of an array element by its indices. -/
def mdAddr (r : Registry) (v : Value) (indices : List Int) : Run Addr := do
  let (ref, c) ← arrayCell r v .elementOf
  match c.offset? indices with
  | some offset => pure (.elem ref offset)
  | none => raise r .indexOutOfRange

/-- Number of elements of an array with the given bounds, counted in 64 bits. -/
def elementCount (dims : List Nat) : Nat := dims.foldl (fun n d => n * d % 0x10000000000000000) 1

/-- Most elements that an array has room for: they take up fewer than 2^63 bytes, with 24 bytes each. -/
def maxElements : Nat := 0x7fffffffffffffff / 24

/-- Allocates an array with zeroed elements.  The run is cut short where there is no room for them. -/
def newArray (r : Registry) (elem : Ty) (dims : List Int) : Run Value := do
  if dims.any (· < 0) then raise r .overflow
  else
    let bounds := dims.map Int.toNat
    let zero ← ofLookup (r.zero elem)
    if maxElements < elementCount bounds then throw (.halted .storage)
    else
      modifyGet fun s =>
        let (v, heap) :=
          s.heap.newArray ⟨elem, bounds, Array.replicate (elementCount bounds) zero⟩
        (v, { s with heap := heap })

end Arbor.Run
