/-
  Converting JSON to runtime values by their type.

  Null becomes the zero of any type that can be absent.  Numbers keep their exact
  value or are refused; objects fill the named fields of a zeroed instance.
-/
import Arbor.Program.Error
import Arbor.Registry.Lookup
import Arbor.Machine.Compare
import Arbor.Json.Printer

set_option autoImplicit false

namespace Arbor

/-- A conversion, which may add cells to the heap. -/
abbrev Convert := StateT Heap (Except ProgramError)

namespace Convert

/-- The result of a lookup. -/
def ofLookup {α : Type} (e : Except MetadataError α) : Convert α :=
  match e with
  | .ok a => pure a
  | .error e => throw (.metadata e)

/-- Adds a cell to the heap. -/
def alloc (f : Heap → Value × Heap) : Convert Value := modifyGet f

/-- Number of optionals around a type. -/
def layers : Ty → Nat
  | .nullable t => layers t + 1
  | _ => 0

/-- A value inside a number of optionals. -/
def wrap : Nat → Value → Value
  | 0, v => v
  | n + 1, v => .present (wrap n v)

/-- Exact conversion of a JSON number; an integer kind takes no float. -/
def number? (j : Json) (k : NumKind) : Option Num :=
  let raw : Option Num :=
    match j with
    | .int n =>
        match Word.ofInt? .i64 n with
        | some w => some (.int .i64 w)
        | none => (Word.ofInt? .u64 n).map (.int .u64)
    | .float x => if k.isIntegral then none else some (.double x)
    | _ => none
  raw.bind fun n => (n.convert k true).toOption

/-- Stores a field in a new instance; a slot that it does not have is ignored. -/
def fill (target : Value) (slot : Nat) (v : Value) : Convert Value :=
  match target with
  | .object ref => do
      modify fun h => h.setField ref slot v
      pure target
  | .struct ty fields => pure (.struct ty (fields.set slot v))
  | _ => pure target

/-- A zeroed instance of a declared type. -/
def fresh (r : Registry) (t : Ty) : Convert Value :=
  match t with
  | .classTy id => do
      let layout ← ofLookup (r.layout id)
      let fields ← ofLookup (layout.mapM r.zero)
      alloc fun h => h.newObject ⟨id, fields.toArray⟩
  | t => ofLookup (r.zero t)

mutual

/-- Converts a value; `what` names it in messages. -/
def value (r : Registry) : Json → Ty → String → Convert Value
  | .arr items, t, what =>
      let bad : ProgramError := .badValue what (r.tyText t.core) (Json.arr items).print
      match t.core with
      | .array elem => do
          let vs ← values r items elem what 0
          let v ← alloc fun h => h.newVector elem vs
          pure (wrap (layers t) v)
      | .list elem => do
          let vs ← values r items elem what 0
          let v ← alloc fun h => h.newList ⟨elem, vs.toArray⟩
          pure (wrap (layers t) v)
      | _ => throw bad
  | .obj members, t, what =>
      let bad : ProgramError := .badValue what (r.tyText t.core) (Json.obj members).print
      match t.core with
      | .classTy id => do
          let v ← fields r members id what (← fresh r (.classTy id))
          pure (wrap (layers t) v)
      | .structTy id => do
          let v ← fields r members id what (← fresh r (.structTy id))
          pure (wrap (layers t) v)
      | _ => throw bad
  | j, t, what =>
      let bad (expected : String) : ProgramError := .badValue what expected j.print
      let number (k : NumKind) (expected : String) : Convert Value :=
        match number? j k with
        | some n => pure (wrap (layers t) (.num n))
        | none => throw (bad expected)
      match t.core, j with
      | _, .null => if t.canBeAbsent then ofLookup (r.zero t) else throw (bad (r.tyText t.core))
      | .bool, .bool b => pure (wrap (layers t) (.bool b))
      | .object, .bool b => pure (wrap (layers t) (.bool b))
      | .str, .str s => pure (wrap (layers t) (.str s))
      | .object, .str s => pure (wrap (layers t) (.str s))
      | .num k, .int _ => number k k.name
      | .num k, .float _ => number k k.name
      | .object, .int _ => number .double "a number"
      | .object, .float _ => number .double "a number"
      | _, _ => throw (bad (r.tyText t.core))
  termination_by structural j => j

/-- Converts the items of an array or list, numbered from `index` on. -/
def values (r : Registry) : List Json → Ty → String → Nat → Convert (List Value)
  | [], _, _, _ => pure []
  | j :: rest, elem, what, index => do
      let v ← value r j elem s!"{what}[{index}]"
      let vs ← values r rest elem what (index + 1)
      pure (v :: vs)
  termination_by structural js => js

/-- Fills named fields of an instance. -/
def fields (r : Registry) : List (String × Json) → TypeId → String → Value → Convert Value
  | [], _, _, target => pure target
  | (name, j) :: rest, id, what, target => do
      let f ← ofLookup (r.findField id name)
      let d ← ofLookup (r.field f)
      let slot ← ofLookup (r.fieldSlot f)
      let v ← value r j d.ty s!"{what}.{name}"
      fields r rest id what (← fill target slot v)
  termination_by structural ms => ms

end

end Convert

/-- Converts a JSON value to a runtime value of a type, on a given heap. -/
def Json.toValue (r : Registry) (j : Json) (t : Ty) (what : String) (h : Heap) :
    Except ProgramError (Value × Heap) :=
  (Convert.value r j.canonical t what).run h

end Arbor
