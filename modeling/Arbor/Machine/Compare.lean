/-
  Type tests, unboxing and comparison of values.
-/
import Arbor.Machine.Storage

set_option autoImplicit false

namespace Arbor

/-- The type without the optionals around it. -/
def Ty.core : Ty → Ty
  | nullable t => core t
  | t => t

namespace Value

/-- Whether a value that is there is an instance of the type; `exact` excludes derived types. -/
def isInstance (r : Registry) (h : Heap) (v : Value) (t : Ty) (exact : Bool) : Bool :=
  match v.core, t.core with
  | .null, _ => false
  | .absent, _ => false
  | _, .object => !exact
  | .bool _, .bool => true
  | .num n, .num k => n.kind == k
  | .str _, .str => true
  | .struct id _, .structTy id' => id == id'
  | .object ref, .classTy id =>
      match h.objectType? ref with
      | some own => if exact then own == id else r.isSubclass own id
      | none => false
  | .array ref, .array elem =>
      match h.arrays[ref]? with
      | some c => c.dims.length == 1 && decide (c.elem = elem)
      | none => false
  | .array ref, .mdArray elem rank =>
      match h.arrays[ref]? with
      | some c => c.dims.length == rank && decide (c.elem = elem)
      | none => false
  | .list ref, .list elem =>
      match h.lists[ref]? with
      | some c => decide (c.elem = elem)
      | none => false
  | .func ref, .func params ret =>
      match h.functions[ref]? with
      | some c => decide (c.params = params) && decide (c.routine.ret = ret)
      | none => false
  | _, _ => false

/-- Order of two texts by their code points. -/
def orderText (a b : String) : Ordering :=
  if a < b then .lt else if a = b then .eq else .gt

/-- Order of two truth values, false first. -/
def orderBool : Bool → Bool → Ordering
  | false, true => .lt
  | true, false => .gt
  | _, _ => .eq

/-- Compares two values.  Numbers, texts and truth values are ordered; other values are only equal
or different. -/
def compare (op : CmpOp) (a b : Value) : Except Defect Bool :=
  match a, b with
  | .num x, .num y =>
      match x.order y with
      | .ok order => .ok (op.holds order)
      | .error f => .error (.numeric f)
  | .str x, .str y => .ok (op.holds (some (orderText x y)))
  | .bool x, .bool y => .ok (op.holds (some (orderBool x y)))
  | a, b =>
      match op with
      | .eq => .ok (a.same b)
      | .ne => .ok (!a.same b)
      | _ => .error (.unordered a b)

end Value

namespace Run

/-- The result of a comparison, where a failed comparison is a defect. -/
def ofCompare (e : Except Defect Bool) : Run Bool :=
  match e with
  | .ok b => pure b
  | .error d => invalid d

/-- Takes a value out of a slot of the root type. -/
def unbox (r : Registry) (v : Value) (t : Ty) : Run Value := do
  let h := (← get).heap
  match t with
  | .nullable inner =>
      if v.isAbsent then pure .absent
      else if v.isInstance r h inner false then pure (.present v)
      else raise r .invalidCast
  | t =>
      if v.isAbsent then
        if t.isValueType then raise r .nullReference else pure v
      else if v.isInstance r h t false then pure v
      else raise r .invalidCast

end Run

end Arbor
