/-
  Operations on texts and containers.
-/
import Arbor.Machine.Compare

set_option autoImplicit false

namespace Arbor.Run

/-- The list cell of a list value. -/
def listCell (r : Registry) (v : Value) : Run (Ref × ListCell) := do
  match v with
  | .list ref =>
      match (← get).heap.lists[ref]? with
      | some c => pure (ref, c)
      | none => invalid (.notList v)
  | .null => raise r .nullReference
  | v => invalid (.notList v)

/-- An index operand; whatever is not an integer counts as out of range. -/
def indexOf (v : Value) : Int := v.toIndex?.getD (-1)

/-- Replaces the items of a list. -/
def modifyList (ref : Ref) (f : Array Value → Array Value) : Run PUnit :=
  modify fun s =>
    { s with
      heap := { s.heap with
        lists := s.heap.lists.modify ref fun c => { c with items := f c.items } } }

/-- The elements of `new`, with as many of `old` as fit in front. -/
def overwrite (old new : Array Value) : Array Value :=
  (old.toList.take new.size ++ new.toList.drop old.size).toArray

/-- Copies an array into a new one of another length; anything else counts as empty. -/
def resize (r : Registry) (elem : Ty) (old : Value) (size : Int) : Run Value := do
  if size < 0 then raise r .argument
  else
    let fresh ← newArray r elem [size]
    match old, fresh with
    | .array source, .array target =>
        modify fun s =>
          let kept := ((s.heap.arrays[source]?).map (·.data)).getD #[]
          { s with
            heap := { s.heap with
              arrays := s.heap.arrays.modify target fun c =>
                { c with data := overwrite kept c.data } } }
        pure fresh
    | _, _ => pure fresh

/-- Runs an intrinsic on its operands, the receiver first. -/
def intrinsic (r : Registry) (op : Intrinsic) (args : List Value) : Run Value := do
  if args.length ≠ op.arity then invalid (.operandCount op)
  else
    let arg (i : Nat) : Value := args[i]?.getD .null
    match op with
    | .listAdd _ =>
        let (ref, _) ← listCell r (arg 0)
        modifyList ref (·.push (arg 1))
        pure .null
    | .listGet _ =>
        let (_, c) ← listCell r (arg 0)
        let index := indexOf (arg 1)
        if 0 ≤ index ∧ index < c.items.size then pure (c.items[index.toNat]?.getD .null)
        else raise r .indexOutOfRange
    | .listSet _ =>
        let (ref, c) ← listCell r (arg 0)
        let index := indexOf (arg 1)
        if 0 ≤ index ∧ index < c.items.size then
          modifyList ref (·.setIfInBounds index.toNat (arg 2))
          pure .null
        else raise r .indexOutOfRange
    | .listCount _ =>
        let (_, c) ← listCell r (arg 0)
        pure (.int c.items.size)
    | .arrayResize elem => resize r elem (arg 0) (indexOf (arg 1))
    | .mdGet _ rank =>
        let a ← mdAddr r (arg 0) (((args.drop 1).take rank).map indexOf)
        loadAddr r a
    | .mdSet _ rank =>
        let a ← mdAddr r (arg 0) (((args.drop 1).take rank).map indexOf)
        storeAddr r a (arg (rank + 1))
        pure .null
    | .mdLength _ _ =>
        let (_, c) ← arrayCell r (arg 0) .dimensionOf
        let dim := indexOf (arg 1)
        match (if 0 ≤ dim then c.dims[dim.toNat]? else none) with
        | some n => pure (.int n)
        | none => raise r .indexOutOfRange
    | .strConcat => pure (.str ((arg 0).text?.getD "" ++ (arg 1).text?.getD ""))
    | .strLength =>
        match arg 0 with
        | .str s => pure (.int s.length)
        | .null => raise r .nullReference
        | v => invalid (.textLengthOf v)
    | .objEquals =>
        match Value.compare .eq (arg 0) (arg 1) with
        | .ok b => pure (.bool b)
        | .error _ => pure (.bool false)

end Arbor.Run
