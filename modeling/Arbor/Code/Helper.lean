/-
  The routines that auto-extension shares: one that grows an array and one that
  pads a list, for every element type.
-/
import Arbor.Code.Routine

set_option autoImplicit false

namespace Arbor

namespace HelperKind

/-- Name of the routine. -/
def name : HelperKind → String
  | ensureArrayLength => "EnsureArrayLength"
  | ensureListCount => "EnsureListCount"

/-- An integer constant. -/
def intConst (n : Int) : Instr := .const (.num (.i32 n))

/-- `(T[] array, int index) -> T[]`: the array itself when the index is below its length, otherwise
a copy with one element more than the index.  A null array counts as empty. -/
def arrayRoutine (elem : Ty) : Routine where
  key := .helper ensureArrayLength elem
  name := ensureArrayLength.name
  params := [.array elem, .int]
  ret := .array elem
  locals := #[]
  code := #[
    .loadArg 0, .jumpIfPresent ⟨0⟩, intConst 0, .newArray elem, .storeArg 0,
    .loadArg 1, .loadArg 0, .loadLength, .compare .lt, .jumpIfFalse ⟨1⟩, .loadArg 0, .ret,
    .loadArg 0, .loadArg 1, intConst 1, .arith .add true, .call (.intrinsic (.arrayResize elem)),
    .ret]
  labels := #[5, 12]
  regions := []
  children := []

/-- `(List<T> list, int count) -> void`: appends default elements until the list holds the number
of items. -/
def listRoutine (elem : Ty) : Routine where
  key := .helper ensureListCount elem
  name := ensureListCount.name
  params := [.list elem, .int]
  ret := .void
  locals := #[]
  code := #[
    .loadArg 0, .call (.intrinsic (.listCount elem)), .loadArg 1, .compare .lt, .jumpIfFalse ⟨1⟩,
    .loadArg 0, .loadDefault elem, .call (.intrinsic (.listAdd elem)), .jump ⟨0⟩,
    .ret]
  labels := #[0, 9]
  regions := []
  children := []

/-- The routine of a helper for an element type. -/
def routine (kind : HelperKind) (elem : Ty) : Routine :=
  match kind with
  | ensureArrayLength => arrayRoutine elem
  | ensureListCount => listRoutine elem

end HelperKind

/-- The helper routines made so far, each with its kind and element type. -/
structure HelperCache where
  entries : List ((HelperKind × Ty) × Routine)
  deriving Inhabited

namespace HelperCache

/-- No helper has been made. -/
def empty : HelperCache := ⟨[]⟩

/-- Number of helpers. -/
def size (c : HelperCache) : Nat := c.entries.length

/-- The helper made earlier for a kind and element type. -/
def find? (c : HelperCache) (kind : HelperKind) (elem : Ty) : Option Routine :=
  (c.entries.find? fun e => e.1 == (kind, elem)).map (·.2)

/-- The helper for a kind and element type, which is made on first use. -/
def get (c : HelperCache) (kind : HelperKind) (elem : Ty) : Routine × HelperCache :=
  match c.find? kind elem with
  | some routine => (routine, c)
  | none => (kind.routine elem, ⟨c.entries ++ [((kind, elem), kind.routine elem)]⟩)

end HelperCache

end Arbor
