/-
  What a single call can reach, and actions that do not depend on call frames.

  A `Memory` is the heap, the static fields, and the arguments and locals of the
  current call; together with an evaluation stack and what is around the call it
  makes a machine state.  The outline of a heap keeps of every function value only
  its signature and its captured values.  An action is `Local` if it neither looks
  at frames nor at the code of function values: it does the same on the outline.
-/
import Arbor.Emit.Emission
import Arbor.Machine.Exec
import Mathlib.Algebra.Group.Nat.Defs

set_option autoImplicit false

namespace Arbor

/-! ## The state of the machine -/

namespace Run

theorem get_apply (s : State) : (get : Run State) s = .ok s s := rfl

theorem modify_apply (f : State → State) (s : State) : (modify f : Run PUnit) s = .ok ⟨⟩ (f s) := rfl

/-- A fault is raised by adding its exception to the objects, with its message in the first field; only
where the registry does not know the exception, there is a defect. -/
theorem raise_cases (r : Registry) (f : Fault) :
    (∃ e, ∀ (α : Type) (s : State), (raise r f : Run α) s = .error (.invalid (.metadata e)) s) ∨
      ∃ fields : List Value, ∀ (α : Type) (s : State), (raise r f : Run α) s =
        .error (.thrown s.heap.objects.size) { s with
          heap := (s.heap.newObject ⟨Registry.exceptionType f, fields.toArray⟩).2.setField
            s.heap.objects.size 0 (.str f.message) } := by
  cases hlayout : r.layout (Registry.exceptionType f) with
  | error e =>
      refine .inl ⟨e, fun α s => ?_⟩
      simp only [raise, throwNew, allocObject, hlayout]
      rfl
  | ok layout =>
      cases hzeros : layout.mapM r.zero with
      | error e =>
          refine .inl ⟨e, fun α s => ?_⟩
          simp only [raise, throwNew, allocObject, hlayout, ofLookup, bind, EStateM.bind, pure, EStateM.pure,
            hzeros]
          rfl
      | ok fields =>
          refine .inr ⟨fields, fun α s => ?_⟩
          simp only [raise, throwNew, allocObject, hlayout, ofLookup, bind, EStateM.bind, pure, EStateM.pure,
            hzeros]
          rfl

/-! ## New arrays -/

/-- The number of elements is the product of the bounds, cut off to 64 bits. -/
theorem elementCount_eq_mod (dims : List Nat) : elementCount dims = dims.prod % 0x10000000000000000 := by
  have hfold : ∀ n < 0x10000000000000000, dims.foldl (fun n d => n * d % 0x10000000000000000) n =
      n * dims.prod % 0x10000000000000000 := by
    induction dims with
    | nil =>
        intro n hn
        rw [List.foldl_nil, List.prod_nil, Nat.mul_one, Nat.mod_eq_of_lt hn]
    | cons d ds ih =>
        intro n _
        have hbelow : n * d % 0x10000000000000000 < 0x10000000000000000 := Nat.mod_lt _ (by decide)
        rw [List.foldl_cons, ih _ hbelow, List.prod_cons, Nat.mod_mul_mod, Nat.mul_assoc]
  rw [elementCount, hfold 1 (by decide), Nat.one_mul]

theorem elementCount_eq {dims : List Nat} (h : dims.prod < 0x10000000000000000) :
    elementCount dims = dims.prod := by
  rw [elementCount_eq_mod, Nat.mod_eq_of_lt h]

/-- A new array without negative bounds, of which the zero is known: it is allocated where there is room
for as many zeros as the product of its bounds, cut off to 64 bits, and ends the run elsewhere. -/
theorem newArray_eq {r : Registry} {elem : Ty} {zero : Value} (hzero : r.zero elem = .ok zero)
    {dims : List Int} (hdims : ∀ d ∈ dims, 0 ≤ d) (s : State) :
    newArray r elem dims s =
      if maxElements < (dims.map Int.toNat).prod % 0x10000000000000000 then .error (.halted .storage) s
      else .ok (.array s.heap.arrays.size)
        { s with heap := (s.heap.newArray ⟨elem, dims.map Int.toNat,
            Array.replicate ((dims.map Int.toNat).prod % 0x10000000000000000) zero⟩).2 } := by
  have hbounds : dims.any (· < 0) = false := by
    simpa using hdims
  unfold newArray
  rw [hbounds, if_neg Bool.false_ne_true, hzero]
  simp only [elementCount_eq_mod]
  change (if _ then throw _ else modifyGet _ : Run Value) s = _
  split <;> rfl

theorem newArray_apply {r : Registry} {elem : Ty} {zero : Value} (hzero : r.zero elem = .ok zero)
    {dims : List Int} (hdims : ∀ d ∈ dims, 0 ≤ d)
    (hroom : (dims.map Int.toNat).prod % 0x10000000000000000 ≤ maxElements) (s : State) :
    newArray r elem dims s = .ok (.array s.heap.arrays.size)
      { s with heap := (s.heap.newArray ⟨elem, dims.map Int.toNat,
          Array.replicate ((dims.map Int.toNat).prod % 0x10000000000000000) zero⟩).2 } := by
  rw [newArray_eq hzero hdims, if_neg (Nat.not_lt.mpr hroom)]

end Run

/-! ## Outlines -/

/-- A routine without its code. -/
def Routine.outline (c : Routine) : Routine :=
  { c with locals := #[], code := #[], labels := #[], regions := [], children := [] }

/-- A function value without the code of its routine. -/
def Callable.outline (c : Callable) : Callable := ⟨c.routine.outline, c.captured⟩

/-- A heap without the code of its function values. -/
def Heap.outline (h : Heap) : Heap := { h with functions := h.functions.map Callable.outline }

/-! ## Memory -/

/-- What the current call can reach. -/
structure Memory where
  heap : Heap
  statics : Statics
  args : Array Value
  locals : Array Value

/-- What is around the current call: the exceptions it is handling and the calls outside of it. -/
structure Around where
  handling : List (Nat × Ref)
  outer : List Frame

namespace Memory

/-- The machine state with the given evaluation stack. -/
def state (m : Memory) (a : Around) (stack : List Value) : State :=
  ⟨m.heap, ⟨m.args, m.locals, stack, a.handling⟩ :: a.outer, m.statics⟩

/-- The value of a variable. -/
def slot? (m : Memory) : VarSlot → Option Value
  | .arg i => m.args[i]?
  | .local i => m.locals[i]?

/-- Writes a local. -/
def setLocal (m : Memory) (i : Nat) (v : Value) : Memory :=
  { m with locals := m.locals.setIfInBounds i v }

/-- Writes an argument. -/
def setArg (m : Memory) (i : Nat) (v : Value) : Memory :=
  { m with args := m.args.setIfInBounds i v }

/-- Writes a variable. -/
def setSlot (m : Memory) (slot : VarSlot) (v : Value) : Memory :=
  match slot with
  | .arg i => m.setArg i v
  | .local i => m.setLocal i v

/-- The memory after a change of heap and static fields. -/
def shared (m : Memory) (h : Heap) (st : Statics) : Memory := { m with heap := h, statics := st }

end Memory

namespace Run

/-! ## Actions without frames -/

/-- A state without frames on the outline of a heap. -/
def bare (h : Heap) (st : Statics) : State := ⟨h.outline, [], st⟩

/-- The first state is the second without its frames and on the outline of its heap; the second has
the given frames and function values. -/
structure Mirror (frames : List Frame) (functions : Array Callable) (s t : State) : Prop where
  heap : s.heap = t.heap.outline
  statics : s.statics = t.statics
  bare : s.frames = []
  frames : t.frames = frames
  functions : t.heap.functions = functions

/-- The second outcome is the first on a heap with code and with the given frames. -/
def Mirrors {α : Type} (frames : List Frame) (functions : Array Callable) :
    EStateM.Result Trap State α → EStateM.Result Trap State α → Prop
  | .ok a s, .ok b t => a = b ∧ Mirror frames functions s t
  | .error e s, .error f t => e = f ∧ Mirror frames functions s t
  | _, _ => False

/-- An action that depends neither on frames nor on the code of function values. -/
def Local {α : Type} (x : Run α) : Prop :=
  ∀ (h : Heap) (st : Statics) (frames : List Frame),
    Mirrors frames h.functions (x (bare h st)) (x ⟨h, frames, st⟩)

namespace Local

variable {α β : Type}

theorem pure (a : α) : Local (pure a : Run α) := fun _ _ _ => ⟨rfl, rfl, rfl, rfl, rfl, rfl⟩

/-- Local actions compose. -/
theorem bind {x : Run α} {f : α → Run β} (hx : Local x) (hf : ∀ a, Local (f a)) :
    Local (x >>= f) := by
  intro h st frames
  have hfirst := hx h st frames
  change Mirrors frames h.functions (EStateM.bind x f _) (EStateM.bind x f _)
  unfold EStateM.bind
  revert hfirst
  cases x (bare h st) with
  | ok a s =>
      cases x ⟨h, frames, st⟩ with
      | ok b t =>
          rintro ⟨rfl, hheap, hstatics, hs, ht, hfunctions⟩
          obtain ⟨heap, fs, statics⟩ := s
          obtain ⟨heap', fs', statics'⟩ := t
          simp only at hheap hstatics hs ht hfunctions
          subst hheap hstatics hs ht
          rw [← hfunctions]
          exact hf a heap' statics fs'
      | error f t => exact False.elim
  | error e s =>
      cases x ⟨h, frames, st⟩ with
      | ok b t => exact False.elim
      | error f t => exact id

theorem throw (t : Trap) : Local (throw t : Run α) := fun _ _ _ => ⟨rfl, rfl, rfl, rfl, rfl, rfl⟩

theorem invalid (d : Defect) : Local (invalid d : Run α) := throw _

theorem ofLookup (e : Except MetadataError α) : Local (ofLookup e) := by
  cases e with
  | ok a => exact .pure a
  | error e => exact .invalid _

theorem ofCompare (e : Except Defect Bool) : Local (ofCompare e) := by
  cases e with
  | ok b => exact .pure b
  | error d => exact .invalid d

theorem allocObject (r : Registry) (ty : TypeId) : Local (allocObject r ty) := by
  refine .bind (.ofLookup _) fun layout => .bind (.ofLookup _) fun fields => ?_
  intro h st frames
  exact ⟨rfl, rfl, rfl, rfl, rfl, rfl⟩

theorem throwNew (r : Registry) (ty : TypeId) (message : String) :
    Local (throwNew r ty message : Run α) := by
  refine .bind (.allocObject r ty) fun ref => .bind ?_ fun _ => .throw _
  intro h st frames
  exact ⟨rfl, rfl, rfl, rfl, rfl, rfl⟩

theorem raise (r : Registry) (f : Fault) : Local (raise r f : Run α) := throwNew _ _ _

theorem ofNumeric (r : Registry) (e : Except NumFault α) : Local (ofNumeric r e) := by
  cases e with
  | ok a => exact .pure a
  | error f => cases f <;> first | exact .raise r _ | exact .invalid _

end Local

end Run

end Arbor
