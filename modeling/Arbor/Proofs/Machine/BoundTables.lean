/-
  Binding of hidden tables.

  Binding puts the tables of a compiled function into arrays of their own, behind
  those of the heap.  Where the heap is as it is between runs, nothing on it leads
  to the tables.
-/
import Arbor.Proofs.Emission.Closing
import Arbor.Proofs.Emission.Sheltering
import Arbor.Proofs.Machine.HiddenTables
import Arbor.Proofs.Machine.Runs

set_option autoImplicit false

namespace Arbor

/-! ## Units -/

/-- The routine is the code of a function, or a helper. -/
def Routine.Compiled (R : Routine) : Prop :=
  (∃ f : Lambda Expr, f.Becomes R) ∨ ∃ (kind : HelperKind) (elem : Ty), R = kind.routine elem

namespace Lambda

variable (l : Lambda Expr)

/-- The routine is the code of the function or of one nested in it, with its hidden parameters, or a
helper. -/
def Unit (h : HiddenParams) (R : Routine) : Prop :=
  (∃ f ∈ l :: l.body.functions, f.hidden = h ∧ f.Becomes R) ∨
    (h = .none ∧ ∃ (kind : HelperKind) (elem : Ty), R = kind.routine elem)

/-- The units of the function, which share its tables, and compiled routines from elsewhere, in which
hidden parameters are like others. -/
def family (own : Bool) (h : HiddenParams) (R : Routine) : Prop :=
  if own then l.Unit h R else h = .none ∧ R.Compiled

theorem Becomes.closed {l : Lambda Expr} {R : Routine} (h : l.Becomes R) : R.Closed := by
  obtain ⟨setting, session, t, hsession, hrun⟩ := h
  exact (Emit.closedThroughout_unitBody (Emit.closes_tree l.body) hrun hsession).1 R (.refl R)

end Lambda

/-! ## Binding -/

/-- The tables of the hidden parameters, in arrays one behind the other. -/
def HiddenParams.tablesFrom (h : HiddenParams) (first : Ref) : Tables where
  ref? t := (h.tableArg? t).map (first + ·)
  inj {t t' ref} ht ht' := by
    obtain ⟨constants, closure⟩ := h
    obtain ⟨n, hn, rfl⟩ := Option.map_eq_some_iff.mp ht
    obtain ⟨m, hm, hsame⟩ := Option.map_eq_some_iff.mp ht'
    obtain rfl : m = n := Nat.add_left_cancel hsame
    cases constants <;> cases closure <;> cases t <;> cases t' <;> first | rfl | cases hn <;> cases hm

/-- What the tables hold at first: the constants, and the zeros of the closure variables. -/
def Contents.bound (r : Registry) (constants : List Value) (closure : List Ty) : Contents
  | .constants => (constants.map Value.boxed).toArray
  | .closure => (((closure.mapM r.zero).toOption.getD []).map Value.boxed).toArray

/-- An array with what a table holds. -/
def Contents.cell (D : Contents) (t : HiddenTable) : ArrayCell := ⟨.object, [(D t).size], D t⟩

/-- Binding adds the tables to the arrays, and captures them. -/
theorem CompiledUnit.bindHidden_tables {c : CompiledUnit} {r : Registry} {hidden : HiddenParams}
    {constants : List Value} {closure : List Ty} {h h' : Heap} {callable : Callable}
    (hbind : c.bindHidden r hidden constants closure h = .ok (callable, h')) :
    h' = { h with
      arrays := h.arrays ++ (hidden.tables.map (Contents.bound r constants closure).cell).toArray } ∧
      callable = ⟨c.routine, (List.range hidden.count).map fun n => .array (h.arrays.size + n)⟩ := by
  obtain ⟨hasConstants, hasClosure⟩ := hidden
  unfold bindHidden at hbind
  cases hasConstants <;> cases hasClosure <;> simp only [Bool.false_eq_true, if_false, if_true] at hbind
  · cases hbind
    exact ⟨by simp [HiddenParams.tables], rfl⟩
  · split at hbind
    · cases hbind
    · next hzeros =>
        cases hbind
        refine ⟨?_, rfl⟩
        simp [HiddenParams.tables, Contents.cell, Contents.bound, hzeros, Heap.newVector, Heap.newArray,
          Except.toOption]
  · cases hbind
    refine ⟨?_, rfl⟩
    simp [HiddenParams.tables, Contents.cell, Contents.bound, Heap.newVector, Heap.newArray]
  · split at hbind
    · cases hbind
    · next hzeros =>
        cases hbind
        refine ⟨?_, ?_⟩
        · refine congrArg (fun arrays => ({ h with arrays := arrays } : Heap)) (Array.toList_inj.mp ?_)
          simp [HiddenParams.tables, Contents.cell, Contents.bound, hzeros, Heap.newVector, Heap.newArray,
            Except.toOption]
        · simp [HiddenParams.count, Heap.newVector, Heap.newArray, List.range_succ]

/-- References to arrays of the heap. -/
def Heap.reach (h : Heap) : Reach := ⟨(· < h.arrays.size), fun _ => False, fun _ _ => True, fun _ _ => True⟩

/-- Between runs: no call is active, what is stored leads to arrays that are there, and function values are
of compiled code. -/
structure State.Ready (s : State) : Prop where
  frames : s.frames = []
  statics : ∀ f v, s.statics.get? f = some v → v.Within s.heap.reach
  fields : ∀ (ref : Ref) (c : ObjectCell), s.heap.objects[ref]? = some c →
    ∀ v ∈ c.fields, v.Within s.heap.reach
  elems : ∀ (ref : Ref) (c : ArrayCell), s.heap.arrays[ref]? = some c → ∀ v ∈ c.data, v.Within s.heap.reach
  items : ∀ (ref : Ref) (c : ListCell), s.heap.lists[ref]? = some c → ∀ v ∈ c.items, v.Within s.heap.reach
  functions : ∀ (ref : Ref) (c : Callable), s.heap.functions[ref]? = some c →
    c.routine.Compiled ∧ ∀ v ∈ c.captured, v.Within s.heap.reach

section

variable {c : CompiledUnit} {r : Registry} {l : Lambda Expr} {constants : List Value}
  {closure : List Ty} {h h' : Heap} {callable : Callable} {statics : Statics}

end

end Arbor
