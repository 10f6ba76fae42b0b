/-
  Allocation of arrays.

  An array is made with as many zeros as the product of its bounds, counted in 64
  bits, and keeps their number whatever is written to it.  So in every state that a
  host can bring about, an array of fewer than 2^64 elements has all of them, and
  each can be read and written through its indices.
-/
import Arbor.Proofs.ArgumentConversion
import Arbor.Proofs.ArrayOffsets
import Arbor.Proofs.Machine.BoundTables
import Arbor.Proofs.Machine.HeapChanges

set_option autoImplicit false

namespace Arbor

/-! ## Heaps of a host -/

theorem ArrayCell.filled_vector (elem : Ty) {n : Nat} {data : Array Value} (h : data.size = n) :
    ArrayCell.Filled ⟨elem, [n], data⟩ := fun _ => by
  rw [h, List.prod_cons, List.prod_nil, Nat.mul_one]

/-- A heap evolves when filled arrays are added. -/
theorem Heap.evolves_append (h : Heap) {cells : List ArrayCell} (hcells : ∀ c ∈ cells, c.Filled) :
    h.Evolves { h with arrays := h.arrays ++ cells.toArray } := by
  induction cells generalizing h with
  | nil => rw [Array.append_empty]
  | cons c cells ih =>
      obtain ⟨hc, hrest⟩ := List.forall_mem_cons.mp hcells
      have happend : h.arrays ++ (c :: cells).toArray = h.arrays.push c ++ cells.toArray := by
        simp
      rw [happend]
      exact .head (.newArray h hc) (ih _ hrest)

/-- Binding a compiled function lets the heap evolve. -/
theorem CompiledUnit.evolves_of_bindHidden {c : CompiledUnit} {r : Registry} {hidden : HiddenParams}
    {constants : List Value} {closure : List Ty} {h h' : Heap} {callable : Callable}
    (hbind : c.bindHidden r hidden constants closure h = .ok (callable, h')) : h.Evolves h' := by
  rw [(bindHidden_tables hbind).1]
  refine h.evolves_append fun cell hcell => ?_
  obtain ⟨t, -, rfl⟩ := List.mem_map.mp hcell
  exact ArrayCell.filled_vector _ rfl

namespace Convert

variable {r : Registry} {α β : Type}

/-- The conversion lets the heap evolve. -/
def Evolves (x : Convert α) : Prop := ∀ h a h', x h = .ok (a, h') → h.Evolves h'

namespace Evolves

theorem pure (a : α) : Evolves (pure a) := fun _ _ _ hx => by
  cases hx
  exact .refl

theorem bind {x : Convert α} {f : α → Convert β} (hx : x.Evolves) (hf : ∀ a, (f a).Evolves) :
    (x >>= f).Evolves := by
  intro h b h' hrun
  obtain ⟨a, h₁, hfirst, hrest⟩ := ok_of_bind hrun
  exact (hx h a h₁ hfirst).trans (hf a h₁ b h' hrest)

theorem throw (e : ProgramError) : Evolves (throw e : Convert α) := fun _ _ _ hx => nomatch hx

theorem ofLookup (e : Except MetadataError α) : Evolves (ofLookup e) := fun _ _ _ hx => by
  rw [(ofLookup_ok hx).2]

/-- A new cell. -/
theorem alloc {f : Heap → Value × Heap} (hf : ∀ h : Heap, h.Change (f h).2) : Evolves (alloc f) :=
  fun h v h' hx => by
    have hcell : f h = (v, h') := Except.ok.inj hx
    have hchange := hf h
    rw [hcell] at hchange
    exact .single hchange

/-- Storing a field. -/
theorem fill (target : Value) (slot : Nat) (v : Value) : Evolves (fill target slot v) := by
  cases target with
  | object ref =>
      intro h a h' hx
      cases hx
      exact .single (.setField h ref slot v)
  | _ => exact pure _

/-- A zeroed instance. -/
theorem fresh (t : Ty) : Evolves (fresh r t) := by
  unfold Convert.fresh
  split
  · exact bind (ofLookup _) fun _ => bind (ofLookup _) fun _ => alloc fun h => .newObject h _
  · exact ofLookup _

/-- Values that hold no others. -/
theorem scalar (j : Json) (harr : ∀ items, j ≠ .arr items) (hobj : ∀ members, j ≠ .obj members)
    (t : Ty) (what : String) : Evolves (value r j t what) := by
  cases j with
  | arr items => exact absurd rfl (harr items)
  | obj members => exact absurd rfl (hobj members)
  | _ =>
      unfold value
      dsimp only
      repeat' split
      all_goals first | exact pure _ | exact throw _ | exact ofLookup _

end Evolves

mutual

/-- Converting a value lets the heap evolve. -/
theorem evolves_value : ∀ (j : Json) (t : Ty) (what : String), Evolves (value r j t what)
  | .arr items, t, what => by
      have hitems := evolves_values items
      unfold value
      dsimp only
      split
      · exact .bind (hitems _ what 0) fun vs =>
          .bind (.alloc fun h => .newArray h (ArrayCell.filled_vector _ List.size_toArray)) fun _ => .pure _
      · exact .bind (hitems _ what 0) fun vs => .bind (.alloc fun h => .newList h _) fun _ => .pure _
      · exact .throw _
  | .obj members, t, what => by
      have hmembers := evolves_fields members
      unfold value
      dsimp only
      split
      · exact .bind (.fresh _) fun target => .bind (hmembers _ what target) fun _ => .pure _
      · exact .bind (.fresh _) fun target => .bind (hmembers _ what target) fun _ => .pure _
      · exact .throw _
  | .null, t, what => .scalar .null nofun nofun t what
  | .bool x, t, what => .scalar (.bool x) nofun nofun t what
  | .int x, t, what => .scalar (.int x) nofun nofun t what
  | .float x, t, what => .scalar (.float x) nofun nofun t what
  | .str x, t, what => .scalar (.str x) nofun nofun t what
  | .unreadable, t, what => .scalar .unreadable nofun nofun t what
  termination_by structural j => j

/-- Converting items lets the heap evolve. -/
theorem evolves_values : ∀ (items : List Json) (elem : Ty) (what : String) (index : Nat),
    Evolves (values r items elem what index)
  | [], _, _, _ => .pure _
  | j :: rest, elem, what, _ =>
      .bind (evolves_value j elem _) fun _ => .bind (evolves_values rest elem what _) fun _ => .pure _
  termination_by structural items => items

/-- Filling fields lets the heap evolve. -/
theorem evolves_fields : ∀ (members : List (String × Json)) (id : TypeId) (what : String) (target : Value),
    Evolves (fields r members id what target)
  | [], _, _, _ => .pure _
  | (_, j) :: rest, id, what, target =>
      .bind (.ofLookup _) fun _ => .bind (.ofLookup _) fun d => .bind (.ofLookup _) fun slot =>
        .bind (evolves_value j d.ty _) fun v => .bind (.fill target slot v) fun target =>
          evolves_fields rest id what target
  termination_by structural members => members

end

end Convert

/-! ## Reachable states -/

namespace Machine

variable {r : Registry} (hhosts : r.HostsKeep State.HeapEvolves)

/-- What a host can bring about: it converts values, binds compiled functions and calls callables and
function values, any number of times, and sees the states in between. -/
inductive Reachable (r : Registry) : State → Prop where
  | initial : Reachable r .initial
  | converted {s : State} {j : Json} {t : Ty} {what : String} {v : Value} {h : Heap} :
      Reachable r s → j.toValue r t what s.heap = .ok (v, h) → Reachable r { s with heap := h }
  | bound {s : State} {c : CompiledUnit} {hidden : HiddenParams} {constants : List Value}
      {closure : List Ty} {callable : Callable} {h : Heap} :
      Reachable r s → c.bindHidden r hidden constants closure s.heap = .ok (callable, h) →
      Reachable r { s with heap := h }
  | invoked {s : State} (budget : Nat) (c : Callable) (args : List Value) :
      Reachable r s → Reachable r (invokeWithin budget r c args s).2
  | called {s : State} (f : Value) (args : List Value) :
      Reachable r s → Reachable r (callValue r f args s).2
  | during {s : State} {budget : Nat} {R : Routine} {args : List Value} {m : Moment} :
      Reachable r s → m ∈ Run.callTrace r (Run.execTrace r budget) R args s → Reachable r m.state

include hhosts in
/-- The heap of a reachable state comes about from the empty one. -/
theorem Reachable.evolves {s : State} (hs : Reachable r s) : Heap.empty.Evolves s.heap := by
  induction hs with
  | initial => exact .refl
  | converted _ hvalue ih => exact ih.trans (Convert.evolves_value _ _ _ _ _ _ hvalue)
  | bound _ hbind ih => exact ih.trans (CompiledUnit.evolves_of_bindHidden hbind)
  | @invoked s budget c args _ ih =>
      have hcall : Run.EndsIn (fun t => Run.Evolving s.heap _ t.heap)
          (Run.call r budget (.routine c.routine) (c.captured ++ args) s) :=
        Run.evolving_call hhosts trivial
      exact ih.trans (Run.observe_endsIn hcall).evolves
  | @called s f args _ ih =>
      have hcall : Run.EndsIn (fun t => s.heap.Evolves t.heap)
          (Run.callValue r (Run.call r stepBudget) f args s) := Run.evolves_callValue hhosts f
      exact ih.trans (Run.observe_endsIn hcall)
  | @during s budget R args m _ hm ih =>
      have hcall : Run.EndsIn (fun t => Run.Evolving s.heap _ t.heap)
          (Run.call r budget (.routine R) args s) := Run.evolving_call hhosts trivial
      exact ih.trans ((Run.observe_endsIn (r := r) hcall).moment hm)

include hhosts in
theorem Reachable.filled {s : State} (hs : Reachable r s) : s.heap.Filled :=
  (hs.evolves hhosts).filled fun ref c hc => by simp [Heap.empty] at hc

end Machine

/-! ## Allocation and access -/

/-- The instruction that makes an array, as it is emitted behind so many bounds. -/
def Instr.allocator (elem : Ty) (rank : Nat) : Instr :=
  if rank = 1 then .newArray elem else .newMdArray elem rank

namespace Run

variable {r : Registry} {R : Routine} {call : Caller} {m : Memory} {a : Around} {stack : List Value}
  {elem : Ty}

/-- An array is made with the bounds on the stack. -/
theorem step_allocator {bounds : List Value} {dims : List Int}
    (hbounds : bounds.mapM Value.toIndex? = some dims) :
    step r call R (.allocator elem bounds.length) (m.state a (bounds.reverse ++ stack)) =
      (Run.newArray r elem dims >>= fun v => pushNext v) (m.state a stack) := by
  unfold Instr.allocator
  split
  · next hone =>
    obtain ⟨v, rfl⟩ := List.length_eq_one_iff.mp hone
    obtain ⟨n, hn, hdims⟩ := Option.bind_eq_some_iff.mp hbounds
    cases hdims
    have hpop : popIndex (m.state a ([v].reverse ++ stack)) = .ok n (m.state a stack) := by
      simp [popIndex, Run.pop, hn, Memory.state, bind, EStateM.bind, pure, EStateM.pure]
    simp only [step, bind, EStateM.bind, hpop]
    rfl
  · have hpop : popN bounds.length (m.state a (bounds.reverse ++ stack)) = .ok bounds (m.state a stack) :=
      popN_state bounds
    simp only [step, bind, EStateM.bind, hpop, hbounds]

/-- Within the bounds of a filled array there is an element, which is read and written through its
indices. -/
theorem accessed_of_filled {s : State} {ref : Ref} {c : ArrayCell} (hc : s.heap.arrays[ref]? = some c)
    (hfew : c.dims.prod < 0x10000000000000000) (hfilled : c.Filled) {is : List Value}
    (hin : InBounds c.dims (is.map indexOf)) :
    (∃ v, Run.intrinsic r (.mdGet elem is.length) (.array ref :: is) s = .ok v s) ∧
      ∀ x, ∃ t, Run.intrinsic r (.mdSet elem is.length) (.array ref :: (is ++ [x])) s = .ok .null t ∧
        Run.intrinsic r (.mdGet elem is.length) (.array ref :: is) t = .ok x t := by
  obtain ⟨position, hoffset, hlt⟩ : ∃ n, c.offset? (is.map indexOf) = some n ∧ n < c.data.size := by
    refine ⟨_, ArrayCell.offset?_eq hfew hin, ?_⟩
    rw [hfilled hfew]
    exact elementPosition_lt hin
  refine ⟨⟨c.data[position], ?_⟩, fun x => ⟨{ s with heap := s.heap.setElem ref position x }, ?_, ?_⟩⟩
  · rw [intrinsic_mdGet_apply hc, hoffset]
    simp only [Array.getElem?_eq_getElem hlt]
    rfl
  · rw [intrinsic_mdSet_apply hc, hoffset]
    simp only [if_pos hlt]
  · -- The write keeps the dimensions, and with them the offset.
    have hsame : ArrayCell.offset? { c with data := c.data.setIfInBounds position x } (is.map indexOf) =
        some position := hoffset
    rw [intrinsic_mdGet_apply (Heap.arrays_setElem hc position x), hsame]
    simp only [Array.getElem?_setIfInBounds_self_of_lt hlt]
    rfl

/-- Arrays are allocated with their elements.  In every reachable state, an array whose dimensions have a
product below 2^64 has as many elements as that, and each can be read and written through its indices.
Bounds of which one is negative raise an overflow.  Otherwise the number of elements is the product of the
bounds, cut off to 64 bits: where there is room for so many, the new array has so many zeros, and elsewhere
the run is cut short. -/
theorem arrays_allocated (hr : r.HasFaults) (hhosts : r.HostsKeep State.HeapEvolves) :
    (∀ s, Machine.Reachable r s → ∀ (ref : Ref) (c : ArrayCell), s.heap.arrays[ref]? = some c →
      c.dims.prod < 0x10000000000000000 → c.data.size = c.dims.prod ∧
        ∀ (elem : Ty) (is : List Value), InBounds c.dims (is.map indexOf) →
          (∃ v, Run.intrinsic r (.mdGet elem is.length) (.array ref :: is) s = .ok v s) ∧
          ∀ x, ∃ t, Run.intrinsic r (.mdSet elem is.length) (.array ref :: (is ++ [x])) s = .ok .null t ∧
            Run.intrinsic r (.mdGet elem is.length) (.array ref :: is) t = .ok x t) ∧
    ∀ (R : Routine) (call : Caller) (m : Memory) (a : Around) (stack : List Value) (elem : Ty)
      (bounds : List Value) (dims : List Int), bounds.mapM Value.toIndex? = some dims →
      ((∃ d ∈ dims, d < 0) → ∃ e t,
        step r call R (.allocator elem bounds.length) (m.state a (bounds.reverse ++ stack)) = .error e t ∧
          e.Throws .overflow t.heap) ∧
      ((∀ d ∈ dims, 0 ≤ d) → ∀ zero, r.zero elem = .ok zero →
        ((dims.map Int.toNat).prod % 0x10000000000000000 ≤ maxElements →
          step r call R (.allocator elem bounds.length) (m.state a (bounds.reverse ++ stack)) =
            .ok .next ((m.shared (m.heap.newArray ⟨elem, dims.map Int.toNat,
              Array.replicate ((dims.map Int.toNat).prod % 0x10000000000000000) zero⟩).2 m.statics).state a
                (.array m.heap.arrays.size :: stack))) ∧
        (maxElements < (dims.map Int.toNat).prod % 0x10000000000000000 →
          step r call R (.allocator elem bounds.length) (m.state a (bounds.reverse ++ stack)) =
            .error (.halted .storage) (m.state a stack))) := by
  refine ⟨fun s hs ref c hc hfew => ⟨hs.filled hhosts ref c hc hfew, fun elem is hin => ?_⟩,
    fun R call m a stack elem bounds dims hbounds =>
      ⟨?_, fun hdims zero hzero => ⟨fun hroom => ?_, fun hfull => ?_⟩⟩⟩
  · exact accessed_of_filled hc hfew (hs.filled hhosts ref c hc) hin
  · rintro ⟨d, hd, hnegative⟩
    obtain ⟨e, t, hraise, hthrows⟩ := raise_throws (α := Flow) hr .overflow (m.state a stack)
    refine ⟨e, t, ?_, hthrows⟩
    have hany : dims.any (· < 0) = true := List.any_eq_true.mpr ⟨d, hd, by simpa using hnegative⟩
    rw [step_allocator hbounds, Run.newArray, if_pos hany, ← hraise]
    exact raise_bind .overflow _ _
  · rw [step_allocator hbounds]
    simp only [bind, EStateM.bind, newArray_apply hzero hdims hroom]
    rfl
  · rw [step_allocator hbounds]
    simp only [bind, EStateM.bind, newArray_eq hzero hdims, if_pos hfull]

/-- A function without parameters that makes an array of numbers. -/
def allocating (bounds : List Nat) : Callable :=
  let code : List Instr := bounds.map (fun n => .const (.num (.i32 n))) ++
    [.allocator .int bounds.length, .ret]
  ⟨⟨.unit 0, "allocating", [], .mdArray .int bounds.length, #[], code.toArray, #[], [], []⟩, []⟩

/-- What the function leaves behind. -/
def allocated (bounds : List Nat) : State :=
  (Machine.invokeWithin 10 .builtin (allocating bounds) [] .initial).2

theorem reachable_allocated (bounds : List Nat) : Machine.Reachable .builtin (allocated bounds) :=
  .invoked 10 (allocating bounds) [] .initial

/-- Dimensions of the first array, and the number of its items. -/
def firstShape? (s : State) : Option (List Nat × Nat) :=
  (s.heap.arrays[0]?).map fun c => (c.dims, c.data.size)

theorem exists_of_firstShape? {s : State} {dims : List Nat} {n : Nat} (h : firstShape? s = some (dims, n)) :
    ∃ c, s.heap.arrays[0]? = some c ∧ c.dims = dims ∧ c.data.size = n := by
  obtain ⟨c, hc, hshape⟩ := Option.map_eq_some_iff.mp h
  exact ⟨c, hc, congrArg Prod.fst hshape, congrArg Prod.snd hshape⟩

/-- Two rows of three numbers are six, of which the last can be read and written; minus two rows are
none. -/
theorem arrays_allocated_rows :
    (∃ c, (allocated [2, 3]).heap.arrays[0]? = some c ∧ c.dims = [2, 3] ∧ c.data.size = c.dims.prod ∧
      ∃ t, Run.intrinsic .builtin (.mdSet .int 2) [.array 0, .int 1, .int 2, .int 7] (allocated [2, 3]) =
          .ok .null t ∧
        Run.intrinsic .builtin (.mdGet .int 2) [.array 0, .int 1, .int 2] t = .ok (.int 7) t) ∧
    ∃ e t, step .builtin (Run.call .builtin 0) (allocating [2, 3]).routine (.allocator .int 2)
        ⟨.empty, [⟨#[], #[], [.int 3, .int (-2)], []⟩], []⟩ = .error e t ∧ e.Throws .overflow t.heap := by
  obtain ⟨hreached, hmade⟩ := arrays_allocated (r := .builtin) List.prefix_rfl (Registry.hostsKeep_builtin _)
  have hshape : firstShape? (allocated [2, 3]) = some ([2, 3], 6) := by decide +kernel
  obtain ⟨c, hc, hdims, -⟩ := exists_of_firstShape? hshape
  obtain ⟨hsize, haccessed⟩ := hreached _ (reachable_allocated [2, 3]) 0 c hc (by rw [hdims]; decide)
  obtain ⟨-, hwritten⟩ := haccessed .int [.int 1, .int 2] (by rw [hdims]; decide)
  refine ⟨⟨c, hc, hdims, hsize, hwritten (.int 7)⟩, ?_⟩
  obtain ⟨hnegative, -⟩ := hmade (allocating [2, 3]).routine (Run.call .builtin 0)
    ⟨.empty, [], #[], #[]⟩ ⟨[], []⟩ [] .int [.int (-2), .int 3] [-2, 3] rfl
  exact hnegative ⟨-2, by decide⟩

/-- Four dimensions of 65536 have 2^64 elements together: an array with these bounds is made without any,
and its first element cannot be read. -/
theorem not_allocated_huge :
    ∃ c, Machine.Reachable .builtin (allocated [65536, 65536, 65536, 65536]) ∧
      (allocated [65536, 65536, 65536, 65536]).heap.arrays[0]? = some c ∧ InBounds c.dims [0, 0, 0, 0] ∧
      c.data.size ≠ c.dims.prod ∧
      Run.intrinsic .builtin (.mdGet .int 4) [.array 0, .int 0, .int 0, .int 0, .int 0]
          (allocated [65536, 65536, 65536, 65536]) =
        .error (.invalid (.dangling (.elem 0 0))) (allocated [65536, 65536, 65536, 65536]) := by
  have hshape : firstShape? (allocated [65536, 65536, 65536, 65536]) =
      some ([65536, 65536, 65536, 65536], 0) := by decide +kernel
  obtain ⟨c, hc, hdims, hsize⟩ := exists_of_firstShape? hshape
  -- The indices have an offset, as they are within the dimensions, but there is no item at it.
  refine ⟨c, reachable_allocated _, hc, by rw [hdims]; decide, by rw [hdims, hsize]; decide, ?_⟩
  have hoffset : c.offset? [0, 0, 0, 0] = some 0 := by
    rw [ArrayCell.offset?, hdims]
    rfl
  have hget := intrinsic_mdGet_apply (r := .builtin) hc .int [.int 0, .int 0, .int 0, .int 0]
  have hindices : [Value.int 0, .int 0, .int 0, .int 0].map indexOf = [0, 0, 0, 0] := by decide
  rw [hindices, hoffset] at hget
  simp only [Array.getElem?_eq_none (Nat.le_of_eq hsize)] at hget
  exact hget

end Run

end Arbor
