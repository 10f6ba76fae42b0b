/-
  Elements of containers.

  An array, an array of several dimensions or a list has lengths along its
  dimensions and items in row-major order.  The machine counts offsets in 64 bits;
  in a container of fewer than 2^31 items no count is cut off, and the instructions
  that read, write or locate an element do so exactly at the position of its
  indices.
-/
import Arbor.Proofs.Machine.Instructions
import Arbor.Proofs.Machine.Passages
import Mathlib.Algebra.Group.Nat.Defs
import Mathlib.Data.List.Forall2

set_option autoImplicit false

namespace Arbor

/-! ## Positions -/

/-- Every index lies within its dimension. -/
def InBounds (dims : List Nat) (is : List Int) : Prop :=
  List.Forall₂ (fun (d : Nat) (i : Int) => 0 ≤ i ∧ i < d) dims is

instance (dims : List Nat) (is : List Int) : Decidable (InBounds dims is) :=
  inferInstanceAs (Decidable (List.Forall₂ (fun (d : Nat) (i : Int) => 0 ≤ i ∧ i < d) dims is))

/-- Position of an element in row-major order, behind the given number of rows. -/
def positionFrom : Nat → List Nat → List Int → Nat
  | acc, d :: ds, i :: is => positionFrom (acc * d + i.toNat) ds is
  | acc, _, _ => acc

/-- Position of an element in row-major order. -/
def elementPosition (dims : List Nat) (is : List Int) : Nat := positionFrom 0 dims is

/-- Positions within bounds stay below the number of items. -/
theorem positionFrom_lt {dims : List Nat} {is : List Int} (h : InBounds dims is) (acc : Nat) :
    positionFrom acc dims is < (acc + 1) * dims.prod := by
  induction h generalizing acc with
  | nil => simp [positionFrom]
  | @cons d i ds is hi _ ih =>
      have hlt : acc * d + i.toNat + 1 ≤ (acc + 1) * d := by
        rw [Nat.add_mul]
        omega
      calc positionFrom (acc * d + i.toNat) ds is
          < (acc * d + i.toNat + 1) * ds.prod := ih _
        _ ≤ ((acc + 1) * d) * ds.prod := Nat.mul_le_mul_right _ hlt
        _ = (acc + 1) * (d :: ds).prod := by rw [List.prod_cons, Nat.mul_assoc]

theorem elementPosition_lt {dims : List Nat} {is : List Int} (h : InBounds dims is) :
    elementPosition dims is < dims.prod := by
  simpa [elementPosition] using positionFrom_lt h 0

theorem InBounds.one_le_prod {dims : List Nat} {is : List Int} (h : InBounds dims is) :
    1 ≤ dims.prod := Nat.lt_of_le_of_lt (Nat.zero_le _) (elementPosition_lt h)

/-- Counting in 64 bits cuts nothing off where there are not that many items. -/
theorem rowMajor?_eq {dims : List Nat} {is : List Int} (h : InBounds dims is) {acc : Nat}
    (hfew : (acc + 1) * dims.prod ≤ 0x10000000000000000) :
    rowMajor? acc dims is = some (positionFrom acc dims is) := by
  induction h generalizing acc with
  | nil => rfl
  | @cons d i ds is hi hrest ih =>
      have hone := InBounds.one_le_prod hrest
      have hlt : acc * d + i.toNat + 1 ≤ (acc + 1) * d := by
        rw [Nat.add_mul]
        omega
      have hfew : (acc * d + i.toNat + 1) * ds.prod ≤ 0x10000000000000000 := by
        refine Nat.le_trans (Nat.mul_le_mul_right _ hlt) ?_
        rwa [List.prod_cons, ← Nat.mul_assoc] at hfew
      have hbelow : acc * d + i.toNat < 0x10000000000000000 :=
        Nat.lt_of_lt_of_le (Nat.le_mul_of_pos_right _ hone) hfew
      rw [rowMajor?, if_pos hi, Nat.mod_eq_of_lt hbelow]
      exact ih hfew

theorem ArrayCell.offset?_eq {c : ArrayCell} (hfew : c.dims.prod < 0x10000000000000000) {is : List Int}
    (hin : InBounds c.dims is) : c.offset? is = some (elementPosition c.dims is) :=
  rowMajor?_eq hin (by omega)

/-! ## Containers -/

namespace Heap

/-- A container of the heap, as an element place of the kind sees it: the lengths of its dimensions
and its items. -/
inductive Holds (h : Heap) : PlaceKind → Value → List Nat → Array Value → Prop where
  | array {ref : Ref} {c : ArrayCell} (hc : h.arrays[ref]? = some c) :
      Holds h .arrayElem (.array ref) [c.size] c.data
  | mdArray {elem : Ty} {rank : Nat} {ref : Ref} {c : ArrayCell} (hc : h.arrays[ref]? = some c) :
      Holds h (.mdElem elem rank) (.array ref) c.dims c.data
  | list {elem : Ty} {ref : Ref} {c : ListCell} (hc : h.lists[ref]? = some c) :
      Holds h (.listElem elem) (.list ref) [c.items.size] c.items

theorem elem?_eq {h : Heap} {ref : Ref} {c : ArrayCell} (hc : h.arrays[ref]? = some c) (n : Nat) :
    h.elem? ref n = c.data[n]? := by
  simp [elem?, hc]

theorem arrays_setElem {h : Heap} {ref : Ref} {c : ArrayCell} (hc : h.arrays[ref]? = some c) (n : Nat)
    (x : Value) :
    (h.setElem ref n x).arrays[ref]? = some { c with data := c.data.setIfInBounds n x } := by
  simp [setElem, Array.getElem?_modify, hc]

/-- Replaces an item of a container. -/
def setItem (h : Heap) (container : Value) (position : Nat) (v : Value) : Heap :=
  match container with
  | .array ref => h.setElem ref position v
  | .list ref =>
      { h with lists := h.lists.modify ref fun c => { c with items := c.items.setIfInBounds position v } }
  | _ => h

end Heap

/-- The items fill the dimensions, and there are fewer than 2^31 of them. -/
structure IsSmall (dims : List Nat) (items : Array Value) : Prop where
  size : items.size = dims.prod
  few : items.size < Run.depthLimit
  short : ∀ d ∈ dims, d < Run.depthLimit

theorem IsSmall.prod_lt {dims : List Nat} {items : Array Value} (h : IsSmall dims items) :
    dims.prod < 0x10000000000000000 := by
  have hfew := h.few
  rw [h.size, Run.depthLimit] at hfew
  omega

theorem IsSmall.item {dims : List Nat} {items : Array Value} (h : IsSmall dims items) {is : List Int}
    (his : InBounds dims is) : ∃ v, items[elementPosition dims is]? = some v := by
  have hlt := elementPosition_lt his
  rw [← h.size] at hlt
  exact ⟨_, Array.getElem?_eq_getElem hlt⟩

/-- Indices, as 32-bit integers. -/
abbrev IndexWord := Word .i32

/-- An index as a value. -/
def IndexWord.value (w : IndexWord) : Value := .num (.int .i32 w)

/-- An index is read back as what it is. -/
theorem IndexWord.toIndex? (w : IndexWord) : w.value.toIndex? = some w.val := by
  have h64 : IntKind.i64.min ≤ w.val ∧ w.val ≤ IntKind.i64.max := by
    have hlower := w.lower
    have hupper := w.upper
    simp only [IntKind.min, IntKind.max, IntKind.signed, IntKind.modulus, IntKind.bits, if_true,
      Nat.pow_eq, Nat.reducePow] at *
    omega
  simp [value, Value.toIndex?, Num.kind, NumKind.isIntegral, NumKind.isFloat, Num.toIndex, Word.wrap,
    Word.residue_eq_self h64]

namespace Run

variable {r : Registry} {R : Routine} {m n : Memory} {a : Around} {stack : List Value} {h : Heap}

theorem indexOf_value (w : IndexWord) : indexOf w.value = w.val := by
  rw [indexOf, w.toIndex?, Option.getD_some]

/-- Operands on the stack, the last one on top, are popped in order. -/
theorem popN_state (args : List Value) :
    popN args.length (m.state a (args.reverse ++ stack)) = .ok args (m.state a stack) := by
  have htake : (args.reverse ++ stack).take args.length = args.reverse := by
    rw [← List.length_reverse, List.take_left]
  have hdrop : (args.reverse ++ stack).drop args.length = stack := by
    rw [← List.length_reverse, List.drop_left]
  have hlength : ¬ (args.reverse ++ stack).length < args.length := by simp
  simp only [popN, Memory.state, htake, hdrop, hlength, if_false, List.reverse_reverse]

namespace Steps

theorem intrinsic {op : Intrinsic} (args : List Value) {v : Value} (hargs : args.length = op.arity)
    (hv : Run.intrinsic r op args (m.state a stack) = .ok v (n.state a stack)) :
    Steps r R (.call (.intrinsic op)) (m.state a (args.reverse ++ stack))
      (.ok .next (n.state a (if op.signature.ret.isVoid then stack else v :: stack))) :=
  .of_forall fun call => by
    have hpop : popN args.length (m.state a (args.reverse ++ stack)) = .ok args (m.state a stack) :=
      popN_state args
    rw [hargs] at hpop
    change EStateM.bind (popN op.arity) (fun args => EStateM.bind (Run.intrinsic r op args)
      fun v => if op.signature.ret.isVoid then pure .next else pushNext v) _ = _
    simp only [EStateM.bind, hpop, hv]
    cases op.signature.ret.isVoid <;> rfl

theorem loadLength {ref : Ref} {c : ArrayCell} (hc : m.heap.arrays[ref]? = some c) :
    Steps r R .loadLength (m.state a (.array ref :: stack))
      (.ok .next (m.state a (.int c.size :: stack))) :=
  .of_forall fun _ => by
    simp [step, Run.pop, arrayCell, hc, pushNext, push, modifyFrame, Memory.state, bind, EStateM.bind,
      pure, EStateM.pure, Run.get_apply]

theorem loadElem {ref : Ref} {c : ArrayCell} {w : IndexWord} {v : Value}
    (hc : m.heap.arrays[ref]? = some c) (hbounds : 0 ≤ w.val ∧ w.val < c.size)
    (hv : c.data[w.val.toNat]? = some v) :
    Steps r R .loadElem (m.state a (w.value :: .array ref :: stack))
      (.ok .next (m.state a (v :: stack))) :=
  .of_forall fun _ => by
    simp [step, popIndex, Run.pop, w.toIndex?, elementAddr, arrayCell, hc, hbounds, loadAddr, orDangling,
      Heap.elem?, hv, pushNext, push, modifyFrame, Memory.state, bind, EStateM.bind, pure,
      EStateM.pure, Run.get_apply]

theorem loadElemAddr {ref : Ref} {c : ArrayCell} {w : IndexWord} (hc : m.heap.arrays[ref]? = some c)
    (hbounds : 0 ≤ w.val ∧ w.val < c.size) :
    Steps r R .loadElemAddr (m.state a (w.value :: .array ref :: stack))
      (.ok .next (m.state a (.addr (.elem ref w.val.toNat) :: stack))) :=
  .of_forall fun _ => by
    simp [step, popIndex, Run.pop, w.toIndex?, elementAddr, arrayCell, hc, hbounds, pushNext, push,
      modifyFrame, Memory.state, bind, EStateM.bind, pure, EStateM.pure, Run.get_apply]

theorem storeElem {ref : Ref} {c : ArrayCell} {w : IndexWord} {v x : Value}
    (hc : m.heap.arrays[ref]? = some c) (hbounds : 0 ≤ w.val ∧ w.val < c.size)
    (hv : c.data[w.val.toNat]? = some v) :
    Steps r R .storeElem (m.state a (x :: w.value :: .array ref :: stack))
      (.ok .next ((m.shared (m.heap.setElem ref w.val.toNat x) m.statics).state a stack)) :=
  .of_forall fun _ => by
    simp [step, popIndex, Run.pop, w.toIndex?, elementAddr, arrayCell, hc, hbounds, storeAddr,
      orDangling, Heap.elem?, hv, Memory.state, Memory.shared, bind, EStateM.bind, pure,
      EStateM.pure, Run.get_apply, Run.modify_apply]

end Steps

/-! ## Intrinsics on containers -/

theorem intrinsic_listCount {elem : Ty} {ref : Ref} {c : ListCell}
    (hc : m.heap.lists[ref]? = some c) :
    Run.intrinsic r (.listCount elem) [.list ref] (m.state a stack) =
      .ok (.int c.items.size) (m.state a stack) := by
  simp [Run.intrinsic, Intrinsic.arity, Intrinsic.signature, Signature.arity, listCell, hc,
    Memory.state, bind, EStateM.bind, pure, EStateM.pure, Run.get_apply]

theorem intrinsic_mdLength {elem : Ty} {rank : Nat} {ref : Ref} {c : ArrayCell} {w : IndexWord}
    {d : Nat} (hc : m.heap.arrays[ref]? = some c) (hpositive : 0 ≤ w.val)
    (hd : c.dims[w.val.toNat]? = some d) :
    Run.intrinsic r (.mdLength elem rank) [.array ref, w.value] (m.state a stack) =
      .ok (.int d) (m.state a stack) := by
  simp [Run.intrinsic, Intrinsic.arity, Intrinsic.signature, Signature.arity, arrayCell, hc,
    indexOf_value, hpositive, hd, Memory.state, bind, EStateM.bind, pure, EStateM.pure, Run.get_apply]

theorem intrinsic_listGet {elem : Ty} {ref : Ref} {c : ListCell} {w : IndexWord} {v : Value}
    (hc : m.heap.lists[ref]? = some c) (hbounds : 0 ≤ w.val ∧ w.val < c.items.size)
    (hv : c.items[w.val.toNat]? = some v) :
    Run.intrinsic r (.listGet elem) [.list ref, w.value] (m.state a stack) =
      .ok v (m.state a stack) := by
  obtain ⟨hlt, rfl⟩ := Array.getElem?_eq_some_iff.mp hv
  simp [Run.intrinsic, Intrinsic.arity, Intrinsic.signature, Signature.arity, listCell, hc,
    indexOf_value, hbounds, Memory.state, bind, EStateM.bind, pure, EStateM.pure, Run.get_apply]

theorem intrinsic_listSet {elem : Ty} {ref : Ref} {c : ListCell} {w : IndexWord} {x : Value}
    (hc : m.heap.lists[ref]? = some c) (hbounds : 0 ≤ w.val ∧ w.val < c.items.size) :
    Run.intrinsic r (.listSet elem) [.list ref, w.value, x] (m.state a stack) =
      .ok .null ((m.shared (m.heap.setItem (.list ref) w.val.toNat x) m.statics).state a stack) := by
  simp [Run.intrinsic, Intrinsic.arity, Intrinsic.signature, Signature.arity, listCell, hc,
    indexOf_value, hbounds, modifyList, Heap.setItem, Memory.state, Memory.shared, bind, EStateM.bind,
    pure, EStateM.pure, Run.get_apply, Run.modify_apply]

/-- The address of an element by its indices: an index out of bounds is a fault. -/
theorem mdAddr_bind {α : Type} {s : State} {ref : Ref} {c : ArrayCell} (hc : s.heap.arrays[ref]? = some c)
    (is : List Int) (f : Addr → Run α) :
    (mdAddr r (.array ref) is >>= f) s =
      match c.offset? is with
      | some position => f (.elem ref position) s
      | none => raise r .indexOutOfRange s := by
  change EStateM.bind (EStateM.bind (arrayCell r (.array ref) .elementOf) _) _ s = _
  have hcell : arrayCell r (.array ref) .elementOf s = .ok (ref, c) s := by
    simp [arrayCell, hc, bind, EStateM.bind, pure, EStateM.pure, Run.get_apply]
  simp only [EStateM.bind, hcell]
  cases c.offset? is with
  | some position => rfl
  | none => exact raise_bind .indexOutOfRange f s

/-- An element is read through its indices. -/
theorem intrinsic_mdGet_apply {s : State} {ref : Ref} {c : ArrayCell} (hc : s.heap.arrays[ref]? = some c)
    (elem : Ty) (is : List Value) :
    Run.intrinsic r (.mdGet elem is.length) (.array ref :: is) s =
      match c.offset? (is.map indexOf) with
      | some position => orDangling (.elem ref position) c.data[position]? s
      | none => raise r .indexOutOfRange s := by
  have harity : (Value.array ref :: is).length = (Intrinsic.mdGet elem is.length).arity := by
    simp [Intrinsic.arity, Intrinsic.signature, Signature.arity]
  unfold Run.intrinsic
  rw [if_neg (not_not.mpr harity)]
  change (mdAddr r (.array ref) ((is.take is.length).map indexOf) >>= loadAddr r) s = _
  rw [List.take_length, mdAddr_bind hc]
  cases c.offset? (is.map indexOf) with
  | some position => exact congrArg (orDangling (.elem ref position) · s) (Heap.elem?_eq hc position)
  | none => rfl

/-- An element is written at its position, if it is there. -/
theorem storeAddr_elem {s : State} {ref : Ref} {c : ArrayCell} (hc : s.heap.arrays[ref]? = some c)
    (position : Nat) (x : Value) :
    storeAddr r (.elem ref position) x s =
      if position < c.data.size then .ok ⟨⟩ { s with heap := s.heap.setElem ref position x }
      else .error (.invalid (.dangling (.elem ref position))) s := by
  change EStateM.bind (orDangling _ (s.heap.elem? ref position)) _ s = _
  rw [Heap.elem?_eq hc]
  split
  · next hlt =>
    rw [Array.getElem?_eq_getElem hlt]
    rfl
  · next hge =>
    rw [Array.getElem?_eq_none (Nat.le_of_not_lt hge)]
    rfl

/-- An element is written through its indices. -/
theorem intrinsic_mdSet_apply {s : State} {ref : Ref} {c : ArrayCell} (hc : s.heap.arrays[ref]? = some c)
    (elem : Ty) (is : List Value) (x : Value) :
    Run.intrinsic r (.mdSet elem is.length) (.array ref :: (is ++ [x])) s =
      match c.offset? (is.map indexOf) with
      | some position =>
          if position < c.data.size then .ok .null { s with heap := s.heap.setElem ref position x }
          else .error (.invalid (.dangling (.elem ref position))) s
      | none => raise r .indexOutOfRange s := by
  have harity : (Value.array ref :: (is ++ [x])).length = (Intrinsic.mdSet elem is.length).arity := by
    simp [Intrinsic.arity, Intrinsic.signature, Signature.arity]
  have hlast : (Value.array ref :: (is ++ [x]))[is.length + 1]?.getD .null = x := by
    simp
  unfold Run.intrinsic
  rw [if_neg (not_not.mpr harity)]
  change (mdAddr r (.array ref) (((is ++ [x]).take is.length).map indexOf) >>= fun a =>
    storeAddr r a ((Value.array ref :: (is ++ [x]))[is.length + 1]?.getD .null) >>= fun _ =>
      (pure .null : Run Value)) s = _
  rw [List.take_left, hlast, mdAddr_bind hc]
  cases c.offset? (is.map indexOf) with
  | some position =>
      change EStateM.bind (storeAddr r (.elem ref position) x) _ s = _
      by_cases hlt : position < c.data.size
      · simp only [EStateM.bind, storeAddr_elem hc, if_pos hlt]
        rfl
      · simp only [EStateM.bind, storeAddr_elem hc, if_neg hlt]
  | none => rfl

theorem map_indexOf_value (ws : List IndexWord) : (ws.map IndexWord.value).map indexOf = ws.map Word.val := by
  rw [List.map_map]
  exact List.map_congr_left fun w _ => indexOf_value w

theorem intrinsic_mdGet {elem : Ty} {ref : Ref} {c : ArrayCell} {ws : List IndexWord} {v : Value}
    {position : Nat} (hc : m.heap.arrays[ref]? = some c)
    (hoffset : c.offset? (ws.map Word.val) = some position) (hv : c.data[position]? = some v) :
    Run.intrinsic r (.mdGet elem ws.length) (.array ref :: ws.map IndexWord.value) (m.state a stack) =
      .ok v (m.state a stack) := by
  have hget := intrinsic_mdGet_apply (r := r) (s := m.state a stack) hc elem (ws.map IndexWord.value)
  rw [List.length_map, map_indexOf_value, hoffset] at hget
  simp only [hget, hv]
  rfl

theorem intrinsic_mdSet {elem : Ty} {ref : Ref} {c : ArrayCell} {ws : List IndexWord} {v x : Value}
    {position : Nat} (hc : m.heap.arrays[ref]? = some c)
    (hoffset : c.offset? (ws.map Word.val) = some position) (hv : c.data[position]? = some v) :
    Run.intrinsic r (.mdSet elem ws.length) (.array ref :: (ws.map IndexWord.value ++ [x]))
        (m.state a stack) =
      .ok .null ((m.shared (m.heap.setItem (.array ref) position x) m.statics).state a stack) := by
  obtain ⟨hlt, -⟩ := Array.getElem?_eq_some_iff.mp hv
  have hset := intrinsic_mdSet_apply (r := r) (s := m.state a stack) hc elem (ws.map IndexWord.value) x
  rw [List.length_map, map_indexOf_value, hoffset] at hset
  simp only [hset, if_pos hlt]
  rfl

end Run

/-! ## Elements of a container -/

/-- The kind of the elements of a container with so many dimensions. -/
inductive PlaceKind.IsElement : PlaceKind → Nat → Prop where
  | array : IsElement .arrayElem 1
  | list {elem : Ty} (helem : elem.isVoid = false) : IsElement (.listElem elem) 1
  | mdArray {elem : Ty} {rank : Nat} (helem : elem.isVoid = false) : IsElement (.mdElem elem rank) rank

/-- The instruction that reads a place of the kind through its operands. -/
def PlaceKind.reader : PlaceKind → Instr
  | .listElem elem => .call (.intrinsic (.listGet elem))
  | .mdElem elem rank => .call (.intrinsic (.mdGet elem rank))
  | _ => .loadElem

/-- The instruction that writes a place of the kind through its operands. -/
def PlaceKind.writer : PlaceKind → Instr
  | .listElem elem => .call (.intrinsic (.listSet elem))
  | .mdElem elem rank => .call (.intrinsic (.mdSet elem rank))
  | _ => .storeElem

namespace Run.Steps

variable {r : Registry} {R : Routine} {m : Memory} {a : Around} {stack : List Value}
  {kind : PlaceKind} {container : Value} {dims : List Nat} {items : Array Value}
  {ws : List IndexWord} {v x : Value}

/-- An index in a container of one dimension is its own position. -/
theorem eq_of_inBounds {n : Nat} (h : InBounds [n] (ws.map Word.val)) :
    ∃ w : IndexWord, ws = [w] ∧ (0 ≤ w.val ∧ w.val < n) ∧
      elementPosition [n] (ws.map Word.val) = w.val.toNat := by
  obtain ⟨i, is, hi, hrest, heq⟩ := List.forall₂_cons_left_iff.mp h
  cases hrest
  obtain ⟨w, rest, rfl, rfl, hrest⟩ := List.map_eq_cons_iff.mp heq
  obtain rfl := List.map_eq_nil_iff.mp hrest
  exact ⟨w, rfl, hi, by simp [elementPosition, positionFrom]⟩

/-- An element within bounds is read. -/
theorem readItem (hkind : kind.IsElement ws.length) (hholds : m.heap.Holds kind container dims items)
    (hsmall : IsSmall dims items) (hin : InBounds dims (ws.map Word.val))
    (hv : items[elementPosition dims (ws.map Word.val)]? = some v) :
    Steps r R kind.reader (m.state a ((ws.map IndexWord.value).reverse ++ container :: stack))
      (.ok .next (m.state a (v :: stack))) := by
  cases hholds with
  | array hc =>
      obtain ⟨w, rfl, hbounds, hposition⟩ := eq_of_inBounds hin
      rw [hposition] at hv
      exact loadElem hc hbounds hv
  | @list elem ref c hc =>
      generalize ws.length = count at hkind
      cases hkind with
      | list helem =>
        obtain ⟨w, rfl, hbounds, hposition⟩ := eq_of_inBounds hin
        rw [hposition] at hv
        have hget : Run.intrinsic r (.listGet elem) [.list ref, w.value] (m.state a stack) =
            .ok v (m.state a stack) := intrinsic_listGet hc hbounds hv
        have hstep := intrinsic (R := R) _ rfl hget
        rw [show (Intrinsic.listGet elem).signature.ret.isVoid = false from helem] at hstep
        exact hstep
  | @mdArray elem rank ref c hc =>
      generalize hlength : ws.length = count at hkind
      cases hkind with
      | mdArray helem =>
        subst hlength
        have hget : Run.intrinsic r (.mdGet elem ws.length) (.array ref :: ws.map IndexWord.value)
            (m.state a stack) = .ok v (m.state a stack) :=
          intrinsic_mdGet hc (ArrayCell.offset?_eq hsmall.prod_lt hin) hv
        have hstep := intrinsic (R := R) _
          (by simp [Intrinsic.arity, Intrinsic.signature, Signature.arity]) hget
        rw [show (Intrinsic.mdGet elem ws.length).signature.ret.isVoid = false from helem,
          List.reverse_cons, List.append_assoc] at hstep
        exact hstep

/-- An element within bounds is written. -/
theorem writeItem (hkind : kind.IsElement ws.length) (hholds : m.heap.Holds kind container dims items)
    (hsmall : IsSmall dims items) (hin : InBounds dims (ws.map Word.val)) :
    Steps r R kind.writer (m.state a (x :: (ws.map IndexWord.value).reverse ++ container :: stack))
      (.ok .next ((m.shared (m.heap.setItem container (elementPosition dims (ws.map Word.val)) x)
        m.statics).state a stack)) := by
  obtain ⟨v, hv⟩ := hsmall.item hin
  cases hholds with
  | array hc =>
      obtain ⟨w, rfl, hbounds, hposition⟩ := eq_of_inBounds hin
      rw [hposition] at hv ⊢
      exact storeElem hc hbounds hv
  | @list elem ref c hc =>
      obtain ⟨w, rfl, hbounds, hposition⟩ := eq_of_inBounds hin
      rw [hposition]
      exact intrinsic [.list ref, w.value, x] rfl (intrinsic_listSet hc hbounds)
  | @mdArray elem rank ref c hc =>
      generalize hlength : ws.length = count at hkind
      cases hkind with
      | mdArray helem =>
        subst hlength
        have hset : Run.intrinsic r (.mdSet elem ws.length)
            (.array ref :: (ws.map IndexWord.value ++ [x])) (m.state a stack) = .ok .null _ :=
          intrinsic_mdSet hc (ArrayCell.offset?_eq hsmall.prod_lt hin) hv
        have hstep := intrinsic (R := R) _
          (by simp [Intrinsic.arity, Intrinsic.signature, Signature.arity]) hset
        rw [List.reverse_cons, List.reverse_append, List.append_assoc] at hstep
        exact hstep

end Run.Steps

end Arbor
