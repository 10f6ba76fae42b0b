/-
  Auto-extension.

  An assignment past the end of a container calls a helper that extends it first.
  The helper for arrays hands back the array where it is long enough and otherwise a
  copy that reaches one element past the index; the one for lists appends to the list
  in place, one item at a time.  Both fill up with zero values, and nothing else that
  can be reached changes.
-/
import Arbor.Proofs.CheckedIndices
import Arbor.Proofs.TypedValues
import Arbor.Proofs.TypeSoundness

set_option autoImplicit false

namespace Arbor

open Run

/-! ## Items of lists -/

namespace Heap

/-- Replaces all items of a list. -/
def setItems (h : Heap) (ref : Ref) (items : Array Value) : Heap :=
  { h with lists := h.lists.modify ref fun c => { c with items := items } }

variable {h : Heap} {ref : Ref} {c : ListCell}

theorem lists_setItems (hc : h.lists[ref]? = some c) (items : Array Value) :
    (h.setItems ref items).lists[ref]? = some { c with items := items } := by
  rw [setItems, Array.getElem?_modify, if_pos rfl, hc]
  rfl

/-- The items last given count. -/
theorem setItems_setItems (h : Heap) (ref : Ref) (items items' : Array Value) :
    (h.setItems ref items).setItems ref items' = h.setItems ref items' := by
  rw [setItems, setItems, setItems, Heap.mk.injEq]
  refine ⟨rfl, rfl, ?_, rfl⟩
  apply Array.ext_getElem?
  intro i
  simp only [Array.getElem?_modify]
  split
  · rw [Option.map_map]
    rfl
  · rfl

/-- Items that the list has anyway change nothing. -/
theorem setItems_self (hc : h.lists[ref]? = some c) : h.setItems ref c.items = h := by
  obtain ⟨objects, arrays, lists, functions⟩ := h
  rw [setItems, Heap.mk.injEq]
  refine ⟨rfl, rfl, ?_, rfl⟩
  apply Array.ext_getElem?
  intro i
  rw [Array.getElem?_modify]
  split
  · next hi =>
    subst hi
    rw [show lists[ref]? = some c from hc]
    rfl
  · rfl

end Heap

/-! ## Padded items -/

/-- Items, followed by as many fillers as are missing from the count. -/
def padded (items : Array Value) (count : Nat) (filler : Value) : Array Value :=
  items ++ Array.replicate (count - items.size) filler

/-- The first items are the given ones, and where the count is not reached fillers follow. -/
structure Pads (items : Array Value) (count : Nat) (filler : Value) (result : Array Value) : Prop where
  size : result.size = max items.size count
  kept : ∀ i, i < items.size → result[i]? = items[i]?
  filled : ∀ i, items.size ≤ i → i < count → result[i]? = some filler

/-- Padded items are so. -/
theorem pads_padded (items : Array Value) (count : Nat) (filler : Value) :
    Pads items count filler (padded items count filler) where
  size := by
    simp only [padded, Array.size_append, Array.size_replicate]
    omega
  kept i hi := Array.getElem?_append_left hi
  filled i hi hcount := by
    rw [padded, Array.getElem?_append_right hi, Array.getElem?_replicate]
    exact if_pos (by omega)

theorem padded_of_le {items : Array Value} {count : Nat} (h : count ≤ items.size) (filler : Value) :
    padded items count filler = items := by
  simp [padded, Nat.sub_eq_zero_of_le h]

/-- One filler at the end is the first of those that are missing. -/
theorem padded_push {items : Array Value} {count : Nat} (h : items.size < count) (filler : Value) :
    padded (items.push filler) count filler = padded items count filler := by
  have hmissing : count - items.size = (count - (items.size + 1)) + 1 := by omega
  rw [padded, padded, Array.size_push, hmissing, Array.push_eq_append, Array.append_assoc]
  congr 1
  apply Array.ext'
  simp [List.replicate_succ]

/-- Zeros that are overwritten from the front are padding. -/
theorem overwrite_replicate {items : Array Value} {count : Nat} (h : items.size ≤ count)
    (filler : Value) : overwrite items (Array.replicate count filler) = padded items count filler := by
  apply Array.ext'
  simp only [overwrite, padded, Array.toList_append, Array.toList_replicate, Array.size_replicate,
    List.drop_replicate]
  rw [List.take_of_length_le (by simpa using h)]

/-- Behind every index but the largest one there is another. -/
theorem IndexWord.exists_succ (w : IndexWord) (h : w.val < IntKind.i32.max) :
    ∃ next : IndexWord, next.val = w.val + 1 ∧
      Word.ofInt? .i32 (w.val + (Word.one .i32).val) = some next := by
  have hlower : IntKind.i32.min ≤ w.val + 1 := by
    have := w.lower
    omega
  exact ⟨⟨w.val + 1, hlower, h⟩, rfl, dif_pos ⟨hlower, h⟩⟩

namespace Run

variable {r : Registry} {R : Routine} {m : Memory} {a : Around} {stack : List Value} {elem : Ty}
  {zero : Value}

/-! ## Raised faults -/

/-- A raised fault adds its exception to the objects, whatever the calls and whatever was to result. -/
theorem raise_apply (r : Registry) (f : Fault) (h : Heap) (st : Statics) :
    ∃ e h', h'.arrays = h.arrays ∧ ∀ (α : Type) (frames : List Frame),
      (raise r f : Run α) ⟨h, frames, st⟩ = .error e ⟨h', frames, st⟩ := by
  rcases raise_cases r f with ⟨e, hraise⟩ | ⟨fields, hraise⟩
  · exact ⟨_, h, rfl, fun α frames => hraise α _⟩
  · exact ⟨.thrown h.objects.size,
      (h.newObject ⟨Registry.exceptionType f, fields.toArray⟩).2.setField h.objects.size 0 (.str f.message),
      rfl, fun α frames => hraise α _⟩

/-! ## Instructions that extend containers -/

/-- A new array of one dimension. -/
theorem newVector_apply {n : Nat} (hn : n < depthLimit) (hzero : r.zero elem = .ok zero)
    (s : State) :
    Run.newArray r elem [n] s = .ok (.array s.heap.arrays.size)
      { s with heap := (s.heap.newArray ⟨elem, [n], Array.replicate n zero⟩).2 } := by
  have hcount : ([(n : Int)].map Int.toNat).prod % 0x10000000000000000 = n := by
    unfold depthLimit at hn
    simp only [List.map_cons, List.map_nil, Int.toNat_natCast, List.prod_cons, List.prod_nil]
    omega
  have hroom : n ≤ maxElements := Nat.le_of_lt (Nat.lt_trans hn (by decide))
  have hnew := newArray_apply hzero (show ∀ d ∈ [(n : Int)], 0 ≤ d by simp) (hcount.symm ▸ hroom) s
  rwa [hcount] at hnew

namespace Steps

variable {w u x : IndexWord} {ref : Ref}

/-- A checked sum of indices that is an index. -/
theorem add_fits (h : Word.ofInt? .i32 (w.val + u.val) = some x) :
    Steps r R (.arith .add true) (m.state a (u.value :: w.value :: stack))
      (.ok .next (m.state a (x.value :: stack))) :=
  .of_forall fun _ => by
    simp [step, popNum, Run.pop, Num.arith, Word.arith, Word.finish, Word.exact, h, ofNumeric,
      IndexWord.value, pushNext, push, modifyFrame, Memory.state, Except.map, bind, EStateM.bind, pure,
      EStateM.pure]

/-- A checked sum of indices that is out of range. -/
theorem add_overflows (h : Word.ofInt? .i32 (w.val + u.val) = none) :
    Steps r R (.arith .add true) (m.state a (u.value :: w.value :: stack))
      ((raise r .overflow : Run Flow) (m.state a stack)) :=
  .of_forall fun _ => by
    have hsum : Num.arith .add (.int .i32 w) (.int .i32 u) true = .error .overflow := by
      simp [Num.arith, Word.arith, Word.finish, Word.exact, h, Except.map]
    change EStateM.bind (ofNumeric r (Num.arith .add (.int .i32 w) (.int .i32 u) true)) _
      (m.state a stack) = _
    rw [hsum]
    exact raise_bind _ _ _

/-- Making an array of one dimension. -/
theorem newArray {v : Value} {n : Nat} (hv : v.toIndex? = some (n : Int)) (hn : n < depthLimit)
    (hzero : r.zero elem = .ok zero) :
    Steps r R (.newArray elem) (m.state a (v :: stack))
      (.ok .next ((m.shared (m.heap.newArray ⟨elem, [n], Array.replicate n zero⟩).2 m.statics).state a
        (.array m.heap.arrays.size :: stack))) :=
  .of_forall fun _ => by
    have hpop : popIndex (m.state a (v :: stack)) = .ok (n : Int) (m.state a stack) := by
      simp [popIndex, Run.pop, hv, Memory.state, bind, EStateM.bind, pure, EStateM.pure]
    have hnew := newVector_apply hn hzero (m.state a stack)
    simp only [step, bind, EStateM.bind, hpop, hnew]
    rfl

end Steps

/-- Appending to a list. -/
theorem intrinsic_listAdd {ref : Ref} {c : ListCell} (hc : m.heap.lists[ref]? = some c) (v : Value) :
    Run.intrinsic r (.listAdd elem) [.list ref, v] (m.state a stack) = .ok .null
      ((m.shared (m.heap.setItems ref (c.items.push v)) m.statics).state a stack) := by
  have hmodify : { m.heap with
      lists := m.heap.lists.modify ref fun c => { c with items := c.items.push v } } =
        m.heap.setItems ref (c.items.push v) := by
    rw [Heap.setItems, Heap.mk.injEq]
    refine ⟨rfl, rfl, ?_, rfl⟩
    apply Array.ext_getElem?
    intro i
    rw [Array.getElem?_modify, Array.getElem?_modify]
    by_cases hi : ref = i
    · subst hi
      simp only [if_true, hc, Option.map_some]
    · simp only [hi, if_false]
  simp [Run.intrinsic, Intrinsic.arity, Intrinsic.signature, Signature.arity, listCell, hc, modifyList,
    Memory.state, Memory.shared, hmodify, bind, EStateM.bind, pure, EStateM.pure, Run.get_apply,
    Run.modify_apply]

/-- Copying an array into a longer one. -/
theorem intrinsic_arrayResize {ref : Ref} {c : ArrayCell} {w : IndexWord} {n : Nat}
    (hc : m.heap.arrays[ref]? = some c) (hw : w.val = n) (hlonger : c.size ≤ n)
    (hzero : r.zero elem = .ok zero) :
    Run.intrinsic r (.arrayResize elem) [.array ref, w.value] (m.state a stack) =
      .ok (.array m.heap.arrays.size) ((m.shared
        (m.heap.newArray ⟨elem, [n], padded c.data n zero⟩).2 m.statics).state a stack) := by
  have hn : n < depthLimit := by
    have hupper := w.upper
    rw [hw] at hupper
    exact Nat.lt_of_le_of_lt (Int.ofNat_le.mp hupper) (by decide)
  have hnew := newVector_apply hn hzero (m.state a stack)
  have harity : ([Value.array ref, w.value] : List Value).length = (Intrinsic.arrayResize elem).arity := rfl
  unfold Run.intrinsic
  rw [if_neg (not_not.mpr harity)]
  change resize r elem (.array ref) (indexOf w.value) _ = _
  rw [indexOf_value, hw, resize, if_neg (by omega)]
  have hold : (m.heap.arrays.push ⟨elem, [n], Array.replicate n zero⟩)[ref]? = some c :=
    (m.heap.grows_newArray _).arrays ref c hc
  have hfilled : (m.heap.arrays.push ⟨elem, [n], Array.replicate n zero⟩).modify m.heap.arrays.size
      (fun fresh => { fresh with data := overwrite c.data fresh.data }) =
        m.heap.arrays.push ⟨elem, [n], padded c.data n zero⟩ := by
    rw [← overwrite_replicate hlonger]
    apply Array.ext_getElem?
    intro i
    rw [Array.getElem?_modify, Array.getElem?_push, Array.getElem?_push]
    by_cases hi : i = m.heap.arrays.size
    · simp [hi]
    · simp [hi, Ne.symm hi]
  have hheap : (m.state a stack).heap = m.heap := rfl
  simp only [bind, EStateM.bind, hnew, Run.modify_apply, Heap.newArray, hheap, hold, Option.map_some,
    Option.getD_some, hfilled]
  rfl

/-- A truth value on the stack decides where control goes. -/
theorem Leads.jumpIfFalse {p q : Nat} {l : Label} {b : Bool} (hcode : R.code[p]? = some (.jumpIfFalse l))
    (htarget : R.target? l = some q) :
    Leads r R p (m.state a (.bool b :: stack)) (if b then p + 1 else q) (m.state a stack) := by
  cases b with
  | true => exact .next hcode (.jumpIfFalse _ _ _ _ htarget)
  | false => exact .jump hcode (.jumpIfFalse _ _ _ _ htarget)

/-! ## Calls of helpers -/

/-- With enough budget, a call ends this way. -/
def Calls (r : Registry) (R : Routine) (args : List Value) (s : State)
    (out : EStateM.Result Trap State Value) : Prop :=
  ∃ enough, ∀ fuel, enough ≤ fuel → call r fuel (.routine R) args s = out

/-- A call ends as the execution of its routine does. -/
theorem Calls.of_ends {args : List Value} {s : State} {out : Ending} (hdepth : s.frames.length < maxCallDepth)
    (hcount : args.length = R.params.length) (hlocals : R.locals = #[])
    (h : Ends r R 0 (Memory.state ⟨s.heap, s.statics, args.toArray, #[]⟩ ⟨[], s.frames⟩ []) out) :
    Calls r R args s (Machine.Run.callEnding R out) := by
  obtain ⟨enough, henough⟩ := h
  have hzeros : R.locals.mapM r.zero = .ok #[] := by
    rw [hlocals, Array.mapM_empty]
    rfl
  refine ⟨enough, fun fuel hfuel => ?_⟩
  rw [Machine.Run.call_eq_callEnding hdepth hcount hzeros, henough fuel hfuel]

/-! ## Arrays -/

/-- The array that a value counts as, in the heap where it does: the array that it refers to, or an
empty one that is made for null. -/
inductive CountsAs (elem : Ty) (h : Heap) : Value → Ref → ArrayCell → Heap → Prop
  | array {ref : Ref} {c : ArrayCell} (hc : h.arrays[ref]? = some c) : CountsAs elem h (.array ref) ref c h
  | null : CountsAs elem h .null h.arrays.size ⟨elem, [0], #[]⟩ (h.newArray ⟨elem, [0], #[]⟩).2

theorem CountsAs.getElem? {array : Value} {h h' : Heap} {ref : Ref} {c : ArrayCell}
    (harray : CountsAs elem h array ref c h') : h'.arrays[ref]? = some c := by
  cases harray with
  | array hc => exact hc
  | null => exact Array.getElem?_push_size

section Array

variable {array : Value} {h h' : Heap} {st : Statics} {ref : Ref} {c : ArrayCell} {index : IndexWord}

/-- The array helper first sees to it that there is an array. -/
theorem leads_array (hzero : r.zero elem = .ok zero) (harray : CountsAs elem h array ref c h') :
    Leads r (HelperKind.arrayRoutine elem)
      0 (Memory.state ⟨h, st, #[array, index.value], #[]⟩ a [])
      5 (Memory.state ⟨h', st, #[.array ref, index.value], #[]⟩ a []) := by
  have hnone : 0 < depthLimit := by decide
  refine .trans (.next rfl (.loadArg _ _ _ rfl)) ?_
  cases harray with
  | array hc => exact .jump rfl (.jumpIfPresent _ _ _ _ rfl)
  | null =>
      refine .trans (.next rfl (.jumpIfPresent _ _ _ _ rfl)) ?_
      refine .trans (.next rfl (.const _ _ _ _)) ?_
      refine .trans (.next rfl (.newArray (Steps.toIndex?_int hnone) hnone hzero)) ?_
      exact .next rfl (.storeArg _ _ _ _ Nat.zero_lt_two)

/-- The index is compared with the length of the array. -/
theorem leads_index (elem : Ty) (st : Statics) (a : Around) (index : IndexWord)
    (hc : h.arrays[ref]? = some c) (hsmall : c.size < depthLimit) :
    Leads r (HelperKind.arrayRoutine elem)
      5 (Memory.state ⟨h, st, #[.array ref, index.value], #[]⟩ a [])
      (if index.val < c.size then 10 else 12)
        (Memory.state ⟨h, st, #[.array ref, index.value], #[]⟩ a []) := by
  obtain ⟨length, hlength, hvalue⟩ := IndexWord.exists_of_lt hsmall
  have hcompare : Value.compare .lt index.value (.int c.size) = .ok (decide (index.val < c.size)) := by
    rw [hvalue, IndexWord.compare_lt, hlength]
  refine .trans (.next rfl (.loadArg _ _ _ rfl)) ?_
  refine .trans (.next rfl (.loadArg _ _ _ rfl)) ?_
  refine .trans (.next rfl (.loadLength hc)) ?_
  refine .trans (.next rfl (.compare _ _ _ hcompare)) ?_
  simpa only [decide_eq_true_eq] using Leads.jumpIfFalse (b := decide (index.val < c.size)) rfl rfl

/-- An array that is long enough is the result itself. -/
theorem ends_long (hc : h.arrays[ref]? = some c) (hsmall : c.size < depthLimit) (hlt : index.val < c.size) :
    Ends r (HelperKind.arrayRoutine elem)
      5 (Memory.state ⟨h, st, #[.array ref, index.value], #[]⟩ a [])
      (.ok (.returned (.array ref)) (Memory.state ⟨h, st, #[.array ref, index.value], #[]⟩ a [])) := by
  have hlong := leads_index (r := r) elem st a index hc hsmall
  rw [if_pos hlt] at hlong
  refine hlong.ends ?_
  refine (Leads.next rfl (.loadArg _ _ _ rfl)).ends ?_
  exact .ret rfl (.ret _ _ _ _ rfl)

/-- An array that is too short is left for a sum of the index and one. -/
theorem leads_sum (hc : h.arrays[ref]? = some c) (hsmall : c.size < depthLimit)
    (hge : c.size ≤ index.val) :
    Leads r (HelperKind.arrayRoutine elem)
      5 (Memory.state ⟨h, st, #[.array ref, index.value], #[]⟩ a [])
      15 (Memory.state ⟨h, st, #[.array ref, index.value], #[]⟩ a
        [(IndexWord.value (.one .i32)), index.value, .array ref]) := by
  have hshort := leads_index (r := r) elem st a index hc hsmall
  rw [if_neg (Int.not_lt.mpr hge)] at hshort
  refine hshort.trans ?_
  refine .trans (.next rfl (.loadArg _ _ _ rfl)) ?_
  refine .trans (.next rfl (.loadArg _ _ _ rfl)) ?_
  exact .next rfl (.const _ _ _ _)

/-- A longer copy of an array that is too short is the result. -/
theorem ends_short (hzero : r.zero elem = .ok zero) (hc : h.arrays[ref]? = some c)
    (hsmall : c.size < depthLimit) (hge : c.size ≤ index.val) (hlt : index.val < IntKind.i32.max) :
    Ends r (HelperKind.arrayRoutine elem)
      5 (Memory.state ⟨h, st, #[.array ref, index.value], #[]⟩ a [])
      (.ok (.returned (.array h.arrays.size)) (Memory.state
        ⟨(h.newArray ⟨elem, [index.val.toNat + 1], padded c.data (index.val.toNat + 1) zero⟩).2, st,
          #[.array ref, index.value], #[]⟩ a [])) := by
  obtain ⟨next, hnext, hsum⟩ := index.exists_succ hlt
  have hlength : next.val = ((index.val.toNat + 1 : Nat) : Int) := by omega
  have hlonger : c.size ≤ index.val.toNat + 1 := by omega
  refine (leads_sum hc hsmall hge).ends ?_
  refine (Leads.next rfl (.add_fits hsum)).ends ?_
  refine (Leads.next rfl (.intrinsic [.array ref, next.value] rfl
    (intrinsic_arrayResize hc hlength hlonger hzero))).ends ?_
  exact .ret rfl (.ret _ _ _ _ rfl)

/-- Past the largest index there is no copy. -/
theorem ends_overflow (hc : h.arrays[ref]? = some c) (hsmall : c.size < depthLimit)
    (hmax : index.val = IntKind.i32.max) {e : Trap} {t : State}
    (hraise : (raise r .overflow : Run Flow) (Memory.state ⟨h, st, #[.array ref, index.value], #[]⟩ a
      [.array ref]) = .error e t) :
    Ends r (HelperKind.arrayRoutine elem)
      5 (Memory.state ⟨h, st, #[.array ref, index.value], #[]⟩ a []) (.error e t) := by
  have hsum : Word.ofInt? .i32 (index.val + (Word.one .i32).val) = none := by
    rw [Word.ofInt?, dif_neg]
    rw [hmax]
    decide
  have hge : (c.size : Int) ≤ index.val := by
    have hlimit : IntKind.i32.max + 1 = depthLimit := by decide
    omega
  refine (leads_sum hc hsmall hge).ends ?_
  refine .trap rfl rfl ?_
  rw [← hraise]
  exact .add_overflows hsum

end Array

/-- The array helper hands back an array that is long enough, makes a longer copy of one that is not, and
raises an overflow where no array can be long enough. -/
theorem calls_array (hzero : r.zero elem = .ok zero) {s : State} (hdepth : s.frames.length < maxCallDepth)
    {array : Value} {ref : Ref} {c : ArrayCell} {h : Heap} (harray : CountsAs elem s.heap array ref c h)
    (hsmall : c.size < depthLimit) (index : IndexWord) :
    (index.val < c.size →
      Calls r (HelperKind.ensureArrayLength.routine elem) [array, index.value] s
        (.ok (.array ref) { s with heap := h })) ∧
    (c.size ≤ index.val → index.val < IntKind.i32.max →
      Calls r (HelperKind.ensureArrayLength.routine elem) [array, index.value] s
        (.ok (.array h.arrays.size) { s with heap :=
          (h.newArray ⟨elem, [index.val.toNat + 1], padded c.data (index.val.toNat + 1) zero⟩).2 })) ∧
    (index.val = IntKind.i32.max → ∃ e t,
      Calls r (HelperKind.ensureArrayLength.routine elem) [array, index.value] s (.error e t) ∧
        (raise r .overflow : Run Value) { s with heap := h } = .error e t ∧ t.heap.arrays = h.arrays) := by
  have hc := harray.getElem?
  have hcall : ∀ {out : Ending},
      Ends r (HelperKind.arrayRoutine elem) 5
        (Memory.state ⟨h, s.statics, #[.array ref, index.value], #[]⟩ ⟨[], s.frames⟩ []) out →
      Calls r (HelperKind.arrayRoutine elem) [array, index.value] s
        (Machine.Run.callEnding (HelperKind.arrayRoutine elem) out) :=
    fun hends => .of_ends hdepth rfl rfl ((leads_array hzero harray).ends hends)
  refine ⟨fun hlt => hcall (ends_long hc hsmall hlt),
    fun hge hlt => hcall (ends_short hzero hc hsmall hge hlt), fun hmax => ?_⟩
  obtain ⟨e, h', harrays, hraise⟩ := raise_apply r .overflow h s.statics
  exact ⟨e, ⟨h', s.frames, s.statics⟩, hcall (ends_overflow hc hsmall hmax (hraise _ _)), hraise _ _, harrays⟩

/-! ## Lists -/

section List

variable {h : Heap} {st : Statics} {ref : Ref} {c : ListCell} {count : IndexWord}

/-- The number of items is compared with the count. -/
theorem leads_count (elem : Ty) (st : Statics) (a : Around) (count : IndexWord)
    (hc : h.lists[ref]? = some c) (hsmall : c.items.size < depthLimit) :
    Leads r (HelperKind.listRoutine elem)
      0 (Memory.state ⟨h, st, #[.list ref, count.value], #[]⟩ a [])
      (if c.items.size < count.val then 5 else 9)
        (Memory.state ⟨h, st, #[.list ref, count.value], #[]⟩ a []) := by
  obtain ⟨size, hsize, hvalue⟩ := IndexWord.exists_of_lt hsmall
  have hcompare : Value.compare .lt (.int c.items.size) count.value =
      .ok (decide (c.items.size < count.val)) := by
    rw [hvalue, IndexWord.compare_lt, hsize]
  refine .trans (.next rfl (.loadArg _ _ _ rfl)) ?_
  refine .trans (.next rfl (.intrinsic [.list ref] rfl (intrinsic_listCount hc))) ?_
  refine .trans (.next rfl (.loadArg _ _ _ rfl)) ?_
  refine .trans (.next rfl (.compare _ _ _ hcompare)) ?_
  simpa only [decide_eq_true_eq] using Leads.jumpIfFalse (b := decide (c.items.size < count.val)) rfl rfl

/-- One round of the list helper appends one zero. -/
theorem leads_round (hzero : r.zero elem = .ok zero) (hc : h.lists[ref]? = some c) :
    Leads r (HelperKind.listRoutine elem)
      5 (Memory.state ⟨h, st, #[.list ref, count.value], #[]⟩ a [])
      0 (Memory.state ⟨h.setItems ref (c.items.push zero), st, #[.list ref, count.value], #[]⟩ a []) := by
  refine .trans (.next rfl (.loadArg _ _ _ rfl)) ?_
  refine .trans (.next rfl (.loadDefault _ _ _ hzero)) ?_
  refine .trans (.next rfl (.intrinsic [.list ref, zero] rfl (intrinsic_listAdd hc zero))) ?_
  exact .jump rfl (.jump _ _ _ rfl)

/-- The rounds of the list helper pad the list. -/
theorem leads_padded (hzero : r.zero elem = .ok zero) (hc : h.lists[ref]? = some c)
    (hsmall : c.items.size < depthLimit) :
    Leads r (HelperKind.listRoutine elem)
      0 (Memory.state ⟨h, st, #[.list ref, count.value], #[]⟩ a [])
      9 (Memory.state ⟨h.setItems ref (padded c.items count.val.toNat zero), st,
        #[.list ref, count.value], #[]⟩ a []) := by
  -- Every round brings the number of items one closer to the count.
  generalize hmissing : count.val.toNat - c.items.size = missing
  induction missing generalizing h c with
  | zero =>
      have hcount := leads_count (r := r) elem st a count hc hsmall
      rw [if_neg (by omega)] at hcount
      rw [padded_of_le (by omega), Heap.setItems_self hc]
      exact hcount
  | succ missing ih =>
      have hcount := leads_count (r := r) elem st a count hc hsmall
      rw [if_pos (by omega)] at hcount
      have hsmall' : (c.items.push zero).size < depthLimit := by
        have hupper := count.upper
        have hlimit : IntKind.i32.max + 1 = depthLimit := by decide
        rw [Array.size_push]
        omega
      have hrest := ih (Heap.lists_setItems hc (c.items.push zero)) hsmall'
        (by rw [Array.size_push]; omega)
      rw [Heap.setItems_setItems, padded_push (by omega)] at hrest
      exact hcount.trans ((leads_round hzero hc).trans hrest)

end List

/-- The list helper pads a list with zeros until it holds the number of items. -/
theorem calls_list (hzero : r.zero elem = .ok zero) {s : State} (hdepth : s.frames.length < maxCallDepth)
    {ref : Ref} {c : ListCell} (hc : s.heap.lists[ref]? = some c) (hsmall : c.items.size < depthLimit)
    (count : IndexWord) :
    Calls r (HelperKind.ensureListCount.routine elem) [.list ref, count.value] s
      (.ok .null { s with heap := s.heap.setItems ref (padded c.items count.val.toNat zero) }) :=
  Calls.of_ends (R := HelperKind.listRoutine elem) hdepth rfl rfl
    ((leads_padded hzero hc hsmall).ends (.ret rfl (.retVoid _ _ _ rfl)))

/-! ## Both helpers -/

/-- The helpers extend containers.  The one for arrays hands back the array itself where the index is
below its length; otherwise it makes an array that reaches the index, and the old one stays as it is;
for the largest index it raises an overflow, and all arrays stay.  The one for lists makes the list
itself reach the count.  What is added is zero. -/
theorem helpers_extend (hzero : r.zero elem = .ok zero) {s : State}
    (hdepth : s.frames.length < maxCallDepth) (bound : IndexWord) :
    (∀ (array : Value) (ref : Ref) (c : ArrayCell) (h : Heap), CountsAs elem s.heap array ref c h →
      c.size < depthLimit →
      (bound.val < c.size → Calls r (HelperKind.ensureArrayLength.routine elem) [array, bound.value] s
        (.ok (.array ref) { s with heap := h })) ∧
      (c.size ≤ bound.val → bound.val < IntKind.i32.max → ∃ fresh : ArrayCell,
        fresh.elem = elem ∧ fresh.dims = [bound.val.toNat + 1] ∧
          Pads c.data (bound.val.toNat + 1) zero fresh.data ∧
          Calls r (HelperKind.ensureArrayLength.routine elem) [array, bound.value] s
            (.ok (.array h.arrays.size) { s with heap := (h.newArray fresh).2 }) ∧
          (h.newArray fresh).2.arrays[ref]? = some c) ∧
      (bound.val = IntKind.i32.max → ∃ e t,
        Calls r (HelperKind.ensureArrayLength.routine elem) [array, bound.value] s (.error e t) ∧
          (raise r .overflow : Run Value) { s with heap := h } = .error e t ∧
          (r.HasFaults → e.Throws .overflow t.heap) ∧ t.heap.arrays = h.arrays)) ∧
    ∀ (ref : Ref) (c : ListCell), s.heap.lists[ref]? = some c → c.items.size < depthLimit →
      ∃ items, Pads c.items bound.val.toNat zero items ∧
        Calls r (HelperKind.ensureListCount.routine elem) [.list ref, bound.value] s
          (.ok .null { s with heap := s.heap.setItems ref items }) := by
  refine ⟨fun array ref c h harray hsmall => ?_, fun ref c hc hsmall => ?_⟩
  · obtain ⟨hlong, hshort, hoverflow⟩ := calls_array hzero hdepth harray hsmall bound
    refine ⟨hlong, fun hge hlt => ?_, fun hmax => ?_⟩
    · exact ⟨_, rfl, rfl, pads_padded _ _ _, hshort hge hlt, (h.grows_newArray _).arrays _ _ harray.getElem?⟩
    · obtain ⟨e, t, hcall, hraise, harrays⟩ := hoverflow hmax
      refine ⟨e, t, hcall, hraise, fun hfaults => ?_, harrays⟩
      obtain ⟨e', t', hraise', hthrows⟩ := raise_throws (α := Value) hfaults .overflow { s with heap := h }
      rw [hraise] at hraise'
      cases hraise'
      exact hthrows
  · exact ⟨_, pads_padded _ _ _, calls_list hzero hdepth hc hsmall bound⟩

/-- A state with an array of two numbers and a list of one. -/
def shortState : State :=
  { State.initial with heap := { Heap.empty with
      arrays := #[⟨.int, [2], #[.int 5, .int 6]⟩]
      lists := #[⟨.int, #[.int 5]⟩] } }

/-- The array is copied to reach the index three, and the list is made to hold three items. -/
theorem helpers_extend_short :
    (∃ fresh : ArrayCell, Pads #[.int 5, .int 6] 4 (.int 0) fresh.data ∧
      Calls .builtin (HelperKind.ensureArrayLength.routine .int) [.array 0, .int 3] shortState
        (.ok (.array 1) { shortState with heap := (shortState.heap.newArray fresh).2 })) ∧
    ∃ items, Pads #[.int 5] 3 (.int 0) items ∧
      Calls .builtin (HelperKind.ensureListCount.routine .int) [.list 0, .int 3] shortState
        (.ok .null { shortState with heap := shortState.heap.setItems 0 items }) := by
  have hzero : Registry.builtin.zero .int = .ok (.int 0) := rfl
  obtain ⟨harray, hlist⟩ := helpers_extend hzero (s := shortState) (by decide) ⟨3, by decide, by decide⟩
  obtain ⟨-, hshort, -⟩ := harray (.array 0) 0 _ _ (.array rfl) (by decide)
  obtain ⟨fresh, -, -, hpads, hcall, -⟩ := hshort (by decide) (by decide)
  exact ⟨⟨fresh, hpads, hcall⟩, hlist 0 _ rfl (by decide)⟩

end Run

end Arbor
