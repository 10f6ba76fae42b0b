/-
  How a heap changes.

  Cells are added to a heap, and what is in them is replaced; nothing is ever taken
  off.  So whatever runs in between, a reference is of the type that it was created
  with, an array has as many items as before, and a function value has its routine.
  Methods of the host are relied on to change the heap in no other way.
-/
import Arbor.Proofs.Machine.Frames
import Mathlib.Logic.Relation

set_option autoImplicit false

namespace Arbor

/-- What is found at some place of the first store is found there in the second one. -/
def Extends {α : Type} (f g : Nat → Option α) : Prop := ∀ i a, f i = some a → g i = some a

namespace Extends

variable {α β : Type} (xs : Array α) (view : α → β)

/-- A cell is changed in a way that the view does not show. -/
theorem modify (n : Nat) (change : α → α) (hview : ∀ a, view (change a) = view a) :
    Extends (fun i => (xs[i]?).map view) fun i => ((xs.modify n change)[i]?).map view := by
  intro i b hb
  obtain ⟨a, ha, rfl⟩ := Option.map_eq_some_iff.mp hb
  dsimp only
  rw [Array.getElem?_modify, ha]
  split
  · exact congrArg some (hview a)
  · rfl

theorem push (a : α) : Extends (fun i => (xs[i]?).map view) fun i => ((xs.push a)[i]?).map view := by
  intro i b hb
  obtain ⟨c, hc, rfl⟩ := Option.map_eq_some_iff.mp hb
  obtain ⟨hlt, -⟩ := Array.getElem?_eq_some_iff.mp hc
  dsimp only
  rw [Array.getElem?_push_lt hlt, ← Array.getElem?_eq_getElem hlt, hc]
  rfl

end Extends

namespace Heap

/-! ## Changes -/

/-- One change of a heap.  An array is filled when it is added, and keeps the number of its items. -/
inductive Change : Heap → Heap → Prop where
  | setField (h : Heap) (ref : Ref) (slot : Nat) (v : Value) : Change h (h.setField ref slot v)
  | newObject (h : Heap) (c : ObjectCell) : Change h (h.newObject c).2
  | setElems (h : Heap) (ref : Ref) {change : Array Value → Array Value}
      (hsize : ∀ data, (change data).size = data.size) :
      Change h { h with arrays := h.arrays.modify ref fun c => { c with data := change c.data } }
  | newArray (h : Heap) {c : ArrayCell} (hc : c.Filled) : Change h (h.newArray c).2
  | setItems (h : Heap) (ref : Ref) (change : Array Value → Array Value) :
      Change h { h with lists := h.lists.modify ref fun c => { c with items := change c.items } }
  | newList (h : Heap) (c : ListCell) : Change h (h.newList c).2
  | newFunction (h : Heap) (c : Callable) : Change h (h.newFunction c).2

/-- The second heap comes about from the first one. -/
abbrev Evolves : Heap → Heap → Prop := Relation.ReflTransGen Change

/-! ## Types -/

/-- Element type and dimensions of an array. -/
def arrayType? (h : Heap) (ref : Ref) : Option (Ty × List Nat) :=
  (h.arrays[ref]?).map fun c : ArrayCell => (c.elem, c.dims)

/-- Element type of a list. -/
def listType? (h : Heap) (ref : Ref) : Option Ty := (h.lists[ref]?).map (·.elem)

/-- What the first heap holds is of the same types in the second one. -/
structure Types (h h' : Heap) : Prop where
  objects : Extends h.objectType? h'.objectType?
  arrays : Extends h.arrayType? h'.arrayType?
  lists : Extends h.listType? h'.listType?
  functions : Extends (fun ref => (h.functions[ref]?).map id) fun ref => (h'.functions[ref]?).map id

variable {h h' : Heap}

theorem Types.refl (h : Heap) : h.Types h := ⟨fun _ _ h => h, fun _ _ h => h, fun _ _ h => h, fun _ _ h => h⟩

theorem Types.trans {h'' : Heap} (hfirst : h.Types h') (hsecond : h'.Types h'') : h.Types h'' :=
  ⟨fun _ _ hty => hsecond.objects _ _ (hfirst.objects _ _ hty),
    fun _ _ hty => hsecond.arrays _ _ (hfirst.arrays _ _ hty),
    fun _ _ hty => hsecond.lists _ _ (hfirst.lists _ _ hty),
    fun _ _ hc => hsecond.functions _ _ (hfirst.functions _ _ hc)⟩

/-- A change keeps the types. -/
theorem Change.types (k : h.Change h') : h.Types h' := by
  cases k with
  | setField ref slot v =>
      exact { Types.refl h with objects := .modify _ ObjectCell.ty ref _ fun _ => rfl }
  | newObject c => exact { Types.refl h with objects := .push _ ObjectCell.ty c }
  | setElems ref hsize =>
      exact { Types.refl h with
        arrays := .modify _ (fun c : ArrayCell => (c.elem, c.dims)) ref _ fun _ => rfl }
  | @newArray c hc =>
      exact { Types.refl h with arrays := .push _ (fun c : ArrayCell => (c.elem, c.dims)) c }
  | setItems ref change =>
      exact { Types.refl h with lists := .modify _ ListCell.elem ref _ fun _ => rfl }
  | newList c => exact { Types.refl h with lists := .push _ ListCell.elem c }
  | newFunction c => exact { Types.refl h with functions := .push _ id c }

theorem Evolves.types (k : h.Evolves h') : h.Types h' := by
  induction k with
  | refl => exact .refl h
  | tail _ hchange ih => exact ih.trans hchange.types

/-! ## Items of arrays -/

/-- The items of all arrays fill their dimensions. -/
def Filled (h : Heap) : Prop := ∀ (ref : Ref) (c : ArrayCell), h.arrays[ref]? = some c → c.Filled

/-- A change keeps arrays filled. -/
theorem Change.filled (k : h.Change h') (hh : h.Filled) : h'.Filled := by
  cases k with
  | @setElems ref change hsize =>
      intro i c hc hfew
      change (h.arrays.modify ref _)[i]? = some c at hc
      rw [Array.getElem?_modify] at hc
      split at hc
      · obtain ⟨old, hold, rfl⟩ := Option.map_eq_some_iff.mp hc
        exact (hsize old.data).trans (hh i old hold hfew)
      · exact hh i c hc hfew
  | @newArray fresh hfresh =>
      intro i c hc
      change (h.arrays.push fresh)[i]? = some c at hc
      rw [Array.getElem?_push] at hc
      split at hc
      · cases hc
        exact hfresh
      · exact hh i c hc
  | _ => exact hh

theorem Evolves.filled (k : h.Evolves h') (hh : h.Filled) : h'.Filled := by
  induction k with
  | refl => exact hh
  | tail _ hchange ih => exact hchange.filled ih

end Heap

/-- The heap of the second state comes about from that of the first one. -/
def State.HeapEvolves (s t : State) : Prop := s.heap.Evolves t.heap

namespace Run

/-! ## Runs -/

/-- Everything may be stored, and a property of the heap holds that changes keep. -/
def Keeping.ofHeap (r : Registry) (P : Heap → Prop) (hP : ∀ {h h' : Heap}, P h → h.Change h' → P h') :
    Keeping r where
  Inv s := P s.heap
  reach := .all
  Slot _ := True
  Arg _ := True
  Calls c _ := r.Provides c
  stack _ _ v _ := v.within_all
  setStack hs _ _ := hs
  ownSlot _ _ := trivial
  ownArg _ _ := trivial
  named {_ _ _ _ v} _ _ _ _ := v.within_all
  slot {_ _ _ _ v} _ _ _ _ := v.within_all
  setSlot _ hs _ _ _ := hs
  arg {_ _ _ _ v} _ _ _ _ := .inl v.within_all
  setArg _ hs _ _ _ _ _ := hs
  static {_ _ v} _ _ := v.within_all
  setStatic _ hs _ := hs
  field {_ _ _ v} _ _ := v.within_all
  setField _ _ hs _ := hP hs (.setField _ _ _ _)
  newObject _ hs _ := hP hs (.newObject _ _)
  elems _ _ _ v _ := v.within_all
  setElems hs _ hsize _ := hP hs (.setElems _ _ hsize)
  newArray hs hc _ := ⟨trivial, hP hs (.newArray _ hc)⟩
  items _ _ v _ := v.within_all
  setItems _ hs _ := hP hs (.setItems _ _ _)
  newList _ hs := hP hs (.newList _ _)
  function _ _ _ := trivial
  newFunction hs _ _ := hP hs (.newFunction _ _)
  method hd hc _ := Registry.provides_of_callee? hd hc

theorem Keeping.plain_ofHeap {r : Registry} {P : Heap → Prop}
    {hP : ∀ {h h' : Heap}, P h → h.Change h' → P h'} (R : Routine) (i : Instr) :
    (Keeping.ofHeap r P hP).Plain R i :=
  ⟨fun _ _ => trivial, fun _ _ => trivial, fun _ _ => trivial, fun _ _ _ _ => trivial,
    fun _ _ _ _ _ _ => trivial⟩

/-- From heap to heap, a stretch evolves through its moments. -/
def Evolving : Heap → List Moment → Heap → Prop
  | h, [], h' => h.Evolves h'
  | h, m :: ms, h' => h.Evolves m.state.heap ∧ Evolving m.state.heap ms h'

namespace Evolving

variable {h h' h'' : Heap} {ms ns : List Moment} {m : Moment}

theorem before (hfirst : h.Evolves h') (k : Evolving h' ms h'') : Evolving h ms h'' := by
  cases ms with
  | nil => exact hfirst.trans k
  | cons m ms => exact ⟨hfirst.trans k.1, k.2⟩

theorem append (hfirst : Evolving h ms h') (k : Evolving h' ns h'') : Evolving h (ms ++ ns) h'' := by
  induction ms generalizing h with
  | nil => exact k.before hfirst
  | cons m ms ih => exact ⟨hfirst.1, ih hfirst.2⟩

theorem after (hfirst : Evolving h ms h') (k : h'.Evolves h'') : Evolving h ms h'' := by
  have hall : Evolving h (ms ++ []) h'' := hfirst.append k
  rwa [List.append_nil] at hall

theorem evolves (k : Evolving h ms h') : h.Evolves h' := by
  induction ms generalizing h with
  | nil => exact k
  | cons m ms ih => exact k.1.trans (ih k.2)

/-- The heap in front of a stretch and the one at a moment. -/
theorem moment (k : Evolving h ms h') (hm : m ∈ ms) : h.Evolves m.state.heap := by
  induction ms generalizing h with
  | nil => cases hm
  | cons n ms ih =>
      rcases List.mem_cons.mp hm with rfl | hm
      · exact k.1
      · exact k.1.trans (ih k.2 hm)

theorem later {before after : List Moment} {m' : Moment} (k : Evolving h (before ++ m :: after) h')
    (hm' : m' ∈ after) : m.state.heap.Evolves m'.state.heap := by
  induction before generalizing h with
  | nil => exact moment k.2 hm'
  | cons _ before ih => exact ih k.2

end Evolving

/-- In a stretch of a run, a heap evolves, if the host lets it evolve. -/
def Logic.evolving (r : Registry) (hhosts : r.HostsKeep State.HeapEvolves) : Logic r where
  Given _ := True
  At _ := True
  Idle _ _ := True
  Link s ms t := Evolving s.heap ms t.heap
  Across s ms t := Evolving s.heap ms t.heap
  Admits _ _ _ := True
  Result _ _ := True
  refl s := .refl
  trans h k := h.append k
  still s := .refl
  follow h k := h.append k
  enter _ _ := trivial
  exit _ h k := by
    unfold entry? at h
    split at h
    · cases h
    · split at h
      · cases h
      · split at h <;> cases h
        exact k
  value _ _ := trivial
  arrive _ _ := trivial
  past {_ _ s} _ _ := ⟨⟨.refl, .refl⟩, trivial⟩
  adjust {_ _ s} _ _ := by
    unfold modifyFrame
    cases s.frames <;> exact ⟨.refl, trivial⟩
  asks _ _ _ _ := trivial
  hosts {_ _ _ _ t _ args} _ _ _ hcallee :=
    (hhosts _ (mem_hosts_of_callee hcallee) args t).imp (fun _ _ h => h) (fun _ _ ⟨_, h⟩ => h.evolves)
      fun _ _ _ h => h
  step {R pc s i call ms} _ _ _ hcall hms := by
    -- Up to the call the heap evolves from that of the moment; behind it, through the moments of the call.
    let K := Keeping.ofHeap r s.heap.Evolves .tail
    let K' := Keeping.ofHeap r (Evolving s.heap ms) fun hs hchange => hs.after (.single hchange)
    have hstep : K'.After (K'.Leads R i) (Run.step r call R i s) := by
      refine Keeping.step_across (K := K) rfl (Keeping.plain_ofHeap R i) .refl
        (fun hnone u hu => ?_) fun c args t hcallee ht _ => ?_
      · change Evolving s.heap ms u.heap
        rw [hms hnone]
        exact hu
      · have hcall := (hcall c args t hcallee).1
        revert hcall
        cases call c args t with
        | ok v u => exact fun hu => ⟨hu.before ht, v.within_all⟩
        | error e u => exact fun hu => hu.before ht
    have hlink : ∀ {t : State}, Evolving s.heap ms t.heap → Evolving s.heap (⟨R, pc, s⟩ :: ms) t.heap :=
      fun ht => ⟨.refl, ht⟩
    revert hstep
    cases Run.step r call R i s with
    | ok flow t =>
        intro ⟨ht, hleads⟩
        cases flow with
        | next => exact ⟨hlink ht, trivial⟩
        | jump landing | leave landing =>
            obtain ⟨l, _, hl⟩ := hleads
            exact ⟨hlink ht, trivial, .label hl⟩
        | ret v => exact ⟨hlink ht, trivial, trivial⟩
        | endFinally => exact ⟨hlink ht, trivial⟩
        | endFilter verdict => exact ⟨hlink ht, trivial⟩
    | error e t =>
        intro ht
        cases e with
        | halted limit => exact hlink ht
        | thrown e => exact ⟨hlink ht, trivial⟩
        | invalid d => exact ⟨hlink ht, trivial⟩

variable {r : Registry} {fuel : Nat} {c : Callee} {args : List Value} {s : State}

theorem Logic.allows_evolving (hhosts : r.HostsKeep State.HeapEvolves) (hc : r.Provides c) :
    (Logic.evolving r hhosts).Allows c args s := by
  cases c with
  | routine R => trivial
  | host f =>
      exact (hhosts f hc args s).imp (fun _ _ h => h) (fun _ _ ⟨_, h⟩ => h.evolves) fun _ _ _ h => h

theorem evolving_call (hhosts : r.HostsKeep State.HeapEvolves) (hc : r.Provides c) :
    EndsIn (fun t => Evolving s.heap
        (c.log (callRoutine r (exec r fuel)) (callTrace r (execTrace r fuel)) args s) t.heap)
      (call r fuel c args s) :=
  (((Logic.evolving r hhosts).covers_run_call fuel (Logic.allows_evolving hhosts hc)).holds
    fun _ _ => trivial).2.1

/-- In the call of a function value, the heap evolves. -/
theorem evolves_callValue (hhosts : r.HostsKeep State.HeapEvolves) (f : Value) :
    EndsIn (fun t => s.heap.Evolves t.heap) (callValue r (call r fuel) f args s) := by
  let K := Keeping.ofHeap r s.heap.Evolves .tail
  have hserves : K.Serves (call r fuel) :=
    .of_endsIn rfl fun _ _ _ hc ht => (evolving_call hhosts hc).imp fun _ hu => ht.trans hu.evolves
  exact (Keeping.callValue hserves fun v _ => v.within_all).endsIn .refl

variable {h : Heap}

theorem evolves_modifyFrame (change : Frame → Frame) :
    Preserves (fun s => h.Evolves s.heap) (modifyFrame change) := by
  intro s hs
  unfold modifyFrame
  cases s.frames <;> exact hs

/-- In an execution, the heap evolves. -/
theorem evolves_exec (hhosts : r.HostsKeep State.HeapEvolves) (R : Routine) (pc : Nat) (span : Span) :
    Preserves (fun s => h.Evolves s.heap) (exec r fuel R pc span) := by
  intro s hs
  have hrests := (((Logic.runs_exec (Logic.evolving r hhosts) fuel).1 R pc span s trivial).holds
    fun _ _ => trivial).2.1
  exact hrests.endsIn.imp fun t ht => hs.trans ht.evolves

theorem evolves_runFilter (hhosts : r.HostsKeep State.HeapEvolves) {R : Routine} {g : Region Nat}
    {start : Nat} {e : Ref} : Preserves (fun s => h.Evolves s.heap) (runFilter (exec r fuel) R g start e) :=
  .runFilter (evolves_modifyFrame _) (evolves_modifyFrame _) (evolves_exec hhosts R start _)

end Run

end Arbor
