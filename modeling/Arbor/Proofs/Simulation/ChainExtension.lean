/-
  Code that extends places.

  A place whose value is missing gets a new instance, and a container that is too
  short is made to reach the index.  The code works in temporaries; apart from
  these it leaves the memory that following a chain leads to.
-/
import Arbor.Proofs.Simulation.ChainPlaces
import Arbor.Proofs.Emission.Sheltering

set_option autoImplicit false

namespace Arbor

/-! ## Memory apart from temporaries -/

namespace Memory

variable {r : Registry} {s : Emission} {m n m' n' : Memory} {ty : Ty} {k cell : Cell} {v : Value} {w : IndexWord}

theorem size_setCell (m : Memory) (k : Cell) (v : Value) :
    (m.setCell k v).locals.size = m.locals.size := by
  cases k with
  | var slot => cases slot <;> simp [setCell, setSlot, setArg, setLocal]
  | _ => rfl

namespace Spares

theorem keeps (h : m.Spares s n) : m.Keeps s n := by
  intro slot hslot
  cases slot with
  | arg i => exact congrArg (·[i]?) h.args
  | «local» i => exact h.live i (hslot.2 i rfl)

/-- Cells that are no locals that may be used for something else hold the same. -/
theorem cell? (h : m.Spares s n) (hk : k.Seen s) : n.cell? r k = m.cell? r k := by
  cases k with
  | var slot =>
      cases slot with
      | arg i => exact congrArg (·[i]?) h.args
      | «local» i => exact h.live i hk
  | static f => simp [Memory.cell?, h.statics]
  | field ref slot | elem ref i | item ref i => simp [Memory.cell?, h.heap]

theorem shared (h : m.Spares s n) (heap : Heap) (st : Statics) :
    (m.shared heap st).Spares s (n.shared heap st) :=
  ⟨rfl, rfl, h.args, h.size, h.live⟩

/-- Cells are written alike. -/
theorem setCell (h : m.Spares s n) (k : Cell) (v : Value) :
    (m.setCell k v).Spares s (n.setCell k v) := by
  cases k with
  | var slot =>
      cases slot with
      | arg i =>
          exact ⟨h.heap, h.statics, congrArg (·.setIfInBounds i v) h.args, h.size, h.live⟩
      | «local» i =>
          refine ⟨h.heap, h.statics, h.args, ?_, fun j hj => ?_⟩
          · simp [Memory.setCell, setSlot, Memory.setLocal, h.size]
          · simp only [Memory.setCell, setSlot, Memory.setLocal, Array.getElem?_setIfInBounds, h.size,
              h.live j hj]
  | static f => exact ⟨h.heap, congrArg (·.set f v) h.statics, h.args, h.size, h.live⟩
  | field ref slot => exact ⟨congrArg (·.setField ref slot v) h.heap, h.statics, h.args, h.size, h.live⟩
  | elem ref i => exact ⟨congrArg (·.setElem ref i v) h.heap, h.statics, h.args, h.size, h.live⟩
  | item ref i => exact ⟨congrArg (·.setItem (.list ref) i v) h.heap, h.statics, h.args, h.size, h.live⟩

theorem made (h : m.Spares s n) (hk : k.Seen s) (hmade : Made r ty n k n' v) :
    ∃ m', Made r ty m k m' v ∧ m'.Spares s n' := by
  cases hmade with
  | present hv hpresent => exact ⟨m, .present ((h.cell? hk).symm.trans hv) hpresent, h⟩
  | @fresh heap _ hnull hnew =>
      rw [h.cell? hk] at hnull
      rw [h.heap] at hnew
      rw [h.statics]
      exact ⟨_, .fresh hnull hnew, (h.shared heap _).setCell k v⟩

/-- What is reached with temporaries is reached without them. -/
theorem reached (h : m.Spares s n) (hreached : Reached r w n k v n' cell) :
    ∃ m', Reached r w m k v m' cell ∧ m'.Spares s n' := by
  cases hreached with
  | within hlength hlt hcell => exact ⟨m, .within (h.heap ▸ hlength) hlt hcell, h⟩
  | array hc hshort hzero =>
      rw [h.heap] at hc ⊢
      rw [h.statics]
      exact ⟨_, .array hc hshort hzero, (h.shared _ _).setCell k _⟩
  | list hc hshort hzero =>
      rw [h.heap] at hc ⊢
      rw [h.statics]
      exact ⟨_, .list hc hshort hzero, h.shared _ _⟩

end Spares

theorem Made.size (h : Made r ty m k n v) : n.locals.size = m.locals.size := by
  cases h with
  | present => rfl
  | fresh => exact size_setCell _ _ _

theorem Reached.size (h : Reached r w m k v n cell) : n.locals.size = m.locals.size := by
  cases h with
  | within | list => rfl
  | array => exact size_setCell _ _ _

end Memory

/-! ## New instances -/

theorem Registry.Fresh.boxed {r : Registry} {h h' : Heap} {ty : Ty} {v : Value} (hnew : r.Fresh h ty h' v) :
    v.boxed = v := by
  cases hnew <;> rfl

theorem Registry.Refers.present {r : Registry} {h : Heap} {ty : Ty} {v : Value} (hv : r.Refers h ty v) :
    v.isAbsent = false := by
  cases hv <;> rfl

theorem PlaceKind.kept_eq {v : Value} (h : v.boxed = v) (kind : PlaceKind) : kind.kept v = v := by
  cases kind <;> first | rfl | exact h

section

variable {setting : Setting} {R : Routine} {hR : R.WithinLimits} {start : Nat} {s t : Emission}
  {table : Option Nat} {m : Memory} {a : Around} {p : Place} {k : Cell} {x : Value}

@[grind →]
theorem Job.Emits.hidden {J : Job} {α : Type} {x : Emit α} {b : α} (h : J.Emits start x s b t) :
    t.hidden = s.hidden := h.grows.hidden

/-- A new empty instance is pushed. -/
theorem Job.Emits.pushNew {ty : Ty} (h : (Job.ofRoutine setting hR).Emits start (Emit.pushNew ty) s () t)
    (hty : setting.registry.Creates ty) (m : Memory) (a : Around) :
    ∃ heap v, setting.registry.Fresh m.heap ty heap v ∧ ∀ stack,
      Run.Leads setting.registry R s.position (m.state a stack) t.position
        ((m.shared heap m.statics).state a (v :: stack)) := by
  cases hty with
  | @classTy id i d layout zeros hctor hd hkind hparams hbody hown hlayout hzeros =>
      obtain ⟨r, u, hregistry, h⟩ := Job.Emits.bind (x := Emit.registry) h
      obtain ⟨rfl, rfl⟩ := hregistry.registry
      rw [show (Job.ofRoutine setting hR).setting.registry.defaultCtor? id = _ from hctor] at h
      exact ⟨_, _, .object hlayout hzeros, fun stack => Job.Emits.goesOn h
        (.newObject hd hkind hparams hbody hown hlayout hzeros)⟩
  | @array elem zero hzero =>
      have hnone : 0 < Run.depthLimit := by decide
      obtain ⟨⟨⟩, u, hint, hnew⟩ := Job.Emits.bind (x := Emit.instr (.const (.num (.i32 0)))) h
      refine ⟨_, _, .array, fun stack => (hint.goesOn (.const _ _ _ _)).trans (Job.Emits.goesOn hnew ?_)⟩
      exact .newArray (Run.Steps.toIndex?_int hnone) hnone hzero
  | list hzero => exact ⟨_, _, .list, fun stack => Job.Emits.goesOn h (.newList _)⟩

/-- A value in a place is made: one that is missing is created and stored in the place. -/
theorem Place.Denotes.created {slot : Nat}
    (h : (Job.ofRoutine setting hR).Emits start (Emit.createdPlace p) s slot t)
    (hp : p.Denotes setting.registry table s m k) (htable : s.hidden.closureArg? = table)
    (hsize : m.locals.size = R.locals.size) (hty : setting.registry.Creates p.ty)
    (hx : m.cell? setting.registry k = some x)
    (hrefers : x = .null ∨ setting.registry.Refers m.heap p.ty x) :
    slot ∉ s.pool.live ∧ ∃ n n' v, Memory.Made setting.registry p.ty m k n v ∧ n.Spares s n' ∧
      m.Keeps s n' ∧ n'.Temp t slot v ∧ ∀ stack,
        Run.Leads setting.registry R s.position (m.state a stack) t.position (n'.state a stack) := by
  have hseen := hp.seen h.sound le_rfl
  obtain ⟨⟨⟩, u₁, hload, h⟩ := Job.Emits.bind (x := Emit.loadPlace p) h
  obtain ⟨slot, u₂, hspill, h⟩ := Job.Emits.bind (x := Emit.spill p.ty) h
  have hloaded := hp.load (a := a) hload htable hx hty hrefers
  have hfresh : slot ∉ s.pool.live := fun hlive => hspill.spill.2 (hload.retains.live hlive)
  have hspilled := hspill.spilled hsize x
  have hlocal : slot < m.locals.size := hsize ▸ hspill.spillHolding.2
  have hmoved := fun stack => hspill.spillLeads (c := ⟨m, a⟩) (x := x) hlocal stack
  rw [if_pos hty.isCreatable] at h
  obtain ⟨present, u₃, hlabel, h⟩ := Job.Emits.bind h
  simp only [↓Job.Emits.seq_iff, Job.Emits.instrs_cons_iff, Job.Emits.instrs_one_iff] at h
  obtain ⟨u₄, ⟨u₅, hagain, hjump⟩, u₆, hnew, u₇, hstore, u₈, hplace, u₉, hmark, hdone⟩ := h
  obtain ⟨rfl, rfl⟩ := hdone.pure
  have hposition : u₃.position = u₂.position := hlabel.newLabel.1
  have htarget := hmark.target
  have hbefore : ∀ stack, Run.Leads setting.registry R s.position (m.state a stack) u₅.position
      ((m.setLocal slot x).state a (x :: stack)) := fun stack => by
    refine (hloaded stack).trans ((hmoved stack).trans ?_)
    rw [← hposition]
    exact hagain.goesOn (.loadLocal _ _ _ hspilled.value)
  rcases hrefers with rfl | hrefers
  · -- The value is missing.
    obtain ⟨heap, v, hfresh', hpush⟩ := hnew.pushNew hty (m.setLocal slot .null) a
    have hfreshv : setting.registry.Fresh m.heap p.ty heap v := hfresh'
    have hspares : (m.shared heap m.statics).Spares s
        (((m.setLocal slot .null).shared heap m.statics).setLocal slot v) :=
      ((Memory.Spares.setLocal (m := m) hfresh .null).shared heap m.statics).trans (.setLocal hfresh v)
    have hkeeps : m.Keeps s (((m.setLocal slot .null).shared heap m.statics).setLocal slot v) :=
      (Memory.Keeps.shared s m heap m.statics).trans hspares.keeps
    have hmade : Memory.Made setting.registry p.ty m k ((m.shared heap m.statics).setCell k v) v :=
      .fresh hx hfreshv
    have hretains : s ≤ u₇ := by grind
    have hp₇ := hp.kept hkeeps hretains
    have hheld : u₇.Holding (.local slot) := hspill.spillHolding.1.later (by grind)
    have htemp : (((m.setLocal slot .null).shared heap m.statics).setLocal slot v).Temp u₇ slot v :=
      ⟨hheld, by simp [Memory.setLocal, Memory.shared, hlocal]⟩
    have hthere : ((((m.setLocal slot .null).shared heap m.statics).setLocal slot v).cell?
        setting.registry k).isSome := by
      rw [hspares.cell? hseen]
      exact (Memory.Extends.grow
        hfreshv.grows).there k (by rw [hx]; rfl)
    have hstored := fun stack => hp₇.store (a := a) hplace (by grind) hthere htemp stack
    rw [PlaceKind.kept_eq hfreshv.boxed] at hstored
    refine ⟨hfresh, _, _, v, hmade, hspares.setCell k v, hkeeps.trans ((hp₇.keeps_setCell v).before hretains), ?_,
      fun stack => ?_⟩
    · exact htemp.kept (hp₇.keeps_setCell v) (by grind)
    · refine (hbefore stack).trans ((hjump.goesOn (.jumpIfPresent _ _ _ _ htarget)).trans ?_)
      refine (hpush stack).trans ((hstore.goesOn (.storeLocal _ _ _ _ ?_)).trans ?_)
      · simpa [Memory.setLocal, Memory.shared] using hlocal
      · rw [← hmark.mark.2.1] at *
        exact hstored stack
  · -- It is there, and creation is jumped over.
    have hpresent := hrefers.present
    refine ⟨hfresh, m, m.setLocal slot x, x, .present hx hpresent, .setLocal hfresh x,
      (Memory.Spares.setLocal hfresh x).keeps, ?_, fun stack => (hbefore stack).trans ?_⟩
    · exact hspilled.later (by grind)
    · obtain ⟨hcode, -⟩ := hjump.instr
      have hjumps := Run.Steps.jumpIfPresent (r := setting.registry) (R := R) (m.setLocal slot x) a stack x
        htarget
      rw [hpresent] at hjumps
      exact .jump hcode hjumps

end

/-! ## Helpers -/

/-- A section with temporaries of its own is a run of what it is around, which frees them at its end. -/
theorem Job.Emits.released {J : Job} {start : Nat} {α : Type} {x : Emit α} {b : α} {s t : Emission}
    (h : J.Emits start (Emit.withTemps x) s b t) :
    ∃ u, J.Emits start x s b u ∧ t = u.releaseTo s.pool.live.length := by
  have hrun := h.run
  have hcompletes := h.completes
  simp only [Emit.withTemps] at hrun
  split at hrun
  · next u hx =>
      cases hrun
      exact ⟨u, ⟨hx, h.sound, ⟨hcompletes.code, hcompletes.size, hcompletes.marks,
        hcompletes.locals⟩, h.reached⟩, rfl⟩
  · cases hrun

/-- The children that were added by the second point are the first ones of a routine, and those before
the first point stand for their keys. -/
structure Emission.Houses (children : List Routine) (s t : Emission) : Prop where
  linked : s.Linked
  children : t.builder.children.toList <+: children

theorem Emission.Houses.first {children : List Routine} {s t u : Emission} (h : Houses children s t)
    (hgrows : u.Grows t) : Houses children s u :=
  ⟨h.linked, hgrows.children.trans h.children⟩

theorem Emission.Houses.rest {children : List Routine} {s t u : Emission} (h : Houses children s t)
    (hgrows : s.Grows u) : Houses children u t :=
  ⟨hgrows.linked h.linked, h.children⟩

/-- The child that stands for a helper is the helper. -/
theorem Job.Emits.helper {J : Job} {start : Nat} {s t : Emission} {kind : HelperKind} {elem : Ty} {child : Nat}
    (h : J.Emits start (Emit.helper kind elem) s child t) (hhouses : Emission.Houses J.routine.children s t) :
    J.routine.children[child]? = some (kind.routine elem) ∧ t.position = s.position := by
  have hlinked := hhouses.linked
  obtain ⟨hroutine, -⟩ := Emission.Grows.get_helper hlinked.helpers kind elem
  have hchildren := hhouses.children
  have hrun := h.run
  cases hrun
  refine ⟨?_, congrArg Array.size (Builder.addChild_code _ _)⟩
  obtain ⟨c, hc, hsame⟩ := s.builder.getElem?_addChild (s.session.helpers.get kind elem).1
  obtain ⟨added, hadded⟩ := hchildren
  have hfound : J.routine.children[(s.builder.addChild (s.session.helpers.get kind elem).1).1]? = some c := by
    rw [← hadded, List.getElem?_append_left, Array.getElem?_toList]
    · exact hc
    · exact (Array.getElem?_eq_some_iff.mp hc).1
  refine hfound.trans (congrArg some ?_)
  rcases hsame with rfl | ⟨hmem, hkey⟩
  · exact hroutine
  · have hknown := hlinked.children c hmem
    rw [Emission.Known, hkey, hroutine] at hknown
    cases kind <;> exact hknown

/-- The call of a child. -/
theorem Run.Steps.callChild {r : Registry} {R c : Routine} {m n : Memory} {a : Around} {stack : List Value}
    {i : Nat} (args : List Value) {v : Value} (hc : R.children[i]? = some c)
    (hargs : args.length = c.params.length)
    (hcall : Calls r c args (m.state a stack) (.ok v (n.state a stack))) :
    Steps r R (.callChild i) (m.state a (args.reverse ++ stack))
      (.ok .next (n.state a (if c.ret.isVoid then stack else v :: stack))) := by
  obtain ⟨enough, henough⟩ := hcall
  refine ⟨enough, fun fuel hfuel => ?_⟩
  have hpop : popN c.params.length (m.state a (args.reverse ++ stack)) = .ok args (m.state a stack) := by
    rw [← hargs]
    exact popN_state args
  have hrun : callRoutine r (exec r fuel) c args (m.state a stack) = .ok v (n.state a stack) :=
    henough fuel hfuel
  change EStateM.bind (Run.child R i) (fun c => EStateM.bind (popN c.params.length) fun args =>
    EStateM.bind (callRoutine r (exec r fuel) c args) fun v =>
      if c.ret.isVoid then pure .next else pushNext v) _ = _
  simp only [EStateM.bind, Run.child, hc, pure, EStateM.pure, hpop, hrun]
  cases c.ret.isVoid <;> rfl

/-! ## Writing what is there -/

theorem modify_eq_self {α : Type} {xs : Array α} {i : Nat} {f : α → α}
    (h : ∀ x, xs[i]? = some x → f x = x) : xs.modify i f = xs := by
  grind

theorem setIfInBounds_eq_self {α : Type} {xs : Array α} {i : Nat} {x : α} (h : xs[i]? = some x) :
    xs.setIfInBounds i x = xs := by
  grind

/-- Writing the value that a static field was given changes nothing. -/
theorem Statics.set_self {st : Statics} {f : FieldRef} {v : Value} (h : st.get? f = some v) :
    st.set f v = st := by
  induction st with
  | nil => cases h
  | cons e rest ih =>
      obtain ⟨g, w⟩ := e
      simp only [get?] at h
      simp only [set]
      split at h
      · next hg =>
        cases h
        rw [if_pos hg, hg]
      · next hg => rw [if_neg hg, ih h]

/-- The zero value of no type is an array. -/
theorem Registry.zero_ne_array (r : Registry) (ty : Ty) (ref : Ref) : r.zero ty ≠ .ok (.array ref) := by
  cases ty with
  | structTy id =>
      simp only [zero, zeroFrom]
      cases hlayout : r.layout id with
      | error e => simp [bind, Except.bind]
      | ok layout =>
          cases hfields : layout.mapM (r.zeroFrom r.size) with
          | error e => simp [hfields, bind, Except.bind]
          | ok fields => simp [hfields, bind, Except.bind, pure, Except.pure]
  | _ => simp [zero, zeroFrom]

/-- Writing the array that a cell holds changes nothing. -/
theorem Memory.setCell_array {r : Registry} {m : Memory} {k : Cell} {ref : Ref}
    (h : m.cell? r k = some (.array ref)) : m.setCell k (.array ref) = m := by
  cases k with
  | var slot =>
      cases slot with
      | arg i => simp [setCell, setSlot, setArg, setIfInBounds_eq_self h]
      | «local» i => simp [setCell, setSlot, setLocal, setIfInBounds_eq_self h]
  | static f =>
      have hwritten : m.statics.get? f = some (.array ref) := by
        rcases static_cases h with hwritten | ⟨-, d, -, hzero⟩
        · exact hwritten
        · exact absurd hzero (r.zero_ne_array d.ty ref)
      simp [setCell, shared, Statics.set_self hwritten]
  | field object slot =>
      have hsame : m.heap.setField object slot (.array ref) = m.heap := by
        rw [Heap.setField, modify_eq_self]
        intro c hc
        have hfield : c.fields[slot]? = some (.array ref) := by simpa [cell?, Heap.field?, hc] using h
        rw [setIfInBounds_eq_self hfield]
      simp [setCell, shared, hsame]
  | elem array i =>
      have hsame : m.heap.setElem array i (.array ref) = m.heap := by
        rw [Heap.setElem, modify_eq_self]
        intro c hc
        have hitem : c.data[i]? = some (.array ref) := by simpa [cell?, Heap.elem?, hc] using h
        rw [setIfInBounds_eq_self hitem]
      simp [setCell, shared, hsame]
  | item list i =>
      have hsame : m.heap.setItem (.list list) i (.array ref) = m.heap := by
        rw [Heap.setItem, modify_eq_self]
        intro c hc
        have hitem : c.items[i]? = some (.array ref) := by simpa [cell?, Heap.item?, hc] using h
        rw [setIfInBounds_eq_self hitem]
      simp [setCell, shared, hsame]

/-! ## Containers that reach an index -/

section

variable {setting : Setting} {R : Routine} {hR : R.WithinLimits} {start : Nat} {s t : Emission}
  {table : Option Nat} {m : Memory} {a : Around} {p : Place} {k : Cell} {container index : Nat}
  {w : IndexWord} {elem : Ty} {zero : Value} {ref : Ref}

theorem Memory.Reached.padded {r : Registry} {c : ListCell} (hc : m.heap.lists[ref]? = some c)
    (hlow : 0 ≤ w.val) (hzero : r.zero c.elem = .ok zero) :
    Reached r w m k (.list ref)
      (m.shared (m.heap.setItems ref (padded c.items (w.val.toNat + 1) zero)) m.statics)
      (.item ref w.val.toNat) := by
  by_cases hshort : c.items.size ≤ w.val
  · exact .list hc hshort hzero
  · rw [padded_of_le (by omega), Heap.setItems_self hc]
    have hlength : m.heap.length? (.list ref) = some c.items.size := by rw [Heap.length?, hc]; rfl
    exact .within hlength (by omega) rfl

/-- The code for a list pads it. -/
theorem Job.Emits.padList
    (h : (Job.ofRoutine setting hR).Emits start (do
      let child ← Emit.helper .ensureListCount elem
      Emit.instrs [.loadLocal container, .loadLocal index]
      Emit.int 1
      Emit.instrs [.arith .add true, .callChild child]) s () t)
    (hhouses : Emission.Houses R.children s t) (hdepth : a.outer.length + 1 < Run.maxCallDepth)
    (hcontainer : m.Temp s container (.list ref)) (hindex : m.Temp s index w.value) {c : ListCell}
    (hc : m.heap.lists[ref]? = some c) (hsmall : c.items.size < Run.depthLimit)
    (hzero : setting.registry.zero elem = .ok zero) (hlow : 0 ≤ w.val) (hhigh : w.val < IntKind.i32.max)
    (stack : List Value) :
    Run.Leads setting.registry R s.position (m.state a stack) t.position
      ((m.shared (m.heap.setItems ref (padded c.items (w.val.toNat + 1) zero)) m.statics).state a stack) := by
  obtain ⟨child, u, hhelper, hcode⟩ := h.bind
  obtain ⟨hchild, hposition⟩ := hhelper.helper (hhouses.first hcode.grows)
  simp only [↓Job.Emits.seq_iff, Job.Emits.instrs_cons_iff, Job.Emits.instrs_one_iff] at hcode
  obtain ⟨u₁, ⟨u₂, hload, hload'⟩, u₃, hone, u₄, hadd, hcall⟩ := hcode
  obtain ⟨next, hnext, hsum⟩ := w.exists_succ hhigh
  have hcount : next.val.toNat = w.val.toNat + 1 := by omega
  have hcalled := Run.calls_list hzero (s := m.state a stack) hdepth hc hsmall next
  rw [hcount] at hcalled
  rw [← hposition]
  refine (hload.goesOn (.loadLocal _ _ _ hcontainer.value)).trans
    ((hload'.goesOn (.loadLocal _ _ _ hindex.value)).trans ?_)
  have hone : (Job.ofRoutine setting hR).Emits start (Emit.instr (.const (.num (.i32 1)))) u₁ () u₃ := hone
  refine (hone.goesOn (.const _ _ _ _)).trans ((hadd.goesOn (.add_fits hsum)).trans ?_)
  exact hcall.goesOn (Run.Steps.callChild (n := m.shared _ _) [.list ref, next.value] hchild rfl hcalled)

/-- The code for an array puts one that reaches the index into the place of the array. -/
theorem Place.Denotes.growArray {before : Emission}
    (h : (Job.ofRoutine setting hR).Emits start (do
      let child ← Emit.helper .ensureArrayLength elem
      Emit.instrs [.loadLocal container, .loadLocal index, .callChild child, .storeLocal container]
      Emit.storePlace p container) s () t)
    (hp : p.Denotes setting.registry table before m k) (hsound : before.Sound) (hbefore : before ≤ s)
    (hfresh : container ∉ before.pool.live) (htable : s.hidden.closureArg? = table)
    (hhouses : Emission.Houses R.children s t) (hdepth : a.outer.length + 1 < Run.maxCallDepth)
    (hcontainer : m.Temp s container (.array ref)) (hindex : m.Temp before index w.value)
    (hk : m.cell? setting.registry k = some (.array ref)) {c : ArrayCell}
    (hc : m.heap.arrays[ref]? = some c) (hsmall : c.size < Run.depthLimit) (helem : c.elem = elem)
    (hzero : setting.registry.zero elem = .ok zero) (hhigh : w.val < IntKind.i32.max) :
    ∃ n n' ref', Memory.Reached setting.registry w m k (.array ref) n (.elem ref' w.val.toNat) ∧
      n.Spares before n' ∧ n'.Temp t container (.array ref') ∧ n'.Temp t index w.value ∧
      ∀ stack, Run.Leads setting.registry R s.position (m.state a stack) t.position (n'.state a stack) := by
  obtain ⟨child, u, hhelper, hcode⟩ := h.bind
  obtain ⟨hchild, hposition⟩ := hhelper.helper (hhouses.first hcode.grows)
  simp only [↓Job.Emits.seq_iff, Job.Emits.instrs_cons_iff, Job.Emits.instrs_one_iff] at hcode
  obtain ⟨u₁, ⟨u₂, hload, u₃, hload', u₄, hcall, hstore⟩, hplace⟩ := hcode
  have hlocal : container < m.locals.size := (Array.getElem?_eq_some_iff.mp hcontainer.value).1
  have hthere : (m.cell? setting.registry k).isSome := by rw [hk]; rfl
  -- What the helper returns is stored in the temporary and in the place.
  have hstores : ∀ (heap : Heap) (ref' : Ref), m.heap.Grows heap →
      (∀ stack, Run.Calls setting.registry (HelperKind.ensureArrayLength.routine elem)
        [.array ref, w.value] (m.state a stack)
        (.ok (.array ref') ((m.shared heap m.statics).state a stack))) →
      ∃ n', ((m.shared heap m.statics).setCell k (.array ref')).Spares before n' ∧
        n'.Temp t container (.array ref') ∧ n'.Temp t index w.value ∧
        ∀ stack, Run.Leads setting.registry R s.position (m.state a stack) t.position (n'.state a stack) := by
    intro heap ref' hgrows hcalls
    have hspares : (m.shared heap m.statics).Spares before
        ((m.shared heap m.statics).setLocal container (.array ref')) := .setLocal hfresh _
    have hkeeps : m.Keeps before ((m.shared heap m.statics).setLocal container (.array ref')) :=
      (Memory.Keeps.shared before m heap m.statics).trans hspares.keeps
    have hretains : before ≤ u₁ := by grind
    have hp' := hp.kept hkeeps hretains
    have htemp : ((m.shared heap m.statics).setLocal container (.array ref')).Temp u₁ container
        (.array ref') :=
      ⟨hcontainer.holding.later (by grind), by simp [Memory.setLocal, Memory.shared, hlocal]⟩
    have hthere' : (((m.shared heap m.statics).setLocal container (.array ref')).cell?
        setting.registry k).isSome := by
      rw [hspares.cell? (hp.seen hsound le_rfl)]
      exact (Memory.Extends.grow hgrows).there k hthere
    have hplaced := fun stack => hp'.store (a := a) hplace (by grind) hthere' htemp stack
    rw [PlaceKind.kept_eq (show (Value.array ref').boxed = _ from rfl)] at hplaced
    refine ⟨_, hspares.setCell k _, htemp.kept (hp'.keeps_setCell _) hplace.retains,
      (hindex.kept hkeeps hretains).kept (hp'.keeps_setCell _) hplace.retains, fun stack => ?_⟩
    rw [← hposition]
    refine (hload.goesOn (.loadLocal _ _ _ hcontainer.value)).trans
      ((hload'.goesOn (.loadLocal _ _ _ (hindex.later hbefore).value)).trans ?_)
    refine (hcall.goesOn (Run.Steps.callChild (n := m.shared heap m.statics) [.array ref, w.value] hchild rfl
      (hcalls stack))).trans ((hstore.goesOn
        (.storeLocal (m.shared heap m.statics) _ _ _ hlocal)).trans (hplaced stack))
  have hcalled := fun stack => Run.calls_array hzero (s := m.state a stack) hdepth (.array hc)
    hsmall w
  by_cases hshort : c.size ≤ w.val
  · obtain ⟨n', hspares, htemp, hindex', hleads⟩ := hstores _ m.heap.arrays.size
      (m.heap.grows_newArray ⟨elem, [w.val.toNat + 1], padded c.data (w.val.toNat + 1) zero⟩)
      fun stack => (hcalled stack).2.1 hshort hhigh
    subst helem
    exact ⟨_, n', _, .array hc hshort hzero, hspares, htemp, hindex', hleads⟩
  · obtain ⟨n', hspares, htemp, hindex', hleads⟩ := hstores m.heap ref ⟨fun _ _ _ h => h, fun _ _ h => h,
      fun _ _ h => h⟩ fun stack => (hcalled stack).1 (by omega)
    rw [show m.shared m.heap m.statics = m from rfl, Memory.setCell_array hk] at hspares
    exact ⟨m, n', ref, .within (by rw [Heap.length?, hc]; rfl) (by omega) rfl, hspares, htemp, hindex', hleads⟩

/-- The length of the container of an element is loaded. -/
theorem Place.Denotes.loadDimension {kind : PlaceKind} {ty : Ty} {cell : Cell} {v : Value} {count : Nat}
    (h : (Job.ofRoutine setting hR).Emits start (Emit.loadDimension kind 0) s () t)
    (hp : Place.Denotes setting.registry table s m ⟨kind, some container, [index], ty⟩ cell)
    (hholder : cell.holder = some v) (hcount : m.heap.length? v = some count) (stack : List Value) :
    Run.Leads setting.registry R s.position (m.state a (v :: stack)) t.position
      (m.state a (.int count :: stack)) := by
  cases hp with
  | array htemp hindex hlow =>
      cases hholder
      obtain ⟨c, hc, rfl⟩ := Option.map_eq_some_iff.mp hcount
      exact Job.Emits.goesOn h (.loadLength hc)
  | list helem htemp hindex hlow =>
      cases hholder
      obtain ⟨c, hc, rfl⟩ := Option.map_eq_some_iff.mp hcount
      exact Job.Emits.goesOn h (.intrinsic [_] rfl (Run.intrinsic_listCount hc))

/-- The index and the container of an element are in temporaries, and the index is in range. -/
theorem Place.Denotes.bounds {kind : PlaceKind} {ty : Ty} {cell : Cell}
    (hp : Place.Denotes setting.registry table s m ⟨kind, some container, [index], ty⟩ cell)
    (hthere : (m.cell? setting.registry cell).isSome) :
    ∃ (w : IndexWord) (v : Value) (count : Nat), m.Temp s container v ∧ m.Temp s index w.value ∧
      cell.holder = some v ∧ m.heap.length? v = some count ∧ 0 ≤ w.val ∧ w.val < count := by
  obtain ⟨x, hx⟩ := Option.isSome_iff_exists.mp hthere
  cases hp with
  | array htemp hindex hlow =>
      obtain ⟨c, hc, hitem⟩ := Option.bind_eq_some_iff.mp hx
      have hlt := (Array.getElem?_eq_some_iff.mp hitem).1
      exact ⟨_, _, c.size, htemp, hindex, rfl, by rw [Heap.length?, hc]; rfl, hlow,
        by simp only [ArrayCell.size]; omega⟩
  | list helem htemp hindex hlow =>
      obtain ⟨c, hc, hitem⟩ := Option.bind_eq_some_iff.mp hx
      have hlt := (Array.getElem?_eq_some_iff.mp hitem).1
      exact ⟨_, _, c.items.size, htemp, hindex, rfl, by rw [Heap.length?, hc]; rfl, hlow, by omega⟩

/-- An element that is there passes the bounds check. -/
theorem Place.Denotes.inBounds {kind : PlaceKind} {ty : Ty} {cell : Cell} {exit : Option Label} {checked : Bool}
    (h : (Job.ofRoutine setting hR).Emits start (Emit.boundsCheck kind container [index] exit) s checked t)
    (hp : Place.Denotes setting.registry table s m ⟨kind, some container, [index], ty⟩ cell)
    (hthere : (m.cell? setting.registry cell).isSome)
    (hsmall : ∀ v count, cell.holder = some v → m.heap.length? v = some count → count < Run.depthLimit)
    (stack : List Value) :
    Run.Leads setting.registry R s.position (m.state a stack) t.position (m.state a stack) := by
  obtain ⟨w, v, count, hcontainer, hindex, hholder, hcount, hlow, hlt⟩ := hp.bounds hthere
  cases exit with
  | none =>
      obtain ⟨-, rfl⟩ := h.pure
      exact .refl _ _
  | some pad =>
      obtain ⟨o, u, hoptions, h⟩ := Job.Emits.bind (x := Emit.options) h
      obtain ⟨rfl, rfl⟩ := hoptions.options
      split at h
      · simp only [Emit.checkIndices, ↓Job.Emits.seq_iff, Job.Emits.instrs_cons_iff,
          Job.Emits.instrs_one_iff] at h
        obtain ⟨u, ⟨u₁, hload, u₂, hnone, u₃, ⟨u₄, hless, u₅, hjump, u₆, hload', hload''⟩, u₇, hlength, u₈,
          ⟨u₉, hless', hjump'⟩, hend⟩, hdone⟩ := h
        obtain ⟨-, rfl⟩ := hend.pure
        obtain ⟨-, rfl⟩ := hdone.pure
        obtain ⟨none, hnone', hzero⟩ := IndexWord.exists_of_lt (n := 0) (by decide)
        obtain ⟨length, hlength', hvalue⟩ := IndexWord.exists_of_lt (hsmall v count hholder hcount)
        have hlower : Value.compare .lt w.value (.int 0) = .ok false := by
          rw [show Value.int 0 = none.value from hzero, IndexWord.compare_lt, hnone']
          exact congrArg _ (decide_eq_false (by omega))
        have hupper : Value.compare .lt w.value (.int count) = .ok true := by
          rw [hvalue, IndexWord.compare_lt, hlength']
          exact congrArg _ (decide_eq_true hlt)
        have hnone : (Job.ofRoutine setting hR).Emits start (Emit.instr (.const (.num (.i32 0)))) u₁ () u₂ :=
          hnone
        refine (hload.goesOn (.loadLocal _ _ _ hindex.value)).trans ((hnone.goesOn (.const _ _ _ _)).trans ?_)
        refine (hless.goesOn (.compare _ _ _ hlower)).trans
          ((hjump.goesOn (.notTaken pad _ rfl _ (.inl ⟨rfl, rfl⟩))).trans ?_)
        refine (hload'.goesOn (.loadLocal _ _ _ hindex.value)).trans
          ((hload''.goesOn (.loadLocal _ _ _ hcontainer.value)).trans ?_)
        have hp₇ := hp.kept (t := u₃) (.refl _ _) (by grind)
        refine (hp₇.loadDimension hlength hholder hcount _).trans ?_
        exact (hless'.goesOn (.compare _ _ _ hupper)).trans
          (hjump'.goesOn (.notTaken pad _ rfl _ (.inr ⟨rfl, rfl⟩)))
      · obtain ⟨-, rfl⟩ := h.pure
        exact .refl _ _

end

end Arbor
