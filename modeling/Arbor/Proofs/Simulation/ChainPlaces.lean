/-
  Code of places that are extended.

  A prepared place denotes a storage cell: its code loads what is there, stores what
  is to be there, and creates what is missing.
-/
import Arbor.Proofs.Machine.ChainPaths
import Arbor.Proofs.Machine.TableAccess
import Arbor.Proofs.MemberInitializers

set_option autoImplicit false

namespace Arbor

/-! ## Steps -/

theorem Run.modifyGet_apply {α : Type} (f : State → α × State) (s : State) :
    (modifyGet f : Run α) s = .ok (f s).1 (f s).2 := rfl

namespace Run.Steps

variable {r : Registry} {R : Routine} {m : Memory} {a : Around} {stack : List Value} {v x : Value}

/-- Loading a static field. -/
theorem loadStatic {f : FieldRef} (h : m.cell? r (.static f) = some x) :
    Steps r R (.loadStatic f) (m.state a stack) (.ok .next (m.state a (x :: stack))) :=
  .of_forall fun _ => by
    change EStateM.bind (Run.loadStatic r f) pushNext (m.state a stack) = _
    have hload : Run.loadStatic r f (m.state a stack) = .ok x (m.state a stack) := by
      rcases Memory.static_cases h with hwritten | ⟨hwritten, d, hd, hz⟩
      · simp [Run.loadStatic, Memory.state, hwritten, bind, EStateM.bind, Run.get_apply, pure,
          EStateM.pure]
      · simp [Run.loadStatic, Memory.state, hwritten, hd, hz, Run.ofLookup, bind, EStateM.bind,
          Run.get_apply, pure, EStateM.pure]
    simp only [EStateM.bind, hload]
    rfl

theorem storeStatic (f : FieldRef) (v : Value) :
    Steps r R (.storeStatic f) (m.state a (v :: stack))
      (.ok .next ((m.setCell (.static f) v).state a stack)) :=
  .of_forall fun _ => rfl

/-- A getter of an instance that reads a field. -/
theorem callGetter {id : TypeId} {i : Nat} {own ty : Ty} {name : String} {f : FieldRef} {slot : Nat}
    {ref : Ref} (hown : r.tyOf id = .ok own) (hvoid : ty.isVoid = false)
    (hm : r.method id i = .ok ⟨name, [], ty, .member, .getter f⟩) (hslot : r.fieldSlot f = .ok slot)
    (hx : m.cell? r (.field ref slot) = some x) :
    Steps r R (.call (.method id i)) (m.state a (.object ref :: stack))
      (.ok .next (m.state a (x :: stack))) := by
  refine .of_forall fun call => ?_
  have hsig : r.signature (.method id i) = .ok ⟨some own, [], ty⟩ := by
    simp [Registry.signature, hm, hown, bind, Except.bind]
  have hpop : popN 1 (m.state a (.object ref :: stack)) = .ok [.object ref] (m.state a stack) :=
    popN_state [.object ref]
  have hload : Run.loadField r (.object ref) f (m.state a stack) = .ok x (m.state a stack) :=
    loadField_ok (c := ⟨m, a⟩) hslot rfl ⟨x, hx, rfl⟩
  have hcall : callMethod r call (.method id i) [.object ref] (m.state a stack) =
      .ok x (m.state a stack) := by
    simp [callMethod, hm, ofLookup, runBody, hload, bind, EStateM.bind, pure, EStateM.pure]
  change EStateM.bind (ofLookup (r.signature (.method id i))) (fun sig => EStateM.bind (popN sig.arity)
    fun args => EStateM.bind (callMethod r call (.method id i) args) fun v =>
      if sig.ret.isVoid then pure .next else pushNext v) _ = _
  have harity : Signature.arity ⟨some own, [], ty⟩ = 1 := rfl
  simp only [EStateM.bind, hsig, ofLookup, pure, EStateM.pure, harity, hpop, hcall, hvoid]
  rfl

/-- Taking a value out of a slot of the root type. -/
theorem unbox {ty : Ty} (hv : v.OfType r m.heap ty) (hboxed : v.boxed = v) (hroot : ty ≠ .object) :
    Steps r R (.unbox ty) (m.state a (v :: stack)) (.ok .next (m.state a (v :: stack))) :=
  .of_forall fun _ => by
    have hunbox : Run.unbox r v ty (m.state a stack) = .ok v (m.state a stack) := by
      have h := hv.unbox (s := m.state a stack) hroot
      rwa [hboxed] at h
    change EStateM.bind Run.pop (fun v => EStateM.bind (Run.unbox r v ty) pushNext)
      (m.state a (v :: stack)) = _
    have hpop : Run.pop (m.state a (v :: stack)) = .ok v (m.state a stack) := rfl
    simp only [EStateM.bind, hpop, hunbox]
    rfl

theorem newList (elem : Ty) :
    Steps r R (.newList elem) (m.state a stack)
      (.ok .next ((m.shared (m.heap.newList ⟨elem, #[]⟩).2 m.statics).state a
        (.list m.heap.lists.size :: stack))) :=
  .of_forall fun _ => rfl

/-- Making an object of a class whose constructor does nothing. -/
theorem newObject {id : TypeId} {i : Nat} {d : MethodDef} {layout : List Ty} {zeros : List Value}
    (hd : r.method id i = .ok d) (hkind : d.kind = .ctor) (hparams : d.params = []) (hbody : d.body = .empty)
    (hown : r.tyOf id = .ok (.classTy id)) (hlayout : r.layout id = .ok layout)
    (hzeros : layout.mapM r.zero = .ok zeros) :
    Steps r R (.newObject (.method id i)) (m.state a stack)
      (.ok .next ((m.shared (m.heap.newObject ⟨id, zeros.toArray⟩).2 m.statics).state a
        (.object m.heap.objects.size :: stack))) :=
  .of_forall fun call => by
    have hpop : popN 0 (m.state a stack) = .ok [] (m.state a stack) :=
      (popN_state [] : popN _ (m.state a ([].reverse ++ stack)) = _)
    have hconstruct : construct r call (.method id i) (m.state a stack) =
        .ok (.object m.heap.objects.size)
          ((m.shared (m.heap.newObject ⟨id, zeros.toArray⟩).2 m.statics).state a stack) := by
      simp [construct, hd, hkind, hparams, hbody, hown, hpop, ofLookup, allocObject, hlayout, hzeros,
        runBody, bind, EStateM.bind, pure, EStateM.pure, Run.modifyGet_apply, Heap.newObject]
      exact ⟨rfl, rfl⟩
    change EStateM.bind (construct r call (.method id i)) pushNext (m.state a stack) = _
    simp only [EStateM.bind, hconstruct]
    rfl

theorem notTaken (l : Label) (x : Bool) (h : x = false) (i : Instr)
    (hi : i = .jumpIfTrue l ∧ x = v.isTruthy ∨ i = .jumpIfFalse l ∧ x = !v.isTruthy) :
    Steps r R i (m.state a (v :: stack)) (.ok .next (m.state a stack)) := by
  subst h
  refine .of_forall fun _ => ?_
  rcases hi with ⟨rfl, hx⟩ | ⟨rfl, hx⟩
  all_goals
    simp only [step, bind, EStateM.bind, Run.pop, Memory.state, ← hx]
    rfl

end Run.Steps

/-- The argument that holds the closure environment. -/
theorem Job.Emits.closureTable {J : Job} {start n : Nat} {s t : Emission}
    (h : J.Emits start Emit.closureTable s n t) : s.hidden.closureArg? = some n ∧ t = s := by
  obtain ⟨hidden, u, hread, hrest⟩ := Job.Emits.bind (x := Emit.hiddenParams) h
  obtain ⟨hhidden, rfl⟩ := hread.read
  obtain rfl : s.hidden = hidden := Except.ok.inj hhidden
  split at hrest
  · next hn =>
    obtain ⟨rfl, rfl⟩ := hrest.pure
    exact ⟨hn, rfl⟩
  · exact hrest.unsupported.elim

/-! ## Values of types that can be created -/

namespace Registry

variable {r : Registry} {h : Heap} {ty : Ty} {v : Value}

theorem ofType_of_refers (hty : r.Creates ty) (hv : v = .null ∨ r.Refers h ty v) :
    v.OfType r h ty ∧ v.boxed = v ∧ ty ≠ .object := by
  rcases hv with rfl | hv
  · cases hty <;> exact ⟨.null rfl, rfl, nofun⟩
  · cases hv with
    | object hc hsub => exact ⟨.object (by simp [Heap.objectType?, hc]) hsub, rfl, nofun⟩
    | array hc helem hdims =>
        exact ⟨.array (by rw [Heap.arrayType?, hc, Option.map_some, helem, hdims]), rfl, nofun⟩
    | list hc helem => exact ⟨.list (by simp [Heap.listType?, hc, helem]), rfl, nofun⟩

theorem Creates.isCreatable (hty : r.Creates ty) : ty.isCreatable = true := by
  cases hty <;> rfl

end Registry

/-! ## Places that denote cells -/

/-- The prepared place stands for the cell. -/
inductive Place.Denotes (r : Registry) (table : Option Nat) (s : Emission) (m : Memory) :
    Place → Cell → Prop
  | var {slot : VarSlot} {ty : Ty} (hslot : slot ∈ s.scope.slots) :
      Denotes r table s m ⟨.var slot, none, [], ty⟩ (.var slot)
  | static {f : FieldRef} {ty : Ty} : Denotes r table s m ⟨.staticField f, none, [], ty⟩ (.static f)
  | closure {i n : Nat} {ref : Ref} {ty : Ty} (hi : i < Run.depthLimit) (htable : table = some n)
      (hscope : .arg n ∉ s.scope.slots) (harg : m.args[n]? = some (.array ref)) :
      Denotes r table s m ⟨.closure i, none, [], ty⟩ (.elem ref i)
  | field {f : FieldRef} {temp slot : Nat} {ref : Ref} {ty : Ty} (htemp : m.Temp s temp (.object ref))
      (hslot : r.fieldSlot f = .ok slot) : Denotes r table s m ⟨.field f, some temp, [], ty⟩ (.field ref slot)
  | property {p : PropertyRef} {f : FieldRef} {temp slot : Nat} {ref : Ref} {ty : Ty}
      (hp : r.AutoProperty p f) (htemp : m.Temp s temp (.object ref)) (hslot : r.fieldSlot f = .ok slot) :
      Denotes r table s m ⟨.property p, some temp, [], ty⟩ (.field ref slot)
  | array {temp index : Nat} {ref : Ref} {w : IndexWord} {ty : Ty} (htemp : m.Temp s temp (.array ref))
      (hindex : m.Temp s index w.value) (hlow : 0 ≤ w.val) :
      Denotes r table s m ⟨.arrayElem, some temp, [index], ty⟩ (.elem ref w.val.toNat)
  | list {elem : Ty} {temp index : Nat} {ref : Ref} {w : IndexWord} {ty : Ty} (helem : elem.isVoid = false)
      (htemp : m.Temp s temp (.list ref)) (hindex : m.Temp s index w.value) (hlow : 0 ≤ w.val) :
      Denotes r table s m ⟨.listElem elem, some temp, [index], ty⟩ (.item ref w.val.toNat)

/-- What is kept of a value in a place: closure variables are boxed. -/
def PlaceKind.kept (kind : PlaceKind) (v : Value) : Value :=
  match kind with
  | .closure _ => v.boxed
  | _ => v

/-- A cell that is no local that may be used for something else. -/
def Cell.Seen (s : Emission) : Cell → Prop
  | .var (.local i) => i ∈ s.pool.live
  | _ => True

theorem Scene.Writes.field {r : Registry} {m : Memory} {a : Around} {ref : Ref} {slot : Nat} {old : Value}
    (hold : m.heap.field? ref slot = some old) (v : Value) :
    Scene.Writes r ⟨m, a⟩ (.field ref slot) v ⟨m.setCell (.field ref slot) v, a⟩ := fun stack => by
  simp [Run.storeAddr, Run.orDangling, Scene.state, Memory.state, hold, bind, EStateM.bind,
    Run.get_apply, Run.modify_apply, pure, EStateM.pure, Memory.setCell, Memory.shared]

namespace Place.Denotes

variable {setting : Setting} {R : Routine} {hR : R.WithinLimits} {start : Nat} {s t : Emission}
  {table : Option Nat} {m n : Memory} {p : Place} {k : Cell} {a : Around} {v x : Value}

/-- A place stands for the cell as long as what is in use is kept. -/
theorem kept {r : Registry} (h : p.Denotes r table s m k) (hkeeps : m.Keeps s n) (hretains : s ≤ t) :
    p.Denotes r table t n k := by
  cases h with
  | var hslot => exact .var (by rwa [hretains.scope])
  | static => exact .static
  | @closure i j ref ty hi htable hscope harg =>
      refine .closure hi htable (by rwa [hretains.scope]) ?_
      have hheld : s.Holding (.arg j) := ⟨hscope, nofun⟩
      exact (hkeeps _ hheld).trans harg
  | field htemp hslot => exact .field (htemp.kept hkeeps hretains) hslot
  | property hp htemp hslot => exact .property hp (htemp.kept hkeeps hretains) hslot
  | array htemp hindex hlow =>
      exact .array (htemp.kept hkeeps hretains) (hindex.kept hkeeps hretains) hlow
  | list helem htemp hindex hlow =>
      exact .list helem (htemp.kept hkeeps hretains) (hindex.kept hkeeps hretains) hlow

theorem keeps_setCell {r : Registry} (h : p.Denotes r table s m k) (v : Value) :
    m.Keeps s (m.setCell k v) := by
  intro slot hslot
  cases h with
  | var hvar =>
      exact Memory.slot?_setSlot_ne (by rintro rfl; exact hslot.1 hvar) v
  | _ => cases slot <;> rfl

/-- The cell is no local that was free for something else before. -/
theorem seen {r : Registry} (h : p.Denotes r table t m k) (hs : s.Sound) (hretains : s ≤ t) : k.Seen s := by
  cases h with
  | @var slot _ hslot =>
      rw [hretains.scope] at hslot
      cases slot with
      | arg i => trivial
      | «local» i => exact hs.live i hslot
  | _ => trivial

theorem loadElement {slot index : Nat} {w : IndexWord} {container : Value} {kind : PlaceKind} {ty : Ty}
    (h : (Job.ofRoutine setting hR).Emits start
      (Emit.loadPlaceOperands ⟨kind, some slot, [index], ty⟩) s () t)
    (htemp : m.Temp s slot container) (hindex : m.Temp s index w.value) (stack : List Value) :
    Run.Leads setting.registry R s.position (m.state a stack) t.position
      (m.state a (w.value :: container :: stack)) := by
  have h : (Job.ofRoutine setting hR).Emits start (Emit.instrs [.loadLocal slot, .loadLocal index]) s () t := h
  obtain ⟨u, hfirst, h⟩ := h.instrs_cons
  obtain ⟨u', hsecond, h⟩ := h.instrs_cons
  obtain rfl := h.instrs_nil
  exact (hfirst.goesOn (.loadLocal _ _ _ htemp.value)).trans (hsecond.goesOn (.loadLocal _ _ _ hindex.value))

theorem loadReceiver {slot : Nat} {receiver : Value} {kind : PlaceKind} {ty : Ty}
    (h : (Job.ofRoutine setting hR).Emits start (Emit.loadPlaceOperands ⟨kind, some slot, [], ty⟩) s () t)
    (htemp : m.Temp s slot receiver) (stack : List Value) :
    Run.Leads setting.registry R s.position (m.state a stack) t.position
      (m.state a (receiver :: stack)) := by
  have h : (Job.ofRoutine setting hR).Emits start (Emit.instrs [.loadLocal slot]) s () t := h
  exact (Job.Emits.instrs_one_iff.mp h).goesOn (.loadLocal _ _ _ htemp.value)

/-- Loading the place leaves what is in the cell. -/
theorem load (h : (Job.ofRoutine setting hR).Emits start (Emit.loadPlace p) s () t)
    (hp : p.Denotes setting.registry table s m k) (htable : s.hidden.closureArg? = table)
    (hx : m.cell? setting.registry k = some x) (hty : setting.registry.Creates p.ty)
    (hrefers : x = .null ∨ setting.registry.Refers m.heap p.ty x) (stack : List Value) :
    Run.Leads setting.registry R s.position (m.state a stack) t.position (m.state a (x :: stack)) := by
  cases hp with
  | @var slot ty hslot =>
      cases slot with
      | arg i => exact Job.Emits.goesOn h (.loadArg _ _ _ hx)
      | «local» i => exact Job.Emits.goesOn h (.loadLocal _ _ _ hx)
  | static => exact Job.Emits.goesOn h (.loadStatic hx)
  | @closure i n ref ty hi htable' hscope harg =>
      obtain ⟨c, u, hclosure, h⟩ := Job.Emits.bind (x := Emit.closureTable) h
      obtain ⟨hfound, rfl⟩ := hclosure.closureTable
      obtain rfl := Option.some.inj ((htable'.symm.trans htable.symm).trans hfound)
      obtain ⟨hof, hboxed, hroot⟩ := Registry.ofType_of_refers hty hrefers
      have h : (Job.ofRoutine setting hR).Emits start (Emit.loadTableElement n i ty) u () t := h
      unfold Emit.loadTableElement at h
      rw [if_neg hroot] at h
      simp only [↓Job.Emits.seq_iff] at h
      obtain ⟨u₁, harg', u₂, hindex, u₃, helem, hunbox⟩ := h
      obtain ⟨w, hw, hvalue⟩ := IndexWord.exists_of_lt hi
      obtain ⟨cell, hcell, hitem⟩ := Option.bind_eq_some_iff.mp hx
      have hlt := (Array.getElem?_eq_some_iff.mp hitem).1
      have hindex : (Job.ofRoutine setting hR).Emits start (Emit.instr (.const (.num (.i32 i)))) u₁ () u₂ :=
        hindex
      have hload : Run.Steps setting.registry R (.const (.num (.i32 i)))
          (m.state a (.array ref :: stack)) (.ok .next (m.state a (w.value :: .array ref :: stack))) := by
        rw [← hvalue]
        exact .const _ _ _ _
      refine (harg'.goesOn (.loadArg _ _ _ harg)).trans ((hindex.goesOn hload).trans ?_)
      refine (helem.goesOn (.loadElem hcell ⟨by omega, by simp only [ArrayCell.size]; omega⟩ ?_)).trans
        (hunbox.goesOn (.unbox hof hboxed hroot))
      rw [hw]
      exact hitem
  | @field f temp slot ref ty htemp hslot =>
      obtain ⟨⟨⟩, u, hoperands, hload⟩ := Job.Emits.bind
        (x := Emit.loadPlaceOperands ⟨.field f, some temp, [], ty⟩) h
      refine (loadReceiver hoperands htemp stack).trans (Job.Emits.goesOn hload ?_)
      exact Run.Steps.loadField (c := ⟨m, a⟩) hslot rfl ⟨x, hx, rfl⟩
  | @property p f temp slot ref ty hp htemp hslot =>
      obtain ⟨getter, u, haccessor, hrest⟩ := Job.Emits.bind (x := Emit.accessor p .getter) h
      obtain ⟨rfl, d, hd, hgetter⟩ := haccessor.accessor
      obtain ⟨⟨⟩, u, hoperands, hload⟩ := Job.Emits.bind
        (x := Emit.loadPlaceOperands ⟨.property p, some temp, [], ty⟩) hrest
      cases hp with
      | intro hd' _ _ hvoid hown hgetter' _ hget _ =>
        obtain rfl := Except.ok.inj (hd.symm.trans hd')
        obtain rfl := Option.some.inj (hgetter.symm.trans hgetter')
        exact (loadReceiver hoperands htemp stack).trans
          (Job.Emits.goesOn hload (.callGetter hown hvoid hget hslot hx))
  | @array temp index ref w ty htemp hindex hlow =>
      obtain ⟨⟨⟩, u, hoperands, hload⟩ := Job.Emits.bind
        (x := Emit.loadPlaceOperands ⟨.arrayElem, some temp, [index], ty⟩) h
      obtain ⟨c, hc, hitem⟩ := Option.bind_eq_some_iff.mp hx
      have hlt := (Array.getElem?_eq_some_iff.mp hitem).1
      exact (loadElement hoperands htemp hindex stack).trans (Job.Emits.goesOn hload
        (.loadElem hc ⟨hlow, by simp only [ArrayCell.size]; omega⟩ hitem))
  | @list elem temp index ref w ty helem htemp hindex hlow =>
      obtain ⟨⟨⟩, u, hoperands, hload⟩ := Job.Emits.bind
        (x := Emit.loadPlaceOperands ⟨.listElem elem, some temp, [index], ty⟩) h
      obtain ⟨c, hc, hitem⟩ := Option.bind_eq_some_iff.mp hx
      have hlt := (Array.getElem?_eq_some_iff.mp hitem).1
      have hget : Run.Steps setting.registry R (.call (.intrinsic (.listGet elem)))
          (m.state a (w.value :: .list ref :: stack)) _ :=
        .intrinsic [.list ref, w.value] rfl (Run.intrinsic_listGet hc ⟨hlow, by omega⟩ hitem)
      rw [show (Intrinsic.listGet elem).signature.ret.isVoid = false from helem] at hget
      exact (loadElement hoperands htemp hindex stack).trans (Job.Emits.goesOn hload hget)

/-- Storing a local into the place writes the cell. -/
theorem store {slot : Nat} (h : (Job.ofRoutine setting hR).Emits start (Emit.storePlace p slot) s () t)
    (hp : p.Denotes setting.registry table s m k) (htable : s.hidden.closureArg? = table)
    (hthere : (m.cell? setting.registry k).isSome) (hv : m.Temp s slot v) (stack : List Value) :
    Run.Leads setting.registry R s.position (m.state a stack) t.position
      ((m.setCell k (p.kind.kept v)).state a stack) := by
  obtain ⟨old, hx⟩ := Option.isSome_iff_exists.mp hthere
  cases hp with
  | @var var ty hslot =>
      obtain ⟨⟨⟩, u, hload, hstore⟩ := Job.Emits.bind (x := Emit.instr (.loadLocal slot)) h
      refine (hload.goesOn (.loadLocal _ _ _ hv.value)).trans ?_
      cases var with
      | arg i => exact Job.Emits.goesOn hstore (.storeArg _ _ _ _ (Array.getElem?_eq_some_iff.mp hx).1)
      | «local» i => exact Job.Emits.goesOn hstore (.storeLocal _ _ _ _ (Array.getElem?_eq_some_iff.mp hx).1)
  | @static f ty =>
      have h : (Job.ofRoutine setting hR).Emits start (Emit.instrs [.loadLocal slot, .storeStatic f]) s () t := h
      obtain ⟨u, hload, hstore⟩ := h.instrs_cons
      exact (hload.goesOn (.loadLocal _ _ _ hv.value)).trans
        ((Job.Emits.instrs_one_iff.mp hstore).goesOn (.storeStatic f v))
  | @closure i n ref ty hi htable' hscope harg =>
      obtain ⟨c, u, hclosure, h⟩ := Job.Emits.bind (x := Emit.closureTable) h
      obtain ⟨hfound, rfl⟩ := hclosure.closureTable
      obtain rfl := Option.some.inj ((htable'.symm.trans htable.symm).trans hfound)
      have h : (Job.ofRoutine setting hR).Emits start (do
          Emit.instr (.loadArg n)
          Emit.int i
          Emit.instrs [.loadLocal slot, .box ty, .storeElem]) u () t := h
      simp only [↓Job.Emits.seq_iff, Job.Emits.instrs_cons_iff, Job.Emits.instrs_one_iff] at h
      obtain ⟨u₁, harg', u₂, hindex, u₃, hload, u₄, hbox, hstore⟩ := h
      obtain ⟨w, hw, hvalue⟩ := IndexWord.exists_of_lt hi
      obtain ⟨cell, hcell, hitem⟩ := Option.bind_eq_some_iff.mp hx
      have hlt := (Array.getElem?_eq_some_iff.mp hitem).1
      have hindex : (Job.ofRoutine setting hR).Emits start (Emit.instr (.const (.num (.i32 i)))) u₁ () u₂ :=
        hindex
      have hconst : Run.Steps setting.registry R (.const (.num (.i32 i)))
          (m.state a (.array ref :: stack)) (.ok .next (m.state a (w.value :: .array ref :: stack))) := by
        rw [← hvalue]
        exact .const _ _ _ _
      refine (harg'.goesOn (.loadArg _ _ _ harg)).trans ((hindex.goesOn hconst).trans ?_)
      refine (hload.goesOn (.loadLocal _ _ _ hv.value)).trans ((hbox.goesOn (.box _ _ _ ty v)).trans ?_)
      have hw' : w.val.toNat = i := by omega
      have hwrite : Run.Steps setting.registry R .storeElem
          (m.state a (v.boxed :: w.value :: .array ref :: stack)) _ :=
        .storeElem hcell ⟨by omega, by simp only [ArrayCell.size]; omega⟩ (hw'.symm ▸ hitem)
      rw [hw'] at hwrite
      exact hstore.goesOn hwrite
  | @field f temp slot' ref ty htemp hslot =>
      obtain ⟨⟨⟩, u, hoperands, h⟩ := Job.Emits.bind
        (x := Emit.loadPlaceOperands ⟨.field f, some temp, [], ty⟩) h
      obtain ⟨u', hload, hstore⟩ := Job.Emits.instrs_cons h
      refine (loadReceiver hoperands htemp stack).trans ((hload.goesOn (.loadLocal _ _ _ hv.value)).trans ?_)
      refine (Job.Emits.instrs_one_iff.mp hstore).goesOn 
        (.storeField hslot rfl (.field hx v))
  | @property p f temp slot' ref ty hp htemp hslot =>
      obtain ⟨setter, u, haccessor, hrest⟩ := Job.Emits.bind (x := Emit.accessor p .setter) h
      obtain ⟨rfl, d, hd, hsetter⟩ := haccessor.accessor
      obtain ⟨⟨⟩, u, hoperands, hrest⟩ := Job.Emits.bind
        (x := Emit.loadPlaceOperands ⟨.property p, some temp, [], ty⟩) hrest
      obtain ⟨u', hload, hstore⟩ := Job.Emits.instrs_cons hrest
      cases hp with
      | intro hd' _ _ _ hown _ hsetter' _ hset =>
        obtain rfl := Except.ok.inj (hd.symm.trans hd')
        obtain rfl := Option.some.inj (hsetter.symm.trans hsetter')
        refine (loadReceiver hoperands htemp stack).trans ((hload.goesOn (.loadLocal _ _ _ hv.value)).trans ?_)
        refine (Job.Emits.instrs_one_iff.mp hstore).goesOn 
          (Run.Steps.callSetter hown hset hslot rfl (.field hx v))
  | @array temp index ref w ty htemp hindex hlow =>
      obtain ⟨⟨⟩, u, hoperands, h⟩ := Job.Emits.bind
        (x := Emit.loadPlaceOperands ⟨.arrayElem, some temp, [index], ty⟩) h
      obtain ⟨u', hload, hstore⟩ := Job.Emits.instrs_cons h
      obtain ⟨c, hc, hitem⟩ := Option.bind_eq_some_iff.mp hx
      have hlt := (Array.getElem?_eq_some_iff.mp hitem).1
      refine (loadElement hoperands htemp hindex stack).trans
        ((hload.goesOn (.loadLocal _ _ _ hv.value)).trans ?_)
      exact (Job.Emits.instrs_one_iff.mp hstore).goesOn
        (.storeElem hc ⟨hlow, by simp only [ArrayCell.size]; omega⟩ hitem)
  | @list elem temp index ref w ty helem htemp hindex hlow =>
      obtain ⟨⟨⟩, u, hoperands, h⟩ := Job.Emits.bind
        (x := Emit.loadPlaceOperands ⟨.listElem elem, some temp, [index], ty⟩) h
      obtain ⟨u', hload, hstore⟩ := Job.Emits.instrs_cons h
      obtain ⟨c, hc, hitem⟩ := Option.bind_eq_some_iff.mp hx
      have hlt := (Array.getElem?_eq_some_iff.mp hitem).1
      have hset : Run.Steps setting.registry R (.call (.intrinsic (.listSet elem)))
          (m.state a (v :: w.value :: .list ref :: stack)) _ :=
        .intrinsic [.list ref, w.value, v] rfl (Run.intrinsic_listSet hc ⟨hlow, by omega⟩)
      refine (loadElement hoperands htemp hindex stack).trans
        ((hload.goesOn (.loadLocal _ _ _ hv.value)).trans ?_)
      exact (Job.Emits.instrs_one_iff.mp hstore).goesOn hset

end Place.Denotes

end Arbor
