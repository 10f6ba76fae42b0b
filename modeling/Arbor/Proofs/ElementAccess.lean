/-
  Accesses to elements under bounds checks.

  An element that is read or written is prepared with checks first.  Behind them
  the items of its container are where they are looked for; where an index is out
  of range control is at the exit, and the landing pad there leaves the default of
  the guarded tree.  The value that is stored is computed behind the checks; its code
  names none of the temporaries in which the element waits.
-/
import Arbor.Proofs.CheckedIndices
import Arbor.Proofs.Simulation.Places

set_option autoImplicit false

namespace Arbor

variable {setting : Setting} {R : Routine} {hR : R.WithinLimits} {start : Nat} {s t : Emission}

/-! ## Accesses -/

/-- The kind of the elements of a type, if these have values. -/
theorem PlaceKind.IsElement.of_elementKind? {ty : Ty} {kind : PlaceKind} {rank : Nat}
    (h : Emit.elementKind? ty = some (kind, rank))
    (helem : ∀ elem, ty.element? = some elem → elem.isVoid = false) : kind.IsElement rank := by
  cases ty with
  | array elem =>
      obtain ⟨rfl, rfl⟩ : PlaceKind.arrayElem = kind ∧ 1 = rank := by simpa [Emit.elementKind?] using h
      exact .array
  | list elem =>
      obtain ⟨rfl, rfl⟩ : PlaceKind.listElem elem = kind ∧ 1 = rank := by
        simpa [Emit.elementKind?] using h
      exact .list (helem elem rfl)
  | mdArray elem rank' =>
      obtain ⟨rfl, rfl⟩ : PlaceKind.mdElem elem rank' = kind ∧ rank' = rank := by
        simpa [Emit.elementKind?] using h
      exact .mdArray (helem elem rfl)
  | _ => simp [Emit.elementKind?] at h

/-- What an access to an element leaves: the item, or its address in an array if that is wanted. -/
def Place.accessed (p : Place) (addressed : Bool) (container : Value) (position : Nat) (item : Value) :
    Value :=
  match p.kind, container with
  | .arrayElem, .array ref => if addressed then .addr (.elem ref position) else item
  | _, _ => item

theorem Place.accessed_false (p : Place) (container : Value) (position : Nat) (item : Value) :
    p.accessed false container position item = item := by
  unfold accessed
  split <;> rfl

section Accesses

variable {p : Place} {n : Nat} {J : Job}

/-- Loading an element loads its operands and reads it. -/
theorem Job.Emits.loadElement (hkind : p.kind.IsElement n)
    (h : J.Emits start (Emit.loadPlace p) s () t) :
    ∃ u, J.Emits start (Emit.loadPlaceOperands p) s () u ∧
      J.Emits start (Emit.instr p.kind.reader) u () t := by
  obtain ⟨kind, receiver, indices, ty⟩ := p
  cases hkind <;> exact Job.Emits.seq_iff.mp h

/-- Storing into an element loads its operands and the value and writes it. -/
theorem Job.Emits.storeElement {slot : Nat} (hkind : p.kind.IsElement n)
    (h : J.Emits start (Emit.storePlace p slot) s () t) :
    ∃ u v, J.Emits start (Emit.loadPlaceOperands p) s () u ∧
      J.Emits start (Emit.instr (.loadLocal slot)) u () v ∧
      J.Emits start (Emit.instr p.kind.writer) v () t := by
  have hstore : J.Emits start (do
      Emit.loadPlaceOperands p
      Emit.instrs [.loadLocal slot, p.kind.writer]) s () t := by
    obtain ⟨kind, receiver, indices, ty⟩ := p
    cases hkind <;> exact h
  simp only [↓Job.Emits.seq_iff, Job.Emits.instrs_cons_iff, Job.Emits.instrs_one_iff] at hstore
  obtain ⟨u, hoperands, v, hvalue, hwrite⟩ := hstore
  exact ⟨u, v, hoperands, hvalue, hwrite⟩

/-- Only the elements of an array have addresses. -/
theorem Job.Emits.loadElementAddr {addressed : Bool} (hkind : p.kind.IsElement n)
    (h : J.Emits start (Emit.loadPlaceAddr p) s addressed t) :
    (p.kind = .arrayElem ∧ addressed = true ∧ ∃ u, J.Emits start (Emit.loadPlaceOperands p) s () u ∧
      J.Emits start (Emit.instr .loadElemAddr) u () t) ∨
    (p.kind ≠ .arrayElem ∧ addressed = false ∧ t = s) := by
  obtain ⟨kind, receiver, indices, ty⟩ := p
  cases hkind with
  | array =>
      have h : J.Emits start (do
          Emit.loadPlaceOperands ⟨.arrayElem, receiver, indices, ty⟩
          Emit.instr .loadElemAddr
          return true) s addressed t := h
      simp only [↓Job.Emits.seq_iff] at h
      obtain ⟨u, hoperands, v, haddr, h⟩ := h
      obtain ⟨rfl, rfl⟩ := h.pure
      exact .inl ⟨rfl, rfl, u, hoperands, haddr⟩
  | list | mdArray =>
      obtain ⟨rfl, rfl⟩ := h.pure
      exact .inr ⟨by simp, rfl, rfl⟩

end Accesses

namespace Run.Via

variable {span : Span} {within : Nat → Prop} {a : Around} {m : Memory} {stack : List Value} {q n : Nat}
  {c : State} {p : Place} {v : Value} {dims : List Nat} {items : Array Value} {ws : List IndexWord}

/-- Loading the operands of an element. -/
theorem loadOperands (h : (Job.ofRoutine setting hR).Emits start (Emit.loadPlaceOperands p) s () t)
    (hheld : p.Held m v dims items ws) (hp : ∀ p, s.position ≤ p → p < t.position → within p)
    (hrest : Via setting.registry R span within t.position
      (m.state a ((ws.map IndexWord.value).reverse ++ v :: stack)) q c) :
    Via setting.registry R span within s.position (m.state a stack) q c := by
  obtain ⟨slot, hslot, hvalue⟩ := hheld.container
  unfold Emit.loadPlaceOperands at h
  rw [hslot] at h
  have hvalues : List.Forall₂ (fun (slot : Nat) (v : Value) => m.locals[slot]? = some v)
      (slot :: p.indices) (v :: ws.map IndexWord.value) := by
    refine .cons hvalue ?_
    rw [List.forall₂_map_right_iff]
    exact hheld.indices
  refine .loadLocals h hvalues hp ?_
  rwa [List.reverse_cons, List.append_assoc]

theorem silent_reader (r : Registry) (R : Routine) (kind : PlaceKind) : Silent r R kind.reader := by
  cases kind <;> first | exact .intrinsic _ | exact Quiet.silent fun _ => rfl

theorem silent_writer (r : Registry) (R : Routine) (kind : PlaceKind) : Silent r R kind.writer := by
  cases kind <;> first | exact .intrinsic _ | exact Quiet.silent fun _ => rfl

/-- An element within bounds is read. -/
theorem readElement {x : Value} (hkind : p.kind.IsElement p.indices.length)
    (h : (Job.ofRoutine setting hR).Emits start (Emit.loadPlace p) s () t)
    (hheld : p.Held m v dims items ws) (hin : InBounds dims (ws.map Word.val))
    (hx : items[elementPosition dims (ws.map Word.val)]? = some x)
    (hp : ∀ p, s.position ≤ p → p < t.position → within p)
    (hrest : Via setting.registry R span within t.position (m.state a (x :: stack)) q c) :
    Via setting.registry R span within s.position (m.state a stack) q c := by
  obtain ⟨u, hoperands, hread⟩ := h.loadElement hkind
  have hmiddle := hoperands.position_le
  have hend := hread.instr_position
  rw [hheld.indices.length_eq] at hkind
  refine .loadOperands hoperands hheld (fun p hp' hp'' => hp p hp' (by omega)) ?_
  exact .silent hread (silent_reader _ _ _) (hp _ (by omega) (by omega))
    (.readItem hkind hheld.holds hheld.small hin hx) hrest

/-- The address of an element within bounds of an array. -/
theorem addressElement (hkind : p.kind = .arrayElem) {u : Emission}
    (hoperands : (Job.ofRoutine setting hR).Emits start (Emit.loadPlaceOperands p) s () u)
    (haddr : (Job.ofRoutine setting hR).Emits start (Emit.instr .loadElemAddr) u () t)
    (hheld : p.Held m v dims items ws) (hin : InBounds dims (ws.map Word.val))
    (hp : ∀ p, s.position ≤ p → p < t.position → within p) (x : Value)
    (hrest : Via setting.registry R span within t.position
      (m.state a (p.accessed true v (elementPosition dims (ws.map Word.val)) x :: stack)) q c) :
    Via setting.registry R span within s.position (m.state a stack) q c := by
  have hmiddle := hoperands.position_le
  have hend := haddr.instr_position
  refine .loadOperands hoperands hheld (fun p hp' hp'' => hp p hp' (by omega)) ?_
  have hholds := hheld.holds
  rw [hkind] at hholds
  cases hholds with
  | array hc =>
    obtain ⟨w, rfl, hbounds, hposition⟩ := Steps.eq_of_inBounds hin
    simp only [Place.accessed, hkind, if_true, hposition] at hrest
    exact .instr haddr (fun _ => rfl) (hp _ (by omega) (by omega)) (.loadElemAddr hc hbounds) hrest

/-- An element within bounds is written. -/
theorem writeElement {slot : Nat} {x : Value} (hkind : p.kind.IsElement p.indices.length)
    (h : (Job.ofRoutine setting hR).Emits start (Emit.storePlace p slot) s () t)
    (hheld : p.Held m v dims items ws) (hin : InBounds dims (ws.map Word.val))
    (hx : m.locals[slot]? = some x) (hp : ∀ p, s.position ≤ p → p < t.position → within p)
    (hrest : Via setting.registry R span within t.position
      ((m.shared (m.heap.setItem v (elementPosition dims (ws.map Word.val)) x) m.statics).state a stack)
        q c) :
    Via setting.registry R span within s.position (m.state a stack) q c := by
  obtain ⟨u, u', hoperands, hvalue, hwrite⟩ := h.storeElement hkind
  have hfirst := hoperands.position_le
  have hsecond := hvalue.instr_position
  have hend := hwrite.instr_position
  rw [hheld.indices.length_eq] at hkind
  refine .loadOperands hoperands hheld (fun p hp' hp'' => hp p hp' (by omega)) ?_
  refine .instr hvalue (fun _ => rfl) (hp _ (by omega) (by omega)) (.loadLocal _ _ _ hx) ?_
  exact .silent hwrite (silent_writer _ _ _) (hp _ (by omega) (by omega))
    (.writeItem hkind hheld.holds hheld.small hin) hrest

end Run.Via

/-! ## Reads and writes -/

/-- An element that is read: it is prepared with checks and loaded behind them. -/
structure ElementRead (hR : R.WithinLimits) (setting : Setting) (start : Nat) (pad : Label)
    (receiver : Expr) (args : List Expr) (ty : Ty) (shape : Shape) (s t : Emission) where
  place : Place
  prepared : Emission
  stop : Emission
  code : ElementCode hR setting start pad receiver args place s prepared
  guards : code.Guards
  reads : ∀ (span : Span) (a : Around) (m : Memory) (stack : List Value) (v : Value) (dims : List Nat)
    (items : Array Value) (ws : List IndexWord) (x : Value), place.Held m v dims items ws →
    InBounds dims (ws.map Word.val) → items[elementPosition dims (ws.map Word.val)]? = some x →
    Run.Via setting.registry R span (fun q => prepared.position ≤ q ∧ q < stop.position)
      prepared.position (m.state a stack) stop.position
      (m.state a (place.accessed (shape.wantsAddress ty) v (elementPosition dims (ws.map Word.val)) x ::
        stack))
  stop_le : stop.position ≤ t.position
  stop_eq : shape = .value → stop.position = t.position

/-- An element that is written: it is prepared with checks, and behind them a value is computed and
stored there. -/
structure ElementWrite (hR : R.WithinLimits) (setting : Setting) (start : Nat) (pad : Label)
    (receiver : Expr) (args : List Expr) (value : Option Expr) (s t : Emission) where
  place : Place
  prepared : Emission
  code : ElementCode hR setting start pad receiver args place s prepared
  guards : code.Guards
  computed : Emission
  stored : Emission
  slot : Nat
  after : prepared.position ≤ computed.position
  before : stored.position ≤ t.position
  writes : ∀ (span : Span) (a : Around) (m : Memory) (stack : List Value) (v : Value) (dims : List Nat)
    (items : Array Value) (ws : List IndexWord) (x : Value), m.locals.size = R.locals.size →
    place.Held m v dims items ws → InBounds dims (ws.map Word.val) →
    Run.Via setting.registry R span (fun q => computed.position ≤ q ∧ q < stored.position)
      computed.position (m.state a (x :: stack)) stored.position
      (((m.setLocal slot x).shared
        (m.heap.setItem v (elementPosition dims (ws.map Word.val)) x) m.statics).state a stack)
  operand : ∀ e, value = some e → ∃ (u w : Emission) (used : Bool),
    (Job.ofRoutine setting hR).Emits start (e.toNode.value (some pad)) u used w ∧
      prepared.position ≤ u.position ∧ w.position ≤ computed.position ∧
      ∀ k ∈ code.container :: place.indices,
        (∀ id info, u.labels.lookup id = some info → info.valueSlot ≠ some k) →
        ∀ (q : Nat) (i : Instr), u.position ≤ q → q < w.position → R.code[q]? = some i → k ∉ i.slots

section Nodes

variable {pad : Label} {receiver : Expr} {args : List Expr} {ty : Ty} {shape : Shape} {e : Emitted}

/-- Reading an element with bounds checks. -/
theorem ElementRead.of_emits (hchecks : setting.options.boundsChecks = true)
    (hextend : setting.options.autoExtendRead = false)
    (helem : ∀ elem, receiver.ty.element? = some elem → elem.isVoid = false)
    (h : (Job.ofRoutine setting hR).Emits start
      ((Expr.node (.index receiver args none) ty).toNode.emit (some pad) shape false) s e t) :
    e.usedExit = true ∧ (ty.isVoid = false → e.form = shape.form ty) ∧
      Nonempty (ElementRead hR setting start pad receiver args ty shape s t) := by
  rw [Expr.toNode_node] at h
  obtain ⟨before, u, hindex, hadapt⟩ := h.bind
  have hadapted := hadapt.adapt
  have hindex : (Job.ofRoutine setting hR).Emits start
      (Emit.index receiver.toNode (args.map Expr.toNode) none ty (some pad) shape
        ((Expr.node (.index receiver args none) ty).toNode.place)) s before u := by
    rw [Expr.toNode_node]
    exact hindex
  obtain ⟨o, _, hoptions, hindex⟩ := hindex.bind
  obtain ⟨rfl, rfl⟩ := hoptions.options
  have hdirect : Emit.directIndex? receiver.toNode (args.map Expr.toNode) none
      (Job.ofRoutine setting hR).setting.options (some pad) = none := by
    have hchecks : (Job.ofRoutine setting hR).setting.options.boundsChecks = true := hchecks
    unfold Emit.directIndex?
    split
    · simp [hchecks]
    · rfl
  simp only [hdirect] at hindex
  obtain ⟨u', hindex, hend⟩ := hindex.withTemps
  rw [Job.Emits.bind_iff] at hindex
  obtain ⟨⟨p, used⟩, prepared, hplace, hindex⟩ := hindex
  rw [show (Job.ofRoutine setting hR).setting.options.autoExtendRead = false from hextend] at hplace
  obtain ⟨rfl, ⟨c⟩⟩ := ElementCode.of_emits hchecks hplace
  have hkind : p.kind.IsElement p.indices.length := by
    rw [c.length_eq]
    exact .of_elementKind? c.element helem
  have hafter := hadapt.position_le
  have hvalue : before = .ofTy ty true → e.usedExit = true ∧ e.form = shape.form ty := by
    rintro rfl
    rw [hadapted]
    exact ⟨rfl, Emitted.ofTy_adapted ty shape⟩
  -- Where no address is wanted or there is none, the item itself is loaded.
  have hloads : ∀ {v : Emission}, v.position = prepared.position →
      (shape.wantsAddress ty = true → p.kind ≠ .arrayElem) → before = .ofTy ty true →
      (Job.ofRoutine setting hR).Emits start (Emit.loadPlace p) v () u' →
      Nonempty (ElementRead hR setting start pad receiver args ty shape s t) := by
    intro v hv haddress hbefore hload
    refine ⟨p, prepared, u', c, c.guards, ?_, by omega, ?_⟩
    · intro span a m stack container dims items ws x hheld hin hx
      have hitem : p.accessed (shape.wantsAddress ty) container
          (elementPosition dims (ws.map Word.val)) x = x := by
        cases hshape : shape.wantsAddress ty with
        | false => exact p.accessed_false _ _ _
        | true =>
            unfold Place.accessed
            split
            · next hkind' => exact absurd hkind' (haddress hshape)
            · rfl
      rw [hitem]
      refine .move hv ?_
      exact .readElement hkind hload hheld hin hx (fun q hq hq' => ⟨by omega, hq'⟩) (.refl _ _)
    · rintro rfl
      rw [hbefore] at hadapt
      unfold Emit.adapt Emitted.ofTy at hadapt
      cases hvoid : ty.isVoid <;>
      · simp only [hvoid, if_true, Bool.false_eq_true, if_false] at hadapt
        obtain ⟨-, rfl⟩ := hadapt.pure
        exact hend.symm
  cases haddress : shape.wantsAddress ty with
  | false =>
      simp only [haddress, Bool.false_eq_true, if_false] at hindex
      obtain ⟨_, _, hnone, hrest⟩ := hindex.bind
      obtain ⟨rfl, rfl⟩ := hnone.pure
      simp only [Bool.false_eq_true, if_false, ↓Job.Emits.seq_iff] at hrest
      obtain ⟨v, hload, hrest⟩ := hrest
      obtain ⟨rfl, rfl⟩ := hrest.pure
      exact ⟨(hvalue rfl).1, fun _ => (hvalue rfl).2, hloads rfl (by simp [haddress]) rfl hload⟩
  | true =>
      simp only [haddress, if_true] at hindex
      obtain ⟨addressed, v, haddressed, hrest⟩ := hindex.bind
      rcases haddressed.loadElementAddr hkind with ⟨harray, rfl, w, hoperands, haddr⟩ | ⟨hother, rfl, rfl⟩
      · simp only [if_true] at hrest
        obtain ⟨rfl, rfl⟩ := hrest.pure
        have hshape : shape ≠ .nothing := by
          rintro rfl
          cases haddress
        refine ⟨by rw [hadapted]; rfl, ?_, ⟨p, prepared, u', c, c.guards, ?_, by omega, ?_⟩⟩
        · intro hvoid
          rw [hadapted]
          simp [Emitted.address, Form.adapted, Shape.form, hvoid, hshape, haddress]
        · intro span a m stack container dims items ws x hheld hin hx
          rw [haddress]
          exact .addressElement harray hoperands haddr hheld hin (fun q hq hq' => ⟨hq, hq'⟩) x (.refl _ _)
        · rintro rfl
          cases haddress
      · simp only [Bool.false_eq_true, if_false, ↓Job.Emits.seq_iff] at hrest
        obtain ⟨w, hload, hrest⟩ := hrest
        obtain ⟨rfl, rfl⟩ := hrest.pure
        exact ⟨(hvalue rfl).1, fun _ => (hvalue rfl).2, hloads rfl (fun _ => hother) rfl hload⟩

/-- Writing an element with bounds checks. -/
theorem ElementWrite.of_emits {op : AssignOp} {value : Option Expr} {checked : Bool} {ty' : Ty}
    (hchecks : setting.options.boundsChecks = true)
    (hextend : setting.options.autoExtendAssign = false)
    (helem : ∀ elem, receiver.ty.element? = some elem → elem.isVoid = false)
    (h : (Job.ofRoutine setting hR).Emits start
      ((Expr.node (.assign op (.node (.index receiver args none) ty) value checked false) ty').toNode.emit
        (some pad) shape false) s e t) :
    e.usedExit = true ∧ Nonempty (ElementWrite hR setting start pad receiver args value s t) := by
  rw [Expr.toNode_node] at h
  obtain ⟨before, u, hassign, hadapt⟩ := h.bind
  have hadapted := hadapt.adapt
  have hassign : (Job.ofRoutine setting hR).Emits start
      (Emit.assign op (Expr.node (.index receiver args none) ty).toNode (value.map Expr.toNode) checked
        false (some pad) shape) s before u := hassign
  obtain ⟨p, used, prepared, hplace, hused, ⟨w⟩⟩ := Assigns.of_assign hassign
  rw [show (Job.ofRoutine setting hR).setting.options.autoExtendAssign = false from hextend] at hplace
  obtain ⟨rfl, ⟨c⟩⟩ := ElementCode.of_emits hchecks hplace
  have hkind : p.kind.IsElement p.indices.length := by
    rw [c.length_eq]
    exact .of_elementKind? c.element helem
  have hafter := hadapt.position_le
  have hbefore := w.before
  have hcomputed := w.after
  have hspilled := w.spill.spill.1
  have hstored := w.store.position_le
  refine ⟨by rw [hadapted]; exact hused rfl, ⟨p, prepared, c, c.guards, w.computed, w.stored, w.slot,
    w.after, by omega, ?_, ?_⟩⟩
  · intro span a m stack v dims items ws x hsize hheld hin
    have hfresh : ∀ k ∈ c.container :: p.indices, w.slot ≠ k := by
      rintro k hk rfl
      exact w.spill.spill.2 (((c.holding hk).later w.retains).2 _ rfl)
    have hkept : ∀ k ∈ c.container :: p.indices, (m.setLocal w.slot x).locals[k]? = m.locals[k]? := by
      intro k hk
      simp [Memory.setLocal, Array.getElem?_setIfInBounds_ne (hfresh k hk)]
    have hheld' : p.Held (m.setLocal w.slot x) v dims items ws := by
      refine ⟨?_, ?_, hheld.holds, hheld.small, hheld.rank⟩
      · obtain ⟨slot, hslot, hv⟩ := hheld.container
        have hslot' := c.receiver_eq.symm.trans hslot
        cases hslot'
        exact ⟨_, hslot, (hkept _ List.mem_cons_self).trans hv⟩
      · refine List.forall₂_iff_get.mpr ⟨hheld.indices.length_eq, fun i hi hi' => ?_⟩
        have hvalue := (List.forall₂_iff_get.mp hheld.indices).2 i hi hi'
        exact (hkept _ (List.mem_cons_of_mem _ (List.get_mem _ _))).trans hvalue
    refine .spill w.spill hsize ⟨Nat.le_refl _, by omega⟩ ?_
    refine .writeElement hkind w.store hheld' hin (w.spill.spilled hsize x).value
      (fun q hq hq' => ⟨by omega, hq'⟩) (.refl _ _)
  · rintro operand rfl
    obtain ⟨u', w', used, hvalue, hretains, hstart, hstop⟩ := w.operand operand.toNode rfl
    refine ⟨u', w', used, hvalue, hstart, hstop, fun k hk hlabels q i hq hq' hi => ?_⟩
    exact hvalue.spares ((c.holding hk).later hretains) hlabels hq hq' hi

end Nodes

/-! ## Landings -/

/-- The code of a tree with a landing of its own: before the tree the depth of the stack is recorded,
and where a check fails the stack is cut down to it. -/
structure LandedCode (hR : R.WithinLimits) (setting : Setting) (body : Expr) (shape : Shape)
    (s t : Emission) where
  first : Nat
  pad : Label
  depth : Nat
  entered : Emission
  left : Emission
  land : Emission
  inner : Emitted
  code : (Job.ofRoutine setting hR).Emits first (body.toNode.emit (some pad) shape false) entered inner
    left
  target : R.target? pad = some land.position
  retains : s ≤ entered
  holding : entered.Holding (.local depth)
  unnamed : (∀ id info, entered.labels.lookup id = some info → info.valueSlot ≠ some depth) →
    ∀ (q : Nat) (i : Instr), entered.position ≤ q → q < left.position → R.code[q]? = some i →
      depth ∉ i.slots
  enters : inner.usedExit = true → ∀ (span : Span) (a : Around) (m : Memory) (stack : List Value),
    m.locals.size = R.locals.size →
    (m.setLocal depth (.int stack.length)).locals[depth]? = some (.int stack.length) ∧
      Run.Via setting.registry R span (fun q => s.position ≤ q ∧ q < entered.position) s.position
        (m.state a stack) entered.position ((m.setLocal depth (.int stack.length)).state a stack)
  leaves : inner.usedExit = true → ∀ (span : Span) (a : Around) (m : Memory) (stack : List Value),
    Run.Via setting.registry R span (fun q => left.position ≤ q ∧ q < t.position) left.position
      (m.state a stack) t.position (m.state a stack)
  lands : inner.usedExit = true → ∀ (span : Span) (a : Around) (m : Memory) (top stack : List Value)
    (z : Value), stack.length < Run.depthLimit → m.locals[depth]? = some (.int stack.length) →
    setting.registry.zero body.ty = .ok z → body.ty.isVoid = false → inner.form = .value →
    Run.Via setting.registry R span (fun q => left.position ≤ q ∧ q < t.position) land.position
      (m.state a (top ++ stack)) t.position (m.state a (z :: stack))

/-- A tree with a landing of its own. -/
theorem LandedCode.of_emits {body : Expr} {shape : Shape} {e : Emitted}
    (hexits : setting.options.usesExits = true)
    (h : (Job.ofRoutine setting hR).Emits start (body.toNode.guarded shape) s e t) :
    Nonempty (LandedCode hR setting body shape s t) := by
  obtain ⟨o, _, ho, h⟩ := h.bind
  obtain ⟨rfl, rfl⟩ := ho.options
  rw [if_pos (show (Job.ofRoutine setting hR).setting.options.usesExits = true from hexits)] at h
  obtain ⟨depth, s₁, htemp, h⟩ := h.bind
  obtain ⟨⟨pad, inner⟩, s₂, hbody, h⟩ := h.bind
  obtain ⟨u, v, hcode, hu, huPosition, hv, hvPosition, hmark⟩ := hbody.reserved
  obtain ⟨pad', u', hpad, hcode⟩ := hcode.bind
  obtain ⟨inner', v', hcode, hpure⟩ := hcode.bind
  obtain ⟨heq, rfl⟩ := hpure.pure
  cases heq
  obtain ⟨hposition, hlive, hfresh, hbound⟩ := htemp.temp
  have hretains : s ≤ u' := htemp.retains.trans (hu.trans hpad.retains)
  have hholding : u'.Holding (.local depth) := by
    refine htemp.sound.holding hretains ?_ hfresh
    exact (hu.trans hpad.retains).live (by rw [hlive]; exact List.mem_cons_self)
  have hentered := hpad.newLabel.1
  have hunnamed : (∀ id info, u'.labels.lookup id = some info → info.valueSlot ≠ some depth) →
      ∀ (q : Nat) (i : Instr), u'.position ≤ q → q < v.position → R.code[q]? = some i →
        depth ∉ i.slots := fun hlabels q i hq hq' hi =>
    hcode.sparing ((Emit.spares_tree body depth u'.position).emit _ _ _ _) hholding hlabels hq hq' hi
  have hty : body.toNode.ty = body.ty := Expr.toNode_ty body
  cases hused : inner.usedExit with
  | false =>
      simp only [hused, Bool.false_eq_true, if_false, ↓Job.Emits.seq_iff] at h
      obtain ⟨s₃, hland, h⟩ := h
      exact ⟨⟨_, pad, depth, u', v, s₃, inner, hcode, hland.target, hretains, hholding, hunnamed, by simp [hused],
        by simp [hused], by simp [hused]⟩⟩
  | true =>
      simp only [hused, if_true, Option.getD_some] at h hmark
      simp only [↓Job.Emits.seq_iff, Job.Emits.bind_iff] at h
      obtain ⟨done, s₃, hdone, s₄, hjump, s₅, hland, s₆, hreset, s₇, hpush, s₈, hmarkDone, h⟩ := h
      obtain ⟨rfl, rfl⟩ := h.pure
      have hdonePosition := hdone.newLabel.1
      have hjumpPosition := hjump.instr_position
      have hlandPosition := hland.mark.2.1
      have hresetPosition := hreset.instr_position
      have hpushPosition := hpush.position_le
      have hend := hmarkDone.mark.2.1
      refine ⟨⟨_, pad, depth, u', v, s₅, inner, hcode, hland.target, hretains, hholding, hunnamed, ?_, ?_, ?_⟩⟩
      · intro _ span a m stack hsize
        have hbound : depth < m.locals.size := by
          rw [hsize]
          exact hbound
        refine ⟨by simp [Memory.setLocal, hbound], ?_⟩
        rw [hentered, huPosition]
        refine .move hposition ?_
        exact .next hmark (Run.Quiet.silent fun _ => rfl) ⟨by omega, by omega⟩ (.markStack _ _ _ hbound)
          (.refl _ _)
      · intro _ span a m stack
        refine .move (u := s₃) (by omega) ?_
        exact .goto hjump (fun _ => rfl) ⟨by omega, by omega⟩ (.jump _ _ _ hmarkDone.target) (.refl _ _)
      · intro _ span a m top stack z hlimit hdepth hzero hvoid hform
        rw [hform, hty] at hpush
        refine .instr hreset (fun _ => rfl) ⟨by omega, by omega⟩ (.resetStack _ _ _ top hdepth hlimit) ?_
        have hpush : (Job.ofRoutine setting hR).Emits start (Emit.pushDefault body.ty) _ () _ := hpush
        refine .pushDefault hpush hvoid hzero (fun q hq hq' => ⟨by omega, by omega⟩) ?_
        exact .move hend (.refl _ _)

/-! ## Elements -/

/-- Without checks and extension a receiver is its value. -/
theorem Job.Emits.receiverValue {J : Job} {n : Node} {exit : Option Label} {e : Emitted}
    (hchecks : J.setting.options.nullChecks = false) (hextend : J.setting.options.autoExtendRead = false)
    (h : J.Emits start (n.receiver exit .value false) s e t) :
    ∃ used, J.Emits start (n.value exit) s used t := by
  obtain ⟨o, _, ho, h⟩ := h.bind
  obtain ⟨rfl, rfl⟩ := ho.options
  obtain ⟨emitted, u, hemit, h⟩ := h.bind
  rw [hextend] at hemit
  have hend : t = u := by
    dsimp only at h
    split at h
    · obtain ⟨_, v, hcheck, h⟩ := h.bind
      obtain ⟨-, rfl⟩ := h.pure
      cases exit with
      | none => exact hcheck.pure.2
      | some pad =>
          obtain ⟨o, _, ho, hcheck⟩ := Job.Emits.bind (x := Emit.options) hcheck
          obtain ⟨rfl, rfl⟩ := ho.options
          rw [if_neg (by simp [hchecks])] at hcheck
          exact hcheck.pure.2
    · exact h.pure.2
  rw [hend]
  exact ⟨_, hemit.toValue⟩

end Arbor
