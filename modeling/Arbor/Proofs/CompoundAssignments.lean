/-
  Compound assignments.

  A compound assignment or a step evaluates the operands of its target once and in
  their order, reads the target once, evaluates its value, and writes the target
  once.  Both accesses go by the same operands, which wait in temporaries.  The node
  leaves what was read if it is a postfix step, and else what was written.
-/
import Arbor.Proofs.Simulation.PlaceAccess

set_option autoImplicit false

namespace Arbor

variable {setting : Setting} {R : Routine} {hR : R.WithinLimits} {start : Nat} {s t : Emission}
  {exit : Option Label}

/-! ## Code -/

/-- The code from the first point up to the second one names no temporary that is in use at the first. -/
def Emission.Unnamed (J : Job) (s t : Emission) : Prop :=
  ∀ k, s.Holding (.local k) → (∀ id info, s.labels.lookup id = some info → info.valueSlot ≠ some k) →
    ∀ (q : Nat) (i : Instr), s.position ≤ q → q < t.position → J.routine.code[q]? = some i → k ∉ i.slots

/-- The code of operands names no temporary in which an earlier one waits. -/
theorem TargetOperand.Codes.unnamed {J : Job} {start : Nat} {exit : Option Label} {s t : Emission}
    {os : List TargetOperand} {stretches : List (Emission × Emission)} {slots : List Nat}
    (h : Codes J start exit os stretches slots s t) : ∀ x ∈ stretches, Emission.Unnamed J x.1 x.2 := by
  induction h with
  | nil => exact fun x hx => absurd hx List.not_mem_nil
  | @cons o os slot slots stretches s stop u t first _ ih =>
      refine List.forall_mem_cons.mpr ⟨fun k hk hlabels q i hq hq' hi => ?_, ih⟩
      obtain ⟨⟨e, hcode⟩, -⟩ := first
      cases o with
      | receiver e extend | container e =>
          exact hcode.sparing (Emit.spares_tree e k _).receiver hk hlabels hq hq' hi
      | index e | argument e =>
          exact hcode.sparing ((Emit.spares_tree e k _).emit _ _ _ _) hk hlabels hq hq' hi

/-- Without operands there is no code. -/
theorem TargetOperand.Codes.of_nil {J : Job} {start : Nat} {exit : Option Label} {s t : Emission}
    {stretches : List (Emission × Emission)} {slots : List Nat}
    (h : Codes J start exit [] stretches slots s t) : stretches = [] ∧ slots = [] ∧ t = s := by
  cases h
  exact ⟨rfl, rfl, rfl⟩

/-- A target that takes no operands has none. -/
theorem TargetCode.isBare {J : Job} {start : Nat} {exit : Option Label} {k : ExprKind Expr} {extend : Bool}
    {p : Place} {s t : Emission} (c : TargetCode J start exit k extend p s t) : p.IsBare := by
  intro hkind
  have hnone : c.operands = [] → p.slots = [] := by
    intro hoperands
    have hcode := c.code
    rw [hoperands] at hcode
    exact hcode.of_nil.2.1
  refine hnone ?_
  have hdesignates := c.designates
  generalize c.operands = os at hdesignates
  generalize p.kind = kind at hdesignates hkind
  cases hdesignates with
  | parameter | closureVar | staticField | staticProperty => rfl
  | field | property | staticIndexer | indexer => cases hkind
  | @element receiver args kind hfound =>
      unfold Emit.elementKind? at hfound
      split at hfound
      all_goals
        simp only [Option.some.injEq, Prod.mk.injEq, reduceCtorEq] at hfound
      all_goals
        obtain ⟨rfl, -⟩ := hfound
        cases hkind

/-- Checks come behind the operands. -/
theorem TargetCode.stop_le {J : Job} {start : Nat} {exit : Option Label} {k : ExprKind Expr} {extend : Bool}
    {p : Place} {s t : Emission} (c : TargetCode J start exit k extend p s t) :
    c.stop ≤ t ∧ c.stop.position ≤ t.position := by
  rcases c.checks with h | ⟨_, _, _, _, h⟩
  · exact ⟨le_of_eq h.symm, by rw [← h]⟩
  · exact ⟨h.retains, h.position_le⟩

/-- The code of a compound assignment or a step from `s` to `t`: that of the target up to `prepared`, of
the operand up to `valued` and of the operator up to `computed`.  The target is read from `addressed` to
`read` and written from `loaded` to `written`. -/
structure CompoundCode (hR : R.WithinLimits) (setting : Setting) (start : Nat) (exit : Option Label)
    (op : AssignOp) (target : Expr) (value : Option Expr) (checked extend : Bool) (shape : Shape)
    (s t : Emission) where
  place : Place
  prepared : Emission
  addressed : Emission
  read : Emission
  held : Emission
  valued : Emission
  computed : Emission
  stored : Emission
  readdressed : Emission
  loaded : Emission
  written : Emission
  old : Nat
  new : Nat
  stretches : List (Emission × Emission)
  slots : List Nat
  code : TargetCode (Job.ofRoutine setting hR) start exit target.kind extend place s prepared
  address : (Job.ofRoutine setting hR).Emits start (Emit.addressPlace place) prepared () addressed
  reads : (Job.ofRoutine setting hR).Emits start (Emit.readPlace place) addressed () read
  holds : (Job.ofRoutine setting hR).Emits start (Emit.spill target.ty) read old held
  operand : TargetOperand.Codes (Job.ofRoutine setting hR) start exit (value.toList.map .argument) stretches
    slots held valued
  operator : ∀ (span : Span) (a : Around) (m : Memory) (stack : List Value) (x : Value) (ys : List Value)
    (z : Value), m.Temp valued old x →
    List.Forall₂ (fun (slot : Nat) (y : Value) => m.Temp valued slot y) slots ys →
    op.Gives setting checked target.ty value m x ys z →
    Run.Via setting.registry R span (fun q => valued.position ≤ q ∧ q < computed.position) valued.position
      (m.state a stack) computed.position (m.state a (z :: stack))
  retains : valued ≤ computed
  before : valued.position ≤ computed.position
  keeps : (Job.ofRoutine setting hR).Emits start (Emit.spill target.ty) computed new stored
  readdress : (Job.ofRoutine setting hR).Emits start (Emit.addressPlace place) stored () readdressed
  loads : (Job.ofRoutine setting hR).Emits start (Emit.instr (.loadLocal new)) readdressed () loaded
  writes : (Job.ofRoutine setting hR).Emits start (Emit.writePlace place) loaded () written
  leaves : shape = .nothing ∧ t.position = written.position ∨
    shape ≠ .nothing ∧ ∃ u, (Job.ofRoutine setting hR).Emits start
      (Emit.instr (.loadLocal (if op.yieldsOldValue then old else new))) written () u ∧
        t.position = u.position

namespace CompoundCode

variable {op : AssignOp} {value : Option Expr} {k : ExprKind Expr} {ty : Ty} {checked extend used : Bool}
  {shape : Shape} {e : Emitted}

/-- What an assignment leaves. -/
theorem leaves_of_assigned {slot : Nat} {v : Emission}
    (h : (Job.ofRoutine setting hR).Emits start (Emit.assigned ty slot (decide (shape ≠ .nothing)) used) s e v)
    (hend : t.position = v.position) :
    (e.form ≠ .address ∧ (shape = .nothing → e.form = .nothing)) ∧
      (shape = .nothing ∧ t.position = s.position ∨
        shape ≠ .nothing ∧ ∃ u, (Job.ofRoutine setting hR).Emits start (Emit.instr (.loadLocal slot)) s () u ∧
          t.position = u.position) := by
  unfold Emit.assigned at h
  split at h
  · next hkeep =>
    have hkeep : shape ≠ .nothing := by simpa using hkeep
    obtain ⟨u, hload, hdone⟩ := Job.Emits.seq_iff.mp h
    obtain ⟨rfl, rfl⟩ := hdone.pure
    refine ⟨⟨?_, fun hshape => absurd hshape hkeep⟩, .inr ⟨hkeep, _, hload, hend⟩⟩
    simp only [Emitted.ofTy]
    split <;> simp
  · next hkeep =>
    obtain ⟨rfl, rfl⟩ := h.pure
    exact ⟨⟨by simp [Emitted.nothing], fun _ => rfl⟩, .inl ⟨by simpa using hkeep, hend⟩⟩

/-- An assignment that applies an operator. -/
theorem of_update {b : BinaryOp} {v : Expr} (hop : op.binary? = some b) (hstep : op.isStep = false)
    (hgrows : k.grows extend = false)
    (h : (Job.ofRoutine setting hR).Emits start (Emit.update b (Expr.node k ty).toNode v.toNode checked extend exit
      (decide (shape ≠ .nothing))) s e t) :
    (e.form ≠ .address ∧ (shape = .nothing → e.form = .nothing)) ∧
      Nonempty (CompoundCode hR setting start exit op (.node k ty) (some v) checked extend shape s t) := by
  unfold Emit.update at h
  rw [Job.Emits.seq_iff] at h
  obtain ⟨u, hcheck, h⟩ := h
  obtain rfl := hcheck.checkBinary
  obtain ⟨w, h, hend⟩ := h.withTemps
  rw [Job.Emits.bind_iff] at h
  obtain ⟨⟨p, usedTarget⟩, prepared, hplace, h⟩ := h
  simp only [Emit.spillOperand, ↓Job.Emits.seq_iff, Job.Emits.bind_iff] at h
  obtain ⟨read, hload, x, held, ⟨old, _, hold, hx⟩, usedValue, u, hvalue, y, valued, ⟨slot, _, hspill, hy⟩,
    computed, hbinary, new, stored, hnew, written, hstore, hassigned⟩ := h
  obtain ⟨rfl, rfl⟩ := hx.pure
  obtain ⟨rfl, rfl⟩ := hy.pure
  rw [Expr.toNode_node] at hplace
  obtain ⟨code⟩ := TargetCode.of_emits hgrows hplace
  obtain ⟨addressed, haddress, hreads⟩ := Job.emits_loadPlace code.isBare hload
  obtain ⟨readdressed, loaded, hreaddress, hloads, hwrites⟩ := Job.emits_storePlace code.isBare hstore
  obtain ⟨stop, hargument⟩ := TargetOperand.Code.of_argument hvalue hspill
  have hyields : op.yieldsOldValue = false := by cases op <;> first | rfl | cases hstep
  obtain ⟨hform, hleaves⟩ := leaves_of_assigned hassigned hend
  rw [Expr.toNode_ty, Expr.ty] at hold hnew
  refine ⟨hform, ⟨p, prepared, addressed, read, held, valued, computed, stored, readdressed, loaded, written, old,
    new, [(held, stop)], [slot], code, haddress, hreads, hold, .cons hargument .nil, ?_, hbinary.retains,
    hbinary.position_le, hnew, hreaddress, hloads, hwrites, ?_⟩⟩
  · rintro span a m stack x ys z hx hys ⟨b', hb', y, rfl, hgives⟩
    obtain rfl : b = b' := by simpa [hop] using hb'
    cases hys with
    | cons hy _ =>
      simp only [Expr.toNode_ty] at hbinary
      exact .binarySlots hbinary hx hy hgives
  · rw [hyields]
    exact hleaves

/-- A step. -/
theorem of_step (hstep : op.isStep = true) (hgrows : k.grows extend = false)
    (h : (Job.ofRoutine setting hR).Emits start (Emit.step op (Expr.node k ty).toNode checked extend exit
      (decide (shape ≠ .nothing))) s e t) :
    (e.form ≠ .address ∧ (shape = .nothing → e.form = .nothing)) ∧
      Nonempty (CompoundCode hR setting start exit op (.node k ty) none checked extend shape s t) := by
  unfold Emit.step at h
  rw [Expr.toNode_ty, Expr.ty] at h
  split at h
  · exact h.mismatch.elim
  next kind hkind =>
  obtain ⟨w, h, hend⟩ := h.withTemps
  rw [Job.Emits.bind_iff] at h
  obtain ⟨⟨p, usedTarget⟩, prepared, hplace, h⟩ := h
  simp only [Emit.spillOperand, ↓Job.Emits.seq_iff, Job.Emits.bind_iff] at h
  obtain ⟨read, hload, x, held, ⟨old, _, hold, hx⟩, computed, hstepped, new, stored, hnew, written, hstore,
    hassigned⟩ := h
  obtain ⟨rfl, rfl⟩ := hx.pure
  rw [Expr.toNode_node] at hplace
  obtain ⟨code⟩ := TargetCode.of_emits hgrows hplace
  obtain ⟨addressed, haddress, hreads⟩ := Job.emits_loadPlace code.isBare hload
  obtain ⟨readdressed, loaded, hreaddress, hloads, hwrites⟩ := Job.emits_storePlace code.isBare hstore
  obtain ⟨hform, hleaves⟩ := leaves_of_assigned hassigned hend
  refine ⟨hform, ⟨p, prepared, addressed, read, held, held, computed, stored, readdressed, loaded, written, old,
    new, [], [], code, haddress, hreads, hold, .nil, ?_, hstepped.retains, hstepped.position_le, hnew, hreaddress,
    hloads, hwrites, hleaves⟩⟩
  rintro span a m stack x ys z hx - ⟨b, hb, k', hk', hgives⟩
  obtain rfl : kind = k' := by simpa [Expr.ty, hkind] using hk'
  exact .stepped hstep hb hkind hstepped hx hgives

/-- A compound assignment or a step of any kind. -/
theorem of_emits {target : Expr} {ty' : Ty} {autoExtend wanted : Bool} (hop : op ≠ .assign)
    (hgrows : target.kind.grows (autoExtend || setting.options.autoExtendAssign) = false)
    (h : (Job.ofRoutine setting hR).Emits start
      ((Expr.node (.assign op target value checked autoExtend) ty').toNode.emit exit shape wanted) s e t) :
    ∃ (u : Emission) (before : Emitted),
      (Job.ofRoutine setting hR).Emits start (Emit.adapt ty' before shape) u e t ∧
      (shape = .nothing ∨ shape = .value → t.position = u.position) ∧
      Nonempty (CompoundCode hR setting start exit op target value checked
        (autoExtend || setting.options.autoExtendAssign) shape s u) := by
  obtain ⟨k, ty⟩ := target
  have hnode : (Job.ofRoutine setting hR).Emits start (do
      let before ← Emit.assign op (Expr.node k ty).toNode (value.map Expr.toNode) checked autoExtend exit shape
      Emit.adapt ty' before shape) s e t := by
    rw [Expr.toNode_node] at h
    cases wanted <;> exact h
  obtain ⟨before, u, hassign, hadapt⟩ := hnode.bind
  obtain ⟨hform, hcode⟩ : (before.form ≠ .address ∧ (shape = .nothing → before.form = .nothing)) ∧
      Nonempty (CompoundCode hR setting start exit op (.node k ty) value checked
        (autoExtend || setting.options.autoExtendAssign) shape s u) := by
    obtain ⟨o, _, hoptions, hrest⟩ := hassign.bind
    obtain ⟨rfl, rfl⟩ := hoptions.options
    dsimp only at hrest
    split at hrest
    · next hstep hvalue =>
      obtain rfl : value = none := by simpa using hvalue
      exact of_step hstep hgrows hrest
    · next v hstep hvalue =>
      obtain ⟨v, rfl, rfl⟩ := Option.map_eq_some_iff.mp hvalue
      split at hrest
      · next hplain => exact absurd (by cases op <;> first | rfl | cases hplain) hop
      · next b hb => exact of_update hb hstep hgrows hrest
    · exact hrest.fail.elim
  refine ⟨u, before, hadapt, fun hshape => ?_, hcode⟩
  have hsame : ∀ {t : Emission} {x : Emitted}, (Job.ofRoutine setting hR).Emits start (pure before) u x t →
      t.position = u.position := fun hdone => by rw [hdone.pure.2]
  unfold Emit.adapt at hadapt
  split at hadapt
  · exact hsame hadapt
  · next hvalue =>
    split at hadapt
    · next hnothing =>
      have habsurd := hform.2 hnothing
      rw [hvalue] at habsurd
      cases habsurd
    · next hnothing =>
      obtain rfl : shape = .value := hshape.resolve_left hnothing
      exact hsame hadapt
  · next haddress => exact absurd haddress hform.1

/-! ## Runs -/

variable {target : Expr}

/-- Positions outside of the operands and of the accesses. -/
def Own (c : CompoundCode hR setting start exit op target value checked extend shape s t) (q : Nat) : Prop :=
  s.Own t (c.code.stretches ++ (c.addressed, c.read) :: (c.stretches ++ [(c.loaded, c.written)])) q

/-- What the node leaves of the value that was read and the one that was written. -/
def left (op : AssignOp) (shape : Shape) (x z : Value) : List Value :=
  if shape = .nothing then [] else [if op.yieldsOldValue then x else z]

/-- A course from one scene to another that takes no exit and ends in no exception.  The operands of the
target come to values, indices that are checked are within their dimensions, the read yields a value, the
operand comes to a value, and the write goes by what the read went by. -/
structure Course (c : CompoundCode hR setting start exit op target value checked extend shape s t)
    (span : Span) (stack : List Value) (first last : Scene) (x z : Value) where
  operands : List (List Moment)
  readMoments : List Moment
  valueMoments : List (List Moment)
  writeMoments : List Moment
  prepared : Scene
  read : Scene
  computed : Scene
  ws : List Value
  vs : List Value
  ys : List Value
  evaluates : TargetOperand.Evaluates setting.registry R span stack c.code.operands c.code.stretches
    c.place.slots first ws operands prepared
  inside : c.prepared = c.code.stop ∨ ∃ v dims items is, c.place.Held prepared.memory v dims items is ∧
    InBounds dims (is.map Word.val)
  addressed : c.place.Pushes c.prepared.hidden.closureArg? prepared.memory ws vs
  reads : Run.Passes setting.registry R span c.addressed.position (prepared.state (vs.reverse ++ stack))
    readMoments c.read.position (read.state (x :: stack))
  readLeaves : prepared.memory.Leaves c.addressed read.memory
  values : TargetOperand.Evaluates setting.registry R span stack (value.toList.map .argument) c.stretches
    c.slots ⟨read.memory.setLocal c.old x, read.around⟩ ys valueMoments computed
  gives : op.Gives setting checked target.ty value computed.memory x ys z
  readdressed : c.place.Pushes c.stored.hidden.closureArg? (computed.memory.setLocal c.new z) ws vs
  writes : Run.Passes setting.registry R span c.loaded.position
    ((computed.memory.setLocal c.new z).state computed.around (z :: (vs.reverse ++ stack))) writeMoments
    c.written.position (last.state stack)
  writeLeaves : (computed.memory.setLocal c.new z).Leaves c.loaded last.memory

/-- The points of the code are in order. -/
theorem ordered (c : CompoundCode hR setting start exit op target value checked extend shape s t) :
    s.position ≤ c.code.stop.position ∧ c.code.stop.position ≤ c.prepared.position ∧
      c.prepared.position ≤ c.addressed.position ∧ c.addressed.position ≤ c.read.position ∧
      c.read.position < c.held.position ∧ c.held.position ≤ c.valued.position ∧
      c.valued.position ≤ c.computed.position ∧ c.computed.position < c.stored.position ∧
      c.stored.position ≤ c.readdressed.position ∧ c.readdressed.position < c.loaded.position ∧
      c.loaded.position ≤ c.written.position ∧ c.written.position ≤ t.position := by
  have hleft : c.written.position ≤ t.position := by
    rcases c.leaves with ⟨-, h⟩ | ⟨-, u, h, hend⟩
    · omega
    · have := h.position_le
      omega
  have hheld := c.holds.spill.1
  have hstored := c.keeps.spill.1
  have hloaded := c.loads.instr_position
  exact ⟨c.code.code.bounds.2.1, c.code.stop_le.2, c.address.position_le, c.reads.position_le, by omega,
    c.operand.bounds.2.1, c.before, by omega, c.readdress.position_le, by omega, c.writes.position_le, hleft⟩

/-- Positions between the operands and the accesses are own ones. -/
theorem own (c : CompoundCode hR setting start exit op target value checked extend shape s t) {q : Nat}
    (hlow : s.position ≤ q) (hhigh : q < t.position)
    (htarget : q < c.code.stop.position → ∀ x ∈ c.code.stretches, ¬ (x.1.position ≤ q ∧ q < x.2.position))
    (hread : c.addressed.position ≤ q → c.read.position ≤ q)
    (hvalue : c.held.position ≤ q → q < c.valued.position →
      ∀ x ∈ c.stretches, ¬ (x.1.position ≤ q ∧ q < x.2.position))
    (hwrite : c.loaded.position ≤ q → c.written.position ≤ q) : c.Own q := by
  refine ⟨⟨hlow, hhigh⟩, fun x hx hin => ?_⟩
  rcases List.mem_append.mp hx with hx | hx
  · have hbound := (c.code.code.bounds.2.2 x hx).2
    exact htarget (by omega) x hx hin
  · rcases List.mem_cons.mp hx with rfl | hx
    · have hread := hread hin.1
      simp only at hin
      omega
    · rcases List.mem_append.mp hx with hx | hx
      · obtain ⟨hfirst, hlast⟩ := c.operand.bounds.2.2 x hx
        exact hvalue (by omega) (by omega) x hx hin
      · obtain rfl := List.mem_singleton.mp hx
        have hwrite := hwrite hin.1
        simp only at hin
        omega

/-- Behind its preparation the target is read, and what was read waits beside the operands of the target. -/
theorem visits_read (c : CompoundCode hR setting start exit op target value checked extend shape s t)
    (hexit : ∀ pad, exit = some pad → ∃ land : Emission, R.target? pad = some land.position)
    {span : Span} {stack : List Value} {first last : Scene} {x z : Value}
    (hsize : first.memory.locals.size = R.locals.size) (r : c.Course span stack first last x z) :
    Run.Visits setting.registry R span c.Own (r.operands ++ [r.readMoments])
        s.position (first.state stack) c.held.position
        ((r.read.memory.setLocal c.old x).state r.read.around stack) ∧
      (r.read.memory.setLocal c.old x).locals.size = R.locals.size ∧
      (r.read.memory.setLocal c.old x).Temp c.held c.old x ∧
      List.Forall₂ (fun (slot : Nat) (w : Value) => (r.read.memory.setLocal c.old x).Temp c.held slot w)
        c.place.slots r.ws := by
  obtain ⟨hoperands, hleaves, htemps⟩ := c.code.code.visits r.evaluates hsize
  obtain ⟨hstop, hprepared, haddressed, hread, hheld, hvalued, hcomputed, hstored, hreaddressed, hloaded, hwritten,
    hend⟩ := c.ordered
  have hsize' : r.read.memory.locals.size = R.locals.size :=
    r.readLeaves.size.trans (hleaves.size.trans hsize)
  have hread' : ∀ {slot : Nat} {w : Value}, r.prepared.memory.Temp c.code.stop slot w →
      r.read.memory.Temp c.read slot w := fun h =>
    (h.later (c.code.stop_le.1.trans c.address.retains)).kept r.readLeaves.keeps c.reads.retains
  have hsets : r.read.memory.Leaves c.read (r.read.memory.setLocal c.old x) :=
    .setLocal c.holds.spill.2 x
  refine ⟨?_, hsets.size.trans hsize', c.holds.spilled hsize' x, htemps.imp fun slot w h =>
    (hread' h).kept hsets.keeps c.holds.retains⟩
  have hown : ∀ {q : Nat}, c.code.stop.position ≤ q → q < c.addressed.position → c.Own q := fun h h' =>
    c.own (by omega) (by omega) (by omega) (by omega) (by omega) (by omega)
  -- The checks lead through, as the indices lie within their dimensions.
  have hchecks : Run.Via setting.registry R span c.Own c.code.stop.position (r.prepared.state stack)
      c.prepared.position (r.prepared.state stack) := by
    rcases c.code.checks with hnone | ⟨pad, container, hpad, hcontainer, hchecks⟩
    · exact .move (congrArg Emission.position hnone) (.refl _ _)
    · rcases r.inside with hnone | ⟨v, dims, items, is, hfound, hin⟩
      · exact .move (congrArg Emission.position hnone) (.refl _ _)
      · obtain ⟨land, hland⟩ := hexit pad hpad
        obtain ⟨slot, hslot, hvalue⟩ := hfound.container
        obtain rfl : container = slot := by simpa [hcontainer] using hslot
        refine .checkIndices hchecks hfound.holds hfound.small.short hvalue hfound.indices
          (by simpa using hfound.rank) (Nat.zero_le _) hland (fun q hq hq' => hown hq (by omega))
          (fun _ => .refl _ _) fun hout => absurd hin hout
  have haddress : Run.Via setting.registry R span c.Own c.prepared.position (r.prepared.state stack)
      c.addressed.position (r.prepared.state (r.vs.reverse ++ stack)) :=
    .addressPlace c.address (htemps.imp fun _ _ h => h.value) r.addressed
      (fun q hq hq' => hown (by omega) (by omega)) (.refl _ _)
  have hholds : Run.Via setting.registry R span c.Own c.read.position (r.read.state (x :: stack))
      c.held.position ((r.read.memory.setLocal c.old x).state r.read.around stack) :=
    .spill c.holds hsize' (c.own (by omega) (by omega) (by omega) (by omega) (by omega) (by omega)) (.refl _ _)
  refine (hoperands.imp fun q hq => ?_).trans (.after (hchecks.trans haddress) (.passing r.reads
    (.straight hholds)))
  obtain ⟨⟨hlow, hhigh⟩, hout⟩ := hq
  exact c.own hlow (by omega) (fun _ => hout) (by omega) (by omega) (by omega)

/-- The course visits the operands, the read, the value and the write one after the other, and nothing else,
and leaves the old value or the new one. -/
theorem visits (c : CompoundCode hR setting start exit op target value checked extend shape s t)
    (hexit : ∀ pad, exit = some pad → ∃ land : Emission, R.target? pad = some land.position)
    {span : Span} {stack : List Value} {first last : Scene} {x z : Value}
    (hsize : first.memory.locals.size = R.locals.size) (r : c.Course span stack first last x z) :
    Run.Visits setting.registry R span c.Own
      (r.operands ++ r.readMoments :: (r.valueMoments ++ [r.writeMoments]))
      s.position (first.state stack) t.position (last.state (left op shape x z ++ stack)) := by
  obtain ⟨hread, hsizeRead, hold, htemps⟩ := c.visits_read hexit hsize r
  obtain ⟨hvalue, hleaves, hys⟩ := c.operand.visits r.values hsizeRead
  obtain ⟨hstop, hprepared, haddressed, hreadLe, hheld, hvalued, hcomputed, hstored, hreaddressed, hloaded, hwritten,
    hend⟩ := c.ordered
  have hsizeComputed : r.computed.memory.locals.size = R.locals.size := hleaves.size.trans hsizeRead
  have hsets : r.computed.memory.Leaves c.computed (r.computed.memory.setLocal c.new z) :=
    .setLocal c.keeps.spill.2 z
  have hkept : ∀ {slot : Nat} {w : Value}, (r.read.memory.setLocal c.old x).Temp c.held slot w →
      (r.computed.memory.setLocal c.new z).Temp c.stored slot w := fun h =>
    ((h.kept hleaves.keeps c.operand.bounds.1).later c.retains).kept hsets.keeps c.keeps.retains
  have hnew := c.keeps.spilled hsizeComputed z
  have hlast : ∀ {slot : Nat} {w : Value}, (r.computed.memory.setLocal c.new z).Temp c.stored slot w →
      last.memory.Temp c.written slot w := fun h =>
    (h.later (c.readdress.retains.trans c.loads.retains)).kept r.writeLeaves.keeps c.writes.retains
  have hmiddle : ∀ {q : Nat}, c.valued.position ≤ q → q < c.loaded.position → c.Own q := fun h h' =>
    c.own (by omega) (by omega) (by omega) (by omega) (by omega) (by omega)
  have hoperator : Run.Via setting.registry R span c.Own c.valued.position (r.computed.state stack)
      c.computed.position (r.computed.state (z :: stack)) :=
    (c.operator span r.computed.around r.computed.memory stack x r.ys z
      (hold.kept hleaves.keeps c.operand.bounds.1) hys r.gives).imp fun q hq => hmiddle hq.1 (by omega)
  have hkeeps : Run.Via setting.registry R span c.Own c.computed.position (r.computed.state (z :: stack))
      c.stored.position ((r.computed.memory.setLocal c.new z).state r.computed.around stack) :=
    .spill c.keeps hsizeComputed (hmiddle (by omega) (by omega)) (.refl _ _)
  have haddress : Run.Via setting.registry R span c.Own c.stored.position
      ((r.computed.memory.setLocal c.new z).state r.computed.around stack) c.loaded.position
      ((r.computed.memory.setLocal c.new z).state r.computed.around (z :: (r.vs.reverse ++ stack))) := by
    refine .addressPlace c.readdress (htemps.imp fun _ _ h => (hkept h).value) r.readdressed
      (fun q hq hq' => hmiddle (by omega) (by omega)) ?_
    exact .loadTemp c.loads (hnew.later c.readdress.retains) (hmiddle (by omega) (by omega)) (.refl _ _)
  have hends : Run.Via setting.registry R span c.Own c.written.position (last.state stack) t.position
      (last.state (left op shape x z ++ stack)) := by
    unfold left
    rcases c.leaves with ⟨hnothing, hposition⟩ | ⟨hsome, u, hload, hposition⟩
    · rw [if_pos hnothing, hposition]
      exact .refl _ _
    · rw [if_neg hsome]
      have hafter := hload.instr_position
      have hown : c.Own c.written.position :=
        c.own (by omega) (by omega) (by omega) (by omega) (by omega) (by omega)
      refine .loadTemp hload ?_ hown (.move hposition (.refl _ _))
      cases op.yieldsOldValue with
      | true => exact hlast (hkept hold)
      | false => exact hlast hnew
  rw [List.append_cons]
  refine hread.trans ((hvalue.imp fun q hq => ?_).trans (.after (hoperator.trans (hkeeps.trans haddress))
    (.passing r.writes (.straight hends))))
  obtain ⟨⟨hlow, hhigh⟩, hout⟩ := hq
  exact c.own (by omega) (by omega) (by omega) (by omega) (fun _ _ => hout) (by omega)

end CompoundCode

/-! ## Assignments -/

/-- **Compound assignments evaluate their operands once.**  Every compound assignment or step, on a target of
any kind but an element whose container is to grow, has the operands of its target in stretches of code that
come in their order, each with its own temporary, which no later stretch names.  A course that takes no exit
and ends in no exception goes through each of these stretches once, in this order; then it reads the target
once, with the values of the operands on the stack; then it goes once through the stretch of the value; then
it writes once, with the same values under the new one.  It leaves the old value for a postfix step, and else
the one that was written. -/
theorem compound_assignment_visits_once {setting : Setting} {R : Routine} (hR : R.WithinLimits) {op : AssignOp}
    (hop : op ≠ .assign) {target : Expr} {value : Option Expr} {checked autoExtend wanted : Bool} {ty : Ty}
    {exit : Option Label} {shape : Shape}
    (hgrows : target.kind.grows (autoExtend || setting.options.autoExtendAssign) = false)
    (hexit : ∀ pad, exit = some pad → ∃ land : Emission, R.target? pad = some land.position)
    {start : Nat} {s t : Emission} {e : Emitted}
    (h : (Job.ofRoutine setting hR).Emits start
      ((Expr.node (.assign op target value checked autoExtend) ty).toNode.emit exit shape wanted) s e t) :
    ∃ (u : Emission) (before : Emitted)
      (c : CompoundCode hR setting start exit op target value checked
        (autoExtend || setting.options.autoExtendAssign) shape s u),
      (Job.ofRoutine setting hR).Emits start (Emit.adapt ty before shape) u e t ∧
      (shape = .nothing ∨ shape = .value → t.position = u.position) ∧
      (∀ x ∈ c.code.stretches ++ c.stretches, Emission.Unnamed (Job.ofRoutine setting hR) x.1 x.2) ∧
      ∀ (span : Span) (stack : List Value) (first last : Scene) (x z : Value),
        first.memory.locals.size = R.locals.size → ∀ r : c.Course span stack first last x z,
          Run.Visits setting.registry R span c.Own
            (r.operands ++ r.readMoments :: (r.valueMoments ++ [r.writeMoments]))
            s.position (first.state stack) u.position
            (last.state (CompoundCode.left op shape x z ++ stack)) := by
  obtain ⟨u, before, hadapt, hend, ⟨c⟩⟩ := CompoundCode.of_emits hop hgrows h
  refine ⟨u, before, c, hadapt, hend, fun x hx => ?_, fun span stack first last x z hsize r =>
    c.visits hexit hsize r⟩
  rcases List.mem_append.mp hx with hx | hx
  · exact c.code.code.unnamed x hx
  · exact c.operand.unnamed x hx

/-- An operand that is an argument is loaded. -/
theorem TargetOperand.Code.loadsArgument {o : TargetOperand} {id : VarId} {ty : Ty} {index slot : Nat}
    {stop : Emission} {v : Value} {m : Memory} {a : Around} {span : Span} {stack : List Value}
    (h : o.Code (Job.ofRoutine setting hR) start exit slot s stop t)
    (ho : o = .container (.node (.parameter id) ty) ∨ o = .index (.node (.parameter id) ty) ∨
      o = .argument (.node (.parameter id) ty))
    (hnull : setting.options.nullChecks = false) (hextend : setting.options.autoExtendRead = false)
    (hscope : s.scope.lookup id = some (.arg index, ty)) (hvoid : ty.isVoid = false)
    (hvalue : m.args[index]? = some v) :
    ∃ ms, Run.Passes setting.registry R span s.position (m.state a stack) ms stop.position
      (m.state a (v :: stack)) := by
  obtain ⟨⟨e, hcode⟩, -⟩ := h
  obtain ⟨used, hemits⟩ : ∃ used, (Job.ofRoutine setting hR).Emits start
      ((Expr.node (.parameter id) ty).toNode.value exit) s used stop := by
    rcases ho with rfl | rfl | rfl
    · exact Job.Emits.receiverValue hnull hextend hcode
    · exact ⟨_, hcode.toValue⟩
    · exact ⟨_, hcode.toValue⟩
  have hvia : Run.Via setting.registry R span (fun _ => True) s.position (m.state a stack) stop.position
      (m.state a (v :: stack)) := .argument index hemits hscope hvoid hvalue fun _ _ _ => trivial
  obtain ⟨ms, hpass, -⟩ := hvia
  exact ⟨ms, hpass⟩

/-- An element of an array that is there is read, and it is written. -/
theorem CompoundCode.accessesElement {op : AssignOp} {value : Option Expr} {target : Expr}
    {checked extend : Bool} {shape : Shape}
    (c : CompoundCode hR setting start exit op target value checked extend shape s t)
    (hkind : c.place.kind = .arrayElem) {span : Span} {a : Around} {m : Memory} {stack : List Value} {ref : Ref}
    {cell : ArrayCell} {w : IndexWord} {x : Value} (hcell : m.heap.arrays[ref]? = some cell)
    (hbounds : 0 ≤ w.val ∧ w.val < cell.size) (hx : cell.data[w.val.toNat]? = some x) :
    (∃ ms, Run.Passes setting.registry R span c.addressed.position
      (m.state a (w.value :: .array ref :: stack)) ms c.read.position (m.state a (x :: stack))) ∧
    ∀ z, ∃ ms, Run.Passes setting.registry R span c.loaded.position
      (m.state a (z :: w.value :: .array ref :: stack)) ms c.written.position
      ((m.shared (m.heap.setElem ref w.val.toNat z) m.statics).state a stack) := by
  have hreads := c.reads
  have hwrites := c.writes
  simp only [Emit.readPlace, hkind] at hreads
  simp only [Emit.writePlace, hkind] at hwrites
  refine ⟨?_, fun z => ?_⟩
  · have hvia : Run.Via setting.registry R span (fun _ => True) c.addressed.position
        (m.state a (w.value :: .array ref :: stack)) c.read.position (m.state a (x :: stack)) :=
      .instr hreads (fun _ => rfl) trivial (.loadElem hcell hbounds hx) (.refl _ _)
    obtain ⟨ms, hms, -⟩ := hvia
    exact ⟨ms, hms⟩
  · have hvia : Run.Via setting.registry R span (fun _ => True) c.loaded.position
        (m.state a (z :: w.value :: .array ref :: stack)) c.written.position
        ((m.shared (m.heap.setElem ref w.val.toNat z) m.statics).state a stack) :=
      .instr hwrites (fun _ => rfl) trivial (.storeElem hcell hbounds hx) (.refl _ _)
    obtain ⟨ms, hms, -⟩ := hvia
    exact ⟨ms, hms⟩

/-- A number is added to another one, and the sum wraps around. -/
theorem AssignOp.gives_add {e : Expr} (he : e.ty = .int) (m : Memory) (x w : IndexWord) :
    AssignOp.add.Gives setting false .int (some e) m x.value [w.value]
      (IndexWord.value (.wrap .i32 (x.val + w.val))) := by
  have hsum : Run.binaryValue setting.registry .add false (.int : Ty).underlying x.value w.value
      (Run.bare m.heap m.statics) = .ok (IndexWord.value (.wrap .i32 (x.val + w.val)))
        (Run.bare m.heap m.statics) := rfl
  refine ⟨.add, rfl, w.value, rfl, ?_⟩
  rw [he]
  exact ⟨_, _, hsum, rfl⟩

/-- An array and an index. -/
def arrayAndInt : List Variable := [⟨0, "a", .array .int⟩, ⟨1, "i", .int⟩]

/-- The index is added to the element there. -/
def addsIndex : Expr :=
  .node (.assign .add
    (.node (.index (.node (.parameter 0) (.array .int)) [.node (.parameter 1) .int] none) .int)
    (some (.node (.parameter 1) .int)) false false) .int

/-- An element is read once and written once. -/
theorem compound_assignment_visits_once_element :
    ∃ (R : Routine) (hR : R.WithinLimits) (t : Emission) (e : Emitted),
      (Job.ofRoutine ⟨.builtin, .strict⟩ hR).Emits 0 (addsIndex.toNode.emit none .value false)
        (beforeCode "add" arrayAndInt .int) e t ∧
      ∀ (span : Span) (a : Around) (m : Memory) (c : ArrayCell) (w x : IndexWord),
        m.locals.size = R.locals.size → m.heap.arrays[0]? = some c → m.args = #[.array 0, w.value] →
        0 ≤ w.val → c.data[w.val.toNat]? = some x.value →
        ∃ (mss : List (List Moment)) (n : Memory), mss.length = 5 ∧
          n.heap = m.heap.setElem 0 w.val.toNat (IndexWord.value (.wrap .i32 (x.val + w.val))) ∧
          Run.Visits .builtin R span (fun _ => True) mss 0 (m.state a []) t.position
            (n.state a [IndexWord.value (.wrap .i32 (x.val + w.val))]) := by
  have hcompiles : (addsIndex.toNode.emit none .value false).compiles ⟨.builtin, .strict⟩
      (beforeCode "add" arrayAndInt .int) = true := by decide +kernel
  obtain ⟨e, t, R, hrun, hfinish, hR⟩ := Emit.exists_of_compiles hcompiles
  have h : (Job.ofRoutine ⟨.builtin, .strict⟩ hR).Emits 0 (addsIndex.toNode.emit none .value false)
      (beforeCode "add" arrayAndInt .int) e t :=
    .ofFinish hrun (sound_beforeCode _ _ _) hfinish
  obtain ⟨u, before, c, -, hend, -, hvisits⟩ := compound_assignment_visits_once hR (by decide) (by decide)
    (fun pad hpad => by cases hpad) h
  -- The element is that of an array, with the array and the index in temporaries.
  obtain ⟨hkind, hoperands⟩ : c.place.kind = .arrayElem ∧ c.code.operands =
      [.container (.node (.parameter 0) (.array .int)), .index (.node (.parameter 1) .int)] := by
    have hdesignates := c.code.designates
    generalize c.code.operands = os at hdesignates
    generalize c.place.kind = kind at hdesignates
    cases hdesignates with
    | element hfound =>
      cases hfound
      exact ⟨rfl, rfl⟩
  have hcodes := c.code.code
  rw [hoperands] at hcodes
  generalize hstretches : c.code.stretches = stretches at hcodes
  generalize hslots : c.place.receiver.toList ++ c.place.indices = slots at hcodes
  cases hcodes with
  | @cons _ _ slot _ _ _ stop v _ hcontainer hrest =>
  cases hrest with
  | @cons _ _ slot' _ _ _ stop' v' _ hindex hrest =>
  have hvalue := c.operand
  generalize hvalueStretches : c.stretches = valueStretches at hvalue
  generalize hvalueSlots : c.slots = valueSlots at hvalue
  cases hvalue with
  | @cons _ _ slot'' _ _ _ stop'' v'' _ hargument hnone =>
  obtain ⟨rfl, rfl, hv'⟩ := hrest.of_nil
  obtain ⟨rfl, rfl, hv''⟩ := hnone.of_nil
  have hscope : ∀ {v : Emission}, beforeCode "add" arrayAndInt .int ≤ v →
      v.scope = (beforeCode "add" arrayAndInt .int).scope := fun h => h.scope
  have hheld : beforeCode "add" arrayAndInt .int ≤ c.held :=
    c.code.code.bounds.1.trans (c.code.stop_le.1.trans
      (c.address.retains.trans (c.reads.retains.trans c.holds.retains)))
  refine ⟨R, hR, t, e, h, fun span a m cell w x hsize hcell hargs hpositive hx => ?_⟩
  obtain ⟨hlt, -⟩ := Array.getElem?_eq_some_iff.mp hx
  have hbounds : 0 ≤ w.val ∧ w.val < cell.size := ⟨hpositive, by
    simp only [ArrayCell.size]
    omega⟩
  have hfirst : m.args[0]? = some (.array 0) := by rw [hargs]; rfl
  have hsecond : m.args[1]? = some w.value := by rw [hargs]; rfl
  -- The memories in which the container, the index, the old value and the operand wait.
  obtain ⟨z, hz, hgives⟩ : ∃ z, z = IndexWord.value (.wrap .i32 (x.val + w.val)) ∧ ∀ n : Memory,
      AssignOp.add.Gives ⟨.builtin, .strict⟩ false .int (some (.node (.parameter 1) .int)) n x.value [w.value] z :=
    ⟨_, rfl, fun n => AssignOp.gives_add rfl n x w⟩
  rw [← hz]
  let m₁ : Memory := (m.setLocal slot (.array 0)).setLocal slot' w.value
  let m₂ : Memory := (m₁.setLocal c.old x.value).setLocal slot'' w.value
  let m₃ : Memory := m₂.setLocal c.new z
  let last : Memory := m₃.shared (m₃.heap.setElem 0 w.val.toNat z) m₃.statics
  obtain ⟨ms₁, hms₁⟩ : ∃ ms, Run.Passes .builtin R span 0 (Scene.state ⟨m, a⟩ []) ms stop.position
      (Scene.state ⟨m, a⟩ [.array 0]) := hcontainer.loadsArgument (.inl rfl) rfl rfl rfl rfl hfirst
  obtain ⟨ms₂, hms₂⟩ : ∃ ms, Run.Passes .builtin R span v.position
      (Scene.state ⟨m.setLocal slot (.array 0), a⟩ []) ms stop'.position
      (Scene.state ⟨m.setLocal slot (.array 0), a⟩ [w.value]) :=
    hindex.loadsArgument (.inr (.inl rfl)) rfl rfl (by rw [hscope hcontainer.retains]; rfl) rfl hsecond
  obtain ⟨ms₃, hms₃⟩ : ∃ ms, Run.Passes .builtin R span c.held.position
      (Scene.state ⟨m₁.setLocal c.old x.value, a⟩ []) ms stop''.position
      (Scene.state ⟨m₁.setLocal c.old x.value, a⟩ [w.value]) :=
    hargument.loadsArgument (.inr (.inr rfl)) rfl rfl (by rw [hscope hheld]; rfl) rfl hsecond
  obtain ⟨ms₄, hms₄⟩ : ∃ ms, Run.Passes .builtin R span c.addressed.position (m₁.state a [w.value, .array 0]) ms
      c.read.position (m₁.state a [x.value]) :=
    (c.accessesElement (m := m₁) hkind hcell hbounds hx).1
  obtain ⟨ms₅, hms₅⟩ : ∃ ms, Run.Passes .builtin R span c.loaded.position (m₃.state a [z, w.value, .array 0]) ms
      c.written.position (last.state a []) :=
    (c.accessesElement (m := m₃) hkind hcell hbounds hx).2 z
  let course : c.Course span [] ⟨m, a⟩ ⟨last, a⟩ x.value z := {
    operands := [ms₁, ms₂]
    readMoments := ms₄
    valueMoments := [ms₃]
    writeMoments := ms₅
    prepared := ⟨m₁, a⟩
    read := ⟨m₁, a⟩
    computed := ⟨m₂, a⟩
    ws := [.array 0, w.value]
    vs := [.array 0, w.value]
    ys := [w.value]
    evaluates := by
      rw [hoperands, hstretches, Place.slots, hslots]
      exact .cons hms₁ (.refl _ _) rfl (.cons hms₂ (.refl _ _) rfl .nil)
    inside := .inl (c.code.checks.resolve_right fun ⟨pad, _, hpad, _⟩ => by cases hpad)
    addressed := by
      simp only [Place.Pushes, hkind]
    reads := hms₄
    readLeaves := .refl _ _
    values := by
      rw [hvalueStretches, hvalueSlots]
      exact .cons hms₃ (.refl _ _) rfl .nil
    gives := hgives m₂
    readdressed := by
      simp only [Place.Pushes, hkind]
    writes := hms₅
    writeLeaves := .shared c.loaded m₃ _ _ }
  have hrun : Run.Visits .builtin R span c.Own [ms₁, ms₂, ms₄, ms₃, ms₅] 0 (m.state a []) u.position
      (last.state a [z]) := hvisits span [] ⟨m, a⟩ ⟨last, a⟩ x.value z hsize course
  refine ⟨[ms₁, ms₂, ms₄, ms₃, ms₅], last, rfl, rfl, ?_⟩
  rw [hend (.inr rfl)]
  exact hrun.imp fun _ _ => trivial

end Arbor
