/-
  What the emission of a tree declares.

  The code of a tree without structs, calls and protected blocks needs no
  protected regions, and its locals are of types whose zero value is known
  without looking at declarations.  A call of the routine can therefore set up
  its locals, and no trap is caught in it.
-/
import Arbor.Emit.Unit
import Arbor.Proofs.Semantics.Induction
import Arbor.Registry.Lookup

set_option autoImplicit false

namespace Arbor

/-- Whether a type is a struct. -/
def Ty.isStruct : Ty → Bool
  | structTy _ => true
  | _ => false

theorem Registry.zero_of_not_struct (r : Registry) {ty : Ty} (h : ty.isStruct = false) :
    ∃ v, r.zero ty = .ok v := by
  cases ty <;> first | exact ⟨_, rfl⟩ | cases h

/-- Locals of types other than structs can be set up. -/
theorem Registry.zeros_of_not_struct (r : Registry) {locals : Array Ty}
    (h : ∀ ty ∈ locals, ty.isStruct = false) : ∃ zeros, locals.mapM r.zero = .ok zeros := by
  have hlist : ∀ tys : List Ty, (∀ ty ∈ tys, ty.isStruct = false) →
      ∃ values, tys.mapM r.zero = .ok values := by
    intro tys
    induction tys with
    | nil => exact fun _ => ⟨[], rfl⟩
    | cons ty tys ih =>
        intro htys
        obtain ⟨v, hv⟩ := r.zero_of_not_struct (htys ty List.mem_cons_self)
        obtain ⟨values, hvalues⟩ := ih fun ty hty => htys ty (List.mem_cons_of_mem _ hty)
        exact ⟨v :: values, by rw [List.mapM_cons, hv, hvalues]; rfl⟩
  obtain ⟨values, hvalues⟩ := hlist locals.toList fun ty hty => h ty (Array.mem_toList_iff.mp hty)
  exact ⟨values.toArray, by rw [Array.mapM_eq_mapM_toList, hvalues]; rfl⟩

/-- No region and no local of a struct type was added. -/
structure Emission.Spared (s t : Emission) : Prop where
  regions : t.builder.regions = s.builder.regions
  locals : ∀ ty ∈ t.builder.locals, ty ∈ s.builder.locals ∨ ty.isStruct = false

theorem Emission.Spared.trans {s t u : Emission} (h : s.Spared t) (k : t.Spared u) :
    s.Spared u where
  regions := k.regions.trans h.regions
  locals ty hty := (k.locals ty hty).elim (h.locals ty) .inr

theorem Emission.Spared.of_eq {s t : Emission} (hregions : t.builder.regions = s.builder.regions)
    (hlocals : t.builder.locals = s.builder.locals) : s.Spared t :=
  ⟨hregions, fun _ hty => .inl (by rw [← hlocals]; exact hty)⟩

namespace Emit

/-- An emitter that adds neither regions nor locals of struct types. -/
def Frugal {α : Type} (x : Emit α) : Prop :=
  ∀ (setting : Setting) (s t : Emission) (a : α), x.run setting s = .ok a t → s.Spared t

namespace Frugal

variable {α β : Type}

/-! ## Combinators -/

theorem pure (a : α) : Frugal (pure a : Emit α) := by
  intro setting s t b h
  cases h
  exact .of_eq rfl rfl

theorem bind {x : Emit α} {f : α → Emit β} (hx : x.Frugal) (hf : ∀ a, (f a).Frugal) :
    (x >>= f).Frugal := by
  intro setting s t b h
  change (Emit.andThen x f).run setting s = .ok b t at h
  simp only [Emit.andThen] at h
  split at h
  · next hrun => exact (hx _ _ _ _ hrun).trans (hf _ _ _ _ _ h)
  · cases h

theorem pure_bind {a : α} {f : α → Emit β} (h : (f a).Frugal) : (Pure.pure a >>= f).Frugal :=
  fun setting s t b hrun => h setting s t b hrun

theorem fail (e : CompileError) : Frugal (fail e : Emit α) := by
  intro setting s t a h
  cases h

theorem read (f : Setting → Emission → Except CompileError α) : Frugal (read f) := by
  intro setting s t a h
  simp only [Emit.read] at h
  split at h
  · cases h
    exact .of_eq rfl rfl
  · cases h

theorem mismatch (context expected : String) (found : Ty) :
    Frugal (mismatch context expected found : Emit α) :=
  bind (bind (read _) fun _ => pure _) fun _ => fail _

theorem forM {items : List α} {f : α → Emit PUnit} (hf : ∀ a ∈ items, (f a).Frugal) :
    Frugal (items.forM f) := by
  induction items with
  | nil => exact pure _
  | cons a items ih =>
      exact bind (hf a List.mem_cons_self) fun _ => ih fun b hb => hf b (List.mem_cons_of_mem _ hb)

/-- A section with temporaries of its own. -/
theorem withTemps {x : Emit α} (hx : x.Frugal) : (withTemps x).Frugal := by
  intro setting s t a h
  simp only [Emit.withTemps] at h
  split at h
  · next hrun =>
      cases h
      have hspared := hx _ _ _ _ hrun
      exact ⟨hspared.regions, hspared.locals⟩
  · cases h

/-- A section with further variables. -/
theorem inScope {x : Emit α} (vars : Scope) (hx : x.Frugal) : (inScope vars x).Frugal := by
  intro setting s t a h
  simp only [Emit.inScope] at h
  split at h
  · next hrun =>
      cases h
      have hspared := hx _ _ _ _ hrun
      exact ⟨hspared.regions, hspared.locals⟩
  · cases h

theorem reserved {x : Emit α} {fill : α → Option Instr} (hx : x.Frugal) :
    (reserved x fill).Frugal := by
  intro setting s t a h
  simp only [Emit.reserved] at h
  split at h
  · next hrun =>
      have hspared := hx _ _ _ _ hrun
      split at h <;> cases h <;> exact ⟨hspared.regions, hspared.locals⟩
  · cases h

/-! ## Code and temporaries -/

theorem instr (i : Instr) : Frugal (instr i) := by
  intro setting s t a h
  cases h
  exact .of_eq rfl rfl

theorem instrs (is : List Instr) : Frugal (instrs is) := forM fun i _ => instr i

theorem newLabel : Frugal newLabel := by
  intro setting s t a h
  cases h
  exact .of_eq rfl rfl

/-- A marked label. -/
theorem mark (l : Label) : Frugal (mark l) := by
  intro setting s t a h
  simp only [Emit.mark] at h
  split at h
  · next hmark =>
      cases h
      unfold Builder.markLabel at hmark
      split at hmark <;> cases hmark
      exact .of_eq rfl rfl
  · cases h

/-- A temporary. -/
theorem temp {ty : Ty} (hty : ty.isStruct = false) : Frugal (temp ty) := by
  intro setting s t a h
  simp only [Emit.temp] at h
  cases h
  rcases SlotPool.acquire_builder s.pool s.builder ty with hb | hb
  · exact .of_eq (by simp [hb]) (by simp [hb])
  · refine ⟨by simp [hb], fun other hother => ?_⟩
    simp only [hb, Array.mem_push] at hother
    rcases hother with hother | rfl
    · exact .inl hother
    · exact .inr hty

theorem spill {ty : Ty} (hty : ty.isStruct = false) : Frugal (spill ty) :=
  bind (temp hty) fun _ => bind (instr _) fun _ => pure _

theorem spillOperand {ty : Ty} (hty : ty.isStruct = false) : Frugal (spillOperand ty) :=
  bind (spill hty) fun _ => pure _

theorem pushDefault (ty : Ty) : Frugal (pushDefault ty) := by
  unfold Emit.pushDefault
  split
  · exact pure _
  · split <;> exact instr _

theorem wrapIf (condition : Bool) : Frugal (wrapIf condition) := by
  unfold Emit.wrapIf
  split
  · exact instr _
  · exact pure _

theorem unwrapIf (condition : Bool) : Frugal (unwrapIf condition) := by
  unfold Emit.unwrapIf
  split
  · exact instr _
  · exact pure _

theorem loadVar (slot : VarSlot) : Frugal (loadVar slot) := by
  cases slot <;> exact instr _

theorem storeVar (slot : VarSlot) : Frugal (storeVar slot) := by
  cases slot <;> exact instr _

end Frugal

end Emit

/-- A node of a type other than a struct whose emitters are frugal, as long as nothing is created. -/
structure Node.Frugal (n : Node) : Prop where
  ty : n.ty.isStruct = false
  emit : ∀ exit shape, (n.emit exit shape false).Frugal
  place : ∀ exit extend, (n.place exit extend).Frugal

namespace Node.Frugal

open Emit

variable {n l r : Node} {exit : Option Label}

theorem value (hn : n.Frugal) (exit : Option Label) : (n.value exit).Frugal :=
  .bind (hn.emit exit .value) fun _ => .pure _

theorem effect (hn : n.Frugal) (exit : Option Label) : (n.effect exit).Frugal :=
  .bind (hn.emit exit .nothing) fun _ => .pure _

/-! ## Landings and branches -/

theorem pushLanding {ty : Ty} (hty : ty.isStruct = false) (form : Form) :
    (pushLanding ty form).Frugal := by
  cases form with
  | nothing => exact .pure _
  | value => exact .pushDefault ty
  | address => exact .bind (.temp hty) fun _ => .bind (.pushDefault ty) fun _ => .instrs _

/-- A body with a landing of its own. -/
theorem withLanding {ty : Ty} {body : Option Label → Emit Emitted} (hty : ty.isStruct = false)
    (hbody : ∀ exit, (body exit).Frugal) : (withLanding ty body).Frugal := by
  refine .bind (.read _) fun o => ?_
  split
  · refine .bind (.temp rfl) fun _ => .bind (.reserved ?_) ?_
    · exact .bind .newLabel fun _ => .bind (hbody _) fun _ => .pure _
    · rintro ⟨pad, e⟩
      dsimp only
      split
      · exact .bind .newLabel fun _ => .bind (.instr _) fun _ => .bind (.mark _) fun _ =>
          .bind (.instr _) fun _ => .bind (pushLanding hty _) fun _ => .bind (.mark _) fun _ =>
          .pure _
      · exact .bind (.mark _) fun _ => .pure _
  · exact hbody none

theorem guarded (hn : n.Frugal) (shape : Shape) : (n.guarded shape).Frugal :=
  withLanding hn.ty fun exit => hn.emit exit shape

theorem checkBranch (n : Node) (ty : Ty) : (n.checkBranch ty).Frugal := by
  refine .bind (.read _) fun _ => ?_
  split
  · exact .pure _
  · exact .bind (.bind (.read _) fun _ => .pure _) fun _ => .mismatch _ _ _

theorem branch (hn : n.Frugal) (ty : Ty) (exit : Option Label) (discard : Bool) :
    (n.branch ty exit discard).Frugal := by
  unfold Node.branch
  split
  · exact hn.effect exit
  · exact .bind (hn.value exit) fun _ => .bind (.wrapIf _) fun _ => .pure _

/-- A result brought into a shape. -/
theorem adapt {ty : Ty} (hty : ty.isStruct = false) (e : Emitted) (shape : Shape) :
    (adapt ty e shape).Frugal := by
  unfold Emit.adapt
  split
  · exact .pure _
  · split
    · exact .bind (.instr _) fun _ => .pure _
    · split
      · exact .bind (.spill hty) fun _ => .bind (.instr _) fun _ => .pure _
      · exact .pure _
  · split
    · exact .bind (.instr _) fun _ => .pure _
    · split
      · exact .pure _
      · exact .bind (.instr _) fun _ => .pure _

/-- A coercion. -/
theorem coerce (source target : Ty) (context : String) : (coerce source target context).Frugal := by
  unfold Emit.coerce
  split
  · exact .pure _
  · split
    · exact .instr _
    · refine .bind (.read _) fun _ => ?_
      split
      · split
        · exact .instr _
        · exact .pure _
      · exact .bind (.bind (.read _) fun _ => .pure _) fun _ => .mismatch _ _ _

/-! ## Operators -/

theorem loadInner (o : Operand) : (loadInner o).Frugal := by
  refine .bind (.instr _) fun _ => ?_
  split
  · exact .instr _
  · exact .pure _

theorem loadPresence (o : Operand) : (loadPresence o).Frugal := by
  unfold Emit.loadPresence
  split
  · exact .bind (.instr _) fun _ => .instr _
  · exact .instr _

theorem lifted {operands : List Operand} {wrap : Bool} {absent body : Emit Unit}
    (habsent : absent.Frugal) (hbody : body.Frugal) :
    (lifted operands wrap absent body).Frugal :=
  .bind .newLabel fun _ => .bind .newLabel fun _ => .bind (.forM fun _ _ => .instrs _) fun _ =>
    .bind hbody fun _ => .bind (.wrapIf _) fun _ => .bind (.instr _) fun _ => .bind (.mark _) fun _ =>
    .bind habsent fun _ => .mark _

theorem liftedEquality (op : BinaryOp) (left right : Operand) (result : Ty) :
    (liftedEquality op left right result).Frugal :=
  .bind .newLabel fun _ => .bind .newLabel fun _ => .bind .newLabel fun _ =>
    .bind (loadPresence _) fun _ => .bind (loadPresence _) fun _ => .bind (.instrs _) fun _ =>
    .bind (loadPresence _) fun _ => .bind (.instr _) fun _ => .bind (loadInner _) fun _ =>
    .bind (loadInner _) fun _ => .bind (.instrs _) fun _ => .bind (.mark _) fun _ =>
    .bind (.instrs _) fun _ => .bind (.mark _) fun _ => .bind (.instr _) fun _ =>
    .bind (.mark _) fun _ => .wrapIf _

/-- A lifted operator. -/
theorem liftedOperator (op : BinaryOp) (checked : Bool) (left right : Operand) (result : Ty) :
    (liftedOperator op checked left right result).Frugal := by
  have hbody : Emit.Frugal (do
      Emit.loadInner left
      Emit.loadInner right
      instr (op.instr checked left.ty.underlying)) :=
    .bind (loadInner _) fun _ => .bind (loadInner _) fun _ => .instr _
  unfold Emit.liftedOperator
  dsimp only
  split
  · refine .bind (.read _) fun o => lifted ?_ hbody
    split
    · exact .instr _
    · exact .bind (.instr _) fun _ => .wrapIf _
  · split
    · exact lifted (.instr _) hbody
    · exact .bind (.bind (.read _) fun _ => .pure _) fun _ => .mismatch _ _ _

theorem binarySlots (op : BinaryOp) (checked : Bool) (left right : Operand) (result : Ty) :
    (binarySlots op checked none left right result).Frugal := by
  unfold Emit.binarySlots
  dsimp only
  split
  · exact .bind (.instr _) fun _ => .bind (.instr _) fun _ => .instr _
  · split
    · exact liftedEquality op left right result
    · exact liftedOperator op checked left right result

theorem checkBinary (op : BinaryOp) (left right : Ty) : (checkBinary op left right).Frugal := by
  unfold Emit.checkBinary
  split
  · exact .pure _
  · exact .bind (.bind (.read _) fun _ => .pure _) fun _ => .mismatch _ _ _

/-- A unary operator. -/
theorem unary (hn : n.Frugal) (op : UnaryOp) (checked : Bool) (ty : Ty) (exit : Option Label) :
    (unary op n checked none ty exit).Frugal := by
  unfold Emit.unary
  split
  · exact .mismatch _ _ _
  split
  · exact .bind (hn.value exit) fun _ => .bind (.instrs _) fun _ => .bind (.wrapIf _) fun _ => .pure _
  split
  · exact .bind (hn.value exit) fun _ => .bind (.instr _) fun _ => .pure _
  split
  · exact .bind (.bind (.read _) fun _ => .pure _) fun _ => .mismatch _ _ _
  · exact .withTemps (.bind (hn.value exit) fun _ => .bind (.spillOperand hn.ty) fun _ =>
      .bind (lifted (.instr _) (.bind (loadInner _) fun _ => .instrs _)) fun _ => .pure _)

theorem binary (hl : l.Frugal) (hr : r.Frugal) (op : BinaryOp) (checked : Bool) (ty : Ty)
    (exit : Option Label) : (binary op l r checked none ty exit).Frugal := by
  refine .bind (checkBinary op l.ty r.ty) fun _ => ?_
  split
  · exact .bind (hl.value exit) fun _ => .bind (hr.value exit) fun _ => .bind (.instr _) fun _ =>
      .bind (.wrapIf _) fun _ => .pure _
  · exact .withTemps (.bind (hl.value exit) fun _ => .bind (.spillOperand hl.ty) fun _ =>
      .bind (hr.value exit) fun _ => .bind (.spillOperand hr.ty) fun _ =>
      .bind (binarySlots op checked _ _ ty) fun _ => .pure _)

theorem jumpIfMissing (o : Operand) (target : Label) : (jumpIfMissing o target).Frugal := by
  unfold Emit.jumpIfMissing
  split
  · exact .instrs _
  · exact .pure _

theorem leftAbsent (op : LogicalOp) (left right : Operand) (ty : Ty) (entry decided done : Label) :
    (leftAbsent op left right ty entry decided done).Frugal := by
  unfold Emit.leftAbsent
  split
  · exact .bind (.mark _) fun _ => .bind .newLabel fun _ => .bind (jumpIfMissing _ _) fun _ =>
      .bind (loadInner _) fun _ => .bind (.instr _) fun _ => .bind (.mark _) fun _ => .instrs _
  · exact .pure _

/-- A short-circuit operator. -/
theorem logical (hl : l.Frugal) (hr : r.Frugal) (op : LogicalOp) (ty : Ty) (exit : Option Label) :
    (logical op l r ty exit).Frugal := by
  unfold Emit.logical
  dsimp only
  split
  · exact .mismatch _ _ _
  split
  · exact .mismatch _ _ _
  split
  · exact .mismatch _ _ _
  split
  · refine .bind ?_ fun _ => .pure _
    unfold Emit.pushTruth
    split
    · exact .instr _
    · exact .bind (.instr _) fun _ => .wrapIf _
  split
  · exact .withTemps (.bind .newLabel fun _ => .bind .newLabel fun _ => .bind .newLabel fun _ =>
      .bind (hl.value exit) fun _ => .bind (.spillOperand hl.ty) fun _ =>
      .bind (jumpIfMissing _ _) fun _ => .bind (loadInner _) fun _ => .bind (.instr _) fun _ =>
      .bind (.mark _) fun _ => .bind (hr.value exit) fun _ => .bind (.spillOperand hr.ty) fun _ =>
      .bind .newLabel fun _ => .bind (jumpIfMissing _ _) fun _ => .bind (.instr _) fun _ =>
      .bind (.wrapIf _) fun _ => .bind (.instr _) fun _ => .bind (leftAbsent _ _ _ _ _ _ _) fun _ =>
      .bind (.mark _) fun _ => .bind (.instrs _) fun _ => .bind (.mark _) fun _ => .pure _)
  · exact .bind .newLabel fun _ => .bind (hl.value exit) fun _ => .bind (.instrs _) fun _ =>
      .bind (hr.value exit) fun _ => .bind (.mark _) fun _ => .bind (.wrapIf _) fun _ => .pure _

/-- A coalescing. -/
theorem coalesce (hl : l.Frugal) (hr : r.Frugal) (ty : Ty) (exit : Option Label) :
    (coalesce l r ty exit).Frugal := by
  refine .bind (.read _) fun _ => ?_
  dsimp only
  split
  · exact .mismatch _ _ _
  split
  · exact .bind (.bind (.read _) fun _ => .pure _) fun _ => .mismatch _ _ _
  split
  · exact .withTemps (.bind .newLabel fun _ => .bind .newLabel fun _ =>
      .bind (hl.guarded .value) fun _ => .bind (.spill hl.ty) fun _ => .bind (.instrs _) fun _ =>
      .bind (.instr _) fun _ => .bind (.unwrapIf _) fun _ => .bind (.instr _) fun _ =>
      .bind (.mark _) fun _ => .bind (hr.value exit) fun _ => .bind (.wrapIf _) fun _ =>
      .bind (.mark _) fun _ => .pure _)
  · exact .bind .newLabel fun _ => .bind (hl.guarded .value) fun _ => .bind (.instrs _) fun _ =>
      .bind (hr.value exit) fun _ => .bind (.mark _) fun _ => .pure _

/-! ## Members and conversions -/

/-- The presence or content of an optional. -/
theorem member (hn : n.Frugal) {field : Member} (hfield : field = .hasValue ∨ field = .value)
    (ty : Ty) (exit : Option Label) (shape : Shape) :
    (member (some n) field ty exit shape).Frugal := by
  rcases hfield with rfl | rfl
  · refine .pure_bind ?_
    split
    · exact .bind (hn.value exit) fun _ => .bind (.instr _) fun _ => .pure _
    · exact .mismatch _ _ _
  · refine .pure_bind ?_
    split
    · refine .bind (hn.value exit) fun _ => .bind ?_ fun _ => .bind (.instr _) fun _ => .pure _
      unfold Emit.nullCheck
      split
      · refine .bind (.read _) fun _ => ?_
        split
        · exact .bind (.instrs _) fun _ => .pure _
        · exact .pure _
      · exact .pure _
    · exact .mismatch _ _ _

/-- A conversion that keeps numbers as they are. -/
theorem plainConversion (source target : Ty) : (plainConversion source target).Frugal := by
  have hnone : (noConversion source target : Emit Unit).Frugal :=
    .bind (.bind (.read _) fun _ => .pure _) fun _ => .bind (.bind (.read _) fun _ => .pure _)
      fun _ => .fail _
  unfold Emit.plainConversion
  split
  · split
    · exact .pure _
    · exact .instr _
  split
  · exact .pure _
  split
  · exact .instr _
  split
  · exact .instr _
  split
  · split
    · exact .instr _
    · exact hnone
  split
  · split
    · exact .instr _
    · exact hnone
  split
  · refine .bind (.read _) fun _ => ?_
    split
    · exact .pure _
    · exact .instr _
  · exact hnone

/-- A conversion without a method. -/
theorem convert (hn : n.Frugal) (checked : Bool) (ty : Ty) (exit : Option Label) :
    (convert n checked none ty exit).Frugal := by
  unfold Emit.convert
  dsimp only
  split
  · unfold Emit.numericConversion
    dsimp only
    split
    · exact .withTemps (.bind (hn.value exit) fun _ => .bind (.spillOperand hn.ty) fun _ =>
        .bind (lifted (.instr _) (.bind (loadInner _) fun _ => .instrs _)) fun _ => .pure _)
    · exact .bind (hn.value exit) fun _ => .bind (.unwrapIf _) fun _ => .bind (.instrs _) fun _ =>
        .bind (.wrapIf _) fun _ => .pure _
  · exact .bind (hn.value exit) fun _ => .bind (plainConversion _ _) fun _ => .pure _

/-! ## Control flow -/

theorem checkBranches (ty : Ty) (branches : List Node) : (checkBranches ty branches).Frugal := by
  unfold Emit.checkBranches
  split
  · exact .pure _
  · exact .forM fun n _ => checkBranch n ty

/-- A conditional. -/
theorem conditional {test ifTrue ifFalse : Node} (htest : test.Frugal) (htrue : ifTrue.Frugal)
    (hfalse : ifFalse.Frugal) (ty : Ty) (exit : Option Label) (shape : Shape) :
    (conditional test ifTrue ifFalse ty exit shape).Frugal := by
  have htruth : (testTruth test.ty).Frugal := by
    unfold Emit.testTruth
    split
    · exact .instr _
    · exact .pure _
  unfold Emit.conditional
  split
  · exact .mismatch _ _ _
  · exact .bind (checkBranches _ _) fun _ => .bind .newLabel fun _ => .bind .newLabel fun _ =>
      .bind (htest.guarded .value) fun _ => .bind htruth fun _ => .bind (.instr _) fun _ =>
      .bind (htrue.branch _ _ _) fun _ => .bind (.instr _) fun _ => .bind (.mark _) fun _ =>
      .bind (hfalse.branch _ _ _) fun _ => .bind (.mark _) fun _ => .pure _

/-- Statements. -/
theorem statements {nodes : List Node} (h : ∀ n ∈ nodes, n.Frugal) (ty : Ty) (exit : Option Label)
    (shape : Shape) : (statements ty exit shape nodes).Frugal := by
  induction nodes with
  | nil => exact .bind (.pushDefault ty) fun _ => .pure _
  | cons n nodes ih =>
      have hn := h n List.mem_cons_self
      cases nodes with
      | nil =>
          unfold Emit.statements
          split
          · exact .bind (hn.effect exit) fun _ => .pure _
          · refine .bind (checkBranch n ty) fun _ => ?_
            split
            · exact hn.emit exit shape
            · exact .bind (hn.branch _ _ _) fun _ => .pure _
      | cons n' nodes =>
          refine .bind (.bind (withLanding rfl fun exit => hn.emit exit .nothing) fun _ => .pure _)
            fun _ => ih fun n hn => h n (List.mem_cons_of_mem _ hn)

theorem bindLocals {vars : List Variable} (h : ∀ v ∈ vars, v.ty.isStruct = false) :
    (bindLocals vars).Frugal := by
  induction vars with
  | nil => exact .pure _
  | cons v vars ih =>
      exact .bind (.bind (.temp (h v List.mem_cons_self)) fun _ => .bind (.pushDefault _) fun _ =>
        .bind (.instr _) fun _ => .pure _) fun _ =>
        .bind (ih fun v hv => h v (List.mem_cons_of_mem _ hv)) fun _ => .pure _

theorem block {vars : List Variable} {nodes : List Node} (hvars : ∀ v ∈ vars, v.ty.isStruct = false)
    (hnodes : ∀ n ∈ nodes, n.Frugal) (ty : Ty) (exit : Option Label) (shape : Shape) :
    (block vars nodes ty exit shape).Frugal :=
  .withTemps (.bind (bindLocals hvars) fun _ => .inScope _ (statements hnodes ty exit shape))

/-! ## Assignments -/

theorem loadTableElement (table index : Nat) (ty : Ty) :
    (loadTableElement table index ty).Frugal := by
  refine .bind (.instr _) fun _ => .bind (.instr _) fun _ => .bind (.instr _) fun _ => ?_
  split
  · exact .pure _
  · exact .instr _

theorem closureTable : closureTable.Frugal := by
  refine .bind (.read _) fun _ => ?_
  split
  · exact .pure _
  · exact .fail _

/-- A method of a property. -/
theorem accessor (p : PropertyRef) (which : Accessor) : (accessor p which).Frugal := by
  refine .bind (.bind (.read _) fun _ => ?_) fun d => ?_
  · split
    · exact .pure _
    · exact .fail _
  · dsimp only
    split
    · exact .pure _
    · exact .bind (.read _) fun _ => .fail _

/-- A loaded place. -/
theorem loadPlace (p : Place) : (loadPlace p).Frugal := by
  unfold Emit.loadPlace
  split
  · exact .loadVar _
  · exact .bind closureTable fun _ => loadTableElement _ _ _
  · exact .bind (.instrs _) fun _ => .instr _
  · exact .instr _
  · exact .bind (accessor _ _) fun _ => .bind (.instrs _) fun _ => .instr _
  · exact .bind (.instrs _) fun _ => .instr _
  · exact .bind (.instrs _) fun _ => .instr _
  · exact .bind (.instrs _) fun _ => .instr _

/-- A stored place. -/
theorem storePlace (p : Place) (slot : Nat) : (storePlace p slot).Frugal := by
  unfold Emit.storePlace
  dsimp only
  split
  · exact .bind (.instr _) fun _ => .storeVar _
  · exact .bind closureTable fun _ => .bind (.instr _) fun _ => .bind (.instr _) fun _ => .instrs _
  · exact .bind (.instrs _) fun _ => .instrs _
  · exact .instrs _
  · exact .bind (accessor _ _) fun _ => .bind (.instrs _) fun _ => .instrs _
  · exact .bind (.instrs _) fun _ => .instrs _
  · exact .bind (.instrs _) fun _ => .instrs _
  · exact .bind (.instrs _) fun _ => .instrs _

theorem assigned (ty : Ty) (slot : Nat) (keep used : Bool) :
    (assigned ty slot keep used).Frugal := by
  unfold Emit.assigned
  split
  · exact .bind (.instr _) fun _ => .pure _
  · exact .pure _

/-- An assignment. -/
theorem assign {target : Node} {value : Option Node} (htarget : target.Frugal)
    (hvalue : ∀ n ∈ value.toList, n.Frugal) (op : AssignOp) (checked autoExtend : Bool)
    (exit : Option Label) (shape : Shape) :
    (assign op target value checked autoExtend exit shape).Frugal := by
  refine .bind (.read _) fun o => ?_
  dsimp only
  split
  · unfold Emit.step
    split
    · exact .mismatch _ _ _
    · refine .withTemps (.bind (htarget.place _ _) fun _ => .bind (loadPlace _) fun _ =>
        .bind (.spillOperand htarget.ty) fun old => .bind ?_ fun _ => .bind (.spill htarget.ty) fun _ =>
        .bind (storePlace _ _) fun _ => assigned _ _ _ _)
      unfold Emit.stepped
      dsimp only
      split
      · exact lifted (.instr _) (.bind (loadInner _) fun _ => .instrs _)
      · exact .bind (.instr _) fun _ => .instrs _
  · next value _ =>
      have hvalue : value.Frugal := hvalue value List.mem_cons_self
      split
      · exact .withTemps (.bind (htarget.place _ _) fun _ => .bind (hvalue.value exit) fun _ =>
          .bind (coerce _ _ _) fun _ => .bind (.spill htarget.ty) fun _ =>
          .bind (storePlace _ _) fun _ => assigned _ _ _ _)
      · exact .bind (checkBinary _ _ _) fun _ => .withTemps (.bind (htarget.place _ _) fun _ =>
          .bind (loadPlace _) fun _ => .bind (.spillOperand htarget.ty) fun _ =>
          .bind (hvalue.value exit) fun _ => .bind (.spillOperand hvalue.ty) fun _ =>
          .bind (binarySlots _ _ _ _ _) fun _ => .bind (.spill htarget.ty) fun _ =>
          .bind (storePlace _ _) fun _ => assigned _ _ _ _)
  · exact .fail _

/-! ## Switches -/

/-- The type inside one that a table can hold is no struct. -/
theorem isStruct_of_tabular {ty : Ty} (h : ty.isTabular = true) : ty.underlying.isStruct = false := by
  cases ty with
  | structTy id => simp [Ty.isTabular, Ty.isIntegral, Ty.numKind?, Ty.underlying] at h
  | nullable t =>
      cases t with
      | structTy id => simp [Ty.isTabular, Ty.isIntegral, Ty.numKind?, Ty.underlying] at h
      | _ => rfl
  | _ => rfl

/-- Only a type that a table can hold is dispatched through one. -/
theorem isTabular_of_tableKeys {o : Options} {ty : Ty} {cases : List (SwitchCase Node)}
    {comparison : Option MethodRef} {keys : List (List CaseKey)}
    (h : tableKeys? o ty cases comparison = some keys) : ty.isTabular = true := by
  unfold Emit.tableKeys? at h
  cases hty : ty.isTabular with
  | true => rfl
  | false => simp [hty] at h

/-- Dispatch through a table. -/
theorem tableDispatch {subject : Operand} (hty : subject.ty.isTabular = true)
    (keys : List (List CaseKey)) (labels : List Label) (fallback : Label) :
    (tableDispatch subject keys labels fallback).Frugal := by
  have hlabels : ∀ buckets, (bucketLabels fallback buckets).Frugal := by
    intro buckets
    induction buckets with
    | nil => exact .pure _
    | cons b buckets ih =>
        unfold Emit.bucketLabels
        split
        · exact .pure_bind (.bind ih fun _ => .pure _)
        · exact .bind .newLabel fun _ => .bind ih fun _ => .pure _
  refine .bind ?_ fun _ => .bind (loadInner _) fun _ =>
    .bind (.spill (isStruct_of_tabular hty)) fun plain => .bind (hlabels _) fun _ =>
    .bind (.instrs _) fun _ => .forM fun e _ => ?_
  · unfold Emit.jumpIfNull
    split
    · exact .instrs _
    · exact .pure _
  · obtain ⟨bucket, l⟩ := e
    dsimp only
    unfold Emit.bucketCode
    split
    · exact .pure _
    · exact .bind (.mark _) fun _ => .bind (.forM fun _ _ => .instrs _) fun _ => .instr _

theorem linearDispatch {cases : List (SwitchCase Node)} (h : ∀ c ∈ cases, ∀ n ∈ c.tests, n.Frugal)
    (subject : Operand) (labels : List Label) (fallback : Label) :
    (linearDispatch subject cases none labels fallback).Frugal := by
  refine .bind (.forM fun e he => .forM fun test htest => .withTemps ?_) fun _ => .instr _
  have htest : test.Frugal := h e.1 (List.of_mem_zip he).1 test htest
  exact .bind (htest.guarded .value) fun _ => .bind (.spillOperand htest.ty) fun _ =>
    .bind (binarySlots _ _ _ _ _) fun _ => .instr _

/-- A switch. -/
theorem switch {value : Node} {cases : List (SwitchCase Node)} {fallback : Option Node}
    (hvalue : value.Frugal) (htests : ∀ c ∈ cases, ∀ n ∈ c.tests, n.Frugal)
    (hbodies : ∀ c ∈ cases, c.body.Frugal) (hfallback : ∀ n ∈ fallback.toList, n.Frugal) (ty : Ty)
    (exit : Option Label) : (switch value cases fallback none ty exit).Frugal := by
  have hlabels : ∀ cs : List (SwitchCase Node), (newLabels cs).Frugal := by
    intro cs
    induction cs with
    | nil => exact .pure _
    | cons c cs ih => exact .bind .newLabel fun _ => .bind ih fun _ => .pure _
  have hcases : ∀ done (cs : List (SwitchCase Node × Label)), (∀ e ∈ cs, e.1.body.Frugal) →
      (caseBodies ty exit done cs).Frugal := by
    intro done cs hcs
    induction cs with
    | nil => exact .pure _
    | cons c cs ih =>
        exact .bind (.mark _) fun _ => .bind ((hcs c List.mem_cons_self).branch _ _ _) fun _ =>
          .bind (.instr _) fun _ => .bind (ih fun e he => hcs e (List.mem_cons_of_mem _ he)) fun _ =>
          .pure _
  refine .bind ?_ fun _ => .withTemps (.bind (hvalue.value exit) fun _ =>
    .bind (.spillOperand hvalue.ty) fun subject => .bind (hlabels _) fun labels =>
    .bind .newLabel fun _ => .bind .newLabel fun done => .bind (.bind (.read _) fun o => ?_) fun _ =>
    .bind (hcases done _ fun e he => hbodies e.1 (List.of_mem_zip he).1) fun _ =>
    .bind (.mark _) fun _ => .bind ?_ fun _ => .bind (.mark _) fun _ => .pure _)
  · refine .bind (.forM fun c _ => .forM fun test _ => ?_) fun _ => checkBranches _ _
    split
    · exact .pure _
    · exact .bind (.bind (.read _) fun _ => .pure _) fun _ => .mismatch _ _ _
  · split
    · next keys hkeys => exact tableDispatch (isTabular_of_tableKeys hkeys) _ _ _
    · exact linearDispatch htests _ _ _
  · unfold Emit.defaultBody
    split
    · next body => exact (hfallback body List.mem_cons_self).branch _ _ _
    · exact .bind (.pushDefault ty) fun _ => .pure _

end Node.Frugal

/-! ## Trees -/

/-- Whether a layer is of a kind that is evaluated directly. -/
def ExprKind.isDirect {α : Type} : ExprKind α → Bool
  | constant _ | default | parameter _ => true
  | logical .. | coalesce .. | conditional .. | assign .. => true
  | member (some _) .hasValue | member (some _) .value => true
  | unary _ _ _ none | binary _ _ _ _ none | convert _ _ none | switch _ _ _ none => true
  | block vars _ => vars.all fun v => !v.ty.isStruct
  | _ => false

namespace Expr

/-- Whether all nodes of a tree are of kinds that are evaluated directly, and none is a struct. -/
def isDirect : Expr → Bool :=
  fold fun k ty => k.isDirect && !ty.isStruct && k.children.all id

/-- A direct tree has a direct layer and direct operands. -/
theorem isDirect_node (k : ExprKind Expr) (ty : Ty) :
    (Expr.node k ty).isDirect = true ↔
      k.isDirect = true ∧ ty.isStruct = false ∧ ∀ e ∈ k.children, e.isDirect = true := by
  have hkind : ∀ f : Expr → Bool, (k.map f).isDirect = k.isDirect := by
    intro f
    cases k with
    | member receiver m => cases receiver <;> cases m <;> rfl
    | unary op operand checked method => cases method <;> rfl
    | binary op left right checked method => cases method <;> rfl
    | convert operand checked method => cases method <;> rfl
    | switch value cases fallback comparison => cases comparison <;> rfl
    | _ => rfl
  unfold isDirect
  rw [fold_node, hkind, ExprKind.children_map]
  simp [and_assoc]

/-- A direct tree defines no labels. -/
theorem targetsAt_of_direct {e : Expr} (h : e.isDirect = true) (depth : Nat) :
    e.targetsAt depth = [] := by
  induction e using induct generalizing depth with
  | node k ty ih =>
      obtain ⟨hkind, -, hchildren⟩ := (isDirect_node k ty).mp h
      have hoperands : k.operands = k.children := by
        cases k <;> first | rfl | cases hkind
      have hown : ∀ f : Expr → Nat → List (LabelTarget × Nat), (k.map f).ownTargets = [] := by
        intro f
        cases k <;> first | rfl | cases hkind
      unfold targetsAt
      rw [fold_node]
      simp only [layerTargets, hown, ExprKind.children_map, List.map_nil, List.nil_append,
        List.flatMap_map, List.flatMap_eq_nil_iff]
      intro operand hoperand
      exact ih operand (by rw [hoperands]; exact hoperand) (hchildren operand hoperand) _

/-- A direct layer is emitted frugally if its operands are. -/
theorem frugal_layer {k : ExprKind Expr} (hkind : k.isDirect = true)
    (hk : ∀ e ∈ k.children, e.toNode.Frugal) {ty : Ty}
    {place : Option Label → Bool → Emit (Place × Bool)} {exit : Option Label} {shape : Shape} :
    (Emit.layer (k.map toNode) ty place exit shape).Frugal := by
  have hlist : ∀ {es : List Expr}, (∀ e ∈ es, e.toNode.Frugal) →
      ∀ n ∈ es.map toNode, n.Frugal := by
    intro es hes n hn
    obtain ⟨e, he, rfl⟩ := List.mem_map.mp hn
    exact hes e he
  have hoption : ∀ {o : Option Expr}, (∀ e ∈ o.toList, e.toNode.Frugal) →
      ∀ n ∈ (o.map toNode).toList, n.Frugal := by
    intro o ho
    rw [Option.toList_map]
    exact hlist ho
  cases k with
  | constant value =>
      unfold Emit.layer ExprKind.map Emit.constant
      dsimp only
      split
      · split
        · exact .mismatch _ _ _
        · exact .bind (.pushDefault ty) fun _ => .pure _
      · refine .bind (.instr _) fun _ => ?_
        split
        · exact .bind (.bind (.read _) fun _ => .pure _) fun _ => .mismatch _ _ _
        · exact .bind (.wrapIf _) fun _ => .pure _
  | default => exact .bind (.pushDefault ty) fun _ => .pure _
  | parameter id =>
      refine .bind (.read _) fun v => ?_
      dsimp only
      split
      · exact .bind (by cases v.1 <;> exact .instr _) fun _ => .pure _
      · exact .bind (.loadVar _) fun _ => .pure _
  | member receiver m =>
      cases receiver with
      | none => cases m <;> cases hkind
      | some receiver =>
          have hreceiver := hk receiver List.mem_cons_self
          cases m with
          | hasValue => exact hreceiver.member (.inl rfl) ty exit shape
          | value => exact hreceiver.member (.inr rfl) ty exit shape
          | _ => cases hkind
  | unary op operand checked method =>
      cases method with
      | none => exact (hk operand List.mem_cons_self).unary op checked ty exit
      | some m => cases hkind
  | binary op left right checked method =>
      cases method with
      | none =>
          exact (hk left List.mem_cons_self).binary (hk right (by simp [ExprKind.children])) op
            checked ty exit
      | some m => cases hkind
  | logical op left right =>
      exact (hk left List.mem_cons_self).logical (hk right (by simp [ExprKind.children])) op ty exit
  | coalesce left right =>
      exact (hk left List.mem_cons_self).coalesce (hk right (by simp [ExprKind.children])) ty exit
  | conditional test ifTrue ifFalse =>
      exact Node.Frugal.conditional (hk test List.mem_cons_self) (hk ifTrue (by simp [ExprKind.children]))
        (hk ifFalse (by simp [ExprKind.children])) ty exit shape
  | block vars body =>
      have hvars : ∀ v ∈ vars, v.ty.isStruct = false := by
        intro v hv
        have := List.all_eq_true.mp hkind v hv
        simpa using this
      exact Node.Frugal.block hvars (hlist hk) ty exit shape
  | switch value cases fallback comparison =>
      cases comparison with
      | none =>
          obtain ⟨hrest, hfallback⟩ := List.forall_mem_append.mp hk
          obtain ⟨hvalue, hcases⟩ := List.forall_mem_cons.mp hrest
          have hcase : ∀ c ∈ cases, ∀ e ∈ c.tests ++ [c.body], e.toNode.Frugal :=
            fun c hc e he => hcases e (List.mem_flatMap.mpr ⟨c, hc, he⟩)
          refine Node.Frugal.switch hvalue ?_ ?_ (hoption hfallback) ty exit
          · intro c hc
            obtain ⟨c, hmem, rfl⟩ := List.mem_map.mp hc
            exact hlist (List.forall_mem_append.mp (hcase c hmem)).1
          · intro c hc
            obtain ⟨c, hmem, rfl⟩ := List.mem_map.mp hc
            exact hcase c hmem c.body (by simp)
      | some m => cases hkind
  | assign op target value checked autoExtend =>
      obtain ⟨htarget, hvalue⟩ := List.forall_mem_cons.mp hk
      exact Node.Frugal.assign htarget (hoption hvalue) op checked autoExtend exit shape
  | convert operand checked method =>
      cases method with
      | none => exact (hk operand List.mem_cons_self).convert checked ty exit
      | some m => cases hkind
  | _ => cases hkind

/-- The emitters of a direct tree are frugal. -/
theorem frugal_of_direct {e : Expr} (h : e.isDirect = true) : e.toNode.Frugal := by
  induction e using induct with
  | node k ty ih =>
      obtain ⟨hkind, hty, hchildren⟩ := (isDirect_node k ty).mp h
      have hoperands : k.operands = k.children := by
        cases k <;> first | rfl | cases hkind
      rw [hoperands] at ih
      have hk : ∀ e ∈ k.children, e.toNode.Frugal := fun e he => ih e he (hchildren e he)
      have hnode : (Expr.node k ty).toNode = Node.ofKind (k.map Expr.toNode) ty :=
        fold_node _ _ _
      rw [hnode]
      refine ⟨hty, fun exit shape => .bind (frugal_layer hkind hk) fun e =>
        Node.Frugal.adapt hty e shape, fun exit extend => ?_⟩
      cases k with
      | parameter id => exact .bind (.read _) fun _ => .pure _
      | member receiver m =>
          cases m with
          | field | property => cases receiver <;> cases hkind
          | _ => exact .fail _
      | closureVar | index => cases hkind
      | _ => exact .fail _

end Expr

namespace Emit

/-- A function with a direct body is emitted frugally. -/
theorem frugal_functionBody {l : Lambda Expr} (h : l.body.isDirect = true) :
    (functionBody (l.map Expr.toNode)).Frugal := by
  have hbody : l.body.toNode.Frugal := Expr.frugal_of_direct h
  have hfinish : finishUnit.Frugal := by
    intro setting s t R hrun
    simp only [finishUnit] at hrun
    split at hrun
    · cases hrun
      exact .of_eq rfl rfl
    · cases hrun
  have htargets : (l.map Expr.toNode).body.expr.targetsAt 0 = [] := by
    change l.body.toNode.expr.targetsAt 0 = []
    rw [Expr.toNode_expr]
    exact Expr.targetsAt_of_direct h 0
  unfold functionBody
  rw [htargets]
  refine .bind (.pure _) fun _ => ?_
  split
  · exact .bind (hbody.guarded .nothing) fun _ => .bind (.instr _) fun _ => hfinish
  · exact .bind (Node.Frugal.checkBranch _ _) fun _ => .bind (hbody.guarded .value) fun _ =>
      .bind (.wrapIf _) fun _ => .bind (.instr _) fun _ => hfinish

end Emit

end Arbor
