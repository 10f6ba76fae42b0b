/-
  The layers of a tree keep every policy.

  Every layer keeps a policy if its operands do, except for the layers that deal
  with labels of the tree, protected blocks and nested functions; those are for
  each policy to settle.
-/
import Arbor.Proofs.Emission.Policy

set_option autoImplicit false

namespace Arbor

theorem BinaryOp.instr_isSimple (op : BinaryOp) (checked : Bool) (ty : Ty) :
    (op.instr checked ty).isSimple = true := by
  cases op with
  | add =>
      simp only [BinaryOp.instr]
      split <;> rfl
  | _ => rfl

/-- The code of an operator is simple. -/
theorem UnaryOp.instrs_isSimple (op : UnaryOp) (checked : Bool) (ty : Ty) :
    (op.instrs checked ty).all Instr.isSimple = true := by
  have hstep : (stepConst ty).all Instr.isSimple = true := by
    unfold stepConst
    split <;> rfl
  cases op with
  | increment | decrement =>
      simp only [UnaryOp.instrs, List.all_append, hstep]
      rfl
  | _ => rfl

/-- Whether a layer neither deals with labels of the tree nor opens a protected block or a unit. -/
def ExprKind.isPlain {α : Type} : ExprKind α → Bool
  | loop .. | tryCatch .. | lambda _ | goto .. | label .. => false
  | _ => true

namespace Emit.Policy

variable {α : Type} {P : Policy} {own : List Label} {exit : Option Label} {l r n : Node} {ty : Ty}

theorem checkBranch : P.Ok own exit (n.checkBranch ty) :=
  seq (P.read fun _ _ _ => rfl) fun _ => ite done (seq tyText fun _ => mismatch)

/-! ## Operators on temporaries -/

theorem spillOperand : P.Yields own exit (spillOperand ty) fun o => P.Slot o.slot :=
  after spill fun _ hslot => give hslot

section

variable {o left right : Operand} (ho : P.Slot o.slot) (hleft : P.Slot left.slot)
  (hright : P.Slot right.slot)

include ho in
theorem loadInner : P.Ok own exit (loadInner o) := by
  refine seq (loadLocal ho) fun _ => ?_
  split
  · exact bare rfl
  · exact done

include ho in
theorem loadPresence : P.Ok own exit (loadPresence o) :=
  ite (seq (loadLocal ho) fun _ => bare rfl) (bare rfl)

include ho in
theorem jumpIfAbsent {target : Label} (htarget : target ∈ own) :
    P.Ok own exit (Emit.instrs [.loadLocal o.slot, .optHasValue, .jumpIfFalse target]) :=
  cons (loadLocal ho) (cons (bare rfl) (cons (test ⟨rfl, rfl, rfl, rfl⟩ rfl htarget) nil))

theorem lifted {operands : List Operand} (hoperands : ∀ o ∈ operands, P.Slot o.slot) {wrap : Bool}
    {absent body : Emit Unit} (habsent : P.Ok own exit absent) (hbody : P.Ok own exit body) :
    P.Ok own exit (lifted operands wrap absent body) :=
  label fun missing => label fun ready =>
    seq (forM fun o ho => jumpIfAbsent (hoperands o ((List.mem_filter.mp ho).1)) (by simp)) fun _ =>
    seq (lend hbody (by simp_all)) fun _ => seq wrapIf fun _ => seq (jump (by simp)) fun _ =>
    seq (P.mark (by simp)) fun _ => seq (lend habsent (by simp_all)) fun _ => P.mark (by simp)

include hleft hright in
theorem forall_mem_operands : ∀ o ∈ [left, right], P.Slot o.slot :=
  List.forall_mem_cons.mpr ⟨hleft, List.forall_mem_singleton.mpr hright⟩

include hleft hright in
theorem liftedEquality {op : BinaryOp} : P.Ok own exit (liftedEquality op left right ty) :=
  label fun differ => label fun bothAbsent => label fun ready =>
    seq (loadPresence hleft) fun _ => seq (loadPresence hright) fun _ =>
    seq (condition (bare rfl) (.instr nofun) (by simp) fun _ => done) fun _ =>
    seq (loadPresence hleft) fun _ => seq (test ⟨rfl, rfl, rfl, rfl⟩ rfl (by simp)) fun _ =>
    seq (loadInner hleft) fun _ => seq (loadInner hright) fun _ =>
    seq (cons (bare rfl) (cons (jump (by simp)) nil)) fun _ => seq (P.mark (by simp)) fun _ =>
    seq (cons (bare rfl) (cons (jump (by simp)) nil)) fun _ => seq (P.mark (by simp)) fun _ =>
    seq (bare rfl) fun _ => seq (P.mark (by simp)) fun _ => wrapIf

include hleft hright in
theorem operatorCall {method : MethodRef} : P.Ok own exit (operatorCall method left right ty) := by
  refine seq lookup fun sig => ite (ite ?_ ?_) (seq (P.read fun _ _ _ => rfl) fun _ => P.fail nofun)
  · exact lifted (forall_mem_operands hleft hright) pushDefault
      (seq (loadInner hleft) fun _ => seq (loadInner hright) fun _ => bare rfl)
  · exact seq (loadLocal hleft) fun _ => seq (loadLocal hright) fun _ => bare rfl

include hleft hright in
/-- A lifted operator. -/
theorem liftedOperator {op : BinaryOp} {checked : Bool} :
    P.Ok own exit (liftedOperator op checked left right ty) := by
  have hbody : P.Ok own exit (do
      Emit.loadInner left
      Emit.loadInner right
      Emit.instr (op.instr checked left.ty.underlying)) :=
    seq (loadInner hleft) fun _ => seq (loadInner hright) fun _ => bare (BinaryOp.instr_isSimple _ _ _)
  have hoperands := forall_mem_operands hleft hright
  refine ite (seq (P.read fun _ _ _ => rfl) fun o => lifted hoperands ?_ hbody)
    (ite (lifted hoperands (bare rfl) hbody) (seq tyText fun _ => mismatch))
  exact ite (bare rfl) (seq (bare rfl) fun _ => wrapIf)

include hleft hright in
theorem binarySlots {op : BinaryOp} {checked : Bool} {method : Option MethodRef} :
    P.Ok own exit (binarySlots op checked method left right ty) := by
  cases method with
  | some m => exact operatorCall hleft hright
  | none =>
      refine ite ?_ (ite (liftedEquality hleft hright) (liftedOperator hleft hright))
      exact seq (loadLocal hleft) fun _ => seq (loadLocal hright) fun _ =>
        bare (BinaryOp.instr_isSimple _ _ _)

end

theorem checkBinary {op : BinaryOp} {left right : Ty} : P.Ok own exit (checkBinary op left right) :=
  ite done (seq tyText fun _ => mismatch)

/-! ## Leaves and operators -/

theorem constant {value : Literal} : P.Ok own exit (constant value ty) := by
  unfold Emit.constant
  split
  · exact ite mismatch (seq pushDefault fun _ => done)
  · exact seq (bare rfl) fun _ => ite (seq tyText fun _ => mismatch) (seq wrapIf fun _ => done)

theorem parameter {id : VarId} {shape : Shape} : P.Ok own exit (parameter id shape) :=
  after P.varSlot fun _ hslot =>
    ite (seq (loadVarAddr hslot) fun _ => done) (seq (loadVar hslot) fun _ => done)

theorem closureTable : P.Yields own exit closureTable (P.Table .closure) := by
  refine after P.hiddenParams fun _ hidden => ?_
  split
  · next htable => exact give (hidden .closure _ htable)
  · exact P.fail nofun

theorem hoisted {index : Nat} : P.Ok own exit (hoisted index ty) := by
  refine after P.hiddenParams fun _ hidden => ?_
  split
  · next htable => exact seq (P.loadTable _ _ (hidden .constants _ htable)) fun _ => done
  · exact P.fail nofun

theorem closureVar {index : Nat} : P.Ok own exit (closureVar index ty) :=
  after closureTable fun _ htable => seq (P.loadTable _ _ htable) fun _ => done

theorem unaryCode {op : UnaryOp} {checked : Bool} {method : Option MethodRef} :
    P.Ok own exit (Emit.instrs (unaryCode op checked method ty)) := by
  cases method with
  | some m => exact bares rfl
  | none => exact bares (UnaryOp.instrs_isSimple op checked ty)

theorem unary (hn : n.Keeps P) {op : UnaryOp} {checked : Bool} {method : Option MethodRef} :
    P.Ok own exit (unary op n checked method ty exit) := by
  refine ite mismatch <| ite ?_ <| ite ?_ <| ite (seq tyText fun _ => mismatch) (P.withTemps ?_)
  · exact seq hn.value fun _ => seq unaryCode fun _ => seq wrapIf fun _ => done
  · exact seq hn.value fun _ => seq (bare rfl) fun _ => done
  · refine seq hn.value fun _ => after spillOperand fun _ ho =>
      seq (lifted (List.forall_mem_singleton.mpr ho) (bare ?_) ?_) fun _ => done
    · split <;> rfl
    · exact seq (loadInner ho) fun _ => unaryCode

/-- A binary operator. -/
theorem binary (hl : l.Keeps P) (hr : r.Keeps P) {op : BinaryOp} {checked : Bool}
    {method : Option MethodRef} : P.Ok own exit (binary op l r checked method ty exit) := by
  have hrest : P.Ok own exit (if method.isNone && !(l.ty.isNullable || r.ty.isNullable) then do
      let usedLeft ← l.value exit
      let usedRight ← r.value exit
      Emit.instr (op.instr checked l.ty)
      Emit.wrapIf ty.isNullable
      Pure.pure (Emitted.ofTy ty (usedLeft || usedRight))
    else
      Emit.withTemps do
        let usedLeft ← l.value exit
        let left ← Emit.spillOperand l.ty
        let usedRight ← r.value exit
        let right ← Emit.spillOperand r.ty
        Emit.binarySlots op checked method left right ty
        Pure.pure (Emitted.ofTy ty (usedLeft || usedRight))) := by
    refine ite ?_ (P.withTemps ?_)
    · exact seq hl.value fun _ => seq hr.value fun _ =>
        seq (bare (BinaryOp.instr_isSimple _ _ _)) fun _ => seq wrapIf fun _ => done
    · exact seq hl.value fun _ => after spillOperand fun _ hleft => seq hr.value fun _ =>
        after spillOperand fun _ hright => seq (binarySlots hleft hright) fun _ => done
  exact ite (seq checkBinary fun _ => hrest) hrest

/-- A jump that decides an operator, behind the operand, and what follows. -/
theorem decides {β : Type} {x : Emit PUnit} {f : PUnit → Emit β} {op : LogicalOp} {target : Label}
    {handed : β → List Label} {Q : β → Prop} (hx : P.Ok own exit x) (hends : x.EndsApart)
    (htarget : target ∈ own) (hf : ∀ a, P.Holds own exit (f a) handed Q) :
    P.Holds own exit (x >>= fun _ => Emit.instr (decide op target) >>= f) handed Q := by
  cases op with
  | andAlso => exact seq hx fun _ => seq (test ⟨rfl, rfl, rfl, rfl⟩ rfl htarget) hf
  | orElse => exact condition hx hends htarget hf

theorem jumpIfMissing {o : Operand} (ho : P.Slot o.slot) {target : Label} (htarget : target ∈ own) :
    P.Ok own exit (jumpIfMissing o target) :=
  ite (jumpIfAbsent ho htarget) done

theorem leftAbsent {op : LogicalOp} {left right : Operand} (hright : P.Slot right.slot)
    {entry decided target : Label} (hentry : entry ∈ own) (hdecided : decided ∈ own)
    (htarget : target ∈ own) : P.Ok own exit (leftAbsent op left right ty entry decided target) := by
  refine ite ?_ done
  exact seq (P.mark hentry) fun _ => label fun _ => seq (jumpIfMissing hright (by simp)) fun _ =>
    decides (loadInner hright) EndsApart.loadInner (List.mem_cons_of_mem _ hdecided) fun _ =>
    seq (P.mark (by simp)) fun _ =>
    cons (bare rfl) (cons (jump (List.mem_cons_of_mem _ htarget)) nil)

/-- A short-circuit operator on operands of which one may be absent. -/
theorem liftedLogical (hl : l.Keeps P) (hr : r.Keeps P) {op : LogicalOp} :
    P.Ok own exit (liftedLogical op l r ty exit) := by
  refine P.withTemps (label fun decided => label fun evalRight => label fun target => ?_)
  exact seq hl.value fun _ => after spillOperand fun _ hleft =>
    seq (jumpIfMissing hleft (by simp)) fun _ =>
    decides (loadInner hleft) EndsApart.loadInner (by simp) fun _ =>
    seq (P.mark (by simp)) fun _ => seq hr.value fun _ =>
    after spillOperand fun _ hright => label fun entry =>
    seq (jumpIfMissing hleft (by simp)) fun _ => seq (loadLocal hright) fun _ =>
    seq wrapIf fun _ => seq (jump (by simp)) fun _ =>
    seq (leftAbsent hright (by simp) (by simp) (by simp)) fun _ => seq (P.mark (by simp)) fun _ =>
    seq (bares rfl) fun _ => seq (P.mark (by simp)) fun _ => done

theorem pushTruth {t : Truth} : P.Ok own exit (pushTruth t ty) := by
  unfold Emit.pushTruth
  split
  · exact bare rfl
  · exact seq (bare rfl) fun _ => wrapIf

theorem logical (hl : l.Keeps P) (hr : r.Keeps P) {op : LogicalOp} :
    P.Ok own exit (logical op l r ty exit) := by
  refine ite mismatch <| ite mismatch <| ite mismatch ?_
  split
  · exact seq pushTruth fun _ => done
  · exact ite (liftedLogical hl hr) (label fun _ => seq hl.value fun _ =>
      seq (decides (bare rfl) (.instr nofun) (by simp) fun _ => cons (bare rfl) nil) fun _ =>
      seq hr.value fun _ => seq (P.mark (by simp)) fun _ => seq wrapIf fun _ => done)

/-- A coalescing. -/
theorem coalesce (hl : l.Keeps P) (hr : r.Keeps P) : P.Ok own exit (coalesce l r ty exit) := by
  refine seq (P.read fun _ _ _ => rfl) fun _ => ite mismatch <|
    ite (seq tyText fun _ => mismatch) <| ite ?_ ?_
  · exact P.withTemps (label fun _ => label fun _ => seq hl.guarded fun _ =>
      after spill fun _ hslot =>
      seq (cons (loadLocal hslot) (cons (bare rfl) (cons (test ⟨rfl, rfl, rfl, rfl⟩ rfl (by simp)) nil)))
        fun _ =>
      seq (loadLocal hslot) fun _ => seq unwrapIf fun _ => seq (jump (by simp)) fun _ =>
      seq (P.mark (by simp)) fun _ => seq hr.value fun _ => seq wrapIf fun _ =>
      seq (P.mark (by simp)) fun _ => done)
  · exact label fun _ => seq hl.guarded fun _ =>
      seq (cons (bare rfl) (cons (test ⟨rfl, rfl, rfl, rfl⟩ rfl (by simp)) (cons (bare rfl) nil))) fun _ =>
      seq hr.value fun _ => seq (P.mark (by simp)) fun _ => done

/-! ## Places -/

theorem accessor {p : PropertyRef} {which : Accessor} : P.Ok own exit (accessor p which) := by
  refine seq lookup fun d => ?_
  dsimp only
  split
  · exact done
  · exact seq (P.read fun _ _ _ => rfl) fun _ => P.fail nofun

theorem loadLocals {slots : List Nat} (h : ∀ n ∈ slots, P.Slot n) :
    P.Ok own exit (Emit.instrs (slots.map Instr.loadLocal)) := by
  refine forM fun i hi => ?_
  obtain ⟨slot, hslot, rfl⟩ := List.mem_map.mp hi
  exact loadLocal (h slot hslot)

section

variable {p : Place} (hp : p.Fits P)

include hp

/-- A loaded place. -/
theorem loadPlace : P.Ok own exit (loadPlace p) := by
  have hoperands : P.Ok own exit (Emit.loadPlaceOperands p) := loadLocals hp.operands
  unfold Emit.loadPlace
  split
  · next slot hkind => exact loadVar (hp.kind slot hkind)
  · exact after closureTable fun _ htable => P.loadTable _ _ htable
  · exact seq hoperands fun _ => bare rfl
  · exact bare rfl
  · exact seq accessor fun _ => seq hoperands fun _ => bare rfl
  · exact seq hoperands fun _ => bare rfl
  · exact seq hoperands fun _ => bare rfl
  · exact seq hoperands fun _ => bare rfl

/-- A stored place. -/
theorem storePlace {slot : Nat} (hslot : P.Slot slot) : P.Ok own exit (storePlace p slot) := by
  have hstore : ∀ i : Instr, i.isSimple = true → P.Ok own exit (do
      Emit.loadPlaceOperands p
      Emit.instrs [.loadLocal slot, i]) := fun i hi =>
    seq (loadLocals hp.operands) fun _ => cons (loadLocal hslot) (cons (bare hi) nil)
  unfold Emit.storePlace
  dsimp only
  split
  · next target hkind => exact seq (loadLocal hslot) fun _ => storeVar (hp.kind target hkind)
  · exact after closureTable fun _ htable => P.storeTable _ _ htable hslot
  · exact hstore _ rfl
  · exact cons (loadLocal hslot) (cons (bare rfl) nil)
  · exact seq accessor fun _ => hstore _ rfl
  · exact hstore _ rfl
  · exact hstore _ rfl
  · exact hstore _ rfl

/-- The loaded address of a place. -/
theorem loadPlaceAddr : P.Ok own exit (loadPlaceAddr p) := by
  have hoperands : P.Ok own exit (Emit.loadPlaceOperands p) := loadLocals hp.operands
  unfold Emit.loadPlaceAddr
  split
  · next slot hkind => exact seq (loadVarAddr (hp.kind slot hkind)) fun _ => done
  · exact seq hoperands fun _ => seq (bare rfl) fun _ => done
  · exact seq (bare rfl) fun _ => done
  · exact seq hoperands fun _ => seq (bare rfl) fun _ => done
  · exact done

end

/-- A new instance. -/
theorem pushNew : P.Ok own exit (pushNew ty) := by
  unfold Emit.pushNew
  split
  · refine seq (P.read fun _ _ _ => rfl) fun _ => ?_
    split
    · exact bare rfl
    · exact seq tyText fun _ => P.fail nofun
  · exact seq int fun _ => bare rfl
  · exact bare rfl
  · exact seq tyText fun _ => P.fail nofun

theorem createdPlace {p : Place} (hp : p.Fits P) : P.Yields own exit (createdPlace p) P.Slot := by
  refine seq (loadPlace hp) fun _ => after spill fun slot hslot => ite ?_ (give hslot)
  exact label fun _ =>
    seq (cons (loadLocal hslot) (cons (test ⟨rfl, rfl, rfl, rfl⟩ rfl (by simp)) nil)) fun _ =>
    seq pushNew fun _ => seq (storeLocal hslot) fun _ => seq (storePlace hp hslot) fun _ =>
    seq (P.mark (by simp)) fun _ => give hslot

theorem indexOperand (hn : n.Keeps P) : P.Ok own exit (indexOperand n exit) := by
  refine seq hn.value fun _ => ?_
  split
  · exact ite done (seq (bare rfl) fun _ => done)
  · exact mismatch

theorem spillIndices {args : List Node} (h : ∀ a ∈ args, a.Keeps P) :
    P.Yields own exit (spillIndices exit args) fun r => ∀ n ∈ r.1, P.Slot n := by
  induction args with
  | nil => exact give fun _ hn => absurd hn List.not_mem_nil
  | cons arg args ih =>
      obtain ⟨harg, hargs⟩ := List.forall_mem_cons.mp h
      exact seq (indexOperand harg) fun _ => after spill fun _ hslot => after (ih hargs) fun _ hrest =>
        give (List.forall_mem_cons.mpr ⟨hslot, hrest⟩)

theorem boundsCheck {kind : PlaceKind} {container : Nat} (hcontainer : P.Slot container)
    {indices : List Nat} (h : ∀ n ∈ indices, P.Slot n) :
    P.Ok own exit (boundsCheck kind container indices exit) := by
  cases exit with
  | some pad =>
      exact seq (P.read fun _ _ _ => rfl) fun _ =>
        ite (seq (checkIndices hcontainer h) fun _ => done) done
  | none => exact done

/-- An element of a container that is grown. -/
theorem grownElement (hl : l.Keeps P) (hr : r.Keeps P) {kind : PlaceKind} :
    P.Yields own exit (grownElement kind l r exit) fun r => P.Slot r.1 ∧ P.Slot r.2.1 := by
  refine after (hl.place _ _ _) fun _ hp => seq (indexOperand hr) fun _ =>
    after spill fun _ hindex => after (createdPlace hp) fun _ hcontainer => ?_
  have hloads : ∀ {is : List Instr}, P.Ok own exit (Emit.instrs is) →
      P.Ok own exit (Emit.instrs (.loadLocal _ :: .loadLocal _ :: is)) := fun h =>
    cons (loadLocal hcontainer) (cons (loadLocal hindex) h)
  split
  · exact after P.helper fun _ hchild => seq (hloads nil) fun _ => seq int fun _ =>
      seq (cons (bare rfl) (cons (callChild hchild) nil)) fun _ => give ⟨hcontainer, hindex⟩
  · exact after P.helper fun _ hchild =>
      seq (hloads (cons (callChild hchild) (cons (storeLocal hcontainer) nil))) fun _ =>
      seq (storePlace hp hcontainer) fun _ => give ⟨hcontainer, hindex⟩

theorem fits_of_operands {kind : PlaceKind} (hkind : ∀ slot, kind ≠ .var slot)
    {receiver : Option Nat} {indices : List Nat} (h : ∀ n ∈ receiver.toList ++ indices, P.Slot n) :
    Place.Fits P ⟨kind, receiver, indices, ty⟩ :=
  ⟨fun slot hslot => absurd hslot (hkind slot), h⟩

theorem elementKind_ne {container : Ty} {kind : PlaceKind} {rank : Nat}
    (h : elementKind? container = some (kind, rank)) (slot : VarSlot) : kind ≠ .var slot := by
  rintro rfl
  unfold Emit.elementKind? at h
  split at h <;> cases h

/-- An element as a place. -/
theorem elementPlace (hl : l.Keeps P) {args : List Node} (hargs : ∀ a ∈ args, a.Keeps P)
    {extend : Bool} :
    P.Yields own exit (elementPlace ty l args exit extend) fun r => r.1.Fits P := by
  unfold Emit.elementPlace
  split
  · exact mismatch
  · next kind rank hkind =>
      refine ite (seq tyText fun _ => P.fail nofun) ?_
      -- The container and the indices are in temporaries, however they were prepared.
      have hplain : P.Yields own exit (do
          let emitted ← l.receiver exit .value false
          let container ← Emit.spill l.ty
          let indices ← Emit.spillIndices exit args
          Pure.pure (container, indices.1, emitted.usedExit || indices.2))
          fun r => P.Slot r.1 ∧ ∀ n ∈ r.2.1, P.Slot n :=
        seq hl.receiver fun _ => after spill fun _ hcontainer =>
          after (spillIndices hargs) fun _ hindices => give ⟨hcontainer, hindices⟩
      have hfinish : ∀ {prepared : Emit (Nat × List Nat × Bool)},
          P.Yields own exit prepared (fun r => P.Slot r.1 ∧ ∀ n ∈ r.2.1, P.Slot n) →
          P.Yields own exit (do
            let p ← prepared
            let checked ← Emit.boundsCheck kind p.1 p.2.1 exit
            Pure.pure ((⟨kind, some p.1, p.2.1, ty⟩ : Place), p.2.2 || checked))
            fun r => r.1.Fits P := by
        intro prepared hprepared
        refine after hprepared fun r hr => seq (boundsCheck hr.1 hr.2) fun _ => give ?_
        exact fits_of_operands (elementKind_ne hkind) (List.forall_mem_cons.mpr hr)
      refine hfinish ?_
      split
      · exact hplain
      · next arg _ =>
          refine ite (after (grownElement hl (hargs arg List.mem_cons_self)) fun _ hr => ?_) hplain
          exact give ⟨hr.1, List.forall_mem_singleton.mpr hr.2⟩
      · exact hplain

theorem spillReceiver (hn : n.Keeps P) {extend : Bool} :
    P.Yields own exit (spillReceiver n exit extend) fun r => P.Slot r.1 :=
  seq hn.receiver fun _ => after spill fun _ hslot => give hslot

theorem instanceReceiver {receiver : Option Node} {what : String} {Q : Node → Prop}
    (h : ∀ n ∈ receiver.toList, Q n) : P.Yields own exit (instanceReceiver receiver what) Q := by
  cases receiver with
  | some n => exact give (h n List.mem_cons_self)
  | none => exact P.fail nofun

theorem fieldPlace {f : FieldRef} {receiver : Option Node} (h : ∀ n ∈ receiver.toList, n.Keeps P)
    {extend : Bool} :
    P.Yields own exit (fieldPlace ty f receiver exit extend) fun r => r.1.Fits P := by
  refine seq lookup fun _ => ite (give ?_) <| after (instanceReceiver h) fun _ hn =>
    after (spillReceiver hn) fun _ hslot => give ?_
  · exact fits_of_operands (by rintro _ ⟨⟩) fun _ hn => absurd hn List.not_mem_nil
  · exact fits_of_operands (by rintro _ ⟨⟩) (List.forall_mem_singleton.mpr hslot)

theorem spillArgs {args : List Node} (h : ∀ a ∈ args, a.Keeps P) :
    P.Yields own exit (spillArgs exit args) fun r => ∀ n ∈ r.1, P.Slot n := by
  induction args with
  | nil => exact give fun _ hn => absurd hn List.not_mem_nil
  | cons arg args ih =>
      obtain ⟨harg, hargs⟩ := List.forall_mem_cons.mp h
      exact seq harg.value fun _ => after spill fun _ hslot => after (ih hargs) fun _ hrest =>
        give (List.forall_mem_cons.mpr ⟨hslot, hrest⟩)

/-- A property as a place. -/
theorem propertyPlace {p : PropertyRef} {receiver : Option Node} {args : List Node}
    (h : ∀ n ∈ receiver.toList, n.Keeps P) (hargs : ∀ a ∈ args, a.Keeps P) {extend : Bool} :
    P.Yields own exit (propertyPlace ty p receiver args exit extend) fun r => r.1.Fits P := by
  have hfinish : ∀ {slot : Option Nat} {used : Bool}, (∀ n ∈ slot.toList, P.Slot n) →
      P.Yields own exit (do
        let indices ← Emit.spillArgs exit args
        Pure.pure ((⟨.property p, slot, indices.1, ty⟩ : Place), used || indices.2))
        fun r => r.1.Fits P := by
    intro slot used hslot
    refine after (spillArgs hargs) fun _ hindices => give ?_
    exact fits_of_operands (by rintro _ ⟨⟩) (List.forall_mem_append.mpr ⟨hslot, hindices⟩)
  have hreceiver : ∀ {prepared : Option Nat × Bool}, (∀ n ∈ prepared.1.toList, P.Slot n) →
      P.Yields own exit (Pure.pure prepared) fun r => ∀ n ∈ r.1.toList, P.Slot n := fun h => give h
  refine seq lookup fun _ => ite (P.fail nofun) (ite ?_ ?_)
  · exact after (hreceiver fun _ hn => absurd hn List.not_mem_nil) fun _ => hfinish
  · exact after (instanceReceiver h) fun _ hn => after (spillReceiver hn) fun _ hslot =>
      after (hreceiver (List.forall_mem_singleton.mpr hslot)) fun _ => hfinish

/-- A node as a place. -/
theorem placeOf {k : ExprKind Node} (hk : ∀ n ∈ k.children, n.Keeps P) {extend : Bool} :
    P.Yields own exit (placeOf k ty exit extend) fun r => r.1.Fits P := by
  unfold Emit.placeOf
  split
  · refine after P.varSlot fun v hv => give ⟨fun slot hslot => ?_, ?_⟩
    · cases hslot
      exact hv
    · exact fun _ hn => absurd hn List.not_mem_nil
  · exact after closureTable fun _ _ => give (fits_of_operands (by rintro _ ⟨⟩)
      fun _ hn => absurd hn List.not_mem_nil)
  · exact fieldPlace hk
  · exact propertyPlace hk fun _ h => absurd h List.not_mem_nil
  · next receiver args p =>
      obtain ⟨hreceiver, hargs⟩ := List.forall_mem_cons.mp hk
      exact propertyPlace (by simpa using hreceiver) hargs
  · next receiver args =>
      obtain ⟨hreceiver, hargs⟩ := List.forall_mem_cons.mp hk
      exact elementPlace hreceiver hargs
  · exact P.fail nofun

/-! ## Reads -/

theorem requireReceiver {receiver : Option Node} {what : String} {Q : Node → Prop}
    (h : ∀ n ∈ receiver.toList, Q n) : P.Yields own exit (requireReceiver receiver what) Q := by
  cases receiver with
  | some n => exact give (h n List.mem_cons_self)
  | none => exact P.fail nofun

theorem checkMember {declared node : Ty} {what : String} :
    P.Ok own exit (checkMember declared node what) :=
  seq (P.read fun _ _ _ => rfl) fun _ => ite done (seq tyText fun _ => mismatch)

theorem field {f : FieldRef} {receiver : Option Node} (h : ∀ n ∈ receiver.toList, n.Keeps P)
    {shape : Shape} : P.Ok own exit (field f receiver ty exit shape) := by
  refine seq lookup fun _ => seq (P.read fun _ _ _ => rfl) fun _ => seq checkMember fun _ => ite ?_ ?_
  · refine seq (bare ?_) fun _ => done
    split <;> rfl
  · refine after (requireReceiver h) fun _ hn => seq hn.receiver fun _ =>
      seq (bare ?_) fun _ => done
    split <;> rfl

theorem property {p : PropertyRef} {receiver : Option Node}
    (h : ∀ n ∈ receiver.toList, n.Keeps P) : P.Ok own exit (property p receiver ty exit) := by
  refine seq lookup fun _ => ite (P.fail nofun) (seq (P.read fun _ _ _ => rfl) fun _ => seq checkMember fun _ =>
    seq accessor fun _ => ite ?_ ?_)
  · exact seq done fun _ => seq (bare rfl) fun _ => done
  · exact after (requireReceiver h) fun _ hn => seq hn.receiver fun _ => seq done fun _ =>
      seq (bare rfl) fun _ => done

theorem measure (hn : n.Keeps P) {i : Instr} (hi : i.isSimple = true) :
    P.Ok own exit (measure n i ty exit) :=
  seq hn.receiver fun _ => seq (bare hi) fun _ => done

/-- A member. -/
theorem member {receiver : Option Node} (h : ∀ n ∈ receiver.toList, n.Keeps P) {m : Member}
    {shape : Shape} : P.Ok own exit (member receiver m ty exit shape) := by
  cases m with
  | field f => exact field h
  | property p => exact property h
  | arrayLength =>
      refine after (requireReceiver h) fun n hn => ?_
      split
      · exact measure hn rfl
      · exact mismatch
  | listCount =>
      refine after (requireReceiver h) fun n hn => ?_
      split
      · exact measure hn rfl
      · exact mismatch
  | strLength =>
      refine after (requireReceiver h) fun n hn => ?_
      split
      · exact measure hn rfl
      · exact mismatch
  | hasValue =>
      exact after (requireReceiver h) fun n hn =>
        ite (seq hn.value fun _ => seq (bare rfl) fun _ => done) mismatch
  | value =>
      exact after (requireReceiver h) fun n hn =>
        ite (seq hn.value fun _ => seq nullCheck fun _ => seq (bare rfl) fun _ => done) mismatch

/-- The index of an element that is read directly is its argument. -/
theorem mem_of_directIndex {args : List Node} {indexer : Option PropertyRef} {o : Options} {arg : Node}
    (h : directIndex? n args indexer o exit = some arg) : arg ∈ args := by
  unfold Emit.directIndex? at h
  split at h
  · split at h
    · cases h
    · cases h
      exact List.mem_cons_self
  · cases h

section

variable {place : Option Label → Bool → Emit (Place × Bool)}
  (hplace : ∀ own exit extend, P.Yields own exit (place exit extend) fun r => r.1.Fits P)

include hplace

/-- An element. -/
theorem index (hn : n.Keeps P) {args : List Node} (hargs : ∀ a ∈ args, a.Keeps P)
    {indexer : Option PropertyRef} {shape : Shape} :
    P.Ok own exit (index n args indexer ty exit shape place) := by
  refine seq (P.read fun _ _ _ => rfl) fun o => ?_
  split
  · next arg harg =>
      exact seq hn.receiver fun _ => seq (indexOperand (hargs arg (mem_of_directIndex harg))) fun _ =>
        ite (seq (bare rfl) fun _ => done) (seq (bare rfl) fun _ => done)
  · refine P.withTemps (after (hplace _ _ _) fun _ hp => ?_)
    exact ite (seq (loadPlaceAddr hp) fun _ => ite done (seq (loadPlace hp) fun _ => done))
      (seq done fun _ => ite done (seq (loadPlace hp) fun _ => done))

theorem created : P.Ok own exit (created ty exit place) :=
  P.withTemps (after (hplace _ _ _) fun _ hp => after (createdPlace hp) fun _ hslot =>
    seq (loadLocal hslot) fun _ => done)

end

/-! ## Assignments -/

theorem assigned {slot : Nat} (hslot : P.Slot slot) {keep used : Bool} :
    P.Ok own exit (assigned ty slot keep used) :=
  ite (seq (loadLocal hslot) fun _ => done) done

theorem stepped {op : ArithOp} {k : NumKind} {checked : Bool} {old : Operand} (ho : P.Slot old.slot) :
    P.Ok own exit (stepped op k checked old) :=
  ite (lifted (List.forall_mem_singleton.mpr ho) (bare rfl) (seq (loadInner ho) fun _ => bares rfl))
    (seq (loadLocal ho) fun _ => bares rfl)

/-- An assignment. -/
theorem assign (hn : n.Keeps P) {value : Option Node} (hvalue : ∀ v ∈ value.toList, v.Keeps P)
    {op : AssignOp} {checked autoExtend : Bool} {shape : Shape} :
    P.Ok own exit (assign op n value checked autoExtend exit shape) := by
  refine seq (P.read fun _ _ _ => rfl) fun _ => ?_
  dsimp only
  split
  · unfold Emit.step
    split
    · exact mismatch
    · refine P.withTemps (after (hn.place _ _ _) fun _ hp => seq (loadPlace hp) fun _ =>
        after spillOperand fun _ hold => seq (stepped hold) fun _ => after spill fun _ hslot =>
        seq (storePlace hp hslot) fun _ => assigned ?_)
      split
      · exact hold
      · exact hslot
  · next value _ =>
      have hvalue : value.Keeps P := hvalue value List.mem_cons_self
      split
      · exact P.withTemps (after (hn.place _ _ _) fun _ hp => seq hvalue.value fun _ =>
          seq coerce fun _ => after spill fun _ hslot => seq (storePlace hp hslot) fun _ =>
          assigned hslot)
      · exact seq checkBinary fun _ => P.withTemps (after (hn.place _ _ _) fun _ hp =>
          seq (loadPlace hp) fun _ => after spillOperand fun _ hold => seq hvalue.value fun _ =>
          after spillOperand fun _ hoperand => seq (binarySlots hold hoperand) fun _ =>
          after spill fun _ hslot => seq (storePlace hp hslot) fun _ => assigned hslot)
  · exact P.fail nofun

/-! ## Calls and construction -/

/-- An argument; one that is passed by address has no exit. -/
theorem argument (hn : n.Keeps P) {what : String} {param : Ty × Bool} :
    P.Ok own exit (argument what n param exit) := by
  have haddress : P.Ok own exit (n.emit none .address false) :=
    P.weaken (hn.emit own none _ _) (fun _ h => h) (fun _ hl => nomatch hl) fun _ h => h
  exact ite (ite (seq haddress fun _ => done) (seq tyText fun _ => mismatch))
    (seq hn.value fun _ => seq coerce fun _ => done)

theorem eachArgument {what : String} : ∀ {args : List (Node × Ty × Bool)},
    (∀ a ∈ args, a.1.Keeps P) → P.Ok own exit (eachArgument what exit args)
  | [], _ => done
  | _ :: _, h =>
      seq (argument (h _ List.mem_cons_self)) fun _ =>
        seq (eachArgument fun a ha => h a (List.mem_cons_of_mem _ ha)) fun _ => done

theorem arguments {what : String} {params : List (Ty × Bool)} {args : List Node}
    (h : ∀ a ∈ args, a.Keeps P) : P.Ok own exit (arguments what params args exit) :=
  ite (P.fail nofun) (eachArgument fun a ha => h a.1 (List.of_mem_zip ha).1)

theorem callResult {ret : Ty} {used : Bool} : P.Ok own exit (callResult ret ty used) :=
  ite done (ite (seq (bare rfl) fun _ => done) done)

/-- A call of a method. -/
theorem call {receiver : Option Node} (hreceiver : ∀ n ∈ receiver.toList, n.Keeps P)
    {args : List Node} (hargs : ∀ a ∈ args, a.Keeps P) {method : MethodRef} :
    P.Ok own exit (call method receiver args ty exit) := by
  have hkind : ∀ sig, P.Ok own exit (methodKind method sig) := by
    intro sig
    cases method with
    | method ty i => exact seq lookup fun _ => done
    | intrinsic op => exact done
  refine seq lookup fun _ => seq (hkind _) fun _ => seq (P.read fun _ _ _ => rfl) fun _ => ?_
  dsimp only
  split
  · next receiver =>
      exact seq (hreceiver receiver List.mem_cons_self).receiver fun _ =>
        seq (arguments hargs) fun _ => seq (bare rfl) fun _ => callResult
  · exact P.fail nofun
  · next receiver =>
      have hall : ∀ a ∈ receiver :: args, a.Keeps P :=
        List.forall_mem_cons.mpr ⟨hreceiver receiver List.mem_cons_self, hargs⟩
      exact seq (arguments hall) fun _ => seq (bare rfl) fun _ => callResult
  · exact P.fail nofun
  · exact P.fail nofun
  · exact seq (arguments hargs) fun _ => seq (bare rfl) fun _ => callResult

theorem invoke (hn : n.Keeps P) {args : List Node} (hargs : ∀ a ∈ args, a.Keeps P) :
    P.Ok own exit (invoke n args ty exit) := by
  unfold Emit.invoke
  split
  · exact seq hn.receiver fun _ => seq (arguments hargs) fun _ => seq (bare rfl) fun _ =>
      callResult
  · exact mismatch

/-- A new value without constructor arguments. -/
theorem newPlain : P.Ok own exit (newPlain ty) := by
  unfold Emit.newPlain
  split
  · exact P.withTemps (after P.temp fun _ hslot => P.zeroed _ hslot)
  · refine seq (P.read fun _ _ _ => rfl) fun _ => ?_
    split
    · exact bare rfl
    · exact seq tyText fun _ => P.fail nofun
  · exact bare rfl
  · exact seq tyText fun _ => P.fail nofun

theorem construct {ctor : Option MethodRef} {args : List Node} (h : ∀ a ∈ args, a.Keeps P) :
    P.Ok own exit (construct ctor args ty exit) := by
  cases ctor with
  | some method =>
      exact seq lookup fun _ => seq (P.read fun _ _ _ => rfl) fun _ => seq (arguments h) fun _ =>
        seq (bare rfl) fun _ => done
  | none => exact ite (seq newPlain fun _ => done) (seq tyText fun _ => P.fail nofun)

theorem arrayItems {elem : Ty} : ∀ {i : Nat} {items : List Node}, (∀ n ∈ items, n.Keeps P) →
    P.Ok own exit (arrayItems elem exit i items)
  | _, [], _ => done
  | _, _ :: _, h =>
      seq (bare rfl) fun _ => seq int fun _ => seq (h _ List.mem_cons_self).value fun _ =>
        seq coerce fun _ => seq (bare rfl) fun _ =>
        seq (arrayItems fun n hn => h n (List.mem_cons_of_mem _ hn)) fun _ => done

theorem arrayBounds : ∀ {bounds : List Node}, (∀ n ∈ bounds, n.Keeps P) →
    P.Ok own exit (arrayBounds exit bounds)
  | [], _ => done
  | _ :: _, h =>
      seq (indexOperand (h _ List.mem_cons_self)) fun _ =>
        seq (arrayBounds fun n hn => h n (List.mem_cons_of_mem _ hn)) fun _ => done

theorem newArray {elem : Ty} {init : ArrayInit Node}
    (h : ∀ n ∈ (ExprKind.newArray elem init).children, n.Keeps P) :
    P.Ok own exit (newArray elem init ty exit) := by
  unfold Emit.newArray
  split
  · exact seq int fun _ => seq (bare rfl) fun _ => seq (arrayItems h) fun _ => done
  · exact P.fail nofun
  · refine seq (arrayBounds h) fun _ => seq (bare ?_) fun _ => done
    split <;> rfl

theorem elementInit {item : ElementInit Node} (h : ∀ a ∈ item.args, a.Keeps P) :
    P.Ok own exit (elementInit item exit) :=
  seq lookup fun _ => seq (P.read fun _ _ _ => rfl) fun _ => seq (bare rfl) fun _ =>
    seq (arguments h) fun _ =>
    seq (bare rfl) fun _ => ite (seq (bare rfl) fun _ => done) done

theorem elementInits : ∀ {items : List (ElementInit Node)},
    (∀ a ∈ items.flatMap (·.args), a.Keeps P) → P.Ok own exit (elementInits exit items)
  | [], _ => done
  | _ :: _, h => by
      rw [List.flatMap_cons, List.forall_mem_append] at h
      exact seq (elementInit h.1) fun _ => seq (elementInits h.2) fun _ => done

theorem listInit (hn : n.Keeps P) {items : List (ElementInit Node)}
    (h : ∀ a ∈ items.flatMap (·.args), a.Keeps P) : P.Ok own exit (listInit n items exit) :=
  seq hn.value fun _ => seq (elementInits h) fun _ => done

theorem storeMember {m : MemberTarget} : P.Ok own exit (storeMember m ty) := by
  cases m with
  | field f => exact seq lookup fun _ => seq coerce fun _ => bare rfl
  | property p => exact seq lookup fun _ => seq coerce fun _ => seq accessor fun _ => bare rfl

theorem loadMember {m : MemberTarget} : P.Ok own exit (loadMember m) := by
  cases m with
  | field f =>
      refine seq lookup fun _ => bare ?_
      split <;> rfl
  | property p => exact seq lookup fun _ => ite (P.fail nofun) (seq accessor fun _ => bare rfl)

mutual

/-- A binding. -/
theorem binding : (b : Binding Node) → (∀ n ∈ b.children, n.Keeps P) →
    P.Ok own exit (binding exit b)
  | .assign _ _, h =>
      seq (h _ List.mem_cons_self).value fun _ => seq storeMember fun _ => done
  | .member _ bindings, h =>
      seq loadMember fun _ => seq (eachBinding (bare rfl) bindings h) fun _ =>
        seq (bare rfl) fun _ => done
  | .list _ _, h =>
      seq loadMember fun _ => seq (elementInits h) fun _ => seq (bare rfl) fun _ => done
  termination_by structural b => b

theorem eachBinding {load : Emit Unit} (hload : P.Ok own exit load) : (bs : List (Binding Node)) →
    (∀ n ∈ Binding.childrenList bs, n.Keeps P) → P.Ok own exit (eachBinding exit load bs)
  | [], _ => done
  | b :: bs, h =>
      have h := List.forall_mem_append.mp h
      seq hload fun _ => seq (binding b h.1) fun _ => seq (eachBinding hload bs h.2) fun _ => done
  termination_by structural bs => bs

end

theorem memberInit (hn : n.Keeps P) {bindings : List (Binding Node)}
    (h : ∀ m ∈ Binding.childrenList bindings, m.Keeps P) :
    P.Ok own exit (memberInit n bindings exit) :=
  ite (P.withTemps (seq hn.value fun _ => after spill fun _ hslot =>
      seq (eachBinding (loadLocalAddr hslot) bindings h) fun _ =>
      seq (loadLocal hslot) fun _ => done))
    (seq hn.value fun _ => seq (eachBinding (bare rfl) bindings h) fun _ => done)

/-! ## Conversions -/

theorem boxedOperand (hn : n.Keeps P) : P.Ok own exit (boxedOperand n exit) :=
  seq hn.value fun _ => ite (seq (bare rfl) fun _ => done) done

theorem typeTest (hn : n.Keeps P) {target : Ty} {exact : Bool} :
    P.Ok own exit (typeTest n target exact exit) :=
  seq (boxedOperand hn) fun _ => seq (bares rfl) fun _ => done

theorem typeAs (hn : n.Keeps P) : P.Ok own exit (typeAs n ty exit) :=
  ite mismatch <| seq (boxedOperand hn) fun _ => seq (bare rfl) fun _ =>
    ite (seq (bare rfl) fun _ => done) done

theorem noConversion {source target : Ty} : P.Ok own exit (noConversion source target : Emit α) :=
  seq tyText fun _ => seq tyText fun _ => P.fail nofun

theorem plainConversion {source target : Ty} : P.Ok own exit (plainConversion source target) :=
  ite (ite done (bare rfl)) <| ite done <| ite (bare rfl) <| ite (bare rfl) <|
    ite (ite (bare rfl) noConversion) <| ite (ite (bare rfl) noConversion) <|
    ite (seq (P.read fun _ _ _ => rfl) fun _ => ite done (bare rfl)) noConversion

/-- A numeric conversion. -/
theorem numericConversion (hn : n.Keeps P) {source target : NumKind} {checked : Bool} :
    P.Ok own exit (numericConversion n source target checked ty exit) := by
  have hconversion : P.Ok own exit
      (Emit.instrs (if source = target then [] else [.conv target checked])) := by
    split
    · exact nil
    · exact bares rfl
  refine ite (P.withTemps ?_) ?_
  · exact seq hn.value fun _ => after spillOperand fun _ ho =>
      seq (lifted (List.forall_mem_singleton.mpr ho) (bare rfl)
        (seq (loadInner ho) fun _ => hconversion)) fun _ => done
  · exact seq hn.value fun _ => seq unwrapIf fun _ => seq hconversion fun _ => seq wrapIf fun _ => done

/-- A conversion that a method implements. -/
theorem userConversion (hn : n.Keeps P) {method : MethodRef} :
    P.Ok own exit (userConversion n method ty exit) := by
  refine seq lookup fun _ => seq (P.read fun _ _ _ => rfl) fun _ => ?_
  dsimp only
  split
  · refine ite ?_ (ite (seq tyText fun _ => mismatch) (P.withTemps ?_))
    · exact seq hn.value fun _ => seq coerce fun _ => seq (bare rfl) fun _ =>
        seq plainConversion fun _ => done
    · exact seq hn.value fun _ => after spillOperand fun _ ho =>
        seq (lifted (List.forall_mem_singleton.mpr ho) pushDefault
          (seq (loadInner ho) fun _ => bare rfl)) fun _ => done
  · exact P.fail nofun

/-- A conversion. -/
theorem convert (hn : n.Keeps P) {checked : Bool} {method : Option MethodRef} :
    P.Ok own exit (convert n checked method ty exit) := by
  cases method with
  | some m => exact userConversion hn
  | none =>
      unfold Emit.convert
      dsimp only
      split
      · exact numericConversion hn
      · exact seq hn.value fun _ => seq plainConversion fun _ => done

/-! ## Control flow -/

theorem checkBranches {branches : List Node} : P.Ok own exit (checkBranches ty branches) :=
  ite done (forM fun _ _ => checkBranch)

theorem conditional {test ifTrue ifFalse : Node} (htest : test.Keeps P) (htrue : ifTrue.Keeps P)
    (hfalse : ifFalse.Keeps P) {shape : Shape} :
    P.Ok own exit (conditional test ifTrue ifFalse ty exit shape) :=
  ite mismatch (seq checkBranches fun _ => label fun _ => label fun _ =>
    seq htest.guarded fun _ => seq (ite (bare rfl) done) fun _ =>
    seq (Policy.test ⟨rfl, rfl, rfl, rfl⟩ rfl (by simp)) fun _ => seq htrue.branch fun _ =>
    seq (jump (by simp)) fun _ => seq (P.mark (by simp)) fun _ => seq hfalse.branch fun _ =>
    seq (P.mark (by simp)) fun _ => done)

theorem statement (hn : n.Keeps P) : P.Ok own exit (statement n) :=
  seq (P.landing hn.fit fun _ _ => hn.emit _ _ _ _) fun _ => done

theorem statements {shape : Shape} : ∀ {nodes : List Node}, (∀ n ∈ nodes, n.Keeps P) →
    P.Ok own exit (statements ty exit shape nodes)
  | [], _ => seq pushDefault fun _ => done
  | [_], h =>
      have hn := h _ List.mem_cons_self
      ite (seq hn.effect fun _ => done) <| seq checkBranch fun _ =>
        ite (hn.emit _ _ _ _) (seq hn.branch fun _ => done)
  | _ :: _ :: _, h =>
      seq (statement (h _ List.mem_cons_self)) fun _ =>
        statements fun n hn => h n (List.mem_cons_of_mem _ hn)

theorem block {vars : List Variable} {nodes : List Node} (h : ∀ n ∈ nodes, n.Keeps P)
    {shape : Shape} : P.Ok own exit (block vars nodes ty exit shape) :=
  P.withTemps (P.withLocals (statements h))

theorem throw {operand : Option Node} (h : ∀ n ∈ operand.toList, n.Keeps P) :
    P.Ok own exit (throw operand) := by
  cases operand with
  | none => exact seq (bare rfl) fun _ => done
  | some n =>
      exact ite (seq (h n List.mem_cons_self).guarded fun _ => seq (bare rfl) fun _ => done)
        (seq mismatch fun _ => done)

/-! ## Switches -/

theorem keyTargets_subset {keys : List (List CaseKey)} {labels : List Label} {e : CaseKey × Label}
    (h : e ∈ keyTargets keys labels) : e.2 ∈ labels := by
  obtain ⟨⟨ks, l⟩, hzip, he⟩ := List.mem_flatMap.mp h
  obtain ⟨k, -, rfl⟩ := List.mem_map.mp he
  exact (List.of_mem_zip hzip).2

/-- The label for null is that of a case or the default. -/
theorem nullTarget_mem {targets : List (CaseKey × Label)} {fallback : Label}
    (htargets : ∀ e ∈ targets, e.2 ∈ own) (hfallback : fallback ∈ own) :
    nullTarget targets fallback ∈ own := by
  unfold Emit.nullTarget
  cases hfind : targets.find? fun e => e.1.isNull with
  | none => exact hfallback
  | some e => exact htargets e (List.mem_of_find?_eq_some hfind)

theorem bucketEntries_subset {size : Nat} {targets : List (CaseKey × Label)} {e : BucketEntry}
    (htargets : ∀ e ∈ targets, e.2 ∈ own) (h : e ∈ bucketEntries size targets) : e.target ∈ own := by
  obtain ⟨⟨k, l⟩, hmem, he⟩ := List.mem_filterMap.mp h
  obtain ⟨s, -, rfl⟩ := Option.map_eq_some_iff.mp he
  exact htargets _ hmem

/-- Labels of buckets. -/
theorem bucketLabels {fallback : Label} (hfallback : fallback ∈ own)
    {buckets : List (List BucketEntry)} :
    P.Holds own exit (bucketLabels fallback buckets) id fun _ => True := by
  induction buckets generalizing own with
  | nil => exact P.pure trivial fun _ h => absurd h List.not_mem_nil
  | cons b rest ih =>
      have hrest : ∀ {own : List Label} {l : Label}, fallback ∈ own → l ∈ own → P.Holds own exit (do
          let ls ← Emit.bucketLabels fallback rest
          Pure.pure (l :: ls)) id fun _ => True := fun hfallback hl =>
        P.bind (ih hfallback) fun ls _ => P.pure trivial (List.forall_mem_cons.mpr
          ⟨List.mem_append_right _ hl, fun _ hm => List.mem_append_left _ hm⟩)
      unfold Emit.bucketLabels
      dsimp only
      split
      · have hempty : P.Yields own exit (Pure.pure fallback) (· = fallback) := give rfl
        exact after hempty fun _ hl => hrest hfallback (hl ▸ hfallback)
      · exact label fun _ => hrest (List.mem_cons_of_mem _ hfallback) List.mem_cons_self

theorem bucketCode {plain : Nat} (hplain : P.Slot plain) {fallback start : Label}
    (hfallback : fallback ∈ own) (hstart : start ∈ own) {bucket : List BucketEntry}
    (hbucket : ∀ e ∈ bucket, e.target ∈ own) : P.Ok own exit (bucketCode plain fallback bucket start) :=
  ite done <| seq (P.mark hstart) fun _ => seq (forM fun e he =>
    seq (loadLocal hplain) fun _ => seq (bare rfl) fun _ =>
      condition (bare rfl) (.instr nofun) (hbucket e he) fun _ => done) fun _ => jump hfallback

/-- Dispatch through a table. -/
theorem tableDispatch {subject : Operand} (hsubject : P.Slot subject.slot)
    {keys : List (List CaseKey)} {labels : List Label} {fallback : Label}
    (hlabels : ∀ l ∈ labels, l ∈ own) (hfallback : fallback ∈ own) :
    P.Ok own exit (tableDispatch subject keys labels fallback) := by
  have htargets : ∀ e ∈ keyTargets keys labels, e.2 ∈ own :=
    fun e he => hlabels _ (keyTargets_subset he)
  have hnull : P.Ok own exit (jumpIfNull subject (nullTarget (keyTargets keys labels) fallback)) :=
    ite (P.tests.nullTest hsubject (nullTarget_mem htargets hfallback)) done
  refine seq hnull fun _ => seq (loadInner hsubject) fun _ => after spill fun _ hplain =>
    P.bind (bucketLabels hfallback) fun starts _ => ?_
  have hstarts : ∀ l ∈ starts, l ∈ starts ++ own := fun l hl => List.mem_append_left _ hl
  have hown : ∀ {l : Label}, l ∈ own → l ∈ starts ++ own := List.mem_append_right _
  have hswitch : P.Ok (starts ++ own) exit (Emit.instr (.switch starts)) :=
    branching ⟨rfl, rfl, rfl, rfl⟩ fun l hl => .inl (hstarts l hl)
  refine seq (cons (loadLocal hplain) (cons (bare rfl) (cons hswitch
    (cons (jump (hown hfallback)) nil)))) fun _ => forM fun e he => ?_
  obtain ⟨hbucket, hstart⟩ := List.of_mem_zip he
  refine bucketCode hplain (hown hfallback) (hstarts _ hstart) fun entry hentry => ?_
  obtain ⟨_, -, heq⟩ := List.mem_map.mp hbucket
  rw [← heq] at hentry
  exact hown (bucketEntries_subset htargets (List.mem_filter.mp hentry).1)

theorem linearDispatch {cases : List (SwitchCase Node)} (h : ∀ c ∈ cases, ∀ n ∈ c.tests, n.Keeps P)
    {subject : Operand} (hsubject : P.Slot subject.slot) {comparison : Option MethodRef}
    {labels : List Label} {fallback : Label} (hlabels : ∀ l ∈ labels, l ∈ own)
    (hfallback : fallback ∈ own) :
    P.Ok own exit (linearDispatch subject cases comparison labels fallback) := by
  refine seq (forM fun e he => forM fun test htest => P.withTemps ?_) fun _ => jump hfallback
  obtain ⟨hcase, hlabel⟩ := List.of_mem_zip he
  exact seq (h e.1 hcase test htest).guarded fun _ => after spillOperand fun _ ho =>
    P.tests.condition (binarySlots hsubject ho) EndsApart.equality (hlabels _ hlabel)

theorem caseBodies {target : Label} (htarget : target ∈ own) :
    ∀ {cases : List (SwitchCase Node × Label)}, (∀ c ∈ cases, c.1.body.Keeps P ∧ c.2 ∈ own) →
      P.Ok own exit (caseBodies ty exit target cases)
  | [], _ => done
  | _ :: _, h =>
      seq (P.mark (h _ List.mem_cons_self).2) fun _ => seq (h _ List.mem_cons_self).1.branch fun _ =>
        seq (jump htarget) fun _ =>
        seq (caseBodies htarget fun c hc => h c (List.mem_cons_of_mem _ hc)) fun _ => done

theorem checkSwitch {value : Ty} {cases : List (SwitchCase Node)} {fallback : Option Node}
    {comparison : Option MethodRef} :
    P.Ok own exit (checkSwitch value cases fallback comparison ty) := by
  have htests : P.Ok own exit (checkTests value cases) :=
    forM fun _ _ => forM fun _ _ => ite done (seq tyText fun _ => mismatch)
  unfold Emit.checkSwitch
  dsimp only
  split
  · exact seq htests fun _ => checkBranches
  · exact checkBranches

theorem dispatch {cases : List (SwitchCase Node)} (h : ∀ c ∈ cases, ∀ n ∈ c.tests, n.Keeps P)
    {subject : Operand} (hsubject : P.Slot subject.slot) {comparison : Option MethodRef}
    {labels : List Label} {fallback : Label} (hlabels : ∀ l ∈ labels, l ∈ own)
    (hfallback : fallback ∈ own) :
    P.Ok own exit (dispatch subject cases comparison labels fallback) := by
  refine seq (P.read fun _ _ _ => rfl) fun _ => ?_
  split
  · exact tableDispatch hsubject hlabels hfallback
  · exact linearDispatch h hsubject hlabels hfallback

/-- A switch. -/
theorem switch (hn : n.Keeps P) {cases : List (SwitchCase Node)} {fallback : Option Node}
    (htests : ∀ c ∈ cases, ∀ t ∈ c.tests, t.Keeps P) (hbodies : ∀ c ∈ cases, c.body.Keeps P)
    (hfallback : ∀ b ∈ fallback.toList, b.Keeps P) {comparison : Option MethodRef} :
    P.Ok own exit (switch n cases fallback comparison ty exit) := by
  refine seq checkSwitch fun _ => P.withTemps (seq hn.value fun _ =>
    after spillOperand fun subject hsubject => P.bind newLabels fun labels _ =>
    label fun default => label fun done' => ?_)
  have hlabels : ∀ l ∈ labels, l ∈ done' :: default :: (labels ++ own) := fun l hl => by simp [hl]
  refine seq (dispatch htests hsubject hlabels (by simp)) fun _ =>
    seq (caseBodies (by simp) fun c hc =>
      ⟨hbodies c.1 (List.of_mem_zip hc).1, hlabels c.2 (List.of_mem_zip hc).2⟩) fun _ =>
    seq (P.mark (by simp)) fun _ => seq ?_ fun _ => seq (P.mark (by simp)) fun _ => done
  cases fallback with
  | some body => exact (hfallback body List.mem_cons_self).branch
  | none => exact seq pushDefault fun _ => done

/-! ## Parts of protected blocks -/

theorem checkHandler {h : CatchBlock Node} : P.Ok own exit (checkHandler h) := by
  refine seq (P.read fun _ _ _ => rfl) fun _ => ite mismatch ?_
  split
  · exact ite done mismatch
  · exact done

theorem protectedPart (hn : n.Keeps P) {p : ProtectedBlock} (hp : ∀ slot, p.result = some slot → P.Slot slot) :
    P.Ok own exit (protectedPart n p) := by
  unfold Emit.protectedPart
  split
  · next slot hslot =>
      exact seq hn.guarded fun _ => seq wrapIf fun _ => storeLocal (hp slot hslot)
  · exact seq hn.guarded fun _ => done

theorem storeException {binder : Option Variable} : P.Ok own exit (storeException binder) := by
  cases binder with
  | some v => exact after P.varSlot fun _ hslot => storeVar hslot
  | none => exact bare rfl

/-! ## Layers -/

/-- A plain layer keeps a policy if its operands do. -/
theorem layer {k : ExprKind Node} (hplain : k.isPlain = true) (hk : ∀ n ∈ k.children, n.Keeps P)
    {place : Option Label → Bool → Emit (Place × Bool)}
    (hplace : ∀ own exit extend, P.Yields own exit (place exit extend) fun r => r.1.Fits P)
    {shape : Shape} : P.Ok own exit (layer k ty place exit shape) := by
  cases k with
  | constant value => exact constant
  | default => exact seq pushDefault fun _ => done
  | parameter id => exact parameter
  | hoisted i => exact hoisted
  | closureVar i => exact closureVar
  | member receiver m => exact member hk
  | index receiver args indexer =>
      obtain ⟨hreceiver, hargs⟩ := List.forall_mem_cons.mp hk
      exact index hplace hreceiver hargs
  | unary op operand checked method => exact unary (hk operand List.mem_cons_self)
  | binary op left right checked method =>
      obtain ⟨hleft, hright⟩ := List.forall_mem_cons.mp hk
      exact binary hleft (hright right List.mem_cons_self)
  | logical op left right =>
      obtain ⟨hleft, hright⟩ := List.forall_mem_cons.mp hk
      exact logical hleft (hright right List.mem_cons_self)
  | coalesce left right =>
      obtain ⟨hleft, hright⟩ := List.forall_mem_cons.mp hk
      exact coalesce hleft (hright right List.mem_cons_self)
  | conditional test ifTrue ifFalse =>
      obtain ⟨htest, hbranches⟩ := List.forall_mem_cons.mp hk
      obtain ⟨htrue, hfalse⟩ := List.forall_mem_cons.mp hbranches
      exact conditional htest htrue (hfalse ifFalse List.mem_cons_self)
  | block vars body => exact block hk
  | switch value cases fallback comparison =>
      obtain ⟨hrest, hfallback⟩ := List.forall_mem_append.mp hk
      obtain ⟨hvalue, hcases⟩ := List.forall_mem_cons.mp hrest
      have hcase : ∀ c ∈ cases, ∀ n ∈ c.tests ++ [c.body], n.Keeps P :=
        fun c hc n hn => hcases n (List.mem_flatMap.mpr ⟨c, hc, hn⟩)
      exact switch hvalue (fun c hc => (List.forall_mem_append.mp (hcase c hc)).1)
        (fun c hc => hcase c hc c.body (by simp)) hfallback
  | call method receiver args =>
      obtain ⟨hreceiver, hargs⟩ := List.forall_mem_append.mp hk
      exact call hreceiver hargs
  | invoke func args =>
      obtain ⟨hfunc, hargs⟩ := List.forall_mem_cons.mp hk
      exact invoke hfunc hargs
  | new ctor args => exact construct hk
  | newArray elem init => exact newArray hk
  | listInit start items =>
      obtain ⟨hstart, hitems⟩ := List.forall_mem_cons.mp hk
      exact listInit hstart hitems
  | memberInit start bindings =>
      obtain ⟨hstart, hbindings⟩ := List.forall_mem_cons.mp hk
      exact memberInit hstart hbindings
  | assign op target value checked autoExtend =>
      obtain ⟨htarget, hvalue⟩ := List.forall_mem_cons.mp hk
      exact assign htarget hvalue
  | typeTest operand target exact => exact typeTest (hk operand List.mem_cons_self)
  | convert operand checked method => exact convert (hk operand List.mem_cons_self)
  | typeAs operand => exact typeAs (hk operand List.mem_cons_self)
  | throw operand => exact throw hk
  | loop | tryCatch | lambda | goto | label => cases hplain

/-- A node keeps a policy if its layer does, brought into the shape, also as a place. -/
theorem keeps_ofKind {k : ExprKind Node} (hfit : P.Fit (Node.ofKind k ty))
    (hplace : ∀ own exit extend,
      P.Yields own exit (Emit.placeOf k ty exit extend) fun r => r.1.Fits P)
    (hlayer : ∀ own exit shape, P.Ok own exit (do
      let emitted ← Emit.layer k ty (Emit.placeOf k ty) exit shape
      Emit.adapt ty emitted shape)) :
    (Node.ofKind k ty).Keeps P where
  fit := hfit
  emit _ _ _ _ := by
    simp only [Node.ofKind]
    split
    · exact settled (created hplace) fitting_created
    · exact hlayer _ _ _
  place := hplace

end Emit.Policy

end Arbor
