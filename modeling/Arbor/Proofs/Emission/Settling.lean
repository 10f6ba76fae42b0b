/-
  Layers settle the labels of their operands.

  The labels that are due to a node are those that its tree defines.  A layer emits
  each of its operands once, in whatever order, so that what is due to the operands
  is settled behind it.  Three things are left out of the code and must define no
  labels: the operands of a short-circuit operator that is folded, the tests of a
  switch that dispatches through a table, both of which are constants, and the
  receiver of a static member.  A short-circuit operator is not lifted over its
  right operand alone, since the label for an absent left one is made but not
  marked then.
-/
import Arbor.Proofs.Emission.Ledger

set_option autoImplicit false

namespace Arbor

/-- Labels that a tree defines. -/
def Expr.targets (e : Expr) : List LabelTarget := (e.targetsAt 0).map (·.1)

namespace Expr

/-- The labels of a tree are the same however deep it lies. -/
theorem targets_eq (e : Expr) (depth : Nat) : (e.targetsAt depth).map (·.1) = e.targets := by
  have hall : ∀ e : Expr, ∀ n m, (e.targetsAt n).map (·.1) = (e.targetsAt m).map (·.1) := by
    intro e
    induction e using induct with
    | node k ty ih =>
        intro n m
        have hchildren : ∀ e ∈ k.children, ∀ n m, (e.targetsAt n).map (·.1) = (e.targetsAt m).map (·.1) :=
          fun e he => ih e (ExprKind.mem_operands he)
        simp only [targetsAt_node, List.map_append, List.map_map, List.map_flatMap]
        congr 1
        exact List.flatMap_congr fun e he => hchildren e he _ _
  exact hall e depth 0

/-- The labels of a node are its own and those of its operands. -/
theorem targets_node (k : ExprKind Expr) (ty : Ty) :
    (Expr.node k ty).targets = k.ownTargets ++ k.children.flatMap targets := by
  rw [targets, targetsAt_node, List.map_append, List.map_map, List.map_flatMap]
  congr 1
  · exact List.map_id _
  · exact List.flatMap_congr fun e _ => e.targets_eq _

theorem targets_eq_nil {e : Expr} (hown : e.kind.ownTargets = []) (hchildren : e.kind.children = []) :
    e.targets = [] := by
  obtain ⟨k, ty⟩ := e
  rw [targets_node, show k.ownTargets = [] from hown, show k.children = [] from hchildren]
  rfl

theorem targets_of_constantTruth {e : Expr} (h : e.constantTruth?.isSome) : e.targets = [] := by
  unfold constantTruth? at h
  split at h
  · next hk => exact targets_eq_nil (by rw [hk]; rfl) (by rw [hk]; rfl)
  · next hk => exact targets_eq_nil (by rw [hk]; rfl) (by rw [hk]; rfl)
  · next hk => exact targets_eq_nil (by rw [hk]; rfl) (by rw [hk]; rfl)
  · cases h

theorem targets_of_caseKey {e : Expr} (h : (CaseKey.ofExpr? e).isSome) : e.targets = [] := by
  unfold CaseKey.ofExpr? at h
  split at h
  · next hk => exact targets_eq_nil (by rw [hk]; rfl) (by rw [hk]; rfl)
  · next hk => exact targets_eq_nil (by rw [hk]; rfl) (by rw [hk]; rfl)
  · next hk => exact targets_eq_nil (by rw [hk]; rfl) (by rw [hk]; rfl)
  · next hk => exact targets_eq_nil (by rw [hk]; rfl) (by rw [hk]; rfl)
  · cases h

end Expr

namespace Emit

/-- The labels of the targets that are known. -/
def Ledger.known (L : Ledger) (ts : List LabelTarget) : Multiset Label :=
  ts.filterMap fun t => (L.table.lookup t.id).map (·.label)

/-- The labels of the tree of a node. -/
def Ledger.due (L : Ledger) (n : Node) : Multiset Label := L.known n.expr.targets

/-- The labels of the trees of nodes. -/
def Ledger.dues (L : Ledger) (ns : List Node) : Multiset Label := (ns.map L.due).sum

end Emit

/-- A node whose emitters settle the labels of its tree. -/
structure Node.Settles (L : Emit.Ledger) (n : Node) : Prop where
  emit : ∀ exit shape extend, L.Settles (L.due n) (n.emit exit shape extend)
  place : ∀ exit extend, L.Settles (L.due n) (n.place exit extend)

namespace Node.Settles

open Emit Emit.Ledger

variable {L : Ledger} {n : Node} {exit : Option Label}

theorem value (hn : n.Settles L) : L.Settles (L.due n) (n.value exit) :=
  first (hn.emit _ _ _) fun _ => done

theorem effect (hn : n.Settles L) : L.Settles (L.due n) (n.effect exit) :=
  first (hn.emit _ _ _) fun _ => done

theorem guarded (hn : n.Settles L) {shape : Shape} : L.Settles (L.due n) (n.guarded shape) :=
  withLanding fun _ => hn.emit _ _ _

theorem receiver (hn : n.Settles L) {shape : Shape} {extend : Bool} :
    L.Settles (L.due n) (n.receiver exit shape extend) :=
  seq options fun _ => first (hn.emit _ _ _) fun _ => ite (seq nullCheck fun _ => done) done

theorem branch (hn : n.Settles L) {ty : Ty} {discard : Bool} :
    L.Settles (L.due n) (n.branch ty exit discard) :=
  ite hn.effect (first hn.value fun _ => seq wrapIf fun _ => done)

end Node.Settles

namespace Emit.Ledger

variable {α β : Type} {L : Ledger} {l r n : Node} {ty : Ty} {exit : Option Label}
  {due : Multiset Label}

/-! ## What is due to lists of nodes -/

@[simp] theorem dues_nil : L.dues [] = 0 := rfl

@[simp] theorem dues_cons (n : Node) (ns : List Node) : L.dues (n :: ns) = L.due n + L.dues ns := by
  simp [dues]

@[simp] theorem dues_append (ns ms : List Node) : L.dues (ns ++ ms) = L.dues ns + L.dues ms := by
  simp [dues]

/-- Nothing is due to nodes of which each defines no labels. -/
theorem dues_eq_zero {ns : List Node} (h : ∀ n ∈ ns, L.due n = 0) : L.dues ns = 0 := by
  induction ns with
  | nil => rfl
  | cons n ns ih =>
      obtain ⟨hn, hns⟩ := List.forall_mem_cons.mp h
      rw [dues_cons, hn, ih hns, add_zero]

/-- What is found in the registry. -/
theorem looked {query : Registry → Except MetadataError α} {g : α → Emit β}
    {left : β → Multiset Label}
    (h : ∀ a, query L.setting.registry = .ok a → Pays L due (g a) left) :
    Pays L due (Emit.lookup query >>= g) left := by
  intro s rest htable howes
  change L.Balances _ ((Emit.andThen (Emit.lookup query) g).run L.setting s)
  have hlookup : (Emit.lookup query).run L.setting s =
      (query L.setting.registry).casesOn (fun e => .error (.metadata e) s) (fun a => .ok a s) := by
    unfold Emit.lookup
    rw [run_of_bind (x := Emit.registry) rfl]
    cases query L.setting.registry <;> rfl
  simp only [Emit.andThen, hlookup]
  cases hquery : query L.setting.registry with
  | ok a => exact h a hquery s rest htable howes
  | error e => exact rfl

theorem checkBranch : L.Clear (n.checkBranch ty) :=
  seq registry fun _ => ite done mismatchOf

/-! ## Operators on temporaries -/

theorem spillOperand : L.Clear (Emit.spillOperand ty) := seq spill fun _ => done

theorem spilled {g : Operand → Emit β} {left : β → Multiset Label}
    (h : ∀ slot, Pays L due (g ⟨slot, ty⟩) left) : Pays L due (Emit.spillOperand ty >>= g) left := by
  have hassoc : Emit.spillOperand ty >>= g = Emit.spill ty >>= fun slot => g ⟨slot, ty⟩ :=
    bind_assoc_emit _ _ _
  rw [hassoc]
  exact seq spill h

section

variable {o left right : Operand}

theorem loadInner : L.Clear (Emit.loadInner o) := by
  refine seq instr fun _ => ?_
  split
  · exact instr
  · exact done

theorem loadPresence : L.Clear (Emit.loadPresence o) := ite (seq instr fun _ => instr) instr

theorem lifted {operands : List Operand} {wrap : Bool} {absent body : Emit Unit}
    (habsent : L.Clear absent) (hbody : L.Clear body) : L.Clear (Emit.lifted operands wrap absent body) :=
  label fun _ => label fun _ => seq (forM_clear fun _ _ => instrs) fun _ => seq hbody fun _ =>
    seq wrapIf fun _ => seq instr fun _ =>
    of_eq (markThen (seq habsent fun _ => mark)) (by rw [add_zero, add_comm])

theorem liftedEquality {op : BinaryOp} : L.Clear (Emit.liftedEquality op left right ty) := by
  refine label fun differ => label fun bothAbsent => label fun ready =>
    seq loadPresence fun _ => seq loadPresence fun _ => seq instrs fun _ => seq loadPresence fun _ =>
    seq instr fun _ => seq loadInner fun _ => seq loadInner fun _ => seq instrs fun _ =>
    of_eq (markThen (seq instrs fun _ => markThen (seq instr fun _ => markThen wrapIf))) ?_
  abel

theorem operatorCall {method : MethodRef} : L.Clear (Emit.operatorCall method left right ty) := by
  refine seq lookup fun sig => ite (ite ?_ ?_) (seq registry fun _ => fail rfl)
  · exact lifted pushDefault (seq loadInner fun _ => seq loadInner fun _ => instr)
  · exact seq instr fun _ => seq instr fun _ => instr

theorem liftedOperator {op : BinaryOp} {checked : Bool} :
    L.Clear (Emit.liftedOperator op checked left right ty) := by
  have hbody : L.Clear (do
      Emit.loadInner left
      Emit.loadInner right
      Emit.instr (op.instr checked left.ty.underlying)) :=
    seq loadInner fun _ => seq loadInner fun _ => instr
  refine ite (seq options fun o => lifted ?_ hbody) (ite (lifted instr hbody) mismatchOf)
  exact ite instr (seq instr fun _ => wrapIf)

theorem binarySlots {op : BinaryOp} {checked : Bool} {method : Option MethodRef} :
    L.Clear (Emit.binarySlots op checked method left right ty) := by
  cases method with
  | some m => exact operatorCall
  | none =>
      exact ite (seq instr fun _ => seq instr fun _ => instr) (ite liftedEquality liftedOperator)

end

theorem checkBinary {op : BinaryOp} {left right : Ty} : L.Clear (Emit.checkBinary op left right) :=
  ite done mismatchOf

/-! ## Leaves and operators -/

theorem constant {value : Literal} : L.Clear (Emit.constant value ty) := by
  unfold Emit.constant
  split
  · exact ite mismatch (seq pushDefault fun _ => done)
  · exact seq instr fun _ => ite mismatchOf (seq wrapIf fun _ => done)

theorem parameter {id : VarId} {shape : Shape} : L.Clear (Emit.parameter id shape) :=
  seq varSlot fun _ => ite (seq loadVarAddr fun _ => done) (seq loadVar fun _ => done)

theorem loadTableElement {table index : Nat} : L.Clear (Emit.loadTableElement table index ty) :=
  seq instr fun _ => seq int fun _ => seq instr fun _ => ite done instr

theorem closureTable : L.Clear Emit.closureTable := by
  refine seq hiddenParams fun _ => ?_
  split
  · exact done
  · exact fail rfl

theorem hoisted {index : Nat} : L.Clear (Emit.hoisted index ty) := by
  refine seq hiddenParams fun _ => ?_
  split
  · exact seq loadTableElement fun _ => done
  · exact fail rfl

theorem closureVar {index : Nat} : L.Clear (Emit.closureVar index ty) :=
  seq closureTable fun _ => seq loadTableElement fun _ => done

theorem unary (hn : n.Settles L) {op : UnaryOp} {checked : Bool} {method : Option MethodRef} :
    L.Settles (L.due n) (Emit.unary op n checked method ty exit) := by
  refine ite mismatch <| ite ?_ <| ite ?_ <| ite mismatchOf (withTemps ?_)
  · exact first hn.value fun _ => seq instrs fun _ => seq wrapIf fun _ => done
  · exact first hn.value fun _ => seq instr fun _ => done
  · exact first hn.value fun _ => seq spillOperand fun _ =>
      seq (lifted instr (seq loadInner fun _ => instrs)) fun _ => done

/-- A binary operator. -/
theorem binary (hl : l.Settles L) (hr : r.Settles L) {op : BinaryOp} {checked : Bool}
    {method : Option MethodRef} :
    L.Settles (L.due l + L.due r) (Emit.binary op l r checked method ty exit) := by
  have hrest : L.Settles (L.due l + L.due r)
      (if method.isNone && !(l.ty.isNullable || r.ty.isNullable) then do
      let usedLeft ← l.value exit
      let usedRight ← r.value exit
      Emit.instr (op.instr checked l.ty)
      Emit.wrapIf ty.isNullable
      Pure.pure (Emitted.ofTy ty (usedLeft || usedRight))
    else
      Emit.withTemps do
        let usedLeft ← l.value exit
        let left ← Emit.spillOperand l.ty
        let usedRight ← r.value exit
        let right ← Emit.spillOperand r.ty
        Emit.binarySlots op checked method left right ty
        Pure.pure (Emitted.ofTy ty (usedLeft || usedRight))) := by
    refine ite ?_ (withTemps ?_)
    · exact part hl.value fun _ => first hr.value fun _ => seq instr fun _ => seq wrapIf fun _ => done
    · exact part hl.value fun _ => seq spillOperand fun _ => first hr.value fun _ =>
        seq spillOperand fun _ => seq binarySlots fun _ => done
  exact ite (seq checkBinary fun _ => hrest) hrest

theorem jumpIfMissing {o : Operand} {target : Label} : L.Clear (Emit.jumpIfMissing o target) :=
  ite instrs done

/-- The result where the left operand is absent, which settles its label. -/
theorem leftAbsent {op : LogicalOp} {left right : Operand} {entry decided ready : Label}
    (hleft : left.ty.isNullable = true) :
    L.Settles {entry} (Emit.leftAbsent op left right ty entry decided ready) := by
  unfold Emit.leftAbsent
  rw [if_pos hleft]
  exact first mark fun _ => label fun _ => seq jumpIfMissing fun _ => seq loadInner fun _ =>
    seq instr fun _ => markThen instrs

/-- A short-circuit operator on operands of which the left one may be absent. -/
theorem liftedLogical (hl : l.Settles L) (hr : r.Settles L) (hleft : l.ty.isNullable = true)
    {op : LogicalOp} : L.Settles (L.due l + L.due r) (Emit.liftedLogical op l r ty exit) := by
  refine withTemps (label fun decided => label fun evalRight => label fun ready => ?_)
  have hrest : ∀ left usedLeft, left.ty = l.ty → L.Settles ({decided} + {ready} + L.due r) (do
      let usedRight ← r.value exit
      let right ← Emit.spillOperand r.ty
      let entry ← newLabel
      Emit.jumpIfMissing left entry
      Emit.loadOperand right
      Emit.wrapIf !right.ty.isNullable
      Emit.instr (.jump ready)
      Emit.leftAbsent op left right ty entry decided ready
      Emit.mark decided
      Emit.instrs [.const (.bool (decisive op)), .optWrap]
      Emit.mark ready
      Pure.pure (Emitted.ofTy ty (usedLeft || usedRight))) := by
    intro left usedLeft hty
    refine of_eq (part hr.value fun _ => seq spillOperand fun _ => label fun entry =>
      seq jumpIfMissing fun _ => seq instr fun _ => seq wrapIf fun _ => seq instr fun _ =>
      part (leftAbsent (hty ▸ hleft)) fun _ => markThen (seq instrs fun _ => first mark fun _ => done))
      (add_comm _ _)
  refine of_eq (part hl.value fun _ => spilled fun slot => seq jumpIfMissing fun _ =>
    seq loadInner fun _ => seq instr fun _ => markThen (hrest ⟨slot, l.ty⟩ _ rfl)) ?_
  abel

theorem pushTruth {t : Truth} : L.Clear (Emit.pushTruth t ty) := by
  unfold Emit.pushTruth
  split
  · exact instr
  · exact seq instr fun _ => wrapIf

theorem due_eq_zero (h : n.expr.targets = []) : L.due n = 0 := by rw [Ledger.due, h]; rfl

/-- A short-circuit operator, unless it is lifted over its right operand alone. -/
theorem logical (hl : l.Settles L) (hr : r.Settles L) {op : LogicalOp}
    (hlifted : r.ty.isNullable → ¬(l.expr.constantTruth?.isSome ∧ r.expr.constantTruth?.isSome) →
      l.ty.isNullable = true) :
    L.Settles (L.due l + L.due r) (Emit.logical op l r ty exit) := by
  refine ite mismatch <| ite mismatch <| ite mismatch ?_
  split
  · next hleft hright =>
      rw [due_eq_zero (Expr.targets_of_constantTruth (by simp [hleft])),
        due_eq_zero (Expr.targets_of_constantTruth (by simp [hright]))]
      exact seq pushTruth fun _ => done
  · next hconstant =>
      have hnot : ¬(l.expr.constantTruth?.isSome ∧ r.expr.constantTruth?.isSome) := by
        rintro ⟨hleft, hright⟩
        obtain ⟨a, ha⟩ := Option.isSome_iff_exists.mp hleft
        obtain ⟨b, hb⟩ := Option.isSome_iff_exists.mp hright
        exact hconstant a b ha hb
      split
      · next hnullable =>
          have hleft : l.ty.isNullable = true := by
            rcases Bool.or_eq_true _ _ ▸ hnullable with h | h
            · exact h
            · exact hlifted h hnot
          exact liftedLogical hl hr hleft
      · refine label fun ready => of_eq (part hl.value fun _ => seq instrs fun _ =>
          part hr.value fun _ => markThen (seq wrapIf fun _ => done)) ?_
        abel

/-- A coalescing. -/
theorem coalesce (hl : l.Settles L) (hr : r.Settles L) :
    L.Settles (L.due l + L.due r) (Emit.coalesce l r ty exit) := by
  refine seq registry fun _ => ite mismatch <| ite mismatchOf <| ite ?_ ?_
  · refine withTemps (label fun ready => label fun useRight => of_eq (part hl.guarded fun _ =>
      seq spill fun _ => seq instrs fun _ => seq instr fun _ => seq unwrapIf fun _ => seq instr fun _ =>
      markThen (part hr.value fun _ => seq wrapIf fun _ => markThen done)) ?_)
    abel
  · refine label fun ready => of_eq (part hl.guarded fun _ => seq instrs fun _ =>
      part hr.value fun _ => markThen done) ?_
    abel

/-! ## Places -/

theorem accessor {p : PropertyRef} {which : Accessor} : L.Clear (Emit.accessor p which) := by
  refine seq lookup fun d => ?_
  dsimp only
  split
  · exact done
  · exact seq registry fun _ => fail rfl

section

variable {p : Place}

/-- A loaded place. -/
theorem loadPlace : L.Clear (Emit.loadPlace p) := by
  unfold Emit.loadPlace
  split
  · exact loadVar
  · exact seq closureTable fun _ => loadTableElement
  · exact seq instrs fun _ => instr
  · exact instr
  · exact seq accessor fun _ => seq instrs fun _ => instr
  · exact seq instrs fun _ => instr
  · exact seq instrs fun _ => instr
  · exact seq instrs fun _ => instr

/-- A stored place. -/
theorem storePlace {slot : Nat} : L.Clear (Emit.storePlace p slot) := by
  have hstore : ∀ {i : Instr}, L.Clear (do
      Emit.loadPlaceOperands p
      Emit.instrs [.loadLocal slot, i]) := seq instrs fun _ => instrs
  unfold Emit.storePlace
  dsimp only
  split
  · exact seq instr fun _ => storeVar
  · exact seq closureTable fun _ => seq instr fun _ => seq int fun _ => instrs
  · exact hstore
  · exact instrs
  · exact seq accessor fun _ => hstore
  · exact hstore
  · exact hstore
  · exact hstore

theorem loadPlaceAddr : L.Clear (Emit.loadPlaceAddr p) := by
  unfold Emit.loadPlaceAddr
  split
  · exact seq loadVarAddr fun _ => done
  · exact seq instrs fun _ => seq instr fun _ => done
  · exact seq instr fun _ => done
  · exact seq instrs fun _ => seq instr fun _ => done
  · exact done

/-- A new instance. -/
theorem pushNew : L.Clear (Emit.pushNew ty) := by
  unfold Emit.pushNew
  split
  · refine seq registry fun _ => ?_
    split
    · exact instr
    · exact seq tyText fun _ => fail rfl
  · exact seq int fun _ => instr
  · exact instr
  · exact seq tyText fun _ => fail rfl

theorem createdPlace : L.Clear (Emit.createdPlace p) :=
  seq loadPlace fun _ => seq spill fun _ => ite
    (label fun _ => seq instrs fun _ => seq pushNew fun _ => seq instr fun _ => seq storePlace fun _ =>
      markThen done) done

end

theorem indexOperand (hn : n.Settles L) : L.Settles (L.due n) (Emit.indexOperand n exit) := by
  refine first hn.value fun _ => ?_
  split
  · exact ite done (seq instr fun _ => done)
  · exact mismatch

theorem spillIndices : ∀ {args : List Node}, (∀ a ∈ args, a.Settles L) →
    L.Settles (L.dues args) (Emit.spillIndices exit args)
  | [], _ => done
  | _ :: _, h => of_eq (part (indexOperand (h _ List.mem_cons_self)) fun _ => seq spill fun _ =>
      first (spillIndices fun a ha => h a (List.mem_cons_of_mem _ ha)) fun _ => done) (dues_cons _ _)

theorem loadDimension {kind : PlaceKind} {dim : Nat} : L.Clear (Emit.loadDimension kind dim) := by
  unfold Emit.loadDimension
  split
  · exact instr
  · exact seq int fun _ => instr
  · exact instr

theorem checkIndices {pad : Label} {kind : PlaceKind} {container : Nat} :
    ∀ {dim : Nat} {indices : List Nat}, L.Clear (Emit.checkIndices pad kind container dim indices)
  | _, [] => done
  | _, _ :: _ => seq instr fun _ => seq int fun _ => seq instrs fun _ => seq loadDimension fun _ =>
      seq instrs fun _ => checkIndices

theorem boundsCheck {kind : PlaceKind} {container : Nat} {indices : List Nat} :
    L.Clear (Emit.boundsCheck kind container indices exit) := by
  cases exit with
  | some pad => exact seq options fun _ => ite (seq checkIndices fun _ => done) done
  | none => exact done

theorem grownElement (hl : l.Settles L) (hr : r.Settles L) {kind : PlaceKind} :
    L.Settles (L.due l + L.due r) (Emit.grownElement kind l r exit) := by
  refine part (hl.place _ _) fun _ => first (indexOperand hr) fun _ => seq spill fun _ =>
    seq createdPlace fun _ => ?_
  split
  · exact seq helper fun _ => seq instrs fun _ => seq int fun _ => seq instrs fun _ => done
  · exact seq helper fun _ => seq instrs fun _ => seq storePlace fun _ => done

/-- An element as a place. -/
theorem elementPlace (hl : l.Settles L) {args : List Node} (hargs : ∀ a ∈ args, a.Settles L)
    {extend : Bool} :
    L.Settles (L.due l + L.dues args) (Emit.elementPlace ty l args exit extend) := by
  unfold Emit.elementPlace
  split
  · exact mismatch
  · next kind rank _ =>
      refine ite (seq tyText fun _ => fail rfl) ?_
      have hplain : L.Settles (L.due l + L.dues args) (do
          let emitted ← l.receiver exit .value false
          let container ← Emit.spill l.ty
          let indices ← Emit.spillIndices exit args
          Pure.pure (container, indices.1, emitted.usedExit || indices.2)) :=
        part hl.receiver fun _ => seq spill fun _ => first (spillIndices hargs) fun _ => done
      refine first ?_ fun _ => seq boundsCheck fun _ => done
      split
      · exact hplain
      · next arg _ =>
          refine ite ?_ hplain
          rw [dues_cons, dues_nil, add_zero]
          exact first (grownElement hl (hargs arg List.mem_cons_self)) fun _ => done
      · exact hplain

theorem spillReceiver (hn : n.Settles L) {extend : Bool} :
    L.Settles (L.due n) (Emit.spillReceiver n exit extend) :=
  first hn.receiver fun _ => seq spill fun _ => done

section

variable {receiver : Option Node} (h : ∀ n ∈ receiver.toList, n.Settles L)

include h

/-- What is emitted with the receiver of an instance member, where there is one. -/
theorem instanceReceiver {what : String} {g : Node → Emit β}
    (hg : ∀ n, n.Settles L → L.Settles (L.due n + due) (g n)) :
    L.Settles (L.dues receiver.toList + due) (Emit.instanceReceiver receiver what >>= g) := by
  cases receiver with
  | some n =>
      refine of_eq (hg n (h n List.mem_cons_self)) ?_
      simp
  | none => exact fail rfl

/-- What is emitted with the receiver of a member, where there is one. -/
theorem requireReceiver {what : String} {g : Node → Emit β}
    (hg : ∀ n, n.Settles L → L.Settles (L.due n) (g n)) :
    L.Settles (L.dues receiver.toList) (Emit.requireReceiver receiver what >>= g) := by
  cases receiver with
  | some n =>
      refine of_eq (hg n (h n List.mem_cons_self)) ?_
      simp
  | none => exact fail rfl

/-- A field as a place; the receiver of a static one defines no labels. -/
theorem fieldPlace {f : FieldRef} (hstatic : ∀ d, L.setting.registry.field f = .ok d →
      d.isStatic = true → L.dues receiver.toList = 0) {extend : Bool} :
    L.Settles (L.dues receiver.toList) (Emit.fieldPlace ty f receiver exit extend) := by
  refine looked fun d hd => ?_
  split
  · next hd' =>
      rw [hstatic d hd hd']
      exact done
  · refine of_eq (instanceReceiver h fun n hn => part (spillReceiver hn) fun _ => done) ?_
    exact (add_zero _).symm

end

theorem spillArgs : ∀ {args : List Node}, (∀ a ∈ args, a.Settles L) →
    L.Settles (L.dues args) (Emit.spillArgs exit args)
  | [], _ => done
  | _ :: _, h => of_eq (part (h _ List.mem_cons_self).value fun _ => seq spill fun _ =>
      first (spillArgs fun a ha => h a (List.mem_cons_of_mem _ ha)) fun _ => done) (dues_cons _ _)

/-- A property as a place; the receiver of a static one defines no labels. -/
theorem propertyPlace {p : PropertyRef} {receiver : Option Node} {args : List Node}
    (h : ∀ n ∈ receiver.toList, n.Settles L) (hargs : ∀ a ∈ args, a.Settles L)
    (hstatic : ∀ d, L.setting.registry.property p = .ok d → d.isStatic = true →
      L.dues receiver.toList = 0) {extend : Bool} :
    L.Settles (L.dues receiver.toList + L.dues args)
      (Emit.propertyPlace ty p receiver args exit extend) := by
  refine looked fun d hd => ite (fail rfl) ?_
  split
  · next hd' =>
      rw [hstatic d hd hd', zero_add]
      exact seq done fun _ => first (spillArgs hargs) fun _ => done
  · exact instanceReceiver h fun n hn => part (spillReceiver hn) fun _ => seq done fun _ =>
      first (spillArgs hargs) fun _ => done

/-- The receivers of static members define no labels. -/
def StaticPlaces (L : Ledger) (k : ExprKind Node) : Prop :=
  match k with
  | .member receiver (.field f) => ∀ d, L.setting.registry.field f = .ok d → d.isStatic = true →
      L.dues receiver.toList = 0
  | .member receiver (.property p) => ∀ d, L.setting.registry.property p = .ok d →
      d.isStatic = true → L.dues receiver.toList = 0
  | .index receiver _ (some p) => ∀ d, L.setting.registry.property p = .ok d →
      d.isStatic = true → L.due receiver = 0
  | _ => True

/-- A node as a place. -/
theorem placeOf {k : ExprKind Node} (hk : ∀ n ∈ k.children, n.Settles L) (hstatic : L.StaticPlaces k)
    {extend : Bool} : L.Settles (L.known k.ownTargets + L.dues k.children)
      (Emit.placeOf k ty exit extend) := by
  unfold Emit.placeOf
  split
  · exact seq varSlot fun _ => done
  · exact seq closureTable fun _ => done
  · exact of_eq (fieldPlace hk hstatic) (zero_add _)
  · refine of_eq (propertyPlace hk (fun _ h => absurd h List.not_mem_nil) hstatic) ?_
    rw [dues_nil, add_zero]
    exact zero_add _
  · next receiver args p =>
      obtain ⟨hreceiver, hargs⟩ := List.forall_mem_cons.mp hk
      have hsome : ∀ n ∈ (some receiver).toList, n.Settles L := by simpa using hreceiver
      refine of_eq (propertyPlace hsome hargs fun d hd hd' => ?_) ?_
      · simpa using hstatic d hd hd'
      · simp [ExprKind.children, ExprKind.ownTargets, known]
  · next receiver args =>
      obtain ⟨hreceiver, hargs⟩ := List.forall_mem_cons.mp hk
      refine of_eq (elementPlace hreceiver hargs) ?_
      simp [ExprKind.children, ExprKind.ownTargets, known]
  · exact fail rfl

/-! ## Reads -/

theorem checkMember {declared node : Ty} {what : String} :
    L.Clear (Emit.checkMember declared node what) :=
  seq registry fun _ => ite done mismatchOf

theorem measure (hn : n.Settles L) {i : Instr} :
    L.Settles (L.due n) (Emit.measure n i ty exit) :=
  first hn.receiver fun _ => seq instr fun _ => done

section

variable {receiver : Option Node} (h : ∀ n ∈ receiver.toList, n.Settles L)

include h

/-- A field; the receiver of a static one defines no labels. -/
theorem field {f : FieldRef} (hstatic : ∀ d, L.setting.registry.field f = .ok d →
      d.isStatic = true → L.dues receiver.toList = 0) {shape : Shape} :
    L.Settles (L.dues receiver.toList) (Emit.field f receiver ty exit shape) := by
  refine looked fun d hd => seq registry fun _ => seq checkMember fun _ => ?_
  dsimp only
  split
  · next hd' =>
      rw [hstatic d hd hd']
      exact seq instr fun _ => done
  · exact requireReceiver h fun n hn => first hn.receiver fun _ => seq instr fun _ => done

/-- A property; the receiver of a static one defines no labels. -/
theorem property {p : PropertyRef} (hstatic : ∀ d, L.setting.registry.property p = .ok d →
      d.isStatic = true → L.dues receiver.toList = 0) :
    L.Settles (L.dues receiver.toList) (Emit.property p receiver ty exit) := by
  refine looked fun d hd => ite (fail rfl) (seq registry fun _ => seq checkMember fun _ =>
    seq accessor fun _ => ?_)
  split
  · next hd' =>
      rw [hstatic d hd hd']
      exact seq done fun _ => seq instr fun _ => done
  · exact requireReceiver h fun n hn => first hn.receiver fun _ => seq done fun _ =>
      seq instr fun _ => done

/-- A member. -/
theorem member {m : Member} (hstatic : L.StaticPlaces (.member receiver m)) {shape : Shape} :
    L.Settles (L.dues receiver.toList) (Emit.member receiver m ty exit shape) := by
  cases m with
  | field f => exact field h hstatic
  | property p => exact property h hstatic
  | arrayLength | listCount | strLength =>
      refine requireReceiver h fun n hn => ?_
      split
      · exact measure hn
      · exact mismatch
  | hasValue =>
      exact requireReceiver h fun n hn =>
        ite (first hn.value fun _ => seq instr fun _ => done) mismatch
  | value =>
      exact requireReceiver h fun n hn =>
        ite (first hn.value fun _ => seq nullCheck fun _ => seq instr fun _ => done) mismatch

end

/-- An element that is read directly has the one index that it is read at. -/
theorem args_of_directIndex {args : List Node} {indexer : Option PropertyRef} {o : Options} {arg : Node}
    (h : directIndex? n args indexer o exit = some arg) : args = [arg] := by
  unfold Emit.directIndex? at h
  split at h
  · split at h
    · cases h
    · cases h
      rfl
  · cases h

section

variable {place : Option Label → Bool → Emit (Place × Bool)}

/-- An element. -/
theorem index (hn : n.Settles L) {args : List Node} (hargs : ∀ a ∈ args, a.Settles L)
    (hplace : ∀ exit extend, L.Settles (L.due n + L.dues args) (place exit extend))
    {indexer : Option PropertyRef} {shape : Shape} :
    L.Settles (L.due n + L.dues args) (Emit.index n args indexer ty exit shape place) := by
  refine seq options fun o => ?_
  split
  · next arg harg =>
      obtain rfl := args_of_directIndex harg
      rw [dues_cons, dues_nil, add_zero]
      exact part hn.receiver fun _ => first (indexOperand (hargs arg List.mem_cons_self)) fun _ =>
        ite (seq instr fun _ => done) (seq instr fun _ => done)
  · refine withTemps (first (hplace _ _) fun _ => ?_)
    exact ite (seq loadPlaceAddr fun _ => ite done (seq loadPlace fun _ => done))
      (seq done fun _ => ite done (seq loadPlace fun _ => done))

theorem created (hplace : ∀ exit extend, L.Settles due (place exit extend)) :
    L.Settles due (Emit.created ty exit place) :=
  withTemps (first (hplace _ _) fun _ => seq createdPlace fun _ => seq instr fun _ => done)

end

/-! ## Assignments -/

theorem assigned {slot : Nat} {keep used : Bool} : L.Clear (Emit.assigned ty slot keep used) :=
  ite (seq instr fun _ => done) done

theorem stepped {op : ArithOp} {k : NumKind} {checked : Bool} {old : Operand} :
    L.Clear (Emit.stepped op k checked old) :=
  ite (lifted instr (seq loadInner fun _ => instrs)) (seq instr fun _ => instrs)

/-- An assignment. -/
theorem assign (hn : n.Settles L) {value : Option Node} (hvalue : ∀ v ∈ value.toList, v.Settles L)
    {op : AssignOp} {checked autoExtend : Bool} {shape : Shape} :
    L.Settles (L.due n + L.dues value.toList)
      (Emit.assign op n value checked autoExtend exit shape) := by
  refine seq options fun _ => ?_
  dsimp only
  split
  · rw [Option.toList_none, dues_nil, add_zero]
    unfold Emit.step
    split
    · exact mismatch
    · exact withTemps (first (hn.place _ _) fun _ => seq loadPlace fun _ => seq spillOperand fun _ =>
        seq stepped fun _ => seq spill fun _ => seq storePlace fun _ => assigned)
  · next value _ =>
      have hvalue : value.Settles L := hvalue value List.mem_cons_self
      rw [Option.toList_some, dues_cons, dues_nil, add_zero]
      split
      · exact withTemps (part (hn.place _ _) fun _ => first hvalue.value fun _ =>
          seq coerce fun _ => seq spill fun _ => seq storePlace fun _ => assigned)
      · exact seq checkBinary fun _ => withTemps (part (hn.place _ _) fun _ =>
          seq loadPlace fun _ => seq spillOperand fun _ => first hvalue.value fun _ =>
          seq spillOperand fun _ => seq binarySlots fun _ => seq spill fun _ =>
          seq storePlace fun _ => assigned)
  · exact fail rfl

end Emit.Ledger

end Arbor
