/-
  Layers settle the labels of their operands: calls, conversions, control flow,
  switches and protected blocks.

  Labels of the tree are due to the layers that define them, and are marked where
  those are emitted.
-/
import Arbor.Proofs.Emission.Settling

set_option autoImplicit false

namespace Arbor

namespace Emit.Ledger

variable {α β : Type} {L : Ledger} {l r n : Node} {ty : Ty} {exit : Option Label}
  {due : Multiset Label}

/-! ## Calls and construction -/

theorem argument (hn : n.Settles L) {what : String} {param : Ty × Bool} :
    L.Settles (L.due n) (Emit.argument what n param exit) :=
  ite (ite (first (hn.emit _ _ _) fun _ => done) mismatchOf)
    (first hn.value fun _ => seq coerce fun _ => done)

theorem eachArgument {what : String} : ∀ {args : List Node} {params : List (Ty × Bool)},
    params.length = args.length → (∀ a ∈ args, a.Settles L) →
      L.Settles (L.dues args) (Emit.eachArgument what exit (args.zip params))
  | [], [], _, _ => done
  | _ :: _, _ :: _, hlength, h =>
      of_eq (part (argument (h _ List.mem_cons_self)) fun _ =>
        first (eachArgument (Nat.succ.inj hlength) fun a ha => h a (List.mem_cons_of_mem _ ha))
          fun _ => done) (dues_cons _ _)

theorem arguments {what : String} {params : List (Ty × Bool)} {args : List Node}
    (h : ∀ a ∈ args, a.Settles L) :
    L.Settles (L.dues args) (Emit.arguments what params args exit) := by
  unfold Emit.arguments
  split
  · exact fail rfl
  · next hlength => exact eachArgument (not_not.mp hlength) h

theorem callResult {ret : Ty} {used : Bool} : L.Clear (Emit.callResult ret ty used) :=
  ite done (ite (seq instr fun _ => done) done)

/-- A call of a method. -/
theorem call {receiver : Option Node} (hreceiver : ∀ n ∈ receiver.toList, n.Settles L)
    {args : List Node} (hargs : ∀ a ∈ args, a.Settles L) {method : MethodRef} :
    L.Settles (L.dues receiver.toList + L.dues args)
      (Emit.call method receiver args ty exit) := by
  have hkind : ∀ sig, L.Clear (methodKind method sig) := by
    intro sig
    cases method with
    | method ty i => exact seq lookup fun _ => done
    | intrinsic op => exact done
  refine seq lookup fun _ => seq (hkind _) fun _ => seq registry fun _ => ?_
  dsimp only
  split
  · next receiver =>
      rw [Option.toList_some, dues_cons, dues_nil, add_zero]
      exact part (hreceiver receiver List.mem_cons_self).receiver fun _ =>
        first (arguments hargs) fun _ => seq instr fun _ => callResult
  · exact fail rfl
  · next receiver =>
      have hall : ∀ a ∈ receiver :: args, a.Settles L :=
        List.forall_mem_cons.mpr ⟨hreceiver receiver List.mem_cons_self, hargs⟩
      refine of_eq (first (arguments hall) fun _ => seq instr fun _ => callResult) ?_
      simp
  · exact fail rfl
  · exact fail rfl
  · refine of_eq (first (arguments hargs) fun _ => seq instr fun _ => callResult) ?_
    exact zero_add _

theorem invoke (hn : n.Settles L) {args : List Node} (hargs : ∀ a ∈ args, a.Settles L) :
    L.Settles (L.due n + L.dues args) (Emit.invoke n args ty exit) := by
  unfold Emit.invoke
  split
  · exact part hn.receiver fun _ => first (arguments hargs) fun _ => seq instr fun _ => callResult
  · exact mismatch

/-- A new value without constructor arguments. -/
theorem newPlain : L.Clear (Emit.newPlain ty) := by
  unfold Emit.newPlain
  split
  · exact withTemps (seq temp fun _ => instrs)
  · refine seq registry fun _ => ?_
    split
    · exact instr
    · exact seq tyText fun _ => fail rfl
  · exact instr
  · exact seq tyText fun _ => fail rfl

/-- A new instance. -/
theorem construct {ctor : Option MethodRef} {args : List Node} (h : ∀ a ∈ args, a.Settles L) :
    L.Settles (L.dues args) (Emit.construct ctor args ty exit) := by
  cases ctor with
  | some method =>
      exact seq lookup fun _ => seq registry fun _ => first (arguments h) fun _ =>
        seq instr fun _ => done
  | none =>
      unfold Emit.construct
      dsimp only
      split
      · next hempty =>
          rw [List.isEmpty_iff.mp hempty]
          exact seq newPlain fun _ => done
      · exact seq tyText fun _ => fail rfl

theorem arrayItems {elem : Ty} : ∀ {i : Nat} {items : List Node}, (∀ n ∈ items, n.Settles L) →
    L.Settles (L.dues items) (Emit.arrayItems elem exit i items)
  | _, [], _ => done
  | _, _ :: _, h =>
      of_eq (seq instr fun _ => seq int fun _ => part (h _ List.mem_cons_self).value fun _ =>
        seq coerce fun _ => seq instr fun _ =>
        first (arrayItems fun n hn => h n (List.mem_cons_of_mem _ hn)) fun _ => done) (dues_cons _ _)

theorem arrayBounds : ∀ {bounds : List Node}, (∀ n ∈ bounds, n.Settles L) →
    L.Settles (L.dues bounds) (Emit.arrayBounds exit bounds)
  | [], _ => done
  | _ :: _, h =>
      of_eq (part (indexOperand (h _ List.mem_cons_self)) fun _ =>
        first (arrayBounds fun n hn => h n (List.mem_cons_of_mem _ hn)) fun _ => done) (dues_cons _ _)

theorem newArray {elem : Ty} {init : ArrayInit Node}
    (h : ∀ n ∈ (ExprKind.newArray elem init).children, n.Settles L) :
    L.Settles (L.dues (ExprKind.newArray elem init).children)
      (Emit.newArray elem init ty exit) := by
  unfold Emit.newArray
  split
  · exact seq int fun _ => seq instr fun _ => first (arrayItems h) fun _ => done
  · exact fail rfl
  · exact first (arrayBounds h) fun _ => seq instr fun _ => done

theorem elementInit {item : ElementInit Node} (h : ∀ a ∈ item.args, a.Settles L) :
    L.Settles (L.dues item.args) (Emit.elementInit item exit) :=
  seq lookup fun _ => seq registry fun _ => seq instr fun _ => first (arguments h) fun _ =>
    seq instr fun _ => ite (seq instr fun _ => done) done

theorem elementInits : ∀ {items : List (ElementInit Node)},
    (∀ a ∈ items.flatMap (·.args), a.Settles L) →
      L.Settles (L.dues (items.flatMap (·.args))) (Emit.elementInits exit items)
  | [], _ => done
  | _ :: _, h => by
      rw [List.flatMap_cons, List.forall_mem_append] at h
      rw [List.flatMap_cons, dues_append]
      exact part (elementInit h.1) fun _ => first (elementInits h.2) fun _ => done

theorem listInit (hn : n.Settles L) {items : List (ElementInit Node)}
    (h : ∀ a ∈ items.flatMap (·.args), a.Settles L) :
    L.Settles (L.due n + L.dues (items.flatMap (·.args))) (Emit.listInit n items exit) :=
  part hn.value fun _ => first (elementInits h) fun _ => done

theorem storeMember {m : MemberTarget} : L.Clear (Emit.storeMember m ty) := by
  cases m with
  | field f => exact seq lookup fun _ => seq coerce fun _ => instr
  | property p => exact seq lookup fun _ => seq coerce fun _ => seq accessor fun _ => instr

theorem loadMember {m : MemberTarget} : L.Clear (Emit.loadMember m) := by
  cases m with
  | field f => exact seq lookup fun _ => instr
  | property p => exact seq lookup fun _ => ite (fail rfl) (seq accessor fun _ => instr)

mutual

/-- A binding. -/
theorem binding : (b : Binding Node) → (∀ n ∈ b.children, n.Settles L) →
    L.Settles (L.dues b.children) (Emit.binding exit b)
  | .assign _ _, h =>
      of_eq (first (h _ List.mem_cons_self).value fun _ => seq storeMember fun _ => done)
        (by simp [Binding.children])
  | .member _ bindings, h =>
      seq loadMember fun _ => first (eachBinding instr bindings h) fun _ => seq instr fun _ => done
  | .list _ _, h =>
      seq loadMember fun _ => first (elementInits h) fun _ => seq instr fun _ => done
  termination_by structural b => b

theorem eachBinding {load : Emit Unit} (hload : L.Clear load) : (bs : List (Binding Node)) →
    (∀ n ∈ Binding.childrenList bs, n.Settles L) →
      L.Settles (L.dues (Binding.childrenList bs)) (Emit.eachBinding exit load bs)
  | [], _ => done
  | b :: bs, h =>
      have h := List.forall_mem_append.mp h
      of_eq (seq hload fun _ => part (binding b h.1) fun _ =>
        first (eachBinding hload bs h.2) fun _ => done) (dues_append _ _)
  termination_by structural bs => bs

end

theorem memberInit (hn : n.Settles L) {bindings : List (Binding Node)}
    (h : ∀ m ∈ Binding.childrenList bindings, m.Settles L) :
    L.Settles (L.due n + L.dues (Binding.childrenList bindings))
      (Emit.memberInit n bindings exit) :=
  ite (withTemps (part hn.value fun _ => seq spill fun _ => first (eachBinding instr bindings h) fun _ =>
      seq instr fun _ => done))
    (part hn.value fun _ => first (eachBinding instr bindings h) fun _ => done)

/-! ## Conversions -/

theorem boxedOperand (hn : n.Settles L) : L.Settles (L.due n) (Emit.boxedOperand n exit) :=
  first hn.value fun _ => ite (seq instr fun _ => done) done

theorem typeTest (hn : n.Settles L) {target : Ty} {exact : Bool} :
    L.Settles (L.due n) (Emit.typeTest n target exact exit) :=
  first (boxedOperand hn) fun _ => seq instrs fun _ => done

theorem typeAs (hn : n.Settles L) : L.Settles (L.due n) (Emit.typeAs n ty exit) :=
  ite mismatch <| first (boxedOperand hn) fun _ => seq instr fun _ =>
    ite (seq instr fun _ => done) done

theorem noConversion {source target : Ty} {left : α → Multiset Label} :
    Pays L due (Emit.noConversion source target : Emit α) left :=
  seq tyText fun _ => seq tyText fun _ => fail rfl

theorem plainConversion {source target : Ty} : L.Clear (Emit.plainConversion source target) :=
  ite (ite done instr) <| ite done <| ite instr <| ite instr <| ite (ite instr noConversion) <|
    ite (ite instr noConversion) <| ite (seq registry fun _ => ite done instr) noConversion

theorem numericConversion (hn : n.Settles L) {source target : NumKind} {checked : Bool} :
    L.Settles (L.due n) (Emit.numericConversion n source target checked ty exit) := by
  refine ite (withTemps ?_) ?_
  · exact first hn.value fun _ => seq spillOperand fun _ =>
      seq (lifted instr (seq loadInner fun _ => instrs)) fun _ => done
  · exact first hn.value fun _ => seq unwrapIf fun _ => seq instrs fun _ => seq wrapIf fun _ => done

/-- A conversion that a method implements. -/
theorem userConversion (hn : n.Settles L) {method : MethodRef} :
    L.Settles (L.due n) (Emit.userConversion n method ty exit) := by
  refine seq lookup fun _ => seq registry fun _ => ?_
  dsimp only
  split
  · refine ite ?_ (ite mismatchOf (withTemps ?_))
    · exact first hn.value fun _ => seq coerce fun _ => seq instr fun _ =>
        seq plainConversion fun _ => done
    · exact first hn.value fun _ => seq spillOperand fun _ =>
        seq (lifted pushDefault (seq loadInner fun _ => instr)) fun _ => done
  · exact fail rfl

/-- A conversion. -/
theorem convert (hn : n.Settles L) {checked : Bool} {method : Option MethodRef} :
    L.Settles (L.due n) (Emit.convert n checked method ty exit) := by
  cases method with
  | some m => exact userConversion hn
  | none =>
      unfold Emit.convert
      dsimp only
      split
      · exact numericConversion hn
      · exact first hn.value fun _ => seq plainConversion fun _ => done

/-! ## Control flow -/

theorem checkBranches {branches : List Node} : L.Clear (Emit.checkBranches ty branches) :=
  ite done (forM_clear fun _ _ => checkBranch)

theorem conditional {test ifTrue ifFalse : Node} (htest : test.Settles L) (htrue : ifTrue.Settles L)
    (hfalse : ifFalse.Settles L) {shape : Shape} :
    L.Settles (L.due test + (L.due ifTrue + L.due ifFalse))
      (Emit.conditional test ifTrue ifFalse ty exit shape) := by
  refine ite mismatch (seq checkBranches fun _ => label fun otherwise => label fun ready => ?_)
  refine of_eq (part htest.guarded fun _ => seq (ite instr done) fun _ => seq instr fun _ =>
    part htrue.branch fun _ => seq instr fun _ => markThen (part hfalse.branch fun _ =>
    markThen done)) ?_
  abel

theorem statement (hn : n.Settles L) : L.Settles (L.due n) (Emit.statement n) :=
  first (withLanding fun _ => hn.emit _ _ _) fun _ => done

theorem statements {shape : Shape} : ∀ {nodes : List Node}, (∀ n ∈ nodes, n.Settles L) →
    L.Settles (L.dues nodes) (Emit.statements ty exit shape nodes)
  | [], _ => seq pushDefault fun _ => done
  | [_], h =>
      have hn := h _ List.mem_cons_self
      of_eq (ite (first hn.effect fun _ => done) <| seq checkBranch fun _ =>
        ite (hn.emit _ _ _) (first hn.branch fun _ => done)) (by simp)
  | _ :: _ :: _, h =>
      of_eq (part (statement (h _ List.mem_cons_self)) fun _ =>
        statements fun n hn => h n (List.mem_cons_of_mem _ hn)) (dues_cons _ _)

theorem block {vars : List Variable} {nodes : List Node} (h : ∀ n ∈ nodes, n.Settles L)
    {shape : Shape} : L.Settles (L.dues nodes) (Emit.block vars nodes ty exit shape) :=
  withTemps (withLocals (statements h))

theorem throw {operand : Option Node} (h : ∀ n ∈ operand.toList, n.Settles L) :
    L.Settles (L.dues operand.toList) (Emit.throw operand) := by
  cases operand with
  | none => exact seq instr fun _ => done
  | some n =>
      rw [Option.toList_some, dues_cons, dues_nil, add_zero]
      exact ite (first (h n List.mem_cons_self).guarded fun _ => seq instr fun _ => done)
        (bind mismatch fun _ => done)

/-! ## Labels of the tree -/

theorem known_cons {target : LabelTarget} {ts : List LabelTarget} {info : LabelInfo}
    (h : L.table.lookup target.id = some info) :
    L.known (target :: ts) = {info.label} + L.known ts := by
  simp [known, h]

theorem labelValue {info : LabelInfo} : L.Clear (Emit.labelValue info) := by
  unfold Emit.labelValue
  split
  · exact seq instr fun _ => done
  · exact done

/-- A jump. -/
theorem goto {target : LabelTarget} {value : Option Node}
    (hvalue : ∀ n ∈ value.toList, n.Settles L) :
    L.Settles (L.dues value.toList) (Emit.goto target value) := by
  refine labelInfo fun info _ => ?_
  have hjump : L.Clear (do
      Emit.jumpTo info
      Pure.pure (Emitted.nothing false)) := seq jumpTo fun _ => done
  cases value with
  | some v =>
      rw [Option.toList_some, dues_cons, dues_nil, add_zero]
      refine first (hvalue v List.mem_cons_self).guarded fun _ => ?_
      split
      · exact seq wrapIf fun _ => seq instr fun _ => hjump
      · exact ite hjump (seq instr fun _ => hjump)
  | none => exact ite hjump (seq tyText fun _ => bind (fail rfl) fun _ => hjump)

/-- A label. -/
theorem treeLabel {target : LabelTarget} {default : Option Node}
    (hdefault : ∀ n ∈ default.toList, n.Settles L) :
    L.Settles (L.known [target] + L.dues default.toList) (Emit.label target default) := by
  refine labelInfo fun info hinfo => ?_
  have hmark : L.Settles (L.known [target]) (do
      Emit.mark info.label
      Emit.labelValue info) := by
    rw [known_cons hinfo]
    exact markThen labelValue
  rw [add_comm]
  dsimp only
  split
  · next slot d _ =>
      rw [Option.toList_some, dues_cons, dues_nil, add_zero]
      exact part (hdefault d List.mem_cons_self).guarded fun _ => seq wrapIf fun _ => seq instr fun _ => hmark
  · exact of_eq (seq pushDefault fun _ => seq instr fun _ => hmark) (zero_add _)
  · next d _ =>
      rw [Option.toList_some, dues_cons, dues_nil, add_zero]
      exact part (hdefault d List.mem_cons_self).guarded fun _ => hmark
  · exact of_eq hmark (zero_add _)

/-- A loop. -/
theorem loop {body : Node} (hbody : body.Settles L) {breakLabel continueLabel : Option LabelTarget} :
    L.Settles (L.known (breakLabel.toList ++ continueLabel.toList) + L.due body)
      (Emit.loop body breakLabel continueLabel ty) := by
  have hrest : ∀ start : Label,
      L.Settles (L.known breakLabel.toList + L.due body) (loopRest body breakLabel ty start) := by
    intro start
    rw [add_comm]
    refine part (statement hbody) fun _ => seq instr fun _ => ?_
    cases breakLabel with
    | some target =>
        refine labelInfo fun info hinfo => ?_
        rw [Option.toList_some, known_cons hinfo]
        exact markThen labelValue
    | none => exact seq pushDefault fun _ => done
  have hsplit : L.known (breakLabel.toList ++ continueLabel.toList) =
      L.known continueLabel.toList + L.known breakLabel.toList := by
    simp [known, add_comm]
  rw [hsplit, add_assoc]
  cases continueLabel with
  | some target =>
      have hassoc : ∀ k : Label → Emit Emitted, ((·.label) <$> Emit.labelInfo target.id) >>= k =
          Emit.labelInfo target.id >>= fun info => k info.label := bind_assoc_emit _ _
      unfold Emit.loop
      dsimp only
      rw [hassoc]
      refine labelInfo fun info hinfo => ?_
      rw [Option.toList_some, known_cons hinfo, add_assoc]
      exact markThen (of_eq (hrest info.label) (zero_add _))
  | none => exact of_eq (label fun start => markThen (hrest start)) (zero_add _)

/-! ## Switches -/

/-- New labels, one for every item, and what is emitted with them. -/
theorem newLabels {left : β → Multiset Label} : ∀ {items : List α} {due : Multiset Label}
    {g : List Label → Emit β},
    (∀ ls : List Label, ls.length = items.length → Pays L ((ls : Multiset Label) + due) (g ls) left) →
      Pays L due (Emit.newLabels items >>= g) left
  | [], _, g, h => of_eq (h [] rfl) (zero_add _).symm
  | a :: items, due, g, h => by
      have hassoc : Emit.newLabels (a :: items) >>= g =
          newLabel >>= fun l => Emit.newLabels items >>= fun ls => g (l :: ls) := by
        change ((newLabel >>= fun l => Emit.newLabels items >>= fun ls => Pure.pure (l :: ls)) >>= g) = _
        rw [bind_assoc_emit]
        exact congrArg _ (funext fun _ => bind_assoc_emit _ _ _)
      rw [hassoc]
      refine label fun l => newLabels fun ls hlength => ?_
      refine of_eq (h (l :: ls) (congrArg (· + 1) hlength)) ?_
      rw [← Multiset.cons_coe, ← Multiset.singleton_add]
      abel

theorem bucketLabels {fallback : Label} : ∀ {buckets : List (List BucketEntry)},
    Pays L 0 (Emit.bucketLabels fallback buckets) fun ls =>
      ((buckets.zip ls).map fun b => if b.1.isEmpty then 0 else {b.2}).sum
  | [] => give rfl
  | b :: rest => by
      unfold Emit.bucketLabels
      dsimp only
      split
      · next hempty =>
          refine seq done fun l => bind bucketLabels fun ls => give ?_
          simp [List.isEmpty_iff.mp hempty]
      · next hsome =>
          have hb : b ≠ [] := mt List.isEmpty_iff.mpr hsome
          refine label fun l => of_eq (after bucketLabels fun ls => give ?_) (add_comm _ _)
          rw [add_comm]
          simp [hb]

/-- The code of a bucket settles its label, where there are entries. -/
theorem bucketCode {plain : Nat} {fallback l : Label} {bucket : List BucketEntry} :
    L.Settles (if bucket.isEmpty then 0 else {l}) (Emit.bucketCode plain fallback bucket l) := by
  unfold Emit.bucketCode
  split
  · exact done
  · exact first mark fun _ => seq (forM_clear fun _ _ => instrs) fun _ => instr

theorem tableDispatch {subject : Operand} {keys : List (List CaseKey)} {labels : List Label}
    {fallback : Label} : L.Clear (Emit.tableDispatch subject keys labels fallback) :=
  seq (ite instrs done) fun _ => seq loadInner fun _ => seq spill fun _ => bind bucketLabels fun _ =>
    seq instrs fun _ => forM fun _ _ => bucketCode

/-- Dispatch by a chain of tests. -/
theorem linearDispatch {cases : List (SwitchCase Node)} (h : ∀ c ∈ cases, ∀ n ∈ c.tests, n.Settles L)
    {subject : Operand} {comparison : Option MethodRef} {labels : List Label} {fallback : Label}
    (hlength : labels.length = cases.length) :
    L.Settles (L.dues (cases.flatMap (·.tests)))
      (Emit.linearDispatch subject cases comparison labels fallback) := by
  have htests : ∀ e ∈ cases.zip labels, L.Settles (L.dues e.1.tests) (e.1.tests.forM fun test =>
      Emit.withTemps do
        let _ ← test.guarded .value
        let t ← Emit.spillOperand test.ty
        Emit.binarySlots .eq false comparison subject t .bool
        Emit.instr (.jumpIfTrue e.2)) := by
    intro e he
    refine forM fun test htest => withTemps ?_
    exact first (h e.1 (List.of_mem_zip he).1 test htest).guarded fun _ => seq spillOperand fun _ =>
      seq binarySlots fun _ => instr
  have hsum : L.dues (cases.flatMap (·.tests)) =
      ((cases.zip labels).map fun e => L.dues e.1.tests).sum := by
    have hfst : (cases.zip labels).map (fun e => L.dues e.1.tests) =
        ((cases.zip labels).map Prod.fst).map fun c => L.dues c.tests := by simp
    rw [hfst, List.map_fst_zip (Nat.le_of_eq hlength.symm)]
    clear h htests hfst hlength
    induction cases with
    | nil => rfl
    | cons c cases ih => simp [ih]
  rw [hsum]
  exact first (forM htests) fun _ => instr

/-- Bodies of cases, each of which marks the label of its case. -/
theorem caseBodies {ready : Label} : ∀ {cases : List (SwitchCase Node × Label)},
    (∀ c ∈ cases, c.1.body.Settles L) →
      L.Settles ((cases.map (·.2) : Multiset Label) + L.dues (cases.map (·.1.body)))
        (Emit.caseBodies ty exit ready cases)
  | [], _ => done
  | c :: rest, h => by
      refine of_eq (markThen (part (h c List.mem_cons_self).branch fun _ => seq instr fun _ =>
        first (caseBodies fun c hc => h c (List.mem_cons_of_mem _ hc)) fun _ => done)) ?_
      simp only [List.map_cons, ← Multiset.cons_coe, dues_cons, ← Multiset.singleton_add]
      abel

theorem checkSwitch {value : Ty} {cases : List (SwitchCase Node)} {fallback : Option Node}
    {comparison : Option MethodRef} : L.Clear (Emit.checkSwitch value cases fallback comparison ty) := by
  have htests : L.Clear (checkTests value cases) :=
    forM_clear fun _ _ => forM_clear fun _ _ => ite done mismatchOf
  unfold Emit.checkSwitch
  dsimp only
  split
  · exact seq htests fun _ => checkBranches
  · exact checkBranches

/-- The tests of a switch that dispatches through a table define no labels. -/
theorem dues_of_tableKeys {o : Options} {cases : List (SwitchCase Node)} {comparison : Option MethodRef}
    {keys : List (List CaseKey)} (h : tableKeys? o ty cases comparison = some keys) :
    L.dues (cases.flatMap (·.tests)) = 0 := by
  have hkeys : cases.mapM (fun c => c.tests.mapM fun t => CaseKey.ofExpr? t.expr) = some keys := by
    unfold Emit.tableKeys? at h
    split at h
    · cases h
    · split at h
      · cases h
      · split at h
        · cases h
        · next hmap =>
            split at h
            · cases h
              exact hmap
            · cases h
  refine dues_eq_zero fun t ht => ?_
  obtain ⟨c, hc, ht⟩ := List.mem_flatMap.mp ht
  obtain ⟨ks, -, hks⟩ := Job.exists_of_forall₂ (Job.forall₂_of_mapM hkeys).flip hc
  obtain ⟨k, -, hk⟩ := Job.exists_of_forall₂ (Job.forall₂_of_mapM hks).flip ht
  exact due_eq_zero (Expr.targets_of_caseKey (by rw [hk]; rfl))

/-- A switch. -/
theorem switch (hn : n.Settles L) {cases : List (SwitchCase Node)} {fallback : Option Node}
    (htests : ∀ c ∈ cases, ∀ t ∈ c.tests, t.Settles L) (hbodies : ∀ c ∈ cases, c.body.Settles L)
    (hfallback : ∀ b ∈ fallback.toList, b.Settles L) {comparison : Option MethodRef} :
    L.Settles (L.due n + (L.dues (cases.flatMap (·.tests)) + L.dues (cases.map (·.body))) +
        L.dues fallback.toList) (Emit.switch n cases fallback comparison ty exit) := by
  have hdispatch : ∀ {subject : Operand} {labels : List Label} {default : Label},
      labels.length = cases.length → L.Settles (L.dues (cases.flatMap (·.tests)))
        (Emit.dispatch subject cases comparison labels default) := by
    intro subject labels default hlength
    refine seq options fun o => ?_
    split
    · next hkeys =>
        rw [dues_of_tableKeys hkeys]
        exact tableDispatch
    · exact linearDispatch htests hlength
  have hdefault : L.Settles (L.dues fallback.toList) (Emit.defaultBody fallback ty exit) := by
    cases fallback with
    | some body => exact of_eq (hfallback body List.mem_cons_self).branch (by simp)
    | none => exact seq pushDefault fun _ => done
  refine seq checkSwitch fun _ => withTemps ?_
  refine of_eq (part hn.value fun _ => seq spillOperand fun _ => newLabels fun (labels : List Label) hlength =>
    label fun fallback => label fun ready => ?_) (add_assoc _ _ _)
  have hbodies : L.Settles (↑labels + L.dues (cases.map (·.body)))
      (Emit.caseBodies ty exit ready (cases.zip labels)) := by
    have hfst : (cases.zip labels).map (·.1.body) = cases.map (·.body) := by
      have hmap := List.map_map (g := SwitchCase.body) (f := Prod.fst) (l := cases.zip labels)
      rw [List.map_fst_zip (Nat.le_of_eq hlength.symm)] at hmap
      exact hmap.symm
    have hsnd : (cases.zip labels).map (·.2) = labels := List.map_snd_zip (Nat.le_of_eq hlength)
    rw [← hfst]
    nth_rewrite 1 [← hsnd]
    exact caseBodies fun c hc => hbodies c.1 (List.of_mem_zip hc).1
  refine of_eq (part (hdispatch hlength) fun _ => part hbodies fun _ => markThen
    (part hdefault fun _ => markThen done)) ?_
  abel

/-! ## Protected blocks -/

theorem checkHandler {h : CatchBlock Node} : L.Clear (Emit.checkHandler h) := by
  refine seq registry fun _ => ite mismatch ?_
  split
  · exact ite done mismatch
  · exact done

theorem protectedPart (hn : n.Settles L) {p : ProtectedBlock} :
    L.Settles (L.due n) (Emit.protectedPart n p) := by
  unfold Emit.protectedPart
  split
  · exact first hn.guarded fun _ => seq wrapIf fun _ => instr
  · exact first hn.guarded fun _ => done

theorem storeException {binder : Option Variable} : L.Clear (Emit.storeException binder) := by
  cases binder with
  | some v => exact seq varSlot fun _ => storeVar
  | none => exact instr

/-- A handler with its filter. -/
theorem handler {h : CatchBlock Node} (hparts : ∀ n ∈ h.filter.toList ++ [h.body], n.Settles L)
    {p : ProtectedBlock} :
    L.Settles (L.dues (h.filter.toList ++ [h.body])) (Emit.handler h p) := by
  obtain ⟨hfilter, hbody⟩ := List.forall_mem_append.mp hparts
  have hrest : ∀ kind : RegionKind Label, L.Settles (L.due h.body) (do
      let handlerStart ← newLabel
      let handlerEnd ← newLabel
      Emit.mark handlerStart
      Emit.storeException h.binder
      Emit.protectedPart h.body p
      Emit.instr (.leave p.done)
      Emit.mark handlerEnd
      Emit.addRegion ⟨p.bodyStart, p.bodyEnd, handlerStart, handlerEnd, kind, p.depth⟩) := by
    intro kind
    refine label fun start => label fun finish => of_eq (markThen (seq storeException fun _ =>
      part (protectedPart (hbody h.body List.mem_cons_self)) fun _ => seq instr fun _ =>
      markThen addRegion)) ?_
    abel
  refine withLocals ?_
  rw [dues_append, dues_cons, dues_nil, add_zero]
  split
  · next filter hsome =>
      rw [hsome] at hfilter ⊢
      rw [Option.toList_some, dues_cons, dues_nil, add_zero]
      refine label fun start => markThen (seq storeException fun _ =>
        part (hfilter filter List.mem_cons_self).guarded fun _ => ?_)
      exact ite (seq instr fun _ => seq instr fun _ => hrest _) (seq instr fun _ => hrest _)
  · next hnone =>
      rw [hnone]
      exact of_eq (hrest _) (zero_add _)

theorem unwindBlock (hn : n.Settles L) {kind : RegionKind Label} {coveredEnd : Label}
    {p : ProtectedBlock} : L.Settles (L.due n) (Emit.unwindBlock n kind coveredEnd p) := by
  refine label fun start => label fun finish => of_eq (markThen (part hn.guarded fun _ =>
    seq instr fun _ => markThen (seq addRegion fun _ => done))) ?_
  abel

/-- The operands of the handlers of a protected block. -/
def handlerParts (handlers : List (CatchBlock Node)) : List Node :=
  handlers.flatMap fun h => h.filter.toList ++ [h.body]

/-- What is emitted of the regions of a protected block behind those of its handlers. -/
def regionsRest (finallyBlock faultBlock : Option Node) (p : ProtectedBlock) (handlersEnd : Label) :
    Emit Unit := do
  let coveredEnd ←
    match faultBlock with
    | some block => Emit.unwindBlock block .fault handlersEnd p
    | none => Pure.pure handlersEnd
  match finallyBlock with
  | some block =>
      let _ ← Emit.unwindBlock block .finally coveredEnd p
  | none => Pure.pure ()

/-- The regions of a protected block, which mark the end of its body. -/
theorem regions (hn : n.Settles L) {handlers : List (CatchBlock Node)}
    {finallyBlock faultBlock : Option Node}
    (hhandlers : ∀ h ∈ handlers, ∀ n ∈ h.filter.toList ++ [h.body], n.Settles L)
    (hfinally : ∀ n ∈ finallyBlock.toList, n.Settles L) (hfault : ∀ n ∈ faultBlock.toList, n.Settles L)
    {p : ProtectedBlock} :
    L.Settles ({p.bodyEnd} + (L.due n + L.dues (handlerParts handlers) + L.dues finallyBlock.toList +
      L.dues faultBlock.toList)) (Emit.regions n handlers finallyBlock faultBlock p) := by
  have hforM : L.Settles (L.dues (handlerParts handlers)) (handlers.forM fun h => Emit.handler h p) := by
    have hsum : L.dues (handlerParts handlers) =
        (handlers.map fun h => L.dues (h.filter.toList ++ [h.body])).sum := by
      clear hhandlers
      induction handlers with
      | nil => rfl
      | cons h handlers ih =>
          rw [List.map_cons, List.sum_cons, ← ih, handlerParts, List.flatMap_cons, dues_append]
          rfl
    rw [hsum]
    exact forM fun h hh => handler (hhandlers h hh)
  have hblocks : ∀ handlersEnd : Label, L.Settles (L.dues faultBlock.toList + L.dues finallyBlock.toList)
      (regionsRest finallyBlock faultBlock p handlersEnd) := by
    intro handlersEnd
    have hfinally : ∀ coveredEnd : Label, L.Settles (L.dues finallyBlock.toList)
        (regionsRest finallyBlock none p coveredEnd) := by
      intro coveredEnd
      cases finallyBlock with
      | some block =>
          rw [Option.toList_some, dues_cons, dues_nil, add_zero]
          exact seq done fun _ => first (unwindBlock (hfinally block List.mem_cons_self)) fun _ => done
      | none => exact seq done fun _ => done
    cases faultBlock with
    | some block =>
        rw [Option.toList_some, dues_cons, dues_nil, add_zero]
        exact part (unwindBlock (hfault block List.mem_cons_self)) fun _ => hfinally _
    | none => exact of_eq (hfinally _) (zero_add _)
  refine inRegion (of_eq (part (protectedPart hn) fun _ => seq instr fun _ => markThen
    (part hforM fun _ => label fun handlersEnd => markThen (hblocks handlersEnd))) ?_)
  abel

/-- A protected block. -/
theorem tryCatch (hn : n.Settles L) {handlers : List (CatchBlock Node)}
    {finallyBlock faultBlock : Option Node}
    (hhandlers : ∀ h ∈ handlers, ∀ n ∈ h.filter.toList ++ [h.body], n.Settles L)
    (hfinally : ∀ n ∈ finallyBlock.toList, n.Settles L) (hfault : ∀ n ∈ faultBlock.toList, n.Settles L) :
    L.Settles (L.due n + L.dues (handlerParts handlers) + L.dues finallyBlock.toList +
      L.dues faultBlock.toList) (Emit.tryCatch n handlers finallyBlock faultBlock ty) := by
  have hrest : ∀ result, L.Settles (L.due n + L.dues (handlerParts handlers) +
      L.dues finallyBlock.toList + L.dues faultBlock.toList)
      (tryRest n handlers finallyBlock faultBlock ty result) := by
    intro result
    have hload : ∀ {load : Emit Emitted} {done : Label}, L.Clear load →
        L.Settles ({done} + 0) (Emit.mark done >>= fun _ => load) := fun hload => markThen hload
    refine seq temp fun _ => label fun bodyStart => label fun bodyEnd => label fun ready =>
      seq instr fun _ => of_eq (markThen (part (regions hn hhandlers hfinally hfault) fun _ => hload ?_)) ?_
    · cases result with
      | some slot => exact seq instr fun _ => done
      | none => exact done
    · dsimp only
      abel
  have htemps : L.Settles (L.due n + L.dues (handlerParts handlers) + L.dues finallyBlock.toList +
      L.dues faultBlock.toList) (Emit.withTemps do
      let result ← if ty.isVoid then Pure.pure none else some <$> Emit.temp ty
      tryRest n handlers finallyBlock faultBlock ty result) :=
    withTemps (ite (seq done fun result => hrest result) (seq (map temp) fun result => hrest result))
  exact seq (forM_clear fun _ _ => checkHandler) fun _ =>
    ite (seq checkBranch fun _ => seq (forM_clear fun _ _ => checkBranch) fun _ => htemps)
      htemps

end Emit.Ledger

end Arbor
