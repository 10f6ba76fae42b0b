/-
  Functions settle all of their labels.

  The labels of a function are owed from its start on, and its body settles them,
  by induction over the tree.  So the code behind it owes none, the regions that it
  added have their labels marked, and its routine can be finished.
-/
import Arbor.Proofs.Emission.SealedUnits
import Arbor.Proofs.Emission.SettlingControl

set_option autoImplicit false

namespace Arbor

/-! ## Trees whose labels are marked -/

/-- Whether all labels of the operands, and all labels made for the layer, are marked in its code.  The
receiver of a static member is left out of the code, and so must define no labels.  A short-circuit
operator over a plain left operand and an optional right one makes a label that it does not mark,
unless both are constants. -/
def ExprKind.marksLabels (r : Registry) : ExprKind Expr → Bool
  | logical _ left right =>
      !right.ty.isNullable || left.ty.isNullable ||
        (left.constantTruth?.isSome && right.constantTruth?.isSome)
  | member receiver (.field f) =>
      !(r.field f).toOption.any (·.isStatic) || receiver.toList.all (·.targets.isEmpty)
  | member receiver (.property p) =>
      !(r.property p).toOption.any (·.isStatic) || receiver.toList.all (·.targets.isEmpty)
  | index receiver _ (some p) => !(r.property p).toOption.any (·.isStatic) || receiver.targets.isEmpty
  | _ => true

/-- Whether all labels are marked in the code of a tree and of the functions nested in it. -/
def Expr.marksLabels (r : Registry) : Expr → Bool :=
  para fun k _ => (k.map Prod.fst).marksLabels r && k.operands.all Prod.snd

/-- All labels of a node are marked if those of its layer and of its operands are. -/
theorem Expr.marksLabels_node (r : Registry) (k : ExprKind Expr) (ty : Ty) :
    (Expr.node k ty).marksLabels r = (k.marksLabels r && k.operands.all (Expr.marksLabels r)) := by
  have hsame : ∀ f : Expr → Bool, (k.map fun e => (e, f e)).map Prod.fst = k := by
    intro f
    rw [ExprKind.map_map]
    exact ExprKind.map_eq_of_forall fun _ _ => rfl
  unfold marksLabels
  rw [para_node, hsame, ExprKind.operands_map, List.all_map]
  rfl

namespace Emit.Ledger

variable {α : Type} {L : Ledger} {ty : Ty} {exit : Option Label}

/-! ## Layers -/

@[simp] theorem known_nil : L.known [] = 0 := rfl

@[simp] theorem known_append (ts us : List LabelTarget) : L.known (ts ++ us) = L.known ts + L.known us := by
  simp [known]

theorem dues_eq_known (ns : List Node) : L.dues ns = L.known (ns.flatMap (·.expr.targets)) := by
  induction ns with
  | nil => rfl
  | cons n ns ih => rw [dues_cons, ih, List.flatMap_cons, known_append, Ledger.due]

/-- What is due to the cases of a switch is due to their tests and to their bodies. -/
theorem dues_cases (cases : List (SwitchCase Node)) :
    L.dues (cases.flatMap fun c => c.tests ++ [c.body]) =
      L.dues (cases.flatMap (·.tests)) + L.dues (cases.map (·.body)) := by
  induction cases with
  | nil => rfl
  | cons c cases ih =>
      simp only [List.flatMap_cons, List.map_cons, dues_append, dues_cons, dues_nil, ih]
      abel

/-- A short-circuit operator is not lifted over its right operand alone. -/
def Lifts (k : ExprKind Node) : Prop :=
  match k with
  | .logical _ left right => right.ty.isNullable →
      ¬(left.expr.constantTruth?.isSome ∧ right.expr.constantTruth?.isSome) → left.ty.isNullable = true
  | _ => True

/-- A layer settles its labels and those of its operands. -/
theorem layer {k : ExprKind Node} (hk : ∀ n ∈ k.children, n.Settles L)
    (hfunctions : ∀ l ∈ k.functions, L.Clear (Emit.function l)) (hlifts : Lifts k)
    (hstatic : L.StaticPlaces k) {place : Option Label → Bool → Emit (Place × Bool)}
    (hplace : ∀ exit extend, L.Settles (L.known k.ownTargets + L.dues k.children) (place exit extend))
    {shape : Shape} :
    L.Settles (L.known k.ownTargets + L.dues k.children) (Emit.layer k ty place exit shape) := by
  cases k with
  | constant value => exact constant
  | default => exact seq pushDefault fun _ => done
  | parameter id => exact parameter
  | hoisted i => exact hoisted
  | closureVar i => exact closureVar
  | lambda l => exact hfunctions l List.mem_cons_self
  | member receiver m => exact of_eq (member hk hstatic) (zero_add _)
  | index receiver args indexer =>
      obtain ⟨hreceiver, hargs⟩ := List.forall_mem_cons.mp hk
      have hdue : L.known (ExprKind.index receiver args indexer).ownTargets +
          L.dues (ExprKind.index receiver args indexer).children = L.due receiver + L.dues args :=
        (zero_add _).trans (dues_cons _ _)
      rw [hdue] at hplace ⊢
      exact index hreceiver hargs hplace
  | unary op operand checked method =>
      exact of_eq (unary (hk operand List.mem_cons_self)) (by simp [ExprKind.ownTargets, ExprKind.children])
  | binary op left right checked method =>
      obtain ⟨hleft, hright⟩ := List.forall_mem_cons.mp hk
      exact of_eq (binary hleft (hright right List.mem_cons_self))
        (by simp [ExprKind.ownTargets, ExprKind.children])
  | logical op left right =>
      obtain ⟨hleft, hright⟩ := List.forall_mem_cons.mp hk
      exact of_eq (logical hleft (hright right List.mem_cons_self) hlifts)
        (by simp [ExprKind.ownTargets, ExprKind.children])
  | coalesce left right =>
      obtain ⟨hleft, hright⟩ := List.forall_mem_cons.mp hk
      exact of_eq (coalesce hleft (hright right List.mem_cons_self))
        (by simp [ExprKind.ownTargets, ExprKind.children])
  | conditional test ifTrue ifFalse =>
      obtain ⟨htest, hbranches⟩ := List.forall_mem_cons.mp hk
      obtain ⟨htrue, hfalse⟩ := List.forall_mem_cons.mp hbranches
      exact of_eq (conditional htest htrue (hfalse ifFalse List.mem_cons_self))
        (by simp [ExprKind.ownTargets, ExprKind.children])
  | block vars body => exact of_eq (block hk) (zero_add _)
  | loop body breakLabel continueLabel =>
      exact of_eq (loop (hk body List.mem_cons_self)) (by simp [ExprKind.ownTargets, ExprKind.children])
  | switch value cases fallback comparison =>
      obtain ⟨hrest, hfallback⟩ := List.forall_mem_append.mp hk
      obtain ⟨hvalue, hcases⟩ := List.forall_mem_cons.mp hrest
      have hcase : ∀ c ∈ cases, ∀ n ∈ c.tests ++ [c.body], n.Settles L :=
        fun c hc n hn => hcases n (List.mem_flatMap.mpr ⟨c, hc, hn⟩)
      refine of_eq (switch hvalue (fun c hc => (List.forall_mem_append.mp (hcase c hc)).1)
        (fun c hc => hcase c hc c.body (by simp)) hfallback) ?_
      simp only [ExprKind.ownTargets, ExprKind.children, known_nil, dues_append, dues_cons, dues_cases,
        zero_add]
  | tryCatch body handlers finallyBlock faultBlock =>
      obtain ⟨hrest, hfault⟩ := List.forall_mem_append.mp hk
      obtain ⟨hrest, hfinally⟩ := List.forall_mem_append.mp hrest
      obtain ⟨hbody, hhandlers⟩ := List.forall_mem_cons.mp hrest
      refine of_eq (tryCatch hbody (fun h hh n hn => hhandlers n (List.mem_flatMap.mpr ⟨h, hh, hn⟩))
        hfinally hfault) ?_
      simp only [ExprKind.ownTargets, ExprKind.children, known_nil, dues_append, dues_cons, zero_add]
      rfl
  | call method receiver args =>
      obtain ⟨hreceiver, hargs⟩ := List.forall_mem_append.mp hk
      exact of_eq (call hreceiver hargs) (by simp [ExprKind.ownTargets, ExprKind.children])
  | invoke func args =>
      obtain ⟨hfunc, hargs⟩ := List.forall_mem_cons.mp hk
      exact of_eq (invoke hfunc hargs) (by simp [ExprKind.ownTargets, ExprKind.children])
  | new ctor args => exact of_eq (construct hk) (zero_add _)
  | newArray elem init => exact of_eq (newArray hk) (zero_add _)
  | listInit start items =>
      obtain ⟨hstart, hitems⟩ := List.forall_mem_cons.mp hk
      exact of_eq (listInit hstart hitems) (by simp [ExprKind.ownTargets, ExprKind.children])
  | memberInit start bindings =>
      obtain ⟨hstart, hbindings⟩ := List.forall_mem_cons.mp hk
      exact of_eq (memberInit hstart hbindings) (by simp [ExprKind.ownTargets, ExprKind.children])
  | assign op target value checked autoExtend =>
      obtain ⟨htarget, hvalue⟩ := List.forall_mem_cons.mp hk
      exact of_eq (assign htarget hvalue) (by simp [ExprKind.ownTargets, ExprKind.children])
  | typeTest operand target exact =>
      exact of_eq (typeTest (hk operand List.mem_cons_self))
        (by simp [ExprKind.ownTargets, ExprKind.children])
  | convert operand checked method =>
      exact of_eq (convert (hk operand List.mem_cons_self))
        (by simp [ExprKind.ownTargets, ExprKind.children])
  | typeAs operand =>
      exact of_eq (typeAs (hk operand List.mem_cons_self))
        (by simp [ExprKind.ownTargets, ExprKind.children])
  | throw operand => exact of_eq (throw hk) (zero_add _)
  | goto kind target value => exact of_eq (goto hk) (zero_add _)
  | label target value => exact treeLabel hk

/-- A node settles the labels of its tree if its layer settles them. -/
theorem settles_ofKind {k : ExprKind Node} (hk : ∀ n ∈ k.children, n.Settles L)
    (hfunctions : ∀ l ∈ k.functions, L.Clear (Emit.function l)) (hlifts : Lifts k)
    (hstatic : L.StaticPlaces k) : (Node.ofKind k ty).Settles L := by
  have hdue : L.due (Node.ofKind k ty) = L.known k.ownTargets + L.dues k.children := by
    have hown : (k.map Node.expr).ownTargets = k.ownTargets := by cases k <;> rfl
    rw [Ledger.due, Node.ofKind, Expr.targets_node, hown, ExprKind.children_map, List.flatMap_map,
      known_append, dues_eq_known]
  refine ⟨fun exit shape extend => ?_, fun exit extend => ?_⟩
  · rw [hdue]
    simp only [Node.ofKind]
    split
    · exact first (created fun _ _ => placeOf hk hstatic) fun _ => adapt
    · exact first (layer hk hfunctions hlifts hstatic fun _ _ => placeOf hk hstatic) fun _ => adapt
  · rw [hdue]
    exact placeOf hk hstatic

/-! ## Functions -/

/-- The code of the function does not fail for want of a label, wherever its unit is started. -/
def Finishes (setting : Setting) (l : Lambda Node) : Prop :=
  ∀ session e t, (Emit.unitBody l).run setting (Emit.unitStart l session) = .error e t → e.isBuild = false

/-- A function inside another one owes no labels to it. -/
theorem nestedUnit {l : Lambda Node} (h : Ledger.Finishes L.setting l) : L.Clear (Emit.nestedUnit l) := by
  intro s rest htable howes
  simp only [Emit.nestedUnit]
  split
  · exact ⟨htable, owes_addChild howes _⟩
  · next e inner hrun => exact h _ _ _ hrun

/-- A function value. -/
theorem function {l : Lambda Node} (h : Ledger.Finishes L.setting l) : L.Clear (Emit.function l) := by
  refine seq hiddenParams fun own => ite (fail rfl) ?_
  have hpack : ∀ package : InvokerShape, ∀ child, L.Clear (do
      if l.hidden.closure then Emit.instrs (own.closureArg?.toList.map Instr.loadArg)
      Emit.instrs [.loadFunction child, .newInvoker package.captured]
      Pure.pure (Emitted.ofTy package.ty false)) := fun package child =>
    ite (seq instrs fun _ => seq instrs fun _ => done) (seq instrs fun _ => done)
  split
  · next e hpackage =>
      refine fail ?_
      unfold InvokerShape.of at hpackage
      split at hpackage
      · cases hpackage
        rfl
      · split at hpackage <;> cases hpackage
        rfl
  · exact seq (nestedUnit h) fun _ => ite (seq instrs fun _ => hpack _ _) (hpack _ _)

/-- The labels that are owed are those that are known, and nothing else is known. -/
structure Opened (setting : Setting) (ts : List LabelTarget) (s : Emission) : Prop where
  owes : s.builder.Owes ((Ledger.mk setting s.labels).known ts)
  known : ∀ id info, s.labels.lookup id = some info → id ∈ ts.map (·.id)

/-- A label of the tree becomes known, and is owed. -/
theorem Opened.defineTarget {setting : Setting} {ts : List LabelTarget} {s : Emission}
    (h : Opened setting ts s) {target : LabelTarget} (hid : target.id ∉ ts.map (·.id)) (depth : Nat) :
    ∃ t, (Emit.defineTarget target depth).run setting s = .ok () t ∧ Opened setting (ts ++ [target]) t := by
  have hnew : s.labels.lookup target.id = none := by
    cases hlookup : s.labels.lookup target.id with
    | none => rfl
    | some info => exact absurd (h.known _ _ hlookup) hid
  have hrecord : ∀ slot (s' : Emission), s'.labels = s.labels →
      s'.builder.labels = s.builder.defineLabel.2.labels → ∃ t,
      (recordTarget target.id ⟨s.builder.defineLabel.1, target.ty, slot, depth⟩).run setting s' =
        .ok () t ∧ Opened setting (ts ++ [target]) t := by
    intro slot s' htable hlabels
    refine ⟨{ s' with labels := (target.id, ⟨s.builder.defineLabel.1, target.ty, slot, depth⟩) :: s.labels },
      by simp [recordTarget, htable, hnew], ?_, fun id info hlookup => ?_⟩
    · have hsame : (Ledger.mk setting ((target.id, ⟨s.builder.defineLabel.1, target.ty, slot, depth⟩) ::
          s.labels)).known (ts ++ [target]) =
          {s.builder.defineLabel.1} + (Ledger.mk setting s.labels).known ts := by
        have hold : (Ledger.mk setting ((target.id, ⟨s.builder.defineLabel.1, target.ty, slot, depth⟩) ::
            s.labels)).known ts = (Ledger.mk setting s.labels).known ts := by
          refine congrArg _ (List.filterMap_congr fun t ht => ?_)
          have hne : t.id ≠ target.id := fun heq => hid (heq ▸ List.mem_map_of_mem ht)
          rw [List.lookup_cons, beq_eq_false_iff_ne.mpr hne]
        rw [known_append, hold, add_comm]
        simp [Ledger.known]
      rw [hsame]
      exact h.owes.defineLabel.congr hlabels
    · rw [List.lookup_cons] at hlookup
      split at hlookup
      · next hsame => simp [beq_iff_eq.mp hsame]
      · simpa using .inl (by simpa using h.known id info hlookup)
  have hknown : (Emit.read fun _ s => .ok (s.labels.lookup target.id).isSome).run setting s = .ok false s := by
    simp [Emit.read, hnew]
  unfold Emit.defineTarget
  rw [run_of_bind hknown, if_neg Bool.false_ne_true, run_of_bind (x := newLabel) rfl]
  split
  · exact hrecord none _ rfl rfl
  · exact hrecord _ _ rfl (s.pool.acquire_labels s.builder.defineLabel.2 target.ty)

/-- All labels of the tree become known, if no two of them have one number. -/
theorem Opened.defineTargets {setting : Setting} {ts : List LabelTarget} {s : Emission}
    (h : Opened setting ts s) {more : List (LabelTarget × Nat)}
    (hnodup : ((ts ++ more.map (·.1)).map (·.id)).Nodup) :
    ∃ t, (more.forM fun (target, depth) => Emit.defineTarget target depth).run setting s = .ok () t ∧
      Opened setting (ts ++ more.map (·.1)) t := by
  induction more generalizing ts s with
  | nil => exact ⟨s, rfl, by rwa [List.map_nil, List.append_nil]⟩
  | cons x more ih =>
      rw [List.map_cons, List.append_cons] at hnodup ⊢
      have hid : x.1.id ∉ ts.map (·.id) := by
        rw [List.map_append, List.map_append] at hnodup
        intro hmem
        have hfirst := (List.nodup_append.mp (List.nodup_append.mp hnodup).1).2.2
        exact hfirst _ hmem _ (List.mem_singleton.mpr rfl) rfl
      obtain ⟨u, hu, hopened⟩ := h.defineTarget hid x.2
      obtain ⟨t, ht, hall⟩ := ih hopened hnodup
      exact ⟨t, (run_of_bind hu).trans ht, hall⟩

theorem functionCode_settles {l : Lambda Node} (hn : l.body.Settles L) :
    L.Settles (L.due l.body) (functionCode l) :=
  ite (first hn.guarded fun _ => instr)
    (seq checkBranch fun _ => first hn.guarded fun _ => seq wrapIf fun _ => instr)

/-- Parameters do not fail for want of a label. -/
theorem isBuild_of_paramScope {count i : Nat} {params : List Variable} {e : CompileError}
    (h : Emit.paramScope count i params = .error e) : e.isBuild = false := by
  induction params generalizing i with
  | nil => cases h
  | cons v params ih =>
      unfold Emit.paramScope at h
      split at h
      · cases hrest : Emit.paramScope count (i + 1) params with
        | ok scope =>
            rw [hrest] at h
            cases h
        | error e' =>
            rw [hrest] at h
            cases h
            exact ih hrest
      · cases h
        rfl

/-- What owes no labels, and is sealed off from the start of a unit on, can be finished. -/
theorem isBuild_of_finishUnit {S : Sealing} {setting : Setting} {s t u : Emission} {e : CompileError}
    (hblank : Blank s) (hsealed : S.Seals [] none [] s t) (howes : t.builder.Owes 0)
    (hrun : finishUnit.run setting t = .error e u) : e.isBuild = false := by
  obtain ⟨⟨added, hsealed⟩, -⟩ := hsealed
  obtain ⟨new, hnew, hresolves⟩ := hsealed.regions
  rw [hblank.regions, List.nil_append] at hnew
  obtain ⟨R, hR⟩ := Builder.exists_finish howes (hnew ▸ hresolves) (.unit t.session.finished.size)
  simp [finishUnit, hR] at hrun

/-- The body of a function can be finished if its labels have different numbers and it settles them. -/
theorem isBuild_of_functionBody {setting : Setting} {l : Lambda Expr}
    (hdistinct : (l.targets.map (·.1.id)).Nodup)
    (hbody : ∀ table, l.body.toNode.Settles ⟨setting, table⟩) {s t : Emission} {e : CompileError}
    (hblank : Blank s) (hopened : Opened setting [] s)
    (hrun : (functionBody (l.map Expr.toNode)).run setting s = .error e t) : e.isBuild = false := by
  have hnodup : (([] ++ l.targets.map Prod.fst).map LabelTarget.id).Nodup := by
    rwa [List.nil_append, List.map_map]
  obtain ⟨s₁, hdefined, hopened⟩ := hopened.defineTargets hnodup
  have hblank : Blank s₁ := hblank.defineTargets hdefined
  rw [functionBody_eq, targetsAt_map, run_of_bind hdefined] at hrun
  have hdue : (Ledger.mk setting s₁.labels).known ([] ++ l.targets.map (·.1)) =
      (Ledger.mk setting s₁.labels).due l.body.toNode + 0 := by
    rw [add_zero, List.nil_append, Ledger.due, Expr.toNode_expr]
    rfl
  have hsettled := functionCode_settles (l := l.map Expr.toNode) (hbody s₁.labels) s₁ 0 rfl
    (hdue ▸ hopened.owes)
  cases hcode : (functionCode (l.map Expr.toNode)).run setting s₁ with
  | error e' u =>
      rw [hcode] at hsettled
      change (Emit.andThen _ _).run setting s₁ = _ at hrun
      simp only [Emit.andThen, hcode] at hrun
      cases hrun
      exact hsettled
  | ok a u =>
      rw [hcode] at hsettled
      rw [run_of_bind hcode] at hrun
      -- The labels of its regions are marked, since these are sealed off.
      let S : Sealing := ⟨s₁.builder.labels.size, False, fun _ _ => True⟩
      have hready : S.Ready s₁ [] none := ⟨⟨Nat.le_refl _, fun l hl => by simp at hl⟩, hblank.table⟩
      have hkeeps : l.body.toNode.Keeps (sealing S) :=
        seals_tree l.body (fun h => h.elim) fun _ _ _ _ _ _ => trivial
      obtain ⟨hsealed, -⟩ := Policy.functionCode (l := l.map Expr.toNode) hkeeps _ _ _ _ hcode hready
      exact isBuild_of_finishUnit hblank hsealed hsettled.2 hrun

/-- A function can be finished if its labels have different numbers and its body settles them. -/
theorem finishes {setting : Setting} {l : Lambda Expr} (hdistinct : (l.targets.map (·.1.id)).Nodup)
    (hbody : ∀ table, l.body.toNode.Settles ⟨setting, table⟩) :
    Ledger.Finishes setting (l.map Expr.toNode) := by
  intro session e t hrun
  simp only [unitBody, withParams] at hrun
  split at hrun
  · simp only [Emit.inScope] at hrun
    split at hrun
    · cases hrun
    · next hfunction =>
        cases hrun
        have hunknown : ∀ id info, ([] : List (LabelId × LabelInfo)).lookup id ≠ some info := by
          intro id info h
          cases h
        refine isBuild_of_functionBody hdistinct hbody (blank_unitStart _ session _)
          ⟨⟨Multiset.nodup_zero, fun l => ?_⟩, fun id info h => (hunknown id info h).elim⟩ hfunction
        simp [unitStart, Emission.start, Builder.empty, Ledger.known]
  · next hscope =>
      cases hrun
      exact isBuild_of_paramScope hscope

/-! ## Trees -/

/-- A layer whose labels are marked is not lifted over its right operand alone. -/
theorem lifts_of_marksLabels {r : Registry} {k : ExprKind Expr} (h : k.marksLabels r) :
    Lifts (k.map Expr.toNode) := by
  cases k with
  | logical op left right =>
      simp only [ExprKind.marksLabels, Bool.or_eq_true, Bool.not_eq_true', Bool.and_eq_true] at h
      intro hright hconstant
      rw [Expr.toNode_ty] at hright ⊢
      rw [Expr.toNode_expr, Expr.toNode_expr] at hconstant
      rcases h with (h | h) | h
      · rw [hright] at h
        cases h
      · exact h
      · exact absurd h hconstant
  | _ => trivial

/-- The receiver of a static member defines no labels, where all labels of the layer are marked. -/
theorem staticPlaces_of_marksLabels {k : ExprKind Expr} (h : k.marksLabels L.setting.registry) :
    L.StaticPlaces (k.map Expr.toNode) := by
  have hdue : ∀ {e : Expr}, e.targets.isEmpty → L.due e.toNode = 0 := fun {e} he =>
    due_eq_zero (by rw [Expr.toNode_expr]; exact List.isEmpty_iff.mp he)
  have hdues : ∀ {receiver : Option Expr}, receiver.toList.all (·.targets.isEmpty) →
      L.dues (receiver.map Expr.toNode).toList = 0 := by
    intro receiver hall
    refine dues_eq_zero fun n hn => ?_
    rw [Option.toList_map] at hn
    obtain ⟨e, he, rfl⟩ := List.mem_map.mp hn
    exact hdue (List.all_eq_true.mp hall e he)
  cases k with
  | member receiver m =>
      cases m with
      | field f =>
          intro d hd hstatic
          simp only [ExprKind.marksLabels, hd, Except.toOption, Option.any_some, hstatic] at h
          exact hdues h
      | property p =>
          intro d hd hstatic
          simp only [ExprKind.marksLabels, hd, Except.toOption, Option.any_some, hstatic] at h
          exact hdues h
      | _ => trivial
  | index receiver args indexer =>
      cases indexer with
      | some p =>
          intro d hd hstatic
          simp only [ExprKind.marksLabels, hd, Except.toOption, Option.any_some, hstatic] at h
          exact hdue h
      | none => trivial
  | _ => trivial

/-- The labels of a tree are settled, if none is left out of its code and no two labels of a function in
it have one number. -/
theorem settles_tree {setting : Setting} (e : Expr) (hmarks : e.marksLabels setting.registry)
    (hdistinct : ∀ f ∈ e.functions, (f.targets.map (·.1.id)).Nodup) (table : List (LabelId × LabelInfo)) :
    e.toNode.Settles ⟨setting, table⟩ := by
  induction e using Expr.induct generalizing table with
  | node k ty ih =>
      rw [Expr.marksLabels_node, Bool.and_eq_true, List.all_eq_true] at hmarks
      obtain ⟨hmarks, hoperands⟩ := hmarks
      simp only [Expr.functions_node, List.mem_append, List.mem_flatMap] at hdistinct
      have hsettles : ∀ e ∈ k.operands, ∀ table, e.toNode.Settles ⟨setting, table⟩ := fun e he =>
        ih e he (hoperands e he) fun f hf => hdistinct f (.inr ⟨e, he, hf⟩)
      rw [Expr.toNode_node]
      refine settles_ofKind ?_ ?_ (lifts_of_marksLabels hmarks) (staticPlaces_of_marksLabels hmarks)
      · rw [ExprKind.children_map]
        exact List.forall_mem_map.mpr fun e he => hsettles e (ExprKind.mem_operands he) table
      · intro l hl
        cases k with
        | lambda l' =>
            cases List.mem_singleton.mp hl
            exact function (finishes (hdistinct l' (.inl List.mem_cons_self))
              (hsettles l'.body List.mem_cons_self))
        | _ => cases hl

end Emit.Ledger

end Arbor
