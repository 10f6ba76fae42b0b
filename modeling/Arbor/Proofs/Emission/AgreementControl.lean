/-
  Relations between emitters: initializers, conversions, control flow, switches and
  protected blocks, and with them all layers.

  A protected block stands around its operands, so that they have to be related inside
  one protected region more than the block does.
-/
import Arbor.Proofs.Emission.Agreement

set_option autoImplicit false

namespace Arbor

/-- Replaces the operands of one layer by `f`, and the body of a nested function by `inner`. -/
def ExprKind.mapUnit {α β : Type} (f inner : α → β) : ExprKind α → ExprKind β
  | lambda l => lambda (l.map inner)
  | k => k.map f

namespace Emit.Congruence.Rel

variable {α : Type} {C : Emit.Congruence} {depth : Nat} {m n : Node} {ty : Ty}
  {exit : Option Label} {f g : α → Node}

/-! ## Initializers -/

theorem elementInit {item : ElementInit α} (h : ∀ a ∈ item.args, (f a).Related C depth (g a)) :
    C.Rel depth (Emit.elementInit (item.map f) exit) (Emit.elementInit (item.map g) exit) :=
  behind fun _ => behind fun _ => behind fun _ => first (arguments h)

theorem elementInits {items : List (ElementInit α)}
    (h : ∀ a ∈ items.flatMap (·.args), (f a).Related C depth (g a)) :
    C.Rel depth (Emit.elementInits exit (items.map (ElementInit.map f)))
      (Emit.elementInits exit (items.map (ElementInit.map g))) := by
  induction items with
  | nil => exact refl
  | cons item items ih =>
      obtain ⟨hitem, hitems⟩ := List.forall_mem_append.mp h
      exact bind (elementInit hitem) fun _ => first (ih hitems)

theorem listInit (hn : m.Related C depth n) {items : List (ElementInit α)}
    (h : ∀ a ∈ items.flatMap (·.args), (f a).Related C depth (g a)) :
    C.Rel depth (Emit.listInit m (items.map (ElementInit.map f)) exit)
      (Emit.listInit n (items.map (ElementInit.map g)) exit) := by
  unfold Emit.listInit
  rw [hn.ty_eq]
  exact bind hn.value fun _ => first (elementInits h)

mutual

theorem binding : (b : Binding α) → (∀ a ∈ b.children, (f a).Related C depth (g a)) →
    C.Rel depth (Emit.binding exit (b.map f)) (Emit.binding exit (b.map g))
  | .assign m value, h => by
      have hvalue := h _ List.mem_cons_self
      unfold Binding.map Emit.binding
      rw [hvalue.ty_eq]
      exact first hvalue.value
  | .member _ bindings, h => behind fun _ => first (eachBinding bindings h)
  | .list _ _, h => behind fun _ => first (elementInits h)
  termination_by structural b => b

/-- Bindings. -/
theorem eachBinding {load : Emit Unit} : (bs : List (Binding α)) →
    (∀ a ∈ Binding.childrenList bs, (f a).Related C depth (g a)) →
    C.Rel depth (Emit.eachBinding exit load (Binding.mapList f bs))
      (Emit.eachBinding exit load (Binding.mapList g bs))
  | [], _ => refl
  | b :: bs, h =>
      behind fun _ => bind (binding b (List.forall_mem_append.mp h).1) fun _ =>
        first (eachBinding bs (List.forall_mem_append.mp h).2)
  termination_by structural bs => bs

end

theorem memberInit (hn : m.Related C depth n) {bindings : List (Binding α)}
    (h : ∀ a ∈ Binding.childrenList bindings, (f a).Related C depth (g a)) :
    C.Rel depth (Emit.memberInit m (Binding.mapList f bindings) exit)
      (Emit.memberInit n (Binding.mapList g bindings) exit) := by
  unfold Emit.memberInit
  rw [hn.ty_eq]
  refine ite (withTemps ?_) ?_
  · exact bind hn.value fun _ => behind fun _ => first (eachBinding bindings h)
  · exact bind hn.value fun _ => first (eachBinding bindings h)

/-! ## Conversions -/

theorem boxedOperand (h : m.Related C depth n) :
    C.Rel depth (Emit.boxedOperand m exit) (Emit.boxedOperand n exit) := by
  unfold Emit.boxedOperand
  rw [h.ty_eq]
  exact first h.value

theorem typeTest (h : m.Related C depth n) {target : Ty} {exact : Bool} :
    C.Rel depth (Emit.typeTest m target exact exit) (Emit.typeTest n target exact exit) :=
  first (boxedOperand h)

theorem typeAs (h : m.Related C depth n) :
    C.Rel depth (Emit.typeAs m ty exit) (Emit.typeAs n ty exit) :=
  ite refl (first (boxedOperand h))

theorem numericConversion (h : m.Related C depth n) {source target : NumKind} {checked : Bool} :
    C.Rel depth (Emit.numericConversion m source target checked ty exit)
      (Emit.numericConversion n source target checked ty exit) := by
  unfold Emit.numericConversion
  rw [h.ty_eq]
  exact ite (withTemps (first h.value)) (first h.value)

theorem userConversion (h : m.Related C depth n) {method : MethodRef} :
    C.Rel depth (Emit.userConversion m method ty exit)
      (Emit.userConversion n method ty exit) := by
  unfold Emit.userConversion
  rw [h.ty_eq]
  refine behind fun sig => behind fun _ => ?_
  dsimp only
  split
  · exact ite (first h.value) (ite refl (withTemps (first h.value)))
  · exact refl

/-- A conversion. -/
theorem convert (h : m.Related C depth n) {checked : Bool} {method : Option MethodRef} :
    C.Rel depth (Emit.convert m checked method ty exit)
      (Emit.convert n checked method ty exit) := by
  cases method with
  | some method => exact userConversion h
  | none =>
      unfold Emit.convert
      rw [h.ty_eq]
      dsimp only
      split
      · exact numericConversion h
      · exact first h.value

/-! ## Control flow -/

theorem checkBranches {branches : List α} (h : ∀ a ∈ branches, (f a).Related C depth (g a)) :
    C.Rel depth (Emit.checkBranches ty (branches.map f))
      (Emit.checkBranches ty (branches.map g)) := by
  refine ite refl (forM fun a ha => ?_)
  rw [(h a ha).checkBranch]
  exact refl

/-- A conditional. -/
theorem conditional {test ifTrue ifFalse : α}
    (h : ∀ a ∈ [test, ifTrue, ifFalse], (f a).Related C depth (g a)) {shape : Shape} :
    C.Rel depth (Emit.conditional (f test) (f ifTrue) (f ifFalse) ty exit shape)
      (Emit.conditional (g test) (g ifTrue) (g ifFalse) ty exit shape) := by
  obtain ⟨htest, hbranches⟩ := List.forall_mem_cons.mp h
  obtain ⟨htrue, hfalse⟩ := List.forall_mem_cons.mp hbranches
  unfold Emit.conditional
  rw [htest.ty_eq]
  refine ite refl ?_
  exact bind (checkBranches hbranches) fun _ => behind fun _ => behind fun _ =>
    bind htest.guarded fun _ => behind fun _ => behind fun _ => bind htrue.branch fun _ =>
      behind fun _ => behind fun _ => first (hfalse _ List.mem_cons_self).branch

theorem statement (h : m.Related C depth n) :
    C.Rel depth (Emit.statement m) (Emit.statement n) :=
  first (withLanding fun _ => h.emit _ _ _)

/-- Statements. -/
theorem statements {body : List α} (h : ∀ a ∈ body, (f a).Related C depth (g a))
    {shape : Shape} :
    C.Rel depth (Emit.statements ty exit shape (body.map f))
      (Emit.statements ty exit shape (body.map g)) := by
  induction body with
  | nil => exact refl
  | cons a body ih =>
      obtain ⟨ha, hbody⟩ := List.forall_mem_cons.mp h
      cases body with
      | nil =>
          simp only [List.map_cons, List.map_nil, Emit.statements]
          rw [ha.ty_eq, ha.checkBranch]
          exact ite (first ha.effect) (behind fun _ => ite (ha.emit _ _ _) (first ha.branch))
      | cons b body => exact bind (statement ha) fun _ => ih hbody

theorem block {vars : List Variable} {body : List α} (h : ∀ a ∈ body, (f a).Related C depth (g a))
    {shape : Shape} :
    C.Rel depth (Emit.block vars (body.map f) ty exit shape)
      (Emit.block vars (body.map g) ty exit shape) :=
  withTemps (withLocals (statements h))

theorem loop (h : m.Related C depth n) {breakLabel continueLabel : Option LabelTarget} :
    C.Rel depth (Emit.loop m breakLabel continueLabel ty)
      (Emit.loop n breakLabel continueLabel ty) := by
  cases continueLabel <;> exact behind fun _ => behind fun _ => first (statement h)

/-- A jump. -/
theorem goto {target : LabelTarget} {value : Option α}
    (h : ∀ a ∈ value.toList, (f a).Related C depth (g a)) :
    C.Rel depth (Emit.goto target (value.map f)) (Emit.goto target (value.map g)) := by
  refine behind fun info => ?_
  cases value with
  | none => exact refl
  | some a =>
      have ha := h a List.mem_cons_self
      dsimp only [Option.map_some]
      rw [ha.ty_eq]
      exact first ha.guarded

/-- A label. -/
theorem label {target : LabelTarget} {value : Option α}
    (h : ∀ a ∈ value.toList, (f a).Related C depth (g a)) :
    C.Rel depth (Emit.label target (value.map f)) (Emit.label target (value.map g)) := by
  refine behind fun info => ?_
  cases value with
  | none => exact refl
  | some a =>
      have ha := h a List.mem_cons_self
      cases info.valueSlot with
      | none => exact first ha.guarded
      | some slot =>
          dsimp only [Option.map_some]
          rw [ha.ty_eq]
          exact first ha.guarded

theorem throw {operand : Option α} (h : ∀ a ∈ operand.toList, (f a).Related C depth (g a)) :
    C.Rel depth (Emit.throw (operand.map f)) (Emit.throw (operand.map g)) := by
  cases operand with
  | none => exact refl
  | some a =>
      have ha := h a List.mem_cons_self
      simp only [Option.map_some, Emit.throw]
      rw [ha.ty_eq]
      exact ite (first ha.guarded) refl

/-! ## Switches -/

/-- Operands of cases: the tests and the body of each. -/
theorem of_case {cases : List (SwitchCase α)}
    (h : ∀ a ∈ cases.flatMap (fun c => c.tests ++ [c.body]), (f a).Related C depth (g a))
    {c : SwitchCase α} (hc : c ∈ cases) :
    (∀ a ∈ c.tests, (f a).Related C depth (g a)) ∧ (f c.body).Related C depth (g c.body) := by
  have hall : ∀ a ∈ c.tests ++ [c.body], (f a).Related C depth (g a) :=
    fun a ha => h a (List.mem_flatMap.mpr ⟨c, hc, ha⟩)
  obtain ⟨htests, hbody⟩ := List.forall_mem_append.mp hall
  exact ⟨htests, hbody _ List.mem_cons_self⟩

theorem checkTests {value : Ty} {cases : List (SwitchCase α)}
    (h : ∀ a ∈ cases.flatMap (fun c => c.tests ++ [c.body]), (f a).Related C depth (g a)) :
    C.Rel depth (Emit.checkTests value (cases.map (SwitchCase.map f)))
      (Emit.checkTests value (cases.map (SwitchCase.map g))) := by
  refine forM fun c hc => forM fun a ha => ?_
  rw [((of_case h hc).1 a ha).ty_eq]
  exact refl

/-- The keys of tests are those of the trees. -/
theorem tableKeys_eq {o : Options} {cases : List (SwitchCase α)} {comparison : Option MethodRef}
    (h : ∀ a ∈ cases.flatMap (fun c => c.tests ++ [c.body]), (f a).Related C depth (g a)) :
    Emit.tableKeys? o ty (cases.map (SwitchCase.map f)) comparison =
      Emit.tableKeys? o ty (cases.map (SwitchCase.map g)) comparison := by
  have htests : ∀ tests : List α, (∀ a ∈ tests, (f a).Related C depth (g a)) →
      (tests.map f).mapM (fun t => CaseKey.ofExpr? t.expr) =
        (tests.map g).mapM fun t => CaseKey.ofExpr? t.expr := by
    intro tests htests
    induction tests with
    | nil => rfl
    | cons a tests ih =>
        obtain ⟨ha, htests⟩ := List.forall_mem_cons.mp htests
        simp only [List.map_cons, List.mapM_cons, ha.expr, ih htests]
  have hcases : (cases.map (SwitchCase.map f)).mapM
      (fun c => c.tests.mapM fun t => CaseKey.ofExpr? t.expr) =
        (cases.map (SwitchCase.map g)).mapM
          fun c => c.tests.mapM fun t => CaseKey.ofExpr? t.expr := by
    induction cases with
    | nil => rfl
    | cons c cases ih =>
        have hc := htests c.tests (of_case h List.mem_cons_self).1
        have hrest := ih fun a ha => h a (List.mem_append_right _ ha)
        simp only [List.map_cons, List.mapM_cons, SwitchCase.map, hc, hrest]
  unfold Emit.tableKeys?
  rw [hcases]

theorem linearDispatch {subject : Operand} {cases : List (SwitchCase α)}
    (h : ∀ a ∈ cases.flatMap (fun c => c.tests ++ [c.body]), (f a).Related C depth (g a))
    {comparison : Option MethodRef} {labels : List Label} {fallback : Label} :
    C.Rel depth
      (Emit.linearDispatch subject (cases.map (SwitchCase.map f)) comparison labels fallback)
      (Emit.linearDispatch subject (cases.map (SwitchCase.map g)) comparison labels fallback) := by
  unfold Emit.linearDispatch
  rw [List.zip_map_left, List.zip_map_left]
  refine first (forM fun p hp => forM fun a ha => withTemps ?_)
  have hp := (of_case h (List.of_mem_zip hp).1).1 a ha
  rw [hp.ty_eq]
  exact first hp.guarded

theorem dispatch {subject : Operand} {cases : List (SwitchCase α)}
    (h : ∀ a ∈ cases.flatMap (fun c => c.tests ++ [c.body]), (f a).Related C depth (g a))
    {comparison : Option MethodRef} {labels : List Label} {fallback : Label} :
    C.Rel depth
      (Emit.dispatch subject (cases.map (SwitchCase.map f)) comparison labels fallback)
      (Emit.dispatch subject (cases.map (SwitchCase.map g)) comparison labels fallback) := by
  refine behind fun o => ?_
  rw [tableKeys_eq h]
  split
  · exact refl
  · exact linearDispatch h

theorem caseBodies {done : Label} {cases : List (SwitchCase α × Label)}
    (h : ∀ p ∈ cases, (f p.1.body).Related C depth (g p.1.body)) :
    C.Rel depth (Emit.caseBodies ty exit done (cases.map (Prod.map (SwitchCase.map f) id)))
      (Emit.caseBodies ty exit done (cases.map (Prod.map (SwitchCase.map g) id))) := by
  induction cases with
  | nil => exact refl
  | cons p cases ih =>
      obtain ⟨hp, hcases⟩ := List.forall_mem_cons.mp h
      exact behind fun _ => bind hp.branch fun _ => behind fun _ => first (ih hcases)

theorem defaultBody {fallback : Option α} (h : ∀ a ∈ fallback.toList, (f a).Related C depth (g a)) :
    C.Rel depth (Emit.defaultBody (fallback.map f) ty exit)
      (Emit.defaultBody (fallback.map g) ty exit) := by
  cases fallback with
  | none => exact refl
  | some a => exact (h a List.mem_cons_self).branch

theorem newLabels_map {β γ : Type} (p : β → γ) (items : List β) :
    Emit.newLabels (items.map p) = Emit.newLabels items := by
  induction items with
  | nil => rfl
  | cons a items ih => simp only [List.map_cons, Emit.newLabels, ih]

/-- A switch. -/
theorem switch (hn : m.Related C depth n) {cases : List (SwitchCase α)} {fallback : Option α}
    (h : ∀ a ∈ cases.flatMap (fun c => c.tests ++ [c.body]), (f a).Related C depth (g a))
    (hfallback : ∀ a ∈ fallback.toList, (f a).Related C depth (g a))
    {comparison : Option MethodRef} :
    C.Rel depth
      (Emit.switch m (cases.map (SwitchCase.map f)) (fallback.map f) comparison ty exit)
      (Emit.switch n (cases.map (SwitchCase.map g)) (fallback.map g) comparison ty exit) := by
  have hbodies : ∀ a ∈ cases.map (·.body) ++ fallback.toList, (f a).Related C depth (g a) := by
    refine List.forall_mem_append.mpr ⟨fun a ha => ?_, hfallback⟩
    obtain ⟨c, hc, rfl⟩ := List.mem_map.mp ha
    exact (of_case h hc).2
  have hbranches : ∀ p : α → Node, (cases.map (SwitchCase.map p)).map (·.body) ++
      (fallback.map p).toList = (cases.map (·.body) ++ fallback.toList).map p := by
    intro p
    simp [SwitchCase.map, Option.toList_map]
  unfold Emit.switch Emit.checkSwitch
  rw [hn.ty_eq, hbranches, hbranches, newLabels_map, newLabels_map]
  refine bind (ite (bind (checkTests h) fun _ => checkBranches hbodies) (checkBranches hbodies))
    fun _ => withTemps ?_
  refine bind hn.value fun _ => behind fun _ => behind fun labels => behind fun _ =>
    behind fun _ => bind (dispatch h) fun _ => ?_
  rw [List.zip_map_left, List.zip_map_left]
  exact bind (caseBodies fun p hp => (of_case h (List.of_mem_zip hp).1).2) fun _ =>
    behind fun _ => first (defaultBody hfallback)

/-! ## Protected blocks -/

/-- Operands of handlers: the filter and the body of each. -/
theorem of_handler {handlers : List (CatchBlock α)}
    (h : ∀ a ∈ handlers.flatMap (fun c => c.filter.toList ++ [c.body]), (f a).Related C depth (g a))
    {c : CatchBlock α} (hc : c ∈ handlers) :
    (∀ a ∈ c.filter.toList, (f a).Related C depth (g a)) ∧
      (f c.body).Related C depth (g c.body) := by
  have hall : ∀ a ∈ c.filter.toList ++ [c.body], (f a).Related C depth (g a) :=
    fun a ha => h a (List.mem_flatMap.mpr ⟨c, hc, ha⟩)
  obtain ⟨hfilter, hbody⟩ := List.forall_mem_append.mp hall
  exact ⟨hfilter, hbody _ List.mem_cons_self⟩

theorem checkHandler {c : CatchBlock α} {d : Nat}
    (h : ∀ a ∈ c.filter.toList, (f a).Related C d (g a)) :
    Emit.checkHandler (c.map f) = Emit.checkHandler (c.map g) := by
  obtain ⟨ty, binder, filter, body⟩ := c
  cases filter with
  | none => rfl
  | some a =>
      unfold Emit.checkHandler CatchBlock.map
      simp only [Option.map_some, (h a List.mem_cons_self).ty_eq]

theorem protectedPart (h : m.Related C depth n) {p : ProtectedBlock} :
    C.Rel depth (Emit.protectedPart m p) (Emit.protectedPart n p) := by
  unfold Emit.protectedPart
  rw [h.ty_eq]
  split <;> exact first h.guarded

/-- A handler. -/
theorem handler {c : CatchBlock α} (hfilter : ∀ a ∈ c.filter.toList, (f a).Related C depth (g a))
    (hbody : (f c.body).Related C depth (g c.body)) {p : ProtectedBlock} :
    C.Rel depth (Emit.handler (c.map f) p) (Emit.handler (c.map g) p) := by
  obtain ⟨ty, binder, filter, body⟩ := c
  have hpart : C.Rel depth (Emit.protectedPart (f body) p) (Emit.protectedPart (g body) p) :=
    protectedPart hbody
  refine withLocals ?_
  cases filter with
  | none =>
      exact behind fun _ => behind fun _ => behind fun _ => behind fun _ => behind fun _ => first hpart
  | some a =>
      have ha := hfilter a List.mem_cons_self
      dsimp only [CatchBlock.map, Option.map_some]
      rw [ha.ty_eq]
      refine behind fun _ => behind fun _ => behind fun _ => bind ha.guarded fun _ =>
        ite (behind fun _ => ?_) ?_
      all_goals
        exact behind fun _ => behind fun _ => behind fun _ => behind fun _ => behind fun _ =>
          behind fun _ => first hpart

theorem unwindBlock (h : m.Related C depth n) {kind : RegionKind Label} {coveredEnd : Label}
    {p : ProtectedBlock} :
    C.Rel depth (Emit.unwindBlock m kind coveredEnd p)
      (Emit.unwindBlock n kind coveredEnd p) :=
  behind fun _ => behind fun _ => behind fun _ => first h.guarded

/-- The regions of a protected block, whose operands stand inside one region more. -/
theorem regions {body : α} {handlers : List (CatchBlock α)} {finallyBlock faultBlock : Option α}
    (h : ∀ a ∈ (ExprKind.tryCatch body handlers finallyBlock faultBlock).children,
      (f a).Related C (depth + 1) (g a)) {p : ProtectedBlock} :
    C.Rel depth
      (Emit.regions (f body) (handlers.map (CatchBlock.map f)) (finallyBlock.map f)
        (faultBlock.map f) p)
      (Emit.regions (g body) (handlers.map (CatchBlock.map g)) (finallyBlock.map g)
        (faultBlock.map g) p) := by
  obtain ⟨h, hfault⟩ := List.forall_mem_append.mp h
  obtain ⟨h, hfinally⟩ := List.forall_mem_append.mp h
  obtain ⟨hbody, hhandlers⟩ := List.forall_mem_cons.mp h
  refine inRegion (bind (protectedPart hbody) fun _ => behind fun _ => behind fun _ => ?_)
  refine bind (forM fun c hc => ?_) fun _ => behind fun _ => behind fun _ => ?_
  · exact handler (of_handler hhandlers hc).1 (of_handler hhandlers hc).2
  · cases faultBlock with
    | none =>
        refine behind fun _ => ?_
        cases finallyBlock with
        | none => exact refl
        | some b => exact first (unwindBlock (hfinally b List.mem_cons_self))
    | some a =>
        refine bind (unwindBlock (hfault a List.mem_cons_self)) fun _ => ?_
        cases finallyBlock with
        | none => exact refl
        | some b => exact first (unwindBlock (hfinally b List.mem_cons_self))

/-- A protected block. -/
theorem tryCatch {body : α} {handlers : List (CatchBlock α)} {finallyBlock faultBlock : Option α}
    (h : ∀ a ∈ (ExprKind.tryCatch body handlers finallyBlock faultBlock).children,
      (f a).Related C (depth + 1) (g a)) :
    C.Rel depth
      (Emit.tryCatch (f body) (handlers.map (CatchBlock.map f)) (finallyBlock.map f)
        (faultBlock.map f) ty)
      (Emit.tryCatch (g body) (handlers.map (CatchBlock.map g)) (finallyBlock.map g)
        (faultBlock.map g) ty) := by
  have hbody : (f body).Related C (depth + 1) (g body) := h _ List.mem_cons_self
  have hhandlers : ∀ a ∈ handlers.flatMap (fun c => c.filter.toList ++ [c.body]),
      (f a).Related C (depth + 1) (g a) := fun a ha =>
    h a (List.mem_append_left _ (List.mem_append_left _ (List.mem_cons_of_mem _ ha)))
  unfold Emit.tryCatch
  rw [hbody.checkBranch]
  refine bind (forM fun c hc => ?_) fun _ =>
    ite (behind fun _ => bind (forM fun c hc => ?_) fun _ => withTemps ?_) (withTemps ?_)
  · rw [checkHandler (of_handler hhandlers hc).1]
    exact refl
  · rw [CatchBlock.map, CatchBlock.map, (of_handler hhandlers hc).2.checkBranch]
    exact refl
  all_goals
    refine ite (behind fun _ => ?_) (behind fun _ => ?_)
    all_goals
      exact behind fun _ => behind fun _ => behind fun _ => behind fun _ => behind fun _ =>
        behind fun _ => first (regions h)

/-! ## Layers -/

/-- A layer whose operands are related, where both have the same nested functions. -/
theorem layer {k : ExprKind α}
    (h : ∀ a ∈ k.children, (f a).Related C (depth + k.regionDepth) (g a)) {inner : α → Node}
    {place place' : Option Label → Bool → Emit (Place × Bool)}
    (hplace : ∀ exit extend, C.Rel depth (place exit extend) (place' exit extend))
    {shape : Shape} :
    C.Rel depth (Emit.layer (k.mapUnit f inner) ty place exit shape)
      (Emit.layer (k.mapUnit g inner) ty place' exit shape) := by
  cases k with
  | constant | default | parameter | hoisted | closureVar | lambda => exact refl
  | member receiver m => exact member h
  | index receiver args indexer =>
      obtain ⟨hreceiver, hargs⟩ := List.forall_mem_cons.mp h
      exact index hreceiver hargs hplace
  | unary op operand => exact unary (h operand List.mem_cons_self)
  | binary op left right =>
      obtain ⟨hleft, hright⟩ := List.forall_mem_cons.mp h
      exact binary hleft (hright right List.mem_cons_self)
  | logical op left right =>
      obtain ⟨hleft, hright⟩ := List.forall_mem_cons.mp h
      exact logical hleft (hright right List.mem_cons_self)
  | coalesce left right =>
      obtain ⟨hleft, hright⟩ := List.forall_mem_cons.mp h
      exact coalesce hleft (hright right List.mem_cons_self)
  | conditional test ifTrue ifFalse => exact conditional h
  | block vars body => exact block h
  | loop body => exact loop (h body List.mem_cons_self)
  | switch value cases fallback =>
      obtain ⟨hrest, hfallback⟩ := List.forall_mem_append.mp h
      obtain ⟨hvalue, hcases⟩ := List.forall_mem_cons.mp hrest
      exact switch hvalue hcases hfallback
  | tryCatch => exact tryCatch h
  | call method receiver args => exact call h
  | invoke func args =>
      obtain ⟨hfunc, hargs⟩ := List.forall_mem_cons.mp h
      exact invoke hfunc hargs
  | new ctor args => exact construct h
  | newArray elem init => exact newArray h
  | listInit start items =>
      obtain ⟨hstart, hitems⟩ := List.forall_mem_cons.mp h
      exact listInit hstart hitems
  | memberInit start bindings =>
      obtain ⟨hstart, hbindings⟩ := List.forall_mem_cons.mp h
      exact memberInit hstart hbindings
  | assign op target value =>
      obtain ⟨htarget, hvalue⟩ := List.forall_mem_cons.mp h
      exact assign htarget hvalue
  | typeTest operand => exact typeTest (h operand List.mem_cons_self)
  | convert operand => exact convert (h operand List.mem_cons_self)
  | typeAs operand => exact typeAs (h operand List.mem_cons_self)
  | throw => exact throw h
  | goto => exact goto h
  | label => exact label h

theorem placeOf_mapUnit {k : ExprKind α}
    (h : ∀ a ∈ k.children, (f a).Related C (depth + k.regionDepth) (g a)) {inner : α → Node}
    {extend : Bool} :
    C.Rel depth (Emit.placeOf (k.mapUnit f inner) ty exit extend)
      (Emit.placeOf (k.mapUnit g inner) ty exit extend) := by
  cases k with
  | lambda | tryCatch => exact refl
  | _ => exact placeOf h

end Emit.Congruence.Rel

/-- Nodes of one tree are related if their operands are, where both have the same nested functions. -/
theorem Node.Related.ofKind {α : Type} {C : Emit.Congruence} {depth : Nat} {ty : Ty} {k : ExprKind α}
    {f g inner : α → Node}
    (h : ∀ a ∈ k.children, (f a).Related C (depth + k.regionDepth) (g a))
    (hexpr : (k.mapUnit f inner).map Node.expr = (k.mapUnit g inner).map Node.expr) :
    (Node.ofKind (k.mapUnit f inner) ty).Related C depth (Node.ofKind (k.mapUnit g inner) ty) where
  expr := congrArg (Expr.node · ty) hexpr
  emit exit shape extend := by
    have hplace : ∀ exit extend, C.Rel depth
        (Emit.placeOf (k.mapUnit f inner) ty exit extend)
        (Emit.placeOf (k.mapUnit g inner) ty exit extend) :=
      fun _ _ => Emit.Congruence.Rel.placeOf_mapUnit h
    have hisPlace : (k.mapUnit f inner).isPlace = (k.mapUnit g inner).isPlace := by
      cases k with
      | member receiver m => cases m <;> rfl
      | _ => rfl
    unfold Node.ofKind
    dsimp only
    rw [hisPlace]
    exact .ite (.first (.created hplace)) (.first (.layer h hplace))
  place _ _ := Emit.Congruence.Rel.placeOf_mapUnit h

end Arbor
