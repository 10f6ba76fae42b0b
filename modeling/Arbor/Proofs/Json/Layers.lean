/-
  One layer of a tree is read back from what is written for it, provided its
  operands are; and what is written for an operand is nested less deep than what
  is written for the layer.
-/
import Arbor.Proofs.Json.Leaves
import Arbor.Proofs.Semantics.Induction

set_option autoImplicit false

namespace Arbor

open Json

/-! ## Portable layers -/

section

variable {α : Type}

/-- Whether all numbers beside the operands of an element initializer have 32 bits. -/
def ElementInit.portable (i : ElementInit α) : Bool := i.add.portable

mutual

/-- Whether all numbers beside the operands of a binding have 32 bits. -/
def Binding.portable : Binding α → Bool
  | .assign m _ => m.portable
  | .member m bindings => m.portable && portableList bindings
  | .list m items => m.portable && items.all ElementInit.portable
  termination_by structural b => b

/-- Whether all numbers beside the operands of bindings have 32 bits. -/
def Binding.portableList : List (Binding α) → Bool
  | [] => true
  | b :: bs => portable b && portableList bs
  termination_by structural bs => bs

end

/-- Whether all numbers beside the operands of a handler have 32 bits. -/
def CatchBlock.portable (h : CatchBlock α) : Bool := h.ty.portable && h.binder.all Variable.portable

/-- Whether all numbers beside the body of a function have 32 bits. -/
def Lambda.portable (l : Lambda α) : Bool := l.params.all Variable.portable && l.ret.portable

/-- Whether all numbers beside the operands of a layer have 32 bits and it is not a float. -/
def ExprKind.portable : ExprKind α → Bool
  | constant value => value.portable
  | parameter n | hoisted n | closureVar n => fits32 n
  | member _ m => m.portable
  | index _ _ indexer => indexer.all PropertyRef.portable
  | unary _ _ _ method | binary _ _ _ _ method | convert _ _ method => method.all MethodRef.portable
  | block vars _ => vars.all Variable.portable
  | loop _ breakLabel continueLabel =>
      breakLabel.all LabelTarget.portable && continueLabel.all LabelTarget.portable
  | switch _ _ _ comparison => comparison.all MethodRef.portable
  | tryCatch _ handlers _ _ => handlers.all CatchBlock.portable
  | call method _ _ => method.portable
  | new ctor _ => ctor.all MethodRef.portable
  | newArray elem _ => elem.portable
  | listInit _ items => items.all ElementInit.portable
  | memberInit _ bindings => Binding.portableList bindings
  | lambda l => l.portable
  | typeTest _ target _ => target.portable
  | goto _ target _ | label target _ => target.portable
  | default | logical _ _ _ | coalesce _ _ | conditional _ _ _ | invoke _ _ | assign _ _ _ _ _
  | typeAs _ | throw _ => true

end

/-! ## Reading a layer back -/

section

variable (A : Arrangement) (src : Source) {α : Type} {sub : Json → Option α} {w : α → Json}

theorem operand?_arranged {o : Option α} (h : ∀ a ∈ o.toList, A.Restores sub w a) :
    nullable? sub (A (operandJson (o.map w))) = some o := by
  have hjson : operandJson (o.map w) = .ofOption w o := by cases o <;> rfl
  rw [hjson, A.nullable?_ofOption h]

theorem operands?_arranged {as : List α} (h : ∀ a ∈ as, A.Restores sub w a) :
    list? sub (A (.arr (as.map w))) = some as :=
  A.list?_ofList fun a ha => (h a ha).read_eq

theorem ElementInit.read_arranged {i : ElementInit α} (hi : i.portable = true)
    (h : ∀ a ∈ i.args, A.Restores sub w a) :
    ElementInit.read src sub (A (i.map w).toJson) = some i := by
  have hkeys : (keys [("add", i.add.toJson), ("args", .arr (i.args.map w))]).Nodup := by simp
  simp [toJson, ElementInit.map, ElementInit.read, member?, (MethodRef.restores A src hi).read_eq,
    operands?_arranged A h]

theorem ElementInit.list?_arranged {items : List (ElementInit α)}
    (hitems : items.all ElementInit.portable = true)
    (h : ∀ a ∈ items.flatMap (·.args), A.Restores sub w a) :
    list? (ElementInit.read src sub) (A (.ofList ElementInit.toJson (items.map (ElementInit.map w)))) =
      some items := by
  rw [Json.ofList, List.map_map]
  exact A.list?_ofList fun i hi => read_arranged A src (List.all_eq_true.mp hitems i hi)
    fun a ha => h a (List.mem_flatMap.mpr ⟨i, hi, ha⟩)

theorem Binding.toJsonList_mapList (bs : List (Binding α)) :
    toJsonList (mapList w bs) = bs.map fun b => (b.map w).toJson := by
  induction bs with
  | nil => rfl
  | cons b bs ih => rw [mapList, toJsonList, ih, List.map_cons]

mutual

/-- A binding is read back if the nesting does not exceed the bound. -/
theorem Binding.read_arranged : (b : Binding α) → b.portable = true →
    (∀ a ∈ b.children, A.Restores sub w a) → ∀ fuel, (A (b.map w).toJson).depth < fuel →
    Binding.read src sub fuel (A (b.map w).toJson) = some b
  | b, _, _, 0, hfuel => absurd hfuel (Nat.not_lt_zero _)
  | .assign m value, hb, h, fuel + 1, _ => by
      have hkeys : (keys [("member", m.toJson), ("value", w value)]).Nodup := by simp
      rw [Binding.map, toJson, A.tagged]
      simp [tagged, Binding.read, variant?, member?,
        MemberTarget.ofJson?_arranged A hb, (h value List.mem_cons_self).read_eq]
  | .member m bindings, hb, h, fuel + 1, hfuel => by
      obtain ⟨hm, hbindings⟩ := Bool.and_eq_true_iff.mp hb
      have hkeys : (keys [("member", m.toJson),
          ("bindings", .arr (toJsonList (mapList w bindings)))]).Nodup := by simp
      rw [Binding.map, toJson, A.depth_tagged, A.depth_obj hkeys] at hfuel
      simp only [List.map_cons, depthMembers, A.depth_arr] at hfuel
      have hlist : list? (Binding.read src sub fuel) (A (.arr (toJsonList (mapList w bindings)))) =
          some bindings := by
        rw [toJsonList_mapList] at hfuel ⊢
        refine A.list?_ofList fun b hb => readList_arranged bindings hbindings h b hb fuel ?_
        have hdepth := A.depth_item_le (List.mem_map_of_mem (f := fun b => (b.map w).toJson) hb)
        omega
      rw [Binding.map, toJson, A.tagged]
      simp [tagged, Binding.read, variant?, member?,
        MemberTarget.ofJson?_arranged A hm, hlist]
  | .list m items, hb, h, fuel + 1, _ => by
      obtain ⟨hm, hitems⟩ := Bool.and_eq_true_iff.mp hb
      have hkeys : (keys [("member", m.toJson),
          ("items", .ofList ElementInit.toJson (items.map (ElementInit.map w)))]).Nodup := by
        simp [keys]
      rw [Binding.map, toJson, A.tagged]
      simp [tagged, Binding.read, variant?, member?,
        MemberTarget.ofJson?_arranged A hm, ElementInit.list?_arranged A src hitems h]
  termination_by structural b => b

/-- Bindings are read back if the nesting does not exceed the bound. -/
theorem Binding.readList_arranged : (bs : List (Binding α)) → portableList bs = true →
    (∀ a ∈ childrenList bs, A.Restores sub w a) → ∀ b ∈ bs, ∀ fuel,
    (A (b.map w).toJson).depth < fuel → Binding.read src sub fuel (A (b.map w).toJson) = some b
  | [], _, _ => nofun
  | b :: bs, hbs, h => by
      obtain ⟨hb, hbs⟩ := Bool.and_eq_true_iff.mp hbs
      obtain ⟨hchildren, hrest⟩ := List.forall_mem_append.mp h
      exact List.forall_mem_cons.mpr
        ⟨read_arranged b hb hchildren, readList_arranged bs hbs hrest⟩
  termination_by structural bs => bs

end

theorem Binding.list?_arranged {bs : List (Binding α)} (hbs : portableList bs = true)
    (h : ∀ a ∈ childrenList bs, A.Restores sub w a) :
    list? (Binding.ofJson? src sub) (A (.arr (toJsonList (mapList w bs)))) = some bs := by
  rw [toJsonList_mapList]
  exact A.list?_ofList fun b hb => readList_arranged A src bs hbs h b hb _ (Nat.lt_succ_self _)

theorem SwitchCase.list?_arranged {cases : List (SwitchCase α)}
    (h : ∀ a ∈ cases.flatMap (fun c => c.tests ++ [c.body]), A.Restores sub w a) :
    list? (SwitchCase.read sub) (A (.ofList (fun c => .obj [("tests", .arr c.tests), ("body", c.body)])
      (cases.map (SwitchCase.map w)))) = some cases := by
  rw [Json.ofList, List.map_map]
  refine A.list?_ofList fun c hc => ?_
  obtain ⟨htests, hbody⟩ := List.forall_mem_append.mp fun a ha =>
    h a (List.mem_flatMap.mpr ⟨c, hc, ha⟩)
  have hkeys : (keys [("tests", .arr (c.tests.map w)), ("body", w c.body)]).Nodup := by simp
  simp [SwitchCase.map, SwitchCase.read, member?,
    operands?_arranged A htests, (hbody _ List.mem_cons_self).read_eq]

/-- Handlers are read back. -/
theorem CatchBlock.list?_arranged {handlers : List (CatchBlock α)}
    (hhandlers : handlers.all CatchBlock.portable = true)
    (h : ∀ a ∈ handlers.flatMap (fun h => h.filter.toList ++ [h.body]), A.Restores sub w a) :
    list? (CatchBlock.read src sub) (A (.ofList (fun h => .obj [("ty", h.ty.toJson),
      ("variable", .ofOption Variable.toJson h.binder), ("filter", operandJson h.filter),
      ("body", h.body)]) (handlers.map (CatchBlock.map w)))) = some handlers := by
  rw [Json.ofList, List.map_map]
  refine A.list?_ofList fun c hc => ?_
  obtain ⟨hty, hbinder⟩ := Bool.and_eq_true_iff.mp (List.all_eq_true.mp hhandlers c hc)
  obtain ⟨hfilter, hbody⟩ := List.forall_mem_append.mp fun a ha =>
    h a (List.mem_flatMap.mpr ⟨c, hc, ha⟩)
  have hvariable : nullable? (Variable.ofJson? src) (A (.ofOption Variable.toJson c.binder)) =
      some c.binder := A.nullable?_of_all hbinder (Variable.restores A src)
  have hkeys : (keys [("ty", c.ty.toJson), ("variable", .ofOption Variable.toJson c.binder),
      ("filter", operandJson (c.filter.map w)), ("body", w c.body)]).Nodup := by simp
  simp [CatchBlock.map, CatchBlock.read, member?, Ty.ofJson?_arranged A src hty, hvariable,
    operand?_arranged A hfilter, (hbody _ List.mem_cons_self).read_eq]

theorem Lambda.read_arranged {l : Lambda α} (hl : l.portable = true)
    (hbody : A.Restores sub w l.body) : Lambda.read src sub (A (l.map w).toJson) = some l := by
  obtain ⟨hparams, hret⟩ := Bool.and_eq_true_iff.mp hl
  have hlist : list? (Variable.ofJson? src) (A (.ofList Variable.toJson l.params)) =
      some l.params := A.list?_of_all hparams (Variable.restores A src)
  have hkeys : (keys [("name", .str l.name), ("params", .ofList Variable.toJson l.params),
      ("ret", l.ret.toJson), ("body", w l.body), ("hidden", l.hidden.toJson)]).Nodup := by simp
  simp [toJson, Lambda.map, Lambda.read, member?, str?_arranged A, hlist, Ty.ofJson?_arranged A src hret,
    hbody.read_eq, HiddenParams.ofJson?_arranged A]

theorem ArrayInit.read_elements {items : List α} (h : ∀ a ∈ items, A.Restores sub w a) :
    ArrayInit.read sub (A (tagged "elements" (.arr (items.map w)))) = some (.elements items) := by
  rw [A.tagged]
  simp [tagged, ArrayInit.read, variant?, operands?_arranged A h]

theorem ArrayInit.read_bounds {items : List α} (h : ∀ a ∈ items, A.Restores sub w a) :
    ArrayInit.read sub (A (tagged "bounds" (.arr (items.map w)))) = some (.bounds items) := by
  rw [A.tagged]
  simp [tagged, ArrayInit.read, variant?, operands?_arranged A h]

namespace ExprKind

/-- A layer with content is read by its name. -/
theorem read_tagged {name : String} {content : Json} (h : name ≠ "default") :
    ExprKind.read src sub (tagged name content) = readContent src sub name content := by
  rw [ExprKind.read, tagged, variant?]
  split
  · next heq => cases heq
  · next heq =>
      cases heq
      exact absurd rfl h
  · next heq =>
      cases heq
      rfl
  · next hother => exact absurd rfl (hother name content)

/-- A layer is read back. -/
theorem read_arranged {k : ExprKind α} (hk : k.portable = true)
    (h : ∀ a ∈ k.operands, A.Restores sub w a) :
    ExprKind.read src sub (A (k.map w).toJson) = some k := by
  cases k with
  | default =>
      rw [map, toJson, A.str]
      rfl
  | constant value =>
      rw [map, toJson, A.tagged, read_tagged src (by decide)]
      simp [readContent, Literal.ofJson?_arranged A hk]
  | parameter n | hoisted n | closureVar n =>
      rw [map, toJson, A.tagged, read_tagged src (by decide)]
      simp [readContent, u32?_arranged A hk]
  | member receiver m =>
      rw [map, toJson, A.tagged, read_tagged src (by decide)]
      simp [readContent, member?, operand?_arranged A h, Member.ofJson?_arranged A hk]
  | index receiver args indexer =>
      obtain ⟨hreceiver, hargs⟩ := List.forall_mem_cons.mp h
      have hindexer := A.nullable?_of_all hk (PropertyRef.restores A)
      rw [map, toJson, A.tagged, read_tagged src (by decide)]
      simp [readContent, member?, hreceiver.read_eq, operands?_arranged A hargs, hindexer]
  | unary op operand checked method =>
      have hmethod := A.nullable?_of_all hk (MethodRef.restores A src)
      have hop : byName? UnaryOp.all UnaryOp.name (A (.str op.name)) = some op :=
        byName?_arranged A (by cases op <;> rfl)
      rw [map, toJson, A.tagged, read_tagged src (by decide)]
      simp [readContent, member?, hop, (h _ List.mem_cons_self).read_eq, hmethod]
  | binary op left right checked method =>
      obtain ⟨hleft, hright⟩ := List.forall_mem_cons.mp h
      have hmethod := A.nullable?_of_all hk (MethodRef.restores A src)
      have hop : byName? BinaryOp.all BinaryOp.name (A (.str op.name)) = some op :=
        byName?_arranged A (by cases op <;> rfl)
      rw [map, toJson, A.tagged, read_tagged src (by decide)]
      simp [readContent, member?, hop, hleft.read_eq, (hright _ List.mem_cons_self).read_eq, hmethod]
  | logical op left right =>
      obtain ⟨hleft, hright⟩ := List.forall_mem_cons.mp h
      have hop : byName? LogicalOp.all LogicalOp.name (A (.str op.name)) = some op :=
        byName?_arranged A (by cases op <;> rfl)
      rw [map, toJson, A.tagged, read_tagged src (by decide)]
      simp [readContent, member?, hop, hleft.read_eq, (hright _ List.mem_cons_self).read_eq]
  | coalesce left right =>
      obtain ⟨hleft, hright⟩ := List.forall_mem_cons.mp h
      rw [map, toJson, A.tagged, read_tagged src (by decide)]
      simp [readContent, member?, hleft.read_eq, (hright _ List.mem_cons_self).read_eq]
  | conditional test ifTrue ifFalse =>
      obtain ⟨htest, hrest⟩ := List.forall_mem_cons.mp h
      obtain ⟨htrue, hfalse⟩ := List.forall_mem_cons.mp hrest
      rw [map, toJson, A.tagged, read_tagged src (by decide)]
      simp [readContent, member?, htest.read_eq, htrue.read_eq,
        (hfalse _ List.mem_cons_self).read_eq]
  | block vars body =>
      have hvars := A.list?_of_all hk (Variable.restores A src)
      have hbody : list? sub (A (.arr (body.map w))) = some body := operands?_arranged A h
      rw [map, toJson, A.tagged, read_tagged src (by decide)]
      simp [readContent, member?, hvars, hbody]
  | loop body breakLabel continueLabel =>
      obtain ⟨hbreak, hcontinue⟩ := Bool.and_eq_true_iff.mp hk
      have hbreak := A.nullable?_of_all hbreak (LabelTarget.restores A src)
      have hcontinue := A.nullable?_of_all hcontinue (LabelTarget.restores A src)
      rw [map, toJson, A.tagged, read_tagged src (by decide)]
      simp [readContent, member?, (h _ List.mem_cons_self).read_eq, hbreak, hcontinue]
  | switch value cases fallback comparison =>
      obtain ⟨hrest, hfallback⟩ := List.forall_mem_append.mp h
      obtain ⟨hvalue, hcases⟩ := List.forall_mem_cons.mp hrest
      have hcomparison := A.nullable?_of_all hk (MethodRef.restores A src)
      rw [map, toJson, A.tagged, read_tagged src (by decide)]
      simp [readContent, member?, hvalue.read_eq, SwitchCase.list?_arranged A hcases,
        operand?_arranged A hfallback, hcomparison]
  | tryCatch body handlers finallyBlock faultBlock =>
      obtain ⟨hrest, hfault⟩ := List.forall_mem_append.mp h
      obtain ⟨hrest, hfinally⟩ := List.forall_mem_append.mp hrest
      obtain ⟨hbody, hhandlers⟩ := List.forall_mem_cons.mp hrest
      rw [map, toJson, A.tagged, read_tagged src (by decide)]
      simp [readContent, member?, hbody.read_eq, CatchBlock.list?_arranged A src hk hhandlers,
        operand?_arranged A hfinally, operand?_arranged A hfault]
  | call method receiver args =>
      obtain ⟨hreceiver, hargs⟩ := List.forall_mem_append.mp h
      rw [map, toJson, A.tagged, read_tagged src (by decide)]
      simp [readContent, member?, (MethodRef.restores A src hk).read_eq,
        operand?_arranged A hreceiver, operands?_arranged A hargs]
  | invoke func args =>
      obtain ⟨hfunc, hargs⟩ := List.forall_mem_cons.mp h
      rw [map, toJson, A.tagged, read_tagged src (by decide)]
      simp [readContent, member?, hfunc.read_eq, operands?_arranged A hargs]
  | new ctor args =>
      have hctor := A.nullable?_of_all hk (MethodRef.restores A src)
      have hargs : list? sub (A (.arr (args.map w))) = some args := operands?_arranged A h
      rw [map, toJson, A.tagged, read_tagged src (by decide)]
      simp [readContent, member?, hctor, hargs]
  | newArray elem init =>
      have helem := Ty.ofJson?_arranged A src hk
      cases init with
      | elements items =>
          have hitems := @ArrayInit.read_elements A _ sub w items h
          rw [map, ArrayInit.map, toJson, A.tagged, read_tagged src (by decide)]
          simp [readContent, member?, helem, hitems]
      | bounds items =>
          have hitems := @ArrayInit.read_bounds A _ sub w items h
          rw [map, ArrayInit.map, toJson, A.tagged, read_tagged src (by decide)]
          simp [readContent, member?, helem, hitems]
  | listInit start items =>
      obtain ⟨hstart, hitems⟩ := List.forall_mem_cons.mp h
      rw [map, toJson, A.tagged, read_tagged src (by decide)]
      simp [readContent, member?, hstart.read_eq, ElementInit.list?_arranged A src hk hitems]
  | memberInit start bindings =>
      obtain ⟨hstart, hbindings⟩ := List.forall_mem_cons.mp h
      rw [map, toJson, A.tagged, read_tagged src (by decide)]
      simp [readContent, member?, hstart.read_eq, Binding.list?_arranged A src hk hbindings]
  | lambda l =>
      rw [map, toJson, A.tagged, read_tagged src (by decide)]
      simp [readContent, Lambda.read_arranged A src hk (h _ List.mem_cons_self)]
  | assign op target value checked autoExtend =>
      obtain ⟨htarget, hvalue⟩ := List.forall_mem_cons.mp h
      have hop : byName? AssignOp.all AssignOp.name (A (.str op.name)) = some op :=
        byName?_arranged A (by cases op <;> rfl)
      rw [map, toJson, A.tagged, read_tagged src (by decide)]
      simp [readContent, member?, hop, htarget.read_eq, operand?_arranged A hvalue]
  | typeTest operand target exact =>
      rw [map, toJson, A.tagged, read_tagged src (by decide)]
      simp [readContent, member?, (h _ List.mem_cons_self).read_eq, Ty.ofJson?_arranged A src hk]
  | convert operand checked method =>
      have hmethod := A.nullable?_of_all hk (MethodRef.restores A src)
      rw [map, toJson, A.tagged, read_tagged src (by decide)]
      simp [readContent, member?, (h _ List.mem_cons_self).read_eq, hmethod]
  | typeAs operand =>
      rw [map, toJson, A.tagged, read_tagged src (by decide)]
      simp [readContent, member?, (h _ List.mem_cons_self).read_eq]
  | throw operand =>
      rw [map, toJson, A.tagged, read_tagged src (by decide)]
      simp [readContent, member?, operand?_arranged A h]
  | goto kind target value =>
      have hkind : byName? GotoKind.all GotoKind.name (A (.str kind.name)) = some kind :=
        byName?_arranged A (by cases kind <;> rfl)
      rw [map, toJson, A.tagged, read_tagged src (by decide)]
      simp [readContent, member?, hkind, (LabelTarget.restores A src hk).read_eq,
        operand?_arranged A h]
  | label target value =>
      rw [map, toJson, A.tagged, read_tagged src (by decide)]
      simp [readContent, member?, (LabelTarget.restores A src hk).read_eq, operand?_arranged A h]

end ExprKind

end

/-! ## Depths of operands -/

section

variable (A : Arrangement)

theorem depth_operand_le (o : Option Json) :
    depthItems (o.toList.map A) ≤ (A (operandJson o)).depth := by
  cases o with
  | none => exact Nat.zero_le _
  | some j => exact Nat.max_le.mpr ⟨Nat.le_refl _, Nat.zero_le _⟩

/-- Operands gathered from parts lie no deeper than what is written for the parts. -/
theorem depth_flatMap_le {β : Type} {parts : List β} {operands : β → List Json} {write : β → Json}
    (h : ∀ b ∈ parts, depthItems ((operands b).map A) ≤ (A (write b)).depth) :
    depthItems ((parts.flatMap operands).map A) ≤ (A (.ofList write parts)).depth := by
  rw [Json.ofList, A.depth_arr]
  refine Nat.le_succ_of_le ?_
  induction parts with
  | nil => exact Nat.le_refl _
  | cons b parts ih =>
      obtain ⟨hb, hparts⟩ := List.forall_mem_cons.mp h
      have hrest := ih hparts
      simp only [List.flatMap_cons, List.map_append, depthItems_append, List.map_cons, depthItems]
      omega

theorem ElementInit.depth_le (items : List (ElementInit Json)) :
    depthItems ((items.flatMap (·.args)).map A) ≤ (A (.ofList toJson items)).depth :=
  depth_flatMap_le A fun i _ => by
    simp [toJson, depthMembers]
    omega

mutual

/-- Operands of a binding lie no deeper than what is written for it. -/
theorem Binding.depth_le : (b : Binding Json) → depthItems (b.children.map A) ≤ (A b.toJson).depth
  | .assign m value => by
      simp [children, toJson, depthMembers, depthItems]
      omega
  | .member m bindings => by
      have hbindings := depthList_le bindings
      simp [children, toJson, depthMembers]
      omega
  | .list m items => by
      have hitems := ElementInit.depth_le A items
      simp [children, toJson, depthMembers]
      omega
  termination_by structural b => b

/-- Operands of bindings lie no deeper than what is written for them. -/
theorem Binding.depthList_le : (bs : List (Binding Json)) →
    depthItems ((childrenList bs).map A) ≤ depthItems ((toJsonList bs).map A)
  | [] => Nat.le_refl _
  | b :: bs => by
      have hb := depth_le b
      have hbs := depthList_le bs
      simp only [childrenList, toJsonList, List.map_append, depthItems_append, List.map_cons, depthItems]
      omega
  termination_by structural bs => bs

end

/-- Operands of cases lie no deeper than what is written for them. -/
theorem SwitchCase.depth_le (cases : List (SwitchCase Json)) :
    depthItems ((cases.flatMap fun c => c.tests ++ [c.body]).map A) ≤
      (A (.ofList (fun c => .obj [("tests", .arr c.tests), ("body", c.body)]) cases)).depth :=
  depth_flatMap_le A fun c _ => by
    simp [depthMembers, depthItems]
    omega

/-- Operands of handlers lie no deeper than what is written for them. -/
theorem CatchBlock.depth_le (handlers : List (CatchBlock Json)) :
    depthItems ((handlers.flatMap fun h => h.filter.toList ++ [h.body]).map A) ≤
      (A (.ofList (fun h => .obj [("ty", h.ty.toJson),
        ("variable", .ofOption Variable.toJson h.binder), ("filter", operandJson h.filter),
        ("body", h.body)]) handlers)).depth :=
  depth_flatMap_le A fun h _ => by
    have hfilter := depth_operand_le A h.filter
    simp [depthMembers, depthItems]
    omega

/-- Operands lie no deeper than what is written for the layer. -/
theorem ExprKind.depth_le (k : ExprKind Json) :
    depthItems (k.operands.map A) ≤ (A k.toJson).depth := by
  cases k with
  | member receiver _ | throw receiver | goto _ _ receiver | label _ receiver
  | call _ receiver _ | assign _ _ receiver _ _ =>
      have hreceiver := depth_operand_le A receiver
      simp [operands, children, toJson, depthMembers, depthItems]
      omega
  | newArray elem init =>
      cases init <;>
        simp [operands, children, toJson, depthMembers]
      all_goals omega
  | listInit start items =>
      have hitems := ElementInit.depth_le A items
      simp [operands, children, toJson, depthMembers, depthItems]
      omega
  | memberInit start bindings =>
      have hbindings := Binding.depthList_le A bindings
      simp [operands, children, toJson, depthMembers, depthItems]
      omega
  | switch value cases fallback comparison =>
      have hcases := SwitchCase.depth_le A cases
      have hfallback := depth_operand_le A fallback
      simp [operands, children, toJson, depthMembers, depthItems] at hcases ⊢
      omega
  | tryCatch body handlers finallyBlock faultBlock =>
      have hhandlers := CatchBlock.depth_le A handlers
      have hfinally := depth_operand_le A finallyBlock
      have hfault := depth_operand_le A faultBlock
      simp [operands, children, toJson, depthMembers, depthItems] at hhandlers ⊢
      omega
  | constant | default | parameter | hoisted | closureVar => exact Nat.zero_le _
  | _ =>
      simp [operands, children, toJson, Lambda.toJson, depthMembers, depthItems]
      omega

end

end Arbor
