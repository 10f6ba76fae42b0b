/-
  Induction over trees.

  To prove a property of every tree it is enough to prove it of a node whose
  operands have it.  The body of a nested function counts as an operand here.
-/
import Arbor.Emit.Unit

set_option autoImplicit false

namespace Arbor

universe u

/-- Operands of one layer and, of a nested function, its body. -/
def ExprKind.operands {α : Type u} (k : ExprKind α) : List α :=
  match k with
  | lambda l => [l.body]
  | k => k.children

/-! ## Replacing operands -/

section

variable {α β γ : Type u} (f : α → β) (g : β → γ)

mutual

/-- Operands of a binding are replaced twice by replacing them once. -/
theorem Binding.map_map : (b : Binding α) → (b.map f).map g = b.map (g ∘ f)
  | .assign _ _ => rfl
  | .member m bindings => by simp only [Binding.map, mapList_mapList bindings]
  | .list m items => by simp [Binding.map, ElementInit.map]
  termination_by structural b => b

/-- Operands of bindings are replaced twice by replacing them once. -/
theorem Binding.mapList_mapList :
    (bs : List (Binding α)) → mapList g (mapList f bs) = mapList (g ∘ f) bs
  | [] => rfl
  | b :: bs => by simp only [mapList, map_map b, mapList_mapList bs]
  termination_by structural bs => bs

end

theorem ExprKind.map_map (k : ExprKind α) : (k.map f).map g = k.map (g ∘ f) := by
  cases k with
  | newArray elem init => cases init <;> simp [ExprKind.map, ArrayInit.map]
  | _ =>
      simp [ExprKind.map, SwitchCase.map, CatchBlock.map, ElementInit.map, Lambda.map,
        Binding.mapList_mapList]

end

section

variable {α β : Type u} (f : α → β)

theorem ElementInit.flatMap_args_map (items : List (ElementInit α)) :
    (items.map (ElementInit.map f)).flatMap (·.args) = (items.flatMap (·.args)).map f := by
  simp [List.flatMap_map, List.map_flatMap, ElementInit.map]

mutual

/-- The operands of a replaced binding are the replaced operands. -/
theorem Binding.children_map : (b : Binding α) → (b.map f).children = b.children.map f
  | .assign _ _ => rfl
  | .member _ bindings => childrenList_mapList bindings
  | .list _ items => ElementInit.flatMap_args_map f items
  termination_by structural b => b

theorem Binding.childrenList_mapList :
    (bs : List (Binding α)) → childrenList (mapList f bs) = (childrenList bs).map f
  | [] => rfl
  | b :: bs => by
      simp only [mapList, childrenList, List.map_append, children_map b, childrenList_mapList bs]
  termination_by structural bs => bs

end

/-- The operands of a replaced layer are the replaced operands. -/
theorem ExprKind.children_map (k : ExprKind α) : (k.map f).children = k.children.map f := by
  cases k with
  | newArray elem init => cases init <;> rfl
  | listInit start items =>
      simp only [ExprKind.map, children, List.map_cons, ElementInit.flatMap_args_map]
  | memberInit start bindings =>
      simp only [ExprKind.map, children, List.map_cons, Binding.childrenList_mapList]
  | _ =>
      simp [ExprKind.map, children, SwitchCase.map, CatchBlock.map, List.flatMap_map,
        List.map_flatMap, Option.toList_map]

/-- So are those with the body of a nested function. -/
theorem ExprKind.operands_map (k : ExprKind α) : (k.map f).operands = k.operands.map f := by
  have hchildren := children_map f k
  cases k with
  | lambda l => rfl
  | _ => exact hchildren

end

theorem ExprKind.mem_operands {α : Type u} {k : ExprKind α} {a : α} (h : a ∈ k.children) :
    a ∈ k.operands := by
  cases k <;> first | exact h | cases h

theorem map_eq_of_forall {α : Type u} {f : α → α} {l : List α} (h : ∀ a ∈ l, f a = a) :
    l.map f = l :=
  (List.map_congr_left h).trans (List.map_id' l)

theorem option_map_eq_of_forall {α : Type u} {f : α → α} {o : Option α}
    (h : ∀ a ∈ o.toList, f a = a) : o.map f = o := by
  cases o with
  | none => rfl
  | some a => rw [Option.map_some, h a (by simp)]

theorem ElementInit.map_eq_of_forall {α : Type u} {f : α → α} {items : List (ElementInit α)}
    (h : ∀ a ∈ items.flatMap (·.args), f a = a) : items.map (ElementInit.map f) = items := by
  refine Arbor.map_eq_of_forall fun i hi => ?_
  rw [ElementInit.map, Arbor.map_eq_of_forall fun a ha => h a (List.mem_flatMap.mpr ⟨i, hi, ha⟩)]

mutual

/-- A binding whose operands are replaced by themselves stays as it is. -/
theorem Binding.map_eq_of_forall {α : Type u} {f : α → α} : (b : Binding α) →
    (∀ a ∈ b.children, f a = a) → b.map f = b
  | .assign _ _, h => by rw [Binding.map, h _ List.mem_cons_self]
  | .member m bindings, h => by rw [Binding.map, mapList_eq_of_forall bindings h]
  | .list m items, h => by rw [Binding.map, ElementInit.map_eq_of_forall h]
  termination_by structural b => b

/-- Bindings whose operands are replaced by themselves stay as they are. -/
theorem Binding.mapList_eq_of_forall {α : Type u} {f : α → α} : (bs : List (Binding α)) →
    (∀ a ∈ childrenList bs, f a = a) → mapList f bs = bs
  | [], _ => rfl
  | b :: bs, h => by
      obtain ⟨hb, hbs⟩ := List.forall_mem_append.mp h
      rw [mapList, map_eq_of_forall b hb, mapList_eq_of_forall bs hbs]
  termination_by structural bs => bs

end

/-- A layer whose operands are replaced by themselves stays as it is. -/
theorem ExprKind.map_eq_of_forall {α : Type u} {f : α → α} {k : ExprKind α}
    (h : ∀ a ∈ k.operands, f a = a) : k.map f = k := by
  have hcases : ∀ cs : List (SwitchCase α),
      (∀ a ∈ cs.flatMap (fun c => c.tests ++ [c.body]), f a = a) → cs.map (SwitchCase.map f) = cs := by
    intro cs hcs
    refine Arbor.map_eq_of_forall fun c hc => ?_
    obtain ⟨htests, hbody⟩ := List.forall_mem_append.mp fun a ha =>
      hcs a (List.mem_flatMap.mpr ⟨c, hc, ha⟩)
    rw [SwitchCase.map, Arbor.map_eq_of_forall htests, hbody _ List.mem_cons_self]
  have hhandlers : ∀ hs : List (CatchBlock α),
      (∀ a ∈ hs.flatMap (fun h => h.filter.toList ++ [h.body]), f a = a) →
        hs.map (CatchBlock.map f) = hs := by
    intro hs hhs
    refine Arbor.map_eq_of_forall fun c hc => ?_
    obtain ⟨hfilter, hbody⟩ := List.forall_mem_append.mp fun a ha =>
      hhs a (List.mem_flatMap.mpr ⟨c, hc, ha⟩)
    rw [CatchBlock.map, option_map_eq_of_forall hfilter, hbody _ List.mem_cons_self]
  cases k with
  | newArray elem init =>
      cases init with
      | elements items =>
          have hitems : items.map f = items := Arbor.map_eq_of_forall h
          rw [ExprKind.map, ArrayInit.map, hitems]
      | bounds items =>
          have hitems : items.map f = items := Arbor.map_eq_of_forall h
          rw [ExprKind.map, ArrayInit.map, hitems]
  | lambda l => rw [ExprKind.map, Lambda.map, h _ List.mem_cons_self]
  | switch value cases fallback comparison =>
      obtain ⟨⟨hvalue, hcs⟩, hfallback⟩ := (List.forall_mem_append.trans
        (and_congr_left fun _ => List.forall_mem_cons)).mp h
      rw [ExprKind.map, hvalue, hcases _ hcs, option_map_eq_of_forall hfallback]
  | tryCatch body handlers finallyBlock faultBlock =>
      obtain ⟨hrest, hfault⟩ := List.forall_mem_append.mp h
      obtain ⟨hrest, hfinally⟩ := List.forall_mem_append.mp hrest
      obtain ⟨hbody, hhs⟩ := List.forall_mem_cons.mp hrest
      rw [ExprKind.map, hbody, hhandlers _ hhs, option_map_eq_of_forall hfinally,
        option_map_eq_of_forall hfault]
  | member receiver m => rw [ExprKind.map, option_map_eq_of_forall h]
  | throw operand => rw [ExprKind.map, option_map_eq_of_forall h]
  | goto kind target value => rw [ExprKind.map, option_map_eq_of_forall h]
  | label target value => rw [ExprKind.map, option_map_eq_of_forall h]
  | block vars body =>
      have hbody : body.map f = body := Arbor.map_eq_of_forall h
      rw [ExprKind.map, hbody]
  | new ctor args =>
      have hargs : args.map f = args := Arbor.map_eq_of_forall h
      rw [ExprKind.map, hargs]
  | index receiver args indexer =>
      obtain ⟨hreceiver, hargs⟩ := List.forall_mem_cons.mp h
      rw [ExprKind.map, hreceiver, Arbor.map_eq_of_forall hargs]
  | call method receiver args =>
      obtain ⟨hreceiver, hargs⟩ := List.forall_mem_append.mp h
      rw [ExprKind.map, option_map_eq_of_forall hreceiver, Arbor.map_eq_of_forall hargs]
  | invoke func args =>
      obtain ⟨hfunc, hargs⟩ := List.forall_mem_cons.mp h
      rw [ExprKind.map, hfunc, Arbor.map_eq_of_forall hargs]
  | listInit start items =>
      obtain ⟨hstart, hitems⟩ := List.forall_mem_cons.mp h
      rw [ExprKind.map, hstart, ElementInit.map_eq_of_forall hitems]
  | memberInit start bindings =>
      obtain ⟨hstart, hbindings⟩ := List.forall_mem_cons.mp h
      rw [ExprKind.map, hstart, Binding.mapList_eq_of_forall _ hbindings]
  | assign op target value checked autoExtend =>
      obtain ⟨htarget, hvalue⟩ := List.forall_mem_cons.mp h
      rw [ExprKind.map, htarget, option_map_eq_of_forall hvalue]
  | _ =>
      simp [operands, children] at h
      simp [ExprKind.map, h]

namespace Expr

set_option linter.unusedSectionVars false

section

variable {P : Expr → Prop} (step : ∀ k ty, (∀ e ∈ k.operands, P e) → P (.node k ty))

include step

mutual

theorem inductTree : (e : Expr) → P e
  | .node k ty => step k ty (inductKind k)
  termination_by structural e => e

/-- The property holds of all operands of a layer. -/
theorem inductKind : (k : ExprKind Expr) → ∀ e ∈ k.operands, P e
  | .constant _ | .default | .parameter _ | .hoisted _ | .closureVar _ => fun _ h => nomatch h
  | .member receiver _ => inductOption receiver
  | .index receiver args _ => List.forall_mem_cons.mpr ⟨inductTree receiver, inductList args⟩
  | .unary _ operand _ _ | .typeTest operand _ _ | .convert operand _ _ | .typeAs operand
  | .loop operand _ _ => List.forall_mem_singleton.mpr (inductTree operand)
  | .binary _ left right _ _ | .logical _ left right | .coalesce left right =>
      List.forall_mem_cons.mpr ⟨inductTree left, List.forall_mem_singleton.mpr (inductTree right)⟩
  | .conditional test ifTrue ifFalse =>
      List.forall_mem_cons.mpr ⟨inductTree test, List.forall_mem_cons.mpr
        ⟨inductTree ifTrue, List.forall_mem_singleton.mpr (inductTree ifFalse)⟩⟩
  | .block _ body => inductList body
  | .switch value cases fallback _ =>
      List.forall_mem_append.mpr
        ⟨List.forall_mem_cons.mpr ⟨inductTree value, inductCases cases⟩, inductOption fallback⟩
  | .tryCatch body handlers finallyBlock faultBlock =>
      List.forall_mem_append.mpr ⟨List.forall_mem_append.mpr
        ⟨List.forall_mem_cons.mpr ⟨inductTree body, inductHandlers handlers⟩,
          inductOption finallyBlock⟩, inductOption faultBlock⟩
  | .call _ receiver args =>
      List.forall_mem_append.mpr ⟨inductOption receiver, inductList args⟩
  | .invoke func args => List.forall_mem_cons.mpr ⟨inductTree func, inductList args⟩
  | .new _ args => inductList args
  | .newArray _ (.elements items) | .newArray _ (.bounds items) => inductList items
  | .listInit start items => List.forall_mem_cons.mpr ⟨inductTree start, inductItems items⟩
  | .memberInit start bindings =>
      List.forall_mem_cons.mpr ⟨inductTree start, inductBindings bindings⟩
  | .lambda ⟨_, _, _, body, _⟩ => List.forall_mem_singleton.mpr (inductTree body)
  | .assign _ target value _ _ =>
      List.forall_mem_cons.mpr ⟨inductTree target, inductOption value⟩
  | .throw operand | .goto _ _ operand | .label _ operand => inductOption operand
  termination_by structural k => k

theorem inductOption : (o : Option Expr) → ∀ e ∈ o.toList, P e
  | none => fun _ h => nomatch h
  | some e => List.forall_mem_singleton.mpr (inductTree e)
  termination_by structural o => o

theorem inductList : (es : List Expr) → ∀ e ∈ es, P e
  | [] => fun _ h => nomatch h
  | e :: es => List.forall_mem_cons.mpr ⟨inductTree e, inductList es⟩
  termination_by structural es => es

theorem inductCases : (cs : List (SwitchCase Expr)) →
    ∀ e ∈ cs.flatMap (fun c => c.tests ++ [c.body]), P e
  | [] => fun _ h => nomatch h
  | ⟨tests, body⟩ :: cs => List.forall_mem_append.mpr
      ⟨List.forall_mem_append.mpr
        ⟨inductList tests, List.forall_mem_singleton.mpr (inductTree body)⟩, inductCases cs⟩
  termination_by structural cs => cs

theorem inductHandlers : (hs : List (CatchBlock Expr)) →
    ∀ e ∈ hs.flatMap (fun h => h.filter.toList ++ [h.body]), P e
  | [] => fun _ h => nomatch h
  | ⟨_, _, filter, body⟩ :: hs => List.forall_mem_append.mpr
      ⟨List.forall_mem_append.mpr
        ⟨inductOption filter, List.forall_mem_singleton.mpr (inductTree body)⟩, inductHandlers hs⟩
  termination_by structural hs => hs

theorem inductItems : (is : List (ElementInit Expr)) → ∀ e ∈ is.flatMap (·.args), P e
  | [] => fun _ h => nomatch h
  | ⟨_, args⟩ :: is => List.forall_mem_append.mpr ⟨inductList args, inductItems is⟩
  termination_by structural is => is

theorem inductBinding : (b : Binding Expr) → ∀ e ∈ b.children, P e
  | .assign _ value => List.forall_mem_singleton.mpr (inductTree value)
  | .member _ bindings => inductBindings bindings
  | .list _ items => inductItems items
  termination_by structural b => b

theorem inductBindings : (bs : List (Binding Expr)) → ∀ e ∈ Binding.childrenList bs, P e
  | [] => fun _ h => nomatch h
  | b :: bs => List.forall_mem_append.mpr ⟨inductBinding b, inductBindings bs⟩
  termination_by structural bs => bs

end

end

@[elab_as_elim]
theorem induct {P : Expr → Prop} (e : Expr)
    (node : ∀ k ty, (∀ operand ∈ k.operands, P operand) → P (.node k ty)) : P e :=
  inductTree node e

/-- A fold that keeps the tree keeps it as it is. -/
theorem fold_keeps {β : Type} {alg : ExprKind β → Ty → β} (keep : β → Expr)
    (h : ∀ k ty, keep (alg k ty) = .node (k.map keep) ty) (e : Expr) : keep (fold alg e) = e := by
  induction e using induct with
  | node k ty ih =>
      rw [fold_node, h, ExprKind.map_map]
      congr 1
      exact ExprKind.map_eq_of_forall ih

theorem para_node {β : Type} (alg : ExprKind (Expr × β) → Ty → β) (k : ExprKind Expr) (ty : Ty) :
    (Expr.node k ty).para alg = alg (k.map fun e => (e, e.para alg)) ty := by
  have hboth : fold (fun k ty => (Expr.node (k.map Prod.fst) ty, alg k ty)) = fun e => (e, e.para alg) :=
    funext fun e => Prod.ext (e.fold_keeps Prod.fst fun _ _ => rfl) rfl
  rw [para, fold_node, hboth]

/-! ## Nodes of trees -/

theorem toNode_expr (e : Expr) : e.toNode.expr = e :=
  e.fold_keeps Node.expr fun _ _ => rfl

theorem toNode_ty (e : Expr) : e.toNode.ty = e.ty := by rw [Node.ty, toNode_expr]

theorem toNode_node (k : ExprKind Expr) (ty : Ty) :
    (Expr.node k ty).toNode = .ofKind (k.map toNode) ty :=
  fold_node _ _ _

end Expr

end Arbor
