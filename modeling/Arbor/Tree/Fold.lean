/-
  Recursion over expression trees, one layer at a time.

  `ExprKind.map` replaces the operands of one layer, `Expr.fold` computes a
  result bottom-up, and `Expr.para` does the same with the subtrees at hand.
  `Expr.fold_node` is the equation that later proofs use instead of unfolding.
-/
import Arbor.Tree.Basic

set_option autoImplicit false

namespace Arbor

universe u v

/-! ## Replacing operands -/

/-- Replaces the operands of a case. -/
def SwitchCase.map {α : Type u} {β : Type v} (f : α → β) (c : SwitchCase α) : SwitchCase β :=
  ⟨c.tests.map f, f c.body⟩

/-- Replaces the operands of a handler. -/
def CatchBlock.map {α : Type u} {β : Type v} (f : α → β) (h : CatchBlock α) : CatchBlock β :=
  ⟨h.ty, h.binder, h.filter.map f, f h.body⟩

/-- Replaces the operands of an array initializer. -/
def ArrayInit.map {α : Type u} {β : Type v} (f : α → β) : ArrayInit α → ArrayInit β
  | elements items => elements (items.map f)
  | bounds items => bounds (items.map f)

/-- Replaces the operands of an element initializer. -/
def ElementInit.map {α : Type u} {β : Type v} (f : α → β) (i : ElementInit α) : ElementInit β :=
  ⟨i.add, i.args.map f⟩

mutual

/-- Replaces the operands of a binding. -/
def Binding.map {α : Type u} {β : Type v} (f : α → β) : Binding α → Binding β
  | .assign m value => .assign m (f value)
  | .member m bindings => .member m (Binding.mapList f bindings)
  | .list m items => .list m (items.map (ElementInit.map f))
  termination_by structural b => b

/-- Replaces the operands of bindings. -/
def Binding.mapList {α : Type u} {β : Type v} (f : α → β) : List (Binding α) → List (Binding β)
  | [] => []
  | b :: bs => Binding.map f b :: Binding.mapList f bs
  termination_by structural bs => bs

end

/-- Replaces the body of a function. -/
def Lambda.map {α : Type u} {β : Type v} (f : α → β) (l : Lambda α) : Lambda β :=
  ⟨l.name, l.params, l.ret, f l.body, l.hidden⟩

/-- Replaces the operands of one layer. -/
def ExprKind.map {α : Type u} {β : Type v} (f : α → β) : ExprKind α → ExprKind β
  | constant value => constant value
  | default => default
  | parameter id => parameter id
  | hoisted i => hoisted i
  | closureVar i => closureVar i
  | member receiver m => member (receiver.map f) m
  | index receiver args indexer => index (f receiver) (args.map f) indexer
  | unary op operand checked method => unary op (f operand) checked method
  | binary op left right checked method => binary op (f left) (f right) checked method
  | logical op left right => logical op (f left) (f right)
  | coalesce left right => coalesce (f left) (f right)
  | conditional test ifTrue ifFalse => conditional (f test) (f ifTrue) (f ifFalse)
  | block vars body => block vars (body.map f)
  | loop body breakLabel continueLabel => loop (f body) breakLabel continueLabel
  | switch value cases fallback comparison =>
      switch (f value) (cases.map (SwitchCase.map f)) (fallback.map f) comparison
  | tryCatch body handlers finallyBlock faultBlock =>
      tryCatch (f body) (handlers.map (CatchBlock.map f)) (finallyBlock.map f) (faultBlock.map f)
  | call method receiver args => call method (receiver.map f) (args.map f)
  | invoke func args => invoke (f func) (args.map f)
  | new ctor args => new ctor (args.map f)
  | newArray elem init => newArray elem (init.map f)
  | listInit start items => listInit (f start) (items.map (ElementInit.map f))
  | memberInit start bindings => memberInit (f start) (Binding.mapList f bindings)
  | lambda function => lambda (function.map f)
  | assign op target value checked autoExtend =>
      assign op (f target) (value.map f) checked autoExtend
  | typeTest operand target exact => typeTest (f operand) target exact
  | convert operand checked method => convert (f operand) checked method
  | typeAs operand => typeAs (f operand)
  | throw operand => throw (operand.map f)
  | goto kind target value => goto kind target (value.map f)
  | label target value => label target (value.map f)

/-! ## Folding -/

namespace Expr

mutual

/-- Computes a result bottom-up: `alg` is applied to every layer with its operands' results. -/
def fold {β : Type u} (alg : ExprKind β → Ty → β) : Expr → β
  | .node k t => alg (foldKind alg k) t
  termination_by structural e => e

/-- Folds the operands of one layer. -/
def foldKind {β : Type u} (alg : ExprKind β → Ty → β) : ExprKind Expr → ExprKind β
  | .constant value => .constant value
  | .default => .default
  | .parameter id => .parameter id
  | .hoisted i => .hoisted i
  | .closureVar i => .closureVar i
  | .member receiver m => .member (foldOption alg receiver) m
  | .index receiver args indexer => .index (fold alg receiver) (foldList alg args) indexer
  | .unary op operand checked method => .unary op (fold alg operand) checked method
  | .binary op left right checked method =>
      .binary op (fold alg left) (fold alg right) checked method
  | .logical op left right => .logical op (fold alg left) (fold alg right)
  | .coalesce left right => .coalesce (fold alg left) (fold alg right)
  | .conditional test ifTrue ifFalse =>
      .conditional (fold alg test) (fold alg ifTrue) (fold alg ifFalse)
  | .block vars body => .block vars (foldList alg body)
  | .loop body breakLabel continueLabel => .loop (fold alg body) breakLabel continueLabel
  | .switch value cases fallback comparison =>
      .switch (fold alg value) (foldCases alg cases) (foldOption alg fallback) comparison
  | .tryCatch body handlers finallyBlock faultBlock =>
      .tryCatch (fold alg body) (foldHandlers alg handlers) (foldOption alg finallyBlock)
        (foldOption alg faultBlock)
  | .call method receiver args => .call method (foldOption alg receiver) (foldList alg args)
  | .invoke func args => .invoke (fold alg func) (foldList alg args)
  | .new ctor args => .new ctor (foldList alg args)
  | .newArray elem (.elements items) => .newArray elem (.elements (foldList alg items))
  | .newArray elem (.bounds items) => .newArray elem (.bounds (foldList alg items))
  | .listInit start items => .listInit (fold alg start) (foldItems alg items)
  | .memberInit start bindings => .memberInit (fold alg start) (foldBindings alg bindings)
  | .lambda ⟨name, params, ret, body, hidden⟩ =>
      .lambda ⟨name, params, ret, fold alg body, hidden⟩
  | .assign op target value checked autoExtend =>
      .assign op (fold alg target) (foldOption alg value) checked autoExtend
  | .typeTest operand target exact => .typeTest (fold alg operand) target exact
  | .convert operand checked method => .convert (fold alg operand) checked method
  | .typeAs operand => .typeAs (fold alg operand)
  | .throw operand => .throw (foldOption alg operand)
  | .goto kind target value => .goto kind target (foldOption alg value)
  | .label target value => .label target (foldOption alg value)
  termination_by structural k => k

/-- Folds an optional operand. -/
def foldOption {β : Type u} (alg : ExprKind β → Ty → β) : Option Expr → Option β
  | none => none
  | some e => some (fold alg e)
  termination_by structural o => o

/-- Folds a list of operands. -/
def foldList {β : Type u} (alg : ExprKind β → Ty → β) : List Expr → List β
  | [] => []
  | e :: es => fold alg e :: foldList alg es
  termination_by structural es => es

/-- Folds the operands of cases. -/
def foldCases {β : Type u} (alg : ExprKind β → Ty → β) :
    List (SwitchCase Expr) → List (SwitchCase β)
  | [] => []
  | ⟨tests, body⟩ :: cs => ⟨foldList alg tests, fold alg body⟩ :: foldCases alg cs
  termination_by structural cs => cs

/-- Folds the operands of handlers. -/
def foldHandlers {β : Type u} (alg : ExprKind β → Ty → β) :
    List (CatchBlock Expr) → List (CatchBlock β)
  | [] => []
  | ⟨ty, binder, filter, body⟩ :: hs =>
      ⟨ty, binder, foldOption alg filter, fold alg body⟩ :: foldHandlers alg hs
  termination_by structural hs => hs

/-- Folds the operands of element initializers. -/
def foldItems {β : Type u} (alg : ExprKind β → Ty → β) :
    List (ElementInit Expr) → List (ElementInit β)
  | [] => []
  | ⟨add, args⟩ :: is => ⟨add, foldList alg args⟩ :: foldItems alg is
  termination_by structural is => is

/-- Folds the operands of a binding. -/
def foldBinding {β : Type u} (alg : ExprKind β → Ty → β) : Binding Expr → Binding β
  | .assign m value => .assign m (fold alg value)
  | .member m bindings => .member m (foldBindings alg bindings)
  | .list m items => .list m (foldItems alg items)
  termination_by structural b => b

/-- Folds the operands of bindings. -/
def foldBindings {β : Type u} (alg : ExprKind β → Ty → β) : List (Binding Expr) → List (Binding β)
  | [] => []
  | b :: bs => foldBinding alg b :: foldBindings alg bs
  termination_by structural bs => bs

end

/-! ## Folding is mapping -/

section Laws

variable {β : Type u} (alg : ExprKind β → Ty → β)

/-- Optional operands are folded by mapping. -/
theorem foldOption_eq (o : Option Expr) : foldOption alg o = o.map (fold alg) := by
  cases o <;> rfl

/-- Operand lists are folded by mapping. -/
theorem foldList_eq (es : List Expr) : foldList alg es = es.map (fold alg) := by
  induction es with
  | nil => rfl
  | cons e es ih => rw [foldList, ih, List.map_cons]

/-- Cases are folded by mapping. -/
theorem foldCases_eq (cs : List (SwitchCase Expr)) :
    foldCases alg cs = cs.map (SwitchCase.map (fold alg)) := by
  induction cs with
  | nil => rfl
  | cons c cs ih =>
      cases c
      rw [foldCases, ih, List.map_cons, foldList_eq]
      rfl

/-- Handlers are folded by mapping. -/
theorem foldHandlers_eq (hs : List (CatchBlock Expr)) :
    foldHandlers alg hs = hs.map (CatchBlock.map (fold alg)) := by
  induction hs with
  | nil => rfl
  | cons h hs ih =>
      cases h
      rw [foldHandlers, ih, List.map_cons, foldOption_eq]
      rfl

/-- Element initializers are folded by mapping. -/
theorem foldItems_eq (is : List (ElementInit Expr)) :
    foldItems alg is = is.map (ElementInit.map (fold alg)) := by
  induction is with
  | nil => rfl
  | cons i is ih =>
      cases i
      rw [foldItems, ih, List.map_cons, foldList_eq]
      rfl

mutual

/-- A binding is folded by mapping. -/
theorem foldBinding_eq : (b : Binding Expr) → foldBinding alg b = b.map (fold alg)
  | .assign m value => by rw [foldBinding, Binding.map]
  | .member m bindings => by rw [foldBinding, Binding.map, foldBindings_eq bindings]
  | .list m items => by rw [foldBinding, Binding.map, foldItems_eq]

/-- Bindings are folded by mapping. -/
theorem foldBindings_eq :
    (bs : List (Binding Expr)) → foldBindings alg bs = Binding.mapList (fold alg) bs
  | [] => by rw [foldBindings, Binding.mapList]
  | b :: bs => by rw [foldBindings, Binding.mapList, foldBinding_eq b, foldBindings_eq bs]

end

/-- One layer is folded by mapping. -/
theorem foldKind_eq (k : ExprKind Expr) : foldKind alg k = k.map (fold alg) := by
  cases k with
  | newArray elem init => cases init <;> simp [foldKind, ExprKind.map, ArrayInit.map, foldList_eq]
  | lambda function => cases function; rfl
  | _ =>
      simp [foldKind, ExprKind.map, foldList_eq, foldOption_eq, foldCases_eq, foldHandlers_eq,
        foldItems_eq, foldBindings_eq]

/-- The defining equation of a fold. -/
theorem fold_node (k : ExprKind Expr) (t : Ty) :
    fold alg (.node k t) = alg (k.map (fold alg)) t := by
  rw [fold, foldKind_eq]

end Laws

/-- Computes a result bottom-up, with the subtrees themselves at hand beside their results. -/
def para {β : Type u} (alg : ExprKind (Expr × β) → Ty → β) (e : Expr) : β :=
  (fold (fun k t => (Expr.node (k.map Prod.fst) t, alg k t)) e).2

end Expr

end Arbor
