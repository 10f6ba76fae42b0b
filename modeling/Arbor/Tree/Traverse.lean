/-
  Read-only traversal.  The body of a nested function is a unit of its own and
  is not visited.
-/
import Arbor.Tree.Fold
import Arbor.Tree.Names

set_option autoImplicit false

namespace Arbor

universe u

mutual

/-- Operands of a binding in evaluation order. -/
def Binding.children {α : Type u} : Binding α → List α
  | .assign _ value => [value]
  | .member _ bindings => Binding.childrenList bindings
  | .list _ items => items.flatMap (·.args)
  termination_by structural b => b

/-- Operands of bindings in evaluation order. -/
def Binding.childrenList {α : Type u} : List (Binding α) → List α
  | [] => []
  | b :: bs => Binding.children b ++ Binding.childrenList bs
  termination_by structural bs => bs

end

/-- Operands of one layer in evaluation order, without the bodies of functions. -/
def ExprKind.children {α : Type u} : ExprKind α → List α
  | constant _ | default | parameter _ | hoisted _ | closureVar _ | lambda _ => []
  | member receiver _ => receiver.toList
  | index receiver args _ => receiver :: args
  | unary _ operand _ _ => [operand]
  | binary _ left right _ _ | logical _ left right | coalesce left right => [left, right]
  | conditional test ifTrue ifFalse => [test, ifTrue, ifFalse]
  | block _ body => body
  | loop body _ _ => [body]
  | switch value cases fallback _ =>
      value :: cases.flatMap (fun c => c.tests ++ [c.body]) ++ fallback.toList
  | tryCatch body handlers finallyBlock faultBlock =>
      body :: handlers.flatMap (fun h => h.filter.toList ++ [h.body]) ++ finallyBlock.toList ++
        faultBlock.toList
  | call _ receiver args => receiver.toList ++ args
  | invoke func args => func :: args
  | new _ args => args
  | newArray _ (.elements items) | newArray _ (.bounds items) => items
  | listInit start items => start :: items.flatMap (·.args)
  | memberInit start bindings => start :: Binding.childrenList bindings
  | assign _ target value _ _ => target :: value.toList
  | typeTest operand _ _ | convert operand _ _ | typeAs operand => [operand]
  | throw operand => operand.toList
  | goto _ _ value => value.toList
  | label _ value => value.toList

/-- What a visitor sees of a node: its depth, the kind of the node and its type. -/
structure Visit where
  depth : Nat
  kind : String
  ty : Ty

/-- Visits one layer at a depth, before its operands. -/
def visitLayer (k : ExprKind (Nat → List Visit)) (t : Ty) (depth : Nat) : List Visit :=
  ⟨depth, k.name, t⟩ :: k.children.flatMap fun child => child (depth + 1)

namespace Expr

/-- All nodes, each before its operands. -/
def preorder (e : Expr) : List Visit := fold visitLayer e 0

/-- Whether a node of the given kind occurs, and how many nodes a search before operands looks at
until it has found one. -/
def find (kind : String) (e : Expr) : Bool × Nat :=
  let visits := e.preorder
  let misses := (visits.takeWhile fun v => v.kind != kind).length
  if misses < visits.length then (true, misses + 1) else (false, misses)

end Expr

end Arbor
