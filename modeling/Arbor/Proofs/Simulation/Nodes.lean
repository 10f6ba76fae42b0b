/-
  Nodes that implement meanings.

  A node implements a meaning if its code follows the evaluation, in every shape
  and with every exit.  Its value, its effect, and the node with a landing of its
  own then follow the corresponding evaluations.
-/
import Arbor.Proofs.Semantics.Meaning
import Arbor.Proofs.Simulation.Primitives

set_option autoImplicit false

namespace Arbor

/-- What a result leaves on the stack, and the form that is reported for it. -/
def Result.Left (result : Result) (form : Form) (stack rest : List Value) : Prop :=
  match result with
  | .nothing => form = .nothing ∧ rest = stack
  | .value v => form = .value ∧ rest = v :: stack

namespace Job

/-- An exit leads to the position. -/
def Lands (J : Job) (exit : Option Label) (l : Nat) : Prop :=
  ∃ pad, exit = some pad ∧ J.routine.target? pad = some l

/-- An exit that is given leads somewhere. -/
def Resolves (J : Job) (exit : Option Label) : Prop :=
  ∀ pad, exit = some pad → ∃ l, J.routine.target? pad = some l

/-- The emitter of a node follows an evaluation; a failed check is reported, with the form. -/
def Realizes (J : Job) (x : Option Label → Emit Emitted) (y : Bool → Eval Result) (form : Form) :
    Prop :=
  ∀ (start : Nat) (exit : Option Label) (s t : Emission) (e : Emitted),
    J.Emits start (x exit) s e t → J.Resolves exit →
      ∀ (a : Around) (w : World) (m : Memory) (stack : List Value),
        J.Holds s.scope w m → stack.length ≤ s.position →
          J.Follows ⟨a, stack, fun l => J.Lands exit l ∧ e.usedExit = true ∧ e.form = form⟩ s
            t.position m stack ((y exit.isSome).run w)
            (fun result _ rest => result.Left e.form stack rest)

/-- The slot of a place, as the place was prepared. -/
def Prepared (s : Emission) (p : Place) (ty : Ty) : Spot → Prop
  | .var id => ∃ slot declared, p = .plain (.var slot) ty ∧ s.scope.lookup id = some (slot, declared)

/-- The code of a node follows its meaning. -/
structure Implements (J : Job) (n : Node) (d : Meaning) : Prop where
  expr : d.expr = n.expr
  emit : ∀ shape extend, J.Realizes (fun exit => n.emit exit shape extend)
    (fun exits => d.eval exits shape extend) (shape.form n.ty)
  place : ∀ (start : Nat) (exit : Option Label) (extend : Bool) (s t : Emission) (p : Place × Bool),
    J.Emits start (n.place exit extend) s p t → J.Resolves exit →
      ∀ (a : Around) (w : World) (m : Memory) (stack : List Value),
        J.Holds s.scope w m → stack.length ≤ s.position →
          J.Follows ⟨a, stack, fun l => J.Lands exit l ∧ p.2 = true⟩ s t.position m stack
            ((d.place exit.isSome extend).run w)
            (fun spot _ rest => Prepared t p.1 n.ty spot ∧ rest = stack)
  constant : ∀ value, d.expr.kind = .constant value →
    ∀ exits, d.eval exits .value false = Eval.constant J.setting value d.ty
  default : d.expr.kind = .default →
    ∀ exits, d.eval exits .value false = Eval.default J.setting d.ty

namespace Implements

variable {J : Job} {start : Nat} {s t : Emission} {n : Node} {d : Meaning} {exit : Option Label}
  {a : Around} {w : World} {m : Memory} {stack : List Value}

theorem ty (h : J.Implements n d) : d.ty = n.ty := by
  rw [Meaning.ty, Node.ty, h.expr]

/-- The code of the value. -/
theorem value {used : Bool} (hn : J.Implements n d)
    (h : J.Emits start (n.value exit) s used t) (hexit : J.Resolves exit)
    (hholds : J.Holds s.scope w m) (hlength : stack.length ≤ s.position) :
    J.Follows ⟨a, stack, fun l => J.Lands exit l ∧ used = true⟩ s t.position m stack
      ((d.value exit.isSome).run w) (fun v _ rest => rest = v :: stack) := by
  obtain ⟨e, u, he, h⟩ := h.bind
  obtain ⟨rfl, rfl⟩ := h.pure
  refine .bind ((hn.emit .value false start exit s t e he hexit a w m stack hholds hlength).widen rfl
    List.suffix_rfl fun l hl => ⟨hl.1, hl.2.1⟩) he.retains ?_
  intro result w n rest hleft hholds _ hlength
  cases result with
  | nothing => exact .stuck _
  | value v => exact .ok hlength hholds hleft.2

/-- The code of the value as an operand of a larger node. -/
theorem operand {c : Site} {used : Bool} (hn : J.Implements n d)
    (h : J.Emits start (n.value exit) s used t) (hexit : J.Resolves exit)
    (hholds : J.Holds s.scope w m) (hlength : stack.length ≤ s.position)
    (hfloor : c.floor <:+ stack) (hlanding : ∀ l, J.Lands exit l → used = true → c.landing l) :
    J.Follows c s t.position m stack ((d.value exit.isSome).run w)
      (fun v _ rest => rest = v :: stack) :=
  (hn.value h hexit hholds hlength).widen rfl hfloor fun l hl => hlanding l hl.1 hl.2

/-- The code for the effect. -/
theorem effect {used : Bool} (hn : J.Implements n d)
    (h : J.Emits start (n.effect exit) s used t) (hexit : J.Resolves exit)
    (hholds : J.Holds s.scope w m) (hlength : stack.length ≤ s.position) :
    J.Follows ⟨a, stack, fun l => J.Lands exit l ∧ used = true⟩ s t.position m stack
      ((d.effect exit.isSome).run w) (fun _ _ rest => rest = stack) := by
  obtain ⟨e, u, he, h⟩ := h.bind
  obtain ⟨rfl, rfl⟩ := h.pure
  refine .bind ((hn.emit .nothing false start exit s t e he hexit a w m stack hholds hlength).widen
    rfl List.suffix_rfl fun l hl => ⟨hl.1, hl.2.1⟩) he.retains ?_
  intro result w n rest hleft hholds _ hlength
  cases result with
  | nothing => exact .ok hlength hholds hleft.2
  | value v => exact .stuck _

end Implements

end Job

end Arbor
