/-
  Runs of equality.

  Equality of operands of which one may be absent looks at presence first.  An
  operator method is lifted over such operands.  Either way there is one
  instruction that sees the values of both operands, and it is reached exactly if
  both are present.  A switch compares the value with its tests in the same way, or
  looks for null before it looks into a table.
-/
import Arbor.Proofs.Simulation.Comparisons

set_option autoImplicit false

namespace Arbor

variable {setting : Setting} {R : Routine} {hR : R.WithinLimits} {start : Nat} {s t : Emission}
  {op : BinaryOp} {method : Option MethodRef} {left right : Operand} {ty : Ty}
  {exit : Option Label}

/-! ## Operators -/

section

variable {l r : Node} {lhs rhs : Expr}

end

/-! ## Switches -/

namespace SwitchCode

variable {value : Expr} {cases : List (SwitchCase Expr)} {default : Option Expr}

end SwitchCode

/-- What is checked before the code of a switch, and emits nothing: without a comparison method, tests are
of the type of the value, or references as it is. -/
theorem Job.Emits.checkSwitch {J : Job} {value : Ty} {cases : List (SwitchCase Node)}
    {default : Option Node} {comparison : Option MethodRef}
    (h : J.Emits start (Emit.checkSwitch value cases default comparison ty) s () t) :
    s = t ∧ (comparison = none → ∀ c ∈ cases, ∀ n ∈ c.tests, n.ty.isTestOf value = true) := by
  cases comparison with
  | none =>
      simp only [Emit.checkSwitch, Option.isNone_none, if_true, ↓Job.Emits.seq_iff] at h
      obtain ⟨u, htests, hbranches⟩ := h
      obtain ⟨rfl, hall⟩ := htests.checkTests
      exact ⟨hbranches.checkBranches.symm, fun _ => hall⟩
  | some m =>
      simp only [Emit.checkSwitch, Option.isNone_some, Bool.false_eq_true, if_false] at h
      exact ⟨h.checkBranches.symm, fun h => by cases h⟩

namespace TestSite

variable {subject : Operand} {span : Span} {within : Nat → Prop} {a : Around} {m : Memory}
  {stack : List Value} {x : Value}

end TestSite

end Arbor
