/-
  Code under a regime.

  What the evaluation of a tree ensures under a regime holds of every run of its
  code: it arrives with a value that fits the type of the tree, it leaves through
  the exit, or it ends in a trap of the regime, and the variables keep values that
  fit their types.
-/
import Arbor.Proofs.Semantics.Ensures
import Arbor.Proofs.Simulation.Trees

set_option autoImplicit false

namespace Arbor

/-- An evaluation that is not stuck in the world. -/
def Eval.IsDefined {α : Type} (x : Eval α) (w : World) : Prop := ∀ u, x.run w ≠ .error .stuck u

namespace Job

/-- What becomes under a regime of code of a tree from one point to a position, by the form that was
reported for it. -/
inductive Obeys (J : Job) (R : Regime) (ctx : Context) (a : Around) (exit : Option Label) (ty : Ty)
    (e : Emitted) (s : Emission) (q : Nat) (m : Memory) (stack : List Value) : Prop where
  /-- At the end the stack carries the result, which fits the type. -/
  | done {n : Memory} {rest : List Value} {u : World} {result : Result}
      (hleads : J.Leads s.position (m.state a stack) q (n.state a rest))
      (hholds : J.Holds s.scope u n) (hfits : u.Fits R ctx) (hresult : result.Fits R ty)
      (hleft : result.Left e.form stack rest)
  /-- Control leaves through the exit, with the stack below what was pushed. -/
  | left {l : Nat} {n : Memory} {top : List Value} {u : World} (hlands : J.Lands exit l)
      (hused : e.usedExit = true)
      (hleads : J.Leads s.position (m.state a stack) l (n.state a (top ++ stack)))
      (hholds : J.Holds s.scope u n) (hfits : u.Fits R ctx)
  /-- The code ends in a trap of the regime. -/
  | trapped {trap : Trap} {u : State} (hends : J.Ends s.position (m.state a stack) (.error trap u))
      (htrap : R.traps trap u.heap.outline)

variable {J : Job} {R : Regime} {ctx : Context} {a : Around} {exit : Option Label} {ty : Ty}
  {e : Emitted} {s : Emission} {q : Nat} {m : Memory} {w : World} {stack : List Value}

/-- Code that follows an evaluation under a regime obeys the regime. -/
theorem Follows.obeys {x : Eval Result} {landing : Nat → Prop}
    (h : J.Follows ⟨a, stack, landing⟩ s q m stack (x.run w)
      (fun result _ rest => result.Left e.form stack rest))
    (hlanding : ∀ l, landing l → J.Lands exit l ∧ e.usedExit = true)
    (hx : x.Ensures R ctx (Result.Fits R ty)) (hfits : w.Fits R ctx) (hdefined : x.IsDefined w) :
    J.Obeys R ctx a exit ty e s q m stack := by
  have hregular := hx w hfits
  have hdefined : ∀ u, x.run w ≠ .error .stuck u := hdefined
  revert h hregular hdefined
  cases x.run w with
  | ok result u =>
      rintro ⟨n, rest, hleads, hholds, -, -, hleft⟩ ⟨hfits, hresult⟩ _
      exact .done hleads hholds hfits hresult hleft
  | error stop u =>
      intro h hregular hdefined
      cases stop with
      | exit =>
          obtain ⟨l, n, top, hl, hleads, hholds, -⟩ := h
          exact .left (hlanding l hl).1 (hlanding l hl).2 hleads hholds hregular
      | trap trap =>
          obtain ⟨t, hends, hheap, -⟩ := h
          rw [Eval.Regular, hheap] at hregular
          exact .trapped hends hregular
      | stuck => exact (hdefined u rfl).elim

/-- Wherever a tree under a regime is emitted and its evaluation is defined, in every shape and with
every exit, its code obeys the regime; emitted with a landing of its own it does so without an
exit. -/
theorem obeys_tree {e : Expr} (he : (e.toMeaning J.setting).Obeys R ctx)
    (hprovides : e.ty.isVoid = false → R.Provides J.setting.registry e.ty)
    (hholds : J.Holds s.scope w m) (hfits : w.Fits R ctx) (hlength : stack.length ≤ s.position)
    (a : Around) :
    (∀ start exit shape extend emitted t,
      J.Emits start (e.toNode.emit exit shape extend) s emitted t → J.Resolves exit →
        ((e.toMeaning J.setting).eval exit.isSome shape extend).IsDefined w →
          J.Obeys R ctx a exit e.ty emitted s t.position m stack) ∧
    ∀ start shape emitted t, J.Emits start (e.toNode.guarded shape) s emitted t →
      (Eval.guarded J.setting (e.toMeaning J.setting) shape).IsDefined w →
        J.Obeys R ctx a none e.ty emitted s t.position m stack := by
  rw [← Expr.toMeaning_ty J.setting e] at hprovides ⊢
  refine ⟨?_, ?_⟩
  · intro start exit shape extend emitted t h hexit hdefined
    exact Follows.obeys
      ((implements_tree e).emit shape extend start exit s t emitted h hexit a w m stack hholds hlength)
      (fun l hl => ⟨hl.1, hl.2.1⟩) (he.eval _ shape extend) hfits hdefined
  · intro start shape emitted t h hdefined
    exact Follows.obeys
      ((implements_tree e).guarded (c := ⟨a, stack, fun _ => False⟩) h hholds hlength)
      (fun _ hl => hl.elim) (he.guarded hprovides shape) hfits hdefined

end Job

end Arbor
