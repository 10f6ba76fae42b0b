/-
  Code that follows an evaluation.

  The variables of a world live in the slots that the scope of the emission names
  (`Holds`), and whatever else is live stays as it is (`Keeps`).  Code follows an
  evaluation (`Follows`) if it leads to its end with the result where the
  evaluation has one, to a landing with the stack below untouched where a check
  fails, and traps where the evaluation does.
-/
import Arbor.Proofs.Semantics.World
import Arbor.Proofs.Simulation.Emits
import Mathlib.Data.List.Forall2
import Mathlib.Order.Basic

set_option autoImplicit false

namespace Arbor

/-- Whether a variable of the world is the variable of the scope, with its value in the slot. -/
def Memory.Binds (m : Memory) (x : VarId × Ty × Value) (y : VarId × VarSlot × Ty) : Prop :=
  x.1 = y.1 ∧ x.2.1 = y.2.2 ∧ m.slot? y.2.1 = some x.2.2

namespace Job

/-- The memory holds the world, where the variables are in scope. -/
structure Holds (J : Job) (scope : Scope) (w : World) (m : Memory) : Prop where
  heap : w.heap = m.heap.outline
  statics : w.statics = m.statics
  locals : m.locals.size = J.routine.locals.size
  vars : List.Forall₂ m.Binds w.vars scope

end Job

namespace Emission

/-- A slot that is in use but holds no variable: a live temporary or a hidden argument. -/
def Holding (s : Emission) (slot : VarSlot) : Prop :=
  slot ∉ s.scope.slots ∧ ∀ i, slot = .local i → i ∈ s.pool.live

/-- What is in use at the first point is in use at the second. -/
structure Retains (s t : Emission) : Prop where
  scope : t.scope = s.scope
  live : s.pool.live ⊆ t.pool.live

/-- Points of an emission are ordered by what is in use. -/
instance : Preorder Emission where
  le := Retains
  le_refl _ := ⟨rfl, fun _ hi => hi⟩
  le_trans _ _ _ h k := ⟨k.scope.trans h.scope, fun _ hi => k.live (h.live hi)⟩

theorem Grows.retains {s t : Emission} (h : s.Grows t) : s ≤ t := ⟨h.scope, h.live.subset⟩

@[grind →]
theorem scope_eq {s t : Emission} (h : s ≤ t) : t.scope = s.scope := h.scope

theorem Sound.holding {s t : Emission} {slot : Nat} (h : s.Sound) (hretains : s ≤ t)
    (hlive : slot ∈ t.pool.live) (hfresh : slot ∉ s.pool.live) : t.Holding (.local slot) := by
  refine ⟨?_, fun i hi => by cases hi; exact hlive⟩
  rw [hretains.scope]
  intro hslot
  exact hfresh (h.live slot hslot)

theorem Holding.later {s t : Emission} {slot : VarSlot} (h : s.Holding slot)
    (hretains : s ≤ t) : t.Holding slot := by
  refine ⟨by rw [hretains.scope]; exact h.1, ?_⟩
  intro i hi
  exact hretains.live (h.2 i hi)

end Emission

/-- Slots in use that hold no variable keep their values. -/
def Memory.Keeps (s : Emission) (m n : Memory) : Prop :=
  ∀ slot, s.Holding slot → n.slot? slot = m.slot? slot

namespace Memory.Keeps

variable {s t : Emission} {m n k : Memory}

theorem refl (s : Emission) (m : Memory) : m.Keeps s m := fun _ _ => rfl

theorem trans (h : m.Keeps s n) (h' : n.Keeps s k) : m.Keeps s k :=
  fun slot hslot => (h' slot hslot).trans (h slot hslot)

theorem before (h : m.Keeps t n) (hretains : s ≤ t) : m.Keeps s n :=
  fun slot hslot => h slot (hslot.later hretains)

theorem shared (s : Emission) (m : Memory) (h : Heap) (st : Statics) : m.Keeps s (m.shared h st) :=
  fun slot _ => by cases slot <;> rfl

end Memory.Keeps

/-- A temporary that holds a value. -/
structure Memory.Temp (m : Memory) (s : Emission) (slot : Nat) (v : Value) : Prop where
  holding : s.Holding (.local slot)
  value : m.locals[slot]? = some v

theorem Memory.Temp.kept {s t : Emission} {m n : Memory} {slot : Nat} {v : Value}
    (h : m.Temp s slot v) (hkeeps : m.Keeps s n) (hretains : s ≤ t) : n.Temp t slot v :=
  ⟨h.holding.later hretains, (hkeeps _ h.holding).trans h.value⟩

theorem Memory.Temp.later {s t : Emission} {m : Memory} {slot : Nat} {v : Value}
    (h : m.Temp s slot v) (hretains : s ≤ t) : m.Temp t slot v :=
  h.kept (.refl _ _) hretains

/-- What a section of code may rely on and has to respect. -/
structure Site where
  around : Around
  /-- The part of the evaluation stack that failed checks leave alone. -/
  floor : List Value
  /-- Where failed checks may lead. -/
  landing : Nat → Prop

namespace Job

variable {J : Job} {α β γ : Type}

@[grind →]
theorem Emits.retains {start : Nat} {x : Emit α} {s t : Emission} {a : α}
    (h : J.Emits start x s a t) : s ≤ t := h.grows.retains

theorem Emits.retains_before {start : Nat} {i : Instr} {s t : Emission}
    (h : J.Emits start (Emit.instr i) s () t) : t ≤ s := by
  refine ⟨h.grows.scope.symm, ?_⟩
  rw [h.instr.2.2.1]
  exact fun _ hi => hi

/-- The routine of the job leads from one point to another. -/
abbrev Leads (J : Job) (p : Nat) (s : State) (q : Nat) (t : State) : Prop :=
  Run.Leads J.setting.registry J.routine p s q t

/-- The routine of the job ends from a point. -/
abbrev Ends (J : Job) (p : Nat) (s : State) (out : Run.Ending) : Prop :=
  Run.Ends J.setting.registry J.routine p s out

/-- The code from where the emission stands up to a position follows an evaluation. -/
def Follows (J : Job) (c : Site) (s : Emission) (q : Nat) (m : Memory) (stack : List Value)
    (out : EStateM.Result Stop World α) (post : α → Memory → List Value → Prop) : Prop :=
  match out with
  | .ok a w => ∃ n rest, J.Leads s.position (m.state c.around stack) q (n.state c.around rest) ∧
      J.Holds s.scope w n ∧ m.Keeps s n ∧ rest.length ≤ q ∧ post a n rest
  | .error .exit w => ∃ l n top, c.landing l ∧
      J.Leads s.position (m.state c.around stack) l (n.state c.around (top ++ c.floor)) ∧
      J.Holds s.scope w n ∧ m.Keeps s n
  | .error (.trap e) w => ∃ u, J.Ends s.position (m.state c.around stack) (.error e u) ∧
      w.heap = u.heap.outline ∧ w.statics = u.statics ∧ u.frames.tail = c.around.outer
  | .error .stuck _ => True

namespace Follows

variable {c : Site} {s u : Emission} {q : Nat} {m : Memory} {stack : List Value}

theorem stuck {post : α → Memory → List Value → Prop} (w : World) :
    J.Follows c s q m stack (.error .stuck w) post := trivial

theorem ok {a : α} {w : World} {post : α → Memory → List Value → Prop}
    (hlength : stack.length ≤ s.position) (hholds : J.Holds s.scope w m) (hpost : post a m stack) :
    J.Follows c s s.position m stack (.ok a w) post :=
  ⟨m, stack, .refl _ _, hholds, .refl _ _, hlength, hpost⟩

/-- What leads to code that follows an evaluation follows it. -/
theorem after {n : Memory} {rest : List Value} {out : EStateM.Result Stop World α}
    {post : α → Memory → List Value → Prop} (hretains : s ≤ u)
    (hleads : J.Leads s.position (m.state c.around stack) u.position (n.state c.around rest))
    (hkeeps : m.Keeps s n) (h : J.Follows c u q n rest out post) :
    J.Follows c s q m stack out post := by
  have hscope : u.scope = s.scope := hretains.scope
  match out, h with
  | .ok a w, ⟨k, top, hl, hholds, hk, hlength, hpost⟩ =>
      rw [hscope] at hholds
      exact ⟨k, top, hleads.trans hl, hholds, hkeeps.trans (hk.before hretains), hlength, hpost⟩
  | .error .exit w, ⟨l, k, top, hlanding, hl, hholds, hk⟩ =>
      rw [hscope] at hholds
      exact ⟨l, k, top, hlanding, hleads.trans hl, hholds, hkeeps.trans (hk.before hretains)⟩
  | .error (.trap e) w, ⟨v, hends, hrest⟩ => exact ⟨v, hleads.ends hends, hrest⟩
  | .error .stuck w, _ => trivial

theorem move {out : EStateM.Result Stop World α} {post : α → Memory → List Value → Prop}
    (hretains : s ≤ u) (hposition : u.position = s.position)
    (h : J.Follows c u q m stack out post) : J.Follows c s q m stack out post := by
  refine after hretains ?_ (.refl _ _) h
  rw [hposition]
  exact .refl _ _

/-- The code of a bind follows its parts. -/
theorem bind {x : Eval α} {f : α → Eval β} {w : World} {mid : α → Memory → List Value → Prop}
    {post : β → Memory → List Value → Prop} (hx : J.Follows c s u.position m stack (x.run w) mid)
    (hretains : s ≤ u)
    (hf : ∀ a w n rest, mid a n rest → J.Holds u.scope w n → m.Keeps s n →
      rest.length ≤ u.position → J.Follows c u q n rest ((f a).run w) post) :
    J.Follows c s q m stack ((x >>= f).run w) post := by
  change J.Follows c s u.position m stack (x w) mid at hx
  change J.Follows c s q m stack (EStateM.bind x f w) post
  unfold EStateM.bind
  revert hx
  cases x w with
  | ok a w =>
      rintro ⟨n, rest, hl, hholds, hkeeps, hlength, hmid⟩
      refine after hretains hl hkeeps (hf a w n rest hmid ?_ hkeeps hlength)
      rw [hretains.scope]
      exact hholds
  | error e w =>
      intro hx
      cases e with
      | exit => exact hx
      | trap e => exact hx
      | stuck => exact trivial

/-- More code behind the end. -/
theorem andThen {out : EStateM.Result Stop World α} {mid post : α → Memory → List Value → Prop}
    (hx : J.Follows c s u.position m stack out mid) (hretains : s ≤ u)
    (hf : ∀ a w n rest, mid a n rest → J.Holds u.scope w n → m.Keeps s n →
      rest.length ≤ u.position → J.Follows c u q n rest (.ok a w) post) :
    J.Follows c s q m stack out post := by
  match out, hx with
  | .ok a w, ⟨n, rest, hl, hholds, hkeeps, hlength, hmid⟩ =>
      refine after hretains hl hkeeps (hf a w n rest hmid ?_ hkeeps hlength)
      rw [hretains.scope]
      exact hholds
  | .error .exit w, hx => exact hx
  | .error (.trap e) w, hx => exact hx
  | .error .stuck w, _ => trivial

theorem imp {out : EStateM.Result Stop World α} {mid post : α → Memory → List Value → Prop}
    (hx : J.Follows c s q m stack out mid) (himp : ∀ a n rest, mid a n rest → post a n rest) :
    J.Follows c s q m stack out post := by
  match out, hx with
  | .ok a w, ⟨n, rest, hl, hholds, hkeeps, hlength, hmid⟩ =>
      exact ⟨n, rest, hl, hholds, hkeeps, hlength, himp a n rest hmid⟩
  | .error .exit w, hx => exact hx
  | .error (.trap e) w, hx => exact hx
  | .error .stuck w, _ => trivial

/-- A section of a larger one, above more of the stack and with fewer landings. -/
theorem widen {d : Site} {out : EStateM.Result Stop World α}
    {post : α → Memory → List Value → Prop} (h : J.Follows d s q m stack out post)
    (haround : d.around = c.around) (hfloor : c.floor <:+ d.floor)
    (hlanding : ∀ l, d.landing l → c.landing l) : J.Follows c s q m stack out post := by
  match out, h with
  | .ok a w, h =>
      simp only [Follows, haround] at h
      exact h
  | .error .exit w, ⟨l, n, top, hl, hleads, hholds, hkeeps⟩ =>
      obtain ⟨more, hmore⟩ := hfloor
      rw [haround, ← hmore, ← List.append_assoc] at hleads
      exact ⟨l, n, top ++ more, hlanding l hl, hleads, hholds, hkeeps⟩
  | .error (.trap e) w, h =>
      simp only [Follows, haround] at h
      exact h
  | .error .stuck w, _ => trivial

end Follows

end Job

end Arbor
