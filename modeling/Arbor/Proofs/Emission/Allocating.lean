/-
  Emitters allocate slots step by step.

  Every emitter leads from point to point by the steps of allocation, whatever
  sections are open: temporaries, sections and variables are all that it does to
  slots.  The rules for whole trees carry this over to the bodies of functions.
-/
import Arbor.Proofs.Emission.Allocation
import Arbor.Proofs.Emission.Tracking

set_option autoImplicit false

namespace Arbor.Emit

variable {α β : Type} {own : List Label} {exit : Option Label} {Q : α → Prop} {x : Emit α}

/-- Every successful run of the emitter takes steps of allocation, and its result has the property. -/
def Allocates (x : Emit α) (Q : α → Prop) : Prop :=
  ∀ setting s t a sections, x.run setting s = .ok a t → Point.Nested ⟨s, sections⟩ →
    Point.Steps ⟨s, sections⟩ ⟨t, sections⟩ ∧ Q a

namespace Allocates

theorem bind {f : α → Emit β} {P : α → Prop} {Q : β → Prop} (hx : Allocates x P)
    (hf : ∀ a, P a → Allocates (f a) Q) : Allocates (x >>= f) Q := by
  intro setting s t b sections hrun hs
  obtain ⟨a, u, hxu, hfu⟩ := run_bind hrun
  obtain ⟨hsu, hP⟩ := hx _ _ _ _ sections hxu hs
  obtain ⟨hut, hQ⟩ := hf a hP _ _ _ _ sections hfu (hsu.nested hs)
  exact ⟨hsu.trans hut, hQ⟩

/-- An emitter that leaves slots and variables as they are. -/
theorem of_run (h : ∀ setting s t a, x.run setting s = .ok a t →
    t.pool = s.pool ∧ t.builder.locals = s.builder.locals ∧ t.scope = s.scope ∧ Q a) :
    Allocates x Q := by
  intro setting s t a sections hrun _
  obtain ⟨hpool, hlocals, hscope, hQ⟩ := h setting s t a hrun
  exact ⟨.single (.other hpool hlocals hscope), hQ⟩

theorem read {f : Setting → Emission → Except CompileError α} (h : ∀ a, Q a) :
    Allocates (Emit.read f) Q :=
  of_run fun setting s t a hrun => by
    simp only [Emit.read] at hrun
    split at hrun
    · cases hrun
      exact ⟨rfl, rfl, rfl, h a⟩
    · cases hrun

theorem instr {i : Instr} : Allocates (Emit.instr i) fun _ => True :=
  of_run fun setting s t a hrun => by
    cases hrun
    exact ⟨rfl, rfl, rfl, trivial⟩

/-- A placeholder, and what may become of it. -/
theorem reserved {fill : α → Option Instr} (hx : Allocates x Q) :
    Allocates (Emit.reserved x fill) Q := by
  intro setting s t a sections hrun hs
  have hstart : Point.Step ⟨s, sections⟩ ⟨{ s with builder := s.builder.emit .nop }, sections⟩ :=
    .other rfl rfl rfl
  simp only [Emit.reserved] at hrun
  split at hrun
  · next b u hxu =>
      have hu := hx _ _ _ _ sections hxu (hstart.nested hs)
      split at hrun
      · cases hrun
        exact ⟨.head hstart (hu.1.tail (.other rfl rfl rfl)), hu.2⟩
      · cases hrun
        exact ⟨.head hstart hu.1, hu.2⟩
  · cases hrun

/-- A marked label. -/
theorem mark {l : Label} : Allocates (Emit.mark l) fun _ => True :=
  of_run fun setting s t a hrun => by
    simp only [Emit.mark] at hrun
    split at hrun
    · next b hmark =>
        cases hrun
        unfold Builder.markLabel at hmark
        split at hmark
        · cases hmark
          exact ⟨rfl, rfl, rfl, trivial⟩
        · cases hmark
        · cases hmark
    · cases hrun

/-- A section with temporaries of its own. -/
theorem withTemps (hx : Allocates x Q) : Allocates (Emit.withTemps x) Q := by
  intro setting s t a sections hrun hs
  simp only [Emit.withTemps] at hrun
  split at hrun
  · next u hxu =>
      cases hrun
      have hopen : Point.Step ⟨s, sections⟩ ⟨s, .temps s.pool.live :: sections⟩ := .openTemps
      obtain ⟨hsteps, hQ⟩ := hx _ _ _ _ _ hxu (hopen.nested hs)
      exact ⟨.head hopen (hsteps.tail .closeTemps), hQ⟩
  · cases hrun

/-- Zeroed locals are temporaries, one for each variable. -/
theorem bindLocals_steps {vars : List Variable} {setting : Setting} {s t : Emission} {bound : Scope}
    (h : (bindLocals vars).run setting s = .ok bound t) (sections : List Section) :
    Point.Steps ⟨s, sections⟩ ⟨t, sections⟩ ∧ t.scope = s.scope ∧
      t.pool.live = Scope.locals bound.reverse ++ s.pool.live := by
  induction vars generalizing s bound with
  | nil =>
      cases h
      exact ⟨.refl, rfl, rfl⟩
  | cons v vars ih =>
      obtain ⟨first, u, hfirst, h⟩ := run_bind h
      obtain ⟨rest, w, hrest, hpure⟩ := run_bind h
      cases hpure
      obtain ⟨slot, y, htemp, rfl, hpool, hlocals, hscope⟩ := bindLocal_steps hfirst
      obtain ⟨hsteps, hsame, hlive⟩ := ih hrest
      have hacquired : y.pool.live = slot :: s.pool.live := by
        simp only [temp] at htemp
        cases htemp
        exact SlotPool.acquire_live _ _ _
      refine ⟨.head (.temp htemp) (.head (.other hpool hlocals hscope) hsteps), ?_, ?_⟩
      · rw [hsame, hscope, ((temp _).grows htemp).scope]
      · rw [hlive, hpool, hacquired, List.reverse_cons, Scope.locals_append, List.append_assoc]
        rfl

/-- A section with zeroed locals in scope. -/
theorem withLocals {vars : List Variable} (hx : Allocates x Q) :
    Allocates (Emit.withLocals vars x) Q := by
  intro setting s t a sections hrun hs
  obtain ⟨bound, u, hbind, hrun⟩ := run_bind hrun
  obtain ⟨hbound, hscope, hlive⟩ := bindLocals_steps hbind sections
  have hopen : Point.Step ⟨u, sections⟩ ⟨{ u with scope := bound.reverse ++ u.scope },
      .vars u.scope (bound.reverse ++ u.scope) :: sections⟩ := by
    refine .openVars ?_
    rw [Scope.locals_append, hlive, hscope]
    exact (Section.Nested.sublist hs).append_left _
  simp only [Emit.inScope] at hrun
  split at hrun
  · next w hxw =>
      cases hrun
      obtain ⟨hsteps, hQ⟩ := hx _ _ _ _ _ hxw (hopen.nested (hbound.nested hs))
      exact ⟨hbound.trans (.head hopen (hsteps.tail .closeVars)), hQ⟩
  · cases hrun

end Allocates

/-- The rules of emitters that take steps of allocation. -/
def allocatingRules : Rules where
  Holds _ _ x _ Q := Allocates x Q
  Slot _ := True
  Arg _ := True
  Child _ := True
  pure hQ _ := .of_run fun setting s t a hrun => by
    cases hrun
    exact ⟨rfl, rfl, rfl, hQ⟩
  bind := Allocates.bind
  weaken hx _ _ hQ setting s t a sections hrun hs :=
    (hx setting s t a sections hrun hs).imp_right (hQ a)
  fail _ _ _ _ _ _ hrun := nomatch hrun
  read _ := .read fun _ => trivial
  instr _ _ := .instr
  newLabel := .of_run fun setting s t a hrun => by
    cases hrun
    exact ⟨rfl, rfl, rfl, trivial⟩
  mark _ := .mark
  temp setting s t slot sections hrun _ := ⟨.single (.temp hrun), trivial⟩
  withTemps := .withTemps
  varSlot := .read fun v => by
    obtain ⟨slot, ty⟩ := v
    cases slot <;> exact trivial
  helper := .of_run fun setting s t i hrun => by
    simp only [Emit.helper] at hrun
    cases hrun
    exact ⟨rfl, Builder.addChild_locals _ _, rfl, trivial⟩

theorem lax_allocating : allocatingRules.Lax := fun _ _ => .instr

theorem placeholders_allocating : allocatingRules.AllowsPlaceholders where
  lend _ hx := hx
  reserved _ := Allocates.reserved
  resetStack _ := Allocates.instr

/-- The policy of emitters that take steps of allocation. -/
def allocating : Policy :=
  Rules.Lax.policy lax_allocating (fun _ => True) Allocates.withLocals placeholders_allocating.lands
    (Allocates.read fun _ _ _ _ => trivial)

theorem labelled_allocating : allocating.Labelled (fun _ => True) True :=
  .of_lent (Allocates.read fun _ => ⟨trivial, fun _ _ => trivial⟩) fun _ hx => hx

/-- Protected blocks may be opened. -/
theorem permissive_allocating : allocating.Permissive where
  inRegion hx setting s t a sections hrun hs := by
    simp only [inRegion] at hrun
    split at hrun
    · next u hxu =>
        cases hrun
        have hstart : Point.Step ⟨s, sections⟩ ⟨{ s with tryDepth := s.tryDepth + 1 }, sections⟩ :=
          .other rfl rfl rfl
        obtain ⟨hsteps, -⟩ := hx _ _ _ _ sections hxu (hstart.nested hs)
        exact ⟨.head hstart (hsteps.tail (.other rfl rfl rfl)), trivial⟩
    · cases hrun
  addRegion _ _ := Allocates.of_run fun setting s t a hrun => by
    cases hrun
    exact ⟨rfl, rfl, rfl, trivial⟩

theorem allocates_nestedUnit {l : Lambda Node} :
    allocating.Yields own exit (nestedUnit l) fun _ => True :=
  Allocates.of_run fun setting s t i hrun => by
    simp only [nestedUnit] at hrun
    split at hrun
    · cases hrun
      exact ⟨rfl, Builder.addChild_locals _ _, rfl, trivial⟩
    · cases hrun

theorem allocates_tree (e : Expr) : e.toNode.Keeps allocating := by
  induction e using Expr.induct with
  | node kind ty ih =>
      exact labelled_allocating.node trivial (fun e he => ih e (ExprKind.mem_operands he))
        (fun _ _ _ _ => trivial) (fun _ _ _ _ _ => permissive_allocating.protects _ _ _ _)
        fun l _ => Policy.function (Rules.Lax.loose lax_allocating) (fun _ _ h => h) allocates_nestedUnit

/-! ## Functions -/

/-- The body of a function takes steps of allocation. -/
theorem allocates_functionBody (l : Lambda Expr) :
    Allocates (functionBody (l.map Expr.toNode)) fun _ => True := by
  have hrecord : ∀ {own : List Label} {id : LabelId} {info : LabelInfo},
      allocating.Ok own none (recordTarget id info) :=
    Allocates.of_run fun setting s t a hrun => by
      simp only [recordTarget] at hrun
      split at hrun <;> cases hrun <;> exact ⟨rfl, rfl, rfl, trivial⟩
  have hfinish : allocating.Ok [] none finishUnit :=
    Allocates.of_run fun setting s t a hrun => by
      simp only [finishUnit] at hrun
      split at hrun
      · cases hrun
        exact ⟨rfl, rfl, rfl, trivial⟩
      · cases hrun
  exact Policy.functionBody hrecord hfinish (allocates_tree l.body)

theorem locals_of_paramScope {count index : Nat} {params : List Variable} {scope : Scope}
    (h : paramScope count index params = .ok scope) : Scope.locals scope.reverse = [] := by
  refine List.filterMap_eq_nil_iff.mpr fun v hv => ?_
  rw [List.mem_reverse, paramScope_eq h] at hv
  obtain ⟨i, hi, rfl⟩ := List.mem_mapIdx.mp hv
  rfl

/-- A function takes steps of allocation from the start of its unit to the end, and its routine has
the locals that were declared. -/
theorem allocates_unitBody {l : Lambda Expr} {setting : Setting} {session : Session} {t : Emission}
    {R : Routine} (h : (unitBody (l.map Expr.toNode)).run setting
      (unitStart (l.map Expr.toNode) session) = .ok R t) :
    Point.Steps ⟨unitStart (l.map Expr.toNode) session, []⟩ ⟨t, []⟩ ∧
      t.builder.locals = R.locals := by
  simp only [unitBody, withParams] at h
  split at h
  · next scope hscope =>
      simp only [inScope] at h
      split at h
      · next u hu =>
          cases h
          have hopen : Point.Step ⟨unitStart (l.map Expr.toNode) session, []⟩
              ⟨{ unitStart (l.map Expr.toNode) session with scope := scope.reverse ++ [] },
                [.vars [] (scope.reverse ++ [])]⟩ := by
            refine .openVars ?_
            rw [Scope.locals_append, locals_of_paramScope hscope]
            exact List.nil_sublist _
          obtain ⟨hsteps, -⟩ := allocates_functionBody l _ _ _ _ _ hu (hopen.nested rfl)
          obtain ⟨key, hfinish⟩ := functionBody_finish _ _ _ _ _ hu
          exact ⟨.head hopen (hsteps.tail .closeVars), (Builder.finish_eq hfinish).2.1.symm⟩
      · cases h
  · cases h

end Arbor.Emit
