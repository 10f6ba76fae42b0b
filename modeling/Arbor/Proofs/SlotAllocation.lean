/-
  Slots of variables and temporaries.

  Wherever an emission arrives, by temporaries of any type, nested sections and
  bound variables in any order, the slots in use are apart as long as slots can be
  numbered; what is acquired next has the type that was asked for, and the end of
  a section leaves the slots that were live when it began.  The compilation of a
  function arrives nowhere else, so that in a routine whose slots can be numbered
  whatever is in use at the same time has slots of its own.
-/
import Arbor.Proofs.Emission.Allocating

set_option autoImplicit false

namespace Arbor

open Point

/-- Wherever an emission arrives with no more locals than slots can be numbered, every declared slot
is live or free and not both, none is held twice, free slots are listed under their declared types, and
variables live in slots of their own.  A temporary and a bound variable get a slot that was not live,
of the type that was asked for.  The end of a section, in success or error, leaves the slots that were
live when it began. -/
theorem reachable_slots_apart {s : Emission} {sections : List Section}
    (h : Reachable ⟨s, sections⟩) (hlimit : s.builder.locals.size ≤ Builder.slotLimit) :
    s.pool.Apart s.builder.locals ∧ s.scope.locals.Sublist s.pool.live ∧
      (∀ {setting : Setting} {ty : Ty} {slot : Nat} {t : Emission},
        (Emit.temp ty).run setting s = .ok slot t → t.builder.locals.size ≤ Builder.slotLimit →
        slot ∉ s.pool.live ∧ t.pool.live = slot :: s.pool.live ∧
          t.builder.locals[slot]? = some ty) ∧
      (∀ {setting : Setting} {v : Variable} {bound : VarId × VarSlot × Ty} {t : Emission},
        (Emit.bindLocal v).run setting s = .ok bound t →
        t.builder.locals.size ≤ Builder.slotLimit →
        ∃ slot, bound = (v.id, .local slot, v.ty) ∧ slot ∉ s.pool.live ∧
          t.pool.live = slot :: s.pool.live ∧ t.builder.locals[slot]? = some v.ty ∧
          Reachable ⟨{ t with scope := bound :: s.scope },
            .vars s.scope (bound :: s.scope) :: sections⟩) ∧
      (∀ {live : List Nat} {rest : List Section}, sections = .temps live :: rest →
        (s.releaseTo live.length).pool.live = live ∧ Reachable ⟨s.releaseTo live.length, rest⟩) ∧
      ∀ {α : Type} {x : Emit α} {setting : Setting},
        Steps ⟨s, .temps s.pool.live :: sections⟩
          ⟨(x.run setting s).state, .temps s.pool.live :: sections⟩ →
        ((Emit.withTemps x).run setting s).state.pool.live = s.pool.live ∧
          Reachable ⟨((Emit.withTemps x).run setting s).state, sections⟩ := by
  have htidy : s.Tidy := h.tidy hlimit
  have hnested : Section.Nested sections s.pool.live s.scope := h.nested
  refine ⟨htidy.apart, hnested.sublist, ?_, ?_, ?_, ?_⟩
  · intro setting ty slot t htemp hroom
    exact Emit.temp_apart htemp htidy hroom
  · intro setting v bound t hbind hroom
    obtain ⟨slot, u, htemp, rfl, hpool, hlocals, hscope⟩ := Emit.bindLocal_steps hbind
    obtain ⟨hfresh, hlive, htyped⟩ := Emit.temp_apart htemp htidy (hlocals ▸ hroom)
    rw [← hpool] at hlive
    rw [← hlocals] at htyped
    have hbefore : t.scope = s.scope := hscope.trans ((Emit.temp _).grows htemp).scope
    refine ⟨slot, rfl, hfresh, hlive, htyped, ?_⟩
    have hsub : (Scope.locals ([(v.id, .local slot, v.ty)].reverse ++ t.scope)).Sublist t.pool.live := by
      rw [hlive, hbefore]
      exact hnested.sublist.cons_cons slot
    rw [← hbefore]
    exact h.steps (.tail (.tail (.single (.temp htemp)) (.other hpool hlocals hscope)) (.openVars hsub))
  · rintro live rest rfl
    exact ⟨SlotPool.releaseTo_live hnested.1, h.steps (.single .closeTemps)⟩
  · intro α x setting hx
    obtain ⟨hlive, hsteps⟩ := Emit.withTemps_steps h.nested hx
    exact ⟨hlive, h.steps hsteps⟩

/-- An emission that acquires an integer, acquires and frees a truth value in a section, and acquires
a truth value again. -/
def reusingEmission : Emission :=
  let acquire (s : Emission) (ty : Ty) : Emission := ((Emit.temp ty).run ⟨.builtin, .default⟩ s).state
  let s := acquire (.start default (.empty "reuse" [] .void) .none) .int
  acquire ((acquire s .bool).releaseTo s.pool.live.length) .bool

/-- The second truth value is in the slot of the first, and apart from the integer. -/
theorem reused_slot_apart :
    Reachable ⟨reusingEmission, []⟩ ∧ reusingEmission.builder.locals.size ≤ Builder.slotLimit ∧
      reusingEmission.pool.live = [1, 0] ∧
      reusingEmission.pool.Apart reusingEmission.builder.locals := by
  have hreach : Reachable ⟨reusingEmission, []⟩ := by
    refine ⟨⟨.start default (.empty "reuse" [] .void) .none, []⟩, ⟨rfl, rfl, rfl, rfl⟩, ?_⟩
    have hstep (s : Emission) (ty : Ty) (sections : List Section) : Step ⟨s, sections⟩
        ⟨((Emit.temp ty).run ⟨.builtin, .default⟩ s).state, sections⟩ := by
      have hrun : (Emit.temp ty).run ⟨.builtin, .default⟩ s = .ok _ _ := rfl
      exact .temp hrun
    exact .tail (.tail (.tail (.tail (.single (hstep _ .int [])) .openTemps) (hstep _ .bool _))
      .closeTemps) (hstep _ .bool [])
  have hlimit : reusingEmission.builder.locals.size ≤ Builder.slotLimit := by decide
  exact ⟨hreach, hlimit, rfl, (reachable_slots_apart hreach hlimit).1⟩

/-- The functions of a compilation take steps of allocation only, from nothing allocated to the locals
of their routines, and so does every tree in them.  If the slots of a routine can be numbered, then at
every point on the way the slots in use are locals of the routine and apart from each other, and every
variable in scope has one of them to itself. -/
theorem compiled_slots_apart {helpers : HelperCache} {setting : Setting} {f : Lambda Expr}
    {c : CompiledUnit} (hcompile : (compileWith helpers setting f).result = .ok c) :
    (∀ R ∈ c.routine :: c.units, R.locals.size ≤ Builder.slotLimit →
      ∃ l ∈ f :: f.body.functions, ∃ setting session finish,
        (Emit.unitBody (l.map Expr.toNode)).run setting
          (Emit.unitStart (l.map Expr.toNode) session) = .ok R finish ∧
        finish.builder.locals = R.locals ∧
        Steps ⟨Emit.unitStart (l.map Expr.toNode) session, []⟩ ⟨finish, []⟩ ∧
        ∀ p : Point, Steps ⟨Emit.unitStart (l.map Expr.toNode) session, []⟩ p → Steps p ⟨finish, []⟩ →
          p.state.pool.Apart p.state.builder.locals ∧
            (∀ slot ∈ p.state.pool.live, slot < R.locals.size) ∧
            p.state.scope.locals.Sublist p.state.pool.live) ∧
      ∀ (e : Expr) (exit : Option Label) (shape : Shape) (extend : Bool) (setting : Setting)
        (s t : Emission) (a : Emitted) (sections : List Section),
        (e.toNode.emit exit shape extend).run setting s = .ok a t → Nested ⟨s, sections⟩ →
        Steps ⟨s, sections⟩ ⟨t, sections⟩ := by
  refine ⟨fun R hR hlimit => ?_, fun e exit shape extend setting s t a sections hrun hs => ?_⟩
  · obtain ⟨l, hl, setting, session, finish, hrun⟩ := compilesTo_of_compiled hcompile R hR
    obtain ⟨hsteps, hlocals⟩ := Emit.allocates_unitBody hrun
    refine ⟨l, hl, setting, session, finish, hrun, hlocals, hsteps, fun p hbefore hafter => ?_⟩
    have hreach : p.Reachable :=
      Reachable.steps ⟨_, ⟨rfl, rfl, rfl, rfl⟩, .refl⟩ hbefore
    have hsize : p.state.builder.locals.size ≤ R.locals.size := hlocals ▸ Steps.locals_le hafter
    have hapart := (hreach.tidy (Nat.le_trans hsize hlimit)).apart
    refine ⟨hapart, fun slot hslot => ?_, Section.Nested.sublist hreach.nested⟩
    exact Nat.lt_of_lt_of_le ((hapart.declared slot).mpr (.inl hslot)) hsize
  · exact ((Emit.allocates_tree e).emit [] exit shape extend setting s t a sections hrun hs).1

/-- Two variables, and a sum of them. -/
def twoVariables : Lambda Expr :=
  let int (n : Int) : Expr := .node (.constant (.num (.i32 n))) .int
  let var (id : Nat) : Expr := .node (.parameter id) .int
  let set (id : Nat) (n : Int) : Expr := .node (.assign .assign (var id) (int n) false false) .int
  ⟨"sum", [], .int, .node (.block [⟨0, "x", .int⟩, ⟨1, "y", .int⟩]
    [set 0 1, set 1 2, .node (.binary .add (var 0) (var 1) false none) .int]) .int, .none⟩

/-- The slots of that function are apart throughout. -/
theorem compiled_twoVariables_apart :
    ∃ c, (compileWith .empty ⟨.builtin, .default⟩ twoVariables).result = .ok c ∧
      2 ≤ c.routine.locals.size ∧ c.routine.locals.size ≤ Builder.slotLimit ∧
      ∃ start finish : Emission,
        finish.builder.locals = c.routine.locals ∧ Steps ⟨start, []⟩ ⟨finish, []⟩ ∧
        finish.pool.Apart finish.builder.locals := by
  have hsize : ((compileWith .empty ⟨.builtin, .default⟩ twoVariables).result.toOption.map
      fun c => decide (2 ≤ c.routine.locals.size ∧ c.routine.locals.size ≤ Builder.slotLimit)) =
        some true := by
    decide +kernel
  cases hc : (compileWith .empty ⟨.builtin, .default⟩ twoVariables).result with
  | error e =>
      rw [hc] at hsize
      cases hsize
  | ok c =>
      rw [hc] at hsize
      obtain ⟨htwo, hlimit⟩ := of_decide_eq_true (Option.some.inj hsize)
      obtain ⟨l, -, setting, session, finish, -, hlocals, hsteps, hapart⟩ :=
        (compiled_slots_apart hc).1 c.routine List.mem_cons_self hlimit
      exact ⟨c, rfl, htwo, hlimit, _, finish, hlocals, hsteps, (hapart _ hsteps .refl).1⟩

end Arbor
