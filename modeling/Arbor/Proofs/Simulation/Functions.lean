/-
  Compiled functions do what their evaluation does.

  The emission of a function completes its routine, so that the simulation of its
  body applies from the first instruction on, with the arguments of a call as the
  variables in scope.
-/
import Arbor.Compile.Basic
import Arbor.Proofs.Simulation.Trees

set_option autoImplicit false

namespace Arbor

/-! ## Finished routines -/

/-- Marked labels are where they were marked. -/
theorem Builder.getElem?_markedLabels {index i pc : Nat} {labels : List (Option Nat)}
    {marked : List Nat} (h : markedLabels index labels = .ok marked)
    (hi : labels[i]? = some (some pc)) : marked[i]? = some pc := by
  induction labels generalizing index i marked with
  | nil => simp at hi
  | cons l labels ih =>
      cases l with
      | none => cases h
      | some first =>
          simp only [markedLabels] at h
          cases hrest : markedLabels (index + 1) labels with
          | error e =>
              rw [hrest] at h
              cases h
          | ok rest =>
              rw [hrest] at h
              cases h
              cases i with
              | zero => simpa using hi
              | succ i =>
                  have hlater : labels[i]? = some (some pc) := by simpa using hi
                  simpa using ih hrest hlater

/-- What a finished routine has of its builder. -/
theorem Builder.finish_eq {b : Builder} {key : RoutineKey} {R : Routine}
    (h : b.finish key = .ok R) :
    R.code = b.code ∧ R.locals = b.locals ∧ R.params = b.params ∧ R.ret = b.ret ∧
      (∀ i pc : Nat, b.labels[i]? = some (some pc) → R.labels[i]? = some pc) ∧
      (b.regions = #[] → R.regions = []) := by
  simp only [finish, bind, Except.bind, pure, Except.pure] at h
  split at h
  · cases h
  · next marked hmarked =>
      split at h
      · cases h
      · next regions hregions =>
          cases h
          refine ⟨rfl, rfl, rfl, rfl, ?_, ?_⟩
          · intro i pc hi
            simpa using getElem?_markedLabels hmarked (by simpa using hi)
          · intro hempty
            rw [hempty] at hregions
            cases hregions
            rfl

theorem Emission.completes_of_finish {s : Emission} {key : RoutineKey} {R : Routine}
    (h : s.builder.finish key = .ok R) : s.Completes R 0 := by
  obtain ⟨hcode, hlocals, -, -, hlabels, -⟩ := Builder.finish_eq h
  refine ⟨fun p _ _ => by rw [hcode], ?_, hlabels, ?_⟩
  · exact Nat.le_of_eq (congrArg Array.size hcode.symm)
  · exact Nat.le_of_eq (congrArg Array.size hlocals.symm)

namespace Emit

/-- A function ends with its finished routine. -/
theorem functionBody_finish (l : Lambda Node) :
    (functionBody l).Yields fun R s => ∃ key, s.builder.finish key = .ok R := by
  have hfinish : finishUnit.Yields fun R s => ∃ key, s.builder.finish key = .ok R := by
    intro setting s t R h
    simp only [finishUnit] at h
    split at h
    · next hbuilder =>
        cases h
        exact ⟨_, hbuilder⟩
    · cases h
  refine Yields.andThen fun _ => ?_
  split
  · exact Yields.andThen fun _ => Yields.andThen fun _ => hfinish
  · exact Yields.andThen fun _ => Yields.andThen fun _ => Yields.andThen fun _ =>
      Yields.andThen fun _ => hfinish

/-! ## Parameters -/

/-- The parameters in scope are arguments numbered one after the other. -/
theorem paramScope_eq {count index : Nat} {params : List Variable} {scope : Scope}
    (h : paramScope count index params = .ok scope) :
    scope = params.mapIdx fun i v => (v.id, VarSlot.arg (index + i), v.ty) := by
  induction params generalizing index scope with
  | nil =>
      cases h
      rfl
  | cons v params ih =>
      simp only [paramScope] at h
      split at h
      · cases hrest : paramScope count (index + 1) params with
        | error e =>
            rw [hrest] at h
            cases h
        | ok rest =>
            rw [hrest] at h
            cases h
            rw [ih hrest]
            simp [List.mapIdx_cons, Nat.add_comm, Nat.add_left_comm]
      · cases h

end Emit

namespace Job

variable {J : Job} {start : Nat} {s t : Emission} {w : World} {m : Memory} {a : Around}

/-! ## Bodies -/

theorem Emits.recordTarget {id : LabelId} {info : LabelInfo}
    (h : J.Emits start (Emit.recordTarget id info) s () t) : t.position = s.position := by
  have hrun := h.run
  simp only [Emit.recordTarget] at hrun
  split at hrun <;> cases hrun <;> rfl

/-- Making labels known emits no code. -/
theorem Emits.defineTargets {targets : List (LabelTarget × Nat)}
    (h : J.Emits start (targets.forM fun (target, depth) => Emit.defineTarget target depth) s () t) :
    t.position = s.position := by
  induction targets generalizing s with
  | nil =>
      obtain ⟨-, rfl⟩ := h.pure
      rfl
  | cons target targets ih =>
      obtain ⟨_, u, hfirst, h⟩ := h.bind
      rw [ih h]
      simp only [Emit.defineTarget] at hfirst
      obtain ⟨known, _, hread, hfirst⟩ := hfirst.bind
      obtain ⟨-, rfl⟩ := hread.read
      split at hfirst
      · obtain ⟨-, rfl⟩ := hfirst.pure
        rfl
      · obtain ⟨label, s₁, hlabel, hfirst⟩ := hfirst.bind
        rw [← hlabel.newLabel.1]
        split at hfirst
        · exact hfirst.recordTarget
        · obtain ⟨slot, s₂, hslot, hfirst⟩ := hfirst.bind
          obtain ⟨slot, s₃, htemp, hslot⟩ := Emits.bind (f := fun i => Pure.pure (some i)) hslot
          obtain ⟨-, rfl⟩ := hslot.pure
          rw [hfirst.recordTarget, htemp.temp.1]

/-- How a call ends, compared with an evaluation. -/
def Ended (J : Job) (a : Around) (p : Nat) (s : State) (out : EStateM.Result Stop World Value) : Prop :=
  match out with
  | .ok v w => ∃ n : Memory, ∃ rest, J.Ends p s (.ok (.returned v) (n.state a rest)) ∧
      w.heap = n.heap.outline ∧ w.statics = n.statics
  | .error (.trap e) w => ∃ u, J.Ends p s (.error e u) ∧ w.heap = u.heap.outline ∧
      w.statics = u.statics ∧ u.frames.tail = a.outer
  | .error .exit _ => False
  | .error .stuck _ => True

/-- A call ends as what follows the code of its first part. -/
theorem Follows.ended {α : Type} {x : Eval α} {f : α → Eval Value} {q : Nat} {stack : List Value}
    {mid : α → Memory → List Value → Prop}
    (hx : J.Follows ⟨a, [], fun _ => False⟩ s q m stack (x.run w) mid)
    (hf : ∀ v w n rest, mid v n rest → J.Holds s.scope w n →
      J.Ended a q (n.state a rest) ((f v).run w)) :
    J.Ended a s.position (m.state a stack) ((x >>= f).run w) := by
  change J.Follows _ s q m stack (x w) mid at hx
  change J.Ended a s.position _ (EStateM.bind x f w)
  unfold EStateM.bind
  revert hx
  cases x w with
  | ok v w =>
      rintro ⟨n, rest, hleads, hholds, -, -, hmid⟩
      have hended := hf v w n rest hmid hholds
      simp only
      revert hended
      change J.Ended a q _ (f v w) → _
      cases f v w with
      | ok v w =>
          rintro ⟨k, rest, hends, hrest⟩
          exact ⟨k, rest, hleads.ends hends, hrest⟩
      | error e w =>
          cases e with
          | exit => exact id
          | trap e =>
              rintro ⟨u, hends, hrest⟩
              exact ⟨u, hleads.ends hends, hrest⟩
          | stuck => exact id
  | error e w =>
      intro hx
      cases e with
      | exit =>
          obtain ⟨_, _, _, hfalse, -⟩ := hx
          exact hfalse
      | trap e => exact hx
      | stuck => trivial

/-- The code of a function does what its evaluation does. -/
theorem Emits.functionBody {l : Lambda Node} {d : Lambda Meaning} {R : Routine}
    (h : J.Emits start (Emit.functionBody l) s R t) (hbody : J.Implements l.body d.body)
    (hret : d.ret = l.ret) (hroutine : J.routine.ret = l.ret) (hholds : J.Holds s.scope w m) :
    J.Ended a s.position (m.state a []) ((Eval.function J.setting d).run w) := by
  rw [Emit.functionBody, Emits.seq_iff] at h
  obtain ⟨s₀, htargets, h⟩ := h
  have hposition : s₀.position = s.position := htargets.defineTargets
  have hholds : J.Holds s₀.scope w m := hholds.later htargets.retains
  rw [← hposition]
  simp only [Eval.function, hret]
  cases hvoid : l.ret.isVoid with
  | true =>
      simp only [hvoid, if_true, ↓Emits.seq_iff, Emits.bind_iff] at h ⊢
      obtain ⟨e, s₁, hguarded, s₂, hreturn, -⟩ := h
      refine (hbody.guarded (c := ⟨a, [], fun _ => False⟩) hguarded hholds (Nat.zero_le _)).ended ?_
      intro result w n rest hleft hholds
      cases result with
      | nothing =>
          refine ⟨n, rest, ?_, hholds.heap, hholds.statics⟩
          exact .ret hreturn.instr.1 (.retVoid _ _ _ (by rw [hroutine]; exact hvoid))
      | value v => trivial
  | false =>
      simp only [hvoid, Bool.false_eq_true, if_false, ↓Emits.seq_iff, Emits.bind_iff] at h ⊢
      obtain ⟨_, s₁, hcheck, e, s₂, hguarded, s₃, hwrap, s₄, hreturn, -⟩ := h
      obtain rfl := hcheck.checkBranch
      refine (hbody.guardedValue (c := ⟨a, [], fun _ => False⟩) hguarded hholds
        (Nat.zero_le _)).ended ?_
      rintro v w n rest rfl hholds
      rw [hbody.ty]
      have hreturns : ∀ v, J.Ends s₃.position (n.state a [v]) (.ok (.returned v) (n.state a [])) :=
        fun v => .ret hreturn.instr.1 (.ret _ _ _ _ (by rw [hroutine]; exact hvoid))
      refine ⟨n, [], ?_, hholds.heap, hholds.statics⟩
      rcases hwrap.wrapIf with ⟨hcondition, hwrap⟩ | ⟨hcondition, rfl⟩
      · rw [hcondition]
        exact (hwrap.leads (.optWrap _ _ _ v)).ends (hreturns _)
      · rw [hcondition]
        exact hreturns v

end Job

/-! ## Calls -/

/-- A list and its zipped items, one by one. -/
theorem binds_bound {m : Memory} {index : Nat} {params : List Variable} {args : List Value}
    (hlength : args.length = params.length)
    (hargs : ∀ i v, args[i]? = some v → m.args[index + i]? = some v) :
    List.Forall₂ m.Binds ((params.zip args).map fun (p, v) => (p.id, p.ty, v))
      (params.mapIdx fun i v => (v.id, VarSlot.arg (index + i), v.ty)) := by
  induction params generalizing index args with
  | nil => exact .nil
  | cons p params ih =>
      cases args with
      | nil => cases hlength
      | cons v args =>
          simp only [List.zip_cons_cons, List.map_cons, List.mapIdx_cons]
          refine .cons ⟨rfl, rfl, hargs 0 v rfl⟩ ?_
          have hrest := @ih (index + 1) args (by simpa using hlength) ?_
          · simpa [Nat.add_comm, Nat.add_left_comm] using hrest
          · intro i v hv
            have := hargs (i + 1) v (by simpa using hv)
            rwa [Nat.add_assoc, Nat.add_comm 1 i]

theorem slots_params (index : Nat) (params : List Variable) :
    Scope.slots (params.mapIdx fun i v => (v.id, VarSlot.arg (index + i), v.ty)) =
      (List.range' index params.length).map VarSlot.arg := by
  refine List.ext_getElem? fun i => ?_
  simp only [Scope.slots, List.getElem?_mapIdx, List.getElem?_map]
  by_cases hi : i < params.length <;> simp [hi]

/-- The run of the body of a compiled function, with the parameters in scope. -/
theorem run_of_compiled {helpers : HelperCache} {setting : Setting} {l : Lambda Expr}
    {c : CompiledUnit} (hcompile : (compileWith helpers setting l).result = .ok c) :
    ∃ scope t, Emit.paramScope l.params.length l.hidden.count l.params = .ok scope ∧
      (Emit.functionBody (l.map Expr.toNode)).run setting
        { Emit.unitStart (l.map Expr.toNode) ⟨helpers, #[]⟩ with scope := scope.reverse ++ [] } =
          .ok c.routine t := by
  unfold compileWith at hcompile
  simp only at hcompile
  split at hcompile
  · next R t hrun =>
      cases hcompile
      simp only [Emit.unitBody, Emit.withParams] at hrun
      split at hrun
      · next scope hscope =>
          simp only [Emit.inScope] at hrun
          split at hrun
          · next R u hbody =>
              cases hrun
              exact ⟨scope, u, hscope, hbody⟩
          · cases hrun
      · simp [Emit.fail] at hrun
  · cases hcompile

/-- The body of a compiled function was emitted into its routine. -/
theorem emits_of_compiled {helpers : HelperCache} {setting : Setting} {l : Lambda Expr}
    {c : CompiledUnit} (hcompile : (compileWith helpers setting l).result = .ok c)
    (hlimits : c.routine.WithinLimits) (hflat : c.routine.regions = []) :
    ∃ s t, s.position = 0 ∧
      s.scope = (l.params.mapIdx fun i v => (v.id, VarSlot.arg (l.hidden.count + i), v.ty)).reverse ∧
      Job.Emits ⟨setting, c.routine, hlimits, hflat⟩ 0
        (Emit.functionBody (l.map Expr.toNode)) s c.routine t ∧
      c.routine.ret = l.ret ∧ c.routine.params.length = l.hidden.count + l.params.length := by
  obtain ⟨scope, t, hscope, hbody⟩ := run_of_compiled hcompile
  obtain ⟨key, hfinish⟩ := Emit.functionBody_finish _ _ _ _ _ hbody
  obtain ⟨-, -, hparams, hret, -, -⟩ := Builder.finish_eq hfinish
  have hheader := ((Emit.functionBody _).grows hbody).header
  simp only [Emit.unitStart, Emission.start, Builder.empty, Prod.mk.injEq] at hheader
  have hslots : Scope.slots (scope.reverse ++ []) =
      ((List.range' l.hidden.count l.params.length).map VarSlot.arg).reverse := by
    rw [← slots_params, Emit.paramScope_eq hscope]
    simp [Scope.slots]
  refine ⟨_, t, rfl, ?_, ⟨hbody, ⟨SlotPool.tidy_empty, ?_, ?_⟩,
    Emission.completes_of_finish hfinish, Nat.zero_le _⟩, ?_, ?_⟩
  · rw [Emit.paramScope_eq hscope]
    exact List.append_nil _
  · change (Scope.slots (scope.reverse ++ [])).Nodup
    rw [hslots]
    exact List.pairwise_reverse.mpr (List.pairwise_map.mpr
      ((List.nodup_range' (s := l.hidden.count)).imp fun hne heq => hne (by cases heq; rfl)))
  · intro slot hslot
    change _ ∈ Scope.slots (scope.reverse ++ []) at hslot
    rw [hslots, List.mem_reverse, List.mem_map] at hslot
    obtain ⟨_, -, hslot⟩ := hslot
    cases hslot
  · rw [hret, hheader.2.2]
    rfl
  · rw [hparams, hheader.2.1]
    simp [Lambda.map]

/-- A compiled function with a direct body has no protected regions, and its locals can be set up. -/
theorem spared_of_compiled {helpers : HelperCache} {setting : Setting} {l : Lambda Expr}
    {c : CompiledUnit} (hcompile : (compileWith helpers setting l).result = .ok c)
    (hdirect : l.body.isDirect = true) :
    c.routine.regions = [] ∧ ∃ zeros, c.routine.locals.mapM setting.registry.zero = .ok zeros := by
  obtain ⟨scope, t, -, hbody⟩ := run_of_compiled hcompile
  obtain ⟨key, hfinish⟩ := Emit.functionBody_finish _ _ _ _ _ hbody
  obtain ⟨-, hlocals, -, -, -, hregions⟩ := Builder.finish_eq hfinish
  obtain ⟨hspared, hdeclared⟩ := Emit.frugal_functionBody hdirect _ _ _ _ hbody
  refine ⟨hregions hspared, setting.registry.zeros_of_not_struct ?_⟩
  intro ty hty
  rw [hlocals] at hty
  refine (hdeclared ty hty).resolve_left fun hold => ?_
  simp [Emit.unitStart, Emission.start, Builder.empty] at hold

/-- At the start of a call the parameters hold the arguments. -/
theorem Job.holds_bound {J : Job} {r : Registry} {l : Lambda Expr} {zeros : Array Value}
    (hzeros : J.routine.locals.mapM r.zero = .ok zeros) {captured args : List Value}
    (hcaptured : captured.length = l.hidden.count) (hargs : args.length = l.params.length)
    (h : Heap) (st : Statics) :
    J.Holds (l.params.mapIdx fun i v => (v.id, VarSlot.arg (l.hidden.count + i), v.ty)).reverse
      ⟨h.outline, st, l.bound args⟩ ⟨h, st, (captured ++ args).toArray, zeros⟩ := by
  refine ⟨rfl, rfl, Run.size_of_zeros hzeros, List.rel_reverse (binds_bound hargs ?_)⟩
  intro i v hv
  rw [← hcaptured]
  simpa [List.getElem?_append_right] using hv

/-- The body of a compiled function that returns a value was emitted with a landing, and can be
entered with the arguments in the parameters. -/
theorem body_of_compiled {helpers : HelperCache} {setting : Setting} {l : Lambda Expr}
    {c : CompiledUnit} (hcompile : (compileWith helpers setting l).result = .ok c)
    (hdirect : l.body.isDirect = true) (hlimits : c.routine.WithinLimits)
    (hret : l.ret.isVoid = false) {captured args : List Value}
    (hcaptured : captured.length = l.hidden.count) (hargs : args.length = l.params.length)
    (h : Heap) (st : Statics) :
    ∃ (J : Job) (s t : Emission) (e : Emitted) (m : Memory), J.setting = setting ∧
      J.routine = c.routine ∧ J.Emits 0 (l.body.toNode.guarded .value) s e t ∧
      J.Holds s.scope ⟨h.outline, st, l.bound args⟩ m ∧ m.args = (captured ++ args).toArray := by
  obtain ⟨hflat, zeros, hzeros⟩ := spared_of_compiled hcompile hdirect
  obtain ⟨s, t, -, hscope, hemits, -, -⟩ := emits_of_compiled hcompile hlimits hflat
  rw [Emit.functionBody, Job.Emits.seq_iff] at hemits
  obtain ⟨s₀, htargets, hemits⟩ := hemits
  have hvoid : (l.map Expr.toNode).ret.isVoid = false := hret
  simp only [hvoid, Bool.false_eq_true, if_false, ↓Job.Emits.seq_iff, Job.Emits.bind_iff] at hemits
  obtain ⟨_, s₁, hcheck, e, s₂, hguarded, -⟩ := hemits
  obtain rfl := hcheck.checkBranch
  refine ⟨_, s₁, s₂, e, ⟨h, st, (captured ++ args).toArray, zeros⟩, rfl, rfl, hguarded, ?_, rfl⟩
  rw [htargets.retains.scope, hscope]
  exact Job.holds_bound hzeros hcaptured hargs h st

namespace Machine

/-- What a call from outside shows of an evaluation that ended. -/
def Shows (r : Registry) (out : EStateM.Result Stop World Value)
    (seen : Except RuntimeError Value × State) : Prop :=
  match out with
  | .ok v w => seen.1 = .ok v ∧ w.heap = seen.2.heap.outline ∧ w.statics = seen.2.statics
  | .error (.trap e) w => seen.1 = .error (runtimeError r seen.2 e) ∧
      w.heap = seen.2.heap.outline ∧ w.statics = seen.2.statics
  | .error .exit _ | .error .stuck _ => False

/-- How a call ends, by how the execution of its routine ends. -/
def Run.callEnding (routine : Routine) : Run.Ending → EStateM.Result Trap State Value
  | .ok (.returned v) s => .ok v (Run.popFrame s)
  | .ok .finallyDone s | .ok (.filterDone _) s =>
      .error (.invalid (.strayTerminator routine.name)) (Run.popFrame s)
  | .error e s => .error e (Run.popFrame s)

/-- A call executes its routine in a frame of its own. -/
theorem Run.call_eq_callEnding {r : Registry} {routine : Routine} {args : List Value} {s : State}
    {zeros : Array Value} (hdepth : s.frames.length < Run.maxCallDepth)
    (hcount : args.length = routine.params.length) (hzeros : routine.locals.mapM r.zero = .ok zeros)
    (fuel : Nat) :
    Run.call r fuel (.routine routine) args s = Run.callEnding routine
      (Run.exec r fuel routine 0 ⟨0, routine.code.size⟩
        (Memory.state ⟨s.heap, s.statics, args.toArray, zeros⟩ ⟨[], s.frames⟩ [])) := by
  simp only [Run.call, Run.caller, Run.callRoutine, Nat.not_le.mpr hdepth, if_false, hcount, ne_eq,
    not_true_eq_false, hzeros]
  rfl

/-- A compiled function without protected regions does what its evaluation does, unless that is
stuck. -/
theorem shows_of_compiled {helpers : HelperCache} {setting : Setting} {l : Lambda Expr}
    {c : CompiledUnit} (hcompile : (compileWith helpers setting l).result = .ok c)
    (hdirect : l.body.isDirect = true) (hlimits : c.routine.WithinLimits)
    {captured args : List Value} (hcaptured : captured.length = l.hidden.count)
    (hargs : args.length = l.params.length) {s : State}
    (hdepth : s.frames.length < Run.maxCallDepth)
    (hstuck : ∀ w, l.evaluate setting args s.heap s.statics ≠ .error .stuck w) :
    ∃ enough, ∀ budget, enough ≤ budget →
      Shows setting.registry (l.evaluate setting args s.heap s.statics)
        (invokeWithin budget setting.registry ⟨c.routine, captured⟩ args s) := by
  obtain ⟨hflat, zeros, hzeros⟩ := spared_of_compiled hcompile hdirect
  obtain ⟨start, final, hposition, hscope, hemits, hret, hparams⟩ :=
    emits_of_compiled hcompile hlimits hflat
  have hholds : Job.Holds ⟨setting, c.routine, hlimits, hflat⟩ start.scope
      ⟨s.heap.outline, s.statics, l.bound args⟩
      ⟨s.heap, s.statics, (captured ++ args).toArray, zeros⟩ := by
    rw [hscope]
    exact Job.holds_bound hzeros hcaptured hargs _ _
  have hended := hemits.functionBody (d := l.map (Expr.toMeaning setting)) (a := ⟨[], s.frames⟩)
    (Job.implements_tree l.body) rfl hret hholds
  rw [hposition] at hended
  have hcount : (captured ++ args).length = c.routine.params.length := by
    rw [hparams, List.length_append, hcaptured, hargs]
  simp only [invokeWithin, observe, Run.call_eq_callEnding hdepth hcount hzeros]
  change ∃ enough, ∀ budget, enough ≤ budget → Shows _ ((Eval.function setting _).run _) _
  revert hended hstuck
  unfold Lambda.evaluate
  cases (Eval.function setting (l.map (Expr.toMeaning setting))).run
    ⟨s.heap.outline, s.statics, l.bound args⟩ with
  | ok v w =>
      rintro - ⟨n, rest, ⟨enough, hends⟩, hheap, hstatics⟩
      refine ⟨enough, fun budget hbudget => ?_⟩
      rw [hends budget hbudget]
      exact ⟨rfl, hheap, hstatics⟩
  | error e w =>
      intro hstuck hended
      cases e with
      | exit => exact hended.elim
      | trap e =>
          obtain ⟨u, ⟨enough, hends⟩, hheap, hstatics, -⟩ := hended
          refine ⟨enough, fun budget hbudget => ?_⟩
          rw [hends budget hbudget]
          exact ⟨rfl, hheap, hstatics⟩
      | stuck => exact (hstuck w rfl).elim

end Machine

end Arbor
