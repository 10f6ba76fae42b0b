/-
  Compiled scalar functions return what direct evaluation returns.

  The evaluation of a scalar function is never stuck, and its tree is direct, so
  that its routine can always be called; the simulation then says that the call
  shows the result of the evaluation.  Slots are numbered in 16 bits and stack
  depths recorded in 32, so the routine has to be within these limits.
-/
import Arbor.Proofs.Semantics.Scalar
import Arbor.Proofs.Simulation.Functions

set_option autoImplicit false

namespace Arbor

theorem Ty.isStruct_of_isBasic {ty : Ty} (h : ty.isBasic = true) : ty.isStruct = false := by
  cases ty <;> first | rfl | cases h

theorem Expr.isStruct_of_isDirect {e : Expr} (h : e.isDirect = true) : e.ty.isStruct = false := by
  cases e with
  | node k ty => exact ((isDirect_node k ty).mp h).2.1

theorem Expr.isDirect_var {v : Variable} (h : v.ty.isBasic = true) : (Tree.var v).isDirect = true :=
  (isDirect_node _ _).mpr ⟨rfl, Ty.isStruct_of_isBasic h, fun _ h => nomatch h⟩

/-- A scalar tree is direct. -/
theorem Expr.Scalar.isDirect {ctx : Context} {e : Expr} (h : Expr.Scalar ctx e) :
    e.isDirect = true := by
  induction h with
  | constant hty =>
      exact (isDirect_node _ _).mpr ⟨rfl, Ty.isStruct_of_isBasic hty, fun _ h => nomatch h⟩
  | parameter hv hty => exact isDirect_var hty
  | default hty =>
      refine (isDirect_node _ _).mpr ⟨rfl, ?_, fun _ h => nomatch h⟩
      exact hty.elim Ty.isStruct_of_isBasic fun h => by rw [h]; rfl
  | unary hoperand hty ih =>
      exact (isDirect_node _ _).mpr ⟨rfl, Ty.isStruct_of_isBasic (Tree.unary_isBasic hty),
        List.forall_mem_singleton.mpr ih⟩
  | binary hleft hright hl hr hty ihl ihr =>
      exact (isDirect_node _ _).mpr ⟨rfl, Ty.isStruct_of_isBasic (isBasic_binary hl hty),
        List.forall_mem_cons.mpr ⟨ihl, List.forall_mem_singleton.mpr ihr⟩⟩
  | @logical ctx op left right hleft hright hl hr ihl ihr =>
      exact (isDirect_node _ _).mpr ⟨rfl, Ty.isStruct_of_isBasic (Tree.logical_isBasic op left right),
        List.forall_mem_cons.mpr ⟨ihl, List.forall_mem_singleton.mpr ihr⟩⟩
  | coalesce hleft hright hl hnullable hr ihl ihr =>
      exact (isDirect_node _ _).mpr
        ⟨rfl, Ty.isStruct_of_isBasic (Ty.isBasic_of_underlying_eq hl hr),
          List.forall_mem_cons.mpr ⟨ihl, List.forall_mem_singleton.mpr ihr⟩⟩
  | conditional htest htrue hfalse ht hty iht ihtrue ihfalse =>
      refine (isDirect_node _ _).mpr ⟨rfl, ?_, List.forall_mem_cons.mpr ⟨iht,
        List.forall_mem_cons.mpr ⟨ihtrue, List.forall_mem_singleton.mpr ihfalse⟩⟩⟩
      rcases hty with rfl | ⟨rfl, hty, -⟩
      · rfl
      · exact Ty.isStruct_of_isBasic hty
  | convert hoperand hsource htarget hty ih =>
      exact (isDirect_node _ _).mpr
        ⟨rfl, Ty.isStruct_of_isBasic hty, List.forall_mem_singleton.mpr ih⟩
  | hasValue hoperand hty ih =>
      exact (isDirect_node _ _).mpr ⟨rfl, rfl, List.forall_mem_singleton.mpr ih⟩
  | value hoperand hty ih =>
      exact (isDirect_node _ _).mpr ⟨rfl, Ty.isStruct_of_isBasic (Ty.isBasic_underlying hty),
        List.forall_mem_singleton.mpr ih⟩
  | @block ctx vars body hvars hbody ih =>
      refine (isDirect_node _ _).mpr ⟨?_, ?_, ih⟩
      · exact List.all_eq_true.mpr fun v hv => by simp [Ty.isStruct_of_isBasic (hvars v hv)]
      · cases hlast : body.getLast? with
        | none => rfl
        | some last =>
            exact isStruct_of_isDirect (ih last (List.mem_of_getLast? hlast))
  | assign hv hty hop hvalue hvalueTy ih =>
      exact (isDirect_node _ _).mpr ⟨rfl, Ty.isStruct_of_isBasic hty,
        List.forall_mem_cons.mpr ⟨isDirect_var hty, List.forall_mem_singleton.mpr ih⟩⟩
  | step hv hty hop hnum =>
      exact (isDirect_node _ _).mpr ⟨rfl, Ty.isStruct_of_isBasic hty,
        List.forall_mem_singleton.mpr (isDirect_var hty)⟩

/-- The evaluation of a scalar function is not stuck. -/
theorem Lambda.Scalar.evaluate_ne_stuck {setting : Setting} {l : Lambda Expr} (hl : l.Scalar)
    {args : List Value} (hargs : args.length = l.params.length) (h : Heap) (st : Statics) (w : World) :
    l.evaluate setting args h st ≠ .error .stuck w := by
  have hbody := hl.body.settles setting
  have hsafe : Eval.Safe (Context.add [] l.params)
      (Eval.function setting (l.map (Expr.toMeaning setting))) fun _ => True := by
    unfold Eval.function
    have hret' : (l.map (Expr.toMeaning setting)).ret = l.ret := rfl
    rcases hl.ret with hret | ⟨hret, hty⟩
    · simp only [hret', hret, Ty.isVoid, if_true]
      have hform : ∀ ty, Shape.nothing.form ty = .nothing := fun ty => by simp [Shape.form]
      have hguarded : Eval.Safe (Context.add [] l.params)
          (Eval.guarded setting (l.body.toMeaning setting) .nothing) fun result =>
            result = .nothing := by
        refine .orLand (hbody.discards _) ?_
        rw [hform]
        exact .pure rfl
      refine .bind hguarded ?_
      rintro _ rfl
      exact .pure trivial
    · simp only [hret', Ty.isVoid_of_isBasic hret, Bool.false_eq_true, if_false]
      refine .bind (hbody.guardedValue ?_) fun v _ => .pure trivial
      rw [Expr.toMeaning_ty]
      exact Ty.isVoid_of_isBasic hty
  have hvars : World.Has ⟨h.outline, st, l.bound args⟩ (Context.add [] l.params) := by
    simp only [World.Has, Lambda.bound, Context.add, List.map_reverse, List.map_map,
      List.append_nil]
    congr 1
    have hzip : l.params = (l.params.zip args).map Prod.fst :=
      (List.map_fst_zip (Nat.le_of_eq hargs.symm)).symm
    conv_rhs => rw [hzip, List.map_map]
    rfl
  intro hstuck
  have := hsafe _ hvars
  rw [show (Eval.function setting (l.map (Expr.toMeaning setting))).run _ = _ from hstuck] at this
  exact this

/-- Binding hidden arguments captures a table for each of them. -/
theorem CompiledUnit.bindHidden_eq {c : CompiledUnit} {r : Registry} {hidden : HiddenParams}
    {constants : List Value} {closure : List Ty} {h h' : Heap} {callable : Callable}
    (hbind : c.bindHidden r hidden constants closure h = .ok (callable, h')) :
    callable.routine = c.routine ∧ callable.captured.length = hidden.count := by
  obtain ⟨hasConstants, hasClosure⟩ := hidden
  unfold bindHidden at hbind
  cases hasConstants <;> cases hasClosure <;> simp only [Bool.false_eq_true, if_false, if_true] at hbind
  · cases hbind
    exact ⟨rfl, rfl⟩
  · split at hbind
    · cases hbind
    · cases hbind
      exact ⟨rfl, rfl⟩
  · cases hbind
    exact ⟨rfl, rfl⟩
  · split at hbind
    · cases hbind
    · cases hbind
      exact ⟨rfl, rfl⟩

namespace Machine

/-- A compiled scalar function within the limits returns, from every state and on every list of
arguments, what the evaluation of the function returns, or ends in the trap that it ends in. -/
theorem invoke_scalar {setting : Setting} {l : Lambda Expr} (hl : l.Scalar) {c : CompiledUnit}
    (hcompile : (compile setting l).result = .ok c) (hlimits : c.routine.WithinLimits)
    {constants : List Value} {closure : List Ty} {h h' : Heap} {callable : Callable}
    (hbind : c.bindHidden setting.registry l.hidden constants closure h = .ok (callable, h'))
    {args : List Value} (hargs : args.length = l.params.length) {s : State}
    (hdepth : s.frames.length < Run.maxCallDepth) :
    ∃ enough, ∀ budget, enough ≤ budget →
      Shows setting.registry (l.evaluate setting args s.heap s.statics)
        (invokeWithin budget setting.registry callable args s) := by
  obtain ⟨routine, captured⟩ := callable
  obtain ⟨rfl, hcaptured⟩ := CompiledUnit.bindHidden_eq hbind
  exact shows_of_compiled hcompile hl.body.isDirect hlimits hcaptured hargs hdepth
    (hl.evaluate_ne_stuck hargs s.heap s.statics)

/-- Doubles an optional integer, and yields one where it is absent. -/
def doubledOrOne : Lambda Expr :=
  let x : Variable := ⟨0, "x", .nullable .int⟩
  ⟨"doubledOrOne", [x], .int,
    Tree.coalesce (Tree.binary .add (Tree.var x) (Tree.var x))
      (.node (.constant (.num (.i32 1))) .int), ⟨false, false⟩⟩

/-- Doubling an optional integer is a function over scalars. -/
theorem doubledOrOne_scalar : doubledOrOne.Scalar where
  params := List.forall_mem_singleton.mpr rfl
  body := by
    have hx : Expr.Scalar (Context.add [] doubledOrOne.params) (Tree.var ⟨0, "x", .nullable .int⟩) :=
      .parameter rfl rfl
    exact .coalesce (.binary hx hx rfl rfl (.inl rfl)) (.constant rfl (.inr rfl)) rfl rfl rfl
  ret := .inr ⟨rfl, rfl⟩

set_option maxRecDepth 4000 in
/-- The function that doubles an optional integer compiles, and its code yields what it evaluates to
on a present and on an absent argument. -/
theorem invoke_doubledOrOne :
    ∃ c, (compile ⟨.builtin, .default⟩ doubledOrOne).result = .ok c ∧
      ∃ enough, ∀ budget, enough ≤ budget →
        (invokeWithin budget .builtin ⟨c.routine, []⟩ [.present (.int 3)] .initial).1 = .ok (.int 6) ∧
        (invokeWithin budget .builtin ⟨c.routine, []⟩ [.absent] .initial).1 = .ok (.int 1) := by
  obtain ⟨c, hc⟩ : ∃ c, (compile ⟨.builtin, .default⟩ doubledOrOne).result = .ok c := ⟨_, rfl⟩
  have hlimits : c.routine.WithinLimits := by
    have hcompiled : (match (compile ⟨.builtin, .default⟩ doubledOrOne).result with
        | .ok c => decide c.routine.WithinLimits
        | .error _ => false) = true := by decide +kernel
    rw [hc] at hcompiled
    exact of_decide_eq_true hcompiled
  have hbind : c.bindHidden .builtin doubledOrOne.hidden [] [] .empty =
      .ok (⟨c.routine, []⟩, .empty) := rfl
  have hdepth : State.initial.frames.length < Run.maxCallDepth := by decide
  have hone (v : Value) : [v].length = doubledOrOne.params.length := rfl
  obtain ⟨present, hpresent⟩ := invoke_scalar doubledOrOne_scalar hc hlimits hbind
    (hone (.present (.int 3))) hdepth
  obtain ⟨absent, habsent⟩ := invoke_scalar doubledOrOne_scalar hc hlimits hbind
    (hone .absent) hdepth
  refine ⟨c, hc, max present absent, fun budget hbudget => ⟨?_, ?_⟩⟩
  · exact (hpresent budget (by omega)).1
  · exact (habsent budget (by omega)).1

end Machine

end Arbor
