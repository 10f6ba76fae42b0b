/-
  Defects are final.

  Outside of filter blocks, an instruction that ends with a defect is the end of
  the run: nothing is executed behind it, in whatever call or block it stood, and
  the invocation reports the defect.  Only the instructions that are waiting for
  the call in which it stood still end, with the same defect.  Filters are
  excepted because a filter that fails in any way does not select its handler.
-/
import Arbor.Compile.Basic
import Arbor.Proofs.Machine.Record

set_option autoImplicit false

namespace Arbor

namespace Run

variable {α β : Type} {r : Registry}

/-- The outcome is a defect of this text. -/
def Breaks (r : Registry) (message : String) : EStateM.Result Trap State α → Prop
  | .error (.invalid d) t => d.message r t.heap = message
  | _ => False

/-- A record that a defect ends: from the first one on, every event is that defect, and it is the
outcome. -/
def Settles (r : Registry) (record : List Event) (out : EStateM.Result Trap State α) : Prop :=
  ∀ message, .broke message ∈ record →
    Breaks r message out ∧
      ∃ before n, record = before ++ List.replicate (n + 1) (.broke message) ∧
        ∀ other, .broke other ∉ before

/-- The outcome of the second action is that of the first where the first is a defect. -/
def Hands (r : Registry) (first : EStateM.Result Trap State α)
    (second : EStateM.Result Trap State β) : Prop :=
  ∀ message, Breaks r message first → Breaks r message second

theorem Breaks.unique {out : EStateM.Result Trap State α} {m n : String} (hm : Breaks r m out)
    (hn : Breaks r n out) : m = n := by
  match out, hm, hn with
  | .error (.invalid _) _, hm, hn => exact hm.symm.trans hn

namespace Settles

variable {first second : List Event} {x : EStateM.Result Trap State α}
  {y : EStateM.Result Trap State β}

theorem of_clean (h : ∀ message, .broke message ∉ first) : Settles r first x :=
  fun message hmem => absurd hmem (h message)

theorem nil : Settles r [] x := of_clean fun _ h => nomatch h

theorem imp (h : Settles r first x) (hands : Hands r x y) : Settles r first y :=
  fun message hmem => ⟨hands message (h message hmem).1, (h message hmem).2⟩

/-- What goes on behind the first part goes on only if that is no defect. -/
theorem append (h : Settles r first x) (hands : Hands r x y)
    (hstops : ∀ message, Breaks r message x → second = [])
    (hgoes : (∀ message, ¬ Breaks r message x) → Settles r second y) :
    Settles r (first ++ second) y := by
  intro message hmem
  by_cases hx : ∃ m, Breaks r m x
  · obtain ⟨m, hm⟩ := hx
    rw [hstops m hm, List.append_nil] at hmem ⊢
    exact h.imp hands message hmem
  · have hnone : ∀ m, ¬ Breaks r m x := fun m hm => hx ⟨m, hm⟩
    have hclean : ∀ m, .broke m ∉ first := fun m hm => hnone m (h m hm).1
    obtain ⟨hbreaks, before, n, hshape, hbefore⟩ :=
      hgoes hnone message ((List.mem_append.mp hmem).resolve_left (hclean message))
    refine ⟨hbreaks, first ++ before, n, by rw [hshape, List.append_assoc], fun other hother => ?_⟩
    exact (List.mem_append.mp hother).elim (hclean other) (hbefore other)

theorem stop {e : Trap} {t : State} (h : Settles r first (.error e t : EStateM.Result Trap State α)) :
    Settles r (first ++ []) (.error e t : EStateM.Result Trap State β) := by
  rw [List.append_nil]
  exact h.imp fun _ => by cases e <;> exact id

/-- An event that is no defect in front. -/
theorem cons {event : Event} (hevent : ∀ message, event ≠ .broke message) (h : Settles r first x) :
    Settles r (event :: first) x := by
  intro message hmem
  obtain ⟨hbreaks, before, n, hshape, hbefore⟩ :=
    h message ((List.mem_cons.mp hmem).resolve_left fun heq => hevent message heq.symm)
  refine ⟨hbreaks, event :: before, n, by rw [hshape, List.cons_append], fun other hother => ?_⟩
  exact (List.mem_cons.mp hother).elim (fun heq => hevent other heq.symm) (hbefore other)

/-- The defect itself is recorded behind the record that it settles. -/
theorem concat {message : String} (h : Settles r first x) (hbreaks : Breaks r message x) :
    Settles r (first ++ [.broke message]) x := by
  have hshape : ∃ before n, first ++ [.broke message] =
      before ++ List.replicate (n + 1) (.broke message) ∧ ∀ other, .broke other ∉ before := by
    by_cases hfirst : ∃ m, .broke m ∈ first
    · obtain ⟨m, hm⟩ := hfirst
      obtain ⟨hbreaks', before, n, hshape, hbefore⟩ := h m hm
      obtain rfl := hbreaks.unique hbreaks'
      exact ⟨before, n + 1, by rw [hshape, List.append_assoc, ← List.replicate_succ'], hbefore⟩
    · exact ⟨first, 0, rfl, fun m hm => hfirst ⟨m, hm⟩⟩
  intro m hm
  obtain rfl : m = message := by
    rcases List.mem_append.mp hm with hm | hm
    · exact (h m hm).1.unique hbreaks
    · simpa using hm
  exact ⟨hbreaks, hshape⟩

end Settles

/-! ## Calls and instructions -/

variable {run : Executor} {record : Recorder}

/-- The records of an executor are settled by its outcomes. -/
def Recorded (r : Registry) (run : Executor) (record : Recorder) : Prop :=
  ∀ routine pc span s, Settles r (record routine pc span s) (run routine pc span s)

/-- A defect in a called routine is the outcome of the call. -/
theorem settles_call (h : Recorded r run record) (routine : Routine) (args : List Value)
    (s : State) :
    Settles r (callRecord r record routine args s) (callRoutine r run routine args s) := by
  unfold callRecord entry? callRoutine
  by_cases hdepth : maxCallDepth ≤ s.frames.length
  · simp only [if_pos hdepth]
    exact .nil
  by_cases hargs : args.length ≠ routine.params.length
  · simp only [if_neg hdepth, if_pos hargs]
    exact .nil
  simp only [if_neg hdepth, if_neg hargs]
  cases routine.locals.mapM r.zero with
  | error e => exact .nil
  | ok locals =>
      refine (h routine 0 ⟨0, routine.code.size⟩ _).imp fun message hbreaks => ?_
      revert hbreaks
      dsimp only
      cases run routine 0 ⟨0, routine.code.size⟩
          { s with frames := ⟨args.toArray, locals, [], []⟩ :: s.frames } with
      | ok exit t => exact False.elim
      | error e t => cases e <;> exact id

/-- A defect in a call that a method of the host makes is the outcome of the method. -/
theorem settles_host (h : Recorded r run record) {method : HostRun} (hmethod : method.HandsOn) :
    Settles r (method.log (callRoutine r run) (callRecord r record))
      (method.run (callRoutine r run)) := by
  induction method with
  | done outcome => exact .nil
  | call R args s resume ih =>
      obtain ⟨hdefect, hrest⟩ := hmethod
      have hcall := settles_call h R args s
      simp only [HostRun.log, HostRun.run]
      revert hcall
      cases hout : callRoutine r run R args s with
      | ok v t =>
          intro hcall
          exact hcall.append (fun _ => False.elim) (fun _ => False.elim) fun _ => ih _ (hrest _)
      | error e t =>
          cases e with
          | thrown e =>
              intro hcall
              exact hcall.append (fun _ => False.elim) (fun _ => False.elim) fun _ => ih _ (hrest _)
          | invalid d =>
              intro hcall
              simp only [hdefect, HostRun.log, HostRun.run]
              exact hcall.stop
          | halted limit =>
              intro hcall
              exact hcall.stop

/-- A defect in what is called is the outcome of the call. -/
theorem settles_callee (h : Recorded r run record) {c : Callee}
    (hc : ∀ f args s, c = .host f → (f args s).HandsOn) (args : List Value) (s : State) :
    Settles r (c.log (callRoutine r run) (callRecord r record) args s) (caller r run c args s) := by
  cases c with
  | routine R => exact settles_call h R args s
  | host f => exact settles_host h (hc f args s rfl)

/-- A defect in what an instruction calls is the end of the instruction. -/
theorem settles_step (hhosts : r.HostsHandOn) (h : Recorded r run record) (routine : Routine)
    (i : Instr) (s : State) :
    Settles r (stepRecord r run record routine i s) (step r (caller r run) routine i s) := by
  have hcalled : Settles r (calleeRecord r run record routine i s)
      (step r (caller r run) routine i s) := by
    unfold calleeRecord
    split
    · next c args t hcallee =>
        have hc : ∀ f args s, c = .host f → (f args s).HandsOn := by
          rintro f args s rfl
          exact hhosts f (mem_hosts_of_callee hcallee) args s
        refine (settles_callee h hc args t).imp fun message hbreaks => ?_
        match hcall : caller r run c args t, hbreaks with
        | .error (.invalid d) u, hbreaks =>
            rw [step_of_call_error hcallee hcall]
            exact hbreaks
    · exact .nil
  unfold stepRecord
  split
  · next d t hstep =>
      rw [hstep] at hcalled ⊢
      exact hcalled.concat rfl
  · rw [List.append_nil]
    exact hcalled

/-! ## Blocks -/

/-- A defect in a `finally` or `fault` block is the end of what runs the block. -/
theorem hands_runUnwinding (routine : Routine) (g : Region Nat) (s : State) :
    Hands r (run routine g.handlerStart ⟨g.handlerStart, g.handlerEnd⟩ s)
      (runUnwinding run routine g s) := by
  intro message hbreaks
  unfold runUnwinding
  match hrun : run routine g.handlerStart ⟨g.handlerStart, g.handlerEnd⟩ s, hbreaks with
  | .error (.invalid d) t, hbreaks => exact hbreaks

/-- A defect in a block that a jump leaves is the outcome of the jump. -/
theorem settles_leaveRegions (h : Recorded r run record) (routine : Routine) (pc target : Nat)
    (regions : List (Region Nat)) (s : State) :
    Settles r (leaveRegionsRecord run record routine pc target regions s)
      (leaveRegions run routine pc target regions s) := by
  induction regions generalizing s with
  | nil => exact .nil
  | cons g rest ih =>
      unfold leaveRegionsRecord leaveRegions
      split
      · have hblock := (h routine g.handlerStart ⟨g.handlerStart, g.handlerEnd⟩ s).imp
          (hands_runUnwinding routine g s)
        change Settles r _ (EStateM.bind _ _ s)
        unfold EStateM.bind
        revert hblock
        cases runUnwinding run routine g s with
        | ok escaped t =>
            intro hblock
            refine hblock.append (fun _ => False.elim) (fun _ => False.elim) fun _ => ?_
            cases escaped with
            | none => exact ih t
            | some e => exact .nil
        | error e t =>
            intro hblock
            exact hblock.stop
      · exact ih s

/-- A defect in a block that a jump leaves is the outcome of leaving. -/
theorem settles_leave (h : Recorded r run record) (routine : Routine) (pc target : Nat) (s : State) :
    Settles r (leaveRecord run record routine pc target s) (leave run routine pc target s) := by
  unfold leaveRecord
  change Settles r _ (EStateM.bind _ _ s)
  unfold EStateM.bind
  cases leaveHandlers routine pc target s with
  | ok _ t => exact settles_leaveRegions h routine pc target routine.regions t
  | error e t => exact .nil

/-- What happens in a filter is marked. -/
theorem selectsRecord_clean (routine : Routine) (g : Region Nat) (e : Ref) (s : State)
    (message : String) : .broke message ∉ selectsRecord record routine g e s := by
  unfold selectsRecord
  split
  · split
    · simp
    · simp
  · simp
  · simp
  · simp

/-- The choice of a handler records no defect. -/
theorem selectRecord_clean (routine : Routine) (e : Ref) (regions : List (Nat × Region Nat))
    (s : State) (message : String) :
    .broke message ∉ selectRecord r run record routine e regions s := by
  induction regions generalizing s with
  | nil => simp [selectRecord]
  | cons head rest ih =>
      obtain ⟨i, g⟩ := head
      unfold selectRecord
      refine fun hmem => (List.mem_append.mp hmem).elim (selectsRecord_clean routine g e s message) ?_
      split
      · next t _ => exact ih t
      · simp

/-- A defect in a block on the way to a handler is the outcome of unwinding. -/
theorem settles_unwind (h : Recorded r run record) (routine : Routine) (chosen : Option Nat)
    (regions : List (Nat × Region Nat)) (s : State) :
    Settles r (unwindRecord run record routine chosen regions s)
      (unwind run routine chosen regions s) := by
  induction regions generalizing s with
  | nil => exact .nil
  | cons head rest ih =>
      obtain ⟨i, g⟩ := head
      unfold unwindRecord unwind
      split
      · exact .nil
      split
      · change Settles r _ (EStateM.bind _ _ s)
        unfold EStateM.bind
        cases resetToMark g.stackMark s with
        | error e t => exact .nil
        | ok _ t =>
            have hblock := (h routine g.handlerStart ⟨g.handlerStart, g.handlerEnd⟩ t).imp
              (hands_runUnwinding routine g t)
            change Settles r _ (EStateM.bind _ _ t)
            unfold EStateM.bind
            dsimp only
            revert hblock
            cases runUnwinding run routine g t with
            | ok escaped u =>
                intro hblock
                refine hblock.append (fun _ => False.elim) (fun _ => False.elim) fun _ => ?_
                cases escaped with
                | none => exact ih u
                | some e => exact .nil
            | error e u =>
                intro hblock
                exact hblock.stop
      · exact ih s

/-! ## Executions -/

/-- What goes on behind the dispatch of an exception. -/
theorem settles_handled {fuel : Nat} {routine : Routine} {pc : Nat} {e : Ref} {span : Span}
    {s : State} (hexec : Recorded r (exec r fuel) (execRecord r fuel))
    (hdispatch : Settles r (dispatchRecord r fuel routine pc e span s)
      (dispatch r fuel routine pc e span s)) :
    Settles r
      (dispatchRecord r fuel routine pc e span s ++
        match dispatch r fuel routine pc e span s with
        | .ok handler s => execRecord r fuel routine handler span s
        | .error _ _ => [])
      (match dispatch r fuel routine pc e span s with
        | .ok handler s => exec r fuel routine handler span s
        | .error t s => .error t s) := by
  revert hdispatch
  cases dispatch r fuel routine pc e span s with
  | ok handler t =>
      intro hdispatch
      exact hdispatch.append (fun _ => False.elim) (fun _ => False.elim) fun _ => hexec _ _ _ _
  | error e t =>
      intro hdispatch
      exact hdispatch.stop

/-- Within every budget, executions and dispatches are settled by their first defect. -/
theorem settles_exec_dispatch (hhosts : r.HostsHandOn) (fuel : Nat) :
    Recorded r (exec r fuel) (execRecord r fuel) ∧
      ∀ routine pc e span s, Settles r (dispatchRecord r fuel routine pc e span s)
        (dispatch r fuel routine pc e span s) := by
  induction fuel with
  | zero =>
      refine ⟨fun routine pc span s => ?_, fun routine pc e span s => ?_⟩
      · exact .nil
      · exact .nil
  | succ fuel ih =>
      obtain ⟨hexec, hdispatch⟩ := ih
      refine ⟨fun routine pc span s => ?_, fun routine pc e span s => ?_⟩
      · unfold execRecord exec
        cases routine.code[pc]? with
        | none => exact .nil
        | some i =>
            have hstep := settles_step hhosts hexec routine i s
            refine .cons (fun _ h => nomatch h) ?_
            dsimp only
            revert hstep
            cases step r (caller r (exec r fuel)) routine i s with
            | ok flow t =>
                intro hstep
                refine hstep.append (fun _ => False.elim) (fun _ => False.elim) fun _ => ?_
                cases flow with
                | next => exact hexec _ _ _ _
                | jump landing => exact hexec _ _ _ _
                | leave landing =>
                    have hleave := settles_leave hexec routine pc landing t
                    dsimp only
                    revert hleave
                    cases leave (exec r fuel) routine pc landing t with
                    | ok escaped u =>
                        intro hleave
                        refine hleave.append (fun _ => False.elim) (fun _ => False.elim) fun _ => ?_
                        cases escaped with
                        | none => exact hexec _ _ _ _
                        | some escape => exact settles_handled hexec (hdispatch _ _ _ _ _)
                    | error e u =>
                        intro hleave
                        exact hleave.stop
                | ret v => exact .nil
                | endFinally => exact .nil
                | endFilter verdict => exact .nil
            | error e t =>
                intro hstep
                cases e with
                | thrown e =>
                    exact hstep.append (fun _ => False.elim) (fun _ => False.elim) fun _ =>
                      settles_handled hexec (hdispatch _ _ _ _ _)
                | invalid d => exact hstep.stop
                | halted limit => exact hstep.stop
      · unfold dispatchRecord dispatch
        dsimp only
        have hclean : Settles r
            (selectRecord r (exec r fuel) (execRecord r fuel) routine e (candidates routine pc span) s)
            (EStateM.Result.ok () s : EStateM.Result Trap State Unit) :=
          .of_clean (selectRecord_clean routine e _ s)
        refine hclean.append (fun _ => False.elim) (fun _ => False.elim) fun _ => ?_
        cases select r (exec r fuel) routine e (candidates routine pc span) s with
        | error e t => exact .nil
        | ok chosen t =>
            have hunwind := settles_unwind hexec routine (chosen.map (·.1))
              (candidates routine pc span) t
            dsimp only
            revert hunwind
            cases unwind (exec r fuel) routine (chosen.map (·.1)) (candidates routine pc span) t with
            | ok escaped u =>
                intro hunwind
                refine hunwind.append (fun _ => False.elim) (fun _ => False.elim) fun _ => ?_
                cases escaped with
                | none => exact .nil
                | some escape => exact hdispatch _ _ _ _ _
            | error e u =>
                intro hunwind
                exact hunwind.stop

end Run

namespace Machine

/-- Where methods of the host hand defects on, and outside of filter blocks, the first instruction that
ends with a defect, in any call and any block of an invocation, is the last to be executed: the record
goes on only with the same defect, at the instructions that wait for the call, and the invocation
reports it. -/
theorem invoke_defect {budget : Nat} {r : Registry} (hhosts : r.HostsHandOn) {c : Callable}
    {args : List Value} {s : State} {message : String} (h : .broke message ∈ invokeRecord budget r c args s) :
    (∃ before n, invokeRecord budget r c args s =
        before ++ List.replicate (n + 1) (.broke message) ∧ ∀ other, .broke other ∉ before) ∧
      ∃ t, invokeWithin budget r c args s = (.error (.invalidProgram message), t) := by
  have hcall := Run.settles_call (Run.settles_exec_dispatch hhosts budget).1 c.routine
    (c.captured ++ args) s
  obtain ⟨hbreaks, hshape⟩ := hcall message h
  refine ⟨hshape, ?_⟩
  unfold invokeWithin observe
  rw [Run.call, Run.caller]
  match hout : Run.callRoutine r (Run.exec r budget) c.routine (c.captured ++ args) s, hbreaks with
  | .error (.invalid d) t, hbreaks =>
      refine ⟨t, ?_⟩
      simp only [runtimeError]
      rw [show d.message r t.heap = message from hbreaks]

/-- Hands the host a function that throws again where nothing is handled, inside a block that catches
every exception and has a `finally` block. -/
def strayRethrow : Lambda Expr :=
  let nothing : Expr := .node (.block [] []) .void
  let rethrowing : Lambda Expr := ⟨"rethrowing", [], .void, .node (.throw none) .void, ⟨false, false⟩⟩
  let called : Expr := .node (.call Registry.hosted none [.node (.lambda rethrowing) (.func [] .void)]) .void
  ⟨"strayRethrow", [], .void,
    .node (.tryCatch called [⟨.object, none, none, nothing⟩] (some nothing) none) .void, ⟨false, false⟩⟩

/-- The registry of the host that calls its argument. -/
def applier : Registry := .hosting [.func [] .void] .void (.applying .builtin)

/-- Neither the host nor the handler and the `finally` block around the call stop a stray rethrow. -/
theorem invoke_strayRethrow :
    ∃ c, (compile ⟨applier, .default⟩ strayRethrow).result = .ok c ∧
      .broke "rethrow outside a catch block" ∈ invokeRecord 20 applier ⟨c.routine, []⟩ [] .initial ∧
      ∃ t, invokeWithin 20 applier ⟨c.routine, []⟩ [] .initial =
        (.error (.invalidProgram "rethrow outside a catch block"), t) := by
  have hhosts : applier.HostsHandOn := by
    intro f hf
    obtain rfl := List.mem_singleton.mp hf
    exact Host.handsOn_applying _
  have hcheck : (match (compile ⟨applier, .default⟩ strayRethrow).result with
      | .ok c => (invokeRecord 20 applier ⟨c.routine, []⟩ [] .initial).any fun
          | .broke message => message == "rethrow outside a catch block"
          | _ => false
      | .error _ => false) = true := by decide +kernel
  split at hcheck
  · next c hc =>
      have hbroke : .broke "rethrow outside a catch block" ∈
          invokeRecord 20 applier ⟨c.routine, []⟩ [] .initial := by
        obtain ⟨event, hmem, hevent⟩ := List.any_eq_true.mp hcheck
        match event, hmem, hevent with
        | .broke message, hmem, hevent => rwa [← eq_of_beq hevent]
      exact ⟨c, hc, hbroke, (invoke_defect hhosts hbroke).2⟩
  · cases hcheck

end Machine

end Arbor
