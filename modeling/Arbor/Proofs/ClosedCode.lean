/-
  Compiled code is closed.

  The routine of a compiled function, those of the functions nested in it and all
  routines below them name only what is there.  So no instruction of them reports
  that something it names is missing, and no run gets behind the end of their code.
-/
import Arbor.Proofs.Emission.Tracking
import Arbor.Proofs.Machine.Frames

set_option autoImplicit false

namespace Arbor

/-- The defect says that something is not there: the instruction of a label, a child, a local or
argument, or the next instruction. -/
inductive Defect.Missing : Defect → Prop
  | label (routine : String) (l : Label) : Missing (.unknownLabel routine l)
  | child (routine : String) (index : Nat) : Missing (.missingChild routine index)
  | slot (a : Addr) : Missing (.dangling a)
  | instruction (routine : String) (pc : Nat) : Missing (.ranPast routine pc)

namespace Run

variable {α β : Type}

/-- The action reports that something is missing only where that is excused. -/
def Finds (excused : Defect → State → Prop) (x : Run α) (s : State) : Prop :=
  ∀ d t, x s = .error (.invalid d) t → d.Missing → excused d t

/-! ## Actions that find what they look for -/

section

variable {excused : Defect → State → Prop} {s : State}

/-- One action after the other. -/
theorem Finds.bind {x : Run α} {f : α → Run β} (hx : Finds excused x s)
    (hf : ∀ a t, x s = .ok a t → Finds excused (f a) t) : Finds excused (x >>= f) s := by
  intro d t hrun hmissing
  change EStateM.bind x f s = _ at hrun
  unfold EStateM.bind at hrun
  split at hrun
  · next hxs => exact hf _ _ hxs d t hrun hmissing
  · next hxs =>
      cases hrun
      exact hx d t hxs hmissing

theorem Finds.of_ok {x : Run α} {a : α} {t : State} (h : x s = .ok a t) : Finds excused x s := by
  intro d u hrun
  rw [h] at hrun
  cases hrun

theorem Finds.pure (a : α) : Finds excused (pure a) s := .of_ok rfl

theorem Finds.invalid {d : Defect} (h : ¬ d.Missing) : Finds excused (invalid (α := α) d) s := by
  intro d' t hrun hmissing
  cases hrun
  exact absurd hmissing h

/-- A change of the current call. -/
theorem Finds.modifyFrame (change : Frame → Frame) : Finds excused (modifyFrame change) s := by
  intro d t hrun hmissing
  unfold Run.modifyFrame at hrun
  split at hrun
  · cases hrun
    cases hmissing
  · cases hrun

theorem Finds.pushNext (v : Value) : Finds excused (pushNext v) s :=
  .bind (.modifyFrame _) fun _ _ _ => .pure _

/-- A value is popped. -/
theorem Finds.pop : Finds excused pop s := by
  intro d t hrun hmissing
  unfold Run.pop at hrun
  split at hrun
  · cases hrun
    cases hmissing
  · split at hrun
    · cases hrun
      cases hmissing
    · cases hrun

/-- Values are popped. -/
theorem Finds.popN (n : Nat) : Finds excused (popN n) s := by
  intro d t hrun hmissing
  unfold Run.popN at hrun
  split at hrun
  · cases hrun
    cases hmissing
  · split at hrun
    · cases hrun
      cases hmissing
    · cases hrun

/-- An index is popped. -/
theorem Finds.popIndex : Finds excused popIndex s := by
  refine .bind .pop fun v t _ => ?_
  split
  · exact .pure _
  · exact .invalid (fun h => nomatch h)

end

/-! ## Instructions of closed code -/

section

variable {R : Routine} {s : State}

/-- A routine that runs has a current call of its extent. -/
theorem Running.exists_frame (h : Running R s) :
    ∃ f rest, s.frames = f :: rest ∧ f.args.size = R.params.length ∧ f.locals.size = R.locals.size := by
  have hcurrent := h.current
  rw [State.extents, List.head?_map, Option.map_eq_some_iff] at hcurrent
  obtain ⟨f, hf, hextent⟩ := hcurrent
  obtain ⟨rest, hrest⟩ := List.head?_eq_some_iff.mp hf
  exact ⟨f, rest, hrest, congrArg Prod.fst hextent, congrArg Prod.snd hextent⟩

theorem Running.pop (h : Running R s) {v : Value} {t : State} (hpop : Run.pop s = .ok v t) :
    Running R t := by
  have hkept := (Keeping.pop (K := Keeping.extents Registry.builtin s.extents)) s rfl
  rw [hpop] at hkept
  exact h.congr hkept.1

theorem Running.loadArg (h : Running R s) {n : Nat} (hn : n < R.params.length) :
    ∃ v, Run.loadArg n s = .ok v s := by
  obtain ⟨f, rest, hframes, hargs, -⟩ := h.exists_frame
  refine ⟨f.args[n], ?_⟩
  simp only [Run.loadArg, hframes, Array.getElem?_eq_getElem (hargs ▸ hn : n < f.args.size)]

theorem Running.loadLocal (h : Running R s) {n : Nat} (hn : n < R.locals.size) :
    ∃ v, Run.loadLocal n s = .ok v s := by
  obtain ⟨f, rest, hframes, -, hlocals⟩ := h.exists_frame
  refine ⟨f.locals[n], ?_⟩
  simp only [Run.loadLocal, hframes, Array.getElem?_eq_getElem (hlocals ▸ hn : n < f.locals.size)]

theorem Running.storeArg (h : Running R s) {n : Nat} (hn : n < R.params.length) (v : Value) :
    ∃ t, Run.storeArg n v s = .ok ⟨⟩ t := by
  obtain ⟨f, rest, hframes, hargs, -⟩ := h.exists_frame
  exact ⟨_, by simp only [Run.storeArg, hframes, if_pos (hargs ▸ hn : n < f.args.size)]; rfl⟩

/-- A local that the routine has can be written. -/
theorem Running.storeLocal (h : Running R s) {n : Nat} (hn : n < R.locals.size) (v : Value) :
    ∃ t, Run.storeLocal n v s = .ok ⟨⟩ t := by
  obtain ⟨heap, frames, statics⟩ := s
  obtain ⟨f, rest, hframes, -, hlocals⟩ := h.exists_frame
  cases hframes
  exact ⟨_, by simp only [Run.storeLocal, if_pos (hlocals ▸ hn : n < f.locals.size)]; rfl⟩

variable {excused : Defect → State → Prop}

theorem Finds.target {l : Label} (hl : ∃ pc, R.target? l = some pc ∧ pc < R.code.size) :
    Finds excused (target R l) s := by
  obtain ⟨pc, hpc, -⟩ := hl
  simp only [Run.target, hpc]
  exact .pure pc

/-- A jump to such a label under a condition. -/
theorem Finds.jumpWhen {l : Label} (hl : ∃ pc, R.target? l = some pc ∧ pc < R.code.size)
    (condition : Bool) : Finds excused (jumpWhen R condition l) s := by
  unfold Run.jumpWhen
  split
  · exact .bind (.target hl) fun _ _ _ => .pure _
  · exact .pure _

theorem child_eq {n : Nat} (hn : n < R.children.length) : child R n = pure R.children[n] := by
  simp only [Run.child, List.getElem?_eq_getElem hn]

end

/-- An instruction that names something and can stand in the running routine reports that something
is missing only where a child that it calls does. -/
theorem finds_step {R : Routine} {i : Instr} (hi : R.Has i) (hnames : i.isBare = false) {s : State}
    (hs : Running R s) (r : Registry) (call : Caller) :
    Finds (fun d t => ∃ c ∈ R.children, ∃ args u, call (.routine c) args u = .error (.invalid d) t)
      (step r call R i) s := by
  have htest : ∀ {l : Label} {c : Value → Bool},
      (∃ pc, R.target? l = some pc ∧ pc < R.code.size) → Finds
        (fun d t => ∃ c ∈ R.children, ∃ args u, call (.routine c) args u = .error (.invalid d) t)
        (do jumpWhen R (c (← pop)) l) s :=
    fun hl => .bind .pop fun _ _ _ => .jumpWhen hl _
  cases i with
  | loadArg n =>
      obtain ⟨v, hv⟩ := hs.loadArg (hi.args n List.mem_cons_self)
      exact .bind (.of_ok hv) fun _ _ _ => .pushNext _
  | loadArgAddr n => exact .bind (.of_ok rfl) fun _ _ _ => .pushNext _
  | storeArg n =>
      refine .bind .pop fun v t hpop => ?_
      obtain ⟨u, hu⟩ := (hs.pop hpop).storeArg (hi.args n List.mem_cons_self) v
      exact .bind (.of_ok hu) fun _ _ _ => .pure _
  | loadLocal n =>
      obtain ⟨v, hv⟩ := hs.loadLocal (hi.slots n List.mem_cons_self)
      exact .bind (.of_ok hv) fun _ _ _ => .pushNext _
  | loadLocalAddr n => exact .bind (.of_ok rfl) fun _ _ _ => .pushNext _
  | storeLocal n =>
      refine .bind .pop fun v t hpop => ?_
      obtain ⟨u, hu⟩ := (hs.pop hpop).storeLocal (hi.slots n List.mem_cons_self) v
      exact .bind (.of_ok hu) fun _ _ _ => .pure _
  | markStack n =>
      refine .bind (.of_ok rfl) fun _ t hget => ?_
      cases hget
      obtain ⟨u, hu⟩ := hs.storeLocal (hi.slots n List.mem_cons_self) _
      exact .bind (.of_ok hu) fun _ _ _ => .pure _
  | resetStack n => exact .bind (.modifyFrame _) fun _ _ _ => .pure _
  | jump l => exact .bind (.target (hi.labels l List.mem_cons_self)) fun _ _ _ => .pure _
  | leave l => exact .bind (.target (hi.labels l List.mem_cons_self)) fun _ _ _ => .pure _
  | jumpIfTrue l => exact htest (hi.labels l List.mem_cons_self)
  | jumpIfFalse l => exact htest (c := fun v => !v.isTruthy) (hi.labels l List.mem_cons_self)
  | jumpIfAbsent l => exact htest (hi.labels l List.mem_cons_self)
  | jumpIfPresent l => exact htest (c := fun v => !v.isAbsent) (hi.labels l List.mem_cons_self)
  | switch ls =>
      refine .bind .popIndex fun n t _ => ?_
      split
      · next l hl =>
          have hmem : l ∈ ls := by
            split at hl
            · exact List.mem_of_getElem? hl
            · cases hl
          exact .bind (.target (hi.labels l hmem)) fun _ _ _ => .pure _
      · exact .pure _
  | loadFunction n =>
      simp only [step, child_eq (hi.children n List.mem_cons_self)]
      exact .bind (.pure _) fun _ _ _ => .pushNext _
  | callChild n =>
      have hn := hi.children n List.mem_cons_self
      simp only [step, child_eq hn]
      refine .bind (.pure _) fun c t hc => .bind (.popN _) fun args u _ => .bind ?_ fun v w _ => ?_
      · cases hc
        exact fun d t hcall _ => ⟨_, List.getElem_mem hn, args, u, hcall⟩
      · split
        · exact .pure _
        · exact .pushNext _
  | _ => cases hnames

end Run

/-- Compiled code is closed.  In the routine of a function, in those of the functions nested in it and
in every routine below one of these, every label leads to an instruction, every local, argument and
child that is named is there, and the last instruction does not fall through.  So wherever such a
routine runs, in whatever run in which the host keeps the calls, it is at one of its instructions, and
where this names something, it reports that something is missing only if a child that it calls does. -/
theorem closed_of_compiled {helpers : HelperCache} (hhelpers : helpers.Filled) {setting : Setting}
    {l : Lambda Expr} {c : CompiledUnit}
    (hcompile : (compileWith helpers setting l).result = .ok c) {R D : Routine}
    (hR : R ∈ c.routine :: c.units) (hD : D.Below R) :
    D.Closed ∧ ∀ r : Registry, r.HostsKeep State.SameExtents → ∀ fuel S args s,
      ∀ m ∈ Run.callTrace r (Run.execTrace r fuel) S args s, m.routine = D →
        ∃ i, D.code[m.pc]? = some i ∧ (i.isBare = false → ∀ call,
          Run.Finds (fun d t => ∃ C ∈ D.children, ∃ given u, call (.routine C) given u = .error (.invalid d) t)
            (Run.step r call D i) m.state) := by
  have hclosed : D.Closed := closedThroughout_of_compiled hhelpers.sound hcompile R hR D hD
  refine ⟨hclosed, ?_⟩
  rintro r hhosts fuel S args s m hm rfl
  obtain ⟨hrunning, hreaches⟩ := Run.running_of_mem_callTrace hhosts hm
  have hlt := hclosed.lt_of_reaches hreaches
  exact ⟨m.routine.code[m.pc], Array.getElem?_eq_getElem hlt, fun hnames call =>
    Run.finds_step (hclosed.operands _ (Array.getElem_mem hlt)) hnames hrunning r call⟩

/-- Yields a function that yields its argument, or zero. -/
def deferredChoice : Lambda Expr :=
  let choice : Expr := .node (.conditional (.node (.constant (.bool true)) .bool)
    (.node (.parameter 0) .int) (.node (.constant (.num (.i32 0))) .int)) .int
  ⟨"deferredChoice", [], .func [.int] .int,
    .node (.lambda ⟨"choice", [⟨0, "x", .int⟩], .int, choice, ⟨false, false⟩⟩) (.func [.int] .int),
    ⟨false, false⟩⟩

/-- With the helpers of an earlier compilation at hand, the function and the one nested in it compile
to closed code, which is at one of its instructions wherever it runs. -/
theorem closed_deferredChoice :
    ∃ c D, (compileWith (compile ⟨.builtin, .default⟩ deferredChoice).helpers ⟨.builtin, .default⟩
        deferredChoice).result = .ok c ∧ D ∈ c.routine.children ∧ c.routine.Closed ∧ D.Closed ∧
      ∀ fuel args s, ∀ m ∈ Run.callTrace .builtin (Run.execTrace .builtin fuel) c.routine args s,
        m.routine = D → ∃ i, D.code[m.pc]? = some i := by
  have hfilled : (compile ⟨.builtin, .default⟩ deferredChoice).helpers.Filled := .compiled _ _ .empty
  have hchildren : (compileWith (compile ⟨.builtin, .default⟩ deferredChoice).helpers
      ⟨.builtin, .default⟩ deferredChoice).result.toOption.any
        (fun c => decide (c.routine.children ≠ [])) = true := by decide +kernel
  cases hc : (compileWith (compile ⟨.builtin, .default⟩ deferredChoice).helpers
      ⟨.builtin, .default⟩ deferredChoice).result with
  | error e =>
      rw [hc] at hchildren
      cases hchildren
  | ok c =>
      rw [hc] at hchildren
      obtain ⟨D, hD⟩ := List.exists_mem_of_ne_nil _ (of_decide_eq_true hchildren)
      obtain ⟨hclosed, hruns⟩ := closed_of_compiled hfilled hc List.mem_cons_self (.child hD (.refl _))
      refine ⟨c, D, rfl, hD, (closed_of_compiled hfilled hc List.mem_cons_self (.refl _)).1, hclosed, ?_⟩
      intro fuel args s m hm hD
      obtain ⟨i, hi, -⟩ := hruns .builtin (Registry.hostsKeep_builtin _) fuel c.routine args s m hm hD
      exact ⟨i, hi⟩

end Arbor
