/-
  What a run executes.

  The record of a run lists, in the order of time, the instructions that it
  starts, in all calls and in all blocks, and the defects with which instructions
  end.  It is read off the machine itself: wherever the machine executes
  something, its record follows, in the state in which the machine executes it.
  What happens while a filter is evaluated is marked as such.

  An instruction calls at most one routine or method of the host.  `callee` says
  which, with its arguments and the state at the call, and `Asks` that the
  instruction depends on calls only through the outcome of that one.  A method of
  the host may call any number of routines, one after the other.
-/
import Arbor.Proofs.Machine.Hosts

set_option autoImplicit false

namespace Arbor

/-- What a run does. -/
inductive Event where
  /-- The instruction of a routine at a position starts. -/
  | started (routine : Routine) (pc : Nat)
  /-- An instruction ends with a defect of this text. -/
  | broke (message : String)
  /-- Something happens in a filter block, or in a call that it makes. -/
  | filtering (event : Event)

/-- What a method calls, if it has code or belongs to the host. -/
def MethodBody.callee? : MethodBody → Option Callee
  | routine code => some (.routine code)
  | host method => some (.host method)
  | _ => none

theorem MethodBody.eq_routine {body : MethodBody} {R : Routine} (h : body.callee? = some (.routine R)) :
    body = .routine R := by
  cases body with
  | routine code =>
      cases h
      rfl
  | _ => cases h

theorem MethodBody.eq_host {body : MethodBody} {f : Host} (h : body.callee? = some (.host f)) :
    body = .host f := by
  cases body with
  | host method =>
      cases h
      rfl
  | _ => cases h

theorem Registry.provides_of_callee? {r : Registry} {id : TypeId} {index : Nat} {d : MethodDef} {c : Callee}
    (hd : r.method id index = .ok d) (hc : d.body.callee? = some c) : r.Provides c := by
  cases c with
  | routine R => trivial
  | host f => exact mem_hosts hd (MethodBody.eq_host hc)

namespace Run

/-! ## The call of an instruction -/

/-- The routine of a function value, with all of its arguments. -/
def valueCallee (f : Value) (args : List Value) : Run (Option (Callee × List Value)) := do
  match f with
  | .func ref =>
      match (← get).heap.functions[ref]? with
      | some c => pure (some (.routine c.routine, c.captured ++ args))
      | none => pure none
  | _ => pure none

/-- What the body of a method calls. -/
def bodyCallee (body : MethodBody) (args : List Value) : Run (Option (Callee × List Value)) :=
  pure (body.callee?.map fun c => (c, args))

/-- What a method calls. -/
def methodCallee (r : Registry) (m : MethodRef) (args : List Value) :
    Run (Option (Callee × List Value)) :=
  match m with
  | .intrinsic _ => pure none
  | .method id index => do
      let d ← ofLookup (r.method id index)
      match d.kind, args with
      | .member, .null :: _ => pure none
      | _, args => bodyCallee d.body args

/-- What a constructor calls. -/
def constructorCallee (r : Registry) (m : MethodRef) : Run (Option (Callee × List Value)) :=
  match m with
  | .intrinsic _ => pure none
  | .method id index => do
      let d ← ofLookup (r.method id index)
      if d.kind ≠ .ctor then pure none
      else
        let args ← popN d.params.length
        let own ← ofLookup (r.tyOf id)
        let fresh ←
          match own with
          | .structTy _ => ofLookup (r.zero own)
          | _ => do pure (Value.object (← allocObject r id))
        bodyCallee d.body (fresh :: args)

/-- What an instruction calls, with its arguments; the state is then that at the call. -/
def callee (r : Registry) (routine : Routine) (i : Instr) : Run (Option (Callee × List Value)) :=
  match i with
  | .newObject m => constructorCallee r m
  | .call m => do
      let sig ← ofLookup (r.signature m)
      let args ← popN sig.arity
      methodCallee r m args
  | .callChild n => do
      let c ← child routine n
      let args ← popN c.params.length
      pure (some (.routine c, args))
  | .callInvoker n => do
      let args ← popN n
      let f ← pop
      valueCallee f args
  | _ => pure none

/-! ## Methods of the host that are called -/

variable {r : Registry} {f : Host} {args all : List Value} {s t : State}

theorem callee?_of_bodyCallee {body : MethodBody} {c : Callee}
    (h : bodyCallee body args s = .ok (some (c, all)) t) : body.callee? = some c := by
  cases hc : body.callee? with
  | some c' =>
      rw [bodyCallee, hc] at h
      cases h
      rfl
  | none =>
      rw [bodyCallee, hc] at h
      cases h

theorem not_host_of_valueCallee {v : Value} : valueCallee v args s ≠ .ok (some (.host f, all)) t := by
  intro h
  cases v with
  | func ref =>
      obtain ⟨u, w, -, h⟩ := ok_of_bind h
      cases hfound : u.heap.functions[ref]? with
      | some c =>
          rw [hfound] at h
          cases h
      | none =>
          rw [hfound] at h
          cases h
  | _ => cases h

theorem mem_hosts_of_methodCallee {m : MethodRef}
    (h : methodCallee r m args s = .ok (some (.host f, all)) t) : f ∈ r.hosts := by
  cases m with
  | intrinsic op => cases h
  | method id index =>
      obtain ⟨d, u, hlookup, hbody⟩ := ok_of_bind h
      have hd := (ofLookup_eq_ok hlookup).1
      have hmem : bodyCallee d.body args u = .ok (some (.host f, all)) t → f ∈ r.hosts :=
        fun h => Registry.provides_of_callee? hd (callee?_of_bodyCallee h)
      -- Only a member called on null has no callee.
      revert hbody
      generalize d.kind = kind
      cases kind with
      | member =>
          cases args with
          | nil => exact hmem
          | cons receiver args =>
              cases receiver with
              | null => exact fun hnone => nomatch hnone
              | _ => exact hmem
      | _ => exact hmem

theorem mem_hosts_of_constructorCallee {m : MethodRef}
    (h : constructorCallee r m s = .ok (some (.host f, all)) t) : f ∈ r.hosts := by
  cases m with
  | intrinsic op => cases h
  | method id index =>
      obtain ⟨d, u, hlookup, hbody⟩ := ok_of_bind h
      have hd := (ofLookup_eq_ok hlookup).1
      split at hbody
      · cases hbody
      · obtain ⟨operands, _, -, hown⟩ := ok_of_bind hbody
        obtain ⟨own, _, -, hfresh⟩ := ok_of_bind hown
        cases own with
        | structTy _ =>
            obtain ⟨fresh, _, -, hcall⟩ := ok_of_bind hfresh
            exact Registry.provides_of_callee? hd (callee?_of_bodyCallee hcall)
        | _ =>
            obtain ⟨fresh, _, -, hcall⟩ := ok_of_bind hfresh
            exact Registry.provides_of_callee? hd (callee?_of_bodyCallee hcall)

/-- A method of the host that an instruction calls is one of the registry. -/
theorem mem_hosts_of_callee {R : Routine} {i : Instr}
    (h : callee r R i s = .ok (some (.host f, all)) t) : f ∈ r.hosts := by
  cases i with
  | newObject m => exact mem_hosts_of_constructorCallee h
  | call m =>
      obtain ⟨_, _, -, h⟩ := ok_of_bind h
      obtain ⟨_, _, -, h⟩ := ok_of_bind h
      exact mem_hosts_of_methodCallee h
  | callChild n =>
      obtain ⟨_, _, -, h⟩ := ok_of_bind h
      obtain ⟨_, _, -, h⟩ := ok_of_bind h
      cases h
  | callInvoker n =>
      obtain ⟨_, _, -, h⟩ := ok_of_bind h
      obtain ⟨_, _, -, h⟩ := ok_of_bind h
      exact absurd h not_host_of_valueCallee
  | _ => cases h

/-! ## Dependence on calls -/

/-- An action that calls what the second action yields: it goes on from the outcome of that call, or
does not depend on calls. -/
def Asks {α : Type} (x : Caller → Run α) (y : Run (Option (Callee × List Value))) : Prop :=
  ∀ s, match y s with
    | .ok (some (c, args)) t => ∃ k, ∀ call, x call s = EStateM.bind (call c args) k t
    | _ => ∃ out, ∀ call, x call s = out

namespace Asks

variable {α β : Type}

theorem none (x : Run α) : Asks (fun _ => x) (pure none) := fun s => ⟨x s, fun _ => rfl⟩

theorem call (c : Callee) (args : List Value) :
    Asks (fun call => call c args) (pure (some (c, args))) := by
  intro s
  refine ⟨pure, fun call => ?_⟩
  change call c args s = EStateM.bind (call c args) EStateM.pure s
  unfold EStateM.bind
  cases call c args s <;> rfl

/-- An action in front of one that calls. -/
theorem after {p : Run β} {x : Caller → β → Run α} {y : β → Run (Option (Callee × List Value))}
    (h : ∀ b, Asks (fun call => x call b) (y b)) : Asks (fun call => p >>= x call) (p >>= y) := by
  intro s
  change match EStateM.bind p y s with
    | .ok (some (c, args)) t => ∃ k, ∀ call, EStateM.bind p (x call) s =
        EStateM.bind (call c args) k t
    | _ => ∃ out, ∀ call, EStateM.bind p (x call) s = out
  simp only [EStateM.bind]
  cases p s with
  | ok b t => exact h b t
  | error e t => exact ⟨_, fun _ => rfl⟩

/-- An action behind one that calls. -/
theorem before {x : Caller → Run β} {y : Run (Option (Callee × List Value))} (h : Asks x y)
    (f : β → Run α) : Asks (fun call => x call >>= f) y := by
  intro s
  have hs := h s
  split at hs
  · obtain ⟨k, hk⟩ := hs
    refine ⟨fun v => k v >>= f, fun call => ?_⟩
    change EStateM.bind (x call) f s = _
    simp only [EStateM.bind, hk]
    cases call _ _ _ <;> rfl
  · obtain ⟨out, hout⟩ := hs
    refine ⟨match out with | .ok b t => f b t | .error e t => .error e t, fun call => ?_⟩
    change EStateM.bind (x call) f s = _
    simp only [EStateM.bind, hout]
    cases out <;> rfl

end Asks

theorem asks_callValue (r : Registry) (f : Value) (args : List Value) :
    Asks (fun call => callValue r call f args) (valueCallee f args) := by
  cases f with
  | func ref =>
      refine .after fun s => ?_
      cases s.heap.functions[ref]? with
      | some c => exact .call _ _
      | none => exact .none _
  | _ => exact .none _

/-- A body calls its routine or its method of the host. -/
theorem asks_runBody (r : Registry) (body : MethodBody) (kind : MethodKind) (args : List Value) :
    Asks (fun call => runBody r call body kind args) (bodyCallee body args) := by
  cases body with
  | host method => exact .call _ _
  | routine routine => exact .call _ _
  | _ => exact .none _

/-- A method calls what its body calls. -/
theorem asks_callMethod (r : Registry) (m : MethodRef) (args : List Value) :
    Asks (fun call => callMethod r call m args) (methodCallee r m args) := by
  cases m with
  | intrinsic op => exact .none _
  | method id index =>
      refine .after fun d => ?_
      -- Only a member called on null has no callee.
      generalize d.kind = kind
      cases kind with
      | member =>
          cases args with
          | nil => exact asks_runBody r _ _ _
          | cons receiver args =>
              cases receiver with
              | null => exact .none _
              | _ => exact asks_runBody r _ _ _
      | _ => exact asks_runBody r _ _ _

/-- A construction calls what the constructor calls. -/
theorem asks_construct (r : Registry) (m : MethodRef) :
    Asks (fun call => construct r call m) (constructorCallee r m) := by
  cases m with
  | intrinsic op => exact .none _
  | method id index =>
      refine .after fun d => ?_
      split
      · exact .none _
      · refine .after fun args => .after fun own => ?_
        cases own with
        | structTy _ => exact .after fun fresh => .before (asks_runBody r _ _ _) _
        | _ => exact .after fun ref => .before (asks_runBody r _ _ _) _

/-- An instruction depends on calls only through the one that it makes. -/
theorem asks_step (r : Registry) (routine : Routine) (i : Instr) :
    Asks (fun call => step r call routine i) (callee r routine i) := by
  cases i with
  | newObject m => exact .before (asks_construct r m) _
  | call m => exact .after fun sig => .after fun args => .before (asks_callMethod r m args) _
  | callChild n => exact .after fun c => .after fun args => .before (.call (.routine c) args) _
  | callInvoker n =>
      refine .after fun args => .after fun f => ?_
      intro s
      exact (asks_callValue r f args).before _ s
  | _ => exact .none _

/-- A call that fails is the end of the instruction that makes it. -/
theorem step_of_call_error {r : Registry} {call : Caller} {routine : Routine} {i : Instr}
    {s t u : State} {callee' : Callee} {args : List Value} {e : Trap}
    (hcallee : callee r routine i s = .ok (some (callee', args)) t)
    (hcall : call callee' args t = .error e u) : step r call routine i s = .error e u := by
  have hasks := asks_step r routine i s
  rw [hcallee] at hasks
  obtain ⟨k, hk⟩ := hasks
  refine (hk call).trans ?_
  simp only [EStateM.bind, hcall]

/-! ## Records -/

end Run

/-- What is recorded of the calls that a method of the host makes. -/
def HostRun.log {α : Type} (callRoutine : Routine → List Value → Run Value)
    (record : Routine → List Value → State → List α) : HostRun → List α
  | done _ => []
  | call routine args s resume =>
      record routine args s ++
        match callRoutine routine args s with
        | .error (.halted _) _ => []
        | outcome => (resume outcome).log callRoutine record

/-- What is recorded of a call. -/
def Callee.log {α : Type} (callRoutine : Routine → List Value → Run Value)
    (record : Routine → List Value → State → List α) : Callee → List Value → State → List α
  | routine code, args, s => record code args s
  | host method, args, s => (method args s).log callRoutine record

namespace Run


/-- The record of an execution from a position on. -/
abbrev Recorder := Routine → Nat → Span → State → List Event

/-- The state in which a called routine starts, unless the call is refused. -/
def entry? (r : Registry) (routine : Routine) (args : List Value) (s : State) : Option State :=
  if maxCallDepth ≤ s.frames.length then none
  else if args.length ≠ routine.params.length then none
  else
    match routine.locals.mapM r.zero with
    | .error _ => none
    | .ok locals => some { s with frames := ⟨args.toArray, locals, [], []⟩ :: s.frames }

/-- What a called routine does. -/
def callRecord (r : Registry) (record : Recorder) (routine : Routine) (args : List Value)
    (s : State) : List Event :=
  match entry? r routine args s with
  | some t => record routine 0 ⟨0, routine.code.size⟩ t
  | none => []

/-- What that does which an instruction calls. -/
def calleeRecord (r : Registry) (run : Executor) (record : Recorder) (routine : Routine) (i : Instr)
    (s : State) : List Event :=
  match callee r routine i s with
  | .ok (some (c, args)) t => c.log (callRoutine r run) (callRecord r record) args t
  | _ => []

/-- What an instruction does: what it calls, and the defect with which it ends. -/
def stepRecord (r : Registry) (run : Executor) (record : Recorder) (routine : Routine) (i : Instr)
    (s : State) : List Event :=
  calleeRecord r run record routine i s ++
    match step r (caller r run) routine i s with
    | .error (.invalid d) t => [.broke (d.message r t.heap)]
    | _ => []

/-- What the `finally` blocks do that a jump from `pc` to `target` leaves. -/
def leaveRegionsRecord (run : Executor) (record : Recorder) (routine : Routine) (pc target : Nat) :
    List (Region Nat) → State → List Event
  | [], _ => []
  | g :: rest, s =>
      if g.isFinally && g.tryContains pc && !g.tryContains target then
        record routine g.handlerStart ⟨g.handlerStart, g.handlerEnd⟩ s ++
          match runUnwinding run routine g s with
          | .ok none t => leaveRegionsRecord run record routine pc target rest t
          | _ => []
      else leaveRegionsRecord run record routine pc target rest s

/-- What leaving protected regions does. -/
def leaveRecord (run : Executor) (record : Recorder) (routine : Routine) (pc target : Nat)
    (s : State) : List Event :=
  match leaveHandlers routine pc target s with
  | .ok _ t => leaveRegionsRecord run record routine pc target routine.regions t
  | .error _ _ => []

/-- What asking a region whether it handles an exception does. -/
def selectsRecord (record : Recorder) (routine : Routine) (g : Region Nat) (e : Ref) (s : State) :
    List Event :=
  match g.kind with
  | .filter start =>
      match (resetToMark g.stackMark >>= fun _ => push (.object e) : Run PUnit) s with
      | .ok _ t => (record routine start ⟨start, g.handlerStart⟩ t).map .filtering
      | .error _ _ => []
  | .catch _ | .finally | .fault => []

/-- What the choice of a handler does. -/
def selectRecord (r : Registry) (run : Executor) (record : Recorder) (routine : Routine) (e : Ref) :
    List (Nat × Region Nat) → State → List Event
  | [], _ => []
  | (_, g) :: rest, s =>
      selectsRecord record routine g e s ++
        match selects r run routine g e s with
        | .ok false t => selectRecord r run record routine e rest t
        | _ => []

/-- What the `finally` and `fault` blocks before the chosen handler do. -/
def unwindRecord (run : Executor) (record : Recorder) (routine : Routine) (chosen : Option Nat) :
    List (Nat × Region Nat) → State → List Event
  | [], _ => []
  | (i, g) :: rest, s =>
      if chosen = some i then []
      else if g.isUnwinding then
        match resetToMark g.stackMark s with
        | .ok _ t =>
            record routine g.handlerStart ⟨g.handlerStart, g.handlerEnd⟩ t ++
              match runUnwinding run routine g t with
              | .ok none u => unwindRecord run record routine chosen rest u
              | _ => []
        | .error _ _ => []
      else unwindRecord run record routine chosen rest s

mutual

/-- What an execution from `pc` on does. -/
def execRecord (r : Registry) (fuel : Nat) (routine : Routine) (pc : Nat) (span : Span)
    (s : State) : List Event :=
  match fuel with
  | 0 => []
  | fuel + 1 =>
      match routine.code[pc]? with
      | none => []
      | some i =>
          .started routine pc ::
            (stepRecord r (exec r fuel) (execRecord r fuel) routine i s ++
              match step r (caller r (exec r fuel)) routine i s with
              | .ok .next s => execRecord r fuel routine (pc + 1) span s
              | .ok (.jump landing) s => execRecord r fuel routine landing span s
              | .ok (.leave landing) s =>
                  leaveRecord (exec r fuel) (execRecord r fuel) routine pc landing s ++
                    match leave (exec r fuel) routine pc landing s with
                    | .ok none s => execRecord r fuel routine landing span s
                    | .ok (some (start, e)) s =>
                        dispatchRecord r fuel routine start e span s ++
                          match dispatch r fuel routine start e span s with
                          | .ok handler s => execRecord r fuel routine handler span s
                          | .error _ _ => []
                    | .error _ _ => []
              | .error (.thrown e) s =>
                  dispatchRecord r fuel routine pc e span s ++
                    match dispatch r fuel routine pc e span s with
                    | .ok handler s => execRecord r fuel routine handler span s
                    | .error _ _ => []
              | _ => [])
  termination_by structural fuel

/-- What the dispatch of an exception thrown at `pc` does. -/
def dispatchRecord (r : Registry) (fuel : Nat) (routine : Routine) (pc : Nat) (e : Ref)
    (span : Span) (s : State) : List Event :=
  match fuel with
  | 0 => []
  | fuel + 1 =>
      let regions := candidates routine pc span
      selectRecord r (exec r fuel) (execRecord r fuel) routine e regions s ++
        match select r (exec r fuel) routine e regions s with
        | .error _ _ => []
        | .ok chosen s =>
            unwindRecord (exec r fuel) (execRecord r fuel) routine (chosen.map (·.1)) regions s ++
              match unwind (exec r fuel) routine (chosen.map (·.1)) regions s with
              | .ok (some (start, replacement)) s =>
                  dispatchRecord r fuel routine start replacement span s
              | _ => []
  termination_by structural fuel

end

end Run

/-- What the invocation of a callable does. -/
def Machine.invokeRecord (budget : Nat) (r : Registry) (c : Callable) (args : List Value)
    (s : State) : List Event :=
  Run.callRecord r (Run.execRecord r budget) c.routine (c.captured ++ args) s

end Arbor
