/-
  The moments of a run.

  The trace of a run lists, in the order of time, the moments at which an
  instruction is looked up, in all calls and in all blocks, with the state found
  there.  It is read off the machine itself, and a position behind the end of the
  code is a moment as well.

  A `Logic` says what is claimed of the moments of a run and of the states around
  a stretch of it, for one instruction, one call and the small steps of exception
  dispatch; `Logic.exec` carries it over to whole executions.
-/
import Arbor.Proofs.Code.Closed
import Arbor.Proofs.Machine.Record
import Arbor.Proofs.HandlerStacks

set_option autoImplicit false

namespace Arbor

/-- A moment of a run: an instruction of a routine is looked up in a state. -/
structure Moment where
  routine : Routine
  pc : Nat
  state : State

namespace Run

/-! ## Traces -/

/-- The moments of an execution from a position on. -/
abbrev Tracer := Routine → Nat → Span → State → List Moment

/-- The moments of a called routine. -/
def callTrace (r : Registry) (trace : Tracer) (routine : Routine) (args : List Value)
    (s : State) : List Moment :=
  match entry? r routine args s with
  | some t => trace routine 0 ⟨0, routine.code.size⟩ t
  | none => []

/-- The moments of what an instruction calls. -/
def calleeTrace (r : Registry) (run : Executor) (trace : Tracer) (routine : Routine) (i : Instr)
    (s : State) : List Moment :=
  match callee r routine i s with
  | .ok (some (c, args)) t => c.log (callRoutine r run) (callTrace r trace) args t
  | _ => []

/-- The moments of the `finally` blocks that a jump from `pc` to `target` leaves. -/
def leaveRegionsTrace (run : Executor) (trace : Tracer) (routine : Routine) (pc target : Nat) :
    List (Region Nat) → State → List Moment
  | [], _ => []
  | g :: rest, s =>
      if g.isFinally && g.tryContains pc && !g.tryContains target then
        trace routine g.handlerStart ⟨g.handlerStart, g.handlerEnd⟩ s ++
          match runUnwinding run routine g s with
          | .ok none t => leaveRegionsTrace run trace routine pc target rest t
          | _ => []
      else leaveRegionsTrace run trace routine pc target rest s

/-- The moments of leaving protected regions. -/
def leaveTrace (run : Executor) (trace : Tracer) (routine : Routine) (pc target : Nat)
    (s : State) : List Moment :=
  match leaveHandlers routine pc target s with
  | .ok _ t => leaveRegionsTrace run trace routine pc target routine.regions t
  | .error _ _ => []

/-- The moments of asking a region whether it handles an exception. -/
def selectsTrace (trace : Tracer) (routine : Routine) (g : Region Nat) (e : Ref) (s : State) :
    List Moment :=
  match g.kind with
  | .filter start =>
      match (resetToMark g.stackMark >>= fun _ => push (.object e) : Run PUnit) s with
      | .ok _ t => trace routine start ⟨start, g.handlerStart⟩ t
      | .error _ _ => []
  | .catch _ | .finally | .fault => []

/-- The moments of the choice of a handler. -/
def selectTrace (r : Registry) (run : Executor) (trace : Tracer) (routine : Routine) (e : Ref) :
    List (Nat × Region Nat) → State → List Moment
  | [], _ => []
  | (_, g) :: rest, s =>
      selectsTrace trace routine g e s ++
        match selects r run routine g e s with
        | .ok false t => selectTrace r run trace routine e rest t
        | _ => []

/-- The moments of the `finally` and `fault` blocks before the chosen handler. -/
def unwindTrace (run : Executor) (trace : Tracer) (routine : Routine) (chosen : Option Nat) :
    List (Nat × Region Nat) → State → List Moment
  | [], _ => []
  | (i, g) :: rest, s =>
      if chosen = some i then []
      else if g.isUnwinding then
        match resetToMark g.stackMark s with
        | .ok _ t =>
            trace routine g.handlerStart ⟨g.handlerStart, g.handlerEnd⟩ t ++
              match runUnwinding run routine g t with
              | .ok none u => unwindTrace run trace routine chosen rest u
              | _ => []
        | .error _ _ => []
      else unwindTrace run trace routine chosen rest s

mutual

/-- The moments of an execution from `pc` on. -/
def execTrace (r : Registry) (fuel : Nat) (routine : Routine) (pc : Nat) (span : Span)
    (s : State) : List Moment :=
  match fuel with
  | 0 => []
  | fuel + 1 =>
      ⟨routine, pc, s⟩ ::
        match routine.code[pc]? with
        | none => []
        | some i =>
            calleeTrace r (exec r fuel) (execTrace r fuel) routine i s ++
              match step r (caller r (exec r fuel)) routine i s with
              | .ok .next s => execTrace r fuel routine (pc + 1) span s
              | .ok (.jump landing) s => execTrace r fuel routine landing span s
              | .ok (.leave landing) s =>
                  leaveTrace (exec r fuel) (execTrace r fuel) routine pc landing s ++
                    match leave (exec r fuel) routine pc landing s with
                    | .ok none s => execTrace r fuel routine landing span s
                    | .ok (some (start, e)) s =>
                        dispatchTrace r fuel routine start e span s ++
                          match dispatch r fuel routine start e span s with
                          | .ok handler s => execTrace r fuel routine handler span s
                          | .error _ _ => []
                    | .error _ _ => []
              | .error (.thrown e) s =>
                  dispatchTrace r fuel routine pc e span s ++
                    match dispatch r fuel routine pc e span s with
                    | .ok handler s => execTrace r fuel routine handler span s
                    | .error _ _ => []
              | _ => []
  termination_by structural fuel

/-- The moments of the dispatch of an exception thrown at `pc`. -/
def dispatchTrace (r : Registry) (fuel : Nat) (routine : Routine) (pc : Nat) (e : Ref)
    (span : Span) (s : State) : List Moment :=
  match fuel with
  | 0 => []
  | fuel + 1 =>
      let regions := candidates routine pc span
      selectTrace r (exec r fuel) (execTrace r fuel) routine e regions s ++
        match select r (exec r fuel) routine e regions s with
        | .error _ _ => []
        | .ok chosen s =>
            unwindTrace (exec r fuel) (execTrace r fuel) routine (chosen.map (·.1)) regions s ++
              match unwind (exec r fuel) routine (chosen.map (·.1)) regions s with
              | .ok (some (start, replacement)) s =>
                  dispatchTrace r fuel routine start replacement span s
              | _ => []
  termination_by structural fuel

end

/-! ## Logics of runs -/

/-- A change of the current call that leaves its arguments and locals alone and puts nothing but
exceptions on its stack. -/
structure Adjusts (change : Frame → Frame) : Prop where
  args : ∀ f, (change f).args = f.args
  locals : ∀ f, (change f).locals = f.locals
  stack : ∀ f, ∀ v ∈ (change f).stack, v ∈ f.stack ∨ ∃ e, v = .object e

theorem adjusts_stack {change : Frame → List Value}
    (h : ∀ f, ∀ v ∈ change f, v ∈ f.stack ∨ ∃ e, v = .object e) :
    Adjusts fun f => { f with stack := change f } :=
  ⟨fun _ => rfl, fun _ => rfl, h⟩

theorem adjusts_handling {handling : Frame → List (Nat × Ref)} {change : Frame → List Value}
    (h : ∀ f, ∀ v ∈ change f, v ∈ f.stack ∨ ∃ e, v = .object e) :
    Adjusts fun f => { f with handling := handling f, stack := change f } :=
  ⟨fun _ => rfl, fun _ => rfl, h⟩

theorem mem_of_mem_pushed {e : Ref} {stack : List Value} {v : Value} (hv : v ∈ .object e :: stack) :
    v ∈ stack ∨ ∃ e, v = .object e := by
  rcases List.mem_cons.mp hv with rfl | hv
  · exact .inr ⟨e, rfl⟩
  · exact .inl hv

/-- What is claimed of runs.  `Link s ms t` is claimed of the states around a stretch within a call
with the moments `ms`, `Across s ms t` of the states around a whole call. -/
structure Logic (r : Registry) where
  /-- What is presupposed of every moment. -/
  Given : Moment → Prop
  /-- What holds of every moment. -/
  At : Moment → Prop
  /-- What holds of the call of a routine wherever it can be interrupted or entered. -/
  Idle : Routine → State → Prop
  Link : State → List Moment → State → Prop
  Across : State → List Moment → State → Prop
  /-- The routine may be called with the arguments. -/
  Admits : Routine → List Value → State → Prop
  /-- What holds of a returned value. -/
  Result : Value → State → Prop
  refl : ∀ s, Link s [] s
  trans : ∀ {s t u : State} {ms ns : List Moment}, Link s ms t → Link t ns u → Link s (ms ++ ns) u
  /-- A call is refused. -/
  still : ∀ s, Across s [] s
  /-- A called routine starts. -/
  enter : ∀ {R : Routine} {args : List Value} {s t : State},
    Admits R args s → entry? r R args s = some t → Idle R t
  /-- One call comes behind another, or behind what a method of the host does itself. -/
  follow : ∀ {s t u : State} {ms ns : List Moment},
    Across s ms t → Across t ns u → Across s (ms ++ ns) u
  /-- A called routine has ended. -/
  exit : ∀ {R : Routine} {args : List Value} {s t u : State} {ms : List Moment},
    Admits R args s → entry? r R args s = some t → Link t ms u → Across s ms (popFrame u)
  /-- A called routine has returned a value. -/
  value : ∀ {R : Routine} {v : Value} {u : State}, Idle R u → Result v u → Result v (popFrame u)
  /-- Execution arrives at a position. -/
  arrive : ∀ {R : Routine} {pc : Nat} {s : State}, Idle R s → R.Entry pc → At ⟨R, pc, s⟩
  /-- Execution arrives behind the end. -/
  past : ∀ {R : Routine} {pc : Nat} {s : State}, At ⟨R, pc, s⟩ → R.code[pc]? = none →
    Link s [⟨R, pc, s⟩] s ∧ Idle R s
  /-- A small step of dispatch. -/
  adjust : ∀ {R : Routine} {change : Frame → Frame} {s : State}, Adjusts change → Idle R s →
    EndsIn (fun t => Link s [] t ∧ Idle R t) (modifyFrame change s)
  /-- An instruction calls a routine. -/
  asks : ∀ {R c : Routine} {pc : Nat} {s t : State} {i : Instr} {args : List Value},
    At ⟨R, pc, s⟩ → Given ⟨R, pc, s⟩ → R.code[pc]? = some i →
    callee r R i s = .ok (some (.routine c, args)) t → Admits c args t
  /-- An instruction calls a method of the host. -/
  hosts : ∀ {R : Routine} {f : Host} {pc : Nat} {s t : State} {i : Instr} {args : List Value},
    At ⟨R, pc, s⟩ → Given ⟨R, pc, s⟩ → R.code[pc]? = some i →
    callee r R i s = .ok (some (.host f, args)) t →
    (f args t).Proceeds (fun s t => Across s [] t) (fun s t => ∃ ms, Across s ms t) Admits Result t
  /-- An instruction is executed, given what the call does that it makes. -/
  step : ∀ {R : Routine} {pc : Nat} {s : State} {i : Instr} {call : Caller} {ms : List Moment},
    At ⟨R, pc, s⟩ → Given ⟨R, pc, s⟩ → R.code[pc]? = some i →
    (∀ c args t, callee r R i s = .ok (some (c, args)) t →
      EndsIn (Across t ms) (call c args t) ∧ ∀ v u, call c args t = .ok v u → Result v u) →
    ((∀ c args t, callee r R i s ≠ .ok (some (c, args)) t) → ms = []) →
    match Run.step r call R i s with
    | .ok .next t => Link s (⟨R, pc, s⟩ :: ms) t ∧ At ⟨R, pc + 1, t⟩
    | .ok (.jump landing) t => Link s (⟨R, pc, s⟩ :: ms) t ∧ Idle R t ∧ R.Entry landing
    | .ok (.leave landing) t => Link s (⟨R, pc, s⟩ :: ms) t ∧ Idle R t ∧ R.Entry landing
    | .ok (.ret v) t => Link s (⟨R, pc, s⟩ :: ms) t ∧ Idle R t ∧ Result v t
    | .ok .endFinally t => Link s (⟨R, pc, s⟩ :: ms) t ∧ Idle R t
    | .ok (.endFilter _) t => Link s (⟨R, pc, s⟩ :: ms) t ∧ Idle R t
    | .error (.halted _) t => Link s (⟨R, pc, s⟩ :: ms) t
    | .error _ t => Link s (⟨R, pc, s⟩ :: ms) t ∧ Idle R t

theorem mem_regions_of_mem_candidates {R : Routine} {pc : Nat} {span : Span} {x : Nat × Region Nat}
    (hx : x ∈ candidates R pc span) : x.2 ∈ R.regions :=
  List.mem_of_getElem? (Routine.mem_numbered.mp (mem_candidates.mp hx).1)

/-- The handler that an exception is dispatched to is one of the routine. -/
theorem entry_of_dispatch {r : Registry} {fuel : Nat} {R : Routine} {pc handler : Nat} {e : Ref}
    {span : Span} {s t : State} (h : dispatch r fuel R pc e span s = .ok handler t) :
    R.Entry handler := by
  induction fuel generalizing pc e s with
  | zero => cases h
  | succ fuel ih =>
      unfold dispatch at h
      dsimp only at h
      split at h
      · cases h
      · next chosen u hchosen =>
          split at h
          · cases h
          · exact ih h
          · split at h
            · cases h
            · next i g =>
                obtain ⟨_, _, -, h⟩ := ok_of_bind h
                obtain ⟨_, _, -, h⟩ := ok_of_bind h
                obtain ⟨_, _, -, h⟩ := ok_of_bind h
                cases h
                exact .handler (mem_regions_of_mem_candidates (mem_of_select hchosen))

namespace Logic

variable {r : Registry} (L : Logic r) {α β : Type} {R : Routine}

/-- How a stretch within a call ends: linked to its start, and idle unless the budget is used up. -/
def Rests (R : Routine) (s : State) (ms : List Moment) : EStateM.Result Trap State α → Prop
  | .ok _ t => L.Link s ms t ∧ L.Idle R t
  | .error (.halted _) t => L.Link s ms t
  | .error _ t => L.Link s ms t ∧ L.Idle R t

/-- How an execution ends: it rests, and a returned value is a result. -/
def Ends (R : Routine) (s : State) (ms : List Moment) (out : EStateM.Result Trap State Exit) : Prop :=
  L.Rests R s ms out ∧ ∀ v t, out = .ok (.returned v) t → L.Result v t

/-- What holds of a stretch within a call: of its moments up to the first one that is not as presupposed,
and of the whole if there is none. -/
def Covers : List Moment → Prop → Prop
  | [], claim => claim
  | m :: ms, claim => L.At m ∧ (L.Given m → Covers ms claim)

/-- A stretch within a call rests, if its moments are as presupposed. -/
def Goes (R : Routine) (s : State) (ms : List Moment) (out : EStateM.Result Trap State α) : Prop :=
  L.Covers ms (L.Rests R s ms out)

/-- An execution ends, if its moments are as presupposed. -/
def Finishes (R : Routine) (s : State) (ms : List Moment) (out : EStateM.Result Trap State Exit) :
    Prop :=
  L.Covers ms (L.Ends R s ms out)

variable {L}

theorem covers_nil {claim : Prop} (h : claim) : L.Covers [] claim := h

theorem covers_append {ms ns : List Moment} {first claim : Prop} (hfirst : L.Covers ms first)
    (h : first → L.Covers ns claim) : L.Covers (ms ++ ns) claim := by
  induction ms with
  | nil => exact h hfirst
  | cons m ms ih => exact ⟨hfirst.1, fun hgiven => ih (hfirst.2 hgiven)⟩

theorem Covers.imp {ms : List Moment} {first claim : Prop} (hfirst : L.Covers ms first)
    (h : first → claim) : L.Covers ms claim := by
  induction ms with
  | nil => exact h hfirst
  | cons m ms ih => exact ⟨hfirst.1, fun hgiven => ih (hfirst.2 hgiven)⟩

/-- What holds behind a stretch whose moments are as presupposed. -/
theorem Covers.behind {ms ns : List Moment} {claim : Prop} (h : L.Covers (ms ++ ns) claim)
    (hgiven : ∀ m ∈ ms, L.Given m) : L.Covers ns claim := by
  induction ms with
  | nil => exact h
  | cons m ms ih =>
      obtain ⟨hm, hms⟩ := List.forall_mem_cons.mp hgiven
      exact ih (h.2 hm) hms

/-- What holds of a stretch whose moments are as presupposed. -/
theorem Covers.holds {ms : List Moment} {claim : Prop} (h : L.Covers ms claim)
    (hgiven : ∀ m ∈ ms, L.Given m) : (∀ m ∈ ms, L.At m) ∧ claim := by
  induction ms with
  | nil => exact ⟨fun _ hm => absurd hm List.not_mem_nil, h⟩
  | cons m ms ih =>
      obtain ⟨hm, hms⟩ := List.forall_mem_cons.mp hgiven
      obtain ⟨hat, hclaim⟩ := ih (h.2 hm) hms
      exact ⟨List.forall_mem_cons.mpr ⟨h.1, hat⟩, hclaim⟩

theorem rests_of_link {s t : State} {ms ns : List Moment} {out : EStateM.Result Trap State α}
    (h : L.Link s ms t) (hout : L.Rests R t ns out) : L.Rests R s (ms ++ ns) out := by
  match out, hout with
  | .ok _ _, hout => exact ⟨L.trans h hout.1, hout.2⟩
  | .error (.halted _) _, hout => exact L.trans h hout
  | .error (.thrown _) _, hout => exact ⟨L.trans h hout.1, hout.2⟩
  | .error (.invalid _) _, hout => exact ⟨L.trans h hout.1, hout.2⟩

theorem ends_of_link {s t : State} {ms ns : List Moment} {out : EStateM.Result Trap State Exit}
    (h : L.Link s ms t) (hout : L.Ends R t ns out) : L.Ends R s (ms ++ ns) out :=
  ⟨rests_of_link h hout.1, hout.2⟩

theorem Rests.error {s t : State} {ms : List Moment} {e : Trap}
    (h : L.Rests R s ms (.error e t : EStateM.Result Trap State α)) :
    L.Rests R s ms (.error e t : EStateM.Result Trap State β) := by
  cases e <;> exact h

theorem Rests.endsIn {s : State} {ms : List Moment} {out : EStateM.Result Trap State α}
    (h : L.Rests R s ms out) : EndsIn (L.Link s ms) out := by
  match out, h with
  | .ok _ _, h => exact h.1
  | .error (.halted _) _, h => exact h
  | .error (.thrown _) _, h => exact h.1
  | .error (.invalid _) _, h => exact h.1

theorem rests_of_endsIn {s : State} {out : EStateM.Result Trap State α}
    (h : EndsIn (fun t => L.Link s [] t ∧ L.Idle R t) out) : L.Rests R s [] out := by
  match out, h with
  | .ok _ _, h => exact h
  | .error (.halted _) _, h => exact h.1
  | .error (.thrown _) _, h => exact h
  | .error (.invalid _) _, h => exact h

/-! ## Small steps of dispatch -/

theorem rests_modifyFrame {change : Frame → Frame} (hchange : Adjusts change) {s : State}
    (hs : L.Idle R s) : L.Rests R s [] (modifyFrame change s) :=
  rests_of_endsIn (L.adjust hchange hs)

/-- One small step after the other. -/
theorem rests_bind {x : Run α} {f : α → Run β} {s : State} (hx : L.Rests R s [] (x s))
    (hf : ∀ a t, L.Idle R t → L.Rests R t [] (f a t)) : L.Rests R s [] ((x >>= f) s) := by
  change L.Rests R s [] (EStateM.bind x f s)
  unfold EStateM.bind
  revert hx
  cases x s with
  | ok a t =>
      intro hx
      exact rests_of_link hx.1 (hf a t hx.2)
  | error e t =>
      intro hx
      exact hx.error

theorem rests_resetToMark {mark : Nat} {s : State} (hs : L.Idle R s) :
    L.Rests R s [] (resetToMark mark s) :=
  rests_modifyFrame (adjusts_stack fun _ _ hv => .inl (List.mem_of_mem_drop hv)) hs

theorem rests_push {e : Ref} {s : State} (hs : L.Idle R s) : L.Rests R s [] (push (.object e) s) :=
  rests_modifyFrame (adjusts_stack fun _ _ hv => mem_of_mem_pushed hv) hs

theorem rests_leaveHandlers {pc target : Nat} {s : State} (hs : L.Idle R s) :
    L.Rests R s [] (leaveHandlers R pc target s) :=
  rests_modifyFrame (adjusts_handling fun _ _ hv => .inl hv) hs

theorem rests_enterHandler {pc i : Nat} {g : Region Nat} {e : Ref} {s : State} (hs : L.Idle R s) :
    L.Rests R s [] (enterHandler R pc i g e s) := by
  refine rests_bind (rests_resetToMark hs) fun _ t ht => ?_
  refine rests_bind (rests_leaveHandlers ht) fun _ u hu => ?_
  refine rests_bind (rests_modifyFrame (adjusts_handling fun _ _ hv => ?_) hu)
    fun _ v hv => ⟨L.refl v, hv⟩
  exact mem_of_mem_pushed hv

theorem rests_catches {ty : Ty} {e : Ref} {s : State} (hs : L.Idle R s) :
    L.Rests R s [] (catches r ty e s) := by
  refine rests_of_endsIn (preserves_catches (P := fun t => L.Link s [] t ∧ L.Idle R t) r ty e s ?_)
  exact ⟨L.refl s, hs⟩

/-! ## Calls and blocks -/

variable {run : Executor} {trace : Tracer}

variable (L) in
/-- Executions with these moments are as the logic says. -/
def Runs (run : Executor) (trace : Tracer) : Prop :=
  ∀ R pc span s, L.At ⟨R, pc, s⟩ →
    L.Finishes R s (trace R pc span s) (run R pc span s)

/-- A call is as the logic says, and the value that it returns is a result. -/
theorem covers_call (h : L.Runs run trace) {args : List Value} {s : State} (hs : L.Admits R args s) :
    L.Covers (callTrace r trace R args s)
      (EndsIn (L.Across s (callTrace r trace R args s)) (callRoutine r run R args s) ∧
        ∀ v u, callRoutine r run R args s = .ok v u → L.Result v u) := by
  have hentry : ∀ t, entry? r R args s = some t → L.Idle R t := fun t => L.enter hs
  have hexit : ∀ t u ms, entry? r R args s = some t → L.Link t ms u →
      L.Across s ms (popFrame u) :=
    fun t u ms => L.exit hs
  revert hentry hexit
  unfold callTrace entry? callRoutine
  by_cases hdepth : maxCallDepth ≤ s.frames.length
  · simp only [if_pos hdepth]
    intro _ _
    exact covers_nil ⟨L.still s, by simp⟩
  by_cases hargs : args.length ≠ R.params.length
  · simp only [if_neg hdepth, if_pos hargs]
    intro _ _
    exact covers_nil ⟨L.still s, by simp⟩
  simp only [if_neg hdepth, if_neg hargs]
  cases R.locals.mapM r.zero with
  | error e =>
      intro _ _
      exact covers_nil ⟨L.still s, by simp⟩
  | ok locals =>
      intro hentry hexit
      have hidle := hentry _ rfl
      refine (h R 0 ⟨0, R.code.size⟩ _ (L.arrive hidle .start)).imp fun hends => ?_
      obtain ⟨hrests, hresult⟩ := hends
      have hlink := fun u ms => hexit _ u ms rfl
      revert hrests hresult
      dsimp only
      cases run R 0 ⟨0, R.code.size⟩ { s with frames := ⟨args.toArray, locals, [], []⟩ :: s.frames } with
      | ok exit u =>
          intro hrests hresult
          cases exit with
          | returned v =>
              refine ⟨hlink u _ hrests.1, fun w t hw => ?_⟩
              cases hw
              exact L.value hrests.2 (hresult v u rfl)
          | finallyDone => exact ⟨hlink u _ hrests.1, by simp⟩
          | filterDone verdict => exact ⟨hlink u _ hrests.1, by simp⟩
      | error e u =>
          intro hrests _
          cases e with
          | thrown e => exact ⟨hlink u _ hrests.1, by simp⟩
          | invalid d => exact ⟨hlink u _ hrests.1, by simp⟩
          | halted limit => exact ⟨hlink u _ hrests, by simp⟩

variable (L) in
/-- The call may be made. -/
def Allows : Callee → List Value → State → Prop
  | .routine R, args, s => L.Admits R args s
  | .host f, args, s =>
      (f args s).Proceeds (fun s t => L.Across s [] t) (fun s t => ∃ ms, L.Across s ms t) L.Admits L.Result s

/-- A method of the host is as the logic says if it proceeds as the logic asks. -/
theorem covers_host (h : L.Runs run trace) {method : HostRun} {s : State}
    (hmethod : method.Proceeds (fun s t => L.Across s [] t) (fun s t => ∃ ms, L.Across s ms t) L.Admits
      L.Result s) :
    L.Covers (method.log (callRoutine r run) (callTrace r trace))
      (EndsIn (L.Across s (method.log (callRoutine r run) (callTrace r trace)))
          (method.run (callRoutine r run)) ∧
        ∀ v u, method.run (callRoutine r run) = .ok v u → L.Result v u) := by
  induction method generalizing s with
  | done outcome => exact covers_nil ⟨endsIn_iff.mpr hmethod.1, hmethod.2⟩
  | call R args t resume ih =>
      obtain ⟨hown, hadmits, hrest⟩ := hmethod
      have hcall := covers_call h hadmits
      -- What comes behind the call is reached across the own step and the call.
      have hgoes : ∀ outcome : Outcome, callRoutine r run R args t = outcome →
          L.Covers (callTrace r trace R args t ++ (resume outcome).log (callRoutine r run) (callTrace r trace))
            (EndsIn (L.Across s (callTrace r trace R args t ++
                (resume outcome).log (callRoutine r run) (callTrace r trace)))
              ((resume outcome).run (callRoutine r run)) ∧
            ∀ v u, (resume outcome).run (callRoutine r run) = .ok v u → L.Result v u) := by
        rintro outcome rfl
        refine covers_append hcall fun ⟨hends, hresult⟩ => ?_
        have hacross := endsIn_iff.mp hends
        refine (ih _ (hrest _ ⟨_, hacross⟩ hresult)).imp fun hgone => ⟨hgone.1.imp fun u hu => ?_, hgone.2⟩
        have hall := L.follow hown (L.follow hacross hu)
        rwa [List.nil_append] at hall
      simp only [HostRun.log, HostRun.run]
      revert hcall hgoes
      cases callRoutine r run R args t with
      | ok v u => exact fun _ hgoes => hgoes _ rfl
      | error e u =>
          cases e with
          | thrown e | invalid d => exact fun _ hgoes => hgoes _ rfl
          | halted limit =>
              intro hcall _
              simp only [List.append_nil]
              refine hcall.imp fun hends => ⟨?_, fun _ _ hv => by cases hv⟩
              have hall := L.follow hown hends.1
              rwa [List.nil_append] at hall

/-- A call that may be made is as the logic says. -/
theorem covers_called (h : L.Runs run trace) {c : Callee} {args : List Value} {s : State}
    (hs : L.Allows c args s) :
    L.Covers (c.log (callRoutine r run) (callTrace r trace) args s)
      (EndsIn (L.Across s (c.log (callRoutine r run) (callTrace r trace) args s)) (caller r run c args s) ∧
        ∀ v u, caller r run c args s = .ok v u → L.Result v u) := by
  cases c with
  | routine R => exact covers_call h hs
  | host f => exact covers_host h hs

theorem goes_runUnwinding (h : L.Runs run trace) {g : Region Nat} (hg : g ∈ R.regions) {s : State}
    (hs : L.Idle R s) :
    L.Goes R s (trace R g.handlerStart ⟨g.handlerStart, g.handlerEnd⟩ s) (runUnwinding run R g s) := by
  refine (h R _ ⟨g.handlerStart, g.handlerEnd⟩ s (L.arrive hs (.handler hg))).imp fun hends => ?_
  have hrests := hends.1
  unfold runUnwinding
  revert hrests
  cases run R g.handlerStart ⟨g.handlerStart, g.handlerEnd⟩ s with
  | ok exit t => cases exit <;> exact id
  | error e t => cases e <;> exact id

/-- The `finally` blocks that a jump leaves. -/
theorem goes_leaveRegions (h : L.Runs run trace) {pc target : Nat} {regions : List (Region Nat)}
    (hregions : ∀ g ∈ regions, g ∈ R.regions) {s : State} (hs : L.Idle R s) :
    L.Goes R s (leaveRegionsTrace run trace R pc target regions s)
      (leaveRegions run R pc target regions s) := by
  induction regions generalizing s with
  | nil => exact covers_nil ⟨L.refl s, hs⟩
  | cons g regions ih =>
      obtain ⟨hg, hregions⟩ := List.forall_mem_cons.mp hregions
      unfold leaveRegionsTrace leaveRegions
      split
      · have hblock := goes_runUnwinding h hg hs
        change L.Goes R s _ (EStateM.bind _ _ s)
        unfold EStateM.bind
        revert hblock
        cases runUnwinding run R g s with
        | ok escaped t =>
            intro hblock
            refine covers_append hblock ?_
            rintro ⟨hlink, ht⟩
            cases escaped with
            | none => exact (ih hregions ht).imp (rests_of_link hlink)
            | some e => exact covers_nil (rests_of_link hlink ⟨L.refl t, ht⟩)
        | error e t =>
            intro hblock
            simp only [List.append_nil]
            exact hblock.imp Rests.error
      · exact ih hregions hs

/-- A jump out of protected regions. -/
theorem goes_leave (h : L.Runs run trace) (pc target : Nat) {s : State} (hs : L.Idle R s) :
    L.Goes R s (leaveTrace run trace R pc target s) (leave run R pc target s) := by
  have hhandlers : L.Rests R s [] (leaveHandlers R pc target s) := rests_leaveHandlers hs
  unfold leaveTrace
  change L.Goes R s _ (EStateM.bind _ _ s)
  unfold EStateM.bind
  revert hhandlers
  cases leaveHandlers R pc target s with
  | ok _ t =>
      intro hhandlers
      exact (goes_leaveRegions h (fun _ hg => hg) hhandlers.2).imp (rests_of_link hhandlers.1)
  | error e t =>
      intro hhandlers
      exact covers_nil hhandlers.error

/-! ## The choice of a handler -/

/-- A filter block. -/
theorem goes_runFilter (h : L.Runs run trace) {g : Region Nat} (hg : g ∈ R.regions) {start : Nat}
    (hkind : g.kind = .filter start) {e : Ref} {s : State} (hs : L.Idle R s) :
    L.Goes R s (selectsTrace trace R g e s) (runFilter run R g start e s) := by
  have hentry : L.Rests R s []
      ((resetToMark g.stackMark >>= fun _ => push (.object e) : Run PUnit) s) :=
    rests_bind (rests_resetToMark hs) fun _ _ ht => rests_push ht
  unfold selectsTrace runFilter
  rw [hkind, ← bind_assoc]
  change L.Goes R s _ (EStateM.bind _ _ s)
  unfold EStateM.bind
  dsimp only
  revert hentry
  cases (resetToMark g.stackMark >>= fun _ => push (.object e) : Run PUnit) s with
  | error e t =>
      intro hentry
      exact covers_nil hentry.error
  | ok _ t =>
      intro hentry
      dsimp only
      refine (h R start ⟨start, g.handlerStart⟩ t (L.arrive hentry.2 (.filter hg hkind))).imp
        fun hends => ?_
      refine rests_of_link hentry.1 ?_
      have hrests := hends.1
      -- Whatever the verdict, the stack is cut once more.
      have hcut : ∀ (verdict : Bool) (u : State),
          L.Link t (trace R start ⟨start, g.handlerStart⟩ t) u ∧ L.Idle R u →
          L.Rests R t (trace R start ⟨start, g.handlerStart⟩ t)
            ((resetToMark g.stackMark >>= fun _ => pure verdict : Run Bool) u) := by
        rintro verdict u ⟨hlink, hu⟩
        have hreset : L.Rests R u [] ((resetToMark g.stackMark >>= fun _ => pure verdict : Run Bool) u) :=
          rests_bind (rests_resetToMark hu) fun _ v hv => ⟨L.refl v, hv⟩
        simpa only [List.append_nil] using rests_of_link hlink hreset
      change L.Rests R t _ (EStateM.bind _ _ t)
      unfold EStateM.bind
      dsimp only
      revert hrests
      cases run R start ⟨start, g.handlerStart⟩ t with
      | ok exit u =>
          intro hrests
          cases exit with
          | filterDone verdict => exact hcut verdict u hrests
          | returned v => exact hcut false u hrests
          | finallyDone => exact hcut false u hrests
      | error trap u =>
          intro hrests
          cases trap with
          | halted limit => exact hrests
          | thrown e => exact hcut false u hrests
          | invalid d => exact hcut false u hrests

/-- A region is asked whether it handles an exception. -/
theorem goes_selects (h : L.Runs run trace) {g : Region Nat} (hg : g ∈ R.regions) {e : Ref}
    {s : State} (hs : L.Idle R s) :
    L.Goes R s (selectsTrace trace R g e s) (selects r run R g e s) := by
  cases hkind : g.kind with
  | filter start =>
      have hfilter := goes_runFilter h hg hkind (e := e) hs
      simpa only [selects, hkind] using hfilter
  | «catch» ty =>
      simp only [selects, selectsTrace, hkind]
      exact covers_nil (rests_catches hs)
  | «finally» | fault =>
      simp only [selects, selectsTrace, hkind]
      exact covers_nil ⟨L.refl s, hs⟩

/-- The search for a handler. -/
theorem goes_select (h : L.Runs run trace) {e : Ref} {regions : List (Nat × Region Nat)}
    (hregions : ∀ x ∈ regions, x.2 ∈ R.regions) {s : State} (hs : L.Idle R s) :
    L.Goes R s (selectTrace r run trace R e regions s) (select r run R e regions s) := by
  induction regions generalizing s with
  | nil => exact covers_nil ⟨L.refl s, hs⟩
  | cons head regions ih =>
      obtain ⟨i, g⟩ := head
      obtain ⟨hg, hregions⟩ := List.forall_mem_cons.mp hregions
      unfold selectTrace select
      have hselects := goes_selects h hg (e := e) hs
      change L.Goes R s _ (EStateM.bind _ _ s)
      unfold EStateM.bind
      revert hselects
      cases selects r run R g e s with
      | ok selected t =>
          intro hselects
          refine covers_append hselects ?_
          rintro ⟨hlink, ht⟩
          cases selected with
          | false => exact (ih hregions ht).imp (rests_of_link hlink)
          | true => exact covers_nil (rests_of_link hlink ⟨L.refl t, ht⟩)
      | error e t =>
          intro hselects
          simp only [List.append_nil]
          exact hselects.imp Rests.error

/-- The blocks on the way out. -/
theorem goes_unwind (h : L.Runs run trace) (chosen : Option Nat)
    {regions : List (Nat × Region Nat)} (hregions : ∀ x ∈ regions, x.2 ∈ R.regions) {s : State}
    (hs : L.Idle R s) :
    L.Goes R s (unwindTrace run trace R chosen regions s) (unwind run R chosen regions s) := by
  induction regions generalizing s with
  | nil => exact covers_nil ⟨L.refl s, hs⟩
  | cons head regions ih =>
      obtain ⟨i, g⟩ := head
      obtain ⟨hg, hregions⟩ := List.forall_mem_cons.mp hregions
      unfold unwindTrace unwind
      split
      · exact covers_nil ⟨L.refl s, hs⟩
      split
      · have hreset : L.Rests R s [] (resetToMark g.stackMark s) := rests_resetToMark hs
        change L.Goes R s _ (EStateM.bind _ _ s)
        unfold EStateM.bind
        revert hreset
        cases resetToMark g.stackMark s with
        | error e t =>
            intro hreset
            exact covers_nil hreset.error
        | ok _ t =>
            intro hreset
            have hblock := goes_runUnwinding h hg hreset.2
            change L.Goes R s _ (EStateM.bind _ _ t)
            unfold EStateM.bind
            dsimp only
            revert hblock
            cases runUnwinding run R g t with
            | ok escaped u =>
                intro hblock
                refine covers_append hblock ?_
                rintro ⟨hlink, hu⟩
                have hstretch := L.trans hreset.1 hlink
                cases escaped with
                | none => exact (ih hregions hu).imp (rests_of_link hstretch)
                | some e => exact covers_nil (rests_of_link hstretch ⟨L.refl u, hu⟩)
            | error e u =>
                intro hblock
                simp only [List.append_nil]
                exact hblock.imp fun hrests => rests_of_link hreset.1 hrests.error
      · exact ih hregions hs

/-! ## Executions -/

variable (L) in
/-- The dispatch of exceptions is as the logic says. -/
def Dispatches (fuel : Nat) : Prop :=
  ∀ R pc e span s, L.Idle R s →
    L.Goes R s (dispatchTrace r fuel R pc e span s) (dispatch r fuel R pc e span s)

/-- What goes on behind the dispatch of an exception. -/
theorem finishes_handled {fuel pc : Nat} {e : Ref} {span : Span} {s : State}
    (hexec : L.Runs (exec r fuel) (execTrace r fuel)) (hdispatch : L.Dispatches fuel)
    (hs : L.Idle R s) :
    L.Finishes R s
      (dispatchTrace r fuel R pc e span s ++
        match dispatch r fuel R pc e span s with
        | .ok handler s => execTrace r fuel R handler span s
        | .error _ _ => [])
      (match dispatch r fuel R pc e span s with
        | .ok handler s => exec r fuel R handler span s
        | .error t s => .error t s) := by
  have hgoes := hdispatch R pc e span s hs
  revert hgoes
  cases hhandler : dispatch r fuel R pc e span s with
  | ok handler t =>
      intro hgoes
      refine covers_append hgoes ?_
      rintro ⟨hlink, ht⟩
      exact (hexec R handler span t (L.arrive ht (entry_of_dispatch hhandler))).imp
        (ends_of_link hlink)
  | error e t =>
      intro hgoes
      simp only [List.append_nil]
      exact hgoes.imp fun hrests => ⟨hrests.error, by simp⟩

/-- What goes on behind an instruction that leaves protected regions. -/
theorem finishes_left {fuel pc landing : Nat} {span : Span} {s : State}
    (hexec : L.Runs (exec r fuel) (execTrace r fuel)) (hdispatch : L.Dispatches fuel)
    (hentry : R.Entry landing) (hs : L.Idle R s) :
    L.Finishes R s
      (leaveTrace (exec r fuel) (execTrace r fuel) R pc landing s ++
        match leave (exec r fuel) R pc landing s with
        | .ok none s => execTrace r fuel R landing span s
        | .ok (some (start, e)) s =>
            dispatchTrace r fuel R start e span s ++
              match dispatch r fuel R start e span s with
              | .ok handler s => execTrace r fuel R handler span s
              | .error _ _ => []
        | .error _ _ => [])
      (match leave (exec r fuel) R pc landing s with
        | .ok none s => exec r fuel R landing span s
        | .ok (some (start, e)) s =>
            match dispatch r fuel R start e span s with
            | .ok handler s => exec r fuel R handler span s
            | .error t s => .error t s
        | .error t s => .error t s) := by
  have hleave := goes_leave hexec pc landing hs
  revert hleave
  cases leave (exec r fuel) R pc landing s with
  | ok escaped t =>
      intro hleave
      refine covers_append hleave ?_
      rintro ⟨hlink, ht⟩
      cases escaped with
      | none => exact (hexec R landing span t (L.arrive ht hentry)).imp (ends_of_link hlink)
      | some replaced =>
          obtain ⟨start, e⟩ := replaced
          exact (finishes_handled hexec hdispatch ht).imp (ends_of_link hlink)
  | error e t =>
      intro hleave
      simp only [List.append_nil]
      exact hleave.imp fun hrests => ⟨hrests.error, by simp⟩

/-- The dispatch of an exception, within one unit of budget more. -/
theorem dispatches_succ {fuel : Nat} (hexec : L.Runs (exec r fuel) (execTrace r fuel))
    (hdispatch : L.Dispatches fuel) : L.Dispatches (fuel + 1) := by
  intro R pc e span s hs
  have hregions : ∀ x ∈ candidates R pc span, x.2 ∈ R.regions :=
    fun x hx => mem_regions_of_mem_candidates hx
  have hselect := goes_select hexec (e := e) hregions hs
  unfold dispatchTrace dispatch
  dsimp only
  revert hselect
  cases select r (exec r fuel) R e (candidates R pc span) s with
  | error trap t =>
      intro hselect
      simp only [List.append_nil]
      exact hselect.imp Rests.error
  | ok chosen t =>
      intro hselect
      refine covers_append hselect ?_
      rintro ⟨hlink, ht⟩
      have hunwind := goes_unwind hexec (chosen.map (·.1)) hregions ht
      dsimp only
      revert hunwind
      cases unwind (exec r fuel) R (chosen.map (·.1)) (candidates R pc span) t with
      | error trap u =>
          intro hunwind
          simp only [List.append_nil]
          exact hunwind.imp fun hrests => rests_of_link hlink hrests.error
      | ok escaped u =>
          intro hunwind
          refine covers_append hunwind ?_
          rintro ⟨hlink', hu⟩
          have hstretch := L.trans hlink hlink'
          rw [← List.append_assoc]
          cases escaped with
          | some replaced =>
              obtain ⟨start, replacement⟩ := replaced
              exact (hdispatch R start replacement span u hu).imp (rests_of_link hstretch)
          | none =>
              cases chosen with
              | none => exact covers_nil (rests_of_link hstretch ⟨L.refl u, hu⟩)
              | some x => exact covers_nil (rests_of_link hstretch (rests_enterHandler hu))

/-- What an instruction calls. -/
theorem covers_callee (h : L.Runs run trace) {pc : Nat} {s : State} {i : Instr}
    (hs : L.At ⟨R, pc, s⟩) (hmoment : L.Given ⟨R, pc, s⟩) (hcode : R.code[pc]? = some i) :
    L.Covers (calleeTrace r run trace R i s)
      ((∀ c args t, callee r R i s = .ok (some (c, args)) t →
        EndsIn (L.Across t (calleeTrace r run trace R i s)) (caller r run c args t) ∧
          ∀ v u, caller r run c args t = .ok v u → L.Result v u) ∧
      ((∀ c args t, callee r R i s ≠ .ok (some (c, args)) t) → calleeTrace r run trace R i s = [])) := by
  unfold calleeTrace
  split
  · next c args t hcallee =>
      have hallows : L.Allows c args t := by
        cases c with
        | routine c => exact L.asks hs hmoment hcode hcallee
        | host f => exact L.hosts hs hmoment hcode hcallee
      refine (covers_called h hallows).imp fun hcall => ?_
      refine ⟨fun c' args' t' hcallee' => ?_, fun hnone => absurd hcallee (hnone c args t)⟩
      cases hcallee.symm.trans hcallee'
      exact hcall
  · next hnone =>
      exact covers_nil ⟨fun c args t hcallee => absurd hcallee (hnone c args t), fun _ => rfl⟩

/-- An execution, within one unit of budget more. -/
theorem runs_succ {fuel : Nat} (hexec : L.Runs (exec r fuel) (execTrace r fuel))
    (hdispatch : L.Dispatches fuel) :
    L.Runs (exec r (fuel + 1)) (execTrace r (fuel + 1)) := by
  intro R pc span s hs
  unfold execTrace exec
  refine ⟨hs, fun hmoment => ?_⟩
  cases hcode : R.code[pc]? with
  | none => exact covers_nil ⟨L.past hs hcode, by simp⟩
  | some i =>
      refine covers_append (covers_callee hexec hs hmoment hcode) ?_
      rintro ⟨hcall, hnone⟩
      have hstep := L.step hs hmoment hcode hcall hnone
      dsimp only
      rw [← List.cons_append]
      revert hstep
      cases Run.step r (caller r (exec r fuel)) R i s with
      | ok flow t =>
          cases flow with
          | next =>
              rintro ⟨hlink, ht⟩
              exact (hexec R (pc + 1) span t ht).imp (ends_of_link hlink)
          | jump landing =>
              rintro ⟨hlink, ht, hentry⟩
              exact (hexec R landing span t (L.arrive ht hentry)).imp (ends_of_link hlink)
          | leave landing =>
              rintro ⟨hlink, ht, hentry⟩
              exact (finishes_left hexec hdispatch hentry ht).imp (ends_of_link hlink)
          | ret v =>
              rintro ⟨hlink, ht, hv⟩
              refine covers_nil (ends_of_link hlink ⟨⟨L.refl t, ht⟩, ?_⟩)
              intro w u hw
              cases hw
              exact hv
          | endFinally =>
              rintro ⟨hlink, ht⟩
              exact covers_nil (ends_of_link hlink ⟨⟨L.refl t, ht⟩, by simp⟩)
          | endFilter verdict =>
              rintro ⟨hlink, ht⟩
              exact covers_nil (ends_of_link hlink ⟨⟨L.refl t, ht⟩, by simp⟩)
      | error e t =>
          cases e with
          | thrown e =>
              rintro ⟨hlink, ht⟩
              exact (finishes_handled hexec hdispatch ht).imp (ends_of_link hlink)
          | invalid d =>
              rintro ⟨hlink, ht⟩
              exact covers_nil (ends_of_link hlink ⟨⟨L.refl t, ht⟩, by simp⟩)
          | halted limit =>
              intro hlink
              exact covers_nil (ends_of_link hlink ⟨L.refl t, by simp⟩)

/-- Executions and dispatches are as the logic says, within every budget. -/
theorem runs_exec (L : Logic r) (fuel : Nat) :
    L.Runs (exec r fuel) (execTrace r fuel) ∧ L.Dispatches fuel := by
  induction fuel with
  | zero =>
      refine ⟨fun R pc span s _ => ?_, fun R pc e span s _ => ?_⟩
      · exact covers_nil ⟨L.refl s, fun _ _ h => by cases h⟩
      · exact covers_nil (L.refl s)
  | succ fuel ih =>
      obtain ⟨hexec, hdispatch⟩ := ih
      exact ⟨runs_succ hexec hdispatch, dispatches_succ hexec hdispatch⟩

/-- A call within a budget is as the logic says. -/
theorem covers_run_call (L : Logic r) (fuel : Nat) {c : Callee} {args : List Value} {s : State}
    (hs : L.Allows c args s) :
    L.Covers (c.log (callRoutine r (exec r fuel)) (callTrace r (execTrace r fuel)) args s)
      (EndsIn (L.Across s (c.log (callRoutine r (exec r fuel)) (callTrace r (execTrace r fuel)) args s))
          (call r fuel c args s) ∧
        ∀ v u, call r fuel c args s = .ok v u → L.Result v u) :=
  covers_called (runs_exec L fuel).1 hs

end Logic

end Run

end Arbor
