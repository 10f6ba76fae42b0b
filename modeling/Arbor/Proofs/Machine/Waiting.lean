/-
  What waits for a call.

  A call that waits can have its locals and arguments assigned to through addresses,
  but its evaluation stack is its own.  So a call of a method takes exactly the
  operands of its signature off the stack, and adds at most its result.

  A local to which no value leads is assigned to by code of its own call alone, and
  only by code that names it.  So it waits for whatever other code is run.
-/
import Arbor.Proofs.Machine.Elements
import Arbor.Proofs.Machine.HiddenTables
import Arbor.Proofs.Machine.Locations
import Arbor.Proofs.Machine.Passages

set_option autoImplicit false

namespace Arbor

/-- What a call waits with: its evaluation stack, the exceptions that its handlers handle, and as many
arguments and locals as it has. -/
structure Waiting where
  stack : List Value
  handling : List (Nat × Ref)
  extent : Nat × Nat

/-- What a call waits with. -/
def Frame.waiting (f : Frame) : Waiting := ⟨f.stack, f.handling, f.extent⟩

/-- What the active calls wait with, innermost first. -/
def State.waiting (s : State) : List Waiting := s.frames.map Frame.waiting

/-- All active calls wait with the same. -/
def State.SameWaiting (s t : State) : Prop := t.waiting = s.waiting

namespace Run

theorem waiting_eq {f g : Frame} (hextent : g.extent = f.extent) (hstack : g.stack = f.stack)
    (hhandling : g.handling = f.handling) : g.waiting = f.waiting := by
  rw [Frame.waiting, hextent, hstack, hhandling, Frame.waiting]

/-- Everything may be stored: all calls wait with what they waited with. -/
def Storing.waiting (r : Registry) (W : List Waiting) : Storing r :=
  .ofFrames r (·.map Frame.waiting = W) fun hs₀ hs hf hextent hstack hhandling =>
    map_setFrame hs hs₀ hf (waiting_eq hextent hstack hhandling)

/-- A call other than the innermost is replaced by one that waits with the same, or the innermost by
any. -/
theorem map_tail_setFrame {frames₀ frames : List Frame} {k n : Nat} {f g : Frame}
    {W : List Waiting}
    (h₀ : frames₀.length = n ∧ frames₀.tail.map Frame.waiting = W)
    (h : frames.length = n ∧ frames.tail.map Frame.waiting = W) (hf : frame? frames₀ k = some f)
    (hg : g.waiting = f.waiting) :
    (setFrame frames k g).length = n ∧ (setFrame frames k g).tail.map Frame.waiting = W := by
  obtain ⟨place, hplace, hf⟩ := Option.bind_eq_some_iff.mp hf
  have hlength : frames.length = frames₀.length := h.1.trans h₀.1.symm
  unfold setFrame framePlace? at *
  rw [hlength, hplace]
  dsimp only
  refine ⟨by rw [List.length_set, h.1], ?_⟩
  cases frames with
  | nil => exact h.2
  | cons first rest =>
      cases frames₀ with
      | nil => cases hf
      | cons first₀ rest₀ =>
          simp only [List.tail_cons] at h h₀ ⊢
          cases place with
          | zero => exact h.2
          | succ place =>
              have hat : W[place]? = some g.waiting := by
                rw [← h₀.2, List.getElem?_map, ← List.getElem?_cons_succ (a := first₀), hf, hg]
                rfl
              obtain ⟨_, hat⟩ := List.getElem?_eq_some_iff.mp hat
              rw [List.set_cons_succ, List.tail_cons, List.map_set, h.2, ← hat, List.set_getElem_self]

/-- Everything may be stored: all calls but the innermost wait with what they waited with. -/
def Keeping.outer (r : Registry) (n : Nat) (W : List Waiting) : Keeping r where
  toStoring := .ofFrames r (fun frames => frames.length = n ∧ frames.tail.map Frame.waiting = W)
    fun hs₀ hs hf hextent hstack hhandling =>
      map_tail_setFrame hs₀ hs hf (waiting_eq hextent hstack hhandling)
  stack _ _ v _ := v.within_all
  setStack {s _ _ _} hs hframes _ := by
    change s.frames.length = n ∧ _ at hs
    rw [hframes] at hs
    exact hs

theorem Keeping.plain_outer (r : Registry) (n : Nat) (W : List Waiting)
    (R : Routine) (i : Instr) : (Keeping.outer r n W).Plain R i :=
  ⟨fun _ _ => trivial, fun _ _ => trivial, fun _ _ => trivial, fun _ _ _ _ => trivial,
    fun _ _ _ _ _ _ => trivial⟩

/-- Within a call the calls around it wait with what they waited with. -/
def State.AroundSame (s t : State) : Prop :=
  t.frames.length = s.frames.length ∧ t.frames.tail.map Frame.waiting = s.frames.tail.map Frame.waiting

theorem AroundSame.of_waiting {s t : State} (h : t.waiting = s.waiting) : State.AroundSame s t := by
  have hlength := congrArg List.length h
  have htail := congrArg List.tail h
  simp only [State.waiting, List.length_map, ← List.map_tail] at hlength htail
  exact ⟨hlength, htail⟩

/-- Calls of all routines leave what the calls around them wait with, if the host does. -/
def Logic.waiting (r : Registry) (hhosts : r.HostsKeep State.SameWaiting) : Logic r where
  Given _ := True
  At _ := True
  Idle _ _ := True
  Link s _ t := State.AroundSame s t
  Across s _ t := State.SameWaiting s t
  Admits _ _ _ := True
  Result _ _ := True
  refl _ := ⟨rfl, rfl⟩
  trans h k := ⟨k.1.trans h.1, k.2.trans h.2⟩
  still _ := rfl
  follow h k := k.trans h
  enter _ _ := trivial
  exit {_ _ s t u _} _ h k := by
    unfold entry? at h
    split at h
    · cases h
    · split at h
      · cases h
      · split at h
        · cases h
        · cases h
          exact k.2
  value _ _ := trivial
  arrive _ _ := trivial
  past _ _ := ⟨⟨rfl, rfl⟩, trivial⟩
  adjust {_ change s} _ _ := by
    unfold modifyFrame
    cases hframes : s.frames with
    | nil => exact ⟨⟨rfl, rfl⟩, trivial⟩
    | cons f rest => exact ⟨⟨by rw [hframes]; rfl, by rw [hframes]; rfl⟩, trivial⟩
  asks _ _ _ _ := trivial
  hosts _ _ _ hcallee :=
    (hhosts _ (mem_hosts_of_callee hcallee) _ _).imp (fun _ _ h => h) (fun _ _ ⟨_, h⟩ => h) fun _ _ _ h => h
  step {R pc s i call ms} _ _ _ hcall _ := by
    let K := Keeping.outer r s.frames.length (s.frames.tail.map Frame.waiting)
    have hstep : K.After (K.Leads R i) (Run.step r call R i s) := by
      refine Keeping.step_at (Keeping.plain_outer _ _ _ R i) ⟨rfl, rfl⟩ fun c args t hcallee ht _ => ?_
      have hcall := (hcall c args t hcallee).1
      revert hcall
      cases call c args t with
      | ok v u =>
          intro hu
          obtain ⟨hlength, htail⟩ := AroundSame.of_waiting hu
          exact ⟨⟨hlength.trans ht.1, htail.trans ht.2⟩, v.within_all⟩
      | error e u =>
          intro hu
          obtain ⟨hlength, htail⟩ := AroundSame.of_waiting hu
          exact ⟨hlength.trans ht.1, htail.trans ht.2⟩
    revert hstep
    cases Run.step r call R i s with
    | ok flow t =>
        intro ⟨ht, hleads⟩
        cases flow with
        | next => exact ⟨ht, trivial⟩
        | jump landing | leave landing =>
            obtain ⟨l, _, hl⟩ := hleads
            exact ⟨ht, trivial, .label hl⟩
        | ret v => exact ⟨ht, trivial, trivial⟩
        | endFinally => exact ⟨ht, trivial⟩
        | endFilter verdict => exact ⟨ht, trivial⟩
    | error e t =>
        intro ht
        cases e with
        | halted limit => exact ht
        | thrown e => exact ⟨ht, trivial⟩
        | invalid d => exact ⟨ht, trivial⟩

section

variable {r : Registry} (hhosts : r.HostsKeep State.SameWaiting) {fuel : Nat}

include hhosts in
/-- A call leaves what all other calls wait with, whatever its outcome. -/
theorem waiting_call {c : Callee} (hc : r.Provides c) (args : List Value) (s : State) :
    EndsIn (State.SameWaiting s) (call r fuel c args s) := by
  have hallows : (Logic.waiting r hhosts).Allows c args s := by
    cases c with
    | routine R => trivial
    | host f => exact (hhosts f hc args s).imp (fun _ _ h => h) (fun _ _ ⟨_, h⟩ => h) fun _ _ _ h => h
  exact (((Logic.waiting r hhosts).covers_run_call fuel hallows).holds fun _ _ => trivial).2.1

include hhosts in
/-- A call of a method leaves what all calls wait with, whatever its outcome. -/
theorem waiting_callMethod (m : MethodRef) (args : List Value) (s : State) :
    EndsIn (State.SameWaiting s) (callMethod r (call r fuel) m args s) := by
  let K := Storing.waiting r s.waiting
  have hserves : K.Serves (call r fuel) :=
    .of_endsIn rfl fun _ args s hc hs => (waiting_call hhosts hc args s).imp fun _ ht => ht.trans hs
  have hkeeps : K.Ensures (Run.callMethod r (call r fuel) m args) K.Held :=
    Keeping.callMethod hserves fun v _ => v.within_all
  exact hkeeps.endsIn rfl

end

variable {r : Registry} {R : Routine}

/-- The calls around a call wait with the same. -/
structure Around.Same (a b : Around) : Prop where
  handling : b.handling = a.handling
  outer : b.outer.map Frame.waiting = a.outer.map Frame.waiting

/-- A call of a method that returns takes the operands of its signature off the stack and adds its
result, if it has one.  What lies below them stays, and so does what the calls around wait with. -/
theorem Steps.call_ok (hhosts : r.HostsKeep State.SameWaiting) {m : MethodRef} {sig : Signature}
    (hsig : r.signature m = .ok sig) {before : Memory} {a : Around} {stack : List Value} {flow : Flow} {t : State}
    (h : Steps r R (.call m) (before.state a stack) (.ok flow t)) :
    flow = .next ∧ sig.arity ≤ stack.length ∧ ∃ (after : Memory) (b : Around) (v : Value),
      Around.Same a b ∧ after.locals.size = before.locals.size ∧
      t = after.state b (if sig.ret.isVoid then stack.drop sig.arity else v :: stack.drop sig.arity) := by
  obtain ⟨fuel, h⟩ := h
  have h := h fuel (Nat.le_refl _)
  obtain ⟨sig', s₁, hlookup, h⟩ := ok_of_bind (x := ofLookup (r.signature m)) h
  obtain ⟨hfound, rfl⟩ := ofLookup_eq_ok hlookup
  obtain rfl := Except.ok.inj (hsig.symm.trans hfound)
  obtain ⟨args, s₂, hpop, h⟩ := ok_of_bind (x := popN sig.arity) h
  obtain ⟨v, s₃, hcall, h⟩ := ok_of_bind (x := callMethod r (call r fuel) m args) h
  have harity : sig.arity ≤ stack.length ∧ s₂ = before.state a (stack.drop sig.arity) := by
    unfold popN Memory.state at hpop
    dsimp only at hpop
    split at hpop
    · cases hpop
    · cases hpop
      exact ⟨by omega, rfl⟩
  obtain ⟨harity, rfl⟩ := harity
  have hwaiting : EndsIn (State.SameWaiting (before.state a (stack.drop sig.arity)))
      (callMethod r (call r fuel) m args (before.state a (stack.drop sig.arity))) :=
    waiting_callMethod hhosts m args _
  rw [hcall] at hwaiting
  obtain ⟨f, rest, hframes, hf, hrest⟩ := List.map_eq_cons_iff.mp
    (show s₃.frames.map Frame.waiting = _ :: a.outer.map Frame.waiting from hwaiting)
  obtain ⟨heap, frames, statics⟩ := s₃
  obtain ⟨fargs, flocals, fstack, fhandling⟩ := f
  obtain rfl : frames = _ := hframes
  simp only [Frame.waiting, Frame.extent, Waiting.mk.injEq, Prod.mk.injEq] at hf
  obtain ⟨rfl, rfl, -, hlocals⟩ := hf
  refine ⟨?_, harity, ⟨heap, statics, fargs, flocals⟩, ⟨a.handling, rest⟩, v, ⟨rfl, hrest⟩, hlocals, ?_⟩
  · cases hvoid : sig.ret.isVoid <;>
    · rw [hvoid] at h
      cases h
      rfl
  · cases hvoid : sig.ret.isVoid <;>
    · rw [hvoid] at h
      cases h
      rfl

end Run

/-! ## Locals that nothing leads to -/

/-- References to everything but one local of a call. -/
def Reach.sparing (call slot : Nat) : Reach :=
  ⟨fun _ => True, fun _ => True, fun _ _ => True, fun k n => ¬ (k = call ∧ n = slot)⟩

/-- The values of a call are within the bounds. -/
structure Frame.Within (B : Reach) (f : Frame) : Prop where
  args : ∀ v ∈ f.args, v.Within B
  locals : ∀ v ∈ f.locals, v.Within B
  stack : ∀ v ∈ f.stack, v.Within B

/-- All values in the state are within the bounds. -/
structure State.Within (B : Reach) (s : State) : Prop where
  frames : ∀ f ∈ s.frames, f.Within B
  statics : ∀ f v, s.statics.get? f = some v → v.Within B
  fields : ∀ (ref : Ref) (c : ObjectCell), s.heap.objects[ref]? = some c → ∀ v ∈ c.fields, v.Within B
  elems : ∀ (ref : Ref) (c : ArrayCell), s.heap.arrays[ref]? = some c → ∀ v ∈ c.data, v.Within B
  items : ∀ (ref : Ref) (c : ListCell), s.heap.lists[ref]? = some c → ∀ v ∈ c.items, v.Within B
  captured : ∀ (ref : Ref) (c : Callable), s.heap.functions[ref]? = some c → ∀ v ∈ c.captured, v.Within B

/-- A local of a call has the value, and nothing leads to it. -/
structure State.Spared (call slot : Nat) (w : Option Value) (s : State) : Prop where
  value : ∃ f, Run.frame? s.frames call = some f ∧ f.locals[slot]? = w
  within : s.Within (.sparing call slot)

namespace Run

variable {d k : Nat} {w : Option Value}

theorem mem_of_frame? {frames : List Frame} {n : Nat} {f : Frame} (h : frame? frames n = some f) :
    f ∈ frames ∧ n < frames.length := by
  obtain ⟨place, hplace, hf⟩ := Option.bind_eq_some_iff.mp h
  refine ⟨List.mem_of_getElem? hf, ?_⟩
  unfold framePlace? at hplace
  split at hplace
  · assumption
  · cases hplace

/-- What holds of all calls holds when one of them is replaced. -/
theorem forall_mem_setFrame {P : Frame → Prop} {frames : List Frame} (h : ∀ f ∈ frames, P f) {g : Frame}
    (hg : P g) (n : Nat) : ∀ f ∈ setFrame frames n g, P f := by
  unfold setFrame
  split
  · intro f hf
    rcases List.mem_or_eq_of_mem_set hf with hf | rfl
    · exact h f hf
    · exact hg
  · exact h

theorem length_setFrame (frames : List Frame) (n : Nat) (g : Frame) :
    (setFrame frames n g).length = frames.length := by
  unfold setFrame
  split
  · exact List.length_set
  · rfl

/-- An inner call starts or ends. -/
theorem frame?_cons {f : Frame} {rest : List Frame} {n : Nat} (h : n < rest.length) :
    frame? (f :: rest) n = frame? rest n := by
  have hplace : rest.length + 1 - 1 - n = rest.length - 1 - n + 1 := by omega
  unfold frame? framePlace?
  rw [List.length_cons, if_pos (by omega), if_pos h, hplace]
  rfl

/-- A call is replaced by another one, which has the same value in the local if it is the call of that. -/
theorem Spared.setFrame {s : State} (hs : s.Spared d k w) {n : Nat} {g : Frame}
    (hvalue : n = d → g.locals[k]? = w) (hg : g.Within (.sparing d k)) :
    State.Spared d k w { s with frames := setFrame s.frames n g } := by
  refine ⟨?_, { hs.within with frames := forall_mem_setFrame hs.within.frames hg n }⟩
  obtain ⟨f, hf, hw⟩ := hs.value
  by_cases hn : n = d
  · subst hn
    exact ⟨g, frame?_setFrame_self hf g, hvalue rfl⟩
  · exact ⟨f, by rw [frame?_setFrame_ne g (Ne.symm hn), hf], hw⟩

theorem Spared.setCurrent {s : State} (hs : s.Spared d k w) {f g : Frame} {rest : List Frame}
    (hframes : s.frames = f :: rest) (hlocals : g.locals = f.locals) (hg : g.Within (.sparing d k)) :
    State.Spared d k w { s with frames := g :: rest } := by
  have hset := Spared.setFrame hs (n := rest.length) (fun hn => ?_) hg
  · rwa [hframes, Keeping.setFrame_current] at hset
  · obtain ⟨f', hf', hw⟩ := hs.value
    rw [← hn, hframes, Keeping.frame?_current] at hf'
    cases hf'
    rw [hlocals, hw]

/-- A local to which nothing leads keeps its value while the code does not name it. -/
def Keeping.sparing (r : Registry) (d k : Nat) (w : Option Value) (n : Nat) : Keeping r where
  Inv s := s.frames.length = n ∧ s.Spared d k w
  reach := .sparing d k
  Slot i := n = d + 1 → i ≠ k
  Arg _ := True
  Calls c args := r.Provides c ∧ ∀ v ∈ args, v.Within (.sparing d k)
  stack := by
    rintro s f rest ⟨-, hs⟩ hframes
    exact (hs.within.frames f (by rw [hframes]; exact List.mem_cons_self)).stack
  setStack := by
    rintro s f rest stack ⟨hlength, hs⟩ hframes hstack
    have hf := hs.within.frames f (by rw [hframes]; exact List.mem_cons_self)
    rw [hframes] at hlength
    exact ⟨hlength, Spared.setCurrent hs hframes rfl { hf with stack := hstack }⟩
  ownSlot := by
    rintro s i ⟨hlength, hs⟩ hi ⟨hcall, hslot⟩
    obtain ⟨f, hf, -⟩ := hs.value
    have hlt := (mem_of_frame? hf).2
    exact hi (by omega) hslot
  ownArg _ _ := trivial
  named := by
    rintro s f rest i v ⟨-, hs⟩ hframes - hv
    exact (hs.within.frames f (by rw [hframes]; exact List.mem_cons_self)).args v (Array.mem_of_getElem? hv)
  slot := by
    rintro s n i f v ⟨-, hs⟩ - hf hv
    exact (hs.within.frames f (mem_of_frame? hf).1).locals v (Array.mem_of_getElem? hv)
  setSlot := by
    rintro s₀ s n i f v ⟨-, hs₀⟩ ⟨hlength, hs⟩ hslot hf hv
    have hwithin := hs₀.within.frames f (mem_of_frame? hf).1
    refine ⟨by rw [length_setFrame, hlength], Spared.setFrame hs (fun hn => ?_)
      { hwithin with locals := Keeping.forall_mem_setIfInBounds hwithin.locals hv }⟩
    obtain ⟨f', hf', hw⟩ := hs₀.value
    rw [← hn, hf] at hf'
    cases hf'
    rw [Array.getElem?_setIfInBounds_ne fun hi => hslot ⟨hn, hi⟩]
    exact hw
  arg := by
    rintro s n i f v ⟨-, hs⟩ - hf hv
    exact .inl ((hs.within.frames f (mem_of_frame? hf).1).args v (Array.mem_of_getElem? hv))
  setArg := by
    rintro s₀ s n i f old v ⟨-, hs₀⟩ ⟨hlength, hs⟩ - hf - - hv
    have hwithin := hs₀.within.frames f (mem_of_frame? hf).1
    refine ⟨by rw [length_setFrame, hlength], Spared.setFrame hs (fun hn => ?_)
      { hwithin with args := Keeping.forall_mem_setIfInBounds hwithin.args hv }⟩
    obtain ⟨f', hf', hw⟩ := hs₀.value
    rw [← hn, hf] at hf'
    cases hf'
    exact hw
  static := by
    rintro s f v ⟨-, hs⟩ hv
    exact hs.within.statics f v hv
  setStatic := by
    rintro s v f ⟨hlength, hs⟩ hv
    refine ⟨hlength, hs.value, { hs.within with statics := fun g x hx => ?_ }⟩
    rcases get?_set hx with rfl | hx
    · exact hv
    · exact hs.within.statics g x hx
  field := by
    rintro s ref i v ⟨-, hs⟩ hv
    obtain ⟨c, hc, hv⟩ := Option.bind_eq_some_iff.mp hv
    exact hs.within.fields ref c hc v (Array.mem_of_getElem? hv)
  setField := by
    rintro s v ref i ⟨hlength, hs⟩ hv
    refine ⟨hlength, hs.value, { hs.within with
      fields := forall_modify hs.within.fields fun c hc => ?_ }⟩
    exact Keeping.forall_mem_setIfInBounds hc hv
  newObject := by
    rintro s fields ty ⟨hlength, hs⟩ hfields
    exact ⟨hlength, hs.value, { hs.within with
      fields := forall_push hs.within.fields fun v hv => hfields v (by simpa using hv) }⟩
  elems := by
    rintro s ref c ⟨-, hs⟩ - hc
    exact hs.within.elems ref c hc
  setElems := by
    rintro s ref change ⟨hlength, hs⟩ - - hchange
    exact ⟨hlength, hs.value, { hs.within with
      elems := forall_modify hs.within.elems fun c hc => hchange c.data hc }⟩
  newArray := by
    rintro s c ⟨hlength, hs⟩ - hc
    exact ⟨trivial, hlength, hs.value, { hs.within with elems := forall_push hs.within.elems hc }⟩
  items := by
    rintro s ref c ⟨-, hs⟩ hc
    exact hs.within.items ref c hc
  setItems := by
    rintro s change ref ⟨hlength, hs⟩ hchange
    exact ⟨hlength, hs.value, { hs.within with
      items := forall_modify hs.within.items fun c hc => hchange c.items hc }⟩
  newList := by
    rintro s ty ⟨hlength, hs⟩
    exact ⟨hlength, hs.value, { hs.within with
      items := forall_push hs.within.items fun v hv => by simp at hv }⟩
  function := by
    rintro s ref c args ⟨-, hs⟩ hc hargs
    exact ⟨trivial, List.forall_mem_append.mpr ⟨hs.within.captured ref c hc, hargs⟩⟩
  newFunction := by
    rintro s c captured ⟨hlength, hs⟩ - hcaptured
    exact ⟨hlength, hs.value, { hs.within with
      captured := forall_push hs.within.captured hcaptured }⟩
  method hd hc hargs := ⟨Registry.provides_of_callee? hd hc, hargs⟩

theorem Keeping.plain_sparing {r : Registry} {R : Routine} {n : Nat} {i : Instr}
    (hslots : n = d + 1 → k ∉ i.slots) : (Keeping.sparing r d k w n).Plain R i where
  slots _ hm hn heq := hslots hn (heq ▸ hm)
  args _ _ := trivial
  indirect _ _ := trivial
  pointer _ _ _ _ := trivial
  child _ _ _ _ _ hargs := ⟨trivial, hargs⟩

/-- A called routine starts with arguments to which nothing leads. -/
theorem Spared.enter {r : Registry} {R : Routine} {args : List Value} {s t : State} (hs : s.Spared d k w)
    (hargs : ∀ v ∈ args, v.Within (.sparing d k)) (h : entry? r R args s = some t) :
    t.Spared d k w ∧ t.frames.length = s.frames.length + 1 ∧ popFrame t = s := by
  unfold entry? at h
  split at h
  · cases h
  split at h
  · cases h
  split at h
  · cases h
  next locals hlocals =>
  cases h
  have hframe : Frame.Within (.sparing d k) ⟨args.toArray, locals, [], []⟩ := by
    exact ⟨fun v hv => hargs v (by simpa using hv), Registry.within_zeros hlocals, nofun⟩
  obtain ⟨f, hf, hw⟩ := hs.value
  have hlt := (mem_of_frame? hf).2
  exact ⟨⟨⟨f, by rw [frame?_cons hlt, hf], hw⟩, { hs.within with
    frames := List.forall_mem_cons.mpr ⟨hframe, hs.within.frames⟩ }⟩, rfl, rfl⟩

/-- The innermost call has ended. -/
theorem Spared.popFrame {s : State} (hs : s.Spared d k w) (h : d + 1 < s.frames.length) :
    (popFrame s).Spared d k w := by
  obtain ⟨f, hf, hw⟩ := hs.value
  cases hframes : s.frames with
  | nil =>
      rw [hframes] at h
      cases h
  | cons first rest =>
      have hlt : d < rest.length := by simpa [hframes] using h
      rw [hframes, frame?_cons hlt] at hf
      refine ⟨⟨f, ?_, hw⟩, { hs.within with frames := fun g hg => ?_ }⟩
      · rwa [Run.popFrame, hframes]
      · exact hs.within.frames g (List.mem_of_mem_tail hg)

/-- An instruction that does not name the local calls something with arguments that do not lead to it. -/
theorem Spared.callee {r : Registry} {R : Routine} {i : Instr} {c : Callee} {args : List Value}
    {s t : State} (hs : s.Spared d k w) (hslots : s.frames.length = d + 1 → k ∉ i.slots)
    (h : callee r R i s = .ok (some (c, args)) t) :
    t.Spared d k w ∧ ∀ v ∈ args, v.Within (.sparing d k) := by
  have hasked := Keeping.callee (Keeping.plain_sparing (r := r) (w := w) (R := R) hslots) s ⟨rfl, hs⟩
  rw [h] at hasked
  exact ⟨hasked.1.2, (hasked.2 c args rfl).2⟩

/-- From the first state to the second one, a local to which nothing leads keeps its value. -/
def Sparing (d k : Nat) (w : Option Value) (s t : State) : Prop :=
  s.Spared d k w → t.Spared d k w ∧ t.frames.length = s.frames.length

theorem Sparing.refl (s : State) : Sparing d k w s s := fun hs => ⟨hs, rfl⟩

theorem Sparing.trans {s t u : State} (h : Sparing d k w s t) (h' : Sparing d k w t u) :
    Sparing d k w s u := by
  intro hs
  obtain ⟨ht, hlength⟩ := h hs
  obtain ⟨hu, hlength'⟩ := h' ht
  exact ⟨hu, hlength'.trans hlength⟩

end Run

/-- A method of the host has no part in a local to which nothing leads: it neither writes it nor comes by
its address, and neither do the routines that it calls come by it through their arguments. -/
def Host.Spares (f : Host) : Prop :=
  ∀ (d k : Nat) (w : Option Value) (args : List Value) (s : State), s.Spared d k w →
    (∀ v ∈ args, v.Within (.sparing d k)) →
    (f args s).Proceeds (Run.Sparing d k w) (Run.Sparing d k w)
      (fun _ args t => t.Spared d k w ∧ ∀ v ∈ args, v.Within (.sparing d k))
      (fun v _ => v.Within (.sparing d k)) s

/-- No method of the host has a part in a local to which nothing leads. -/
def Registry.HostsSpare (r : Registry) : Prop := ∀ f ∈ r.hosts, Host.Spares f

namespace Run

/-- Code keeps a local to which nothing leads and which it does not name, if the host has no part in it.
Code of other calls may name locals of its own that have the same number. -/
def Logic.sparing (r : Registry) (hhosts : r.HostsSpare) (d k : Nat) (w : Option Value) : Logic r where
  Given m := m.state.frames.length = d + 1 → ∀ i, m.routine.code[m.pc]? = some i → k ∉ i.slots
  At m := m.state.Spared d k w
  Idle _ s := s.Spared d k w
  Link s _ t := Sparing d k w s t
  Across s _ t := Sparing d k w s t
  Admits _ args s := s.Spared d k w ∧ ∀ v ∈ args, v.Within (.sparing d k)
  Result v _ := v.Within (.sparing d k)
  refl := .refl
  trans h h' := h.trans h'
  still := .refl
  follow h h' := h.trans h'
  enter h hentry := (Spared.enter h.1 h.2 hentry).1
  exit {_ _ s _ u _} h hentry hlink hs := by
    obtain ⟨hstart, hdepth, -⟩ := Spared.enter hs h.2 hentry
    obtain ⟨hu, hlength⟩ := hlink hstart
    obtain ⟨f, hf, -⟩ := hs.value
    have hlt := (mem_of_frame? hf).2
    refine ⟨Spared.popFrame hu (by omega), ?_⟩
    rw [popFrame, List.length_tail, hlength, hdepth, Nat.add_sub_cancel]
  value _ hv := hv
  arrive hs _ := hs
  past {_ _ s} hs _ := ⟨.refl s, hs⟩
  adjust {_ change s} hchange hs := by
    unfold modifyFrame
    cases hframes : s.frames with
    | nil => exact ⟨.refl s, hs⟩
    | cons f rest =>
        have hf := hs.within.frames f (by rw [hframes]; exact List.mem_cons_self)
        have hchanged : (change f).Within (.sparing d k) := by
          refine ⟨(hchange.args f).symm ▸ hf.args, (hchange.locals f).symm ▸ hf.locals, fun v hv => ?_⟩
          rcases hchange.stack f v hv with hv | ⟨e, rfl⟩
          · exact hf.stack v hv
          · trivial
        have ht := Spared.setCurrent hs hframes (hchange.locals f) hchanged
        exact ⟨fun _ => ⟨ht, by rw [hframes]; rfl⟩, ht⟩
  asks hs hgiven hcode hcallee := Spared.callee hs (fun hlength => hgiven hlength _ hcode) hcallee
  hosts {_ f _ _ t _ args} hs hgiven hcode hcallee := by
    obtain ⟨ht, hargs⟩ := Spared.callee hs (fun hlength => hgiven hlength _ hcode) hcallee
    exact (hhosts f (mem_hosts_of_callee hcallee) d k w args t ht hargs).imp (fun _ _ h => h)
      (fun _ _ ⟨_, h⟩ => h) fun _ _ _ h => h
  step {R pc s i call ms} hs hgiven hcode hcall _ := by
    let K := Keeping.sparing r d k w s.frames.length
    have hstep : K.After (K.Leads R i) (Run.step r call R i s) := by
      refine Keeping.step_at (Keeping.plain_sparing fun hlength => hgiven hlength i hcode) ⟨rfl, hs⟩
        fun c args t hcallee ht _ => ?_
      have hcall := hcall c args t hcallee
      revert hcall
      cases call c args t with
      | ok v u =>
          rintro ⟨hu, hv⟩
          obtain ⟨hu, hlength⟩ := hu ht.2
          exact ⟨⟨hlength.trans ht.1, hu⟩, hv v u rfl⟩
      | error e u =>
          rintro ⟨hu, -⟩
          obtain ⟨hu, hlength⟩ := hu ht.2
          exact ⟨hlength.trans ht.1, hu⟩
    revert hstep
    cases Run.step r call R i s with
    | ok flow t =>
        rintro ⟨⟨hlength, ht⟩, hleads⟩
        have hlink : Sparing d k w s t := fun _ => ⟨ht, hlength⟩
        cases flow with
        | next => exact ⟨hlink, ht⟩
        | jump landing | leave landing =>
            obtain ⟨l, _, hl⟩ := hleads
            exact ⟨hlink, ht, .label hl⟩
        | ret v => exact ⟨hlink, ht, hleads⟩
        | endFinally => exact ⟨hlink, ht⟩
        | endFilter verdict => exact ⟨hlink, ht⟩
    | error e t =>
        rintro ⟨hlength, ht⟩
        have hlink : Sparing d k w s t := fun _ => ⟨ht, hlength⟩
        cases e with
        | halted limit => exact hlink
        | thrown e | invalid d => exact ⟨hlink, ht⟩

namespace Passes

variable {r : Registry} {R : Routine} {span : Span} {p q d k : Nat} {w : Option Value} {s t : State}
  {ms : List Moment}

/-- On its way through code that does not name it, execution keeps a local to which nothing leads. -/
theorem spares (h : Passes r R span p s ms q t) (hhosts : r.HostsSpare) (hs : s.Spared d k w)
    (hms : ∀ m ∈ ms, m.state.frames.length = d + 1 → ∀ i, m.routine.code[m.pc]? = some i → k ∉ i.slots) :
    t.Spared d k w := by
  obtain ⟨steps, enough, h⟩ := h
  obtain ⟨-, htrace⟩ := h (enough + 1) (by omega)
  have hcovers := (Logic.runs_exec (Logic.sparing r hhosts d k w) (enough + 1 + steps)).1 R p span s hs
  rw [Logic.Finishes, htrace] at hcovers
  exact (hcovers.behind hms).1

/-- On its way, execution leaves what the calls around it wait with. -/
theorem aroundSame (h : Passes r R span p s ms q t) (hhosts : r.HostsKeep State.SameWaiting) :
    State.AroundSame s t := by
  obtain ⟨steps, enough, h⟩ := h
  obtain ⟨hexec, -⟩ := h enough (Nat.le_refl _)
  have hends : ∀ fuel p s, EndsIn (State.AroundSame s) (exec r fuel R p span s) := fun fuel p s =>
    (((Logic.runs_exec (Logic.waiting r hhosts) fuel).1 R p span s trivial).holds
      fun _ _ => trivial).2.1.endsIn
  have hstart := hends (enough + steps) p s
  have hend := hends enough q t
  rw [hexec] at hstart
  revert hstart hend
  cases exec r enough R q span t <;>
    exact fun hu hu' => ⟨hu'.1.symm.trans hu.1, hu'.2.symm.trans hu.2⟩

end Passes

end Run

end Arbor
