/-
  The sizes of calls.

  Whatever a run does, it leaves the calls that are active as they are in number,
  and the numbers of arguments and locals of each.  While a routine runs, the
  current call has its arguments and locals, no more calls are active than the
  machine allows, and execution is at a position that the code leads to.
-/
import Arbor.Proofs.Machine.Keeping
import Arbor.Proofs.Machine.Runs
import Arbor.Proofs.Machine.Trace

set_option autoImplicit false

namespace Arbor

/-- Bounds that admit every reference. -/
def Reach.all : Reach := ⟨fun _ => True, fun _ => True, fun _ _ => True, fun _ _ => True⟩

theorem Addr.within_all (a : Addr) : a.Within .all := by
  induction a with
  | inner base n ih => exact ih
  | _ => trivial

mutual

theorem Value.within_all (v : Value) : v.Within .all := by
  cases v with
  | present v => exact v.within_all
  | struct ty fields => exact Value.allWithin_all fields
  | addr a => exact a.within_all
  | _ => trivial

theorem Value.allWithin_all (vs : List Value) : Value.AllWithin .all vs := by
  cases vs with
  | nil => trivial
  | cons v vs => exact ⟨v.within_all, Value.allWithin_all vs⟩

end

/-- The numbers of arguments and locals of a call. -/
def Frame.extent (f : Frame) : Nat × Nat := (f.args.size, f.locals.size)

/-- The numbers of arguments and locals of the active calls, innermost first. -/
def State.extents (s : State) : List (Nat × Nat) := s.frames.map Frame.extent

/-- The calls that are active have as many arguments and locals as before, and are as many. -/
def State.SameExtents (s t : State) : Prop := t.extents = s.extents

/-- The numbers of arguments and locals that a call of the routine has. -/
def Routine.extent (R : Routine) : Nat × Nat := (R.params.length, R.locals.size)

namespace Run

/-- A call is replaced by one with the same image. -/
theorem map_setFrame {β : Type} {image : Frame → β} {frames : List Frame} {k : Nat} {f g : Frame}
    {E : List β} (hE : frames.map image = E) {frames₀ : List Frame} (hE₀ : frames₀.map image = E)
    (hf : frame? frames₀ k = some f) (hg : image g = image f) :
    (setFrame frames k g).map image = E := by
  have hlength : frames.length = frames₀.length := by
    simpa using congrArg List.length (hE.trans hE₀.symm)
  obtain ⟨place, hplace, hf⟩ := Option.bind_eq_some_iff.mp hf
  have hat : E[place]? = some (image g) := by
    rw [← hE₀, List.getElem?_map, hf, hg]
    rfl
  unfold setFrame framePlace? at *
  rw [hlength, hplace]
  dsimp only
  rw [List.map_set, hE]
  obtain ⟨_, hat⟩ := List.getElem?_eq_some_iff.mp hat
  rw [← hat, List.set_getElem_self]

/-- An action that keeps an invariant ends in a state that has it. -/
theorem Storing.Ensures.endsIn {r : Registry} {K : Storing r} {α : Type} {x : Run α} {post : α → Prop}
    (hx : K.Ensures x post) {s : State} (hs : K.Inv s) : EndsIn K.Inv (x s) := by
  have hend := hx s hs
  revert hend
  cases x s with
  | ok a t => exact And.left
  | error e t => exact id

/-- Where everything may be stored, calls have only to keep the invariant. -/
theorem Storing.Serves.of_endsIn {r : Registry} {K : Storing r} (hreach : K.reach = .all) {call : Caller}
    (h : ∀ c args s, K.Calls c args → K.Inv s → EndsIn K.Inv (call c args s)) : K.Serves call := by
  intro c args hcalls s hs
  have hend := h c args s hcalls hs
  have hheld : ∀ v, K.Held v := by
    intro v
    rw [Storing.Held, hreach]
    exact v.within_all
  revert hend
  cases call c args s with
  | ok v t => exact fun ht => ⟨ht, hheld v⟩
  | error e t => exact id

/-- Everything may be stored, as long as the calls keep a property that assignments to their locals and
arguments do not change. -/
def Storing.ofFrames (r : Registry) (P : List Frame → Prop)
    (hset : ∀ {frames₀ frames : List Frame} {k : Nat} {f g : Frame}, P frames₀ → P frames →
      frame? frames₀ k = some f → g.extent = f.extent → g.stack = f.stack →
      g.handling = f.handling → P (setFrame frames k g)) : Storing r where
  Inv s := P s.frames
  reach := .all
  Slot _ := True
  Arg _ := True
  Calls c _ := r.Provides c
  ownSlot _ _ := trivial
  ownArg _ _ := trivial
  named {_ _ _ _ v} _ _ _ _ := v.within_all
  slot {_ _ _ _ v} _ _ _ _ := v.within_all
  setSlot hs₀ hs _ hf _ := hset hs₀ hs hf (by simp [Frame.extent]) rfl rfl
  arg {_ _ _ _ v} _ _ _ _ := .inl v.within_all
  setArg hs₀ hs _ hf _ _ _ := hset hs₀ hs hf (by simp [Frame.extent]) rfl rfl
  static {_ _ v} _ _ := v.within_all
  setStatic _ hs _ := hs
  field {_ _ _ v} _ _ := v.within_all
  setField _ _ hs _ := hs
  newObject _ hs _ := hs
  elems _ _ _ v _ := v.within_all
  setElems hs _ _ _ := hs
  newArray hs _ _ := ⟨trivial, hs⟩
  items _ _ v _ := v.within_all
  setItems _ hs _ := hs
  newList _ hs := hs
  function _ _ _ := trivial
  newFunction hs _ _ := hs
  method hd hc _ := Registry.provides_of_callee? hd hc

/-- Everything may be stored, as long as calls keep their extents. -/
def Keeping.extents (r : Registry) (E : List (Nat × Nat)) : Keeping r where
  toStoring := .ofFrames r (·.map Frame.extent = E) fun hs₀ hs hf hg _ _ => map_setFrame hs hs₀ hf hg
  stack _ _ v _ := v.within_all
  setStack hs hframes _ := by
    change List.map _ _ = _ at hs ⊢
    rw [← hs, hframes]
    rfl

theorem Keeping.plain_extents (r : Registry) (E : List (Nat × Nat)) (R : Routine) (i : Instr) :
    (Keeping.extents r E).Plain R i :=
  ⟨fun _ _ => trivial, fun _ _ => trivial, fun _ _ => trivial, fun _ _ _ _ => trivial,
    fun _ _ _ _ _ _ => trivial⟩

/-- The current call is one of the routine, and no more calls are active than allowed. -/
structure Running (R : Routine) (s : State) : Prop where
  current : s.extents.head? = some R.extent
  depth : s.extents.length ≤ maxCallDepth

theorem Running.congr {R : Routine} {s t : State} (h : Running R s) (ht : t.extents = s.extents) :
    Running R t :=
  ⟨ht ▸ h.current, ht ▸ h.depth⟩

/-- A called routine starts with its arguments and locals. -/
theorem extents_of_entry {r : Registry} {R : Routine} {args : List Value} {s t : State}
    (h : entry? r R args s = some t) :
    s.frames.length < maxCallDepth ∧ t.extents = R.extent :: s.extents := by
  unfold entry? at h
  split at h
  · cases h
  · next hdepth =>
      split at h
      · cases h
      · next hargs =>
          split at h
          · cases h
          · next locals hlocals =>
              cases h
              refine ⟨by omega, ?_⟩
              have hargs : args.length = R.params.length := Decidable.not_not.mp hargs
              simp [State.extents, Frame.extent, Routine.extent, size_of_zeros hlocals, hargs]

/-- Calls of all routines keep the calls around them, and run within the allowed depth, if the host
keeps these calls. -/
def Logic.frames (r : Registry) (hhosts : r.HostsKeep State.SameExtents) : Logic r where
  Given _ := True
  At m := Running m.routine m.state ∧ m.routine.Reaches m.pc
  Idle R s := Running R s
  Link s _ t := t.extents = s.extents
  Across s _ t := t.extents = s.extents
  Admits _ _ _ := True
  Result _ _ := True
  refl _ := rfl
  trans h k := k.trans h
  still _ := rfl
  follow h k := k.trans h
  enter {_ _ s _} _ h := by
    obtain ⟨hdepth, hextents⟩ := extents_of_entry h
    refine ⟨by rw [hextents]; rfl, ?_⟩
    rw [hextents, List.length_cons, State.extents, List.length_map]
    exact hdepth
  exit _ h k := by
    have hextents := k.trans (extents_of_entry h).2
    simp only [State.extents, popFrame, List.map_tail] at hextents ⊢
    rw [hextents]
    rfl
  value _ _ := trivial
  arrive h hentry := ⟨h, .entry hentry⟩
  past h _ := ⟨rfl, h.1⟩
  adjust {_ change s} hchange hs := by
    unfold modifyFrame
    cases hframes : s.frames with
    | nil => exact ⟨rfl, hs⟩
    | cons f rest =>
        have hextents : State.extents { s with frames := change f :: rest } = s.extents := by
          rw [State.extents, State.extents, hframes, List.map_cons, List.map_cons]
          simp only [Frame.extent, hchange.args, hchange.locals]
        exact ⟨hextents, hs.congr hextents⟩
  asks _ _ _ _ := trivial
  hosts {_ _ _ _ t _ args} _ _ _ hcallee :=
    (hhosts _ (mem_hosts_of_callee hcallee) args t).imp (fun _ _ h => h) (fun _ _ ⟨_, h⟩ => h) fun _ _ _ h => h
  step {R pc s i call ms} hs _ hcode hcall _ := by
    let K := Keeping.extents r s.extents
    have hstep : K.After (K.Leads R i) (Run.step r call R i s) := by
      refine Keeping.step_at (Keeping.plain_extents r s.extents R i) rfl fun c args t hcallee ht _ => ?_
      have hcall := (hcall c args t hcallee).1
      revert hcall
      cases call c args t with
      | ok v u => exact fun hu => ⟨hu.trans ht, v.within_all⟩
      | error e u => exact fun hu => hu.trans ht
    revert hstep
    cases Run.step r call R i s with
    | ok flow t =>
        intro ⟨ht, hleads⟩
        have ht' := hs.1.congr ht
        cases flow with
        | next => exact ⟨ht, ht', .next hs.2 hcode hleads⟩
        | jump landing =>
            obtain ⟨l, _, hl⟩ := hleads
            exact ⟨ht, ht', .label hl⟩
        | leave landing =>
            obtain ⟨l, _, hl⟩ := hleads
            exact ⟨ht, ht', .label hl⟩
        | ret v => exact ⟨ht, ht', trivial⟩
        | endFinally => exact ⟨ht, ht'⟩
        | endFilter verdict => exact ⟨ht, ht'⟩
    | error e t =>
        intro ht
        cases e with
        | halted limit => exact ht
        | thrown e => exact ⟨ht, hs.1.congr ht⟩
        | invalid d => exact ⟨ht, hs.1.congr ht⟩

variable {r : Registry} {fuel : Nat} {c : Callee} {args : List Value} {s : State}

theorem Logic.allows_frames (hhosts : r.HostsKeep State.SameExtents) (hc : r.Provides c) :
    (Logic.frames r hhosts).Allows c args s := by
  cases c with
  | routine R => trivial
  | host f =>
      exact (hhosts f hc args s).imp (fun _ _ h => h) (fun _ _ ⟨_, h⟩ => h) fun _ _ _ h => h

theorem endsIn_call (hhosts : r.HostsKeep State.SameExtents) (hc : r.Provides c) :
    EndsIn (fun t => t.extents = s.extents) (call r fuel c args s) :=
  (((Logic.frames r hhosts).covers_run_call fuel (Logic.allows_frames hhosts hc)).holds
    fun _ _ => trivial).2.1

theorem running_of_mem_callTrace (hhosts : r.HostsKeep State.SameExtents) {R : Routine} {m : Moment}
    (hm : m ∈ callTrace r (execTrace r fuel) R args s) :
    Running m.routine m.state ∧ m.routine.Reaches m.pc :=
  (((Logic.frames r hhosts).covers_run_call (c := .routine R) fuel trivial).holds
    fun _ _ => trivial).1 m hm

end Run

end Arbor
