/-
  What states may hold.

  A `Keeping` is an invariant of states, together with the references that the
  values in them may contain.  It lists what the invariant must allow: to read and
  to write each kind of storage, and to allocate.  Every action of the machine then
  keeps the invariant, and yields values within the same bounds.

  Calls are left out: `Keeping.callee` says what an instruction calls, and with what
  arguments, and `resumes_step` how it goes on behind the call.
-/
import Arbor.Proofs.Code.Closed
import Arbor.Proofs.Machine.Memory
import Arbor.Proofs.Machine.Record
import Arbor.Proofs.HandlerStacks

set_option autoImplicit false

namespace Arbor

/-! ## Values within bounds -/

/-- References that values may contain. -/
structure Reach where
  array : Ref → Prop
  routine : Routine → Prop
  /-- Addresses of arguments, by the number of the call and the index. -/
  arg : Nat → Nat → Prop
  /-- Addresses of locals. -/
  slot : Nat → Nat → Prop

/-- The address leads to storage within the bounds. -/
def Addr.Within (B : Reach) : Addr → Prop
  | .local frame slot => B.slot frame slot
  | .arg frame index => B.arg frame index
  | .field _ _ | .static _ => True
  | .elem array _ => B.array array
  | .inner base _ => base.Within B

/-- Whether the address is that of an argument as a whole. -/
def Addr.isArg : Addr → Bool
  | .arg _ _ => true
  | _ => false

mutual

/-- The value contains references within the bounds only. -/
def Value.Within (B : Reach) : Value → Prop
  | .present v => v.Within B
  | .struct _ fields => Value.AllWithin B fields
  | .array ref => B.array ref
  | .fnPtr c => B.routine c
  | .addr a => a.Within B
  | .null | .bool _ | .num _ | .str _ | .absent | .object _ | .list _ | .func _ => True
  termination_by structural v => v

/-- The values contain references within the bounds only. -/
def Value.AllWithin (B : Reach) : List Value → Prop
  | [] => True
  | v :: vs => v.Within B ∧ Value.AllWithin B vs
  termination_by structural vs => vs

end

namespace Value

variable {B : Reach}

theorem allWithin_iff {vs : List Value} : AllWithin B vs ↔ ∀ v ∈ vs, v.Within B := by
  induction vs with
  | nil => simp [AllWithin]
  | cons v vs ih => simp [AllWithin, ih]

mutual

theorem Within.mono {C : Reach} (harray : ∀ ref, B.array ref → C.array ref)
    (hroutine : ∀ c, B.routine c → C.routine c) (haddr : ∀ a : Addr, a.Within B → a.Within C) (v : Value)
    (hv : v.Within B) : v.Within C := by
  cases v with
  | present v => exact Within.mono harray hroutine haddr v hv
  | struct ty fields => exact AllWithin.mono harray hroutine haddr fields hv
  | array ref => exact harray ref hv
  | fnPtr c => exact hroutine c hv
  | addr a => exact haddr a hv
  | _ => trivial

theorem AllWithin.mono {C : Reach} (harray : ∀ ref, B.array ref → C.array ref)
    (hroutine : ∀ c, B.routine c → C.routine c) (haddr : ∀ a : Addr, a.Within B → a.Within C)
    (vs : List Value) (hvs : AllWithin B vs) : AllWithin C vs := by
  cases vs with
  | nil => trivial
  | cons v vs =>
      exact ⟨Within.mono harray hroutine haddr v hvs.1, AllWithin.mono harray hroutine haddr vs hvs.2⟩

end

theorem within_boxed {v : Value} (h : v.Within B) : v.boxed.Within B := by
  cases v with
  | present v => exact h
  | _ => exact h

theorem within_ofLiteral (l : Literal) : (ofLiteral l).Within B := by
  cases l <;> trivial

end Value

/-- What a traversal yields, it yields for some item. -/
theorem exists_of_mem_mapM {ε α β : Type} {f : α → Except ε β} {items : List α} {found : List β}
    (h : items.mapM f = .ok found) : ∀ b ∈ found, ∃ a, f a = .ok b := by
  induction items generalizing found with
  | nil =>
      cases h
      exact fun _ hb => absurd hb List.not_mem_nil
  | cons a items ih =>
      rw [List.mapM_cons] at h
      simp only [bind, Except.bind, pure, Except.pure] at h
      split at h
      · cases h
      · next b hb =>
          split at h
          · cases h
          · next rest hrest =>
              cases h
              exact List.forall_mem_cons.mpr ⟨⟨a, hb⟩, ih hrest⟩

/-- Zero values contain no references. -/
theorem Registry.within_zeroFrom {B : Reach} (r : Registry) (fuel : Nat) (t : Ty) {v : Value}
    (h : r.zeroFrom fuel t = .ok v) : v.Within B := by
  induction fuel generalizing t v with
  | zero => cases t <;> cases h <;> trivial
  | succ fuel ih =>
      cases t with
      | structTy id =>
          simp only [zeroFrom, bind, Except.bind, pure, Except.pure] at h
          split at h
          · cases h
          · split at h
            · cases h
            · next fields hfields =>
                cases h
                refine Value.allWithin_iff.mpr fun v hv => ?_
                obtain ⟨ty, hty⟩ := exists_of_mem_mapM hfields v hv
                exact ih ty hty
      | _ => cases h; trivial

theorem Registry.within_zero {B : Reach} {r : Registry} {t : Ty} {v : Value} (h : r.zero t = .ok v) :
    v.Within B :=
  r.within_zeroFrom _ t h

theorem Registry.within_zeros {B : Reach} {r : Registry} {types : Array Ty} {zeros : Array Value}
    (h : types.mapM r.zero = .ok zeros) : ∀ v ∈ zeros, v.Within B := by
  rw [Array.mapM_eq_mapM_toList] at h
  cases hzeros : types.toList.mapM r.zero with
  | error e =>
      rw [hzeros] at h
      cases h
  | ok values =>
      rw [hzeros] at h
      cases h
      intro v hv
      obtain ⟨ty, hzero⟩ := exists_of_mem_mapM hzeros v (by simpa using hv)
      exact within_zero hzero

/-- The items of an array fill its dimensions, where there can be that many of them. -/
def ArrayCell.Filled (c : ArrayCell) : Prop :=
  c.dims.prod < 0x10000000000000000 → c.data.size = c.dims.prod

namespace Run

theorem filled_replicate (elem : Ty) (dims : List Nat) (v : Value) :
    ArrayCell.Filled ⟨elem, dims, Array.replicate (elementCount dims) v⟩ := fun h => by
  rw [Array.size_replicate]
  exact elementCount_eq h

theorem size_overwrite {old new : Array Value} : (overwrite old new).size = new.size := by
  simp only [overwrite, List.size_toArray, List.length_append, List.length_take, List.length_drop,
    Array.length_toList]
  omega

/-! ## Keeping an invariant -/

/-- An invariant of states that does not depend on how storage is used, and the references that the
values in storage may contain. -/
structure Storing (r : Registry) where
  Inv : State → Prop
  reach : Reach
  /-- Locals and arguments of the current call that may be named. -/
  Slot : Nat → Prop
  Arg : Nat → Prop
  /-- What may be called with the arguments. -/
  Calls : Callee → List Value → Prop
  /-- Locals and arguments of the current call. -/
  ownSlot : ∀ {s : State} {n : Nat}, Inv s → Slot n → reach.slot (s.frames.length - 1) n
  ownArg : ∀ {s : State} {n : Nat}, Inv s → Arg n → reach.arg (s.frames.length - 1) n
  named : ∀ {s : State} {f : Frame} {rest : List Frame} {n : Nat} {v : Value}, Inv s →
    s.frames = f :: rest → Arg n → f.args[n]? = some v → v.Within reach
  /-- Locals and arguments of all calls. -/
  slot : ∀ {s : State} {k n : Nat} {f : Frame} {v : Value}, Inv s → reach.slot k n →
    frame? s.frames k = some f → f.locals[n]? = some v → v.Within reach
  setSlot : ∀ {s₀ s : State} {k n : Nat} {f : Frame} {v : Value}, Inv s₀ → Inv s → reach.slot k n →
    frame? s₀.frames k = some f → v.Within reach →
    Inv { s with frames := setFrame s.frames k { f with locals := f.locals.setIfInBounds n v } }
  /-- An address may also lead to an argument with an array that is out of bounds. -/
  arg : ∀ {s : State} {k n : Nat} {f : Frame} {v : Value}, Inv s → reach.arg k n →
    frame? s.frames k = some f → f.args[n]? = some v → v.Within reach ∨ ∃ ref, v = .array ref
  setArg : ∀ {s₀ s : State} {k n : Nat} {f : Frame} {old v : Value}, Inv s₀ → Inv s → reach.arg k n →
    frame? s₀.frames k = some f → f.args[n]? = some old → old.Within reach → v.Within reach →
    Inv { s with frames := setFrame s.frames k { f with args := f.args.setIfInBounds n v } }
  /-- Static fields. -/
  static : ∀ {s : State} {f : FieldRef} {v : Value}, Inv s → s.statics.get? f = some v →
    v.Within reach
  setStatic : ∀ {s : State} {v : Value} (f : FieldRef), Inv s → v.Within reach →
    Inv { s with statics := s.statics.set f v }
  /-- Objects. -/
  field : ∀ {s : State} {ref : Ref} {n : Nat} {v : Value}, Inv s → s.heap.field? ref n = some v →
    v.Within reach
  setField : ∀ {s : State} {v : Value} (ref : Ref) (n : Nat), Inv s → v.Within reach →
    Inv { s with heap := s.heap.setField ref n v }
  newObject : ∀ {s : State} {fields : List Value} (ty : TypeId), Inv s →
    (∀ v ∈ fields, v.Within reach) →
    Inv { s with heap := (s.heap.newObject ⟨ty, fields.toArray⟩).2 }
  /-- Arrays. -/
  elems : ∀ {s : State} {ref : Ref} {c : ArrayCell}, Inv s → reach.array ref →
    s.heap.arrays[ref]? = some c → ∀ v ∈ c.data, v.Within reach
  setElems : ∀ {s : State} {ref : Ref} {change : Array Value → Array Value}, Inv s →
    reach.array ref → (∀ data : Array Value, (change data).size = data.size) →
    (∀ data : Array Value, (∀ v ∈ data, v.Within reach) → ∀ v ∈ change data, v.Within reach) →
    Inv { s with heap := { s.heap with
      arrays := s.heap.arrays.modify ref fun c => { c with data := change c.data } } }
  newArray : ∀ {s : State} {c : ArrayCell}, Inv s → c.Filled → (∀ v ∈ c.data, v.Within reach) →
    reach.array s.heap.arrays.size ∧ Inv { s with heap := (s.heap.newArray c).2 }
  /-- Lists. -/
  items : ∀ {s : State} {ref : Ref} {c : ListCell}, Inv s → s.heap.lists[ref]? = some c →
    ∀ v ∈ c.items, v.Within reach
  setItems : ∀ {s : State} {change : Array Value → Array Value} (ref : Ref), Inv s →
    (∀ data : Array Value, (∀ v ∈ data, v.Within reach) → ∀ v ∈ change data, v.Within reach) →
    Inv { s with heap := { s.heap with
      lists := s.heap.lists.modify ref fun c => { c with items := change c.items } } }
  newList : ∀ {s : State} (ty : Ty), Inv s → Inv { s with heap := (s.heap.newList ⟨ty, #[]⟩).2 }
  /-- Function values. -/
  function : ∀ {s : State} {ref : Ref} {c : Callable} {args : List Value}, Inv s →
    s.heap.functions[ref]? = some c → (∀ v ∈ args, v.Within reach) →
    Calls (.routine c.routine) (c.captured ++ args)
  newFunction : ∀ {s : State} {c : Routine} {captured : List Value}, Inv s → reach.routine c →
    (∀ v ∈ captured, v.Within reach) →
    Inv { s with heap := (s.heap.newFunction ⟨c, captured⟩).2 }
  /-- Methods that have code, or belong to the host. -/
  method : ∀ {id : TypeId} {index : Nat} {d : MethodDef} {c : Callee} {args : List Value},
    r.method id index = .ok d → d.body.callee? = some c → (∀ v ∈ args, v.Within reach) → Calls c args

/-- An invariant that does not depend on the evaluation stack either. -/
structure Keeping (r : Registry) extends Storing r where
  stack : ∀ {s : State} {f : Frame} {rest : List Frame}, Inv s → s.frames = f :: rest →
    ∀ v ∈ f.stack, v.Within reach
  setStack : ∀ {s : State} {f : Frame} {rest : List Frame} {stack : List Value}, Inv s →
    s.frames = f :: rest → (∀ v ∈ stack, v.Within reach) →
    Inv { s with frames := { f with stack } :: rest }

namespace Storing

variable {r : Registry} (K : Storing r) {α β : Type}

/-- The value is within the bounds. -/
abbrev Held (v : Value) : Prop := v.Within K.reach

/-- The invariant holds at an end, and a result has the property. -/
def After (post : α → Prop) : EStateM.Result Trap State α → Prop
  | .ok a t => K.Inv t ∧ post a
  | .error _ t => K.Inv t

/-- The action keeps the invariant, and its results have the property. -/
def Ensures (x : Run α) (post : α → Prop) : Prop := ∀ s, K.Inv s → K.After post (x s)

/-- Calls that may be made keep the invariant, and their results are within the bounds. -/
def Serves (call : Caller) : Prop := ∀ c args, K.Calls c args → K.Ensures (call c args) K.Held

variable {K}

theorem Ensures.imp {x : Run α} {P Q : α → Prop} (hx : K.Ensures x P) (h : ∀ a, P a → Q a) :
    K.Ensures x Q := by
  intro s hs
  have hrun := hx s hs
  revert hrun
  cases x s with
  | ok a t => exact fun hrun => ⟨hrun.1, h a hrun.2⟩
  | error e t => exact id

end Storing

namespace Keeping

variable {r : Registry} {α β : Type}

section

variable {K : Storing r}

/-! ## Composition -/

theorem pure {a : α} {P : α → Prop} (h : P a) : K.Ensures (pure a) P := fun _ hs => ⟨hs, h⟩

/-- One action after the other. -/
theorem bind {x : Run α} {f : α → Run β} {P : α → Prop} {Q : β → Prop} (hx : K.Ensures x P)
    (hf : ∀ a, P a → K.Ensures (f a) Q) : K.Ensures (x >>= f) Q := by
  intro s hs
  have hfirst := hx s hs
  change K.After Q (EStateM.bind x f s)
  unfold EStateM.bind
  revert hfirst
  cases x s with
  | ok a t => exact fun hfirst => hf a hfirst.2 t hfirst.1
  | error e t => exact id

theorem ite {c : Prop} [Decidable c] {x y : Run α} {P : α → Prop} (hx : K.Ensures x P)
    (hy : K.Ensures y P) : K.Ensures (if c then x else y) P := by
  split
  · exact hx
  · exact hy

theorem get : K.Ensures MonadState.get K.Inv := fun _ hs => ⟨hs, hs⟩

theorem modify {f : State → State} (hf : ∀ s, K.Inv s → K.Inv (f s)) :
    K.Ensures (modify f) fun _ => True := fun s hs => ⟨hf s hs, trivial⟩

theorem modifyGet {f : State → α × State} {P : α → Prop}
    (hf : ∀ s, K.Inv s → P (f s).1 ∧ K.Inv (f s).2) : K.Ensures (modifyGet f) P :=
  fun s hs => ⟨(hf s hs).2, (hf s hs).1⟩

theorem throw {e : Trap} {P : α → Prop} : K.Ensures (throw e) P := fun _ hs => hs

theorem invalid {d : Defect} {P : α → Prop} : K.Ensures (invalid d) P := throw

theorem ofLookup {e : Except MetadataError α} : K.Ensures (ofLookup e) fun a => e = .ok a := by
  cases e with
  | ok a => exact pure rfl
  | error e => exact invalid

theorem orDangling {a : Addr} {found : Option α} :
    K.Ensures (orDangling a found) fun v => found = some v := by
  cases found with
  | some v => exact pure rfl
  | none => exact invalid

theorem allocObject {ty : TypeId} : K.Ensures (allocObject r ty) fun _ => True := by
  refine bind ofLookup fun layout _ => bind ofLookup fun fields hfields => modifyGet fun s hs => ?_
  refine ⟨trivial, K.newObject ty hs fun v hv => ?_⟩
  obtain ⟨t, ht⟩ := exists_of_mem_mapM hfields v hv
  exact Registry.within_zero ht

theorem throwNew {ty : TypeId} {message : String} {P : α → Prop} :
    K.Ensures (throwNew r ty message) P :=
  bind allocObject fun ref _ => bind (modify fun _ hs => K.setField ref 0 hs trivial) fun _ _ => throw

theorem raise {f : Fault} {P : α → Prop} : K.Ensures (raise r f) P := throwNew

theorem ofNumeric {e : Except NumFault α} : K.Ensures (ofNumeric r e) fun _ => True := by
  cases e with
  | ok a => exact pure trivial
  | error f =>
      cases f with
      | overflow | divideByZero => exact raise
      | _ => exact invalid

end

/-! ## The evaluation stack -/

section

variable {K : Keeping r}

theorem modifyStack {change : Frame → List Value}
    (h : ∀ f, (∀ v ∈ f.stack, K.Held v) → ∀ v ∈ change f, K.Held v) :
    K.Ensures (modifyFrame fun f => { f with stack := change f }) fun _ => True := by
  intro s hs
  unfold modifyFrame
  cases hframes : s.frames with
  | nil => exact hs
  | cons f rest => exact ⟨K.setStack hs hframes (h f (K.stack hs hframes)), trivial⟩

theorem push {v : Value} (hv : K.Held v) : K.Ensures (push v) fun _ => True :=
  modifyStack fun _ hf => List.forall_mem_cons.mpr ⟨hv, hf⟩

theorem resetToMark {mark : Nat} : K.Ensures (resetToMark mark) fun _ => True :=
  modifyStack fun _ hf v hv => hf v (List.mem_of_mem_drop hv)

/-- A value is popped. -/
theorem pop : K.Ensures pop K.Held := by
  intro s hs
  unfold Run.pop
  cases hframes : s.frames with
  | nil => exact hs
  | cons f rest =>
      have hstack := K.stack hs hframes
      obtain ⟨args, locals, stack, handling⟩ := f
      cases stack with
      | nil => exact hs
      | cons v vs =>
          obtain ⟨hv, hvs⟩ := List.forall_mem_cons.mp hstack
          exact ⟨K.setStack hs hframes hvs, hv⟩

/-- Values are popped. -/
theorem popN {n : Nat} : K.Ensures (popN n) fun vs => ∀ v ∈ vs, K.Held v := by
  intro s hs
  unfold Run.popN
  cases hframes : s.frames with
  | nil => exact hs
  | cons f rest =>
      have hstack := K.stack hs hframes
      dsimp only
      split
      · exact hs
      · exact ⟨K.setStack hs hframes fun v hv => hstack v (List.mem_of_mem_drop hv),
          fun v hv => hstack v (List.mem_of_mem_take (List.mem_reverse.mp hv))⟩

theorem popNum : K.Ensures popNum fun _ => True := by
  refine bind pop fun v _ => ?_
  cases v with
  | num n => exact pure trivial
  | _ => exact invalid

theorem popIndex : K.Ensures popIndex fun _ => True := by
  refine bind pop fun v _ => ?_
  cases v.toIndex? with
  | some i => exact pure trivial
  | none => exact invalid

theorem popAddr : K.Ensures (popAddr r) (·.Within K.reach) := by
  refine bind pop fun v hv => ?_
  cases v with
  | addr a => exact pure hv
  | null => exact raise
  | _ => exact invalid

theorem pushNext {v : Value} (hv : K.Held v) : K.Ensures (pushNext v) (· = .next) :=
  bind (push hv) fun _ _ => pure rfl

end

/-! ## Locals and arguments -/

section

variable {K : Storing r}

theorem frame?_current (f : Frame) (rest : List Frame) : frame? (f :: rest) rest.length = some f := by
  simp [frame?, framePlace?]

theorem setFrame_current (f g : Frame) (rest : List Frame) :
    setFrame (f :: rest) rest.length g = g :: rest := by
  simp [setFrame, framePlace?]

theorem currentFrame : K.Ensures currentFrame fun k => ∃ s, K.Inv s ∧ k = s.frames.length - 1 :=
  bind get fun s hs => pure ⟨s, hs, rfl⟩

/-- A local of the current call. -/
theorem loadLocal {n : Nat} (hn : K.Slot n) : K.Ensures (loadLocal n) K.Held := by
  intro s hs
  unfold Run.loadLocal
  cases hframes : s.frames with
  | nil => exact hs
  | cons f rest =>
      dsimp only
      cases hv : f.locals[n]? with
      | none => exact hs
      | some v =>
          have hslot := K.ownSlot hs hn
          rw [hframes] at hslot
          refine ⟨hs, K.slot hs hslot ?_ hv⟩
          rw [hframes]
          exact frame?_current f rest

/-- A local of the current call is written. -/
theorem storeLocal {n : Nat} {v : Value} (hn : K.Slot n) (hv : K.Held v) :
    K.Ensures (storeLocal n v) fun _ => True := by
  intro s hs
  obtain ⟨heap, frames, statics⟩ := s
  unfold Run.storeLocal
  cases frames with
  | nil => exact hs
  | cons f rest =>
      have hset := K.setSlot hs hs (K.ownSlot hs hn) (frame?_current f rest) hv
      obtain ⟨args, locals, stack, handling⟩ := f
      dsimp only [List.length_cons, Nat.add_one_sub_one] at hset ⊢
      rw [setFrame_current] at hset
      split
      · exact ⟨hset, trivial⟩
      · exact hs

/-- An argument of the current call. -/
theorem loadArg {n : Nat} (hn : K.Arg n) : K.Ensures (loadArg n) K.Held := by
  intro s hs
  unfold Run.loadArg
  cases hframes : s.frames with
  | nil => exact hs
  | cons f rest =>
      dsimp only
      cases hv : f.args[n]? with
      | none => exact hs
      | some v => exact ⟨hs, K.named hs hframes hn hv⟩

/-- An argument of the current call is written. -/
theorem storeArg {n : Nat} {v : Value} (hn : K.Arg n) (hv : K.Held v) :
    K.Ensures (storeArg n v) fun _ => True := by
  intro s hs
  unfold Run.storeArg
  cases hframes : s.frames with
  | nil => exact hs
  | cons f rest =>
      have harg := K.ownArg hs hn
      have hcurrent : frame? s.frames (s.frames.length - 1) = some f := by
        rw [hframes]
        exact frame?_current f rest
      dsimp only
      split
      · next hlt =>
          have hold : f.args[n]? = some f.args[n] := Array.getElem?_eq_getElem hlt
          have hset := K.setArg hs hs harg hcurrent hold (K.named hs hframes hn hold) hv
          rw [hframes] at hset
          dsimp only [List.length_cons, Nat.add_one_sub_one] at hset
          rw [setFrame_current] at hset
          exact ⟨hset, trivial⟩
      · exact hs

/-! ## Storage -/

theorem loadStatic {f : FieldRef} : K.Ensures (loadStatic r f) K.Held := by
  refine bind get fun s hs => ?_
  cases hv : s.statics.get? f with
  | some v => exact pure (K.static hs hv)
  | none => exact bind ofLookup fun d _ => ofLookup.imp fun v hv => Registry.within_zero hv

theorem storeStatic {f : FieldRef} {v : Value} (hv : K.Held v) :
    K.Ensures (storeStatic f v) fun _ => True :=
  modify fun _ hs => K.setStatic f hs hv

theorem held_elem {s : State} {ref : Ref} {n : Nat} {v : Value} (hs : K.Inv s)
    (href : K.reach.array ref) (hv : s.heap.elem? ref n = some v) : K.Held v := by
  obtain ⟨c, hc, hv⟩ := Option.bind_eq_some_iff.mp hv
  exact K.elems hs href hc v (Array.mem_of_getElem? hv)

/-- The value at an address. -/
theorem loadAddr {a : Addr} (ha : a.Within K.reach) :
    K.Ensures (loadAddr r a) fun v => K.Held v ∨ a.isArg = true ∧ ∃ ref, v = .array ref := by
  induction a with
  | «local» k n =>
      refine bind get fun s hs => orDangling.imp fun v hv => ?_
      obtain ⟨f, hf, hv⟩ := Option.bind_eq_some_iff.mp hv
      exact .inl (K.slot hs ha hf hv)
  | arg k n =>
      refine bind get fun s hs => orDangling.imp fun v hv => ?_
      obtain ⟨f, hf, hv⟩ := Option.bind_eq_some_iff.mp hv
      exact (K.arg hs ha hf hv).imp_right fun h => ⟨rfl, h⟩
  | field ref n => exact bind get fun s hs => orDangling.imp fun v hv => .inl (K.field hs hv)
  | static f => exact loadStatic.imp fun _ hv => .inl hv
  | elem ref n => exact bind get fun s hs => orDangling.imp fun v hv => .inl (held_elem hs ha hv)
  | inner base n ih =>
      refine bind (ih ha) fun v hv => ?_
      cases v with
      | struct ty fields =>
          have hfields : K.Held (.struct ty fields) := hv.resolve_right fun h => nomatch h.2
          exact orDangling.imp fun w hw =>
            .inl (Value.allWithin_iff.mp hfields w (List.mem_of_getElem? hw))
      | object ref => exact bind get fun s hs => orDangling.imp fun w hw => .inl (K.field hs hw)
      | null => exact raise
      | _ => exact invalid

theorem loadDirect {a : Addr} (ha : a.Within K.reach) (harg : a.isArg = false) :
    K.Ensures (Run.loadAddr r a) K.Held :=
  (loadAddr ha).imp fun _ hv => hv.resolve_right fun h => Bool.false_ne_true (harg.symm.trans h.1)

/-- The values of an array with one of them replaced. -/
theorem forall_mem_setIfInBounds {P : Value → Prop} {data : Array Value} {n : Nat} {v : Value}
    (h : ∀ w ∈ data, P w) (hv : P v) : ∀ w ∈ data.setIfInBounds n v, P w := by
  intro w hw
  rcases Array.mem_or_eq_of_mem_setIfInBounds hw with hw | rfl
  · exact h w hw
  · exact hv

/-- Reading through an address leaves the state as it is. -/
theorem eq_of_loadAddr {a : Addr} {v : Value} {s t : State} (h : Run.loadAddr r a s = .ok v t) :
    t = s := by
  have hfound : ∀ {α : Type} {a : Addr} {found : Option α} {v : α} {s t : State},
      Run.orDangling a found s = .ok v t → t = s := by
    intro α a found v s t h
    cases found <;> cases h
    rfl
  induction a generalizing v t with
  | static f =>
      obtain ⟨_, _, hget, h⟩ := ok_of_bind h
      cases hget
      cases hv : s.statics.get? f with
      | some w =>
          rw [hv] at h
          cases h
          rfl
      | none =>
          rw [hv] at h
          obtain ⟨_, _, hd, h⟩ := ok_of_bind h
          rw [(ofLookup_eq_ok h).2, (ofLookup_eq_ok hd).2]
  | inner base n ih =>
      obtain ⟨w, u, hw, h⟩ := ok_of_bind h
      rw [ih hw] at h
      cases w with
      | struct ty fields => exact hfound h
      | object ref => exact hfound h
      | null =>
          obtain ⟨_, _, -, h⟩ := ok_of_bind h
          obtain ⟨_, _, -, h⟩ := ok_of_bind h
          cases h
      | _ => cases h
  | _ => exact hfound h

/-- A value is written to an address where the argument that it may lead to can be replaced. -/
theorem storeAddr {a : Addr} {v : Value} {s : State} (ha : a.Within K.reach) (hv : K.Held v)
    (hs : K.Inv s) (hold : a.isArg = true → ∀ w t, Run.loadAddr r a s = .ok w t → K.Held w) :
    K.After (fun _ => True) (storeAddr r a v s) := by
  induction a generalizing v with
  | «local» k n =>
      refine bind get (fun s₀ hs₀ => bind orDangling fun f hf => ?_) s hs
      split
      · exact modify fun s hs => K.setSlot hs₀ hs ha hf hv
      · exact invalid
  | arg k n =>
      unfold Run.storeAddr
      change K.After _ (EStateM.bind (Run.orDangling _ _) _ s)
      cases hf : frame? s.frames k with
      | none => exact hs
      | some f =>
          change K.After _ ((if n < f.args.size then _ else _ : Run PUnit) s)
          split
          · next hlt =>
              have hget : f.args[n]? = some f.args[n] := Array.getElem?_eq_getElem hlt
              refine ⟨K.setArg hs hs ha hf hget (hold rfl f.args[n] s ?_) hv, trivial⟩
              change Run.orDangling _ ((frame? s.frames k).bind fun f => f.args[n]?) s = _
              rw [hf]
              change Run.orDangling _ f.args[n]? s = _
              rw [hget]
              rfl
          · exact hs
  | field ref n =>
      exact bind get (fun _ _ => bind orDangling fun _ _ => modify fun _ hs => K.setField ref n hs hv) s hs
  | static f => exact storeStatic hv s hs
  | elem ref n =>
      refine bind get (fun _ _ => bind orDangling fun _ _ => modify fun s hs => ?_) s hs
      exact K.setElems hs ha (fun _ => Array.size_setIfInBounds)
        fun data hdata => forall_mem_setIfInBounds hdata hv
  | inner base n ih =>
      have hbase := loadAddr (K := K) (a := base) ha s hs
      change K.After _ (EStateM.bind (Run.loadAddr r base) _ s)
      unfold EStateM.bind
      revert hbase
      cases hload : Run.loadAddr r base s with
      | error e t => exact fun hbase => hbase
      | ok w t =>
          rintro ⟨-, hw⟩
          cases eq_of_loadAddr hload
          cases w with
          | struct ty fields =>
              have hfields : K.Held (.struct ty fields) := hw.resolve_right fun h => nomatch h.2
              dsimp only
              split
              · refine ih ha (Value.allWithin_iff.mpr fun w hw => ?_) fun _ w t hw => ?_
                · rcases List.mem_or_eq_of_mem_set hw with hw | rfl
                  · exact Value.allWithin_iff.mp hfields w hw
                  · exact hv
                · cases hload.symm.trans hw
                  exact hfields
              · exact hs
          | object ref =>
              exact bind get (fun _ _ => bind orDangling fun _ _ =>
                modify fun _ hs => K.setField ref n hs hv) s hs
          | null => exact raise s hs
          | _ => exact hs

theorem storeDirect {a : Addr} {v : Value} (ha : a.Within K.reach) (harg : a.isArg = false)
    (hv : K.Held v) : K.Ensures (Run.storeAddr r a v) fun _ => True :=
  fun _ hs => storeAddr ha hv hs fun h => absurd (harg.symm.trans h) Bool.false_ne_true

theorem held_slot {s : State} {v w : Value} {n : Nat} (hs : K.Inv s) (hv : K.Held v)
    (hw : slot? s.heap v n = some w) : K.Held w := by
  cases v with
  | object ref => exact K.field hs hw
  | struct ty fields => exact Value.allWithin_iff.mp hv w (List.mem_of_getElem? hw)
  | _ => cases hw

/-- A field of a receiver. -/
theorem loadField {receiver : Value} {f : FieldRef} (h : K.Held receiver) :
    K.Ensures (loadField r receiver f) K.Held := by
  refine bind ofLookup fun n _ => ?_
  cases receiver with
  | null => exact raise
  | addr a =>
      refine bind (loadAddr h) fun v hv => bind get fun s hs => ?_
      split
      · next w hw =>
          rcases hv with hv | ⟨-, ref, rfl⟩
          · exact pure (held_slot hs hv hw)
          · cases hw
      · exact invalid
  | _ =>
      refine bind get fun s hs => ?_
      split
      · next w hw => exact pure (held_slot hs h hw)
      · exact invalid

/-- A field of a receiver is written. -/
theorem storeField {receiver v : Value} {f : FieldRef} (h : K.Held receiver) (hv : K.Held v) :
    K.Ensures (storeField r receiver f v) fun _ => True := by
  refine bind ofLookup fun n _ => ?_
  cases receiver with
  | null => exact raise
  | object ref =>
      refine bind get fun s _ => ?_
      split
      · exact modify fun _ hs => K.setField ref n hs hv
      · exact invalid
  | addr base => exact storeDirect h rfl hv
  | _ => exact invalid

theorem fieldAddr {receiver : Value} {n : Nat} (h : K.Held receiver) :
    K.Ensures (fieldAddr r receiver n) (·.Within K.reach) := by
  cases receiver with
  | object ref => exact pure trivial
  | addr base => exact pure h
  | null => exact raise
  | _ => exact invalid

/-! ## Arrays -/

/-- The cell of an array. -/
theorem arrayCell {v : Value} {other : Value → Defect} (hv : K.Held v) :
    K.Ensures (arrayCell r v other) fun x => K.reach.array x.1 := by
  cases v with
  | array ref =>
      refine bind get fun s _ => ?_
      split
      · exact pure hv
      · exact invalid
  | null => exact raise
  | _ => exact invalid

theorem elementAddr {v : Value} {index : Int} (hv : K.Held v) :
    K.Ensures (elementAddr r v index) fun a => a.Within K.reach ∧ a.isArg = false := by
  refine bind (arrayCell hv) fun x hx => ?_
  obtain ⟨ref, c⟩ := x
  dsimp only
  split
  · exact pure ⟨hx, rfl⟩
  · exact raise

theorem mdAddr {v : Value} {indices : List Int} (hv : K.Held v) :
    K.Ensures (mdAddr r v indices) fun a => a.Within K.reach ∧ a.isArg = false := by
  refine bind (arrayCell hv) fun x hx => ?_
  obtain ⟨ref, c⟩ := x
  dsimp only
  split
  · exact pure ⟨hx, rfl⟩
  · exact raise

theorem allocArray {elem : Ty} {dims : List Int} : K.Ensures (Run.newArray r elem dims) K.Held := by
  unfold Run.newArray
  split
  · exact raise
  · refine bind ofLookup fun zero hzero => ite throw (modifyGet fun s hs => ?_)
    refine K.newArray hs (filled_replicate elem _ zero) fun v hv => ?_
    rw [Array.eq_of_mem_replicate hv]
    exact Registry.within_zero hzero

/-! ## Type tests and comparisons -/

theorem ofCompare {e : Except Defect Bool} : K.Ensures (ofCompare e) fun _ => True := by
  cases e with
  | ok b => exact pure trivial
  | error d => exact invalid

/-- A value taken out of a slot of the root type. -/
theorem unbox {v : Value} {t : Ty} (hv : K.Held v) : K.Ensures (unbox r v t) K.Held := by
  refine bind get fun s _ => ?_
  dsimp only
  split
  · split
    · exact pure trivial
    · split
      · exact pure hv
      · exact raise
  · split
    · split
      · exact raise
      · exact pure hv
    · split
      · exact pure hv
      · exact raise

/-- A bitwise operation. -/
theorem bitwise {op : BitOp} {a b : Value} : K.Ensures (bitwise r op a b) K.Held := by
  unfold Run.bitwise
  split
  · split
    · exact pure trivial
    · exact pure trivial
    · exact pure trivial
    · exact invalid
    · exact invalid
  · exact bind ofNumeric fun _ _ => pure trivial
  · exact invalid

theorem complement {v : Value} : K.Ensures (complement r v) K.Held := by
  cases v with
  | bool b => exact pure trivial
  | num n => exact bind ofNumeric fun _ _ => pure trivial
  | _ => exact invalid

theorem switchKey {v : Value} : K.Ensures (switchKey v) fun _ => True := by
  cases v with
  | num n => exact pure trivial
  | bool b => exact pure trivial
  | str s => exact pure trivial
  | _ => exact invalid

/-- A throw. -/
theorem throwValue {v : Value} {P : α → Prop} : K.Ensures (throwValue r v) P := by
  cases v with
  | object ref =>
      refine bind get fun s _ => ?_
      split
      · split
        · exact throw
        · exact invalid
      · exact invalid
  | null => exact raise
  | _ => exact invalid

/-- The exception that is being handled. -/
theorem handled : K.Ensures handled fun _ => True := by
  intro s hs
  unfold Run.handled
  cases s.frames with
  | nil => exact hs
  | cons f rest =>
      dsimp only
      cases f.handling with
      | nil => exact hs
      | cons x _ => exact ⟨hs, trivial⟩

/-! ## Intrinsics -/

/-- The cell of a list. -/
theorem listCell {v : Value} :
    K.Ensures (listCell r v) fun x => ∃ s, K.Inv s ∧ s.heap.lists[x.1]? = some x.2 := by
  cases v with
  | list ref =>
      refine bind get fun s hs => ?_
      split
      · next c hc => exact pure ⟨s, hs, hc⟩
      · exact invalid
  | null => exact raise
  | _ => exact invalid

theorem modifyList {ref : Ref} {change : Array Value → Array Value}
    (h : ∀ data : Array Value, (∀ v ∈ data, K.Held v) → ∀ v ∈ change data, K.Held v) :
    K.Ensures (modifyList ref change) fun _ => True :=
  modify fun _ hs => K.setItems ref hs h

/-- A resized array. -/
theorem resize {elem : Ty} {old : Value} {size : Int} (h : K.Held old) :
    K.Ensures (resize r elem old size) K.Held := by
  unfold Run.resize
  split
  · exact raise
  · refine bind allocArray fun fresh hfresh => ?_
    cases old with
    | array source =>
        cases fresh with
        | array target =>
            refine bind (modify fun s hs => ?_) fun _ _ => pure hfresh
            refine K.setElems hs hfresh (fun _ => size_overwrite) fun data hdata v hv => ?_
            rcases List.mem_append.mp (List.mem_toArray.mp hv) with hv | hv
            · cases hc : s.heap.arrays[source]? with
              | none => simp [hc] at hv
              | some c =>
                  simp only [hc, Option.map_some, Option.getD_some] at hv
                  exact K.elems hs h hc v (Array.mem_toList_iff.mp (List.mem_of_mem_take hv))
            · exact hdata v (Array.mem_toList_iff.mp (List.mem_of_mem_drop hv))
        | _ => exact pure hfresh
    | _ => cases fresh <;> exact pure hfresh

/-- An intrinsic. -/
theorem intrinsic {op : Intrinsic} {args : List Value} (h : ∀ v ∈ args, K.Held v) :
    K.Ensures (intrinsic r op args) K.Held := by
  have harg : ∀ i : Nat, K.Held (args[i]?.getD .null) := by
    intro i
    cases hv : args[i]? with
    | none => trivial
    | some v => exact h v (List.mem_of_getElem? hv)
  unfold Run.intrinsic
  split
  · exact invalid
  dsimp only
  split
  · refine bind listCell fun x _ => bind (modifyList fun data hdata v hv => ?_) fun _ _ => pure trivial
    rcases Array.mem_push.mp hv with hv | rfl
    · exact hdata v hv
    · exact harg 1
  · refine bind listCell fun x ⟨s, hs, hc⟩ => ?_
    split
    · refine pure ?_
      cases hv : x.2.items[(indexOf (args[1]?.getD .null)).toNat]? with
      | none => trivial
      | some v => exact K.items hs hc v (Array.mem_of_getElem? hv)
    · exact raise
  · refine bind listCell fun x _ => ?_
    split
    · exact bind (modifyList fun data hdata => forall_mem_setIfInBounds hdata (harg 2))
        fun _ _ => pure trivial
    · exact raise
  · exact bind listCell fun x _ => pure trivial
  · exact resize (harg 0)
  · exact bind (mdAddr (harg 0)) fun a ha => loadDirect ha.1 ha.2
  · exact bind (mdAddr (harg 0)) fun a ha => bind (storeDirect ha.1 ha.2 (harg _)) fun _ _ => pure trivial
  · refine bind (arrayCell (harg 0)) fun x _ => ?_
    split
    · exact pure trivial
    · exact raise
  · exact pure trivial
  · split
    · exact pure trivial
    · exact raise
    · exact invalid
  · split
    · exact pure trivial
    · exact pure trivial

/-! ## Calls -/

variable {call : Caller}

/-- A function value is called. -/
theorem callValue (hcall : K.Serves call) {f : Value} {args : List Value}
    (h : ∀ v ∈ args, K.Held v) : K.Ensures (callValue r call f args) K.Held := by
  cases f with
  | func ref =>
      refine bind get fun s hs => ?_
      split
      · next c hc => exact hcall _ _ (K.function hs hc h)
      · exact invalid
  | null => exact raise
  | _ => exact invalid

theorem held_headD {args : List Value} (h : ∀ v ∈ args, K.Held v) : K.Held (args.headD .null) := by
  cases args with
  | nil => trivial
  | cons v args => exact h v List.mem_cons_self

/-- The body of a method is run. -/
theorem runBody (hcall : K.Serves call) {id : TypeId} {index : Nat} {d : MethodDef}
    (hd : r.method id index = .ok d) {kind : MethodKind} {args : List Value}
    (h : ∀ v ∈ args, K.Held v) : K.Ensures (runBody r call d.body kind args) K.Held := by
  have hlast : K.Held (args.getLastD .null) := by
    rw [List.getLastD_eq_getLast?]
    cases hv : args.getLast? with
    | none => trivial
    | some v => exact h v (List.mem_of_getLast? hv)
  cases hbody : d.body with
  | host method => exact hcall _ _ (K.method hd (congrArg MethodBody.callee? hbody) h)
  | routine c => exact hcall _ _ (K.method hd (congrArg MethodBody.callee? hbody) h)
  | empty => exact pure trivial
  | getter f =>
      unfold Run.runBody
      dsimp only
      split
      · exact loadStatic
      · exact loadField (held_headD h)
  | setter f =>
      unfold Run.runBody
      dsimp only
      split
      · exact bind (storeStatic hlast) fun _ _ => pure trivial
      · exact bind (storeField (held_headD fun v hv => h v ((List.dropLast_sublist args).subset hv)) hlast)
          fun _ _ => pure trivial

theorem callMethod (hcall : K.Serves call) {m : MethodRef} {args : List Value}
    (h : ∀ v ∈ args, K.Held v) : K.Ensures (callMethod r call m args) K.Held := by
  cases m with
  | intrinsic op => exact intrinsic h
  | method id index =>
      refine bind ofLookup fun d hd => ?_
      split
      · exact raise
      · exact runBody hcall hd h

end

/-- An instance is created. -/
theorem construct {K : Keeping r} {call : Caller} (hcall : K.Serves call) {m : MethodRef} :
    K.Ensures (construct r call m) K.Held := by
  cases m with
  | intrinsic op => exact invalid
  | method id index =>
      refine bind ofLookup fun d hd => ?_
      split
      · exact invalid
      · refine bind popN fun args hargs => bind ofLookup fun own _ => ?_
        have hbody : ∀ fresh, K.Held fresh →
            K.Ensures (Run.runBody r call d.body d.kind (fresh :: args)) K.Held :=
          fun fresh hfresh => runBody hcall hd (List.forall_mem_cons.mpr ⟨hfresh, hargs⟩)
        cases own with
        | structTy _ =>
            refine bind ofLookup fun fresh hfresh =>
              bind (hbody fresh (Registry.within_zero hfresh)) fun v hv => ?_
            cases v with
            | struct ty fields => exact pure hv
            | _ => exact pure (Registry.within_zero hfresh)
        | _ =>
            refine bind allocObject fun ref _ => bind (pure (show K.Held (.object ref) from trivial))
              fun fresh hfresh => bind (hbody fresh hfresh) fun v hv => ?_
            cases v with
            | struct ty fields => exact pure hv
            | _ => exact pure hfresh

/-! ## Instructions -/

variable {K : Keeping r}

variable (K) in
/-- The instruction names locals, arguments and children that may be named, and goes through addresses
only where every array is within the bounds. -/
structure Plain (R : Routine) (i : Instr) : Prop where
  slots : ∀ n ∈ i.slots, K.Slot n
  args : ∀ n ∈ i.args, K.Arg n
  indirect : i.isIndirect = true → ∀ ref, K.reach.array ref
  pointer : ∀ n c, i = .loadFunction n → R.children[n]? = some c → K.reach.routine c
  child : ∀ n c args, i = .callChild n → R.children[n]? = some c → (∀ v ∈ args, K.Held v) →
    K.Calls (.routine c) args

variable (K) in
/-- Where an instruction can lead, and that it returns a value within the bounds. -/
def Leads (R : Routine) (i : Instr) : Flow → Prop
  | .next => i.fallsThrough = true
  | .jump pc | .leave pc => ∃ l ∈ i.labels, R.target? l = some pc
  | .ret v => K.Held v
  | .endFinally | .endFilter _ => i.fallsThrough = false

theorem target {R : Routine} {l : Label} : K.Ensures (target R l) fun pc => R.target? l = some pc := by
  unfold Run.target
  split
  · next pc hpc => exact pure hpc
  · exact invalid

theorem child {R : Routine} {n : Nat} : K.Ensures (child R n) fun c => R.children[n]? = some c := by
  unfold Run.child
  split
  · next c hc => exact pure hc
  · exact invalid

theorem jumpWhen {R : Routine} {i : Instr} {condition : Bool} {l : Label} (hl : l ∈ i.labels)
    (hi : i.fallsThrough = true) : K.Ensures (jumpWhen R condition l) (K.Leads R i) := by
  unfold Run.jumpWhen
  split
  · exact bind target fun pc hpc => pure ⟨l, hl, hpc⟩
  · exact pure hi

theorem next {R : Routine} {i : Instr} (hi : i.fallsThrough = true) :
    K.Ensures (Pure.pure .next) (K.Leads R i) := pure hi

theorem pushLeads {R : Routine} {i : Instr} {v : Value} (hi : i.fallsThrough = true)
    (hv : K.Held v) : K.Ensures (Run.pushNext v) (K.Leads R i) :=
  (pushNext hv).imp fun _ h => by
    rw [h]
    exact hi

theorem held_of_found {v : Value} {found : Prop} (hall : ∀ ref, K.reach.array ref)
    (h : K.Held v ∨ found ∧ ∃ ref, v = .array ref) : K.Held v := by
  rcases h with h | ⟨-, ref, rfl⟩
  · exact h
  · exact hall ref

/-- A value is written to any address, where every array is within the bounds. -/
theorem storeAny {a : Addr} {v : Value} (ha : a.Within K.reach) (hv : K.Held v)
    (hall : ∀ ref, K.reach.array ref) : K.Ensures (Run.storeAddr r a v) fun _ => True := by
  refine fun s hs => storeAddr ha hv hs fun _ w t hw => ?_
  have hfound := loadAddr (K := K.toStoring) ha s hs
  rw [hw] at hfound
  exact held_of_found hall hfound.2

/-- An instruction keeps the invariant if the calls that it makes do. -/
theorem step {call : Caller} (hcall : K.Serves call) {R : Routine} {i : Instr} (h : K.Plain R i) :
    K.Ensures (step r call R i) (K.Leads R i) := by
  cases i with
  | nop => exact next rfl
  | const c => exact pushLeads rfl (Value.within_ofLiteral c)
  | loadDefault t => exact bind ofLookup fun v hv => pushLeads rfl (Registry.within_zero hv)
  | loadArg n => exact bind (loadArg (h.args n List.mem_cons_self)) fun v hv => pushLeads rfl hv
  | loadArgAddr n =>
      refine bind currentFrame fun k ⟨s, hs, hk⟩ => pushLeads rfl ?_
      rw [hk]
      exact K.ownArg hs (h.args n List.mem_cons_self)
  | storeArg n =>
      exact bind pop fun v hv => bind (storeArg (h.args n List.mem_cons_self) hv) fun _ _ => next rfl
  | loadLocal n => exact bind (loadLocal (h.slots n List.mem_cons_self)) fun v hv => pushLeads rfl hv
  | loadLocalAddr n =>
      refine bind currentFrame fun k ⟨s, hs, hk⟩ => pushLeads rfl ?_
      rw [hk]
      exact K.ownSlot hs (h.slots n List.mem_cons_self)
  | storeLocal n =>
      exact bind pop fun v hv => bind (storeLocal (h.slots n List.mem_cons_self) hv) fun _ _ => next rfl
  | dup => exact bind pop fun v hv => bind (push hv) fun _ _ => pushLeads rfl hv
  | pop => exact bind pop fun _ _ => next rfl
  | arith op checked =>
      exact bind popNum fun _ _ => bind popNum fun _ _ => bind ofNumeric fun _ _ => pushLeads rfl trivial
  | bitwise op =>
      exact bind pop fun _ _ => bind pop fun _ _ => bind bitwise fun v hv => pushLeads rfl hv
  | neg checked => exact bind popNum fun _ _ => bind ofNumeric fun _ _ => pushLeads rfl trivial
  | not => exact bind pop fun _ _ => bind complement fun v hv => pushLeads rfl hv
  | conv k checked => exact bind popNum fun _ _ => bind ofNumeric fun _ _ => pushLeads rfl trivial
  | compare op =>
      exact bind pop fun _ _ => bind pop fun _ _ => bind ofCompare fun _ _ => pushLeads rfl trivial
  | jump l => exact bind target fun pc hpc => pure ⟨l, List.mem_cons_self, hpc⟩
  | jumpIfTrue l => exact bind pop fun _ _ => jumpWhen List.mem_cons_self rfl
  | jumpIfFalse l => exact bind pop fun _ _ => jumpWhen List.mem_cons_self rfl
  | jumpIfAbsent l => exact bind pop fun _ _ => jumpWhen List.mem_cons_self rfl
  | jumpIfPresent l => exact bind pop fun _ _ => jumpWhen List.mem_cons_self rfl
  | switch ls =>
      refine bind popIndex fun n _ => ?_
      split
      · next l hl =>
          split at hl
          · exact bind target fun pc hpc => pure ⟨l, List.mem_of_getElem? hl, hpc⟩
          · cases hl
      · exact next rfl
  | leave l => exact bind target fun pc hpc => pure ⟨l, List.mem_cons_self, hpc⟩
  | endFinally => exact pure rfl
  | endFilter => exact bind pop fun _ _ => pure rfl
  | throw => exact bind pop fun _ _ => throwValue
  | rethrow => exact bind handled fun _ _ => throw
  | ret =>
      unfold Run.step
      dsimp only
      split
      · exact pure trivial
      · exact bind pop fun v hv => pure hv
  | newObject m => exact bind (construct hcall) fun v hv => pushLeads rfl hv
  | initObject t =>
      exact bind popAddr fun a ha => bind ofLookup fun v hv =>
        bind (storeAny ha (Registry.within_zero hv) (h.indirect rfl)) fun _ _ => next rfl
  | loadField f => exact bind pop fun v hv => bind (loadField hv) fun w hw => pushLeads rfl hw
  | loadFieldAddr f =>
      exact bind ofLookup fun n _ => bind pop fun v hv => bind (fieldAddr hv) fun a ha =>
        pushLeads rfl ha
  | storeField f =>
      exact bind pop fun v hv => bind pop fun w hw => bind (storeField hw hv) fun _ _ => next rfl
  | loadStatic f => exact bind loadStatic fun v hv => pushLeads rfl hv
  | loadStaticAddr f => exact pushLeads rfl trivial
  | storeStatic f => exact bind pop fun v hv => bind (storeStatic hv) fun _ _ => next rfl
  | call m =>
      refine bind ofLookup fun sig _ => bind popN fun args hargs =>
        bind (callMethod hcall hargs) fun v hv => ?_
      split
      · exact next rfl
      · exact pushLeads rfl hv
  | callChild n =>
      refine bind child fun c hc => bind popN fun args hargs =>
        bind (hcall (.routine c) args (h.child n c args rfl hc hargs)) fun v hv => ?_
      split
      · exact next rfl
      · exact pushLeads rfl hv
  | newArray t => exact bind popIndex fun _ _ => bind allocArray fun v hv => pushLeads rfl hv
  | newMdArray t rank =>
      refine bind popN fun bounds _ => ?_
      split
      · exact bind allocArray fun v hv => pushLeads rfl hv
      · exact invalid
  | newList t =>
      exact bind (modifyGet (P := K.Held) fun s hs => ⟨trivial, K.newList t hs⟩) fun v hv =>
        pushLeads rfl hv
  | loadLength => exact bind pop fun v hv => bind (arrayCell hv) fun _ _ => pushLeads rfl trivial
  | loadElem =>
      exact bind popIndex fun _ _ => bind pop fun v hv => bind (elementAddr hv) fun a ha =>
        bind (loadDirect ha.1 ha.2) fun w hw => pushLeads rfl hw
  | loadElemAddr =>
      exact bind popIndex fun _ _ => bind pop fun v hv => bind (elementAddr hv) fun a ha =>
        pushLeads rfl ha.1
  | storeElem =>
      exact bind pop fun w hw => bind popIndex fun _ _ => bind pop fun v hv =>
        bind (elementAddr hv) fun a ha => bind (storeDirect ha.1 ha.2 hw) fun _ _ => next rfl
  | loadIndirect =>
      exact bind popAddr fun a ha => bind (loadAddr ha) fun v hv =>
        pushLeads rfl (held_of_found (h.indirect rfl) hv)
  | storeIndirect =>
      exact bind pop fun v hv => bind popAddr fun a ha =>
        bind (storeAny ha hv (h.indirect rfl)) fun _ _ => next rfl
  | optHasValue => exact bind pop fun _ _ => pushLeads rfl trivial
  | optValueOrDefault t =>
      have hzero : K.Ensures (do Run.pushNext (← Run.ofLookup (r.zero t)))
          (K.Leads R (.optValueOrDefault t)) :=
        bind ofLookup fun v hv => pushLeads rfl (Registry.within_zero hv)
      refine bind pop fun v hv => ?_
      cases v with
      | present w => exact pushLeads rfl hv
      | absent => exact hzero
      | null => exact hzero
      | _ => exact pushLeads rfl hv
  | optValue =>
      refine bind pop fun v hv => ?_
      cases v with
      | present w => exact pushLeads rfl hv
      | absent => exact raise
      | null => exact raise
      | _ => exact pushLeads rfl hv
  | optWrap =>
      refine bind pop fun v hv => ?_
      cases v with
      | present w => exact pushLeads rfl hv
      | absent => exact pushLeads rfl trivial
      | _ => exact pushLeads rfl hv
  | isInstance t exact =>
      refine bind pop fun v hv => bind get fun s _ => pushLeads rfl ?_
      split
      · exact hv
      · trivial
  | castClass t =>
      refine bind pop fun v hv => bind get fun s _ => ?_
      split
      · exact pushLeads rfl hv
      · exact raise
  | box t => exact bind pop fun v hv => pushLeads rfl (Value.within_boxed hv)
  | unbox t => exact bind pop fun v hv => bind (unbox hv) fun w hw => pushLeads rfl hw
  | loadFunction n => exact bind child fun c hc => pushLeads rfl (h.pointer n c rfl hc)
  | newInvoker n =>
      refine bind pop fun v hv => ?_
      cases v with
      | fnPtr c =>
          exact bind popN fun captured hcaptured =>
            bind (modifyGet (P := K.Held) fun s hs => ⟨trivial, K.newFunction hs hv hcaptured⟩)
              fun w hw => pushLeads rfl hw
      | _ => exact invalid
  | callInvoker n =>
      refine bind popN fun args hargs => bind pop fun f _ => bind get fun s _ =>
        bind (callValue hcall hargs) fun v hv => ?_
      exact ite (pushLeads rfl hv) (next rfl)
  | markStack slot =>
      exact bind get fun s _ => bind (storeLocal (h.slots slot List.mem_cons_self) trivial)
        fun _ _ => next rfl
  | resetStack slot => exact bind resetToMark fun _ _ => next rfl
  | hashBucket size => exact bind pop fun _ _ => bind switchKey fun _ _ => pushLeads rfl trivial

/-! ## What an instruction calls -/

variable (K) in
/-- What is called may be called. -/
def Asked (asked : Option (Callee × List Value)) : Prop :=
  ∀ c args, asked = some (c, args) → K.Calls c args

theorem askNone : K.Ensures (Pure.pure none) K.Asked := pure fun _ _ h => nomatch h

theorem askSome {c : Callee} {args : List Value} (h : K.Calls c args) :
    K.Ensures (Pure.pure (some (c, args))) K.Asked := by
  refine pure fun _ _ heq => ?_
  cases heq
  exact h

theorem valueCallee {f : Value} {args : List Value} (h : ∀ v ∈ args, K.Held v) :
    K.Ensures (valueCallee f args) K.Asked := by
  cases f with
  | func ref =>
      refine bind get fun s hs => ?_
      split
      · next c hc => exact askSome (K.function hs hc h)
      · exact askNone
  | _ => exact askNone

theorem bodyCallee {id : TypeId} {index : Nat} {d : MethodDef} (hd : r.method id index = .ok d)
    {args : List Value} (h : ∀ v ∈ args, K.Held v) : K.Ensures (bodyCallee d.body args) K.Asked := by
  unfold Run.bodyCallee
  cases hcallee : d.body.callee? with
  | some c => exact askSome (K.method hd hcallee h)
  | none => exact askNone

theorem methodCallee {m : MethodRef} {args : List Value} (h : ∀ v ∈ args, K.Held v) :
    K.Ensures (methodCallee r m args) K.Asked := by
  cases m with
  | intrinsic op => exact askNone
  | method id index =>
      refine bind ofLookup fun d hd => ?_
      split
      · exact askNone
      · exact bodyCallee hd h

/-- What a constructor calls. -/
theorem constructorCallee {m : MethodRef} : K.Ensures (constructorCallee r m) K.Asked := by
  cases m with
  | intrinsic op => exact askNone
  | method id index =>
      refine bind ofLookup fun d hd => ?_
      split
      · exact askNone
      · refine bind popN fun args hargs => bind ofLookup fun own _ => ?_
        have hbody : ∀ fresh, K.Held fresh → K.Ensures (Run.bodyCallee d.body (fresh :: args)) K.Asked :=
          fun fresh hfresh => bodyCallee hd (List.forall_mem_cons.mpr ⟨hfresh, hargs⟩)
        cases own with
        | structTy _ => exact bind ofLookup fun fresh hfresh => hbody fresh (Registry.within_zero hfresh)
        | _ => exact bind allocObject fun ref _ => hbody (.object ref) trivial

/-- Up to its call, an instruction keeps the invariant, and what it calls may be called. -/
theorem callee {R : Routine} {i : Instr} (h : K.Plain R i) : K.Ensures (callee r R i) K.Asked := by
  cases i with
  | newObject m => exact constructorCallee
  | call m => exact bind ofLookup fun sig _ => bind popN fun args hargs => methodCallee hargs
  | callChild n =>
      exact bind child fun c hc => bind popN fun args hargs => askSome (h.child n c args rfl hc hargs)
  | callInvoker n => exact bind popN fun args hargs => bind pop fun f _ => valueCallee hargs
  | _ => exact askNone

end Keeping

/-! ## Behind a call -/

variable {r : Registry} {c : Callee} {args all : List Value} {s t : State}

theorem bind_of_ok {α β : Type} {x : Run α} {f : α → Run β} {a : α} (h : x s = .ok a t) :
    (x >>= f) s = f a t := by
  change EStateM.bind x f s = _
  simp only [EStateM.bind, h]

theorem bind_congr_run {α β : Type} {x y : Run α} {f : α → Run β} (h : x s = y t) :
    (x >>= f) s = (y >>= f) t := by
  change EStateM.bind x f s = EStateM.bind y f t
  simp only [EStateM.bind, h]

theorem bind_bind_run {α β γ : Type} (x : Run α) (f : α → Run β) (g : β → Run γ) (s : State) :
    (x >>= f >>= g) s = (x >>= fun a => f a >>= g) s := by
  rw [bind_assoc]

/-- A function value calls its routine and nothing else. -/
theorem callValue_eq {f : Value} (h : valueCallee f args s = .ok (some (c, all)) t) (call : Caller) :
    callValue r call f args s = call c all t := by
  cases f with
  | func ref =>
      have hget : (get : Run State) s = .ok s s := rfl
      unfold valueCallee at h
      unfold callValue
      dsimp only at h ⊢
      rw [bind_of_ok hget] at h ⊢
      cases hfound : s.heap.functions[ref]? with
      | some found =>
          rw [hfound] at h
          cases h
          rfl
      | none =>
          rw [hfound] at h
          cases h
  | _ => cases h

/-- A body calls its routine or its method of the host, and nothing else. -/
theorem runBody_eq {body : MethodBody} {kind : MethodKind}
    (h : bodyCallee body args s = .ok (some (c, all)) t) (call : Caller) :
    runBody r call body kind args s = call c all t := by
  cases body with
  | host method | routine c =>
      cases h
      rfl
  | _ => cases h

/-- A method calls what its body calls, and nothing else. -/
theorem callMethod_eq {m : MethodRef} (h : methodCallee r m args s = .ok (some (c, all)) t)
    (call : Caller) : callMethod r call m args s = call c all t := by
  cases m with
  | intrinsic op => cases h
  | method id index =>
      obtain ⟨d, u, hd, h⟩ := ok_of_bind h
      refine (bind_of_ok hd).trans ?_
      -- Only a member called on null has no callee.
      revert h
      generalize d.kind = kind
      cases kind with
      | member =>
          cases args with
          | nil => exact fun h => runBody_eq h call
          | cons receiver args =>
              cases receiver with
              | null => exact fun h => nomatch h
              | _ => exact fun h => runBody_eq h call
      | _ => exact fun h => runBody_eq h call

/-- The instance that a constructor yields: what its body returns, if that is a struct. -/
def constructed (fresh : Value) : Value → Value
  | .struct ty fields => .struct ty fields
  | _ => fresh

/-- A construction calls what the constructor calls, and yields its result or a new instance. -/
theorem construct_eq {m : MethodRef} (h : constructorCallee r m s = .ok (some (c, all)) t) :
    ∃ fresh, (∀ B : Reach, fresh.Within B) ∧ ∀ call, construct r call m s =
      (call c all >>= fun v => pure (constructed fresh v) : Run Value) t := by
  cases m with
  | intrinsic op => cases h
  | method id index =>
      obtain ⟨d, u, hd, h⟩ := ok_of_bind h
      split at h
      · cases h
      · next hkind =>
          obtain ⟨operands, u₁, hoperands, h⟩ := ok_of_bind h
          obtain ⟨own, u₂, hown, h⟩ := ok_of_bind h
          -- Behind the choice of the instance, both kinds of types go the same way.
          have hbody : ∀ (fresh : Value) (u₃ : State),
              bodyCallee d.body (fresh :: operands) u₃ = .ok (some (c, all)) t → ∀ call,
              (runBody r call d.body d.kind (fresh :: operands) >>= fun
                | .struct ty fields => pure (.struct ty fields)
                | _ => pure fresh : Run Value) u₃ =
              (call c all >>= fun v => pure (constructed fresh v) : Run Value) t := by
            intro fresh u₃ h call
            refine (bind_congr_run (runBody_eq h call)).trans ?_
            refine congrFun (congrArg _ (funext fun v => ?_)) t
            cases v <;> rfl
          cases own with
          | structTy own =>
              obtain ⟨fresh, u₃, hfresh, h⟩ := ok_of_bind h
              refine ⟨fresh, fun B => Registry.within_zero (ofLookup_eq_ok hfresh).1, fun call => ?_⟩
              refine (bind_of_ok hd).trans ?_
              rw [if_neg hkind]
              refine (bind_of_ok hoperands).trans ((bind_of_ok hown).trans ?_)
              exact (bind_of_ok hfresh).trans (hbody fresh u₃ h call)
          | _ =>
              obtain ⟨ref, u₃, hfresh, h⟩ := ok_of_bind h
              refine ⟨.object ref, fun B => trivial, fun call => ?_⟩
              refine (bind_of_ok hd).trans ?_
              rw [if_neg hkind]
              refine (bind_of_ok hoperands).trans ((bind_of_ok hown).trans ?_)
              exact (bind_of_ok hfresh).trans (hbody (.object ref) u₃ h call)

/-- Behind a call, an instruction goes on, and pushes at most the result of the call or a value
without references. -/
theorem resumes_step {R : Routine} {i : Instr} (h : callee r R i s = .ok (some (c, args)) t) :
    i.fallsThrough = true ∧ ∃ k : Value → Run Flow,
      (∀ call, step r call R i s = (call c args >>= k) t) ∧
      ∀ v, k v = pure .next ∨ ∃ w, k v = pushNext w ∧ (w = v ∨ ∀ B : Reach, w.Within B) := by
  have hpush : ∀ (silent : Bool) (v : Value),
      (if silent then pure .next else pushNext v : Run Flow) = pure .next ∨
        ∃ w, (if silent then pure .next else pushNext v) = pushNext w ∧
          (w = v ∨ ∀ B : Reach, w.Within B) := by
    intro silent v
    cases silent
    · exact .inr ⟨v, rfl, .inl rfl⟩
    · exact .inl rfl
  cases i with
  | newObject m =>
      obtain ⟨fresh, hfresh, hrun⟩ := construct_eq h
      refine ⟨rfl, fun v => pushNext (constructed fresh v), fun call => ?_, fun v => ?_⟩
      · exact (bind_congr_run (hrun call)).trans (bind_bind_run _ _ _ t)
      · refine .inr ⟨_, rfl, ?_⟩
        cases v with
        | struct ty fields => exact .inl rfl
        | _ => exact .inr hfresh
  | call m =>
      obtain ⟨sig, u, hsig, h⟩ := ok_of_bind h
      obtain ⟨operands, u', hoperands, h⟩ := ok_of_bind h
      refine ⟨rfl, fun v => if sig.ret.isVoid then pure .next else pushNext v, fun call => ?_,
        fun v => hpush _ v⟩
      refine (bind_of_ok hsig).trans ((bind_of_ok hoperands).trans ?_)
      exact bind_congr_run (callMethod_eq h call)
  | callChild n =>
      obtain ⟨c', u, hc, h⟩ := ok_of_bind h
      obtain ⟨operands, u', hoperands, h⟩ := ok_of_bind h
      cases h
      refine ⟨rfl, fun v => if c'.ret.isVoid then pure .next else pushNext v, fun call => ?_,
        fun v => hpush _ v⟩
      exact (bind_of_ok hc).trans (bind_of_ok hoperands)
  | callInvoker n =>
      obtain ⟨operands, u, hoperands, h⟩ := ok_of_bind h
      obtain ⟨f, u', hf, h⟩ := ok_of_bind h
      cases f with
      | func ref =>
          let returns := (u'.heap.functions[ref]?).elim true fun c => !c.routine.ret.isVoid
          refine ⟨rfl, fun v => if returns then pushNext v else pure .next, fun call => ?_, fun v => ?_⟩
          · refine (bind_of_ok hoperands).trans ((bind_of_ok hf).trans ?_)
            exact (bind_of_ok (t := u') rfl).trans (bind_congr_run (callValue_eq h call))
          · dsimp only
            split
            · exact .inr ⟨v, rfl, .inl rfl⟩
            · exact .inl rfl
      | _ => cases h
  | _ => cases h

namespace Keeping

variable {K : Keeping r} {R : Routine} {i : Instr}

/-- An instruction that calls nothing keeps the invariant. -/
theorem step_unasked {call : Caller} (hi : K.Plain R i) (hs : K.Inv s)
    (hnone : ∀ c args t, Run.callee r R i s ≠ .ok (some (c, args)) t) :
    K.After (K.Leads R i) (Run.step r call R i s) := by
  have hasks := asks_step r R i s
  split at hasks
  · next c args t hcallee => exact absurd hcallee (hnone c args t)
  · obtain ⟨out, hout⟩ := hasks
    -- The instruction does the same when every call is refused.
    have hserves : K.Serves fun _ _ => MonadExcept.throw (.halted .steps) := fun _ _ _ => throw
    have hrefused := step hserves hi s hs
    have hsame : Run.step r call R i s = Run.step r (fun _ _ => MonadExcept.throw (.halted .steps)) R i s :=
      (hout call).trans (hout _).symm
    rwa [hsame]

/-- An instruction that calls a routine ends as the call lets it. -/
theorem step_asked {call : Caller} (hcallee : Run.callee r R i s = .ok (some (c, args)) t)
    (hcall : K.After K.Held (call c args t)) : K.After (K.Leads R i) (Run.step r call R i s) := by
  obtain ⟨hfalls, k, hrun, hk⟩ := resumes_step hcallee
  rw [hrun call]
  change K.After _ (EStateM.bind _ _ t)
  unfold EStateM.bind
  revert hcall
  cases call c args t with
  | ok v u =>
      intro ⟨hu, hv⟩
      change K.After _ (k v u)
      rcases hk v with hnext | ⟨w, hpush, hw⟩
      · rw [hnext]
        exact ⟨hu, hfalls⟩
      · rw [hpush]
        refine pushLeads hfalls ?_ u hu
        rcases hw with rfl | hw
        · exact hv
        · exact hw _
  | error e u => exact id

/-- An instruction leads from one invariant to another if the call does that it makes, and if nothing
has to change where it makes none. -/
theorem step_across {K' : Keeping r} {call : Caller} (hreach : K'.reach = K.reach) (hi : K.Plain R i)
    (hs : K.Inv s)
    (hnone : (∀ c args t, Run.callee r R i s ≠ .ok (some (c, args)) t) → ∀ u, K.Inv u → K'.Inv u)
    (hcall : ∀ c args t, Run.callee r R i s = .ok (some (c, args)) t → K.Inv t → K.Calls c args →
      K'.After K'.Held (call c args t)) :
    K'.After (K'.Leads R i) (Run.step r call R i s) := by
  have hstays : (∀ c args t, Run.callee r R i s ≠ .ok (some (c, args)) t) →
      K'.After (K'.Leads R i) (Run.step r call R i s) := by
    intro hunasked
    have hstep : K.After (K.Leads R i) (Run.step r call R i s) := step_unasked hi hs hunasked
    revert hstep
    cases Run.step r call R i s with
    | ok flow t =>
        rintro ⟨ht, hleads⟩
        refine ⟨hnone hunasked t ht, ?_⟩
        cases flow with
        | ret v =>
            change v.Within K'.reach
            rw [hreach]
            exact hleads
        | _ => exact hleads
    | error e t => exact hnone hunasked t
  cases hcallee : Run.callee r R i s with
  | ok asked t =>
      cases asked with
      | some asked =>
          obtain ⟨c, args⟩ := asked
          have hasked := callee hi s hs
          rw [hcallee] at hasked
          exact step_asked hcallee (hcall c args t hcallee hasked.1 (hasked.2 c args rfl))
      | none => exact hstays fun _ _ _ h => nomatch hcallee.symm.trans h
  | error e t => exact hstays fun _ _ _ h => nomatch hcallee.symm.trans h

/-- An instruction keeps the invariant in a state if the call does that it makes there. -/
theorem step_at {call : Caller} (hi : K.Plain R i) (hs : K.Inv s)
    (hcall : ∀ c args t, Run.callee r R i s = .ok (some (c, args)) t → K.Inv t → K.Calls c args →
      K.After K.Held (call c args t)) :
    K.After (K.Leads R i) (Run.step r call R i s) :=
  step_across rfl hi hs (fun _ _ hu => hu) hcall

end Keeping

end Run

end Arbor
