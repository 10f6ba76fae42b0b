/-
  The small steps of emission as code that follows evaluations: single
  instructions and jumps, temporaries, variables and defaults.
-/
import Arbor.Proofs.Simulation.Follows

set_option autoImplicit false

namespace Arbor.Job

variable {J : Job} {start : Nat} {s t u : Emission} {c : Site} {q : Nat} {m n : Memory}
  {stack rest : List Value} {α : Type} {out : EStateM.Result Stop World α}
  {post : α → Memory → List Value → Prop}

/-- What an instruction does in the routine of the job. -/
abbrev Steps (J : Job) (i : Instr) (s : State) (out : EStateM.Result Trap State Flow) : Prop :=
  Run.Steps J.setting.registry J.routine i s out

/-- What an instruction computes in the routine of the job. -/
abbrev Computes (J : Job) (i : Instr) (operands : List Value) (x : Run Value) : Prop :=
  Run.Computes J.setting.registry J.routine i operands x

/-! ## Instructions -/

theorem Emits.leads {i : Instr} {a b : State} (h : J.Emits start (Emit.instr i) s () t)
    (hstep : J.Steps i a (.ok .next b)) : J.Leads s.position a t.position b := by
  obtain ⟨hcode, hposition, -⟩ := h.instr
  rw [hposition]
  exact .next hcode hstep

namespace Follows

theorem instr {i : Instr} (h : J.Emits start (Emit.instr i) s () t)
    (hstep : J.Steps i (m.state c.around stack) (.ok .next (n.state c.around rest)))
    (hkeeps : m.Keeps s n) (hrest : J.Follows c t q n rest out post) :
    J.Follows c s q m stack out post :=
  after h.retains (h.leads hstep) hkeeps hrest

theorem jump {i : Instr} (h : J.Emits start (Emit.instr i) s () t)
    (hstep : J.Steps i (m.state c.around stack) (.ok (.jump u.position) (m.state c.around rest)))
    (hretains : s ≤ u) (hrest : J.Follows c u q m rest out post) :
    J.Follows c s q m stack out post :=
  after hretains (.jump h.instr.1 hstep) (.refl _ _) hrest

/-- Execution goes on at the target of a conditional jump, or behind it. -/
theorem branch {i : Instr} {condition : Bool} (h : J.Emits start (Emit.instr i) s () t)
    (hstep : J.Steps i (m.state c.around stack)
      (.ok (Run.Steps.branch condition u.position) (m.state c.around rest)))
    (hretains : s ≤ u) (hjump : condition = true → J.Follows c u q m rest out post)
    (hnext : condition = false → J.Follows c t q m rest out post) :
    J.Follows c s q m stack out post := by
  cases condition with
  | true => exact jump h hstep hretains (hjump rfl)
  | false => exact instr h hstep (.refl _ _) (hnext rfl)

/-- An instruction that computes follows the action it computes. -/
theorem computes {i : Instr} {operands : List Value} {x : Run Value} {w : World}
    (h : J.Emits start (Emit.instr i) s () t) (hi : J.Computes i operands x)
    (hholds : J.Holds s.scope w m) (hlength : stack.length ≤ s.position) :
    J.Follows c s t.position m (operands ++ stack) ((Eval.lift x).run w)
      (fun v n rest => rest = v :: stack ∧ n.args = m.args ∧ n.locals = m.locals) := by
  have hposition := h.instr.2.1
  have hcomputes := hi m c.around stack
  simp only [Run.bare, ← hholds.heap, ← hholds.statics] at hcomputes
  simp only [EStateM.run, Eval.lift]
  revert hcomputes
  cases x ⟨w.heap, [], w.statics⟩ with
  | ok v st =>
      rintro ⟨heap, hheap, -, hstep⟩
      refine ⟨m.shared heap st.statics, v :: stack, h.leads hstep, ?_, .shared _ _ _ _, ?_,
        rfl, rfl, rfl⟩
      · refine ⟨hheap, rfl, hholds.locals, ?_⟩
        exact hholds.vars.imp fun x y hxy => ⟨hxy.1, hxy.2.1, by
          rw [← hxy.2.2]
          cases y.2.1 <;> rfl⟩
      · simp only [List.length_cons, hposition]
        omega
  | error e st =>
      rintro ⟨v, hstep, hheap, hstatics, hframes⟩
      exact ⟨v, .trap J.flat h.instr.1 hstep, hheap, hstatics, hframes⟩

end Follows

/-! ## Memory -/

/-- Variables whose slots keep their values are bound as before. -/
theorem binds_congr {vars : Vars} {scope : Scope} (h : List.Forall₂ m.Binds vars scope)
    (hslots : ∀ slot ∈ scope.slots, n.slot? slot = m.slot? slot) :
    List.Forall₂ n.Binds vars scope := by
  induction h with
  | nil => exact .nil
  | cons hxy hrest ih =>
      refine .cons ⟨hxy.1, hxy.2.1, ?_⟩ (ih fun slot hslot => hslots slot (.tail _ hslot))
      rw [hslots _ (.head _)]
      exact hxy.2.2

/-- Writing a local leaves every other slot as it is. -/
theorem slot?_setLocal_ne {i : Nat} {slot : VarSlot} (h : slot ≠ .local i) (v : Value) :
    (m.setLocal i v).slot? slot = m.slot? slot := by
  cases slot with
  | arg j => rfl
  | «local» j =>
      have hne : i ≠ j := fun heq => h (by rw [heq])
      simp [Memory.slot?, Memory.setLocal, Array.getElem?_setIfInBounds_ne hne]

/-- Writing an argument leaves every other slot as it is. -/
theorem slot?_setArg_ne {i : Nat} {slot : VarSlot} (h : slot ≠ .arg i) (v : Value) :
    (m.setArg i v).slot? slot = m.slot? slot := by
  cases slot with
  | arg j =>
      have hne : i ≠ j := fun heq => h (by rw [heq])
      simp [Memory.slot?, Memory.setArg, Array.getElem?_setIfInBounds_ne hne]
  | «local» j => rfl

theorem slot?_setSlot_ne {slot other : VarSlot} (h : other ≠ slot) (v : Value) :
    (m.setSlot slot v).slot? other = m.slot? other := by
  cases slot with
  | arg i => exact slot?_setArg_ne h v
  | «local» i => exact slot?_setLocal_ne h v

/-- A slot that is there holds what was written to it. -/
theorem slot?_setSlot {slot : VarSlot} {old : Value} (h : m.slot? slot = some old) (v : Value) :
    (m.setSlot slot v).slot? slot = some v := by
  cases slot with
  | arg i =>
      have hbound : i < m.args.size := (Array.getElem?_eq_some_iff.mp h).1
      simp [Memory.slot?, Memory.setSlot, Memory.setArg, hbound]
  | «local» i =>
      have hbound : i < m.locals.size := (Array.getElem?_eq_some_iff.mp h).1
      simp [Memory.slot?, Memory.setSlot, Memory.setLocal, hbound]

theorem Holds.later {w : World} (h : J.Holds s.scope w m) (hretains : s ≤ t) :
    J.Holds t.scope w m := by
  rw [hretains.scope]
  exact h

/-- Writing a slot that holds no variable keeps the world. -/
theorem Holds.setLocal {scope : Scope} {w : World} {slot : Nat} (h : J.Holds scope w m)
    (hslot : .local slot ∉ scope.slots) (v : Value) : J.Holds scope w (m.setLocal slot v) := by
  refine ⟨h.heap, h.statics, by simpa [Memory.setLocal] using h.locals, ?_⟩
  refine binds_congr h.vars fun other hother => slot?_setLocal_ne ?_ v
  rintro rfl
  exact hslot hother

/-- A fresh temporary is written without touching what is in use. -/
theorem keeps_setLocal {slot : Nat} (hfresh : slot ∉ s.pool.live) (v : Value) :
    m.Keeps s (m.setLocal slot v) := by
  intro other hother
  refine slot?_setLocal_ne ?_ v
  rintro rfl
  exact hfresh (hother.2 slot rfl)

namespace Follows

/-- Moving the top of the stack to a temporary. -/
theorem spill {ty : Ty} {slot : Nat} {v : Value} {w : World}
    (h : J.Emits start (Emit.spill ty) s slot t) (hholds : J.Holds s.scope w m)
    (hrest : ∀ n, n.Temp t slot v → J.Holds t.scope w n → m.Keeps s n →
      J.Follows c t q n stack out post) :
    J.Follows c s q m (v :: stack) out post := by
  have hsound := h.sound
  have hretains := h.retains
  obtain ⟨_, u, htemp, h⟩ := h.bind
  obtain ⟨_, _, hstore, h⟩ := h.bind
  obtain ⟨rfl, rfl⟩ := h.pure
  obtain ⟨hposition, hlive, hfresh, hbound⟩ := htemp.temp
  have hlater : slot ∈ t.pool.live := by
    refine hstore.retains.live ?_
    rw [hlive]
    exact List.mem_cons_self
  have hbound : slot < m.locals.size := by
    rw [hholds.locals]
    exact hbound
  have hkeeps : m.Keeps s (m.setLocal slot v) := keeps_setLocal hfresh v
  have hholding : t.Holding (.local slot) := hsound.holding hretains hlater hfresh
  have hafter : J.Holds t.scope w (m.setLocal slot v) := by
    refine Holds.setLocal ?_ hholding.1 v
    rw [hretains.scope]
    exact hholds
  refine after hretains ?_ hkeeps (hrest _ ⟨hholding, ?_⟩ hafter hkeeps)
  · rw [← hposition]
    exact hstore.leads (.storeLocal _ _ _ _ hbound)
  · simp [Memory.setLocal, hbound]

end Follows

/-! ## Variables -/

/-- The variable of the world that a variable in scope is. -/
theorem Holds.lookup {scope : Scope} {w : World} {id : VarId} {slot : VarSlot} {ty : Ty}
    (h : J.Holds scope w m) (hslot : scope.lookup id = some (slot, ty)) :
    ∃ v, w.vars.lookup id = some (ty, v) ∧ m.slot? slot = some v := by
  have hvars := h.vars
  clear h
  generalize w.vars = vars at hvars ⊢
  induction hvars with
  | nil => cases hslot
  | @cons x y vars scope hxy _ ih =>
      obtain ⟨i, t, v⟩ := x
      obtain ⟨j, other, t'⟩ := y
      obtain ⟨rfl, rfl, hv⟩ := hxy
      cases hid : id == i with
      | true =>
          simp only [List.lookup_cons, hid, Option.some.injEq, Prod.mk.injEq] at hslot ⊢
          obtain ⟨rfl, rfl⟩ := hslot
          exact ⟨v, ⟨rfl, rfl⟩, hv⟩
      | false =>
          simp only [List.lookup_cons, hid] at hslot ⊢
          exact ih hslot

/-- A slot in scope is that of a variable. -/
theorem mem_slots_of_lookup {scope : Scope} {id : VarId} {slot : VarSlot} {ty : Ty}
    (h : scope.lookup id = some (slot, ty)) : slot ∈ scope.slots := by
  induction scope with
  | nil => cases h
  | cons y scope ih =>
      obtain ⟨j, other, t⟩ := y
      cases hid : id == j with
      | true =>
          simp only [List.lookup_cons, hid, Option.some.injEq, Prod.mk.injEq] at h
          obtain ⟨rfl, rfl⟩ := h
          exact .head _
      | false =>
          simp only [List.lookup_cons, hid] at h
          exact .tail _ (ih h)

/-- Writing the slot of a variable assigns the variable. -/
theorem binds_assign {vars : Vars} {scope : Scope} {id : VarId} {slot : VarSlot} {ty : Ty}
    (h : List.Forall₂ m.Binds vars scope) (hdistinct : scope.slots.Nodup)
    (hslot : scope.lookup id = some (slot, ty)) (v : Value) :
    List.Forall₂ (m.setSlot slot v).Binds (vars.assign id v) scope := by
  induction h with
  | nil => cases hslot
  | @cons x y vars scope hxy hrest ih =>
      obtain ⟨i, t, old⟩ := x
      obtain ⟨j, other, t'⟩ := y
      obtain ⟨rfl, rfl, hv⟩ := hxy
      obtain ⟨hhead, htail⟩ := List.nodup_cons.mp hdistinct
      cases hid : id == i with
      | true =>
          simp only [List.lookup_cons, hid, Option.some.injEq, Prod.mk.injEq] at hslot
          obtain ⟨rfl, rfl⟩ := hslot
          simp only [Vars.assign, hid, if_true]
          refine .cons ⟨rfl, rfl, slot?_setSlot hv v⟩ (binds_congr hrest fun k hk => ?_)
          refine slot?_setSlot_ne ?_ v
          rintro rfl
          exact hhead hk
      | false =>
          simp only [List.lookup_cons, hid] at hslot
          simp only [Vars.assign, hid, Bool.false_eq_true, if_false]
          refine .cons ⟨rfl, rfl, ?_⟩ (ih htail hslot)
          rw [slot?_setSlot_ne _ v]
          · exact hv
          · rintro rfl
            exact hhead (mem_slots_of_lookup hslot)

theorem Holds.assign {scope : Scope} {w : World} {id : VarId} {slot : VarSlot} {ty : Ty}
    (h : J.Holds scope w m) (hdistinct : scope.slots.Nodup)
    (hslot : scope.lookup id = some (slot, ty)) (v : Value) :
    J.Holds scope { w with vars := w.vars.assign id v } (m.setSlot slot v) := by
  refine ⟨?_, ?_, ?_, binds_assign h.vars hdistinct hslot v⟩
  · cases slot <;> exact h.heap
  · cases slot <;> exact h.statics
  · have hlocals := h.locals
    cases slot with
    | arg i => exact hlocals
    | «local» i => simpa [Memory.setSlot, Memory.setLocal] using hlocals

/-- Writing the slot of a variable keeps what is in use beside the variables. -/
theorem keeps_setSlot {slot : VarSlot} (h : slot ∈ s.scope.slots) (v : Value) :
    m.Keeps s (m.setSlot slot v) := by
  intro other hother
  refine slot?_setSlot_ne ?_ v
  rintro rfl
  exact hother.1 h

theorem Emits.varSlot {id : VarId} {v : VarSlot × Ty} (h : J.Emits start (Emit.varSlot id) s v t) :
    s.scope.lookup id = some v ∧ s = t := by
  obtain ⟨hfound, ht⟩ := h.read
  split at hfound
  · next hlookup =>
      cases hfound
      exact ⟨hlookup, ht⟩
  · cases hfound

namespace Follows

theorem loadVar {slot : VarSlot} {v : Value} (h : J.Emits start (Emit.loadVar slot) s () t)
    (hv : m.slot? slot = some v) (hrest : J.Follows c t q m (v :: stack) out post) :
    J.Follows c s q m stack out post := by
  cases slot with
  | arg i => exact instr h (.loadArg _ _ _ hv) (.refl _ _) hrest
  | «local» i => exact instr h (.loadLocal _ _ _ hv) (.refl _ _) hrest

theorem storeVar {slot : VarSlot} {old v : Value} (h : J.Emits start (Emit.storeVar slot) s () t)
    (hold : m.slot? slot = some old) (hscope : slot ∈ s.scope.slots)
    (hrest : J.Follows c t q (m.setSlot slot v) stack out post) :
    J.Follows c s q m (v :: stack) out post := by
  cases slot with
  | arg i =>
      have hbound : i < m.args.size := (Array.getElem?_eq_some_iff.mp hold).1
      exact instr h (.storeArg _ _ _ _ hbound) (keeps_setSlot hscope v) hrest
  | «local» i =>
      have hbound : i < m.locals.size := (Array.getElem?_eq_some_iff.mp hold).1
      exact instr h (.storeLocal _ _ _ _ hbound) (keeps_setSlot hscope v) hrest

theorem wrapIf {condition : Bool} {v : Value} (h : J.Emits start (Emit.wrapIf condition) s () t)
    (hrest : J.Follows c t q m (v.wrapIf condition :: stack) out post) :
    J.Follows c s q m (v :: stack) out post := by
  rcases h.wrapIf with ⟨rfl, h⟩ | ⟨rfl, rfl⟩
  · exact instr h (.optWrap _ _ _ v) (.refl _ _) hrest
  · exact hrest

/-- Pushing the default of a type that has values. -/
theorem pushDefault {ty : Ty} {w : World} (h : J.Emits start (Emit.pushDefault ty) s () t)
    (hvoid : ty.isVoid = false) (hholds : J.Holds s.scope w m)
    (hlength : stack.length ≤ s.position) :
    J.Follows c s t.position m stack ((Eval.defaultOf J.setting.registry ty).run w)
      (fun v n rest => rest = v :: stack ∧ n.args = m.args ∧ n.locals = m.locals) := by
  simp only [Emit.pushDefault, hvoid, Bool.false_eq_true, if_false] at h
  unfold Eval.defaultOf
  split at h
  · next hvalue =>
      simp only [hvalue, if_true]
      exact (computes h (.loadDefault ty) hholds hlength :
        J.Follows c s t.position m ([] ++ stack) _ _)
  · next hvalue =>
      simp only [hvalue, Bool.false_eq_true, if_false]
      refine instr h (.const _ _ _ _) (.refl _ _) (.ok ?_ ?_ ⟨rfl, rfl, rfl⟩)
      · simp only [List.length_cons, h.instr.2.1]
        omega
      · rw [h.retains.scope]
        exact hholds

end Follows

end Arbor.Job
