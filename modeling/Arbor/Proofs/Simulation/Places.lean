/-
  Places and what is done with them.

  A place is prepared once, with its operands in temporaries, and may then be read
  and written any number of times.  An assignment of any kind prepares its target,
  computes a value and stores it there in the end.
-/
import Arbor.Proofs.Simulation.Sections
import Arbor.Proofs.Simulation.Operators
import Arbor.Proofs.Semantics.Meaning

set_option autoImplicit false

namespace Arbor

/-! ## Steps of the code -/

/-- A value that is stored in a slot of another type is left as it is, or one instruction turns it into
one of that type. -/
theorem Job.Emits.coerced {J : Job} {start : Nat} {s t : Emission} {source target : Ty}
    {context : String} (h : J.Emits start (Emit.coerce source target context) s () t) :
    (t = s ∧ ∀ v, Eval.coerced source target v = v) ∨
    ∃ i, J.Emits start (Emit.instr i) s () t ∧ Run.Quiet J.setting.registry J.routine i ∧
      ∀ (m : Memory) (a : Around) (stack : List Value) (v : Value),
        Run.Steps J.setting.registry J.routine i (m.state a (v :: stack))
          (.ok .next (m.state a (Eval.coerced source target v :: stack))) := by
  unfold Emit.coerce at h
  unfold Eval.coerced
  split at h
  · next hsame =>
    exact .inl ⟨h.pure.2, fun v => by rw [if_pos hsame]⟩
  next hsame =>
  split at h
  · next hwrap =>
    refine .inr ⟨_, h, fun _ => rfl, fun m a stack v => ?_⟩
    rw [if_neg hsame, if_pos hwrap]
    exact .optWrap m a stack v
  next hwrap =>
  obtain ⟨_, _, hregistry, h⟩ := h.bind
  obtain ⟨rfl, rfl⟩ := hregistry.registry
  split at h
  · split at h
    · next hbox =>
      refine .inr ⟨_, h, fun _ => rfl, fun m a stack v => ?_⟩
      rw [if_neg hsame, if_neg hwrap, if_pos hbox]
      exact .box m a stack source v
    · next hbox =>
      exact .inl ⟨h.pure.2, fun v => by rw [if_neg hsame, if_neg hwrap, if_neg hbox]⟩
  · obtain ⟨_, _, _, h⟩ := h.bind
    exact h.mismatch.elim

namespace Run.Via

variable {setting : Setting} {R : Routine} {hR : R.WithinLimits} {start : Nat} {s t : Emission}
  {span : Span} {within : Nat → Prop} {a : Around} {m : Memory} {stack : List Value} {q : Nat} {c : State}

/-- Loading locals, the last one on top. -/
theorem loadLocals {slots : List Nat} {vs : List Value}
    (h : (Job.ofRoutine setting hR).Emits start (Emit.instrs (slots.map Instr.loadLocal)) s () t)
    (hslots : List.Forall₂ (fun (slot : Nat) (v : Value) => m.locals[slot]? = some v) slots vs)
    (hp : ∀ p, s.position ≤ p → p < t.position → within p)
    (hrest : Via setting.registry R span within t.position (m.state a (vs.reverse ++ stack)) q c) :
    Via setting.registry R span within s.position (m.state a stack) q c := by
  induction hslots generalizing s stack with
  | nil =>
      obtain rfl := h.instrs_nil
      exact hrest
  | @cons slot v slots vs hslot _ ih =>
      obtain ⟨u, hload, h⟩ := h.instrs_cons
      have hposition := hload.instr_position
      have hend := h.position_le
      refine .instr hload (fun _ => rfl) (hp _ (Nat.le_refl _) (by omega)) (.loadLocal _ _ _ hslot) ?_
      refine ih h (fun p hp' hp'' => hp p (by omega) hp'') ?_
      rwa [List.reverse_cons, List.append_assoc] at hrest

theorem coerce {source target : Ty} {context : String} {v : Value}
    (h : (Job.ofRoutine setting hR).Emits start (Emit.coerce source target context) s () t)
    (hp : ∀ p, s.position ≤ p → p < t.position → within p)
    (hrest : Via setting.registry R span within t.position
      (m.state a (Eval.coerced source target v :: stack)) q c) :
    Via setting.registry R span within s.position (m.state a (v :: stack)) q c := by
  rcases h.coerced with ⟨rfl, hsame⟩ | ⟨i, hi, hquiet, hsteps⟩
  · rwa [hsame] at hrest
  · have hend := hi.instr_position
    exact .instr hi hquiet (hp _ (by omega) (by omega)) (hsteps m a stack v) hrest

end Run.Via

/-! ## Accessors -/

/-- The getter or the setter of a property. -/
def PropertyDef.accessor? (d : PropertyDef) : Accessor → Option MethodRef
  | .getter => d.getter
  | .setter => d.setter

/-- What an accessor of a property is. -/
theorem Job.Emits.accessor {J : Job} {start : Nat} {s t : Emission} {p : PropertyRef} {which : Accessor}
    {m : MethodRef} (h : J.Emits start (Emit.accessor p which) s m t) :
    t = s ∧ ∃ d, J.setting.registry.property p = .ok d ∧ d.accessor? which = some m := by
  obtain ⟨d, u, hlookup, h⟩ := h.bind
  obtain ⟨hd, rfl⟩ := hlookup.lookup
  cases which
  all_goals
    dsimp only at h
    split at h
    · next hm =>
      obtain ⟨rfl, rfl⟩ := h.pure
      exact ⟨rfl, d, hd, hm⟩
    · obtain ⟨_, _, _, h⟩ := h.bind
      exact h.fail.elim

/-! ## Assignments -/

variable {J : Job} {start : Nat} {s t : Emission} {target : Node} {exit : Option Label}

/-- The code with which an assignment whose target is prepared goes on: that of its value, and the
store. -/
structure Assigns (J : Job) (start : Nat) (target : Node) (value : Option Node) (exit : Option Label)
    (p : Place) (prepared t : Emission) where
  computed : Emission
  spilled : Emission
  stored : Emission
  slot : Nat
  spill : J.Emits start (Emit.spill target.ty) computed slot spilled
  store : J.Emits start (Emit.storePlace p slot) spilled () stored
  retains : prepared ≤ computed
  after : prepared.position ≤ computed.position
  before : stored.position ≤ t.position
  operand : ∀ n, value = some n → ∃ (u v : Emission) (used : Bool), J.Emits start (n.value exit) u used v ∧
    prepared ≤ u ∧ prepared.position ≤ u.position ∧ v.position ≤ computed.position

/-- What an assignment leaves does not change whether it used the exit. -/
theorem Job.Emits.assigned_usedExit {ty : Ty} {slot : Nat} {keep used : Bool} {e : Emitted}
    (h : J.Emits start (Emit.assigned ty slot keep used) s e t) : e.usedExit = used := by
  unfold Emit.assigned at h
  split at h
  · rw [Job.Emits.seq_iff] at h
    obtain ⟨_, _, h⟩ := h
    obtain ⟨rfl, -⟩ := h.pure
    rfl
  · obtain ⟨rfl, -⟩ := h.pure
    rfl

namespace Assigns

/-- A plain assignment. -/
theorem of_store {value : Node} {extend keep : Bool} {e : Emitted}
    (h : J.Emits start (Emit.store target value extend exit keep) s e t) :
    ∃ (p : Place) (used : Bool) (prepared : Emission),
      J.Emits start (target.place exit extend) s (p, used) prepared ∧
      (used = true → e.usedExit = true) ∧
      Nonempty (Assigns J start target (some value) exit p prepared t) := by
  obtain ⟨v, h, hend⟩ := h.withTemps
  rw [Job.Emits.bind_iff] at h
  obtain ⟨⟨p, usedTarget⟩, s₁, hplace, h⟩ := h
  simp only [↓Job.Emits.seq_iff, Job.Emits.bind_iff] at h
  obtain ⟨usedValue, s₂, hvalue, s₃, hcoerce, slot, s₄, hspill, s₅, hstore, hassigned⟩ := h
  refine ⟨p, usedTarget, s₁, hplace, ?_, ⟨?_⟩⟩
  · rintro rfl
    rw [hassigned.assigned_usedExit, Bool.true_or]
  · refine ⟨s₃, s₄, s₅, slot, hspill, hstore, hvalue.retains.trans hcoerce.retains, by grind, by grind, ?_⟩
    intro n hn
    cases hn
    exact ⟨s₁, s₂, usedValue, hvalue, le_rfl, Nat.le_refl _, by grind⟩

/-- An assignment that applies an operator. -/
theorem of_update {op : BinaryOp} {value : Node} {checked extend keep : Bool} {e : Emitted}
    (h : J.Emits start (Emit.update op target value checked extend exit keep) s e t) :
    ∃ (p : Place) (used : Bool) (prepared : Emission),
      J.Emits start (target.place exit extend) s (p, used) prepared ∧
      (used = true → e.usedExit = true) ∧
      Nonempty (Assigns J start target (some value) exit p prepared t) := by
  unfold Emit.update at h
  rw [Job.Emits.seq_iff] at h
  obtain ⟨u, hcheck, h⟩ := h
  obtain rfl := hcheck.checkBinary
  obtain ⟨v, h, hend⟩ := h.withTemps
  rw [Job.Emits.bind_iff] at h
  obtain ⟨⟨p, usedTarget⟩, s₁, hplace, h⟩ := h
  simp only [↓Job.Emits.seq_iff, Job.Emits.bind_iff] at h
  obtain ⟨s₂, hload, old, s₃, hold, usedValue, s₄, hvalue, operand, s₅, hoperand, s₆, hbinary, slot, s₇,
    hspill, s₈, hstore, hassigned⟩ := h
  have hbefore : s₁ ≤ s₃ := hload.retains.trans hold.retains
  refine ⟨p, usedTarget, s₁, hplace, ?_, ⟨?_⟩⟩
  · rintro rfl
    rw [hassigned.assigned_usedExit, Bool.true_or]
  · refine ⟨s₆, s₇, s₈, slot, hspill, hstore,
      hbefore.trans (hvalue.retains.trans (hoperand.retains.trans hbinary.retains)), by grind, by grind, ?_⟩
    intro n hn
    cases hn
    exact ⟨s₃, s₄, usedValue, hvalue, hbefore, by grind, by grind⟩

/-- A step. -/
theorem of_step {op : AssignOp} {checked extend keep : Bool} {e : Emitted}
    (h : J.Emits start (Emit.step op target checked extend exit keep) s e t) :
    ∃ (p : Place) (used : Bool) (prepared : Emission),
      J.Emits start (target.place exit extend) s (p, used) prepared ∧
      (used = true → e.usedExit = true) ∧
      Nonempty (Assigns J start target none exit p prepared t) := by
  unfold Emit.step at h
  split at h
  · exact h.mismatch.elim
  · obtain ⟨v, h, hend⟩ := h.withTemps
    rw [Job.Emits.bind_iff] at h
    obtain ⟨⟨p, usedTarget⟩, s₁, hplace, h⟩ := h
    simp only [↓Job.Emits.seq_iff, Job.Emits.bind_iff] at h
    obtain ⟨s₂, hload, old, s₃, hold, s₄, hstepped, slot, s₅, hspill, s₆, hstore, hassigned⟩ := h
    refine ⟨p, usedTarget, s₁, hplace, ?_, ⟨?_⟩⟩
    · rintro rfl
      rw [hassigned.assigned_usedExit]
    · exact ⟨s₄, s₅, s₆, slot, hspill, hstore, hload.retains.trans (hold.retains.trans hstepped.retains),
        by grind, by grind, fun n hn => by cases hn⟩

/-- An assignment of any kind. -/
theorem of_assign {op : AssignOp} {value : Option Node} {checked autoExtend : Bool} {shape : Shape}
    {e : Emitted} (h : J.Emits start (Emit.assign op target value checked autoExtend exit shape) s e t) :
    ∃ (p : Place) (used : Bool) (prepared : Emission),
      J.Emits start (target.place exit (autoExtend || J.setting.options.autoExtendAssign)) s (p, used)
        prepared ∧
      (used = true → e.usedExit = true) ∧ Nonempty (Assigns J start target value exit p prepared t) := by
  obtain ⟨o, u, hoptions, h⟩ := h.bind
  obtain ⟨rfl, rfl⟩ := hoptions.options
  dsimp only at h
  split at h
  · exact of_step h
  · split at h
    · exact of_store h
    · exact of_update h
  · exact h.fail.elim

end Assigns

end Arbor
