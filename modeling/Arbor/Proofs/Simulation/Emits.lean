/-
  Emitters inside a finished routine.

  `Completes` says what a finished routine has in common with the state of its
  emission: the instructions from a position on, the marked labels and the
  locals.  `Emits` is a run of an emitter somewhere within such a routine; it can
  be taken apart at every bind, and each part is again a run within the routine.
-/
import Arbor.Emit.State
import Arbor.Proofs.Machine.Runs

set_option autoImplicit false

namespace Arbor

/-- A routine whose slots and stack depths fit the instructions that name and record them. -/
structure Routine.WithinLimits (R : Routine) : Prop where
  locals : R.locals.size ≤ Builder.slotLimit
  code : R.code.size < Run.depthLimit

instance (R : Routine) : Decidable R.WithinLimits :=
  decidable_of_iff (R.locals.size ≤ Builder.slotLimit ∧ R.code.size < Run.depthLimit)
    ⟨fun h => ⟨h.1, h.2⟩, fun h => ⟨h.locals, h.code⟩⟩

/-- The slots of the variables in scope. -/
def Scope.slots (scope : Scope) : List VarSlot := scope.map (·.2.1)

namespace Emission

/-- What a finished routine has in common with its emission, from a position on. -/
structure Completes (R : Routine) (start : Nat) (s : Emission) : Prop where
  code : ∀ p, start ≤ p → p < s.position → R.code[p]? = s.builder.code[p]?
  size : s.position ≤ R.code.size
  marks : ∀ i pc : Nat, s.builder.labels[i]? = some (some pc) → R.labels[i]? = some pc
  locals : s.builder.locals.size ≤ R.locals.size

/-- What is completed later was completed before. -/
theorem Completes.before {R : Routine} {start : Nat} {s t : Emission} (h : t.Completes R start)
    (hgrows : s.Grows t) : s.Completes R start where
  code p hstart hp := by
    rw [h.code p hstart (Nat.lt_of_lt_of_le hp hgrows.position_le)]
    obtain ⟨added, hadded⟩ := hgrows.code
    have hlist : t.builder.code.toList[p]? = s.builder.code.toList[p]? := by
      rw [← hadded, List.getElem?_append_left (by simpa [position] using hp)]
    simpa using hlist
  size := Nat.le_trans hgrows.position_le h.size
  marks i pc hi := h.marks i pc (hgrows.marks i pc hi)
  locals := Nat.le_trans hgrows.locals_le h.locals

/-- Temporaries and variables do not conflict. -/
structure Sound (s : Emission) : Prop where
  tidy : s.Tidy
  distinct : s.scope.slots.Nodup
  live : ∀ slot, .local slot ∈ s.scope.slots → slot ∈ s.pool.live

/-- Emission keeps a state sound as long as slots can be numbered. -/
theorem Sound.grow {s t : Emission} (h : s.Sound) (hgrows : s.Grows t)
    (hlimit : t.builder.locals.size ≤ Builder.slotLimit) : t.Sound where
  tidy := hgrows.tidy hlimit h.tidy
  distinct := by rw [hgrows.scope]; exact h.distinct
  live slot hslot := by
    rw [hgrows.scope] at hslot
    exact hgrows.live.subset (h.live slot hslot)

end Emission

/-- A finished routine without protected regions, with the setting it was compiled in. -/
structure Job where
  setting : Setting
  routine : Routine
  limits : routine.WithinLimits
  flat : routine.regions = []

namespace Job

/-- A run of an emitter within the routine, whose instructions from `start` on are final. -/
structure Emits (J : Job) (start : Nat) {α : Type} (x : Emit α) (s : Emission) (a : α)
    (t : Emission) : Prop where
  run : x.run J.setting s = .ok a t
  sound : s.Sound
  completes : t.Completes J.routine start
  reached : start ≤ s.position

namespace Emits

variable {J : Job} {start : Nat} {α β : Type} {s t : Emission}

theorem grows {x : Emit α} {a : α} (h : J.Emits start x s a t) : s.Grows t := x.grows h.run

@[grind →]
theorem position_le {x : Emit α} {a : α} (h : J.Emits start x s a t) : s.position ≤ t.position :=
  h.grows.position_le

theorem limit {x : Emit α} {a : α} (h : J.Emits start x s a t) :
    t.builder.locals.size ≤ Builder.slotLimit :=
  Nat.le_trans h.completes.locals J.limits.locals

theorem position_lt {x : Emit α} {a : α} (h : J.Emits start x s a t) : s.position < Run.depthLimit :=
  Nat.lt_of_le_of_lt (Nat.le_trans h.grows.position_le h.completes.size) J.limits.code

theorem sound_after {x : Emit α} {a : α} (h : J.Emits start x s a t) : t.Sound :=
  h.sound.grow h.grows h.limit

/-- A run of two emitters is a run of each. -/
theorem bind {x : Emit α} {f : α → Emit β} {b : β} (h : J.Emits start (x >>= f) s b t) :
    ∃ a u, J.Emits start x s a u ∧ J.Emits start (f a) u b t := by
  have hrun : (Emit.andThen x f).run J.setting s = .ok b t := h.run
  simp only [Emit.andThen] at hrun
  split at hrun
  · next a u hx =>
      have hfirst : s.Grows u := x.grows hx
      have hrest : u.Grows t := (f a).grows hrun
      have hcompletes : u.Completes J.routine start := h.completes.before hrest
      refine ⟨a, u, ⟨hx, h.sound, hcompletes, h.reached⟩, ⟨hrun, ?_, h.completes, ?_⟩⟩
      · exact h.sound.grow hfirst (Nat.le_trans hcompletes.locals J.limits.locals)
      · exact Nat.le_trans h.reached hfirst.position_le
  · cases hrun

/-- The runs of two emitters are the runs of each from where the other ended. -/
theorem bind_iff {x : Emit α} {f : α → Emit β} {b : β} :
    J.Emits start (x >>= f) s b t ↔
      ∃ a u, J.Emits start x s a u ∧ J.Emits start (f a) u b t := by
  refine ⟨bind, ?_⟩
  rintro ⟨a, u, hx, hf⟩
  refine ⟨?_, hx.sound, hf.completes, hx.reached⟩
  change (Emit.andThen x f).run J.setting s = .ok b t
  simp only [Emit.andThen, hx.run, hf.run]

/-- The runs of two emitters of which the first yields nothing. -/
theorem seq_iff {x : Emit PUnit} {f : PUnit → Emit β} {b : β} :
    J.Emits start (x >>= f) s b t ↔
      ∃ u, J.Emits start x s ⟨⟩ u ∧ J.Emits start (f ⟨⟩) u b t := by
  rw [bind_iff]
  exact ⟨fun ⟨_, h⟩ => h, fun h => ⟨⟨⟩, h⟩⟩

theorem pure {a b : α} (h : J.Emits start (pure a : Emit α) s b t) : b = a ∧ t = s := by
  have hrun : (Emit.done a).run J.setting s = .ok b t := h.run
  cases hrun
  exact ⟨rfl, rfl⟩

theorem fail {e : CompileError} {a : α} (h : J.Emits start (Emit.fail e : Emit α) s a t) : False := by
  cases h.run

theorem read {f : Setting → Emission → Except CompileError α} {a : α}
    (h : J.Emits start (Emit.read f) s a t) : f J.setting s = .ok a ∧ s = t := by
  have hrun := h.run
  simp only [Emit.read] at hrun
  split at hrun
  · next hf => cases hrun; exact ⟨hf, rfl⟩
  · cases hrun

theorem registry {r : Registry} (h : J.Emits start Emit.registry s r t) :
    r = J.setting.registry ∧ s = t := by
  obtain ⟨hr, ht⟩ := h.read
  cases hr
  exact ⟨rfl, ht⟩

theorem options {o : Options} (h : J.Emits start Emit.options s o t) :
    o = J.setting.options ∧ s = t := by
  obtain ⟨ho, ht⟩ := h.read
  cases ho
  exact ⟨rfl, ht⟩

theorem mismatch {context expected : String} {found : Ty} {a : α}
    (h : J.Emits start (Emit.mismatch context expected found : Emit α) s a t) : False := by
  obtain ⟨_, _, _, h⟩ := h.bind
  exact h.fail

theorem unsupported {what : String} {a : α}
    (h : J.Emits start (Emit.unsupported what : Emit α) s a t) : False :=
  h.fail

/-! ## Code -/

/-- An appended instruction is that of the routine. -/
theorem instr {i : Instr} (h : J.Emits start (Emit.instr i) s () t) :
    J.routine.code[s.position]? = some i ∧ t.position = s.position + 1 ∧
      t.pool = s.pool ∧ t.builder.labels = s.builder.labels := by
  have hrun := h.run
  have hcode := h.completes.code s.position h.reached
  simp only [Emit.instr] at hrun
  cases hrun
  have hposition : { s with builder := s.builder.emit i }.position = s.position + 1 := by
    simp [Emission.position, Builder.emit]
  rw [hposition] at hcode
  refine ⟨(hcode (Nat.lt_succ_self _)).trans ?_, hposition, rfl, rfl⟩
  simp [Emission.position, Builder.emit]

@[grind →]
theorem instr_position {i : Instr} (h : J.Emits start (Emit.instr i) s () t) :
    t.position = s.position + 1 := h.instr.2.1

theorem instrs_cons {i : Instr} {is : List Instr}
    (h : J.Emits start (Emit.instrs (i :: is)) s () t) :
    ∃ u, J.Emits start (Emit.instr i) s () u ∧ J.Emits start (Emit.instrs is) u () t := by
  obtain ⟨_, u, hfirst, hrest⟩ := bind (x := Emit.instr i) (f := fun _ => Emit.instrs is) h
  exact ⟨u, hfirst, hrest⟩

theorem instrs_nil (h : J.Emits start (Emit.instrs []) s () t) : t = s := (pure h).2

theorem instrs_one_iff {i : Instr} :
    J.Emits start (Emit.instrs [i]) s () t ↔ J.Emits start (Emit.instr i) s () t := by
  constructor
  · intro h
    obtain ⟨u, hi, h⟩ := h.instrs_cons
    obtain rfl := h.instrs_nil
    exact hi
  · intro h
    exact ⟨h.run, h.sound, h.completes, h.reached⟩

theorem instrs_cons_iff {i j : Instr} {is : List Instr} :
    J.Emits start (Emit.instrs (i :: j :: is)) s () t ↔
      ∃ u, J.Emits start (Emit.instr i) s () u ∧ J.Emits start (Emit.instrs (j :: is)) u () t :=
  seq_iff (x := Emit.instr i) (f := fun _ => Emit.instrs (j :: is))

@[grind →]
theorem newLabel {l : Label} (h : J.Emits start Emit.newLabel s l t) :
    t.position = s.position ∧ t.pool = s.pool := by
  have hrun := h.run
  simp only [Emit.newLabel] at hrun
  cases hrun
  exact ⟨rfl, rfl⟩

/-- A marked label leads to the next instruction. -/
@[grind →]
theorem mark {l : Label} (h : J.Emits start (Emit.mark l) s () t) :
    J.routine.target? l = some s.position ∧ t.position = s.position ∧ t.pool = s.pool := by
  have hrun := h.run
  have hmarks := h.completes.marks l.index s.position
  simp only [Emit.mark] at hrun
  split at hrun
  · next hmark =>
      cases hrun
      unfold Builder.markLabel at hmark
      split at hmark
      · next hl =>
          cases hmark
          have hbound : l.index < s.builder.labels.size := (Array.getElem?_eq_some_iff.mp hl).1
          refine ⟨hmarks ?_, rfl, rfl⟩
          simp [Emission.position, hbound]
      · cases hmark
      · cases hmark
  · cases hrun

theorem wrapIf {condition : Bool} (h : J.Emits start (Emit.wrapIf condition) s () t) :
    (condition = true ∧ J.Emits start (Emit.instr .optWrap) s () t) ∨
      (condition = false ∧ s = t) := by
  cases condition with
  | true => exact .inl ⟨rfl, h⟩
  | false => exact .inr ⟨rfl, (pure h).2.symm⟩

/-! ## Temporaries -/

/-- An acquired temporary is live from then on and was not before. -/
@[grind →]
theorem temp {ty : Ty} {slot : Nat} (h : J.Emits start (Emit.temp ty) s slot t) :
    t.position = s.position ∧ t.pool.live = slot :: s.pool.live ∧ slot ∉ s.pool.live ∧
      slot < J.routine.locals.size := by
  have hrun := h.run
  have hafter := h.sound_after
  have hlimit := h.limit
  have hlocals := h.completes.locals
  simp only [Emit.temp] at hrun
  cases hrun
  have hlive := SlotPool.acquire_live s.pool s.builder ty
  have hposition : (s.pool.acquire s.builder ty).2.2.code = s.builder.code := by
    rcases SlotPool.acquire_builder s.pool s.builder ty with hb | hb <;> rw [hb]
  refine ⟨by simp [Emission.position, hposition], hlive,
    SlotPool.acquire_fresh h.sound.tidy hlimit, ?_⟩
  refine Nat.lt_of_lt_of_le ((hafter.tidy.declared _).mp (List.mem_append_left _ ?_)) hlocals
  rw [hlive]
  exact List.mem_cons_self

/-- A section with temporaries of its own is a run of what it is around. -/
theorem withTemps {x : Emit α} {a : α} (h : J.Emits start (Emit.withTemps x) s a t) :
    ∃ u, J.Emits start x s a u ∧ t.position = u.position := by
  have hrun := h.run
  have hcompletes := h.completes
  simp only [Emit.withTemps] at hrun
  split at hrun
  · next u hx =>
      cases hrun
      exact ⟨u, ⟨hx, h.sound, ⟨hcompletes.code, hcompletes.size, hcompletes.marks,
        hcompletes.locals⟩, h.reached⟩, rfl⟩
  · cases hrun

end Emits

end Job

end Arbor
