/-
  Closed code.

  Instructions name labels, locals, arguments and children, and execution can
  reach some positions of a routine.  A routine is closed if everything that its
  instructions and regions name is there and its last instruction does not fall
  through.  Execution of a closed routine never gets behind its end.  A routine is
  closed throughout if the routines below it are closed as well.
-/
import Arbor.Code.Helper
import Arbor.Code.Routine

set_option autoImplicit false

namespace Arbor

/-! ## What instructions name -/

namespace Instr

/-- Labels that the instruction can lead to. -/
def labels : Instr → List Label
  | jump l | jumpIfTrue l | jumpIfFalse l | jumpIfAbsent l | jumpIfPresent l | leave l => [l]
  | switch ls => ls
  | _ => []

/-- Locals that the instruction names. -/
def slots : Instr → List Nat
  | loadLocal n | loadLocalAddr n | storeLocal n | markStack n | resetStack n => [n]
  | _ => []

/-- Arguments that the instruction names. -/
def args : Instr → List Nat
  | loadArg n | loadArgAddr n | storeArg n => [n]
  | _ => []

/-- Children that the instruction names. -/
def children : Instr → List Nat
  | callChild n | loadFunction n => [n]
  | _ => []

/-- Labels that the instruction can lead to without leaving regions. -/
def branches : Instr → List Label
  | leave _ => []
  | i => i.labels

/-- Whether the instruction is a plain jump. -/
def isJump : Instr → Bool
  | jump _ => true
  | _ => false

/-- Whether the instruction reads or writes through an address that it pops. -/
def isIndirect : Instr → Bool
  | loadIndirect | storeIndirect | initObject _ => true
  | _ => false

/-- Whether the instruction names nothing. -/
def isBare (i : Instr) : Bool :=
  i.labels.isEmpty && i.slots.isEmpty && i.args.isEmpty && i.children.isEmpty

/-- What the instruction names has these properties. -/
structure Names (label : Label → Prop) (slot arg child : Nat → Prop) (i : Instr) : Prop where
  labels : ∀ l ∈ i.labels, label l
  slots : ∀ n ∈ i.slots, slot n
  args : ∀ n ∈ i.args, arg n
  children : ∀ n ∈ i.children, child n

/-- An instruction that names nothing. -/
theorem Names.of_isBare {label : Label → Prop} {slot arg child : Nat → Prop} {i : Instr}
    (h : i.isBare = true) : i.Names label slot arg child := by
  simp only [isBare, Bool.and_eq_true, List.isEmpty_iff] at h
  obtain ⟨⟨⟨hlabels, hslots⟩, hargs⟩, hchildren⟩ := h
  refine ⟨?_, ?_, ?_, ?_⟩
  · rw [hlabels]
    exact fun _ hl => absurd hl List.not_mem_nil
  · rw [hslots]
    exact fun _ hn => absurd hn List.not_mem_nil
  · rw [hargs]
    exact fun _ hn => absurd hn List.not_mem_nil
  · rw [hchildren]
    exact fun _ hn => absurd hn List.not_mem_nil

theorem Names.of_slot {label : Label → Prop} {slot arg child : Nat → Prop} {i : Instr} {n : Nat}
    (hn : slot n) (hi : i.labels = [] ∧ i.slots = [n] ∧ i.args = [] ∧ i.children = []) :
    i.Names label slot arg child := by
  obtain ⟨hlabels, hslots, hargs, hchildren⟩ := hi
  refine ⟨?_, ?_, ?_, ?_⟩
  · simp [hlabels]
  · simpa [hslots] using hn
  · simp [hargs]
  · simp [hchildren]

theorem Names.of_arg {label : Label → Prop} {slot arg child : Nat → Prop} {i : Instr} {n : Nat}
    (hn : arg n) (hi : i.labels = [] ∧ i.slots = [] ∧ i.args = [n] ∧ i.children = []) :
    i.Names label slot arg child := by
  obtain ⟨hlabels, hslots, hargs, hchildren⟩ := hi
  refine ⟨?_, ?_, ?_, ?_⟩
  · simp [hlabels]
  · simp [hslots]
  · simpa [hargs] using hn
  · simp [hchildren]

theorem Names.imp {label label' : Label → Prop} {slot slot' arg arg' child child' : Nat → Prop}
    {i : Instr} (h : i.Names label slot arg child) (hlabel : ∀ l, label l → label' l)
    (hslot : ∀ n, slot n → slot' n) (harg : ∀ n, arg n → arg' n) (hchild : ∀ n, child n → child' n) :
    i.Names label' slot' arg' child' :=
  ⟨fun l hl => hlabel l (h.labels l hl), fun n hn => hslot n (h.slots n hn),
    fun n hn => harg n (h.args n hn), fun n hn => hchild n (h.children n hn)⟩

/-- Whether execution can go on behind the instruction. -/
def fallsThrough : Instr → Bool
  | jump _ | leave _ | endFinally | endFilter | throw | rethrow | ret => false
  | _ => true

end Instr

namespace Routine

variable (R : Routine)

/-- The positions at which execution arrives otherwise than from the instruction in front. -/
inductive Entry : Nat → Prop
  | start : Entry 0
  | label {l : Label} {pc : Nat} : R.target? l = some pc → Entry pc
  | handler {g : Region Nat} : g ∈ R.regions → Entry g.handlerStart
  | filter {g : Region Nat} {pc : Nat} : g ∈ R.regions → g.kind = .filter pc → Entry pc

/-- The positions at which execution can arrive. -/
inductive Reaches : Nat → Prop
  | entry {pc : Nat} : R.Entry pc → Reaches pc
  | next {pc : Nat} {i : Instr} : Reaches pc → R.code[pc]? = some i → i.fallsThrough = true →
      Reaches (pc + 1)

end Routine

/-! ## Closed routines -/

/-- Whether an instruction can stand in the routine: everything that it names is there, and its labels
lead to instructions. -/
def Routine.Has (R : Routine) : Instr → Prop :=
  Instr.Names (fun l => ∃ pc, R.target? l = some pc ∧ pc < R.code.size) (· < R.locals.size)
    (· < R.params.length) (· < R.children.length)

/-- Everything that the routine names is there, and control does not run past its end. -/
structure Routine.Closed (R : Routine) : Prop where
  operands : ∀ i ∈ R.code, R.Has i
  targets : ∀ l pc, R.target? l = some pc → pc < R.code.size
  marks : ∀ g ∈ R.regions, g.stackMark < R.locals.size
  handlers : ∀ g ∈ R.regions, g.handlerStart < R.code.size
  filters : ∀ g ∈ R.regions, ∀ pc, g.kind = .filter pc → pc < R.code.size
  ends : ∃ i, R.code.back? = some i ∧ i.fallsThrough = false

/-- The routine is the other one or stands below it. -/
inductive Routine.Below : Routine → Routine → Prop
  | refl (R : Routine) : R.Below R
  | child {D C R : Routine} : C ∈ R.children → D.Below C → D.Below R

/-- The routine and all routines below it are closed. -/
def Routine.ClosedThroughout (R : Routine) : Prop := ∀ D : Routine, D.Below R → D.Closed

namespace Routine

variable {R : Routine}

/-- Control goes on within a closed routine behind an instruction that falls through. -/
theorem Closed.succ_lt (h : R.Closed) {pc : Nat} {i : Instr} (hi : R.code[pc]? = some i)
    (hfalls : i.fallsThrough = true) : pc + 1 < R.code.size := by
  obtain ⟨last, hlast, hend⟩ := h.ends
  obtain ⟨hlt, -⟩ := Array.getElem?_eq_some_iff.mp hi
  refine Nat.lt_of_le_of_ne hlt fun heq => ?_
  rw [Array.back?_eq_getElem?, ← heq, Nat.add_sub_cancel, hi] at hlast
  cases hlast
  rw [hfalls] at hend
  cases hend

/-- Execution of a closed routine arrives at instructions only. -/
theorem Closed.lt_of_reaches (h : R.Closed) {pc : Nat} (hpc : R.Reaches pc) : pc < R.code.size := by
  induction hpc with
  | entry hentry =>
      cases hentry with
      | start =>
          obtain ⟨i, hi, -⟩ := h.ends
          rw [Array.back?_eq_getElem?] at hi
          exact Nat.zero_lt_of_lt (Array.getElem?_eq_some_iff.mp hi).1
      | label hl => exact h.targets _ _ hl
      | handler hg => exact h.handlers _ hg
      | filter hg hkind => exact h.filters _ hg _ hkind
  | next _ hi hfalls _ => exact h.succ_lt hi hfalls

theorem ClosedThroughout.of_children (h : R.Closed) (hchildren : ∀ c ∈ R.children, c.ClosedThroughout) :
    R.ClosedThroughout := by
  intro D hD
  cases hD with
  | refl => exact h
  | child hmem hbelow => exact hchildren _ hmem D hbelow

/-! ## Helpers -/

/-- Whether an instruction names what is there. -/
def has (R : Routine) (i : Instr) : Bool :=
  i.labels.all (fun l => (R.target? l).any (· < R.code.size)) && i.slots.all (· < R.locals.size) &&
    i.args.all (· < R.params.length) && i.children.all (· < R.children.length)

/-- An instruction that names what is there can stand in the routine. -/
theorem Has.of_has {i : Instr} (h : R.has i = true) : R.Has i := by
  simp only [has, Bool.and_eq_true, List.all_eq_true, Option.any_eq_true_iff_get, decide_eq_true_eq] at h
  obtain ⟨⟨⟨hlabels, hslots⟩, hargs⟩, hchildren⟩ := h
  refine ⟨fun l hl => ?_, hslots, hargs, hchildren⟩
  obtain ⟨hsome, hlt⟩ := hlabels l hl
  exact ⟨_, (Option.some_get hsome).symm, hlt⟩

end Routine

/-- The helpers are closed, and nothing is below them. -/
theorem HelperKind.closedThroughout_routine (kind : HelperKind) (elem : Ty) :
    (kind.routine elem).ClosedThroughout := by
  refine .of_children ?_ ?_
  · have hhas : (kind.routine elem).code.toList.all (kind.routine elem).has = true := by
      cases kind <;> rfl
    have htargets : (kind.routine elem).labels.toList.all (· < (kind.routine elem).code.size) = true := by
      cases kind <;> rfl
    refine ⟨fun i hi => .of_has (List.all_eq_true.mp hhas i hi.val), fun l pc hl => ?_, ?_, ?_, ?_, ?_⟩
    · obtain ⟨hlt, rfl⟩ := Array.getElem?_eq_some_iff.mp hl
      simpa using List.all_eq_true.mp htargets _ (Array.getElem_mem_toList hlt)
    · cases kind <;> exact fun _ hg => absurd hg List.not_mem_nil
    · cases kind <;> exact fun _ hg => absurd hg List.not_mem_nil
    · cases kind <;> exact fun _ hg => absurd hg List.not_mem_nil
    · cases kind <;> exact ⟨_, rfl, rfl⟩
  · cases kind <;> exact fun _ hc => absurd hc List.not_mem_nil

end Arbor
