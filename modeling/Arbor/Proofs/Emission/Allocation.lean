/-
  Allocation of slots, step by step.

  Seen from the slots, an emission acquires temporaries, opens and closes sections
  with temporaries of their own, and opens and closes sections with variables,
  whose slots were acquired before.  The steps may come in any order in which
  sections are nested.  `Nested` says of every open section what it goes back to;
  no step needs slots to be numbered in order to keep it.  As long as slots can be
  numbered, the pool stays tidy as well.
-/
import Mathlib.Logic.Relation
import Arbor.Proofs.Emission.Nesting
import Arbor.Proofs.Simulation.Emits

set_option autoImplicit false

namespace Arbor

/-! ## Points and steps -/

/-- The local that a variable lives in. -/
def VarSlot.local? : VarSlot → Option Nat
  | .arg _ => none
  | .local n => some n

/-- The locals of the variables in scope. -/
def Scope.locals (scope : Scope) : List Nat := scope.filterMap (·.2.1.local?)

theorem Scope.locals_append (inner outer : Scope) :
    Scope.locals (inner ++ outer) = inner.locals ++ outer.locals :=
  List.filterMap_append

/-- An open section of an emission. -/
inductive Section where
  /-- A section with temporaries of its own, and the slots that were live when it was opened. -/
  | temps (live : List Nat)
  /-- A section with variables of its own, and the variables in scope outside and inside of it. -/
  | vars (outer inner : Scope)

/-- A point of an emission: its state, and the sections that are open, innermost first. -/
structure Point where
  state : Emission
  sections : List Section

/-- The state that an emitter ends in, whether it succeeds or fails. -/
def EmitResult.state {α : Type} : EmitResult α → Emission
  | .ok _ t => t
  | .error _ t => t

namespace Point

/-- A step of an emission, as far as slots and variables are concerned. -/
inductive Step : Point → Point → Prop
  | temp {setting : Setting} {ty : Ty} {slot : Nat} {s t : Emission} {sections : List Section}
      (h : (Emit.temp ty).run setting s = .ok slot t) : Step ⟨s, sections⟩ ⟨t, sections⟩
  /-- What else is emitted leaves slots and variables as they are. -/
  | other {s t : Emission} {sections : List Section} (hpool : t.pool = s.pool)
      (hlocals : t.builder.locals = s.builder.locals) (hscope : t.scope = s.scope) :
      Step ⟨s, sections⟩ ⟨t, sections⟩
  | openTemps {s : Emission} {sections : List Section} :
      Step ⟨s, sections⟩ ⟨s, .temps s.pool.live :: sections⟩
  | closeTemps {s : Emission} {live : List Nat} {sections : List Section} :
      Step ⟨s, .temps live :: sections⟩ ⟨s.releaseTo live.length, sections⟩
  /-- Variables are bound to slots that are live, each to one of its own. -/
  | openVars {s : Emission} {vars : Scope} {sections : List Section}
      (h : (Scope.locals (vars.reverse ++ s.scope)).Sublist s.pool.live) :
      Step ⟨s, sections⟩
        ⟨{ s with scope := vars.reverse ++ s.scope }, .vars s.scope (vars.reverse ++ s.scope) :: sections⟩
  | closeVars {s : Emission} {outer inner : Scope} {sections : List Section} :
      Step ⟨s, .vars outer inner :: sections⟩ ⟨{ s with scope := outer }, sections⟩

/-- Steps in any number and order. -/
abbrev Steps : Point → Point → Prop := Relation.ReflTransGen Step

/-- Nothing is allocated, and no section is open. -/
structure Blank (p : Point) : Prop where
  pool : p.state.pool = .empty
  locals : p.state.builder.locals = #[]
  scope : p.state.scope = []
  sections : p.sections = []

/-- Points that an emission can arrive at. -/
def Reachable (p : Point) : Prop := ∃ start : Point, start.Blank ∧ start.Steps p

end Point

/-! ## Slots apart -/

namespace SlotPool

variable {p : SlotPool} {b : Builder} {ty : Ty} {locals : Array Ty}

/-- Every declared slot is live or free, and nothing else; no slot is held twice, and free slots are
listed under their declared types. -/
structure Apart (p : SlotPool) (locals : Array Ty) : Prop where
  live : p.live.Nodup
  free : (p.free.map (·.2)).Nodup
  disjoint : ∀ slot ∈ p.live, slot ∉ p.free.map (·.2)
  declared : ∀ slot, slot < locals.size ↔ slot ∈ p.live ∨ slot ∈ p.free.map (·.2)
  typed : ∀ e ∈ p.free, locals[e.2]? = some e.1

theorem Tidy.apart (h : p.Tidy locals) : p.Apart locals := by
  obtain ⟨hlive, hfree, hdisjoint⟩ := List.nodup_append.mp h.distinct
  exact ⟨hlive, hfree, fun slot hslot hmem => hdisjoint slot hslot slot hmem rfl,
    fun slot => (h.declared slot).symm.trans List.mem_append, h.typed⟩

/-- An acquired slot has the type that was asked for. -/
theorem acquire_typed (h : p.Tidy b.locals)
    (hlimit : (p.acquire b ty).2.2.locals.size ≤ Builder.slotLimit) :
    (p.acquire b ty).2.2.locals[(p.acquire b ty).1]? = some ty := by
  unfold acquire at hlimit ⊢
  cases hfree : takeFree ty p.free with
  | some found =>
      obtain ⟨slot, rest⟩ := found
      obtain ⟨before, after, hsplit, -⟩ := takeFree_eq_some hfree
      exact h.typed (ty, slot) (by simp [hsplit])
  | none =>
      simp only [hfree, Builder.declareLocal, Array.size_push] at hlimit ⊢
      rw [Nat.mod_eq_of_lt hlimit]
      exact Array.getElem?_push_size

end SlotPool

/-! ## Sections go back to where they were opened -/

namespace Section

/-- The open sections, where the slots `live` are in use and the variables `scope` in scope.  A section
with temporaries was opened when some of the slots were live; variables have slots of their own. -/
def Nested : List Section → List Nat → Scope → Prop
  | [], _, scope => scope = []
  | temps start :: rest, live, scope => start <:+ live ∧ Nested rest start scope
  | vars outer inner :: rest, live, scope =>
      scope = inner ∧ (Scope.locals inner).Sublist live ∧ Nested rest live outer

variable {sections : List Section} {live live' : List Nat} {scope scope' : Scope}

/-- Variables live in slots that are in use, each in one of its own. -/
theorem Nested.sublist (h : Nested sections live scope) : scope.locals.Sublist live := by
  induction sections generalizing live with
  | nil =>
      obtain rfl : scope = [] := h
      exact List.nil_sublist _
  | cons first rest ih =>
      cases first with
      | temps start => exact (ih h.2).trans h.1.sublist
      | vars outer inner => exact h.1 ▸ h.2.1

theorem Nested.mono (h : Nested sections live scope) (hlive : live <:+ live') :
    Nested sections live' scope := by
  induction sections generalizing scope with
  | nil => exact h
  | cons first rest ih =>
      cases first with
      | temps start => exact ⟨h.1.trans hlive, h.2⟩
      | vars outer inner => exact ⟨h.1, h.2.1.trans hlive.sublist, ih h.2.2⟩

end Section

namespace Point

variable {p q : Point}

/-- The open sections of the point are nested. -/
def Nested (p : Point) : Prop := Section.Nested p.sections p.state.pool.live p.state.scope

/-- Every step keeps the sections nested. -/
theorem Step.nested (h : p.Step q) (hp : p.Nested) : q.Nested := by
  cases h with
  | temp htemp =>
      have hgrows := (Emit.temp _).grows htemp
      have hmore := Section.Nested.mono hp hgrows.live
      unfold Nested
      rwa [hgrows.scope]
  | other hpool hlocals hscope =>
      unfold Nested at hp ⊢
      rwa [hpool, hscope]
  | openTemps => exact ⟨List.suffix_rfl, hp⟩
  | @closeTemps s live sections =>
      obtain ⟨hlive, hrest⟩ := hp
      change Section.Nested sections (s.pool.releaseTo s.builder.locals live.length).live s.scope
      rw [SlotPool.releaseTo_live hlive]
      exact hrest
  | openVars hvars => exact ⟨rfl, hvars, hp⟩
  | closeVars => exact hp.2.2

theorem Steps.nested (h : p.Steps q) (hp : p.Nested) : q.Nested := by
  induction h with
  | refl => exact hp
  | tail _ hstep ih => exact hstep.nested ih

theorem Blank.nested (h : p.Blank) : p.Nested := by
  unfold Nested
  rw [h.sections]
  exact h.scope

/-! ## Slots stay apart -/

theorem Step.locals_le (h : p.Step q) :
    p.state.builder.locals.size ≤ q.state.builder.locals.size := by
  cases h with
  | temp htemp => exact ((Emit.temp _).grows htemp).locals_le
  | other _ hlocals => exact Nat.le_of_eq (congrArg Array.size hlocals).symm
  | _ => exact Nat.le_refl _

/-- Every step keeps the pool tidy as long as slots can be numbered. -/
theorem Step.tidy (h : p.Step q) (hlimit : q.state.builder.locals.size ≤ Builder.slotLimit)
    (hp : p.state.Tidy) : q.state.Tidy := by
  cases h with
  | temp htemp => exact ((Emit.temp _).grows htemp).tidy hlimit hp
  | other hpool hlocals =>
      unfold Emission.Tidy at hp ⊢
      rwa [hpool, hlocals]
  | closeTemps => exact SlotPool.releaseTo_tidy hp _
  | _ => exact hp

theorem Steps.locals_le (h : p.Steps q) :
    p.state.builder.locals.size ≤ q.state.builder.locals.size := by
  induction h with
  | refl => exact Nat.le_refl _
  | tail _ hstep ih => exact Nat.le_trans ih hstep.locals_le

theorem Steps.tidy (h : p.Steps q) (hlimit : q.state.builder.locals.size ≤ Builder.slotLimit)
    (hp : p.state.Tidy) : q.state.Tidy := by
  induction h with
  | refl => exact hp
  | tail _ hstep ih => exact hstep.tidy hlimit (ih (Nat.le_trans hstep.locals_le hlimit))

theorem Blank.tidy (h : p.Blank) : p.state.Tidy := by
  unfold Emission.Tidy
  rw [h.pool, h.locals]
  exact SlotPool.tidy_empty

theorem Reachable.nested (h : p.Reachable) : p.Nested :=
  let ⟨_, hblank, hsteps⟩ := h
  hsteps.nested hblank.nested

theorem Reachable.tidy (h : p.Reachable)
    (hlimit : p.state.builder.locals.size ≤ Builder.slotLimit) : p.state.Tidy :=
  let ⟨_, hblank, hsteps⟩ := h
  hsteps.tidy hlimit hblank.tidy

theorem Reachable.steps (h : p.Reachable) (hsteps : p.Steps q) : q.Reachable :=
  let ⟨start, hblank, hbefore⟩ := h
  ⟨start, hblank, hbefore.trans hsteps⟩

end Point

/-! ## Emitters of steps -/

namespace Emit

open Point

variable {α : Type} {setting : Setting} {s t : Emission} {sections : List Section}

/-- An acquired slot is no other that is live, and has the type that was asked for. -/
theorem temp_apart {ty : Ty} {slot : Nat} (h : (temp ty).run setting s = .ok slot t) (hs : s.Tidy)
    (hlimit : t.builder.locals.size ≤ Builder.slotLimit) :
    slot ∉ s.pool.live ∧ t.pool.live = slot :: s.pool.live ∧
      t.builder.locals[slot]? = some ty := by
  simp only [temp] at h
  cases h
  exact ⟨SlotPool.acquire_fresh hs hlimit, SlotPool.acquire_live _ _ _,
    SlotPool.acquire_typed hs hlimit⟩

theorem pushDefault_other {ty : Ty} {a : Unit} (h : (pushDefault ty).run setting s = .ok a t) :
    t.pool = s.pool ∧ t.builder.locals = s.builder.locals ∧ t.scope = s.scope := by
  unfold pushDefault at h
  split at h
  · cases h
    exact ⟨rfl, rfl, rfl⟩
  · split at h <;> cases h <;> exact ⟨rfl, rfl, rfl⟩

/-- A zeroed local is a temporary that holds the default. -/
theorem bindLocal_steps {v : Variable} {bound : VarId × VarSlot × Ty}
    (h : (bindLocal v).run setting s = .ok bound t) :
    ∃ slot u, (temp v.ty).run setting s = .ok slot u ∧ bound = (v.id, .local slot, v.ty) ∧
      t.pool = u.pool ∧ t.builder.locals = u.builder.locals ∧ t.scope = u.scope := by
  obtain ⟨slot, u, htemp, h⟩ := run_bind h
  obtain ⟨_, w, hdefault, h⟩ := run_bind h
  obtain ⟨_, x, hstore, hpure⟩ := run_bind h
  cases hpure
  cases hstore
  obtain ⟨hpool, hlocals, hscope⟩ := pushDefault_other hdefault
  exact ⟨slot, u, htemp, rfl, hpool, hlocals, hscope⟩

/-- A section with temporaries ends with the slots that were live when it began, whether what is in it
succeeds or fails. -/
theorem withTemps_steps {x : Emit α} (hs : Nested ⟨s, sections⟩)
    (hx : Steps ⟨s, .temps s.pool.live :: sections⟩
      ⟨(x.run setting s).state, .temps s.pool.live :: sections⟩) :
    ((withTemps x).run setting s).state.pool.live = s.pool.live ∧
      Steps ⟨s, sections⟩ ⟨((withTemps x).run setting s).state, sections⟩ := by
  have hstate : ((withTemps x).run setting s).state =
      (x.run setting s).state.releaseTo s.pool.live.length := by
    simp only [withTemps]
    cases x.run setting s <;> rfl
  have hlive : s.pool.live <:+ (x.run setting s).state.pool.live :=
    (hx.nested (Step.nested .openTemps hs)).1
  rw [hstate]
  exact ⟨SlotPool.releaseTo_live hlive,
    .head .openTemps (hx.tail .closeTemps)⟩

end Emit

end Arbor
