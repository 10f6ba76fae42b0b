/-
  Temporaries of a routine under construction.

  A temporary is live from its acquisition to the end of the section that
  acquired it, and free from then on; a free slot serves again for the type it
  was declared with.
-/
import Arbor.Code.Routine

set_option autoImplicit false

namespace Arbor

/-- The temporaries of one routine. -/
structure SlotPool where
  /-- Free slots with their types, the latest freed first. -/
  free : List (Ty × Nat)
  /-- Slots in use, the latest acquired first. -/
  live : List Nat
  deriving Inhabited

namespace SlotPool

/-- No temporary has been acquired. -/
def empty : SlotPool := ⟨[], []⟩

/-- Takes the latest freed slot of a type off the free list. -/
def takeFree (ty : Ty) : List (Ty × Nat) → Option (Nat × List (Ty × Nat))
  | [] => none
  | (t, slot) :: rest =>
      if t = ty then some (slot, rest)
      else (takeFree ty rest).map fun (found, others) => (found, (t, slot) :: others)

/-- Acquires a slot of a type: a free one, or a newly declared local. -/
def acquire (p : SlotPool) (b : Builder) (ty : Ty) : Nat × SlotPool × Builder :=
  match takeFree ty p.free with
  | some (slot, free) => (slot, ⟨free, slot :: p.live⟩, b)
  | none =>
      let (slot, b) := b.declareLocal ty
      (slot, ⟨p.free, slot :: p.live⟩, b)

/-- Frees slots, the latest acquired first, under their declared types. -/
def release (locals : Array Ty) (free : List (Ty × Nat)) : List Nat → List (Ty × Nat)
  | [] => free
  | slot :: rest =>
      match locals[slot]? with
      | some ty => release locals ((ty, slot) :: free) rest
      | none => release locals free rest

/-- Frees what was acquired since `mark` slots were live. -/
def releaseTo (p : SlotPool) (locals : Array Ty) (mark : Nat) : SlotPool :=
  let since := p.live.length - mark
  ⟨release locals p.free (p.live.take since), p.live.drop since⟩

/-! ## The allocation invariant -/

/-- The slots of a pool, live ones first. -/
def slots (p : SlotPool) : List Nat := p.live ++ p.free.map (·.2)

/-- No slot is held twice, the slots are those that are declared, and a free slot is listed under
its declared type. -/
structure Tidy (p : SlotPool) (locals : Array Ty) : Prop where
  distinct : p.slots.Nodup
  declared : ∀ slot, slot ∈ p.slots ↔ slot < locals.size
  typed : ∀ e ∈ p.free, locals[e.2]? = some e.1

/-- A pool without slots suits a routine without locals. -/
theorem tidy_empty : empty.Tidy #[] :=
  ⟨List.nodup_nil, by simp [slots, empty], by simp [empty]⟩

/-- A slot found on the free list is listed there under the type, and the others stay in order. -/
theorem takeFree_eq_some {ty : Ty} : ∀ {free rest : List (Ty × Nat)} {slot : Nat},
    takeFree ty free = some (slot, rest) →
      ∃ before after, free = before ++ (ty, slot) :: after ∧ rest = before ++ after := by
  intro free
  induction free with
  | nil => intro rest slot h; simp [takeFree] at h
  | cons e free ih =>
      intro rest slot h
      obtain ⟨t, first⟩ := e
      by_cases ht : t = ty
      · simp only [takeFree, ht, if_true, Option.some.injEq, Prod.mk.injEq] at h
        exact ⟨[], free, by simp [ht, h.1], by simp [h.2]⟩
      · simp only [takeFree, ht, if_false, Option.map_eq_some_iff] at h
        obtain ⟨⟨found, others⟩, hfound, hpair⟩ := h
        simp only [Prod.mk.injEq] at hpair
        obtain ⟨before, after, hfree, hothers⟩ := ih hfound
        refine ⟨(t, first) :: before, after, ?_, ?_⟩
        · rw [hfree, hpair.1, List.cons_append]
        · rw [← hpair.2, hothers, List.cons_append]

/-- Acquisition puts the slot in front of the live ones. -/
theorem acquire_live (p : SlotPool) (b : Builder) (ty : Ty) :
    (p.acquire b ty).2.1.live = (p.acquire b ty).1 :: p.live := by
  unfold acquire
  split <;> rfl

/-- Acquisition declares at most one local and changes nothing else of the builder. -/
theorem acquire_builder (p : SlotPool) (b : Builder) (ty : Ty) :
    (p.acquire b ty).2.2 = b ∨ (p.acquire b ty).2.2 = { b with locals := b.locals.push ty } := by
  unfold acquire
  split
  · exact .inl rfl
  · exact .inr rfl

/-- Acquisition adds no code. -/
theorem acquire_code (p : SlotPool) (b : Builder) (ty : Ty) : (p.acquire b ty).2.2.code = b.code := by
  rcases p.acquire_builder b ty with hb | hb <;> rw [hb]

/-- Acquisition makes no label. -/
theorem acquire_labels (p : SlotPool) (b : Builder) (ty : Ty) :
    (p.acquire b ty).2.2.labels = b.labels := by
  rcases p.acquire_builder b ty with hb | hb <;> rw [hb]

/-- Acquisition keeps a pool tidy as long as slots can be numbered. -/
theorem acquire_tidy {p : SlotPool} {b : Builder} {ty : Ty} (h : p.Tidy b.locals)
    (hlimit : (p.acquire b ty).2.2.locals.size ≤ Builder.slotLimit) :
    (p.acquire b ty).2.1.Tidy (p.acquire b ty).2.2.locals := by
  unfold acquire at hlimit ⊢
  cases hfree : takeFree ty p.free with
  | some found =>
      obtain ⟨slot, rest⟩ := found
      obtain ⟨before, after, hsplit, hrest⟩ := takeFree_eq_some hfree
      have hperm : (SlotPool.mk rest (slot :: p.live)).slots.Perm p.slots := by
        simp only [slots, hsplit, hrest, List.map_append, List.map_cons, List.cons_append]
        rw [← List.append_assoc, ← List.append_assoc]
        exact List.perm_middle.symm
      refine ⟨hperm.nodup_iff.mpr h.distinct, fun x => hperm.mem_iff.trans (h.declared x), ?_⟩
      intro e he
      refine h.typed e ?_
      simp only [hrest, List.mem_append] at he
      rw [hsplit]
      rcases he with he | he
      · exact List.mem_append_left _ he
      · exact List.mem_append_right _ (List.mem_cons_of_mem _ he)
  | none =>
      simp only [hfree, Builder.declareLocal, Array.size_push] at hlimit ⊢
      have hslot : b.locals.size % Builder.slotLimit = b.locals.size :=
        Nat.mod_eq_of_lt hlimit
      rw [hslot]
      refine ⟨?_, ?_, ?_⟩
      · refine List.nodup_cons.mpr ⟨?_, h.distinct⟩
        intro hmem
        exact Nat.lt_irrefl _ ((h.declared _).mp hmem)
      · intro x
        have hx := h.declared x
        simp only [slots, List.mem_append] at hx
        simp only [slots, List.cons_append, List.mem_cons, List.mem_append, Array.size_push, hx]
        omega
      · intro e he
        have htyped := h.typed e he
        have hbound : e.2 < b.locals.size := by
          exact (Array.getElem?_eq_some_iff.mp htyped).1
        rw [Array.getElem?_push_lt hbound, ← htyped, Array.getElem?_eq_getElem hbound]

/-- An acquired slot was not live before. -/
theorem acquire_fresh {p : SlotPool} {b : Builder} {ty : Ty} (h : p.Tidy b.locals)
    (hlimit : (p.acquire b ty).2.2.locals.size ≤ Builder.slotLimit) :
    (p.acquire b ty).1 ∉ p.live := by
  have hnodup := (acquire_tidy h hlimit).distinct
  rw [slots, acquire_live, List.cons_append, List.nodup_cons] at hnodup
  exact fun hmem => hnodup.1 (List.mem_append_left _ hmem)

/-- Releasing declared slots moves them to the free list under their types. -/
theorem release_eq {locals : Array Ty} : ∀ {slots : List Nat} (free : List (Ty × Nat)),
    (∀ slot ∈ slots, slot < locals.size) →
      ∃ added, release locals free slots = added ++ free ∧
        added.map (·.2) = slots.reverse ∧ ∀ e ∈ added, locals[e.2]? = some e.1 := by
  intro slots
  induction slots with
  | nil => intro free _; exact ⟨[], rfl, rfl, by simp⟩
  | cons slot rest ih =>
      intro free hbound
      have hslot : slot < locals.size := hbound slot List.mem_cons_self
      have hget : locals[slot]? = some locals[slot] := Array.getElem?_eq_getElem hslot
      obtain ⟨added, hrelease, hslots, htyped⟩ :=
        ih ((locals[slot], slot) :: free) fun x hx => hbound x (List.mem_cons_of_mem _ hx)
      refine ⟨added ++ [(locals[slot], slot)], ?_, ?_, ?_⟩
      · simp only [release, hget]
        rw [hrelease, List.append_assoc, List.singleton_append]
      · rw [List.map_append, hslots, List.reverse_cons, List.map_singleton]
      · intro e he
        rcases List.mem_append.mp he with he | he
        · exact htyped e he
        · rw [List.mem_singleton.mp he]
          exact hget

/-- The end of a section keeps a pool tidy. -/
theorem releaseTo_tidy {p : SlotPool} {locals : Array Ty} (h : p.Tidy locals) (mark : Nat) :
    (p.releaseTo locals mark).Tidy locals := by
  have hbound : ∀ slot ∈ p.live.take (p.live.length - mark), slot < locals.size := by
    intro slot hslot
    exact (h.declared slot).mp (List.mem_append_left _ (List.mem_of_mem_take hslot))
  obtain ⟨added, hrelease, hslots, htyped⟩ := release_eq p.free hbound
  have hperm : (p.releaseTo locals mark).slots.Perm p.slots := by
    simp only [slots, releaseTo, hrelease, List.map_append, hslots]
    rw [← List.append_assoc]
    refine List.Perm.append_right _ ?_
    refine List.perm_append_comm.trans ?_
    refine ((List.reverse_perm _).append_right _).trans ?_
    rw [List.take_append_drop]
  refine ⟨hperm.nodup_iff.mpr h.distinct, fun x => hperm.mem_iff.trans (h.declared x), ?_⟩
  intro e he
  simp only [releaseTo, hrelease] at he
  rcases List.mem_append.mp he with he | he
  · exact htyped e he
  · exact h.typed e he

/-- The end of a section leaves the slots that were live at its start. -/
theorem releaseTo_live {p : SlotPool} {locals : Array Ty} {live : List Nat}
    (h : live <:+ p.live) : (p.releaseTo locals live.length).live = live := by
  obtain ⟨since, hsince⟩ := h
  simp [releaseTo, ← hsince]

end SlotPool

end Arbor
