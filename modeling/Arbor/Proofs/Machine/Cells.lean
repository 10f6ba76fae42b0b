/-
  Storage cells.

  A cell holds one value that can be replaced: a variable of the current call, a
  static field, a field of an object, an element of an array or an item of a list.
  Writing a cell leaves all others as they are, and so does adding something to the
  heap.  What a run leaves of the memory before it is said in terms of cells and of
  the sizes of the objects, arrays and lists that were there.
-/
import Arbor.Proofs.Machine.Locations
import Arbor.Proofs.AutoExtension

set_option autoImplicit false

namespace Arbor

/-- A storage cell that the current call can reach. -/
inductive Cell where
  | var (slot : VarSlot)
  | static (f : FieldRef)
  | field (object : Ref) (slot : Nat)
  | elem (array : Ref) (i : Nat)
  | item (list : Ref) (i : Nat)
  deriving DecidableEq

/-- The object, array or list that the cell is a part of. -/
def Cell.holder : Cell → Option Value
  | .var _ | .static _ => none
  | .field ref _ => some (.object ref)
  | .elem ref _ => some (.array ref)
  | .item ref _ => some (.list ref)

/-- The cell of an element of an array or list. -/
def Value.cellAt? : Value → Nat → Option Cell
  | .array ref, i => some (.elem ref i)
  | .list ref, i => some (.item ref i)
  | _, _ => none

namespace Heap

/-- An item of a list. -/
def item? (h : Heap) (list : Ref) (i : Nat) : Option Value := do
  let c ← h.lists[list]?
  c.items[i]?

/-- Number of elements of an array or list. -/
def length? (h : Heap) : Value → Option Nat
  | .array ref => h.arrays[ref]?.map ArrayCell.size
  | .list ref => h.lists[ref]?.map (·.items.size)
  | _ => none

variable {h : Heap} {ref other : Ref} {i j : Nat}

theorem item?_setItem_self (hold : (h.item? ref i).isSome) (v : Value) :
    (h.setItem (.list ref) i v).item? ref i = some v := by
  cases hc : h.lists[ref]? with
  | none => simp [item?, hc] at hold
  | some c =>
      have hi : i < c.items.size := by simpa [item?, hc] using hold
      simp [item?, setItem, Array.getElem?_modify, hc, hi]

theorem item?_setItem_ne (v : Value) (hne : ¬ (other = ref ∧ j = i)) :
    (h.setItem (.list ref) i v).item? other j = h.item? other j := by
  cases hc : h.lists[other]? with
  | none => simp [item?, setItem, Array.getElem?_modify, hc]
  | some c =>
      by_cases href : ref = other
      · have hi : i ≠ j := fun heq => hne ⟨href.symm, heq.symm⟩
        simp [item?, setItem, Array.getElem?_modify, hc, href, Array.getElem?_setIfInBounds_ne hi]
      · simp [item?, setItem, Array.getElem?_modify, hc, href]

end Heap

namespace Memory

/-- The value of a cell; a static field that was never written has the zero value of its type. -/
def cell? (r : Registry) (m : Memory) : Cell → Option Value
  | .var slot => m.slot? slot
  | .static f => m.statics.get? f <|> (r.field f >>= fun d => r.zero d.ty).toOption
  | .field ref slot => m.heap.field? ref slot
  | .elem ref i => m.heap.elem? ref i
  | .item ref i => m.heap.item? ref i

/-- Writes a cell. -/
def setCell (m : Memory) (k : Cell) (v : Value) : Memory :=
  match k with
  | .var slot => m.setSlot slot v
  | .static f => m.shared m.heap (m.statics.set f v)
  | .field ref slot => m.shared (m.heap.setField ref slot v) m.statics
  | .elem ref i => m.shared (m.heap.setElem ref i v) m.statics
  | .item ref i => m.shared (m.heap.setItem (.list ref) i v) m.statics

variable {r : Registry} {m n k' : Memory} {k l : Cell} {v : Value}

/-- A cell that was written holds the value. -/
theorem cell?_setCell_self (hold : (m.cell? r k).isSome) (v : Value) :
    (m.setCell k v).cell? r k = some v := by
  cases k with
  | var slot =>
      cases slot with
      | arg i | «local» i =>
        have hi := (Array.getElem?_eq_some_iff.mp (Option.some_get hold).symm).1
        simp [cell?, setCell, setSlot, setArg, setLocal, slot?, hi]
  | static f => simp [cell?, setCell, shared, Statics.get?_set_self]
  | field ref slot => exact Heap.field?_setField_self hold v
  | elem ref i => exact Heap.elem?_setElem_self hold v
  | item ref i => exact Heap.item?_setItem_self hold v

/-- A write to a variable leaves the other variables as they are. -/
theorem slot?_setSlot_ne {slot other : VarSlot} (hne : other ≠ slot) (v : Value) :
    (m.setSlot slot v).slot? other = m.slot? other := by
  cases slot with
  | arg i =>
      cases other with
      | arg j =>
          have hi : i ≠ j := fun heq => hne (by rw [heq])
          simp [setSlot, setArg, slot?, Array.getElem?_setIfInBounds_ne hi]
      | «local» j => rfl
  | «local» i =>
      cases other with
      | arg j => rfl
      | «local» j =>
          have hi : i ≠ j := fun heq => hne (by rw [heq])
          simp [setSlot, setLocal, slot?, Array.getElem?_setIfInBounds_ne hi]

/-- The other cells stay. -/
theorem cell?_setCell_ne (hne : l ≠ k) (v : Value) : (m.setCell k v).cell? r l = m.cell? r l := by
  cases k with
  | var slot =>
      cases l with
      | var other => exact slot?_setSlot_ne (fun heq => hne (by rw [heq])) v
      | _ => cases slot <;> rfl
  | static f =>
      cases l with
      | static g =>
          have hg : g ≠ f := fun heq => hne (by rw [heq])
          simp [cell?, setCell, shared, Statics.get?_set_ne v hg]
      | var slot => cases slot <;> rfl
      | _ => rfl
  | field ref slot =>
      cases l with
      | field other i => exact Heap.field?_setField_ne v (by rintro ⟨rfl, rfl⟩; exact hne rfl)
      | var slot => cases slot <;> rfl
      | _ => rfl
  | elem ref i =>
      cases l with
      | elem other j => exact Heap.elem?_setElem_ne v (by rintro ⟨rfl, rfl⟩; exact hne rfl)
      | var slot => cases slot <;> rfl
      | _ => rfl
  | item ref i =>
      cases l with
      | item other j => exact Heap.item?_setItem_ne v (by rintro ⟨rfl, rfl⟩; exact hne rfl)
      | var slot => cases slot <;> rfl
      | _ => rfl

/-- A static field holds what was written to it, or else the zero of its type. -/
theorem static_cases {f : FieldRef} (h : m.cell? r (.static f) = some v) :
    m.statics.get? f = some v ∨
      m.statics.get? f = none ∧ ∃ d, r.field f = .ok d ∧ r.zero d.ty = .ok v := by
  simp only [cell?] at h
  cases hwritten : m.statics.get? f with
  | some x =>
      rw [hwritten] at h
      exact .inl h
  | none =>
      rw [hwritten] at h
      refine .inr ⟨rfl, ?_⟩
      change (r.field f >>= fun d => r.zero d.ty).toOption = some v at h
      cases hd : r.field f with
      | error e =>
          rw [hd] at h
          cases h
      | ok d =>
          rw [hd] at h
          change (r.zero d.ty).toOption = some v at h
          cases hz : r.zero d.ty with
          | error e =>
              rw [hz] at h
              cases h
          | ok z =>
              rw [hz] at h
              exact ⟨d, rfl, hz.trans (congrArg Except.ok (Option.some.inj h))⟩

/-! ## What is left of a memory -/

/-- The second memory has what the first one had: cells other than those that may change, objects with
their types, and arrays and lists with their lengths, except for lists that may grow. -/
structure Extends (r : Registry) (changed : Cell → Prop) (grown : Ref → Prop) (m n : Memory) : Prop where
  cells : ∀ k v, ¬ changed k → m.cell? r k = some v → n.cell? r k = some v
  there : ∀ k, (m.cell? r k).isSome → (n.cell? r k).isSome
  objects : ∀ (ref : Ref) (c : ObjectCell), m.heap.objects[ref]? = some c →
    ∃ c', n.heap.objects[ref]? = some c' ∧ c'.ty = c.ty ∧ c'.fields.size = c.fields.size
  arrays : ∀ (ref : Ref) (c : ArrayCell), m.heap.arrays[ref]? = some c →
    ∃ c', n.heap.arrays[ref]? = some c' ∧ c'.elem = c.elem ∧ c'.dims = c.dims ∧ c'.size = c.size
  lists : ∀ (ref : Ref) (c : ListCell), m.heap.lists[ref]? = some c →
    ∃ c', n.heap.lists[ref]? = some c' ∧ c'.elem = c.elem ∧ c.items.size ≤ c'.items.size ∧
      (¬ grown ref → c'.items.size = c.items.size)

namespace Extends

variable {changed changed' : Cell → Prop} {grown grown' : Ref → Prop}

theorem refl (r : Registry) (changed : Cell → Prop) (grown : Ref → Prop) (m : Memory) :
    m.Extends r changed grown m where
  cells _ _ _ hv := hv
  there _ h := h
  objects _ c hc := ⟨c, hc, rfl, rfl⟩
  arrays _ c hc := ⟨c, hc, rfl, rfl, rfl⟩
  lists _ c hc := ⟨c, hc, rfl, Nat.le_refl _, fun _ => rfl⟩

/-- Changes one after the other: of what the second one changes, only what was there before counts. -/
theorem trans (h : m.Extends r changed grown n) (h' : n.Extends r changed' grown' k')
    (hchanged : ∀ k, changed' k → (m.cell? r k).isSome → changed k)
    (hgrown : ∀ (ref : Ref), grown' ref → (m.heap.lists[ref]?).isSome → grown ref) :
    m.Extends r changed grown k' where
  cells k v hk hv :=
    h'.cells k v (fun hk' => hk (hchanged k hk' (by rw [hv]; rfl))) (h.cells k v hk hv)
  there k hk := h'.there k (h.there k hk)
  objects ref c hc := by
    obtain ⟨c₁, hc₁, hty, hsize⟩ := h.objects ref c hc
    obtain ⟨c₂, hc₂, hty', hsize'⟩ := h'.objects ref c₁ hc₁
    exact ⟨c₂, hc₂, hty'.trans hty, hsize'.trans hsize⟩
  arrays ref c hc := by
    obtain ⟨c₁, hc₁, helem, hdims, hsize⟩ := h.arrays ref c hc
    obtain ⟨c₂, hc₂, helem', hdims', hsize'⟩ := h'.arrays ref c₁ hc₁
    exact ⟨c₂, hc₂, helem'.trans helem, hdims'.trans hdims, hsize'.trans hsize⟩
  lists ref c hc := by
    obtain ⟨c₁, hc₁, helem, hle, hsame⟩ := h.lists ref c hc
    obtain ⟨c₂, hc₂, helem', hle', hsame'⟩ := h'.lists ref c₁ hc₁
    refine ⟨c₂, hc₂, helem'.trans helem, hle.trans hle', fun hnot => ?_⟩
    rw [hsame' fun hg => hnot (hgrown ref hg (by rw [hc]; rfl)), hsame hnot]

theorem mono (h : m.Extends r changed grown n) (hchanged : ∀ k, changed k → changed' k)
    (hgrown : ∀ ref, grown ref → grown' ref) : m.Extends r changed' grown' n :=
  (refl r changed' grown' m).trans h (fun k hk _ => hchanged k hk) fun ref href _ => hgrown ref href

/-- A write changes one cell. -/
theorem setCell (hold : (m.cell? r k).isSome) (v : Value) :
    m.Extends r (· = k) (fun _ => False) (m.setCell k v) where
  cells l w hl hw := (cell?_setCell_ne hl v).trans hw
  there l hl := by
    by_cases hk : l = k
    · subst hk
      rw [cell?_setCell_self hold]
      rfl
    · rwa [cell?_setCell_ne hk]
  objects ref c hc := by
    cases k with
    | field object slot =>
        by_cases href : object = ref
        · subst href
          exact ⟨{ c with fields := c.fields.setIfInBounds slot v },
            by simp [Memory.setCell, shared, Heap.setField, Array.getElem?_modify, hc], rfl,
            Array.size_setIfInBounds⟩
        · exact ⟨c, by simp [Memory.setCell, shared, Heap.setField, Array.getElem?_modify, href, hc],
            rfl, rfl⟩
    | var slot => exact ⟨c, by cases slot <;> exact hc, rfl, rfl⟩
    | _ => exact ⟨c, hc, rfl, rfl⟩
  arrays ref c hc := by
    cases k with
    | elem array i =>
        by_cases href : array = ref
        · subst href
          exact ⟨_, Heap.arrays_setElem hc i v, rfl, rfl, Array.size_setIfInBounds⟩
        · exact ⟨c, by simp [Memory.setCell, shared, Heap.setElem, Array.getElem?_modify, href, hc],
            rfl, rfl, rfl⟩
    | var slot => exact ⟨c, by cases slot <;> exact hc, rfl, rfl, rfl⟩
    | _ => exact ⟨c, hc, rfl, rfl, rfl⟩
  lists ref c hc := by
    cases k with
    | item list i =>
        by_cases href : list = ref
        · subst href
          exact ⟨{ c with items := c.items.setIfInBounds i v },
            by simp [Memory.setCell, shared, Heap.setItem, Array.getElem?_modify, hc], rfl,
            Nat.le_of_eq Array.size_setIfInBounds.symm, fun _ => Array.size_setIfInBounds⟩
        · exact ⟨c, by simp [Memory.setCell, shared, Heap.setItem, Array.getElem?_modify, href, hc],
            rfl, Nat.le_refl _, fun _ => rfl⟩
    | var slot => exact ⟨c, by cases slot <;> exact hc, rfl, Nat.le_refl _, fun _ => rfl⟩
    | _ => exact ⟨c, hc, rfl, Nat.le_refl _, fun _ => rfl⟩

/-- Something is added to the heap. -/
theorem grow {h' : Heap} (hgrows : m.heap.Grows h') :
    m.Extends r (fun _ => False) (fun _ => False) (m.shared h' m.statics) := by
  have hcells : ∀ k v, m.cell? r k = some v → (m.shared h' m.statics).cell? r k = some v := by
    intro k v hv
    cases k with
    | var slot => cases slot <;> exact hv
    | static f => exact hv
    | field ref slot =>
        obtain ⟨c, hc, hfield⟩ := Option.bind_eq_some_iff.mp hv
        exact Option.bind_eq_some_iff.mpr ⟨c, hgrows.objects ref c trivial hc, hfield⟩
    | elem ref i =>
        obtain ⟨c, hc, hitem⟩ := Option.bind_eq_some_iff.mp hv
        exact Option.bind_eq_some_iff.mpr ⟨c, hgrows.arrays ref c hc, hitem⟩
    | item ref i =>
        obtain ⟨c, hc, hitem⟩ := Option.bind_eq_some_iff.mp hv
        exact Option.bind_eq_some_iff.mpr ⟨c, hgrows.lists ref c hc, hitem⟩
  refine ⟨fun k v _ hv => hcells k v hv, fun k hk => ?_, fun ref c hc => ?_, fun ref c hc => ?_,
    fun ref c hc => ?_⟩
  · obtain ⟨v, hv⟩ := Option.isSome_iff_exists.mp hk
    rw [hcells k v hv]
    rfl
  · exact ⟨c, hgrows.objects ref c trivial hc, rfl, rfl⟩
  · exact ⟨c, hgrows.arrays ref c hc, rfl, rfl, rfl⟩
  · exact ⟨c, hgrows.lists ref c hc, rfl, Nat.le_refl _, fun _ => rfl⟩

/-- A list is padded. -/
theorem pad {ref : Ref} {c : ListCell} (hc : m.heap.lists[ref]? = some c) {items : Array Value}
    (hsize : c.items.size ≤ items.size) (hkept : ∀ i, i < c.items.size → items[i]? = c.items[i]?) :
    m.Extends r (fun _ => False) (· = ref) (m.shared (m.heap.setItems ref items) m.statics) := by
  have hlists : ∀ (other : Ref) (d : ListCell), m.heap.lists[other]? = some d →
      ∃ d', (m.heap.setItems ref items).lists[other]? = some d' ∧ d'.elem = d.elem ∧
        d.items.size ≤ d'.items.size ∧ (∀ i, i < d.items.size → d'.items[i]? = d.items[i]?) ∧
        (other ≠ ref → d'.items.size = d.items.size) := by
    intro other d hd
    by_cases href : ref = other
    · subst href
      obtain rfl := Option.some.inj (hc.symm.trans hd)
      exact ⟨_, Heap.lists_setItems hc items, rfl, hsize, hkept, fun hne => absurd rfl hne⟩
    · refine ⟨d, ?_, rfl, Nat.le_refl _, fun _ _ => rfl, fun _ => rfl⟩
      rw [Heap.setItems, Array.getElem?_modify, if_neg href, hd]
  have hcells : ∀ k v, m.cell? r k = some v →
      (m.shared (m.heap.setItems ref items) m.statics).cell? r k = some v := by
    intro k v hv
    cases k with
    | item other i =>
        obtain ⟨d, hd, hitem⟩ := Option.bind_eq_some_iff.mp hv
        obtain ⟨d', hd', -, -, hsame, -⟩ := hlists other d hd
        refine Option.bind_eq_some_iff.mpr ⟨d', hd', ?_⟩
        rw [hsame i (Array.getElem?_eq_some_iff.mp hitem).1, hitem]
    | var slot => cases slot <;> exact hv
    | _ => exact hv
  refine ⟨fun k v _ hv => hcells k v hv, fun k hk => ?_, fun _ c hc => ⟨c, hc, rfl, rfl⟩,
    fun _ c hc => ⟨c, hc, rfl, rfl, rfl⟩, fun other d hd => ?_⟩
  · obtain ⟨v, hv⟩ := Option.isSome_iff_exists.mp hk
    rw [hcells k v hv]
    rfl
  · obtain ⟨d', hd', helem, hle, -, hsame⟩ := hlists other d hd
    exact ⟨d', hd', helem, hle, hsame⟩

end Extends

end Memory

end Arbor
