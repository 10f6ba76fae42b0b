/-
  Values of types.

  A value is of a type with everything that it holds: the items of arrays and lists are
  of the element type, and an instance has the fields that the layout of its type lists.
  Cells that are kept on the heap keep their values of their types.  Zero values are of
  their types.
-/
import Arbor.Proofs.FiniteTypes

set_option autoImplicit false

namespace Arbor

/-! ## Heaps that keep cells -/

namespace Heap

/-- The second heap has the arrays and lists of the first one, and the objects that are to be kept. -/
structure Keeps (kept : Ref → Prop) (h h' : Heap) : Prop where
  objects : ∀ (ref : Ref) (c : ObjectCell), kept ref → h.objects[ref]? = some c → h'.objects[ref]? = some c
  arrays : ∀ (ref : Ref) (c : ArrayCell), h.arrays[ref]? = some c → h'.arrays[ref]? = some c
  lists : ∀ (ref : Ref) (c : ListCell), h.lists[ref]? = some c → h'.lists[ref]? = some c

/-- The second heap has all cells of the first one. -/
abbrev Grows (h h' : Heap) : Prop := h.Keeps (fun _ => True) h'

variable {h h' h'' : Heap} {kept kept' : Ref → Prop}

theorem Keeps.refl (h : Heap) : h.Keeps kept h := ⟨fun _ _ _ hc => hc, fun _ _ hc => hc, fun _ _ hc => hc⟩

theorem Keeps.trans (hfirst : h.Keeps kept h') (hsecond : h'.Keeps kept h'') : h.Keeps kept h'' where
  objects ref c hkept hc := hsecond.objects ref c hkept (hfirst.objects ref c hkept hc)
  arrays ref c hc := hsecond.arrays ref c (hfirst.arrays ref c hc)
  lists ref c hc := hsecond.lists ref c (hfirst.lists ref c hc)

theorem Keeps.mono (hkeeps : h.Keeps kept h') (hkept : ∀ ref, kept' ref → kept ref) : h.Keeps kept' h' where
  objects ref c href := hkeeps.objects ref c (hkept ref href)
  arrays := hkeeps.arrays
  lists := hkeeps.lists

/-- A heap that has all objects of another has no fewer of them. -/
theorem Grows.size_le (hgrows : h.Grows h') : h.objects.size ≤ h'.objects.size := by
  rcases Nat.eq_zero_or_pos h.objects.size with hnone | hsome
  · omega
  · have hlast : h.objects.size - 1 < h.objects.size := by omega
    have hkept := hgrows.objects _ _ trivial (Array.getElem?_eq_getElem hlast)
    have := (Array.getElem?_eq_some_iff.mp hkept).1
    omega

theorem getElem?_push_of_some {α : Type} {cells : Array α} {i : Nat} {c : α} (hc : cells[i]? = some c)
    (fresh : α) : (cells.push fresh)[i]? = some c := by
  rw [Array.getElem?_push, if_neg (Nat.ne_of_lt (Array.getElem?_eq_some_iff.mp hc).1), hc]

theorem grows_newObject (h : Heap) (c : ObjectCell) : h.Grows (h.newObject c).2 :=
  ⟨fun _ _ _ hc => getElem?_push_of_some hc _, fun _ _ hc => hc, fun _ _ hc => hc⟩

theorem grows_newArray (h : Heap) (c : ArrayCell) : h.Grows (h.newArray c).2 :=
  ⟨fun _ _ _ hc => hc, fun _ _ hc => getElem?_push_of_some hc _, fun _ _ hc => hc⟩

theorem grows_newList (h : Heap) (c : ListCell) : h.Grows (h.newList c).2 :=
  ⟨fun _ _ _ hc => hc, fun _ _ hc => hc, fun _ _ hc => getElem?_push_of_some hc _⟩

/-- Writing a field of an object. -/
theorem keeps_setField (h : Heap) (ref : Ref) (slot : Nat) (v : Value) :
    h.Keeps (· ≠ ref) (h.setField ref slot v) where
  objects i c hne hc := by
    rw [setField, Array.getElem?_modify, if_neg (Ne.symm hne), hc]
  arrays _ _ hc := hc
  lists _ _ hc := hc

/-- The fields of an instance of a declared type: those of an object are on the heap. -/
inductive Instance (h : Heap) : Ty → Value → TypeId → List Value → Prop
  | struct {id : TypeId} {fields : List Value} : Instance h (.structTy id) (.struct id fields) id fields
  | object {id : TypeId} {ref : Ref} {fields : List Value}
      (hcell : h.objects[ref]? = some ⟨id, fields.toArray⟩) : Instance h (.classTy id) (.object ref) id fields

theorem Instance.keep {t : Ty} {v : Value} {id : TypeId} {fields : List Value} (hv : h.Instance t v id fields)
    (hkeeps : h.Keeps kept h') (hkept : ∀ ref, v = .object ref → kept ref) : h'.Instance t v id fields := by
  cases hv with
  | struct => exact .struct
  | object hcell => exact .object (hkeeps.objects _ _ (hkept _ rfl) hcell)

end Heap

/-! ## Values of a type -/

namespace Registry

/-- The value is of the type, with everything that it holds. -/
inductive Inhabits (r : Registry) (h : Heap) : Ty → Value → Prop
  | null {t : Ty} (ht : t.isValueType = false) : Inhabits r h t .null
  | bool (b : Bool) : Inhabits r h .bool (.bool b)
  | num (n : Num) : Inhabits r h (.num n.kind) (.num n)
  | str (s : String) : Inhabits r h .str (.str s)
  | boxed {t : Ty} {v : Value} (ht : t.isNullable = false) (hv : Inhabits r h t v) : Inhabits r h .object v
  | absent {t : Ty} : Inhabits r h (.nullable t) .absent
  | present {t : Ty} {v : Value} (hv : Inhabits r h t v) : Inhabits r h (.nullable t) (.present v)
  | array {elem : Ty} {ref : Ref} {items : List Value}
      (hcell : h.arrays[ref]? = some ⟨elem, [items.length], items.toArray⟩)
      (hitems : ∀ v ∈ items, Inhabits r h elem v) : Inhabits r h (.array elem) (.array ref)
  | list {elem : Ty} {ref : Ref} {items : List Value} (hcell : h.lists[ref]? = some ⟨elem, items.toArray⟩)
      (hitems : ∀ v ∈ items, Inhabits r h elem v) : Inhabits r h (.list elem) (.list ref)
  | instance {t : Ty} {v : Value} {id : TypeId} {fields : List Value} {layout : List Ty}
      (hv : h.Instance t v id fields) (hlayout : r.layout id = .ok layout)
      (hlength : fields.length = layout.length)
      (hfields : ∀ (slot : Nat) (ty : Ty) (x : Value), layout[slot]? = some ty → fields[slot]? = some x →
        Inhabits r h ty x) : Inhabits r h t v

end Registry

/-! ## Zero values -/

theorem rel_of_forall₂ {α β : Type} {R : α → β → Prop} {as : List α} {bs : List β} (h : List.Forall₂ R as bs)
    {i : Nat} {a : α} {b : β} (ha : as[i]? = some a) (hb : bs[i]? = some b) : R a b := by
  obtain ⟨hi, rfl⟩ := List.getElem?_eq_some_iff.mp ha
  obtain ⟨hi', rfl⟩ := List.getElem?_eq_some_iff.mp hb
  exact h.get hi hi'

namespace Registry

variable {r : Registry} {h : Heap}

/-- The zero values of types other than structs are of their types. -/
theorem inhabits_zeroFrom_other {n : Nat} {t : Ty} {z : Value} (ht : ∀ id, t ≠ .structTy id)
    (hz : r.zeroFrom n t = .ok z) : r.Inhabits h t z := by
  cases t with
  | structTy id => exact absurd rfl (ht id)
  | bool =>
      obtain rfl : .bool false = z := by cases n <;> exact Except.ok.inj hz
      exact .bool false
  | num k =>
      obtain rfl : .num (.zero k) = z := by cases n <;> exact Except.ok.inj hz
      simpa only [Num.kind_zero] using Inhabits.num (.zero k)
  | nullable t =>
      obtain rfl : .absent = z := by cases n <;> exact Except.ok.inj hz
      exact .absent
  | _ =>
      obtain rfl : .null = z := by cases n <;> exact Except.ok.inj hz
      exact .null rfl

/-- Zero values are of their types. -/
theorem inhabits_zeroFrom {n : Nat} {t : Ty} {z : Value} (hz : r.zeroFrom n t = .ok z) :
    r.Inhabits h t z := by
  induction n generalizing t z with
  | zero => exact inhabits_zeroFrom_other (by rintro id rfl; cases hz) hz
  | succ n ih =>
      refine struct_or (P := fun t => r.zeroFrom (n + 1) t = .ok z → r.Inhabits h t z) ?_ ?_ hz
      · rintro id rfl hz
        simp only [zeroFrom] at hz
        cases hlayout : r.layout id with
        | error e =>
            rw [hlayout] at hz
            cases hz
        | ok layout =>
            rw [hlayout] at hz
            cases hfields : layout.mapM (r.zeroFrom n) with
            | error e =>
                simp only [bind, Except.bind, hfields] at hz
                cases hz
            | ok fields =>
                simp only [bind, Except.bind, hfields] at hz
                cases hz
                have hall := forall₂_of_mapM hfields
                exact .instance .struct hlayout hall.length_eq.symm
                  fun slot ty x hty hx => ih (rel_of_forall₂ hall hty hx)
      · exact fun hother hz => inhabits_zeroFrom_other hother hz

end Registry

end Arbor
