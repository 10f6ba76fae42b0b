/-
  Finite types.

  Bases stand before the types derived from them, but fields can be of any type, so a
  struct can hold itself, directly or through others.  Walks along bases come to an end
  for every registry of declared types.  A zero value, and with it the zeroed locals,
  fields and elements of a type, exists for the types that hold no such struct; for the
  others the walk through their fields has no end.
-/
import Arbor.Proofs.Semantics.Declarations
import Mathlib.Data.Finset.Card
import Mathlib.Data.Finset.Range

set_option autoImplicit false

namespace Arbor

namespace Registry

variable {r : Registry} {α β : Type}

/-! ## Lookups in sequence -/

theorem Ends.of_bind {x : Except MetadataError α} {f : α → Except MetadataError β}
    (h : Ends (x >>= f)) : Ends x := by
  intro id hx
  rw [hx] at h
  exact h id rfl

/-- Lookups for the items of a list. -/
theorem Ends.mapM {items : List α} {f : α → Except MetadataError β} (hf : ∀ a ∈ items, Ends (f a)) :
    Ends (items.mapM f) := by
  induction items with
  | nil => exact fun _ h => nomatch h
  | cons a items ih =>
      rw [List.mapM_cons]
      refine (hf a List.mem_cons_self).bind fun b _ => Ends.bind (ih fun a ha => ?_) fun _ _ _ h => nomatch h
      exact hf a (List.mem_cons_of_mem _ ha)

/-- Lookups that agree as long as they end. -/
theorem mapM_eq_of_ends {items : List α} {f g : α → Except MetadataError β}
    (hfg : ∀ a ∈ items, Ends (f a) → g a = f a) (h : Ends (items.mapM f)) :
    items.mapM g = items.mapM f := by
  induction items with
  | nil => rfl
  | cons a items ih =>
      rw [List.mapM_cons] at h
      rw [List.mapM_cons, List.mapM_cons, hfg a List.mem_cons_self h.of_bind]
      cases hfa : f a with
      | error e => rfl
      | ok b =>
          rw [hfa] at h
          have hrest : Ends (items.mapM f) := Ends.of_bind (x := items.mapM f) h
          rw [ih (fun a ha => hfg a (List.mem_cons_of_mem _ ha)) hrest]

/-- Lookups that have an answer if they end. -/
theorem exists_mapM_of_ends {items : List α} {f : α → Except MetadataError β}
    (hf : ∀ a ∈ items, Ends (f a) → ∃ b, f a = .ok b) (h : Ends (items.mapM f)) :
    ∃ bs, items.mapM f = .ok bs := by
  induction items with
  | nil => exact ⟨[], rfl⟩
  | cons a items ih =>
      rw [List.mapM_cons] at h
      obtain ⟨b, hb⟩ := hf a List.mem_cons_self h.of_bind
      rw [hb] at h
      obtain ⟨bs, hbs⟩ := ih (fun a ha => hf a (List.mem_cons_of_mem _ ha))
        (Ends.of_bind (x := items.mapM f) h)
      exact ⟨b :: bs, by rw [List.mapM_cons, hb, hbs]; rfl⟩

/-- What lookups for the items of a list yield, item by item. -/
theorem forall₂_of_mapM {items : List α} {f : α → Except MetadataError β} {found : List β}
    (hfound : items.mapM f = .ok found) : List.Forall₂ (fun a b => f a = .ok b) items found := by
  induction items generalizing found with
  | nil =>
      cases hfound
      exact .nil
  | cons a items ih =>
      rw [List.mapM_cons] at hfound
      simp only [bind, Except.bind, pure, Except.pure] at hfound
      split at hfound
      · cases hfound
      · next b hb =>
        split at hfound
        · cases hfound
        · next rest hrest =>
          cases hfound
          exact .cons hb (ih hrest)

/-- A lookup that was made for an item of a list has an answer. -/
theorem exists_of_mapM_eq_ok {items : List α} {f : α → Except MetadataError β} {found : List β}
    (h : items.mapM f = .ok found) : ∀ a ∈ items, ∃ b, f a = .ok b := by
  intro a ha
  obtain ⟨i, hi, rfl⟩ := List.getElem_of_mem ha
  have hall := forall₂_of_mapM h
  exact ⟨_, hall.get hi (hall.length_eq ▸ hi)⟩

/-! ## Structs in structs -/

/-- Every instance of the second type has a field that is a struct of the first one. -/
def PartOf (r : Registry) (part whole : TypeId) : Prop :=
  ∃ layout, r.layout whole = .ok layout ∧ Ty.structTy part ∈ layout

/-- No values of the type hold structs in structs without an end. -/
def Finite (r : Registry) (t : Ty) : Prop := ∀ id, t = .structTy id → Acc r.PartOf id

/-- Every struct that is the type of a field is declared. -/
def Complete (r : Registry) : Prop := ∀ part whole : Nat, r.PartOf part whole → part < r.size

theorem not_transGen_of_acc {ι : Type} {R : ι → ι → Prop} {a : ι} (h : Acc R a) :
    ¬ Relation.TransGen R a a := by
  have htrans : Acc (Relation.TransGen R) a := h.transGen
  induction htrans with
  | intro a _ ih => exact fun hself => ih a hself h hself

/-- The parts of a type that is declared are found. -/
theorem lt_size_of_layout {whole : Nat} {layout : List Ty} (h : r.layout whole = .ok layout) :
    whole < r.size := by
  by_contra hsize
  have hnone : r.types[whole]? = none := Array.getElem?_eq_none (Nat.le_of_not_lt hsize)
  rw [Registry.layout, layoutFrom, hnone] at h
  cases h

/-- The layout of a declared type. -/
theorem exists_layout (h : r.Ordered) {id : Nat} (hid : id < r.size) :
    ∃ layout, r.layout id = .ok layout := by
  induction id using Nat.strong_induction_on with
  | _ id ih =>
      rw [layout_eq h, Array.getElem?_eq_getElem (hid : id < r.types.size)]
      cases hbase : r.types[id].base with
      | none => exact ⟨ownLayout r.types[id], by simp only [hbase]⟩
      | some base =>
          have hlt := h id base ⟨_, Array.getElem?_eq_getElem hid, hbase⟩
          obtain ⟨layout, hlayout⟩ := ih base hlt (Nat.lt_trans hlt hid)
          exact ⟨layout ++ ownLayout r.types[id], by simp only [hbase, hlayout]; rfl⟩

/-! ## Zero values -/

theorem exists_zeroFrom {t : Ty} (ht : ∀ id, t ≠ .structTy id) :
    ∃ v, ∀ n, r.zeroFrom n t = .ok v := by
  cases t with
  | structTy id => exact absurd rfl (ht id)
  | _ => exact ⟨_, fun n => by cases n <;> rfl⟩

theorem struct_or {P : Ty → Prop} {t : Ty} (hstruct : ∀ id, t = .structTy id → P t)
    (hother : (∀ id, t ≠ .structTy id) → P t) : P t := by
  cases t with
  | structTy id => exact hstruct id rfl
  | _ => exact hother fun _ h => nomatch h

/-- The walk through the fields of a struct ends if the structs in it are no more than there is fuel
left for.  Those that the walk has come through are told apart: none of them is part of itself. -/
theorem ends_zeroFrom (h : r.Ordered) {fuel : Nat} {V : Finset Nat} {id : Nat}
    (hvisited : ∀ v ∈ V, v < r.size ∧ Relation.TransGen r.PartOf id v)
    (hid : Acc r.PartOf id) (hfuel : r.size < fuel + V.card) :
    Ends (r.zeroFrom fuel (.structTy id)) := by
  induction fuel generalizing V id with
  | zero =>
      have hsubset : V ⊆ Finset.range r.size := fun v hv => Finset.mem_range.mpr (hvisited v hv).1
      have hcard := Finset.card_le_card hsubset
      rw [Finset.card_range] at hcard
      omega
  | succ fuel ih =>
      refine (ends_layout h id).bind fun layout hlayout => ?_
      refine Ends.bind (Ends.mapM fun t ht => ?_) fun _ _ _ h => nomatch h
      refine struct_or (P := fun t => Ends (r.zeroFrom fuel t)) ?_ ?_
      · rintro part rfl
        have hpart : r.PartOf part id := ⟨layout, hlayout, ht⟩
        have hnew : id ∉ V := fun hmem => not_transGen_of_acc hid (hvisited id hmem).2
        refine ih (V := insert id V) (fun v hv => ?_) (hid.inv hpart) ?_
        · rcases Finset.mem_insert.mp hv with rfl | hv
          · exact ⟨lt_size_of_layout hlayout, .single hpart⟩
          · exact ⟨(hvisited v hv).1, .head hpart (hvisited v hv).2⟩
        · rw [Finset.card_insert_of_notMem hnew]
          omega
      · intro hother id' hzero
        obtain ⟨v, hv⟩ := exists_zeroFrom (r := r) hother
        rw [hv] at hzero
        cases hzero

/-- The zero value of a type without an endless chain of structs. -/
theorem ends_zero (h : r.Ordered) {t : Ty} (ht : r.Finite t) : Ends (r.zero t) := by
  refine struct_or (P := fun t => Ends (r.zero t)) ?_ ?_
  · rintro id rfl
    exact ends_zeroFrom h (V := ∅) (fun v hv => absurd hv (Finset.notMem_empty v)) (ht id rfl)
      (by rw [Finset.card_empty]; omega)
  · intro hother id hzero
    obtain ⟨v, hv⟩ := exists_zeroFrom (r := r) hother
    rw [zero, hv] at hzero
    cases hzero

/-- More fuel makes no difference to a walk that ends. -/
theorem zeroFrom_succ {n : Nat} {t : Ty} (h : Ends (r.zeroFrom n t)) :
    r.zeroFrom (n + 1) t = r.zeroFrom n t := by
  induction n generalizing t with
  | zero =>
      refine struct_or (P := fun t => r.zeroFrom 1 t = r.zeroFrom 0 t) ?_ ?_
      · rintro id rfl
        exact absurd rfl (h id)
      · intro hother
        obtain ⟨v, hv⟩ := exists_zeroFrom (r := r) hother
        rw [hv, hv]
  | succ n ih =>
      refine struct_or (P := fun t => r.zeroFrom (n + 2) t = r.zeroFrom (n + 1) t) ?_ ?_
      · rintro id rfl
        simp only [zeroFrom] at h ⊢
        cases hlayout : r.layout id with
        | error e => rfl
        | ok layout =>
            rw [hlayout] at h
            have hfields : Ends (layout.mapM (r.zeroFrom n)) :=
              Ends.of_bind (x := layout.mapM (r.zeroFrom n)) h
            change (layout.mapM (r.zeroFrom (n + 1)) >>= _) = (layout.mapM (r.zeroFrom n) >>= _)
            rw [mapM_eq_of_ends (fun t _ ht => ih ht) hfields]
      · intro hother
        obtain ⟨v, hv⟩ := exists_zeroFrom (r := r) hother
        rw [hv, hv]

/-- The zero value of a struct is the struct of the zero values of its fields. -/
theorem zero_struct (h : r.Ordered) {id : TypeId} (hid : r.Finite (.structTy id)) :
    r.zero (.structTy id) = (do
      let layout ← r.layout id
      let fields ← layout.mapM r.zero
      pure (.struct id fields)) := by
  have hends := ends_zero h hid
  unfold zero at hends ⊢
  simp only [zeroFrom] at hends ⊢
  cases hlayout : r.layout id with
  | error e => rfl
  | ok layout =>
      rw [hlayout] at hends
      have hfields : Ends (layout.mapM (r.zeroFrom r.size)) :=
        Ends.of_bind (x := layout.mapM (r.zeroFrom r.size)) hends
      change (layout.mapM (r.zeroFrom r.size) >>= _) = (layout.mapM (r.zeroFrom (r.size + 1)) >>= _)
      rw [mapM_eq_of_ends (fun t _ ht => zeroFrom_succ ht) hfields]

/-- What has a zero value holds no endless chain of structs. -/
theorem finite_of_zeroFrom {n : Nat} {t : Ty} {v : Value} (h : r.zeroFrom n t = .ok v) : r.Finite t := by
  induction n generalizing t v with
  | zero =>
      rintro id rfl
      cases h
  | succ n ih =>
      rintro id rfl
      refine Acc.intro id fun part hpart => ?_
      obtain ⟨layout, hlayout, hmem⟩ := hpart
      simp only [zeroFrom, hlayout] at h
      cases hfields : layout.mapM (r.zeroFrom n) with
      | error e =>
          simp only [bind, Except.bind, hfields] at h
          cases h
      | ok fields =>
          obtain ⟨field, hfield⟩ := exists_of_mapM_eq_ok hfields _ hmem
          exact ih hfield part rfl

/-- Where every struct is declared, exactly the types without an endless chain of structs have a zero
value, and the walk through the fields of the others has no end. -/
theorem ends_zero_iff (h : r.Ordered) (hcomplete : r.Complete) {t : Ty}
    (ht : ∀ id : Nat, t = .structTy id → id < r.size) :
    (Ends (r.zero t) ↔ r.Finite t) ∧ (r.Finite t ↔ ∃ v, r.zero t = .ok v) := by
  have hvalue : ∀ (n : Nat) (t : Ty), (∀ id : Nat, t = .structTy id → id < r.size) →
      Ends (r.zeroFrom n t) → ∃ v, r.zeroFrom n t = .ok v := by
    intro n
    induction n with
    | zero =>
        intro t _
        refine struct_or (P := fun t => Ends (r.zeroFrom 0 t) → ∃ v, r.zeroFrom 0 t = .ok v) ?_ ?_
        · rintro id rfl hends
          exact absurd rfl (hends id)
        · exact fun hother _ => (exists_zeroFrom hother).imp fun v hv => hv 0
    | succ n ih =>
        intro t ht
        refine struct_or
          (P := fun t => Ends (r.zeroFrom (n + 1) t) → ∃ v, r.zeroFrom (n + 1) t = .ok v) ?_ ?_
        · rintro id rfl hends
          obtain ⟨layout, hlayout⟩ := exists_layout h (ht id rfl)
          simp only [zeroFrom, hlayout] at hends ⊢
          obtain ⟨fields, hfields⟩ := exists_mapM_of_ends
            (fun t hmem => ih t fun part hpart => hcomplete part id ⟨layout, hlayout, hpart ▸ hmem⟩)
            (Ends.of_bind (x := layout.mapM (r.zeroFrom n)) hends)
          exact ⟨.struct id fields, by simp only [bind, Except.bind, hfields]; rfl⟩
        · exact fun hother _ => (exists_zeroFrom hother).imp fun v hv => hv (n + 1)
  have hfinite : (∃ v, r.zero t = .ok v) → r.Finite t := by
    rintro ⟨v, hv⟩
    exact finite_of_zeroFrom hv
  exact ⟨⟨fun hends => hfinite (hvalue _ t ht hends), ends_zero h⟩,
    ⟨fun ht' => hvalue _ t ht (ends_zero h ht'), hfinite⟩⟩

end Registry

/-! ## Conversions -/

namespace Convert

open Registry (Ends)

variable {r : Registry} {α β : Type}

/-- The conversion does not report a walk without an end. -/
def Terminates (x : Convert α) : Prop := ∀ h id, x.run h ≠ .error (.metadata (.endless id))

theorem Terminates.pure (a : α) : Terminates (pure a) := fun _ _ h => nomatch h

/-- One conversion after the other. -/
theorem Terminates.bind {x : Convert α} {f : α → Convert β} (hx : Terminates x)
    (hf : ∀ a, Terminates (f a)) : Terminates (x >>= f) := by
  intro h id
  have hfirst := hx h id
  change (x.run h >>= fun p => (f p.1).run p.2) ≠ _
  cases hxh : x.run h with
  | ok p => exact hf p.1 p.2 id
  | error e =>
      rw [hxh] at hfirst
      exact fun heq => hfirst (congrArg _ (Except.error.inj heq))

theorem Terminates.badValue (what expected found : String) :
    Terminates (throw (.badValue what expected found) : Convert α) := fun _ _ h => nomatch h

/-- A lookup. -/
theorem Terminates.ofLookup {e : Except MetadataError α} (he : Ends e) : Terminates (ofLookup e) := by
  intro h id
  cases e with
  | ok a => exact fun h => nomatch h
  | error e => exact fun heq => he id (by cases heq; rfl)

theorem Terminates.fill (target : Value) (slot : Nat) (v : Value) : Terminates (fill target slot v) := by
  cases target <;> exact fun _ _ h => nomatch h

/-- A zeroed instance. -/
theorem Terminates.fresh (hr : r.Ordered) (hfinite : ∀ t, r.Finite t) (t : Ty) :
    Terminates (fresh r t) := by
  unfold Convert.fresh
  split
  · next id =>
      refine (Terminates.ofLookup (Registry.ends_layout hr id)).bind fun layout => ?_
      refine (Terminates.ofLookup (Ends.mapM fun t _ => Registry.ends_zero hr (hfinite t))).bind ?_
      exact fun fields _ _ h => nomatch h
  · exact .ofLookup (Registry.ends_zero hr (hfinite _))

/-- A number of a kind. -/
theorem Terminates.number (n : Option Num) (layers : Nat) (what expected found : String) :
    Terminates (match n with
      | some n => Pure.pure (wrap layers (.num n))
      | none => throw (.badValue what expected found)) := by
  cases n with
  | some n => exact .pure _
  | none => exact .badValue _ _ _

/-- The zero value of a type that can be absent. -/
theorem Terminates.zeroOr (hr : r.Ordered) (hfinite : ∀ t, r.Finite t) {t : Ty}
    (what expected found : String) :
    Terminates (if t.canBeAbsent then Convert.ofLookup (r.zero t)
      else throw (.badValue what expected found)) := by
  split
  · exact .ofLookup (Registry.ends_zero hr (hfinite t))
  · exact .badValue _ _ _

/-- Conversions of values that hold no others come to an end. -/
theorem terminates_scalar (hr : r.Ordered) (hfinite : ∀ t, r.Finite t) (j : Json)
    (harr : ∀ items, j ≠ .arr items) (hobj : ∀ members, j ≠ .obj members) (t : Ty) (what : String) :
    Terminates (value r j t what) := by
  cases j with
  | arr items => exact absurd rfl (harr items)
  | obj members => exact absurd rfl (hobj members)
  | unreadable => exact .badValue _ _ _
  | _ =>
      unfold value
      dsimp only
      split
      all_goals first
        | exact .pure _
        | exact .badValue _ _ _
        | exact .number _ _ _ _ _
        | exact .ofLookup (Registry.ends_zero hr (hfinite t))
        | exact .zeroOr hr hfinite _ _ _

mutual

/-- Conversions come to an end where all types do. -/
theorem terminates_value (hr : r.Ordered) (hfinite : ∀ t, r.Finite t) :
    ∀ (j : Json) (t : Ty) (what : String), Terminates (value r j t what)
  | .arr items, t, what => by
      have hitems := terminates_values hr hfinite items
      unfold value
      dsimp only
      split
      · exact (hitems _ _ _).bind fun vs => Terminates.bind (fun _ _ h => nomatch h) fun _ => .pure _
      · exact (hitems _ _ _).bind fun vs => Terminates.bind (fun _ _ h => nomatch h) fun _ => .pure _
      · exact .badValue _ _ _
  | .obj members, t, what => by
      have hfields := terminates_fields hr hfinite members
      unfold value
      dsimp only
      split
      · exact (Terminates.fresh hr hfinite _).bind fun v => (hfields _ _ _).bind fun _ => .pure _
      · exact (Terminates.fresh hr hfinite _).bind fun v => (hfields _ _ _).bind fun _ => .pure _
      · exact .badValue _ _ _
  | .null, t, what => terminates_scalar hr hfinite .null nofun nofun t what
  | .bool b, t, what => terminates_scalar hr hfinite (.bool b) nofun nofun t what
  | .int n, t, what => terminates_scalar hr hfinite (.int n) nofun nofun t what
  | .float x, t, what => terminates_scalar hr hfinite (.float x) nofun nofun t what
  | .str s, t, what => terminates_scalar hr hfinite (.str s) nofun nofun t what
  | .unreadable, t, what => terminates_scalar hr hfinite .unreadable nofun nofun t what
  termination_by structural j => j

/-- Conversions of items come to an end. -/
theorem terminates_values (hr : r.Ordered) (hfinite : ∀ t, r.Finite t) :
    ∀ (js : List Json) (elem : Ty) (what : String) (index : Nat),
      Terminates (values r js elem what index)
  | [], _, _, _ => .pure _
  | j :: rest, elem, what, _ =>
      (terminates_value hr hfinite j elem _).bind fun _ =>
        (terminates_values hr hfinite rest elem what _).bind fun _ => .pure _
  termination_by structural js => js

/-- Conversions of fields come to an end. -/
theorem terminates_fields (hr : r.Ordered) (hfinite : ∀ t, r.Finite t) :
    ∀ (ms : List (String × Json)) (id : TypeId) (what : String) (target : Value),
      Terminates (fields r ms id what target)
  | [], _, _, _ => .pure _
  | (name, j) :: rest, id, what, target =>
      (Terminates.ofLookup (Registry.ends_findField hr id name)).bind fun f =>
        (Terminates.ofLookup (Registry.ends_field f)).bind fun d =>
          (Terminates.ofLookup (Registry.ends_fieldSlot hr f)).bind fun slot =>
            (terminates_value hr hfinite j d.ty _).bind fun v =>
              (Terminates.fill target slot v).bind fun target =>
                terminates_fields hr hfinite rest id what target
  termination_by structural ms => ms

end

end Convert

/-! ## Accepted programs -/

/-- For every list of declarations that is accepted, walks along bases come to an end: subtyping is the
reflexive and transitive closure of the bases, layouts are those of the bases and the own fields, and
fields, properties, methods and storage slots are found or are not.  A type has a zero value, made of
those of its fields, unless it holds structs in structs without an end; a walk through the fields of
such a type has no end.  Where no type does, conversions of arguments and constants come to an end,
too. -/
theorem Registry.walks_of_ofDecls {ds : List TypeDecl} {r : Registry} (h : ofDecls ds = .ok r) :
    (∀ sub sup, r.isSubclass sub sup = true ↔ Relation.ReflTransGen r.Extends sub sup) ∧
    (∀ id, Ends (r.layout id) ∧ r.layout id =
      match r.types[id]? with
      | none => .error (.unknownType id)
      | some d =>
          match d.base with
          | none => .ok (ownLayout d)
          | some base => (r.layout base).map (· ++ ownLayout d)) ∧
    (∀ id name, Ends (r.findField id name) ∧ Ends (r.findProperty id name) ∧
      Ends (r.findMethod id name)) ∧
    (∀ f, Ends (r.fieldSlot f)) ∧
    (∀ t, r.Finite t → Ends (r.zero t)) ∧
    (∀ id, r.Finite (.structTy id) → r.zero (.structTy id) = (do
      let layout ← r.layout id
      let fields ← layout.mapM r.zero
      pure (.struct id fields))) ∧
    (r.Complete → ∀ t, (∀ id : Nat, t = .structTy id → id < r.size) →
      (Ends (r.zero t) ↔ r.Finite t) ∧ (r.Finite t ↔ ∃ v, r.zero t = .ok v)) ∧
    ((∀ t, r.Finite t) → ∀ (j : Json) (t : Ty) (what : String) (heap : Heap) (id : TypeId),
      j.toValue r t what heap ≠ .error (.metadata (.endless id))) := by
  have hr := ordered_of_ofDecls h
  refine ⟨fun _ _ => isSubclass_iff hr, fun id => ⟨ends_layout hr id, layout_eq hr id⟩, ?_,
    ends_fieldSlot hr, fun _ => ends_zero hr, fun _ => zero_struct hr,
    fun hcomplete _ => ends_zero_iff hr hcomplete, ?_⟩
  · exact fun id name =>
      ⟨ends_findField hr id name, ends_findProperty hr id name, ends_findMethod hr id name⟩
  · exact fun hfinite j t what heap => Convert.terminates_value hr hfinite j.canonical t what heap

/-- A class that holds a struct declared behind it and instances of itself, a class derived from it,
and a struct of two structs declared behind it. -/
def shapeDecls : List TypeDecl :=
  [⟨"Shape", .classKind, none,
      [⟨"outline", .structTy 10, false⟩, ⟨"next", .classTy 8, false⟩], []⟩,
    ⟨"Square", .classKind, some "Shape", [⟨"side", .int, false⟩], []⟩,
    ⟨"Segment", .structKind, none, [⟨"start", .structTy 11, false⟩, ⟨"stop", .structTy 11, false⟩], []⟩,
    ⟨"Point", .structKind, none, [⟨"x", .int, false⟩], [⟨"y", .int, false⟩]⟩]

/-- The declared shapes are accepted, and zeroed segments are made of zeroed points. -/
theorem Registry.walks_shapes : ∃ r, ofDecls shapeDecls = .ok r ∧
    Relation.ReflTransGen r.Extends 9 8 ∧ Ends (r.layout 9) ∧ Ends (r.zero (.structTy 10)) := by
  have haccepted : (ofDecls shapeDecls).toOption.any (fun r =>
      r.isSubclass 9 8 && (r.zero (.structTy 10)).toOption.isSome) = true := by decide +kernel
  cases hr : ofDecls shapeDecls with
  | error e =>
      rw [hr] at haccepted
      cases haccepted
  | ok r =>
      rw [hr] at haccepted
      obtain ⟨hsub, hzero⟩ := Bool.and_eq_true_iff.mp haccepted
      obtain ⟨hextends, hlayout, -, -, hends, -⟩ := walks_of_ofDecls hr
      have hfinite : r.Finite (.structTy 10) := by
        cases hv : r.zero (.structTy 10) with
        | error e =>
            rw [hv] at hzero
            cases hzero
        | ok v => exact finite_of_zeroFrom hv
      exact ⟨r, rfl, (hextends 9 8).mp hsub, (hlayout 9).1, hends _ hfinite⟩

/-- A struct that holds itself is accepted, and the walk for its zero value has no end. -/
theorem Registry.endless_ring : ∃ r,
    ofDecls [⟨"Ring", .structKind, none, [⟨"rest", .structTy 8, false⟩], []⟩] = .ok r ∧
      ¬ Ends (r.zero (.structTy 8)) := by
  have haccepted : (ofDecls [⟨"Ring", .structKind, none, [⟨"rest", .structTy 8, false⟩], []⟩]).toOption.any
      (fun r => decide ((r.zero (.structTy 8)).map (fun _ => ()) = .error (.endless 8))) = true := by
    decide +kernel
  cases hr : ofDecls [⟨"Ring", .structKind, none, [⟨"rest", .structTy 8, false⟩], []⟩] with
  | error e =>
      rw [hr] at haccepted
      cases haccepted
  | ok r =>
      rw [hr] at haccepted
      have hzero := of_decide_eq_true haccepted
      refine ⟨r, rfl, fun hends => ?_⟩
      cases hv : r.zero (.structTy 8) with
      | ok v =>
          rw [hv] at hzero
          cases hzero
      | error e =>
          rw [hv] at hzero
          exact hends 8 (hv.trans (congrArg _ (Except.error.inj hzero)))

end Arbor
