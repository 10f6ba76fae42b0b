/-
  Layouts of instances.

  A registry grows definition by definition: a type is defined once its base is, and
  fields and properties are added to types that are there, before or after others are
  derived from them.  Whatever the order, the layout of a base is a prefix of the
  layouts of the types derived from it, and the slots of a type correspond one to one
  to the instance fields that it declares or inherits.
-/
import Arbor.Proofs.FiniteTypes
import Arbor.Proofs.Semantics.FieldSlots

set_option autoImplicit false

namespace Arbor

/-! ## Positions in a filtered list -/

/-- What a filter keeps is found behind what it keeps of the items before. -/
theorem getElem?_filter_of_take {α : Type} {p : α → Bool} {items : List α} {i : Nat} {a : α}
    (ha : items[i]? = some a) (hp : p a = true) :
    (items.filter p)[((items.take i).filter p).length]? = some a := by
  obtain ⟨hi, rfl⟩ := List.getElem?_eq_some_iff.mp ha
  have hsplit : items.take i ++ items[i] :: items.drop (i + 1) = items := by
    rw [← List.drop_eq_getElem_cons hi, List.take_append_drop]
  have hfilter : items.filter p =
      (items.take i).filter p ++ items[i] :: (items.drop (i + 1)).filter p := by
    rw [← List.filter_cons_of_pos hp, ← List.filter_append, hsplit]
  rw [hfilter, List.getElem?_append_right (Nat.le_refl _), Nat.sub_self, List.getElem?_cons_zero]

/-- Every item of a filtered list comes from an item of the list. -/
theorem exists_take_of_filter {α : Type} {p : α → Bool} {items : List α} {k : Nat}
    (hk : k < (items.filter p).length) :
    ∃ i a, items[i]? = some a ∧ p a = true ∧ ((items.take i).filter p).length = k := by
  induction items generalizing k with
  | nil => exact absurd hk (Nat.not_lt_zero k)
  | cons b items ih =>
      cases hb : p b with
      | false =>
          rw [List.filter_cons_of_neg (by simp [hb])] at hk
          obtain ⟨i, a, ha, hp, hlength⟩ := ih hk
          exact ⟨i + 1, a, ha, hp, by simpa [hb] using hlength⟩
      | true =>
          cases k with
          | zero => exact ⟨0, b, rfl, hb, rfl⟩
          | succ k =>
              rw [List.filter_cons_of_pos hb, List.length_cons] at hk
              obtain ⟨i, a, ha, hp, hlength⟩ := ih (Nat.lt_of_succ_lt_succ hk)
              exact ⟨i + 1, a, ha, hp, by simpa [hb] using hlength⟩

namespace Registry

variable {r : Registry}

/-! ## Definitions -/

/-- A step in which a registry grows. -/
inductive Definition where
  | classType (name : String) (base : Option TypeId)
  | structType (name : String)
  /-- A field, of every instance or static. -/
  | field (owner : TypeId) (field : FieldDef)
  | autoProperty (owner : TypeId) (property : FieldDef)

/-- Carries out a definition, if the base or the owner that it names is there. -/
def define (r : Registry) : Definition → Option Registry
  | .classType name base =>
      if base.all fun id => id < r.size then some (r.defineClass name base) else none
  | .structType name => some (r.defineStruct name)
  | .field owner field => if owner < r.size then some (r.addField owner field) else none
  | .autoProperty owner property =>
      if owner < r.size then some (r.addAutoProperty owner property) else none

/-- The registry that definitions lead to from the exception types. -/
def ofDefinitions (ds : List Definition) : Option Registry := ds.foldlM define builtin

/-- A definition keeps bases before the types derived from them. -/
theorem Ordered.define {d : Definition} {r' : Registry} (h : r.Ordered) (hd : r.define d = some r') :
    r'.Ordered := by
  cases d with
  | classType name base =>
      obtain ⟨hbase, hd⟩ := Option.ite_none_right_eq_some.mp hd
      cases hd
      exact h.push fun id hid => by simpa [show base = some id from hid] using hbase
  | structType name =>
      cases hd
      exact h.push nofun
  | field owner field =>
      obtain ⟨-, hd⟩ := Option.ite_none_right_eq_some.mp hd
      cases hd
      exact h.modifyType owner fun _ => rfl
  | autoProperty owner property =>
      obtain ⟨-, hd⟩ := Option.ite_none_right_eq_some.mp hd
      cases hd
      exact h.modifyType owner fun _ => rfl

/-- Definitions keep bases before the types derived from them. -/
theorem ordered_of_ofDefinitions {ds : List Definition} (h : ofDefinitions ds = some r) : r.Ordered := by
  have hall : ∀ (ds : List Definition) (r₀ : Registry), r₀.Ordered → ds.foldlM Registry.define r₀ = some r →
      r.Ordered := by
    intro ds
    induction ds with
    | nil =>
        rintro r₀ hr₀ ⟨⟩
        exact hr₀
    | cons d ds ih =>
        intro r₀ hr₀ hfold
        obtain ⟨r₁, hd, hfold⟩ := Option.bind_eq_some_iff.mp (List.foldlM_cons.symm.trans hfold)
        exact ih r₁ (hr₀.define hd) hfold
  exact hall ds builtin ordered_builtin h

/-! ## Chains of bases -/

/-- A type derives from those that its bases lead to. -/
theorem derives_iff {sub sup : TypeId} :
    r.Derives sub sup ↔ Relation.ReflTransGen r.Extends sub sup := by
  constructor
  · intro h
    induction h with
    | refl => exact .refl
    | step hd hbase _ ih => exact .head ⟨_, hd, hbase⟩ ih
  · intro h
    induction h using Relation.ReflTransGen.head_induction_on with
    | refl => exact .refl _
    | head hbase _ ih =>
        obtain ⟨d, hd, hbase⟩ := hbase
        exact .step hd hbase ih

theorem derives_of_isSubclass (h : r.Ordered) {sub sup : TypeId} (hsub : r.isSubclass sub sup = true) :
    r.Derives sub sup :=
  derives_iff.mpr ((isSubclass_iff h).mp hsub)

theorem Derives.isSubclass (h : r.Ordered) {sub sup : TypeId} (hsub : r.Derives sub sup) :
    r.isSubclass sub sup = true :=
  (isSubclass_iff h).mpr (derives_iff.mp hsub)

/-- The bases of a type form a chain. -/
theorem Derives.chain {id a b : TypeId} (ha : r.Derives id a) (hb : r.Derives id b) :
    r.Derives a b ∨ r.Derives b a := by
  induction ha with
  | refl => exact .inl hb
  | step hd hbase ha ih =>
      cases hb with
      | refl => exact .inr (.step hd hbase ha)
      | step hd' hbase' hb =>
          obtain rfl := Option.some.inj (hd.symm.trans hd')
          obtain rfl := Option.some.inj (hbase.symm.trans hbase')
          exact ih hb

/-! ## Layouts -/

/-- The layout of a type with a base starts with that of the base. -/
theorem layout_of_base (h : r.Ordered) {id base : TypeId} {d : TypeDef} {L : List Ty}
    (hd : r.types[id]? = some d) (hbase : d.base = some base) (hL : r.layout id = .ok L) :
    ∃ K, r.layout base = .ok K ∧ L = K ++ ownLayout d := by
  rw [layout_eq h, hd] at hL
  simp only [hbase] at hL
  cases hK : r.layout base with
  | error e =>
      rw [hK] at hL
      cases hL
  | ok K =>
      rw [hK] at hL
      cases hL
      exact ⟨K, rfl, rfl⟩

/-- The layout of a base is a prefix of the layouts of the types derived from it. -/
theorem Derives.layout_extends (h : r.Ordered) {sub sup : TypeId} {L : List Ty} (hsub : r.Derives sub sup)
    (hL : r.layout sub = .ok L) : ∃ K, r.layout sup = .ok K ∧ K <+: L := by
  induction hsub generalizing L with
  | refl => exact ⟨L, hL, List.prefix_refl L⟩
  | step hd hbase _ ih =>
      obtain ⟨M, hM, rfl⟩ := layout_of_base h hd hbase hL
      obtain ⟨K, hK, hprefix⟩ := ih hM
      exact ⟨K, hK, hprefix.trans (List.prefix_append M _)⟩

/-- An instance field has its type at the place where its own type counts it. -/
theorem getElem?_ownLayout {d : TypeDef} {i : Nat} {fd : FieldDef} (hfield : d.fields[i]? = some fd)
    (hinstance : fd.isStatic = false) : (ownLayout d)[d.instanceFields i]? = some fd.ty := by
  have hkept := getElem?_filter_of_take (p := fun g : FieldDef => !g.isStatic)
    ((Array.getElem?_toList).trans hfield) (by simp [hinstance])
  rw [ownLayout, List.getElem?_map, TypeDef.instanceFields, hkept]
  rfl

/-- A field that is there has a slot. -/
theorem exists_fieldSlot (h : r.Ordered) {f : FieldRef} {fd : FieldDef} (hf : r.field f = .ok fd) :
    ∃ slot, r.fieldSlot f = .ok slot := by
  obtain ⟨d, hd, -⟩ := field_eq hf
  unfold fieldSlot typeDef
  simp only [hd, bind, Except.bind]
  cases hbase : d.base with
  | none => exact ⟨_, rfl⟩
  | some base =>
      have hlt : base < f.ty := h f.ty base ⟨d, hd, hbase⟩
      obtain ⟨L, hL⟩ := exists_layout h (Nat.lt_trans hlt (Array.getElem?_eq_some_iff.mp hd).1)
      simp only [hL, Except.map]
      exact ⟨_, rfl⟩

/-- The layout has the type of an instance field at its slot. -/
theorem getElem?_layout (h : r.Ordered) {f : FieldRef} {fd : FieldDef} {slot : Nat} {L : List Ty}
    (hf : r.field f = .ok fd) (hinstance : fd.isStatic = false) (hslot : r.fieldSlot f = .ok slot)
    (hL : r.layout f.ty = .ok L) : L[slot]? = some fd.ty := by
  obtain ⟨d, hd, hfield⟩ := field_eq hf
  obtain ⟨d', hd', inherited, rfl, hinherited⟩ := fieldSlot_eq hslot
  obtain rfl := Option.some.inj (hd.symm.trans hd')
  have hown := getElem?_ownLayout hfield hinstance
  rcases hinherited with ⟨hbase, rfl⟩ | ⟨base, K, hbase, hK, rfl⟩
  · rw [layout_eq h, hd] at hL
    simp only [hbase, Except.ok.injEq] at hL
    rw [← hL, Nat.zero_add]
    exact hown
  · obtain ⟨K', hK', rfl⟩ := layout_of_base h hd hbase hL
    obtain rfl := Except.ok.inj (hK.symm.trans hK')
    rw [List.getElem?_append_right (Nat.le_add_right _ _), Nat.add_sub_cancel_left]
    exact hown

/-! ## Instance fields -/

/-- The type declares the instance field or inherits it. -/
structure InstanceField (r : Registry) (id : TypeId) (f : FieldRef) (fd : FieldDef) : Prop where
  subclass : r.isSubclass id f.ty = true
  declared : r.field f = .ok fd
  ofInstances : fd.isStatic = false

/-- An instance field has a slot in the layout of every type derived from its own, with its type. -/
theorem InstanceField.slot (h : r.Ordered) {id : TypeId} {f : FieldRef} {fd : FieldDef} {L : List Ty}
    (hf : r.InstanceField id f fd) (hL : r.layout id = .ok L) :
    ∃ slot, r.fieldSlot f = .ok slot ∧ slot < L.length ∧ L[slot]? = some fd.ty := by
  obtain ⟨K, hK, M, rfl⟩ := (derives_of_isSubclass h hf.subclass).layout_extends h hL
  obtain ⟨slot, hslot⟩ := exists_fieldSlot h hf.declared
  have hty := getElem?_layout h hf.declared hf.ofInstances hslot hK
  obtain ⟨hlt, -⟩ := List.getElem?_eq_some_iff.mp hty
  refine ⟨slot, hslot, ?_, ?_⟩
  · rw [List.length_append]
    omega
  · rw [List.getElem?_append_left hlt, hty]

/-- Instance fields of one type that are in the same slot are the same. -/
theorem InstanceField.unique (h : r.Ordered) {id : TypeId} {f g : FieldRef} {fd gd : FieldDef} {slot : Nat}
    (hf : r.InstanceField id f fd) (hg : r.InstanceField id g gd) (hslot : r.fieldSlot f = .ok slot)
    (hslot' : r.fieldSlot g = .ok slot) : f = g := by
  by_contra hne
  rcases (derives_of_isSubclass h hf.subclass).chain (derives_of_isSubclass h hg.subclass) with hfg | hgf
  · exact fieldSlot_ne hf.declared hg.declared hf.ofInstances hg.ofInstances hslot hslot' hfg hne rfl
  · exact fieldSlot_ne hg.declared hf.declared hg.ofInstances hf.ofInstances hslot' hslot hgf
      (Ne.symm hne) rfl

/-- Every slot of a type is that of an instance field. -/
theorem exists_instanceField (h : r.Ordered) {id : Nat} {slot : Nat} {L : List Ty} (hL : r.layout id = .ok L)
    (hslot : slot < L.length) :
    ∃ f fd, r.InstanceField id f fd ∧ r.fieldSlot f = .ok slot := by
  -- The slots of the base are those of its fields; behind them the type's own fields are counted.
  induction id using Nat.strong_induction_on generalizing L with
  | _ id ih =>
      have hid := lt_size_of_layout hL
      obtain ⟨d, hd⟩ : ∃ d, r.types[id]? = some d := ⟨_, Array.getElem?_eq_getElem hid⟩
      have hown : ∀ {k : Nat}, k < (ownLayout d).length → ∃ i fd, d.fields[i]? = some fd ∧
          fd.isStatic = false ∧ d.instanceFields i = k := by
        intro k hk
        rw [ownLayout, List.length_map] at hk
        obtain ⟨i, fd, hfd, hinstance, hcount⟩ := exists_take_of_filter hk
        exact ⟨i, fd, (Array.getElem?_toList).symm.trans hfd, by simpa using hinstance, hcount⟩
      have hfield : ∀ {i : Nat} {fd : FieldDef}, d.fields[i]? = some fd → r.field ⟨id, i⟩ = .ok fd := by
        intro i fd hfd
        simp only [Registry.field, typeDef, hd, hfd, bind, Except.bind]
      cases hbase : d.base with
      | none =>
          rw [layout_eq h, hd] at hL
          simp only [hbase, Except.ok.injEq] at hL
          obtain ⟨i, fd, hfd, hinstance, rfl⟩ := hown (hL ▸ hslot)
          refine ⟨⟨id, i⟩, fd, ⟨(Derives.refl id).isSubclass h, hfield hfd, hinstance⟩, ?_⟩
          simp [fieldSlot, typeDef, hd, hbase, TypeDef.instanceFields, bind, Except.bind, pure, Except.pure]
      | some base =>
          obtain ⟨K, hK, rfl⟩ := layout_of_base h hd hbase hL
          by_cases hinherited : slot < K.length
          · have hlt : base < id := h id base ⟨d, hd, hbase⟩
            obtain ⟨f, fd, hf, hslot⟩ := ih base hlt hK hinherited
            have hderives : r.Derives id f.ty := .step hd hbase (derives_of_isSubclass h hf.subclass)
            exact ⟨f, fd, ⟨hderives.isSubclass h, hf.declared, hf.ofInstances⟩, hslot⟩
          · rw [List.length_append] at hslot
            obtain ⟨i, fd, hfd, hinstance, hcount⟩ := hown (show slot - K.length < _ by omega)
            refine ⟨⟨id, i⟩, fd, ⟨(Derives.refl id).isSubclass h, hfield hfd, hinstance⟩, ?_⟩
            have hslot : K.length + d.instanceFields i = slot := by omega
            simp only [TypeDef.instanceFields] at hslot
            simp [fieldSlot, typeDef, hd, hbase, hK, hslot, Except.map, bind, Except.bind, pure, Except.pure]

/-! ## Fields by name -/

/-- A member that is found by name is one of the type or of its bases. -/
theorem findUp_ok {start id ty : TypeId} {name : String} {position? : TypeDef → Option Nat} {fuel index : Nat}
    (h : r.findUp start name position? fuel id = .ok (ty, index)) :
    r.Derives id ty ∧ ∃ d, r.types[ty]? = some d ∧ position? d = some index := by
  induction fuel generalizing id with
  | zero => cases h
  | succ fuel ih =>
      unfold findUp at h
      split at h
      · cases h
      · next d hd =>
        split at h
        · next hposition =>
          cases h
          exact ⟨.refl _, d, hd, hposition⟩
        · split at h
          · next base hbase =>
            obtain ⟨hderives, hfound⟩ := ih h
            exact ⟨.step hd hbase hderives, hfound⟩
          · cases h

/-- A field that is found by name is a field of that name, of the type or of its bases. -/
theorem findField_ok {id : TypeId} {name : String} {f : FieldRef} (h : r.findField id name = .ok f) :
    r.Derives id f.ty ∧ ∃ fd, r.field f = .ok fd ∧ fd.name = name := by
  unfold findField at h
  cases hfound : r.findUp id name (fun d => d.fields.findIdx? (·.name == name)) (r.size + 1) id with
  | error e =>
      rw [hfound] at h
      cases h
  | ok place =>
      obtain ⟨ty, index⟩ := place
      rw [hfound] at h
      cases h
      obtain ⟨hderives, d, hd, hindex⟩ := findUp_ok hfound
      obtain ⟨hlt, hname, -⟩ := Array.findIdx?_eq_some_iff_getElem.mp hindex
      refine ⟨hderives, d.fields[index], ?_, by simpa using hname⟩
      simp only [field, typeDef, hd, Array.getElem?_eq_getElem hlt, bind, Except.bind]

/-- Members of different names that are in one slot do not name instance fields. -/
theorem findField_unique (h : r.Ordered) {id : TypeId} {name name' : String} {f g : FieldRef}
    {fd gd : FieldDef} {slot : Nat} (hf : r.findField id name = .ok f) (hg : r.findField id name' = .ok g)
    (hfd : r.InstanceField id f fd) (hgd : r.InstanceField id g gd) (hslot : r.fieldSlot f = .ok slot)
    (hslot' : r.fieldSlot g = .ok slot) : name = name' := by
  obtain rfl := hfd.unique h hgd hslot hslot'
  obtain ⟨-, fd', hfd', rfl⟩ := findField_ok hf
  obtain ⟨-, gd', hgd', rfl⟩ := findField_ok hg
  rw [Except.ok.inj (hfd'.symm.trans hgd')]

/-! ## Layouts of defined registries -/

/-- However a registry was defined, every type has a layout.  The layouts of its bases are prefixes of
it; an instance field that the type declares or inherits has a slot in it, where the layout has its
type; different fields have different slots, and every slot is that of one field. -/
theorem slots_of_ofDefinitions {ds : List Definition} (h : ofDefinitions ds = some r) :
    ∀ id : Nat, id < r.size → ∃ layout, r.layout id = .ok layout ∧
      (∀ base, r.isSubclass id base = true →
        ∃ inherited, r.layout base = .ok inherited ∧ inherited <+: layout) ∧
      (∀ f fd, r.InstanceField id f fd →
        ∃ slot, r.fieldSlot f = .ok slot ∧ slot < layout.length ∧ layout[slot]? = some fd.ty) ∧
      (∀ f fd g gd, r.InstanceField id f fd → r.InstanceField id g gd → f ≠ g →
        r.fieldSlot f ≠ r.fieldSlot g) ∧
      (∀ slot, slot < layout.length →
        ∃! f, (∃ fd, r.InstanceField id f fd) ∧ r.fieldSlot f = .ok slot) := by
  have hr := ordered_of_ofDefinitions h
  intro id hid
  obtain ⟨layout, hlayout⟩ := exists_layout hr hid
  refine ⟨layout, hlayout, ?_, ?_, ?_, ?_⟩
  · exact fun base hbase => (derives_of_isSubclass hr hbase).layout_extends hr hlayout
  · exact fun f fd hf => hf.slot hr hlayout
  · intro f fd g gd hf hg hne hsame
    obtain ⟨slot, hslot, -⟩ := hf.slot hr hlayout
    exact hne (hf.unique hr hg hslot (hsame ▸ hslot))
  · intro slot hslot
    obtain ⟨f, fd, hf, hfslot⟩ := exists_instanceField hr hlayout hslot
    refine ⟨f, ⟨⟨fd, hf⟩, hfslot⟩, ?_⟩
    rintro g ⟨⟨gd, hg⟩, hgslot⟩
    exact hg.unique hr hf hgslot hfslot

/-- A class, one derived from it and members of both; those of the base come last, and a static field
stands between them. -/
def lateDefinitions : List Definition :=
  [.classType "Base" none, .classType "Derived" (some 8), .field 9 ⟨"b", .str, false⟩,
    .field 8 ⟨"a", .int, false⟩, .field 8 ⟨"counter", .int, true⟩, .autoProperty 8 ⟨"Size", .bool, false⟩]

/-- The late fields of the base stand before the field of the derived class. -/
theorem slots_lateDefinitions : ∃ r, ofDefinitions lateDefinitions = some r ∧ 9 < r.size ∧
    r.isSubclass 9 8 = true ∧ ∃ layout, r.layout 9 = .ok layout ∧ layout = [.int, .bool, .str] ∧
      (∃ inherited, r.layout 8 = .ok inherited ∧ inherited <+: layout) ∧
      ∃! f, (∃ fd, r.InstanceField 9 f fd) ∧ r.fieldSlot f = .ok 1 := by
  have hdefined : (ofDefinitions lateDefinitions).any (fun r => decide (9 < r.size) && r.isSubclass 9 8 &&
      decide (r.layout 9 = .ok [.int, .bool, .str])) = true := by decide +kernel
  obtain ⟨r, hr, hfacts⟩ := (Option.any_eq_true _ _).mp hdefined
  simp only [Bool.and_eq_true, decide_eq_true_eq] at hfacts
  obtain ⟨⟨hsize, hsub⟩, hlayout⟩ := hfacts
  obtain ⟨layout, hlayout', hprefix, -, -, hslots⟩ := slots_of_ofDefinitions hr 9 hsize
  obtain rfl := Except.ok.inj (hlayout.symm.trans hlayout')
  exact ⟨r, hr, hsize, hsub, _, hlayout, rfl, hprefix 8 hsub, hslots 1 (by decide)⟩

end Registry

end Arbor
