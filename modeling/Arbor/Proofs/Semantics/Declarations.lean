/-
  Registries of declared types.

  A base has to be known when a type is declared, so it stands before the types
  derived from it, and members are added without changing a base.  So walks along
  bases come to an end: each is the recursion over bases that it bounds.
-/
import Arbor.Program.File
import Mathlib.Logic.Relation

set_option autoImplicit false

namespace Arbor

namespace Registry

variable {r : Registry} {α β : Type}

/-! ## Declared registries -/

/-- What holds of the exception types, and is kept when a type is declared or when members are added
to one that is no exception type, holds of the registries of declared types. -/
theorem ofDecls_induct {P : Registry → Prop} (hbuiltin : P builtin)
    (hdeclare : ∀ (r₀ r : Registry) d, r₀.declare d = .ok r → P r₀ → P r)
    (hmembers : ∀ (r : Registry) id f, builtin.size ≤ id → (∀ d : TypeDef, (f d).base = d.base) → P r →
      P (r.modifyType id f))
    {ds : List TypeDecl} (h : ofDecls ds = .ok r) : P r := by
  have hall : ∀ (ds : List TypeDecl) {r₀ r : Registry}, P r₀ → ds.foldlM declare r₀ = .ok r → P r := by
    intro ds
    induction ds with
    | nil =>
        rintro r₀ r h ⟨⟩
        exact h
    | cons d ds ih =>
        intro r₀ r h hfold
        rw [List.foldlM_cons] at hfold
        cases hd : r₀.declare d with
        | error e =>
            rw [hd] at hfold
            cases hfold
        | ok r₁ =>
            rw [hd] at hfold
            exact ih (hdeclare r₀ r₁ d hd h) hfold
  unfold ofDecls at h
  cases hdecls : ds.foldlM declare builtin with
  | error e =>
      rw [hdecls] at h
      cases h
  | ok r₁ =>
      rw [hdecls] at h
      cases h
      refine List.foldlRecOn _ _ (hall ds hbuiltin hdecls) ?_
      rintro r h ⟨id, d⟩ hmem
      obtain ⟨i, hi, heq⟩ := List.mem_mapIdx.mp hmem
      cases heq
      have hid : builtin.size ≤ builtin.size + i := Nat.le_add_right _ _
      refine List.foldlRecOn _ _ ?_ fun r h p _ => hmembers r _ _ hid (fun _ => rfl) h
      exact List.foldlRecOn _ _ h fun r h f _ => hmembers r _ _ hid (fun _ => rfl) h

/-! ## Bases -/

/-- The second type is the base of the first one. -/
def Extends (r : Registry) (sub base : TypeId) : Prop :=
  ∃ d, r.types[sub]? = some d ∧ d.base = some base

/-- Every base stands before the types derived from it. -/
def Ordered (r : Registry) : Prop := ∀ sub base : Nat, r.Extends sub base → base < sub

/-- The base of a type is the one that it was declared with. -/
theorem extends_iff {sub base : TypeId} {d : TypeDef} (hd : r.types[sub]? = some d) :
    r.Extends sub base ↔ d.base = some base := by
  constructor
  · rintro ⟨d', hd', hbase⟩
    rw [hd] at hd'
    cases hd'
    exact hbase
  · exact fun hbase => ⟨d, hd, hbase⟩

theorem Ordered.push (h : r.Ordered) {d : TypeDef} (hd : ∀ base, d.base = some base → base < r.size) :
    Ordered ⟨r.types.push d⟩ := by
  rintro sub base ⟨d', hd', hbase⟩
  rw [Array.getElem?_push] at hd'
  split at hd'
  · next hsub =>
      cases hd'
      exact hsub ▸ hd base hbase
  · exact h sub base ⟨d', hd', hbase⟩

theorem Ordered.modifyType (h : r.Ordered) (id : TypeId) {f : TypeDef → TypeDef}
    (hf : ∀ d : TypeDef, (f d).base = d.base) : (r.modifyType id f).Ordered := by
  rintro sub base ⟨d, hd, hbase⟩
  rw [Registry.modifyType, Array.getElem?_modify] at hd
  split at hd
  · obtain ⟨d', hd', rfl⟩ := Option.map_eq_some_iff.mp hd
    exact h sub base ⟨d', hd', hf d' ▸ hbase⟩
  · exact h sub base ⟨d, hd, hbase⟩

/-- The exception types derive from the first one. -/
theorem ordered_builtin : builtin.Ordered := by
  have hroot : Ordered ((Registry.mk #[]).defineClass Fault.rootTypeName none) :=
    Ordered.push (fun _ _ ⟨_, hd, _⟩ => nomatch hd) fun _ hbase => nomatch hbase
  have hderived : ∀ (fs : List Fault) (r : Registry), r.Ordered → 0 < r.size →
      (fs.foldl (fun r f => r.defineClass f.typeName (some rootException)) r).Ordered := by
    intro fs
    induction fs with
    | nil => exact fun _ hr _ => hr
    | cons f fs ih =>
        refine fun r hr hsize => ih _ (hr.push fun base hbase => ?_) ?_
        · cases hbase
          exact hsize
        · simp [size, defineClass]
  unfold builtin
  refine hderived Fault.all _ (hroot.modifyType rootException fun _ => rfl) ?_
  simp [size, defineClass, addField, Registry.modifyType]

/-- The bases of declared types stand before them. -/
theorem ordered_of_ofDecls {ds : List TypeDecl} (h : ofDecls ds = .ok r) : r.Ordered := by
  refine ofDecls_induct ?_ ?_ ?_ h
  · exact ordered_builtin
  · intro r₀ r d hd hr
    unfold declare at hd
    split at hd
    · cases hd
      exact hr.push fun _ hbase => nomatch hbase
    · split at hd
      · next base hfind =>
          cases hd
          refine hr.push fun _ hbase => ?_
          cases hbase
          exact (Array.findIdx?_eq_some_iff_getElem.mp hfind).1
      · cases hd
    · cases hd
      exact hr.push fun _ hbase => nomatch hbase
    · cases hd
  · exact fun r id f _ hf hr => hr.modifyType id hf

/-! ## Walks along bases -/

/-- The lookup does not report a walk without an end. -/
def Ends (x : Except MetadataError α) : Prop := ∀ id, x ≠ .error (.endless id)

theorem Ends.bind {x : Except MetadataError α} {f : α → Except MetadataError β} (hx : Ends x)
    (hf : ∀ a, x = .ok a → Ends (f a)) : Ends (x >>= f) := by
  cases x with
  | ok a => exact hf a rfl
  | error e => exact fun id h => hx id (congrArg _ (Except.error.inj h))

theorem Ends.map {x : Except MetadataError α} {f : α → β} (hx : Ends x) : Ends (x.map f) := by
  cases x with
  | ok a => exact fun _ h => nomatch h
  | error e => exact fun id h => hx id (congrArg _ (Except.error.inj h))

/-- A base is closer to the end of a walk. -/
theorem Ordered.step (h : r.Ordered) {sub base : Nat} {fuel : Nat} (hextends : r.Extends sub base)
    (hfuel : sub < fuel + 1 ∨ r.size < fuel + 1) : base < fuel ∨ r.size < fuel := by
  have hbase := h sub base hextends
  obtain ⟨d, hd, -⟩ := hextends
  have hsub : sub < r.size := (Array.getElem?_eq_some_iff.mp hd).1
  omega

/-- A walk with enough fuel finds the types that a type is derived from. -/
theorem subclassWithin_iff (h : r.Ordered) {sup : TypeId} {fuel sub : Nat}
    (hfuel : sub < fuel ∨ r.size < fuel) :
    r.subclassWithin sup fuel sub = true ↔ Relation.ReflTransGen r.Extends sub sup := by
  induction fuel generalizing sub with
  | zero => omega
  | succ fuel ih =>
      rw [Relation.ReflTransGen.cases_head_iff, subclassWithin]
      by_cases heq : sub = sup
      · simp [heq]
      · simp only [beq_iff_eq, heq, if_false, false_or]
        cases hd : r.types[sub]? with
        | none => simp [Extends, hd]
        | some d =>
            cases hbase : d.base with
            | none => simp [Extends, hd, hbase]
            | some base =>
                have hextends : ∀ b, r.Extends sub b ↔ b = base := fun b => by
                  rw [extends_iff hd, hbase, Option.some_inj, eq_comm]
                simp only [hextends, exists_eq_left, hbase]
                exact ih (h.step ((hextends base).mpr rfl) hfuel)

theorem isSubclass_iff (h : r.Ordered) {sub sup : Nat} :
    r.isSubclass sub sup = true ↔ Relation.ReflTransGen r.Extends sub sup :=
  subclassWithin_iff h (.inr (Nat.lt_succ_self _))

/-- Enough fuel is as good as any, and the walk ends. -/
theorem layoutFrom_eq (h : r.Ordered) {n m id : Nat} (hn : id < n ∨ r.size < n)
    (hm : id < m ∨ r.size < m) : r.layoutFrom n id = r.layoutFrom m id ∧ Ends (r.layoutFrom n id) := by
  induction n generalizing m id with
  | zero => omega
  | succ n ih =>
      cases m with
      | zero => omega
      | succ m =>
          simp only [layoutFrom]
          cases hd : r.types[id]? with
          | none => exact ⟨rfl, fun _ h => nomatch h⟩
          | some d =>
              cases hbase : d.base with
              | none => simp [Ends, hbase]
              | some base =>
                  have hextends : r.Extends id base := ⟨d, hd, hbase⟩
                  obtain ⟨heq, hends⟩ := ih (h.step hextends hn) (h.step hextends hm)
                  simp only [hbase, heq] at hends ⊢
                  refine ⟨trivial, fun id' => ?_⟩
                  cases hlayout : r.layoutFrom m base with
                  | ok layout => exact fun h => nomatch h
                  | error e =>
                      rw [hlayout] at hends
                      exact fun h => hends id' (congrArg _ (Except.error.inj h))

/-- The fields of a type are those of its base and its own. -/
theorem layout_eq (h : r.Ordered) (id : Nat) :
    r.layout id =
      match r.types[id]? with
      | none => .error (.unknownType id)
      | some d =>
          match d.base with
          | none => .ok (ownLayout d)
          | some base => (r.layout base).map (· ++ ownLayout d) := by
  unfold layout
  rw [layoutFrom]
  cases hd : r.types[id]? with
  | none => rfl
  | some d =>
      cases hbase : d.base with
      | none => simp [hbase]
      | some base =>
          simp only [hbase]
          have hfuel := h.step ⟨d, hd, hbase⟩ (.inr (Nat.lt_succ_self r.size))
          rw [(layoutFrom_eq h hfuel (.inr (Nat.lt_succ_self _))).1]

theorem ends_layout (h : r.Ordered) (id : Nat) : Ends (r.layout id) :=
  (layoutFrom_eq h (.inr (Nat.lt_succ_self _)) (.inr (Nat.lt_succ_self _))).2

/-- A search for a member ends. -/
theorem ends_findUp (h : r.Ordered) {start : TypeId} {name : String}
    {position? : TypeDef → Option Nat} {fuel id : Nat} (hfuel : id < fuel ∨ r.size < fuel) :
    Ends (r.findUp start name position? fuel id) := by
  induction fuel generalizing id with
  | zero => omega
  | succ fuel ih =>
      rw [findUp]
      cases hd : r.types[id]? with
      | none => exact fun _ h => nomatch h
      | some d =>
          dsimp only
          cases position? d with
          | some i => exact fun _ h => nomatch h
          | none =>
              cases hbase : d.base with
              | none => exact fun _ h => nomatch h
              | some base => exact ih (h.step ⟨d, hd, hbase⟩ hfuel)

theorem ends_findField (h : r.Ordered) (id : TypeId) (name : String) : Ends (r.findField id name) :=
  (ends_findUp h (.inr (Nat.lt_succ_self _))).map

theorem ends_findProperty (h : r.Ordered) (id : TypeId) (name : String) :
    Ends (r.findProperty id name) :=
  (ends_findUp h (.inr (Nat.lt_succ_self _))).map

theorem ends_findMethod (h : r.Ordered) (id : TypeId) (name : String) : Ends (r.findMethod id name) :=
  (ends_findUp h (.inr (Nat.lt_succ_self _))).map

theorem ends_typeDef (id : TypeId) : Ends (r.typeDef id) := by
  unfold typeDef
  split <;> exact fun _ h => nomatch h

theorem ends_field (f : FieldRef) : Ends (r.field f) := by
  refine (ends_typeDef f.ty).bind fun d _ => ?_
  split <;> exact fun _ h => nomatch h

theorem ends_fieldSlot (h : r.Ordered) (f : FieldRef) : Ends (r.fieldSlot f) := by
  refine (ends_typeDef f.ty).bind fun d _ => ?_
  cases d.base with
  | none => exact fun _ h => nomatch h
  | some base => exact (ends_layout h base).map.bind fun _ _ _ h => nomatch h

end Registry
end Arbor
