/-
  Slots of instance fields.

  The slots of an instance are counted over the chain of bases, those of the bases
  first.  So two instance fields that the same instance has are in different slots.
-/
import Arbor.Registry.Lookup

set_option autoImplicit false

namespace Arbor

/-- How many instance fields there are among the first `n` of a type. -/
def TypeDef.instanceFields (d : TypeDef) (n : Nat) : Nat :=
  ((d.fields.toList.take n).filter fun g => !g.isStatic).length

/-- An instance field counts for the fields behind it. -/
theorem TypeDef.instanceFields_lt {d : TypeDef} {i n : Nat} {fd : FieldDef} (hfield : d.fields[i]? = some fd)
    (hinstance : fd.isStatic = false) (hlt : i < n) : d.instanceFields i < d.instanceFields n := by
  have htake : (d.fields.toList.take n).take (i + 1) = d.fields.toList.take i ++ [fd] := by
    rw [List.take_take, Nat.min_eq_left hlt, List.take_add_one, Array.getElem?_toList, hfield]
    rfl
  have hsplit := List.take_append_drop (i + 1) (d.fields.toList.take n)
  unfold instanceFields
  rw [← hsplit, htake, List.filter_append, List.filter_append, List.length_append, List.length_append]
  simp [hinstance]
  omega

namespace Registry

variable {r : Registry}

/-- The type is the other one or derived from it. -/
inductive Derives (r : Registry) : TypeId → TypeId → Prop
  | refl (id : TypeId) : Derives r id id
  | step {sub base sup : TypeId} {d : TypeDef} (hd : r.types[sub]? = some d) (hbase : d.base = some base)
      (h : Derives r base sup) : Derives r sub sup

/-- Layouts do not depend on the bound of the chain of bases. -/
theorem layoutFrom_unique {n m : Nat} {id : TypeId} {L L' : List Ty} (h : r.layoutFrom n id = .ok L)
    (h' : r.layoutFrom m id = .ok L') : L = L' := by
  induction n generalizing m id L L' with
  | zero => cases h
  | succ n ih =>
      cases m with
      | zero => cases h'
      | succ m =>
          unfold layoutFrom at h h'
          cases hd : r.types[id]? with
          | none =>
              rw [hd] at h
              cases h
          | some d =>
              cases hbase : d.base with
              | none =>
                  simp only [hd, hbase] at h h'
                  exact Except.ok.inj (h.symm.trans h')
              | some base =>
                  simp only [hd, hbase] at h h'
                  cases hL : r.layoutFrom n base with
                  | error e =>
                      rw [hL] at h
                      cases h
                  | ok K =>
                      cases hL' : r.layoutFrom m base with
                      | error e =>
                          rw [hL'] at h'
                          cases h'
                      | ok K' =>
                          rw [hL] at h
                          rw [hL'] at h'
                          cases h
                          cases h'
                          rw [ih hL hL']

/-- The slot of an instance field is that of its type's bases and of the instance fields before it. -/
theorem fieldSlot_eq {f : FieldRef} {slot : Nat} (h : r.fieldSlot f = .ok slot) :
    ∃ d, r.types[f.ty]? = some d ∧ ∃ inherited, slot = inherited + d.instanceFields f.index ∧
      (d.base = none ∧ inherited = 0 ∨
        ∃ base L, d.base = some base ∧ r.layout base = .ok L ∧ inherited = L.length) := by
  unfold fieldSlot typeDef at h
  cases hd : r.types[f.ty]? with
  | none =>
      rw [hd] at h
      cases h
  | some d =>
      cases hbase : d.base with
      | none =>
          simp only [hd, hbase, bind, Except.bind, pure, Except.pure, Except.ok.injEq] at h
          exact ⟨d, rfl, 0, h.symm, .inl ⟨hbase, rfl⟩⟩
      | some base =>
          simp only [hd, hbase, bind, Except.bind, pure, Except.pure] at h
          cases hL : r.layout base with
          | error e =>
              rw [hL] at h
              cases h
          | ok L =>
              simp only [hL, Except.map, Except.ok.injEq] at h
              exact ⟨d, rfl, L.length, h.symm, .inr ⟨base, L, hbase, hL, rfl⟩⟩

/-- What an instance field is. -/
theorem field_eq {f : FieldRef} {fd : FieldDef} (h : r.field f = .ok fd) :
    ∃ d, r.types[f.ty]? = some d ∧ d.fields[f.index]? = some fd := by
  unfold field typeDef at h
  cases hd : r.types[f.ty]? with
  | none =>
      rw [hd] at h
      cases h
  | some d =>
      simp only [hd, bind, Except.bind] at h
      split at h
      · next hfield =>
        cases h
        exact ⟨d, rfl, hfield⟩
      · cases h

/-- A layout has a bound above zero, and extends that of the base. -/
theorem layoutFrom_eq_append {n : Nat} {id : TypeId} {L : List Ty} {d : TypeDef}
    (hd : r.types[id]? = some d) (h : r.layoutFrom n id = .ok L) :
    (d.base = none ∧ L = ownLayout d) ∨
      ∃ m base K, d.base = some base ∧ r.layoutFrom m base = .ok K ∧ L = K ++ ownLayout d := by
  cases n with
  | zero => cases h
  | succ n =>
      unfold layoutFrom at h
      cases hbase : d.base with
      | none =>
          simp only [hd, hbase] at h
          cases h
          exact .inl ⟨rfl, rfl⟩
      | some base =>
          simp only [hd, hbase] at h
          cases hK : r.layoutFrom n base with
          | error e =>
              rw [hK] at h
              cases h
          | ok K =>
              rw [hK] at h
              cases h
              exact .inr ⟨n, base, K, rfl, hK, rfl⟩

/-- A layout has room for the instance fields of every base. -/
theorem slot_lt_layout {n : Nat} {id sup : TypeId} {L : List Ty} {f : FieldRef} {fd : FieldDef}
    {slot : Nat} (hderives : r.Derives id sup) (hsup : f.ty = sup) (hL : r.layoutFrom n id = .ok L)
    (hf : r.field f = .ok fd) (hinstance : fd.isStatic = false) (hslot : r.fieldSlot f = .ok slot) :
    slot < L.length := by
  induction hderives generalizing n L with
  | refl id =>
      subst hsup
      obtain ⟨d, hd, hfield⟩ := field_eq hf
      obtain ⟨d', hd', inherited, rfl, hinherited⟩ := fieldSlot_eq hslot
      obtain rfl := Option.some.inj (hd.symm.trans hd')
      obtain ⟨hindex, -⟩ := Array.getElem?_eq_some_iff.mp hfield
      have hcount := TypeDef.instanceFields_lt hfield hinstance hindex
      have hown : (ownLayout d).length = d.instanceFields d.fields.size := by
        simp [ownLayout, TypeDef.instanceFields, ← Array.length_toList]
      rcases layoutFrom_eq_append hd hL with ⟨hbase, rfl⟩ | ⟨m, base, K, hbase, hK, rfl⟩
      · rcases hinherited with ⟨-, rfl⟩ | ⟨base, _, hbase', -⟩
        · omega
        · rw [hbase] at hbase'
          cases hbase'
      · rcases hinherited with ⟨hbase', -⟩ | ⟨base', K', hbase', hK', rfl⟩
        · rw [hbase] at hbase'
          cases hbase'
        · obtain rfl := Option.some.inj (hbase.symm.trans hbase')
          rw [layoutFrom_unique hK hK', List.length_append]
          omega
  | step hd hbase _ ih =>
      rcases layoutFrom_eq_append hd hL with ⟨hbase', -⟩ | ⟨m, base, K, hbase', hK, rfl⟩
      · rw [hbase] at hbase'
        cases hbase'
      · obtain rfl := Option.some.inj (hbase.symm.trans hbase')
        have hlt := ih hsup hK
        rw [List.length_append]
        omega

/-- Two instance fields of the same instance are in different slots. -/
theorem fieldSlot_ne {f g : FieldRef} {fd gd : FieldDef} {slot slot' : Nat}
    (hf : r.field f = .ok fd) (hg : r.field g = .ok gd) (hfd : fd.isStatic = false)
    (hgd : gd.isStatic = false) (hslot : r.fieldSlot f = .ok slot) (hslot' : r.fieldSlot g = .ok slot')
    (hderives : r.Derives f.ty g.ty) (hne : f ≠ g) : slot ≠ slot' := by
  obtain ⟨d, hd, inherited, rfl, hinherited⟩ := fieldSlot_eq hslot
  obtain ⟨d₁, hd₁, hfield⟩ := field_eq hf
  obtain rfl := Option.some.inj (hd.symm.trans hd₁)
  generalize hsub : f.ty = sub at hderives
  generalize hsup : g.ty = sup at hderives
  cases hderives with
  | refl =>
      obtain ⟨d', hd', inherited', rfl, hinherited'⟩ := fieldSlot_eq hslot'
      obtain ⟨d₂, hd₂, hfield'⟩ := field_eq hg
      rw [hsub] at hd
      rw [hsup] at hd' hd₂
      obtain rfl := Option.some.inj (hd.symm.trans hd')
      obtain rfl := Option.some.inj (hd.symm.trans hd₂)
      have hindex : f.index ≠ g.index := by
        intro heq
        apply hne
        cases f
        cases g
        simp_all
      have hinherited : inherited = inherited' := by
        rcases hinherited with ⟨hbase, rfl⟩ | ⟨base, L, hbase, hL, rfl⟩ <;>
        rcases hinherited' with ⟨hbase', rfl⟩ | ⟨base', L', hbase', hL', rfl⟩
        · rfl
        · rw [hbase] at hbase'
          cases hbase'
        · rw [hbase] at hbase'
          cases hbase'
        · obtain rfl := Option.some.inj (hbase.symm.trans hbase')
          rw [Except.ok.inj (hL.symm.trans hL')]
      rcases Nat.lt_or_gt_of_ne hindex with hlt | hlt
      · have := TypeDef.instanceFields_lt hfield hfd hlt
        omega
      · have := TypeDef.instanceFields_lt hfield' hgd hlt
        omega
  | step hd' hbase hderives =>
      rw [hsub] at hd
      obtain rfl := Option.some.inj (hd.symm.trans hd')
      rcases hinherited with ⟨hbase', -⟩ | ⟨base, L, hbase', hL, rfl⟩
      · rw [hbase] at hbase'
        cases hbase'
      · obtain rfl := Option.some.inj (hbase.symm.trans hbase')
        have hlt := slot_lt_layout hderives hsup hL hg hgd hslot'
        omega

end Registry

end Arbor
