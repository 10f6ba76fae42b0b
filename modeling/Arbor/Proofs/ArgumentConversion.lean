/-
  Converted arguments.

  A conversion follows the JSON value and the type together and makes new cells on
  the heap.  Its result is a value of the type, with everything that it holds: numbers
  of their kinds, items of the element type, and instances laid out as their types
  say, with the members of an object in the slots of the fields that they name and
  zero in all others.  Members that name static fields are not among those it is made
  for: static fields have no slots.
-/
import Arbor.Proofs.FieldLayouts
import Arbor.Proofs.TypedValues
import Arbor.Proofs.TypeSoundness
import Arbor.Proofs.Json.Arrangement

set_option autoImplicit false

namespace Arbor

/-! ## What JSON values say -/

namespace Registry

/-- Where the members of an object belong in an instance of a type: each names an instance field that has
a slot, and the slots that none names are zero. -/
structure Places (r : Registry) (members : List (String × Json)) (id : TypeId) (fields : List Value) :
    Prop where
  layout : ∃ layout, r.layout id = .ok layout ∧ fields.length = layout.length ∧
    ∀ (slot : Nat) (ty : Ty) (x : Value), layout[slot]? = some ty → fields[slot]? = some x →
      (∀ name ∈ Json.keys members, ∀ f, r.findField id name = .ok f → r.fieldSlot f ≠ .ok slot) →
      r.zero ty = .ok x
  found : ∀ name ∈ Json.keys members, ∃ f fd slot, r.findField id name = .ok f ∧
    r.InstanceField id f fd ∧ r.fieldSlot f = .ok slot ∧ slot < fields.length

/-- The value is what the JSON value says, read as one of the type.  Of members of one name the last one
counts. -/
inductive Denotes (r : Registry) (h : Heap) : Json → Ty → Value → Prop
  | null {t : Ty} {z : Value} (ht : t.canBeAbsent = true) (hz : r.zero t = .ok z) : Denotes r h .null t z
  | present {j : Json} {t : Ty} {v : Value} (hj : j ≠ .null) (hv : Denotes r h j t v) :
      Denotes r h j (.nullable t) (.present v)
  | bool {t : Ty} {b : Bool} (ht : t = .bool ∨ t = .object) : Denotes r h (.bool b) t (.bool b)
  | str {t : Ty} {s : String} (ht : t = .str ∨ t = .object) : Denotes r h (.str s) t (.str s)
  | int {k : IntKind} (w : Word k) : Denotes r h (.int w.val) (.num (.int k)) (.num (.int k w))
  | float {j : Json} {k : NumKind} {n : Num} (hk : k.isIntegral = false) (hn : Convert.number? j k = some n) :
      Denotes r h j (.num k) (.num n)
  | boxed {j : Json} {n : Num} (hn : Convert.number? j .double = some n) : Denotes r h j .object (.num n)
  | array {items : List Json} {elem : Ty} {ref : Ref} {values : List Value}
      (hcell : h.arrays[ref]? = some ⟨elem, [values.length], values.toArray⟩)
      (hlength : values.length = items.length)
      (hitems : ∀ (i : Nat) (j : Json) (v : Value), items[i]? = some j → values[i]? = some v →
        Denotes r h j elem v) : Denotes r h (.arr items) (.array elem) (.array ref)
  | list {items : List Json} {elem : Ty} {ref : Ref} {values : List Value}
      (hcell : h.lists[ref]? = some ⟨elem, values.toArray⟩) (hlength : values.length = items.length)
      (hitems : ∀ (i : Nat) (j : Json) (v : Value), items[i]? = some j → values[i]? = some v →
        Denotes r h j elem v) : Denotes r h (.arr items) (.list elem) (.list ref)
  | instance {members : List (String × Json)} {t : Ty} {v : Value} {id : TypeId} {fields : List Value}
      (hv : h.Instance t v id fields) (hplaces : r.Places members id fields)
      (hmembers : ∀ (name : String) (j : Json) (f : FieldRef) (fd : FieldDef) (slot : Nat) (x : Value),
        Json.member? name members = some j → r.findField id name = .ok f → r.field f = .ok fd →
        r.fieldSlot f = .ok slot → fields[slot]? = some x → Denotes r h j fd.ty x) :
      Denotes r h (.obj members) t v

end Registry

/-- A member of an object in the JSON value, read as one of the type, names the field. -/
inductive Json.Fills (r : Registry) : Json → Ty → FieldDef → Prop
  | item {items : List Json} {t elem : Ty} {j : Json} {fd : FieldDef}
      (ht : t.core = .array elem ∨ t.core = .list elem) (hj : j ∈ items) (h : Fills r j elem fd) :
      Fills r (.arr items) t fd
  | member {members : List (String × Json)} {t : Ty} {id : TypeId} {name : String} {j : Json} {f : FieldRef}
      {fd : FieldDef} (ht : t.core = .classTy id ∨ t.core = .structTy id) (hj : (name, j) ∈ members)
      (hf : r.findField id name = .ok f) (hfd : r.field f = .ok fd) : Fills r (.obj members) t fd
  | inside {members : List (String × Json)} {t : Ty} {id : TypeId} {name : String} {j : Json} {f : FieldRef}
      {fd inner : FieldDef} (ht : t.core = .classTy id ∨ t.core = .structTy id) (hj : (name, j) ∈ members)
      (hf : r.findField id name = .ok f) (hfd : r.field f = .ok fd) (h : Fills r j fd.ty inner) :
      Fills r (.obj members) t inner

/-! ## Numbers -/

namespace Convert

/-- A number becomes one of the kind. -/
theorem kind_of_number? {j : Json} {k : NumKind} {n : Num} (h : number? j k = some n) : n.kind = k := by
  obtain ⟨raw, -, hconvert⟩ := Option.bind_eq_some_iff.mp h
  have hyields := Num.yields_convert raw k true
  cases hout : raw.convert k true with
  | error f =>
      rw [hout] at hconvert
      cases hconvert
  | ok m =>
      rw [hout] at hconvert hyields
      cases hconvert
      exact hyields

/-- A word of an integer is that integer. -/
theorem val_of_ofInt? {k : IntKind} {i : Int} {w : Word k} (h : Word.ofInt? k i = some w) : w.val = i := by
  unfold Word.ofInt? at h
  split at h
  · cases h
    rfl
  · cases h

/-- An integer becomes exactly that integer. -/
theorem number?_int {i : Int} {k : IntKind} {n : Num} (h : number? (.int i) (.int k) = some n) :
    ∃ w : Word k, w.val = i ∧ n = .int k w := by
  obtain ⟨raw, hraw, hconvert⟩ := Option.bind_eq_some_iff.mp h
  obtain ⟨kind, word, hword, rfl⟩ : ∃ (kind : IntKind) (word : Word kind), word.val = i ∧
      raw = .int kind word := by
    simp only at hraw
    split at hraw
    · next w hw =>
      cases hraw
      exact ⟨.i64, w, val_of_ofInt? hw, rfl⟩
    · obtain ⟨w, hw, rfl⟩ := Option.map_eq_some_iff.mp hraw
      exact ⟨.u64, w, val_of_ofInt? hw, rfl⟩
  subst hword
  simp only [Num.convert, Word.finish, if_true, Word.exact] at hconvert
  cases hfits : Word.ofInt? k word.val with
  | none =>
      rw [hfits] at hconvert
      cases hconvert
  | some w =>
      rw [hfits] at hconvert
      cases hconvert
      exact ⟨w, val_of_ofInt? hfits, rfl⟩

theorem number?_float (x : Float) (k : IntKind) : number? (.float x) (.int k) = none := rfl

end Convert

/-- Every key has a member. -/
theorem Json.exists_member?_of_mem {name : String} {members : List (String × Json)}
    (h : name ∈ keys members) : ∃ j, member? name members = some j := by
  induction members with
  | nil => cases h
  | cons m members ih =>
      obtain ⟨k, v⟩ := m
      rw [member?]
      cases hrest : member? name members with
      | some j => exact ⟨j, rfl⟩
      | none =>
          rcases List.mem_cons.mp h with heq | hmem
          · exact ⟨v, if_pos heq.symm⟩
          · obtain ⟨j, hj⟩ := ih hmem
            rw [hrest] at hj
            cases hj

/-! ## What is denoted is of the type -/

namespace Registry

variable {r : Registry} {h : Heap}

/-- An instance whose members are of the types of their fields is of its type: a slot that a member names
has the type of its field, and the others are zero. -/
theorem Places.inhabits (hr : r.Ordered) {members : List (String × Json)} {id : TypeId}
    {fields : List Value} (hplaces : r.Places members id fields) {t : Ty} {v : Value}
    (hv : h.Instance t v id fields)
    (hmembers : ∀ (name : String) (j : Json) (f : FieldRef) (fd : FieldDef) (slot : Nat) (x : Value),
      Json.member? name members = some j → r.findField id name = .ok f → r.field f = .ok fd →
      r.fieldSlot f = .ok slot → fields[slot]? = some x → r.Inhabits h fd.ty x) : r.Inhabits h t v := by
  obtain ⟨layout, hlayout, hlength, hzero⟩ := hplaces.layout
  refine .instance hv hlayout hlength fun slot ty x hty hx => ?_
  by_cases hnamed : ∃ name ∈ Json.keys members, ∃ f, r.findField id name = .ok f ∧ r.fieldSlot f = .ok slot
  · obtain ⟨name, hname, f, hf, hslot⟩ := hnamed
    obtain ⟨f', fd, slot', hf', hinstance, -⟩ := hplaces.found name hname
    obtain rfl := Except.ok.inj (hf.symm.trans hf')
    obtain ⟨slot', hslot', -, hfieldTy⟩ := hinstance.slot hr hlayout
    obtain rfl := Except.ok.inj (hslot.symm.trans hslot')
    obtain rfl := Option.some.inj (hty.symm.trans hfieldTy)
    obtain ⟨j, hj⟩ := Json.exists_member?_of_mem hname
    exact hmembers name j f fd slot x hj hf hinstance.declared hslot hx
  · refine inhabits_zeroFrom (hzero slot ty x hty hx fun name hname f hf hslot => ?_)
    exact hnamed ⟨name, hname, f, hf, hslot⟩

theorem inhabits_number {j : Json} {k : NumKind} {n : Num} (hn : Convert.number? j k = some n) :
    r.Inhabits h (.num k) (.num n) := by
  obtain rfl := Convert.kind_of_number? hn
  exact .num n

/-- What is denoted is of the type. -/
theorem Denotes.inhabits (hr : r.Ordered) {j : Json} {t : Ty} {v : Value} (hv : r.Denotes h j t v) :
    r.Inhabits h t v := by
  induction hv with
  | null ht hz => exact inhabits_zeroFrom hz
  | present hj hv ih => exact .present ih
  | bool ht =>
      rcases ht with rfl | rfl
      · exact .bool _
      · exact .boxed rfl (.bool _)
  | str ht =>
      rcases ht with rfl | rfl
      · exact .str _
      · exact .boxed rfl (.str _)
  | int w => exact .num (.int _ w)
  | float hk hn => exact inhabits_number hn
  | boxed hn => exact .boxed rfl (inhabits_number hn)
  | array hcell hlength hitems ih =>
      refine .array hcell fun v hv => ?_
      obtain ⟨i, hi, rfl⟩ := List.getElem_of_mem hv
      exact ih i _ _ (List.getElem?_eq_getElem (hlength ▸ hi)) (List.getElem?_eq_getElem hi)
  | list hcell hlength hitems ih =>
      refine .list hcell fun v hv => ?_
      obtain ⟨i, hi, rfl⟩ := List.getElem_of_mem hv
      exact ih i _ _ (List.getElem?_eq_getElem (hlength ▸ hi)) (List.getElem?_eq_getElem hi)
  | «instance» hv hplaces hmembers ih => exact hplaces.inhabits hr hv ih

end Registry

/-! ## Steps of a conversion -/

namespace Convert

variable {r : Registry} {h h' : Heap} {α β : Type}

/-- The first of two conversions. -/
theorem ok_of_bind {x : Convert α} {f : α → Convert β} {p : β × Heap} (hx : (x >>= f) h = .ok p) :
    ∃ a h₁, x h = .ok (a, h₁) ∧ f a h₁ = .ok p := by
  change (x h >>= fun q => f q.1 q.2) = .ok p at hx
  cases hfirst : x h with
  | error e =>
      rw [hfirst] at hx
      cases hx
  | ok q =>
      rw [hfirst] at hx
      exact ⟨q.1, q.2, rfl, hx⟩

/-- A lookup leaves the heap as it is. -/
theorem ofLookup_ok {e : Except MetadataError α} {a : α} (hx : ofLookup e h = .ok (a, h')) :
    e = .ok a ∧ h' = h := by
  cases e with
  | error e => cases hx
  | ok b =>
      cases hx
      exact ⟨rfl, rfl⟩

/-- What a value inside optionals denotes, the optional denotes. -/
theorem denotes_wrap {j : Json} {v : Value} (hj : j ≠ .null) :
    ∀ t : Ty, r.Denotes h j t.core v → r.Denotes h j t (wrap (layers t) v)
  | .nullable t, hv => .present hj (denotes_wrap hj t hv)
  | .void, hv | .bool, hv | .num _, hv | .str, hv | .object, hv | .classTy _, hv | .structTy _, hv
  | .array _, hv | .mdArray _ _, hv | .list _, hv | .func _ _, hv | .byRef _, hv => hv

/-- Storing a field of an instance changes that instance only. -/
theorem fill_ok {t : Ty} {target target' x : Value} {id : TypeId} {fields : List Value} {slot : Nat}
    (htarget : h.Instance t target id fields) (hfill : fill target slot x h = .ok (target', h')) :
    h'.Instance t target' id (fields.set slot x) ∧ h.Keeps (fun ref => target ≠ .object ref) h' ∧
      h'.objects.size = h.objects.size ∧ ∀ ref, target' = .object ref → target = .object ref := by
  cases htarget with
  | struct =>
      cases hfill
      exact ⟨.struct, .refl _, rfl, fun ref heq => nomatch heq⟩
  | @object id ref fields hcell =>
      cases hfill
      refine ⟨.object ?_, (h.keeps_setField ref slot x).mono fun i hne heq => hne (heq ▸ rfl), ?_,
        fun _ heq => heq⟩
      · change (h.setField ref slot x).objects[ref]? = _
        rw [Heap.setField, Array.getElem?_modify, if_pos rfl, hcell]
        simp
      · exact Array.size_modify

/-- A zeroed instance has zero in every slot of its layout. -/
theorem fresh_ok (hr : r.Ordered) {t : Ty} {id : TypeId} {target : Value}
    (ht : t = .classTy id ∨ t = .structTy id) (hfresh : fresh r t h = .ok (target, h')) :
    ∃ layout fields, r.layout id = .ok layout ∧ layout.mapM r.zero = .ok fields ∧
      h'.Instance t target id fields ∧ h.Grows h' ∧ ∀ ref, target = .object ref → ref = h.objects.size := by
  rcases ht with rfl | rfl
  · obtain ⟨layout, h₁, hfirst, hrest⟩ := ok_of_bind (x := ofLookup (r.layout id)) hfresh
    obtain ⟨hlayout, rfl⟩ := ofLookup_ok hfirst
    obtain ⟨fields, h₂, hsecond, hnew⟩ := ok_of_bind (x := ofLookup (layout.mapM r.zero)) hrest
    obtain ⟨hfields, rfl⟩ := ofLookup_ok hsecond
    cases hnew
    refine ⟨layout, fields, hlayout, hfields, .object Array.getElem?_push_size, h₂.grows_newObject _, ?_⟩
    rintro ref heq
    cases heq
    rfl
  · obtain ⟨hzero, rfl⟩ := ofLookup_ok hfresh
    rw [Registry.zero_struct hr (Registry.finite_of_zeroFrom hzero)] at hzero
    cases hlayout : r.layout id with
    | error e =>
        rw [hlayout] at hzero
        cases hzero
    | ok layout =>
        rw [hlayout] at hzero
        cases hfields : layout.mapM r.zero with
        | error e =>
            simp only [bind, Except.bind, hfields] at hzero
            cases hzero
        | ok fields =>
            simp only [bind, Except.bind, hfields] at hzero
            cases hzero
            exact ⟨layout, fields, rfl, hfields, .struct, .refl _, fun ref heq => nomatch heq⟩

/-! ## Conversions -/

/-- The heap only grows by the conversion, and what it yields is what the JSON value says, also where
objects that were there before are written. -/
def Faithful (r : Registry) (j : Json) (t : Ty) (x : Convert Value) : Prop :=
  ∀ h h' v, x h = .ok (v, h') → h.Grows h' ∧ ∀ h'', h'.Keeps (h.objects.size ≤ ·) h'' → r.Denotes h'' j t v

theorem Faithful.scalar {j : Json} {t : Ty} {x : Convert Value}
    (h : ∀ h h' v, x h = .ok (v, h') → h' = h ∧ ∀ h'', r.Denotes h'' j t v) : Faithful r j t x := by
  intro h₀ h' v hx
  obtain ⟨rfl, hv⟩ := h h₀ h' v hx
  exact ⟨.refl _, fun h'' _ => hv h''⟩

theorem Faithful.badValue {j : Json} {t : Ty} (what expected found : String) :
    Faithful r j t (throw (.badValue what expected found)) := fun _ _ _ h => nomatch h

theorem Faithful.wrapped {j : Json} {t : Ty} {v : Value} (hj : j ≠ .null) (hv : ∀ h, r.Denotes h j t.core v) :
    Faithful r j t (pure (wrap (layers t) v)) := by
  refine .scalar fun h h' v hx => ?_
  cases hx
  exact ⟨rfl, fun h'' => denotes_wrap hj t (hv h'')⟩

/-- A number of a kind. -/
theorem Faithful.number {j : Json} {t : Ty} {k : NumKind} (e : ProgramError) (hj : j ≠ .null)
    (hn : ∀ n, number? j k = some n → ∀ h, r.Denotes h j t.core (.num n)) :
    Faithful r j t (match number? j k with
      | some n => pure (wrap (layers t) (.num n))
      | none => throw e) := by
  cases hnumber : number? j k with
  | some n => exact .wrapped hj (hn n hnumber)
  | none => exact fun _ _ _ h => nomatch h

/-- A number of the kind of a type. -/
theorem denotes_number {j : Json} {k : NumKind} {n : Num} (hj : (∃ i, j = .int i) ∨ ∃ x, j = .float x)
    (hn : number? j k = some n) : r.Denotes h j (.num k) (.num n) := by
  cases k with
  | int k =>
      rcases hj with ⟨i, rfl⟩ | ⟨x, rfl⟩
      · obtain ⟨w, rfl, rfl⟩ := number?_int hn
        exact .int w
      · rw [number?_float] at hn
        cases hn
  | single | double => exact .float rfl hn

/-- Values that hold no others. -/
theorem faithful_scalar (j : Json) (harr : ∀ items, j ≠ .arr items) (hobj : ∀ members, j ≠ .obj members)
    (t : Ty) (what : String) : Faithful r j t (value r j t what) := by
  cases j with
  | arr items => exact absurd rfl (harr items)
  | obj members => exact absurd rfl (hobj members)
  | null =>
      unfold value
      dsimp only
      split
      · next habsent =>
        refine .scalar fun h h' v hzero => ?_
        obtain ⟨hz, rfl⟩ := ofLookup_ok hzero
        exact ⟨rfl, fun h'' => .null habsent hz⟩
      · exact .badValue _ _ _
  | unreadable => exact .badValue _ _ _
  | bool b =>
      unfold value
      cases hcore : t.core with
      | bool | object => exact .wrapped nofun fun h => hcore ▸ .bool (by simp)
      | _ => exact .badValue _ _ _
  | str s =>
      unfold value
      cases hcore : t.core with
      | str | object => exact .wrapped nofun fun h => hcore ▸ .str (by simp)
      | _ => exact .badValue _ _ _
  | int i =>
      unfold value
      cases hcore : t.core with
      | num k => exact .number _ nofun fun n hn h => hcore ▸ denotes_number (.inl ⟨i, rfl⟩) hn
      | object => exact .number _ nofun fun n hn h => hcore ▸ .boxed hn
      | _ => exact .badValue _ _ _
  | float x =>
      unfold value
      cases hcore : t.core with
      | num k => exact .number _ nofun fun n hn h => hcore ▸ denotes_number (.inr ⟨x, rfl⟩) hn
      | object =>
          exact .number (k := .double) (.badValue what "a number" (Json.float x).print) nofun
            fun n hn h => hcore ▸ .boxed hn
      | _ => exact .badValue _ _ _

/-- The members of an object fill fields of an instance: it stays the same instance, nothing else is
written, and every field that a member names holds what the last such member says. -/
structure Filled (r : Registry) (h h' : Heap) (members : List (String × Json)) (t : Ty) (id : TypeId)
    (target v : Value) (fields fields' : List Value) : Prop where
  instance' : h'.Instance t v id fields'
  length : fields'.length = fields.length
  same : ∀ ref, v = .object ref → target = .object ref
  keeps : h.Keeps (fun ref => target ≠ .object ref) h'
  found : ∀ name ∈ Json.keys members, ∃ f fd slot, r.findField id name = .ok f ∧
    r.InstanceField id f fd ∧ r.fieldSlot f = .ok slot ∧ slot < fields.length
  others : ∀ slot, (∀ name ∈ Json.keys members, ∀ f, r.findField id name = .ok f →
    r.fieldSlot f ≠ .ok slot) → fields'[slot]? = fields[slot]?
  denotes : ∀ h'', h'.Keeps (h.objects.size ≤ ·) h'' →
    ∀ (name : String) (j : Json) (f : FieldRef) (fd : FieldDef) (slot : Nat) (x : Value),
      Json.member? name members = some j → r.findField id name = .ok f → r.field f = .ok fd →
      r.fieldSlot f = .ok slot → fields'[slot]? = some x → r.Denotes h'' j fd.ty x

/-- Without members the instance stays as it is. -/
theorem Filled.nil {t : Ty} {id : TypeId} {target : Value} {fields : List Value}
    (htarget : h.Instance t target id fields) : Filled r h h [] t id target target fields fields where
  instance' := htarget
  length := rfl
  same _ heq := heq
  keeps := .refl _
  found _ hname := absurd hname List.not_mem_nil
  others _ _ := rfl
  denotes _ _ _ _ _ _ _ _ hmember := nomatch hmember

/-- One member more, in front. -/
theorem Filled.cons (hr : r.Ordered) {h₁ h₂ : Heap} {rest : List (String × Json)} {t : Ty} {id : TypeId}
    {name : String} {j : Json} {f : FieldRef} {fd : FieldDef} {slot : Nat} {target target' x v : Value}
    {fields fields' : List Value} {layout : List Ty} (hlayout : r.layout id = .ok layout)
    (hlength : fields.length = layout.length) (htarget : h.Instance t target id fields)
    (hf : r.findField id name = .ok f) (hfd : r.field f = .ok fd) (hinstance : fd.isStatic = false)
    (hslot : r.fieldSlot f = .ok slot) (hgrows : h.Grows h₁)
    (hx : ∀ h'', h₁.Keeps (h.objects.size ≤ ·) h'' → r.Denotes h'' j fd.ty x)
    (hfill : fill target slot x h₁ = .ok (target', h₂))
    (hrest : Filled r h₂ h' rest t id target' v (fields.set slot x) fields') :
    Filled r h h' ((name, j) :: rest) t id target v fields fields' := by
  have hfield : r.InstanceField id f fd :=
    ⟨(Registry.findField_ok hf).1.isSubclass hr, hfd, hinstance⟩
  obtain ⟨slot', hslot', hlt, -⟩ := hfield.slot hr hlayout
  obtain rfl := Except.ok.inj (hslot.symm.trans hslot')
  have htarget₁ := htarget.keep hgrows fun _ _ => trivial
  obtain ⟨-, hkeeps, hsize, hsame⟩ := fill_ok htarget₁ hfill
  have hkeeps' : h₁.Keeps (fun ref => target ≠ .object ref) h' :=
    hkeeps.trans (hrest.keeps.mono fun ref hne heq => hne (hsame ref heq))
  -- The instance was there before the member was converted.
  have hold : ∀ ref, h.objects.size ≤ ref → target ≠ .object ref := by
    rintro ref hge rfl
    cases htarget with
    | object hcell => exact absurd (Array.getElem?_eq_some_iff.mp hcell).1 (Nat.not_lt.mpr hge)
  have hgrowth := hgrows.size_le
  refine ⟨hrest.instance', by rw [hrest.length, List.length_set],
    fun ref heq => hsame ref (hrest.same ref heq), (hgrows.mono fun _ _ => trivial).trans hkeeps', ?_, ?_, ?_⟩
  · intro name' hname
    rcases List.mem_cons.mp hname with rfl | hname
    · exact ⟨f, fd, slot, hf, hfield, hslot, hlength ▸ hlt⟩
    · simpa only [List.length_set] using hrest.found name' hname
  · intro i hi
    have hne : slot ≠ i := by
      rintro rfl
      exact hi name List.mem_cons_self f hf hslot
    rw [hrest.others i fun name' hname => hi name' (List.mem_cons_of_mem _ hname), List.getElem?_set_ne hne]
  · intro h'' hafter name' j' f' fd' slot' x' hmember hf' hfd' hslot' hx'
    rw [Json.member?] at hmember
    cases hlater : Json.member? name' rest with
    | some found =>
        rw [hlater] at hmember
        cases hmember
        refine hrest.denotes h'' (hafter.mono fun ref hge => ?_) name' _ f' fd' slot' x' hlater hf' hfd'
          hslot' hx'
        omega
    | none =>
        rw [hlater] at hmember
        obtain ⟨rfl, heq⟩ := Option.ite_none_right_eq_some.mp hmember
        cases heq
        obtain rfl := Except.ok.inj (hf.symm.trans hf')
        obtain rfl := Except.ok.inj (hfd.symm.trans hfd')
        obtain rfl := Except.ok.inj (hslot.symm.trans hslot')
        -- No later member names a field in this slot.
        have hlast : ∀ name' ∈ Json.keys rest, ∀ g, r.findField id name' = .ok g →
            r.fieldSlot g ≠ .ok slot := by
          intro name' hname g hg hgslot
          obtain ⟨g', gd, slot', hg', hgfield, -⟩ := hrest.found name' hname
          obtain rfl := Except.ok.inj (hg.symm.trans hg')
          obtain rfl := Registry.findField_unique hr hg hf hgfield hfield hgslot hslot
          obtain ⟨j', hj'⟩ := Json.exists_member?_of_mem hname
          rw [hlater] at hj'
          cases hj'
        rw [hrest.others slot hlast, List.getElem?_set_self (hlength ▸ hlt)] at hx'
        cases hx'
        exact hx h'' ((hkeeps'.mono hold).trans hafter)

/-- An instance that is filled from zero is what the object says. -/
theorem Filled.denotes_obj {h₁ h'' : Heap} {members : List (String × Json)} {t : Ty} {id : TypeId}
    {target v : Value} {fields fields' : List Value} {layout : List Ty} (hlayout : r.layout id = .ok layout)
    (hzeros : layout.mapM r.zero = .ok fields) (hgrows : h.Grows h₁)
    (hnew : ∀ ref, target = .object ref → ref = h.objects.size)
    (hfilled : Filled r h₁ h' members t id target v fields fields')
    (hafter : h'.Keeps (h.objects.size ≤ ·) h'') : r.Denotes h'' (.obj members) t v := by
  have hall := Registry.forall₂_of_mapM hzeros
  have hlength : fields'.length = layout.length := hfilled.length.trans hall.length_eq.symm
  have hgrowth := hgrows.size_le
  refine .instance (hfilled.instance'.keep hafter fun ref heq => ?_)
    ⟨⟨layout, hlayout, hlength, fun slot ty x hty hx hothers => ?_⟩, ?_⟩
    (hfilled.denotes h'' (hafter.mono fun ref hge => Nat.le_trans hgrowth hge))
  · exact Nat.le_of_eq (hnew ref (hfilled.same ref heq)).symm
  · rw [hfilled.others slot hothers] at hx
    exact rel_of_forall₂ hall hty hx
  · simpa only [hfilled.length] using hfilled.found

mutual

/-- A conversion is faithful if no member names a static field. -/
theorem faithful_value (hr : r.Ordered) : ∀ (j : Json) (t : Ty) (what : String),
    (∀ fd, j.Fills r t fd → fd.isStatic = false) → Faithful r j t (value r j t what)
  | .arr items, t, what, hinstance => by
      have hitems := faithful_values hr items
      unfold value
      dsimp only
      split
      · next elem hcore =>
        intro h h' v hx
        obtain ⟨vs, h₁, hvalues, hrest⟩ := ok_of_bind hx
        obtain ⟨hgrows, hlength, hdenotes⟩ := hitems elem what 0 h h₁ vs
          (fun j hj fd hfills => hinstance fd (.item (.inl hcore) hj hfills)) hvalues
        cases hrest
        refine ⟨hgrows.trans (h₁.grows_newArray _), fun h'' hafter => ?_⟩
        refine denotes_wrap (j := .arr items) nofun t ?_
        rw [hcore]
        refine .array (hafter.arrays _ _ Array.getElem?_push_size) hlength ?_
        exact hdenotes h'' (((h₁.grows_newArray _).mono fun _ _ => trivial).trans hafter)
      · next elem hcore =>
        intro h h' v hx
        obtain ⟨vs, h₁, hvalues, hrest⟩ := ok_of_bind hx
        obtain ⟨hgrows, hlength, hdenotes⟩ := hitems elem what 0 h h₁ vs
          (fun j hj fd hfills => hinstance fd (.item (.inr hcore) hj hfills)) hvalues
        cases hrest
        refine ⟨hgrows.trans (h₁.grows_newList _), fun h'' hafter => ?_⟩
        refine denotes_wrap (j := .arr items) nofun t ?_
        rw [hcore]
        refine .list (hafter.lists _ _ Array.getElem?_push_size) hlength ?_
        exact hdenotes h'' (((h₁.grows_newList _).mono fun _ _ => trivial).trans hafter)
      · exact .badValue _ _ _
  | .obj members, t, what, hinstance => by
      have hmembers := faithful_fields hr members
      -- Classes and structs differ in how a zeroed instance is made only.
      have hobj : ∀ {id : TypeId} {own : Ty}, own = .classTy id ∨ own = .structTy id → t.core = own →
          Faithful r (.obj members) t (do
            let v ← fields r members id what (← fresh r own)
            pure (wrap (layers t) v)) := by
        intro id own hown hcore h h' v hx
        obtain ⟨target, h₁, hfresh, hrest⟩ := ok_of_bind hx
        obtain ⟨v', h₂, hfields, hdone⟩ := ok_of_bind hrest
        cases hdone
        obtain ⟨layout, zeros, hlayout, hzeros, htarget, hgrows, hnew⟩ := fresh_ok hr hown hfresh
        obtain ⟨filled, hfilled⟩ := hmembers id what target h₁ h' v' own zeros layout hlayout
          (Registry.forall₂_of_mapM hzeros).length_eq.symm htarget
          (fun name j f fd hj hf hfd => ⟨hinstance fd (.member (hcore ▸ hown) hj hf hfd),
            fun inner hfills => hinstance inner (.inside (hcore ▸ hown) hj hf hfd hfills)⟩) hfields
        refine ⟨⟨fun ref c _ hc => ?_, fun ref c hc => ?_, fun ref c hc => ?_⟩, fun h'' hafter => ?_⟩
        · refine hfilled.keeps.objects ref c (fun heq => ?_) (hgrows.objects ref c trivial hc)
          rw [hnew ref heq] at hc
          rw [Array.getElem?_eq_none (Nat.le_refl _)] at hc
          cases hc
        · exact hfilled.keeps.arrays ref c (hgrows.arrays ref c hc)
        · exact hfilled.keeps.lists ref c (hgrows.lists ref c hc)
        · refine denotes_wrap (j := .obj members) nofun t ?_
          rw [hcore]
          exact hfilled.denotes_obj hlayout hzeros hgrows hnew hafter
      unfold value
      dsimp only
      split
      · next id hcore => exact hobj (.inl rfl) hcore
      · next id hcore => exact hobj (.inr rfl) hcore
      · exact .badValue _ _ _
  | .null, t, what, _ => faithful_scalar .null nofun nofun t what
  | .bool x, t, what, _ => faithful_scalar (.bool x) nofun nofun t what
  | .int x, t, what, _ => faithful_scalar (.int x) nofun nofun t what
  | .float x, t, what, _ => faithful_scalar (.float x) nofun nofun t what
  | .str x, t, what, _ => faithful_scalar (.str x) nofun nofun t what
  | .unreadable, t, what, _ => faithful_scalar .unreadable nofun nofun t what
  termination_by structural j => j

/-- The items of an array or list are converted one after the other. -/
theorem faithful_values (hr : r.Ordered) : ∀ (items : List Json) (elem : Ty) (what : String) (index : Nat)
    (h h' : Heap) (vs : List Value), (∀ j ∈ items, ∀ fd, j.Fills r elem fd → fd.isStatic = false) →
    values r items elem what index h = .ok (vs, h') →
    h.Grows h' ∧ vs.length = items.length ∧ ∀ h'', h'.Keeps (h.objects.size ≤ ·) h'' →
      ∀ (i : Nat) (j : Json) (v : Value), items[i]? = some j → vs[i]? = some v → r.Denotes h'' j elem v
  | [], _, _, _, h, h', vs, _, hx => by
      cases hx
      exact ⟨.refl _, rfl, fun _ _ _ _ _ hj => nomatch hj⟩
  | j :: rest, elem, what, index, h, h', vs, hinstance, hx => by
      obtain ⟨v, h₁, hv, hrest⟩ := ok_of_bind (x := value r j elem _) hx
      obtain ⟨vs', h₂, hvs, hdone⟩ := ok_of_bind (x := values r rest elem what _) hrest
      cases hdone
      obtain ⟨hgrows, hdenotes⟩ := faithful_value hr j elem _ (hinstance j List.mem_cons_self) h h₁ v hv
      obtain ⟨hgrows', hlength, hothers⟩ := faithful_values hr rest elem what _ h₁ h' vs'
        (fun j hj => hinstance j (List.mem_cons_of_mem _ hj)) hvs
      refine ⟨hgrows.trans hgrows', by rw [List.length_cons, List.length_cons, hlength], ?_⟩
      intro h'' hafter i j' v' hj hv'
      cases i with
      | zero =>
          cases hj
          cases hv'
          exact hdenotes h'' ((hgrows'.mono fun _ _ => trivial).trans hafter)
      | succ i =>
          exact hothers h'' (hafter.mono fun ref hge => Nat.le_trans hgrows.size_le hge) i j' v' hj hv'
  termination_by structural items => items

/-- The members of an object are converted one after the other, each into its field. -/
theorem faithful_fields (hr : r.Ordered) : ∀ (members : List (String × Json)) (id : TypeId) (what : String)
    (target : Value) (h h' : Heap) (v : Value) (t : Ty) (fs : List Value) (layout : List Ty),
    r.layout id = .ok layout → fs.length = layout.length → h.Instance t target id fs →
    (∀ name j f fd, (name, j) ∈ members → r.findField id name = .ok f → r.field f = .ok fd →
      fd.isStatic = false ∧ ∀ inner, j.Fills r fd.ty inner → inner.isStatic = false) →
    fields r members id what target h = .ok (v, h') →
    ∃ fs', Filled r h h' members t id target v fs fs'
  | [], id, _, target, h, h', v, t, fs, layout, _, _, htarget, _, hx => by
      cases hx
      exact ⟨fs, .nil htarget⟩
  | (name, j) :: rest, id, what, target, h, h', v, t, fs, layout, hlayout, hlength, htarget, hinstance,
      hx => by
      obtain ⟨f, h₁, hfirst, hx₁⟩ := ok_of_bind (x := ofLookup (r.findField id name)) hx
      obtain ⟨hf, rfl⟩ := ofLookup_ok hfirst
      obtain ⟨fd, h₂, hsecond, hx₂⟩ := ok_of_bind (x := ofLookup (r.field f)) hx₁
      obtain ⟨hfd, rfl⟩ := ofLookup_ok hsecond
      obtain ⟨slot, h₃, hthird, hx₃⟩ := ok_of_bind (x := ofLookup (r.fieldSlot f)) hx₂
      obtain ⟨hslot, rfl⟩ := ofLookup_ok hthird
      obtain ⟨x, h₄, hvalue, hx₄⟩ := ok_of_bind (x := value r j fd.ty _) hx₃
      obtain ⟨target', h₅, hfill, hrest⟩ := ok_of_bind (x := fill target slot x) hx₄
      obtain ⟨hown, hinner⟩ := hinstance name j f fd List.mem_cons_self hf hfd
      obtain ⟨hgrows, hdenotes⟩ := faithful_value hr j fd.ty _ hinner _ _ _ hvalue
      obtain ⟨htarget', -⟩ := fill_ok (htarget.keep hgrows fun _ _ => trivial) hfill
      obtain ⟨fs', hfilled⟩ := faithful_fields hr rest id what target' h₅ h' v t (fs.set slot x) layout
        hlayout (by rw [List.length_set, hlength]) htarget'
        (fun name j f fd hmem => hinstance name j f fd (List.mem_cons_of_mem _ hmem)) hrest
      exact ⟨fs', .cons hr hlayout hlength htarget hf hfd hown hslot hgrows hdenotes hfill hfilled⟩
  termination_by structural members => members

end

end Convert

/-- Conversions are sound.  A value that JSON was converted to is of the type, with everything that it
holds, and it is what the JSON value says: numbers have the declared kind, and integers their exact value,
optionals are wrapped, items follow each other, instances are laid out as their types say, members of
objects are in the slots of the fields that they name, own or inherited, and all other slots are zero.  The
cells that were on the heap before stay as they are. -/
theorem Json.toValue_sound {ds : List TypeDecl} {r : Registry} (hds : Registry.ofDecls ds = .ok r) {j : Json}
    {t : Ty} (hinstance : ∀ fd, j.canonical.Fills r t fd → fd.isStatic = false) {what : String}
    {h h' : Heap} {v : Value} (hv : j.toValue r t what h = .ok (v, h')) :
    r.Inhabits h' t v ∧ r.Denotes h' j.canonical t v ∧ h.Grows h' := by
  have hr := Registry.ordered_of_ofDecls hds
  obtain ⟨hgrows, hdenotes⟩ := Convert.faithful_value hr j.canonical t what hinstance h h' v hv
  have hv' : r.Denotes h' j.canonical t v := hdenotes h' (.refl _)
  exact ⟨hv'.inhabits hr, hv', hgrows⟩

/-- The fields that members name are declared. -/
theorem Json.Fills.declared {r : Registry} {j : Json} {t : Ty} {fd : FieldDef} (h : j.Fills r t fd) :
    ∃ f, r.field f = .ok fd := by
  induction h with
  | item _ _ _ ih => exact ih
  | member _ _ _ hfd => exact ⟨_, hfd⟩
  | inside _ _ _ _ _ ih => exact ih

/-- A class, one derived from it with a list of optionals and a struct, and the struct. -/
def pathDecls : List TypeDecl :=
  [⟨"Shape", .classKind, none, [⟨"name", .str, false⟩], []⟩,
    ⟨"Path", .classKind, some "Shape",
      [⟨"marks", .list (.nullable .int), false⟩, ⟨"corner", .structTy 10, false⟩], []⟩,
    ⟨"Point", .structKind, none, [⟨"x", .int, false⟩, ⟨"y", .int, false⟩], []⟩]

/-- A path whose corner is given in part. -/
def pathJson : Json :=
  .obj [("marks", .arr [.int 1, .null]), ("name", .str "p"), ("corner", .obj [("y", .int 2)])]

/-- The path is converted to a value of its class. -/
theorem Json.toValue_sound_path : ∃ r v h, Registry.ofDecls pathDecls = .ok r ∧
    pathJson.toValue r (.classTy 9) "path" .empty = .ok (v, h) ∧ r.Inhabits h (.classTy 9) v ∧
    r.Denotes h pathJson.canonical (.classTy 9) v := by
  have haccepted : (Registry.ofDecls pathDecls).toOption.any (fun r =>
      (pathJson.toValue r (.classTy 9) "path" .empty).toOption.isSome &&
        r.types.all fun d => d.fields.all fun fd => !fd.isStatic) = true := by decide +kernel
  cases hr : Registry.ofDecls pathDecls with
  | error e =>
      rw [hr] at haccepted
      cases haccepted
  | ok r =>
      rw [hr] at haccepted
      obtain ⟨hconverted, hall⟩ := Bool.and_eq_true_iff.mp haccepted
      have hinstance : ∀ fd, pathJson.canonical.Fills r (.classTy 9) fd → fd.isStatic = false := by
        intro fd hfills
        obtain ⟨f, hf⟩ := hfills.declared
        obtain ⟨d, hd, hfd⟩ := Registry.field_eq hf
        have hd := Array.all_eq_true_iff_forall_mem.mp hall d (Array.mem_of_getElem? hd)
        simpa using Array.all_eq_true_iff_forall_mem.mp hd fd (Array.mem_of_getElem? hfd)
      cases hv : pathJson.toValue r (.classTy 9) "path" .empty with
      | error e =>
          rw [hv] at hconverted
          cases hconverted
      | ok p =>
          obtain ⟨hinhabits, hdenotes, -⟩ := Json.toValue_sound hr hinstance hv
          exact ⟨r, p.1, p.2, rfl, hv, hinhabits, hdenotes⟩

end Arbor
