/-
  Chains of places, and what extension makes of them.

  A chain leads from a variable, a static field or a closure variable through
  fields, properties that are backed by fields, and elements to a storage cell.
  `Located` says how a chain is followed where what is missing is created on the way:
  null is replaced by a new instance, and a container that is too short is replaced
  or padded.  Up to the first change the memory is the one before, and behind it
  there are only zeros of new cells; so no cell off the chain changes.
-/
import Arbor.Proofs.Machine.Cells
import Arbor.Proofs.FieldLayouts

set_option autoImplicit false

namespace Arbor

/-! ## Chains -/

/-- What a chain starts at. -/
inductive Chain.Root where
  | variable (id : VarId)
  | static (f : FieldRef)
  | closure (index : Nat)

/-- A step from an object, array or list to a cell that is a part of it. -/
inductive Chain.Link where
  | field (f : FieldRef)
  /-- A property whose accessors read and write a field. -/
  | property (p : PropertyRef) (backing : FieldRef)
  | element (index : IndexWord)

/-- Places one within the other, each with its type. -/
inductive Chain where
  | root (x : Chain.Root) (ty : Ty)
  | link (receiver : Chain) (l : Chain.Link) (ty : Ty)

/-- Where the code finds what chains start at. -/
structure Chain.Site where
  scope : Scope
  /-- The argument that holds the closure environment. -/
  table : Option Nat

namespace Chain

/-- Type of the last place. -/
def ty : Chain → Ty
  | root _ ty | link _ _ ty => ty

/-- The field that a step leads to. -/
def Link.field? : Link → Option FieldRef
  | .field f | .property _ f => some f
  | .element _ => none

/-- The cell that a step leads to from a value. -/
def Link.cell? (r : Registry) (l : Link) (v : Value) : Option Cell :=
  match l with
  | .field f | .property _ f =>
      match v, r.fieldSlot f with
      | .object ref, .ok slot => some (.field ref slot)
      | _, _ => none
  | .element w => v.cellAt? w.val.toNat

/-- The variable that holds the closure environment. -/
def Root.table (e : Site) : Root → List Cell
  | .closure _ => (e.table.map fun n => Cell.var (.arg n)).toList
  | _ => []

/-- The cell of a root. -/
def Root.cell? (e : Site) (m : Memory) : Root → Option Cell
  | .variable id => (e.scope.lookup id).map fun x => .var x.1
  | .static f => some (.static f)
  | .closure i => (e.table.bind fun n => m.args[n]?).bind fun v =>
      match v with
      | .array ref => some (.elem ref i)
      | _ => none

variable (r : Registry) (e : Site) (m : Memory)

/-- The cell that the chain leads to. -/
def cell? : Chain → Option Cell
  | root x _ => x.cell? e m
  | link c l _ => (c.cell?.bind (m.cell? r)).bind (l.cell? r)

/-- The value at the end of the chain. -/
def value? (c : Chain) : Option Value := (c.cell? r e m).bind (m.cell? r)

/-- The cells on the way to the last one. -/
def support : Chain → List Cell
  | root x _ => x.table e
  | link c _ _ => c.support ++ (c.cell? r e m).toList

/-- The cells on the chain, as far as it can be followed. -/
def cells (c : Chain) : List Cell := c.support r e m ++ (c.cell? r e m).toList

/-- The objects, arrays and lists on the way are pairwise distinct. -/
def Distinct (c : Chain) : Prop := ((c.cells r e m).map Cell.holder).Nodup

/-- The first chain is a beginning of the second one. -/
inductive Within (c : Chain) : Chain → Prop
  | refl : Within c c
  | link {d : Chain} (h : Within c d) (l : Link) (ty : Ty) : Within c (link d l ty)

variable {r e m} {n : Memory} {c d : Chain} {k : Cell}

/-- A chain leads to the same cell as long as the cells on the way hold the same. -/
theorem cell?_congr (h : ∀ k ∈ c.support r e m, n.cell? r k = m.cell? r k) :
    c.cell? r e n = c.cell? r e m ∧ c.support r e n = c.support r e m := by
  induction c with
  | root x ty =>
      refine ⟨?_, rfl⟩
      cases x with
      | closure i =>
          cases htable : e.table with
          | none => simp [cell?, Root.cell?, htable]
          | some a =>
              have ha : n.args[a]? = m.args[a]? := h (.var (.arg a)) (by simp [support, Root.table, htable])
              simp [cell?, Root.cell?, htable, ha]
      | _ => rfl
  | link c l ty ih =>
      obtain ⟨hcell, hsupport⟩ := ih fun k hk => h k (List.mem_append_left _ hk)
      refine ⟨?_, by rw [support, support, hcell, hsupport]⟩
      rw [cell?, cell?, hcell]
      cases hk : c.cell? r e m with
      | none => rfl
      | some k =>
          have hvalue := h k (List.mem_append_right _ (by simp [hk]))
          rw [Option.bind_some, Option.bind_some, hvalue]

theorem mem_cells (h : c.cell? r e m = some k) : k ∈ c.cells r e m :=
  List.mem_append_right _ (by simp [h])

theorem Within.support_subset (h : c.Within d) : c.support r e m ⊆ d.support r e m := by
  induction h with
  | refl => exact List.Subset.refl _
  | link _ l ty ih => exact fun k hk => List.mem_append_left _ (ih hk)

/-- A step leads to a part of what it starts from. -/
theorem Link.holder_of_cell? {l : Link} {v : Value} (h : l.cell? r v = some k) : k.holder = some v := by
  cases l with
  | field f | property p f =>
    simp only [cell?] at h
    split at h
    · cases h
      rfl
    · cases h
  | element w =>
      cases v with
      | array ref | list ref =>
        cases h
        rfl
      | _ => cases h

theorem Link.cell?_null (l : Link) : l.cell? r .null = none := by
  cases l <;> rfl

end Chain

/-! ## What is created -/

/-- A new empty instance of a type, and the heap with it. -/
inductive Registry.Fresh (r : Registry) (h : Heap) : Ty → Heap → Value → Prop
  | object {id : TypeId} {layout : List Ty} {zeros : List Value} (hlayout : r.layout id = .ok layout)
      (hzeros : layout.mapM r.zero = .ok zeros) :
      Fresh r h (.classTy id) (h.newObject ⟨id, zeros.toArray⟩).2 (.object h.objects.size)
  | array {elem : Ty} : Fresh r h (.array elem) (h.newArray ⟨elem, [0], #[]⟩).2 (.array h.arrays.size)
  | list {elem : Ty} : Fresh r h (.list elem) (h.newList ⟨elem, #[]⟩).2 (.list h.lists.size)

/-- A cell holds a value that is there; null is replaced by a new instance first. -/
inductive Memory.Made (r : Registry) (ty : Ty) (m : Memory) (k : Cell) : Memory → Value → Prop
  | present {v : Value} (hv : m.cell? r k = some v) (hpresent : v.isAbsent = false) : Made r ty m k m v
  | fresh {h : Heap} {v : Value} (hnull : m.cell? r k = some .null) (hnew : r.Fresh m.heap ty h v) :
      Made r ty m k ((m.shared h m.statics).setCell k v) v

/-- The container in a cell reaches an index: one that is too short is padded with zeros, an array by
putting a longer one in its place.  The last cell is that of the element. -/
inductive Memory.Reached (r : Registry) (w : IndexWord) (m : Memory) (k : Cell) :
    Value → Memory → Cell → Prop
  | within {v : Value} {count : Nat} {cell : Cell} (hlength : m.heap.length? v = some count)
      (hlt : w.val < count) (hcell : v.cellAt? w.val.toNat = some cell) : Reached r w m k v m cell
  | array {ref : Ref} {c : ArrayCell} {zero : Value} (hc : m.heap.arrays[ref]? = some c)
      (hshort : c.size ≤ w.val) (hzero : r.zero c.elem = .ok zero) :
      Reached r w m k (.array ref)
        ((m.shared (m.heap.newArray ⟨c.elem, [w.val.toNat + 1],
          padded c.data (w.val.toNat + 1) zero⟩).2 m.statics).setCell k (.array m.heap.arrays.size))
        (.elem m.heap.arrays.size w.val.toNat)
  | list {ref : Ref} {c : ListCell} {zero : Value} (hc : m.heap.lists[ref]? = some c)
      (hshort : c.items.size ≤ w.val) (hzero : r.zero c.elem = .ok zero) :
      Reached r w m k (.list ref)
        (m.shared (m.heap.setItems ref (padded c.items (w.val.toNat + 1) zero)) m.statics)
        (.item ref w.val.toNat)

/-- Following a chain and creating what is missing leads to the memory and the cell. -/
inductive Chain.Located (r : Registry) (e : Chain.Site) (m : Memory) : Chain → Memory → Cell → Prop
  | root {x : Root} {ty : Ty} {k : Cell} (hcell : x.cell? e m = some k) : Located r e m (.root x ty) m k
  | field {c : Chain} {l : Link} {f : FieldRef} {ty : Ty} {n n' : Memory} {k : Cell} {ref : Ref} {slot : Nat}
      (hf : l.field? = some f) (hc : Located r e m c n k) (hmade : Memory.Made r c.ty n k n' (.object ref))
      (hslot : r.fieldSlot f = .ok slot) : Located r e m (.link c l ty) n' (.field ref slot)
  | element {c : Chain} {w : IndexWord} {ty : Ty} {n n' n'' : Memory} {k cell : Cell} {v : Value}
      (hc : Located r e m c n k) (hmade : Memory.Made r c.ty n k n' v)
      (hreached : Memory.Reached r w n' k v n'' cell) : Located r e m (.link c (.element w) ty) n'' cell

/-! ## Chains that can be extended -/

/-- Instances of the type can be created without arguments: classes have an implicit constructor, and
there are zeros for what is in the instance. -/
inductive Registry.Creates (r : Registry) : Ty → Prop
  | classTy {id : TypeId} {i : Nat} {d : MethodDef} {layout : List Ty} {zeros : List Value}
      (hctor : r.defaultCtor? id = some (.method id i)) (hd : r.method id i = .ok d)
      (hkind : d.kind = .ctor) (hparams : d.params = []) (hbody : d.body = .empty)
      (hown : r.tyOf id = .ok (.classTy id)) (hlayout : r.layout id = .ok layout)
      (hzeros : layout.mapM r.zero = .ok zeros) : Creates r (.classTy id)
  | array {elem : Ty} {zero : Value} (hzero : r.zero elem = .ok zero) : Creates r (.array elem)
  | list {elem : Ty} {zero : Value} (hzero : r.zero elem = .ok zero) : Creates r (.list elem)

/-- The getter and the setter of a property of instances read and write a field. -/
inductive Registry.AutoProperty (r : Registry) (p : PropertyRef) (f : FieldRef) : Prop
  | intro {d : PropertyDef} {g s : Nat} {own : Ty} {getter setter param : String}
      (hd : r.property p = .ok d) (hinstance : d.isStatic = false) (hparams : d.indexParams = [])
      (hvoid : d.ty.isVoid = false) (hown : r.tyOf p.ty = .ok own)
      (hgetter : d.getter = some (.method p.ty g)) (hsetter : d.setter = some (.method p.ty s))
      (hget : r.method p.ty g = .ok ⟨getter, [], d.ty, .member, .getter f⟩)
      (hset : r.method p.ty s = .ok ⟨setter, [⟨param, d.ty, false⟩], .void, .member, .setter f⟩) :
      AutoProperty r p f

/-- A step from values of a type to cells of a type. -/
inductive Chain.Link.Typed (r : Registry) : Link → Ty → Ty → Prop
  | field {id : TypeId} {f : FieldRef} {d : FieldDef} (hf : r.InstanceField id f d) :
      Typed r (.field f) (.classTy id) d.ty
  | property {id : TypeId} {p : PropertyRef} {f : FieldRef} {d : FieldDef} (hp : r.AutoProperty p f)
      (hf : r.InstanceField id f d) : Typed r (.property p f) (.classTy id) d.ty
  | array {elem : Ty} {w : IndexWord} (hlow : 0 ≤ w.val) (hhigh : w.val < IntKind.i32.max) :
      Typed r (.element w) (.array elem) elem
  | list {elem : Ty} {w : IndexWord} (hlow : 0 ≤ w.val) (hhigh : w.val < IntKind.i32.max)
      (helem : elem.isVoid = false) : Typed r (.element w) (.list elem) elem

/-- All places on the way can be created, and each step fits the type before it. -/
def Chain.Typed (r : Registry) : Chain → Prop
  | .root _ _ => True
  | .link c l ty => c.Typed r ∧ r.Creates c.ty ∧ l.Typed r c.ty ty

/-- A reference of the type to something that is there. -/
inductive Registry.Refers (r : Registry) (h : Heap) : Ty → Value → Prop
  | object {id : TypeId} {ref : Ref} {c : ObjectCell} {layout : List Ty} (hc : h.objects[ref]? = some c)
      (hsub : r.isSubclass c.ty id = true) (hlayout : r.layout c.ty = .ok layout)
      (hsize : c.fields.size = layout.length) : Refers r h (.classTy id) (.object ref)
  | array {elem : Ty} {ref : Ref} {c : ArrayCell} (hc : h.arrays[ref]? = some c) (helem : c.elem = elem)
      (hdims : c.dims = [c.size]) (hsmall : c.size < Run.depthLimit) : Refers r h (.array elem) (.array ref)
  | list {elem : Ty} {ref : Ref} {c : ListCell} (hc : h.lists[ref]? = some c) (helem : c.elem = elem)
      (hsmall : c.items.size < Run.depthLimit) : Refers r h (.list elem) (.list ref)

/-- The root is there, and what is found on the way is null or a reference of the type. -/
def Chain.Fits (r : Registry) (e : Chain.Site) (m : Memory) : Chain → Prop
  | .root x _ => ∃ k, x.cell? e m = some k ∧ (m.cell? r k).isSome ∧
      (∀ k' ∈ x.table e, (m.cell? r k').isSome) ∧ ∀ ref i, k = .elem ref i → i < Run.depthLimit
  | .link c _ _ => c.Fits r e m ∧
      ∀ v, c.value? r e m = some v → v = .null ∨ r.Refers m.heap c.ty v

/-! ## Containers -/

/-- An array or list with so many elements of a type. -/
inductive Heap.Container (h : Heap) (elem : Ty) : Value → Nat → Prop
  | array {ref : Ref} {c : ArrayCell} (hc : h.arrays[ref]? = some c) (helem : c.elem = elem) :
      Container h elem (.array ref) c.size
  | list {ref : Ref} {c : ListCell} (hc : h.lists[ref]? = some c) (helem : c.elem = elem) :
      Container h elem (.list ref) c.items.size

namespace Heap.Container

variable {r : Registry} {m n : Memory} {elem : Ty} {v : Value} {count i : Nat} {k : Cell}

theorem length {h : Heap} (hv : h.Container elem v count) : h.length? v = some count := by
  cases hv with
  | array hc | list hc => simp [length?, hc]

theorem there (hv : m.heap.Container elem v count) (hi : i < count) (hk : v.cellAt? i = some k) :
    (m.cell? r k).isSome := by
  cases hv with
  | array hc =>
      cases hk
      simpa [Memory.cell?, elem?, hc, ArrayCell.size] using hi
  | list hc =>
      cases hk
      simpa [Memory.cell?, item?, hc] using hi

theorem none_of_le (hv : m.heap.Container elem v count) (hi : count ≤ i) (hk : v.cellAt? i = some k) :
    m.cell? r k = none := by
  cases hv with
  | array hc =>
      cases hk
      simpa [Memory.cell?, elem?, hc, ArrayCell.size] using hi
  | list hc =>
      cases hk
      simpa [Memory.cell?, item?, hc] using hi

theorem cellAt {h : Heap} (hv : h.Container elem v count) (i : Nat) :
    ∃ k, v.cellAt? i = some k ∧ k.holder = some v := by
  cases hv <;> exact ⟨_, rfl, rfl⟩

/-- It keeps its length unless it is a list that grows. -/
theorem keep {changed : Cell → Prop} {grown : Ref → Prop} (hv : m.heap.Container elem v count)
    (hextends : m.Extends r changed grown n) (hgrown : ∀ ref, v = .list ref → ¬ grown ref) :
    n.heap.Container elem v count := by
  cases hv with
  | array hc helem =>
      obtain ⟨c', hc', helem', -, hsize⟩ := hextends.arrays _ _ hc
      rw [← hsize]
      exact .array hc' (helem'.trans helem)
  | list hc helem =>
      obtain ⟨c', hc', helem', -, hsize⟩ := hextends.lists _ _ hc
      rw [← hsize (hgrown _ rfl)]
      exact .list hc' (helem'.trans helem)

end Heap.Container

/-! ## One change -/

namespace Registry

variable {r : Registry} {m n : Memory} {ty : Ty} {h : Heap} {v : Value} {k : Cell}

theorem Creates.zero (hty : r.Creates ty) : r.zero ty = .ok .null := by
  cases hty <;> rfl

theorem Fresh.grows {h₀ : Heap} (hnew : r.Fresh h₀ ty h v) : h₀.Grows h := by
  cases hnew with
  | object => exact Heap.grows_newObject _ _
  | array => exact Heap.grows_newArray _ _
  | list => exact Heap.grows_newList _ _

theorem Fresh.present {h₀ : Heap} (hnew : r.Fresh h₀ ty h v) : v.isAbsent = false := by
  cases hnew <;> rfl

theorem Fresh.cell?_eq_none (hnew : r.Fresh m.heap ty h v) (hk : k.holder = some v) :
    m.cell? r k = none := by
  cases hnew <;> cases k <;> cases hk
  · simp [Memory.cell?, Heap.field?]
  · simp [Memory.cell?, Heap.elem?]
  · simp [Memory.cell?, Heap.item?]

theorem Fresh.lists_eq_none {h₀ : Heap} {ref : Ref} (hnew : r.Fresh h₀ ty h (.list ref)) :
    h₀.lists[ref]? = none := by
  cases hnew
  exact Array.getElem?_eq_none (Nat.le_refl _)

/-- A field of a new object holds the zero of its type. -/
theorem Fresh.field (hord : r.Ordered) {id : TypeId} {ref : Ref} {f : FieldRef} {d : FieldDef} {slot : Nat}
    (hnew : r.Fresh m.heap (.classTy id) h (.object ref)) (hf : r.InstanceField id f d)
    (hslot : r.fieldSlot f = .ok slot) :
    ∃ z, r.zero d.ty = .ok z ∧ h.field? ref slot = some z := by
  cases hnew with
  | @object _ layout zeros hlayout hzeros =>
    obtain ⟨slot', hslot', hlt, hty⟩ := hf.slot hord hlayout
    obtain rfl := Except.ok.inj (hslot.symm.trans hslot')
    have hall := forall₂_of_mapM hzeros
    have hlt' : slot < zeros.length := by rwa [← hall.length_eq]
    refine ⟨zeros[slot], rel_of_forall₂ hall hty (List.getElem?_eq_getElem hlt'), ?_⟩
    simp [Heap.field?, Heap.newObject, hlt']

end Registry

namespace Memory

variable {r : Registry} {m n : Memory} {ty : Ty} {v : Value} {k cell : Cell} {w : IndexWord}

theorem extends_grow_setCell {h : Heap} (hgrows : m.heap.Grows h) (hk : (m.cell? r k).isSome) (v : Value) :
    m.Extends r (· = k) (fun _ => False) ((m.shared h m.statics).setCell k v) :=
  ((Extends.grow hgrows).mono nofun fun _ href => href).trans
    (.setCell ((Extends.grow hgrows).there k hk) v) (fun _ hk _ => hk) fun _ href _ => href

theorem cell?_grow_setCell {h : Heap} (hgrows : m.heap.Grows h) (hk : (m.cell? r k).isSome) (v : Value) :
    ((m.shared h m.statics).setCell k v).cell? r k = some v :=
  cell?_setCell_self ((Extends.grow hgrows).there k hk) v

namespace Made

theorem isPresent (hmade : Made r ty m k n v) : v.isAbsent = false := by
  cases hmade with
  | present _ hpresent => exact hpresent
  | fresh _ hnew => exact hnew.present

theorem «extends» (hmade : Made r ty m k n v) : m.Extends r (· = k) (fun _ => False) n := by
  cases hmade with
  | present => exact .refl _ _ _ _
  | fresh hnull hnew => exact extends_grow_setCell hnew.grows (by rw [hnull]; rfl) v

theorem value (hmade : Made r ty m k n v) : n.cell? r k = some v := by
  cases hmade with
  | present hv _ => exact hv
  | fresh hnull hnew => exact cell?_grow_setCell hnew.grows (by rw [hnull]; rfl) v

end Made

namespace Reached

/-- At most the cell of the container changes, or the container, if it is a list. -/
theorem «extends» (hreached : Reached r w m k v n cell) (hk : m.cell? r k = some v) :
    m.Extends r (· = k) (fun ref => v = .list ref) n := by
  have hthere : (m.cell? r k).isSome := by rw [hk]; rfl
  cases hreached with
  | within => exact .refl _ _ _ _
  | array hc hshort hzero =>
      exact (extends_grow_setCell (Heap.grows_newArray _ _) hthere _).mono (fun _ h => h) nofun
  | @list ref c zero hc hshort hzero =>
      have hpads := pads_padded c.items (w.val.toNat + 1) zero
      have hsize := Nat.le_trans (Nat.le_max_left _ _) (Nat.le_of_eq hpads.size.symm)
      refine (Extends.pad hc hsize hpads.kept).mono nofun ?_
      rintro _ rfl
      rfl

end Reached

end Memory

namespace Registry

variable {r : Registry} {m n : Memory} {ty elem : Ty} {v : Value} {k : Cell}

/-- The type of arrays or lists of a type. -/
inductive ContainerTy (elem : Ty) : Ty → Prop
  | array : ContainerTy elem (.array elem)
  | list : ContainerTy elem (.list elem)

theorem Refers.container {h : Heap} (hty : ContainerTy elem ty) (hv : r.Refers h ty v) :
    ∃ count, h.Container elem v count ∧ count < Run.depthLimit := by
  cases hty with
  | array =>
      cases hv with
      | array hc helem _ hsmall => exact ⟨_, .array hc helem, hsmall⟩
  | list =>
      cases hv with
      | list hc helem hsmall => exact ⟨_, .list hc helem, hsmall⟩

theorem Fresh.container {h₀ h : Heap} (hty : ContainerTy elem ty) (hnew : r.Fresh h₀ ty h v) :
    h.Container elem v 0 := by
  cases hty with
  | array =>
      cases hnew with
      | array => exact .array (c := ⟨elem, [0], #[]⟩) (by simp [Heap.newArray]) rfl
  | list =>
      cases hnew with
      | list => exact .list (c := ⟨elem, #[]⟩) (by simp [Heap.newList]) rfl

end Registry

namespace Memory

variable {r : Registry} {m n : Memory} {ty elem : Ty} {v : Value} {k cell : Cell} {w : IndexWord}
  {count : Nat}

/-- A container that was made is an old one or an empty new one. -/
theorem Made.container (hty : Registry.ContainerTy elem ty) (hmade : Made r ty m k n v)
    (hrefers : m.cell? r k = some v → r.Refers m.heap ty v) :
    ∃ count, n.heap.Container elem v count ∧ count < Run.depthLimit := by
  cases hmade with
  | present hv _ => exact (hrefers hv).container hty
  | @fresh h _ hnull hnew =>
      have hthere : (m.cell? r k).isSome := by rw [hnull]; rfl
      have hgrown := (Extends.grow (r := r)
        hnew.grows).there k hthere
      exact ⟨0, (hnew.container hty : (m.shared h m.statics).heap.Container elem v 0).keep
        (.setCell hgrown v) fun _ _ h => h, by decide⟩

namespace Reached

/-- The cell is an element of the container that is in the other cell from then on. -/
theorem element (hreached : Reached r w m k v n cell) (hk : m.cell? r k = some v) :
    ∃ v', n.cell? r k = some v' ∧ v'.cellAt? w.val.toNat = some cell ∧ cell.holder = some v' := by
  have hthere : (m.cell? r k).isSome := by rw [hk]; rfl
  cases hreached with
  | @within _ _ _ hlength hlt hcell =>
      refine ⟨v, hk, hcell, ?_⟩
      cases v <;> cases hcell <;> rfl
  | array hc hshort hzero => exact ⟨_, cell?_grow_setCell (Heap.grows_newArray _ _) hthere _, rfl, rfl⟩
  | @list ref c zero hc hshort hzero =>
      refine ⟨_, ?_, rfl, rfl⟩
      have hpads := pads_padded c.items (w.val.toNat + 1) zero
      have hsize := Nat.le_trans (Nat.le_max_left _ _) (Nat.le_of_eq hpads.size.symm)
      exact (Extends.pad (r := r) hc hsize hpads.kept).cells k _ id hk

/-- Either the index was reached before, or the element is a new cell with a zero in it. -/
theorem old_or_zero (hreached : Reached r w m k v n cell) (hk : m.cell? r k = some v) (hlow : 0 ≤ w.val)
    (hv : m.heap.Container elem v count) :
    (n = m ∧ w.val < count ∧ v.cellAt? w.val.toNat = some cell) ∨
      (count ≤ w.val ∧ m.cell? r cell = none ∧
        ∃ z, r.zero elem = .ok z ∧ n.cell? r cell = some z) := by
  have hthere : (m.cell? r k).isSome := by rw [hk]; rfl
  cases hreached with
  | within hlength hlt hcell =>
      obtain rfl := Option.some.inj (hlength.symm.trans hv.length)
      exact .inl ⟨rfl, hlt, hcell⟩
  | @array ref c zero hc hshort hzero =>
      cases hv with
      | @array _ c' hc' helem =>
        obtain rfl := Option.some.inj (hc.symm.trans hc')
        have hnone : m.cell? r (.elem m.heap.arrays.size w.val.toNat) = none := by
          simp [cell?, Heap.elem?]
        refine .inr ⟨hshort, hnone, zero, helem ▸ hzero, ?_⟩
        have hne : Cell.elem m.heap.arrays.size w.val.toNat ≠ k := by
          rintro rfl
          rw [hnone] at hthere
          cases hthere
        rw [cell?_setCell_ne hne]
        have hfilled := (pads_padded c.data (w.val.toNat + 1) zero).filled w.val.toNat
          (by simp only [ArrayCell.size] at hshort; omega) (Nat.lt_succ_self _)
        simp [cell?, shared, Heap.elem?, Heap.newArray, hfilled]
  | @list ref c zero hc hshort hzero =>
      cases hv with
      | @list _ c' hc' helem =>
        obtain rfl := Option.some.inj (hc.symm.trans hc')
        refine .inr ⟨hshort, ?_, zero, helem ▸ hzero, ?_⟩
        · simp only [cell?, Heap.item?, hc, Option.bind_eq_bind, Option.bind_some, Array.getElem?_eq_none_iff]
          omega
        · have hfilled := (pads_padded c.items (w.val.toNat + 1) zero).filled w.val.toNat (by omega)
            (Nat.lt_succ_self _)
          simp [cell?, shared, Heap.item?, Heap.lists_setItems hc, hfilled]

end Reached

end Memory

/-! ## The course of a chain -/

namespace Chain

variable {r : Registry} {e : Site} {m n n' : Memory} {c : Chain} {k : Cell} {l : Link} {ty : Ty}

theorem Link.Typed.of_element {w : IndexWord} {ty' : Ty} (h : (Link.element w).Typed r ty ty') :
    Registry.ContainerTy ty' ty ∧ 0 ≤ w.val ∧ w.val < IntKind.i32.max := by
  cases h with
  | array hlow hhigh => exact ⟨.array, hlow, hhigh⟩
  | list hlow hhigh _ => exact ⟨.list, hlow, hhigh⟩

/-- Steps lead to fields of objects. -/
theorem Link.Typed.of_field {f : FieldRef} {ty' : Ty} (h : l.Typed r ty ty') (hf : l.field? = some f) :
    ∃ id d, ty = .classTy id ∧ ty' = d.ty ∧ r.InstanceField id f d := by
  cases h with
  | field hfield =>
      cases hf
      exact ⟨_, _, rfl, rfl, hfield⟩
  | property hp hfield =>
      cases hf
      exact ⟨_, _, rfl, rfl, hfield⟩
  | array | list => cases hf

theorem Link.Typed.auto {p : PropertyRef} {f : FieldRef} {ty' : Ty} (h : (Link.property p f).Typed r ty ty') :
    r.AutoProperty p f := by
  cases h with
  | property hp _ => exact hp

/-- A step to a field leads to the slot of the field. -/
theorem Link.cell?_field {f : FieldRef} {slot : Nat} (hf : l.field? = some f) (hslot : r.fieldSlot f = .ok slot)
    (ref : Ref) : l.cell? r (.object ref) = some (.field ref slot) := by
  cases l with
  | field g | property p g =>
    cases hf
    simp [cell?, hslot]
  | element w => cases hf

/-- A field of an object of the type is there. -/
theorem Link.Typed.there (hord : r.Ordered) {f : FieldRef} {ty' : Ty} {ref : Ref} {slot : Nat}
    (h : l.Typed r ty ty') (hf : l.field? = some f) (hslot : r.fieldSlot f = .ok slot)
    (hv : r.Refers m.heap ty (.object ref)) : (m.cell? r (.field ref slot)).isSome := by
  obtain ⟨id, d, rfl, rfl, hfield⟩ := h.of_field hf
  cases hv with
  | @object _ _ o layout hc hsub hlayout hsize =>
    have hown : r.InstanceField o.ty f d := by
      refine ⟨?_, hfield.declared, hfield.ofInstances⟩
      exact (Registry.derives_iff.mpr ((Registry.isSubclass_iff hord).mp hsub |>.trans
        ((Registry.isSubclass_iff hord).mp hfield.subclass))).isSubclass hord
    obtain ⟨slot', hslot', hlt, -⟩ := hown.slot hord hlayout
    obtain rfl := Except.ok.inj (hslot.symm.trans hslot')
    simpa [Memory.cell?, Heap.field?, hc, hsize] using hlt

/-- A list that the chain leads through. -/
def Through (r : Registry) (e : Site) (m : Memory) (c : Chain) (ref : Ref) : Prop :=
  some (.list ref) ∈ (c.cells r e m).map Cell.holder

/-- How far the memory has changed when the chain has been followed: not at all, or the chain could not
be followed to its end before, and now leads to a new cell with a zero in it. -/
inductive Stage (r : Registry) (e : Site) (m : Memory) (c : Chain) : Memory → Cell → Prop
  | intact {k : Cell} (hcell : c.cell? r e m = some k) (hthere : (m.cell? r k).isSome) : Stage r e m c m k
  | zero {n : Memory} {k : Cell} {z : Value} (hvalue : c.value? r e m = none) (hnone : m.cell? r k = none)
      (hzero : r.zero c.ty = .ok z) (hz : n.cell? r k = some z) : Stage r e m c n k

namespace Stage

variable {v : Value}

theorem there (h : Stage r e m c n k) : (n.cell? r k).isSome := by
  cases h with
  | intact _ hthere => exact hthere
  | zero _ _ _ hz => rw [hz]; rfl

/-- What is made at the end of a chain was there before, or it is new and the chain cannot be followed
further in the memory before. -/
theorem made (h : Stage r e m c n k) (hcreates : r.Creates c.ty) (hmade : Memory.Made r c.ty n k n' v) :
    (n = m ∧ n' = m ∧ c.cell? r e m = some k ∧ m.cell? r k = some v) ∨
      ((∀ l : Link, ∀ x, (c.value? r e m).bind (l.cell? r) ≠ some x) ∧
        ∃ h, r.Fresh n.heap c.ty h v ∧ n' = (n.shared h n.statics).setCell k v ∧
          (n.cell? r k).isSome) := by
  cases hmade with
  | present hv hpresent =>
      cases h with
      | intact hcell hthere => exact .inl ⟨rfl, rfl, hcell, hv⟩
      | zero _ _ hzero hz =>
          obtain rfl := Except.ok.inj (hcreates.zero.symm.trans hzero)
          rw [hz] at hv
          cases hv
          cases hpresent
  | @fresh heap _ hnull hnew =>
      refine .inr ⟨fun l x hx => ?_, heap, hnew, rfl, h.there⟩
      cases h with
      | intact hcell hthere =>
          rw [value?, hcell, Option.bind_some, hnull, Option.bind_some, l.cell?_null] at hx
          cases hx
      | zero hvalue _ _ _ =>
          rw [hvalue] at hx
          cases hx

end Stage

/-- A cell that is not there now was not there before. -/
theorem none_before {changed : Cell → Prop} {grown : Ref → Prop} (h : m.Extends r changed grown n)
    (hk : n.cell? r k = none) : m.cell? r k = none := by
  cases hm : m.cell? r k with
  | none => rfl
  | some v =>
      have hthere := h.there k (by rw [hm]; rfl)
      rw [hk] at hthere
      cases hthere

theorem value?_link_of_none (h : ∀ x, (c.value? r e m).bind (l.cell? r) ≠ some x) (ty : Ty) :
    (link c l ty).value? r e m = none := by
  have hcell : (link c l ty).cell? r e m = none := Option.eq_none_iff_forall_ne_some.mpr h
  rw [value?, hcell]
  rfl

/-- Following a chain changes only cells on the way and lists that it leads through. -/
structure Course (r : Registry) (e : Site) (m : Memory) (c : Chain) (n : Memory) (k : Cell) : Prop where
  «extends» : m.Extends r (· ∈ c.support r e m) (c.Through r e m) n
  stage : Stage r e m c n k

namespace Course

variable {v : Value}

/-- What is made at the end of the chain. -/
theorem made (h : Course r e m c n k) (hmade : Memory.Made r c.ty n k n' v) :
    m.Extends r (· ∈ c.cells r e m) (c.Through r e m) n' := by
  refine (h.extends.mono (fun _ hk => List.mem_append_left _ hk) fun _ href => href).trans hmade.extends
    ?_ nofun
  rintro _ rfl hthere
  cases h.stage with
  | intact hcell _ => exact mem_cells hcell
  | zero _ hnone _ _ =>
      rw [hnone] at hthere
      cases hthere

theorem refers (h : Course r e m c n k) (hcreates : r.Creates c.ty)
    (hfits : ∀ v, c.value? r e m = some v → v = .null ∨ r.Refers m.heap c.ty v)
    (hv : n.cell? r k = some v) : v = .null ∨ r.Refers n.heap c.ty v := by
  cases h.stage with
  | intact hcell _ => exact hfits v (by rw [value?, hcell, Option.bind_some, hv])
  | zero _ _ hzero hz =>
      obtain rfl := Except.ok.inj (hcreates.zero.symm.trans hzero)
      rw [hz] at hv
      exact .inl (Option.some.inj hv).symm

/-- A step to a field. -/
theorem field (hord : r.Ordered) {f : FieldRef} {ref : Ref} {slot : Nat} (h : Course r e m c n k)
    (hcreates : r.Creates c.ty) (hl : l.Typed r c.ty ty)
    (hfits : ∀ v, c.value? r e m = some v → v = .null ∨ r.Refers m.heap c.ty v) (hf : l.field? = some f)
    (hmade : Memory.Made r c.ty n k n' (.object ref)) (hslot : r.fieldSlot f = .ok slot) :
    Course r e m (link c l ty) n' (.field ref slot) := by
  refine ⟨(h.made hmade).mono (fun _ hk => hk) fun _ href => ?_, ?_⟩
  · simp only [Through, cells, support, List.map_append, List.mem_append] at href ⊢
    exact .inl href
  rcases h.stage.made hcreates hmade with ⟨rfl, rfl, hcell, hv⟩ | ⟨hnone, heap, hnew, rfl, hthere⟩
  · refine .intact ?_ ?_
    · rw [cell?, hcell, Option.bind_some, hv, Option.bind_some, Link.cell?_field hf hslot]
    · rcases hfits _ (by rw [value?, hcell, Option.bind_some, hv]) with hnull | hrefers
      · cases hnull
      · exact hl.there hord hf hslot hrefers
  · obtain ⟨id, d, hid, rfl, hfield⟩ := hl.of_field hf
    rw [hid] at hnew
    have hold : n.cell? r (.field ref slot) = none := hnew.cell?_eq_none rfl
    obtain ⟨z, hz, hvalue⟩ := hnew.field hord hfield hslot
    refine .zero (value?_link_of_none (hnone l) _) (none_before h.extends hold) hz ?_
    have hne : Cell.field ref slot ≠ k := by
      rintro rfl
      rw [hold] at hthere
      cases hthere
    rw [Memory.cell?_setCell_ne hne]
    exact hvalue

/-- A step to an element. -/
theorem element {w : IndexWord} {cell : Cell} {n'' : Memory} (h : Course r e m c n k)
    (hcreates : r.Creates c.ty) (hl : (Link.element w).Typed r c.ty ty)
    (hfits : ∀ v, c.value? r e m = some v → v = .null ∨ r.Refers m.heap c.ty v)
    (hmade : Memory.Made r c.ty n k n' v) (hreached : Memory.Reached r w n' k v n'' cell) :
    Course r e m (link c (.element w) ty) n'' cell := by
  obtain ⟨hty, hlow, -⟩ := hl.of_element
  have hpresent := hmade.isPresent
  obtain ⟨count, hcontainer, -⟩ := hmade.container hty fun hv =>
    (h.refers hcreates hfits hv).resolve_left (by rintro rfl; cases hpresent)
  have hextends := h.made hmade
  have hk := hmade.value
  have hsupport : ∀ x, c.cell? r e m = some x → x ∈ (link c (.element w) ty).support r e m :=
    fun x hx => mem_cells hx
  constructor
  · refine (hextends.mono (fun _ hk => hk) fun ref href => ?_).trans (hreached.extends hk) ?_ ?_
    · simp only [Through, cells, support, List.map_append, List.mem_append] at href ⊢
      exact .inl href
    · rintro _ rfl hthere
      cases h.stage with
      | intact hcell _ => exact hsupport _ hcell
      | zero _ hnone _ _ =>
          rw [hnone] at hthere
          cases hthere
    · rintro ref rfl hthere
      rcases h.stage.made hcreates hmade with ⟨rfl, rfl, hcell, hv⟩ | ⟨-, heap, hnew, rfl, -⟩
      · have hlast : (link c (.element w) ty).cell? r e n' = some (.item ref w.val.toNat) := by
          rw [cell?, hcell, Option.bind_some, hv]
          rfl
        exact List.mem_map.mpr ⟨_, mem_cells hlast, rfl⟩
      · -- A list that is new was not there before.
        obtain ⟨old, hold⟩ := Option.isSome_iff_exists.mp hthere
        obtain ⟨old', hold', -⟩ := h.extends.lists ref old hold
        rw [hnew.lists_eq_none] at hold'
        cases hold'
  · rcases hreached.old_or_zero hk hlow hcontainer with ⟨rfl, hlt, hcell⟩ | ⟨hle, hnone, z, hz, hvalue⟩
    · have hlt' : w.val.toNat < count := by omega
      rcases h.stage.made hcreates hmade with ⟨rfl, rfl, hlast, hv⟩ | ⟨-, heap, hnew, rfl, hthere⟩
      · refine .intact ?_ (hcontainer.there hlt' hcell)
        rw [cell?, hlast, Option.bind_some, hv, Option.bind_some]
        exact hcell
      · -- A new container has no elements.
        have hgrown := (Memory.Extends.grow (r := r)
          hnew.grows).there k hthere
        have hempty := (hnew.container hty :
          (n.shared heap n.statics).heap.Container ty v 0).keep
            (.setCell hgrown v) fun _ _ h => h
        have hcount := hempty.length.symm.trans hcontainer.length
        simp only [Option.some.injEq] at hcount
        omega
    · refine .zero ?_ (none_before hextends hnone) hz hvalue
      rcases h.stage.made hcreates hmade with ⟨rfl, rfl, hlast, hv⟩ | ⟨hnot, -⟩
      · rw [value?, cell?, hlast, Option.bind_some, hv, Option.bind_some]
        obtain ⟨x, hx, -⟩ := hcontainer.cellAt w.val.toNat
        rw [show (Link.element w).cell? r v = some x from hx, Option.bind_some]
        exact hcontainer.none_of_le (by omega) hx
      · exact value?_link_of_none (hnot _) _

end Course

/-- Chains take their course. -/
theorem Located.course (hord : r.Ordered) (h : Located r e m c n k) (htyped : c.Typed r)
    (hfits : c.Fits r e m) : Course r e m c n k := by
  induction h with
  | root hcell =>
      obtain ⟨k, hk, hthere, -⟩ := hfits
      obtain rfl := Option.some.inj (hcell.symm.trans hk)
      exact ⟨.refl _ _ _ _, .intact hcell hthere⟩
  | field hf _ hmade hslot ih =>
      exact (ih htyped.1 hfits.1).field hord htyped.2.1 htyped.2.2 hfits.2 hf hmade hslot
  | element _ hmade hreached ih =>
      exact (ih htyped.1 hfits.1).element htyped.2.1 htyped.2.2 hfits.2 hmade hreached

end Chain

end Arbor
