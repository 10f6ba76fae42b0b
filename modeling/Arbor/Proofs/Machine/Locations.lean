/-
  Locations.

  An address leads to a place that has a value of its own, which is a local or an
  argument of a call, a field of an object, a static field or an element, and from
  there through the structs that are stored in it.  A write replaces what is at the
  end of that path.  Two locations are apart if neither lies within the other, and
  a write to one leaves the other as it is.
-/
import Arbor.Proofs.Machine.Memory
import Arbor.Proofs.Machine.Instructions
import Arbor.Proofs.HandlerStacks

set_option autoImplicit false

namespace Arbor

/-! ## Paths -/

namespace Value

/-- What is in a struct at the end of a path. -/
def part? : List Nat → Value → Option Value
  | [], v => some v
  | i :: path, .struct _ fields => fields[i]?.bind (part? path)
  | _ :: _, _ => none

/-- A struct with another value at the end of a path that is there. -/
def withPart (w : Value) : List Nat → Value → Value
  | [], _ => w
  | i :: path, .struct ty fields =>
      match fields[i]? with
      | some x => .struct ty (fields.set i (withPart w path x))
      | none => .struct ty fields
  | _ :: _, v => v

/-- A path that goes on where another one ends. -/
theorem part?_append (path rest : List Nat) (v : Value) :
    v.part? (path ++ rest) = (v.part? path).bind (part? rest) := by
  induction path generalizing v with
  | nil => rfl
  | cons i path ih =>
      cases v with
      | struct ty fields =>
          simp only [List.cons_append, part?, Option.bind_assoc]
          exact congrArg fields[i]?.bind (funext ih)
      | _ => rfl

/-- A path that goes one step further. -/
theorem part?_append_iff {path : List Nat} {i : Nat} {v x : Value} :
    v.part? (path ++ [i]) = some x ↔
      ∃ ty fields, v.part? path = some (.struct ty fields) ∧ fields[i]? = some x := by
  rw [part?_append, Option.bind_eq_some_iff]
  constructor
  · rintro ⟨y, hy, hx⟩
    cases y with
    | struct ty fields =>
        obtain ⟨z, hz, hzx⟩ := Option.bind_eq_some_iff.mp hx
        cases hzx
        exact ⟨ty, fields, hy, hz⟩
    | _ => cases hx
  · rintro ⟨ty, fields, hy, hx⟩
    exact ⟨_, hy, Option.bind_eq_some_iff.mpr ⟨x, hx, rfl⟩⟩

/-- Replacing what is at the end of a path that goes on where another one ends. -/
theorem withPart_append {path : List Nat} {v w z : Value} (h : v.part? path = some z) (rest : List Nat) :
    withPart w (path ++ rest) v = withPart (withPart w rest z) path v := by
  induction path generalizing v with
  | nil =>
      obtain rfl := Option.some.inj h
      rfl
  | cons j path ih =>
      cases v with
      | struct ty fields =>
          obtain ⟨y, hy, hpart⟩ := Option.bind_eq_some_iff.mp h
          simp only [List.cons_append, withPart, hy, ih hpart]
      | _ => cases h

theorem withPart_field {i : Nat} {ty : TypeId} {fields : List Value} {x : Value}
    (hx : fields[i]? = some x) (w : Value) (path : List Nat) :
    withPart w (i :: path) (.struct ty fields) = .struct ty (fields.set i (withPart w path x)) := by
  simp only [withPart, hx]

/-- What was put at the end of a path is there. -/
theorem part?_withPart {path : List Nat} {v x : Value} (h : v.part? path = some x) (w : Value) :
    (withPart w path v).part? path = some w := by
  induction path generalizing v with
  | nil => rfl
  | cons i path ih =>
      cases v with
      | struct ty fields =>
          obtain ⟨y, hy, hpart⟩ := Option.bind_eq_some_iff.mp h
          obtain ⟨hlt, -⟩ := List.getElem?_eq_some_iff.mp hy
          simp only [withPart, hy, part?, List.getElem?_set_self hlt, Option.bind_some, ih hpart]
      | _ => cases h

/-- What lies at the end of another path stays, unless one path leads through the end of the other. -/
theorem part?_withPart_apart {path other : List Nat} (w v : Value) (hpath : ¬ path <+: other)
    (hother : ¬ other <+: path) : (withPart w path v).part? other = v.part? other := by
  induction path generalizing v other with
  | nil => exact absurd (List.nil_prefix) hpath
  | cons i path ih =>
      cases other with
      | nil => exact absurd (List.nil_prefix) hother
      | cons j other =>
          cases v with
          | struct ty fields =>
              cases hz : fields[i]? with
              | none => simp only [withPart, hz]
              | some z =>
                  rw [withPart_field hz]
                  simp only [part?]
                  by_cases hij : i = j
                  · subst hij
                    obtain ⟨hlt, -⟩ := List.getElem?_eq_some_iff.mp hz
                    rw [List.getElem?_set_self hlt, hz, Option.bind_some, Option.bind_some]
                    refine ih z ?_ ?_
                    · exact fun h => hpath (List.cons_prefix_cons.mpr ⟨rfl, h⟩)
                    · exact fun h => hother (List.cons_prefix_cons.mpr ⟨rfl, h⟩)
                  · rw [List.getElem?_set_ne hij]
          | _ => rfl

end Value

/-! ## Locations -/

namespace Addr

/-- The address of a value that no struct holds. -/
def root : Addr → Addr
  | inner base _ => base.root
  | a => a

/-- The fields of structs that lead from there. -/
def path : Addr → List Nat
  | inner base slot => base.path ++ [slot]
  | _ => []

theorem root_ne_inner (a base : Addr) (slot : Nat) : a.root ≠ inner base slot := by
  induction a with
  | inner base' _ ih => exact ih
  | _ => exact fun h => by cases h

theorem root_root (a : Addr) : a.root.root = a.root := by
  induction a with
  | inner base _ ih => exact ih
  | _ => rfl

/-- Neither location lies within the other. -/
def Apart (a b : Addr) : Prop := a.root = b.root → ¬ a.path <+: b.path ∧ ¬ b.path <+: a.path

/-- The first location is the second one or lies within it. -/
def LiesIn (a b : Addr) : Prop := a.root = b.root ∧ b.path <+: a.path

theorem LiesIn.outer {a base : Addr} {slot : Nat} (h : a.LiesIn (inner base slot)) : a.LiesIn base :=
  ⟨h.1, (List.prefix_append _ _).trans h.2⟩

end Addr

/-! ## Cells -/

namespace Heap

variable {h : Heap} {ref other : Ref} {slot i : Nat}

theorem field?_setField_self (hold : (h.field? ref slot).isSome) (v : Value) :
    (h.setField ref slot v).field? ref slot = some v := by
  cases hc : h.objects[ref]? with
  | none => simp [field?, hc] at hold
  | some c =>
      have hslot : slot < c.fields.size := by simpa [field?, hc] using hold
      simp [field?, setField, Array.getElem?_modify, hc, hslot]

theorem field?_setField_ne (v : Value) (hne : ¬ (other = ref ∧ i = slot)) :
    (h.setField ref slot v).field? other i = h.field? other i := by
  cases hc : h.objects[other]? with
  | none => simp [field?, setField, Array.getElem?_modify, hc]
  | some c =>
      by_cases href : ref = other
      · have hi : slot ≠ i := fun heq => hne ⟨href.symm, heq.symm⟩
        simp [field?, setField, Array.getElem?_modify, hc, href, Array.getElem?_setIfInBounds_ne hi]
      · simp [field?, setField, Array.getElem?_modify, hc, href]

theorem elem?_setElem_self (hold : (h.elem? ref i).isSome) (v : Value) :
    (h.setElem ref i v).elem? ref i = some v := by
  cases hc : h.arrays[ref]? with
  | none => simp [elem?, hc] at hold
  | some c =>
      have hi : i < c.data.size := by simpa [elem?, hc] using hold
      simp [elem?, setElem, Array.getElem?_modify, hc, hi]

theorem elem?_setElem_ne (v : Value) (hne : ¬ (other = ref ∧ i = slot)) :
    (h.setElem ref slot v).elem? other i = h.elem? other i := by
  cases hc : h.arrays[other]? with
  | none => simp [elem?, setElem, Array.getElem?_modify, hc]
  | some c =>
      by_cases href : ref = other
      · have hi : slot ≠ i := fun heq => hne ⟨href.symm, heq.symm⟩
        simp [elem?, setElem, Array.getElem?_modify, hc, href, Array.getElem?_setIfInBounds_ne hi]
      · simp [elem?, setElem, Array.getElem?_modify, hc, href]

end Heap

namespace Statics

theorem get?_set_self (st : Statics) (f : FieldRef) (v : Value) : (st.set f v).get? f = some v := by
  induction st with
  | nil => simp [set, get?]
  | cons entry rest ih =>
      obtain ⟨g, w⟩ := entry
      by_cases hg : g = f
      · simp [set, get?, hg]
      · simp [set, get?, hg, ih]

/-- The other static fields stay. -/
theorem get?_set_ne {st : Statics} {f g : FieldRef} (v : Value) (hne : g ≠ f) :
    (st.set f v).get? g = st.get? g := by
  induction st with
  | nil => simp [set, get?, hne.symm]
  | cons entry rest ih =>
      obtain ⟨k, w⟩ := entry
      by_cases hk : k = f
      · subst hk
        simp [set, get?, hne.symm]
      · by_cases hkg : k = g
        · subst hkg
          simp [set, get?, hk]
        · simp [set, get?, hk, hkg, ih]

end Statics

namespace Run

variable {r : Registry} {s t : State} {a b : Addr} {v x : Value}

theorem frame?_setFrame_self {frames : List Frame} {k : Nat} {f : Frame} (h : frame? frames k = some f)
    (g : Frame) : frame? (setFrame frames k g) k = some g := by
  obtain ⟨place, hplace, hf⟩ := Option.bind_eq_some_iff.mp h
  obtain ⟨hlt, -⟩ := List.getElem?_eq_some_iff.mp hf
  unfold setFrame frame? framePlace? at *
  rw [hplace]
  dsimp only
  rw [List.length_set, hplace]
  exact List.getElem?_set_self hlt

/-- The other calls stay. -/
theorem frame?_setFrame_ne {frames : List Frame} {k n : Nat} (g : Frame) (h : n ≠ k) :
    frame? (setFrame frames k g) n = frame? frames n := by
  unfold setFrame frame? framePlace?
  by_cases hk : k < frames.length
  · simp only [hk, if_true, List.length_set]
    by_cases hn : n < frames.length
    · simp only [hn, if_true]
      exact List.getElem?_set_ne (by omega)
    · simp only [hn, if_false]
      rfl
  · simp only [hk, if_false]

/-- The value at the address of a value that no struct holds. -/
def rootValue? (r : Registry) (s : State) : Addr → Option Value
  | .local k slot => (frame? s.frames k).bind fun f => f.locals[slot]?
  | .arg k i => (frame? s.frames k).bind fun f => f.args[i]?
  | .field ref slot => s.heap.field? ref slot
  | .static f =>
      match s.statics.get? f with
      | some v => some v
      | none => (r.field f >>= fun d => r.zero d.ty).toOption
  | .elem ref i => s.heap.elem? ref i
  | .inner .. => none

/-- The value is at the location. -/
def Holds (r : Registry) (s : State) (a : Addr) (x : Value) : Prop :=
  ∃ y, rootValue? r s a.root = some y ∧ y.part? a.path = some x

/-- What is at a location is loaded from there. -/
theorem Holds.load (h : Holds r s a x) : loadAddr r a s = .ok x s := by
  induction a generalizing x with
  | inner base slot ih =>
      obtain ⟨y, hy, hpart⟩ := h
      obtain ⟨ty, fields, hbase, hx⟩ := Value.part?_append_iff.mp hpart
      have hload := ih ⟨y, hy, hbase⟩
      simp [loadAddr, bind, EStateM.bind, hload, orDangling, hx, pure, EStateM.pure]
  | static f =>
      obtain ⟨y, hy, hpart⟩ := h
      obtain rfl := Option.some.inj hpart
      simp only [rootValue?, Addr.root] at hy
      cases hwritten : s.statics.get? f with
      | some w =>
          simp only [hwritten, Option.some.injEq] at hy
          subst hy
          simp [loadAddr, loadStatic, hwritten, bind, EStateM.bind, Run.get_apply, pure, EStateM.pure]
      | none =>
          simp only [hwritten] at hy
          cases hfield : r.field f with
          | error e =>
              rw [hfield] at hy
              cases hy
          | ok d =>
              cases hzero : r.zero d.ty with
              | error e => simp [hfield, hzero, bind, Except.bind, Except.toOption] at hy
              | ok w =>
                  simp only [hfield, hzero, bind, Except.bind, Except.toOption, Option.some.injEq] at hy
                  subst hy
                  simp [loadAddr, loadStatic, hwritten, hfield, hzero, ofLookup, bind, EStateM.bind,
                    Run.get_apply, pure, EStateM.pure]
  | «local» k slot | arg k i | field ref slot | elem ref i =>
      obtain ⟨y, hy, hpart⟩ := h
      obtain rfl := Option.some.inj hpart
      have hy : _ = some y := hy
      simp only [rootValue?, Addr.root] at hy
      simp [loadAddr, bind, EStateM.bind, Run.get_apply, hy, orDangling, pure,
        EStateM.pure]

/-- What is found at an address that is not dangling. -/
theorem orDangling_ok {α : Type} {found : Option α} {y : α} (h : orDangling a found s = .ok y t) :
    found = some y ∧ t = s := by
  cases found with
  | none => cases h
  | some z =>
      cases h
      exact ⟨rfl, rfl⟩

theorem storeAddr_local_ok {k slot : Nat} (h : storeAddr r (.local k slot) v s = .ok ⟨⟩ t) :
    ∃ f, frame? s.frames k = some f ∧ slot < f.locals.size ∧
      t = { s with frames := setFrame s.frames k { f with locals := f.locals.setIfInBounds slot v } } := by
  obtain ⟨f, u, hf, hstore⟩ := ok_of_bind (x := fun s => orDangling (.local k slot) (frame? s.frames k) s) h
  obtain ⟨hf, rfl⟩ := orDangling_ok hf
  split at hstore
  · next hslot =>
    cases hstore
    exact ⟨f, hf, hslot, rfl⟩
  · cases hstore

theorem storeAddr_arg_ok {k i : Nat} (h : storeAddr r (.arg k i) v s = .ok ⟨⟩ t) :
    ∃ f, frame? s.frames k = some f ∧ i < f.args.size ∧
      t = { s with frames := setFrame s.frames k { f with args := f.args.setIfInBounds i v } } := by
  obtain ⟨f, u, hf, hstore⟩ := ok_of_bind (x := fun s => orDangling (.arg k i) (frame? s.frames k) s) h
  obtain ⟨hf, rfl⟩ := orDangling_ok hf
  split at hstore
  · next hi =>
    cases hstore
    exact ⟨f, hf, hi, rfl⟩
  · cases hstore

theorem storeAddr_field_ok {ref : Ref} {slot : Nat} (h : storeAddr r (.field ref slot) v s = .ok ⟨⟩ t) :
    (s.heap.field? ref slot).isSome ∧ t = { s with heap := s.heap.setField ref slot v } := by
  obtain ⟨old, u, hold, hstore⟩ :=
    ok_of_bind (x := fun s => orDangling (.field ref slot) (s.heap.field? ref slot) s) h
  obtain ⟨hold, rfl⟩ := orDangling_ok hold
  cases hstore
  exact ⟨by rw [hold]; rfl, rfl⟩

theorem storeAddr_elem_ok {ref : Ref} {i : Nat} (h : storeAddr r (.elem ref i) v s = .ok ⟨⟩ t) :
    (s.heap.elem? ref i).isSome ∧ t = { s with heap := s.heap.setElem ref i v } := by
  obtain ⟨old, u, hold, hstore⟩ := ok_of_bind (x := fun s => orDangling (.elem ref i) (s.heap.elem? ref i) s) h
  obtain ⟨hold, rfl⟩ := orDangling_ok hold
  cases hstore
  exact ⟨by rw [hold]; rfl, rfl⟩

/-- A write to a local or argument changes no other one. -/
theorem frame?_setFrame {frames : List Frame} {k n : Nat} {f g : Frame} (h : frame? frames k = some f) :
    frame? (setFrame frames k g) n = if n = k then some g else frame? frames n := by
  split
  · next heq =>
    subst heq
    exact frame?_setFrame_self h g
  · next hne => exact frame?_setFrame_ne g hne

/-- A write to the address of a value that no struct holds replaces that value and no other. -/
theorem rootValue?_store (hroot : a.root = a) (h : storeAddr r a v s = .ok ⟨⟩ t) :
    rootValue? r t a = some v ∧ ∀ b, b ≠ a → rootValue? r t b = rootValue? r s b := by
  cases a with
  | inner base slot => exact absurd hroot (Addr.root_ne_inner _ _ _)
  | «local» k slot =>
      obtain ⟨f, hf, hslot, rfl⟩ := storeAddr_local_ok h
      refine ⟨?_, fun b hb => ?_⟩
      · simp [rootValue?, frame?_setFrame hf, hslot]
      · cases b with
        | «local» n i =>
            simp only [rootValue?, frame?_setFrame hf]
            split
            · next heq =>
              subst heq
              have hi : slot ≠ i := fun heq => hb (by rw [heq])
              simp [hf, Array.getElem?_setIfInBounds_ne hi]
            · rfl
        | arg n i =>
            simp only [rootValue?, frame?_setFrame hf]
            split
            · next heq =>
              subst heq
              simp [hf]
            · rfl
        | _ => rfl
  | arg k i =>
      obtain ⟨f, hf, hi, rfl⟩ := storeAddr_arg_ok h
      refine ⟨?_, fun b hb => ?_⟩
      · simp [rootValue?, frame?_setFrame hf, hi]
      · cases b with
        | arg n j =>
            simp only [rootValue?, frame?_setFrame hf]
            split
            · next heq =>
              subst heq
              have hj : i ≠ j := fun heq => hb (by rw [heq])
              simp [hf, Array.getElem?_setIfInBounds_ne hj]
            · rfl
        | «local» n j =>
            simp only [rootValue?, frame?_setFrame hf]
            split
            · next heq =>
              subst heq
              simp [hf]
            · rfl
        | _ => rfl
  | field ref slot =>
      obtain ⟨hold, rfl⟩ := storeAddr_field_ok h
      refine ⟨?_, fun b hb => ?_⟩
      · exact Heap.field?_setField_self hold v
      · cases b with
        | field ref' slot' => exact Heap.field?_setField_ne v (by
            rintro ⟨rfl, rfl⟩
            exact hb rfl)
        | _ => rfl
  | static f =>
      cases h
      refine ⟨?_, fun b hb => ?_⟩
      · simp only [rootValue?, Statics.get?_set_self]
      · cases b with
        | static g =>
            have hne : g ≠ f := fun heq => hb (by rw [heq])
            simp only [rootValue?, Statics.get?_set_ne v hne]
        | _ => rfl
  | elem ref i =>
      obtain ⟨hold, rfl⟩ := storeAddr_elem_ok h
      refine ⟨?_, fun b hb => ?_⟩
      · exact Heap.elem?_setElem_self hold v
      · cases b with
        | elem ref' j => exact Heap.elem?_setElem_ne v (by
            rintro ⟨rfl, rfl⟩
            exact hb rfl)
        | _ => rfl

/-- A write changes no number of calls. -/
theorem length_storeAddr (hroot : a.root = a) (h : storeAddr r a v s = .ok ⟨⟩ t) :
    t.frames.length = s.frames.length := by
  have hset : ∀ (k : Nat) (g : Frame), (setFrame s.frames k g).length = s.frames.length := by
    intro k g
    unfold setFrame
    split
    · exact List.length_set
    · rfl
  cases a with
  | inner base slot => exact absurd hroot (Addr.root_ne_inner _ _ _)
  | «local» k slot =>
      obtain ⟨f, -, -, rfl⟩ := storeAddr_local_ok h
      exact hset _ _
  | arg k i =>
      obtain ⟨f, -, -, rfl⟩ := storeAddr_arg_ok h
      exact hset _ _
  | field ref slot =>
      obtain ⟨-, rfl⟩ := storeAddr_field_ok h
      rfl
  | static f =>
      cases h
      rfl
  | elem ref i =>
      obtain ⟨-, rfl⟩ := storeAddr_elem_ok h
      rfl

/-- A write replaces what is at the end of the path in the value that no struct holds. -/
theorem Holds.store (hold : Holds r s a x) (h : storeAddr r a v s = .ok ⟨⟩ t) :
    ∃ y, rootValue? r s a.root = some y ∧ y.part? a.path = some x ∧
      storeAddr r a.root (Value.withPart v a.path y) s = .ok ⟨⟩ t := by
  induction a generalizing v x with
  | inner base slot ih =>
      obtain ⟨y, hy, hpart⟩ := hold
      obtain ⟨ty, fields, hbase, hx⟩ := Value.part?_append_iff.mp hpart
      have hholds : Holds r s base (.struct ty fields) := ⟨y, hy, hbase⟩
      have hstore : storeAddr r base (.struct ty (fields.set slot v)) s = .ok ⟨⟩ t := by
        obtain ⟨w, u, hload, hstore⟩ := ok_of_bind (x := loadAddr r base) h
        obtain ⟨rfl, rfl⟩ : w = .struct ty fields ∧ u = s := by
          rw [hholds.load] at hload
          cases hload
          exact ⟨rfl, rfl⟩
        obtain ⟨hlt, -⟩ := List.getElem?_eq_some_iff.mp hx
        simpa only [hlt, if_true] using hstore
      obtain ⟨y', hy', -, hroot⟩ := ih hholds hstore
      obtain rfl := Option.some.inj (hy.symm.trans hy')
      refine ⟨y, hy, hpart, ?_⟩
      rw [Addr.path, Value.withPart_append hbase, Value.withPart_field hx]
      exact hroot
  | «local» k slot | arg k i | field ref slot | static f | elem ref i =>
      obtain ⟨y, hy, hpart⟩ := hold
      exact ⟨y, hy, hpart, h⟩

theorem Holds.written (hold : Holds r s a x) (h : storeAddr r a v s = .ok ⟨⟩ t) : Holds r t a v := by
  obtain ⟨y, -, hpart, hroot⟩ := hold.store h
  exact ⟨_, (rootValue?_store a.root_root hroot).1, Value.part?_withPart hpart v⟩

/-- What is at a location apart stays. -/
theorem Holds.kept {w : Value} (hold : Holds r s a x) (h : storeAddr r a v s = .ok ⟨⟩ t)
    (hapart : a.Apart b) (hb : Holds r s b w) : Holds r t b w := by
  obtain ⟨y, hy, hpart, hroot⟩ := hold.store h
  obtain ⟨hwritten, hothers⟩ := rootValue?_store a.root_root hroot
  obtain ⟨z, hz, hw⟩ := hb
  by_cases hsame : b.root = a.root
  · obtain ⟨hpath, hother⟩ := hapart hsame.symm
    rw [hsame, hy] at hz
    obtain rfl := Option.some.inj hz
    exact ⟨_, by rw [hsame, hwritten], (Value.part?_withPart_apart v y hpath hother).trans hw⟩
  · exact ⟨z, by rw [hothers _ hsame, hz], hw⟩

end Run

/-! ## Scenes -/

/-- What there is beside the evaluation stack of the current call. -/
structure Scene where
  memory : Memory
  around : Around

namespace Scene

/-- The machine state with the given evaluation stack. -/
def state (c : Scene) (stack : List Value) : State := c.memory.state c.around stack

/-- The value is at the location. -/
def Holds (r : Registry) (c : Scene) (a : Addr) (x : Value) : Prop := Run.Holds r (c.state []) a x

/-- Writing the value to the location leads from one scene to the other. -/
def Writes (r : Registry) (c : Scene) (a : Addr) (v : Value) (c' : Scene) : Prop :=
  ∀ stack, Run.storeAddr r a v (c.state stack) = .ok ⟨⟩ (c'.state stack)

variable {r : Registry} {c c' : Scene} {a b : Addr} {v x : Value}

/-- Locations are not on the evaluation stack. -/
theorem rootValue?_state (r : Registry) (c : Scene) (a : Addr) (stack : List Value) :
    Run.rootValue? r (c.state stack) a = Run.rootValue? r (c.state []) a := by
  cases a with
  | «local» k slot | arg k slot =>
      simp only [Run.rootValue?, Run.frame?, Run.framePlace?, state, Memory.state, List.length_cons]
      by_cases hk : k < c.around.outer.length + 1
      · simp only [hk, if_true]
        generalize c.around.outer.length + 1 - 1 - k = place
        cases place <;> rfl
      · simp only [hk, if_false]
        rfl
  | _ => rfl

theorem Holds.state (h : c.Holds r a x) (stack : List Value) : Run.Holds r (c.state stack) a x := by
  obtain ⟨y, hy, hpart⟩ := h
  exact ⟨y, (rootValue?_state r c _ stack).trans hy, hpart⟩

theorem Writes.written (h : c.Writes r a v c') (hold : c.Holds r a x) : c'.Holds r a v :=
  Run.Holds.written hold (h [])

theorem Writes.kept {w : Value} (h : c.Writes r a v c') (hold : c.Holds r a x) (hapart : a.Apart b)
    (hb : c.Holds r b w) : c'.Holds r b w :=
  Run.Holds.kept hold (h []) hapart hb

theorem Writes.length (h : c.Writes r a v c') (hold : c.Holds r a x) :
    c'.around.outer.length = c.around.outer.length := by
  obtain ⟨y, -, -, hroot⟩ := Run.Holds.store hold (h [])
  have hlength := Run.length_storeAddr a.root_root hroot
  simpa [state, Memory.state] using hlength

end Scene

/-! ## Members -/

/-- The location of a field of an object, or of the struct at an address. -/
def Value.member? : Value → Nat → Option Addr
  | .object ref, slot => some (.field ref slot)
  | .addr base, slot => some (.inner base slot)
  | _, _ => none

/-- Locations in different members of an instance are apart. -/
theorem Value.member?_apart {target : Value} {slot other : Nat} {a b m : Addr} (hne : slot ≠ other)
    (hslot : target.member? slot = some m) (hother : target.member? other = some b) (ha : a.LiesIn m) :
    a.Apart b := by
  obtain ⟨hroot, hpath⟩ := ha
  intro hsame
  rw [hroot] at hsame
  cases target with
  | object ref =>
      cases hslot
      cases hother
      exact absurd (Addr.field.inj hsame).2 hne
  | addr base =>
      cases hslot
      cases hother
      -- The paths differ in the step after that to the struct.
      obtain ⟨rest, hrest⟩ := hpath
      simp only [Addr.path, List.append_assoc, List.singleton_append] at hrest ⊢
      rw [← hrest]
      constructor
      · intro h
        obtain ⟨h, -⟩ := List.cons_prefix_cons.mp ((List.prefix_append_right_inj _).mp h)
        exact hne h
      · intro h
        obtain ⟨h, -⟩ := List.cons_prefix_cons.mp ((List.prefix_append_right_inj _).mp h)
        exact hne h.symm
  | _ => cases hslot

/-- No member of the instance is where the location is rooted. -/
def Value.AwayFrom (v : Value) (b : Addr) : Prop :=
  ∀ slot a, v.member? slot = some a → a.root ≠ b.root

namespace Run

variable {r : Registry} {R : Routine} {c c' : Scene} {a : Addr} {v x target : Value} {f : FieldRef}
  {slot : Nat} {stack : List Value}

/-- A field is stored where the member is. -/
theorem storeField_ok (hslot : r.fieldSlot f = .ok slot) (hmember : target.member? slot = some a)
    (h : c.Writes r a v c') : storeField r target f v (c.state stack) = .ok ⟨⟩ (c'.state stack) := by
  have hwrite := h stack
  cases target with
  | object ref =>
      cases hmember
      obtain ⟨hold, heq⟩ := storeAddr_field_ok hwrite
      obtain ⟨old, hold⟩ := Option.isSome_iff_exists.mp hold
      rw [heq]
      simp [storeField, hslot, ofLookup, hold, bind, EStateM.bind, Run.get_apply,
        pure, EStateM.pure, Run.modify_apply]
  | addr base =>
      cases hmember
      simpa [storeField, hslot, ofLookup, bind, EStateM.bind, pure, EStateM.pure] using hwrite
  | _ => cases hmember

/-- A field is loaded from where the member is. -/
theorem loadField_ok (hslot : r.fieldSlot f = .ok slot) (hmember : target.member? slot = some a)
    (h : c.Holds r a x) : loadField r target f (c.state stack) = .ok x (c.state stack) := by
  obtain ⟨y, hy, hpart⟩ := h.state stack
  cases target with
  | object ref =>
      cases hmember
      obtain rfl := Option.some.inj hpart
      have hfield : (c.state stack).heap.field? ref slot = some y := hy
      simp [loadField, hslot, ofLookup, slot?, hfield, bind, EStateM.bind, Run.get_apply, pure, EStateM.pure]
  | addr base =>
      cases hmember
      obtain ⟨ty, fields, hbase, hx⟩ := Value.part?_append_iff.mp hpart
      have hload : loadAddr r base (c.state stack) = .ok (.struct ty fields) (c.state stack) :=
        Holds.load ⟨y, hy, hbase⟩
      simp [loadField, hslot, ofLookup, slot?, hload, hx, bind, EStateM.bind, Run.get_apply, pure, EStateM.pure]
  | _ => cases hmember

namespace Steps

theorem storeField (hslot : r.fieldSlot f = .ok slot) (hmember : target.member? slot = some a)
    (h : c.Writes r a v c') :
    Steps r R (.storeField f) (c.state (v :: target :: stack)) (.ok .next (c'.state stack)) :=
  .of_forall fun _ => by
    change EStateM.bind (Run.storeField r target f v) (fun _ => pure Flow.next) (c.state stack) = _
    simp only [EStateM.bind, storeField_ok hslot hmember h]
    rfl

theorem loadField (hslot : r.fieldSlot f = .ok slot) (hmember : target.member? slot = some a)
    (h : c.Holds r a x) :
    Steps r R (.loadField f) (c.state (target :: stack)) (.ok .next (c.state (x :: stack))) :=
  .of_forall fun _ => by
    change EStateM.bind (Run.loadField r target f) pushNext (c.state stack) = _
    simp only [EStateM.bind, loadField_ok hslot hmember h]
    rfl

theorem loadFieldAddr (hslot : r.fieldSlot f = .ok slot) (hmember : target.member? slot = some a) :
    Steps r R (.loadFieldAddr f) (c.state (target :: stack)) (.ok .next (c.state (.addr a :: stack))) :=
  .of_forall fun _ => by
    change EStateM.bind (ofLookup (r.fieldSlot f)) (fun slot => EStateM.bind (Run.pop) fun receiver =>
      EStateM.bind (fieldAddr r receiver slot) fun a => pushNext (.addr a)) (c.state (target :: stack)) = _
    simp only [EStateM.bind, hslot, ofLookup, pure, EStateM.pure]
    cases target <;> cases hmember <;> rfl

end Steps

end Run

end Arbor
