/-
  Code that accesses hidden tables.

  Hoisted constants and closure variables are read and written by short stretches
  of code that are the same everywhere.  Tables hold values without the wrappers of
  optionals, and reading a value restores it, if it is of the type that it is read
  as.
-/
import Arbor.Proofs.Emission.Sheltering
import Arbor.Proofs.Machine.Instructions
import Arbor.Proofs.Machine.KnownValues
import Arbor.Proofs.Machine.HeapChanges

set_option autoImplicit false

namespace Arbor

/-! ## Values of a type -/

/-- The value is of the type, where the heap is as given. -/
inductive Value.OfType (r : Registry) (h : Heap) : Ty → Value → Prop
  | null {ty : Ty} : ty.isReference = true → OfType r h ty .null
  | bool (b : Bool) : OfType r h .bool (.bool b)
  | num (n : Num) : OfType r h (.num n.kind) (.num n)
  | str (s : String) : OfType r h .str (.str s)
  | struct (id : TypeId) (fields : List Value) : OfType r h (.structTy id) (.struct id fields)
  | object {ref : Ref} {own id : TypeId} : h.objectType? ref = some own → r.isSubclass own id = true →
      OfType r h (.classTy id) (.object ref)
  | array {ref : Ref} {elem : Ty} {n : Nat} : h.arrayType? ref = some (elem, [n]) →
      OfType r h (.array elem) (.array ref)
  | mdArray {ref : Ref} {elem : Ty} {dims : List Nat} : h.arrayType? ref = some (elem, dims) →
      OfType r h (.mdArray elem dims.length) (.array ref)
  | list {ref : Ref} {elem : Ty} : h.listType? ref = some elem → OfType r h (.list elem) (.list ref)
  | func {ref : Ref} {c : Callable} : h.functions[ref]? = some c →
      OfType r h (.func c.params c.routine.ret) (.func ref)
  | absent {inner : Ty} : OfType r h (.nullable inner) .absent
  | present {inner : Ty} {v : Value} : inner.isValueType = true → inner.isNullable = false →
      OfType r h inner v → OfType r h (.nullable inner) (.present v)
  /-- A slot of the root type holds values as tables do. -/
  | root {v : Value} : v.boxed = v → OfType r h .object v

namespace Value.OfType

variable {r : Registry} {h h' : Heap} {ty : Ty} {v : Value}

/-- A value stays of its type. -/
theorem mono (hv : v.OfType r h ty) (hh : h.Types h') : v.OfType r h' ty := by
  induction hv with
  | null hty => exact .null hty
  | bool b => exact .bool b
  | num n => exact .num n
  | str s => exact .str s
  | struct id fields => exact .struct id fields
  | object hown hsub => exact .object (hh.objects _ _ hown) hsub
  | array harray => exact .array (hh.arrays _ _ harray)
  | mdArray harray => exact .mdArray (hh.arrays _ _ harray)
  | list hlist => exact .list (hh.lists _ _ hlist)
  | func hfunc =>
      refine .func ?_
      simpa using hh.functions _ _ (by simpa using hfunc)
  | absent => exact .absent
  | present hty hplain _ ih => exact .present hty hplain ih
  | root hboxed => exact .root hboxed

/-- A value of a value type that is no optional is an instance of it, and has no wrapper. -/
theorem instance_of_isValueType (hv : v.OfType r h ty) (hty : ty.isValueType = true)
    (hplain : ty.isNullable = false) :
    v.boxed = v ∧ v.isAbsent = false ∧ v.isInstance r h ty false = true := by
  cases hv with
  | bool b => exact ⟨rfl, rfl, rfl⟩
  | num n => exact ⟨rfl, rfl, by simp [isInstance, core, Ty.core]⟩
  | struct id fields => exact ⟨rfl, rfl, by simp [isInstance, core, Ty.core]⟩
  | null href => cases ty <;> cases hty <;> cases href
  | absent | present => cases hplain
  | _ => cases hty

/-- A value of a reference type is null or an instance of it, and has no wrapper. -/
theorem instance_of_isReference (hv : v.OfType r h ty) (hty : ty.isReference = true)
    (hroot : ty ≠ .object) :
    v.boxed = v ∧ (v.isAbsent = true ∨ v.isInstance r h ty false = true) := by
  cases hv with
  | null => exact ⟨rfl, .inl rfl⟩
  | str s => exact ⟨rfl, .inr rfl⟩
  | object hown hsub => exact ⟨rfl, .inr (by simp [isInstance, core, Ty.core, hown, hsub])⟩
  | array harray | mdArray harray =>
      obtain ⟨c, hc, hcell⟩ := Option.map_eq_some_iff.mp harray
      obtain ⟨helem, hdims⟩ := Prod.mk.inj hcell
      exact ⟨rfl, .inr (by simp [isInstance, core, Ty.core, hc, helem, hdims])⟩
  | list hlist =>
      obtain ⟨c, hc, rfl⟩ := Option.map_eq_some_iff.mp hlist
      exact ⟨rfl, .inr (by simp [isInstance, core, Ty.core, hc])⟩
  | func hfunc => exact ⟨rfl, .inr (by simp [isInstance, core, Ty.core, hfunc])⟩
  | root => exact absurd rfl hroot
  | _ => cases hty

/-- What is put into a table is taken out of it again. -/
theorem unbox {s : State} (hv : v.OfType r s.heap ty) (hroot : ty ≠ .object) :
    Run.unbox r v.boxed ty s = .ok v s := by
  have hplain : ty.isNullable = false → Run.unbox r v.boxed ty s =
      (if v.boxed.isAbsent then if ty.isValueType then Run.raise r .nullReference else pure v.boxed
        else if v.boxed.isInstance r s.heap ty false then pure v.boxed
        else Run.raise r .invalidCast : Run Value) s := by
    intro hplain
    cases ty with
    | nullable inner => cases hplain
    | _ => rfl
  cases hnullable : ty.isNullable with
  | true =>
      cases hv with
      | absent => rfl
      | @present inner v hinner hnested hv =>
          obtain ⟨-, hpresent, hinstance⟩ := hv.instance_of_isValueType hinner hnested
          change (if v.isAbsent then (pure .absent : Run Value)
            else if v.isInstance r s.heap inner false then pure (.present v)
            else Run.raise r .invalidCast) s = _
          rw [hpresent, hinstance]
          rfl
      | null href =>
          cases ty with
          | nullable inner => cases href
          | _ => cases hnullable
      | _ => cases hnullable
  | false =>
      rw [hplain hnullable]
      cases hvalue : ty.isValueType with
      | true =>
          obtain ⟨hboxed, hpresent, hinstance⟩ := hv.instance_of_isValueType hvalue hnullable
          rw [hboxed, hpresent, hinstance]
          rfl
      | false =>
          have href : ty.isReference = true := by
            cases hv <;> first | rfl | assumption | cases hvalue
          obtain ⟨hboxed, hnull | hinstance⟩ := hv.instance_of_isReference href hroot
          · rw [hboxed, hnull]
            rfl
          · rw [hboxed, hinstance]
            cases v.isAbsent <;> rfl

end Value.OfType

/-! ## Code -/

/-- Code that reads an element of the table in an argument. -/
def readCode (table index : Nat) (ty : Ty) : List Instr :=
  [.loadArg table, .const (.num (.i32 index)), .loadElem] ++ if ty = .object then [] else [.unbox ty]

/-- Code that writes the value of a local to an element of the table in an argument. -/
def writeCode (table index slot : Nat) (ty : Ty) : List Instr :=
  [.loadArg table, .const (.num (.i32 index)), .loadLocal slot, .box ty, .storeElem]

/-- The code stands in the routine from the position on. -/
def Routine.CodeAt (R : Routine) (pc : Nat) (code : List Instr) : Prop :=
  ∀ k i, code[k]? = some i → R.code[pc + k]? = some i

namespace Emit

variable {α β : Type}

/-- Where the emitter succeeds in a unit with the hidden parameters, it adds code with the property. -/
def Adds (h : HiddenParams) (x : Emit α) (Q : List Instr → Prop) : Prop :=
  ∀ setting s t a, s.hidden = h → x.run setting s = .ok a t →
    ∃ code, t.builder.code.toList = s.builder.code.toList ++ code ∧ Q code

namespace Adds

variable {h : HiddenParams}

theorem pure (a : α) : Adds h (Pure.pure a) (· = []) := by
  intro setting s t b _ hrun
  cases hrun
  exact ⟨[], by simp, rfl⟩

theorem imp {x : Emit α} {Q Q' : List Instr → Prop} (hx : Adds h x Q) (hQ : ∀ c, Q c → Q' c) :
    Adds h x Q' := by
  intro setting s t a hs hrun
  obtain ⟨c, hc, hq⟩ := hx setting s t a hs hrun
  exact ⟨c, hc, hQ c hq⟩

theorem instr (i : Instr) : Adds h (Emit.instr i) (· = [i]) := by
  intro setting s t a _ hrun
  cases hrun
  exact ⟨[i], by simp [Builder.emit], rfl⟩

/-- The code of one emitter behind that of the other. -/
theorem bind {x : Emit α} {f : α → Emit β} {first second : List Instr} (hx : Adds h x (· = first))
    (hf : ∀ a, Adds h (f a) (· = second)) : Adds h (x >>= f) (· = first ++ second) := by
  intro setting s t b hs hrun
  obtain ⟨a, u, hxu, hfu⟩ := run_bind hrun
  obtain ⟨_, hu, rfl⟩ := hx _ _ _ _ hs hxu
  obtain ⟨_, ht, rfl⟩ := hf a _ _ _ _ ((x.grows hxu).hidden.trans hs) hfu
  exact ⟨_, by rw [ht, hu, List.append_assoc], rfl⟩

theorem instrs : ∀ is : List Instr, Adds h (Emit.instrs is) (· = is)
  | [] => pure _
  | i :: is => (instr i).bind fun _ => instrs is

theorem hiddenParams {f : HiddenParams → Emit α} {Q : List Instr → Prop} (hf : Adds h (f h) Q) :
    Adds h (Emit.hiddenParams >>= f) Q := by
  intro setting s t a hs hrun
  obtain ⟨own, u, hown, hfu⟩ := run_bind hrun
  cases hown
  exact hf _ _ _ _ hs (hs ▸ hfu)

theorem loadTableElement (table index : Nat) (ty : Ty) :
    Adds h (Emit.loadTableElement table index ty) (· = readCode table index ty) := by
  refine (instr _).bind fun _ => (instr _).bind fun _ => (instr _).bind fun _ => ?_
  split
  · exact pure _
  · exact instr _

/-- An emitter that uses the closure environment. -/
theorem closureTable {f : Nat → Emit α} {code : Nat → List Instr}
    (hf : ∀ n, Adds h (f n) (· = code n)) :
    Adds h (Emit.closureTable >>= f) fun c => ∃ n, h.tables[n]? = some .closure ∧ c = code n := by
  unfold Emit.closureTable
  rw [bind_assoc_emit]
  refine hiddenParams ?_
  cases hclosure : h.closureArg? with
  | none => exact fun _ _ _ _ _ hrun => nomatch hrun
  | some n =>
      intro setting s t a hs hrun
      obtain ⟨c, hc, hcode⟩ := hf n setting s t a hs hrun
      exact ⟨c, hc, n, h.tables_of_tableArg? hclosure, hcode⟩

/-- A hoisted constant is read from the table of constants. -/
theorem hoisted (index : Nat) (ty : Ty) :
    Adds h (Emit.hoisted index ty) fun c =>
      ∃ n, h.tables[n]? = some .constants ∧ c = readCode n index ty := by
  refine hiddenParams ?_
  cases hconstants : h.constantsArg? with
  | none => exact fun _ _ _ _ _ hrun => nomatch hrun
  | some n =>
      exact ((loadTableElement n index ty).bind fun _ => pure _).imp fun c hc =>
        ⟨n, h.tables_of_tableArg? hconstants, by simpa using hc⟩

theorem closureVar (index : Nat) (ty : Ty) :
    Adds h (Emit.closureVar index ty) fun c =>
      ∃ n, h.tables[n]? = some .closure ∧ c = readCode n index ty :=
  closureTable fun n =>
    ((loadTableElement n index ty).bind fun _ => pure _).imp fun c hc => by simpa using hc

/-- The value of a closure variable is loaded from the closure environment. -/
theorem loadPlace {p : Place} {index : Nat} (hp : p.kind = .closure index) :
    Adds h (Emit.loadPlace p) fun c =>
      ∃ n, h.tables[n]? = some .closure ∧ c = readCode n index p.ty := by
  unfold Emit.loadPlace
  rw [hp]
  exact closureTable fun n => loadTableElement n index p.ty

/-- The value of a closure variable is stored into the closure environment. -/
theorem storePlace {p : Place} {index : Nat} (hp : p.kind = .closure index) (value : Nat) :
    Adds h (Emit.storePlace p value) fun c =>
      ∃ n, h.tables[n]? = some .closure ∧ c = writeCode n index value p.ty := by
  unfold Emit.storePlace
  rw [hp]
  exact closureTable fun n => (instr _).bind fun _ => (instr _).bind fun _ => instrs _

end Adds

end Emit

/-! ## Reading -/

namespace Run

variable {r : Registry} {R : Routine} {s : State}

end Run

/-! ## What is known where tables are used -/

namespace Run

variable {P : Bool → HiddenParams → Routine → Prop} {T : Tables} {own : Bool} {h : HiddenParams}
  {hs : List HiddenParams} {D : Contents} {s t : State} {r : Registry} {R : Routine}

/-- The value of a local is written to an element of a table. -/
theorem Stands.write? {pc slot : Nat} {n : Int} {table : HiddenTable}
    (hst : Stands P T own h [.boxed slot, .index n, .table table] hs D s)
    (hcode : R.code[pc]? = some .storeElem) : ∃ w, local? s slot = some w ∧
      Moment.write? T ⟨R, pc, s⟩ =
        if 0 ≤ (Num.i32 n).toIndex then some (table, (Num.i32 n).toIndex.toNat, w.boxed) else none := by
  obtain ⟨heap, args, locals, stack, handling, rest, statics, vs, rfl, hvs, -⟩ := hst.exists_frame
  obtain ⟨v, vs, ⟨w, hw, rfl⟩, hvs, rfl⟩ := List.forall₂_cons_left_iff.mp hvs
  obtain ⟨index, vs, rfl, hvs, rfl⟩ := List.forall₂_cons_left_iff.mp hvs
  obtain ⟨array, vs, ⟨ref, href, rfl⟩, -, rfl⟩ := List.forall₂_cons_left_iff.mp hvs
  exact ⟨w, hw, write?_storeElem hcode rfl rfl href rfl⟩

theorem heap_of_popN {n : Nat} {vs : List Value} (h : popN n s = .ok vs t) : t.heap = s.heap := by
  unfold popN at h
  split at h
  · cases h
  · split at h <;> cases h
    rfl

theorem heap_of_pop {v : Value} (h : Run.pop s = .ok v t) : t.heap = s.heap := by
  unfold Run.pop at h
  split at h
  · cases h
  · split at h <;> cases h
    rfl

theorem heap_of_pushNext {v : Value} {flow : Flow} (h : pushNext v s = .ok flow t) : t.heap = s.heap := by
  obtain ⟨heap, frames, statics⟩ := s
  cases frames <;> cases h
  rfl

/-- A function value that is made captures the tables for its hidden parameters. -/
theorem Stands.made (hmethod : Bodies r (P false .none)) {g : HiddenParams} {k : Nat}
    (hk : k = g.count ∨ g = .none) (hst : Stands P T own h (.function g :: g.items) hs D s) {call : Caller}
    {flow : Flow} (hstep : step r call R (.newInvoker k) s = .ok flow t) :
    ∃ c captured, t.heap.functions = s.heap.functions.push ⟨c, captured⟩ ∧ P own g c ∧
      T.Fills g captured := by
  obtain ⟨v, u, hpop, hu, ⟨c, rfl, hP⟩, -⟩ := hst.pop
  have hcaptured := after_popN hmethod hk hu
  change (Run.pop >>= _) s = _ at hstep
  rw [bind_of_ok hpop] at hstep
  change EStateM.bind (popN k) _ u = _ at hstep
  unfold EStateM.bind at hstep
  revert hcaptured hstep
  cases hpopN : popN k u with
  | error e w => exact fun _ hstep => nomatch hstep
  | ok captured w =>
      rintro ⟨-, hfills⟩ hstep
      refine ⟨c, captured, ?_, hP, hfills⟩
      have hpush : pushNext (.func w.heap.functions.size)
          { w with heap := (w.heap.newFunction ⟨c, captured⟩).2 } = .ok flow t := hstep
      rw [heap_of_pushNext hpush, ← heap_of_pop hpop, ← heap_of_popN hpopN]
      rfl

end Run

end Arbor
