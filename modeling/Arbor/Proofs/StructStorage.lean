/-
  Addresses into structs are storage.

  An address names a place that has a value of its own and a path through the structs
  stored there.  A write through such an address replaces the end of the path: it is
  read back, the structs around it change at the next step of the path only, and every
  address that leads elsewhere reads as before, also where it leads nowhere.  A write
  that fails changes nothing, and none fails where a value can be read.
-/
import Arbor.Proofs.Machine.Locations

set_option autoImplicit false

namespace Arbor

open Run

/-- No step of the path leads into a value that is no struct. -/
def Addr.ThroughStructs (r : Registry) (s : State) : Addr → Prop
  | .inner base _ => base.ThroughStructs r s ∧
      ∀ v t, loadAddr r base s = .ok v t → ∃ ty fields, v = .struct ty fields
  | _ => True

theorem Addr.path_of_root {a : Addr} (h : a.root = a) : a.path = [] := by
  cases a with
  | inner base slot => exact absurd h (Addr.root_ne_inner _ _ _)
  | _ => rfl

/-- A location that neither is the other one, nor lies within it, nor around it. -/
theorem Addr.Apart.of_inner {a base : Addr} {slot : Nat} (h : a.Apart (.inner base slot))
    (hbase : ¬ a.Apart base) :
    ∃ i, i ≠ slot ∧ a.LiesIn (.inner base i) := by
  obtain ⟨hroot, hprefix⟩ : a.root = base.root ∧ (a.path <+: base.path ∨ base.path <+: a.path) := by
    simpa only [Apart, Classical.not_imp, Classical.not_and_iff_not_or_not, Classical.not_not] using hbase
  obtain ⟨hpath, hother⟩ := h hroot
  have houter : base.path <+: (Addr.inner base slot).path := List.prefix_append _ _
  obtain ⟨rest, hrest⟩ := hprefix.resolve_left fun h => hpath (h.trans houter)
  cases rest with
  | nil => exact absurd (by rw [← hrest, List.append_nil]; exact houter) hpath
  | cons i rest =>
      have hin : (Addr.inner base i).path <+: a.path := ⟨rest, by simp [Addr.path, ← hrest]⟩
      exact ⟨i, fun heq => hother (heq ▸ hin), hroot, hin⟩

namespace Run

variable {r : Registry} {s t u : State} {a b base : Addr} {v w x : Value} {slot : Nat}

/-! ## Reading -/

/-- Reading from the address has the same result in both states and leaves them as they are. -/
def LoadsAlike (r : Registry) (a : Addr) (s t : State) : Prop :=
  (∃ x, loadAddr r a s = .ok x s ∧ loadAddr r a t = .ok x t) ∨
    ∃ e, loadAddr r a s = .error e s ∧ loadAddr r a t = .error e t

/-- Why nothing is there at the address of a value that no struct holds does not depend on the state. -/
theorem exists_error_of_root (r : Registry) (h : a.root = a) :
    ∃ e, ∀ s, rootValue? r s a = none → loadAddr r a s = .error e s := by
  cases a with
  | inner base slot => exact absurd h (Addr.root_ne_inner _ _ _)
  | static f =>
      cases hzero : (r.field f >>= fun d => r.zero d.ty) with
      | ok z =>
          refine ⟨.halted .steps, fun s hs => ?_⟩
          simp only [rootValue?, hzero] at hs
          cases hwritten : s.statics.get? f <;> rw [hwritten] at hs <;> cases hs
      | error e =>
          refine ⟨.invalid (.metadata e), fun s hs => ?_⟩
          simp only [rootValue?] at hs
          cases hwritten : s.statics.get? f with
          | some y =>
              rw [hwritten] at hs
              cases hs
          | none =>
              have hload : loadAddr r (.static f) s =
                  (ofLookup (r.field f) >>= fun d => ofLookup (r.zero d.ty)) s := by
                simp only [loadAddr, loadStatic, bind, EStateM.bind, Run.get_apply, hwritten]
              rw [hload]
              cases hfield : r.field f with
              | error e' =>
                  rw [hfield] at hzero
                  cases hzero
                  rfl
              | ok d =>
                  rw [hfield] at hzero
                  change ofLookup (r.zero d.ty) s = _
                  rw [show r.zero d.ty = .error e from hzero]
                  rfl
  | «local» k slot | arg k i | field ref slot | elem ref i =>
      exact ⟨.invalid (.dangling _), fun s hs => congrArg (fun found => orDangling _ found s) hs⟩

namespace LoadsAlike

/-- A value that no struct holds is read where it is. -/
theorem root (hroot : a.root = a) (h : rootValue? r t a = rootValue? r s a) : LoadsAlike r a s t := by
  have hload : ∀ {u : State} {x : Value}, rootValue? r u a = some x → loadAddr r a u = .ok x u := by
    intro u x hx
    exact Holds.load ⟨x, by rw [hroot, hx], by rw [Addr.path_of_root hroot]; rfl⟩
  cases hs : rootValue? r s a with
  | some x => exact .inl ⟨x, hload hs, hload (h.trans hs)⟩
  | none =>
      obtain ⟨e, he⟩ := exists_error_of_root r hroot
      exact .inr ⟨e, he s hs, he t (h.trans hs)⟩

theorem unreached {e : Trap} (hs : loadAddr r base s = .error e s) (ht : loadAddr r base t = .error e t) :
    LoadsAlike r (.inner base slot) s t :=
  .inr ⟨e, by simp only [loadAddr, bind, EStateM.bind, hs], by simp only [loadAddr, bind, EStateM.bind, ht]⟩

/-- A field of a struct is read from the struct. -/
theorem inner {ty ty' : TypeId} {fields fields' : List Value}
    (hs : loadAddr r base s = .ok (.struct ty fields) s)
    (ht : loadAddr r base t = .ok (.struct ty' fields') t) (h : fields'[slot]? = fields[slot]?) :
    LoadsAlike r (.inner base slot) s t := by
  have hload : ∀ {u : State} {ty : TypeId} {fields : List Value},
      loadAddr r base u = .ok (.struct ty fields) u →
      loadAddr r (.inner base slot) u = orDangling (.inner base slot) fields[slot]? u := by
    intro u ty fields hu
    simp only [loadAddr, bind, EStateM.bind, hu]
  unfold LoadsAlike
  rw [hload hs, hload ht, h]
  cases fields[slot]? with
  | some x => exact .inl ⟨x, rfl, rfl⟩
  | none => exact .inr ⟨_, rfl, rfl⟩

/-- States that agree on the value that holds all the structs on the way agree on what is read. -/
theorem of_rootValue (ha : a.ThroughStructs r s) (h : rootValue? r t a.root = rootValue? r s a.root) :
    LoadsAlike r a s t := by
  induction a with
  | inner base slot ih =>
      rcases ih ha.1 h with ⟨x, hs, ht⟩ | ⟨e, hs, ht⟩
      · obtain ⟨ty, fields, rfl⟩ := ha.2 x s hs
        exact inner hs ht rfl
      · exact unreached hs ht
  | «local» k slot | arg k i | field ref slot | static f | elem ref i => exact root rfl h

end LoadsAlike

/-- What is read from a place of its own is there. -/
theorem Holds.of_load_root (hroot : a.root = a) (h : loadAddr r a s = .ok x t) : Holds r s a x := by
  cases hvalue : rootValue? r s a with
  | none =>
      obtain ⟨e, he⟩ := exists_error_of_root r hroot
      rw [he s hvalue] at h
      cases h
  | some y =>
      have hholds : Holds r s a y := ⟨y, by rw [hroot, hvalue], by rw [Addr.path_of_root hroot]; rfl⟩
      rw [hholds.load] at h
      cases h
      exact hholds

/-- What is read is at the location. -/
theorem Holds.of_load (ha : a.ThroughStructs r s) (h : loadAddr r a s = .ok x t) : Holds r s a x := by
  induction a generalizing x t with
  | inner base slot ih =>
      obtain ⟨y, u, hbase, hfield⟩ := ok_of_bind (x := loadAddr r base) h
      obtain ⟨ty, fields, rfl⟩ := ha.2 y u hbase
      obtain ⟨hx, -⟩ := orDangling_ok hfield
      obtain ⟨z, hz, hpart⟩ := ih ha.1 hbase
      exact ⟨z, hz, Value.part?_append_iff.mpr ⟨ty, fields, hpart, hx⟩⟩
  | «local» k slot | arg k i | field ref slot | static f | elem ref i => exact .of_load_root rfl h

/-! ## Writing -/

/-- A write that succeeds is to a place of its own or to a location that has a value. -/
theorem holds_of_store (ha : a.ThroughStructs r s) (h : storeAddr r a v s = .ok ⟨⟩ t) :
    a.root = a ∨ ∃ x, Holds r s a x := by
  cases a with
  | inner base slot =>
      obtain ⟨y, u, hbase, -⟩ := ok_of_bind (x := loadAddr r base) h
      obtain ⟨ty, fields, rfl⟩ := ha.2 y u hbase
      obtain ⟨z, hz, hpart⟩ := Holds.of_load ha.1 hbase
      simp only [storeAddr, bind, EStateM.bind, hbase] at h
      split at h
      · next hslot =>
        exact .inr ⟨fields[slot], z, hz,
          Value.part?_append_iff.mpr ⟨ty, fields, hpart, List.getElem?_eq_getElem hslot⟩⟩
      · cases h
  | _ => exact .inl rfl

/-- A write changes the value that holds all the structs on the way. -/
theorem exists_store_root (ha : a.ThroughStructs r s) (h : storeAddr r a v s = .ok ⟨⟩ t) :
    ∃ w, storeAddr r a.root w s = .ok ⟨⟩ t := by
  rcases holds_of_store ha h with hroot | ⟨x, hold⟩
  · exact ⟨v, by rw [hroot]; exact h⟩
  · obtain ⟨y, -, -, hstore⟩ := hold.store h
    exact ⟨_, hstore⟩

/-- What was written is read back. -/
theorem loadAddr_of_store (ha : a.ThroughStructs r s) (h : storeAddr r a v s = .ok ⟨⟩ t) :
    loadAddr r a t = .ok v t := by
  rcases holds_of_store ha h with hroot | ⟨x, hold⟩
  · have hwritten := (rootValue?_store hroot h).1
    exact Holds.load ⟨v, by rw [hroot, hwritten], by rw [Addr.path_of_root hroot]; rfl⟩
  · exact (hold.written h).load

/-- A struct around the location that was written has another value at the next step of the path, and
is the same otherwise. -/
theorem Holds.around (hold : Holds r s a x) (h : storeAddr r a v s = .ok ⟨⟩ t)
    (hin : a.LiesIn (.inner base slot)) :
    ∃ ty fields w, Holds r s base (.struct ty fields) ∧ slot < fields.length ∧
      Holds r t (.inner base slot) w ∧ Holds r t base (.struct ty (fields.set slot w)) := by
  obtain ⟨y, hy, hpart, hstore⟩ := hold.store h
  have hwritten := (rootValue?_store a.root_root hstore).1
  obtain ⟨hroot, rest, hrest⟩ := hin
  have hroot : a.root = base.root := hroot
  have hpath : a.path = base.path ++ slot :: rest := by simp [← hrest, Addr.path]
  rw [hpath, Value.part?_append] at hpart
  obtain ⟨z, hz, hinside⟩ := Option.bind_eq_some_iff.mp hpart
  cases z with
  | struct ty fields =>
      obtain ⟨k, hk, -⟩ := Option.bind_eq_some_iff.mp hinside
      obtain ⟨hslot, -⟩ := List.getElem?_eq_some_iff.mp hk
      have hafter : (Value.withPart v a.path y).part? base.path =
          some (.struct ty (fields.set slot (Value.withPart v rest k))) := by
        rw [hpath, Value.withPart_append hz, Value.withPart_field hk]
        exact Value.part?_withPart hz _
      refine ⟨ty, fields, Value.withPart v rest k, ⟨y, hroot ▸ hy, hz⟩, hslot, ?_, ?_⟩
      · exact ⟨_, hroot ▸ hwritten,
          Value.part?_append_iff.mpr ⟨ty, _, hafter, List.getElem?_set_self hslot⟩⟩
      · exact ⟨_, hroot ▸ hwritten, hafter⟩
  | _ => cases hinside

/-- What is read from a location apart from the one that was written stays. -/
theorem LoadsAlike.of_store (ha : a.ThroughStructs r s) (h : storeAddr r a v s = .ok ⟨⟩ t)
    (hb : b.ThroughStructs r s) (hapart : a.Apart b) : LoadsAlike r b s t := by
  obtain ⟨w, hstore⟩ := exists_store_root ha h
  obtain ⟨-, hothers⟩ := rootValue?_store a.root_root hstore
  by_cases hroot : a.root = b.root
  · have hinside : a.root ≠ a := by
      intro hself
      refine (hapart hroot).1 ?_
      rw [Addr.path_of_root hself]
      exact List.nil_prefix
    obtain ⟨x, hold⟩ := (holds_of_store ha h).resolve_left hinside
    -- On the way down to the location, the structs around the written one come first; behind the
    -- fork nothing has changed.
    induction b with
    | inner base slot ih =>
        by_cases hbase : a.Apart base
        · rcases ih hb.1 hbase hroot with ⟨y, hs, ht⟩ | ⟨e, hs, ht⟩
          · obtain ⟨ty, fields, rfl⟩ := hb.2 y s hs
            exact .inner hs ht rfl
          · exact .unreached hs ht
        · obtain ⟨i, hne, hin⟩ := hapart.of_inner hbase
          obtain ⟨ty, fields, w, hbefore, -, -, hafter⟩ := hold.around h hin
          exact .inner hbefore.load hafter.load (List.getElem?_set_ne hne)
    | «local» k slot | arg k i | field ref slot | static f | elem ref i =>
        exact absurd List.nil_prefix (hapart hroot).2
  · exact .of_rootValue hb (hothers b.root (Ne.symm hroot))

/-- A write to a place of its own that fails changes nothing. -/
theorem eq_of_storeAddr_root {e : Trap} (hroot : a.root = a) (h : storeAddr r a v s = .error e t) :
    t = s := by
  have hfound : ∀ {α : Type} {found : Option α} {f : α → Run PUnit},
      (∀ y, f y s = .error e t → t = s) → (orDangling a found >>= f) s = .error e t → t = s := by
    intro α found f hf h
    cases found with
    | some y => exact hf y h
    | none =>
        cases h
        rfl
  cases a with
  | inner base slot => exact absurd hroot (Addr.root_ne_inner _ _ _)
  | static f => cases h
  | field ref slot | elem ref i => exact hfound (fun y h => by cases h) h
  | «local» k slot | arg k i =>
      refine hfound (fun f h => ?_) h
      split at h
      · cases h
      · cases h
        rfl

/-- A write that fails changes nothing. -/
theorem eq_of_storeAddr {e : Trap} (ha : a.ThroughStructs r s) (h : storeAddr r a v s = .error e t) :
    t = s := by
  induction a generalizing v with
  | inner base slot ih =>
      rcases LoadsAlike.of_rootValue ha.1 rfl with ⟨y, hload, -⟩ | ⟨e', hload, -⟩
      · obtain ⟨ty, fields, rfl⟩ := ha.2 y s hload
        simp only [storeAddr, bind, EStateM.bind, hload] at h
        split at h
        · exact ih ha.1 h
        · cases h
          rfl
      · simp only [storeAddr, bind, EStateM.bind, hload] at h
        cases h
        rfl
  | «local» k slot | arg k i | field ref slot | static f | elem ref i => exact eq_of_storeAddr_root rfl h

/-- A write to a place of its own that has a value succeeds. -/
theorem exists_storeAddr_root (hroot : a.root = a) (hold : rootValue? r s a = some x) (v : Value) :
    ∃ t, storeAddr r a v s = .ok ⟨⟩ t := by
  cases a with
  | inner base slot => exact absurd hroot (Addr.root_ne_inner _ _ _)
  | static f => exact ⟨_, rfl⟩
  | field ref slot | elem ref i =>
      simp only [rootValue?] at hold
      simp only [storeAddr, bind, EStateM.bind, Run.get_apply, hold, orDangling]
      exact ⟨_, rfl⟩
  | «local» k slot | arg k i =>
      obtain ⟨f, hf, hvalue⟩ := Option.bind_eq_some_iff.mp hold
      obtain ⟨hslot, -⟩ := Array.getElem?_eq_some_iff.mp hvalue
      simp only [storeAddr, bind, EStateM.bind, Run.get_apply, hf, orDangling, pure, EStateM.pure, hslot,
        if_true]
      exact ⟨_, rfl⟩

/-- A write to a location that has a value succeeds. -/
theorem Holds.exists_store (hold : Holds r s a x) (v : Value) : ∃ t, storeAddr r a v s = .ok ⟨⟩ t := by
  induction a generalizing v x with
  | inner base slot ih =>
      obtain ⟨y, hy, hpart⟩ := hold
      obtain ⟨ty, fields, hbase, hx⟩ := Value.part?_append_iff.mp hpart
      obtain ⟨hslot, -⟩ := List.getElem?_eq_some_iff.mp hx
      have hholds : Holds r s base (.struct ty fields) := ⟨y, hy, hbase⟩
      simp only [storeAddr, bind, EStateM.bind, hholds.load, hslot, if_true]
      exact ih hholds _
  | «local» k slot | arg k i | field ref slot | static f | elem ref i =>
      obtain ⟨y, hy, -⟩ := hold
      exact exists_storeAddr_root rfl hy v

/-- Addresses that lead through structs behave as storage.  What a write stores is read back; every
address that is apart from it reads as before; a struct around it differs at the next step of the path
only.  A write that fails changes nothing, and none fails where a value can be read. -/
theorem stored_through_structs (ha : a.ThroughStructs r s) (v : Value) :
    (∀ t, storeAddr r a v s = .ok ⟨⟩ t →
      loadAddr r a t = .ok v t ∧
      (∀ b, b.ThroughStructs r s → a.Apart b → LoadsAlike r b s t) ∧
      (∀ base slot, a.LiesIn (.inner base slot) → ∃ ty fields w,
        loadAddr r base s = .ok (.struct ty fields) s ∧ slot < fields.length ∧
          loadAddr r (.inner base slot) t = .ok w t ∧
          loadAddr r base t = .ok (.struct ty (fields.set slot w)) t)) ∧
    (∀ e t, storeAddr r a v s = .error e t → t = s) ∧
    (∀ x t, loadAddr r a s = .ok x t → ∃ t', storeAddr r a v s = .ok ⟨⟩ t') := by
  refine ⟨fun t h => ⟨loadAddr_of_store ha h, ?_, ?_⟩, fun e t h => eq_of_storeAddr ha h, ?_⟩
  · exact fun b hb hapart => .of_store ha h hb hapart
  · intro base slot hin
    have hinside : a.root ≠ a := by
      intro hself
      have hnil := List.prefix_nil.mp (Addr.path_of_root hself ▸ hin.2)
      exact List.append_ne_nil_of_right_ne_nil _ (List.cons_ne_nil _ _) hnil
    obtain ⟨x, hold⟩ := (holds_of_store ha h).resolve_left hinside
    obtain ⟨ty, fields, w, hbefore, hslot, hwritten, hafter⟩ := hold.around h hin
    exact ⟨ty, fields, w, hbefore.load, hslot, hwritten.load, hafter.load⟩
  · exact fun x t h => (Holds.of_load ha h).exists_store v

/-- A call whose only variable is a struct with a struct in its first field. -/
def nestedState : State :=
  { State.initial with
    frames := [⟨#[], #[.struct 8 [.struct 9 [.int 1, .int 2], .int 3]], [], []⟩] }

/-- An assignment to a field of the inner struct leaves the other fields of both as they are. -/
theorem stored_through_structs_nested :
    ∃ t, storeAddr .builtin (.inner (.inner (.local 0 0) 0) 1) (.int 7) nestedState = .ok ⟨⟩ t ∧
      loadAddr .builtin (.inner (.inner (.local 0 0) 0) 1) t = .ok (.int 7) t ∧
      LoadsAlike .builtin (.inner (.inner (.local 0 0) 0) 0) nestedState t ∧
      LoadsAlike .builtin (.inner (.local 0 0) 1) nestedState t := by
  have hpath : (Addr.inner (.inner (.local 0 0) 0) 1).ThroughStructs .builtin nestedState := by
    refine ⟨⟨trivial, fun v t h => ?_⟩, fun v t h => ?_⟩ <;> cases h <;> exact ⟨_, _, rfl⟩
  obtain ⟨hstored, -, hstores⟩ := stored_through_structs hpath (.int 7)
  obtain ⟨t, ht⟩ := hstores (.int 2) nestedState rfl
  obtain ⟨hread, hothers, -⟩ := hstored t ht
  refine ⟨t, ht, hread, hothers _ hpath ?_, hothers _ hpath.1 ?_⟩ <;> unfold Addr.Apart <;> decide

end Run

end Arbor
