/-
  Initializers of members.

  The bindings of an initializer are applied in order, each to the new instance or
  to what a member of it holds.  A member that is backed by a slot is written where
  the instance has that slot.  All else that happens is done by values, by accessors
  and by methods that add elements.  So a location that these leave alone, and that
  is apart from the slots of the members that are named, keeps its value, and a slot
  that is written holds what was written to it last.
-/
import Arbor.Proofs.Machine.Locations
import Arbor.Proofs.Machine.Waiting
import Arbor.Proofs.Semantics.FieldSlots
import Arbor.Proofs.Simulation.Places

set_option autoImplicit false

namespace Arbor

/-! ## Changes -/

/-- A scene changes by writes to locations that hold something, in the order of the list, and otherwise
as others may change it. -/
inductive Scene.Changes (r : Registry) (others : Scene → Scene → Prop) :
    Scene → List (Addr × Value) → Scene → Prop
  | done {c : Scene} : Changes r others c [] c
  | foreign {c c₁ c' : Scene} {W : List (Addr × Value)} (h : others c c₁)
      (hrest : Changes r others c₁ W c') : Changes r others c W c'
  | write {c c₁ c' : Scene} {W : List (Addr × Value)} {a : Addr} {old v : Value} (hold : c.Holds r a old)
      (hwrites : c.Writes r a v c₁) (hrest : Changes r others c₁ W c') :
      Changes r others c ((a, v) :: W) c'

/-- Others leave the location alone. -/
def Scene.Spared (r : Registry) (others : Scene → Scene → Prop) (a : Addr) : Prop :=
  ∀ c c' x, others c c' → c.Holds r a x → c'.Holds r a x

namespace Scene.Changes

variable {r : Registry} {others : Scene → Scene → Prop} {c c₁ c' : Scene} {W W' : List (Addr × Value)}

/-- Changes one after the other. -/
theorem append (h : Changes r others c W c₁) (h' : Changes r others c₁ W' c') :
    Changes r others c (W ++ W') c' := by
  induction h with
  | done => exact h'
  | foreign h _ ih => exact .foreign h (ih h')
  | write hold hwrites _ ih => exact .write hold hwrites (ih h')

/-- A location apart from all that are written keeps its value. -/
theorem keeps {b : Addr} {x : Value} (h : Changes r others c W c') (hspared : Spared r others b)
    (hapart : ∀ w ∈ W, w.1.Apart b) (hb : c.Holds r b x) : c'.Holds r b x := by
  induction h with
  | done => exact hb
  | foreign h _ ih => exact ih hapart (hspared _ _ _ h hb)
  | write hold hwrites _ ih =>
      obtain ⟨hfirst, hapart⟩ := List.forall_mem_cons.mp hapart
      exact ih hapart (hwrites.kept hold hfirst hb)

/-- What is written last to a location is there. -/
theorem written {a : Addr} {v : Value} (h : Changes r others c (W ++ (a, v) :: W') c')
    (hspared : Spared r others a) (hapart : ∀ w ∈ W', w.1.Apart a) : c'.Holds r a v := by
  generalize hall : W ++ (a, v) :: W' = all at h
  induction h generalizing W with
  | done => simp at hall
  | foreign _ _ ih => exact ih hall
  | write hold hwrites hrest ih =>
      cases W with
      | nil =>
          simp only [List.nil_append, List.cons.injEq, Prod.mk.injEq] at hall
          obtain ⟨⟨rfl, rfl⟩, rfl⟩ := hall
          exact hrest.keeps hspared hapart (hwrites.written hold)
      | cons _ _ =>
          rw [List.cons_append, List.cons.injEq] at hall
          exact ih hall.2

end Scene.Changes

/-! ## Members -/

/-- Storing a value of the type in the member of an instance writes the field: the member is an instance
field, or a property whose setter writes one. -/
inductive MemberTarget.Backed (r : Registry) : MemberTarget → FieldRef → Ty → Prop
  | field {f : FieldRef} {d : FieldDef} (hd : r.field f = .ok d) (hinstance : d.isStatic = false) :
      Backed r (.field f) f d.ty
  | property {p : PropertyRef} {d : PropertyDef} {id : TypeId} {i : Nat} {own : Ty} {name param : String}
      {ty : Ty} {byRef : Bool} {f : FieldRef} {fd : FieldDef} (hd : r.property p = .ok d)
      (hsetter : d.setter = some (.method id i)) (hown : r.tyOf id = .ok own)
      (hm : r.method id i = .ok ⟨name, [⟨param, ty, byRef⟩], .void, .member, .setter f⟩)
      (hfield : r.field f = .ok fd) (hinstance : fd.isStatic = false) : Backed r (.property p) f d.ty

/-- A member is backed by one field. -/
theorem MemberTarget.Backed.unique {r : Registry} {m : MemberTarget} {f g : FieldRef} {ty ty' : Ty}
    (h : m.Backed r f ty) (h' : m.Backed r g ty') : f = g ∧ ty = ty' := by
  cases h with
  | field hd hinstance =>
      cases h' with
      | field hd' hinstance' =>
          obtain rfl := Except.ok.inj (hd.symm.trans hd')
          exact ⟨rfl, rfl⟩
  | property hd hsetter hown hm hfield hinstance =>
      cases h' with
      | property hd' hsetter' hown' hm' hfield' hinstance' =>
          obtain rfl := Except.ok.inj (hd.symm.trans hd')
          obtain ⟨rfl, rfl⟩ := MethodRef.method.inj (Option.some.inj (hsetter.symm.trans hsetter'))
          cases hm.symm.trans hm'
          exact ⟨rfl, rfl⟩

theorem MemberTarget.Backed.instance {r : Registry} {m : MemberTarget} {f : FieldRef} {ty : Ty}
    (h : m.Backed r f ty) : ∃ d, r.field f = .ok d ∧ d.isStatic = false := by
  cases h with
  | field hd hinstance => exact ⟨_, hd, hinstance⟩
  | property _ _ _ _ hfield hinstance => exact ⟨_, hfield, hinstance⟩

/-- The binding replaces the field of an instance, or what is in the struct that the field holds. -/
inductive Binding.Names (r : Registry) : Binding Node → FieldRef → Prop
  | assign {m : MemberTarget} {value : Node} {f : FieldRef} {ty : Ty} (h : m.Backed r f ty) :
      Names r (.assign m value) f
  | struct {f : FieldRef} {d : FieldDef} {inner : List (Binding Node)} (hd : r.field f = .ok d)
      (hinstance : d.isStatic = false) (hvalue : d.ty.isValueType = true) : Names r (.member (.field f) inner) f

theorem Binding.Names.instance {r : Registry} {b : Binding Node} {f : FieldRef} (h : b.Names r f) :
    ∃ d, r.field f = .ok d ∧ d.isStatic = false := by
  cases h with
  | assign h => exact h.instance
  | struct hd hinstance => exact ⟨_, hd, hinstance⟩

/-- A setter of an instance that writes a field. -/
theorem Run.Steps.callSetter {r : Registry} {R : Routine} {id : TypeId} {i : Nat} {own ty : Ty}
    {name param : String} {byRef : Bool} {f : FieldRef} {slot : Nat} {c c' : Scene} {a : Addr}
    {v target : Value} {stack : List Value} (hown : r.tyOf id = .ok own)
    (hm : r.method id i = .ok ⟨name, [⟨param, ty, byRef⟩], .void, .member, .setter f⟩)
    (hslot : r.fieldSlot f = .ok slot) (hmember : target.member? slot = some a) (h : c.Writes r a v c') :
    Steps r R (.call (.method id i)) (c.state (v :: target :: stack)) (.ok .next (c'.state stack)) := by
  refine .of_forall fun call => ?_
  have hsig : r.signature (.method id i) = .ok ⟨some own, [(ty, byRef)], .void⟩ := by
    simp [Registry.signature, hm, hown, bind, Except.bind]
  have hpop : popN 2 (c.state (v :: target :: stack)) = .ok [target, v] (c.state stack) :=
    popN_state [target, v]
  have hcall : callMethod r call (.method id i) [target, v] (c.state stack) = .ok .null (c'.state stack) := by
    have hstore : Run.storeField r target f v (c.state stack) = .ok ⟨⟩ (c'.state stack) :=
      storeField_ok hslot hmember h
    cases target with
    | object ref | addr base =>
        simp [callMethod, hm, ofLookup, runBody, hstore, bind, EStateM.bind, pure, EStateM.pure]
    | _ => cases hmember
  change EStateM.bind (ofLookup (r.signature (.method id i))) (fun sig => EStateM.bind (popN sig.arity)
    fun args => EStateM.bind (callMethod r call (.method id i) args) fun v =>
      if sig.ret.isVoid then pure .next else pushNext v) _ = _
  have harity : Signature.arity ⟨some own, [(ty, byRef)], .void⟩ = 2 := rfl
  simp only [EStateM.bind, hsig, ofLookup, pure, EStateM.pure, harity, hpop, hcall]
  rfl

theorem Run.Steps.loadLocalAddr {r : Registry} {R : Routine} (c : Scene) (slot : Nat) (stack : List Value) :
    Steps r R (.loadLocalAddr slot) (c.state stack)
      (.ok .next (c.state (.addr (.local c.around.outer.length slot) :: stack))) :=
  .of_forall fun _ => rfl

section

variable {setting : Setting} {R : Routine} {hR : R.WithinLimits} {start : Nat} {s t : Emission}

/-- An instruction leads on to the code behind it. -/
theorem Job.Emits.goesOn {i : Instr} {x y : State}
    (h : (Job.ofRoutine setting hR).Emits start (Emit.instr i) s () t)
    (hstep : Run.Steps setting.registry R i x (.ok .next y)) :
    Run.Leads setting.registry R s.position x t.position y := by
  obtain ⟨hcode, hposition, -⟩ := h.instr
  rw [hposition]
  exact .next hcode hstep

/-- A value is moved to a local. -/
theorem Job.Emits.spillLeads {ty : Ty} {slot : Nat} {c : Scene} {x : Value}
    (h : (Job.ofRoutine setting hR).Emits start (Emit.spill ty) s slot t)
    (hlocal : slot < c.memory.locals.size) (stack : List Value) :
    Run.Leads setting.registry R s.position (c.state (x :: stack)) t.position
      (Scene.state { c with memory := c.memory.setLocal slot x } stack) := by
  obtain ⟨_, u, htemp, h⟩ := h.bind
  obtain ⟨⟨⟩, v, hstore, h⟩ := h.bind
  obtain ⟨rfl, rfl⟩ := h.pure
  rw [← htemp.temp.1]
  exact hstore.goesOn (.storeLocal c.memory c.around stack x hlocal)

/-- A value is stored in a member that is backed by a field. -/
theorem Job.Emits.storeMember {m : MemberTarget} {source ty : Ty} {f : FieldRef} {slot : Nat}
    {c c' : Scene} {a : Addr} {v target : Value}
    (h : (Job.ofRoutine setting hR).Emits start (Emit.storeMember m source) s () t)
    (hbacked : m.Backed setting.registry f ty) (hslot : setting.registry.fieldSlot f = .ok slot)
    (hmember : target.member? slot = some a)
    (hwrites : c.Writes setting.registry a (Eval.coerced source ty v) c') (stack : List Value) :
    Run.Leads setting.registry R s.position (c.state (v :: target :: stack)) t.position
      (c'.state stack) := by
  -- The value is brought into the type of the member first.
  have hcoerce : ∀ {what : String} {u : Emission},
      (Job.ofRoutine setting hR).Emits start (Emit.coerce source ty what) s () u →
      Run.Leads setting.registry R s.position (c.state (v :: target :: stack)) u.position
        (c.state (Eval.coerced source ty v :: target :: stack)) := by
    intro what u h
    rcases h.coerced with ⟨rfl, hsame⟩ | ⟨i, hi, -, hsteps⟩
    · rw [hsame]
      exact .refl _ _
    · exact hi.goesOn (hsteps c.memory c.around (target :: stack) v)
  cases hbacked with
  | field hd hinstance =>
      obtain ⟨d', s₁, hlookup, hcode⟩ := Job.Emits.bind (x := Emit.lookup _) h
      obtain ⟨hd', rfl⟩ := hlookup.lookup
      obtain rfl := Except.ok.inj (hd.symm.trans hd')
      rw [Job.Emits.seq_iff] at hcode
      obtain ⟨u, hvalue, hstore⟩ := hcode
      exact (hcoerce hvalue).trans (hstore.goesOn (.storeField hslot hmember hwrites))
  | property hd hsetter hown hm hfield hinstance =>
      obtain ⟨d', s₁, hlookup, hcode⟩ := Job.Emits.bind (x := Emit.lookup _) h
      obtain ⟨hd', rfl⟩ := hlookup.lookup
      obtain rfl := Except.ok.inj (hd.symm.trans hd')
      simp only [↓Job.Emits.seq_iff, Job.Emits.bind_iff] at hcode
      obtain ⟨u, hvalue, m, s₂, haccessor, hcall⟩ := hcode
      obtain ⟨rfl, d', hd', hm'⟩ := haccessor.accessor
      obtain rfl := Except.ok.inj (hd.symm.trans hd')
      obtain rfl := Option.some.inj (hsetter.symm.trans hm')
      exact (hcoerce hvalue).trans (hcall.goesOn (.callSetter hown hm hslot hmember hwrites))

end

/-! ## Bindings -/

section

variable (setting : Setting) {R : Routine} (hR : R.WithinLimits) (start : Nat) (exit : Option Label)
  (opened : Value → Prop) (others : Scene → Scene → Prop)

/-- Code from `s` to `t` that is not the initializer's own runs to its end.  It replaces values on the
stack and changes the scene as others may. -/
structure Foreign (R : Routine) (s t : Emission) (c : Scene) (given : List Value) (c' : Scene)
    (left : List Value) : Prop where
  changes : others c c'
  same : Run.Around.Same c.around c'.around
  leads : ∀ stack, Run.Leads setting.registry R s.position (c.state (given ++ stack)) t.position
    (c'.state (left ++ stack))

/-- The code from `s` to `t` replaces the instance `target` by `x`, which a member of it holds: the address
of a struct, a reference, or what a getter returns. -/
inductive Opens (R : Routine) (s t : Emission) (target : Value) (c : Scene) :
    MemberTarget → Value → Scene → Prop
  | address {f : FieldRef} {d : FieldDef} {slot : Nat} {a : Addr}
      (hd : setting.registry.field f = .ok d) (hinstance : d.isStatic = false)
      (hvalue : d.ty.isValueType = true) (hslot : setting.registry.fieldSlot f = .ok slot)
      (hmember : target.member? slot = some a) : Opens R s t target c (.field f) (.addr a) c
  | reference {f : FieldRef} {d : FieldDef} {slot : Nat} {a : Addr} {x : Value}
      (hd : setting.registry.field f = .ok d) (hinstance : d.isStatic = false)
      (hvalue : d.ty.isValueType = false) (hslot : setting.registry.fieldSlot f = .ok slot)
      (hmember : target.member? slot = some a) (hx : c.Holds setting.registry a x) (hopened : opened x) :
      Opens R s t target c (.field f) x c
  | getter {p : PropertyRef} {x : Value} {c' : Scene}
      (hcall : Foreign setting others R s t c [target] c' [x]) (hopened : opened x) :
      Opens R s t target c (.property p) x c'

/-- The code from `s` to `t` applies bindings to the instance `target`, which `load` pushes for each, and
completes.  The writes to fields are listed, with the values that are written. -/
inductive Binds : Instr → List (Binding Node) → Emission → Emission → Value → Scene → List (Addr × Value) →
    Scene → Prop
  | done {load : Instr} {s : Emission} {target : Value} {c : Scene} : Binds load [] s s target c [] c
  | write {load : Instr} {m : MemberTarget} {f : FieldRef} {ty : Ty} {slot : Nat} {value : Node}
      {rest : List (Binding Node)} {s s₁ u t₁ t : Emission} {used : Bool} {target old v : Value} {a : Addr}
      {c c₁ c₂ c' : Scene} {W : List (Addr × Value)}
      (hload : (Job.ofRoutine setting hR).Emits start (Emit.instr load) s () s₁)
      (hvalue : (Job.ofRoutine setting hR).Emits start (value.value exit) s₁ used u)
      (hstore : (Job.ofRoutine setting hR).Emits start (Emit.storeMember m value.ty) u () t₁)
      (hbacked : m.Backed setting.registry f ty) (hslot : setting.registry.fieldSlot f = .ok slot)
      (hmember : target.member? slot = some a) (hruns : Foreign setting others R s₁ u c [] c₁ [v])
      (hold : c₁.Holds setting.registry a old)
      (hwrites : c₁.Writes setting.registry a (Eval.coerced value.ty ty v) c₂)
      (hrest : Binds load rest t₁ t target c₂ W c') :
      Binds load (.assign m value :: rest) s t target c ((a, Eval.coerced value.ty ty v) :: W) c'
  | setter {load : Instr} {p : PropertyRef} {value : Node} {rest : List (Binding Node)}
      {s s₁ u t₁ t : Emission} {used : Bool} {target v : Value} {c c₁ c₂ c' : Scene}
      {W : List (Addr × Value)}
      (hload : (Job.ofRoutine setting hR).Emits start (Emit.instr load) s () s₁)
      (hvalue : (Job.ofRoutine setting hR).Emits start (value.value exit) s₁ used u)
      (hstore : (Job.ofRoutine setting hR).Emits start (Emit.storeMember (.property p) value.ty) u () t₁)
      (hbacked : ∀ f ty, ¬ (MemberTarget.property p).Backed setting.registry f ty)
      (hruns : Foreign setting others R s₁ u c [] c₁ [v])
      (hcall : Foreign setting others R u t₁ c₁ [v, target] c₂ [])
      (hrest : Binds load rest t₁ t target c₂ W c') :
      Binds load (.assign (.property p) value :: rest) s t target c W c'
  | member {load : Instr} {m : MemberTarget} {inner rest : List (Binding Node)}
      {s s₁ u w t₁ t : Emission} {target x : Value} {c c₁ c₂ c' : Scene} {W W' : List (Addr × Value)}
      (hload : (Job.ofRoutine setting hR).Emits start (Emit.instr load) s () s₁)
      (hopen : (Job.ofRoutine setting hR).Emits start (Emit.loadMember m) s₁ () u)
      (hpop : (Job.ofRoutine setting hR).Emits start (Emit.instr .pop) w () t₁)
      (hopens : Opens setting opened others R s₁ u target c m x c₁) (hinner : Binds .dup inner u w x c₁ W c₂)
      (hrest : Binds load rest t₁ t target c₂ W' c') :
      Binds load (.member m inner :: rest) s t target c (W ++ W') c'
  | list {load : Instr} {m : MemberTarget} {items : List (ElementInit Node)} {rest : List (Binding Node)}
      {s s₁ u w t₁ t : Emission} {used : Bool} {target x : Value} {c c₁ c₂ c' : Scene}
      {W : List (Addr × Value)}
      (hload : (Job.ofRoutine setting hR).Emits start (Emit.instr load) s () s₁)
      (hopen : (Job.ofRoutine setting hR).Emits start (Emit.loadMember m) s₁ () u)
      (hitems : (Job.ofRoutine setting hR).Emits start (Emit.elementInits exit items) u used w)
      (hpop : (Job.ofRoutine setting hR).Emits start (Emit.instr .pop) w () t₁)
      (hopens : Opens setting opened others R s₁ u target c m x c₁)
      (hadds : Foreign setting others R u w c₁ [x] c₂ [x])
      (hrest : Binds load rest t₁ t target c₂ W c') :
      Binds load (.list m items :: rest) s t target c W c'

end

/-! ## Named locations -/

/-- Bindings of an instance name the location: it is that of a member that is assigned, of the instance
itself, of a struct in it, or of an instance that was opened. -/
inductive Reaches (r : Registry) (opened : Value → Prop) : List (Binding Node) → Value → Addr → Prop
  | assign {bindings : List (Binding Node)} {m : MemberTarget} {value : Node} {f : FieldRef} {ty : Ty}
      {slot : Nat} {target : Value} {a : Addr} (hb : .assign m value ∈ bindings) (hbacked : m.Backed r f ty)
      (hslot : r.fieldSlot f = .ok slot) (hmember : target.member? slot = some a) :
      Reaches r opened bindings target a
  | struct {bindings inner : List (Binding Node)} {f : FieldRef} {d : FieldDef} {slot : Nat} {target : Value}
      {base a : Addr} (hb : .member (.field f) inner ∈ bindings) (hd : r.field f = .ok d)
      (hinstance : d.isStatic = false) (hvalue : d.ty.isValueType = true) (hslot : r.fieldSlot f = .ok slot)
      (hmember : target.member? slot = some base) (h : Reaches r opened inner (.addr base) a) :
      Reaches r opened bindings target a
  | opened {bindings inner : List (Binding Node)} {m : MemberTarget} {target x : Value} {a : Addr}
      (hb : .member m inner ∈ bindings) (hx : opened x) (h : Reaches r opened inner x a) :
      Reaches r opened bindings target a

/-- The binding does not name the field of an instance, but others of it. -/
def Binding.Misses (r : Registry) (g : FieldRef) (b : Binding Node) : Prop :=
  ∀ f, b.Names r f → f ≠ g ∧ (r.Derives f.ty g.ty ∨ r.Derives g.ty f.ty)

namespace Reaches

variable {r : Registry} {opened : Value → Prop} {bindings : List (Binding Node)} {target : Value} {a : Addr}

/-- More bindings name no fewer locations. -/
theorem cons (h : Reaches r opened bindings target a) (b : Binding Node) :
    Reaches r opened (b :: bindings) target a := by
  cases h with
  | assign hb hbacked hslot hmember => exact .assign (List.mem_cons_of_mem _ hb) hbacked hslot hmember
  | struct hb hd hinstance hvalue hslot hmember h =>
      exact .struct (List.mem_cons_of_mem _ hb) hd hinstance hvalue hslot hmember h
  | opened hb hx h => exact .opened (List.mem_cons_of_mem _ hb) hx h

/-- A named location lies within a field that is named, or within a member of an instance that was
opened. -/
theorem within (h : Reaches r opened bindings target a) :
    (∃ b ∈ bindings, ∃ f slot m, b.Names r f ∧ r.fieldSlot f = .ok slot ∧
      target.member? slot = some m ∧ a.LiesIn m) ∨
      ∃ x slot m, opened x ∧ x.member? slot = some m ∧ a.LiesIn m := by
  induction h with
  | assign hb hbacked hslot hmember =>
      exact .inl ⟨_, hb, _, _, _, .assign hbacked, hslot, hmember, rfl, List.prefix_rfl⟩
  | struct hb hd hinstance hvalue hslot hmember _ ih =>
      rcases ih with ⟨_, _, _, _, _, _, _, hinner, hlies⟩ | hopened
      · cases hinner
        exact .inl ⟨_, hb, _, _, _, .struct hd hinstance hvalue, hslot, hmember, hlies.outer⟩
      · exact .inr hopened
  | opened hb hx _ ih =>
      rcases ih with ⟨_, _, _, slot, m, _, _, hmember, hlies⟩ | hopened
      · exact .inr ⟨_, slot, m, hx, hmember, hlies⟩
      · exact .inr hopened

/-- A named location is apart from a field that is not named. -/
theorem apart (h : Reaches r opened bindings target a) {g : FieldRef} {d : FieldDef} {slot : Nat} {b : Addr}
    (hd : r.field g = .ok d) (hinstance : d.isStatic = false) (hslot : r.fieldSlot g = .ok slot)
    (hmember : target.member? slot = some b) (hmisses : ∀ x ∈ bindings, x.Misses r g)
    (haway : ∀ x, opened x → x.AwayFrom b) : a.Apart b := by
  rcases h.within with ⟨x, hx, f, slot', m, hnames, hslot', hmember', hlies⟩ | ⟨x, slot', m, hx, hm, hlies⟩
  · obtain ⟨d', hd', hinstance'⟩ := hnames.instance
    obtain ⟨hne, hsub | hsup⟩ := hmisses x hx f hnames
    · have hslots := Registry.fieldSlot_ne hd' hd hinstance' hinstance hslot' hslot hsub hne
      exact Value.member?_apart hslots hmember' hmember hlies
    · have hslots := Registry.fieldSlot_ne hd hd' hinstance hinstance' hslot hslot' hsup hne.symm
      exact Value.member?_apart hslots.symm hmember' hmember hlies
  · intro hsame
    exact absurd (hlies.1.symm.trans hsame) (haway x hx slot' m hm)

/-- A named location is no static field. -/
theorem apart_static (h : Reaches r opened bindings target a) {g : FieldRef}
    (htarget : target.AwayFrom (.static g)) (haway : ∀ x, opened x → x.AwayFrom (.static g)) :
    a.Apart (.static g) := by
  intro hsame
  rcases h.within with ⟨_, _, _, slot, m, _, _, hmember, hlies⟩ | ⟨x, slot, m, hx, hmember, hlies⟩
  · exact absurd (hlies.1.symm.trans hsame) (htarget slot m hmember)
  · exact absurd (hlies.1.symm.trans hsame) (haway x hx slot m hmember)

end Reaches

/-! ## Code of bindings -/

namespace Job.Emits

variable {J : Job} {start : Nat} {s t : Emission} {exit : Option Label} {used : Bool}

theorem unique {α : Type} {x : Emit α} {t' : Emission} {a a' : α} (h : J.Emits start x s a t)
    (h' : J.Emits start x s a' t') : t = t' := by
  have hrun := h.run.symm.trans h'.run
  cases hrun
  rfl

/-- Bindings are applied one after the other. -/
theorem eachBinding_cons {load : Emit Unit} {b : Binding Node} {rest : List (Binding Node)}
    (h : J.Emits start (Emit.eachBinding exit load (b :: rest)) s used t) :
    ∃ s₁ first t₁ later, J.Emits start load s () s₁ ∧ J.Emits start (Emit.binding exit b) s₁ first t₁ ∧
      J.Emits start (Emit.eachBinding exit load rest) t₁ later t := by
  obtain ⟨⟨⟩, s₁, hload, h⟩ := Job.Emits.bind (x := load) h
  obtain ⟨first, t₁, hbinding, h⟩ := h.bind
  obtain ⟨later, t₂, hrest, h⟩ := h.bind
  obtain ⟨-, rfl⟩ := h.pure
  exact ⟨s₁, first, t₁, later, hload, hbinding, hrest⟩

/-- An assignment of a member. -/
theorem binding_assign {m : MemberTarget} {value : Node}
    (h : J.Emits start (Emit.binding exit (.assign m value)) s used t) :
    ∃ u, J.Emits start (value.value exit) s used u ∧
      J.Emits start (Emit.storeMember m value.ty) u () t := by
  obtain ⟨_, u, hvalue, h⟩ := Job.Emits.bind (x := value.value exit) h
  obtain ⟨⟨⟩, t₁, hstore, h⟩ := h.bind
  obtain ⟨rfl, rfl⟩ := h.pure
  exact ⟨u, hvalue, hstore⟩

/-- Bindings of what a member holds. -/
theorem binding_member {m : MemberTarget} {inner : List (Binding Node)}
    (h : J.Emits start (Emit.binding exit (.member m inner)) s used t) :
    ∃ u w, J.Emits start (Emit.loadMember m) s () u ∧
      J.Emits start (Emit.eachBinding exit (Emit.instr .dup) inner) u used w ∧
      J.Emits start (Emit.instr .pop) w () t := by
  obtain ⟨⟨⟩, u, hopen, h⟩ := Job.Emits.bind (x := Emit.loadMember m) h
  obtain ⟨_, w, hinner, h⟩ := h.bind
  obtain ⟨⟨⟩, t₁, hpop, h⟩ := h.bind
  obtain ⟨rfl, rfl⟩ := h.pure
  exact ⟨u, w, hopen, hinner, hpop⟩

/-- Elements that are added to what a member holds. -/
theorem binding_list {m : MemberTarget} {items : List (ElementInit Node)}
    (h : J.Emits start (Emit.binding exit (.list m items)) s used t) :
    ∃ u w, J.Emits start (Emit.loadMember m) s () u ∧
      J.Emits start (Emit.elementInits exit items) u used w ∧
      J.Emits start (Emit.instr .pop) w () t := by
  obtain ⟨⟨⟩, u, hopen, h⟩ := Job.Emits.bind (x := Emit.loadMember m) h
  obtain ⟨_, w, hitems, h⟩ := h.bind
  obtain ⟨⟨⟩, t₁, hpop, h⟩ := h.bind
  obtain ⟨rfl, rfl⟩ := h.pure
  exact ⟨u, w, hopen, hitems, hpop⟩

/-- Bindings of a new instance of a class. -/
theorem memberInit_class {init : Node} {bindings : List (Binding Node)} {e : Emitted}
    (hclass : init.ty.isValueType = false) (h : J.Emits start (Emit.memberInit init bindings exit) s e t) :
    ∃ used u later, J.Emits start (init.value exit) s used u ∧
      J.Emits start (Emit.eachBinding exit (Emit.instr .dup) bindings) u later t := by
  unfold Emit.memberInit at h
  rw [if_neg (by rw [hclass]; exact Bool.false_ne_true)] at h
  obtain ⟨used, u, hinit, h⟩ := h.bind
  obtain ⟨later, w, hbindings, h⟩ := h.bind
  obtain ⟨-, rfl⟩ := h.pure
  exact ⟨used, u, later, hinit, hbindings⟩

/-- Bindings of a new struct, which is in a local meanwhile. -/
theorem memberInit_struct {init : Node} {bindings : List (Binding Node)} {e : Emitted}
    (hstruct : init.ty.isValueType = true) (h : J.Emits start (Emit.memberInit init bindings exit) s e t) :
    ∃ used u slot v later w t', J.Emits start (init.value exit) s used u ∧
      J.Emits start (Emit.spill init.ty) u slot v ∧
      J.Emits start (Emit.eachBinding exit (Emit.instr (.loadLocalAddr slot)) bindings) v later w ∧
      J.Emits start (Emit.instr (.loadLocal slot)) w () t' ∧ t.position = t'.position := by
  unfold Emit.memberInit at h
  rw [if_pos hstruct] at h
  obtain ⟨_, h, hposition⟩ := h.withTemps
  obtain ⟨used, u, hinit, h⟩ := h.bind
  obtain ⟨slot, v, hspill, h⟩ := h.bind
  obtain ⟨later, w, hbindings, h⟩ := h.bind
  obtain ⟨⟨⟩, t', hload, h⟩ := h.bind
  obtain ⟨-, rfl⟩ := h.pure
  exact ⟨used, u, slot, v, later, w, _, hinit, hspill, hbindings, hload, hposition⟩

end Job.Emits

section

variable {setting : Setting} {R : Routine} {hR : R.WithinLimits} {start : Nat} {s t u : Emission}
  {exit : Option Label} {opened : Value → Prop} {others : Scene → Scene → Prop} {c c' : Scene}
  {target x : Value}

theorem Run.Around.Same.length {a b : Around} (h : Same a b) : b.outer.length = a.outer.length := by
  simpa using congrArg List.length h.outer

theorem Opens.changes {m : MemberTarget} (h : Opens setting opened others R s t target c m x c') :
    Scene.Changes setting.registry others c [] c' ∧ c'.around.outer.length = c.around.outer.length := by
  cases h with
  | address | reference => exact ⟨.done, rfl⟩
  | getter hcall _ => exact ⟨.foreign hcall.changes .done, hcall.same.length⟩

/-- Reaching what a member holds, as it is executed. -/
theorem Opens.leads {m : MemberTarget} (h : Opens setting opened others R s t target c m x c')
    (hcode : (Job.ofRoutine setting hR).Emits start (Emit.loadMember m) s () t) (stack : List Value) :
    Run.Leads setting.registry R s.position (c.state (target :: stack)) t.position
      (c'.state (x :: stack)) := by
  cases h with
  | address hd hinstance hvalue hslot hmember =>
      obtain ⟨d', s₁, hlookup, hcode⟩ := Job.Emits.bind (x := Emit.lookup _) hcode
      obtain ⟨hd', rfl⟩ := hlookup.lookup
      obtain rfl := Except.ok.inj (hd.symm.trans hd')
      rw [if_pos hvalue] at hcode
      exact hcode.goesOn (.loadFieldAddr hslot hmember)
  | reference hd hinstance hvalue hslot hmember hx _ =>
      obtain ⟨d', s₁, hlookup, hcode⟩ := Job.Emits.bind (x := Emit.lookup _) hcode
      obtain ⟨hd', rfl⟩ := hlookup.lookup
      obtain rfl := Except.ok.inj (hd.symm.trans hd')
      rw [if_neg (by rw [hvalue]; exact Bool.false_ne_true)] at hcode
      exact hcode.goesOn (.loadField hslot hmember hx)
  | getter hcall _ => exact hcall.leads stack

namespace Binds

variable {load : Instr} {bindings : List (Binding Node)} {W : List (Addr × Value)}

/-- The changes that bindings make are the writes to slots and what others do. -/
theorem changes (h : Binds setting hR start exit opened others load bindings s t target c W c') :
    Scene.Changes setting.registry others c W c' := by
  induction h with
  | done => exact .done
  | write hload hvalue hstore hbacked hslot hmember hruns hold hwrites _ ih =>
      exact .foreign hruns.changes (.write hold hwrites ih)
  | setter hload hvalue hstore hbacked hruns hcall _ ih =>
      exact .foreign hruns.changes (.foreign hcall.changes ih)
  | member hload hopen hpop hopens _ _ ihinner ih => exact hopens.changes.1.append (ihinner.append ih)
  | list hload hopen hitems hpop hopens hadds _ ih =>
      exact hopens.changes.1.append (.foreign hadds.changes ih)

/-- As many calls wait as before. -/
theorem length (h : Binds setting hR start exit opened others load bindings s t target c W c') :
    c'.around.outer.length = c.around.outer.length := by
  induction h with
  | done => rfl
  | write hload hvalue hstore hbacked hslot hmember hruns hold hwrites _ ih =>
      exact (ih.trans (hwrites.length hold)).trans hruns.same.length
  | setter hload hvalue hstore hbacked hruns hcall _ ih =>
      exact (ih.trans hcall.same.length).trans hruns.same.length
  | member hload hopen hpop hopens _ _ ihinner ih => exact (ih.trans ihinner).trans hopens.changes.2
  | list hload hopen hitems hpop hopens hadds _ ih =>
      exact (ih.trans hadds.same.length).trans hopens.changes.2

/-- The code of bindings ends where they are all applied. -/
theorem ends (h : Binds setting hR start exit opened others load bindings s t target c W c') {t' : Emission}
    {used : Bool}
    (hcode : (Job.ofRoutine setting hR).Emits start (Emit.eachBinding exit (Emit.instr load) bindings) s
      used t') : t' = t := by
  induction h generalizing used t' with
  | done => exact hcode.pure.2
  | write hload hvalue hstore _ _ _ _ _ _ _ ih | setter hload hvalue hstore _ _ _ _ ih =>
      obtain ⟨_, _, _, _, hload', hbinding, hrest'⟩ := hcode.eachBinding_cons
      obtain rfl := hload'.unique hload
      obtain ⟨_, hvalue', hstore'⟩ := hbinding.binding_assign
      obtain rfl := hvalue'.unique hvalue
      obtain rfl := hstore'.unique hstore
      exact ih hrest'
  | member hload hopen hpop _ _ _ ihinner ih =>
      obtain ⟨_, _, _, _, hload', hbinding, hrest'⟩ := hcode.eachBinding_cons
      obtain rfl := hload'.unique hload
      obtain ⟨_, _, hopen', hinner', hpop'⟩ := hbinding.binding_member
      obtain rfl := hopen'.unique hopen
      obtain rfl := ihinner hinner'
      obtain rfl := hpop'.unique hpop
      exact ih hrest'
  | list hload hopen hitems hpop _ _ _ ih =>
      obtain ⟨_, _, _, _, hload', hbinding, hrest'⟩ := hcode.eachBinding_cons
      obtain rfl := hload'.unique hload
      obtain ⟨_, _, hopen', hitems', hpop'⟩ := hbinding.binding_list
      obtain rfl := hopen'.unique hopen
      obtain rfl := hitems'.unique hitems
      obtain rfl := hpop'.unique hpop
      exact ih hrest'

/-- Bindings are applied and leave the stack as it is, if `load` pushes the instance there. -/
theorem leads (h : Binds setting hR start exit opened others load bindings s t target c W c')
    (base : List Value)
    (hpush : ∀ (d : Scene) (stack : List Value), d.around.outer.length = c.around.outer.length →
      Run.Steps setting.registry R load (d.state (base ++ stack))
        (.ok .next (d.state (target :: (base ++ stack))))) (stack : List Value) :
    Run.Leads setting.registry R s.position (c.state (base ++ stack)) t.position
      (c'.state (base ++ stack)) := by
  induction h generalizing base stack with
  | done => exact .refl _ _
  | @write load m f ty slot value rest s s₁ u t₁ t used target old v a c c₁ c₂ c' W hload hvalue hstore hbacked
      hslot hmember hruns hold hwrites hrest ih =>
      have hvalues := hruns.leads (target :: (base ++ stack))
      have hstores := hstore.storeMember hbacked hslot hmember hwrites (base ++ stack)
      have hrests := ih base (fun d stack hd =>
        hpush d stack ((hd.trans (hwrites.length hold)).trans hruns.same.length)) stack
      exact (hload.goesOn (hpush c stack rfl)).trans (hvalues.trans (hstores.trans hrests))
  | @setter load p value rest s s₁ u t₁ t used target v c c₁ c₂ c' W hload hvalue hstore hbacked hruns hcall
      hrest ih =>
      have hvalues := hruns.leads (target :: (base ++ stack))
      have hcalls := hcall.leads (base ++ stack)
      have hrests := ih base (fun d stack hd =>
        hpush d stack ((hd.trans hcall.same.length).trans hruns.same.length)) stack
      exact (hload.goesOn (hpush c stack rfl)).trans (hvalues.trans (hcalls.trans hrests))
  | @member load m inner rest s s₁ u w t₁ t target x c c₁ c₂ c' W W' hload hopen hpop hopens hinner hrest
      ihinner ih =>
      have hopened := hopens.leads hopen (base ++ stack)
      have hinners := ihinner [x] (fun d stack _ => .dup d.memory d.around stack x) (base ++ stack)
      have hpops := hpop.goesOn (.pop c₂.memory c₂.around (base ++ stack) x)
      have hrests := ih base (fun d stack hd =>
        hpush d stack ((hd.trans hinner.length).trans hopens.changes.2)) stack
      exact (hload.goesOn (hpush c stack rfl)).trans (hopened.trans (hinners.trans (hpops.trans hrests)))
  | @list load m items rest s s₁ u w t₁ t used target x c c₁ c₂ c' W hload hopen hitems hpop hopens hadds
      hrest ih =>
      have hopened := hopens.leads hopen (base ++ stack)
      have hitem := hadds.leads (base ++ stack)
      have hpops := hpop.goesOn (.pop c₂.memory c₂.around (base ++ stack) x)
      have hrests := ih base (fun d stack hd =>
        hpush d stack ((hd.trans hadds.same.length).trans hopens.changes.2)) stack
      exact (hload.goesOn (hpush c stack rfl)).trans (hopened.trans (hitem.trans (hpops.trans hrests)))

/-- Only named locations are written. -/
theorem named (h : Binds setting hR start exit opened others load bindings s t target c W c') :
    ∀ w ∈ W, Reaches setting.registry opened bindings target w.1 := by
  induction h with
  | done => simp
  | write hload hvalue hstore hbacked hslot hmember hruns hold hwrites _ ih =>
      rw [List.forall_mem_cons]
      exact ⟨.assign List.mem_cons_self hbacked hslot hmember, fun w hw => (ih w hw).cons _⟩
  | setter hload hvalue hstore hbacked hruns hcall _ ih => exact fun w hw => (ih w hw).cons _
  | member hload hopen hpop hopens _ _ ihinner ih =>
      intro w hw
      rcases List.mem_append.mp hw with hw | hw
      · cases hopens with
        | address hd hinstance hvalue hslot hmember =>
            exact .struct List.mem_cons_self hd hinstance hvalue hslot hmember (ihinner w hw)
        | reference _ _ _ _ _ _ hopened | getter _ hopened =>
            exact .opened List.mem_cons_self hopened (ihinner w hw)
      · exact (ih w hw).cons _
  | list hload hopen hitems hpop hopens hadds _ ih => exact fun w hw => (ih w hw).cons _

/-- Bindings are applied part by part. -/
theorem split {later : List (Binding Node)}
    (h : Binds setting hR start exit opened others load (bindings ++ later) s t target c W c') :
    ∃ (w : Emission) (c₁ : Scene) (W₁ W₂ : List (Addr × Value)), W = W₁ ++ W₂ ∧
      Binds setting hR start exit opened others load later w t target c₁ W₂ c' := by
  induction bindings generalizing s c W with
  | nil => exact ⟨s, c, [], W, rfl, h⟩
  | cons b rest ih =>
      cases h with
      | write _ _ _ _ _ _ _ _ _ hrest =>
          obtain ⟨w, c₁, W₁, W₂, rfl, hlater⟩ := ih hrest
          exact ⟨w, c₁, _ :: W₁, W₂, rfl, hlater⟩
      | setter _ _ _ _ _ _ hrest | list _ _ _ _ _ _ hrest => exact ih hrest
      | member _ _ _ _ _ hrest =>
          obtain ⟨w, c₁, W₁, W₂, rfl, hlater⟩ := ih hrest
          exact ⟨w, c₁, _ ++ W₁, W₂, (List.append_assoc _ _ _).symm, hlater⟩

end Binds

end

/-! ## Initializers -/

/-- From `c` to `c'` the bindings were applied to the instance `target`, and nothing else was touched. -/
structure Initialized (setting : Setting) {R : Routine} (hR : R.WithinLimits) (start : Nat)
    (exit : Option Label) (opened : Value → Prop) (others : Scene → Scene → Prop)
    (bindings : List (Binding Node)) (target : Value) (c : Scene) (W : List (Addr × Value)) (c' : Scene) :
    Prop where
  /-- Only locations that the bindings name are written. -/
  named : ∀ w ∈ W, Reaches setting.registry opened bindings target w.1
  /-- What is written last to a location, at any depth, is there. -/
  written : ∀ {a : Addr} {v : Value} {W₁ W₂ : List (Addr × Value)}, W = W₁ ++ (a, v) :: W₂ →
    Scene.Spared setting.registry others a → (∀ w ∈ W₂, w.1.Apart a) → c'.Holds setting.registry a v
  /-- A location apart from all that are written keeps its value. -/
  kept : ∀ {b : Addr} {x : Value}, Scene.Spared setting.registry others b → (∀ w ∈ W, w.1.Apart b) →
    c.Holds setting.registry b x → c'.Holds setting.registry b x
  /-- A member that is backed by a field holds the value that it was bound to last. -/
  assigned : ∀ {earlier later : List (Binding Node)} {m : MemberTarget} {value : Node} {f : FieldRef}
      {ty : Ty} {slot : Nat} {a : Addr}, bindings = earlier ++ .assign m value :: later →
    m.Backed setting.registry f ty → setting.registry.fieldSlot f = .ok slot →
    target.member? slot = some a → (∀ b ∈ later, b.Misses setting.registry f) →
    (∀ x, opened x → x.AwayFrom a) → Scene.Spared setting.registry others a →
    ∃ (s u : Emission) (used : Bool) (c₁ c₂ : Scene) (v : Value),
      (Job.ofRoutine setting hR).Emits start (value.value exit) s used u ∧
      Foreign setting others R s u c₁ [] c₂ [v] ∧
      c'.Holds setting.registry a (Eval.coerced value.ty ty v)
  /-- An instance field that no binding names keeps its value. -/
  field : ∀ {g : FieldRef} {d : FieldDef} {slot : Nat} {b : Addr} {x : Value},
    setting.registry.field g = .ok d → d.isStatic = false → setting.registry.fieldSlot g = .ok slot →
    target.member? slot = some b → (∀ y ∈ bindings, y.Misses setting.registry g) →
    (∀ y, opened y → y.AwayFrom b) → Scene.Spared setting.registry others b →
    c.Holds setting.registry b x → c'.Holds setting.registry b x
  /-- Static fields keep their values. -/
  static : ∀ {g : FieldRef} {x : Value}, target.AwayFrom (.static g) →
    (∀ y, opened y → y.AwayFrom (.static g)) → Scene.Spared setting.registry others (.static g) →
    c.Holds setting.registry (.static g) x → c'.Holds setting.registry (.static g) x

section

variable {setting : Setting} {R : Routine} {hR : R.WithinLimits} {start : Nat} {s t : Emission}
  {exit : Option Label} {opened : Value → Prop} {others : Scene → Scene → Prop} {c c' : Scene} {target : Value}
  {load : Instr} {bindings : List (Binding Node)} {W : List (Addr × Value)}

/-- Bindings that complete do what they say and no more. -/
theorem Binds.initialized (h : Binds setting hR start exit opened others load bindings s t target c W c') :
    Initialized setting hR start exit opened others bindings target c W c' where
  named := h.named
  written hW hspared hapart := (hW ▸ h.changes).written hspared hapart
  kept hspared hapart hb := h.changes.keeps hspared hapart hb
  assigned hsplit hbacked hslot hmember hmisses haway hspared := by
    subst hsplit
    obtain ⟨d, hd, hinstance⟩ := hbacked.instance
    obtain ⟨w, c₁, W₁, W₂, rfl, hlater⟩ := h.split
    cases hlater with
    | write _ hvalue _ hbacked' hslot' hmember' hruns hold hwrites hrest =>
        obtain ⟨rfl, rfl⟩ := hbacked.unique hbacked'
        obtain rfl := Except.ok.inj (hslot.symm.trans hslot')
        obtain rfl := Option.some.inj (hmember.symm.trans hmember')
        refine ⟨_, _, _, _, _, _, hvalue, hruns, h.changes.written hspared fun x hx => ?_⟩
        exact (hrest.named x hx).apart hd hinstance hslot hmember hmisses haway
    | setter _ _ _ hcustom => exact absurd hbacked (hcustom _ _)
  field hd hinstance hslot hmember hmisses haway hspared hb :=
    h.changes.keeps hspared (fun w hw => (h.named w hw).apart hd hinstance hslot hmember hmisses haway) hb
  static htarget haway hspared hb :=
    h.changes.keeps hspared (fun w hw => (h.named w hw).apart_static htarget haway) hb

theorem Scene.Holds.local? {r : Registry} {slot : Nat} {x : Value}
    (h : c.Holds r (.local c.around.outer.length slot) x) : c.memory.locals[slot]? = some x := by
  obtain ⟨y, hy, hpart⟩ := h
  obtain rfl := Option.some.inj hpart
  simpa [Run.rootValue?, Addr.root, Run.frame?, Run.framePlace?, Scene.state, Memory.state] using hy

end

/-- The code of an initializer makes an instance and applies the bindings to it, or, if the instance is a
struct, to a local that holds it.  If the bindings complete, the instance is left on the stack.  Then each
member that is backed by an instance field holds what it was bound to last, at any depth.  Other fields of
the instance and static fields keep the values that they had, unless values, accessors or `add` methods
changed them. -/
theorem member_initializer_writes {setting : Setting} {R : Routine} (hR : R.WithinLimits) {start : Nat}
    {s t : Emission} {exit : Option Label} {init : Node} {bindings : List (Binding Node)} {emitted : Emitted}
    (h : (Job.ofRoutine setting hR).Emits start (Emit.memberInit init bindings exit) s emitted t)
    (opened : Value → Prop) (others : Scene → Scene → Prop) :
    ∃ (used : Bool) (u : Emission), (Job.ofRoutine setting hR).Emits start (init.value exit) s used u ∧
      (init.ty.isValueType = false → ∀ {w : Emission} {target : Value} {c c' : Scene}
          {W : List (Addr × Value)},
        Binds setting hR start exit opened others .dup bindings u w target c W c' →
        (∀ stack, Run.Leads setting.registry R u.position (c.state (target :: stack)) t.position
          (c'.state (target :: stack))) ∧
        Initialized setting hR start exit opened others bindings target c W c') ∧
      (init.ty.isValueType = true → ∃ (slot : Nat) (v : Emission),
        (Job.ofRoutine setting hR).Emits start (Emit.spill init.ty) u slot v ∧
        ∀ {w : Emission} {x y : Value} {c c₁ c' : Scene} {W : List (Addr × Value)},
          slot < c.memory.locals.size → c₁ = { c with memory := c.memory.setLocal slot x } →
          Binds setting hR start exit opened others (.loadLocalAddr slot) bindings v w
            (.addr (.local c.around.outer.length slot)) c₁ W c' →
          c'.Holds setting.registry (.local c.around.outer.length slot) y →
          (∀ stack, Run.Leads setting.registry R u.position (c.state (x :: stack)) t.position
            (c'.state (y :: stack))) ∧
          Initialized setting hR start exit opened others bindings
            (.addr (.local c.around.outer.length slot)) c₁ W c') := by
  cases hty : init.ty.isValueType with
  | false =>
      obtain ⟨used, u, _, hinit, hbindings⟩ := h.memberInit_class hty
      refine ⟨used, u, hinit, fun _ => ?_, nofun⟩
      intro w target c c' W hbinds
      obtain rfl := hbinds.ends hbindings
      refine ⟨fun stack => ?_, hbinds.initialized⟩
      exact hbinds.leads [target] (fun d stack _ => .dup d.memory d.around stack target) stack
  | true =>
      obtain ⟨used, u, slot, v, _, w, t', hinit, hspill, hbindings, hload, hposition⟩ :=
        h.memberInit_struct hty
      refine ⟨used, u, hinit, nofun, fun _ => ⟨slot, v, hspill, ?_⟩⟩
      rintro w₁ x y c _ c' W hlocal rfl hbinds hy
      obtain rfl := hbinds.ends hbindings
      refine ⟨fun stack => ?_, hbinds.initialized⟩
      have hstores : Run.Leads setting.registry R u.position (c.state (x :: stack)) v.position
          (Scene.state { c with memory := c.memory.setLocal slot x } stack) :=
        hspill.spillLeads hlocal stack
      have happlied := hbinds.leads [] (fun d stack hd => by
        have haddress := Run.Steps.loadLocalAddr (r := setting.registry) (R := R) d slot stack
        rw [hd] at haddress
        exact haddress) stack
      rw [← hbinds.length] at hy
      have hresult : Run.Steps setting.registry R (.loadLocal slot) (c'.state stack)
          (.ok .next (c'.state (y :: stack))) := .loadLocal c'.memory c'.around stack hy.local?
      rw [hposition]
      exact hstores.trans (happlied.trans (hload.goesOn hresult))

/-- Points are instances of a class with two fields. -/
def pointRegistry : Registry :=
  ((Registry.builtin.defineClass "Point" none).addField Registry.builtin.size ⟨"x", .int, false⟩).addField
    Registry.builtin.size ⟨"y", .int, false⟩

/-- The first object is a point. -/
def pointScene (m : Memory) (a : Around) (x y : Int) : Scene :=
  ⟨{ m with heap := ⟨#[⟨Registry.builtin.size, #[.num (.i32 x), .num (.i32 y)]⟩], #[], #[], #[]⟩ }, a⟩

/-- A parameter that is a point. -/
def pointParameter : Node := (Expr.node (.parameter 0) (.classTy Registry.builtin.size)).toNode

/-- The first field of the point is set to five. -/
def pointBinding : Binding Node :=
  .assign (.field ⟨Registry.builtin.size, 0⟩) (Expr.node (.constant (.num (.i32 5))) .int).toNode

/-- The initializer sets one field of a point and keeps the other one. -/
theorem member_initializer_writes_point :
    ∃ (R : Routine) (hR : R.WithinLimits) (e : Emitted) (t u : Emission) (used : Bool),
      (Job.ofRoutine ⟨pointRegistry, .default⟩ hR).Emits 0
        (Emit.memberInit pointParameter [pointBinding] none)
        (beforeCode "point" [⟨0, "p", .classTy Registry.builtin.size⟩] .int) e t ∧
      (Job.ofRoutine ⟨pointRegistry, .default⟩ hR).Emits 0 (pointParameter.value none)
        (beforeCode "point" [⟨0, "p", .classTy Registry.builtin.size⟩] .int) used u ∧
      ∀ (m : Memory) (a : Around),
        (pointScene m a 5 2).Holds pointRegistry (.field 0 0) (.num (.i32 5)) ∧
        (pointScene m a 5 2).Holds pointRegistry (.field 0 1) (.num (.i32 2)) ∧
        ∀ stack, Run.Leads pointRegistry R u.position ((pointScene m a 1 2).state (.object 0 :: stack))
          t.position ((pointScene m a 5 2).state (.object 0 :: stack)) := by
  obtain ⟨e, t, R, hrun, hfinish, hR⟩ : ∃ e t R,
      (Emit.memberInit pointParameter [pointBinding] none).run ⟨pointRegistry, .default⟩
        (beforeCode "point" [⟨0, "p", .classTy Registry.builtin.size⟩] .int) = .ok e t ∧
      t.builder.finish (.unit 0) = .ok R ∧ R.WithinLimits := ⟨_, _, _, rfl, rfl, by decide⟩
  have h : (Job.ofRoutine ⟨pointRegistry, .default⟩ hR).Emits 0
      (Emit.memberInit pointParameter [pointBinding] none)
      (beforeCode "point" [⟨0, "p", .classTy Registry.builtin.size⟩] .int) e t :=
    .ofFinish hrun (sound_beforeCode _ _ _) hfinish
  -- No value changes anything, and no member is opened.
  obtain ⟨used, u, hinit, hclass, -⟩ := member_initializer_writes hR h (fun _ => False) (· = ·)
  refine ⟨R, hR, e, t, u, used, h, hinit, fun m a => ?_⟩
  obtain ⟨_, _, _, hinit', hbindings⟩ := h.memberInit_class rfl
  obtain rfl := hinit.unique hinit'
  obtain ⟨s₁, _, t₁, _, hload, hbinding, hdone⟩ := hbindings.eachBinding_cons
  obtain ⟨v, hvalue, hstore⟩ := hbinding.binding_assign
  obtain ⟨-, rfl⟩ := hdone.pure
  have hconstant : Foreign ⟨pointRegistry, .default⟩ (· = ·) R s₁ v (pointScene m a 1 2) []
      (pointScene m a 1 2) [.num (.i32 5)] := by
    refine ⟨rfl, ⟨rfl, rfl⟩, fun stack => ?_⟩
    obtain ⟨_, rfl, hlayer⟩ := hvalue.layer fun _ hk => by cases hk
    obtain ⟨⟨⟩, w, hconst, hdone⟩ := Job.Emits.bind (x := Emit.instr (.const (.num (.i32 5)))) hlayer
    obtain ⟨-, rfl⟩ := hdone.pure
    exact hconst.goesOn (.const _ _ _ _)
  have hslot : pointRegistry.fieldSlot ⟨Registry.builtin.size, 0⟩ = .ok 0 := rfl
  have hbinds : Binds ⟨pointRegistry, .default⟩ hR 0 none (fun _ => False) (· = ·) .dup [pointBinding] u t
      (.object 0) (pointScene m a 1 2) [(.field 0 0, .num (.i32 5))] (pointScene m a 5 2) :=
    .write hload hvalue hstore (.field (d := ⟨"x", .int, false⟩) rfl rfl) hslot rfl hconstant
      ⟨.num (.i32 1), rfl, rfl⟩ (fun _ => rfl) .done
  obtain ⟨hleads, hinitialized⟩ := hclass rfl hbinds
  have hspared : ∀ b, Scene.Spared pointRegistry (· = ·) b := fun b _ _ _ hsame hb => hsame ▸ hb
  have hmisses : ∀ b ∈ [pointBinding], b.Misses pointRegistry ⟨Registry.builtin.size, 1⟩ := by
    intro b hb f hnames
    cases List.mem_singleton.mp hb
    cases hnames with
    | assign hbacked =>
        cases hbacked
        exact ⟨by decide, .inl (.refl _)⟩
  have hlast : [(Addr.field 0 0, Value.num (.i32 5))] = [] ++ (.field 0 0, .num (.i32 5)) :: [] := rfl
  refine ⟨hinitialized.written hlast (hspared _) nofun, ?_, hleads⟩
  exact hinitialized.field (d := ⟨"y", .int, false⟩) rfl rfl rfl rfl hmisses nofun (hspared _)
    ⟨.num (.i32 2), rfl, rfl⟩

end Arbor
