/-
  Policies of emission.

  A policy says of emitters which labels, locals, arguments and children they may
  name.  Labels are lent: an emitter may use the labels that it was given or made
  itself, and the labels that it hands on are part of the statement about it.
  The exit of a node is lent for tests only: it is neither marked nor jumped to
  otherwise.

  Hidden arguments, addresses and function values have rules of their own, since a
  policy may look at how these are used.  Loose rules do not.  The tests that checks
  for null and of bounds start with have rules of their own, too: they stand behind
  other instructions than like tests do.  Lax rules allow all instructions that name
  what may be named.  Sections with variables and landings have rules of their own
  as well; most policies allow their parts one by one, and then the rules follow.

  This module has what a policy must allow, the rules that follow from it, and the
  small steps of emission.
-/
import Arbor.Emit.Unit
import Arbor.Proofs.Code.Sheltered
import Arbor.Proofs.Emission.Forms
import Arbor.Proofs.Semantics.Induction

set_option autoImplicit false

namespace Arbor

/-- A variable lives in one of these locals or arguments. -/
def VarSlot.Among (slot arg : Nat → Prop) : VarSlot → Prop
  | .arg n => arg n
  | .local n => slot n

/-- The error is none about labels of the tree. -/
abbrev CompileError.IsOrdinary (e : CompileError) : Prop := ∀ id, e ≠ .unknownLabel id

theorem CompileError.isOrdinary_notSupported (what : String) : (notSupported what).IsOrdinary := by
  intro id h
  cases h

/-- Argument that holds a table. -/
def HiddenParams.tableArg? (h : HiddenParams) : HiddenTable → Option Nat
  | .constants => h.constantsArg?
  | .closure => h.closureArg?

namespace Emit

/-- The value of a variable, brought into a shape. -/
def shapedVariable (id : VarId) (ty : Ty) (shape : Shape) : Emit Emitted := do
  adapt ty (← parameter id shape) shape

/-- The check of one index, numbered `dim`. -/
def checkIndex (pad : Label) (kind : PlaceKind) (container dim index : Nat) : Emit Unit := do
  instr (.loadLocal index)
  int 0
  instrs [.compare .lt, .jumpIfTrue pad, .loadLocal index, .loadLocal container]
  loadDimension kind dim
  instrs [.compare .lt, .jumpIfFalse pad]

theorem checkIndices_cons {pad : Label} {kind : PlaceKind} {container dim index : Nat} {rest : List Nat} :
    checkIndices pad kind container dim (index :: rest) =
      (checkIndex pad kind container dim index >>= fun _ =>
        checkIndices pad kind container (dim + 1) rest) := by
  simp only [checkIndices, checkIndex, bind_assoc_emit]

/-! ## Ends of conditions -/

/-- Whatever is emitted, it does not end with a comparison of order. -/
def EndsApart {α : Type} (x : Emit α) : Prop :=
  x.Yields fun _ t => t.builder.code.back? ≠ some (.compare .lt)

/-- Where no comparison of order is last, none is behind the emitter. -/
def StaysApart {α : Type} (x : Emit α) : Prop :=
  ∀ setting s t a, x.run setting s = .ok a t → s.builder.code.back? ≠ some (.compare .lt) →
    t.builder.code.back? ≠ some (.compare .lt)

section

variable {α β : Type} {x : Emit α} {f : α → Emit β}

theorem EndsApart.instr {i : Instr} (hi : i ≠ .compare .lt) : EndsApart (instr i) := by
  intro setting s t a hrun
  cases hrun
  simpa [Builder.emit] using hi

theorem EndsApart.staysApart (h : EndsApart x) : StaysApart x := fun _ _ _ _ hrun _ => h _ _ _ _ hrun

theorem StaysApart.mark {l : Label} : StaysApart (mark l) := by
  intro setting s t a hrun hs
  simp only [Emit.mark] at hrun
  split at hrun
  · next b hmark =>
      cases hrun
      simp only [Builder.markLabel] at hmark
      split at hmark <;> cases hmark
      exact hs
  · cases hrun

theorem StaysApart.newLabel : StaysApart newLabel := by
  intro setting s t l hrun hs
  cases hrun
  exact hs

theorem StaysApart.bind (hx : StaysApart x) (hf : ∀ a, StaysApart (f a)) : StaysApart (x >>= f) := by
  intro setting s t b hrun hs
  obtain ⟨a, u, hxu, hfu⟩ := run_bind hrun
  exact hf a _ _ _ _ hfu (hx _ _ _ _ hxu hs)

theorem EndsApart.after (hf : ∀ a, EndsApart (f a)) : EndsApart (x >>= f) := by
  intro setting s t b hrun
  obtain ⟨a, u, -, hfu⟩ := run_bind hrun
  exact hf a _ _ _ _ hfu

theorem EndsApart.before (hx : EndsApart x) (hf : ∀ a, StaysApart (f a)) : EndsApart (x >>= f) := by
  intro setting s t b hrun
  obtain ⟨a, u, hxu, hfu⟩ := run_bind hrun
  exact hf a _ _ _ _ hfu (hx _ _ _ _ hxu)

theorem StaysApart.pure (a : α) : StaysApart (Pure.pure a : Emit α) := by
  intro setting s t b hrun hs
  cases hrun
  exact hs

theorem StaysApart.ite {c : Prop} [Decidable c] {y : Emit α} (hx : StaysApart x) (hy : StaysApart y) :
    StaysApart (if c then x else y) := by
  split
  · exact hx
  · exact hy

theorem StaysApart.wrapIf {condition : Bool} : StaysApart (wrapIf condition) := by
  have hwrap : EndsApart (Emit.instr .optWrap) := .instr nofun
  exact .ite hwrap.staysApart (.pure _)

theorem StaysApart.pushDefault {ty : Ty} : StaysApart (pushDefault ty) := by
  have hdefault : EndsApart (Emit.instr (.loadDefault ty)) := .instr nofun
  have hnull : EndsApart (Emit.instr (.const .null)) := .instr nofun
  exact .ite (.pure _) (.ite hdefault.staysApart hnull.staysApart)

theorem EndsApart.ite {c : Prop} [Decidable c] {y : Emit α} (hx : EndsApart x) (hy : EndsApart y) :
    EndsApart (if c then x else y) := by
  split
  · exact hx
  · exact hy

theorem EndsApart.fail {e : CompileError} : EndsApart (fail e : Emit α) := fun _ _ _ _ hrun => nomatch hrun

theorem EndsApart.loadInner {o : Operand} : EndsApart (loadInner o) := by
  unfold Emit.loadInner
  split
  · exact .after fun _ => .instr nofun
  · exact .before (.instr nofun) fun _ => .pure _

theorem EndsApart.lifted {operands : List Operand} {wrap : Bool} {absent body : Emit Unit}
    (habsent : StaysApart absent) : EndsApart (lifted operands wrap absent body) :=
  .after fun _ => .after fun _ => .after fun _ => .after fun _ => .after fun _ =>
    .before (.instr nofun) fun _ => .bind .mark fun _ => .bind habsent fun _ => .mark

theorem EndsApart.liftedEquality {op : BinaryOp} {left right : Operand} {ty : Ty} :
    EndsApart (liftedEquality op left right ty) := by
  have hlast : EndsApart (Emit.instr (.const (.bool (op = .ne)))) := .instr nofun
  -- What stands in front of the constant for operands of which one is absent does not matter.
  iterate 14 refine .after fun _ => ?_
  exact .before hlast fun _ => .bind .mark fun _ => .wrapIf

/-- Equality of operands does not end with a comparison of order. -/
theorem EndsApart.equality {checked : Bool} {method : Option MethodRef} {left right : Operand} {ty : Ty} :
    EndsApart (binarySlots .eq checked method left right ty) := by
  cases method with
  | some m =>
      refine .after fun _ => .ite (.ite (.lifted .pushDefault) ?_) (.after fun _ => .fail)
      exact .after fun _ => .after fun _ => .instr nofun
  | none =>
      exact .ite (.after fun _ => .after fun _ => .instr nofun) .liftedEquality

end

/-- A property of emitters that composition keeps.  `Holds own exit x handed Q` says of the emitter
`x` that it keeps the policy with the labels `own` and the exit `exit`; its results have the property
`Q`, and `handed` are the labels that it hands on.  Errors about labels of the tree are left to those
who look such labels up. -/
structure Rules where
  Holds : {α : Type} → List Label → Option Label → Emit α → (α → List Label) → (α → Prop) → Prop
  /-- Locals, arguments and children that may be named. -/
  Slot : Nat → Prop
  Arg : Nat → Prop
  Child : Nat → Prop
  pure : ∀ {α : Type} {own : List Label} {exit : Option Label} {a : α} {handed : α → List Label}
    {Q : α → Prop}, Q a → (∀ l ∈ handed a, l ∈ own) → Holds own exit (pure a) handed Q
  bind : ∀ {α β : Type} {own : List Label} {exit : Option Label} {x : Emit α} {f : α → Emit β}
    {handed : α → List Label} {handed' : β → List Label} {P : α → Prop} {Q : β → Prop},
    Holds own exit x handed P → (∀ a, P a → Holds (handed a ++ own) exit (f a) handed' Q) →
    Holds own exit (x >>= f) handed' Q
  weaken : ∀ {α : Type} {own own' : List Label} {exit exit' : Option Label} {x : Emit α}
    {handed : α → List Label} {Q Q' : α → Prop}, Holds own exit x handed Q →
    (∀ l ∈ own, l ∈ own') → (∀ l, exit = some l → exit' = some l) →
    (∀ a, Q a → Q' a) → Holds own' exit' x handed Q'
  fail : ∀ {α : Type} {own : List Label} {exit : Option Label} {e : CompileError}
    {handed : α → List Label} {Q : α → Prop}, e.IsOrdinary → Holds own exit (fail e) handed Q
  read : ∀ {α : Type} {own : List Label} {exit : Option Label} {f : Setting → Emission → α},
    (∀ setting s session, f setting { s with session := session } = f setting s) →
    Holds own exit (read fun setting s => .ok (f setting s)) (fun _ => []) fun _ => True
  instr : ∀ {own : List Label} {exit : Option Label} {i : Instr}, i.isSpecial = false →
    i.Names (fun l => l ∈ own ∨ (exit = some l ∧ i.isJump = false)) Slot Arg Child →
    Holds own exit (instr i) (fun _ => []) fun _ => True
  newLabel : ∀ {own : List Label} {exit : Option Label},
    Holds own exit newLabel (fun l => [l]) fun _ => True
  mark : ∀ {own : List Label} {exit : Option Label} {l : Label}, l ∈ own →
    Holds own exit (mark l) (fun _ => []) fun _ => True
  temp : ∀ {own : List Label} {exit : Option Label} {ty : Ty},
    Holds own exit (temp ty) (fun _ => []) Slot
  withTemps : ∀ {α : Type} {own : List Label} {exit : Option Label} {x : Emit α}
    {handed : α → List Label} {Q : α → Prop}, Holds own exit x handed Q →
    Holds own exit (withTemps x) handed Q
  varSlot : ∀ {own : List Label} {exit : Option Label} {id : VarId},
    Holds own exit (varSlot id) (fun _ => []) fun v => v.1.Among Slot Arg
  helper : ∀ {own : List Label} {exit : Option Label} {kind : HelperKind} {elem : Ty},
    Holds own exit (helper kind elem) (fun _ => []) Child

namespace Rules

variable {α : Type}

/-- The emitter keeps the rules, hands on no labels, and its results have the property. -/
abbrev Yields (R : Rules) (own : List Label) (exit : Option Label) (x : Emit α) (Q : α → Prop) :
    Prop :=
  R.Holds own exit x (fun _ => []) Q

/-- The emitter keeps the rules. -/
abbrev Ok (R : Rules) (own : List Label) (exit : Option Label) (x : Emit α) : Prop :=
  R.Yields own exit x fun _ => True

/-- The variable lives where emitters may look. -/
abbrev Var (R : Rules) (slot : VarSlot) : Prop := slot.Among R.Slot R.Arg

end Rules

namespace Policy

variable {α β : Type} {P : Rules} {own : List Label} {exit : Option Label}

/-! ## Composition -/

section

variable {x : Emit α} {f : α → Emit β} {handed : α → List Label} {handed' : β → List Label}
  {Q : α → Prop} {Q' : β → Prop}

theorem after (hx : P.Yields own exit x Q) (hf : ∀ a, Q a → P.Holds own exit (f a) handed' Q') :
    P.Holds own exit (x >>= f) handed' Q' :=
  P.bind hx hf

theorem seq (hx : P.Ok own exit x) (hf : ∀ a, P.Holds own exit (f a) handed' Q') :
    P.Holds own exit (x >>= f) handed' Q' :=
  P.bind hx fun a _ => hf a

theorem done {a : α} : P.Ok own exit (Pure.pure a) :=
  P.pure trivial fun _ h => absurd h List.not_mem_nil

theorem give {a : α} (h : Q a) : P.Yields own exit (Pure.pure a) Q :=
  P.pure h fun _ h => absurd h List.not_mem_nil

theorem label {f : Label → Emit β} (hf : ∀ l, P.Holds (l :: own) exit (f l) handed' Q') :
    P.Holds own exit (Emit.newLabel >>= f) handed' Q' :=
  P.bind P.newLabel fun l _ => hf l

theorem lend {own' : List Label} (hx : P.Holds own exit x handed Q) (h : ∀ l ∈ own, l ∈ own') :
    P.Holds own' exit x handed Q :=
  P.weaken hx h (fun _ hl => hl) fun _ hQ => hQ

theorem drop (hx : P.Yields own exit x Q) : P.Ok own exit x :=
  P.weaken hx (fun _ h => h) (fun _ hl => hl) fun _ _ => trivial

theorem map {g : α → β} (hx : P.Ok own exit x) : P.Ok own exit (g <$> x) := seq hx fun _ => done

theorem forM {items : List α} {f : α → Emit PUnit} (hf : ∀ a ∈ items, P.Ok own exit (f a)) :
    P.Ok own exit (items.forM f) := by
  induction items with
  | nil => exact done
  | cons a items ih =>
      exact seq (hf a List.mem_cons_self) fun _ => ih fun b hb => hf b (List.mem_cons_of_mem _ hb)

theorem ite {c : Prop} [Decidable c] {x y : Emit α} (hx : P.Holds own exit x handed Q)
    (hy : P.Holds own exit y handed Q) : P.Holds own exit (if c then x else y) handed Q := by
  split
  · exact hx
  · exact hy

end

/-! ## Instructions -/

section

variable {n : Nat} {l : Label}

theorem bare {i : Instr} (h : i.isSimple = true) : P.Ok own exit (Emit.instr i) := by
  simp only [Instr.isSimple, Bool.and_eq_true, Bool.not_eq_true'] at h
  exact P.instr h.2 (.of_isBare h.1)

theorem slotted {i : Instr} (hn : P.Slot n)
    (hi : i.labels = [] ∧ i.slots = [n] ∧ i.args = [] ∧ i.children = [] ∧ i.isSpecial = false) :
    P.Ok own exit (Emit.instr i) :=
  let ⟨hlabels, hslots, hargs, hchildren, hplain⟩ := hi
  P.instr hplain (.of_slot hn ⟨hlabels, hslots, hargs, hchildren⟩)

theorem loadLocal (hn : P.Slot n) : P.Ok own exit (Emit.instr (.loadLocal n)) :=
  slotted hn ⟨rfl, rfl, rfl, rfl, rfl⟩

theorem loadLocalAddr (hn : P.Slot n) : P.Ok own exit (Emit.instr (.loadLocalAddr n)) :=
  slotted hn ⟨rfl, rfl, rfl, rfl, rfl⟩

theorem storeLocal (hn : P.Slot n) : P.Ok own exit (Emit.instr (.storeLocal n)) :=
  slotted hn ⟨rfl, rfl, rfl, rfl, rfl⟩

theorem argued {i : Instr} (hn : P.Arg n)
    (hi : i.labels = [] ∧ i.slots = [] ∧ i.args = [n] ∧ i.children = [] ∧ i.isSpecial = false) :
    P.Ok own exit (Emit.instr i) :=
  let ⟨hlabels, hslots, hargs, hchildren, hplain⟩ := hi
  P.instr hplain (.of_arg hn ⟨hlabels, hslots, hargs, hchildren⟩)

theorem loadArg (hn : P.Arg n) : P.Ok own exit (Emit.instr (.loadArg n)) :=
  argued hn ⟨rfl, rfl, rfl, rfl, rfl⟩

theorem callChild (hn : P.Child n) : P.Ok own exit (Emit.instr (.callChild n)) := by
  refine P.instr rfl ⟨?_, ?_, ?_, ?_⟩
  · simp [Instr.labels]
  · simp [Instr.slots]
  · simp [Instr.args]
  · simpa [Instr.children] using hn

theorem branching {i : Instr} (hi : i.slots = [] ∧ i.args = [] ∧ i.children = [] ∧ i.isSpecial = false)
    (hl : ∀ l ∈ i.labels, l ∈ own ∨ (exit = some l ∧ i.isJump = false)) :
    P.Ok own exit (Emit.instr i) := by
  obtain ⟨hslots, hargs, hchildren, hplain⟩ := hi
  refine P.instr hplain ⟨hl, ?_, ?_, ?_⟩
  · simp [hslots]
  · simp [hargs]
  · simp [hchildren]

theorem jump (hl : l ∈ own) : P.Ok own exit (Emit.instr (.jump l)) :=
  branching ⟨rfl, rfl, rfl, rfl⟩ fun m hm => by
    rw [List.mem_singleton.mp hm]
    exact .inl hl

theorem test {i : Instr} (hi : i.slots = [] ∧ i.args = [] ∧ i.children = [] ∧ i.isSpecial = false)
    (hlabels : i.labels = [l]) (hl : l ∈ own) : P.Ok own exit (Emit.instr i) :=
  branching hi fun m hm => by
    rw [hlabels, List.mem_singleton] at hm
    rw [hm]
    exact .inl hl

theorem check {i : Instr} (hi : i.slots = [] ∧ i.args = [] ∧ i.children = [] ∧ i.isSpecial = false)
    (hlabels : i.labels = [l]) (hjump : i.isJump = false) : P.Ok own (some l) (Emit.instr i) :=
  branching hi fun m hm => by
    rw [hlabels, List.mem_singleton] at hm
    rw [hm]
    exact .inr ⟨rfl, hjump⟩

theorem nil : P.Ok own exit (Emit.instrs []) := done

theorem cons {i : Instr} {is : List Instr} (hi : P.Ok own exit (Emit.instr i))
    (his : P.Ok own exit (Emit.instrs is)) : P.Ok own exit (Emit.instrs (i :: is)) :=
  seq hi fun _ => his

theorem bares {is : List Instr} (h : is.all Instr.isSimple = true) : P.Ok own exit (Emit.instrs is) :=
  forM fun i hi => bare (List.all_eq_true.mp h i hi)

end

/-! ## Small steps -/

theorem tyText {ty : Ty} : P.Ok own exit (tyText ty) := seq (P.read fun _ _ _ => rfl) fun _ => done

theorem mismatch {context expected : String} {found : Ty} {handed : α → List Label} {Q : α → Prop} :
    P.Holds own exit (mismatch context expected found : Emit α) handed Q :=
  seq tyText fun _ => P.fail nofun

theorem lookup {query : Registry → Except MetadataError α} : P.Ok own exit (lookup query) := by
  refine seq (P.read fun _ _ _ => rfl) fun _ => ?_
  split
  · exact done
  · exact P.fail nofun

theorem int {n : Int} : P.Ok own exit (int n) := bare rfl

theorem loadDimension {kind : PlaceKind} {dim : Nat} : P.Ok own exit (loadDimension kind dim) := by
  unfold Emit.loadDimension
  split
  · exact bare rfl
  · exact seq int fun _ => bare rfl
  · exact bare rfl

theorem pushDefault {ty : Ty} : P.Ok own exit (pushDefault ty) := ite done (ite (bare rfl) (bare rfl))

theorem wrapIf {condition : Bool} : P.Ok own exit (wrapIf condition) := ite (bare rfl) done

theorem unwrapIf {condition : Bool} : P.Ok own exit (unwrapIf condition) := ite (bare rfl) done

theorem spill {ty : Ty} : P.Yields own exit (spill ty) P.Slot :=
  after P.temp fun _ hslot => seq (storeLocal hslot) fun _ => give hslot

theorem loadVar {slot : VarSlot} (h : P.Var slot) : P.Ok own exit (loadVar slot) := by
  cases slot with
  | arg n => exact loadArg h
  | «local» n => exact loadLocal h

theorem loadVarAddr {slot : VarSlot} (h : P.Var slot) : P.Ok own exit (loadVarAddr slot) := by
  cases slot with
  | arg n => exact argued h ⟨rfl, rfl, rfl, rfl, rfl⟩
  | «local» n => exact loadLocalAddr h

theorem storeVar {slot : VarSlot} (h : P.Var slot) : P.Ok own exit (storeVar slot) := by
  cases slot with
  | arg n => exact argued h ⟨rfl, rfl, rfl, rfl, rfl⟩
  | «local» n => exact storeLocal h

theorem bindLocal {v : Variable} : P.Yields own exit (bindLocal v) fun bound => P.Var bound.2.1 :=
  after P.temp fun _ hslot => seq pushDefault fun _ => seq (storeLocal hslot) fun _ => give hslot

theorem bindLocals {vars : List Variable} :
    P.Yields own exit (bindLocals vars) fun bound => ∀ v ∈ bound, P.Var v.2.1 := by
  induction vars with
  | nil => exact give fun _ h => absurd h List.not_mem_nil
  | cons v vars ih =>
      exact after bindLocal fun _ hfirst => after ih fun _ hrest =>
        give (List.forall_mem_cons.mpr ⟨hfirst, hrest⟩)

theorem newLabels {items : List α} : P.Holds own exit (newLabels items) id fun _ => True := by
  induction items generalizing own with
  | nil => exact P.pure trivial fun _ h => absurd h List.not_mem_nil
  | cons a items ih =>
      refine label fun l => P.bind ih fun ls _ => P.pure trivial fun m hm => ?_
      rcases List.mem_cons.mp hm with rfl | hm
      · exact List.mem_append_right _ List.mem_cons_self
      · exact List.mem_append_left _ hm

/-! ## Landings -/

theorem pushLanding {ty : Ty} {form : Form} : P.Ok own exit (pushLanding ty form) := by
  cases form with
  | nothing => exact done
  | value => exact pushDefault
  | address =>
      exact after P.temp fun _ hslot => seq pushDefault fun _ =>
        cons (storeLocal hslot) (cons (loadLocalAddr hslot) nil)

/-- A result brought into a shape, where an address is left only to those who want one. -/
theorem adapt {ty : Ty} {emitted : Emitted} {shape : Shape}
    (hform : emitted.form = .address → shape.wantsAddress ty = true) :
    P.Ok own exit (adapt ty emitted shape) := by
  unfold Emit.adapt
  split
  · exact done
  · exact ite (seq (bare rfl) fun _ => done)
      (ite (after spill fun _ hslot => seq (loadLocalAddr hslot) fun _ => done) done)
  · next haddress =>
      rw [if_pos (hform haddress)]
      exact ite (seq (bare rfl) fun _ => done) done

/-- A result that fits, brought into the shape. -/
theorem settled {x : Emit Emitted} {ty : Ty} {shape : Shape} (hx : P.Ok own exit x)
    (hfits : Fitting shape ty x) : P.Ok own exit (do
      let emitted ← x
      Emit.adapt ty emitted shape) := by
  have hsame : (x >>= fun e => Emit.adapt ty e shape) = x >>= fun e =>
      if e.form = .address → shape.wantsAddress ty = true then Emit.adapt ty e shape
      else Pure.pure e :=
    bind_congr fun setting s t e hrun => (if_pos (hfits setting s t e hrun)).symm
  rw [hsame]
  refine seq hx fun e => ?_
  split
  · next he => exact adapt he
  · exact done

theorem coerce {source target : Ty} {context : String} :
    P.Ok own exit (coerce source target context) :=
  ite done <| ite (bare rfl) <| seq (P.read fun _ _ _ => rfl) fun _ =>
    ite (ite (bare rfl) done) (seq tyText fun _ => mismatch)

end Policy

/-! ## Scopes and landings -/

namespace Rules

variable {R : Rules}

/-- Variables that live where emitters may look may be in scope. -/
def AllowsScopes (R : Rules) : Prop :=
  ∀ {α : Type} {own : List Label} {exit : Option Label} {vars : Scope} {x : Emit α}
    {handed : α → List Label} {Q : α → Prop}, (∀ v ∈ vars, R.Var v.2.1) →
    R.Holds own exit x handed Q → R.Holds own exit (inScope vars x) handed Q

/-- Zeroed locals may be in scope. -/
def BindsLocals (R : Rules) : Prop :=
  ∀ {α : Type} {own : List Label} {exit : Option Label} {vars : List Variable} {x : Emit α}
    {handed : α → List Label} {Q : α → Prop},
    R.Holds own exit x handed Q → R.Holds own exit (withLocals vars x) handed Q

theorem AllowsScopes.bindsLocals (hR : R.AllowsScopes) : R.BindsLocals :=
  fun hx => Policy.after Policy.bindLocals fun _ hbound => hR hbound hx

/-- The parts of a landing are allowed on their own. -/
structure AllowsPlaceholders (R : Rules) : Prop where
  /-- A label that is lent may be the exit of a body. -/
  lend : ∀ {α : Type} {own : List Label} {exit : Option Label} {pad : Label} {x : Emit α}
    {handed : α → List Label} {Q : α → Prop}, pad ∈ own → R.Holds own (some pad) x handed Q →
    R.Holds own exit x handed Q
  reserved : ∀ {α : Type} {own : List Label} {exit : Option Label} {x : Emit α}
    {fill : α → Option Instr} {handed : α → List Label} {Q : α → Prop},
    (∀ a i, fill a = some i →
      i.isDelicate = false ∧ i.Names (fun _ => False) R.Slot (fun _ => False) fun _ => False) →
    R.Holds own exit x handed Q → R.Holds own exit (reserved x fill) handed Q
  resetStack : ∀ {own : List Label} {exit : Option Label} {n : Nat}, R.Slot n →
    R.Ok own exit (Emit.instr (.resetStack n))

/-- Tests are allowed where they belong. -/
structure AllowsTests (R : Rules) : Prop where
  /-- A value is checked for null. -/
  nullCheck : ∀ {own : List Label} {pad : Label}, R.Ok own (some pad) (instrs [.dup, .jumpIfAbsent pad])
  /-- The value of a local is tested for null. -/
  nullTest : ∀ {own : List Label} {exit : Option Label} {n : Nat} {l : Label}, R.Slot n → l ∈ own →
    R.Ok own exit (instrs [.loadLocal n, .jumpIfAbsent l])
  /-- An index is checked. -/
  checkIndex : ∀ {own : List Label} {pad : Label} {kind : PlaceKind} {container dim index : Nat},
    R.Slot container → R.Slot index → R.Ok own (some pad) (checkIndex pad kind container dim index)
  /-- A condition is tested that does not end with a comparison of order. -/
  condition : ∀ {α : Type} {own : List Label} {exit : Option Label} {x : Emit α} {l : Label},
    R.Ok own exit x → x.EndsApart → l ∈ own →
    R.Ok own exit (x >>= fun _ => Emit.instr (.jumpIfTrue l))

/-- Where tests are allowed everywhere, they are where they belong. -/
theorem AllowsTests.of_tests
    (habsent : ∀ {own : List Label} {exit : Option Label} {l : Label}, l ∈ own ∨ exit = some l →
      R.Ok own exit (Emit.instr (.jumpIfAbsent l)))
    (htrue : ∀ {own : List Label} {exit : Option Label} {l : Label}, l ∈ own ∨ exit = some l →
      R.Ok own exit (Emit.instr (.jumpIfTrue l))) : R.AllowsTests where
  nullCheck := Policy.cons (Policy.bare rfl) (Policy.cons (habsent (.inr rfl)) Policy.nil)
  nullTest hn hl := Policy.cons (Policy.loadLocal hn) (Policy.cons (habsent (.inl hl)) Policy.nil)
  checkIndex hcontainer hindex :=
    Policy.seq (Policy.loadLocal hindex) fun _ => Policy.seq Policy.int fun _ =>
      Policy.seq (Policy.cons (Policy.bare rfl) (Policy.cons (htrue (.inr rfl))
        (Policy.cons (Policy.loadLocal hindex) (Policy.cons (Policy.loadLocal hcontainer) Policy.nil))))
        fun _ => Policy.seq Policy.loadDimension fun _ =>
      Policy.cons (Policy.bare rfl) (Policy.cons (Policy.check ⟨rfl, rfl, rfl, rfl⟩ rfl rfl) Policy.nil)
  condition hx _ hl := Policy.seq hx fun _ => htrue (.inl hl)

/-- Nodes that fit may be emitted with a landing of their own. -/
def Lands (R : Rules) (Fit : Node → Prop) : Prop :=
  ∀ {own : List Label} {exit : Option Label} {ty : Ty} {n : Node} {shape : Shape}, Fit n →
    (∀ own exit, R.Ok own exit (n.emit exit shape false)) →
    R.Ok own exit (withLanding ty fun exit => n.emit exit shape false)

/-- A body with a landing of its own, where the parts of a landing are allowed. -/
theorem AllowsPlaceholders.withLanding (hR : R.AllowsPlaceholders) {own : List Label}
    {exit : Option Label} {ty : Ty} {body : Option Label → Emit Emitted}
    (hbody : ∀ own exit, R.Ok own exit (body exit)) : R.Ok own exit (withLanding ty body) := by
  refine Policy.seq (R.read fun _ _ _ => rfl) fun o =>
    Policy.ite (Policy.after R.temp fun depth hdepth => ?_) ?_
  · -- The pad is lent to the body as its exit, and handed on to be marked.
    have hguarded : R.Holds own exit (do
        let pad ← Emit.newLabel
        let emitted ← body (some pad)
        Pure.pure (pad, emitted)) (fun result => [result.1]) fun _ => True := by
      refine Policy.label fun pad => ?_
      have hpad : R.Ok (pad :: own) exit (body (some pad)) :=
        hR.lend List.mem_cons_self (hbody (pad :: own) (some pad))
      exact Policy.seq hpad fun _ => R.pure trivial (by simp)
    have hfill : ∀ (a : Label × Emitted) (i : Instr),
        (if a.2.usedExit then some (.markStack depth) else none) = some i →
        i.isDelicate = false ∧ i.Names (fun _ => False) R.Slot (fun _ => False) fun _ => False := by
      intro a i h
      split at h <;> cases h
      exact ⟨rfl, .of_slot hdepth ⟨rfl, rfl, rfl, rfl⟩⟩
    refine R.bind (hR.reserved hfill hguarded) fun result _ => ?_
    obtain ⟨pad, emitted⟩ := result
    refine Policy.ite ?_ (Policy.seq (R.mark (by simp)) fun _ => Policy.done)
    exact Policy.label fun _ => Policy.seq (Policy.jump (by simp)) fun _ =>
      Policy.seq (R.mark (by simp)) fun _ => Policy.seq (hR.resetStack hdepth) fun _ =>
      Policy.seq Policy.pushLanding fun _ => Policy.seq (R.mark (by simp)) fun _ => Policy.done
  · exact R.weaken (hbody own none) (fun _ h => h) (fun _ hl => nomatch hl) fun _ h => h

theorem AllowsPlaceholders.lands (hR : R.AllowsPlaceholders) : R.Lands fun _ => True :=
  fun _ hn => hR.withLanding hn

end Rules

/-- A property of emitters that composition keeps, and that allows the steps with hidden arguments and
addresses that emitters take.  `Table t n` says that the argument `n` holds the table `t`. -/
structure Policy extends Rules where
  Table : HiddenTable → Nat → Prop
  hiddenParams : ∀ {own : List Label} {exit : Option Label},
    Holds own exit hiddenParams (fun _ => []) fun h => ∀ t n, h.tableArg? t = some n → Table t n
  loadTable : ∀ {own : List Label} {exit : Option Label} {t : HiddenTable} {table : Nat} (index : Nat)
    (ty : Ty), Table t table →
    Holds own exit (loadTableElement table index ty) (fun _ => []) fun _ => True
  storeTable : ∀ {own : List Label} {exit : Option Label} {table value : Nat} (index : Nat) (ty : Ty),
    Table .closure table → Slot value →
    Holds own exit (do
      Emit.instr (.loadArg table)
      int index
      instrs [.loadLocal value, .box ty, .storeElem]) (fun _ => []) fun _ => True
  zeroed : ∀ {own : List Label} {exit : Option Label} {slot : Nat} (ty : Ty), Slot slot →
    Holds own exit (instrs [.loadLocalAddr slot, .initObject ty, .loadLocal slot]) (fun _ => [])
      fun _ => True
  shapedVariable : ∀ {own : List Label} {exit : Option Label} (id : VarId) (ty : Ty) (shape : Shape),
    Holds own exit (Emit.shapedVariable id ty shape) (fun _ => []) fun _ => True
  /-- Nodes that may be emitted with a landing of their own. -/
  Fit : Node → Prop
  withLocals : toRules.BindsLocals
  landing : toRules.Lands Fit
  tests : toRules.AllowsTests

/-! ## Loose rules -/

namespace Rules

variable {R : Rules} {own : List Label} {exit : Option Label} {n : Nat}

/-- All instructions that name what may be named are allowed, tests and those that belong to a landing
aside. -/
def Loose (R : Rules) : Prop :=
  ∀ {own : List Label} {exit : Option Label} {i : Instr}, i.isLanding = false → i.isTest = false →
    i.Names (fun l => l ∈ own ∨ (exit = some l ∧ i.isJump = false)) R.Slot R.Arg R.Child →
    R.Ok own exit (Emit.instr i)

/-- All instructions that name what may be named are allowed, those that belong to a landing aside. -/
def Lax (R : Rules) : Prop :=
  ∀ {own : List Label} {exit : Option Label} {i : Instr}, i.isLanding = false →
    i.Names (fun l => l ∈ own ∨ (exit = some l ∧ i.isJump = false)) R.Slot R.Arg R.Child →
    R.Ok own exit (Emit.instr i)

section

variable (hR : R.Loose)

include hR

theorem Loose.bare {i : Instr} (hi : i.isBare = true ∧ i.isLanding = false) :
    R.Ok own exit (Emit.instr i) := hR hi.2 (Instr.isTest_of_isBare hi.1) (.of_isBare hi.1)

theorem Loose.slotted {i : Instr} (hn : R.Slot n)
    (hi : i.labels = [] ∧ i.slots = [n] ∧ i.args = [] ∧ i.children = [] ∧ i.isLanding = false) :
    R.Ok own exit (Emit.instr i) :=
  let ⟨hlabels, hslots, hargs, hchildren, hlanding⟩ := hi
  hR hlanding (Instr.isTest_of_labels hlabels) (.of_slot hn ⟨hlabels, hslots, hargs, hchildren⟩)

theorem Loose.argued {i : Instr} (hn : R.Arg n)
    (hi : i.labels = [] ∧ i.slots = [] ∧ i.args = [n] ∧ i.children = [] ∧ i.isLanding = false) :
    R.Ok own exit (Emit.instr i) :=
  let ⟨hlabels, hslots, hargs, hchildren, hlanding⟩ := hi
  hR hlanding (Instr.isTest_of_labels hlabels) (.of_arg hn ⟨hlabels, hslots, hargs, hchildren⟩)

theorem Loose.loadVar {slot : VarSlot} (h : R.Var slot) : R.Ok own exit (Emit.loadVar slot) := by
  cases slot with
  | arg n => exact hR.argued h ⟨rfl, rfl, rfl, rfl, rfl⟩
  | «local» n => exact hR.slotted h ⟨rfl, rfl, rfl, rfl, rfl⟩

theorem Loose.loadVarAddr {slot : VarSlot} (h : R.Var slot) :
    R.Ok own exit (Emit.loadVarAddr slot) := by
  cases slot with
  | arg n => exact hR.argued h ⟨rfl, rfl, rfl, rfl, rfl⟩
  | «local» n => exact hR.slotted h ⟨rfl, rfl, rfl, rfl, rfl⟩

/-- A result brought into a shape. -/
theorem Loose.adapt {ty : Ty} {emitted : Emitted} {shape : Shape} :
    R.Ok own exit (Emit.adapt ty emitted shape) := by
  have hpop : ∀ {e : Emitted}, R.Ok own exit (do
      Emit.instr .pop
      Pure.pure e) := Policy.seq (Policy.bare rfl) fun _ => Policy.done
  unfold Emit.adapt
  split
  · exact Policy.done
  · split
    · exact hpop
    split
    · exact Policy.after Policy.spill fun slot hslot =>
        Policy.seq (hR.slotted hslot ⟨rfl, rfl, rfl, rfl, rfl⟩) fun _ => Policy.done
    · exact Policy.done
  · split
    · exact hpop
    split
    · exact Policy.done
    · exact Policy.seq (hR.bare ⟨rfl, rfl⟩) fun _ => Policy.done

/-- The policy of loose rules, under which hidden arguments are arguments like others. -/
def Loose.policy (htests : R.AllowsTests) (Fit : Node → Prop) (hlocals : R.BindsLocals)
    (hlanding : R.Lands Fit)
    (hhidden : ∀ {own : List Label} {exit : Option Label},
      R.Yields own exit hiddenParams fun h => ∀ t n, h.tableArg? t = some n → R.Arg n) : Policy where
  toRules := R
  Table _ := R.Arg
  hiddenParams := hhidden
  loadTable index ty htable := by
    refine Policy.seq (hR.argued htable ⟨rfl, rfl, rfl, rfl, rfl⟩) fun _ =>
      Policy.seq Policy.int fun _ => Policy.seq (hR.bare ⟨rfl, rfl⟩) fun _ => ?_
    exact Policy.ite Policy.done (hR.bare ⟨rfl, rfl⟩)
  storeTable index ty htable hvalue :=
    Policy.seq (hR.argued htable ⟨rfl, rfl, rfl, rfl, rfl⟩) fun _ => Policy.seq Policy.int fun _ =>
      Policy.seq (hR.slotted hvalue ⟨rfl, rfl, rfl, rfl, rfl⟩) fun _ =>
      Policy.seq (hR.bare ⟨rfl, rfl⟩) fun _ => Policy.seq (hR.bare ⟨rfl, rfl⟩) fun _ => Policy.done
  zeroed ty hslot :=
    Policy.seq (hR.slotted hslot ⟨rfl, rfl, rfl, rfl, rfl⟩) fun _ =>
      Policy.seq (hR.bare ⟨rfl, rfl⟩) fun _ =>
      Policy.seq (hR.slotted hslot ⟨rfl, rfl, rfl, rfl, rfl⟩) fun _ => Policy.done
  shapedVariable id ty shape := by
    refine Policy.seq (Policy.after R.varSlot fun v hv => ?_) fun _ => hR.adapt
    dsimp only
    split
    · exact Policy.seq (hR.loadVarAddr hv) fun _ => Policy.done
    · exact Policy.seq (hR.loadVar hv) fun _ => Policy.done
  Fit := Fit
  withLocals := hlocals
  landing := hlanding
  tests := htests

end

/-! ## Lax rules -/

section

variable (hR : R.Lax)

include hR

theorem Lax.loose : R.Loose := fun hi _ => hR hi

theorem Lax.test {i : Instr} {l : Label} (hlabels : i.labels = [l])
    (hi : i.slots = [] ∧ i.args = [] ∧ i.children = [] ∧ i.isJump = false ∧ i.isLanding = false)
    (hl : l ∈ own ∨ exit = some l) : R.Ok own exit (Emit.instr i) := by
  obtain ⟨hslots, hargs, hchildren, hjump, hlanding⟩ := hi
  refine hR hlanding ⟨?_, ?_, ?_, ?_⟩
  · rw [hlabels]
    exact List.forall_mem_singleton.mpr (hl.imp_right fun h => ⟨h, hjump⟩)
  · simp [hslots]
  · simp [hargs]
  · simp [hchildren]

theorem Lax.tests : R.AllowsTests :=
  .of_tests (hR.test rfl ⟨rfl, rfl, rfl, rfl, rfl⟩) (hR.test rfl ⟨rfl, rfl, rfl, rfl, rfl⟩)

/-- The policy of lax rules. -/
def Lax.policy (Fit : Node → Prop) (hlocals : R.BindsLocals) (hlanding : R.Lands Fit)
    (hhidden : ∀ {own : List Label} {exit : Option Label},
      R.Yields own exit hiddenParams fun h => ∀ t n, h.tableArg? t = some n → R.Arg n) : Policy :=
  Loose.policy hR.loose hR.tests Fit hlocals hlanding hhidden

end

/-- The policy of lax rules that allow the parts of sections and landings on their own. -/
def policy (R : Rules) (hR : R.Lax) (hscopes : R.AllowsScopes)
    (hplaceholders : R.AllowsPlaceholders)
    (hhidden : ∀ {own : List Label} {exit : Option Label},
      R.Yields own exit hiddenParams fun h => ∀ t n, h.tableArg? t = some n → R.Arg n) : Policy :=
  Lax.policy hR (fun _ => True) hscopes.bindsLocals hplaceholders.lands hhidden

end Rules

namespace Policy

variable {α β : Type} {P : Policy} {own : List Label} {exit : Option Label}

theorem nullCheck : P.Ok own exit (nullCheck exit) := by
  cases exit with
  | some pad =>
      exact seq (P.read fun _ _ _ => rfl) fun _ => ite (seq P.tests.nullCheck fun _ => done) done
  | none => exact done

theorem checkIndices {pad : Label} {kind : PlaceKind} {container dim : Nat} {indices : List Nat}
    (hcontainer : P.Slot container) (h : ∀ n ∈ indices, P.Slot n) :
    P.Ok own (some pad) (checkIndices pad kind container dim indices) := by
  induction indices generalizing dim with
  | nil => exact done
  | cons index indices ih =>
      obtain ⟨hindex, hrest⟩ := List.forall_mem_cons.mp h
      rw [checkIndices_cons]
      exact seq (P.tests.checkIndex hcontainer hindex) fun _ => ih hrest

/-- A jump where a condition is true that does not end with a comparison of order, and what follows. -/
theorem condition {x : Emit α} {f : PUnit → Emit β} {l : Label} {handed : β → List Label} {Q : β → Prop}
    (hx : P.Ok own exit x) (hends : x.EndsApart) (hl : l ∈ own) (hf : ∀ a, P.Holds own exit (f a) handed Q) :
    P.Holds own exit (x >>= fun _ => Emit.instr (.jumpIfTrue l) >>= f) handed Q := by
  rw [← bind_assoc_emit]
  exact seq (P.tests.condition hx hends hl) hf

end Policy

end Emit

/-! ## Nodes and places -/

/-- The place is held in locals and arguments that may be named. -/
structure Place.Fits (P : Emit.Policy) (p : Place) : Prop where
  kind : ∀ slot, p.kind = .var slot → P.Var slot
  operands : ∀ n ∈ p.receiver.toList ++ p.indices, P.Slot n

/-- A node whose emitters keep a policy, whatever labels are lent. -/
structure Node.Keeps (P : Emit.Policy) (n : Node) : Prop where
  fit : P.Fit n
  emit : ∀ own exit shape extend, P.Ok own exit (n.emit exit shape extend)
  place : ∀ own exit extend, P.Yields own exit (n.place exit extend) fun r => r.1.Fits P

namespace Node.Keeps

open Emit.Policy

variable {P : Emit.Policy} {n : Node} {own : List Label} {exit : Option Label}

theorem value (hn : n.Keeps P) : P.Ok own exit (n.value exit) :=
  seq (hn.emit _ _ _ _) fun _ => done

theorem effect (hn : n.Keeps P) : P.Ok own exit (n.effect exit) :=
  seq (hn.emit _ _ _ _) fun _ => done

theorem guarded (hn : n.Keeps P) {shape : Shape} : P.Ok own exit (n.guarded shape) :=
  P.landing hn.fit fun _ _ => hn.emit _ _ _ _

theorem receiver (hn : n.Keeps P) {shape : Shape} {extend : Bool} :
    P.Ok own exit (n.receiver exit shape extend) :=
  seq (P.read fun _ _ _ => rfl) fun _ => seq (hn.emit _ _ _ _) fun _ =>
    ite (seq nullCheck fun _ => done) done

theorem branch (hn : n.Keeps P) {ty : Ty} {discard : Bool} :
    P.Ok own exit (n.branch ty exit discard) :=
  ite hn.effect (seq hn.value fun _ => seq wrapIf fun _ => done)

end Node.Keeps

end Arbor
