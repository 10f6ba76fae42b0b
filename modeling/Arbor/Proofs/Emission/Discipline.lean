/-
  Disciplines of emission.

  A discipline is a property of emitters that forbids nothing but plain jumps to
  labels that an emitter did not make itself, and looks at neither locals nor
  arguments.  Every discipline is a policy, so that the layers of a tree that keep
  every policy keep every discipline.
-/
import Arbor.Proofs.Emission.Layers

set_option autoImplicit false

namespace Arbor

namespace Emit

/-- A property of emitters, together with what holds of their results, that composition keeps. -/
structure Discipline where
  /-- The emitter has the property, and its results have the second one. -/
  Holds : {α : Type} → Emit α → (α → Prop) → Prop
  /-- Labels that emitters may jump to and mark. -/
  Own : Label → Prop
  pure : ∀ {α : Type} {a : α} {Q : α → Prop}, Q a → Holds (pure a) Q
  bind : ∀ {α β : Type} {x : Emit α} {f : α → Emit β} {P : α → Prop} {Q : β → Prop},
    Holds x P → (∀ a, P a → Holds (f a) Q) → Holds (x >>= f) Q
  fail : ∀ {α : Type} {e : CompileError} {Q : α → Prop}, Holds (fail e) Q
  read : ∀ {α : Type} {f : Setting → Emission → Except CompileError α},
    (∀ setting s session, f setting { s with session := session } = f setting s) →
    Holds (read f) fun _ => True
  instr : ∀ {i : Instr}, i.isJump = false → Holds (instr i) fun _ => True
  jump : ∀ {l : Label}, Own l → Holds (Emit.instr (.jump l)) fun _ => True
  reserved : ∀ {α : Type} {x : Emit α} {fill : α → Option Instr} {Q : α → Prop},
    (∀ a i, fill a = some i → i.isJump = false) → Holds x Q → Holds (reserved x fill) Q
  newLabel : Holds newLabel Own
  mark : ∀ {l : Label}, Own l → Holds (mark l) fun _ => True
  temp : ∀ {ty : Ty}, Holds (temp ty) fun _ => True
  withTemps : ∀ {α : Type} {x : Emit α} {Q : α → Prop}, Holds x Q → Holds (withTemps x) Q
  inScope : ∀ {α : Type} {vars : Scope} {x : Emit α} {Q : α → Prop},
    Holds x Q → Holds (inScope vars x) Q
  helper : ∀ {kind : HelperKind} {elem : Ty}, Holds (helper kind elem) fun _ => True

namespace Discipline

variable {α β : Type} {D : Discipline}

/-- The emitter keeps the discipline; nothing is said of its results. -/
abbrev Ok (D : Discipline) (x : Emit α) : Prop := D.Holds x fun _ => True

/-! ## Composition -/

theorem seq {x : Emit α} {f : α → Emit β} (hx : D.Ok x) (hf : ∀ a, D.Ok (f a)) : D.Ok (x >>= f) :=
  D.bind hx fun a _ => hf a

theorem done {a : α} : D.Ok (Pure.pure a) := D.pure trivial

theorem map {x : Emit α} {f : α → β} (hx : D.Ok x) : D.Ok (f <$> x) := seq hx fun _ => done

theorem forM {items : List α} {f : α → Emit PUnit} (hf : ∀ a ∈ items, D.Ok (f a)) :
    D.Ok (items.forM f) := by
  induction items with
  | nil => exact done
  | cons a items ih =>
      exact seq (hf a List.mem_cons_self) fun _ => ih fun b hb => hf b (List.mem_cons_of_mem _ hb)

theorem ite {c : Prop} [Decidable c] {x y : Emit α} (hx : D.Ok x) (hy : D.Ok y) :
    D.Ok (if c then x else y) := by
  split
  · exact hx
  · exact hy

theorem instrs {is : List Instr} (h : ∀ i ∈ is, i.isJump = false) : D.Ok (Emit.instrs is) :=
  forM fun i hi => D.instr (h i hi)

theorem plain {is : List Instr} (h : is.all (fun i => !i.isJump) = true) : D.Ok (Emit.instrs is) :=
  instrs fun i hi => by simpa using List.all_eq_true.mp h i hi

/-! ## Disciplines as policies -/

theorem bind_done {x : Emit α} : (x >>= fun a => Pure.pure a) = x := by
  obtain ⟨run, grows⟩ := x
  change Emit.andThen ⟨run, grows⟩ Emit.done = ⟨run, grows⟩
  simp only [Emit.andThen, Emit.mk.injEq]
  funext setting s
  cases run setting s <;> rfl

theorem weaken {x : Emit α} {Q Q' : α → Prop} (hx : D.Holds x Q) (h : ∀ a, Q a → Q' a) :
    D.Holds x Q' := by
  rw [← bind_done (x := x)]
  exact D.bind hx fun a ha => D.pure (h a ha)

/-- An instruction that names own labels only, where it jumps. -/
theorem instr_of_names {i : Instr} {label : Label → Prop} {slot arg child : Nat → Prop}
    (hi : i.Names label slot arg child) (h : ∀ l, i.isJump = true → label l → D.Own l) :
    D.Ok (Emit.instr i) := by
  cases i with
  | jump l => exact D.jump (h l rfl (hi.labels l List.mem_cons_self))
  | _ => exact D.instr rfl

/-- The rules of a discipline. -/
def rules (D : Discipline) : Rules where
  Holds own _ x handed Q :=
    (∀ l ∈ own, D.Own l) → D.Holds x fun a => (∀ l ∈ handed a, D.Own l) ∧ Q a
  Slot _ := True
  Arg _ := True
  Child _ := True
  pure hQ hhanded hown := D.pure ⟨fun l hl => hown l (hhanded l hl), hQ⟩
  bind hx hf hown := D.bind (hx hown) fun a ha =>
    hf a ha.2 fun l hl => (List.mem_append.mp hl).elim (ha.1 l) (hown l)
  weaken hx hown _ hQ h := D.weaken (hx fun l hl => h l (hown l hl)) fun a ha => ⟨ha.1, hQ a ha.2⟩
  fail _ _ := D.fail
  read hf _ := D.weaken (D.read fun setting s session => congrArg Except.ok (hf setting s session))
    fun _ _ => ⟨by simp, trivial⟩
  instr _ hi hown := D.weaken (instr_of_names hi fun l hjump hl =>
      hl.elim (hown l) fun hexit => absurd hjump (by simp [hexit.2])) fun _ _ => ⟨by simp, trivial⟩
  newLabel _ := D.weaken D.newLabel fun _ hl => ⟨List.forall_mem_singleton.mpr hl, trivial⟩
  mark hl hown := D.weaken (D.mark (hown _ hl)) fun _ _ => ⟨by simp, trivial⟩
  temp _ := D.weaken D.temp fun _ _ => ⟨by simp, trivial⟩
  withTemps hx hown := D.withTemps (hx hown)
  varSlot _ := D.weaken (D.read fun _ _ _ => rfl) fun a _ =>
    ⟨by simp, match a with | (.arg _, _) => trivial | (.local _, _) => trivial⟩
  helper _ := D.weaken D.helper fun _ _ => ⟨by simp, trivial⟩

theorem scopes_rules (D : Discipline) : D.rules.AllowsScopes := fun _ hx hown => D.inScope (hx hown)

theorem placeholders_rules (D : Discipline) : D.rules.AllowsPlaceholders where
  lend _ hx := hx
  reserved hfill hx hown := D.reserved (fun a i hi => by
    cases i with
    | jump l => exact absurd ((hfill a _ hi).2.labels l List.mem_cons_self) id
    | _ => rfl) (hx hown)
  resetStack _ _ := D.weaken (D.instr rfl) fun _ _ => ⟨by simp, trivial⟩

theorem lax_rules (D : Discipline) : D.rules.Lax := fun _ hi hown =>
  D.weaken (instr_of_names hi fun l hjump hl =>
    hl.elim (hown l) fun hexit => absurd hjump (by simp [hexit.2])) fun _ _ => ⟨by simp, trivial⟩

/-- The policy of a discipline. -/
def policy (D : Discipline) : Policy :=
  D.rules.policy D.lax_rules D.scopes_rules D.placeholders_rules fun _ =>
    D.weaken (D.read fun _ _ _ => rfl) fun _ _ => ⟨by simp, fun _ _ _ => trivial⟩

theorem ok_of_policy {x : Emit α} (exit : Option Label) (h : D.policy.Ok [] exit x) : D.Ok x :=
  D.weaken (h fun _ hl => absurd hl List.not_mem_nil) fun _ _ => trivial

theorem policy_of_ok {x : Emit α} {own : List Label} {exit : Option Label} {Q : α → Prop}
    (h : D.Ok x) (hQ : ∀ a, Q a) : D.policy.Yields own exit x Q :=
  fun _ => D.weaken h fun a _ => ⟨fun _ hl => absurd hl List.not_mem_nil, hQ a⟩

end Discipline

end Emit

theorem Place.fits_discipline (D : Emit.Discipline) (p : Place) : p.Fits D.policy :=
  ⟨fun slot _ => by cases slot <;> trivial, fun _ _ => trivial⟩

/-- A node whose emitters keep a discipline. -/
structure Node.Obeys (D : Emit.Discipline) (n : Node) : Prop where
  emit : ∀ exit shape extend, D.Ok (n.emit exit shape extend)
  place : ∀ exit extend, D.Ok (n.place exit extend)

namespace Node.Obeys

open Emit.Discipline

variable {D : Emit.Discipline} {n : Node}

theorem keeps (hn : n.Obeys D) : n.Keeps D.policy where
  fit := trivial
  emit _ _ _ _ := policy_of_ok (hn.emit _ _ _) fun _ => trivial
  place _ _ _ := policy_of_ok (hn.place _ _) fun _ => Place.fits_discipline D _

theorem guarded (hn : n.Obeys D) {shape : Shape} : D.Ok (n.guarded shape) :=
  ok_of_policy none hn.keeps.guarded

end Node.Obeys

namespace Emit.Discipline

variable {α : Type} {D : Discipline} {n : Node} {exit : Option Label} {ty : Ty}

/-! ## Small steps -/

theorem tyText : D.Ok (tyText ty) := ok_of_policy none Policy.tyText

theorem pushDefault : D.Ok (pushDefault ty) := ok_of_policy none Policy.pushDefault

theorem wrapIf {condition : Bool} : D.Ok (wrapIf condition) :=
  ok_of_policy none Policy.wrapIf

theorem bindLocals {vars : List Variable} : D.Ok (bindLocals vars) :=
  ok_of_policy none (Policy.drop Policy.bindLocals)

theorem checkBranch : D.Ok (n.checkBranch ty) := ok_of_policy none Policy.checkBranch

theorem statement (hn : n.Obeys D) : D.Ok (statement n) :=
  ok_of_policy none (Policy.statement hn.keeps)

theorem checkHandler {h : CatchBlock Node} : D.Ok (checkHandler h) :=
  ok_of_policy none Policy.checkHandler

theorem protectedPart (hn : n.Obeys D) {p : ProtectedBlock} : D.Ok (protectedPart n p) :=
  ok_of_policy none (Policy.protectedPart hn.keeps (fun _ _ => trivial))

theorem storeException {binder : Option Variable} : D.Ok (storeException binder) :=
  ok_of_policy none Policy.storeException

/-! ## Layers -/

theorem placeOf {k : ExprKind Node} (hk : ∀ n ∈ k.children, n.Obeys D) {extend : Bool} :
    D.Ok (placeOf k ty exit extend) :=
  ok_of_policy exit (Policy.drop (Policy.placeOf fun n hn => (hk n hn).keeps))

theorem policy_place {place : Option Label → Bool → Emit (Place × Bool)}
    (hplace : ∀ exit extend, D.Ok (place exit extend)) (own : List Label) (exit : Option Label)
    (extend : Bool) : D.policy.Yields own exit (place exit extend) fun r => r.1.Fits D.policy :=
  policy_of_ok (hplace exit extend) fun _ => Place.fits_discipline D _

/-- A plain layer keeps a discipline if its operands do. -/
theorem layer {k : ExprKind Node} (hplain : k.isPlain = true) (hk : ∀ n ∈ k.children, n.Obeys D)
    {place : Option Label → Bool → Emit (Place × Bool)}
    (hplace : ∀ exit extend, D.Ok (place exit extend)) {shape : Shape} :
    D.Ok (layer k ty place exit shape) :=
  ok_of_policy exit (Policy.layer hplain (fun n hn => (hk n hn).keeps) (policy_place hplace))

/-- A node keeps a discipline if its layer does, also as a place. -/
theorem obeys_ofKind {k : ExprKind Node}
    (hplace : ∀ exit extend, D.Ok (Emit.placeOf k ty exit extend))
    (hlayer : ∀ exit shape, D.Ok (Emit.layer k ty (Emit.placeOf k ty) exit shape)) :
    (Node.ofKind k ty).Obeys D := by
  have hkeeps : (Node.ofKind k ty).Keeps D.policy :=
    Policy.keeps_ofKind trivial (policy_place hplace) fun _ exit shape =>
      Policy.seq (policy_of_ok (hlayer exit shape) fun _ => trivial) fun _ =>
        Rules.Loose.adapt (Rules.Lax.loose D.lax_rules)
  exact ⟨fun exit shape extend => ok_of_policy exit (hkeeps.emit [] exit shape extend), hplace⟩

end Emit.Discipline

end Arbor
