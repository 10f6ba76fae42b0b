/-
  Emitters report their exits.

  An emitter that is given an exit reports whether some check of it jumps there.
  The report is put together from those of the operands, so an emitter accounts for
  the exit if its report covers whatever was reported before and whatever it adds
  itself.  What is emitted without the exit is quiet: it cannot name it.

  Operands that land on their own, arguments that are passed by address and nested
  functions do not get the exit.
-/
import Arbor.Proofs.Emission.Naming

set_option autoImplicit false

namespace Arbor

/-- Whether a layer neither hands its exit to operands nor checks for it. -/
def ExprKind.isExitless {α : Type} : ExprKind α → Bool
  | constant _ | default | parameter _ | hoisted _ | closureVar _ | loop .. | tryCatch .. | lambda _
  | throw _ | goto .. | label .. => true
  | _ => false

/-! ## Labels that are left alone -/

/-- The label has been made, and is none of the tree. -/
structure Emission.Lends (x : Label) (s : Emission) : Prop where
  made : x.index < s.builder.labels.size
  table : s.Tabled (· ≠ x)

/-- No instruction that was added names the label. -/
def Emission.Avoids (x : Label) (s t : Emission) : Prop :=
  ∀ p i, s.position ≤ p → t.builder.code[p]? = some i → x ∉ i.labels

namespace Emission

variable {x : Label} {tree : Label → Prop} {own handed : List Label} {exit : Option Label}
  {s t u : Emission}

theorem Avoids.trans (hut : u.Grows t) (h : s.Avoids x u) (k : u.Avoids x t) : s.Avoids x t := by
  intro p i hp hi
  by_cases hlt : p < u.position
  · rw [(Builder.Extends.of_grows hut).getElem?_code hlt] at hi
    exact h p i hp hi
  · exact k p i (Nat.le_of_not_lt hlt) hi

theorem Names.lends (h : Names tree own exit handed s t) (hgrows : s.Grows t) (hs : s.Lends x) :
    t.Lends x := by
  refine ⟨Nat.lt_of_lt_of_le hs.made hgrows.labels, ?_⟩
  unfold Tabled
  rw [h.table]
  exact hs.table

/-- A label that is not lent does not occur, and is not handed on. -/
theorem Names.avoids (h : Names (· ≠ x) own none handed s t) (hs : s.Lends x) (hx : x ∉ own) :
    s.Avoids x t ∧ x ∉ handed := by
  refine ⟨fun p i hp hi hl => ?_, fun hl => ?_⟩
  · rcases h.code p i hp hi x hl with hown | hexit | htree | hnew
    · exact hx hown
    · cases hexit
    · exact htree rfl
    · exact absurd hs.made (Nat.not_lt.mpr hnew.1)
  · rcases h.handed x hl with hown | ⟨hge, -⟩
    · exact hx hown
    · exact absurd hs.made (Nat.not_lt.mpr hge)

end Emission

namespace Emit

/-- Where the emitter reports nothing, nothing was reported before and nothing that it added names the
exit, unless the exit is lent otherwise. -/
def Accounts {α : Type} (own : List Label) (x : Label) (used : Bool) (y : Emit α)
    (report : α → Bool) : Prop :=
  x ∉ own → ∀ setting s t a, y.run setting s = .ok a t → s.Lends x →
    t.Lends x ∧ (report a = false → used = false ∧ s.Avoids x t)

end Emit

/-- Value and place of the node account for an exit, whatever else is lent. -/
structure Node.Reports (x : Label) (n : Node) : Prop where
  keeps : n.Keeps (Emit.naming (· ≠ x))
  emit : ∀ own shape extend,
    Emit.Accounts own x false (n.emit (some x) shape extend) Emitted.usedExit
  place : ∀ own extend, Emit.Accounts own x false (n.place (some x) extend) Prod.snd

namespace Emit

namespace Accounts

variable {α β : Type} {own : List Label} {x : Label} {used : Bool}

/-! ## Composition -/

section

variable {y : Emit α} {f : α → Emit β} {report : α → Bool} {report' : β → Bool}

theorem quietly {handed : α → List Label} {Q : α → Prop}
    (hy : (naming (· ≠ x)).Holds own none y handed Q)
    (hf : ∀ a, Q a → Accounts (handed a ++ own) x used (f a) report') :
    Accounts own x used (y >>= f) report' := by
  intro hx setting s t b hrun hs
  obtain ⟨a, u, hyu, hfu⟩ := run_bind hrun
  obtain ⟨hnames, hQ⟩ := hy _ _ _ _ hyu hs.table
  obtain ⟨hsu, hhanded⟩ := hnames.avoids hs hx
  obtain ⟨ht, hrest⟩ := hf a hQ (List.not_mem_append hhanded hx) _ _ _ _ hfu
    (hnames.lends (y.grows hyu) hs)
  exact ⟨ht, fun hb => ⟨(hrest hb).1, hsu.trans ((f a).grows hfu) (hrest hb).2⟩⟩

theorem quiet {Q : α → Prop} (hy : (naming (· ≠ x)).Yields own none y Q)
    (hf : ∀ a, Accounts own x used (f a) report') : Accounts own x used (y >>= f) report' :=
  quietly hy fun a _ => hf a

theorem label {f : Label → Emit β} (hf : ∀ l, Accounts (l :: own) x used (f l) report') :
    Accounts own x used (Emit.newLabel >>= f) report' :=
  quietly (naming _).newLabel fun l _ => hf l

/-- An emitter with the exit, and what follows it. -/
theorem andThen (hy : Accounts own x false y report)
    (hf : ∀ a, Accounts own x (used || report a) (f a) report') :
    Accounts own x used (y >>= f) report' := by
  intro hx setting s t b hrun hs
  obtain ⟨a, u, hyu, hfu⟩ := run_bind hrun
  obtain ⟨hu, hfirst⟩ := hy hx _ _ _ _ hyu hs
  obtain ⟨ht, hrest⟩ := hf a hx _ _ _ _ hfu hu
  refine ⟨ht, fun hb => ?_⟩
  obtain ⟨hboth, hut⟩ := hrest hb
  obtain ⟨hused, hreport⟩ := Bool.or_eq_false_iff.mp hboth
  exact ⟨hused, (hfirst hreport).2.trans ((f a).grows hfu) hut⟩

theorem give {a : α} (h : used = report a) : Accounts own x used (Pure.pure a) report := by
  intro _ setting s t b hrun hs
  cases hrun
  refine ⟨hs, fun hb => ⟨h.trans hb, fun p i hp hi => ?_⟩⟩
  exact absurd (Array.getElem?_eq_some_iff.mp hi).1 (Nat.not_lt.mpr hp)

theorem known {a : α} (h : Accounts own x used (f a) report') :
    Accounts own x used (Pure.pure a >>= f) report' := h

theorem checked {y : Emit Unit} (hy : (naming (· ≠ x)).Ok own (some x) y) :
    Accounts own x used (y >>= fun _ => Pure.pure true) id := by
  intro _ setting s t a hrun hs
  obtain ⟨_, u, hyu, hpure⟩ := run_bind hrun
  cases hpure
  obtain ⟨hnames, -⟩ := hy _ _ _ _ hyu hs.table
  exact ⟨hnames.lends (y.grows hyu) hs, nofun⟩

theorem fail {e : CompileError} : Accounts own x used (Emit.fail e : Emit α) report := by
  intro _ _ _ _ _ hrun
  cases hrun

theorem ite {c : Prop} [Decidable c] {y z : Emit α} (hy : Accounts own x used y report)
    (hz : Accounts own x used z report) : Accounts own x used (if c then y else z) report := by
  split
  · exact hy
  · exact hz

theorem silent {Q : α → Prop} (hy : (naming (· ≠ x)).Yields own none y Q) :
    Accounts own x false y report := by
  intro hx setting s t a hrun hs
  obtain ⟨hnames, -⟩ := hy _ _ _ _ hrun hs.table
  exact ⟨hnames.lends (y.grows hrun) hs, fun _ => ⟨rfl, (hnames.avoids hs hx).1⟩⟩

/-- A section with temporaries of its own. -/
theorem withTemps (hy : Accounts own x used y report) :
    Accounts own x used (Emit.withTemps y) report := by
  intro hx setting s t a hrun hs
  simp only [Emit.withTemps] at hrun
  split at hrun
  · next hyu =>
      cases hrun
      obtain ⟨hu, hreport⟩ := hy hx _ _ _ _ hyu hs
      exact ⟨⟨hu.made, hu.table⟩, hreport⟩
  · cases hrun

/-- A section with variables in scope. -/
theorem inScope {vars : Scope} (hy : Accounts own x used y report) :
    Accounts own x used (Emit.inScope vars y) report := by
  intro hx setting s t a hrun hs
  simp only [Emit.inScope] at hrun
  split at hrun
  · next hyu =>
      cases hrun
      obtain ⟨hu, hreport⟩ := hy hx _ _ _ _ hyu ⟨hs.made, hs.table⟩
      exact ⟨⟨hu.made, hu.table⟩, hreport⟩
  · cases hrun

theorem mismatch {context expected : String} {found : Ty} :
    Accounts own x used (Emit.mismatch context expected found : Emit α) report :=
  quiet Policy.tyText fun _ => fail

theorem mismatchOf {context : String} {expected : String → String} {ty found : Ty} :
    Accounts own x used (Emit.tyText ty >>= fun text =>
      (Emit.mismatch context (expected text) found : Emit α)) report :=
  quiet Policy.tyText fun _ => mismatch

end

variable {l r n : Node} {ty : Ty}

/-! ## Nodes -/

theorem fits (p : Place) : p.Fits (naming (· ≠ x)) :=
  ⟨fun slot _ => by cases slot <;> exact trivial, fun _ _ => trivial⟩

theorem nullCheck : Accounts own x false (Emit.nullCheck (some x)) id :=
  quiet ((naming _).read fun _ _ _ => rfl) fun _ => ite
    (checked (naming _).tests.nullCheck)
    (give rfl)

/-- A result brought into a shape. -/
theorem adapt {emitted : Emitted} {shape : Shape} (h : used = emitted.usedExit) :
    Accounts own x used (Emit.adapt ty emitted shape) Emitted.usedExit := by
  unfold Emit.adapt
  split
  · exact give h
  · exact ite (quiet (Policy.bare rfl) fun _ => give h)
      (ite (quiet Policy.spill fun _ => quiet (Policy.loadLocalAddr trivial) fun _ => give h)
        (give h))
  · exact ite (quiet (Policy.bare rfl) fun _ => give h)
      (ite (give h) (quiet (Rules.Loose.bare (Rules.Lax.loose (lax_naming _)) ⟨rfl, rfl⟩) fun _ => give h))

section

variable (hn : n.Reports x)

include hn

theorem value : Accounts own x false (n.value (some x)) id :=
  andThen (hn.emit _ _ _) fun _ => give rfl

theorem effect : Accounts own x false (n.effect (some x)) id :=
  andThen (hn.emit _ _ _) fun _ => give rfl

theorem receiver {shape : Shape} {extend : Bool} :
    Accounts own x false (n.receiver (some x) shape extend) Emitted.usedExit :=
  quiet ((naming _).read fun _ _ _ => rfl) fun _ => andThen (hn.emit _ _ _) fun _ =>
    ite (andThen nullCheck fun _ => give rfl) (give rfl)

theorem branch {discard : Bool} : Accounts own x false (n.branch ty (some x) discard) id :=
  ite (effect hn) (andThen (value hn) fun _ => quiet Policy.wrapIf fun _ => give rfl)

end

/-! ## Operators -/

/-- A unary operator. -/
theorem unary (hn : n.Reports x) {op : UnaryOp} {checked : Bool} {method : Option MethodRef} :
    Accounts own x false (unary op n checked method ty (some x)) Emitted.usedExit := by
  refine ite mismatch <| ite ?_ <| ite ?_ <| ite (quiet Policy.tyText fun _ => mismatch)
    (withTemps ?_)
  · exact andThen (value hn) fun _ => quiet Policy.unaryCode fun _ =>
      quiet Policy.wrapIf fun _ => give rfl
  · exact andThen (value hn) fun _ => quiet (Policy.bare rfl) fun _ => give rfl
  · refine andThen (value hn) fun _ => quiet Policy.spillOperand fun _ =>
      quiet (Policy.lifted (fun _ _ => trivial) (Policy.bare ?_) ?_) fun _ => give rfl
    · split <;> rfl
    · exact Policy.seq (Policy.loadInner trivial) fun _ => Policy.unaryCode

/-- A binary operator. -/
theorem binary (hl : l.Reports x) (hr : r.Reports x) {op : BinaryOp} {checked : Bool}
    {method : Option MethodRef} :
    Accounts own x false (binary op l r checked method ty (some x)) Emitted.usedExit := by
  unfold Emit.binary
  dsimp only
  have hrest : Accounts own x false
      (if method.isNone && !(l.ty.isNullable || r.ty.isNullable) then do
        let usedLeft ← l.value (some x)
        let usedRight ← r.value (some x)
        Emit.instr (op.instr checked l.ty)
        Emit.wrapIf ty.isNullable
        Pure.pure (Emitted.ofTy ty (usedLeft || usedRight))
      else
        Emit.withTemps do
          let usedLeft ← l.value (some x)
          let left ← Emit.spillOperand l.ty
          let usedRight ← r.value (some x)
          let right ← Emit.spillOperand r.ty
          Emit.binarySlots op checked method left right ty
          Pure.pure (Emitted.ofTy ty (usedLeft || usedRight))) Emitted.usedExit := by
    refine ite ?_ (withTemps ?_)
    · exact andThen (value hl) fun _ => andThen (value hr) fun _ =>
        quiet (Policy.bare (BinaryOp.instr_isSimple _ _ _)) fun _ =>
        quiet Policy.wrapIf fun _ => give rfl
    · exact andThen (value hl) fun _ => quiet Policy.spillOperand fun _ =>
        andThen (value hr) fun _ => quiet Policy.spillOperand fun _ =>
        quiet (Policy.binarySlots trivial trivial) fun _ => give rfl
  exact ite (quiet Policy.checkBinary fun _ => hrest) hrest

theorem decides {tree : Label → Prop} {exit : Option Label} {op : LogicalOp} {target : Label}
    (htarget : target ∈ own) : (naming tree).Ok own exit (Emit.instr (decide op target)) := by
  cases op <;> exact Rules.Lax.test (lax_naming tree) rfl ⟨rfl, rfl, rfl, rfl, rfl⟩ (.inl htarget)

/-- A short-circuit operator on operands of which one may be absent. -/
theorem liftedLogical (hl : l.Reports x) (hr : r.Reports x) {op : LogicalOp} :
    Accounts own x false (liftedLogical op l r ty (some x)) Emitted.usedExit := by
  refine withTemps (label fun decided => label fun evalRight => label fun target => ?_)
  exact andThen (value hl) fun _ => quiet Policy.spillOperand fun _ =>
    quiet (Policy.jumpIfMissing trivial (by simp)) fun _ => quiet (Policy.loadInner trivial) fun _ =>
    quiet (decides (by simp)) fun _ => quiet ((naming _).mark (by simp)) fun _ =>
    andThen (value hr) fun _ => quiet Policy.spillOperand fun _ => label fun entry =>
    quiet (Policy.jumpIfMissing trivial (by simp)) fun _ => quiet (Policy.loadLocal trivial) fun _ =>
    quiet Policy.wrapIf fun _ => quiet (Policy.jump (by simp)) fun _ =>
    quiet (Policy.leftAbsent trivial (by simp) (by simp) (by simp)) fun _ =>
    quiet ((naming _).mark (by simp)) fun _ => quiet (Policy.bares rfl) fun _ =>
    quiet ((naming _).mark (by simp)) fun _ => give rfl

/-- A short-circuit operator. -/
theorem logical (hl : l.Reports x) (hr : r.Reports x) {op : LogicalOp} :
    Accounts own x false (logical op l r ty (some x)) Emitted.usedExit := by
  refine ite mismatch <| ite mismatch <| ite mismatch ?_
  split
  · exact quiet Policy.pushTruth fun _ => give rfl
  · exact ite (liftedLogical hl hr) (label fun _ => andThen (value hl) fun _ =>
      quiet (Policy.cons (Policy.bare rfl)
        (Policy.cons (decides (by simp)) (Policy.cons (Policy.bare rfl) Policy.nil))) fun _ =>
      andThen (value hr) fun _ => quiet ((naming _).mark (by simp)) fun _ =>
      quiet Policy.wrapIf fun _ => give rfl)

/-- A coalescing; the left operand lands on its own. -/
theorem coalesce (hl : l.Reports x) (hr : r.Reports x) :
    Accounts own x false (coalesce l r ty (some x)) Emitted.usedExit := by
  refine quiet ((naming _).read fun _ _ _ => rfl) fun _ => ite mismatch <|
    ite (quiet Policy.tyText fun _ => mismatch) <| ite ?_ ?_
  · exact withTemps (label fun _ => label fun _ => quiet hl.keeps.guarded fun _ =>
      quiet Policy.spill fun _ =>
      quiet (Policy.cons (Policy.loadLocal trivial) (Policy.cons (Policy.bare rfl)
        (Policy.cons (Policy.test ⟨rfl, rfl, rfl, rfl⟩ rfl (by simp)) Policy.nil))) fun _ =>
      quiet (Policy.loadLocal trivial) fun _ => quiet Policy.unwrapIf fun _ =>
      quiet (Policy.jump (by simp)) fun _ => quiet ((naming _).mark (by simp)) fun _ =>
      andThen (value hr) fun _ => quiet Policy.wrapIf fun _ =>
      quiet ((naming _).mark (by simp)) fun _ => give rfl)
  · exact label fun _ => quiet hl.keeps.guarded fun _ =>
      quiet (Policy.cons (Policy.bare rfl) (Policy.cons
        (Policy.test ⟨rfl, rfl, rfl, rfl⟩ rfl (by simp)) (Policy.cons (Policy.bare rfl) Policy.nil)))
        fun _ =>
      andThen (value hr) fun _ => quiet ((naming _).mark (by simp)) fun _ => give rfl

/-! ## Places -/

theorem indexOperand (hn : n.Reports x) :
    Accounts own x false (indexOperand n (some x)) id := by
  refine andThen (value hn) fun _ => ?_
  split
  · exact ite (give rfl) (quiet (Policy.bare rfl) fun _ => give rfl)
  · exact mismatch

theorem spillIndices : ∀ {args : List Node}, (∀ a ∈ args, a.Reports x) →
    Accounts own x false (spillIndices (some x) args) Prod.snd
  | [], _ => give rfl
  | _ :: _, h =>
      andThen (indexOperand (h _ List.mem_cons_self)) fun _ => quiet Policy.spill fun _ =>
        andThen (spillIndices fun a ha => h a (List.mem_cons_of_mem _ ha)) fun _ => give rfl

theorem boundsCheck {kind : PlaceKind} {container : Nat} {indices : List Nat} :
    Accounts own x false (boundsCheck kind container indices (some x)) id :=
  quiet ((naming _).read fun _ _ _ => rfl) fun _ =>
    ite (checked (Policy.checkIndices trivial fun _ _ => trivial)) (give rfl)

/-- An element of a container that is grown. -/
theorem grownElement (hl : l.Reports x) (hr : r.Reports x) {kind : PlaceKind} :
    Accounts own x false (grownElement kind l r (some x)) fun e => e.2.2 := by
  refine andThen (hl.place _ _) fun _ => andThen (indexOperand hr) fun _ =>
    quiet Policy.spill fun _ => quiet (Policy.createdPlace (fits _)) fun _ => ?_
  have hloads : ∀ {container index : Nat} {is : List Instr},
      (naming (· ≠ x)).Ok own none (Emit.instrs is) →
      (naming (· ≠ x)).Ok own none (Emit.instrs (.loadLocal container :: .loadLocal index :: is)) :=
    fun h => Policy.cons (Policy.loadLocal trivial) (Policy.cons (Policy.loadLocal trivial) h)
  split
  · exact quiet (naming _).helper fun _ => quiet (hloads Policy.nil) fun _ => quiet Policy.int fun _ =>
      quiet (Policy.cons (Policy.bare rfl) (Policy.cons (Policy.callChild trivial) Policy.nil)) fun _ =>
      give rfl
  · exact quiet (naming _).helper fun _ =>
      quiet (hloads (Policy.cons (Policy.callChild trivial)
        (Policy.cons (Policy.storeLocal trivial) Policy.nil))) fun _ =>
      quiet (Policy.storePlace (fits _) trivial) fun _ => give rfl

/-- An element as a place. -/
theorem elementPlace (hl : l.Reports x) {args : List Node} (hargs : ∀ a ∈ args, a.Reports x)
    {extend : Bool} : Accounts own x false (elementPlace ty l args (some x) extend) Prod.snd := by
  unfold Emit.elementPlace
  split
  · exact mismatch
  · refine ite (quiet Policy.tyText fun _ => fail) ?_
    have hplain : Accounts own x false (do
        let emitted ← l.receiver (some x) .value false
        let container ← Emit.spill l.ty
        let indices ← Emit.spillIndices (some x) args
        Pure.pure (container, indices.1, emitted.usedExit || indices.2)) fun p => p.2.2 :=
      andThen (receiver hl) fun _ => quiet Policy.spill fun _ =>
        andThen (spillIndices hargs) fun _ => give rfl
    have hfinish : ∀ {kind : PlaceKind} {prepared : Emit (Nat × List Nat × Bool)},
        Accounts own x false prepared (fun p => p.2.2) → Accounts own x false (do
          let p ← prepared
          let checked ← Emit.boundsCheck kind p.1 p.2.1 (some x)
          Pure.pure ((⟨kind, some p.1, p.2.1, ty⟩ : Place), p.2.2 || checked)) Prod.snd :=
      fun hprepared => andThen hprepared fun _ => andThen boundsCheck fun _ => give rfl
    refine hfinish ?_
    split
    · exact hplain
    · next arg _ =>
        exact ite (andThen (grownElement hl (hargs arg List.mem_cons_self)) fun _ => give rfl) hplain
    · exact hplain

theorem spillReceiver (hn : n.Reports x) {extend : Bool} :
    Accounts own x false (spillReceiver n (some x) extend) Prod.snd :=
  andThen (receiver hn) fun _ => quiet Policy.spill fun _ => give rfl

theorem fieldPlace {f : FieldRef} {receiver : Option Node} (h : ∀ n ∈ receiver.toList, n.Reports x)
    {extend : Bool} : Accounts own x false (fieldPlace ty f receiver (some x) extend) Prod.snd :=
  quiet Policy.lookup fun _ => ite (give rfl) <| quietly (Policy.instanceReceiver h) fun _ hn =>
    andThen (spillReceiver hn) fun _ => give rfl

theorem spillArgs : ∀ {args : List Node}, (∀ a ∈ args, a.Reports x) →
    Accounts own x false (spillArgs (some x) args) Prod.snd
  | [], _ => give rfl
  | _ :: _, h =>
      andThen (value (h _ List.mem_cons_self)) fun _ => quiet Policy.spill fun _ =>
        andThen (spillArgs fun a ha => h a (List.mem_cons_of_mem _ ha)) fun _ => give rfl

theorem propertyPlace {p : PropertyRef} {receiver : Option Node} {args : List Node}
    (h : ∀ n ∈ receiver.toList, n.Reports x) (hargs : ∀ a ∈ args, a.Reports x) {extend : Bool} :
    Accounts own x false (propertyPlace ty p receiver args (some x) extend) Prod.snd := by
  refine quiet Policy.lookup fun _ => ite fail (ite ?_ ?_)
  · exact known (andThen (spillArgs hargs) fun _ => give rfl)
  · exact quietly (Policy.instanceReceiver h) fun _ hn => andThen (spillReceiver hn) fun _ =>
      known (andThen (spillArgs hargs) fun _ => give rfl)

/-- A node as a place. -/
theorem placeOf {k : ExprKind Node} (hk : ∀ n ∈ k.children, n.Reports x) {extend : Bool} :
    Accounts own x false (placeOf k ty (some x) extend) Prod.snd := by
  unfold Emit.placeOf
  split
  · exact quiet (naming _).varSlot fun _ => give rfl
  · exact quiet Policy.closureTable fun _ => give rfl
  · exact fieldPlace hk
  · exact propertyPlace hk fun _ h => absurd h List.not_mem_nil
  · next receiver args p =>
      obtain ⟨hreceiver, hargs⟩ := List.forall_mem_cons.mp hk
      exact propertyPlace (by simpa using hreceiver) hargs
  · next receiver args =>
      obtain ⟨hreceiver, hargs⟩ := List.forall_mem_cons.mp hk
      exact elementPlace hreceiver hargs
  · exact fail

/-! ## Reads -/

/-- A field. -/
theorem field {f : FieldRef} {receiver : Option Node} (h : ∀ n ∈ receiver.toList, n.Reports x)
    {shape : Shape} : Accounts own x false (field f receiver ty (some x) shape) Emitted.usedExit := by
  refine quiet Policy.lookup fun _ => quiet ((naming _).read fun _ _ _ => rfl) fun _ =>
    quiet Policy.checkMember fun _ => ite ?_ ?_
  · refine quiet (Policy.bare ?_) fun _ => give ?_
    · split <;> rfl
    · split <;> rfl
  · refine quietly (Policy.requireReceiver h) fun _ hn => andThen (Accounts.receiver hn) fun _ =>
      quiet (Policy.bare ?_) fun _ => give ?_
    · split <;> rfl
    · split <;> rfl

theorem property {p : PropertyRef} {receiver : Option Node} (h : ∀ n ∈ receiver.toList, n.Reports x) :
    Accounts own x false (property p receiver ty (some x)) Emitted.usedExit := by
  refine quiet Policy.lookup fun _ => ite fail (quiet ((naming _).read fun _ _ _ => rfl) fun _ =>
    quiet Policy.checkMember fun _ => quiet Policy.accessor fun _ => ite ?_ ?_)
  · exact known (quiet (Policy.bare rfl) fun _ => give rfl)
  · exact quietly (Policy.requireReceiver h) fun _ hn => andThen (Accounts.receiver hn) fun _ =>
      known (quiet (Policy.bare rfl) fun _ => give rfl)

theorem measure (hn : n.Reports x) {i : Instr} (hi : i.isSimple = true) :
    Accounts own x false (measure n i ty (some x)) Emitted.usedExit :=
  andThen (receiver hn) fun _ => quiet (Policy.bare hi) fun _ => give rfl

/-- A member. -/
theorem member {receiver : Option Node} (h : ∀ n ∈ receiver.toList, n.Reports x) {m : Member}
    {shape : Shape} :
    Accounts own x false (member receiver m ty (some x) shape) Emitted.usedExit := by
  cases m with
  | field f => exact field h
  | property p => exact property h
  | arrayLength =>
      refine quietly (Policy.requireReceiver h) fun n hn => ?_
      split
      · exact measure hn rfl
      · exact mismatch
  | listCount =>
      refine quietly (Policy.requireReceiver h) fun n hn => ?_
      split
      · exact measure hn rfl
      · exact mismatch
  | strLength =>
      refine quietly (Policy.requireReceiver h) fun n hn => ?_
      split
      · exact measure hn rfl
      · exact mismatch
  | hasValue =>
      exact quietly (Policy.requireReceiver h) fun n hn =>
        ite (andThen (value hn) fun _ => quiet (Policy.bare rfl) fun _ => give rfl) mismatch
  | value =>
      exact quietly (Policy.requireReceiver h) fun n hn =>
        ite (andThen (value hn) fun _ => andThen nullCheck fun _ => quiet (Policy.bare rfl) fun _ =>
          give rfl) mismatch

section

variable {place : Option Label → Bool → Emit (Place × Bool)}
  (hplace : ∀ own extend, Accounts own x false (place (some x) extend) Prod.snd)

include hplace

/-- An element. -/
theorem index (hn : n.Reports x) {args : List Node} (hargs : ∀ a ∈ args, a.Reports x)
    {indexer : Option PropertyRef} {shape : Shape} :
    Accounts own x false (index n args indexer ty (some x) shape place) Emitted.usedExit := by
  refine quiet ((naming _).read fun _ _ _ => rfl) fun o => ?_
  split
  · next arg harg =>
      exact andThen (receiver hn) fun _ =>
        andThen (indexOperand (hargs arg (Policy.mem_of_directIndex harg))) fun _ =>
        ite (quiet (Policy.bare rfl) fun _ => give rfl) (quiet (Policy.bare rfl) fun _ => give rfl)
  · refine withTemps (andThen (hplace _ _) fun _ => ?_)
    exact ite
      (quiet (Policy.loadPlaceAddr (fits _)) fun _ =>
        ite (give rfl) (quiet (Policy.loadPlace (fits _)) fun _ => give rfl))
      (known (ite (give rfl) (quiet (Policy.loadPlace (fits _)) fun _ => give rfl)))

theorem created : Accounts own x false (created ty (some x) place) Emitted.usedExit :=
  withTemps (andThen (hplace _ _) fun _ => quiet (Policy.createdPlace (fits _)) fun _ =>
    quiet (Policy.loadLocal trivial) fun _ => give rfl)

end

/-! ## Assignments -/

theorem assigned {slot : Nat} {keep : Bool} :
    Accounts own x used (assigned ty slot keep used) Emitted.usedExit :=
  ite (quiet (Policy.loadLocal trivial) fun _ => give rfl) (give rfl)

/-- An assignment. -/
theorem assign (hn : n.Reports x) {value : Option Node} (hvalue : ∀ v ∈ value.toList, v.Reports x)
    {op : AssignOp} {checked autoExtend : Bool} {shape : Shape} :
    Accounts own x false (assign op n value checked autoExtend (some x) shape)
      Emitted.usedExit := by
  refine quiet ((naming _).read fun _ _ _ => rfl) fun _ => ?_
  dsimp only
  split
  · unfold Emit.step
    split
    · exact mismatch
    · exact withTemps (andThen (hn.place _ _) fun _ => quiet (Policy.loadPlace (fits _)) fun _ =>
        quiet Policy.spillOperand fun _ => quiet (Policy.stepped trivial) fun _ =>
        quiet Policy.spill fun _ => quiet (Policy.storePlace (fits _) trivial) fun _ => assigned)
  · next value _ =>
      have hvalue : value.Reports x := hvalue value List.mem_cons_self
      split
      · exact withTemps (andThen (hn.place _ _) fun _ => andThen (Accounts.value hvalue) fun _ =>
          quiet Policy.coerce fun _ => quiet Policy.spill fun _ =>
          quiet (Policy.storePlace (fits _) trivial) fun _ => assigned)
      · exact quiet Policy.checkBinary fun _ => withTemps (andThen (hn.place _ _) fun _ =>
          quiet (Policy.loadPlace (fits _)) fun _ => quiet Policy.spillOperand fun _ =>
          andThen (Accounts.value hvalue) fun _ => quiet Policy.spillOperand fun _ =>
          quiet (Policy.binarySlots trivial trivial) fun _ => quiet Policy.spill fun _ =>
          quiet (Policy.storePlace (fits _) trivial) fun _ => assigned)
  · exact fail

/-! ## Calls and construction -/

theorem argument (hn : n.Reports x) {what : String} {param : Ty × Bool} :
    Accounts own x false (argument what n param (some x)) id :=
  ite (ite (quiet (hn.keeps.emit own none _ _) fun _ => give rfl)
      (quiet Policy.tyText fun _ => mismatch))
    (andThen (value hn) fun _ => quiet Policy.coerce fun _ => give rfl)

theorem eachArgument {what : String} : ∀ {args : List (Node × Ty × Bool)},
    (∀ a ∈ args, a.1.Reports x) → Accounts own x false (eachArgument what (some x) args) id
  | [], _ => give rfl
  | _ :: _, h =>
      andThen (argument (h _ List.mem_cons_self)) fun _ =>
        andThen (eachArgument fun a ha => h a (List.mem_cons_of_mem _ ha)) fun _ => give rfl

theorem arguments {what : String} {params : List (Ty × Bool)} {args : List Node}
    (h : ∀ a ∈ args, a.Reports x) : Accounts own x false (arguments what params args (some x)) id :=
  ite fail (eachArgument fun a ha => h a.1 (List.of_mem_zip ha).1)

theorem callResult {ret : Ty} : Accounts own x used (callResult ret ty used) Emitted.usedExit :=
  ite (give rfl) (ite (quiet (Policy.bare rfl) fun _ => give rfl) (give rfl))

/-- A call of a method. -/
theorem call {receiver : Option Node} (hreceiver : ∀ n ∈ receiver.toList, n.Reports x)
    {args : List Node} (hargs : ∀ a ∈ args, a.Reports x) {method : MethodRef} :
    Accounts own x false (call method receiver args ty (some x)) Emitted.usedExit := by
  have hkind : ∀ sig, (naming (· ≠ x)).Ok own none (methodKind method sig) := by
    intro sig
    cases method with
    | method ty i => exact Policy.seq Policy.lookup fun _ => Policy.done
    | intrinsic op => exact Policy.done
  refine quiet Policy.lookup fun _ => quiet (hkind _) fun _ =>
    quiet ((naming _).read fun _ _ _ => rfl) fun _ => ?_
  dsimp only
  split
  · next receiver =>
      exact andThen (Accounts.receiver (hreceiver receiver List.mem_cons_self)) fun _ =>
        andThen (arguments hargs) fun _ => quiet (Policy.bare rfl) fun _ => callResult
  · exact fail
  · next receiver =>
      have hall : ∀ a ∈ receiver :: args, a.Reports x :=
        List.forall_mem_cons.mpr ⟨hreceiver receiver List.mem_cons_self, hargs⟩
      exact andThen (arguments hall) fun _ => quiet (Policy.bare rfl) fun _ => callResult
  · exact fail
  · exact fail
  · exact andThen (arguments hargs) fun _ => quiet (Policy.bare rfl) fun _ => callResult

theorem invoke (hn : n.Reports x) {args : List Node} (hargs : ∀ a ∈ args, a.Reports x) :
    Accounts own x false (invoke n args ty (some x)) Emitted.usedExit := by
  unfold Emit.invoke
  split
  · exact andThen (receiver hn) fun _ => andThen (arguments hargs) fun _ =>
      quiet (Policy.bare rfl) fun _ => callResult
  · exact mismatch

theorem construct {ctor : Option MethodRef} {args : List Node} (h : ∀ a ∈ args, a.Reports x) :
    Accounts own x false (construct ctor args ty (some x)) Emitted.usedExit := by
  cases ctor with
  | some method =>
      exact quiet Policy.lookup fun _ => quiet ((naming _).read fun _ _ _ => rfl) fun _ =>
        andThen (arguments h) fun _ => quiet (Policy.bare rfl) fun _ => give rfl
  | none =>
      exact ite (quiet Policy.newPlain fun _ => give rfl) (quiet Policy.tyText fun _ => fail)

theorem arrayItems {elem : Ty} : ∀ {i : Nat} {items : List Node}, (∀ n ∈ items, n.Reports x) →
    Accounts own x false (arrayItems elem (some x) i items) id
  | _, [], _ => give rfl
  | _, _ :: _, h =>
      quiet (Policy.bare rfl) fun _ => quiet Policy.int fun _ =>
        andThen (value (h _ List.mem_cons_self)) fun _ => quiet Policy.coerce fun _ =>
        quiet (Policy.bare rfl) fun _ =>
        andThen (arrayItems fun n hn => h n (List.mem_cons_of_mem _ hn)) fun _ => give rfl

theorem arrayBounds : ∀ {bounds : List Node}, (∀ n ∈ bounds, n.Reports x) →
    Accounts own x false (arrayBounds (some x) bounds) id
  | [], _ => give rfl
  | _ :: _, h =>
      andThen (indexOperand (h _ List.mem_cons_self)) fun _ =>
        andThen (arrayBounds fun n hn => h n (List.mem_cons_of_mem _ hn)) fun _ => give rfl

theorem newArray {elem : Ty} {init : ArrayInit Node}
    (h : ∀ n ∈ (ExprKind.newArray elem init).children, n.Reports x) :
    Accounts own x false (newArray elem init ty (some x)) Emitted.usedExit := by
  unfold Emit.newArray
  split
  · exact quiet Policy.int fun _ => quiet (Policy.bare rfl) fun _ =>
      andThen (arrayItems h) fun _ => give rfl
  · exact fail
  · refine andThen (arrayBounds h) fun _ => quiet (Policy.bare ?_) fun _ => give rfl
    split <;> rfl

theorem elementInit {item : ElementInit Node} (h : ∀ a ∈ item.args, a.Reports x) :
    Accounts own x false (elementInit item (some x)) id :=
  quiet Policy.lookup fun _ => quiet ((naming _).read fun _ _ _ => rfl) fun _ =>
    quiet (Policy.bare rfl) fun _ => andThen (arguments h) fun _ => quiet (Policy.bare rfl) fun _ =>
    ite (quiet (Policy.bare rfl) fun _ => give rfl) (give rfl)

theorem elementInits : ∀ {items : List (ElementInit Node)},
    (∀ a ∈ items.flatMap (·.args), a.Reports x) → Accounts own x false (elementInits (some x) items) id
  | [], _ => give rfl
  | _ :: _, h => by
      rw [List.flatMap_cons, List.forall_mem_append] at h
      exact andThen (elementInit h.1) fun _ => andThen (elementInits h.2) fun _ => give rfl

theorem listInit (hn : n.Reports x) {items : List (ElementInit Node)}
    (h : ∀ a ∈ items.flatMap (·.args), a.Reports x) :
    Accounts own x false (listInit n items (some x)) Emitted.usedExit :=
  andThen (value hn) fun _ => andThen (elementInits h) fun _ => give rfl

mutual

/-- A binding. -/
theorem binding : (b : Binding Node) → (∀ n ∈ b.children, n.Reports x) →
    Accounts own x false (binding (some x) b) id
  | .assign _ _, h =>
      andThen (value (h _ List.mem_cons_self)) fun _ => quiet Policy.storeMember fun _ => give rfl
  | .member _ bindings, h =>
      quiet Policy.loadMember fun _ => andThen (eachBinding (Policy.bare rfl) bindings h) fun _ =>
        quiet (Policy.bare rfl) fun _ => give rfl
  | .list _ _, h =>
      quiet Policy.loadMember fun _ => andThen (elementInits h) fun _ =>
        quiet (Policy.bare rfl) fun _ => give rfl
  termination_by structural b => b

theorem eachBinding {load : Emit Unit} (hload : (naming (· ≠ x)).Ok own none load) :
    (bs : List (Binding Node)) → (∀ n ∈ Binding.childrenList bs, n.Reports x) →
      Accounts own x false (eachBinding (some x) load bs) id
  | [], _ => give rfl
  | b :: bs, h =>
      have h := List.forall_mem_append.mp h
      quiet hload fun _ => andThen (binding b h.1) fun _ =>
        andThen (eachBinding hload bs h.2) fun _ => give rfl
  termination_by structural bs => bs

end

theorem memberInit (hn : n.Reports x) {bindings : List (Binding Node)}
    (h : ∀ m ∈ Binding.childrenList bindings, m.Reports x) :
    Accounts own x false (memberInit n bindings (some x)) Emitted.usedExit :=
  ite (withTemps (andThen (value hn) fun _ => quiet Policy.spill fun _ =>
      andThen (eachBinding (Policy.loadLocalAddr trivial) bindings h) fun _ =>
      quiet (Policy.loadLocal trivial) fun _ => give rfl))
    (andThen (value hn) fun _ => andThen (eachBinding (Policy.bare rfl) bindings h) fun _ => give rfl)

/-! ## Conversions -/

theorem boxedOperand (hn : n.Reports x) : Accounts own x false (boxedOperand n (some x)) id :=
  andThen (value hn) fun _ => ite (quiet (Policy.bare rfl) fun _ => give rfl) (give rfl)

theorem typeTest (hn : n.Reports x) {target : Ty} {exact : Bool} :
    Accounts own x false (typeTest n target exact (some x)) Emitted.usedExit :=
  andThen (boxedOperand hn) fun _ => quiet (Policy.bares rfl) fun _ => give rfl

theorem typeAs (hn : n.Reports x) : Accounts own x false (typeAs n ty (some x)) Emitted.usedExit :=
  ite mismatch <| andThen (boxedOperand hn) fun _ => quiet (Policy.bare rfl) fun _ =>
    ite (quiet (Policy.bare rfl) fun _ => give rfl) (give rfl)

/-- A numeric conversion. -/
theorem numericConversion (hn : n.Reports x) {source target : NumKind} {checked : Bool} :
    Accounts own x false (numericConversion n source target checked ty (some x))
      Emitted.usedExit := by
  have hconversion : (naming (· ≠ x)).Ok own none
      (Emit.instrs (if source = target then [] else [.conv target checked])) := by
    split
    · exact Policy.nil
    · exact Policy.bares rfl
  refine ite (withTemps ?_) ?_
  · exact andThen (value hn) fun _ => quiet Policy.spillOperand fun _ =>
      quiet (Policy.lifted (fun _ _ => trivial) (Policy.bare rfl)
        (Policy.seq (Policy.loadInner trivial) fun _ => hconversion)) fun _ => give rfl
  · exact andThen (value hn) fun _ => quiet Policy.unwrapIf fun _ => quiet hconversion fun _ =>
      quiet Policy.wrapIf fun _ => give rfl

/-- A conversion that a method implements. -/
theorem userConversion (hn : n.Reports x) {method : MethodRef} :
    Accounts own x false (userConversion n method ty (some x)) Emitted.usedExit := by
  refine quiet Policy.lookup fun _ => quiet ((naming _).read fun _ _ _ => rfl) fun _ => ?_
  dsimp only
  split
  · refine ite ?_ (ite (quiet Policy.tyText fun _ => mismatch) (withTemps ?_))
    · exact andThen (value hn) fun _ => quiet Policy.coerce fun _ => quiet (Policy.bare rfl) fun _ =>
        quiet Policy.plainConversion fun _ => give rfl
    · exact andThen (value hn) fun _ => quiet Policy.spillOperand fun _ =>
        quiet (Policy.lifted (fun _ _ => trivial) Policy.pushDefault
          (Policy.seq (Policy.loadInner trivial) fun _ => Policy.bare rfl)) fun _ => give rfl
  · exact fail

/-- A conversion. -/
theorem convert (hn : n.Reports x) {checked : Bool} {method : Option MethodRef} :
    Accounts own x false (convert n checked method ty (some x)) Emitted.usedExit := by
  cases method with
  | some m => exact userConversion hn
  | none =>
      unfold Emit.convert
      dsimp only
      split
      · exact numericConversion hn
      · exact andThen (value hn) fun _ => quiet Policy.plainConversion fun _ => give rfl

/-! ## Control flow -/

theorem conditional {test ifTrue ifFalse : Node} (htest : test.Reports x) (htrue : ifTrue.Reports x)
    (hfalse : ifFalse.Reports x) {shape : Shape} :
    Accounts own x false (conditional test ifTrue ifFalse ty (some x) shape)
      Emitted.usedExit := by
  refine ite mismatch (quiet Policy.checkBranches fun _ => label fun _ => label fun _ =>
    quiet htest.keeps.guarded fun _ => quiet (Policy.ite (Policy.bare rfl) Policy.done) fun _ =>
    quiet (Policy.test ⟨rfl, rfl, rfl, rfl⟩ rfl (by simp)) fun _ => andThen (branch htrue) fun _ =>
    quiet (Policy.jump (by simp)) fun _ => quiet ((naming _).mark (by simp)) fun _ =>
    andThen (branch hfalse) fun _ => quiet ((naming _).mark (by simp)) fun _ => give ?_)
  split <;> rfl

/-- Statements; all but the last one land on their own. -/
theorem statements {shape : Shape} : ∀ {nodes : List Node}, (∀ n ∈ nodes, n.Reports x) →
    Accounts own x false (statements ty (some x) shape nodes) Emitted.usedExit
  | [], _ => quiet Policy.pushDefault fun _ => give rfl
  | [_], h =>
      have hn := h _ List.mem_cons_self
      ite (andThen (effect hn) fun _ => give rfl) <| quiet Policy.checkBranch fun _ =>
        ite (hn.emit _ _ _) (andThen (branch hn) fun _ => give rfl)
  | _ :: _ :: _, h =>
      quiet (Policy.statement (h _ List.mem_cons_self).keeps) fun _ =>
        statements fun n hn => h n (List.mem_cons_of_mem _ hn)

theorem block {vars : List Variable} {nodes : List Node} (h : ∀ n ∈ nodes, n.Reports x)
    {shape : Shape} : Accounts own x false (block vars nodes ty (some x) shape) Emitted.usedExit :=
  withTemps (quiet Policy.bindLocals fun _ => inScope (statements h))

theorem caseBodies {target : Label} (htarget : target ∈ own) :
    ∀ {cases : List (SwitchCase Node × Label)}, (∀ c ∈ cases, c.1.body.Reports x ∧ c.2 ∈ own) →
      Accounts own x false (caseBodies ty (some x) target cases) id
  | [], _ => give rfl
  | _ :: _, h =>
      quiet ((naming _).mark (h _ List.mem_cons_self).2) fun _ =>
        andThen (branch (h _ List.mem_cons_self).1) fun _ => quiet (Policy.jump htarget) fun _ =>
        andThen (caseBodies htarget fun c hc => h c (List.mem_cons_of_mem _ hc)) fun _ => give rfl

theorem defaultBody {fallback : Option Node} (h : ∀ b ∈ fallback.toList, b.Reports x) :
    Accounts own x false (defaultBody fallback ty (some x)) id := by
  cases fallback with
  | some body => exact branch (h body List.mem_cons_self)
  | none => exact quiet Policy.pushDefault fun _ => give rfl

/-- A switch. -/
theorem switch (hn : n.Reports x) {cases : List (SwitchCase Node)} {fallback : Option Node}
    (htests : ∀ c ∈ cases, ∀ t ∈ c.tests, t.Reports x) (hbodies : ∀ c ∈ cases, c.body.Reports x)
    (hfallback : ∀ b ∈ fallback.toList, b.Reports x) {comparison : Option MethodRef} :
    Accounts own x false (switch n cases fallback comparison ty (some x)) Emitted.usedExit := by
  refine quiet Policy.checkSwitch fun _ => withTemps (andThen (value hn) fun _ =>
    quiet Policy.spillOperand fun subject => quietly Policy.newLabels fun labels _ =>
    label fun default => label fun done' => ?_)
  have hlabels : ∀ l ∈ labels, l ∈ done' :: default :: (labels ++ own) := fun l hl => by simp [hl]
  exact quiet (Policy.dispatch (fun c hc t ht => (htests c hc t ht).keeps) trivial hlabels (by simp))
    fun _ =>
    andThen (caseBodies (by simp) fun c hc =>
      ⟨hbodies c.1 (List.of_mem_zip hc).1, hlabels c.2 (List.of_mem_zip hc).2⟩) fun _ =>
    quiet ((naming _).mark (by simp)) fun _ => andThen (defaultBody hfallback) fun _ =>
    quiet ((naming _).mark (by simp)) fun _ => give rfl

/-! ## Trees -/

/-- A layer that hands the exit to operands reports it if they do. -/
theorem layer {k : ExprKind Node} (hexit : k.isExitless = false) (hk : ∀ n ∈ k.children, n.Reports x)
    {place : Option Label → Bool → Emit (Place × Bool)}
    (hplace : ∀ own extend, Accounts own x false (place (some x) extend) Prod.snd) {shape : Shape} :
    Accounts own x false (layer k ty place (some x) shape) Emitted.usedExit := by
  cases k with
  | member receiver m => exact member hk
  | index receiver args indexer =>
      obtain ⟨hreceiver, hargs⟩ := List.forall_mem_cons.mp hk
      exact index hplace hreceiver hargs
  | unary op operand checked method => exact unary (hk operand List.mem_cons_self)
  | binary op left right checked method =>
      obtain ⟨hleft, hright⟩ := List.forall_mem_cons.mp hk
      exact binary hleft (hright right List.mem_cons_self)
  | logical op left right =>
      obtain ⟨hleft, hright⟩ := List.forall_mem_cons.mp hk
      exact logical hleft (hright right List.mem_cons_self)
  | coalesce left right =>
      obtain ⟨hleft, hright⟩ := List.forall_mem_cons.mp hk
      exact coalesce hleft (hright right List.mem_cons_self)
  | conditional test ifTrue ifFalse =>
      obtain ⟨htest, hbranches⟩ := List.forall_mem_cons.mp hk
      obtain ⟨htrue, hfalse⟩ := List.forall_mem_cons.mp hbranches
      exact conditional htest htrue (hfalse ifFalse List.mem_cons_self)
  | block vars body => exact block hk
  | switch value cases fallback comparison =>
      obtain ⟨hrest, hfallback⟩ := List.forall_mem_append.mp hk
      obtain ⟨hvalue, hcases⟩ := List.forall_mem_cons.mp hrest
      have hcase : ∀ c ∈ cases, ∀ n ∈ c.tests ++ [c.body], n.Reports x :=
        fun c hc n hn => hcases n (List.mem_flatMap.mpr ⟨c, hc, hn⟩)
      exact switch hvalue (fun c hc => (List.forall_mem_append.mp (hcase c hc)).1)
        (fun c hc => hcase c hc c.body (by simp)) hfallback
  | call method receiver args =>
      obtain ⟨hreceiver, hargs⟩ := List.forall_mem_append.mp hk
      exact call hreceiver hargs
  | invoke func args =>
      obtain ⟨hfunc, hargs⟩ := List.forall_mem_cons.mp hk
      exact invoke hfunc hargs
  | new ctor args => exact construct hk
  | newArray elem init => exact newArray hk
  | listInit start items =>
      obtain ⟨hstart, hitems⟩ := List.forall_mem_cons.mp hk
      exact listInit hstart hitems
  | memberInit start bindings =>
      obtain ⟨hstart, hbindings⟩ := List.forall_mem_cons.mp hk
      exact memberInit hstart hbindings
  | assign op target value checked autoExtend =>
      obtain ⟨htarget, hvalue⟩ := List.forall_mem_cons.mp hk
      exact assign htarget hvalue
  | typeTest operand target exact => exact typeTest (hk operand List.mem_cons_self)
  | convert operand checked method => exact convert (hk operand List.mem_cons_self)
  | typeAs operand => exact typeAs (hk operand List.mem_cons_self)
  | _ => cases hexit

end Accounts

theorem ofKind_emit_eq {k : ExprKind Node} (hexit : k.isExitless = true) (ty : Ty)
    (exit : Option Label) (shape : Shape) (extend : Bool) :
    (Node.ofKind k ty).emit exit shape extend = (Node.ofKind k ty).emit none shape extend := by
  cases k <;> first | rfl | cases hexit

/-- **Every tree reports its exit.** -/
theorem reports_tree (e : Expr) (x : Label) : e.toNode.Reports x := by
  induction e using Expr.induct with
  | node k ty ih =>
      have hkeeps := names_tree (.node k ty) (· ≠ x)
      have hk : ∀ n ∈ (k.map Expr.toNode).children, n.Reports x := by
        rw [ExprKind.children_map]
        exact List.forall_mem_map.mpr fun e he => ih e (ExprKind.mem_operands he)
      rw [Expr.toNode_node] at hkeeps ⊢
      have hplace : ∀ own extend,
          Accounts own x false (placeOf (k.map Expr.toNode) ty (some x) extend) Prod.snd :=
        fun _ _ => Accounts.placeOf hk
      refine ⟨hkeeps, fun own shape extend => ?_, hplace⟩
      cases hexit : (k.map Expr.toNode).isExitless with
      | true =>
          rw [ofKind_emit_eq hexit]
          exact .silent (hkeeps.emit own none shape extend)
      | false =>
          exact .ite (.andThen (.created hplace) fun _ => .adapt rfl)
            (.andThen (.layer hexit hk hplace) fun _ => .adapt rfl)

end Emit

end Arbor
