/-
  Relations between emitters.

  Two emitters are compared by what they come to in a state, and the comparison
  is a congruence if composition and the sections that emitters are made of keep
  it.  Then emitters of layers are related as soon as their operands are, since
  everything else is the same on both sides.

  Emitters agree, for one, if they come to the same outcome wherever some labels
  of the tree are known and some protected regions are around the point of
  emission.  What is emitted in between stays in that situation.

  This module has the layers without control flow.
-/
import Arbor.Emit.Unit

set_option autoImplicit false

namespace Arbor

/-- What is known of labels of the tree. -/
abbrev LabelTable := List (LabelId × LabelInfo)

/-- The labels of the table are known, and `depth` protected regions are around the point of
emission. -/
structure Emission.Situated (table : LabelTable) (depth : Nat) (s : Emission) : Prop where
  depth : s.tryDepth = depth
  known : ∀ id info, table.lookup id = some info → s.labels.lookup id = some info

theorem Emission.Situated.of_grows {table : LabelTable} {depth : Nat} {s t : Emission}
    (h : s.Situated table depth) (hgrows : s.Grows t) : t.Situated table depth where
  depth := hgrows.tryDepth.trans h.depth
  known id info hinfo := hgrows.targets id info (h.known id info hinfo)

namespace Emit

/-- A comparison of emitters with `depth` protected regions around them that composition and sections
keep. -/
structure Congruence where
  Rel : {α : Type} → (depth : Nat) → (x y : Emit α) → Prop
  same : ∀ {α : Type} {depth : Nat} (x : Emit α), Rel depth x x
  seq : ∀ {α β : Type} {depth : Nat} {x y : Emit α} {f g : α → Emit β}, Rel depth x y →
    (∀ a, Rel depth (f a) (g a)) → Rel depth (x >>= f) (y >>= g)
  temps : ∀ {α : Type} {depth : Nat} {x y : Emit α}, Rel depth x y →
    Rel depth (withTemps x) (withTemps y)
  within : ∀ {α : Type} {depth : Nat} {vars : Scope} {x y : Emit α}, Rel depth x y →
    Rel depth (inScope vars x) (inScope vars y)
  filled : ∀ {α : Type} {depth : Nat} {fill : α → Option Instr} {x y : Emit α}, Rel depth x y →
    Rel depth (reserved x fill) (reserved y fill)
  around : ∀ {depth : Nat} {x y : Emit Unit}, Rel (depth + 1) x y → Rel depth (inRegion x) (inRegion y)

/-- The emitters come to the same outcome wherever the labels of the table are known and `depth`
protected regions are around the point of emission. -/
def Agree {α : Type} (table : LabelTable) (depth : Nat) (x y : Emit α) : Prop :=
  ∀ setting s, s.Situated table depth → x.run setting s = y.run setting s

/-- Agreement wherever the labels of the table are known. -/
def agreement (table : LabelTable) : Congruence where
  Rel := Agree table
  same _ _ _ _ := rfl
  seq {_ _ _ x y f g} hx hf setting s hs := by
    change (Emit.andThen x f).run setting s = (Emit.andThen y g).run setting s
    simp only [Emit.andThen, hx setting s hs]
    split
    · next hrun => exact hf _ setting _ (hs.of_grows (y.grows hrun))
    · rfl
  temps hx setting s hs := by simp only [Emit.withTemps, hx setting s hs]
  within {_ _ vars _ _} hx setting s hs := by
    have hsame := hx setting { s with scope := vars.reverse ++ s.scope } ⟨hs.depth, hs.known⟩
    simp only [Emit.inScope, hsame]
  filled hx setting s hs := by
    simp only [Emit.reserved, hx setting _ (hs.of_grows (.emit s .nop))]
  around hx setting s hs := by
    have hsame := hx setting { s with tryDepth := s.tryDepth + 1 }
      ⟨congrArg (· + 1) hs.depth, hs.known⟩
    simp only [Emit.inRegion, hsame]

namespace Congruence.Rel

variable {C : Congruence} {α β : Type} {depth : Nat} {x y : Emit α} {f g : α → Emit β}

/-! ## Composition -/

theorem refl : C.Rel depth x x := C.same x

theorem bind (hx : C.Rel depth x y) (hf : ∀ a, C.Rel depth (f a) (g a)) :
    C.Rel depth (x >>= f) (y >>= g) :=
  C.seq hx hf

theorem first {f : α → Emit β} (hx : C.Rel depth x y) : C.Rel depth (x >>= f) (y >>= f) :=
  bind hx fun _ => refl

theorem behind (hf : ∀ a, C.Rel depth (f a) (g a)) : C.Rel depth (x >>= f) (x >>= g) :=
  bind refl hf

theorem ite {c : Prop} [Decidable c] {x' y' : Emit α} (hx : C.Rel depth x y)
    (hx' : C.Rel depth x' y') : C.Rel depth (if c then x else x') (if c then y else y') := by
  split
  · exact hx
  · exact hx'

/-- Emitters for what becomes of the items of a list. -/
theorem forM {γ δ ε : Type} {items : List γ} {p : γ → δ} {q : γ → ε} {f : δ → Emit PUnit}
    {g : ε → Emit PUnit} (h : ∀ a ∈ items, C.Rel depth (f (p a)) (g (q a))) :
    C.Rel depth ((items.map p).forM f) ((items.map q).forM g) := by
  induction items with
  | nil => exact refl
  | cons a items ih =>
      obtain ⟨ha, hitems⟩ := List.forall_mem_cons.mp h
      exact bind ha fun _ => ih hitems

/-! ## Sections -/

theorem withTemps (hx : C.Rel depth x y) : C.Rel depth (Emit.withTemps x) (Emit.withTemps y) :=
  C.temps hx

theorem inScope {vars : Scope} (hx : C.Rel depth x y) :
    C.Rel depth (Emit.inScope vars x) (Emit.inScope vars y) :=
  C.within hx

theorem withLocals {vars : List Variable} (hx : C.Rel depth x y) :
    C.Rel depth (Emit.withLocals vars x) (Emit.withLocals vars y) :=
  behind fun _ => inScope hx

theorem inRegion {x y : Emit Unit} (hx : C.Rel (depth + 1) x y) :
    C.Rel depth (Emit.inRegion x) (Emit.inRegion y) :=
  C.around hx

theorem withLanding {ty : Ty} {body body' : Option Label → Emit Emitted}
    (h : ∀ exit, C.Rel depth (body exit) (body' exit)) :
    C.Rel depth (Emit.withLanding ty body) (Emit.withLanding ty body') :=
  behind fun _ => ite (behind fun _ => first (C.filled (behind fun _ => first (h _)))) (h none)

end Congruence.Rel

end Emit

/-! ## Nodes -/

/-- Nodes of one tree whose emitters are related. -/
structure Node.Related (C : Emit.Congruence) (depth : Nat) (m n : Node) : Prop where
  expr : m.expr = n.expr
  emit : ∀ exit shape extend, C.Rel depth (m.emit exit shape extend) (n.emit exit shape extend)
  place : ∀ exit extend, C.Rel depth (m.place exit extend) (n.place exit extend)

namespace Node.Related

open Emit.Congruence.Rel

variable {C : Emit.Congruence} {depth : Nat} {m n : Node} {exit : Option Label} {ty : Ty}

theorem ty_eq (h : m.Related C depth n) : m.ty = n.ty := by rw [Node.ty, h.expr, Node.ty]

theorem value (h : m.Related C depth n) : C.Rel depth (m.value exit) (n.value exit) :=
  first (h.emit _ _ _)

theorem effect (h : m.Related C depth n) :
    C.Rel depth (m.effect exit) (n.effect exit) :=
  first (h.emit _ _ _)

theorem guarded (h : m.Related C depth n) {shape : Shape} :
    C.Rel depth (m.guarded shape) (n.guarded shape) := by
  unfold Node.guarded
  rw [h.ty_eq]
  exact withLanding fun _ => h.emit _ _ _

theorem receiver (h : m.Related C depth n) {shape : Shape} {extend : Bool} :
    C.Rel depth (m.receiver exit shape extend) (n.receiver exit shape extend) := by
  unfold Node.receiver Node.canCreate
  rw [h.ty_eq, h.expr]
  exact behind fun _ => first (h.emit _ _ _)

theorem checkBranch (h : m.Related C depth n) : m.checkBranch ty = n.checkBranch ty := by
  unfold Node.checkBranch
  rw [h.ty_eq]

theorem branch (h : m.Related C depth n) {discard : Bool} :
    C.Rel depth (m.branch ty exit discard) (n.branch ty exit discard) := by
  unfold Node.branch
  rw [h.ty_eq]
  exact ite h.effect (first h.value)

end Node.Related

namespace Emit.Congruence.Rel

variable {α : Type} {C : Emit.Congruence} {depth : Nat} {l l' r r' m n : Node} {ty : Ty}
  {exit : Option Label} {f g : α → Node}

/-! ## Operators -/

theorem unary (h : m.Related C depth n) {op : UnaryOp} {checked : Bool}
    {method : Option MethodRef} :
    C.Rel depth (Emit.unary op m checked method ty exit)
      (Emit.unary op n checked method ty exit) := by
  unfold Emit.unary
  rw [h.ty_eq]
  exact ite refl <| ite (first h.value) <| ite (first h.value) <| ite refl (withTemps (first h.value))

theorem binary (hl : l.Related C depth l') (hr : r.Related C depth r') {op : BinaryOp}
    {checked : Bool} {method : Option MethodRef} :
    C.Rel depth (Emit.binary op l r checked method ty exit)
      (Emit.binary op l' r' checked method ty exit) := by
  unfold Emit.binary
  rw [hl.ty_eq, hr.ty_eq]
  refine ite (behind fun _ => ?_) ?_
  all_goals
    refine ite (bind hl.value fun _ => first hr.value) (withTemps ?_)
    exact bind hl.value fun _ => behind fun _ => first hr.value

/-- A short-circuit operator on operands of which one may be absent. -/
theorem liftedLogical (hl : l.Related C depth l') (hr : r.Related C depth r') {op : LogicalOp} :
    C.Rel depth (Emit.liftedLogical op l r ty exit) (Emit.liftedLogical op l' r' ty exit) := by
  unfold Emit.liftedLogical
  rw [hl.ty_eq, hr.ty_eq]
  exact withTemps <| behind fun _ => behind fun _ => behind fun _ => bind hl.value fun _ =>
    behind fun _ => behind fun _ => behind fun _ => behind fun _ => behind fun _ => first hr.value

theorem logical (hl : l.Related C depth l') (hr : r.Related C depth r') {op : LogicalOp} :
    C.Rel depth (Emit.logical op l r ty exit) (Emit.logical op l' r' ty exit) := by
  unfold Emit.logical
  rw [hl.ty_eq, hr.ty_eq, hl.expr, hr.expr]
  refine ite refl <| ite refl <| ite refl ?_
  split
  · exact refl
  · exact ite (liftedLogical hl hr)
      (behind fun _ => bind hl.value fun _ => behind fun _ => first hr.value)

theorem coalesce (hl : l.Related C depth l') (hr : r.Related C depth r') :
    C.Rel depth (Emit.coalesce l r ty exit) (Emit.coalesce l' r' ty exit) := by
  unfold Emit.coalesce Emit.coalesceOptional Emit.coalesceReference
  rw [hl.ty_eq, hr.ty_eq]
  refine behind fun _ => ite refl <| ite refl <| ite (withTemps ?_) ?_
  · exact behind fun _ => behind fun _ => bind hl.guarded fun _ => behind fun _ => behind fun _ =>
      behind fun _ => behind fun _ => behind fun _ => behind fun _ => first hr.value
  · exact behind fun _ => bind hl.guarded fun _ => behind fun _ => first hr.value

/-! ## Places -/

theorem indexOperand (h : m.Related C depth n) :
    C.Rel depth (Emit.indexOperand m exit) (Emit.indexOperand n exit) := by
  unfold Emit.indexOperand
  rw [h.ty_eq]
  exact first h.value

theorem spillIndices {args : List α} (h : ∀ a ∈ args, (f a).Related C depth (g a)) :
    C.Rel depth (Emit.spillIndices exit (args.map f)) (Emit.spillIndices exit (args.map g)) := by
  induction args with
  | nil => exact refl
  | cons a args ih =>
      obtain ⟨ha, hargs⟩ := List.forall_mem_cons.mp h
      exact bind (indexOperand ha) fun _ => behind fun _ => first (ih hargs)

/-- An element of a container that is itself a place. -/
theorem grownElement (hl : l.Related C depth l') (hr : r.Related C depth r')
    {kind : PlaceKind} :
    C.Rel depth (Emit.grownElement kind l r exit) (Emit.grownElement kind l' r' exit) := by
  unfold Emit.grownElement
  rw [hl.ty_eq]
  exact bind (hl.place _ _) fun _ => bind (indexOperand hr) fun _ => refl

/-- An element of an array or list. -/
theorem elementPlace (hn : m.Related C depth n) {args : List α}
    (h : ∀ a ∈ args, (f a).Related C depth (g a)) {extend : Bool} :
    C.Rel depth (Emit.elementPlace ty m (args.map f) exit extend)
      (Emit.elementPlace ty n (args.map g) exit extend) := by
  unfold Emit.elementPlace
  rw [hn.ty_eq, hn.expr]
  split
  · exact refl
  next kind rank _ =>
  simp only [List.length_map]
  refine ite refl (first ?_)
  have hplain : C.Rel depth (do
      let emitted ← m.receiver exit .value false
      let container ← Emit.spill n.ty
      let indices ← Emit.spillIndices exit (args.map f)
      pure (container, indices.1, emitted.usedExit || indices.2)) (do
      let emitted ← n.receiver exit .value false
      let container ← Emit.spill n.ty
      let indices ← Emit.spillIndices exit (args.map g)
      pure (container, indices.1, emitted.usedExit || indices.2)) :=
    bind hn.receiver fun _ => behind fun _ => first (spillIndices h)
  cases args with
  | nil => cases kind <;> exact hplain
  | cons a rest =>
      cases rest with
      | nil =>
          cases kind with
          | mdElem elem rank => exact hplain
          | _ => exact ite (first (grownElement hn (h a List.mem_cons_self))) hplain
      | cons b rest => cases kind <;> exact hplain

theorem spillReceiver (h : m.Related C depth n) {extend : Bool} :
    C.Rel depth (Emit.spillReceiver m exit extend) (Emit.spillReceiver n exit extend) := by
  unfold Emit.spillReceiver
  rw [h.ty_eq]
  exact first h.receiver

/-- The receiver of an instance member, and what is emitted with it. -/
theorem instanceReceiver {β : Type} {receiver : Option α} {what : String} {F : Node → Emit β}
    {G : Node → Emit β} (h : ∀ a ∈ receiver.toList, C.Rel depth (F (f a)) (G (g a))) :
    C.Rel depth (Emit.instanceReceiver (receiver.map f) what >>= F)
      (Emit.instanceReceiver (receiver.map g) what >>= G) := by
  cases receiver with
  | some a => exact h a List.mem_cons_self
  | none => exact refl

theorem fieldPlace {receiver : Option α} (h : ∀ a ∈ receiver.toList, (f a).Related C depth (g a))
    {field : FieldRef} {extend : Bool} :
    C.Rel depth (Emit.fieldPlace ty field (receiver.map f) exit extend)
      (Emit.fieldPlace ty field (receiver.map g) exit extend) :=
  behind fun _ => ite refl (instanceReceiver fun a ha => first (spillReceiver (h a ha)))

theorem spillArgs {args : List α} (h : ∀ a ∈ args, (f a).Related C depth (g a)) :
    C.Rel depth (Emit.spillArgs exit (args.map f)) (Emit.spillArgs exit (args.map g)) := by
  induction args with
  | nil => exact refl
  | cons a args ih =>
      obtain ⟨ha, hargs⟩ := List.forall_mem_cons.mp h
      simp only [List.map_cons, Emit.spillArgs]
      rw [ha.ty_eq]
      exact bind ha.value fun _ => behind fun _ => first (ih hargs)

theorem propertyPlace {receiver : Option α} {args : List α}
    (h : ∀ a ∈ receiver.toList ++ args, (f a).Related C depth (g a)) {p : PropertyRef}
    {extend : Bool} :
    C.Rel depth (Emit.propertyPlace ty p (receiver.map f) (args.map f) exit extend)
      (Emit.propertyPlace ty p (receiver.map g) (args.map g) exit extend) := by
  obtain ⟨hreceiver, hargs⟩ := List.forall_mem_append.mp h
  unfold Emit.propertyPlace
  simp only [List.length_map]
  refine behind fun d => ite refl (ite (behind fun _ => first (spillArgs hargs)) ?_)
  exact instanceReceiver fun a ha => bind (spillReceiver (hreceiver a ha)) fun _ =>
    behind fun _ => first (spillArgs hargs)

/-- A layer as a place. -/
theorem placeOf {k : ExprKind α} (h : ∀ a ∈ k.children, (f a).Related C depth (g a))
    {extend : Bool} :
    C.Rel depth (Emit.placeOf (k.map f) ty exit extend) (Emit.placeOf (k.map g) ty exit extend) := by
  cases k with
  | member receiver m =>
      cases m with
      | field field => exact fieldPlace h
      | property p =>
          have hreceiver : ∀ a ∈ receiver.toList ++ [], (f a).Related C depth (g a) := by
            rwa [List.append_nil]
          exact propertyPlace hreceiver
      | _ => exact refl
  | index receiver args indexer =>
      cases indexer with
      | some p =>
          have hargs : ∀ a ∈ (some receiver).toList ++ args, (f a).Related C depth (g a) := h
          exact propertyPlace hargs
      | none =>
          obtain ⟨hreceiver, hargs⟩ := List.forall_mem_cons.mp h
          exact elementPlace hreceiver hargs
  | newArray elem init => cases init <;> exact refl
  | _ => exact refl

/-! ## Members and elements -/

/-- The receiver of a member, and what is emitted with it. -/
theorem requireReceiver {β : Type} {receiver : Option α} {what : String} {F : Node → Emit β}
    {G : Node → Emit β} (h : ∀ a ∈ receiver.toList, C.Rel depth (F (f a)) (G (g a))) :
    C.Rel depth (Emit.requireReceiver (receiver.map f) what >>= F)
      (Emit.requireReceiver (receiver.map g) what >>= G) := by
  cases receiver with
  | some a => exact h a List.mem_cons_self
  | none => exact refl

theorem measure (h : m.Related C depth n) {i : Instr} :
    C.Rel depth (Emit.measure m i ty exit) (Emit.measure n i ty exit) :=
  first h.receiver

/-- A member. -/
theorem member {receiver : Option α} (h : ∀ a ∈ receiver.toList, (f a).Related C depth (g a))
    {m : Member} {shape : Shape} :
    C.Rel depth (Emit.member (receiver.map f) m ty exit shape)
      (Emit.member (receiver.map g) m ty exit shape) := by
  cases m with
  | field field =>
      exact behind fun _ => behind fun _ => behind fun _ => ite refl
        (requireReceiver fun a ha => first (h a ha).receiver)
  | property p =>
      refine behind fun _ => ite refl (behind fun _ => behind fun _ => behind fun _ => ite refl ?_)
      exact requireReceiver fun a ha => first (h a ha).receiver
  | arrayLength | listCount | strLength =>
      refine requireReceiver fun a ha => ?_
      rw [(h a ha).ty_eq]
      split
      · exact measure (h a ha)
      · exact refl
  | hasValue | value =>
      refine requireReceiver fun a ha => ?_
      rw [(h a ha).ty_eq]
      exact ite (first (h a ha).value) refl

/-- An element that is read directly is read so in both cases, with indices that are related. -/
theorem directIndex {args : List α} (h : ∀ a ∈ args, (f a).Related C depth (g a))
    (hn : m.Related C depth n) (indexer : Option PropertyRef) (o : Options) (exit : Option Label) :
    Option.Rel (Node.Related C depth) (Emit.directIndex? m (args.map f) indexer o exit)
      (Emit.directIndex? n (args.map g) indexer o exit) := by
  unfold Emit.directIndex?
  rw [hn.ty_eq]
  cases n.ty with
  | array elem =>
      match args, h, indexer with
      | [a], h, none =>
          cases o.autoExtendRead || o.boundsChecks && exit.isSome with
          | true =>
              simp only [List.map_cons, List.map_nil, if_true]
              exact .none
          | false =>
              simp only [List.map_cons, List.map_nil, Bool.false_eq_true, if_false]
              exact .some (h a List.mem_cons_self)
      | [], _, _ | _ :: _ :: _, _, _ | [_], _, some _ => exact .none
  | _ => exact .none

/-- An element. -/
theorem index (hn : m.Related C depth n) {args : List α}
    (h : ∀ a ∈ args, (f a).Related C depth (g a)) {indexer : Option PropertyRef} {shape : Shape}
    {place place' : Option Label → Bool → Emit (Place × Bool)}
    (hplace : ∀ exit extend, C.Rel depth (place exit extend) (place' exit extend)) :
    C.Rel depth (Emit.index m (args.map f) indexer ty exit shape place)
      (Emit.index n (args.map g) indexer ty exit shape place') := by
  refine behind fun o => ?_
  have hdirect := directIndex h hn indexer o exit
  revert hdirect
  generalize Emit.directIndex? m (args.map f) indexer o exit = d
  generalize Emit.directIndex? n (args.map g) indexer o exit = d'
  intro hdirect
  cases hdirect with
  | some harg => exact bind hn.receiver fun _ => first (indexOperand harg)
  | none => exact withTemps (first (hplace _ _))

theorem created {place place' : Option Label → Bool → Emit (Place × Bool)}
    (hplace : ∀ exit extend, C.Rel depth (place exit extend) (place' exit extend)) :
    C.Rel depth (Emit.created ty exit place) (Emit.created ty exit place') :=
  withTemps (first (hplace _ _))

/-! ## Assignments -/

theorem store (hl : l.Related C depth l') (hr : r.Related C depth r') {extend keep : Bool} :
    C.Rel depth (Emit.store l r extend exit keep) (Emit.store l' r' extend exit keep) := by
  unfold Emit.store
  rw [hl.ty_eq, hr.ty_eq]
  exact withTemps <| bind (hl.place _ _) fun _ => first hr.value

theorem update (hl : l.Related C depth l') (hr : r.Related C depth r') {op : BinaryOp}
    {checked extend keep : Bool} :
    C.Rel depth (Emit.update op l r checked extend exit keep)
      (Emit.update op l' r' checked extend exit keep) := by
  unfold Emit.update
  rw [hl.ty_eq, hr.ty_eq]
  exact behind fun _ => withTemps <| bind (hl.place _ _) fun _ => behind fun _ => behind fun _ =>
    first hr.value

theorem step (h : m.Related C depth n) {op : AssignOp} {checked extend keep : Bool} :
    C.Rel depth (Emit.step op m checked extend exit keep)
      (Emit.step op n checked extend exit keep) := by
  unfold Emit.step
  rw [h.ty_eq]
  split
  · exact refl
  · exact withTemps (first (h.place _ _))

/-- An assignment of any kind. -/
theorem assign (hn : m.Related C depth n) {value : Option α}
    (h : ∀ a ∈ value.toList, (f a).Related C depth (g a)) {op : AssignOp}
    {checked autoExtend : Bool} {shape : Shape} :
    C.Rel depth (Emit.assign op m (value.map f) checked autoExtend exit shape)
      (Emit.assign op n (value.map g) checked autoExtend exit shape) := by
  refine behind fun o => ?_
  dsimp only
  generalize op.isStep = isStep
  cases value with
  | none =>
      cases isStep with
      | true => exact step hn
      | false => exact refl
  | some a =>
      cases isStep with
      | true => exact refl
      | false =>
          have ha := h a List.mem_cons_self
          cases op.binary? with
          | none => exact store hn ha
          | some bin => exact update hn ha

/-! ## Calls and construction -/

theorem argument (h : m.Related C depth n) {what : String} {param : Ty × Bool} :
    C.Rel depth (Emit.argument what m param exit) (Emit.argument what n param exit) := by
  unfold Emit.argument
  rw [h.ty_eq]
  exact ite (ite (first (h.emit _ _ _)) refl) (first h.value)

theorem eachArgument {what : String} {args : List α}
    (h : ∀ a ∈ args, (f a).Related C depth (g a)) {params : List (Ty × Bool)} :
    C.Rel depth (Emit.eachArgument what exit ((args.map f).zip params))
      (Emit.eachArgument what exit ((args.map g).zip params)) := by
  induction args generalizing params with
  | nil => exact refl
  | cons a args ih =>
      obtain ⟨ha, hargs⟩ := List.forall_mem_cons.mp h
      cases params with
      | nil => exact refl
      | cons param params => exact bind (argument ha) fun _ => first (ih hargs)

theorem arguments {what : String} {params : List (Ty × Bool)} {args : List α}
    (h : ∀ a ∈ args, (f a).Related C depth (g a)) :
    C.Rel depth (Emit.arguments what params (args.map f) exit)
      (Emit.arguments what params (args.map g) exit) := by
  unfold Emit.arguments
  simp only [List.length_map]
  exact ite refl (eachArgument h)

/-- A call of a method. -/
theorem call {receiver : Option α} {args : List α}
    (h : ∀ a ∈ receiver.toList ++ args, (f a).Related C depth (g a)) {method : MethodRef} :
    C.Rel depth (Emit.call method (receiver.map f) (args.map f) ty exit)
      (Emit.call method (receiver.map g) (args.map g) ty exit) := by
  obtain ⟨hreceiver, hargs⟩ := List.forall_mem_append.mp h
  refine behind fun sig => behind fun kind => behind fun r => ?_
  cases receiver with
  | none => cases kind <;> first | exact refl | exact first (arguments hargs)
  | some a =>
      have ha := hreceiver a List.mem_cons_self
      cases kind with
      | member => exact bind ha.receiver fun _ => first (arguments hargs)
      | «extension» => exact first (arguments h)
      | _ => exact refl

theorem invoke (hn : m.Related C depth n) {args : List α}
    (h : ∀ a ∈ args, (f a).Related C depth (g a)) :
    C.Rel depth (Emit.invoke m (args.map f) ty exit) (Emit.invoke n (args.map g) ty exit) := by
  unfold Emit.invoke
  rw [hn.ty_eq]
  simp only [List.length_map]
  split
  · exact bind hn.receiver fun _ => first (arguments h)
  · exact refl

/-- A new instance. -/
theorem construct {args : List α} (h : ∀ a ∈ args, (f a).Related C depth (g a))
    {ctor : Option MethodRef} :
    C.Rel depth (Emit.construct ctor (args.map f) ty exit)
      (Emit.construct ctor (args.map g) ty exit) := by
  cases ctor with
  | some method => exact behind fun _ => behind fun _ => first (arguments h)
  | none =>
      cases args with
      | nil => exact refl
      | cons a args =>
          unfold Emit.construct
          simp only [List.length_map]
          exact refl

/-- Items of an array. -/
theorem arrayItems {elem : Ty} {items : List α}
    (h : ∀ a ∈ items, (f a).Related C depth (g a)) {i : Nat} :
    C.Rel depth (Emit.arrayItems elem exit i (items.map f))
      (Emit.arrayItems elem exit i (items.map g)) := by
  induction items generalizing i with
  | nil => exact refl
  | cons a items ih =>
      obtain ⟨ha, hitems⟩ := List.forall_mem_cons.mp h
      simp only [List.map_cons, Emit.arrayItems]
      rw [ha.ty_eq]
      exact behind fun _ => behind fun _ => bind ha.value fun _ => behind fun _ => behind fun _ =>
        first (ih hitems)

theorem arrayBounds {bounds : List α} (h : ∀ a ∈ bounds, (f a).Related C depth (g a)) :
    C.Rel depth (Emit.arrayBounds exit (bounds.map f))
      (Emit.arrayBounds exit (bounds.map g)) := by
  induction bounds with
  | nil => exact refl
  | cons a bounds ih =>
      obtain ⟨ha, hbounds⟩ := List.forall_mem_cons.mp h
      exact bind (indexOperand ha) fun _ => first (ih hbounds)

/-- A new array. -/
theorem newArray {elem : Ty} {init : ArrayInit α}
    (h : ∀ a ∈ (ExprKind.newArray elem init).children, (f a).Related C depth (g a)) :
    C.Rel depth (Emit.newArray elem (init.map f) ty exit)
      (Emit.newArray elem (init.map g) ty exit) := by
  cases init with
  | elements items =>
      unfold Emit.newArray ArrayInit.map
      simp only [List.length_map]
      exact behind fun _ => behind fun _ => first (arrayItems h)
  | bounds bounds =>
      cases bounds with
      | nil => exact refl
      | cons a bounds =>
          have hbounds : ∀ b ∈ a :: bounds, (f b).Related C depth (g b) := h
          unfold Emit.newArray ArrayInit.map
          simp only [List.map_cons, List.length_cons, List.length_map]
          exact first (arrayBounds hbounds)

end Emit.Congruence.Rel

end Arbor
