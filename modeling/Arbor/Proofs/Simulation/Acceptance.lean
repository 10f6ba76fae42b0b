/-
  What a successful emission says about a tree.

  An emitter checks the types of operands before it uses them.  `Requires` says
  that an emitter succeeds only where a proposition holds; the checks of every
  emitter, and what its operands require, are what the emitter requires.
-/
import Arbor.Emit.Unit

set_option autoImplicit false

namespace Arbor

namespace Emit

/-- In the setting the emitter succeeds only where the proposition holds. -/
def Requires {α : Type} (setting : Setting) (x : Emit α) (P : Prop) : Prop :=
  ∀ (s t : Emission) (a : α), x.run setting s = .ok a t → P

namespace Requires

variable {α β : Type} {setting : Setting} {P Q : Prop}

/-! ## Combinators -/

theorem of {x : Emit α} (h : P) : Requires setting x P := fun _ _ _ _ => h

theorem imp {x : Emit α} (hx : Requires setting x P) (h : P → Q) : Requires setting x Q :=
  fun s t a hrun => h (hx s t a hrun)

theorem and {x : Emit α} (hP : Requires setting x P) (hQ : Requires setting x Q) :
    Requires setting x (P ∧ Q) :=
  fun s t a hrun => ⟨hP s t a hrun, hQ s t a hrun⟩

theorem first {x : Emit α} {f : α → Emit β} (hx : Requires setting x P) :
    Requires setting (x >>= f) P := by
  intro s t b h
  change (Emit.andThen x f).run setting s = .ok b t at h
  simp only [Emit.andThen] at h
  split at h
  · next hrun => exact hx _ _ _ hrun
  · cases h

theorem andThen {x : Emit α} {f : α → Emit β} (hf : ∀ a, Requires setting (f a) P) :
    Requires setting (x >>= f) P := by
  intro s t b h
  change (Emit.andThen x f).run setting s = .ok b t at h
  simp only [Emit.andThen] at h
  split at h
  · exact hf _ _ _ _ h
  · cases h

theorem fail (e : CompileError) : Requires setting (fail e : Emit α) P := by
  intro s t a h
  cases h

theorem mismatch (context expected : String) (found : Ty) :
    Requires setting (mismatch context expected found : Emit α) P :=
  andThen fun _ => fail _

theorem registry {f : Registry → Emit β} (hf : Requires setting (f setting.registry) P) :
    Requires setting (registry >>= f) P :=
  fun s t b h => hf s t b h

theorem options {f : Options → Emit β} (hf : Requires setting (f setting.options) P) :
    Requires setting (options >>= f) P :=
  fun s t b h => hf s t b h

theorem receiver {n : Node} {what : String} {f : Node → Emit β} (hf : Requires setting (f n) P) :
    Requires setting (requireReceiver (some n) what >>= f) P :=
  fun s t b h => hf s t b h

/-- An emitter behind a value moved to a temporary. -/
theorem spillOperand {ty : Ty} {f : Operand → Emit β} (hf : ∀ slot, Requires setting (f ⟨slot, ty⟩) P) :
    Requires setting (spillOperand ty >>= f) P := by
  intro s t b h
  change (Emit.andThen (Emit.andThen (spill ty) fun slot => Emit.done ⟨slot, ty⟩) f).run setting s =
    .ok b t at h
  simp only [Emit.andThen, Emit.done] at h
  split at h
  · next hrun =>
      split at hrun
      · cases hrun
        exact hf _ _ _ _ h
      · cases hrun
  · cases h

/-- Emitters for the items of a list require what each of them requires. -/
theorem forM {items : List α} {f : α → Emit PUnit} {p : α → Prop}
    (hf : ∀ a ∈ items, Requires setting (f a) (p a)) :
    Requires setting (items.forM f) (∀ a ∈ items, p a) := by
  induction items with
  | nil => exact of fun _ h => nomatch h
  | cons a items ih =>
      refine imp (and (first (hf a List.mem_cons_self))
        (andThen fun _ => ih fun b hb => hf b (List.mem_cons_of_mem _ hb))) fun h => ?_
      exact List.forall_mem_cons.mpr h

theorem withTemps {x : Emit α} (hx : Requires setting x P) : Requires setting (withTemps x) P := by
  intro s t a h
  simp only [Emit.withTemps] at h
  split at h
  · next hrun => exact hx _ _ _ hrun
  · cases h

theorem inScope {x : Emit α} {vars : Scope} (hx : Requires setting x P) :
    Requires setting (inScope vars x) P := by
  intro s t a h
  simp only [Emit.inScope] at h
  split at h
  · next hrun => exact hx _ _ _ hrun
  · cases h

theorem reserved {x : Emit α} {fill : α → Option Instr} (hx : Requires setting x P) :
    Requires setting (reserved x fill) P := by
  intro s t a h
  simp only [Emit.reserved] at h
  split at h
  · next hrun => exact hx _ _ _ hrun
  · cases h

theorem withLanding {ty : Ty} {body : Option Label → Emit Emitted}
    (hbody : ∀ exit, Requires setting (body exit) P) : Requires setting (withLanding ty body) P := by
  refine options ?_
  split
  · exact andThen fun _ => first (reserved (andThen fun _ => first (hbody _)))
  · exact hbody none

/-! ## Checks -/

theorem checkBinary (op : BinaryOp) (left right : Ty) :
    Requires setting (checkBinary op left right) (op.accepts left right = true) := by
  unfold Emit.checkBinary
  split
  · next h => exact of h
  · exact andThen fun _ => mismatch _ _ _

/-- A value stored in a slot of another type. -/
theorem coerce (source target : Ty) (context : String) :
    Requires setting (coerce source target context)
      (source = target ∨ (target.isNullable = true ∧ target.underlying = source) ∨
        setting.registry.isAssignable source target = true) := by
  unfold Emit.coerce
  split
  · next h => exact of (.inl h)
  · split
    · next h => exact of (.inr (.inl (by simpa using h)))
    · refine registry ?_
      split
      · next h => exact of (.inr (.inr h))
      · exact andThen fun _ => mismatch _ _ _

end Requires

end Emit

/-- A type that fits that of a node, or the type inside that optional. -/
def Registry.fitsBranch (r : Registry) (branch ty : Ty) : Prop :=
  r.isAssignable branch ty = true ∨ (ty.isNullable = true ∧ ty.underlying = branch)

/-- In the setting every emission of the node succeeds only where the proposition holds. -/
def Node.Requires (setting : Setting) (n : Node) (P : Prop) : Prop :=
  ∀ exit shape extend, Emit.Requires setting (n.emit exit shape extend) P

namespace Node.Requires

variable {setting : Setting} {n l r : Node} {P Q S : Prop} {ty : Ty} {exit : Option Label}

/-- A node whose layer requires something, if no missing value is created at it. -/
theorem ofKind {k : ExprKind Node} (hk : k.isPlace = false)
    (hlayer : ∀ place exit shape, Emit.Requires setting (Emit.layer k ty place exit shape) P) :
    Node.Requires setting (Node.ofKind k ty) P := by
  intro exit shape extend
  simp only [Node.ofKind, hk, Bool.and_false, Bool.false_and, Bool.false_eq_true, if_false]
  exact .first (hlayer _ exit shape)

theorem value (hn : Node.Requires setting n P) (exit : Option Label) :
    Emit.Requires setting (n.value exit) P :=
  .first (hn exit .value false)

theorem effect (hn : Node.Requires setting n P) (exit : Option Label) :
    Emit.Requires setting (n.effect exit) P :=
  .first (hn exit .nothing false)

theorem guarded (hn : Node.Requires setting n P) (shape : Shape) :
    Emit.Requires setting (n.guarded shape) P :=
  .withLanding fun exit => hn exit shape false

theorem branch (hn : Node.Requires setting n P) (exit : Option Label) (discard : Bool) :
    Emit.Requires setting (n.branch ty exit discard) P := by
  unfold Node.branch
  split
  · exact hn.effect exit
  · exact .first (hn.value exit)

theorem checkBranch (n : Node) (ty : Ty) :
    Emit.Requires setting (n.checkBranch ty) (setting.registry.fitsBranch n.ty ty) := by
  refine .registry ?_
  split
  · next h => exact .of (by simpa [Registry.fitsBranch] using h)
  · exact .andThen fun _ => .mismatch _ _ _

/-! ## Operators -/

/-- A unary operator. -/
theorem unary {op : UnaryOp} {checked : Bool} (hn : Node.Requires setting n P) :
    Emit.Requires setting (Emit.unary op n checked none ty exit)
      (op.accepts n.ty = true ∧ P) := by
  unfold Emit.unary
  split
  · exact .mismatch _ _ _
  · next haccepts =>
      have haccepts : op.accepts n.ty = true := by simpa using haccepts
      refine .and (.of haccepts) ?_
      split
      · exact .first (hn.value exit)
      · split
        · exact .first (hn.value exit)
        · split
          · exact .andThen fun _ => .mismatch _ _ _
          · exact .withTemps (.first (hn.value exit))

theorem binary {op : BinaryOp} {checked : Bool} (hl : Node.Requires setting l P)
    (hr : Node.Requires setting r Q) :
    Emit.Requires setting (Emit.binary op l r checked none ty exit)
      (op.accepts l.ty r.ty = true ∧ P ∧ Q) := by
  refine .and (.first (.checkBinary op l.ty r.ty)) (.andThen fun _ => ?_)
  split
  · exact .and (.first (hl.value exit)) (.andThen fun _ => .first (hr.value exit))
  · exact .withTemps (.and (.first (hl.value exit))
      (.andThen fun _ => .andThen fun _ => .first (hr.value exit)))

/-- A short-circuit operator.  Constant operands are not emitted. -/
theorem logical {op : LogicalOp} (hl : Node.Requires setting l P) (hr : Node.Requires setting r Q) :
    Emit.Requires setting (Emit.logical op l r ty exit)
      (l.ty.underlying = .bool ∧ r.ty.underlying = .bool ∧
        ((l.expr.constantTruth?.isSome = true ∧ r.expr.constantTruth?.isSome = true) ∨ P ∧ Q)) := by
  unfold Emit.logical
  dsimp only
  split
  · exact .mismatch _ _ _
  next hleft =>
  split
  · exact .mismatch _ _ _
  next hright =>
  refine .and (.of (by simpa using hleft)) (.and (.of (by simpa using hright)) ?_)
  split
  · exact .mismatch _ _ _
  · split
    · next hconstl hconstr => exact .of (.inl (by simp [hconstl, hconstr]))
    · refine .imp ?_ .inr
      split
      · refine .withTemps (.andThen fun _ => .andThen fun _ => .andThen fun _ => .and
          (.first (hl.value exit)) (.andThen fun _ => .andThen fun _ => .andThen fun _ =>
            .andThen fun _ => .andThen fun _ => .andThen fun _ => .first (hr.value exit)))
      · exact .andThen fun _ => .and (.first (hl.value exit))
          (.andThen fun _ => .andThen fun _ => .first (hr.value exit))

/-- A coalescing. -/
theorem coalesce (hl : Node.Requires setting l P) (hr : Node.Requires setting r Q) :
    Emit.Requires setting (Emit.coalesce l r ty exit)
      (setting.registry.fitsBranch r.ty ty ∧ P ∧ Q) := by
  refine .registry ?_
  dsimp only
  split
  · exact .mismatch _ _ _
  · split
    · exact .andThen fun _ => .mismatch _ _ _
    · next hfits =>
        have hfits : (setting.registry.isAssignable r.ty ty ||
            (ty.isNullable && decide (ty.underlying = r.ty))) = true := by
          simpa only [Bool.not_eq_true', Bool.not_eq_false] using hfits
        have hfits : setting.registry.fitsBranch r.ty ty := by
          simpa [Registry.fitsBranch] using hfits
        refine .and (.of hfits) ?_
        split
        · refine .withTemps (.andThen fun _ => .andThen fun _ => .and (.first (hl.guarded .value))
            (.andThen fun _ => .andThen fun _ => .andThen fun _ => .andThen fun _ =>
              .andThen fun _ => .andThen fun _ => .andThen fun _ => .first (hr.value exit)))
        · exact .andThen fun _ => .and (.first (hl.guarded .value))
            (.andThen fun _ => .andThen fun _ => .first (hr.value exit))

/-! ## Members and conversions -/

/-- The presence or content of an optional. -/
theorem member {m : Member} (hm : m = .hasValue ∨ m = .value) (hn : Node.Requires setting n P)
    (shape : Shape) :
    Emit.Requires setting (Emit.member (some n) m ty exit shape) P := by
  rcases hm with rfl | rfl
  · refine .receiver ?_
    split
    · exact .first (hn.value exit)
    · exact .mismatch _ _ _
  · refine .receiver ?_
    split
    · exact .first (hn.value exit)
    · exact .mismatch _ _ _

theorem convert {source target : NumKind} {checked : Bool}
    (hsource : n.ty.underlying.numKind? = some source) (htarget : ty.underlying.numKind? = some target)
    (hn : Node.Requires setting n P) :
    Emit.Requires setting (Emit.convert n checked none ty exit) P := by
  simp only [Emit.convert, hsource, htarget]
  unfold Emit.numericConversion
  dsimp only
  split
  · exact .withTemps (.first (hn.value exit))
  · exact .first (hn.value exit)

/-! ## Control flow -/

theorem checkBranches {branches : List Node} :
    Emit.Requires setting (Emit.checkBranches ty branches)
      (ty.isVoid = false → ∀ b ∈ branches, setting.registry.fitsBranch b.ty ty) := by
  unfold Emit.checkBranches
  split
  · next hvoid => exact .of fun h => by simp [hvoid] at h
  · exact .imp (.forM fun b _ => checkBranch b ty) fun h _ => h

/-- A conditional. -/
theorem conditional {test ifTrue ifFalse : Node} {shape : Shape}
    (htest : Node.Requires setting test P) (htrue : Node.Requires setting ifTrue Q)
    (hfalse : Node.Requires setting ifFalse S) :
    Emit.Requires setting (Emit.conditional test ifTrue ifFalse ty exit shape)
      ((ty.isVoid = false → setting.registry.fitsBranch ifTrue.ty ty ∧
        setting.registry.fitsBranch ifFalse.ty ty) ∧ P ∧ Q ∧ S) := by
  unfold Emit.conditional
  split
  · exact .mismatch _ _ _
  · dsimp only
    refine .and (.first (.imp checkBranches ?_)) (.andThen fun _ => .andThen fun _ => .andThen fun _ =>
      .and (.first (htest.guarded .value)) (.andThen fun _ => .andThen fun _ => .andThen fun _ =>
        .and (.first (htrue.branch exit _)) (.andThen fun _ => .andThen fun _ => .andThen fun _ =>
          .first (hfalse.branch exit _))))
    intro h hvoid
    have h := h hvoid
    exact ⟨h _ List.mem_cons_self, h _ (by simp)⟩

theorem statement (hn : Node.Requires setting n P) :
    Emit.Requires setting (Emit.statement n) P :=
  .first (.withLanding fun exit => hn exit .nothing false)

/-- Statements of a block. -/
theorem statements {nodes : List Node} {p : Node → Prop} {shape : Shape}
    (hnodes : ∀ n ∈ nodes, Node.Requires setting n (p n)) :
    Emit.Requires setting (Emit.statements ty exit shape nodes)
      ((∀ n ∈ nodes, p n) ∧ ∀ n, nodes.getLast? = some n → ty.isVoid = false →
        setting.registry.fitsBranch n.ty ty) := by
  induction nodes with
  | nil => exact .of ⟨fun _ h => (nomatch h), fun _ h => (nomatch h)⟩
  | cons n nodes ih =>
      have hn := hnodes n List.mem_cons_self
      cases nodes with
      | nil =>
          have hone : p n ∧ (ty.isVoid = false → setting.registry.fitsBranch n.ty ty) →
              (∀ m ∈ [n], p m) ∧ ∀ m, [n].getLast? = some m → ty.isVoid = false →
                setting.registry.fitsBranch m.ty ty := by
            rintro ⟨hp, hfits⟩
            refine ⟨List.forall_mem_singleton.mpr hp, fun m hm => ?_⟩
            cases hm
            exact hfits
          refine .imp ?_ hone
          unfold Emit.statements
          split
          · next hvoid =>
              exact .and (.first (hn.effect exit)) (.of fun h => by simp [hvoid] at h)
          · refine .and (.andThen fun _ => ?_) (.first (.imp (checkBranch n ty) fun h _ => h))
            split
            · exact hn exit shape false
            · exact .first (hn.branch exit false)
      | cons n' nodes =>
          refine .imp (.and (.first hn.statement)
            (.andThen fun _ => ih fun n hn => hnodes n (List.mem_cons_of_mem _ hn))) ?_
          rintro ⟨hp, hrest, hlast⟩
          exact ⟨List.forall_mem_cons.mpr ⟨hp, hrest⟩, fun m hm => hlast m (by simpa using hm)⟩

theorem block {vars : List Variable} {nodes : List Node} {p : Node → Prop} {shape : Shape}
    (hnodes : ∀ n ∈ nodes, Node.Requires setting n (p n)) :
    Emit.Requires setting (Emit.block vars nodes ty exit shape)
      ((∀ n ∈ nodes, p n) ∧ ∀ n, nodes.getLast? = some n → ty.isVoid = false →
        setting.registry.fitsBranch n.ty ty) :=
  .withTemps (.andThen fun _ => .inScope (statements hnodes))

/-! ## Assignments -/

theorem store {target value : Node} {extend keep : Bool} (hvalue : Node.Requires setting value P) :
    Emit.Requires setting (Emit.store target value extend exit keep)
      (P ∧ (value.ty = target.ty ∨
        (target.ty.isNullable = true ∧ target.ty.underlying = value.ty) ∨
        setting.registry.isAssignable value.ty target.ty = true)) := by
  refine .withTemps (.andThen fun p => ?_)
  exact .and (.first (hvalue.value exit)) (.andThen fun _ => .first (.coerce _ _ _))

/-- A plain operator on operands held in temporaries. -/
theorem binarySlots {op : BinaryOp} {checked : Bool} {left right : Operand} :
    Emit.Requires setting (Emit.binarySlots op checked none left right ty)
      (op.isComparison = false → left.ty.isNullable = true ∨ right.ty.isNullable = true →
        ty.isNullable = true) := by
  unfold Emit.binarySlots
  dsimp only
  split
  · next hplain =>
      refine .of fun _ h => ?_
      simp only [Bool.not_eq_true', Bool.or_eq_false_iff] at hplain
      simp [hplain.1, hplain.2] at h
  · split
    · next hequality =>
        have hop : op.isComparison = true := by cases op <;> first | rfl | cases hequality
        exact .of fun h => by simp [hop] at h
    · unfold Emit.liftedOperator
      dsimp only
      split
      · next hcomparison => exact .of fun h => by simp [hcomparison] at h
      · split
        · next hty => exact .of fun _ _ => hty
        · exact .andThen fun _ => .mismatch _ _ _

theorem update {op : BinaryOp} {target value : Node} {checked extend keep : Bool}
    (hvalue : Node.Requires setting value P) :
    Emit.Requires setting (Emit.update op target value checked extend exit keep)
      (op.accepts target.ty value.ty = true ∧ P ∧
        (op.isComparison = false → target.ty.isNullable = true ∨ value.ty.isNullable = true →
          target.ty.isNullable = true)) := by
  refine .and (.first (.checkBinary op _ _)) (.andThen fun _ => .withTemps (.andThen fun p => ?_))
  refine .andThen fun _ => .spillOperand fun _ => .and (.first (hvalue.value exit)) ?_
  exact .andThen fun _ => .spillOperand fun _ => .first binarySlots

/-- An assignment of a value. -/
theorem assign {op : AssignOp} {target value : Node} {checked autoExtend : Bool} {shape : Shape}
    (hvalue : Node.Requires setting value P) :
    Emit.Requires setting (Emit.assign op target (some value) checked autoExtend exit shape)
      (P ∧ (op.binary? = none → value.ty = target.ty ∨
        (target.ty.isNullable = true ∧ target.ty.underlying = value.ty) ∨
        setting.registry.isAssignable value.ty target.ty = true) ∧
      ∀ bin, op.binary? = some bin → bin.accepts target.ty value.ty = true ∧
        (bin.isComparison = false → target.ty.isNullable = true ∨ value.ty.isNullable = true →
          target.ty.isNullable = true)) := by
  refine .options ?_
  dsimp only
  cases hstep : op.isStep with
  | true => exact .fail _
  | false =>
      dsimp only
      split
      · next hbin =>
          refine .imp (store hvalue) fun h => ⟨h.1, fun _ => h.2, fun bin h => ?_⟩
          rw [hbin] at h
          cases h
      · next bin hbin =>
          refine .imp (update hvalue) fun h => ⟨h.2.1, fun hnone => ?_, fun other hother => ?_⟩
          · rw [hbin] at hnone
            cases hnone
          · rw [hbin] at hother
            cases hother
            exact ⟨h.1, h.2.2⟩

/-! ## Functions -/

theorem functionBody {f : Lambda Node} (hbody : Node.Requires setting f.body P) :
    Emit.Requires setting (Emit.functionBody f)
      ((f.ret.isVoid = false → setting.registry.fitsBranch f.body.ty f.ret) ∧ P) := by
  refine .andThen fun _ => ?_
  split
  · next hvoid => exact .and (.of fun h => by simp [hvoid] at h) (.first (hbody.guarded .nothing))
  · exact .and (.first (.imp (checkBranch _ _) fun h _ => h))
      (.andThen fun _ => .first (hbody.guarded .value))

end Node.Requires

end Arbor
