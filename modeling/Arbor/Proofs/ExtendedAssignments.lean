/-
  Assignments that extend their target.

  The target of an assignment may be a chain of fields, properties and elements.
  With extension, its code creates the objects, arrays and lists that are missing
  on the way and lets arrays and lists reach the indices, so the value arrives
  whatever was there before.  Nothing changes off the chain.
-/
import Arbor.Proofs.Simulation.ChainExtension
import Arbor.Proofs.Simulation.Sections
import Arbor.Proofs.Simulation.Trees

set_option autoImplicit false

namespace Arbor

/-! ## Trees of chains -/

/-- The tree of an index. -/
def IndexWord.expr (w : IndexWord) : Expr := .node (.constant (.num (.int .i32 w))) .int

namespace Chain

/-- The layer of a root. -/
def Root.kind : Root → ExprKind Expr
  | .variable id => .parameter id
  | .static f => .member none (.field f)
  | .closure i => .closureVar i

/-- The layer of a step over the tree of what it starts from. -/
def Link.kind (receiver : Expr) : Link → ExprKind Expr
  | .field f => .member (some receiver) (.field f)
  | .property p _ => .member (some receiver) (.property p)
  | .element w => .index receiver [w.expr] none

/-- The tree of a chain. -/
def expr : Chain → Expr
  | root x ty => .node x.kind ty
  | link c l ty => .node (l.kind c.expr) ty

theorem expr_ty (c : Chain) : c.expr.ty = c.ty := by
  cases c <;> rfl

theorem toNode_ty (c : Chain) : c.expr.toNode.ty = c.ty := (Expr.toNode_ty _).trans c.expr_ty

/-- What is kept of a value at the end of the chain: closure variables are boxed. -/
def kept (v : Value) : Chain → Value
  | root (.closure _) _ => v.boxed
  | _ => v

theorem isPlace (c : Chain) : c.expr.kind.isPlace = true := by
  cases c with
  | root x ty => cases x <;> rfl
  | link c l ty => cases l <;> rfl

/-- With extension, the node of a chain makes the value of its place. -/
theorem emit_extended {c : Chain} (hcreatable : c.ty.isCreatable = true) (exit : Option Label) (shape : Shape) :
    c.expr.toNode.emit exit shape true = (do
      let emitted ← Emit.created c.ty exit c.expr.toNode.place
      Emit.adapt c.ty emitted shape) := by
  have hplace := c.isPlace
  obtain ⟨k, hk⟩ : ∃ k, c.expr = .node k c.ty := by
    cases c <;> exact ⟨_, rfl⟩
  rw [hk] at hplace ⊢
  have hplace : k.isPlace = true := hplace
  rw [Expr.toNode_node]
  simp only [Node.ofKind, ExprKind.isPlace_map, hplace, hcreatable, Bool.and_self, if_true]

end Chain

/-! ## Operands -/

/-- What an operand without effect evaluates to: a constant, or the value of a variable. -/
inductive Expr.Reads (r : Registry) (scope : Scope) (m : Memory) : Expr → Value → Prop
  | literal {value : Literal} {ty found : Ty} (hvalue : value.ty? = some found) :
      Reads r scope m (.node (.constant value) ty) ((Value.ofLiteral value).wrapIf ty.isNullable)
  | null {ty : Ty} {v : Value} (hvoid : ty.isVoid = false) (hzero : r.zero ty = .ok v) :
      Reads r scope m (.node (.constant .null) ty) v
  | variable {id : VarId} {slot : VarSlot} {ty ty' : Ty} {v : Value}
      (hslot : scope.lookup id = some (slot, ty)) (hv : m.slot? slot = some v) :
      Reads r scope m (.node (.parameter id) ty') v

/-- The code of an operand without effect pushes its value. -/
theorem Expr.Reads.leads {setting : Setting} {R : Routine} {hR : R.WithinLimits} {start : Nat}
    {s t : Emission} {exit : Option Label} {used : Bool} {e : Expr} {m : Memory} {v : Value}
    (he : e.Reads setting.registry s.scope m v)
    (h : (Job.ofRoutine setting hR).Emits start (e.toNode.value exit) s used t) (a : Around)
    (stack : List Value) :
    Run.Leads setting.registry R s.position (m.state a stack) t.position (m.state a (v :: stack)) := by
  cases he with
  | @literal value ty found hvalue =>
      obtain ⟨e, -, hlayer⟩ := h.layer fun id h => by cases h
      have hcode : (Job.ofRoutine setting hR).Emits start (Emit.constant value ty) s e t := hlayer
      simp only [Emit.constant, hvalue, ↓Job.Emits.seq_iff] at hcode
      obtain ⟨u, hconst, hcode⟩ := hcode
      refine (hconst.goesOn (.const _ _ _ _)).trans ?_
      split at hcode
      · obtain ⟨_, _, _, hcode⟩ := hcode.bind
        exact hcode.mismatch.elim
      · obtain ⟨_, u', hwrap, hdone⟩ := hcode.bind
        obtain ⟨-, rfl⟩ := hdone.pure
        rcases hwrap.wrapIf with ⟨hty, hwrap⟩ | ⟨hty, rfl⟩
        · rw [hty]
          exact hwrap.goesOn (.optWrap _ _ _ _)
        · rw [hty]
          exact .refl _ _
  | @null ty v hvoid hzero =>
      obtain ⟨e, -, hlayer⟩ := h.layer fun id h => by cases h
      have hcode : (Job.ofRoutine setting hR).Emits start (Emit.constant .null ty) s e t := hlayer
      simp only [Emit.constant, Literal.ty?] at hcode
      split at hcode
      · exact hcode.mismatch.elim
      · obtain ⟨_, u', hpush, hdone⟩ := hcode.bind
        obtain ⟨-, rfl⟩ := hdone.pure
        simp only [Emit.pushDefault, hvoid, Bool.false_eq_true, if_false] at hpush
        split at hpush
        · exact hpush.goesOn (.loadDefault _ _ _ hzero)
        · next hvalue =>
          have hnull : v = .null := by
            cases ty with
            | bool | num k | nullable inner | structTy id => exact absurd rfl hvalue
            | _ => simpa [Registry.zero, Registry.zeroFrom, eq_comm] using hzero
          rw [hnull]
          exact hpush.goesOn (.const _ _ _ _)
  | @«variable» id slot ty ty' v hslot hv =>
      obtain ⟨e, u, hemit, hdone⟩ := h.bind
      obtain ⟨-, rfl⟩ := hdone.pure
      obtain ⟨e', u', hemit, hadapt⟩ := hemit.bind
      obtain ⟨_, u'', hfound, hcode⟩ := Job.Emits.bind (x := Emit.varSlot id) hemit
      obtain ⟨hlookup, rfl⟩ := hfound.varSlot
      obtain rfl := Option.some.inj (hslot.symm.trans hlookup)
      obtain ⟨_, w, hload, hdone⟩ := Job.Emits.bind (x := Emit.loadVar slot) hcode
      obtain ⟨rfl, rfl⟩ := hdone.pure
      have hend : t = u' := by
        cases hvoid : ty.isVoid <;>
          simp only [Emit.adapt, Emitted.ofTy, hvoid] at hadapt <;> exact hadapt.pure.2
      subst hend
      cases slot with
      | arg i => exact Job.Emits.goesOn hload (.loadArg _ _ _ hv)
      | «local» i => exact Job.Emits.goesOn hload (.loadLocal _ _ _ hv)

/-! ## Values that are made -/

/-- Where code that is emitted here finds what chains start at. -/
def Emission.site (s : Emission) : Chain.Site := ⟨s.scope, s.hidden.closureArg?⟩

/-- What has been made for a type refers to an object, an array or a list. -/
theorem Memory.Made.form {r : Registry} {m n : Memory} {k : Cell} {v : Value} {ty : Ty}
    (hmade : Made r ty m k n v) (hrefers : m.cell? r k = some v → r.Refers m.heap ty v) :
    (∃ id ref, ty = .classTy id ∧ v = .object ref) ∨ (∃ elem ref, ty = .array elem ∧ v = .array ref) ∨
      ∃ elem ref, ty = .list elem ∧ v = .list ref := by
  cases hmade with
  | present hv _ =>
      cases hrefers hv with
      | object => exact .inl ⟨_, _, rfl, rfl⟩
      | array => exact .inr (.inl ⟨_, _, rfl, rfl⟩)
      | list => exact .inr (.inr ⟨_, _, rfl, rfl⟩)
  | fresh _ hnew =>
      cases hnew with
      | object => exact .inl ⟨_, _, rfl, rfl⟩
      | array => exact .inr (.inl ⟨_, _, rfl, rfl⟩)
      | list => exact .inr (.inr ⟨_, _, rfl, rfl⟩)

/-- Elements of containers that can be created have a zero. -/
theorem Registry.Creates.zero_elem {r : Registry} {elem ty : Ty} (hcreates : r.Creates ty)
    (hty : ContainerTy elem ty) : ∃ zero, r.zero elem = .ok zero := by
  cases hty with
  | array =>
      cases hcreates with
      | array hzero => exact ⟨_, hzero⟩
  | list =>
      cases hcreates with
      | list hzero => exact ⟨_, hzero⟩

/-- A container that reaches the index is no longer than what can be counted. -/
theorem Memory.Reached.small {r : Registry} {w : IndexWord} {m n : Memory} {k cell : Cell} {v : Value}
    {elem : Ty} {count : Nat} (hreached : Reached r w m k v n cell) (hk : m.cell? r k = some v)
    (hv : m.heap.Container elem v count) (hsmall : count < Run.depthLimit) (hlow : 0 ≤ w.val)
    (hhigh : w.val < IntKind.i32.max) {v' : Value} {count' : Nat} (hholder : cell.holder = some v')
    (hcount : n.heap.length? v' = some count') : count' < Run.depthLimit := by
  obtain ⟨v'', -, -, hholder', -, hlengthened⟩ := hreached.lengthened hk hlow hv
  obtain rfl := Option.some.inj (hholder.symm.trans hholder')
  have hlength := hlengthened.length
  rw [hcount, Option.bind_some, hv.length, Option.getD_some, Option.some.injEq] at hlength
  have hlimit : IntKind.i32.max + 1 = Run.depthLimit := by decide
  omega

section

variable {setting : Setting} {R : Routine} {hR : R.WithinLimits} {start : Nat} {s t u : Emission}
  {m : Memory} {a : Around} {c : Chain} {p : Place} {k : Cell} {exit : Option Label}

/-- The code between the two points follows the chain, creates what is missing on the way, and leaves a
place that stands for the last cell. -/
structure Chain.Prepared (setting : Setting) (R : Routine) (a : Around) (m : Memory) (c : Chain)
    (s : Emission) (p : Place) (t : Emission) : Prop where
  ty : p.ty = c.ty
  kept : ∀ v, p.kind.kept v = c.kept v
  leads : ∃ n n' k, c.Located setting.registry s.site m n k ∧ n.Spares s n' ∧
    n'.locals.size = m.locals.size ∧
    p.Denotes setting.registry s.hidden.closureArg? t n' k ∧ ∀ stack,
      Run.Leads setting.registry R s.position (m.state a stack) t.position (n'.state a stack)

/-- What is needed of the surroundings of a chain for its code to run. -/
structure Chain.Runs (setting : Setting) (R : Routine) (a : Around) (m : Memory) (s : Emission) : Prop where
  ordered : setting.registry.Ordered
  depth : a.outer.length + 1 < Run.maxCallDepth
  size : m.locals.size = R.locals.size
  /-- The argument with the closure environment is no variable. -/
  hidden : ∀ n, s.hidden.closureArg? = some n → .arg n ∉ s.scope.slots

/-- The value at the end of a chain is made where a step follows. -/
theorem Chain.Located.made {n n' : Memory} {slot : Nat} {l : Chain.Link} {ty : Ty}
    (hlocated : c.Located setting.registry s.site m n k) (hruns : Chain.Runs setting R a m s)
    (htyped : (c.link l ty).Typed setting.registry) (hfits : (c.link l ty).Fits setting.registry s.site m)
    (hs : s.Sound) (hretains : s ≤ u) (hhidden : u.hidden = s.hidden)
    (hp : p.Denotes setting.registry s.hidden.closureArg? u n' k) (hty : p.ty = c.ty)
    (hspares : n.Spares s n') (hsize : n'.locals.size = m.locals.size)
    (h : (Job.ofRoutine setting hR).Emits start (Emit.createdPlace p) u slot t) :
    slot ∉ u.pool.live ∧ ∃ n₂ n₂' v, Memory.Made setting.registry c.ty n k n₂ v ∧ n₂.Spares s n₂' ∧
      n'.Keeps u n₂' ∧ n₂'.Temp t slot v ∧ n₂'.locals.size = m.locals.size ∧
      (n.cell? setting.registry k = some v → setting.registry.Refers n.heap c.ty v) ∧ ∀ stack,
        Run.Leads setting.registry R u.position (n'.state a stack) t.position (n₂'.state a stack) := by
  obtain ⟨htyped, hcreates, -⟩ := htyped
  obtain ⟨hfits, hrefers⟩ := hfits
  have hcourse := hlocated.course hruns.ordered htyped hfits
  obtain ⟨x, hx⟩ := Option.isSome_iff_exists.mp hcourse.stage.there
  have hseen := hp.seen hs hretains
  have hx' : n'.cell? setting.registry k = some x := (hspares.cell? hseen).trans hx
  obtain ⟨hfresh, n₂, n₂', v, hmade, hspares₂, hkeeps, htemp, hleads⟩ :=
    hp.created (a := a) h (by rw [hhidden]) (hsize.trans hruns.size) (hty ▸ hcreates) hx' (by
      rw [hty, hspares.heap]
      exact hcourse.refers hcreates hrefers hx)
  rw [hty] at hmade
  obtain ⟨n₃, hmade', hspares₃⟩ := hspares.made hseen hmade
  have hpresent := hmade'.isPresent
  refine ⟨hfresh, n₃, n₂', v, hmade', hspares₃.trans (hspares₂.before hretains), hkeeps, htemp, ?_, ?_, hleads⟩
  · rw [hspares₂.size, hmade.size, hsize]
  · exact fun hv => (hcourse.refers hcreates hrefers hv).resolve_left (by rintro rfl; cases hpresent)

/-- Prepared code that creates what is missing leaves a reference to what is there. -/
theorem Chain.receiver {l : Chain.Link} {ty : Ty} {emitted : Emitted}
    (hplace : ∀ {p used u}, (Job.ofRoutine setting hR).Emits start (c.expr.toNode.place exit true) s (p, used) u →
      Emission.Houses R.children s u → Prepared setting R a m c s p u)
    (h : (Job.ofRoutine setting hR).Emits start (c.expr.toNode.receiver exit .receiver true) s emitted t)
    (hhouses : Emission.Houses R.children s t) (hruns : Runs setting R a m s)
    (htyped : (c.link l ty).Typed setting.registry) (hfits : (c.link l ty).Fits setting.registry s.site m) :
    emitted.form = .value ∧ ∃ n k n₂ n₂' v, c.Located setting.registry s.site m n k ∧
      Memory.Made setting.registry c.ty n k n₂ v ∧ n₂.Spares s n₂' ∧ n₂'.locals.size = m.locals.size ∧
      (n.cell? setting.registry k = some v → setting.registry.Refers n.heap c.ty v) ∧ ∀ stack,
        Run.Leads setting.registry R s.position (m.state a stack) t.position (n₂'.state a (v :: stack)) := by
  have hs := h.sound
  have hcreatable := htyped.2.1.isCreatable
  have hvalue : c.ty.isValueType = false := by
    cases hty : c.ty <;> rw [hty] at hcreatable <;> first | rfl | cases hcreatable
  have hvoid : c.ty.isVoid = false := by
    cases hty : c.ty <;> rw [hty] at hcreatable <;> first | rfl | cases hcreatable
  have hcanCreate : c.expr.toNode.canCreate = true := by
    rw [Node.canCreate, Expr.toNode_expr, c.isPlace, c.toNode_ty, hcreatable]
    rfl
  obtain ⟨o, u, hoptions, h⟩ := Job.Emits.bind (x := Emit.options) h
  obtain ⟨rfl, rfl⟩ := hoptions.options
  obtain ⟨e, u, hemit, h⟩ := h.bind
  simp only [Bool.true_or, hcanCreate, Bool.and_true, Bool.not_true, Bool.and_false, Bool.false_and,
    Bool.false_eq_true, if_false] at h hemit
  obtain ⟨rfl, rfl⟩ := h.pure
  -- The place is prepared, its value is made, and the temporary with it is loaded.
  rw [emit_extended hcreatable] at hemit
  obtain ⟨e', u', hcreated, hadapt⟩ := hemit.bind
  obtain ⟨w, hcode, rfl⟩ := hcreated.released
  obtain ⟨⟨p, used⟩, w₁, hprepare, hcode⟩ := hcode.bind
  obtain ⟨slot, w₂, hmake, hcode⟩ := hcode.bind
  obtain ⟨⟨⟩, w₃, hload, hcode⟩ := hcode.bind
  obtain ⟨rfl, rfl⟩ := hcode.pure
  simp only [Emit.adapt, Emitted.ofTy, hvoid, Bool.false_eq_true, if_false, Shape.wantsAddress, hvalue,
    reduceCtorEq] at hadapt
  obtain ⟨rfl, rfl⟩ := hadapt.pure
  obtain ⟨hty, -, n, n', k, hlocated, hspares, hsize, hp, hleads⟩ := hplace hprepare
    (.first (t := w) ⟨hhouses.linked, hhouses.children⟩ (hmake.grows.trans hload.grows))
  obtain ⟨-, n₂, n₂', v, hmade, hspares₂, -, htemp, hsize₂, hrefers, hleads₂⟩ :=
    hlocated.made hruns htyped hfits hs hprepare.retains hprepare.hidden hp hty hspares hsize hmake
  refine ⟨rfl, n, k, n₂, n₂', v, hlocated, hmade, hspares₂, hsize₂, hrefers, fun stack => ?_⟩
  exact (hleads stack).trans ((hleads₂ stack).trans (hload.goesOn (.loadLocal _ _ _ htemp.value)))

/-! ## Elements -/

/-- With extension, an element of a place is in a container that is made and grown. -/
theorem Job.emits_elementPlace {J : Job} {kind : PlaceKind} {arg : Node} {ty : Ty} {used : Bool}
    (receiver : Node) (hkind : Emit.elementKind? receiver.ty = some (kind, 1))
    (hone : ∀ elem rank, kind ≠ .mdElem elem rank)
    (hplace : receiver.expr.kind.isPlace = true)
    (h : J.Emits start (Emit.elementPlace ty receiver [arg] exit true) s (p, used) t) :
    ∃ (container index : Nat) (used' checked : Bool) (u : Emission),
      J.Emits start (Emit.grownElement kind receiver arg exit) s (container, index, used') u ∧
      J.Emits start (Emit.boundsCheck kind container [index] exit) u checked t ∧
      p = ⟨kind, some container, [index], ty⟩ := by
  unfold Emit.elementPlace at h
  simp only [hkind, List.length_singleton, ne_eq, not_true_eq_false, if_false, hplace, Bool.and_self,
    if_true] at h
  have hcode : J.Emits start ((Emit.grownElement kind receiver arg exit >>= fun x =>
      pure (x.1, [x.2.1], x.2.2)) >>= fun x => do
        let checked ← Emit.boundsCheck kind x.1 x.2.1 exit
        pure (⟨kind, some x.1, x.2.1, ty⟩, x.2.2 || checked)) s (p, used) t := by
    cases kind with
    | mdElem elem rank => exact absurd rfl (hone elem rank)
    | _ => exact h
  obtain ⟨prepared, u, hprepared, hrest⟩ := hcode.bind
  obtain ⟨⟨container, index, used'⟩, u', hgrown, hdone⟩ := hprepared.bind
  obtain ⟨rfl, rfl⟩ := hdone.pure
  obtain ⟨checked, w, hcheck, hdone⟩ := hrest.bind
  obtain ⟨heq, rfl⟩ := hdone.pure
  cases heq
  exact ⟨container, index, used', checked, u, hgrown, hcheck, rfl⟩

/-- The code behind the creation of a container in a temporary, which lets it reach the index. -/
def Emit.reachIndex (kind : PlaceKind) (ty : Ty) (outer : Place) (container index : Nat) : Emit Unit := do
  match kind with
  | .listElem elem =>
      let child ← helper .ensureListCount elem
      instrs [.loadLocal container, .loadLocal index]
      int 1
      instrs [.arith .add true, .callChild child]
  | _ =>
      let child ← helper .ensureArrayLength (ty.element?.getD .object)
      instrs [.loadLocal container, .loadLocal index, .callChild child, .storeLocal container]
      storePlace outer container

/-- With extension, the container is a place that is prepared first, and its value is made behind the
index. -/
theorem Job.emits_grownElement {J : Job} {kind : PlaceKind} {receiver arg : Node} {container index : Nat}
    {used : Bool}
    (h : J.Emits start (Emit.grownElement kind receiver arg exit) s (container, index, used) t) :
    ∃ (outer : Place) (usedOuter usedIndex : Bool) (u₁ u₂ u₃ u₄ : Emission),
      J.Emits start (receiver.place exit true) s (outer, usedOuter) u₁ ∧
      J.Emits start (Emit.indexOperand arg exit) u₁ usedIndex u₂ ∧
      J.Emits start (Emit.spill .int) u₂ index u₃ ∧
      J.Emits start (Emit.createdPlace outer) u₃ container u₄ ∧
      J.Emits start (Emit.reachIndex kind receiver.ty outer container index) u₄ () t := by
  obtain ⟨⟨outer, usedOuter⟩, u₁, houter, h₁⟩ := h.bind
  obtain ⟨usedIndex, u₂, hindex, h₂⟩ := h₁.bind
  obtain ⟨index', u₃, hspill, h₃⟩ := h₂.bind
  obtain ⟨container', u₄, hmake, h₄⟩ := h₃.bind
  cases kind with
  | listElem elem =>
      simp only [↓Emits.seq_iff, Emits.bind_iff] at h₄
      obtain ⟨child, u₅, hhelper, u₆, hloads, u₇, hone, u₈, hcall, hdone⟩ := h₄
      obtain ⟨heq, rfl⟩ := hdone.pure
      cases heq
      refine ⟨outer, usedOuter, usedIndex, u₁, u₂, u₃, u₄, houter, hindex, hspill, hmake, ?_⟩
      simp only [Emit.reachIndex, ↓Emits.seq_iff, Emits.bind_iff]
      exact ⟨child, u₅, hhelper, u₆, hloads, u₇, hone, hcall⟩
  | _ =>
      simp only [↓Emits.seq_iff, Emits.bind_iff] at h₄
      obtain ⟨child, u₅, hhelper, u₆, hloads, u₇, hstore, hdone⟩ := h₄
      obtain ⟨heq, rfl⟩ := hdone.pure
      cases heq
      refine ⟨outer, usedOuter, usedIndex, u₁, u₂, u₃, u₄, houter, hindex, hspill, hmake, ?_⟩
      simp only [Emit.reachIndex, ↓Emits.seq_iff, Emits.bind_iff]
      exact ⟨child, u₅, hhelper, u₆, hloads, hstore⟩

/-! ## Places -/

/-- The place of a root. -/
theorem Chain.Root.prepared {x : Chain.Root} {ty : Ty} {used : Bool}
    (h : (Job.ofRoutine setting hR).Emits start ((root x ty).expr.toNode.place exit true) s (p, used) t)
    (hruns : Runs setting R a m s) (hfits : (root x ty).Fits setting.registry s.site m) :
    Prepared setting R a m (root x ty) s p t := by
  obtain ⟨k, hcell, -, -, hindex⟩ := hfits
  cases x with
  | «variable» id =>
      obtain ⟨⟨slot, ty'⟩, u, hslot, h⟩ := Job.Emits.bind (x := Emit.varSlot id) h
      obtain ⟨hlookup, rfl⟩ := hslot.varSlot
      obtain ⟨hp, rfl⟩ := h.pure
      cases hp
      have hk : some (Cell.var slot) = some k := by
        rw [← hcell]
        exact (congrArg (Option.map fun x => Cell.var x.1) hlookup).symm
      obtain rfl := Option.some.inj hk
      refine ⟨rfl, fun _ => rfl, m, m, _, .root hcell, .refl _ _, rfl, .var ?_, fun stack => .refl _ _⟩
      exact Job.mem_slots_of_lookup hlookup
  | static f =>
      obtain ⟨d, u, hlookup, h⟩ := Job.Emits.bind (x := Emit.lookup (·.field f)) h
      obtain ⟨hd, rfl⟩ := hlookup.lookup
      split at h
      · obtain ⟨hp, rfl⟩ := h.pure
        cases hp
        cases hcell
        exact ⟨rfl, fun _ => rfl, m, m, _, .root rfl, .refl _ _, rfl, .static, fun stack => .refl _ _⟩
      · obtain ⟨_, _, hreceiver, -⟩ := h.bind
        exact hreceiver.unsupported.elim
  | closure i =>
      obtain ⟨n, u, hclosure, hrest⟩ := Job.Emits.bind (x := Emit.closureTable) h
      obtain ⟨hfound, rfl⟩ := hclosure.closureTable
      obtain ⟨hp, rfl⟩ := hrest.pure
      cases hp
      obtain ⟨v, hv, hk⟩ := Option.bind_eq_some_iff.mp hcell
      obtain ⟨n', hn', harg⟩ := Option.bind_eq_some_iff.mp hv
      obtain rfl := Option.some.inj (hfound.symm.trans hn')
      cases v with
      | array ref =>
          obtain rfl := Option.some.inj hk
          exact ⟨rfl, fun _ => rfl, m, m, _, .root hcell, .refl _ _, rfl, .closure (hindex _ _ rfl) hfound
            (hruns.hidden n hfound) harg, fun stack => .refl _ _⟩
      | _ => cases hk

section

variable {l : Chain.Link} {ty : Ty} {used : Bool}
  (hplace : ∀ {p used u}, (Job.ofRoutine setting hR).Emits start (c.expr.toNode.place exit true) s (p, used) u →
    Emission.Houses R.children s u → Chain.Prepared setting R a m c s p u)
  (hhouses : Emission.Houses R.children s t) (hruns : Chain.Runs setting R a m s)
  (htyped : (c.link l ty).Typed setting.registry) (hfits : (c.link l ty).Fits setting.registry s.site m)

include hplace hhouses hruns htyped hfits

/-- The receiver of a member is an object in a temporary. -/
theorem Chain.spillReceiver {slot : Nat} {f : FieldRef} (hf : l.field? = some f)
    (h : (Job.ofRoutine setting hR).Emits start (Emit.spillReceiver c.expr.toNode exit true) s (slot, used) t) :
    ∃ n k n₂ n' ref i, c.Located setting.registry s.site m n k ∧
      Memory.Made setting.registry c.ty n k n₂ (.object ref) ∧ setting.registry.fieldSlot f = .ok i ∧
      n₂.Spares s n' ∧ n'.locals.size = m.locals.size ∧ n'.Temp t slot (.object ref) ∧ ∀ stack,
        Run.Leads setting.registry R s.position (m.state a stack) t.position (n'.state a stack) := by
  obtain ⟨emitted, u, hreceiver, hrest⟩ := Job.Emits.bind h
  obtain ⟨slot', w, hspill, hdone⟩ := hrest.bind
  obtain ⟨heq, rfl⟩ := hdone.pure
  cases heq
  obtain ⟨-, n, k, n₂, n₂', v, hlocated, hmade, hspares, hsize, hrefers, hleads⟩ :=
    Chain.receiver hplace hreceiver (hhouses.first hspill.grows) hruns htyped hfits
  have hlink := htyped.2.2
  have hcreates := htyped.2.1
  obtain ⟨id, d, hclass, rfl, hfield⟩ := hlink.of_field hf
  obtain ⟨ref, rfl⟩ : ∃ ref, v = .object ref := by
    rcases hmade.form hrefers with ⟨_, ref, -, hv⟩ | ⟨_, _, hty, -⟩ | ⟨_, _, hty, -⟩
    · exact ⟨ref, hv⟩
    · rw [hclass] at hty
      cases hty
    · rw [hclass] at hty
      cases hty
  obtain ⟨i, hi⟩ : ∃ i, setting.registry.fieldSlot f = .ok i := by
    rw [hclass] at hcreates
    cases hcreates with
    | classTy _ _ _ _ _ _ hlayout =>
        obtain ⟨i, hi, -⟩ := hfield.slot hruns.ordered hlayout
        exact ⟨i, hi⟩
  have hsize' := hsize.trans hruns.size
  have hfresh : slot ∉ s.pool.live := fun hlive => hspill.spill.2 (hreceiver.retains.live hlive)
  refine ⟨n, k, n₂, n₂'.setLocal slot (.object ref), ref, i, hlocated, hmade, hi,
    hspares.trans (.setLocal hfresh _), by simpa [Memory.setLocal] using hsize, hspill.spilled hsize' _, ?_⟩
  intro stack
  exact (hleads stack).trans (hspill.spillLeads (c := ⟨n₂', a⟩) (hsize' ▸ hspill.spillHolding.2) stack)

end

section

variable {ty : Ty} {used : Bool}
  (hplace : ∀ {p used u}, (Job.ofRoutine setting hR).Emits start (c.expr.toNode.place exit true) s (p, used) u →
    Emission.Houses R.children s u → Chain.Prepared setting R a m c s p u)
  (hhouses : Emission.Houses R.children s t) (hruns : Chain.Runs setting R a m s)

include hplace hhouses hruns

/-- The place of a field. -/
theorem Chain.prepared_field {f : FieldRef}
    (h : (Job.ofRoutine setting hR).Emits start ((c.link (.field f) ty).expr.toNode.place exit true) s
      (p, used) t)
    (htyped : (c.link (.field f) ty).Typed setting.registry)
    (hfits : (c.link (.field f) ty).Fits setting.registry s.site m) :
    Prepared setting R a m (c.link (.field f) ty) s p t := by
  obtain ⟨d, u, hlookup, hcode⟩ := Job.Emits.bind (x := Emit.lookup (·.field f)) h
  obtain ⟨hd, rfl⟩ := hlookup.lookup
  have hlink := htyped.2.2
  have hinstance : d.isStatic = false := by
    obtain ⟨id, d', -, -, hfield⟩ := hlink.of_field rfl
    obtain rfl := Except.ok.inj (hd.symm.trans hfield.declared)
    exact hfield.ofInstances
  rw [hinstance, if_neg Bool.false_ne_true] at hcode
  obtain ⟨node, u, hnode, hcode'⟩ := hcode.bind
  obtain ⟨rfl, rfl⟩ := hnode.pure
  obtain ⟨⟨slot, used'⟩, u', hspill, hdone⟩ := hcode'.bind
  obtain ⟨hp, rfl⟩ := hdone.pure
  cases hp
  obtain ⟨n, k, n₂, n', ref, i, hlocated, hmade, hi, hspares, hsize, htemp, hleads⟩ :=
    spillReceiver hplace hhouses hruns htyped hfits rfl hspill
  exact ⟨rfl, fun _ => rfl, n₂, n', _, .field rfl hlocated hmade hi, hspares, hsize, .field htemp hi, hleads⟩

/-- The place of a property. -/
theorem Chain.prepared_property {q : PropertyRef} {f : FieldRef}
    (h : (Job.ofRoutine setting hR).Emits start ((c.link (.property q f) ty).expr.toNode.place exit true) s
      (p, used) t)
    (htyped : (c.link (.property q f) ty).Typed setting.registry)
    (hfits : (c.link (.property q f) ty).Fits setting.registry s.site m) :
    Prepared setting R a m (c.link (.property q f) ty) s p t := by
  have hlink := htyped.2.2
  obtain ⟨d, u, hlookup, hcode⟩ := Job.Emits.bind (x := Emit.lookup (·.property q)) h
  obtain ⟨hd, rfl⟩ := hlookup.lookup
  have hauto := hlink.auto
  have hkind : d.isStatic = false ∧ d.indexParams = [] := by
    cases hauto with
    | intro hd' hinstance hparams =>
        obtain rfl := Except.ok.inj (hd.symm.trans hd')
        exact ⟨hinstance, hparams⟩
  simp only [hkind.1, hkind.2, List.length_nil, ne_eq, not_true_eq_false, if_false, Bool.false_eq_true] at hcode
  obtain ⟨node, u, hnode, hcode'⟩ := hcode.bind
  obtain ⟨rfl, rfl⟩ := hnode.pure
  obtain ⟨⟨slot, used'⟩, u', hspill, hdone⟩ := hcode'.bind
  obtain ⟨slots, u₁, hslots, hdone⟩ := hdone.bind
  obtain ⟨rfl, rfl⟩ := hslots.pure
  obtain ⟨args, u₂, hargs, hdone⟩ := hdone.bind
  obtain ⟨rfl, rfl⟩ := hargs.pure
  obtain ⟨hp, rfl⟩ := hdone.pure
  cases hp
  obtain ⟨n, k, n₂, n', ref, i, hlocated, hmade, hi, hspares, hsize, htemp, hleads⟩ :=
    spillReceiver hplace hhouses hruns htyped hfits rfl hspill
  exact ⟨rfl, fun _ => rfl, n₂, n', _, .field rfl hlocated hmade hi, hspares, hsize,
    .property hauto htemp hi, hleads⟩

/-- The container of an element is made to reach the index. -/
theorem Chain.grown {w : IndexWord} {kind : PlaceKind} {container index : Nat}
    (htyped : (c.link (.element w) ty).Typed setting.registry)
    (hfits : (c.link (.element w) ty).Fits setting.registry s.site m)
    (hkind : Emit.elementKind? c.ty = some (kind, 1))
    (h : (Job.ofRoutine setting hR).Emits start (Emit.grownElement kind c.expr.toNode w.expr.toNode exit) s
      (container, index, used) t) :
    ∃ n n' cell, (c.link (.element w) ty).Located setting.registry s.site m n cell ∧ n.Spares s n' ∧
      n'.locals.size = m.locals.size ∧
      Place.Denotes setting.registry s.hidden.closureArg? t n' ⟨kind, some container, [index], ty⟩ cell ∧
      (∀ v count, cell.holder = some v → n'.heap.length? v = some count → count < Run.depthLimit) ∧
      ∀ stack, Run.Leads setting.registry R s.position (m.state a stack) t.position (n'.state a stack) := by
  have hlink := htyped.2.2
  obtain ⟨hcontainer, hlow, hhigh⟩ := hlink.of_element
  have hs := h.sound
  obtain ⟨outer, usedOuter, usedIndex, u₁, u₂, u₃, u₄, houter, hoperand, hspill, hmake, htail⟩ :=
    Job.emits_grownElement h
  have hgrows := hoperand.grows.trans (hspill.grows.trans hmake.grows)
  -- The place of the container is prepared, and the index is moved to a temporary.
  obtain ⟨hty, -, n, n₁, k, hlocated, hspares, hsize, hp, hleads⟩ :=
    hplace houter (hhouses.first (hgrows.trans htail.grows))
  obtain ⟨usedValue, u, hvalue, hdone⟩ := hoperand.bind
  obtain ⟨-, rfl⟩ : usedIndex = usedValue ∧ u₂ = u := by
    rw [Expr.toNode_ty] at hdone
    exact hdone.pure
  have hpushed := fun stack => Expr.Reads.leads (m := n₁) (.literal rfl) hvalue a stack
  have hlocals := hsize.trans hruns.size
  have hspilled := hspill.spilled hlocals w.value
  have hmoved := fun stack => hspill.spillLeads (c := ⟨n₁, a⟩) (x := w.value)
    (hlocals ▸ hspill.spillHolding.2) stack
  have hunused : index ∉ u₁.pool.live := fun hlive => hspill.spill.2 (hvalue.retains.live hlive)
  have hspares₁ : n₁.Spares u₁ (n₁.setLocal index w.value) := .setLocal hunused _
  have hp₃ := hp.kept hspares₁.keeps (show u₁ ≤ u₃ by grind)
  -- The value of the place is made.
  have hretains : s ≤ u₃ := by grind
  obtain ⟨hfresh, n₃, n₃', v, hmade, hspares₃, hkeeps, htemp, hsize₃, hrefers, hleads₃⟩ :=
    hlocated.made hruns htyped hfits hs hretains (by grind) hp₃ hty
      (hspares.trans (hspares₁.before houter.retains)) (by simpa [Memory.setLocal] using hsize) hmake
  obtain ⟨count, hheld, hcount⟩ := hmade.container hcontainer hrefers
  obtain ⟨zero, hzero⟩ := htyped.2.1.zero_elem hcontainer
  have hseen := hp₃.seen hs hretains
  have hvalue₃ : n₃'.cell? setting.registry k = some v := (hspares₃.cell? hseen).trans hmade.value
  have hindex := hspilled.kept hkeeps le_rfl
  have hbefore : ∀ stack, Run.Leads setting.registry R s.position (m.state a stack) u₄.position
      (n₃'.state a stack) := fun stack =>
    (hleads stack).trans ((hpushed stack).trans ((hmoved stack).trans (hleads₃ stack)))
  have hhouses₄ : Emission.Houses R.children u₄ t := hhouses.rest (houter.grows.trans hgrows)
  have hclosure : u₄.hidden.closureArg? = s.hidden.closureArg? := by grind
  rcases hmade.form hrefers with ⟨_, _, hclass, -⟩ | ⟨elem, ref, harrayTy, rfl⟩ | ⟨elem, ref, hlistTy, rfl⟩
  · rw [hclass] at hcontainer
    cases hcontainer
  · -- An array: one that reaches the index is put into the place.
    rw [harrayTy] at hcontainer hkind
    cases hcontainer
    cases hkind
    have htail : (Job.ofRoutine setting hR).Emits start (do
        let child ← Emit.helper .ensureArrayLength ty
        Emit.instrs [.loadLocal container, .loadLocal index, .callChild child, .storeLocal container]
        Emit.storePlace outer container) u₄ () t := by
      have helement : c.expr.toNode.ty.element?.getD .object = ty := by
        rw [c.toNode_ty, harrayTy]
        rfl
      rw [← helement]
      exact htail
    obtain ⟨cell, hcell, helem⟩ : ∃ cell, n₃.heap.arrays[ref]? = some cell ∧ cell.elem = ty ∧
        cell.size < Run.depthLimit := by
      cases hheld with
      | array hc helem => exact ⟨_, hc, helem, hcount⟩
    obtain ⟨n₅, n₅', ref', hreached, hspares₅, htemp₅, hindex₅, hleads₅⟩ :=
      (hp₃.kept hkeeps le_rfl).growArray (a := a) htail hspill.sound_after hmake.retains hfresh hclosure
        hhouses₄ hruns.depth htemp hindex hvalue₃ (hspares₃.heap ▸ hcell) helem.2 helem.1 hzero hhigh
    obtain ⟨n₆, hreached₆, hspares₆⟩ := hspares₃.reached hreached
    refine ⟨n₆, n₅', _, .element hlocated hmade hreached₆, hspares₆.trans (hspares₅.before hretains), ?_,
      .array htemp₅ hindex₅ hlow, fun v count hholder hlength => ?_, fun stack =>
        (hbefore stack).trans (hleads₅ stack)⟩
    · rw [hspares₅.size, hreached.size, hsize₃]
    · rw [hspares₅.heap, hspares₆.heap] at hlength
      exact hreached₆.small hmade.value hheld hcount hlow hhigh hholder hlength
  · -- A list is padded.
    rw [hlistTy] at hcontainer hkind hlink
    cases hcontainer
    cases hkind
    have hvoid : ty.isVoid = false := by
      cases hlink
      assumption
    obtain ⟨cell, hcell, helem, hsmall⟩ : ∃ cell, n₃.heap.lists[ref]? = some cell ∧ cell.elem = ty ∧
        cell.items.size < Run.depthLimit := by
      cases hheld with
      | list hc helem => exact ⟨_, hc, helem, hcount⟩
    have hleads₅ := fun stack => Job.Emits.padList (a := a) htail hhouses₄ hruns.depth htemp
      (hindex.later hmake.retains) (hspares₃.heap ▸ hcell) hsmall hzero hlow hhigh stack
    rw [hspares₃.heap, hspares₃.statics] at hleads₅
    have hreached : Memory.Reached setting.registry w n₃ k (.list ref) _ _ :=
      .padded hcell hlow (helem.symm ▸ hzero)
    have hkept : n₃'.Keeps u₄ _ := .shared u₄ n₃'
      (n₃.heap.setItems ref (padded cell.items (w.val.toNat + 1) zero)) n₃.statics
    refine ⟨_, _, _, .element hlocated hmade hreached, hspares₃.shared _ _, hsize₃,
      .list hvoid (htemp.kept hkept htail.retains) ((hindex.later hmake.retains).kept hkept htail.retains) hlow,
      fun v count hholder hlength => ?_, fun stack => (hbefore stack).trans (hleads₅ stack)⟩
    exact hreached.small hmade.value hheld hcount hlow hhigh hholder hlength

/-- The place of an element. -/
theorem Chain.prepared_element {w : IndexWord}
    (h : (Job.ofRoutine setting hR).Emits start ((c.link (.element w) ty).expr.toNode.place exit true) s
      (p, used) t)
    (htyped : (c.link (.element w) ty).Typed setting.registry)
    (hfits : (c.link (.element w) ty).Fits setting.registry s.site m) :
    Prepared setting R a m (c.link (.element w) ty) s p t := by
  have hlink := htyped.2.2
  obtain ⟨hcontainer, hlow, hhigh⟩ := hlink.of_element
  obtain ⟨kind, hkind, hone⟩ : ∃ kind, Emit.elementKind? c.ty = some (kind, 1) ∧
      ∀ elem rank, kind ≠ .mdElem elem rank := by
    cases hty : c.ty <;> rw [hty] at hcontainer <;> cases hcontainer <;> exact ⟨_, rfl, nofun⟩
  obtain ⟨container, index, used', checked, u, hgrown, hcheck, rfl⟩ := Job.emits_elementPlace
    c.expr.toNode (by rw [c.toNode_ty, hkind]) hone (by rw [Expr.toNode_expr, c.isPlace]) h
  obtain ⟨n, n', cell, hlocated, hspares, hsize, hp, hsmall, hleads⟩ :=
    grown hplace (hhouses.first hcheck.grows) hruns htyped hfits hkind hgrown
  have hcourse := hlocated.course hruns.ordered htyped hfits
  have hthere : (n'.cell? setting.registry cell).isSome := by
    rw [hspares.cell? (hp.seen h.sound hgrown.retains)]
    exact hcourse.stage.there
  refine ⟨rfl, fun v => ?_, n, n', cell, hlocated, hspares, hsize, hp.kept (.refl _ _) hcheck.retains,
    fun stack => ?_⟩
  · cases hp <;> rfl
  exact (hleads stack).trans (hp.inBounds hcheck hthere hsmall stack)

end

/-- The code of a chain follows it and creates what is missing. -/
theorem Chain.prepared {used : Bool} (hruns : Runs setting R a m s) (htyped : c.Typed setting.registry)
    (hfits : c.Fits setting.registry s.site m)
    (h : (Job.ofRoutine setting hR).Emits start (c.expr.toNode.place exit true) s (p, used) t)
    (hhouses : Emission.Houses R.children s t) : Prepared setting R a m c s p t := by
  induction c generalizing p used t with
  | root x ty => exact Root.prepared h hruns hfits
  | link c l ty ih =>
      have hplace : ∀ {p used u}, (Job.ofRoutine setting hR).Emits start (c.expr.toNode.place exit true) s
          (p, used) u → Emission.Houses R.children s u → Prepared setting R a m c s p u :=
        fun hcode hhouses => ih htyped.1 hfits.1 hcode hhouses
      cases l with
      | field f => exact prepared_field hplace hhouses hruns h htyped hfits
      | property q f => exact prepared_property hplace hhouses hruns h htyped hfits
      | element w => exact prepared_element hplace hhouses hruns h htyped hfits

end

/-! ## Assignments -/

namespace Chain

/-- What an assignment to a chain leaves.  Off the chain all cells are as before, and only lists on the
chain have grown.  If the chain leads through distinct objects, arrays and lists, then it leads to the
value afterwards, each container that it indexes has become one that reaches the index, with its elements
and zeros behind them, and new objects are zero but for the fields on the chain. -/
structure Landed (r : Registry) (e : Site) (m : Memory) (c : Chain) (x : Value) (n : Memory) : Prop where
  «extends» : m.Extends r (· ∈ c.cells r e m) (c.Through r e m) n
  value : c.Distinct r e m → c.value? r e n = some x
  lengthened : c.Distinct r e m → ∀ (d : Chain) (w : IndexWord) (ty : Ty),
    Within (link d (.element w) ty) c → ∃ v, d.value? r e n = some v ∧
      Memory.Lengthened r ty m n (d.value? r e m) v w.val.toNat
  zeroed : c.Distinct r e m → Memory.Zeroed r m n (c.cells r e n)

/-- Writing the cell that a chain was extended to. -/
theorem Located.landed {r : Registry} {e : Site} {m n : Memory} {c : Chain} {k : Cell} (hord : r.Ordered)
    (hlocated : c.Located r e m n k) (htyped : c.Typed r) (hfits : c.Fits r e m) (x : Value) :
    c.Landed r e m x (n.setCell k x) := by
  have hcourse := hlocated.course hord htyped hfits
  refine ⟨?_, fun hdistinct => ?_, fun hdistinct d w ty hwithin => ?_, fun hdistinct => ?_⟩
  · refine (hcourse.extends.mono (fun _ hk => List.mem_append_left _ hk) fun _ href => href).trans
      (.setCell hcourse.stage.there x) ?_ nofun
    rintro _ rfl hthere
    cases hcourse.stage with
    | intact hcell _ => exact mem_cells hcell
    | zero _ hnone _ _ =>
        rw [hnone] at hthere
        cases hthere
  · exact ((hlocated.path hord htyped hfits hdistinct).written x).2
  · obtain ⟨v, -, hv, -, -, hlengthened⟩ :=
      ((hlocated.path hord htyped hfits hdistinct).written x).1.lengthened d w ty hwithin
    exact ⟨v, hv, hlengthened⟩
  · exact ((hlocated.path hord htyped hfits hdistinct).written x).1.zeroed

end Chain

/-- What an operand without effect evaluates to stays as long as it is no variable that changes. -/
theorem Expr.Reads.later {r : Registry} {scope : Scope} {m n : Memory} {e : Expr} {v : Value}
    {changed : Cell → Prop} {grown : Ref → Prop} (he : e.Reads r scope m v)
    (hextends : m.Extends r changed grown n) :
    ∃ v', e.Reads r scope n v' ∧
      ((∀ id x, e.kind = .parameter id → scope.lookup id = some x → ¬ changed (.var x.1)) → v' = v) := by
  cases he with
  | literal hvalue => exact ⟨_, .literal hvalue, fun _ => rfl⟩
  | null hvoid hzero => exact ⟨_, .null hvoid hzero, fun _ => rfl⟩
  | @«variable» id slot ty ty' v hslot hv =>
      obtain ⟨v', hv'⟩ := Option.isSome_iff_exists.mp
        (hextends.there (.var slot) (by rw [show m.cell? r (.var slot) = some v from hv]; rfl))
      refine ⟨v', .variable hslot hv', fun hoff => ?_⟩
      have hsame := hextends.cells (.var slot) v (hoff id _ rfl hslot) hv
      exact Option.some.inj (hv'.symm.trans hsame)

/-- An operand without effect evaluates to one value. -/
theorem Expr.Reads.unique {r : Registry} {scope : Scope} {m : Memory} {e : Expr} {v w : Value}
    (hv : e.Reads r scope m v) (hw : e.Reads r scope m w) : v = w := by
  cases hv with
  | literal hvalue =>
      cases hw with
      | literal => rfl
      | null => cases hvalue
  | null hvoid hzero =>
      cases hw with
      | literal hvalue => cases hvalue
      | null _ hzero' => exact Except.ok.inj (hzero.symm.trans hzero')
  | «variable» hslot hv =>
      cases hw with
      | «variable» hslot' hw =>
          cases Option.some.inj (hslot.symm.trans hslot')
          exact Option.some.inj (hv.symm.trans hw)

/-- What an operand evaluates to does not depend on temporaries. -/
theorem Expr.Reads.spared {r : Registry} {s : Emission} {m n : Memory} {e : Expr} {v : Value}
    (he : e.Reads r s.scope m v) (hs : s.Sound) (hspares : m.Spares s n) : e.Reads r s.scope n v := by
  cases he with
  | literal hvalue => exact .literal hvalue
  | null hvoid hzero => exact .null hvoid hzero
  | @«variable» id slot ty ty' v hslot hv =>
      refine .variable hslot ?_
      cases slot with
      | arg i => exact (congrArg (·[i]?) hspares.args).trans hv
      | «local» i => exact (hspares.live i (hs.live i (Job.mem_slots_of_lookup hslot))).trans hv

section

variable {setting : Setting} {R : Routine} {hR : R.WithinLimits} {start : Nat} {s t : Emission}
  {m : Memory} {a : Around} {c : Chain} {exit : Option Label}

/-- The code of an assignment to a chain that is extended. -/
theorem Chain.store {value : Expr} {keep : Bool} {emitted : Emitted}
    (h : (Job.ofRoutine setting hR).Emits start (Emit.store c.expr.toNode value.toNode true exit keep) s
      emitted t)
    (hhouses : Emission.Houses R.children s t) (hruns : Runs setting R a m s)
    (htyped : c.Typed setting.registry) (hfits : c.Fits setting.registry s.site m) {v : Value}
    (hvalue : value.Reads setting.registry s.scope m v) :
    emitted.form ≠ .address ∧ (keep = false → emitted.form = .nothing) ∧
      ∃ n k n' x, c.Located setting.registry s.site m n k ∧
      value.Reads setting.registry s.scope n x ∧
      ((n.setCell k (c.kept (Eval.coerced value.ty c.ty x))).Spares s n' ∧ ∀ stack,
        Run.Leads setting.registry R s.position (m.state a stack) t.position
          (n'.state a (if keep then Eval.coerced value.ty c.ty x :: stack else stack))) := by
  have hs := h.sound
  obtain ⟨w, hcode, rfl⟩ := h.released
  obtain ⟨⟨p, usedTarget⟩, u₁, htarget, h₁⟩ := hcode.bind
  obtain ⟨usedValue, u₂, hread, h₂⟩ := h₁.bind
  simp only [↓Job.Emits.seq_iff, Job.Emits.bind_iff, c.toNode_ty, Expr.toNode_ty] at h₂
  obtain ⟨u₃, hcoerce, slot, u₄, hspill, u₅, hstore, hassigned⟩ := h₂
  have hgrows := hread.grows.trans (hcoerce.grows.trans (hspill.grows.trans (hstore.grows.trans
    hassigned.grows)))
  obtain ⟨hty, hkept, n, n₁, k, hlocated, hspares, hsize, hp, hleads⟩ :=
    prepared hruns htyped hfits htarget (.first (t := w) ⟨hhouses.linked, hhouses.children⟩ hgrows)
  have hcourse := hlocated.course hruns.ordered htyped hfits
  obtain ⟨x, hx, -⟩ := hvalue.later hcourse.extends
  -- The value is pushed, brought into the type of the target and moved to a temporary.
  have hpushed := fun stack => Expr.Reads.leads (by
    rw [htarget.grows.scope]
    exact hx.spared hs hspares) hread a stack
  have hcoerced : ∀ stack, Run.Leads setting.registry R u₂.position (n₁.state a (x :: stack)) u₃.position
      (n₁.state a (Eval.coerced value.ty c.ty x :: stack)) := fun stack => by
    rcases hcoerce.coerced with ⟨rfl, hsame⟩ | ⟨i, hi, -, hsteps⟩
    · rw [hsame]
      exact .refl _ _
    · exact hi.goesOn (hsteps n₁ a stack x)
  generalize hy : Eval.coerced value.ty c.ty x = y at hcoerced
  have hlocals := hsize.trans hruns.size
  have hmoved := fun stack => hspill.spillLeads (c := ⟨n₁, a⟩) (x := y)
    (hlocals ▸ hspill.spillHolding.2) stack
  have hfresh : slot ∉ u₁.pool.live := fun hlive =>
    hspill.spill.2 (hcoerce.retains.live (hread.retains.live hlive))
  have hspares₁ : n₁.Spares u₁ (n₁.setLocal slot y) := .setLocal hfresh _
  have hspares₂ := hspares.trans (hspares₁.before htarget.retains)
  -- The temporary is stored in the place.
  have hp₄ := hp.kept hspares₁.keeps (show u₁ ≤ u₄ by grind)
  have htemp := hspill.spilled hlocals y
  have hthere : ((n₁.setLocal slot y).cell? setting.registry k).isSome := by
    rw [hspares₂.cell? (hp₄.seen hs (by grind))]
    exact hcourse.stage.there
  have hstored := fun stack => hp₄.store (a := a) hstore (by grind) hthere htemp stack
  rw [hkept] at hstored
  have htemp₅ := htemp.kept (hp₄.keeps_setCell (c.kept y)) hstore.retains
  have hbefore : ∀ stack, Run.Leads setting.registry R s.position (m.state a stack) u₅.position
      (((n₁.setLocal slot y).setCell k (c.kept y)).state a stack) := fun stack =>
    (hleads stack).trans ((hpushed stack).trans ((hcoerced stack).trans ((hmoved stack).trans
      (hstored stack))))
  have hend : emitted.form ≠ .address ∧ (keep = false → emitted.form = .nothing) ∧ ∀ stack,
      Run.Leads setting.registry R u₅.position (((n₁.setLocal slot y).setCell k (c.kept y)).state a stack)
        w.position (((n₁.setLocal slot y).setCell k (c.kept y)).state a
          (if keep then y :: stack else stack)) := by
    cases keep with
    | true =>
        obtain ⟨⟨⟩, w', hload, hdone⟩ := Job.Emits.bind (x := Emit.instr (.loadLocal slot)) hassigned
        obtain ⟨rfl, rfl⟩ := hdone.pure
        refine ⟨by cases hvoid : c.ty.isVoid <;> simp [Emitted.ofTy, hvoid], (fun h => by cases h),
          fun stack => ?_⟩
        exact hload.goesOn (.loadLocal _ _ _ htemp₅.value)
    | false =>
        obtain ⟨rfl, rfl⟩ := Job.Emits.pure (a := Emitted.nothing _) hassigned
        exact ⟨by simp [Emitted.nothing], fun _ => rfl, fun stack => .refl _ _⟩
  subst hy
  exact ⟨hend.1, hend.2.1, n, k, _, x, hlocated, hx, hspares₂.setCell k _, fun stack =>
    (hbefore stack).trans (hend.2.2 stack)⟩

end

/-- An assignment that extends its target lands.  The target is a chain of instance fields, properties
over fields, and elements of arrays and lists at constant indices, all of types that can be created, from
a variable, a static field or a closure variable; what is found on the way may be missing, and arrays and
lists may be too short.  The value is a constant or a variable, which is read when the chain has been
extended.  The code runs to its end without taking an exit or raising a fault, and what it leaves is
`Landed`; but for locals that are free for other uses, this is all that it changes. -/
theorem extended_assignment_lands {setting : Setting} {R : Routine} (hR : R.WithinLimits) {start : Nat}
    {s t : Emission} {exit : Option Label} {emitted : Emitted} {c : Chain} {value : Expr} {ty : Ty}
    {checked autoExtend : Bool} {shape : Shape}
    (h : (Job.ofRoutine setting hR).Emits start
      ((Expr.node (.assign .assign c.expr (some value) checked autoExtend) ty).toNode.emit exit shape false) s
      emitted t)
    (hextend : autoExtend = true ∨ setting.options.autoExtendAssign = true)
    (hshape : shape = .nothing ∨ shape = .value) (hhouses : Emission.Houses R.children s t) {m : Memory}
    {a : Around} (hruns : Chain.Runs setting R a m s) (htyped : c.Typed setting.registry)
    (hfits : c.Fits setting.registry s.site m) {v : Value}
    (hvalue : value.Reads setting.registry s.scope m v) :
    ∃ n k n' x, c.Located setting.registry s.site m n k ∧ value.Reads setting.registry s.scope n x ∧
      ((∀ id y, value.kind = .parameter id → s.scope.lookup id = some y →
        .var y.1 ∉ c.support setting.registry s.site m) → x = v) ∧
      c.Landed setting.registry s.site m (c.kept (Eval.coerced value.ty c.ty x))
        (n.setCell k (c.kept (Eval.coerced value.ty c.ty x))) ∧
      (n.setCell k (c.kept (Eval.coerced value.ty c.ty x))).Spares s n' ∧
      ∀ stack, Run.Leads setting.registry R s.position (m.state a stack) t.position
        (n'.state a (if shape = .value then Eval.coerced value.ty c.ty x :: stack else stack)) := by
  obtain ⟨e, u, hlayer, hadapt⟩ := Job.Emits.bind h
  obtain ⟨o, u', hoptions, hcode⟩ := Job.Emits.bind (x := Emit.options) hlayer
  obtain ⟨rfl, rfl⟩ := hoptions.options
  have hextended : (autoExtend || (Job.ofRoutine setting hR).setting.options.autoExtendAssign) = true :=
    (Bool.or_eq_true _ _).mpr hextend
  simp only [hextended] at hcode
  have hstore : (Job.ofRoutine setting hR).Emits start
      (Emit.store c.expr.toNode value.toNode true exit (shape ≠ .nothing)) s e u := hcode
  obtain ⟨hform, hnothing, n, k, n', x, hlocated, hx, hspares, hleads⟩ :=
    Chain.store hstore (hhouses.first hadapt.grows) hruns htyped hfits hvalue
  have hcourse := hlocated.course hruns.ordered htyped hfits
  refine ⟨n, k, n', x, hlocated, hx, fun hoff => ?_,
    hlocated.landed hruns.ordered htyped hfits _, hspares, fun stack => ?_⟩
  · obtain ⟨x', hx', hsame⟩ := hvalue.later hcourse.extends
    exact (hx.unique hx').trans (hsame hoff)
  · -- The result has the requested shape already.
    have hend : t = u := by
      rcases hshape with rfl | rfl
      · simp only [Emit.adapt, hnothing rfl] at hadapt
        exact hadapt.pure.2
      · cases hkind : e.form with
        | address => exact absurd hkind hform
        | nothing | value =>
          simp only [Emit.adapt, hkind] at hadapt
          exact hadapt.pure.2
    rw [hend]
    rcases hshape with rfl | rfl <;> exact hleads stack

/-- Shelves are instances of a class with a list. -/
def shelfRegistry : Registry :=
  (Registry.builtin.defineClass "Shelf" none).addField Registry.builtin.size ⟨"items", .list .int, false⟩

/-- The items of a shelf that is a parameter. -/
def shelfItems : Chain :=
  .link (.root (.variable 0) (.classTy Registry.builtin.size)) (.field ⟨Registry.builtin.size, 0⟩) (.list .int)

/-- The third item. -/
def thirdItem : Chain := .link shelfItems (.element ⟨2, by decide, by decide⟩) .int

/-- A constant. -/
def five : Expr := .node (.constant (.num (.i32 5))) .int

/-- The third item becomes five. -/
def thirdItemSet : Node :=
  (Expr.node (.assign .assign thirdItem.expr (some five) false true) .void).toNode

/-- Before the code of a method with the parameter. -/
def beforeShelf : Emission := beforeCode "shelf" [⟨0, "shelf", .classTy Registry.builtin.size⟩] .void

/-- The parameter is null, and nothing has been created. -/
def noShelf (R : Routine) : Memory := ⟨.empty, [], #[.null], Array.replicate R.locals.size .null⟩

/-- The assignment makes a shelf and a list, and the list gets three items. -/
theorem extended_assignment_fills_shelf :
    ∃ (R : Routine) (hR : R.WithinLimits) (e : Emitted) (t : Emission),
      (Job.ofRoutine ⟨shelfRegistry, .default⟩ hR).Emits 0 (thirdItemSet.emit none .nothing false)
        beforeShelf e t ∧
      ∀ a : Around, a.outer.length + 1 < Run.maxCallDepth → ∃ (n n' : Memory) (items : Value),
        shelfItems.value? shelfRegistry beforeShelf.site n = some items ∧
        n.heap.length? items = some 3 ∧
        thirdItem.value? shelfRegistry beforeShelf.site n = some (.num (.i32 5)) ∧
        n.Spares beforeShelf n' ∧ ∀ stack,
          Run.Leads shelfRegistry R beforeShelf.position ((noShelf R).state a stack) t.position
            (n'.state a stack) := by
  obtain ⟨e, t, R, hrun, hfinish, hR⟩ := Emit.exists_of_compiles
    (show (thirdItemSet.emit none .nothing false).compiles ⟨shelfRegistry, .default⟩ beforeShelf = true by
      decide +kernel)
  have h : (Job.ofRoutine ⟨shelfRegistry, .default⟩ hR).Emits 0 (thirdItemSet.emit none .nothing false)
      beforeShelf e t := .ofFinish hrun (sound_beforeCode _ _ _) hfinish
  refine ⟨R, hR, e, t, h, fun a hdepth => ?_⟩
  have hhouses : Emission.Houses R.children beforeShelf t := by
    refine ⟨⟨nofun, nofun⟩, ?_⟩
    rw [Builder.children_of_finish hfinish]
  have hordered : shelfRegistry.Ordered := Registry.ordered_of_ofDefinitions
    (show Registry.ofDefinitions [.classType "Shelf" none,
      .field Registry.builtin.size ⟨"items", .list .int, false⟩] = some shelfRegistry from rfl)
  have hruns : Chain.Runs ⟨shelfRegistry, .default⟩ R a (noShelf R) beforeShelf :=
    ⟨hordered, hdepth, Array.size_replicate, nofun⟩
  have hclass : shelfRegistry.Creates (.classTy Registry.builtin.size) :=
    .classTy (i := 0) (d := Registry.implicitCtor) (by decide +kernel) rfl rfl rfl rfl rfl
      (show shelfRegistry.layout Registry.builtin.size = .ok [.list .int] by decide +kernel)
      (show [Ty.list .int].mapM shelfRegistry.zero = .ok [.null] from rfl)
  have hlist : shelfRegistry.Creates (.list .int) := .list rfl
  have htyped : thirdItem.Typed shelfRegistry := by
    refine ⟨⟨trivial, hclass, ?_⟩, hlist, .list (by decide) (by decide) rfl⟩
    exact .field (d := ⟨"items", .list .int, false⟩) ⟨by decide +kernel, rfl, rfl⟩
  have hfits : thirdItem.Fits shelfRegistry beforeShelf.site (noShelf R) := by
    refine ⟨⟨⟨.var (.arg 0), rfl, rfl, nofun, nofun⟩, ?_⟩, nofun⟩
    rintro v ⟨⟩
    exact .inl rfl
  obtain ⟨n, k, n', x, -, hx, -, hlanded, hspares, hleads⟩ :=
    extended_assignment_lands hR (c := thirdItem) h (.inl rfl) (.inl rfl) hhouses hruns htyped
      hfits (.literal rfl)
  have hdistinct : thirdItem.Distinct shelfRegistry beforeShelf.site (noShelf R) := List.nodup_singleton _
  obtain ⟨items, hitems, hlength⟩ := hlanded.lengthened hdistinct _ _ _ .refl
  obtain rfl := hx.unique (.literal rfl)
  exact ⟨_, n', items, hitems, hlength.length, hlanded.value hdistinct, hspares, hleads⟩
end Arbor
