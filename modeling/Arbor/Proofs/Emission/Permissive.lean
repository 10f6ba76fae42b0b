/-
  Policies for whole trees.

  Most layers keep every policy.  The others use labels of the tree, open protected
  blocks or nest functions.  A policy that says which labels of the tree may be
  used covers the first; a permissive policy lets emitters open protected blocks
  without more ado.
-/
import Arbor.Proofs.Emission.Layers

set_option autoImplicit false

namespace Arbor

/-- Labels of the kind of a region. -/
def RegionKind.labels : RegionKind Label → List Label
  | .filter l => [l]
  | .catch _ | .finally | .fault => []

/-- Labels that a layer jumps to. -/
def ExprKind.jumpTargets {α : Type} : ExprKind α → List LabelTarget
  | goto _ target _ => [target]
  | _ => []

/-- Labels of a region. -/
def Region.labels (g : Region Label) : List Label :=
  [g.tryStart, g.tryEnd, g.handlerStart, g.handlerEnd] ++ g.kind.labels

namespace Emit

/-- What the parts of a protected block share may be named. -/
structure ProtectedBlock.Among (P : Policy) (own : List Label) (p : ProtectedBlock) : Prop where
  result : ∀ slot, p.result = some slot → P.Slot slot
  depth : P.Slot p.depth
  bodyStart : p.bodyStart ∈ own
  bodyEnd : p.bodyEnd ∈ own
  done : p.done ∈ own

theorem ProtectedBlock.Among.lend {P : Policy} {own own' : List Label} {p : ProtectedBlock}
    (hp : p.Among P own) (h : ∀ l ∈ own, l ∈ own') : p.Among P own' :=
  ⟨hp.result, hp.depth, h _ hp.bodyStart, h _ hp.bodyEnd, h _ hp.done⟩

/-- The policy allows what layers with labels of the tree do beyond the others, where these are `named`
ones.  Such labels are not lent: they are marked, and jumped to where jumps are allowed; one that has
just been marked is lent to what follows. -/
structure Policy.LabelledBy (P : Policy) (tree : Label → Prop) (jumps : Prop)
    (named : LabelId → Prop) : Prop where
  labelInfo : ∀ {own : List Label} {exit : Option Label} {id : LabelId}, named id →
    P.Yields own exit (labelInfo id) fun info =>
      tree info.label ∧ ∀ n, info.valueSlot = some n → P.Slot n
  mark : ∀ {own : List Label} {exit : Option Label} {l : Label}, tree l → P.Ok own exit (Emit.mark l)
  jumpTo : ∀ {own : List Label} {exit : Option Label} {info : LabelInfo}, jumps →
    tree info.label → P.Ok own exit (Emit.jumpTo info)
  marked : ∀ {own : List Label} {exit : Option Label} {l : Label} {x : Emit Emitted}, tree l →
    P.Ok (l :: own) exit x → P.Ok own exit (Emit.mark l >>= fun _ => x)

/-- The policy allows what layers with labels of the tree do beyond the others. -/
abbrev Policy.Labelled (P : Policy) (tree : Label → Prop) (jumps : Prop) : Prop :=
  P.LabelledBy tree jumps fun _ => True

/-- The policy lets emitters open protected blocks. -/
structure Policy.Permissive (P : Policy) : Prop where
  inRegion : ∀ {own : List Label} {exit : Option Label} {x : Emit Unit},
    P.Ok own exit x → P.Ok own exit (inRegion x)
  addRegion : ∀ {own : List Label} {exit : Option Label} {g : Region Label},
    (∀ l ∈ g.labels, l ∈ own) → P.Slot g.stackMark → P.Ok own exit (addRegion g)

namespace Policy

variable {P : Policy} {own : List Label} {exit : Option Label} {ty : Ty}

/-! ## Labels of the tree -/

section

variable {tree : Label → Prop} {jumps : Prop} {named : LabelId → Prop}

/-- Named labels of the tree may be used where they may be lent to anyone. -/
theorem LabelledBy.of_lent
    (hinfo : ∀ {own : List Label} {exit : Option Label} {id : LabelId}, named id →
      P.Yields own exit (Emit.labelInfo id) fun info =>
        tree info.label ∧ ∀ n, info.valueSlot = some n → P.Slot n)
    (hlent : ∀ {α : Type} {own : List Label} {exit : Option Label} {l : Label} {x : Emit α}, tree l →
      P.Ok (l :: own) exit x → P.Ok own exit x) : P.LabelledBy tree True named where
  labelInfo := hinfo
  mark hl := hlent hl (P.mark List.mem_cons_self)
  jumpTo _ hl := hlent hl <| seq (P.read fun _ _ _ => rfl) fun _ =>
    ite (test ⟨rfl, rfl, rfl, rfl⟩ rfl List.mem_cons_self) (jump List.mem_cons_self)
  marked hl hx := hlent hl (seq (P.mark List.mem_cons_self) fun _ => hx)

/-- Labels of the tree may be used where they may be lent to anyone. -/
theorem Labelled.of_lent
    (hinfo : ∀ {own : List Label} {exit : Option Label} {id : LabelId},
      P.Yields own exit (Emit.labelInfo id) fun info =>
        tree info.label ∧ ∀ n, info.valueSlot = some n → P.Slot n)
    (hlent : ∀ {α : Type} {own : List Label} {exit : Option Label} {l : Label} {x : Emit α}, tree l →
      P.Ok (l :: own) exit x → P.Ok own exit x) : P.Labelled tree True :=
  LabelledBy.of_lent (fun _ => hinfo) hlent

end

namespace LabelledBy

variable {tree : Label → Prop} {jumps : Prop} {named : LabelId → Prop}
  (hP : P.LabelledBy tree jumps named)

theorem labelValue {info : LabelInfo} (hslot : ∀ n, info.valueSlot = some n → P.Slot n) :
    P.Ok own exit (labelValue info) := by
  unfold Emit.labelValue
  split
  · next slot hvalue => exact seq (loadLocal (hslot slot hvalue)) fun _ => done
  · exact done

include hP

/-- A jump of the tree. -/
theorem goto {target : LabelTarget} {value : Option Node} (hnamed : named target.id) (hjumps : jumps)
    (hvalue : ∀ n ∈ value.toList, n.Keeps P) : P.Ok own exit (goto target value) := by
  refine after (hP.labelInfo hnamed) fun info hinfo => ?_
  have hjump : ∀ {own : List Label}, P.Ok own exit (do
      Emit.jumpTo info
      Pure.pure (Emitted.nothing false)) := seq (hP.jumpTo hjumps hinfo.1) fun _ => done
  cases value with
  | some v =>
      refine seq (hvalue v List.mem_cons_self).guarded fun _ => ?_
      split
      · next slot hsome =>
          exact seq wrapIf fun _ => seq (storeLocal (hinfo.2 slot hsome)) fun _ => hjump
      · exact ite hjump (seq (bare rfl) fun _ => hjump)
  | none => exact ite hjump (seq tyText fun _ => seq (P.fail nofun) fun _ => hjump)

/-- A label of the tree. -/
theorem label {target : LabelTarget} {default : Option Node} (hnamed : named target.id)
    (hdefault : ∀ n ∈ default.toList, n.Keeps P) : P.Ok own exit (Emit.label target default) := by
  refine after (hP.labelInfo hnamed) fun info hinfo => ?_
  have hmark : ∀ {own : List Label}, P.Ok own exit (do
      Emit.mark info.label
      Emit.labelValue info) := seq (hP.mark hinfo.1) fun _ => labelValue hinfo.2
  dsimp only
  split
  · next slot d hsome =>
      exact seq (hdefault d List.mem_cons_self).guarded fun _ => seq wrapIf fun _ =>
        seq (storeLocal (hinfo.2 slot hsome)) fun _ => hmark
  · next slot hsome =>
      exact seq pushDefault fun _ => seq (storeLocal (hinfo.2 slot hsome)) fun _ => hmark
  · next d _ => exact seq (hdefault d List.mem_cons_self).guarded fun _ => hmark
  · exact hmark

/-- A loop. -/
theorem loop {body : Node} (hbody : body.Keeps P) {breakLabel continueLabel : Option LabelTarget}
    (hnamed : ∀ target ∈ breakLabel.toList ++ continueLabel.toList, named target.id) :
    P.Ok own exit (loop body breakLabel continueLabel ty) := by
  obtain ⟨hbreak, hcontinue⟩ := List.forall_mem_append.mp hnamed
  have hrest : ∀ {last : Emit Emitted}, (∀ {own : List Label}, P.Ok own exit last) →
      ∀ {own : List Label} {start : Label}, start ∈ own → P.Ok own exit (do
        Emit.statement body
        Emit.instr (.jump start)
        last) := fun hlast _ _ hstart =>
    seq (statement hbody) fun _ => seq (jump hstart) fun _ => hlast
  have hfinish : ∀ {own : List Label} {target : LabelTarget}, named target.id → P.Ok own exit (do
      let info ← Emit.labelInfo target.id
      Emit.mark info.label
      Emit.labelValue info) := fun hnamed =>
    after (hP.labelInfo hnamed) fun _ hinfo => seq (hP.mark hinfo.1) fun _ => labelValue hinfo.2
  have hdefault : ∀ {own : List Label}, P.Ok own exit (do
      Emit.pushDefault ty
      Pure.pure (Emitted.ofTy ty false)) := seq pushDefault fun _ => done
  cases continueLabel with
  | some target =>
      have hstart : P.Yields own exit ((·.label) <$> Emit.labelInfo target.id) tree :=
        after (hP.labelInfo (hcontinue target List.mem_cons_self)) fun _ hinfo => give hinfo.1
      refine after hstart fun start htree => hP.marked htree ?_
      cases breakLabel with
      | some target => exact hrest (hfinish (hbreak target List.mem_cons_self)) List.mem_cons_self
      | none => exact hrest hdefault List.mem_cons_self
  | none =>
      refine Policy.label fun start => seq (P.mark List.mem_cons_self) fun _ => ?_
      cases breakLabel with
      | some target => exact hrest (hfinish (hbreak target List.mem_cons_self)) List.mem_cons_self
      | none => exact hrest hdefault List.mem_cons_self

end LabelledBy

/-! ## Nested functions -/

/-- A function that cannot be packaged has too many parameters or captured values. -/
theorem ordinary_of_package {captured : Nat} {params : List Ty} {ret : Ty} {e : CompileError}
    (h : InvokerShape.of captured params ret = .error e) : e.IsOrdinary := by
  unfold InvokerShape.of at h
  split at h
  · cases h
    exact CompileError.isOrdinary_notSupported _
  · split at h <;> cases h
    exact CompileError.isOrdinary_notSupported _

/-- A nested function as a value, where all instructions are allowed. -/
theorem function (hP : P.Loose) (hargs : ∀ t n, P.Table t n → P.Arg n) {l : Lambda Node}
    (hunit : ∀ {own : List Label} {exit : Option Label},
      P.Yields own exit (nestedUnit l) P.Child) : P.Ok own exit (function l) := by
  have hload : ∀ {own : List Label} {arg : Option Nat}, (∀ n, arg = some n → P.Arg n) →
      P.Ok own exit (Emit.instrs (arg.toList.map Instr.loadArg)) := by
    intro own arg harg
    cases arg with
    | none => exact nil
    | some n => exact cons (loadArg (harg n rfl)) nil
  refine after P.hiddenParams fun hidden htables => ite (P.fail nofun) ?_
  split
  · next herror => exact P.fail (ordinary_of_package herror)
  · next package _ =>
      refine after hunit fun child hchild => ?_
      have hfunction : P.Ok own exit (Emit.instr (.loadFunction child)) := by
        refine hP rfl rfl ⟨?_, ?_, ?_, ?_⟩
        · simp [Instr.labels]
        · simp [Instr.slots]
        · simp [Instr.args]
        · simpa [Instr.children] using hchild
      have hend : P.Ok own exit (do
          Emit.instrs [.loadFunction child, .newInvoker package.captured]
          Pure.pure (Emitted.ofTy package.ty false)) :=
        seq (cons hfunction (cons (Rules.Loose.bare hP ⟨rfl, rfl⟩) nil)) fun _ => done
      have hconstants := fun n hn => hargs _ n (htables .constants n hn)
      have hclosure := fun n hn => hargs _ n (htables .closure n hn)
      exact ite (seq (hload hconstants) fun _ => ite (seq (hload hclosure) fun _ => hend) hend)
        (ite (seq (hload hclosure) fun _ => hend) hend)

/-! ## Protected blocks -/

theorem blockValue {result : Option Nat} (hresult : ∀ slot, result = some slot → P.Slot slot) :
    P.Ok own exit (match result with
      | some slot => do
          Emit.instr (.loadLocal slot)
          Pure.pure (Emitted.ofTy ty false)
      | none => Pure.pure (Emitted.ofTy ty false)) := by
  cases result with
  | some slot => exact seq (loadLocal (hresult slot rfl)) fun _ => done
  | none => exact done

/-- A protected block keeps the policy if its regions do, whatever is emitted behind them. -/
theorem tryCatch {body : Node} {handlers : List (CatchBlock Node)}
    {finallyBlock faultBlock : Option Node}
    (hblock : ∀ {result : Option Nat} {depth : Nat} {rest : Emit Emitted},
      (∀ slot, result = some slot → P.Slot slot) → P.Slot depth →
      (∀ own : List Label, P.Ok own exit rest) → P.Ok own exit (do
        let bodyStart ← Emit.newLabel
        let bodyEnd ← Emit.newLabel
        let done ← Emit.newLabel
        Emit.instr (.markStack depth)
        Emit.mark bodyStart
        Emit.regions body handlers finallyBlock faultBlock ⟨ty, result, depth, bodyStart, bodyEnd, done⟩
        Emit.mark done
        rest)) :
    P.Ok own exit (tryCatch body handlers finallyBlock faultBlock ty) := by
  have hsection : P.Ok own exit (Emit.withTemps (do
      let result ← if ty.isVoid then Pure.pure none else some <$> Emit.temp ty
      let depth ← Emit.temp .int
      let bodyStart ← Emit.newLabel
      let bodyEnd ← Emit.newLabel
      let done ← Emit.newLabel
      Emit.instr (.markStack depth)
      Emit.mark bodyStart
      Emit.regions body handlers finallyBlock faultBlock ⟨ty, result, depth, bodyStart, bodyEnd, done⟩
      Emit.mark done
      match result with
      | some slot => do
          Emit.instr (.loadLocal slot)
          Pure.pure (Emitted.ofTy ty false)
      | none => Pure.pure (Emitted.ofTy ty false))) := by
    refine P.withTemps ?_
    dsimp only
    split
    · have hnone : ∀ slot, (none : Option Nat) = some slot → P.Slot slot := fun _ h => nomatch h
      exact after (give hnone) fun _ hresult => after P.temp fun _ hdepth =>
        hblock hresult hdepth fun _ => blockValue hresult
    · have hsome : P.Yields own exit (some <$> Emit.temp ty) fun result =>
          ∀ slot, result = some slot → P.Slot slot := by
        refine after P.temp fun slot hslot => give fun _ h => ?_
        cases h
        exact hslot
      exact after hsome fun _ hresult => after P.temp fun _ hdepth =>
        hblock hresult hdepth fun _ => blockValue hresult
  refine seq (forM fun _ _ => checkHandler) fun _ => ?_
  dsimp only
  split
  · exact seq checkBranch fun _ => seq (forM fun _ _ => checkBranch) fun _ => hsection
  · exact hsection

namespace Permissive

variable {p : ProtectedBlock} (hP : P.Permissive)

include hP

/-- A handler behind its filter. -/
theorem handlerBlock {h : CatchBlock Node} (hbody : h.body.Keeps P) (hp : p.Among P own)
    {kind : RegionKind Label} (hkind : ∀ l ∈ kind.labels, l ∈ own) :
    P.Ok own exit (do
      let handlerStart ← Emit.newLabel
      let handlerEnd ← Emit.newLabel
      Emit.mark handlerStart
      Emit.storeException h.binder
      Emit.protectedPart h.body p
      Emit.instr (.leave p.done)
      Emit.mark handlerEnd
      Emit.addRegion ⟨p.bodyStart, p.bodyEnd, handlerStart, handlerEnd, kind, p.depth⟩) := by
  refine Policy.label fun start => Policy.label fun finish => ?_
  have hp : p.Among P (finish :: start :: own) := hp.lend (by simp +contextual)
  refine seq (P.mark (by simp)) fun _ => seq storeException fun _ =>
    seq (protectedPart hbody hp.result) fun _ => seq (test ⟨rfl, rfl, rfl, rfl⟩ rfl hp.done) fun _ =>
    seq (P.mark (by simp)) fun _ => hP.addRegion ?_ hp.depth
  intro l hl
  simp only [Region.labels, List.mem_append, List.mem_cons, List.not_mem_nil, or_false] at hl
  rcases hl with (rfl | rfl | rfl | rfl) | hl
  · exact hp.bodyStart
  · exact hp.bodyEnd
  · simp
  · simp
  · simp [hkind l hl]

/-- A handler with its filter. -/
theorem handler {h : CatchBlock Node} (hbody : h.body.Keeps P)
    (hfilter : ∀ n ∈ h.filter.toList, n.Keeps P) (hp : p.Among P own) :
    P.Ok own exit (handler h p) := by
  refine P.withLocals ?_
  dsimp only
  split
  · next filter hsome =>
      refine Policy.label fun start => seq (P.mark (by simp)) fun _ => seq storeException fun _ =>
        seq (hfilter filter (by simp [hsome])).guarded fun _ => ?_
      have hp : p.Among P (start :: own) := hp.lend (by simp +contextual)
      have hkind : ∀ l ∈ (RegionKind.filter start).labels, l ∈ start :: own :=
        List.forall_mem_singleton.mpr List.mem_cons_self
      exact ite (seq (bare rfl) fun _ => seq (bare rfl) fun _ => hP.handlerBlock hbody hp hkind)
        (seq (bare rfl) fun _ => hP.handlerBlock hbody hp hkind)
  · exact hP.handlerBlock hbody hp fun _ hl => absurd hl List.not_mem_nil

/-- A finally or fault block. -/
theorem unwindBlock {block : Node} (hblock : block.Keeps P) {kind : RegionKind Label}
    (hkind : kind.labels = []) {coveredEnd : Label} (hcovered : coveredEnd ∈ own)
    (hp : p.Among P own) :
    P.Holds own exit (unwindBlock block kind coveredEnd p) (fun l => [l]) fun _ => True := by
  refine Policy.label fun start => Policy.label fun finish => ?_
  have hp : p.Among P (finish :: start :: own) := hp.lend (by simp +contextual)
  refine seq (P.mark (by simp)) fun _ => seq hblock.guarded fun _ => seq (bare rfl) fun _ =>
    seq (P.mark (by simp)) fun _ => seq (hP.addRegion ?_ hp.depth) fun _ => P.pure trivial (by simp)
  intro l hl
  simp only [Region.labels, hkind, List.append_nil, List.mem_cons, List.not_mem_nil, or_false] at hl
  rcases hl with rfl | rfl | rfl | rfl
  · exact hp.bodyStart
  · simp [hcovered]
  · simp
  · simp

/-- The regions of a protected block. -/
theorem regions {body : Node} (hbody : body.Keeps P) {handlers : List (CatchBlock Node)}
    (hhandlers : ∀ h ∈ handlers, h.body.Keeps P ∧ ∀ n ∈ h.filter.toList, n.Keeps P)
    {finallyBlock faultBlock : Option Node} (hfinally : ∀ n ∈ finallyBlock.toList, n.Keeps P)
    (hfault : ∀ n ∈ faultBlock.toList, n.Keeps P) (hp : p.Among P own) :
    P.Ok own exit (regions body handlers finallyBlock faultBlock p) := by
  refine hP.inRegion (seq (protectedPart hbody hp.result) fun _ =>
    seq (test ⟨rfl, rfl, rfl, rfl⟩ rfl hp.done) fun _ => seq (P.mark hp.bodyEnd) fun _ =>
    seq (forM fun h hh => hP.handler (hhandlers h hh).1 (hhandlers h hh).2 hp) fun _ =>
    Policy.label fun handlersEnd => seq (P.mark (by simp)) fun _ => ?_)
  have hp : p.Among P (handlersEnd :: own) := hp.lend (by simp +contextual)
  have hlast : ∀ {own : List Label} {coveredEnd : Label} {block : Node}, block.Keeps P →
      coveredEnd ∈ own → p.Among P own →
      P.Ok own exit (Emit.unwindBlock block .finally coveredEnd p >>= fun _ => Pure.pure ()) :=
    fun hblock hcovered hp => P.bind (hP.unwindBlock hblock rfl hcovered hp) fun _ _ => done
  cases faultBlock with
  | some block =>
      refine P.bind (hP.unwindBlock (hfault block List.mem_cons_self) rfl (by simp) hp)
        fun coveredEnd _ => ?_
      cases finallyBlock with
      | some block =>
          exact hlast (hfinally block List.mem_cons_self) (by simp) (hp.lend (by simp +contextual))
      | none => exact done
  | none =>
      cases finallyBlock with
      | some block => exact hlast (hfinally block List.mem_cons_self) List.mem_cons_self hp
      | none => exact done

theorem tryCatch {body : Node} (hbody : body.Keeps P) {handlers : List (CatchBlock Node)}
    (hhandlers : ∀ h ∈ handlers, h.body.Keeps P ∧ ∀ n ∈ h.filter.toList, n.Keeps P)
    {finallyBlock faultBlock : Option Node} (hfinally : ∀ n ∈ finallyBlock.toList, n.Keeps P)
    (hfault : ∀ n ∈ faultBlock.toList, n.Keeps P) :
    P.Ok own exit (Emit.tryCatch body handlers finallyBlock faultBlock ty) := by
  refine Policy.tryCatch fun hresult hdepth hrest => ?_
  refine Policy.label fun bodyStart => Policy.label fun bodyEnd => Policy.label fun finish => ?_
  exact seq (slotted hdepth ⟨rfl, rfl, rfl, rfl, rfl⟩) fun _ => seq (P.mark (by simp)) fun _ =>
    seq (hP.regions hbody hhandlers hfinally hfault ⟨hresult, hdepth, by simp, by simp, by simp⟩)
      fun _ => seq (P.mark (by simp)) fun _ => hrest _

end Permissive

/-! ## Trees -/

/-- A protected block keeps the policy if its parts do. -/
def Protects (P : Policy) (body : Node) (handlers : List (CatchBlock Node))
    (finallyBlock faultBlock : Option Node) (ty : Ty) : Prop :=
  body.Keeps P → (∀ h ∈ handlers, h.body.Keeps P ∧ ∀ n ∈ h.filter.toList, n.Keeps P) →
    (∀ n ∈ finallyBlock.toList, n.Keeps P) → (∀ n ∈ faultBlock.toList, n.Keeps P) →
      ∀ own exit, P.Ok own exit (Emit.tryCatch body handlers finallyBlock faultBlock ty)

theorem Permissive.protects (hP : P.Permissive) (body : Node) (handlers : List (CatchBlock Node))
    (finallyBlock faultBlock : Option Node) : P.Protects body handlers finallyBlock faultBlock ty :=
  fun hbody hhandlers hfinally hfault _ _ => hP.tryCatch hbody hhandlers hfinally hfault

/-- A layer keeps the policy if its operands do, also as a place.  Its labels have to be named ones,
jumps have to be allowed, and protected blocks and nested functions to keep the policy as well. -/
theorem LabelledBy.node {tree : Label → Prop} {jumps : Prop} {named : LabelId → Prop}
    (hP : P.LabelledBy tree jumps named) {k : ExprKind Expr}
    (hnamed : ∀ target ∈ k.ownTargets ++ k.jumpTargets, named target.id)
    (hfit : P.Fit (Expr.node k ty).toNode) (hk : ∀ e ∈ k.children, e.toNode.Keeps P)
    (hjumps : ∀ kind target value, k = .goto kind target value → jumps)
    (htry : ∀ body handlers finallyBlock faultBlock,
      k = .tryCatch body handlers finallyBlock faultBlock →
        P.Protects body.toNode (handlers.map (CatchBlock.map Expr.toNode))
          (finallyBlock.map Expr.toNode) (faultBlock.map Expr.toNode) ty)
    (hfunction : ∀ l, k = .lambda l → ∀ {own : List Label} {exit : Option Label},
      P.Ok own exit (Emit.function (l.map Expr.toNode))) :
    (Expr.node k ty).toNode.Keeps P := by
  have hnodes : ∀ n ∈ (k.map Expr.toNode).children, n.Keeps P := by
    rw [ExprKind.children_map]
    exact List.forall_mem_map.mpr hk
  have hoption : ∀ {o : Option Expr}, (∀ e ∈ o.toList, e.toNode.Keeps P) →
      ∀ n ∈ (o.map Expr.toNode).toList, n.Keeps P := by
    intro o h
    rw [Option.toList_map]
    exact List.forall_mem_map.mpr h
  have hplace : ∀ own exit extend, P.Yields own exit
      (Emit.placeOf (k.map Expr.toNode) ty exit extend) fun r => r.1.Fits P :=
    fun _ _ _ => placeOf hnodes
  have hshapes : ∀ n ∈ (k.map Expr.toNode).children, FitsShapes n := by
    rw [ExprKind.children_map]
    exact List.forall_mem_map.mpr fun e _ => fitsShapes_toNode e
  rw [Expr.toNode_node] at hfit ⊢
  refine keeps_ofKind hfit hplace fun own exit shape => ?_
  -- A variable may leave an address that is not wanted; the other layers do not.
  by_cases hvar : ∃ id, k = .parameter id
  · obtain ⟨id, rfl⟩ := hvar
    exact P.shapedVariable id ty shape
  refine settled ?_ (fitting_layer hshapes fun id hid => hvar ⟨id, ?_⟩)
  case refine_2 => cases k <;> cases hid; rfl
  cases k with
  | loop body breakLabel continueLabel =>
      exact hP.loop (hk body List.mem_cons_self) (List.forall_mem_append.mp hnamed).1
  | tryCatch body handlers finallyBlock faultBlock =>
      obtain ⟨hrest, hfault⟩ := List.forall_mem_append.mp hk
      obtain ⟨hrest, hfinally⟩ := List.forall_mem_append.mp hrest
      obtain ⟨hbody, hhandlers⟩ := List.forall_mem_cons.mp hrest
      refine htry body handlers finallyBlock faultBlock rfl hbody ?_ (hoption hfinally)
        (hoption hfault) own exit
      refine List.forall_mem_map.mpr fun c hc => ?_
      have hhandler : ∀ e ∈ c.filter.toList ++ [c.body], e.toNode.Keeps P :=
        fun e he => hhandlers e (List.mem_flatMap.mpr ⟨c, hc, he⟩)
      obtain ⟨hfilter, hbody⟩ := List.forall_mem_append.mp hhandler
      exact ⟨hbody c.body List.mem_cons_self, hoption hfilter⟩
  | lambda l => exact hfunction l rfl
  | goto kind target value =>
      exact hP.goto (hnamed target List.mem_cons_self) (hjumps kind target value rfl) (hoption hk)
  | label target value => exact hP.label (hnamed target List.mem_cons_self) (hoption hk)
  | _ => exact layer rfl hnodes hplace

/-- So it does where labels of every number may be used. -/
theorem Labelled.node {tree : Label → Prop} {jumps : Prop} (hP : P.Labelled tree jumps)
    {k : ExprKind Expr} (hfit : P.Fit (Expr.node k ty).toNode)
    (hk : ∀ e ∈ k.children, e.toNode.Keeps P)
    (hjumps : ∀ kind target value, k = .goto kind target value → jumps)
    (htry : ∀ body handlers finallyBlock faultBlock,
      k = .tryCatch body handlers finallyBlock faultBlock →
        P.Protects body.toNode (handlers.map (CatchBlock.map Expr.toNode))
          (finallyBlock.map Expr.toNode) (faultBlock.map Expr.toNode) ty)
    (hfunction : ∀ l, k = .lambda l → ∀ {own : List Label} {exit : Option Label},
      P.Ok own exit (Emit.function (l.map Expr.toNode))) :
    (Expr.node k ty).toNode.Keeps P :=
  LabelledBy.node hP (fun _ _ => trivial) hfit hk hjumps htry hfunction

end Policy

end Emit

end Arbor
