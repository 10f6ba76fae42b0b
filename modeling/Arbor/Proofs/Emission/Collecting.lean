/-
  The labels of a function are collected.

  Before its body is emitted, a function makes its labels known: those that occur in
  it, outside of nested functions.  That always succeeds, and what is known of a
  label afterwards is its type, whether a local takes the value of jumps, and the
  number of protected regions that the tree puts around it.
-/
import Arbor.Proofs.Emission.Units

set_option autoImplicit false

namespace Arbor

/-! ## Labels of a tree -/

/-- The labels of a tree are those that its parts define themselves. -/
theorem Expr.exists_mem_targetsAt (e : Expr) (target : LabelTarget) :
    ∀ depth, (∃ d, (target, d) ∈ e.targetsAt depth) ↔
      ∃ part : Expr, part.Part e ∧ target ∈ part.kind.ownTargets := by
  induction e using induct with
  | node k ty ih =>
      intro depth
      simp only [targetsAt_node, List.mem_append, List.mem_map, List.mem_flatMap, part_node_iff]
      constructor
      · rintro ⟨d, ⟨own, hown, heq⟩ | ⟨operand, hoperand, hd⟩⟩
        · cases heq
          exact ⟨_, .inl rfl, hown⟩
        · obtain ⟨part, hpart, htarget⟩ := (ih operand (ExprKind.mem_operands hoperand) _).mp ⟨d, hd⟩
          exact ⟨part, .inr ⟨operand, hoperand, hpart⟩, htarget⟩
      · rintro ⟨part, rfl | ⟨operand, hoperand, hpart⟩, htarget⟩
        · exact ⟨depth, .inl ⟨target, htarget, rfl⟩⟩
        · obtain ⟨d, hd⟩ := (ih operand (ExprKind.mem_operands hoperand)
            (depth + k.regionDepth)).mpr ⟨part, hpart, htarget⟩
          exact ⟨d, .inr ⟨operand, hoperand, hd⟩⟩

theorem Lambda.mem_targets_iff {l : Lambda Expr} {target : LabelTarget} :
    (∃ depth, (target, depth) ∈ l.targets) ↔
      ∃ part : Expr, part.Part l.body ∧ target ∈ part.kind.ownTargets :=
  l.body.exists_mem_targetsAt target 0

/-- The numbers of labels of a function. -/
theorem Lambda.mem_ids_iff {l : Lambda Expr} {id : LabelId} :
    id ∈ l.targets.map (·.1.id) ↔
      ∃ part : Expr, part.Part l.body ∧ ∃ target ∈ part.kind.ownTargets, target.id = id := by
  constructor
  · intro hid
    obtain ⟨⟨target, depth⟩, hmem, rfl⟩ := List.mem_map.mp hid
    obtain ⟨part, hpart, htarget⟩ := mem_targets_iff.mp ⟨depth, hmem⟩
    exact ⟨part, hpart, target, htarget, rfl⟩
  · rintro ⟨part, hpart, target, htarget, rfl⟩
    obtain ⟨depth, hmem⟩ := mem_targets_iff.mpr ⟨part, hpart, htarget⟩
    exact List.mem_map.mpr ⟨_, hmem, rfl⟩

/-! ## Labels that become known -/

/-- What is known of a label fits the label and the number of protected regions around it. -/
structure LabelInfo.Describes (info : LabelInfo) (target : LabelTarget) (depth : Nat) : Prop where
  ty : info.ty = target.ty
  valueSlot : info.valueSlot.isSome ↔ target.ty.isVoid = false
  depth : info.depth = depth

namespace Emit

variable {setting : Setting} {s t : Emission} {target : LabelTarget} {depth : Nat}
  {ts : List (LabelTarget × Nat)}

theorem run_bind_of_ok {α β : Type} {x : Emit α} {f : α → Emit β} {a : α} {r : EmitResult β}
    (hx : x.run setting s = .ok a t) (hf : (f a).run setting t = r) :
    (x >>= f).run setting s = r := by
  change (andThen x f).run setting s = r
  simp only [andThen, hx]
  exact hf

theorem run_defineTarget_known (h : (s.labels.lookup target.id).isSome) :
    (defineTarget target depth).run setting s = .ok () s := by
  refine run_bind_of_ok (a := true) ?_ rfl
  simp only [Emit.read, h]

/-- A label of a new number becomes known. -/
theorem run_defineTarget_new (setting : Setting) (depth : Nat)
    (h : s.labels.lookup target.id = none) :
    ∃ info t, (defineTarget target depth).run setting s = .ok () t ∧
      t.labels = (target.id, info) :: s.labels ∧ info.Describes target depth := by
  have hread : (read fun _ s => .ok (s.labels.lookup target.id).isSome).run setting s =
      .ok false s := by
    simp only [Emit.read, h, Option.isSome_none]
  have hrecord : ∀ {u : Emission} (info : LabelInfo), u.labels = s.labels →
      ∃ t, (recordTarget target.id info).run setting u = .ok () t ∧
        t.labels = (target.id, info) :: s.labels := by
    intro u info hu
    refine ⟨{ u with labels := (target.id, info) :: s.labels }, ?_, rfl⟩
    simp only [recordTarget, hu, h, Option.isSome_none, Bool.false_eq_true, if_false]
  -- The number of the new label is that of labels before it.
  let label : Label := ⟨s.builder.labels.size⟩
  let labelled : Emission := { s with builder := s.builder.defineLabel.2 }
  cases hvoid : target.ty.isVoid with
  | true =>
      let info : LabelInfo := ⟨label, target.ty, none, depth⟩
      obtain ⟨t, hrun, htable⟩ := hrecord (u := labelled) info rfl
      refine ⟨info, t, run_bind_of_ok hread (run_bind_of_ok rfl ?_), htable, rfl, by simp [info, hvoid],
        rfl⟩
      simp only [hvoid, if_true]
      exact run_bind_of_ok rfl hrun
  | false =>
      let acquired := s.pool.acquire s.builder.defineLabel.2 target.ty
      let info : LabelInfo := ⟨label, target.ty, some acquired.1, depth⟩
      obtain ⟨t, hrun, htable⟩ :=
        hrecord (u := { labelled with pool := acquired.2.1, builder := acquired.2.2 }) info rfl
      refine ⟨info, t, run_bind_of_ok hread (run_bind_of_ok rfl ?_), htable, rfl, by simp [info, hvoid],
        rfl⟩
      simp only [hvoid, Bool.false_eq_true, if_false]
      exact run_bind_of_ok (run_bind_of_ok rfl rfl) hrun

/-- All labels become known, beside those that are. -/
theorem run_defineTargets (setting : Setting) (ts : List (LabelTarget × Nat)) (s : Emission) :
    ∃ t, (ts.forM fun (target, depth) => defineTarget target depth).run setting s = .ok () t ∧
      ∀ id, (t.labels.lookup id).isSome ↔ (s.labels.lookup id).isSome ∨ id ∈ ts.map (·.1.id) := by
  induction ts generalizing s with
  | nil => exact ⟨s, rfl, by simp⟩
  | cons x ts ih =>
      have hfirst : ∃ u, (defineTarget x.1 x.2).run setting s = .ok () u ∧
          ∀ id, (u.labels.lookup id).isSome ↔ (s.labels.lookup id).isSome ∨ id = x.1.id := by
        cases hknown : s.labels.lookup x.1.id with
        | some info =>
            have hsome : (s.labels.lookup x.1.id).isSome := by rw [hknown, Option.isSome_some]
            refine ⟨s, run_defineTarget_known hsome, fun id => ⟨.inl, ?_⟩⟩
            rintro (h | rfl)
            · exact h
            · exact hsome
        | none =>
            obtain ⟨info, u, hrun, htable, -⟩ := run_defineTarget_new setting x.2 hknown
            refine ⟨u, hrun, fun id => ?_⟩
            rw [htable, List.lookup_cons]
            by_cases hid : id = x.1.id
            · simp [hid]
            · simp [hid, beq_false_of_ne hid]
      obtain ⟨u, hrun, hu⟩ := hfirst
      obtain ⟨t, hrest, ht⟩ := ih u
      refine ⟨t, ?_, fun id => ?_⟩
      · exact run_bind_of_ok hrun hrest
      · rw [ht, hu, List.map_cons, List.mem_cons, or_assoc]

/-- What is known of new labels of different numbers afterwards fits each of them. -/
theorem describes_of_defineTargets (hnodup : (ts.map (·.1.id)).Nodup)
    (hnew : ∀ x ∈ ts, s.labels.lookup x.1.id = none)
    (hrun : (ts.forM fun (target, depth) => defineTarget target depth).run setting s = .ok () t) :
    ∀ x ∈ ts, ∃ info, t.labels.lookup x.1.id = some info ∧ info.Describes x.1 x.2 := by
  induction ts generalizing s with
  | nil => exact fun _ hx => absurd hx List.not_mem_nil
  | cons x ts ih =>
      obtain ⟨hx, hts⟩ := List.forall_mem_cons.mp hnew
      obtain ⟨hfresh, hrest⟩ := List.nodup_cons.mp hnodup
      obtain ⟨_, u, hfirst, hrun⟩ := run_bind hrun
      obtain ⟨info, u', hdefine, htable, hinfo⟩ := run_defineTarget_new setting x.2 hx
      cases hfirst.symm.trans hdefine
      have hgrows := (ts.forM fun (target, depth) => defineTarget target depth).grows hrun
      refine List.forall_mem_cons.mpr ⟨⟨info, hgrows.targets _ _ ?_, hinfo⟩, ih hrest ?_ hrun⟩
      · simp [htable]
      · intro y hy
        have hne : y.1.id ≠ x.1.id := fun h => hfresh (List.mem_map.mpr ⟨y, hy, h⟩)
        rw [htable, List.lookup_cons, beq_false_of_ne hne]
        exact hts y hy

/-- Makes the labels of a function known. -/
def collectLabels (l : Lambda Node) : Emit Unit :=
  (l.body.expr.targetsAt 0).forM fun (target, depth) => defineTarget target depth

theorem run_functionBody {l : Lambda Node} (h : (collectLabels l).run setting s = .ok () t) :
    (functionBody l).run setting s = (functionCode l >>= fun _ => finishUnit).run setting t := by
  rw [functionBody_eq]
  exact run_bind_of_ok h rfl

/-- A function without known labels makes exactly its own known.  What is known of them afterwards fits
each of them if no two have one number. -/
theorem run_collectLabels (setting : Setting) (l : Lambda Expr) (h : s.labels = []) :
    ∃ t, (collectLabels (l.map Expr.toNode)).run setting s = .ok () t ∧ t.tryDepth = s.tryDepth ∧
      (∀ id, (t.labels.lookup id).isSome ↔ id ∈ l.targets.map (·.1.id)) ∧
      ((l.targets.map (·.1.id)).Nodup → ∀ x ∈ l.targets, ∃ info,
        t.labels.lookup x.1.id = some info ∧ info.Describes x.1 x.2) := by
  obtain ⟨t, hrun, hknown⟩ := run_defineTargets setting l.targets s
  have hcollect : (collectLabels (l.map Expr.toNode)).run setting s = .ok () t := by
    rw [collectLabels, targetsAt_map]
    exact hrun
  refine ⟨t, hcollect, ((collectLabels _).grows hcollect).tryDepth, fun id => ?_, fun hnodup => ?_⟩
  · rw [hknown, h]
    simp
  · exact describes_of_defineTargets hnodup (fun x _ => by rw [h]; rfl) hrun

end Emit

end Arbor
