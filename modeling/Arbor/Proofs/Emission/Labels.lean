/-
  Functions keep to the numbering of their labels.

  A jump is plain only where its label lies within no fewer blocks, and a label is
  marked within as many as the numbering says.  From there on it is induction over
  the tree: every function numbers its labels first, and its routine has the
  regions of its blocks.  Labels are told apart by their numbers, and a protected
  block without handlers is no block of the routine.
-/
import Arbor.Proofs.Emission.Protected
import Arbor.Proofs.Simulation.Functions

set_option autoImplicit false

namespace Arbor

namespace Emit

variable {N : Numbering} {depth : Nat}

/-! ## Jumps and labels -/

/-- What is known of a label is what the table says. -/
theorem governs_labelInfo (id : LabelId) :
    (layered N depth).Holds (labelInfo id) fun info => N.table.lookup id = some info := by
  intro setting s t info hready hdepth hrun
  obtain ⟨hkeeps, -⟩ := (layered N depth).read (fun _ _ _ => rfl) _ _ _ _ hready hdepth hrun
  refine ⟨hkeeps, ?_⟩
  simp only [labelInfo, Emit.read] at hrun
  rw [hready.labels] at hrun
  split at hrun
  · next hread =>
      split at hread <;> cases hread
      cases hrun
      assumption
  · cases hrun

theorem governs_jump {l : Label} (hl : ∀ n, N.depths[l.index]? = some n → depth ≤ n) :
    (layered N depth).Ok (instr (.jump l)) := by
  intro setting s t a hready hdepth hrun
  cases hrun
  exact ⟨⟨⟨[], [], Builder.layered_jump hl⟩, rfl, fun R hR => .inl hR⟩, trivial⟩

/-- A label that lies within as many blocks as it should. -/
theorem governs_mark {l : Label} (hl : ∀ n, N.depths[l.index]? = some n → n = depth) :
    (layered N depth).Ok (mark l) := by
  intro setting s t a hready hdepth hrun
  simp only [Emit.mark] at hrun
  split at hrun
  · next hmark =>
      cases hrun
      exact ⟨⟨⟨[], [], Builder.layered_markLabel hl hmark⟩, rfl, fun R hR => .inl hR⟩, trivial⟩
  · cases hrun

/-- A jump to a label of the tree. -/
theorem governs_jumpTo {id : LabelId} {info : LabelInfo} (hinfo : N.table.lookup id = some info) :
    (layered N depth).Ok (jumpTo info) := by
  have hdepth : (layered N depth).Holds Emit.depth fun n => n = depth := by
    intro setting s t n hready hdepth hrun
    obtain ⟨hkeeps, -⟩ := (layered N depth).read (fun _ _ _ => rfl) _ _ _ _ hready hdepth hrun
    cases hrun
    exact ⟨hkeeps, hdepth⟩
  refine (layered N depth).bind hdepth fun n hn => ?_
  subst hn
  split
  · exact (layered N n).instr rfl
  · next hle =>
      refine governs_jump fun m hm => ?_
      rw [N.agrees id info hinfo] at hm
      cases hm
      exact Nat.le_of_not_lt hle

/-- A jump of the tree. -/
theorem governs_goto {target : LabelTarget} {value : Option Node}
    (hvalue : ∀ n ∈ value.toList, n.Obeys (layered N depth)) :
    (layered N depth).Ok (goto target value) := by
  refine (layered N depth).bind (governs_labelInfo target.id) fun info hinfo => ?_
  have hjump : (layered N depth).Ok (do
      jumpTo info
      pure (Emitted.nothing false)) :=
    Discipline.seq (governs_jumpTo hinfo) fun _ => Discipline.done
  cases value with
  | some v =>
      refine Discipline.seq (hvalue v List.mem_cons_self).guarded fun _ => ?_
      split
      · exact Discipline.seq Discipline.wrapIf fun _ =>
          Discipline.seq ((layered N depth).instr rfl) fun _ => hjump
      · exact Discipline.ite hjump (Discipline.seq ((layered N depth).instr rfl) fun _ => hjump)
  | none =>
      exact Discipline.ite hjump (Discipline.seq Discipline.tyText fun _ =>
        Discipline.seq (layered N depth).fail fun _ => hjump)

/-- A label lies within as many blocks as the table says. -/
theorem governs_markInfo {id : LabelId} {info : LabelInfo} (hinfo : N.table.lookup id = some info)
    (hdepth : info.depth = depth) : (layered N depth).Ok (mark info.label) := by
  refine governs_mark fun n hn => ?_
  rw [N.agrees id info hinfo] at hn
  cases hn
  exact hdepth

theorem ok_labelValue {D : Discipline} {info : LabelInfo} : D.Ok (labelValue info) := by
  unfold Emit.labelValue
  split
  · exact Discipline.seq (D.instr rfl) fun _ => Discipline.done
  · exact Discipline.done

/-- A label of the tree. -/
theorem governs_label {target : LabelTarget} {default : Option Node}
    (hdefault : ∀ n ∈ default.toList, n.Obeys (layered N depth))
    (hfits : ∀ info, N.table.lookup target.id = some info → info.depth = depth) :
    (layered N depth).Ok (label target default) := by
  refine (layered N depth).bind (governs_labelInfo target.id) fun info hinfo => ?_
  have hmark : (layered N depth).Ok (do
      mark info.label
      Emit.labelValue info) :=
    Discipline.seq (governs_markInfo hinfo (hfits info hinfo)) fun _ => ok_labelValue
  dsimp only
  split
  · next d _ =>
      exact Discipline.seq (hdefault d List.mem_cons_self).guarded fun _ =>
        Discipline.seq Discipline.wrapIf fun _ =>
        Discipline.seq ((layered N depth).instr rfl) fun _ => hmark
  · exact Discipline.seq Discipline.pushDefault fun _ =>
      Discipline.seq ((layered N depth).instr rfl) fun _ => hmark
  · next d _ => exact Discipline.seq (hdefault d List.mem_cons_self).guarded fun _ => hmark
  · exact hmark

/-- A loop. -/
theorem governs_loop {body : Node} (hbody : body.Obeys (layered N depth))
    {breakLabel continueLabel : Option LabelTarget} {ty : Ty}
    (hfits : ∀ target ∈ breakLabel.toList ++ continueLabel.toList, ∀ info,
      N.table.lookup target.id = some info → info.depth = depth) :
    (layered N depth).Ok (loop body breakLabel continueLabel ty) := by
  obtain ⟨hbreak, hcontinue⟩ := List.forall_mem_append.mp hfits
  have hrest : ∀ {finish : Emit Emitted}, (layered N depth).Ok finish → ∀ start : Label,
      (∀ n, N.depths[start.index]? = some n → n = depth) → (layered N depth).Ok (do
        mark start
        statement body
        instr (.jump start)
        finish) := by
    intro finish hfinish start hstart
    exact Discipline.seq (governs_mark hstart) fun _ => Discipline.seq (Discipline.statement hbody)
      fun _ => Discipline.seq (governs_jump fun n hn => Nat.le_of_eq (hstart n hn).symm) fun _ => hfinish
  have hnew : (layered N depth).Holds newLabel fun start =>
      ∀ n, N.depths[start.index]? = some n → n = depth := by
    intro setting s t start hready hdepth hrun
    obtain ⟨hkeeps, hown⟩ := (layered N depth).newLabel _ _ _ _ hready hdepth hrun
    refine ⟨hkeeps, fun n hn => ?_⟩
    rw [hown] at hn
    cases hn
  have hnamed : ∀ target ∈ continueLabel.toList,
      (layered N depth).Holds ((·.label) <$> labelInfo target.id) fun start =>
        ∀ n, N.depths[start.index]? = some n → n = depth := by
    intro target htarget
    refine (layered N depth).bind (governs_labelInfo target.id) fun info hinfo =>
      (layered N depth).pure fun n hn => ?_
    rw [N.agrees target.id info hinfo] at hn
    cases hn
    exact hcontinue target htarget info hinfo
  have hmarked : ∀ target ∈ breakLabel.toList, (layered N depth).Ok (do
      let info ← labelInfo target.id
      mark info.label
      labelValue info) := fun target htarget =>
    (layered N depth).bind (governs_labelInfo target.id) fun info hinfo =>
      Discipline.seq (governs_markInfo hinfo (hbreak target htarget info hinfo)) fun _ => ok_labelValue
  have hdefault : (layered N depth).Ok (do
      pushDefault ty
      pure (Emitted.ofTy ty false)) := Discipline.seq Discipline.pushDefault fun _ => Discipline.done
  cases continueLabel with
  | some next =>
      have hstart := hnamed next List.mem_cons_self
      cases breakLabel with
      | some target => exact (layered N depth).bind hstart (hrest (hmarked target List.mem_cons_self))
      | none => exact (layered N depth).bind hstart (hrest hdefault)
  | none =>
      cases breakLabel with
      | some target => exact (layered N depth).bind hnew (hrest (hmarked target List.mem_cons_self))
      | none => exact (layered N depth).bind hnew (hrest hdefault)

/-! ## Nested functions -/

/-- A nested unit changes neither the code nor the labels of the enclosing one. -/
theorem governs_nestedUnit {l : Lambda Node} (hunit : ∀ setting session routine inner,
      (unitBody l).run setting (unitStart l session) = .ok routine inner →
      N.unit routine ∧ ∀ R ∈ inner.units, N.unit R) :
    (layered N depth).Ok (nestedUnit l) := by
  intro setting s t i hready hdepth hrun
  simp only [nestedUnit] at hrun
  split at hrun
  · next routine inner hbody =>
      cases hrun
      obtain ⟨hroutine, hinner⟩ := hunit _ _ _ _ hbody
      refine ⟨⟨⟨[], [], Builder.Quiet.layered ?_⟩, rfl, fun R hR => ?_⟩, trivial⟩
      · exact .of_eq (Builder.addChild_code _ _) (Builder.addChild_labels _ _) (Builder.addChild_regions _ _)
      · rcases List.mem_append.mp hR with hR | hR
        · exact .inl hR
        · rcases List.mem_cons.mp hR with rfl | hR
          · exact .inr hroutine
          · exact .inr (hinner R hR)
  · cases hrun

/-- A nested function as a value. -/
theorem governs_function {l : Lambda Node} (hunit : ∀ setting session routine inner,
      (unitBody l).run setting (unitStart l session) = .ok routine inner →
      N.unit routine ∧ ∀ R ∈ inner.units, N.unit R) :
    (layered N depth).Ok (function l) := by
  have hargs : ∀ arg : Option Nat, (layered N depth).Ok (instrs (arg.toList.map Instr.loadArg)) := by
    intro arg
    refine Discipline.instrs fun i hi => ?_
    obtain ⟨_, -, rfl⟩ := List.mem_map.mp hi
    rfl
  refine Discipline.seq ((layered N depth).read fun _ _ _ => rfl) fun own =>
    Discipline.ite (layered N depth).fail ?_
  split
  · exact (layered N depth).fail
  · refine Discipline.seq (governs_nestedUnit hunit) fun child => ?_
    have hend : ∀ package : InvokerShape, (layered N depth).Ok (do
        instrs [.loadFunction child, .newInvoker package.captured]
        pure (Emitted.ofTy package.ty false)) :=
      fun package => Discipline.seq (Discipline.plain rfl) fun _ => Discipline.done
    exact Discipline.ite
      (Discipline.seq (hargs _) fun _ => Discipline.ite
        (Discipline.seq (hargs _) fun _ => hend _) (hend _))
      (Discipline.ite (Discipline.seq (hargs _) fun _ => hend _) (hend _))

end Emit

end Arbor
