/-
  The labels of a function.

  Two walks over a tree have to agree: the one that makes the labels of a function
  known, and the emission of its body, which passes the same nodes later and counts
  protected regions on its own.  What emission finds at a node is said by watches:
  whatever a watch does where the table is wrong about a node, a watched function is
  emitted as the function itself is, so that no watch is ever at such a node.

  A builder refuses to finish a routine with a label that is not marked, and to mark
  one twice.  Neither happens to a function whose labels have different numbers,
  whatever its tree is and whatever the options are, if no label that is made is
  left out of the code.
-/
import Arbor.Proofs.Emission.Lookups
import Arbor.Proofs.Emission.SettledUnits
import Arbor.Proofs.Emission.Watching

set_option autoImplicit false

namespace Arbor

/-! ## Asserted depths -/

/-- Ends the compilation where a label of the node was recorded with another number of protected regions
than are around the point of emission. -/
def Emit.assertDepths (e : Expr) : Emit Unit :=
  e.kind.ownTargets.forM fun target => do
    let info ← labelInfo target.id
    if info.depth = (← depth) then pure () else unsupported "a label at another depth"

/-- Emitters that do nothing, one after the other. -/
theorem Emit.run_forM_of_silent {α : Type} {items : List α} {f : α → Emit PUnit} {setting : Setting}
    {s : Emission} (h : ∀ a ∈ items, (f a).run setting s = .ok () s) :
    (items.forM f).run setting s = .ok () s := by
  induction items with
  | nil => rfl
  | cons a items ih =>
      obtain ⟨hfirst, hrest⟩ := List.forall_mem_cons.mp h
      exact run_bind_of_ok hfirst (ih hrest)

/-- The assertion does nothing where the table is right. -/
theorem Emit.trusts_assertDepths (table : LabelTable) : Trusts assertDepths table := by
  intro e setting s hs
  refine run_forM_of_silent fun target htarget => ?_
  obtain ⟨info, hinfo, hdepth⟩ := hs.own target htarget
  have hlookup : (labelInfo target.id).run setting s = .ok info s := by
    simp only [labelInfo, Emit.read, hs.known _ _ hinfo]
  refine run_bind_of_ok hlookup (run_bind_of_ok (a := s.tryDepth) rfl ?_)
  rw [if_pos hdepth]
  rfl

/-! ## Labels that are met -/

/-- The state in which the body of a function begins, with what is in scope. -/
def Emit.bodyStart (l : Lambda Expr) (session : Session) (scope : Scope) : Emission :=
  { unitStart (l.map Expr.toNode) session with scope := scope }

/-- The labels that are made known before the body of a function is emitted are those that emission meets,
if no two have one number.  Making them known succeeds; the labels that the parts of the function define,
nested functions aside, have entries and no others have; each has a local for its value unless it is void.
Wherever a node is emitted, the entries are as they were, and those of its own labels have the number of
protected regions around the point of emission: a watch that ends the compilation where that is not so
makes no difference.  If the compilation ends because a label is not known, then the function or one
nested in it jumps to a label of that number and has none. -/
theorem collectLabels_agrees {l : Lambda Expr} (hdistinct : (l.targets.map (·.1.id)).Nodup)
    (setting : Setting) (session : Session) (scope : Scope) :
    ∃ s, (Emit.collectLabels (l.map Expr.toNode)).run setting (Emit.bodyStart l session scope) =
        .ok () s ∧
      (∀ id, (s.labels.lookup id).isSome ↔
        ∃ part : Expr, part.Part l.body ∧ ∃ target ∈ part.kind.ownTargets, target.id = id) ∧
      (∀ part : Expr, part.Part l.body → ∀ target ∈ part.kind.ownTargets, ∃ info,
        s.labels.lookup target.id = some info ∧ info.ty = target.ty ∧
          (info.valueSlot.isSome ↔ target.ty.isVoid = false)) ∧
      (∀ watch, Emit.Trusts watch s.labels →
        (Emit.functionBody (l.map (Expr.watched watch))).run setting
            (Emit.bodyStart l session scope) =
          (Emit.functionBody (l.map Expr.toNode)).run setting (Emit.bodyStart l session scope)) ∧
      ∀ id t, (Emit.unitBody (l.map Expr.toNode)).run setting
          (Emit.unitStart (l.map Expr.toNode) session) = .error (.unknownLabel id) t →
        ∃ f ∈ l :: l.body.functions, f.JumpsOut id := by
  have hstart : (Emit.bodyStart l session scope).labels = [] := rfl
  obtain ⟨s, hrun, hdepth, hknown, hentries⟩ := Emit.run_collectLabels setting l hstart
  have hdescribed := hentries hdistinct
  refine ⟨s, hrun, fun id => (hknown id).trans Lambda.mem_ids_iff, fun part hpart target htarget => ?_,
    fun watch hwatch => ?_, fun id t herror => Emit.jumpsOut_of_unknownLabel herror⟩
  · obtain ⟨depth, hmem⟩ := Lambda.mem_targets_iff.mpr ⟨part, hpart, htarget⟩
    obtain ⟨info, hinfo, hfits⟩ := hdescribed _ hmem
    exact ⟨info, hinfo, hfits.ty, hfits.valueSlot⟩
  · refine Emit.run_functionBody_watched hrun hdepth (fun x hx => ?_) hwatch
    obtain ⟨info, hinfo, hfits⟩ := hdescribed x hx
    exact ⟨info, hinfo, hfits.depth⟩

/-- A loop with two labels in a protected block, and a label in the block that runs at its end. -/
def guardedLoop : Lambda Expr :=
  let seven : Expr := .node (.constant (.num (.i32 7))) .int
  let leave : Expr := .node (.goto .exitLoop ⟨0, .int⟩ (some seven)) .void
  let body : Expr := .node (.loop leave (some ⟨0, .int⟩) (some ⟨1, .void⟩)) .int
  let last : Expr := .node (.label ⟨2, .void⟩ none) .void
  ⟨"guardedLoop", [], .int, .node (.tryCatch body [] (some last) none) .int, .none⟩

/-- A function with a label, to which a function nested in it jumps. -/
def jumpsFromNested : Lambda Expr :=
  let jump : Expr := .node (.goto .jump ⟨0, .void⟩ none) .void
  let nested : Expr := .node (.lambda ⟨"nested", [], .void, jump, .none⟩) (.func [] .void)
  let last : Expr := .node (.label ⟨0, .void⟩ none) .void
  ⟨"jumpsFromNested", [], .void, .node (.block [] [nested, last]) .void, .none⟩

theorem jumpsFromNested_fails : ∃ t, (Emit.unitBody (jumpsFromNested.map Expr.toNode)).run
    ⟨.builtin, .default⟩ (Emit.unitStart (jumpsFromNested.map Expr.toNode) ⟨.empty, #[]⟩) =
      .error (.unknownLabel 0) t :=
  ⟨_, rfl⟩

/-- The labels of the loop are made known, and asserting their depths makes no difference to it.  The jump
to a label outside of the nested function fails, and leads out of that function. -/
theorem collectLabels_agrees_guardedLoop :
    let setting : Setting := ⟨.builtin, .default⟩
    let session : Session := ⟨.empty, #[]⟩
    ((guardedLoop.targets.map (·.1.id)).Nodup ∧
      (∃ s, (Emit.collectLabels (guardedLoop.map Expr.toNode)).run setting
        (Emit.bodyStart guardedLoop session []) = .ok () s ∧ (s.labels.lookup 0).isSome) ∧
      (Emit.functionBody (guardedLoop.map (Expr.watched Emit.assertDepths))).run setting
          (Emit.bodyStart guardedLoop session []) =
        (Emit.functionBody (guardedLoop.map Expr.toNode)).run setting
          (Emit.bodyStart guardedLoop session [])) ∧
    (∃ t, (Emit.unitBody (jumpsFromNested.map Expr.toNode)).run setting
      (Emit.unitStart (jumpsFromNested.map Expr.toNode) session) = .error (.unknownLabel 0) t) ∧
    ∃ f ∈ jumpsFromNested :: jumpsFromNested.body.functions, f.JumpsOut 0 := by
  intro setting session
  have hdistinct : (guardedLoop.targets.map (·.1.id)).Nodup := by decide
  obtain ⟨s, hrun, hknown, -, hwatch, -⟩ := collectLabels_agrees hdistinct setting session []
  have hbreak : (s.labels.lookup 0).isSome := (hknown 0).mpr (Lambda.mem_ids_iff.mp (by decide))
  obtain ⟨t, hfails⟩ := jumpsFromNested_fails
  obtain ⟨-, -, -, -, -, hjumps⟩ :=
    collectLabels_agrees (l := jumpsFromNested) (by decide) setting session []
  exact ⟨⟨hdistinct, ⟨s, hrun, hbreak⟩, hwatch _ (Emit.trusts_assertDepths _)⟩, ⟨t, hfails⟩,
    hjumps 0 t hfails⟩

/-- Two labels of one number, of which the second one is in a protected block. -/
def labelledTwice : Lambda Expr :=
  let mark : Expr := .node (.label ⟨0, .void⟩ none) .void
  let guarded : Expr := .node (.tryCatch mark [] (some (.node .default .void)) none) .void
  ⟨"labelledTwice", [], .void, .node (.block [] [mark, guarded]) .void, .none⟩

/-- The number is recorded for the first of them, and the assertion fails at the second one. -/
example : (Emit.functionBody (labelledTwice.map (Expr.watched Emit.assertDepths))).run
    ⟨.builtin, .default⟩ (Emit.bodyStart labelledTwice ⟨.empty, #[]⟩ []) matches
      .error (.notSupported _) _ := by decide +kernel

/-! ## Marked labels -/

/-- A compilation does not fail for want of a label, nor for one too many.  No two labels of a function
may have one number.  The receiver of a static member, which is left out of the code, may define no
labels; and no short-circuit operator may have a plain left operand beside an optional right one, since
the label for an absent left operand is made then and not marked. -/
theorem compileWith_ne_build {helpers : HelperCache} {setting : Setting} {l : Lambda Expr}
    (hdistinct : ∀ f ∈ l :: l.body.functions, (f.targets.map (·.1.id)).Nodup)
    (hmarks : l.body.marksLabels setting.registry) (e : BuildError) :
    (compileWith helpers setting l).result ≠ .error (.build e) := by
  obtain ⟨hown, hnested⟩ := List.forall_mem_cons.mp hdistinct
  have hfinishes : Emit.Ledger.Finishes setting (l.map Expr.toNode) :=
    Emit.Ledger.finishes hown fun table => Emit.Ledger.settles_tree l.body hmarks hnested table
  intro hresult
  unfold compileWith at hresult
  dsimp only at hresult
  split at hresult
  · cases hresult
  · next hrun =>
      cases hresult
      cases hfinishes _ _ _ hrun

/-- A short-circuit operator over operands of these types. -/
def bothHold (left right : Ty) : Lambda Expr :=
  ⟨"bothHold", [⟨0, "p", left⟩, ⟨1, "q", right⟩], .nullable .bool,
    .node (.logical .andAlso (.node (.parameter 0) left) (.node (.parameter 1) right)) (.nullable .bool),
    ⟨false, false⟩⟩

/-- Beside a plain left operand an optional right one leaves a label unmarked. -/
example : (compile ⟨.builtin, .default⟩ (bothHold .bool (.nullable .bool))).result matches
    .error (.build _) := by decide +kernel

/-- Leaves a loop with the conjunction of two optional truth values. -/
def leaveWithBoth : Lambda Expr :=
  let leave : Expr := .node (.goto .exitLoop ⟨0, .nullable .bool⟩
    (some (bothHold (.nullable .bool) (.nullable .bool)).body)) .void
  ⟨"leaveWithBoth", [⟨0, "p", .nullable .bool⟩, ⟨1, "q", .nullable .bool⟩], .nullable .bool,
    .node (.loop leave (some ⟨0, .nullable .bool⟩) (some ⟨1, .void⟩)) (.nullable .bool), ⟨false, false⟩⟩

/-- The two labels of a loop, and those of the operator inside it, are all marked. -/
theorem leaveWithBoth_ne_build : leaveWithBoth.targets.length = 2 ∧
    ∀ e, (compileWith .empty ⟨.builtin, .default⟩ leaveWithBoth).result ≠ .error (.build e) :=
  ⟨rfl, compileWith_ne_build (by decide) (by decide)⟩

end Arbor
