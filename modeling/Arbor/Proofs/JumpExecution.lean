/-
  Jumps to labels run the `finally` blocks that they leave.

  A jump out of protected blocks runs their `finally` blocks, inner ones first,
  and goes on at its label.  The compiler decides by the number of blocks around
  jump and label whether blocks are left, and emits a plain jump where none
  are.  For a jump that enters no part of a region, the number decides right: a
  plain jump leaves no part either, so that it does what leaving would do.
-/
import Arbor.Machine.Exec
import Arbor.Proofs.Emission.Branches

set_option autoImplicit false

namespace Arbor

/-- The regions with a `finally` block whose bodies are around `p` but not around `q`. -/
def Routine.leftBlocks (R : Routine) (p q : Nat) : List (Region Nat) :=
  R.regions.filter fun g => g.isFinally && g.tryContains p && !g.tryContains q

/-- Where every part around the jump is around the label, no block is left. -/
theorem Routine.leftBlocks_of_encloses {R : Routine} {p q : Nat} (h : Encloses R.regions q p) :
    R.leftBlocks p q = [] := by
  refine List.filter_eq_nil_iff.mpr fun g hg hleft => ?_
  simp only [Bool.and_eq_true, Bool.not_eq_true'] at hleft
  obtain ⟨⟨-, hp⟩, hq⟩ := hleft
  rw [(h g hg).1 hp] at hq
  cases hq

theorem Routine.leftBlocks_ordered {R : Routine} (h : R.regions.Pairwise Region.Inner) (p q : Nat) :
    (R.leftBlocks p q).Pairwise Region.Inner :=
  h.sublist List.filter_sublist

/-! ## Blocks of the function -/

theorem Clause.Fits.exists_part {code : Array Instr} {parts : List (Clause Node)} {gs : List (Region Nat)}
    (h : List.Forall₂ (Clause.Fits code) parts gs) : ∀ g ∈ gs, ∃ c ∈ parts, c.Fits code g := by
  induction h with
  | nil => exact fun _ hg => absurd hg List.not_mem_nil
  | cons hfits _ ih =>
      refine List.forall_mem_cons.mpr ⟨⟨_, List.mem_cons_self, hfits⟩, fun g hg => ?_⟩
      obtain ⟨c, hc, hfits⟩ := ih g hg
      exact ⟨c, List.mem_cons_of_mem _ hc, hfits⟩

theorem Clause.Fits.exists_region {code : Array Instr} {parts : List (Clause Node)} {gs : List (Region Nat)}
    (h : List.Forall₂ (Clause.Fits code) parts gs) : ∀ c ∈ parts, ∃ g ∈ gs, c.Fits code g := by
  induction h with
  | nil => exact fun _ hc => absurd hc List.not_mem_nil
  | cons hfits _ ih =>
      refine List.forall_mem_cons.mpr ⟨⟨_, List.mem_cons_self, hfits⟩, fun c hc => ?_⟩
      obtain ⟨g, hg, hfits⟩ := ih c hc
      exact ⟨g, List.mem_cons_of_mem _ hg, hfits⟩

/-- The region of a `finally` block: it is around the code of the body, and the block is its handler. -/
structure Routine.Finishes (R : Routine) (body block : Expr) (g : Region Nat) : Prop where
  isFinally : g.isFinally = true
  body : body.toNode.StandsIn R.code g.tryStart g.tryEnd
  block : block.toNode.StandsIn R.code g.handlerStart g.handlerEnd

/-- A region with a `finally` block is that of a protected block of the function. -/
theorem Lambda.Tables.exists_finally {l : Lambda Expr} {R : Routine} (h : l.Tables R) {g : Region Nat}
    (hg : g ∈ R.regions) (hkind : g.isFinally = true) :
    ∃ body cs block faultBlock ty, (Expr.node (.tryCatch body cs (some block) faultBlock) ty).Part l.body ∧
      R.Finishes body block g := by
  have hmem : g ∈ R.regions.filter (·.tryStart == g.tryStart) :=
    List.mem_filter.mpr ⟨hg, beq_self_eq_true _⟩
  obtain ⟨body, cs, finallyBlock, faultBlock, ty, hpart, hbody, hfits⟩ := h.blocks g hg
  obtain ⟨c, hc, hfit⟩ := Clause.Fits.exists_part hfits g hmem
  cases hfit with
  | «finally» kind hblock =>
      cases finallyBlock with
      | none => simp [ExprKind.clauses, ExprKind.map] at hc
      | some block =>
          obtain rfl : _ = block.toNode := by simpa [ExprKind.clauses, ExprKind.map] using hc
          exact ⟨body, cs, block, faultBlock, ty, hpart, hkind, hbody g hmem, hblock⟩
  | «catch» _ kind _ | filter _ kind _ _ | fault kind _ => simp [Region.isFinally, kind] at hkind

/-- A protected block with a `finally` block that is met has a region for it. -/
theorem Lambda.MeetsIn.exists_finally {l : Lambda Expr} {R : Routine} {body block : Expr}
    {cs : List (CatchBlock Expr)} {faultBlock : Option Expr} {ty : Ty} {s : Emission}
    (h : l.MeetsIn R (.node (.tryCatch body cs (some block) faultBlock) ty) s) :
    ∃ g ∈ R.regions, g.tryStart = s.position + 1 ∧ R.Finishes body block g := by
  obtain ⟨own, hown, hstands, hfits⟩ := h.guards
  obtain ⟨g, hg, hfit⟩ := Clause.Fits.exists_region hfits (.finally block.toNode)
    (by simp [ExprKind.clauses, ExprKind.map])
  cases hfit with
  | «finally» kind hblock =>
      exact ⟨g, hown.subset hg, (hstands g hg).1, by simp [Region.isFinally, kind], (hstands g hg).2, hblock⟩

/-- The blocks that a jump from `p` to `q` leaves, inner ones first: each is the `finally` block of a
protected block of the function, and one that emission meets is left if its body contains the jump but not
the label. -/
structure Lambda.Leaves (l : Lambda Expr) (R : Routine) (p q : Nat) : Prop where
  ordered : (R.leftBlocks p q).Pairwise Region.Inner
  blocks : ∀ g ∈ R.leftBlocks p q, ∃ body cs block faultBlock ty,
    (Expr.node (.tryCatch body cs (some block) faultBlock) ty).Part l.body ∧ R.Finishes body block g
  complete : ∀ body cs block faultBlock ty s,
    l.MeetsIn R (.node (.tryCatch body cs (some block) faultBlock) ty) s →
    ∃ g ∈ R.regions, g.tryStart = s.position + 1 ∧ R.Finishes body block g ∧
      (g ∈ R.leftBlocks p q ↔ g.tryContains p = true ∧ g.tryContains q = false)

theorem Lambda.Tables.leaves {l : Lambda Expr} {R : Routine} (h : l.Tables R)
    (hordered : R.regions.Pairwise Region.Inner) (p q : Nat) : l.Leaves R p q where
  ordered := R.leftBlocks_ordered hordered p q
  blocks g hg := by
    obtain ⟨hmem, hleft⟩ := List.mem_filter.mp hg
    simp only [Bool.and_eq_true] at hleft
    exact h.exists_finally hmem hleft.1.1
  complete body cs block faultBlock ty s hmeets := by
    obtain ⟨g, hg, hstart, hfinishes⟩ := hmeets.exists_finally
    exact ⟨g, hg, hstart, hfinishes, by simp [Routine.leftBlocks, hg, hfinishes.isFinally]⟩

namespace Run

variable {r : Registry} {fuel : Nat} {R : Routine} {p q : Nat} {span : Span} {s : State}

/-! ## Leaving blocks -/

/-- Runs `finally` blocks one after the other.  When an exception escapes one of them, the result is
the start of its block and the exception. -/
def runBlocks (run : Executor) (R : Routine) : List (Region Nat) → Run (Option (Nat × Ref))
  | [] => pure none
  | g :: rest => do
      match ← runUnwinding run R g with
      | some e => pure (some (g.handlerStart, e))
      | none => runBlocks run R rest

/-- A jump from `p` to `q`: the exceptions of handlers that are left are forgotten, the `finally`
blocks that are left are run, and execution goes on at `q`.  An exception that escapes a block is
dispatched from the start of the block instead. -/
def crossing (r : Registry) (fuel : Nat) (R : Routine) (p q : Nat) (span : Span) : Run Exit := do
  leaveHandlers R p q
  match ← runBlocks (exec r fuel) R (R.leftBlocks p q) with
  | none => exec r fuel R q span
  | some (start, e) =>
      let handler ← dispatch r fuel R start e span
      exec r fuel R handler span

/-- Leaving regions is running the blocks that are left. -/
theorem leaveRegions_eq (run : Executor) (R : Routine) (p q : Nat) (gs : List (Region Nat)) :
    leaveRegions run R p q gs =
      runBlocks run R (gs.filter fun g => g.isFinally && g.tryContains p && !g.tryContains q) := by
  induction gs with
  | nil => rfl
  | cons g gs ih =>
      rw [leaveRegions, List.filter_cons]
      split
      · rw [ih]
        rfl
      · exact ih

/-- Leaving is forgetting handlers and running the blocks that are left. -/
theorem leave_eq (run : Executor) (R : Routine) (p q : Nat) :
    leave run R p q =
      (do leaveHandlers R p q; runBlocks run R (R.leftBlocks p q)) := by
  rw [leave, leaveRegions_eq]
  rfl

/-- Where every part around the jump is around the label, no handler is left. -/
theorem leaveHandlers_of_encloses (h : Encloses R.regions q p) (hframes : s.frames ≠ []) :
    leaveHandlers R p q s = .ok ⟨⟩ s := by
  obtain ⟨frame, rest, hs⟩ := List.exists_cons_of_ne_nil hframes
  simp only [leaveHandlers, modifyFrame, hs]
  rw [List.filter_eq_self.mpr, ← hs]
  intro x _
  split
  · next g hg =>
      have hkept := (h g (List.mem_of_getElem? hg)).2
      cases hp : g.handlerContains p with
      | true => rw [hkept hp]; rfl
      | false => rfl
  · rfl

/-! ## Both kinds of jumps -/

/-- A jump that leaves regions. -/
theorem exec_leave {l : Label} (hcode : R.code[p]? = some (.leave l)) (hq : R.target? l = some q) :
    exec r (fuel + 1) R p span s = crossing r fuel R p q span s := by
  rw [exec]
  simp only [hcode, step_leave hq, crossing, leave_eq, bind, EStateM.bind]
  cases leaveHandlers R p q s with
  | error e t => rfl
  | ok _ t =>
      dsimp only
      cases runBlocks (exec r fuel) R (R.leftBlocks p q) t with
      | error e u => rfl
      | ok escaped u =>
          cases escaped with
          | none => rfl
          | some escape =>
              dsimp only [EStateM.bind]
              cases dispatch r fuel R escape.1 escape.2 span u <;> rfl

/-- A plain jump that leaves no part of a region. -/
theorem exec_jump_of_encloses {l : Label} (hcode : R.code[p]? = some (.jump l))
    (hq : R.target? l = some q) (h : Encloses R.regions q p) (hframes : s.frames ≠ []) :
    exec r (fuel + 1) R p span s = crossing r fuel R p q span s := by
  rw [exec]
  simp only [hcode, step_jump hq, crossing, R.leftBlocks_of_encloses h, runBlocks, bind, EStateM.bind,
    leaveHandlers_of_encloses h hframes]
  rfl

/-! ## Compiled functions -/

/-- A jump to one of the numbered labels runs the blocks that it leaves, inner ones first.  A plain jump
must not both leave and enter parts of regions. -/
theorem exec_of_jumpsWell {count i : Nat} (hjumps : R.JumpsWell count) (hi : i < count)
    (hq : R.labels[i]? = some q)
    (hinstr : R.code[p]? = some (.leave ⟨i⟩) ∨ (R.code[p]? = some (.jump ⟨i⟩) ∧
      (Encloses R.regions p q ∨ Encloses R.regions q p))) :
    (R.leftBlocks p q).Pairwise Region.Inner ∧ ∀ r fuel span s, s.frames ≠ [] →
      exec r (fuel + 1) R p span s = crossing r fuel R p q span s := by
  refine ⟨R.leftBlocks_ordered (hjumps.ordered.imp (·.inner)) p q, fun r fuel span s hframes => ?_⟩
  rcases hinstr with hleave | ⟨hjump, hencloses⟩
  · exact exec_leave hleave hq
  · refine exec_jump_of_encloses hjump hq ?_ hframes
    rcases hencloses with hout | hin
    · -- No part is entered, and the label lies within no fewer blocks: the parts are the same.
      have halike := hjumps.alike p i q hi hjump hq hout
      exact fun g hg => ⟨fun h => (halike g hg).1 ▸ h, fun h => (halike g hg).2 ▸ h⟩
    · exact hin

/-- Every jump to a label in the code of an accepted function, or of a function nested in it, runs
exactly the `finally` blocks whose bodies contain the jump but not the label, inner ones first, and
goes on at the label in the same run of the routine.  A plain jump must not both leave and enter
parts of regions. -/
theorem exec_jump_of_compiled {setting : Setting} {f : Lambda Expr} {c : CompiledUnit}
    (hcompile : (compile setting f).result = .ok c)
    (hwell : ∀ l ∈ f :: f.body.functions, l.WellBlocked) {R : Routine}
    (hR : R ∈ c.routine :: c.units) :
    ∃ l ∈ f :: f.body.functions, l.CompilesTo R ∧
      ∀ (i p q : Nat), i < l.targets.length → R.labels[i]? = some q →
        R.code[p]? = some (.leave ⟨i⟩) ∨ (R.code[p]? = some (.jump ⟨i⟩) ∧
          (Encloses R.regions p q ∨ Encloses R.regions q p)) →
        (R.leftBlocks p q).Pairwise Region.Inner ∧
          ∀ r fuel span s, s.frames ≠ [] →
            exec r (fuel + 1) R p span s = crossing r fuel R p q span s := by
  obtain ⟨l, hl, hcompiles, hjumps⟩ := routineOf_of_compiled hcompile hwell R hR
  exact ⟨l, hl, hcompiles, fun i p q hi hq hinstr => exec_of_jumpsWell hjumps hi hq hinstr⟩

/-- Every jump of an accepted function, or of a function nested in it, that is met in an emission of the
function together with its label is a branch to the place where the label is marked.  A value that it
carries is stored right in front of the branch, in the local of the label, and loaded at the label.  The
branch runs exactly the `finally` blocks of the protected blocks whose bodies contain it but not the
label, inner ones first, and goes on at the label in the same run of the routine.  A plain branch must
not both leave and enter parts of regions. -/
theorem exec_goto_of_compiled {setting : Setting} {f : Lambda Expr} {c : CompiledUnit}
    (hcompile : (compile setting f).result = .ok c)
    (hwell : ∀ l ∈ f :: f.body.functions, l.WellBlocked) {R : Routine}
    (hR : R ∈ c.routine :: c.units) :
    ∃ l ∈ f :: f.body.functions, l.CompilesTo R ∧ ∀ setting session last,
      (Emit.unitBody (l.map Expr.toNode)).run setting (Emit.unitStart (l.map Expr.toNode) session) =
        .ok R last →
      ∀ (kind : GotoKind) (target own : LabelTarget) (value : Option Expr) (ty : Ty) (e : Expr)
        (s s' : Emission), l.Meets setting session (.node (.goto kind target value) ty) s →
        l.Meets setting session e s' → own ∈ e.kind.ownTargets → own.id = target.id →
      ∃ t t', (Expr.node (.goto kind target value) ty).Runs setting s t ∧ e.Runs setting s' t' ∧
        ∃ i p q slot, (s.position ≤ p ∧ p < t.position) ∧ (s'.position ≤ q ∧ q ≤ t'.position) ∧
          (slot.isSome ↔ own.ty.isVoid = false) ∧
          R.Links s.position value.isSome (e.kind.landing? = some own) i p q slot ∧ l.Leaves R p q ∧
          ((R.code[p]? = some (.jump ⟨i⟩) → Encloses R.regions p q ∨ Encloses R.regions q p) →
            ∀ r fuel span s, s.frames ≠ [] →
              exec r (fuel + 1) R p span s = crossing r fuel R p q span s) := by
  obtain ⟨l, hl, hcompiles, hjumps⟩ := routineOf_of_compiled hcompile hwell R hR
  refine ⟨l, hl, hcompiles, fun setting session last hrun kind target own value ty e s s' hgoto he hown
    hid => ?_⟩
  obtain ⟨t, t', hruns, hruns', i, p, q, slot, hi, hp, hq, hslot, hlinks⟩ :=
    Lambda.exists_link (hwell l hl).1 hrun hgoto he hown hid
  refine ⟨t, t', hruns, hruns', i, p, q, slot, hp, hq, hslot, hlinks,
    hcompiles.tables.leaves (hjumps.ordered.imp (·.inner)) p q, fun hplain => ?_⟩
  exact (exec_of_jumpsWell hjumps hi hlinks.label
    (hlinks.branch.imp_right fun hjump => ⟨hjump, hplain hjump⟩)).2

/-- Jumps within a protected block and out of it, where it has a `finally` block. -/
def earlyReturn : Lambda Expr :=
  let next : LabelTarget := ⟨0, .void⟩
  let out : LabelTarget := ⟨1, .int⟩
  let seven : Expr := .node (.constant (.num (.i32 7))) .int
  let body : Expr := .node (.block [] [
    .node (.goto .jump next none) .void, .node (.label next none) .void,
    .node (.goto .exitFunction out (some seven)) .void]) .void
  let guarded : Expr := .node (.tryCatch body [] (some (.node (.block [] []) .void)) none) .void
  ⟨"earlyReturn", [], .int, .node (.block [] [guarded, .node (.label out (some seven)) .int]) .int,
    ⟨false, false⟩⟩

set_option maxRecDepth 4000 in
/-- The jump within the block leaves nothing, and the one out of it runs its `finally` block. -/
theorem exec_earlyReturn :
    ∃ c, (compile ⟨.builtin, .default⟩ earlyReturn).result = .ok c ∧
      c.routine.code[5]? = some (.jump ⟨0⟩) ∧ c.routine.code[10]? = some (.leave ⟨1⟩) ∧
      (c.routine.leftBlocks 5 7).length = 0 ∧ (c.routine.leftBlocks 10 17).length = 1 ∧
      ∀ r fuel span s, s.frames ≠ [] →
        exec r (fuel + 1) c.routine 5 span s = crossing r fuel c.routine 5 7 span s ∧
        exec r (fuel + 1) c.routine 10 span s = crossing r fuel c.routine 10 17 span s := by
  obtain ⟨c, hc⟩ : ∃ c, (compile ⟨.builtin, .default⟩ earlyReturn).result = .ok c := ⟨_, rfl⟩
  have hplaces : (compile ⟨.builtin, .default⟩ earlyReturn).result.toOption.any (fun c =>
      decide (c.routine.labels[0]? = some 7 ∧ c.routine.labels[1]? = some 17 ∧
        Encloses c.routine.regions 5 7 ∧ (c.routine.leftBlocks 5 7).length = 0 ∧
        (c.routine.leftBlocks 10 17).length = 1)) = true := by decide +kernel
  have hjump : (compile ⟨.builtin, .default⟩ earlyReturn).result.toOption.bind
      (·.routine.code[5]?) = some (.jump ⟨0⟩) := by rfl
  have hleave : (compile ⟨.builtin, .default⟩ earlyReturn).result.toOption.bind
      (·.routine.code[10]?) = some (.leave ⟨1⟩) := by rfl
  rw [hc] at hplaces hjump hleave
  obtain ⟨hnext, hout, hwithin, hnone, hone⟩ := of_decide_eq_true hplaces
  have hwell : ∀ l ∈ earlyReturn :: earlyReturn.body.functions, l.WellBlocked := by decide
  obtain ⟨l, hl, -, hjumps⟩ := exec_jump_of_compiled hc hwell List.mem_cons_self
  obtain rfl := List.mem_singleton.mp hl
  refine ⟨c, hc, hjump, hleave, hnone, hone, fun r fuel span s hframes => ⟨?_, ?_⟩⟩
  · exact (hjumps 0 5 7 (by decide) hnext (.inr ⟨hjump, .inl hwithin⟩)).2 r fuel span s hframes
  · exact (hjumps 1 10 17 (by decide) hout (.inl hleave)).2 r fuel span s hframes

end Run

end Arbor
