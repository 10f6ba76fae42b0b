/-
  Routines whose regions are sealed off.

  A function is emitted without regions in front of it, and its routine has the
  regions that its body added, with the positions of their labels.  So they come in
  the order of a table, and each of them belongs to a protected block of the tree.
  Conversely, each protected block that the emission meets has the regions of its
  parts in the table, around the code of its body.
-/
import Arbor.Proofs.Emission.Naming
import Arbor.Proofs.Emission.SealedBlocks
import Arbor.Proofs.Emission.Tracking
import Arbor.Proofs.Emission.Watching

set_option autoImplicit false

namespace Arbor

/-! ## Parts of trees -/

/-- Whether the layer is a jump. -/
def ExprKind.isGoto {α : Type} : ExprKind α → Bool
  | goto .. => true
  | _ => false

namespace Expr

/-- Whether a jump occurs, outside of nested functions. -/
def hasGoto : Expr → Bool := fold fun k _ => k.isGoto || k.children.any id

/-- No jump occurs in a tree if none does in its layers. -/
theorem hasGoto_node (k : ExprKind Expr) (ty : Ty) :
    (Expr.node k ty).hasGoto = false ↔ k.isGoto = false ∧ ∀ e ∈ k.children, e.hasGoto = false := by
  have hkind : ∀ f : Expr → Bool, (k.map f).isGoto = k.isGoto := by
    intro f
    cases k <;> rfl
  unfold hasGoto
  rw [fold_node, hkind, ExprKind.children_map]
  simp

end Expr

/-! ## Trees -/

namespace Emit

variable {S : Sealing}

/-- A nested unit changes neither the code nor the labels of the enclosing one. -/
theorem sealsOff_nestedUnit {l : Lambda Node} {own : List Label} {exit : Option Label} :
    (sealing S).Ok own exit (nestedUnit l) := by
  intro setting s t i hrun _
  simp only [nestedUnit] at hrun
  split at hrun
  · cases hrun
    exact ⟨.of_eq (Builder.addChild_code _ _) (Builder.addChild_labels _ _) (Builder.addChild_regions _ _)
      rfl fun _ h => absurd h List.not_mem_nil, trivial⟩
  · cases hrun

/-- A tree is sealed off if its protected blocks are looked at, and if it has no jumps where branches
are. -/
theorem seals_tree (e : Expr) (hcalm : S.calm → e.hasGoto = false)
    (hparts : ∀ body cs finallyBlock faultBlock ty,
      (Expr.node (.tryCatch body cs finallyBlock faultBlock) ty).Part e → S.parts body.toNode
        ((ExprKind.tryCatch body cs finallyBlock faultBlock).map Expr.toNode).clauses) :
    e.toNode.Keeps (sealing S) := by
  induction e using Expr.induct with
  | node k ty ih =>
      refine (labelled_sealing S).node trivial
        (fun e he => ih e (ExprKind.mem_operands he) (fun h => ?_) fun _ _ _ _ ty' hpart => ?_)
        (fun kind target value hk h => ?_) (fun body handlers finallyBlock faultBlock hk => ?_)
        fun l _ => Policy.function (Rules.Lax.loose (lax_sealing S)) (fun _ _ h => h) sealsOff_nestedUnit
      · exact ((Expr.hasGoto_node k ty).mp (hcalm h)).2 e he
      · exact hparts _ _ _ _ ty' (.child he hpart)
      · subst hk
        exact absurd ((Expr.hasGoto_node _ ty).mp (hcalm h)).1 (by simp [ExprKind.isGoto])
      · subst hk
        exact protects_sealing (hparts _ _ _ _ ty (.refl _))

end Emit

/-- The body and the parts belong to a protected block of the function. -/
def Lambda.Blocks (l : Lambda Expr) (n : Node) (parts : List (Clause Node)) : Prop :=
  ∃ body cs finallyBlock faultBlock ty,
    (Expr.node (.tryCatch body cs finallyBlock faultBlock) ty).Part l.body ∧ n = body.toNode ∧
      parts = ((ExprKind.tryCatch body cs finallyBlock faultBlock).map Expr.toNode).clauses

/-- The regions are those of a protected block of the function: they are around the code of its body,
and are those of its parts, one by one. -/
def Lambda.Protects (l : Lambda Expr) (R : Routine) (gs : List (Region Nat)) : Prop :=
  ∃ body cs finallyBlock faultBlock ty,
    (Expr.node (.tryCatch body cs finallyBlock faultBlock) ty).Part l.body ∧
    (∀ g ∈ gs, body.toNode.StandsIn R.code g.tryStart g.tryEnd) ∧
    List.Forall₂ (Clause.Fits R.code)
      ((ExprKind.tryCatch body cs finallyBlock faultBlock).map Expr.toNode).clauses gs

/-- The regions of the routine come in the order of a table, each of them belongs to a protected block
of the function, and branches are level with all of them if the function has no jumps. -/
structure Lambda.Tables (l : Lambda Expr) (R : Routine) : Prop where
  ranged : ∀ g ∈ R.regions, g.Ranged
  placed : R.regions.Pairwise Region.Placed
  blocks : ∀ g ∈ R.regions, l.Protects R (R.regions.filter (·.tryStart == g.tryStart))
  level : l.body.hasGoto = false → ∀ p i, R.code[p]? = some i → ∀ target ∈ i.branches,
    ∃ q, R.target? target = some q ∧ ∀ g ∈ R.regions, g.Level p q

/-- The regions with one body are those of the parts of a protected block. -/
theorem Lambda.Tables.grouped {l : Lambda Expr} {R : Routine} (h : l.Tables R) : ∀ g ∈ R.regions,
    ∃ k ty, (Expr.node k ty).Part l.body ∧ List.Forall₂ (Clause.Fits R.code)
      (k.map Expr.toNode).clauses (R.regions.filter (·.tryStart == g.tryStart)) := by
  intro g hg
  obtain ⟨body, cs, finallyBlock, faultBlock, ty, hpart, -, hfits⟩ := h.blocks g hg
  exact ⟨_, ty, hpart, hfits⟩

/-- The routine of what was sealed off from the start of a function on. -/
theorem Builder.Sealed.tables {l : Lambda Expr} {b c : Builder} {added : List (Region Nat)} {labels : Nat}
    (h : Builder.Sealed ⟨labels, l.body.hasGoto = false, l.Blocks⟩ [] none [] b c added)
    (hcode : b.code = #[]) (hregions : b.regions = #[]) {key : RoutineKey} {R : Routine}
    (hfinish : c.finish key = .ok R) : l.Tables R := by
  have hadded : R.regions = added := by
    obtain ⟨new, hnew, hresolves⟩ := h.regions
    rw [hregions, List.nil_append] at hnew
    exact regions_of_finish hfinish (by rwa [hnew])
  have hsame : R.code = c.code := (finish_eq hfinish).1
  have hlabels := labels_of_finish hfinish
  refine ⟨by rw [hadded]; exact h.ranged, by rw [hadded]; exact h.placed, fun g hg => ?_,
    fun hgoto p i hi target htarget => ?_⟩
  · rw [hadded] at hg ⊢
    obtain ⟨_, _, ⟨body, cs, finallyBlock, faultBlock, ty, hpart, rfl, rfl⟩, hbody, hfits⟩ :=
      h.grouped g hg
    exact ⟨body, cs, finallyBlock, faultBlock, ty, hpart, hsame ▸ hbody, hsame ▸ hfits⟩
  · rw [hsame] at hi
    rcases h.branches hgoto p i (by simp [Builder.position, hcode]) hi target htarget with
      ⟨hlent, -⟩ | ⟨hknown, hlevel⟩
    · simp at hlent
    · have hthere : ∃ q, R.target? target = some q := by
        have hlt : target.index < c.labels.size := by
          rcases hknown with ⟨-, hlt, -⟩ | ⟨q, hq⟩
          · exact hlt
          · exact (Array.getElem?_eq_some_iff.mp hq).1
        rw [hlabels, Array.size_map] at hlt
        exact ⟨_, Array.getElem?_eq_getElem hlt⟩
      obtain ⟨q, hq⟩ := hthere
      rw [hadded]
      exact ⟨q, hq, (hlevel q (marked_of_finish hfinish hq)).2.2⟩

/-- The routine of a function has a table of regions. -/
theorem Lambda.CompilesTo.tables {l : Lambda Expr} {R : Routine} (h : l.CompilesTo R) : l.Tables R := by
  obtain ⟨setting, session, t, hrun⟩ := h
  obtain ⟨scope, s, u, key, -, hlabels, hcode, hfinish, -⟩ := Emit.run_unitBody hrun
  have hblank := (Emit.blank_unitStart _ session _).defineTargets hlabels
  let S : Sealing := ⟨s.builder.labels.size, l.body.hasGoto = false, l.Blocks⟩
  have hbody : l.body.toNode.Keeps (Emit.sealing S) :=
    Emit.seals_tree l.body (fun h => h) fun body cs finallyBlock faultBlock ty hpart =>
      ⟨body, cs, finallyBlock, faultBlock, ty, hpart, rfl, rfl⟩
  have hready : S.Ready s [] none := ⟨⟨Nat.le_refl _, fun l hl => by simp at hl⟩, hblank.table⟩
  obtain ⟨⟨⟨added, hsealed⟩, -⟩, -⟩ := Emit.Policy.functionCode (l := l.map Expr.toNode) hbody
    _ _ _ _ hcode hready
  exact hsealed.tables hblank.code hblank.regions hfinish

/-! ## Blocks that are met -/

namespace Emit

section

variable {α β : Type}

theorem codeless_bind {x : Emit α} {f : α → Emit β} (hx : Codeless x) (hf : ∀ a, Codeless (f a)) :
    Codeless (x >>= f) := by
  intro setting s t b hrun
  obtain ⟨a, u, hfirst, hrest⟩ := run_bind hrun
  obtain ⟨hlabels, hcode⟩ := hx _ _ _ _ hfirst
  obtain ⟨hlabels', hcode'⟩ := hf a _ _ _ _ hrest
  exact ⟨hlabels'.trans hlabels, hcode'.trans hcode⟩

theorem codeless_pure (a : α) : Codeless (pure a : Emit α) := by
  intro setting s t b hrun
  cases hrun
  exact ⟨rfl, rfl⟩

theorem codeless_fail {e : CompileError} : Codeless (fail e : Emit α) := by
  intro setting s t b hrun
  cases hrun

theorem codeless_mismatch {context expected : String} {found : Ty} :
    Codeless (mismatch context expected found : Emit α) :=
  codeless_bind (codeless_bind codeless_read fun _ => codeless_pure _) fun _ => codeless_fail

theorem codeless_forM {items : List α} {f : α → Emit PUnit} (h : ∀ a ∈ items, Codeless (f a)) :
    Codeless (items.forM f) := by
  induction items with
  | nil => exact codeless_pure _
  | cons a items ih =>
      obtain ⟨ha, hitems⟩ := List.forall_mem_cons.mp h
      exact codeless_bind ha fun _ => ih hitems

theorem codeless_checkBranch {n : Node} {ty : Ty} : Codeless (n.checkBranch ty) := by
  intro setting s t a hrun
  obtain rfl := run_checkBranch hrun
  exact ⟨rfl, rfl⟩

theorem codeless_checkHandler {h : CatchBlock Node} : Codeless (checkHandler h) := by
  refine codeless_bind codeless_read fun r => ?_
  split
  · exact codeless_mismatch
  · split
    · split
      · exact codeless_pure _
      · exact codeless_mismatch
    · exact codeless_pure _

/-- No code was added, and no label of the tree became known. -/
structure Poised (s t : Emission) : Prop where
  labels : t.labels = s.labels
  position : t.position = s.position
  size : s.builder.labels.size ≤ t.builder.labels.size

theorem Poised.trans {s t u : Emission} (h : Poised s t) (k : Poised t u) : Poised s u :=
  ⟨k.labels.trans h.labels, k.position.trans h.position, Nat.le_trans h.size k.size⟩

theorem Codeless.poised {x : Emit α} (hx : Codeless x) {setting : Setting} {s t : Emission} {a : α}
    (h : x.run setting s = .ok a t) : Poised s t :=
  have hsame := hx _ _ _ _ h
  ⟨hsame.1, congrArg Array.size hsame.2, (x.grows h).labels⟩

/-- The parts of a protected block are emitted behind the instruction that records the depth of the
stack, where its body starts. -/
structure BlockRun (part : Node) (cs : List (CatchBlock Node)) (finallyBlock faultBlock : Option Node)
    (setting : Setting) (s t : Emission) (p : ProtectedBlock) (u v : Emission) : Prop where
  labels : u.labels = s.labels
  position : u.position = s.position + 1
  size : s.builder.labels.size ≤ u.builder.labels.size
  start : u.builder.labels[p.bodyStart.index]? = some (some u.builder.position)
  last : p.bodyEnd.index < u.builder.labels.size
  run : (regions part cs finallyBlock faultBlock p).run setting u = .ok () v
  kept : ∀ first w, t.Kept first w → v.Kept first w

theorem BlockRun.behind {part : Node} {cs : List (CatchBlock Node)} {finallyBlock faultBlock : Option Node}
    {setting : Setting} {s s' t u v : Emission} {p : ProtectedBlock}
    (h : BlockRun part cs finallyBlock faultBlock setting s t p u v)
    (hs : Poised s' s) {t' : Emission} (ht : ∀ first w, t'.Kept first w → t.Kept first w) :
    BlockRun part cs finallyBlock faultBlock setting s' t' p u v :=
  { h with
    labels := h.labels.trans hs.labels
    position := h.position.trans (congrArg (· + 1) hs.position)
    size := Nat.le_trans hs.size h.size
    kept := fun first w hkept => h.kept first w (ht first w hkept) }

/-- The labels of a block are made, the depth of the stack is recorded, and the body starts. -/
theorem run_blockStart {α : Type} {part : Node} {cs : List (CatchBlock Node)}
    {finallyBlock faultBlock : Option Node} {ty : Ty} {result : Option Nat} {slot : Nat} {rest : Emit α}
    {setting : Setting} {s t : Emission} {a : α}
    (h : (do
      let bodyStart ← newLabel
      let bodyEnd ← newLabel
      let done ← newLabel
      instr (.markStack slot)
      mark bodyStart
      regions part cs finallyBlock faultBlock ⟨ty, result, slot, bodyStart, bodyEnd, done⟩
      mark done
      rest : Emit α).run setting s = .ok a t) :
    ∃ p u v, BlockRun part cs finallyBlock faultBlock setting s t p u v := by
  obtain ⟨bodyStart, s₁, hnew₁, h⟩ := run_bind h
  obtain ⟨bodyEnd, s₂, hnew₂, h⟩ := run_bind h
  obtain ⟨done, s₃, hnew₃, h⟩ := run_bind h
  obtain ⟨_, s₄, hinstr, h⟩ := run_bind h
  obtain ⟨_, u, hmark, h⟩ := run_bind h
  obtain ⟨_, v, hregions, hrest⟩ := run_bind h
  obtain ⟨hstraight₁, hindex₁, -, hposition₁⟩ := straight_newLabel hnew₁
  obtain ⟨hstraight₂, -, hlt₂, hposition₂⟩ := straight_newLabel hnew₂
  obtain ⟨hstraight₃, -, -, hposition₃⟩ := straight_newLabel hnew₃
  have hbefore := ((hstraight₁.trans hstraight₂).trans hstraight₃).trans (straight_instr rfl hinstr)
  obtain ⟨hstraight, hstart, hposition⟩ := straight_mark hbefore (Nat.le_of_eq hindex₁.symm) hmark
  have hmarked : s₄.builder.position = s₃.builder.position + 1 := by
    cases hinstr
    simp [Builder.emit, Builder.position]
  have hplace : u.builder.position = s.builder.position + 1 := by omega
  have hlast := Nat.lt_of_lt_of_le hlt₂ (((Emit.grows _ hnew₃).trans (Emit.grows _ hinstr)).trans
    (Emit.grows _ hmark)).labels
  exact ⟨_, u, v, hstraight.labels, hplace, hstraight.builder.size, hstart, hlast, hregions,
    fun _ _ hkept => hkept.before (Emit.grows _ hrest)⟩

/-- A protected block checks its parts and acquires locals before it is emitted. -/
theorem run_tryCatch {part : Node} {cs : List (CatchBlock Node)} {finallyBlock faultBlock : Option Node}
    {ty : Ty} {setting : Setting} {s t : Emission} {a : Emitted}
    (h : (tryCatch part cs finallyBlock faultBlock ty).run setting s = .ok a t) :
    ∃ p u v, BlockRun part cs finallyBlock faultBlock setting s t p u v := by
  obtain ⟨_, s₁, hcheck, h⟩ := run_bind h
  have hs₁ := (codeless_forM fun _ _ => codeless_checkHandler).poised hcheck
  have hsection : ∀ {x : Emit Emitted} {s' : Emission}, (withTemps x).run setting s' = .ok a t →
      ∃ w, x.run setting s' = .ok a w ∧ ∀ first z, t.Kept first z → w.Kept first z := by
    intro x s' hrun
    simp only [withTemps] at hrun
    split at hrun
    · next w hw =>
        cases hrun
        exact ⟨w, hw, fun _ _ hkept => ⟨hkept.builder, hkept.regions, hkept.targets⟩⟩
    · cases hrun
  cases hvoid : ty.isVoid with
  | true =>
      simp only [hvoid, Bool.not_true, Bool.false_eq_true, if_false, if_true] at h
      obtain ⟨w, hw, hkept⟩ := hsection h
      obtain ⟨_, _, hpure, hw⟩ := run_bind hw
      cases hpure
      obtain ⟨depth, s₂, hdepth, hw⟩ := run_bind hw
      obtain ⟨p, u, v, hblock⟩ := run_blockStart hw
      exact ⟨p, u, v, hblock.behind (hs₁.trans (codeless_temp.poised hdepth)) hkept⟩
  | false =>
      simp only [hvoid, Bool.not_false, Bool.false_eq_true, if_false, if_true] at h
      obtain ⟨_, s₂, hbody, h⟩ := run_bind h
      obtain ⟨_, s₃, hbodies, h⟩ := run_bind h
      obtain ⟨w, hw, hkept⟩ := hsection h
      obtain ⟨result, s₄, hresult, hw⟩ := run_bind hw
      obtain ⟨depth, s₅, hdepth, hw⟩ := run_bind hw
      obtain ⟨p, u, v, hblock⟩ := run_blockStart hw
      have hs₃ := (hs₁.trans (codeless_checkBranch.poised hbody)).trans
        ((codeless_forM fun _ _ => codeless_checkBranch).poised hbodies)
      have hs₅ := ((codeless_bind codeless_temp fun _ => codeless_pure _).poised hresult).trans
        (codeless_temp.poised hdepth)
      exact ⟨p, u, v, hblock.behind (hs₃.trans hs₅) hkept⟩

end

end Emit

/-- Regions of the table, in its order, are those of the parts of a block: they start behind the position
and are around the code of its body. -/
def Routine.Guards (R : Routine) (position : Nat) (body : Node) (parts : List (Clause Node)) : Prop :=
  ∃ own : List (Region Nat), own.Sublist R.regions ∧
    (∀ g ∈ own, g.tryStart = position + 1 ∧ body.StandsIn R.code g.tryStart g.tryEnd) ∧
    List.Forall₂ (Clause.Fits R.code) parts own

open Emit

variable {body : Expr} {cs : List (CatchBlock Expr)} {finallyBlock faultBlock : Option Expr} {ty : Ty}
  {setting : Setting} {s t : Emission}

theorem Expr.Runs.exists_block
    (h : (Expr.node (.tryCatch body cs finallyBlock faultBlock) ty).Runs setting s t) :
    ∃ p u v, BlockRun body.toNode (cs.map (CatchBlock.map Expr.toNode)) (finallyBlock.map Expr.toNode)
      (faultBlock.map Expr.toNode) setting s t p u v := by
  obtain ⟨_, _, _, _, w, htry, hgrows⟩ := h.exists_layer fun _ _ _ _ hplace => by cases hplace
  obtain ⟨p, u, v, hblock⟩ := run_tryCatch htry
  exact ⟨p, u, v, hblock.behind ⟨rfl, rfl, Nat.le_refl _⟩ fun _ _ hkept => hkept.before hgrows⟩

/-- The regions of a block that is emitted for good are in the table. -/
theorem guards_of_block {S : Sealing} {part : Node} {cs : List (CatchBlock Node)}
    {finallyBlock faultBlock : Option Node} {p : ProtectedBlock} {u v w : Emission} {key : RoutineKey}
    {R : Routine} (hblock : BlockRun part cs finallyBlock faultBlock setting s t p u v)
    (hpart : part.Keeps (sealing S))
    (hcs : ∀ c ∈ cs, c.body.Keeps (sealing S) ∧ ∀ n ∈ c.filter.toList, n.Keeps (sealing S))
    (hfinally : ∀ n ∈ finallyBlock.toList, n.Keeps (sealing S))
    (hfault : ∀ n ∈ faultBlock.toList, n.Keeps (sealing S)) (hs : S.Ready s [] none)
    (hkept : t.Kept s.position w) (hfinish : w.builder.finish key = .ok R) :
    R.Guards s.position part (ExprKind.tryCatch part cs finallyBlock faultBlock).clauses := by
  have hu : S.Ready u [] none := ⟨⟨Nat.le_trans hs.knows.size hblock.size, fun l hl => by simp at hl⟩,
    by rw [hblock.labels]; exact hs.table⟩
  obtain ⟨-, bodyEnd, own, hopened⟩ :=
    opened_regions hpart hcs hfinally hfault hu hblock.start hblock.last hblock.run
  obtain ⟨added, hstretch, hown⟩ := hopened.stretch
  have hv := hblock.kept _ _ hkept
  obtain ⟨hsame, -, -, -, hmarks, -⟩ := Builder.finish_eq hfinish
  have hposition : u.builder.position = s.position + 1 := hblock.position
  -- The code of the block is that of the routine.
  have hcode : ∀ q, s.position + 1 ≤ q → q < v.position → R.code[q]? = v.builder.code[q]? :=
    fun q hq hlt => by rw [hsame, hv.builder.code q (Nat.le_of_succ_le hq) hlt]
  have hmem : ∀ g ∈ own, g.Ranged ∧ g.tryStart = s.position + 1 := by
    subst hown
    intro g hg
    obtain ⟨hg, hfirst⟩ := List.mem_filter.mp hg
    exact ⟨hstretch.ranged g hg, (eq_of_beq hfirst).trans hposition⟩
  have hlast : ∀ g ∈ own, g.handlerEnd ≤ v.position := fun g hg => hopened.ended g hg
  have hstands : part.StandsIn R.code (s.position + 1) bodyEnd :=
    hposition ▸ hopened.stands.congr fun q hq hlt =>
      hcode q (hposition ▸ hq) (Nat.lt_of_lt_of_le hlt hopened.body_le)
  refine ⟨own, ?_, fun g hg => ⟨(hmem g hg).2, ?_⟩, ?_⟩
  · obtain ⟨new, hnew, hresolves⟩ := hstretch.regions
    obtain ⟨later, hlater⟩ := hv.regions
    rw [hnew, List.append_assoc] at hlater
    have htable := (hlater ▸ Builder.resolves_of_finish hfinish).flip
    have hthere := (List.forall₂_take_append _ _ _ (List.forall₂_drop_append _ _ _ htable)).flip
    have hadded := List.right_unique_forall₂' (Region.resolves_unique w.builder.labels) hthere
      (hresolves.imp fun _ _ h => h.mono hv.builder.marks)
    rw [← hown, ← hadded]
    exact (List.filter_sublist.trans (List.take_sublist _ _)).trans (List.drop_sublist _ _)
  · exact (hmem g hg).2 ▸ hstands.mono (hopened.covers g hg)
  · exact Clause.Fits.congr_all hopened.fits (fun g hg => (hmem g hg).1) fun g hg q hq hlt =>
      hcode q ((hmem g hg).2 ▸ hq) (Nat.lt_of_lt_of_le hlt (hlast g hg))

/-- An emission of the function into the routine comes to the node in the state. -/
def Lambda.MeetsIn (l : Lambda Expr) (R : Routine) (e : Expr) (s : Emission) : Prop :=
  ∃ setting session t, (Emit.unitBody (l.map Expr.toNode)).run setting
    (Emit.unitStart (l.map Expr.toNode) session) = .ok R t ∧ l.Meets setting session e s

/-- The emission of a compiled function comes to its body. -/
theorem Lambda.meetsIn_body {helpers : HelperCache} {f : Lambda Expr} {c : CompiledUnit}
    (hcompile : (compileWith helpers setting f).result = .ok c) :
    ∃ s, f.MeetsIn c.routine f.body s := by
  unfold compileWith at hcompile
  dsimp only at hcompile
  split at hcompile
  · next hrun =>
      cases hcompile
      obtain ⟨scope, first, u, key, hscope, hlabels, -⟩ := exists_kept hrun
      obtain ⟨v, hmeets⟩ := meets_body hscope hlabels
      exact ⟨v, setting, _, _, hrun, hmeets⟩
  · cases hcompile

/-- A protected block that is met has the regions of its parts in the table, around the code of its
body. -/
theorem Lambda.MeetsIn.guards {l : Lambda Expr} {R : Routine}
    (h : l.MeetsIn R (.node (.tryCatch body cs finallyBlock faultBlock) ty) s) :
    R.Guards s.position body.toNode
      ((ExprKind.tryCatch body cs finallyBlock faultBlock).map Expr.toNode).clauses := by
  obtain ⟨setting, session, t, hrun, hmeets⟩ := h
  obtain ⟨scope, first, u, key, -, hlabels, hcode, hfinish, hkept⟩ := exists_kept hrun
  obtain ⟨-, w, hruns, hsize, hw⟩ := hkept _ _ hmeets
  obtain ⟨p, y, z, hblock⟩ := hruns.exists_block
  have hblank := (blank_unitStart _ session _).defineTargets hlabels
  let S : Sealing := ⟨first.builder.labels.size, False, fun _ _ => True⟩
  have hkeeps : ∀ e : Expr, e.toNode.Keeps (sealing S) := fun e =>
    seals_tree e (fun h => h.elim) fun _ _ _ _ _ _ => trivial
  -- The labels of the tree that are known are those from the start.
  have hsame : u.labels = first.labels := by
    have hready : S.Ready first [] none := ⟨⟨Nat.le_refl _, fun l hl => by simp at hl⟩, hblank.table⟩
    exact (Policy.functionCode (l := l.map Expr.toNode) (hkeeps l.body) _ _ _ _ hcode hready).1.labels
  have hs : S.Ready s [] none := by
    refine ⟨⟨hsize, fun l hl => by simp at hl⟩, fun id info hinfo => hblank.table id info ?_⟩
    rw [← hsame]
    exact (hw.before hruns.grows).targets id info hinfo
  have hoption : ∀ o : Option Expr, ∀ n ∈ (o.map Expr.toNode).toList, n.Keeps (sealing S) := by
    intro o n hn
    obtain ⟨e, -, rfl⟩ := Option.map_eq_some_iff.mp (Option.mem_toList.mp hn)
    exact hkeeps e
  refine guards_of_block hblock (hkeeps body) (fun c hc => ?_) (hoption _) (hoption _) hs hw hfinish
  obtain ⟨c, -, rfl⟩ := List.mem_map.mp hc
  exact ⟨hkeeps c.body, hoption c.filter⟩

end Arbor
