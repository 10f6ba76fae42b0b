/-
  Selection of handlers.

  An exception is dispatched along the regions around the throw point, which are
  the parts of the protected blocks around it: inner blocks first, and the parts of
  one block as they are written.  They are asked in that order, each in the state
  that the filters before have left behind, and only then the blocks on the way out
  run.  A handler answers by its type, or by its filter; where a handler with a
  filter is declared for another type than that of the exception, its filter is
  asked all the same.
-/
import Arbor.Proofs.Machine.HeapChanges
import Arbor.Proofs.RegionTables
import Arbor.Proofs.Semantics.Declarations

set_option autoImplicit false

namespace Arbor

/-- The handler is declared for exceptions of the type: its own type is object, or a base of it. -/
def CatchBlock.IsFor {α : Type} (r : Registry) (h : CatchBlock α) (ty : TypeId) : Prop :=
  h.ty = .object ∨ ∃ id, h.ty = .classTy id ∧ Relation.ReflTransGen r.Extends ty id

/-- A part of a protected block, with its region and the number of it. -/
structure Guard where
  part : Clause Node
  index : Nat
  region : Region Nat

namespace Guard

/-- The region with its number. -/
def numbered (g : Guard) : Nat × Region Nat := (g.index, g.region)

/-- Whether the guard is around the position, within the span. -/
def isAround (pc : Nat) (span : Span) (g : Guard) : Bool :=
  g.region.tryContains pc && span.covers g.region

end Guard

/-! ## The table as protected blocks -/

/-- The guards are the table of the routine: each has the region of its part.  Inner ones come first,
and those with one body are the parts of a protected block of the function, as they are written, with
the code of the body in all of their regions.  Conversely, a protected block that emission meets has a
guard for each of its parts, as they are written, around the code of its body; the body starts behind the
instruction that is emitted first. -/
structure Lambda.Guarded (l : Lambda Expr) (R : Routine) (guards : List Guard) : Prop where
  table : guards.map Guard.numbered = R.numbered
  fits : ∀ g ∈ guards, g.part.Fits R.code g.region
  inner : guards.Pairwise fun g h => g.region.Inner h.region
  blocks : ∀ g ∈ guards, ∃ body cs finallyBlock faultBlock ty,
    (Expr.node (.tryCatch body cs finallyBlock faultBlock) ty).Part l.body ∧
    (∀ h ∈ guards, h.region.tryStart = g.region.tryStart →
      body.toNode.StandsIn R.code h.region.tryStart h.region.tryEnd) ∧
    (guards.filter (·.region.tryStart == g.region.tryStart)).map Guard.part =
      ((ExprKind.tryCatch body cs finallyBlock faultBlock).map Expr.toNode).clauses
  complete : ∀ body cs finallyBlock faultBlock ty s,
    l.MeetsIn R (.node (.tryCatch body cs finallyBlock faultBlock) ty) s →
    ∃ own : List Guard, own.Sublist guards ∧
      (∀ g ∈ own, g.region.tryStart = s.position + 1 ∧
        body.toNode.StandsIn R.code g.region.tryStart g.region.tryEnd) ∧
      List.Forall₂ (fun part g => part.Fits R.code g.region)
        ((ExprKind.tryCatch body cs finallyBlock faultBlock).map Expr.toNode).clauses own

/-- Items that fit a list of labels wherever they share a key can be labelled all at once. -/
theorem exists_labels {α β : Type} {Fits : α → β → Prop} (key : β → Nat) {items : List β}
    {labels : Nat → List α}
    (h : ∀ k, List.Forall₂ Fits (labels k) (items.filter (key · == k))) :
    ∃ pairs : List (α × β), pairs.map Prod.snd = items ∧ (∀ x ∈ pairs, Fits x.1 x.2) ∧
      ∀ k, (pairs.filter (key ·.2 == k)).map Prod.fst = labels k := by
  induction items generalizing labels with
  | nil =>
      refine ⟨[], rfl, fun _ hx => absurd hx List.not_mem_nil, fun k => ?_⟩
      exact (List.forall₂_nil_right_iff.mp (h k)).symm
  | cons b items ih =>
      have hfirst := h (key b)
      rw [List.filter_cons_of_pos (p := (key · == key b)) (beq_self_eq_true _)] at hfirst
      obtain ⟨a, rest, hfits, hrest, hlabels⟩ := List.forall₂_cons_right_iff.mp hfirst
      have hothers : ∀ k, List.Forall₂ Fits (Function.update labels (key b) rest k)
          (items.filter (key · == k)) := fun k => by
        by_cases hk : k = key b
        · subst hk
          rwa [Function.update_self]
        · rw [Function.update_of_ne hk]
          have := h k
          rwa [List.filter_cons_of_neg (p := (key · == k)) (by simpa using Ne.symm hk)] at this
      obtain ⟨pairs, hitems, hpairs, hkeys⟩ := ih hothers
      refine ⟨(a, b) :: pairs, by rw [List.map_cons, hitems], ?_, fun k => ?_⟩
      · exact List.forall_mem_cons.mpr ⟨hfits, hpairs⟩
      · by_cases hk : k = key b
        · subst hk
          rw [List.filter_cons_of_pos (p := fun x : α × β => key x.2 == key b) (beq_self_eq_true _), List.map_cons,
            hkeys, Function.update_self, hlabels]
        · rw [List.filter_cons_of_neg (p := fun x : α × β => key x.2 == k) (by simpa using Ne.symm hk), hkeys,
            Function.update_of_ne hk]

theorem Routine.map_snd_numbered (R : Routine) : R.numbered.map Prod.snd = R.regions := by
  refine List.ext_getElem? fun i => ?_
  rw [numbered, List.getElem?_map, List.getElem?_mapIdx, Option.map_map]
  cases R.regions[i]? <;> rfl

/-- The table of a routine as the parts of protected blocks. -/
theorem Lambda.Tables.guarded {l : Lambda Expr} {R : Routine} (h : l.Tables R) :
    ∃ guards, l.Guarded R guards := by
  classical
  -- What starts where no region does has no parts.
  have hblocks : ∀ k, ∃ parts, List.Forall₂ (fun c (x : Nat × Region Nat) => Clause.Fits R.code c x.2)
      parts (R.numbered.filter (·.2.tryStart == k)) ∧
      ((∃ g ∈ R.regions, g.tryStart = k) → ∃ body cs finallyBlock faultBlock ty,
        (Expr.node (.tryCatch body cs finallyBlock faultBlock) ty).Part l.body ∧
        (∀ g ∈ R.regions, g.tryStart = k → body.toNode.StandsIn R.code g.tryStart g.tryEnd) ∧
        parts = ((ExprKind.tryCatch body cs finallyBlock faultBlock).map Expr.toNode).clauses) := by
    intro k
    have hregions : (R.numbered.filter (·.2.tryStart == k)).map Prod.snd =
        R.regions.filter (·.tryStart == k) := by
      rw [← Routine.map_snd_numbered, List.filter_map]
      rfl
    by_cases hk : ∃ g ∈ R.regions, g.tryStart = k
    · obtain ⟨g, hg, rfl⟩ := hk
      obtain ⟨body, cs, finallyBlock, faultBlock, ty, hpart, hbody, hfits⟩ := h.blocks g hg
      refine ⟨_, ?_, fun _ => ⟨body, cs, finallyBlock, faultBlock, ty, hpart, fun g' hg' hstart => ?_, rfl⟩⟩
      · rwa [← hregions, List.forall₂_map_right_iff] at hfits
      · exact hbody g' (List.mem_filter.mpr ⟨hg', beq_iff_eq.mpr hstart⟩)
    · refine ⟨[], ?_, fun h => absurd h hk⟩
      have hnone : R.regions.filter (·.tryStart == k) = [] :=
        List.filter_eq_nil_iff.mpr fun g hg hstart => hk ⟨g, hg, eq_of_beq hstart⟩
      rw [hnone, List.map_eq_nil_iff] at hregions
      rw [hregions]
      exact .nil
  choose parts hparts hsource using hblocks
  obtain ⟨pairs, hitems, hfits, hkeys⟩ :=
    exists_labels (fun x : Nat × Region Nat => x.2.tryStart) hparts
  have hmem : ∀ x ∈ pairs, x.2.2 ∈ R.regions := fun x hx =>
    List.mem_of_getElem? (Routine.mem_numbered.mp (hitems ▸ List.mem_map_of_mem hx))
  have hregions : pairs.map (·.2.2) = R.regions := by
    rw [← Routine.map_snd_numbered, ← hitems, List.map_map]
    rfl
  refine ⟨pairs.map fun x => ⟨x.1, x.2.1, x.2.2⟩, ?_, ?_, ?_, ?_, fun _ _ _ _ _ _ hmeets => ?_⟩
  · rw [List.map_map, ← hitems]
    rfl
  · exact List.forall_mem_map.mpr hfits
  · have hinner : R.regions.Pairwise Region.Inner :=
      h.placed.imp_of_mem fun hg hh hplaced => hplaced.inner (h.ranged _ hg) (h.ranged _ hh)
    rw [← hregions, List.pairwise_map] at hinner
    exact List.pairwise_map.mpr hinner
  · refine List.forall_mem_map.mpr fun x hx => ?_
    obtain ⟨body, cs, finallyBlock, faultBlock, ty, hpart, hbody, hclauses⟩ :=
      hsource x.2.2.tryStart ⟨_, hmem x hx, rfl⟩
    refine ⟨body, cs, finallyBlock, faultBlock, ty, hpart, List.forall_mem_map.mpr fun y hy hstart =>
      hbody _ (hmem y hy) hstart, ?_⟩
    rw [List.filter_map, List.map_map, ← hclauses, ← hkeys]
    rfl
  · obtain ⟨own, hown, hstands, hclauses⟩ := hmeets.guards
    rw [← hregions] at hown
    obtain ⟨chosen, hchosen, rfl⟩ := List.sublist_map_iff.mp hown
    exact ⟨_, hchosen.map _, List.forall_mem_map.mpr (List.forall_mem_map.mp hstands),
      List.forall₂_map_right_iff.mpr (List.forall₂_map_right_iff.mp hclauses)⟩

/-! ## Answers -/

namespace Run

section

variable (r : Registry) (run : Executor) (R : Routine) (e : Ref) (ty : TypeId)

/-- How a guard answers an exception of the type, asked in a state, and the state behind that. -/
inductive Answers : Guard → State → Bool → State → Prop
  /-- A handler for other types declines, and its filter is not evaluated. -/
  | unfit {g : Guard} {h : CatchBlock Node} {s : State} (part : g.part = .handler h)
      (unfit : ¬ h.IsFor r ty) : Answers g s false s
  | typed {g : Guard} {h : CatchBlock Node} {s : State} (part : g.part = .handler h)
      (fits : h.IsFor r ty) (filter : h.filter = none) : Answers g s true s
  | filtered {g : Guard} {h : CatchBlock Node} {test : Node} {start : Nat} {verdict : Bool}
      {s t : State} (part : g.part = .handler h) (fits : h.IsFor r ty) (filter : h.filter = some test)
      (kind : g.region.kind = .filter start)
      (run : runFilter run R g.region start e s = .ok verdict t) : Answers g s verdict t
  /-- A fault or finally block handles nothing. -/
  | block {g : Guard} {s : State} (part : ∀ h, g.part ≠ .handler h) : Answers g s false s

/-- The guards are asked one after the other, and all of them decline. -/
inductive Declined : List Guard → State → State → Prop
  | nil {s : State} : Declined [] s s
  | cons {g : Guard} {gs : List Guard} {s t u : State} (first : Answers r run R e ty g s false t)
      (rest : Declined gs t u) : Declined (g :: gs) s u

/-- The first guard that takes the exception is chosen; those before it are asked as well, and none
behind it. -/
inductive Chooses (gs : List Guard) (s : State) : List Guard → Option Guard → State → Prop
  | some {before after : List Guard} {g : Guard} {t u : State} (split : gs = before ++ g :: after)
      (declined : Declined r run R e ty before s t) (taken : Answers r run R e ty g t true u) :
      Chooses gs s before (some g) u
  | none {t : State} (declined : Declined r run R e ty gs s t) : Chooses gs s gs none t

end

/-- How an exception `e` of type `ty` is dispatched: first a guard is chosen, and then the fault and
finally blocks before it are run. -/
inductive Dispatched (r : Registry) (fuel : Nat) (R : Routine) (pc : Nat) (span : Span)
    (gs : List Guard) (e : Ref) (ty : TypeId) (s : State) : EStateM.Result Trap State Nat → Prop
  /-- The chosen handler is entered. -/
  | entered {before : List Guard} {g : Guard} {t u : State}
      (choice : Chooses r (exec r fuel) R e ty gs s before (some g) t)
      (blocks : unwind (exec r fuel) R none (before.map Guard.numbered) t = .ok none u) :
      Dispatched r fuel R pc span gs e ty s (enterHandler R pc g.index g.region e u)
  /-- No handler takes the exception, and it leaves the span. -/
  | unhandled {before : List Guard} {t u : State}
      (choice : Chooses r (exec r fuel) R e ty gs s before none t)
      (blocks : unwind (exec r fuel) R none (before.map Guard.numbered) t = .ok none u) :
      Dispatched r fuel R pc span gs e ty s (.error (.thrown e) u)
  /-- Another exception escapes from one of the blocks, and is dispatched from the start of it. -/
  | replaced {before : List Guard} {chosen : Option Guard} {t u : State} {start : Nat} {e' : Ref}
      (choice : Chooses r (exec r fuel) R e ty gs s before chosen t)
      (blocks : unwind (exec r fuel) R none (before.map Guard.numbered) t = .ok (some (start, e')) u) :
      Dispatched r fuel R pc span gs e ty s (dispatch r fuel R start e' span u)
  /-- One of the blocks is not completed. -/
  | stopped {before : List Guard} {chosen : Option Guard} {t u : State} {trap : Trap}
      (choice : Chooses r (exec r fuel) R e ty gs s before chosen t)
      (blocks : unwind (exec r fuel) R none (before.map Guard.numbered) t = .error trap u) :
      Dispatched r fuel R pc span gs e ty s (.error trap u)
  /-- A filter is not completed. -/
  | failed {before after : List Guard} {g : Guard} {start : Nat} {t u : State} {trap : Trap}
      (split : gs = before ++ g :: after) (declined : Declined r (exec r fuel) R e ty before s t)
      (kind : g.region.kind = .filter start)
      (run : runFilter (exec r fuel) R g.region start e t = .error trap u) :
      Dispatched r fuel R pc span gs e ty s (.error trap u)

section

variable {r : Registry} {fuel : Nat} {R : Routine} {e : Ref} {ty : TypeId}
  (hhosts : r.HostsKeep State.HeapEvolves)

/-- A type is compared with that of the exception along its bases. -/
theorem catches_eq (hr : r.Ordered) {s : State} (hty : s.heap.objectType? e = some ty)
    {h : CatchBlock Node} :
    ∃ caught, catches r h.ty e s = .ok caught s ∧ (caught = true ↔ h.IsFor r ty) := by
  unfold CatchBlock.IsFor
  cases h.ty with
  | object => exact ⟨true, rfl, by simp⟩
  | classTy id =>
      refine ⟨r.isSubclass ty id, ?_, by simp [Registry.isSubclass_iff hr]⟩
      refine (bind_of_ok (rfl : (get : Run State) s = .ok s s)).trans ?_
      rw [hty]
      rfl
  | _ => exact ⟨false, rfl, by simp⟩

/-- A region answers as its guard does, if its filter is asked for exceptions of its type only. -/
theorem answers_of_selects (hr : r.Ordered) {g : Guard} (hfits : g.part.Fits R.code g.region)
    (hfilter : ∀ h, g.part = .handler h → h.filter ≠ none → h.IsFor r ty) {s : State}
    (hty : s.heap.objectType? e = some ty) {run : Executor} {verdict : Bool} {t : State}
    (hrun : selects r run R g.region e s = .ok verdict t) : Answers r run R e ty g s verdict t := by
  obtain ⟨part, i, region⟩ := g
  unfold selects at hrun
  cases hfits with
  | @«catch» h _ hnone kind _ =>
      rw [kind] at hrun
      obtain ⟨caught, hcatches, hcaught⟩ := catches_eq hr hty (h := h)
      cases hcatches.symm.trans hrun
      cases verdict with
      | true => exact .typed rfl (hcaught.mp rfl) hnone
      | false => exact .unfit rfl fun hfor => absurd (hcaught.mpr hfor) Bool.false_ne_true
  | @filter h test start _ hsome kind _ _ =>
      rw [kind] at hrun
      exact .filtered rfl (hfilter h rfl (by rw [hsome]; exact Option.some_ne_none _)) hsome kind hrun
  | fault kind _ | «finally» kind _ =>
      rw [kind] at hrun
      cases hrun
      exact .block fun _ h => nomatch h

include hhosts in
/-- A guard that has answered leaves the exception with its type. -/
theorem Answers.objectType? {g : Guard} {s t : State} {verdict : Bool}
    (h : Answers r (exec r fuel) R e ty g s verdict t) (hty : s.heap.objectType? e = some ty) :
    t.heap.objectType? e = some ty := by
  cases h with
  | unfit | typed | block => exact hty
  | filtered _ _ _ _ hrun => exact ((evolves_runFilter hhosts).of_ok .refl hrun).types.objects e ty hty

/-- Asking a region fails only where its filter does. -/
theorem filter_of_selects_error {g : Region Nat} {run : Executor} {s t : State} {trap : Trap}
    (h : selects r run R g e s = .error trap t) :
    ∃ start, g.kind = .filter start ∧ runFilter run R g start e s = .error trap t := by
  cases hkind : g.kind with
  | «catch» ty =>
      simp only [selects, hkind] at h
      have hcaught : ∃ caught, catches r ty e s = .ok caught s := by
        cases ty with
        | classTy id =>
            have hget : (get : Run State) s = .ok s s := rfl
            cases hfound : s.heap.objectType? e with
            | some own =>
                refine ⟨r.isSubclass own id, (bind_of_ok hget).trans ?_⟩
                rw [hfound]
                rfl
            | none =>
                refine ⟨false, (bind_of_ok hget).trans ?_⟩
                rw [hfound]
                rfl
        | _ => exact ⟨_, rfl⟩
      obtain ⟨caught, hcaught⟩ := hcaught
      cases hcaught.symm.trans h
  | filter start =>
      simp only [selects, hkind] at h
      exact ⟨start, rfl, h⟩
  | «finally» | fault =>
      simp only [selects, hkind] at h
      cases h

include hhosts in
/-- The search for a handler asks the guards in their order. -/
theorem select_guards (hr : r.Ordered) {gs : List Guard}
    (hfits : ∀ g ∈ gs, g.part.Fits R.code g.region)
    (hfilter : ∀ g ∈ gs, ∀ h, g.part = .handler h → h.filter ≠ none → h.IsFor r ty) {s : State}
    (hty : s.heap.objectType? e = some ty) :
    match select r (exec r fuel) R e (gs.map Guard.numbered) s with
    | .ok chosen t => ∃ before g, chosen = g.map Guard.numbered ∧
        Chooses r (exec r fuel) R e ty gs s before g t
    | .error trap t => ∃ before g after start u, gs = before ++ g :: after ∧
        Declined r (exec r fuel) R e ty before s u ∧ g.region.kind = .filter start ∧
        runFilter (exec r fuel) R g.region start e u = .error trap t := by
  induction gs generalizing s with
  | nil => exact ⟨[], none, rfl, .none .nil⟩
  | cons g gs ih =>
      obtain ⟨hg, hfits⟩ := List.forall_mem_cons.mp hfits
      obtain ⟨hgfilter, hfilter⟩ := List.forall_mem_cons.mp hfilter
      have hrun : select r (exec r fuel) R e ((g :: gs).map Guard.numbered) s =
          EStateM.bind (selects r (exec r fuel) R g.region e) (fun selected =>
            if selected then pure (some g.numbered)
            else select r (exec r fuel) R e (gs.map Guard.numbered)) s := rfl
      rw [hrun]
      unfold EStateM.bind
      cases hselects : selects r (exec r fuel) R g.region e s with
      | error trap t =>
          obtain ⟨start, hkind, hrun⟩ := filter_of_selects_error hselects
          exact ⟨[], g, gs, start, s, rfl, .nil, hkind, hrun⟩
      | ok verdict t =>
          have hanswers := answers_of_selects hr hg hgfilter hty hselects
          cases verdict with
          | true => exact ⟨[], some g, rfl, .some rfl .nil hanswers⟩
          | false =>
              have hrest := ih hfits hfilter (hanswers.objectType? hhosts hty)
              simp only [Bool.false_eq_true, if_false]
              revert hrest
              cases select r (exec r fuel) R e (gs.map Guard.numbered) t with
              | ok chosen u =>
                  rintro ⟨before, chosen, rfl, hchoice⟩
                  refine ⟨g :: before, chosen, rfl, ?_⟩
                  cases hchoice with
                  | some hsplit hdeclined htaken =>
                      exact .some (by rw [hsplit]; rfl) (.cons hanswers hdeclined) htaken
                  | none hdeclined => exact .none (.cons hanswers hdeclined)
              | error trap u =>
                  rintro ⟨before, g', after, start, v, hsplit, hdeclined, hkind, hrun⟩
                  exact ⟨g :: before, g', after, start, v, by rw [hsplit]; rfl, .cons hanswers hdeclined,
                    hkind, hrun⟩

theorem Chooses.subset {run : Executor} {gs before : List Guard} {chosen : Option Guard} {s t : State}
    (h : Chooses r run R e ty gs s before chosen t) : ∀ g ∈ before, g ∈ gs := by
  cases h with
  | some hsplit => exact fun g hg => hsplit ▸ List.mem_append_left _ hg
  | none => exact fun g hg => hg

/-- The blocks before the chosen region are run as if there were none behind them. -/
theorem unwind_before {run : Executor} {i : Nat} {g : Region Nat} {before after : List (Nat × Region Nat)}
    (h : ∀ x ∈ before, x.1 ≠ i) :
    unwind run R (some i) (before ++ (i, g) :: after) = unwind run R none before := by
  induction before with
  | nil =>
      rw [List.nil_append, unwind]
      exact if_pos rfl
  | cons x before ih =>
      obtain ⟨k, x⟩ := x
      obtain ⟨hk, h⟩ := List.forall_mem_cons.mp h
      have hchosen : ¬ some i = some k := by simpa using Ne.symm hk
      rw [List.cons_append, unwind, unwind, ih h, if_neg hchosen, if_neg (by simp : ¬ none = some k)]

include hhosts in
/-- An exception is dispatched along the guards around the throw point. -/
theorem dispatch_guards (hr : r.Ordered) {pc : Nat} {span : Span} {gs : List Guard}
    (hgs : gs.map Guard.numbered = candidates R pc span)
    (hfits : ∀ g ∈ gs, g.part.Fits R.code g.region)
    (hfilter : ∀ g ∈ gs, ∀ h, g.part = .handler h → h.filter ≠ none → h.IsFor r ty) {s : State}
    (hty : s.heap.objectType? e = some ty) :
    Dispatched r fuel R pc span gs e ty s (dispatch r (fuel + 1) R pc e span s) := by
  have hselect := @select_guards r fuel R e ty hhosts hr gs hfits hfilter s hty
  rw [hgs] at hselect
  unfold dispatch
  dsimp only
  revert hselect
  cases select r (exec r fuel) R e (candidates R pc span) s with
  | error trap t =>
      rintro ⟨before, g, after, start, u, hsplit, hdeclined, hkind, hrun⟩
      exact .failed hsplit hdeclined hkind hrun
  | ok chosen t =>
      rintro ⟨before, chosen, rfl, hchoice⟩
      have hunwind : unwind (exec r fuel) R ((chosen.map Guard.numbered).map (·.1))
          (candidates R pc span) t = unwind (exec r fuel) R none (before.map Guard.numbered) t := by
        have hsorted := candidates_sorted R pc span
        cases hchoice with
        | @some _ after g _ _ hsplit _ _ =>
            rw [← hgs, hsplit, List.map_append, List.map_cons] at hsorted ⊢
            refine congrFun (unwind_before fun x hx => Nat.ne_of_lt ?_) t
            exact (List.pairwise_append.mp hsorted).2.2 x hx g.numbered List.mem_cons_self
        | none => rw [← hgs]; rfl
      dsimp only
      rw [hunwind]
      cases hblocks : unwind (exec r fuel) R none (before.map Guard.numbered) t with
      | error trap u => exact .stopped hchoice hblocks
      | ok escaped u =>
          cases escaped with
          | some escaped => exact .replaced hchoice hblocks
          | none =>
              cases chosen with
              | none => exact .unhandled hchoice hblocks
              | some g => exact .entered hchoice hblocks

end

end Run

/-- The guards around a position are the regions around it. -/
theorem Lambda.Guarded.candidates {l : Lambda Expr} {R : Routine} {guards : List Guard}
    (h : l.Guarded R guards) (pc : Nat) (span : Span) :
    (guards.filter (Guard.isAround pc span)).map Guard.numbered = Run.candidates R pc span := by
  change _ = R.numbered.filter fun x => x.2.tryContains pc && span.covers x.2
  rw [← h.table, List.filter_map]
  rfl

/-- In compiled code, the regions are the parts of the protected blocks of the function, and every block
that emission meets has its own.  An exception is dispatched along those around the throw point, inner
blocks first and the parts of a block as they are written: the first handler is chosen that is declared
for the type of the exception and whose filter, if it has one, yields true.  A filter is asked only for
exceptions of the type of its handler, and before any fault or finally block is run.  All of this
presupposes that the handlers with filters around the throw point are declared for the type of the
exception; no other filter would be asked otherwise. -/
theorem handlers_of_compiled {helpers : HelperCache} {setting : Setting} {f : Lambda Expr}
    {c : CompiledUnit} (hcompile : (compileWith helpers setting f).result = .ok c) :
    ∀ R ∈ c.routine :: c.units, ∃ l ∈ f :: f.body.functions, l.CompilesTo R ∧
      ∃ guards, l.Guarded R guards ∧
        ∀ (r : Registry) (fuel pc : Nat) (span : Span) (e : Ref) (ty : TypeId) (s : State), r.Ordered →
          r.HostsKeep State.HeapEvolves → s.heap.objectType? e = some ty →
          (∀ g ∈ guards.filter (Guard.isAround pc span), ∀ h, g.part = .handler h →
            h.filter ≠ none → h.IsFor r ty) →
          Run.Dispatched r fuel R pc span (guards.filter (Guard.isAround pc span)) e ty s
            (Run.dispatch r (fuel + 1) R pc e span s) := by
  intro R hR
  obtain ⟨l, hl, hcompiles⟩ := compilesTo_of_compiled hcompile R hR
  obtain ⟨guards, hguarded⟩ := hcompiles.tables.guarded
  refine ⟨l, hl, hcompiles, guards, hguarded, fun r fuel pc span e ty s hr hhosts hty hfilter => ?_⟩
  exact Run.dispatch_guards hhosts hr (hguarded.candidates pc span)
    (fun g hg => hguarded.fits g (List.mem_of_mem_filter hg)) hfilter hty

/-- The handler of a guard is written in the function. -/
theorem Lambda.Guarded.exists_handler {l : Lambda Expr} {R : Routine} {guards : List Guard}
    (h : l.Guarded R guards) {g : Guard} (hg : g ∈ guards) {c : CatchBlock Node}
    (hpart : g.part = .handler c) : ∃ body cs finallyBlock faultBlock ty,
      (Expr.node (.tryCatch body cs finallyBlock faultBlock) ty).Part l.body ∧
        ∃ written ∈ cs, written.map Expr.toNode = c := by
  obtain ⟨body, cs, finallyBlock, faultBlock, ty, hsource, -, hclauses⟩ := h.blocks g hg
  refine ⟨body, cs, finallyBlock, faultBlock, ty, hsource, ?_⟩
  have hmem : Clause.handler c ∈
      ((ExprKind.tryCatch body cs finallyBlock faultBlock).map Expr.toNode).clauses := by
    rw [← hclauses, ← hpart]
    exact List.mem_map_of_mem (List.mem_filter.mpr ⟨hg, beq_self_eq_true _⟩)
  simpa [ExprKind.clauses, ExprKind.map] using hmem

/-- A null dereference is thrown in a block with a handler for another type, which a block with a filter
is around. -/
def pickyHandlers : Lambda Expr :=
  let num (n : Int) : Expr := .node (.constant (.num (.i32 n))) .int
  let always : Expr := .node (.constant (.bool true)) .bool
  let nothing : Expr := .node (.block [] []) .void
  let fault : Expr := .node (.throw (some (.node (.new none []) (.classTy 1)))) .void
  let inner : Expr :=
    .node (.tryCatch fault [⟨.classTy 2, none, none, nothing⟩] (some nothing) none) .void
  ⟨"pickyHandlers", [], .int, .node (.tryCatch (.node (.block [] [inner, num 1]) .int)
    [⟨.classTy 0, none, some always, num 2⟩] none none) .int, ⟨false, false⟩⟩

/-- A null dereference is thrown in a block whose handler has a filter, but is for another type. -/
def strayFilter : Lambda Expr :=
  let num (n : Int) : Expr := .node (.constant (.num (.i32 n))) .int
  let always : Expr := .node (.constant (.bool true)) .bool
  let fault : Expr := .node (.throw (some (.node (.new none []) (.classTy 1)))) .void
  ⟨"strayFilter", [], .int, .node (.tryCatch (.node (.block [] [fault, num 0]) .int)
    [⟨.classTy 2, none, some always, num 1⟩] none none) .int, ⟨false, false⟩⟩

/-- The state at the throw. -/
def faultedState : State :=
  { State.initial with
    heap := (State.initial.heap.newObject ⟨1, #[.null]⟩).2
    frames := [⟨#[], Array.replicate 10 (.int 0), [], []⟩] }

/-- Where an exception was dispatched to. -/
def Run.handlerOf? : EStateM.Result Trap State Nat → Option Nat
  | .ok handler _ => some handler
  | .error _ _ => none

set_option maxRecDepth 4000 in
/-- The outer block is met.  The filter is evaluated, the block inside is run, and the outer handler is
entered. -/
theorem handlers_pickyHandlers :
    ∃ c guards t, (compileWith .empty ⟨.builtin, .default⟩ pickyHandlers).result = .ok c ∧
      pickyHandlers.Guarded c.routine guards ∧
      (∃ s, pickyHandlers.MeetsIn c.routine pickyHandlers.body s) ∧
      Run.dispatch .builtin 6 c.routine 8 0 ⟨0, 29⟩ faultedState = .ok 22 t ∧
      Run.Dispatched .builtin 5 c.routine 8 ⟨0, 29⟩ (guards.filter (Guard.isAround 8 ⟨0, 29⟩)) 0 1
        faultedState (.ok 22 t) := by
  have hlands : (compileWith .empty ⟨.builtin, .default⟩ pickyHandlers).result.toOption.any (fun c =>
      decide (Run.handlerOf? (Run.dispatch .builtin 6 c.routine 8 0 ⟨0, 29⟩ faultedState) = some 22)) =
        true := by
    decide +kernel
  cases hc : (compileWith .empty ⟨.builtin, .default⟩ pickyHandlers).result with
  | error e =>
      rw [hc] at hlands
      cases hlands
  | ok c =>
      rw [hc] at hlands
      have hlands := of_decide_eq_true hlands
      obtain ⟨l, hl, -, guards, hguarded, hdispatched⟩ :=
        handlers_of_compiled hc c.routine List.mem_cons_self
      obtain rfl : l = pickyHandlers := List.mem_singleton.mp hl
      have hfilter : ∀ g ∈ guards, ∀ h, g.part = .handler h → h.filter ≠ none → h.IsFor .builtin 1 := by
        intro g hg h hpart hsome
        obtain ⟨body, cs, finallyBlock, faultBlock, ty, hsource, written, hwritten, rfl⟩ :=
          hguarded.exists_handler hg hpart
        simp [pickyHandlers, Expr.part_node_iff, ExprKind.children] at hsource
        rcases hsource with ⟨⟨-, rfl, -⟩, -⟩ | ⟨⟨-, rfl, -⟩, -⟩
        · obtain rfl := List.mem_singleton.mp hwritten
          exact .inr ⟨0, rfl, (Registry.isSubclass_iff Registry.ordered_builtin).mp (by decide)⟩
        · obtain rfl := List.mem_singleton.mp hwritten
          exact absurd rfl hsome
      have hresult := hdispatched .builtin 5 8 ⟨0, 29⟩ 0 1 faultedState Registry.ordered_builtin
        (Registry.hostsKeep_builtin _) rfl fun g hg => hfilter g (List.mem_of_mem_filter hg)
      revert hlands hresult
      cases hrun : Run.dispatch .builtin 6 c.routine 8 0 ⟨0, 29⟩ faultedState with
      | error trap t =>
          intro hlands
          cases hlands
      | ok handler t =>
          intro hlands hresult
          obtain rfl : handler = 22 := Option.some.inj hlands
          exact ⟨c, guards, t, rfl, hguarded, Lambda.meetsIn_body hc, hrun, hresult⟩

set_option maxRecDepth 4000 in
/-- The filter of a handler for another type is asked, and the handler entered. -/
theorem not_dispatched_strayFilter :
    ¬ ∀ (helpers : HelperCache) (setting : Setting) (f : Lambda Expr) (c : CompiledUnit),
      (compileWith helpers setting f).result = .ok c →
      ∀ R ∈ c.routine :: c.units, ∃ l ∈ f :: f.body.functions, l.CompilesTo R ∧
        ∃ guards, l.Guarded R guards ∧
          ∀ (r : Registry) (fuel pc : Nat) (span : Span) (e : Ref) (ty : TypeId) (s : State),
            r.Ordered → r.HostsKeep State.HeapEvolves → s.heap.objectType? e = some ty →
            Run.Dispatched r fuel R pc span (guards.filter (Guard.isAround pc span)) e ty s
              (Run.dispatch r (fuel + 1) R pc e span s) := by
  intro hclaim
  have hlands : (compileWith .empty ⟨.builtin, .default⟩ strayFilter).result.toOption.any (fun c =>
      decide (Run.handlerOf? (Run.dispatch .builtin 6 c.routine 6 0 ⟨0, 21⟩ faultedState) = some 14 ∧
        c.routine.regions.all fun g => !g.isUnwinding)) = true := by
    decide +kernel
  cases hc : (compileWith .empty ⟨.builtin, .default⟩ strayFilter).result with
  | error e =>
      rw [hc] at hlands
      cases hlands
  | ok c =>
      rw [hc] at hlands
      obtain ⟨hlands, hnone⟩ := of_decide_eq_true hlands
      obtain ⟨l, hl, -, guards, hguarded, hdispatched⟩ := hclaim _ _ _ c hc _ List.mem_cons_self
      obtain rfl : l = strayFilter := List.mem_singleton.mp hl
      have hresult := hdispatched .builtin 5 6 ⟨0, 21⟩ 0 1 faultedState Registry.ordered_builtin
        (Registry.hostsKeep_builtin _) rfl
      -- The only handler is not for the type of the exception, so that no guard takes it.
      have hunfit : ∀ g ∈ guards, ∀ h, g.part = .handler h → ¬ h.IsFor .builtin 1 := by
        intro g hg h hpart
        obtain ⟨body, cs, finallyBlock, faultBlock, ty, hsource, written, hwritten, rfl⟩ :=
          hguarded.exists_handler hg hpart
        simp [strayFilter, Expr.part_node_iff, ExprKind.children] at hsource
        obtain ⟨⟨-, rfl, -⟩, -⟩ := hsource
        obtain rfl := List.mem_singleton.mp hwritten
        rintro (hobject | ⟨id, hid, hbase⟩)
        · cases hobject
        · cases hid
          rw [← Registry.isSubclass_iff Registry.ordered_builtin] at hbase
          exact absurd hbase (by decide)
      have hguards : ∀ g ∈ guards.filter (Guard.isAround 6 ⟨0, 21⟩), g ∈ guards :=
        fun g hg => List.mem_of_mem_filter hg
      generalize Run.dispatch .builtin 6 c.routine 6 0 ⟨0, 21⟩ faultedState = out at hlands hresult
      cases hresult with
      | @entered before g _ _ choice _ =>
          cases choice with
          | some split _ taken =>
              have hg := hguards g (split ▸ List.mem_append_right _ List.mem_cons_self)
              cases taken with
              | typed part fits _ | filtered part fits _ _ _ => exact hunfit g hg _ part fits
      | replaced choice blocks =>
          obtain ⟨x, hx, hunwinding, -⟩ := Run.escape_of_unwind blocks
          obtain ⟨g, hg, rfl⟩ := List.mem_map.mp hx
          have hregion := List.all_eq_true.mp hnone g.region <| List.mem_of_getElem? <|
            Routine.mem_numbered.mp <| hguarded.table ▸
              List.mem_map_of_mem (hguards g (choice.subset g hg))
          rw [show g.region.isUnwinding = true from hunwinding] at hregion
          cases hregion
      | unhandled | stopped | failed => cases hlands

end Arbor
