/-
  Tables of regions.

  An exception is dispatched along the table of a routine: of the regions around a
  throw point the first one that handles it is taken.  This picks the innermost
  handler because bodies that meet are nested, inner ones first, and because the
  handlers of one protected block come in the order in which they are written.
  Without jumps of the tree, control gets from one range of a region to another
  only by leaving it.  Bodies around the block of a region come later in the table
  and are around its body as well, so that a handler behind the blocks on the way
  out is entered from the stack of its own block.
-/
import Arbor.Proofs.Emission.SealedUnits
import Arbor.Proofs.HandlerStacks

set_option autoImplicit false

namespace Arbor

namespace Region

/-- The first range lies within the second one. -/
def Inside (a b : Nat → Bool) : Prop := ∀ p, a p = true → b p = true

/-- No position lies in both ranges. -/
def Apart (a b : Nat → Bool) : Prop := ∀ p, a p = true → b p = false

/-- The handler of the first region, with its filter block, lies inside or outside of each range of the
second one. -/
def Clears (g h : Region Nat) : Prop :=
  (Inside g.handlerContains h.tryContains ∨ Apart g.handlerContains h.tryContains) ∧
    (Inside g.handlerContains h.handlerContains ∨ Apart g.handlerContains h.handlerContains)

/-- The handler of the first region, with its filter block, is around each range of the second one or
lies outside of it. -/
def Spans (g h : Region Nat) : Prop :=
  (Inside h.tryContains g.handlerContains ∨ Apart h.tryContains g.handlerContains) ∧
    (Inside h.handlerContains g.handlerContains ∨ Apart h.handlerContains g.handlerContains)

section

variable {g h : Region Nat} {p : Nat}

/-- A range within the other. -/
theorem inside_of_bounds {a b : Nat → Bool} {first last first' last' : Nat}
    (ha : ∀ p, a p = true ↔ first ≤ p ∧ p < last) (hb : ∀ p, b p = true ↔ first' ≤ p ∧ p < last')
    (hfirst : first' ≤ first) (hlast : last ≤ last') : Inside a b := by
  intro p hp
  rw [ha] at hp
  rw [hb]
  omega

/-- Ranges one behind the other. -/
theorem apart_of_bounds {a b : Nat → Bool} {first last first' last' : Nat}
    (ha : ∀ p, a p = true ↔ first ≤ p ∧ p < last) (hb : ∀ p, b p = true ↔ first' ≤ p ∧ p < last')
    (h : last ≤ first' ∨ last' ≤ first) : Apart a b := by
  intro p hp
  rw [ha] at hp
  rw [Bool.eq_false_iff, ne_eq, hb]
  omega

theorem Ranged.apart (hg : g.Ranged) : Apart g.handlerContains g.tryContains :=
  apart_of_bounds (fun _ => handlerContains_iff) (fun _ => tryContains_iff) (.inr hg.behind)

/-- Bodies that meet are nested, inner ones first. -/
theorem Placed.inner (hg : g.Ranged) (hh : h.Ranged) (hplaced : g.Placed h) : g.Inner h := by
  obtain ⟨-, hbehind, hfilter, hhandler⟩ := hg
  obtain ⟨-, hbehind', hfilter', -⟩ := hh
  intro p hp hp' q hq
  rw [tryContains_iff] at hp hp' hq ⊢
  cases hplaced <;> omega

/-- The handler of the first region lies inside or outside of the ranges of the second one. -/
theorem Placed.clears (hg : g.Ranged) (hh : h.Ranged) (hplaced : g.Placed h) : g.Clears h := by
  have hbody : ∀ p, h.tryContains p = true ↔ _ := fun _ => tryContains_iff
  have hhandler : ∀ (k : Region Nat) p, k.handlerContains p = true ↔ _ := fun _ _ => handlerContains_iff
  obtain ⟨hstart, hbehind, -, -⟩ := hg
  obtain ⟨hstart', hbehind', hfilter', hend'⟩ := hh
  cases hplaced with
  | inBody first last =>
      exact ⟨.inl (inside_of_bounds (hhandler g) hbody (by omega) last),
        .inr (apart_of_bounds (hhandler g) (hhandler h) (by omega))⟩
  | inFilter first last | inHandler first last =>
      exact ⟨.inr (apart_of_bounds (hhandler g) hbody (by omega)),
        .inl (inside_of_bounds (hhandler g) (hhandler h) (by omega) (by omega))⟩
  | before | between | beside =>
      exact ⟨.inr (apart_of_bounds (hhandler g) hbody (by omega)),
        .inr (apart_of_bounds (hhandler g) (hhandler h) (by omega))⟩

/-- The handler of the second region is around the ranges of the first one or lies outside of them. -/
theorem Placed.spans (hg : g.Ranged) (hh : h.Ranged) (hplaced : g.Placed h) : h.Spans g := by
  have hbody : ∀ p, g.tryContains p = true ↔ _ := fun _ => tryContains_iff
  have hhandler : ∀ p, h.handlerContains p = true ↔ _ := fun _ => handlerContains_iff
  refine ⟨?_, (hplaced.clears hg hh).2⟩
  obtain ⟨-, hbehind, hfilter, hend⟩ := hg
  obtain ⟨hstart', hbehind', hfilter', hend'⟩ := hh
  cases hplaced with
  | inFilter first last | inHandler first last =>
      exact .inl (inside_of_bounds hbody hhandler (by omega) (by omega))
  | before | inBody | between | beside =>
      exact .inr (apart_of_bounds hbody hhandler (by omega))

/-- Where the body of the second region is around the handler of the first one, it is around its body as
well. -/
theorem Placed.covers (hg : g.Ranged) (hh : h.Ranged) (hplaced : g.Placed h)
    (haround : h.tryContains g.handlerStart = true) :
    h.tryStart ≤ g.tryStart ∧ g.tryEnd ≤ h.tryEnd := by
  obtain ⟨hbody, hbehind, hfilter, hhandler⟩ := hg
  obtain ⟨-, hbehind', hfilter', -⟩ := hh
  rw [tryContains_iff] at haround
  cases hplaced <;> omega

/-- The body of the first region is not around the start of the handler of the second one. -/
theorem Placed.not_around (hg : g.Ranged) (hh : h.Ranged) (hplaced : g.Placed h) :
    g.tryContains h.handlerStart = false := by
  obtain ⟨-, hbehind, hfilter, hhandler⟩ := hg
  obtain ⟨hbody, hbehind', hfilter', -⟩ := hh
  rw [Bool.eq_false_iff, ne_eq, tryContains_iff]
  cases hplaced <;> omega

end

end Region

/-- Regions around the block of another one come behind it in the table, and are around its body. -/
theorem Lambda.Tables.laminar {l : Lambda Expr} {R : Routine} (h : l.Tables R) : R.Laminar := by
  rintro ⟨i, g⟩ hx ⟨j, k⟩ hy - haround
  obtain ⟨hi, rfl⟩ := List.getElem?_eq_some_iff.mp (Routine.mem_numbered.mp hx)
  obtain ⟨hj, rfl⟩ := List.getElem?_eq_some_iff.mp (Routine.mem_numbered.mp hy)
  have hplaced := List.pairwise_iff_getElem.mp h.placed
  have hg := h.ranged _ (List.getElem_mem hi)
  have hk := h.ranged _ (List.getElem_mem hj)
  rcases Nat.lt_trichotomy i j with hlt | rfl | hlt
  · exact ⟨hlt, (hplaced i j hi hj hlt).covers hg hk haround⟩
  · have hlast := (Region.tryContains_iff.mp haround).2
    exact absurd hlast (Nat.not_lt_of_le (Nat.le_trans hg.behind hg.filter))
  · rw [(hplaced j i hj hi hlt).not_around hk hg] at haround
    cases haround

/-- Compiled code has a table of regions.  Of two regions whose bodies meet, the first one has its body
within that of the second.  A handler, with its filter block, is apart from its own body; it lies inside
or outside of the ranges of later regions, and is around those of earlier ones or lies outside of them.
The regions with one body are those of a protected block of the function, in the order in which its
parts are written.  If the function has no jumps, branches stay in the ranges that they start in.
Helpers have no regions. -/
theorem regions_of_compiled {helpers : HelperCache} {setting : Setting} {f : Lambda Expr}
    {c : CompiledUnit} (hcompile : (compileWith helpers setting f).result = .ok c) :
    (∀ R ∈ c.routine :: c.units, ∃ l ∈ f :: f.body.functions, l.CompilesTo R ∧
      (R.regions.Pairwise fun g h => g.Inner h ∧ g.Clears h ∧ h.Spans g) ∧
      (∀ g ∈ R.regions, Region.Apart g.handlerContains g.tryContains) ∧
      (∀ g ∈ R.regions, ∃ k ty, (Expr.node k ty).Part l.body ∧
        List.Forall₂ (Clause.Fits R.code) (k.map Expr.toNode).clauses
          (R.regions.filter (·.tryStart == g.tryStart))) ∧
      (l.body.hasGoto = false → ∀ p i, R.code[p]? = some i → ∀ target ∈ i.branches,
        ∃ q, R.target? target = some q ∧ ∀ g ∈ R.regions, g.Level p q)) ∧
    ∀ (kind : HelperKind) elem, (kind.routine elem).regions = [] := by
  refine ⟨fun R hR => ?_, fun kind elem => by cases kind <;> rfl⟩
  obtain ⟨l, hl, hcompiles⟩ := compilesTo_of_compiled hcompile R hR
  have htables := hcompiles.tables
  refine ⟨l, hl, hcompiles, ?_, fun g hg => (htables.ranged g hg).apart, htables.grouped, htables.level⟩
  refine htables.placed.imp_of_mem fun hg hh hplaced => ?_
  have hg := htables.ranged _ hg
  have hh := htables.ranged _ hh
  exact ⟨hplaced.inner hg hh, hplaced.clears hg hh, hplaced.spans hg hh⟩

/-- A handler of compiled code is entered with what was on the stack when its block was entered and with
the exception, however the exception is dispatched.  The blocks on the way out and the filters that are
consulted leave alone what lies below, and no filter starts from a lower depth. -/
theorem Run.dispatch_stack_of_compiled {helpers : HelperCache} {setting : Setting} {f : Lambda Expr}
    {c : CompiledUnit} (hcompile : (compileWith helpers setting f).result = .ok c) {R : Routine}
    (hR : R ∈ c.routine :: c.units) {i : Nat} {g : Region Nat} (hg : R.regions[i]? = some g)
    {base : List Value} {fuel pc handler : Nat} {span : Span} {e e' : Ref} {s t : State}
    (hblocks : ∀ h ∈ R.consulted i pc span,
      BlockKeeps setting.registry R (Rests base g (R.consulted i pc span)) h)
    (hs : Rests base g (R.consulted i pc span) s)
    (h : dispatch setting.registry fuel R pc e span s = .ok handler t)
    (hentered : entered? t = some (i, e')) :
    handler = g.handlerStart ∧ ∃ frame rest, t.frames = frame :: rest ∧
      frame.stack = .object e' :: base := by
  obtain ⟨l, -, hcompiles⟩ := compilesTo_of_compiled hcompile R hR
  exact dispatch_stack hcompiles.tables.laminar hg hblocks hs h hentered

/-- A block with a filter, whose handler is a block that runs on the way out. -/
def nestedHandler : Lambda Expr :=
  let num (n : Int) : Expr := .node (.constant (.num (.i32 n))) .int
  let always : Expr := .node (.constant (.bool true)) .bool
  let nothing : Expr := .node (.block [] []) .void
  let inner : Expr := .node (.tryCatch (num 2) [] (some nothing) none) .int
  ⟨"nestedHandler", [], .int, .node (.tryCatch (num 1) [⟨.object, none, some always, inner⟩] none none) .int,
    ⟨false, false⟩⟩

/-- The regions of the function with a block in its handler: that of the block, and the one with the
handler around it. -/
theorem exists_nestedHandler :
    ∃ c g h, (compileWith .empty ⟨.builtin, .default⟩ nestedHandler).result = .ok c ∧
      c.routine.regions = [g, h] ∧ (g.tryStart, g.tryEnd) = (13, 17) ∧
      (h.handlerFirst, h.handlerEnd) = (6, 22) := by
  have hextents : ((compileWith .empty ⟨.builtin, .default⟩ nestedHandler).result.toOption.map
      fun c => c.routine.regions.map fun g => ((g.tryStart, g.tryEnd), g.handlerFirst, g.handlerEnd)) =
        some [((13, 17), 17, 19), ((2, 6), 6, 22)] := by
    decide +kernel
  cases hc : (compileWith .empty ⟨.builtin, .default⟩ nestedHandler).result with
  | error e =>
      rw [hc] at hextents
      cases hextents
  | ok c =>
      rw [hc] at hextents
      obtain ⟨g, rest, hregions, hg, hrest⟩ :=
        List.map_eq_cons_iff.mp (Option.some.inj hextents)
      obtain ⟨h, tail, rfl, hh, htail⟩ := List.map_eq_cons_iff.mp hrest
      rw [List.map_eq_nil_iff.mp htail] at hregions
      exact ⟨c, g, h, rfl, hregions, congrArg Prod.fst hg, congrArg Prod.snd hh⟩

/-- The table of that function is in order, and the handler of its block spans the block within. -/
theorem regions_nestedHandler :
    ∃ c g h, (compileWith .empty ⟨.builtin, .default⟩ nestedHandler).result = .ok c ∧
      c.routine.regions = [g, h] ∧ g.Clears h ∧ h.Spans g := by
  obtain ⟨c, g, h, hc, hregions, -⟩ := exists_nestedHandler
  obtain ⟨l, -, -, hpairs, -⟩ := (regions_of_compiled hc).1 c.routine List.mem_cons_self
  rw [hregions, List.pairwise_pair] at hpairs
  exact ⟨c, g, h, hc, hregions, hpairs.2⟩

/-- A handler does not always lie inside or outside of the other ranges: it can be around a body. -/
theorem not_clears_nestedHandler :
    ¬ ∀ (helpers : HelperCache) (setting : Setting) (f : Lambda Expr) (c : CompiledUnit),
      (compileWith helpers setting f).result = .ok c → ∀ R ∈ c.routine :: c.units,
        R.regions.Pairwise fun g h => g.Clears h ∧ h.Clears g := by
  intro hclaim
  obtain ⟨c, g, h, hc, hregions, hbody, hhandler⟩ := exists_nestedHandler
  have hpairs := hclaim _ _ _ c hc c.routine List.mem_cons_self
  rw [hregions, List.pairwise_pair] at hpairs
  -- The handler starts in front of the block, so it is not within its body; and it meets the body.
  have hfirst : h.handlerContains 6 = true := by
    rw [Region.handlerContains_iff]
    grind
  have hmeets : h.handlerContains 13 = true := by
    rw [Region.handlerContains_iff]
    grind
  have hinner : g.tryContains 13 = true := by
    rw [Region.tryContains_iff]
    grind
  have hfront : ¬ g.tryContains 6 = true := by
    rw [Region.tryContains_iff]
    grind
  rcases hpairs.2.1 with hinside | hapart
  · exact hfront (hinside 6 hfirst)
  · rw [hapart 13 hmeets] at hinner
    cases hinner

end Arbor
