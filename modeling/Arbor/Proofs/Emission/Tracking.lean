/-
  Helpers and units of a compilation.

  Emission changes the cache of helpers and the list of nested units only where it
  asks for a helper or nests a function.  So the helpers that a compilation leaves
  behind are the routines that their keys name, however it ends, and every unit is
  the code of a function of the tree.
-/
import Arbor.Compile.Basic
import Arbor.Proofs.Emission.Closing

set_option autoImplicit false

namespace Arbor

namespace Emit

variable {α β : Type} {I : HelperCache → List Routine → Prop}

/-! ## Functions -/

theorem Policy.functionCode {P : Policy} {own : List Label} {l : Lambda Node} (hbody : l.body.Keeps P) :
    P.Ok own none (Emit.functionCode l) :=
  Policy.ite (Policy.seq hbody.guarded fun _ => Policy.bare rfl)
    (Policy.seq Policy.checkBranch fun _ => Policy.seq hbody.guarded fun _ =>
      Policy.seq Policy.wrapIf fun _ => Policy.bare rfl)

/-- The body of a function, where a label of the tree may become known and the routine may be
finished. -/
theorem Policy.functionBody {P : Policy} {Q : Routine → Prop} {l : Lambda Node}
    (hrecord : ∀ {own id info}, P.Ok own none (recordTarget id info))
    (hfinish : P.Yields [] none finishUnit Q) (hbody : l.body.Keeps P) :
    P.Yields [] none (Emit.functionBody l) Q := by
  have hdefine : ∀ target depth, P.Ok [] none (defineTarget target depth) := by
    intro target depth
    refine Policy.seq (P.read fun _ _ _ => rfl) fun known => Policy.ite Policy.done ?_
    refine Policy.label fun l => ?_
    dsimp only
    split
    · exact hrecord
    · exact Policy.seq (Policy.map (Policy.drop P.temp)) fun _ => hrecord
  rw [functionBody_eq]
  exact Policy.seq (Policy.forM fun _ _ => hdefine _ _) fun _ =>
    Policy.seq (Policy.functionCode hbody) fun _ => hfinish

/-- Parameters that cannot be numbered are too many. -/
theorem ordinary_of_paramScope {count i : Nat} {params : List Variable} {e : CompileError}
    (h : paramScope count i params = .error e) : e.IsOrdinary := by
  induction params generalizing i with
  | nil => cases h
  | cons v params ih =>
      simp only [paramScope] at h
      split at h
      · cases hrest : paramScope count (i + 1) params with
        | ok scope =>
            rw [hrest] at h
            cases h
        | error e' =>
            rw [hrest] at h
            cases h
            exact ih hrest
      · cases h
        exact CompileError.isOrdinary_notSupported _

/-- A function, if its body keeps the policy. -/
theorem Policy.unitBody {P : Policy} {Q : Routine → Prop} {l : Lambda Node}
    (hscopes : P.AllowsScopes) (hrecord : ∀ {own id info}, P.Ok own none (recordTarget id info))
    (hfinish : P.Yields [] none finishUnit Q) (harg : ∀ n, l.hidden.count ≤ n → P.Arg n)
    (hbody : l.body.Keeps P) : P.Yields [] none (Emit.unitBody l) Q := by
  unfold Emit.unitBody withParams
  split
  · next scope hscope =>
      refine hscopes (fun v hv => ?_) (Policy.functionBody hrecord hfinish hbody)
      rw [paramScope_eq hscope] at hv
      obtain ⟨i, hi, rfl⟩ := List.mem_mapIdx.mp hv
      exact harg _ (Nat.le_add_right _ _)
  · next herror => exact P.fail (ordinary_of_paramScope herror)

/-! ## Tracked properties -/

/-- The helpers and the units in the state that an emission ends in have the property, and so has its
result. -/
def Tracked (I : HelperCache → List Routine → Prop) (Q : α → Prop) : EmitResult α → Prop
  | .ok a t => I t.session.helpers t.units ∧ Q a
  | .error _ t => I t.session.helpers t.units

/-- The emitter keeps the property of helpers and units, whatever its outcome. -/
def Tracks (I : HelperCache → List Routine → Prop) (x : Emit α) (Q : α → Prop) : Prop :=
  ∀ setting s, I s.session.helpers s.units → Tracked I Q (x.run setting s)

theorem Tracks.read {f : Setting → Emission → Except CompileError α} {Q : α → Prop}
    (hQ : ∀ setting s a, f setting s = .ok a → Q a) : Tracks I (Emit.read f) Q := by
  intro setting s hs
  simp only [Emit.read]
  split
  · next hf => exact ⟨hs, hQ setting s _ hf⟩
  · exact hs

theorem Tracks.ok {x : Emit α} {Q : α → Prop} (hx : Tracks I x Q) {setting : Setting}
    {s t : Emission} {a : α} (hrun : x.run setting s = .ok a t) (hs : I s.session.helpers s.units) :
    I t.session.helpers t.units ∧ Q a := by
  have htracked := hx setting s hs
  rwa [hrun] at htracked

theorem Tracks.error {x : Emit α} {Q : α → Prop} (hx : Tracks I x Q) {setting : Setting}
    {s t : Emission} {e : CompileError} (hrun : x.run setting s = .error e t)
    (hs : I s.session.helpers s.units) : I t.session.helpers t.units := by
  have htracked := hx setting s hs
  rwa [hrun] at htracked

/-- The rules of emitters that keep a property of helpers and units, which asking for a helper
keeps. -/
def trackingRules (I : HelperCache → List Routine → Prop)
    (hhelper : ∀ c units kind elem, I c units → I (c.get kind elem).2 units) : Rules where
  Holds _ _ x _ Q := Tracks I x Q
  Slot _ := True
  Arg _ := True
  Child _ := True
  pure hQ _ _ _ hs := ⟨hs, hQ⟩
  bind {_ _ _ _ x f _ _ _ _} hx hf setting s hs := by
    change Tracked I _ (match x.run setting s with
      | .ok a t => (f a).run setting t
      | .error e t => .error e t)
    split
    · next hrun => exact hf _ (hx.ok hrun hs).2 setting _ (hx.ok hrun hs).1
    · next hrun => exact hx.error hrun hs
  weaken {_ _ _ _ _ x _ _ _} hx _ _ hQ setting s hs := by
    cases hrun : x.run setting s with
    | ok a t => exact (hx.ok hrun hs).imp_right (hQ a)
    | error e t => exact hx.error hrun hs
  fail _ _ _ hs := hs
  read _ := .read fun _ _ _ _ => trivial
  instr _ _ _ _ hs := ⟨hs, trivial⟩
  newLabel _ _ hs := ⟨hs, trivial⟩
  mark _ _ _ hs := by
    simp only [mark]
    split
    · exact ⟨hs, trivial⟩
    · exact hs
  temp _ _ hs := ⟨hs, trivial⟩
  withTemps hx _ _ hs := by
    simp only [withTemps]
    split
    · next hrun => exact (hx.ok hrun hs :)
    · next hrun => exact (hx.error hrun hs :)
  varSlot := .read fun _ _ v _ => by
    obtain ⟨slot, ty⟩ := v
    cases slot <;> exact trivial
  helper _ _ hs := ⟨hhelper _ _ _ _ hs, trivial⟩

theorem scopes_tracking (hhelper : ∀ c units kind elem, I c units → I (c.get kind elem).2 units) :
    (trackingRules I hhelper).AllowsScopes := by
  intro _ _ _ _ _ _ _ _ hx _ _ hs
  simp only [inScope]
  split
  · next hrun => exact (hx.ok hrun hs :)
  · next hrun => exact (hx.error hrun hs :)

theorem placeholders_tracking
    (hhelper : ∀ c units kind elem, I c units → I (c.get kind elem).2 units) :
    (trackingRules I hhelper).AllowsPlaceholders where
  lend _ hx := hx
  reserved _ hx _ _ hs := by
    simp only [reserved]
    split
    · next hrun => split <;> exact (hx.ok hrun hs :)
    · next hrun => exact (hx.error hrun hs :)
  resetStack _ _ _ hs := ⟨hs, trivial⟩

theorem lax_tracking (hhelper : ∀ c units kind elem, I c units → I (c.get kind elem).2 units) :
    (trackingRules I hhelper).Lax := fun _ _ _ _ hs => ⟨hs, trivial⟩

/-- The policy of emitters that keep a property of helpers and units, which asking for a helper
keeps. -/
def tracking (I : HelperCache → List Routine → Prop)
    (hhelper : ∀ c units kind elem, I c units → I (c.get kind elem).2 units) : Policy :=
  (trackingRules I hhelper).policy (lax_tracking hhelper) (scopes_tracking hhelper)
    (placeholders_tracking hhelper) (Tracks.read fun _ _ _ _ _ _ _ => trivial)

variable {hhelper : ∀ c units kind elem, I c units → I (c.get kind elem).2 units}

theorem labelled_tracking : (tracking I hhelper).Labelled (fun _ => True) True :=
  .of_lent (.read fun _ _ _ _ => ⟨trivial, fun _ _ => trivial⟩) fun _ hx => hx

theorem permissive_tracking : (tracking I hhelper).Permissive where
  inRegion hx _ _ hs := by
    simp only [inRegion]
    split
    · next hrun => exact (hx.ok hrun hs :)
    · next hrun => exact (hx.error hrun hs :)
  addRegion _ _ _ _ hs := ⟨hs, trivial⟩

/-- A function, if its body keeps the property. -/
theorem tracks_unitBody {l : Lambda Node} (hbody : l.body.Keeps (tracking I hhelper)) :
    Tracks I (unitBody l) fun _ => True := by
  refine Policy.unitBody (scopes_tracking hhelper) ?_ ?_ (fun _ _ => trivial) hbody
  · intro own id info setting s hs
    simp only [recordTarget]
    split
    · exact ⟨hs, trivial⟩
    · exact ⟨hs, trivial⟩
  · intro setting s hs
    simp only [finishUnit]
    split
    · exact ⟨hs, trivial⟩
    · exact hs

/-- A tree keeps the property if the functions nested in it do where they stand. -/
theorem tracks_node {k : ExprKind Expr} {ty : Ty}
    (hk : ∀ e ∈ k.children, e.toNode.Keeps (tracking I hhelper))
    (hunit : ∀ l, k = .lambda l → Tracks I (nestedUnit (l.map Expr.toNode)) fun _ => True) :
    (Expr.node k ty).toNode.Keeps (tracking I hhelper) :=
  labelled_tracking.node trivial hk (fun _ _ _ _ => trivial)
    (fun _ _ _ _ _ => permissive_tracking.protects _ _ _ _) fun l hl =>
      Policy.function (Rules.Lax.loose (lax_tracking hhelper)) (fun _ _ h => h) (hunit l hl)

/-! ## The cache of helpers -/

/-- Every tree keeps a property of the helpers that asking for a helper keeps. -/
theorem tracks_tree {J : HelperCache → Prop}
    (hget : ∀ c kind elem, J c → J (c.get kind elem).2) (e : Expr) :
    e.toNode.Keeps (tracking (fun c _ => J c) fun c _ kind elem => hget c kind elem) := by
  induction e using Expr.induct with
  | node k ty ih =>
      refine tracks_node (fun e he => ih e (ExprKind.mem_operands he)) fun l hl setting s hs => ?_
      · subst hl
        have hunit := tracks_unitBody (l := l.map Expr.toNode) (ih l.body List.mem_cons_self)
        simp only [nestedUnit]
        split
        · next hrun => exact ⟨(hunit.ok hrun hs).1, trivial⟩
        · next hrun => exact (hunit.error hrun hs :)

/-! ## Nested units -/

/-- The policy of emitters all of whose units are the code of listed functions. -/
abbrev listing (fs : List (Lambda Expr)) : Policy :=
  tracking (fun _ units => ∀ R ∈ units, ∃ l ∈ fs, l.CompilesTo R) fun _ _ _ _ h => h

/-- The units of a tree are the code of its functions. -/
theorem lists_tree (fs : List (Lambda Expr)) (e : Expr) (hfs : ∀ l ∈ e.functions, l ∈ fs) :
    e.toNode.Keeps (listing fs) := by
  induction e using Expr.induct with
  | node k ty ih =>
      rw [Expr.functions_node] at hfs
      obtain ⟨hown, hrest⟩ := List.forall_mem_append.mp hfs
      have hoperands : ∀ e ∈ k.operands, ∀ l ∈ e.functions, l ∈ fs :=
        fun e he l hl => hrest l (List.mem_flatMap.mpr ⟨e, he, hl⟩)
      refine tracks_node (fun e he => ?_) fun l hl setting s hs => ?_
      · have hmem := ExprKind.mem_operands he
        exact ih e hmem (hoperands e hmem)
      · subst hl
        have hunit := tracks_unitBody (l := l.map Expr.toNode)
          (ih l.body List.mem_cons_self (hoperands l.body List.mem_cons_self))
        simp only [nestedUnit]
        split
        · next R inner hrun =>
            have hinner := (hunit.ok hrun fun _ hR => absurd hR List.not_mem_nil).1
            refine ⟨List.forall_mem_append.mpr ⟨hs, List.forall_mem_cons.mpr ⟨?_, hinner⟩⟩, trivial⟩
            exact ⟨l, hown l List.mem_cons_self, _, _, _, hrun⟩
        · exact hs

end Emit

/-- The caches of helpers that compilations leave behind, one after the other. -/
inductive HelperCache.Filled : HelperCache → Prop
  | empty : Filled .empty
  | compiled {c : HelperCache} (setting : Setting) (l : Lambda Expr) :
      Filled c → Filled (compileWith c setting l).helpers

namespace HelperCache

variable {c : HelperCache}

/-- What holds of no helpers, and is kept when a helper is asked for, holds of the caches that
compilations leave behind. -/
theorem Filled.induct {J : HelperCache → Prop} (hempty : J .empty)
    (hget : ∀ c kind elem, J c → J (c.get kind elem).2) (h : c.Filled) : J c := by
  induction h with
  | empty => exact hempty
  | @compiled c setting l _ ih =>
      have hunit := Emit.tracks_unitBody (l := l.map Expr.toNode) (Emit.tracks_tree hget l.body)
      unfold compileWith
      dsimp only
      split
      · next hrun => exact (hunit.ok hrun ih).1
      · next hrun => exact hunit.error hrun ih

theorem Filled.sound (h : c.Filled) : c.Sound :=
  h.induct (fun _ he => absurd he List.not_mem_nil) fun _ kind elem hc => (hc.get kind elem).2

/-- No key has two helpers in a cache that compilations leave behind. -/
theorem Filled.nodup (h : c.Filled) : (c.entries.map Prod.fst).Nodup := by
  refine h.induct (J := fun c => (c.entries.map Prod.fst).Nodup) List.nodup_nil ?_
  intro c kind elem hc
  unfold get
  split
  · exact hc
  · next hfind =>
      simp only [find?, Option.map_eq_none_iff, List.find?_eq_none] at hfind
      rw [List.map_append, List.map_singleton]
      refine List.nodup_append.mpr ⟨hc, List.nodup_singleton _, fun k hk k' hk' heq => ?_⟩
      obtain ⟨e, he, rfl⟩ := List.mem_map.mp hk
      rw [List.mem_singleton.mp hk'] at heq
      exact hfind e he (beq_iff_eq.mpr heq)

end HelperCache

/-- The routine of a compiled function and those of the functions nested in it are the code of these
functions. -/
theorem compilesTo_of_compiled {helpers : HelperCache} {setting : Setting} {f : Lambda Expr}
    {c : CompiledUnit} (hcompile : (compileWith helpers setting f).result = .ok c) :
    ∀ R ∈ c.routine :: c.units, ∃ l ∈ f :: f.body.functions, l.CompilesTo R := by
  have hunit := Emit.tracks_unitBody (l := f.map Expr.toNode)
    (Emit.lists_tree (f :: f.body.functions) f.body fun _ hl => List.mem_cons_of_mem _ hl)
  unfold compileWith at hcompile
  dsimp only at hcompile
  split at hcompile
  · next hrun =>
      cases hcompile
      refine List.forall_mem_cons.mpr ⟨⟨f, List.mem_cons_self, _, _, _, hrun⟩, ?_⟩
      exact (hunit.ok hrun fun _ hR => absurd hR List.not_mem_nil).1
  · cases hcompile

end Arbor
