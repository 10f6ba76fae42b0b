/-
  The routines of functions keep to the numbering of their labels.

  A function numbers its labels before its body is emitted, and its body keeps to
  that numbering by induction over the tree.  Labels are told apart by their
  numbers, and a protected block without handlers has no regions, so that both
  matter to what the depths of labels say.
-/
import Arbor.Proofs.Emission.Labels
import Arbor.Proofs.Simulation.Functions
import Mathlib.Data.List.Nodup

set_option autoImplicit false

namespace Arbor

/-! ## Functions of a tree -/

/-- Whether the layer is a protected block without handlers, which has no regions. -/
def ExprKind.isBareTry {α : Type} : ExprKind α → Bool
  | tryCatch _ [] none none => true
  | _ => false

/-- The function that the layer is. -/
def ExprKind.functions {α : Type} : ExprKind α → List (Lambda α)
  | lambda l => [l]
  | _ => []

namespace Expr

/-- Whether a protected block without handlers occurs, outside of nested functions. -/
def hasBareTry : Expr → Bool := fold fun k _ => k.isBareTry || k.children.any id

/-- All functions nested in a tree, each before those in its body. -/
def functions : Expr → List (Lambda Expr) :=
  para fun k _ => k.functions.map (Lambda.map Prod.fst) ++ k.operands.flatMap Prod.snd

/-- No block without handlers occurs in a tree if none does in its layers. -/
theorem hasBareTry_node (k : ExprKind Expr) (ty : Ty) :
    (Expr.node k ty).hasBareTry = false ↔
      k.isBareTry = false ∧ ∀ e ∈ k.children, e.hasBareTry = false := by
  have hkind : ∀ f : Expr → Bool, (k.map f).isBareTry = k.isBareTry := by
    intro f
    cases k with
    | tryCatch body handlers finallyBlock faultBlock =>
        cases handlers <;> cases finallyBlock <;> cases faultBlock <;> rfl
    | _ => rfl
  unfold hasBareTry
  rw [fold_node, hkind, ExprKind.children_map]
  simp

theorem functions_node (k : ExprKind Expr) (ty : Ty) :
    (Expr.node k ty).functions = k.functions ++ k.operands.flatMap functions := by
  have hown : ∀ f : Expr → List (Lambda Expr),
      (k.map fun e => (e, f e)).functions.map (Lambda.map Prod.fst) = k.functions := by
    intro f
    cases k <;> rfl
  unfold functions
  rw [para_node, hown, ExprKind.operands_map, List.flatMap_map]

theorem targetsAt_node (k : ExprKind Expr) (ty : Ty) (depth : Nat) :
    (Expr.node k ty).targetsAt depth = k.ownTargets.map (fun target => (target, depth)) ++
      k.children.flatMap fun e => e.targetsAt (depth + k.regionDepth) := by
  have hkind : ∀ f : Expr → Nat → List (LabelTarget × Nat),
      (k.map f).ownTargets = k.ownTargets ∧ (k.map f).regionDepth = k.regionDepth := by
    intro f
    cases k <;> exact ⟨rfl, rfl⟩
  unfold targetsAt
  rw [fold_node, layerTargets, (hkind _).1, (hkind _).2, ExprKind.children_map, List.flatMap_map]

/-- The first tree occurs in the second one, outside of nested functions. -/
inductive Part : Expr → Expr → Prop
  | refl (e : Expr) : Part e e
  | child {e operand : Expr} {k : ExprKind Expr} {ty : Ty} :
      operand ∈ k.children → Part e operand → Part e (.node k ty)

/-- A part of a tree is the tree, or a part of one of its operands. -/
theorem part_node_iff {e : Expr} {k : ExprKind Expr} {ty : Ty} :
    e.Part (.node k ty) ↔ e = .node k ty ∨ ∃ operand ∈ k.children, e.Part operand := by
  constructor
  · intro h
    cases h with
    | refl => exact .inl rfl
    | child hmem hpart => exact .inr ⟨_, hmem, hpart⟩
  · rintro (rfl | ⟨operand, hmem, hpart⟩)
    · exact .refl _
    · exact .child hmem hpart

theorem Part.operand {e operand : Expr} {k : ExprKind Expr} {ty : Ty} (h : (node k ty).Part e)
    (hmem : operand ∈ k.children) : operand.Part e := by
  induction h with
  | refl => exact .child hmem (.refl _)
  | child hthere _ ih => exact .child hthere ih

end Expr

/-- The labels of a function, in the order of their numbers, each with the number of protected blocks
around it. -/
def Lambda.targets (l : Lambda Expr) : List (LabelTarget × Nat) := l.body.targetsAt 0

/-- No two labels of the function have one number, and every protected block has a handler. -/
def Lambda.WellBlocked (l : Lambda Expr) : Prop :=
  (l.targets.map (·.1.id)).Nodup ∧ l.body.hasBareTry = false

instance (l : Lambda Expr) : Decidable l.WellBlocked := inferInstanceAs (Decidable (_ ∧ _))

/-- The routine is the code of the function. -/
def Lambda.CompilesTo (l : Lambda Expr) (R : Routine) : Prop :=
  ∃ setting session t, (Emit.unitBody (l.map Expr.toNode)).run setting
    (Emit.unitStart (l.map Expr.toNode) session) = .ok R t

/-- Plain jumps to the first `count` labels stay in the parts of regions that they stand in, unless
they enter one, and the regions come inner ones first, each with its handler behind its body. -/
structure Routine.JumpsWell (R : Routine) (count : Nat) : Prop where
  alike : ∀ p i q : Nat, i < count → R.code[p]? = some (.jump ⟨i⟩) → R.labels[i]? = some q →
    Encloses R.regions p q → ∀ g ∈ R.regions, g.Alike p q
  proper : ∀ g ∈ R.regions, g.Proper
  ordered : R.regions.Pairwise Region.Precedes

/-! ## Finished routines -/

/-- A routine is finished when all labels are marked. -/
theorem Builder.markedLabels_eq {index : Nat} {labels : List (Option Nat)} {marked : List Nat}
    (h : markedLabels index labels = .ok marked) : labels = marked.map some := by
  induction labels generalizing index marked with
  | nil =>
      cases h
      rfl
  | cons l labels ih =>
      cases l with
      | none => cases h
      | some first =>
          simp only [markedLabels] at h
          cases hrest : markedLabels (index + 1) labels with
          | error e =>
              rw [hrest] at h
              cases h
          | ok rest =>
              rw [hrest] at h
              cases h
              rw [ih hrest, List.map_cons]

/-- The labels of a finished routine are those of the builder, which are all marked. -/
theorem Builder.labels_of_finish {b : Builder} {key : RoutineKey} {R : Routine}
    (h : b.finish key = .ok R) : b.labels = R.labels.map some := by
  simp only [finish, bind, Except.bind, pure, Except.pure] at h
  split at h
  · cases h
  · next marked hmarked =>
      split at h <;> cases h
      have hmarks := markedLabels_eq hmarked
      apply Array.ext'
      rw [hmarks]
      simp

/-- The labels of a finished routine were marked where they are. -/
theorem Builder.marked_of_finish {b : Builder} {key : RoutineKey} {R : Routine}
    (h : b.finish key = .ok R) {i q : Nat} (hi : R.labels[i]? = some q) :
    b.labels[i]? = some (some q) := by
  rw [labels_of_finish h, Array.getElem?_map, hi]
  rfl

theorem Builder.children_of_finish {b : Builder} {key : RoutineKey} {R : Routine}
    (h : b.finish key = .ok R) : R.children = b.children.toList := by
  simp only [finish, bind, Except.bind, pure, Except.pure] at h
  split at h
  · cases h
  · split at h <;> cases h
    rfl

/-- A finished routine has the key that it is finished with. -/
theorem Builder.key_of_finish {b : Builder} {key : RoutineKey} {R : Routine}
    (h : b.finish key = .ok R) : R.key = key := by
  simp only [finish, bind, Except.bind, pure, Except.pure] at h
  split at h
  · cases h
  · split at h <;> cases h
    rfl

theorem Builder.resolve_eq_ok {labels : Array Nat} {l : Label} {pc : Nat}
    (h : resolve labels l = .ok pc) : labels[l.index]? = some pc := by
  unfold resolve at h
  split at h
  · next hl =>
      cases h
      exact hl
  · cases h

theorem Builder.ok_of_bind {α β : Type} {x : Except BuildError α} {f : α → Except BuildError β} {b : β}
    (h : (x >>= f) = .ok b) : ∃ a, x = .ok a ∧ f a = .ok b := by
  cases x with
  | ok a => exact ⟨a, rfl, h⟩
  | error e => cases h

/-- A resolved region has the positions of its labels. -/
theorem Builder.resolves_of_resolveRegion {labels : Array Nat} {marks : Array (Option Nat)}
    (hmarks : ∀ i pc : Nat, labels[i]? = some pc → marks[i]? = some (some pc)) {g : Region Label}
    {h : Region Nat} (hg : resolveRegion labels g = .ok h) : g.Resolves marks h := by
  have hresolve : ∀ {l : Label} {pc : Nat}, resolve labels l = .ok pc →
      marks[l.index]? = some (some pc) := fun hl => hmarks _ _ (resolve_eq_ok hl)
  unfold resolveRegion at hg
  obtain ⟨tryStart, htryStart, hg⟩ := ok_of_bind hg
  obtain ⟨tryEnd, htryEnd, hg⟩ := ok_of_bind hg
  obtain ⟨handlerStart, hhandlerStart, hg⟩ := ok_of_bind hg
  obtain ⟨handlerEnd, hhandlerEnd, hg⟩ := ok_of_bind hg
  have hfinish : ∀ {kind : RegionKind Nat}, g.kind.Resolves marks kind →
      (Pure.pure ⟨tryStart, tryEnd, handlerStart, handlerEnd, kind, g.stackMark⟩ :
        Except BuildError (Region Nat)) = .ok h → g.Resolves marks h := by
    intro kind hkind heq
    cases heq
    exact ⟨hresolve htryStart, hresolve htryEnd, hresolve hhandlerStart, hresolve hhandlerEnd, hkind, rfl⟩
  dsimp only at hg
  split at hg
  · next hkind => exact hfinish (hkind ▸ .catch _) hg
  · next start hkind =>
      obtain ⟨kind, hstart, hg⟩ := ok_of_bind hg
      cases hposition : resolve labels start with
      | error e =>
          rw [hposition] at hstart
          cases hstart
      | ok position =>
          rw [hposition] at hstart
          cases hstart
          exact hfinish (hkind ▸ .filter (hresolve hposition)) hg
  · next hkind => exact hfinish (hkind ▸ .finally) hg
  · next hkind => exact hfinish (hkind ▸ .fault) hg

/-- What resolves all regions yields the positions of all. -/
theorem Builder.resolves_of_mapM {labels : Array Nat} {marks : Array (Option Nat)}
    (hmarks : ∀ i pc : Nat, labels[i]? = some pc → marks[i]? = some (some pc))
    {gs : List (Region Label)} {hs : List (Region Nat)} (h : gs.mapM (resolveRegion labels) = .ok hs) :
    List.Forall₂ (Region.Resolves marks) gs hs := by
  induction gs generalizing hs with
  | nil =>
      cases h
      exact .nil
  | cons g gs ih =>
      rw [List.mapM_cons] at h
      obtain ⟨first, hfirst, h⟩ := ok_of_bind h
      obtain ⟨rest, hrest, h⟩ := ok_of_bind h
      cases h
      exact .cons (resolves_of_resolveRegion hmarks hfirst) (ih hrest)

/-- The regions of a finished routine have the positions of their labels. -/
theorem Builder.resolves_of_finish {b : Builder} {key : RoutineKey} {R : Routine}
    (h : b.finish key = .ok R) : List.Forall₂ (Region.Resolves b.labels) b.regions.toList R.regions := by
  have hmarks : ∀ i pc : Nat, R.labels[i]? = some pc → b.labels[i]? = some (some pc) :=
    fun _ _ => marked_of_finish h
  unfold finish at h
  obtain ⟨marked, -, h⟩ := ok_of_bind h
  obtain ⟨regions, hregions, h⟩ := ok_of_bind h
  cases h
  exact resolves_of_mapM hmarks hregions

/-- A region has one position of each of its labels. -/
theorem Region.resolves_unique (marks : Array (Option Nat)) :
    Relator.RightUnique (Region.Resolves marks) := by
  have hmark : ∀ {i p q : Nat}, marks[i]? = some (some p) → marks[i]? = some (some q) → p = q :=
    fun hp hq => by simpa [hp] using hq
  rintro g ⟨first, last, start, finish, kind, mark⟩ ⟨first', last', start', finish', kind', mark'⟩ hg hg'
  obtain ⟨htryStart, htryEnd, hhandlerStart, hhandlerEnd, hkind, rfl⟩ := hg
  obtain ⟨htryStart', htryEnd', hhandlerStart', hhandlerEnd', hkind', rfl⟩ := hg'
  obtain rfl := hmark htryStart htryStart'
  obtain rfl := hmark htryEnd htryEnd'
  obtain rfl := hmark hhandlerStart hhandlerStart'
  obtain rfl := hmark hhandlerEnd hhandlerEnd'
  have hsame : kind = kind' := by
    revert hkind hkind'
    dsimp only
    cases g.kind with
    | filter l =>
        intro hkind hkind'
        cases hkind with
        | filter hl =>
            cases hkind' with
            | filter hl' => rw [hmark hl hl']
    | «catch» ty | «finally» | fault =>
        intro hkind hkind'
        cases hkind
        cases hkind'
        rfl
  rw [hsame]

theorem Builder.regions_of_finish {b : Builder} {key : RoutineKey} {R : Routine}
    (h : b.finish key = .ok R) {added : List (Region Nat)}
    (hadded : List.Forall₂ (Region.Resolves b.labels) b.regions.toList added) : R.regions = added :=
  List.right_unique_forall₂' (Region.resolves_unique b.labels) (resolves_of_finish h) hadded

/-- Plain jumps stay in their parts when all labels of the tree have been marked since. -/
theorem Builder.Layered.jumpsWell {depths : List Nat} {b c : Builder} {blocks : List Block}
    {added : List (Region Nat)} (h : Builder.Layered depths 0 b c blocks added)
    (hcode : b.position = 0) (hregions : b.regions = #[])
    (hlabels : ∀ i pc : Nat, b.labels[i]? ≠ some (some pc)) {key : RoutineKey} {R : Routine}
    (hfinish : c.finish key = .ok R) : R.JumpsWell depths.length := by
  have hadded : R.regions = added := by
    obtain ⟨new, hnew, hresolves⟩ := h.regions
    rw [hregions, List.nil_append] at hnew
    exact regions_of_finish hfinish (by rwa [hnew])
  refine ⟨fun p i q hi hjump hq hencloses => ?_, by rw [hadded]; exact h.proper,
    by rw [hadded]; exact h.ordered⟩
  rw [hadded] at hencloses ⊢
  rw [(finish_eq hfinish).1] at hjump
  have hdepth : depths[i]? = some (depths.get ⟨i, hi⟩) := by simp [hi]
  obtain ⟨hclear, hle⟩ := h.jumps p i _ hdepth (by omega) hjump
  rcases h.marked i _ q hdepth (marked_of_finish hfinish hq) with hold | ⟨-, -, hlanding, heq⟩
  · exact absurd hold (hlabels i q)
  · have hblocks : ∀ k ∈ blocks, Encloses k p q := by
      intro k hk g hg
      exact hencloses g ((h.members g).mpr ⟨k, hk, hg⟩)
    intro g hg
    obtain ⟨k, hk, hmem⟩ := (h.members g).mp hg
    exact alike_of_encloses h.settled hclear hlanding (by omega) hblocks k hk g hmem

namespace Emit

/-! ## Labels that become known -/

/-- The label of the tree becomes known as the next one of the builder, with the local for its value. -/
structure Defines (target : LabelTarget) (depth : Nat) (slot : Option Nat) (s t : Emission) : Prop where
  fresh : s.labels.lookup target.id = none
  table : t.labels = (target.id, ⟨⟨s.builder.labels.size⟩, target.ty, slot, depth⟩) :: s.labels
  labels : t.builder.labels = s.builder.labels.push none
  code : t.builder.code = s.builder.code
  regions : t.builder.regions = s.builder.regions
  tryDepth : t.tryDepth = s.tryDepth
  units : t.units = s.units
  value : ∀ n, slot = some n → n ∈ t.pool.live

section

variable {setting : Setting} {s t : Emission} {target : LabelTarget} {depth : Nat}

/-- A label of the tree is known before, or becomes known. -/
theorem run_defineTarget (hrun : (defineTarget target depth).run setting s = .ok () t) :
    ((s.labels.lookup target.id).isSome ∧ t = s) ∨ ∃ slot, Defines target depth slot s t := by
  obtain ⟨known, _, hread, hrun⟩ := run_bind hrun
  cases hread
  split at hrun
  · next hknown =>
      cases hrun
      exact .inl ⟨hknown, rfl⟩
  next hknown =>
  have hnew : s.labels.lookup target.id = none := Option.not_isSome_iff_eq_none.mp hknown
  obtain ⟨label, s₁, hlabel, hrun⟩ := run_bind hrun
  cases hlabel
  split at hrun
  · obtain ⟨slot, s₂, hpure, hrun⟩ := run_bind hrun
    cases hpure
    simp only [recordTarget, hnew, Option.isSome_none, Bool.false_eq_true, if_false] at hrun
    cases hrun
    exact .inr ⟨none, hnew, rfl, rfl, rfl, rfl, rfl, rfl, fun n hn => absurd hn (Option.some_ne_none n).symm⟩
  · obtain ⟨slot, s₂, htemp, hrun⟩ := run_bind hrun
    obtain ⟨slot, s₃, htemp, hpure⟩ := run_bind htemp
    cases hpure
    simp only [temp] at htemp
    cases htemp
    simp only [recordTarget, hnew, Option.isSome_none, Bool.false_eq_true, if_false] at hrun
    cases hrun
    have hlive : ∀ n, some (s.pool.acquire s.builder.defineLabel.2 target.ty).1 = some n →
        n ∈ (s.pool.acquire s.builder.defineLabel.2 target.ty).2.1.live := by
      intro n hn
      rw [SlotPool.acquire_live, ← Option.some.inj hn]
      exact List.mem_cons_self
    rcases SlotPool.acquire_builder s.pool s.builder.defineLabel.2 target.ty with hb | hb
    all_goals
      exact .inr ⟨some _, hnew, rfl, by rw [hb]; rfl, by rw [hb]; rfl, by rw [hb]; rfl, rfl, rfl, hlive⟩

end

/-- Nothing has been emitted, the labels that are known are in the builder, and the locals for their
values are in use. -/
structure Blank (s : Emission) : Prop where
  code : s.builder.code = #[]
  regions : s.builder.regions = #[]
  table : ∀ id info, s.labels.lookup id = some info → info.label.index < s.builder.labels.size
  values : ∀ id info n, s.labels.lookup id = some info → info.valueSlot = some n → n ∈ s.pool.live

/-- A label of the tree becomes known. -/
theorem Blank.defineTarget {setting : Setting} {s t : Emission} (h : Blank s) {target : LabelTarget}
    {depth : Nat} (hrun : (defineTarget target depth).run setting s = .ok () t) : Blank t := by
  rcases run_defineTarget hrun with ⟨-, rfl⟩ | ⟨slot, hdefines⟩
  · exact h
  have hgrows := (Emit.defineTarget target depth).grows hrun
  have hsize : t.builder.labels.size = s.builder.labels.size + 1 := by rw [hdefines.labels, Array.size_push]
  refine ⟨hdefines.code.trans h.code, hdefines.regions.trans h.regions, fun id info hinfo => ?_,
    fun id info n hinfo hn => ?_⟩
  all_goals
    rw [hdefines.table, List.lookup_cons] at hinfo
    split at hinfo
  · cases hinfo
    exact hsize ▸ Nat.lt_succ_self _
  · exact hsize ▸ Nat.lt_succ_of_lt (h.table id info hinfo)
  · cases hinfo
    exact hdefines.value n hn
  · exact hgrows.live.subset (h.values id info n hinfo hn)

theorem Blank.defineTargets {setting : Setting} {s t : Emission} {ts : List (LabelTarget × Nat)}
    (h : Blank s)
    (hrun : (ts.forM fun (target, depth) => Emit.defineTarget target depth).run setting s = .ok () t) :
    Blank t := by
  induction ts generalizing s with
  | nil =>
      cases hrun
      exact h
  | cons x ts ih =>
      obtain ⟨_, u, hfirst, hrun⟩ := run_bind hrun
      exact ih (h.defineTarget hfirst) hrun

/-! ## Numbering of labels -/

/-- The labels that are known are numbered as listed, and nothing has been emitted. -/
structure Numbered (ts : List (LabelTarget × Nat)) (s : Emission) : Prop where
  position : s.builder.position = 0
  regions : s.builder.regions = #[]
  size : s.builder.labels.size = ts.length
  unmarked : ∀ i pc : Nat, s.builder.labels[i]? ≠ some (some pc)
  depth : s.tryDepth = 0
  units : s.units = []
  known : ∀ id info, s.labels.lookup id = some info →
    ∃ i target, ts[i]? = some (target, info.depth) ∧ target.id = id ∧ info.label = ⟨i⟩

variable {ts : List (LabelTarget × Nat)} {setting : Setting} {s t : Emission}

/-- A label of another number than those known gets the next one. -/
theorem Numbered.defineTarget (h : Numbered ts s) {target : LabelTarget} {depth : Nat}
    (hid : target.id ∉ ts.map (·.1.id))
    (hrun : (defineTarget target depth).run setting s = .ok () t) :
    Numbered (ts ++ [(target, depth)]) t := by
  obtain ⟨hknown, -⟩ | ⟨slot, hdefines⟩ := run_defineTarget hrun
  · obtain ⟨info, hinfo⟩ := Option.isSome_iff_exists.mp hknown
    obtain ⟨i, known, hi, hsame, -⟩ := h.known _ _ hinfo
    exact absurd (List.mem_map.mpr ⟨_, List.mem_of_getElem? hi, hsame⟩) hid
  refine ⟨?_, hdefines.regions.trans h.regions, ?_, fun i pc hi => ?_, hdefines.tryDepth.trans h.depth,
    hdefines.units.trans h.units, fun id info hlookup => ?_⟩
  · rw [Builder.position, hdefines.code]
    exact h.position
  · simp [hdefines.labels, h.size]
  · rw [hdefines.labels, Array.getElem?_push] at hi
    split at hi
    · cases hi
    · exact h.unmarked i pc hi
  · rw [hdefines.table, List.lookup_cons] at hlookup
    split at hlookup
    · next hsame =>
        cases hlookup
        exact ⟨ts.length, target, by simp, (beq_iff_eq.mp hsame).symm, by rw [h.size]⟩
    · obtain ⟨i, known, hi, hrest⟩ := h.known id info hlookup
      refine ⟨i, known, ?_, hrest⟩
      rw [List.getElem?_append_left (List.getElem?_eq_some_iff.mp hi).1]
      exact hi

/-- All labels of different numbers are numbered in order. -/
theorem Numbered.defineTargets {more : List (LabelTarget × Nat)} (h : Numbered ts s)
    (hnodup : ((ts ++ more).map (·.1.id)).Nodup)
    (hrun : (more.forM fun (target, depth) => Emit.defineTarget target depth).run setting s =
      .ok () t) :
    Numbered (ts ++ more) t := by
  induction more generalizing ts s with
  | nil =>
      cases hrun
      rwa [List.append_nil]
  | cons x more ih =>
      obtain ⟨_, u, hfirst, hrun⟩ := run_bind hrun
      have hid : x.1.id ∉ ts.map (·.1.id) := by
        rw [List.map_append, List.map_cons] at hnodup
        intro hmem
        exact (List.nodup_append.mp hnodup).2.2 _ hmem _ List.mem_cons_self rfl
      rw [List.append_cons] at hnodup ⊢
      exact ih (h.defineTarget hid hfirst) hnodup hrun

theorem numbered_unitStart (l : Lambda Node) (session : Session) (scope : Scope) :
    Numbered [] { unitStart l session with scope := scope } := by
  refine ⟨rfl, rfl, rfl, by simp [unitStart, Emission.start, Builder.empty], rfl, rfl, fun id info h => ?_⟩
  cases h

/-- The numbering of the labels of a function. -/
def Numbered.numbering (h : Numbered ts s) (unit : Routine → Prop) : Numbering where
  depths := ts.map (·.2)
  table := s.labels
  agrees id info hinfo := by
    obtain ⟨i, target, hi, -, hlabel⟩ := h.known id info hinfo
    simp [hlabel, hi]
  unit := unit

/-- What is known of a label is what is listed of it. -/
theorem Numbered.fits (h : Numbered ts s) (hnodup : (ts.map (·.1.id)).Nodup) :
    ∀ x ∈ ts, ∀ info, s.labels.lookup x.1.id = some info → info.depth = x.2 := by
  intro x hx info hinfo
  obtain ⟨i, target, hi, hid, -⟩ := h.known _ _ hinfo
  have hsame := List.inj_on_of_nodup_map hnodup (List.mem_of_getElem? hi) hx hid
  rw [← hsame]

/-! ## Functions -/

variable {N : Numbering} {depth : Nat}

/-- What is emitted of a function behind its labels. -/
def functionCode (l : Lambda Node) : Emit Unit := do
  if l.ret.isVoid then
    let _ ← l.body.guarded .nothing
  else
    l.body.checkBranch l.ret
    let _ ← l.body.guarded .value
    wrapIf (l.ret.isNullable && !l.body.ty.isNullable)
  instr .ret

/-- A function makes its labels known, and is emitted and finished then. -/
theorem functionBody_eq (l : Lambda Node) : functionBody l =
    (l.body.expr.targetsAt 0).forM (fun (target, depth) => defineTarget target depth) >>= fun _ =>
      functionCode l >>= fun _ => finishUnit := by
  unfold functionBody functionCode
  refine congrArg _ (funext fun _ => ?_)
  split
  · rw [bind_assoc_emit]
  · simp only [bind_assoc_emit]

theorem targetsAt_map (l : Lambda Expr) : (l.map Expr.toNode).body.expr.targetsAt 0 = l.targets := by
  change l.body.toNode.expr.targetsAt 0 = l.targets
  rw [Expr.toNode_expr]
  rfl

theorem blank_unitStart (l : Lambda Node) (session : Session) (scope : Scope) :
    Blank { unitStart l session with scope := scope } :=
  ⟨rfl, rfl, nofun, nofun⟩

/-- A function with its parameters in scope makes its labels known, its code is emitted, and its routine
is finished. -/
theorem run_unitBody {l : Lambda Expr} {setting : Setting} {session : Session} {R : Routine} {t : Emission}
    (h : (unitBody (l.map Expr.toNode)).run setting (unitStart (l.map Expr.toNode) session) = .ok R t) :
    ∃ scope s u key, paramScope l.params.length l.hidden.count l.params = .ok scope ∧
      (l.targets.forM fun (target, depth) => defineTarget target depth).run setting
        { unitStart (l.map Expr.toNode) session with scope := scope.reverse } = .ok () s ∧
      (functionCode (l.map Expr.toNode)).run setting s = .ok () u ∧
      u.builder.finish key = .ok R ∧ t.units = u.units := by
  simp only [unitBody, withParams] at h
  split at h
  case h_2 => simp [Emit.fail] at h
  next scope hscope =>
  simp only [inScope] at h
  split at h
  case h_2 => cases h
  next v hfunction =>
  cases h
  rw [functionBody_eq, targetsAt_map] at hfunction
  obtain ⟨_, s, hlabels, hfunction⟩ := run_bind hfunction
  obtain ⟨_, u, hcode, hunit⟩ := run_bind hfunction
  simp only [finishUnit] at hunit
  split at hunit
  · next hfinish =>
      cases hunit
      have hempty : scope.reverse ++ (unitStart (l.map Expr.toNode) session).scope = scope.reverse :=
        List.append_nil _
      rw [hempty] at hlabels
      exact ⟨scope, s, u, _, hscope, hlabels, hcode, hfinish, rfl⟩
  · cases hunit

theorem governs_functionCode {l : Lambda Expr} (hbody : l.body.toNode.Obeys (layered N depth)) :
    (layered N depth).Ok (functionCode (l.map Expr.toNode)) :=
  Discipline.ite
    (Discipline.seq hbody.guarded fun _ => (layered N depth).instr rfl)
    (Discipline.seq Discipline.checkBranch fun _ => Discipline.seq hbody.guarded fun _ =>
      Discipline.seq Discipline.wrapIf fun _ => (layered N depth).instr rfl)

/-- The routine of a function keeps to the numbering of its labels, if the body does. -/
theorem jumpsWell_unitBody {l : Lambda Expr} (hwell : l.WellBlocked) {unit : Routine → Prop}
    (hbody : ∀ N : Numbering, N.unit = unit →
      (∀ x ∈ l.targets, ∀ info, N.table.lookup x.1.id = some info → info.depth = x.2) →
      l.body.toNode.Obeys (layered N 0))
    {setting : Setting} {session : Session} {R : Routine} {t : Emission}
    (hrun : (unitBody (l.map Expr.toNode)).run setting (unitStart (l.map Expr.toNode) session) =
      .ok R t) :
    R.JumpsWell l.targets.length ∧ ∀ S ∈ t.units, unit S := by
  obtain ⟨scope, u, w, key, -, hlabels, hcode, hfinish, hunits⟩ := run_unitBody hrun
  have hnumbered := (numbered_unitStart _ _ _).defineTargets hwell.1 hlabels
  rw [List.nil_append] at hnumbered
  let N := hnumbered.numbering unit
  have hnode : l.body.toNode.Obeys (layered N 0) :=
    hbody N rfl (hnumbered.fits hwell.1)
  have hready : N.Ready u :=
    ⟨rfl, by simp [N, Numbered.numbering, hnumbered.size]⟩
  have hkeeps := (governs_functionCode hnode setting u w () hready hnumbered.depth hcode).1
  obtain ⟨blocks, added, hlayered⟩ := hkeeps.builder
  have hjumps := hlayered.jumpsWell hnumbered.position hnumbered.regions hnumbered.unmarked hfinish
  have hcount : N.depths.length = l.targets.length := List.length_map _
  refine ⟨hcount ▸ hjumps, fun S hS => ?_⟩
  rcases hkeeps.units S (by rw [← hunits]; exact hS) with hold | hnew
  · rw [hnumbered.units] at hold
    exact absurd hold List.not_mem_nil
  · exact hnew

/-! ## Trees -/

theorem not_bare {body : Expr} {handlers : List (CatchBlock Expr)} {finallyBlock faultBlock : Option Expr}
    (h : (ExprKind.tryCatch body handlers finallyBlock faultBlock).isBareTry = false) :
    ¬ (handlers = [] ∧ finallyBlock = none ∧ faultBlock = none) := by
  rintro ⟨rfl, rfl, rfl⟩
  cases h

section

variable {k : ExprKind Expr} {ty : Ty}
  (hk : ∀ e ∈ k.children, e.toNode.Obeys (layered N (depth + k.regionDepth)))

include hk

theorem obeys_children (hflat : k.regionDepth = 0) :
    ∀ n ∈ (k.map Expr.toNode).children, n.Obeys (layered N depth) := by
  rw [ExprKind.children_map]
  rw [hflat, Nat.add_zero] at hk
  exact List.forall_mem_map.mpr hk

theorem governs_placeOf {exit : Option Label} {extend : Bool} :
    (layered N depth).Ok (placeOf (k.map Expr.toNode) ty exit extend) := by
  cases k with
  | tryCatch body handlers finallyBlock faultBlock => exact (layered N depth).fail
  | _ => exact Discipline.placeOf (obeys_children hk rfl)

/-- A layer keeps to the numbering if its operands do. -/
theorem governs_layer (hbare : k.isBareTry = false)
    (hfits : ∀ target ∈ k.ownTargets, ∀ info, N.table.lookup target.id = some info →
      info.depth = depth)
    (hunit : ∀ l ∈ k.functions, ∀ setting session R t,
      (unitBody (l.map Expr.toNode)).run setting (unitStart (l.map Expr.toNode) session) = .ok R t →
      N.unit R ∧ ∀ S ∈ t.units, N.unit S)
    {exit : Option Label} {shape : Shape} :
    (layered N depth).Ok
      (layer (k.map Expr.toNode) ty (placeOf (k.map Expr.toNode) ty) exit shape) := by
  have hoption : ∀ {D : Discipline} {o : Option Expr}, (∀ e ∈ o.toList, e.toNode.Obeys D) →
      ∀ n ∈ (o.map Expr.toNode).toList, n.Obeys D := by
    intro D o h n hn
    cases o with
    | none => cases hn
    | some e =>
        obtain rfl := List.mem_singleton.mp hn
        exact h e List.mem_cons_self
  cases k with
  | loop body breakLabel continueLabel => exact governs_loop (hk body List.mem_cons_self) hfits
  | tryCatch body handlers finallyBlock faultBlock =>
      obtain ⟨hrest, hfault⟩ := List.forall_mem_append.mp hk
      obtain ⟨hrest, hfinally⟩ := List.forall_mem_append.mp hrest
      obtain ⟨hbody, hhandlers⟩ := List.forall_mem_cons.mp hrest
      refine governs_tryCatch hbody ?_ (hoption hfinally) (hoption hfault) ?_
      · refine List.forall_mem_map.mpr fun c hc => ?_
        have hhandler : ∀ e ∈ c.filter.toList ++ [c.body],
            e.toNode.Obeys (layered N (depth + 1)) :=
          fun e he => hhandlers e (List.mem_flatMap.mpr ⟨c, hc, he⟩)
        obtain ⟨hfilter, hbody⟩ := List.forall_mem_append.mp hhandler
        exact ⟨hbody c.body List.mem_cons_self, hoption hfilter⟩
      · simpa using not_bare hbare
  | lambda l => exact governs_function (hunit l List.mem_cons_self)
  | goto kind target value => exact governs_goto (hoption hk)
  | label target value => exact governs_label (hoption hk) (hfits target List.mem_cons_self)
  | _ => exact Discipline.layer rfl (obeys_children hk rfl) fun _ _ => governs_placeOf hk

end

/-- The routine is the code of one of the functions, and keeps to the numbering of its labels. -/
def RoutineOf (fs : List (Lambda Expr)) (R : Routine) : Prop :=
  ∃ l ∈ fs, l.CompilesTo R ∧ R.JumpsWell l.targets.length

/-- A tree keeps to every numbering of its labels, and so do the functions in it to theirs. -/
theorem obeys_tree (e : Expr) : ∀ (N : Numbering) (depth : Nat),
    (∀ x ∈ e.targetsAt depth, ∀ info, N.table.lookup x.1.id = some info → info.depth = x.2) →
    e.hasBareTry = false → (∀ l ∈ e.functions, l.WellBlocked) →
    (∀ R, RoutineOf e.functions R → N.unit R) → e.toNode.Obeys (layered N depth) := by
  induction e using Expr.induct with
  | node k ty ih =>
      intro N depth hfits hbare hwell hunit
      obtain ⟨hkind, hchildren⟩ := (Expr.hasBareTry_node k ty).mp hbare
      rw [Expr.targetsAt_node] at hfits
      obtain ⟨hown, hnested⟩ := List.forall_mem_append.mp hfits
      rw [Expr.functions_node] at hwell hunit
      obtain ⟨hfunctions, hinner⟩ := List.forall_mem_append.mp hwell
      have hmem : ∀ operand ∈ k.operands, ∀ l ∈ operand.functions,
          l ∈ k.functions ++ k.operands.flatMap Expr.functions :=
        fun operand ho l hl => List.mem_append_right _ (List.mem_flatMap.mpr ⟨operand, ho, hl⟩)
      have hsub : ∀ operand ∈ k.operands, (∀ l ∈ operand.functions, l.WellBlocked) ∧
          ∀ R, RoutineOf operand.functions R → N.unit R := by
        refine fun operand ho => ⟨fun l hl => hwell l (hmem operand ho l hl), fun R hR => ?_⟩
        obtain ⟨l, hl, hjumps⟩ := hR
        exact hunit R ⟨l, hmem operand ho l hl, hjumps⟩
      have hk : ∀ e ∈ k.children, e.toNode.Obeys (layered N (depth + k.regionDepth)) := by
        intro e he
        have hoperand := ExprKind.mem_operands he
        refine ih e hoperand N _ (fun x hx => ?_) (hchildren e he) (hsub e hoperand).1
          (hsub e hoperand).2
        exact hnested x (List.mem_flatMap.mpr ⟨e, he, hx⟩)
      have hfunction : ∀ l ∈ k.functions, ∀ setting session R t,
          (unitBody (l.map Expr.toNode)).run setting (unitStart (l.map Expr.toNode) session) =
            .ok R t → N.unit R ∧ ∀ S ∈ t.units, N.unit S := by
        intro l hl setting session R t hrun
        have hoperand : l.body ∈ k.operands := by
          cases k <;> cases hl
          · exact List.mem_cons_self
          · next h => cases h
        have hl' := hfunctions l hl
        obtain ⟨hbodies, hunits⟩ := hsub l.body hoperand
        -- The body numbers its labels anew, and its functions are functions of the tree.
        obtain ⟨hjumps, hnested⟩ :
            R.JumpsWell l.targets.length ∧ ∀ S ∈ t.units, RoutineOf l.body.functions S :=
          jumpsWell_unitBody hl' (fun M hM hfits =>
            ih l.body hoperand M 0 hfits hl'.2 hbodies fun R hR => hM ▸ hR) hrun
        have hcompiles : l.CompilesTo R := ⟨setting, session, t, hrun⟩
        exact ⟨hunit R ⟨l, List.mem_append_left _ hl, hcompiles, hjumps⟩,
          fun S hS => hunits S (hnested S hS)⟩
      rw [Expr.toNode_node]
      refine Discipline.obeys_ofKind (fun _ _ => governs_placeOf hk) fun _ _ =>
        governs_layer hk hkind (fun target ht => ?_) hfunction
      exact hown (target, depth) (List.mem_map.mpr ⟨target, ht, rfl⟩)

end Emit

/-- The routines of a compiled function and of those nested in it keep to the numbering of labels. -/
theorem routineOf_of_compiled {setting : Setting} {f : Lambda Expr} {c : CompiledUnit}
    (hcompile : (compile setting f).result = .ok c)
    (hwell : ∀ l ∈ f :: f.body.functions, l.WellBlocked) :
    ∀ R ∈ c.routine :: c.units, Emit.RoutineOf (f :: f.body.functions) R := by
  obtain ⟨hf, hnested⟩ := List.forall_mem_cons.mp hwell
  unfold compile compileWith at hcompile
  simp only at hcompile
  split at hcompile
  · next R t hrun =>
      cases hcompile
      obtain ⟨hjumps, hunits⟩ :
          R.JumpsWell f.targets.length ∧ ∀ S ∈ t.units, Emit.RoutineOf f.body.functions S :=
        Emit.jumpsWell_unitBody hf (fun N hN hfits =>
          Emit.obeys_tree f.body N 0 hfits hf.2 hnested fun R hR => hN ▸ hR) hrun
      refine List.forall_mem_cons.mpr ⟨⟨f, List.mem_cons_self, ⟨_, _, _, hrun⟩, hjumps⟩, fun S hS => ?_⟩
      obtain ⟨l, hl, hS⟩ := hunits S hS
      exact ⟨l, List.mem_cons_of_mem _ hl, hS⟩
  · cases hcompile

end Arbor
