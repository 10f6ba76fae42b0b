/-
  Watched emission.

  A watch runs an emitter of its own before every node of a function is emitted, with
  the tree at hand; nested functions are left alone.  It sees the state at that point,
  and whatever it finds it can end the compilation.  A watch that is silent where
  the labels of a node are recorded with the number of protected regions around the
  point of emission changes nothing, if the recorded numbers are those of the tree:
  so this is what every watch sees at every node.

  A node is met in a state if a watch that objects to the two ends the emission.
  What is emitted for it then is kept to the end: a watch that is silent wherever
  that holds changes nothing either.
-/
import Arbor.Proofs.Emission.AgreementControl
import Arbor.Proofs.Emission.Collecting

set_option autoImplicit false

namespace Arbor

/-! ## Watched trees -/

/-- The node with a probe that runs before it is emitted. -/
def Node.watched (probe : Emit Unit) (n : Node) : Node where
  expr := n.expr
  emit exit shape extend := do
    probe
    n.emit exit shape extend
  place exit extend := do
    probe
    n.place exit extend

/-- The node of a tree in which every node of the unit is watched. -/
def Expr.watched (watch : Expr → Emit Unit) : Expr → Node :=
  para fun k ty => (Node.ofKind (k.mapUnit Prod.snd fun p => p.1.toNode) ty).watched
    (watch (.node (k.map Prod.fst) ty))

/-- All recorded labels are known as they were recorded, and those that the node defines itself were
recorded with the number of protected regions around the point of emission. -/
structure Emission.Confirms (table : LabelTable) (e : Expr) (s : Emission) : Prop where
  known : ∀ id info, table.lookup id = some info → s.labels.lookup id = some info
  own : ∀ target ∈ e.kind.ownTargets, ∃ info,
    table.lookup target.id = some info ∧ info.depth = s.tryDepth

/-- The watch does nothing where the state confirms what was recorded. -/
def Emit.Trusts (watch : Expr → Emit Unit) (table : LabelTable) : Prop :=
  ∀ e setting s, Emission.Confirms table e s → (watch e).run setting s = .ok () s

/-- What was recorded of the labels is what is listed of them. -/
def LabelTable.Records (table : LabelTable) (ts : List (LabelTarget × Nat)) : Prop :=
  ∀ x ∈ ts, ∃ info, table.lookup x.1.id = some info ∧ info.depth = x.2

/-! ## Layers of watched trees -/

section

variable {α β γ : Type} (f inner : α → β)

theorem ExprKind.map_mapUnit (p : γ → α) (k : ExprKind γ) :
    (k.map p).mapUnit f inner = k.mapUnit (f ∘ p) (inner ∘ p) := by
  have hmap := map_map p f k
  cases k with
  | lambda l => rfl
  | _ => exact hmap

theorem ExprKind.mapUnit_map (q : β → γ) (k : ExprKind α) :
    (k.mapUnit f inner).map q = k.mapUnit (q ∘ f) (q ∘ inner) := by
  have hmap := map_map f q k
  cases k with
  | lambda l => rfl
  | _ => exact hmap

theorem ExprKind.mapUnit_self (k : ExprKind α) : k.mapUnit f f = k.map f := by
  cases k <;> rfl

end

/-- A layer whose operands are replaced by themselves stays as it is. -/
theorem ExprKind.mapUnit_eq_of_forall {α : Type} {f : α → α} {k : ExprKind α}
    (h : ∀ a ∈ k.children, f a = a) : k.mapUnit f id = k := by
  have hmap : (∀ a ∈ k.operands, f a = a) → k.map f = k := map_eq_of_forall
  cases k with
  | lambda l => rfl
  | _ => exact hmap h

namespace Expr

variable {watch : Expr → Emit Unit}

/-- A watched node is made of watched operands and plain nested functions. -/
theorem watched_node (k : ExprKind Expr) (ty : Ty) :
    (Expr.node k ty).watched watch =
      (Node.ofKind (k.mapUnit (watched watch) toNode) ty).watched (watch (.node k ty)) := by
  have hkind : (k.map fun e => (e, e.watched watch)).map Prod.fst = k := by
    rw [ExprKind.map_map]
    exact ExprKind.map_eq_of_forall fun _ _ => rfl
  rw [watched, para_node]
  change (Node.ofKind ((k.map fun e => (e, e.watched watch)).mapUnit _ _) ty).watched
    (watch (.node ((k.map fun e => (e, e.watched watch)).map Prod.fst) ty)) = _
  rw [hkind, ExprKind.map_mapUnit]
  rfl

theorem exists_watched (e : Expr) : ∃ n : Node, e.watched watch = n.watched (watch e) := by
  cases e with
  | node k ty => exact ⟨_, watched_node k ty⟩

/-- A watched node is one of the tree. -/
theorem watched_expr (e : Expr) : (e.watched watch).expr = e := by
  induction e using induct with
  | node k ty ih =>
      have hnested : Node.expr ∘ toNode = id := funext toNode_expr
      rw [watched_node]
      change Expr.node ((k.mapUnit (watched watch) toNode).map Node.expr) ty = .node k ty
      rw [ExprKind.mapUnit_map, hnested]
      exact congrArg (Expr.node · ty)
        (ExprKind.mapUnit_eq_of_forall fun e he => ih e (ExprKind.mem_operands he))

end Expr

/-! ## Watches that change nothing -/

variable {table : LabelTable} {depth : Nat}

/-- A watched tree is related to the tree, if watching keeps related nodes related. -/
theorem Expr.related_watched {C : Emit.Congruence} {watch : Expr → Emit Unit} {P : Expr → Nat → Prop}
    (hchild : ∀ k ty depth, P (.node k ty) depth → ∀ e ∈ k.children, P e (depth + k.regionDepth))
    (hwatch : ∀ e depth (n : Node), P e depth → n.Related C depth e.toNode →
      (n.watched (watch e)).Related C depth e.toNode) (e : Expr) :
    ∀ depth, P e depth → (e.watched watch).Related C depth e.toNode := by
  induction e using induct with
  | node k ty ih =>
      intro depth hP
      have hk : ∀ e ∈ k.children, (e.watched watch).Related C (depth + k.regionDepth) e.toNode :=
        fun e he => ih e (ExprKind.mem_operands he) _ (hchild k ty depth hP e he)
      have hexpr : (k.mapUnit (Expr.watched watch) toNode).map Node.expr =
          (k.mapUnit toNode toNode).map Node.expr := by
        rw [ExprKind.mapUnit_map, ExprKind.mapUnit_map]
        exact congrArg (k.mapUnit · _) (funext fun e => (watched_expr e).trans (toNode_expr e).symm)
      have hnode : (Node.ofKind (k.mapUnit (Expr.watched watch) toNode) ty).Related C depth
          (Expr.node k ty).toNode := by
        rw [toNode_node, ← ExprKind.mapUnit_self]
        exact Node.Related.ofKind hk hexpr
      rw [watched_node]
      exact hwatch _ depth _ hP hnode

/-- A watched node agrees with one that agrees with it unwatched, if the probe is silent. -/
theorem Node.Related.watched {m n : Node} (h : m.Related (Emit.agreement table) depth n)
    {probe : Emit Unit}
    (hprobe : ∀ setting s, s.Situated table depth → probe.run setting s = .ok () s) :
    (m.watched probe).Related (Emit.agreement table) depth n := by
  have hbehind : ∀ {α : Type} {x y : Emit α}, Emit.Agree table depth x y →
      Emit.Agree table depth (probe >>= fun _ => x) y :=
    fun hx setting s hs => (Emit.run_bind_of_ok (hprobe setting s hs) rfl).trans (hx setting s hs)
  exact ⟨h.expr, fun _ _ _ => hbehind (h.emit _ _ _), fun _ _ => hbehind (h.place _ _)⟩

/-- A watched tree is emitted as the tree is, if the watch is silent where the state confirms what was
recorded, and what was recorded is what the tree says. -/
theorem Expr.agree_watched {watch : Expr → Emit Unit} (hwatch : Emit.Trusts watch table) (e : Expr)
    (depth : Nat) (hrecords : table.Records (e.targetsAt depth)) :
    (e.watched watch).Related (Emit.agreement table) depth e.toNode := by
  refine related_watched (P := fun e depth => table.Records (e.targetsAt depth))
    (fun k ty depth hrecords e he x hx => ?_) (fun e depth n hrecords hn => ?_) e depth hrecords
  · rw [LabelTable.Records, targetsAt_node] at hrecords
    exact (List.forall_mem_append.mp hrecords).2 x (List.mem_flatMap.mpr ⟨e, he, hx⟩)
  · obtain ⟨k, ty⟩ := e
    rw [LabelTable.Records, targetsAt_node] at hrecords
    refine hn.watched fun setting s hs => hwatch _ setting s ⟨hs.known, fun target ht => ?_⟩
    -- The labels of the layer are listed with its own depth, which is that of the state.
    obtain ⟨info, hinfo, hdepth⟩ :=
      (List.forall_mem_append.mp hrecords).1 _ (List.mem_map_of_mem ht)
    exact ⟨info, hinfo, hdepth.trans hs.depth.symm⟩

namespace Emit

theorem Congruence.Rel.functionCode {C : Congruence} {l l' : Lambda Node} (hret : l.ret = l'.ret)
    (hbody : l.body.Related C depth l'.body) :
    C.Rel depth (Emit.functionCode l) (Emit.functionCode l') := by
  unfold Emit.functionCode
  rw [hret, hbody.checkBranch, hbody.ty_eq]
  exact ite (first hbody.guarded) (behind fun _ => first hbody.guarded)

theorem collectLabels_watched (l : Lambda Expr) (watch : Expr → Emit Unit) :
    collectLabels (l.map (Expr.watched watch)) = collectLabels (l.map Expr.toNode) := by
  have hexpr : (l.map (Expr.watched watch)).body.expr = (l.map Expr.toNode).body.expr :=
    (Expr.watched_expr l.body).trans (Expr.toNode_expr l.body).symm
  rw [collectLabels, hexpr, collectLabels]

/-- A watched function is emitted as the function is, if its labels were recorded as the tree lists them and
the watch is silent where the state confirms that. -/
theorem run_functionBody_watched {l : Lambda Expr} {watch : Expr → Emit Unit} {setting : Setting}
    {start s : Emission} (hlabels : (collectLabels (l.map Expr.toNode)).run setting start = .ok () s)
    (hdepth : s.tryDepth = 0) (hrecords : LabelTable.Records s.labels l.targets)
    (hwatch : Trusts watch s.labels) :
    (functionBody (l.map (Expr.watched watch))).run setting start =
      (functionBody (l.map Expr.toNode)).run setting start := by
  have hbody := l.body.agree_watched hwatch 0 hrecords
  have hcode : (agreement s.labels).Rel 0
      (functionCode (l.map (Expr.watched watch)) >>= fun _ => finishUnit)
      (functionCode (l.map Expr.toNode) >>= fun _ => finishUnit) :=
    .first (.functionCode rfl hbody)
  rw [run_functionBody hlabels, run_functionBody (collectLabels_watched l watch ▸ hlabels)]
  exact hcode setting s ⟨hdepth, fun _ _ h => h⟩

end Emit

/-! ## Nodes that are met -/

/-- The node is emitted from one state to another, as a value or as a place. -/
inductive Expr.Runs (e : Expr) (setting : Setting) (s t : Emission) : Prop
  | value {exit : Option Label} {shape : Shape} {extend : Bool} {a : Emitted}
      (run : (e.toNode.emit exit shape extend).run setting s = .ok a t)
  | place {exit : Option Label} {extend : Bool} {a : Place × Bool}
      (run : (e.toNode.place exit extend).run setting s = .ok a t)

theorem Expr.Runs.grows {e : Expr} {setting : Setting} {s t : Emission} (h : e.Runs setting s t) :
    s.Grows t := by
  cases h with
  | value run | place run => exact Emit.grows _ run

/-- A node that is no place is emitted as its layer is, in front of what adapts the result. -/
theorem Expr.Runs.exists_layer {k : ExprKind Expr} {ty : Ty} {setting : Setting} {s t : Emission}
    (h : (Expr.node k ty).Runs setting s t)
    (hplace : ∀ exit extend a u, (Emit.placeOf (k.map toNode) ty exit extend).run setting s ≠ .ok a u) :
    ∃ place exit shape a u, (Emit.layer (k.map toNode) ty place exit shape).run setting s = .ok a u ∧
      u.Grows t := by
  cases h with
  | value run =>
      rw [toNode_node, Node.ofKind] at run
      dsimp only at run
      split at run
      · obtain ⟨_, _, hcreated, -⟩ := Emit.run_bind run
        simp only [Emit.created, Emit.withTemps] at hcreated
        split at hcreated
        · next hthere =>
            obtain ⟨_, _, hplaced, -⟩ := Emit.run_bind hthere
            exact absurd hplaced (hplace _ _ _ _)
        · cases hcreated
      · obtain ⟨a, u, hlayer, hadapt⟩ := Emit.run_bind run
        exact ⟨_, _, _, a, u, hlayer, Emit.grows _ hadapt⟩
  | place run =>
      rw [toNode_node] at run
      exact absurd run (hplace _ _ _ _)

/-- The watch objects to the node in the state, and does nothing anywhere else. -/
structure Emit.Objects (watch : Expr → Emit Unit) (setting : Setting) (e : Expr) (s : Emission) :
    Prop where
  here : ∀ t, (watch e).run setting s ≠ .ok () t
  elsewhere : ∀ e' s', ¬ (e' = e ∧ s' = s) → (watch e').run setting s' = .ok () s'

/-- The emission of the function comes to the node in the state: a watch that objects to that ends it. -/
def Lambda.Meets (l : Lambda Expr) (setting : Setting) (session : Session) (e : Expr) (s : Emission) :
    Prop :=
  ∀ watch, Emit.Objects watch setting e s → ∀ R t,
    (Emit.unitBody (l.map (Expr.watched watch))).run setting
      (Emit.unitStart (l.map Expr.toNode) session) ≠ .ok R t

/-- What is kept of a state in a later one: its code from a position on, its marks and regions, and what
is known of labels of the tree. -/
structure Emission.Kept (first : Nat) (s u : Emission) : Prop where
  builder : s.builder.Retains first u.builder
  regions : s.builder.regions.toList <+: u.builder.regions.toList
  targets : ∀ id info, s.labels.lookup id = some info → u.labels.lookup id = some info

namespace Emission.Kept

variable {first first' : Nat} {s t u : Emission}

theorem refl (s : Emission) : s.Kept first s :=
  ⟨(Builder.Extends.refl _).retains, List.prefix_rfl, fun _ _ h => h⟩

/-- What is kept of a state is kept of the states before. -/
theorem before (h : t.Kept first u) (hgrows : s.Grows t) : s.Kept first u where
  builder := (Builder.Extends.of_grows hgrows).retains.trans h.builder
  regions := hgrows.regions.trans h.regions
  targets id info hinfo := h.targets id info (hgrows.targets id info hinfo)

theorem later (h : s.Kept first u) (hle : first ≤ first') : s.Kept first' u where
  builder := ⟨fun p hp => h.builder.code p (Nat.le_trans hle hp), h.builder.marks⟩
  regions := h.regions
  targets := h.targets

end Emission.Kept

namespace Emit

/-- Emitters that come to the same outcome wherever the second one succeeds, with at least so many labels
in front, and what it has emitted is kept. -/
def keeping (setting : Setting) (labels : Nat) (u : Emission) : Congruence where
  Rel _ x y := ∀ s t a, labels ≤ s.builder.labels.size → y.run setting s = .ok a t →
    t.Kept s.position u → x.run setting s = .ok a t
  same _ _ _ _ _ hrun _ := hrun
  seq {_ _ _ _ _ _ g} hx hf s t b hs hrun hkept := by
    obtain ⟨a, v, hy, hg⟩ := run_bind hrun
    have hsv := Emit.grows _ hy
    refine run_bind_of_ok (hx s v a hs hy (hkept.before (Emit.grows _ hg))) ?_
    exact hf a v t b (Nat.le_trans hs hsv.labels) hg (hkept.later hsv.position_le)
  temps hx s t a hs hrun hkept := by
    simp only [Emit.withTemps] at hrun ⊢
    split at hrun
    · next v hv =>
        cases hrun
        rw [hx s v a hs hv ⟨hkept.builder, hkept.regions, hkept.targets⟩]
    · cases hrun
  within {_ _ vars _ _} hx s t a hs hrun hkept := by
    simp only [Emit.inScope] at hrun ⊢
    split at hrun
    · next v hv =>
        cases hrun
        rw [hx { s with scope := vars.reverse ++ s.scope } v a hs hv
          ⟨hkept.builder, hkept.regions, hkept.targets⟩]
    · cases hrun
  filled {_ _ fill _ _} hx s t a hs hrun hkept := by
    simp only [Emit.reserved] at hrun ⊢
    split at hrun
    · next b v hv =>
        have hposition : { s with builder := s.builder.emit .nop }.position = s.position + 1 := by
          simp [Emission.position, Builder.emit]
        have hlater := hkept.later (Nat.le_succ s.position)
        -- The placeholder stands in front of what is kept of the section.
        have hv' : v.Kept (s.position + 1) u := by
          split at hrun
          · next i _ =>
              cases hrun
              exact ⟨(Builder.retains_patch _ (Nat.lt_succ_self _) i).trans hlater.builder,
                hlater.regions, hlater.targets⟩
          · cases hrun
            exact hlater
        rw [hx { s with builder := s.builder.emit .nop } v b hs hv (hposition ▸ hv')]
        exact hrun
    · cases hrun
  around hx s t a hs hrun hkept := by
    simp only [Emit.inRegion] at hrun ⊢
    split at hrun
    · next v hv =>
        cases hrun
        rw [hx { s with tryDepth := s.tryDepth + 1 } v () hs hv
          ⟨hkept.builder, hkept.regions, hkept.targets⟩]
    · cases hrun

end Emit

/-- A watched node comes to the outcome of the node where that is kept, if the probe is silent there. -/
theorem Node.Related.watched_kept {m : Node} {e : Expr} {labels : Nat} {u : Emission}
    {setting : Setting} (h : m.Related (Emit.keeping setting labels u) depth e.toNode)
    {probe : Emit Unit} (hprobe : ∀ s t, e.Runs setting s t → labels ≤ s.builder.labels.size →
      t.Kept s.position u → probe.run setting s = .ok () s) :
    (m.watched probe).Related (Emit.keeping setting labels u) depth e.toNode where
  expr := h.expr
  emit exit shape extend s t a hs hrun hkept :=
    Emit.run_bind_of_ok (hprobe s t (.value hrun) hs hkept)
      (h.emit exit shape extend s t a hs hrun hkept)
  place exit extend s t a hs hrun hkept :=
    Emit.run_bind_of_ok (hprobe s t (.place hrun) hs hkept) (h.place exit extend s t a hs hrun hkept)

namespace Emit

theorem run_withParams_congr {α : Type} {index : Nat} {params : List Variable} {x y : Emit α}
    {setting : Setting} {s : Emission}
    (h : ∀ scope, paramScope params.length index params = .ok scope →
      x.run setting { s with scope := scope.reverse ++ s.scope } =
        y.run setting { s with scope := scope.reverse ++ s.scope }) :
    (withParams index params x).run setting s = (withParams index params y).run setting s := by
  unfold withParams
  split
  · next scope hscope => simp only [inScope, h scope hscope]
  · rfl

/-- The watched unit is the unit if the watched code is the code. -/
theorem run_unitBody_watched {l : Lambda Expr} {setting : Setting} {session : Session} {R : Routine}
    {t : Emission}
    (h : (unitBody (l.map Expr.toNode)).run setting (unitStart (l.map Expr.toNode) session) = .ok R t) :
    ∃ scope s u key, paramScope l.params.length l.hidden.count l.params = .ok scope ∧
      (l.targets.forM fun (target, depth) => defineTarget target depth).run setting
        { unitStart (l.map Expr.toNode) session with scope := scope.reverse } = .ok () s ∧
      (functionCode (l.map Expr.toNode)).run setting s = .ok () u ∧
      u.builder.finish key = .ok R ∧
      ∀ watch, (functionCode (l.map (Expr.watched watch))).run setting s = .ok () u →
        (unitBody (l.map (Expr.watched watch))).run setting (unitStart (l.map Expr.toNode) session) =
          .ok R t := by
  obtain ⟨scope, s, u, key, hscope, hlabels, hcode, hfinish, -⟩ := run_unitBody h
  refine ⟨scope, s, u, key, hscope, hlabels, hcode, hfinish, fun watch hwatched => ?_⟩
  have hcollect : (collectLabels (l.map Expr.toNode)).run setting
      { unitStart (l.map Expr.toNode) session with scope := scope.reverse } = .ok () s := by
    rw [collectLabels, targetsAt_map]
    exact hlabels
  have hend : ∀ x : Emit Unit, x.run setting s = .ok () u →
      (x >>= fun _ => finishUnit).run setting s = finishUnit.run setting u :=
    fun _ hx => run_bind_of_ok hx rfl
  rw [← h]
  refine run_withParams_congr fun scope' hscope' => ?_
  obtain rfl : scope' = scope := Except.ok.inj (hscope'.symm.trans hscope)
  have hempty : scope'.reverse ++ (unitStart (l.map Expr.toNode) session).scope = scope'.reverse :=
    List.append_nil _
  rw [hempty, run_functionBody (collectLabels_watched l watch ▸ hcollect), run_functionBody hcollect]
  rw [hend _ hwatched, hend _ hcode]

/-- A node that is met is one of the function, and what is emitted for it stays in the routine.  It is
emitted behind the labels of the function. -/
theorem exists_kept {l : Lambda Expr} {setting : Setting} {session : Session} {R : Routine} {t : Emission}
    (h : (unitBody (l.map Expr.toNode)).run setting (unitStart (l.map Expr.toNode) session) = .ok R t) :
    ∃ scope s u key, paramScope l.params.length l.hidden.count l.params = .ok scope ∧
      (l.targets.forM fun (target, depth) => defineTarget target depth).run setting
        { unitStart (l.map Expr.toNode) session with scope := scope.reverse } = .ok () s ∧
      (functionCode (l.map Expr.toNode)).run setting s = .ok () u ∧
      u.builder.finish key = .ok R ∧
      ∀ e v, l.Meets setting session e v → e.Part l.body ∧ ∃ w, e.Runs setting v w ∧
        s.builder.labels.size ≤ v.builder.labels.size ∧ w.Kept v.position u := by
  classical
  obtain ⟨scope, s, u, key, hscope, hlabels, hcode, hfinish, hwatched⟩ := run_unitBody_watched h
  refine ⟨scope, s, u, key, hscope, hlabels, hcode, hfinish, fun e v hmeets => ?_⟩
  by_contra hnone
  let watch : Expr → Emit Unit := fun e' => read fun _ v' =>
    if e' = e ∧ v' = v then .error (.notSupported "") else .ok ()
  have hthere : (watch e).run setting v = .error (.notSupported "") v := by simp [watch, read]
  have hsilent : ∀ e' v', ¬ (e' = e ∧ v' = v) → (watch e').run setting v' = .ok () v' :=
    fun e' v' hother => by simp only [watch, read, if_neg hother]
  refine hmeets watch ⟨fun v' hok => ?_, hsilent⟩ R t (hwatched watch ?_)
  · rw [hthere] at hok
    cases hok
  -- Nothing that is kept was emitted for the node in the state, so the watch is silent.
  have hbody : (l.body.watched watch).Related (keeping setting s.builder.labels.size u) 0 l.body.toNode :=
    Expr.related_watched (P := fun e _ => e.Part l.body) (fun _ _ _ hpart e he => hpart.operand he)
      (fun e' _ _ hpart hn => hn.watched_kept fun v' w hruns hsize hkept => hsilent e' v' <| by
        rintro ⟨rfl, rfl⟩
        exact hnone ⟨hpart, w, hruns, hsize, hkept⟩) l.body 0 (.refl _)
  have hfunction : (keeping setting s.builder.labels.size u).Rel 0
      (functionCode (l.map (Expr.watched watch))) (functionCode (l.map Expr.toNode)) :=
    .functionCode rfl hbody
  exact hfunction s u () (Nat.le_refl _) hcode (.refl u)

theorem run_checkBranch {n : Node} {ty : Ty} {setting : Setting} {s t : Emission}
    (h : (n.checkBranch ty).run setting s = .ok () t) : t = s := by
  unfold Node.checkBranch at h
  obtain ⟨r, _, hread, h⟩ := run_bind h
  cases hread
  split at h
  · cases h
    rfl
  · obtain ⟨_, _, _, h⟩ := run_bind h
    obtain ⟨_, _, _, h⟩ := run_bind h
    cases h

/-- The emission of a function comes to its body. -/
theorem meets_body {l : Lambda Expr} {setting : Setting} {session : Session} {scope : Scope} {s : Emission}
    (hscope : paramScope l.params.length l.hidden.count l.params = .ok scope)
    (hlabels : (l.targets.forM fun (target, depth) => defineTarget target depth).run setting
      { unitStart (l.map Expr.toNode) session with scope := scope.reverse } = .ok () s) :
    ∃ v, l.Meets setting session l.body v := by
  -- A body with an exit stands behind its placeholder.
  suffices hguarded : ∃ v, ∀ watch shape a t, Objects watch setting l.body v →
      ((l.body.watched watch).guarded shape).run setting s ≠ .ok a t by
    obtain ⟨v, hnever⟩ := hguarded
    refine ⟨v, fun watch hobjects R t hrun => ?_⟩
    have hcollect : (collectLabels (l.map (Expr.watched watch))).run setting
        { unitStart (l.map Expr.toNode) session with scope := scope.reverse ++ [] } = .ok () s := by
      rw [collectLabels_watched, collectLabels, targetsAt_map, List.append_nil]
      exact hlabels
    change (withParams l.hidden.count l.params _).run setting _ = _ at hrun
    simp only [withParams, hscope, inScope] at hrun
    split at hrun
    case h_2 => cases hrun
    next w hbody =>
    obtain ⟨_, u, hcode, -⟩ := run_bind ((run_functionBody hcollect).symm.trans hbody)
    unfold functionCode at hcode
    split at hcode
    · obtain ⟨_, _, hguarded, -⟩ := run_bind hcode
      exact hnever _ _ _ _ hobjects hguarded
    · obtain ⟨_, s', hcheck, hrest⟩ := run_bind hcode
      obtain rfl := run_checkBranch hcheck
      obtain ⟨_, _, hguarded, -⟩ := run_bind hrest
      exact hnever _ _ _ _ hobjects hguarded
  have hprobed : ∀ {watch exit shape v a t}, Objects watch setting l.body v →
      ((l.body.watched watch).emit exit shape false).run setting v ≠ .ok a t := by
    intro watch exit shape v a t hobjects hrun
    obtain ⟨n, hn⟩ : ∃ n : Node, l.body.watched watch = n.watched (watch l.body) := l.body.exists_watched
    rw [hn] at hrun
    obtain ⟨_, y, hprobe, -⟩ := run_bind hrun
    exact hobjects.here y hprobe
  cases hexits : setting.options.usesExits with
  | false =>
      refine ⟨s, fun watch shape a t hobjects hrun => ?_⟩
      obtain ⟨_, _, hread, hrun⟩ := run_bind hrun
      cases hread
      rw [if_neg (Bool.eq_false_iff.mp hexits)] at hrun
      exact hprobed hobjects hrun
  | true =>
      let acquired := s.pool.acquire s.builder .int
      refine ⟨{ s with
        pool := acquired.2.1, builder := (acquired.2.2.emit .nop).defineLabel.2 },
        fun watch shape a t hobjects hrun => ?_⟩
      obtain ⟨_, _, hread, hrun⟩ := run_bind hrun
      cases hread
      rw [if_pos hexits] at hrun
      obtain ⟨_, _, htemp, hrun⟩ := run_bind hrun
      cases htemp
      obtain ⟨_, _, hreserved, -⟩ := run_bind hrun
      simp only [reserved] at hreserved
      split at hreserved
      case h_2 => cases hreserved
      next w hinner =>
      obtain ⟨_, _, hlabel, hinner⟩ := run_bind hinner
      cases hlabel
      obtain ⟨_, _, hbody, -⟩ := run_bind hinner
      exact hprobed hobjects hbody

end Emit

end Arbor
