/-
  Lookups of labels.

  A label of the tree that is looked up while a function is emitted may not be known.
  That cannot happen to labels of the function, which are all known before its body is
  emitted, and nothing else fails for such a reason: so if a compilation ends because a
  label is not known, then some function jumps to a label of that number without having
  one.
-/
import Arbor.Proofs.Emission.Collecting
import Arbor.Proofs.Emission.Tracking

set_option autoImplicit false

namespace Arbor

/-- The function jumps to a label of the number, and has none. -/
def Lambda.JumpsOut (l : Lambda Expr) (id : LabelId) : Prop :=
  (∃ part : Expr, part.Part l.body ∧ ∃ target ∈ part.kind.jumpTargets, target.id = id) ∧
    id ∉ l.targets.map (·.1.id)

/-- A label that a part of a function defines or jumps to is one of the function, or the function jumps to it
without having it. -/
theorem Lambda.mem_targets_or_jumpsOut {l : Lambda Expr} {part : Expr} (hpart : part.Part l.body)
    {target : LabelTarget} (h : target ∈ part.kind.ownTargets ++ part.kind.jumpTargets) :
    target.id ∈ l.targets.map (·.1.id) ∨ l.JumpsOut target.id := by
  rcases List.mem_append.mp h with hown | hjump
  · exact .inl (mem_ids_iff.mpr ⟨part, hpart, target, hown, rfl⟩)
  · exact or_iff_not_imp_left.mpr fun hout => ⟨⟨part, hpart, target, hjump, rfl⟩, hout⟩

namespace Emit

variable {α β : Type} {known excused : LabelId → Prop}

/-! ## Emitters that find labels -/

/-- The labels are known. -/
def Knows (known : LabelId → Prop) (s : Emission) : Prop :=
  ∀ id, known id → (s.labels.lookup id).isSome

/-- The result has the property, or the error is none about a label that is not excused. -/
def Excuses (excused : LabelId → Prop) (Q : α → Prop) : EmitResult α → Prop
  | .ok a _ => Q a
  | .error e _ => ∀ id, e = .unknownLabel id → excused id

/-- Where the labels are known, the emitter fails about excused labels only, and its result has the
property. -/
def Finds (known excused : LabelId → Prop) (x : Emit α) (Q : α → Prop) : Prop :=
  ∀ setting s, Knows known s → Excuses excused Q (x.run setting s)

variable {x : Emit α} {Q : α → Prop} {setting : Setting} {s t : Emission}

theorem Knows.of_grows (h : Knows known s) (hgrows : s.Grows t) : Knows known t := by
  intro id hid
  obtain ⟨info, hinfo⟩ := Option.isSome_iff_exists.mp (h id hid)
  rw [hgrows.targets id info hinfo, Option.isSome_some]

theorem Excuses.of_error {r : EmitResult α} {e : CompileError} (h : Excuses excused Q r)
    (hr : r = .error e t) : ∀ id, e = .unknownLabel id → excused id := by
  rwa [hr] at h

theorem Finds.ok {a : α} (hx : Finds known excused x Q) (hrun : x.run setting s = .ok a t)
    (hs : Knows known s) : Q a := by
  have houtcome := hx setting s hs
  rwa [hrun] at houtcome

theorem Finds.error {e : CompileError} (hx : Finds known excused x Q)
    (hrun : x.run setting s = .error e t) (hs : Knows known s) :
    ∀ id, e = .unknownLabel id → excused id :=
  (hx setting s hs).of_error hrun

theorem Finds.bind {f : α → Emit β} {Q' : β → Prop} (hx : Finds known excused x Q)
    (hf : ∀ a, Q a → Finds known excused (f a) Q') : Finds known excused (x >>= f) Q' := by
  intro setting s hs
  change Excuses excused Q' (match x.run setting s with
    | .ok a t => (f a).run setting t
    | .error e t => .error e t)
  split
  · next hrun => exact hf _ (hx.ok hrun hs) setting _ (hs.of_grows (x.grows hrun))
  · next hrun => exact hx.error hrun hs

/-- The rules of emitters that fail about excused labels only. -/
def findingRules (known excused : LabelId → Prop) : Rules where
  Holds _ _ x _ Q := Finds known excused x Q
  Slot _ := True
  Arg _ := True
  Child _ := True
  pure hQ _ _ _ _ := hQ
  bind hx hf := hx.bind hf
  weaken {_ _ _ _ _ x _ _ _} hx _ _ hQ setting s hs := by
    cases hrun : x.run setting s with
    | ok a t => exact hQ a (hx.ok hrun hs)
    | error e t => exact hx.error hrun hs
  fail he _ _ _ id hid := absurd hid (he id)
  read _ _ _ _ := trivial
  instr _ _ _ _ _ := trivial
  newLabel _ _ _ := trivial
  mark _ _ _ _ := by
    simp only [mark]
    split
    · trivial
    · nofun
  temp _ _ _ := trivial
  withTemps hx _ _ hs := by
    simp only [withTemps]
    split
    · next hrun => exact hx.ok hrun hs
    · next hrun => exact hx.error hrun hs
  varSlot _ s _ := by
    simp only [varSlot, Emit.read]
    cases s.scope.lookup _ with
    | some v => cases hslot : v.1 <;> simp [Excuses, VarSlot.Among, hslot]
    | none => nofun
  helper _ _ _ := trivial

theorem scopes_finding (known excused : LabelId → Prop) :
    (findingRules known excused).AllowsScopes := by
  intro _ _ _ vars _ _ _ _ hx setting s hs
  have hinner : Knows known { s with scope := vars.reverse ++ s.scope } := hs
  simp only [inScope]
  split
  · next hrun => exact hx.ok hrun hinner
  · next hrun => exact hx.error hrun hinner

theorem placeholders_finding (known excused : LabelId → Prop) :
    (findingRules known excused).AllowsPlaceholders where
  lend _ hx := hx
  reserved _ hx setting s hs := by
    have hinner : Knows known { s with builder := s.builder.emit .nop } := hs
    simp only [reserved]
    split
    · next hrun => split <;> exact hx.ok hrun hinner
    · next hrun => exact hx.error hrun hinner
  resetStack _ _ _ _ := trivial

theorem lax_finding (known excused : LabelId → Prop) : (findingRules known excused).Lax :=
  fun _ _ _ _ _ => trivial

/-- The policy of emitters that fail about excused labels only, where the known ones are. -/
def finding (known excused : LabelId → Prop) : Policy :=
  (findingRules known excused).policy (lax_finding known excused) (scopes_finding known excused)
    (placeholders_finding known excused) fun _ _ _ _ _ _ => trivial

/-- Labels that are known or excused may be used. -/
theorem labelledBy_finding (known excused : LabelId → Prop) :
    (finding known excused).LabelledBy (fun _ => True) True fun id => known id ∨ excused id := by
  refine .of_lent (fun {_ _ id} hid setting s hs => ?_) fun _ hx => hx
  simp only [labelInfo, Emit.read]
  cases hlookup : s.labels.lookup id with
  | some info => exact ⟨trivial, fun _ _ => trivial⟩
  | none =>
      rintro _ ⟨⟩
      refine hid.resolve_left fun hknown => ?_
      simpa [hlookup] using hs id hknown

theorem permissive_finding (known excused : LabelId → Prop) :
    (finding known excused).Permissive where
  inRegion hx setting s hs := by
    have hinner : Knows known { s with tryDepth := s.tryDepth + 1 } := hs
    simp only [inRegion]
    split
    · next hrun => exact hx.ok hrun hinner
    · next hrun => exact hx.error hrun hinner
  addRegion _ _ _ _ _ := trivial

/-! ## Functions and trees -/

/-- A function fails about excused labels only, if its body does where its own are known. -/
theorem finds_unitBody {l : Lambda Expr}
    (hbody : l.body.toNode.Keeps (finding (· ∈ l.targets.map (·.1.id)) excused)) (setting : Setting)
    (session : Session) :
    Excuses excused (fun _ => True)
      ((unitBody (l.map Expr.toNode)).run setting (unitStart (l.map Expr.toNode) session)) := by
  have hfinish : Finds (· ∈ l.targets.map (·.1.id)) excused finishUnit fun _ => True := by
    intro setting s _
    simp only [finishUnit]
    split
    · trivial
    · nofun
  have hcode : (finding (· ∈ l.targets.map (·.1.id)) excused).Ok [] none
      (functionCode (l.map Expr.toNode) >>= fun _ => finishUnit) :=
    Policy.seq (Policy.functionCode hbody) fun _ => hfinish
  have hfunction : ∀ s : Emission, s.labels = [] →
      Excuses excused (fun _ => True) ((functionBody (l.map Expr.toNode)).run setting s) := by
    intro s hs
    obtain ⟨t, hrun, -, hknown, -⟩ := run_collectLabels setting l hs
    rw [run_functionBody hrun]
    exact hcode setting t fun id => (hknown id).mpr
  unfold unitBody withParams
  split
  · next scope _ =>
      have hinner := hfunction
        { unitStart (l.map Expr.toNode) session with scope := scope.reverse ++ [] } rfl
      simp only [inScope]
      split
      · trivial
      · next hrun => exact hinner.of_error hrun
  · next herror => exact fun id hid => absurd hid (ordinary_of_paramScope herror id)

/-- A tree fails about excused labels only, if all labels that it defines or jumps to are known or excused,
and functions nested in it jump to their own labels or excused ones. -/
theorem finds_tree (e : Expr) : ∀ known : LabelId → Prop,
    (∀ part : Expr, part.Part e → ∀ target ∈ part.kind.ownTargets ++ part.kind.jumpTargets,
      known target.id ∨ excused target.id) →
    (∀ l ∈ e.functions, ∀ id, l.JumpsOut id → excused id) →
    e.toNode.Keeps (finding known excused) := by
  induction e using Expr.induct with
  | node k ty ih =>
      intro known hparts hfunctions
      rw [Expr.functions_node] at hfunctions
      obtain ⟨hown, hnested⟩ := List.forall_mem_append.mp hfunctions
      have hoperand : ∀ e ∈ k.operands, ∀ l ∈ e.functions, ∀ id, l.JumpsOut id → excused id :=
        fun e he l hl => hnested l (List.mem_flatMap.mpr ⟨e, he, hl⟩)
      refine (labelledBy_finding known excused).node (hparts _ (.refl _)) trivial (fun e he => ?_)
        (fun _ _ _ _ => trivial) (fun _ _ _ _ _ => (permissive_finding known excused).protects _ _ _ _)
        fun l hl => Policy.function (Rules.Lax.loose (lax_finding known excused)) (fun _ _ h => h)
          fun setting s _ => ?_
      · have hmem := ExprKind.mem_operands he
        exact ih e hmem known (fun part hpart => hparts part (.child he hpart)) (hoperand e hmem)
      · subst hl
        have hbody := ih l.body List.mem_cons_self (· ∈ l.targets.map (·.1.id))
          (fun part hpart target htarget => (Lambda.mem_targets_or_jumpsOut hpart htarget).imp_right
            (hown l List.mem_cons_self _)) (hoperand l.body List.mem_cons_self)
        have hunit := finds_unitBody hbody setting s.session
        simp only [nestedUnit]
        split
        · trivial
        · next hrun => exact hunit.of_error hrun

/-- A function that fails because a label is not known jumps to one of that number without having one, or
a function nested in it does. -/
theorem jumpsOut_of_unknownLabel {l : Lambda Expr} {session : Session} {id : LabelId}
    (h : (unitBody (l.map Expr.toNode)).run setting (unitStart (l.map Expr.toNode) session) =
      .error (.unknownLabel id) t) : ∃ f ∈ l :: l.body.functions, f.JumpsOut id := by
  have hbody : l.body.toNode.Keeps (finding (· ∈ l.targets.map (·.1.id))
      fun id => ∃ f ∈ l :: l.body.functions, f.JumpsOut id) := by
    refine finds_tree l.body _ (fun part hpart target htarget => ?_) fun f hf id hout =>
      ⟨f, List.mem_cons_of_mem _ hf, hout⟩
    exact (Lambda.mem_targets_or_jumpsOut hpart htarget).imp_right fun hout =>
      ⟨l, List.mem_cons_self, hout⟩
  exact (finds_unitBody hbody setting session).of_error h id rfl

end Emit

end Arbor
