/-
  Conditionals and blocks follow their evaluation.

  The variables of a block get fresh slots, so that nothing in use before the
  block changes when they are bound, and the slots stop being variables behind it.
-/
import Arbor.Emit.Control
import Arbor.Proofs.Simulation.Landing
import Arbor.Proofs.Simulation.Operators

set_option autoImplicit false

namespace Arbor.Job

variable {J : Job} {start : Nat} {s t u : Emission} {c : Site} {q : Nat} {m : Memory}
  {stack : List Value} {w : World} {n : Node} {d : Meaning} {exit : Option Label}

/-! ## Branches -/

theorem Emits.checkBranch {ty : Ty} (h : J.Emits start (n.checkBranch ty) s () t) : t = s := by
  rw [Node.checkBranch, bind_iff] at h
  obtain ⟨_, _, hregistry, h⟩ := h
  obtain ⟨rfl, rfl⟩ := hregistry.registry
  split at h
  · exact h.pure.2
  · obtain ⟨_, _, _, h⟩ := h.bind
    exact h.mismatch.elim

/-- Checking branches emits nothing. -/
theorem Emits.checkBranches {ty : Ty} {branches : List Node}
    (h : J.Emits start (Emit.checkBranches ty branches) s () t) : t = s := by
  unfold Emit.checkBranches at h
  split at h
  · exact h.pure.2
  · induction branches generalizing s with
    | nil => exact h.pure.2
    | cons n branches ih =>
        obtain ⟨_, u, hcheck, h⟩ := h.bind
        rw [ih h, hcheck.checkBranch]

/-- The code of a branch. -/
theorem Implements.branch {ty : Ty} {discard used : Bool} (hn : J.Implements n d)
    (h : J.Emits start (n.branch ty exit discard) s used t) (hexit : J.Resolves exit)
    (hholds : J.Holds s.scope w m) (hlength : stack.length ≤ s.position)
    (hfloor : c.floor <:+ stack) (hlanding : ∀ l, J.Lands exit l → used = true → c.landing l) :
    J.Follows c s t.position m stack ((Eval.branch d ty exit.isSome discard).run w)
      (fun result _ rest => result.Left (if discard then .nothing else .value) stack rest) := by
  unfold Node.branch at h
  unfold Eval.branch
  cases discard with
  | true =>
      simp only [if_true] at h ⊢
      refine .bind ((hn.effect h hexit hholds hlength).widen rfl hfloor fun l hl =>
        hlanding l hl.1 hl.2) h.retains ?_
      rintro _ w k rest rfl hholds _ hlength
      exact .ok hlength hholds ⟨rfl, rfl⟩
  | false =>
      simp only [Bool.false_eq_true, if_false, ↓Emits.seq_iff, Emits.bind_iff] at h ⊢
      obtain ⟨_, s₁, hvalue, s₂, hwrap, h⟩ := h
      obtain ⟨rfl, rfl⟩ := h.pure
      refine .bind (hn.operand hvalue hexit hholds hlength hfloor hlanding) hvalue.retains ?_
      rintro v w k rest rfl hholds _ hlength
      rw [hn.ty]
      exact .wrapIf hwrap (.ok (by grind) (hholds.later hwrap.retains) ⟨rfl, rfl⟩)

/-- The truth value of a test; an absent one counts as false. -/
theorem Follows.testTruth {α : Type} {out : EStateM.Result Stop World α}
    {post : α → Memory → List Value → Prop} {ty : Ty} {v : Value}
    (h : J.Emits start (Emit.testTruth ty) s () t)
    (hrest : J.Follows c t q m ((v.payloadAt? ty).getD (.bool false) :: stack) out post) :
    J.Follows c s q m (v :: stack) out post := by
  unfold Emit.testTruth at h
  unfold Value.payloadAt? at hrest
  cases hty : ty.isNullable with
  | true =>
      simp only [hty, if_true] at h hrest
      cases hv : v.payload? with
      | some x =>
          rw [hv] at hrest
          exact .instr h (.optValueOrDefault _ _ _ _ hv) (.refl _ _) hrest
      | none =>
          rw [hv] at hrest
          exact .instr h (.optDefault _ _ _ hv (Registry.zero_bool _)) (.refl _ _) hrest
  | false =>
      simp only [hty, Bool.false_eq_true, if_false] at h hrest
      obtain ⟨-, rfl⟩ := h.pure
      exact hrest

/-- The form of a node that leaves nothing where its value is discarded. -/
def discardedForm (ty : Ty) (shape : Shape) : Form :=
  if ty.isVoid || shape = .nothing then .nothing else .value

/-- A conditional follows its evaluation. -/
theorem Realizes.conditional {test ifTrue ifFalse : Node} {dtest dtrue dfalse : Meaning} {ty : Ty}
    {shape : Shape} (htest : J.Implements test dtest) (htrue : J.Implements ifTrue dtrue)
    (hfalse : J.Implements ifFalse dfalse) :
    J.Realizes (fun exit => Emit.conditional test ifTrue ifFalse ty exit shape)
      (fun exits => Eval.conditional J.setting dtest dtrue dfalse ty exits shape)
      (discardedForm ty shape) := by
  intro start exit s t e h hexit a w m stack hholds hlength
  simp only [Emit.conditional] at h
  split at h
  · exact h.mismatch.elim
  simp only [↓Emits.seq_iff, Emits.bind_iff] at h
  obtain ⟨s₀, hchecks, otherwise, s₁, hotherwise, done, s₂, hdone, _, s₃, hcode, s₄, htruth, s₅,
    hjumpFalse, usedTrue, s₆, hcodeTrue, s₇, hjump, s₈, hmark, usedFalse, s₉, hcodeFalse, s₁₀,
    hmarkDone, h⟩ := h
  obtain rfl := hchecks.checkBranches
  obtain ⟨rfl, rfl⟩ := h.pure
  have hform : ∀ used, (if (ty.isVoid || decide (shape = .nothing)) = true then Emitted.nothing used
      else Emitted.ofTy ty used) = ⟨used, discardedForm ty shape⟩ := by
    intro used
    unfold discardedForm
    split
    · rfl
    · next hvalue =>
        have hvoid : ty.isVoid = false := by
          simp only [Bool.or_eq_true, not_or, Bool.not_eq_true] at hvalue
          exact hvalue.1
        simp [Emitted.ofTy, hvoid]
  simp only [hform]
  refine .move (by grind : s₀ ≤ s₂) (by grind) ?_
  refine .bind (htest.guardedValue hcode (hholds.later (by grind)) (by grind)) hcode.retains ?_
  rintro v w k rest rfl hholds _ hlength
  simp only [htest.ty]
  refine .testTruth htruth ?_
  refine .branch hjumpFalse (.jumpIfFalse _ _ _ _ (by grind : _ = some s₈.position)) (by grind) ?_ ?_
  · intro hcondition
    have hcondition : ((v.payloadAt? test.ty).getD (.bool false)).isTruthy = false := by
      simpa using hcondition
    simp only [hcondition, Bool.false_eq_true, if_false]
    refine .andThen (hfalse.branch hcodeFalse hexit (hholds.later (by grind)) (by grind)
      List.suffix_rfl ?_) hcodeFalse.retains ?_
    · intro pad hpad hused
      exact ⟨hpad, by simp [hused], trivial⟩
    · intro result w k rest hleft hholds _ hlength
      exact .move hmarkDone.retains (by grind) (.ok (by grind) (hholds.later (by grind)) hleft)
  · intro hcondition
    have hcondition : ((v.payloadAt? test.ty).getD (.bool false)).isTruthy = true := by
      simpa using hcondition
    simp only [hcondition, if_true]
    refine .andThen (htrue.branch hcodeTrue hexit (hholds.later (by grind)) (by grind)
      List.suffix_rfl ?_) hcodeTrue.retains ?_
    · intro pad hpad hused
      exact ⟨hpad, by simp [hused], trivial⟩
    · intro result w k rest hleft hholds _ hlength
      refine .jump hjump (.jump _ _ _ (by grind : _ = some t.position)) (by grind) ?_
      exact .ok (by grind) (hholds.later (by grind)) hleft

/-! ## Statements -/

/-- The form of statements, which is that of the last one. -/
def statementsForm (ty : Ty) (shape : Shape) : List Node → Form
  | [] => (Emitted.ofTy ty false).form
  | [last] => if last.ty = ty then shape.form ty else (Emitted.ofTy ty false).form
  | _ :: rest => statementsForm ty shape rest

/-- Statements follow their evaluation. -/
theorem Realizes.statements {ty : Ty} {shape : Shape} {nodes : List Node}
    {meanings : List Meaning} (h : List.Forall₂ J.Implements nodes meanings) :
    J.Realizes (fun exit => Emit.statements ty exit shape nodes)
      (fun exits => Eval.statements J.setting ty exits shape meanings)
      (statementsForm ty shape nodes) := by
  induction h with
  | nil =>
      intro start exit s t e h hexit a w m stack hholds hlength
      simp only [Emit.statements, ↓Emits.seq_iff] at h
      obtain ⟨u, hpush, h⟩ := h
      obtain ⟨rfl, rfl⟩ := h.pure
      simp only [Eval.statements, Eval.default]
      cases hvoid : ty.isVoid with
      | true =>
          simp only [Emit.pushDefault, hvoid, if_true] at hpush
          obtain ⟨-, rfl⟩ := hpush.pure
          exact .ok hlength hholds ⟨by simp [Emitted.ofTy, hvoid], rfl⟩
      | false =>
          refine .bind (.pushDefault hpush hvoid hholds hlength) hpush.retains ?_
          rintro v w k rest ⟨rfl, -⟩ hholds _ hlength
          exact .ok hlength hholds ⟨by simp [Emitted.ofTy, hvoid], rfl⟩
  | @cons n d nodes meanings hn hrest ih =>
      cases hrest with
      | nil =>
          intro start exit s t e h hexit a w m stack hholds hlength
          simp only [Emit.statements] at h
          simp only [Eval.statements, statementsForm]
          cases hvoid : ty.isVoid with
          | true =>
              simp only [hvoid, if_true, Emits.bind_iff] at h ⊢
              obtain ⟨used, u, heffect, h⟩ := h
              obtain ⟨rfl, rfl⟩ := h.pure
              refine .bind ((hn.effect heffect hexit hholds hlength).widen rfl List.suffix_rfl ?_)
                heffect.retains ?_
              · rintro l ⟨hl, hused⟩
                refine ⟨hl, hused, ?_⟩
                split <;> simp [Emitted.nothing, Emitted.ofTy, Shape.form, hvoid]
              · rintro _ w k rest rfl hholds _ hlength
                exact .ok hlength hholds ⟨rfl, rfl⟩
          | false =>
              simp only [hvoid, Bool.false_eq_true, if_false, ↓Emits.seq_iff] at h ⊢
              obtain ⟨s₀, hcheck, h⟩ := h
              obtain rfl := hcheck.checkBranch
              rw [hn.ty]
              split at h
              · next hty =>
                  simp only [hty, if_true]
                  have hemit := hn.emit shape false start exit _ t e h hexit a w m stack hholds hlength
                  rw [hty] at hemit
                  exact hemit
              · next hty =>
                  simp only [hty, if_false]
                  rw [Emits.bind_iff] at h
                  obtain ⟨used, u, hbranch, h⟩ := h
                  obtain ⟨rfl, rfl⟩ := h.pure
                  have hform : (Emitted.ofTy ty used).form = .value := by simp [Emitted.ofTy, hvoid]
                  rw [hform]
                  exact hn.branch hbranch hexit hholds hlength List.suffix_rfl
                    fun l hl hused => ⟨hl, hused, by simp [Emitted.ofTy, hvoid]⟩
      | @cons n' d' nodes meanings hn' hrest =>
          intro start exit s t e h hexit a w m stack hholds hlength
          simp only [Emit.statements, ↓Emits.seq_iff] at h
          obtain ⟨u, hfirst, h⟩ := h
          refine .bind (hn.statement hfirst hholds hlength) hfirst.retains ?_
          rintro _ w k rest rfl hholds _ hlength
          exact ih start exit u t e h hexit a w k _ hholds hlength

/-! ## Blocks -/

/-- Variables in slots that were free at the first point and are in use at the second. -/
structure Fresh (s t : Emission) (bound : Scope) : Prop where
  distinct : bound.slots.Nodup
  slots : ∀ slot ∈ bound.slots, ∃ i, slot = .local i ∧ i ∉ s.pool.live ∧ i ∈ t.pool.live

/-- Variables are bound to slots that were free. -/
theorem Emits.bindLocals {vars : List Variable} {bound : Scope}
    (h : J.Emits start (Emit.bindLocals vars) s bound t) : Fresh s t bound := by
  induction vars generalizing s bound with
  | nil =>
      obtain ⟨rfl, rfl⟩ := h.pure
      exact ⟨.nil, fun _ h => by cases h⟩
  | cons v vars ih =>
      simp only [Emit.bindLocals, Emit.bindLocal, ↓seq_iff, bind_iff] at h
      obtain ⟨_, s₃, ⟨slot, s₁, htemp, s₂, hpush, _, hstore, hfirst⟩, bound, s₄, hrest, h⟩ := h
      obtain ⟨rfl, rfl⟩ := hfirst.pure
      obtain ⟨rfl, rfl⟩ := h.pure
      obtain ⟨-, hlive, hfree, -⟩ := htemp.temp
      have hslot : slot ∈ s₃.pool.live := by
        refine (by grind : s₁ ≤ s₃).live ?_
        rw [hlive]
        exact List.mem_cons_self
      obtain ⟨hdistinct, hslots⟩ := ih hrest
      refine ⟨List.nodup_cons.mpr ⟨?_, hdistinct⟩, ?_⟩
      · intro hmem
        obtain ⟨i, hi, hfresh, -⟩ := hslots _ hmem
        cases hi
        exact hfresh hslot
      · intro other hother
        rcases List.mem_cons.mp hother with rfl | hother
        · exact ⟨slot, rfl, hfree, hrest.retains.live hslot⟩
        · obtain ⟨i, rfl, hfresh, hi⟩ := hslots _ hother
          exact ⟨i, rfl, fun hold => hfresh ((by grind : s ≤ s₃).live hold), hi⟩

/-- Zeroed locals follow the evaluation of fresh variables. -/
theorem Follows.bindLocals {vars : List Variable} {bound : Scope}
    (h : J.Emits start (Emit.bindLocals vars) s bound t) (hholds : J.Holds s.scope w m)
    (hlength : stack.length ≤ s.position) :
    J.Follows c s t.position m stack ((Eval.fresh J.setting vars).run w)
      (fun vs n rest => rest = stack ∧ List.Forall₂ n.Binds vs bound) := by
  induction vars generalizing s m w bound with
  | nil =>
      obtain ⟨rfl, rfl⟩ := h.pure
      exact .ok hlength hholds ⟨rfl, .nil⟩
  | cons v vars ih =>
      simp only [Emit.bindLocals, Emit.bindLocal, ↓Emits.seq_iff, Emits.bind_iff] at h
      obtain ⟨_, s₃, ⟨slot, s₁, htemp, s₂, hpush, _, hstore, hfirst⟩, bound, s₄, hrest, h⟩ := h
      obtain ⟨rfl, rfl⟩ := hfirst.pure
      obtain ⟨rfl, rfl⟩ := h.pure
      obtain ⟨hposition, hlive, hfree, hbound⟩ := htemp.temp
      have hslot : slot ∈ s₃.pool.live := by
        refine (by grind : s₁ ≤ s₃).live ?_
        rw [hlive]
        exact List.mem_cons_self
      have hholding : s₃.Holding (.local slot) :=
        htemp.sound.holding (by grind : s ≤ s₃) hslot hfree
      simp only [Eval.fresh]
      split
      · exact .stuck _
      next hvoid =>
      have hvoid : v.ty.isVoid = false := by simpa using hvoid
      have hzero : J.Follows c s s₂.position m stack
          ((Eval.defaultOf J.setting.registry v.ty).run w) _ :=
        .move htemp.retains hposition
          (.pushDefault hpush hvoid (hholds.later htemp.retains) (by grind))
      -- The slot counts as free until its zero is stored.
      refine .bind (u := { s₂ with pool := s.pool }) hzero
        ⟨(by grind : s ≤ s₂).scope, fun _ hi => hi⟩ ?_
      rintro zero w k rest ⟨rfl, -, -⟩ hholds _ hlength
      have hbound : slot < k.locals.size := by rw [hholds.locals]; exact hbound
      have hafter : J.Holds s₃.scope w (k.setLocal slot zero) := by
        rw [(by grind : s₃.scope = s₂.scope)]
        refine hholds.setLocal ?_ zero
        rw [(by grind : s₂.scope = s₃.scope)]
        exact hholding.1
      have hlength : stack.length ≤ s₂.position := Nat.le_of_succ_le hlength
      refine .after (u := s₃) ⟨hstore.retains.scope, (by grind : s ≤ s₃).live⟩
        (hstore.leads (.storeLocal _ _ _ _ hbound)) 
        (keeps_setLocal (s := { s₂ with pool := s.pool }) hfree _) ?_
      refine .bind (ih hrest hafter (by grind)) hrest.retains ?_
      rintro vs w n rest ⟨rfl, hbinds⟩ hholds hkeeps hlength
      refine .ok hlength hholds ⟨rfl, .cons ⟨rfl, rfl, ?_⟩ hbinds⟩
      rw [hkeeps _ hholding]
      simp [Memory.slot?, Memory.setLocal, hbound]

/-- Evaluation with further variables is followed where they are in scope. -/
theorem Follows.within {α : Type} {x : Eval α} {post : α → Memory → List Value → Prop}
    {vars : Vars} {bound : Scope} (hscope : t.scope = bound.reverse ++ s.scope)
    (hposition : t.position = s.position) (hbound : vars.length = bound.length)
    (hholding : ∀ slot, s.Holding slot → t.Holding slot)
    (hx : J.Follows c t q m stack (x.run { w with vars := vars.reverse ++ w.vars }) post) :
    J.Follows c s q m stack ((Eval.within vars x).run w) post := by
  have hdrop : ∀ {w : World} {n : Memory}, J.Holds t.scope w n →
      J.Holds s.scope { w with vars := w.vars.drop vars.length } n := by
    intro w n hn
    refine ⟨hn.heap, hn.statics, hn.locals, ?_⟩
    have hvars := List.forall₂_drop vars.length hn.vars
    rw [hscope, hbound, ← List.length_reverse, List.drop_left, List.length_reverse,
      ← hbound] at hvars
    exact hvars
  have hkeeps : ∀ {n : Memory}, m.Keeps t n → m.Keeps s n :=
    fun hn slot hslot => hn slot (hholding slot hslot)
  change J.Follows c t q m stack (x { w with vars := vars.reverse ++ w.vars }) post at hx
  simp only [EStateM.run, Eval.within]
  revert hx
  cases x { w with vars := vars.reverse ++ w.vars } with
  | ok a w =>
      rintro ⟨n, rest, hleads, hholds, hkept, hlength, hpost⟩
      rw [hposition] at hleads
      exact ⟨n, rest, hleads, hdrop hholds, hkeeps hkept, hlength, hpost⟩
  | error e w =>
      intro hx
      cases e with
      | exit =>
          obtain ⟨l, n, top, hl, hleads, hholds, hkept⟩ := hx
          rw [hposition] at hleads
          exact ⟨l, n, top, hl, hleads, hdrop hholds, hkeeps hkept⟩
      | trap e =>
          obtain ⟨u, hends, hrest⟩ := hx
          rw [hposition] at hends
          exact ⟨u, hends, hrest⟩
      | stuck => exact trivial

/-- A section with further variables is a run of what it is around, where they are in scope. -/
theorem Emits.inScope {α : Type} {x : Emit α} {a : α} {bound : Scope}
    (h : J.Emits start (Emit.inScope bound x) u a t) (hfresh : Fresh s u bound) (hs : s.Sound)
    (hretains : s ≤ u) :
    ∃ v, J.Emits start x { u with scope := bound.reverse ++ u.scope } a v ∧
      t.position = v.position := by
  have hrun := h.run
  have hcompletes := h.completes
  simp only [Emit.inScope] at hrun
  split at hrun
  · next v hx =>
      cases hrun
      refine ⟨v, ⟨hx, ⟨h.sound.tidy, ?_, ?_⟩, ⟨hcompletes.code, hcompletes.size, hcompletes.marks,
        hcompletes.locals⟩, h.reached⟩, rfl⟩
      · have hslots : Scope.slots (bound.reverse ++ u.scope) =
            bound.slots.reverse ++ u.scope.slots := by
          simp [Scope.slots]
        rw [hslots]
        refine List.nodup_append.mpr
          ⟨List.pairwise_reverse.mpr (hfresh.distinct.imp Ne.symm), h.sound.distinct, ?_⟩
        rintro slot hslot other hother rfl
        obtain ⟨i, rfl, hfree, -⟩ := hfresh.slots slot (List.mem_reverse.mp hslot)
        rw [hretains.scope] at hother
        exact hfree (hs.live i hother)
      · intro slot hslot
        have hslots : .local slot ∈ bound.slots ∨ .local slot ∈ u.scope.slots := by
          simpa [Scope.slots] using hslot
        rcases hslots with hslot | hslot
        · obtain ⟨i, hi, -, hlive⟩ := hfresh.slots _ hslot
          cases hi
          exact hlive
        · exact h.sound.live slot hslot
  · cases hrun

/-- A block follows its evaluation. -/
theorem Realizes.block {vars : List Variable} {ty : Ty} {shape : Shape} {nodes : List Node}
    {meanings : List Meaning} (hnodes : List.Forall₂ J.Implements nodes meanings) :
    J.Realizes (fun exit => Emit.block vars nodes ty exit shape)
      (fun exits => Eval.block J.setting vars meanings ty exits shape)
      (statementsForm ty shape nodes) := by
  intro start exit s t e h hexit a w m stack hholds hlength
  obtain ⟨v, h, hend⟩ := h.withTemps
  rw [hend]
  rw [Emit.withLocals, Emits.bind_iff] at h
  obtain ⟨bound, u, hbind, h⟩ := h
  have hfresh := hbind.bindLocals
  obtain ⟨x, hbody, hlast⟩ := h.inScope hfresh hbind.sound hbind.retains
  rw [hlast]
  -- Behind the block its slots are free again, so they count as free in between.
  refine .bind (u := { u with pool := s.pool }) (?_ : J.Follows _ s u.position m stack _
    fun vs n rest => rest = stack ∧ List.Forall₂ n.Binds vs bound)
    ⟨hbind.retains.scope, fun _ hi => hi⟩ ?_
  · exact .bindLocals hbind hholds hlength
  rintro vs w k rest ⟨rfl, hbinds⟩ hholds _ hlength
  have hinner : J.Holds (bound.reverse ++ u.scope) { w with vars := vs.reverse ++ w.vars } k :=
    ⟨hholds.heap, hholds.statics, hholds.locals,
      List.rel_append (List.rel_reverse hbinds) hholds.vars⟩
  refine .within (t := { u with scope := bound.reverse ++ u.scope }) rfl rfl hbinds.length_eq ?_
    (Realizes.statements hnodes start exit _ x e hbody hexit a _ k rest hinner hlength)
  rintro slot ⟨hscope, hlive⟩
  refine ⟨?_, fun i hi => hbind.retains.live (hlive i hi)⟩
  intro hslot
  have hslots : slot ∈ bound.slots ∨ slot ∈ u.scope.slots := by
    simpa [Scope.slots] using hslot
  rcases hslots with hslot | hslot
  · obtain ⟨i, hi, hfree, -⟩ := hfresh.slots _ hslot
    exact hfree (hlive i hi)
  · exact hscope hslot

end Arbor.Job
