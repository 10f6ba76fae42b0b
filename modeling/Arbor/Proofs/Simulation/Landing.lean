/-
  Landing pads.

  A body with an exit of its own records the depth of the stack before it; where
  a check fails, the pad cuts the stack down to that depth and produces the
  default.  The recorded depth survives the body because its local stays live.
-/
import Arbor.Emit.Control
import Arbor.Proofs.Simulation.Nodes

set_option autoImplicit false

namespace Arbor.Job

variable {J : Job} {start : Nat} {s t : Emission}

/-- Emission behind a placeholder: the code behind it is final, and the placeholder is what the
result called for. -/
theorem Emits.reserved {α : Type} {x : Emit α} {fill : α → Option Instr} {a : α}
    (h : J.Emits start (Emit.reserved x fill) s a t) :
    ∃ u v, J.Emits (s.position + 1) x u a v ∧ s ≤ u ∧ u.position = s.position + 1 ∧
      v ≤ t ∧ t.position = v.position ∧
      J.routine.code[s.position]? = some ((fill a).getD .nop) := by
  have hrun := h.run
  have hcode := h.completes.code
  have hcompletes := h.completes
  simp only [Emit.reserved] at hrun
  split at hrun
  · next b v hx =>
      have hgrows : Emission.Grows s { s with builder := s.builder.emit .nop } := .emit s .nop
      have hinner := x.grows hx
      have hposition : ({ s with builder := s.builder.emit .nop } : Emission).position =
          s.position + 1 := by
        simp [Emission.position, Builder.emit]
      have hreached : s.position < v.position := by
        have hle := hinner.position_le
        rw [hposition] at hle
        exact hle
      have hplaceholder : v.builder.code[s.position]? = some .nop := by
        obtain ⟨added, hadded⟩ := hinner.code
        have hlist : v.builder.code.toList[s.position]? = some .nop := by
          rw [← hadded]
          simp [Builder.emit, Emission.position]
        simpa using hlist
      -- Patching changes the placeholder only, so the rest is final as it was emitted.
      have hpatched : ∀ i : Instr, ∀ p, s.position + 1 ≤ p →
          (v.builder.patch s.position i).code[p]? = v.builder.code[p]? := by
        intro i p hp
        have hne : s.position ≠ p := by omega
        simp [Builder.patch, Array.getElem?_setIfInBounds_ne hne]
      have hsound : Emission.Sound { s with builder := s.builder.emit .nop } := by
        exact h.sound.grow hgrows (Nat.le_trans h.grows.locals_le h.limit)
      refine ⟨{ s with builder := s.builder.emit .nop }, v, ?_⟩
      split at hrun
      · next i hfill =>
          cases hrun
          refine ⟨⟨hx, hsound, ⟨?_, ?_, hcompletes.marks, hcompletes.locals⟩, ?_⟩,
            hgrows.retains, hposition, ⟨rfl, fun _ hi => hi⟩, ?_, ?_⟩
          · intro p hstart hp
            rw [hcode p (by have := h.reached; omega) (by simpa [Emission.position, Builder.patch] using hp)]
            exact hpatched i p hstart
          · simpa [Emission.position, Builder.patch] using hcompletes.size
          · exact Nat.le_of_eq hposition.symm
          · simp [Emission.position, Builder.patch]
          · rw [hcode s.position h.reached (by simpa [Emission.position, Builder.patch] using hreached)]
            have hbound : s.builder.code.size < v.builder.code.size := hreached
            simp [Builder.patch, hfill, Builder.position, Emission.position, hbound]
      · next hfill =>
          cases hrun
          refine ⟨⟨hx, hsound, ⟨?_, hcompletes.size, hcompletes.marks, hcompletes.locals⟩, ?_⟩,
            hgrows.retains, hposition, ⟨rfl, fun _ hi => hi⟩, rfl, ?_⟩
          · intro p hstart hp
            exact hcode p (by have := h.reached; omega) hp
          · exact Nat.le_of_eq hposition.symm
          · rw [hcode s.position h.reached hreached, hplaceholder, hfill]
            rfl
  · cases hrun

/-- Code that lands where a check fails. -/
theorem Follows.orLand {c : Site} {u : Emission} {q : Nat} {m : Memory} {stack : List Value}
    {α : Type} {x land : Eval α} {w : World} {pads : Nat → Prop}
    {mid post : α → Memory → List Value → Prop}
    (hx : J.Follows ⟨c.around, c.floor, pads⟩ s u.position m stack (x.run w) mid)
    (hretains : s ≤ u)
    (hok : ∀ a w n rest, mid a n rest → J.Holds u.scope w n → m.Keeps s n →
      rest.length ≤ u.position → J.Follows c u q n rest (.ok a w) post)
    (hexit : ∀ l w n top, pads l → J.Holds s.scope w n → m.Keeps s n →
      ∃ v : Emission, v.position = l ∧ s ≤ v ∧
        J.Follows c v q n (top ++ c.floor) (land.run w) post) :
    J.Follows c s q m stack ((Eval.orLand x land).run w) post := by
  change J.Follows _ s u.position m stack (x w) mid at hx
  simp only [EStateM.run, Eval.orLand]
  revert hx
  cases x w with
  | ok a w =>
      intro hx
      have hx : J.Follows c s u.position m stack (.ok a w) mid := hx
      exact hx.andThen hretains hok
  | error e w =>
      intro hx
      cases e with
      | exit =>
          obtain ⟨l, n, top, hl, hleads, hholds, hkeeps⟩ := hx
          obtain ⟨v, rfl, hv, hland⟩ := hexit l w n top hl hholds hkeeps
          exact .after hv hleads hkeeps hland
      | trap e => exact hx
      | stuck => exact trivial

/-- What stands at a landing pad follows the evaluation of the landing. -/
theorem Follows.pushLanding {c : Site} {ty : Ty} {form : Form} {m : Memory} {stack : List Value}
    {w : World} (h : J.Emits start (Emit.pushLanding ty form) s () t)
    (hty : form = .value → ty.isVoid = false) (hholds : J.Holds s.scope w m)
    (hlength : stack.length ≤ s.position) :
    J.Follows c s t.position m stack ((Eval.landed J.setting ty form).run w)
      (fun result _ rest => result.Left form stack rest) := by
  cases form with
  | nothing =>
      obtain ⟨-, rfl⟩ := h.pure
      exact .ok hlength hholds ⟨rfl, rfl⟩
  | value =>
      refine .bind (.pushDefault h (hty rfl) hholds hlength) h.retains ?_
      rintro v w n rest ⟨rfl, -, -⟩ hholds _ hlength
      exact .ok hlength hholds ⟨rfl, rfl⟩
  | address => exact .stuck _

/-- A body behind a placeholder that records the depth of the stack if a check in it can fail. -/
theorem Realizes.behindMark {x : Option Label → Emit Emitted} {y : Bool → Eval Result}
    {form : Form} {depth : Nat} {pad : Label} {e : Emitted} {c : Site} {w : World} {m : Memory}
    {l : Nat} (hx : J.Realizes x y form)
    (h : J.Emits start (Emit.reserved (do
      let pad ← Emit.newLabel
      let emitted ← x (some pad)
      pure (pad, emitted)) fun result => if result.2.usedExit then some (.markStack depth) else none)
      s (pad, e) t)
    (hpad : J.routine.target? pad = some l) (hbound : depth < J.routine.locals.size)
    (hslot : .local depth ∉ s.scope.slots) (hholds : J.Holds s.scope w m)
    (hlength : c.floor.length ≤ s.position) :
    ∃ u n, s ≤ u ∧ u ≤ t ∧
      J.Leads s.position (m.state c.around c.floor) u.position (n.state c.around c.floor) ∧
      (n = m ∨ n = m.setLocal depth (.int c.floor.length)) ∧
      (e.usedExit = true → n.locals[depth]? = some (.int c.floor.length)) ∧
      J.Follows ⟨c.around, c.floor, fun l' => l' = l ∧ e.usedExit = true ∧ e.form = form⟩ u
        t.position n c.floor ((y true).run w) (fun result _ rest => result.Left e.form c.floor rest) := by
  obtain ⟨u, v, h, hu, hposition, hv, hend, hcode⟩ := h.reserved
  have hretains : u ≤ t := h.retains.trans hv
  obtain ⟨pad', v₁, hnew, h⟩ := h.bind
  obtain ⟨e', v₂, hbody, h⟩ := h.bind
  obtain ⟨hpair, rfl⟩ := h.pure
  cases hpair
  obtain ⟨hnewPosition, -⟩ := hnew.newLabel
  have hbound : depth < m.locals.size := by rw [hholds.locals]; exact hbound
  have hresolves : J.Resolves (some pad) := by
    intro pad' heq
    cases heq
    exact ⟨l, hpad⟩
  -- The code of the body does the same whether the depth was recorded or not.
  have hfollows : ∀ n, J.Holds u.scope w n →
      J.Follows ⟨c.around, c.floor, fun l' => l' = l ∧ e.usedExit = true ∧ e.form = form⟩ u
        t.position n c.floor ((y true).run w)
        (fun result _ rest => result.Left e.form c.floor rest) := by
    intro n hn
    rw [hend]
    refine .move hnew.retains hnewPosition ?_
    refine (hx _ (some pad) v₁ v e hbody hresolves c.around w n c.floor ?_ ?_).widen rfl
      List.suffix_rfl ?_
    · rw [hnew.retains.scope]
      exact hn
    · rw [hnewPosition, hposition]
      exact Nat.le_succ_of_le hlength
    · rintro l' ⟨⟨pad', heq, hl'⟩, hused⟩
      cases heq
      rw [hpad] at hl'
      exact ⟨(Option.some.inj hl').symm, hused⟩
  have hscope : u.scope = s.scope := hu.scope
  cases hused : e.usedExit with
  | true =>
      simp only [hused, if_true, Option.getD_some] at hcode
      refine ⟨u, m.setLocal depth (.int c.floor.length), hu, hretains, ?_, .inr rfl, ?_, ?_⟩
      · rw [hposition]
        exact .next hcode (.markStack _ _ _ hbound)
      · intro _
        simp [Memory.setLocal, hbound]
      · rw [hused] at hfollows
        refine hfollows _ ?_
        rw [hscope]
        exact hholds.setLocal hslot _
  | false =>
      simp only [hused, Bool.false_eq_true, if_false, Option.getD_none] at hcode
      refine ⟨u, m, hu, hretains, ?_, .inl rfl, ?_, ?_⟩
      · rw [hposition]
        exact .next hcode (.nop _ _ _)
      · intro h
        cases h
      · rw [hused] at hfollows
        refine hfollows _ ?_
        rw [hscope]
        exact hholds

/-- A body with a landing of its own follows the evaluation with a landing. -/
theorem Realizes.withLanding {x : Option Label → Emit Emitted} {y : Bool → Eval Result}
    {ty : Ty} {form : Form} {e : Emitted} {c : Site} {w : World} {m : Memory}
    (hx : J.Realizes x y form) (hty : form = .value → ty.isVoid = false)
    (h : J.Emits start (Emit.withLanding ty x) s e t) (hholds : J.Holds s.scope w m)
    (hlength : c.floor.length ≤ s.position) :
    J.Follows c s t.position m c.floor ((Eval.landing J.setting ty form y).run w)
      (fun result _ rest => result.Left e.form c.floor rest) := by
  obtain ⟨o, _, ho, h⟩ := h.bind
  obtain ⟨rfl, rfl⟩ := ho.options
  cases hexits : J.setting.options.usesExits with
  | false =>
      -- Without exits the body is emitted as it is, and no check can fail in it.
      simp only [hexits, Bool.false_eq_true, if_false] at h
      have hbody := hx start none _ t e h (fun _ h => by cases h) c.around w m c.floor hholds hlength
      rw [Eval.landing, hexits]
      refine .orLand hbody h.retains (fun _ _ _ _ hleft hholds _ hlength => .ok hlength hholds hleft)
        ?_
      rintro l _ _ _ ⟨⟨pad, hpad, -⟩, -⟩
      cases hpad
  | true =>
      simp only [hexits, if_true] at h
      obtain ⟨depth, s₁, htemp, h⟩ := h.bind
      obtain ⟨⟨pad, emitted⟩, s₂, hbody, h⟩ := h.bind
      obtain ⟨hposition, hlive, hfresh, hbound⟩ := htemp.temp
      have hholding : s₁.Holding (.local depth) :=
        htemp.sound.holding htemp.retains (by rw [hlive]; exact List.mem_cons_self) hfresh
      have hholds₁ : J.Holds s₁.scope w m := by
        rw [htemp.retains.scope]
        exact hholds
      have hlength₁ : c.floor.length ≤ s₁.position := by
        rw [hposition]
        exact hlength
      rw [Eval.landing, hexits]
      cases hused : emitted.usedExit with
      | false =>
          simp only [hused, Bool.false_eq_true, if_false] at h
          obtain ⟨_, s₃, hmark, h⟩ := h.bind
          obtain ⟨rfl, rfl⟩ := h.pure
          obtain ⟨htarget, hend, -⟩ := hmark.mark
          obtain ⟨u, n, hu, hretains, hleads, hn, -, hfollows⟩ :=
            hx.behindMark hbody htarget hbound hholding.1 hholds₁ hlength₁
          rw [hposition] at hleads
          refine .after (htemp.retains.trans hu) hleads ?_ ?_
          · rcases hn with rfl | rfl
            · exact .refl _ _
            · exact keeps_setLocal hfresh _
          · refine .orLand hfollows hretains ?_ ?_
            · intro result w n rest hleft hholds _ hlength
              refine .move hmark.retains hend (.ok (by rw [hend]; exact hlength) ?_ hleft)
              rw [hmark.retains.scope]
              exact hholds
            · rintro l _ _ _ ⟨-, hexit, -⟩
              rw [hused] at hexit
              cases hexit
      | true =>
          simp only [hused, if_true] at h
          have hgrows := h.grows
          obtain ⟨done, s₃, hdone, h⟩ := h.bind
          obtain ⟨_, s₄, hjump, h⟩ := h.bind
          obtain ⟨_, s₅, hmark, h⟩ := h.bind
          obtain ⟨_, s₆, hreset, h⟩ := h.bind
          obtain ⟨_, s₇, hpush, h⟩ := h.bind
          obtain ⟨_, s₈, hmarkDone, h⟩ := h.bind
          obtain ⟨rfl, rfl⟩ := h.pure
          obtain ⟨htarget, hpadPosition, -⟩ := hmark.mark
          obtain ⟨htargetDone, hend, -⟩ := hmarkDone.mark
          obtain ⟨u, n, hu, hretains, hleads, hn, hrecorded, hfollows⟩ :=
            hx.behindMark hbody htarget hbound hholding.1 hholds₁ hlength₁
          have hlimit : c.floor.length < Run.depthLimit := Nat.lt_of_le_of_lt hlength htemp.position_lt
          have hpad : s₂ ≤ s₅ := hdone.retains.trans (hjump.retains.trans hmark.retains)
          rw [hposition] at hleads
          refine .after (htemp.retains.trans hu) hleads ?_ ?_
          · rcases hn with rfl | rfl
            · exact .refl _ _
            · exact keeps_setLocal hfresh _
          · refine .orLand hfollows hretains ?_ ?_
            · -- Behind the body the code jumps over the pad.
              intro result w n rest hleft hholds _ hlength
              refine .move hdone.retains hdone.newLabel.1 ?_
              have hafter : s₃ ≤ t :=
                hjump.retains.trans (hmark.retains.trans (hreset.retains.trans
                  (hpush.retains.trans hmarkDone.retains)))
              refine .jump hjump (.jump _ _ _ (by rw [htargetDone, hend])) hafter ?_
              refine .ok (Nat.le_trans hlength hgrows.position_le) ?_ hleft
              rw [hgrows.scope]
              exact hholds
            · -- At the pad the depth is still in its local.
              rintro l w k top ⟨rfl, -, rfl⟩ hholds hkeeps
              have hdepth : k.locals[depth]? = some (.int c.floor.length) :=
                (hkeeps _ (hholding.later hu)).trans (hrecorded hused)
              refine ⟨s₅, hpadPosition, hretains.trans hpad, ?_⟩
              refine .instr hreset (.resetStack _ _ _ top hdepth hlimit) (.refl _ _) ?_
              rw [hend]
              refine .pushLanding hpush hty ?_ ?_
              · rw [hreset.retains.scope, hpad.scope, hretains.scope]
                exact hholds
              · have hbodyEnd := hbody.grows.position_le
                have hpadStart := hdone.grows.position_le
                have hpadJump := hjump.grows.position_le
                have hpadReset := hreset.grows.position_le
                omega

theorem isVoid_of_form {shape : Shape} {ty : Ty} (h : shape.form ty = .value) :
    ty.isVoid = false := by
  cases hty : ty.isVoid with
  | false => rfl
  | true => simp [Shape.form, hty] at h

namespace Implements

variable {n : Node} {d : Meaning} {e : Emitted} {c : Site} {w : World} {m : Memory}

theorem guarded {shape : Shape} (hn : J.Implements n d)
    (h : J.Emits start (n.guarded shape) s e t) (hholds : J.Holds s.scope w m)
    (hlength : c.floor.length ≤ s.position) :
    J.Follows c s t.position m c.floor ((Eval.guarded J.setting d shape).run w)
      (fun result _ rest => result.Left e.form c.floor rest) := by
  rw [Eval.guarded, hn.ty]
  exact (hn.emit shape false).withLanding isVoid_of_form h hholds hlength

/-- The value of a node with a landing of its own. -/
theorem guardedValue (hn : J.Implements n d) (h : J.Emits start (n.guarded .value) s e t)
    (hholds : J.Holds s.scope w m) (hlength : c.floor.length ≤ s.position) :
    J.Follows c s t.position m c.floor ((Eval.guardedValue J.setting d).run w)
      (fun v _ rest => rest = v :: c.floor) := by
  refine .bind (hn.guarded h hholds hlength) h.retains ?_
  intro result w n rest hleft hholds _ hlength
  cases result with
  | nothing => exact .stuck _
  | value v => exact .ok hlength hholds hleft.2

/-- A node as a statement. -/
theorem statement (hn : J.Implements n d) (h : J.Emits start (Emit.statement n) s () t)
    (hholds : J.Holds s.scope w m) (hlength : c.floor.length ≤ s.position) :
    J.Follows c s t.position m c.floor ((Eval.statement J.setting d).run w)
      (fun _ _ rest => rest = c.floor) := by
  obtain ⟨e, u, he, h⟩ := h.bind
  obtain ⟨-, rfl⟩ := h.pure
  have hform : Shape.nothing.form n.ty = .nothing := by simp [Shape.form]
  have hemit := hn.emit .nothing false
  rw [hform] at hemit
  refine .bind (hemit.withLanding (fun h => by cases h) he hholds hlength) he.retains ?_
  intro result w n rest hleft hholds _ hlength
  cases result with
  | nothing => exact .ok hlength hholds hleft.2
  | value v => exact .stuck _

end Implements

end Arbor.Job
