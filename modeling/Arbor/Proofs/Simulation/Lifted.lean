/-
  Lifted operators follow their evaluation.

  Operands wait in temporaries.  Presence tests lead either through to the
  operator or to the code for absent operands; both join behind.
-/
import Arbor.Proofs.Simulation.Nodes

set_option autoImplicit false

namespace Arbor.Job

variable {J : Job} {start : Nat} {s t u : Emission} {c : Site} {q : Nat} {m : Memory}
  {stack : List Value} {α : Type} {out : EStateM.Result Stop World α}
  {post : α → Memory → List Value → Prop}

/-! ## Operands -/

theorem Emits.loadInner_position {o : Operand} (h : J.Emits start (Emit.loadInner o) s () t) :
    s.position + 1 ≤ t.position := by
  obtain ⟨_, u, hload, h⟩ := h.bind
  have hposition : u.position = s.position + 1 := hload.instr.2.1
  rw [← hposition]
  exact h.grows.position_le

namespace Follows

theorem loadTemp {slot : Nat} {v : Value} (h : J.Emits start (Emit.instr (.loadLocal slot)) s () t)
    (htemp : m.Temp s slot v) (hrest : J.Follows c t q m (v :: stack) out post) :
    J.Follows c s q m stack out post :=
  instr h (.loadLocal _ _ _ htemp.value) (.refl _ _) hrest

/-- Loading what is inside an operand that is present. -/
theorem loadInner {o : Operand} {v x : Value} (h : J.Emits start (Emit.loadInner o) s () t)
    (htemp : m.Temp s o.slot v) (hx : v.payloadAt? o.ty = some x)
    (hrest : J.Follows c t q m (x :: stack) out post) : J.Follows c s q m stack out post := by
  obtain ⟨_, u, hload, h⟩ := h.bind
  refine loadTemp hload htemp ?_
  unfold Value.payloadAt? at hx
  cases hty : o.ty with
  | nullable inner =>
      simp only [hty, Ty.inner?, Ty.isNullable, if_true] at h hx
      exact instr h (.optValueOrDefault _ _ _ inner hx) (.refl _ _) hrest
  | _ =>
      simp only [hty, Ty.inner?, Ty.isNullable, Bool.false_eq_true, if_false,
        Option.some.injEq] at h hx
      obtain ⟨-, rfl⟩ := h.pure
      rw [hx]
      exact hrest

/-- Loading whether an operand is present. -/
theorem loadPresence {o : Operand} {v : Value} (h : J.Emits start (Emit.loadPresence o) s () t)
    (htemp : m.Temp s o.slot v)
    (hrest : J.Follows c t q m (.bool (v.payloadAt? o.ty).isSome :: stack) out post) :
    J.Follows c s q m stack out post := by
  unfold Emit.loadPresence at h
  unfold Value.payloadAt? at hrest
  cases hty : o.ty.isNullable with
  | true =>
      simp only [hty, if_true] at h hrest
      obtain ⟨_, u, hload, h⟩ := h.bind
      refine loadTemp hload htemp (instr h (.optHasValue _ _ _ v) (.refl _ _) ?_)
      rw [← Value.payload?_isNone, Option.not_isNone]
      exact hrest
  | false =>
      simp only [hty, Bool.false_eq_true, if_false, Option.isSome_some] at h hrest
      exact instr h (.const _ _ _ _) (.refl _ _) hrest

/-- A jump where an optional in a temporary is absent. -/
theorem presenceTest {slot : Nat} {v : Value} {missing : Label}
    (h : J.Emits start (Emit.instrs [.loadLocal slot, .optHasValue, .jumpIfFalse missing]) s () t)
    (htemp : m.Temp s slot v) (htarget : J.routine.target? missing = some u.position)
    (hretains : s ≤ u) (hmissing : v.payload? = none → J.Follows c u q m stack out post)
    (hpresent : ∀ x, v.payload? = some x → J.Follows c t q m stack out post) :
    J.Follows c s q m stack out post := by
  obtain ⟨s₁, hload, h⟩ := h.instrs_cons
  obtain ⟨s₂, hhas, h⟩ := h.instrs_cons
  obtain ⟨s₃, hjump, h⟩ := h.instrs_cons
  obtain rfl := h.instrs_nil
  have hback : s₂ ≤ u := hhas.retains_before.trans (hload.retains_before.trans hretains)
  refine loadTemp hload htemp (instr hhas (.optHasValue _ _ _ v) (.refl _ _) ?_)
  rw [← Value.payload?_isNone, Option.not_isNone]
  refine branch hjump (.jumpIfFalse _ _ _ _ htarget) hback ?_ ?_
  · intro habsent
    refine hmissing ?_
    cases hv : v.payload? with
    | none => rfl
    | some x => simp [hv, Value.isTruthy] at habsent
  · intro hthere
    cases hv : v.payload? with
    | none => simp [hv, Value.isTruthy] at hthere
    | some x => exact hpresent x hv

/-- A jump where an operand is absent. -/
theorem jumpIfMissing {o : Operand} {v : Value} {missing : Label}
    (h : J.Emits start (Emit.jumpIfMissing o missing) s () t) (htemp : m.Temp s o.slot v)
    (htarget : o.ty.isNullable = true → J.routine.target? missing = some u.position)
    (hretains : o.ty.isNullable = true → s ≤ u)
    (hmissing : v.payloadAt? o.ty = none → J.Follows c u q m stack out post)
    (hpresent : ∀ x, v.payloadAt? o.ty = some x → J.Follows c t q m stack out post) :
    J.Follows c s q m stack out post := by
  unfold Emit.jumpIfMissing at h
  unfold Value.payloadAt? at hmissing hpresent
  cases hty : o.ty.isNullable with
  | true =>
      simp only [hty, if_true] at h hmissing hpresent
      exact presenceTest h htemp (htarget hty) (hretains hty) hmissing hpresent
  | false =>
      simp only [hty, Bool.false_eq_true, if_false] at h hpresent
      obtain ⟨-, rfl⟩ := h.pure
      exact hpresent v rfl

/-- The presence tests of operands lead behind them if all are present. -/
theorem presenceTests {os : List Operand} {vs : List Value} {missing : Label}
    (h : J.Emits start ((os.filter (·.ty.isNullable)).forM fun o =>
      Emit.instrs [.loadLocal o.slot, .optHasValue, .jumpIfFalse missing]) s () t)
    (htemps : List.Forall₂ (fun o v => m.Temp s o.slot v) os vs)
    (htarget : J.routine.target? missing = some u.position) (hretains : t ≤ u)
    (hmissing : ¬ List.Forall₂ (fun o v => (v.payloadAt? o.ty).isSome = true) os vs →
      J.Follows c u q m stack out post)
    (hpresent : List.Forall₂ (fun o v => (v.payloadAt? o.ty).isSome = true) os vs →
      J.Follows c t q m stack out post) :
    J.Follows c s q m stack out post := by
  induction os generalizing s vs with
  | nil =>
      cases htemps
      obtain ⟨-, rfl⟩ := h.pure
      exact hpresent .nil
  | cons o os ih =>
      obtain ⟨v, vs, htemp, hothers, rfl⟩ := List.forall₂_cons_left_iff.mp htemps
      cases hty : o.ty.isNullable with
      | true =>
          simp only [List.filter_cons, hty, if_true] at h
          obtain ⟨_, s₁, hfirst, hrest⟩ := h.bind
          have hfirstRetains : s ≤ s₁ := hfirst.retains
          refine presenceTest hfirst htemp htarget
            (hfirstRetains.trans (hrest.retains.trans hretains)) ?_ ?_
          · intro hv
            refine hmissing ?_
            intro hall
            cases hall with
            | cons hhead _ => simp [Value.payloadAt?, hty, hv] at hhead
          · intro x hx
            have hhead : (v.payloadAt? o.ty).isSome = true := by simp [Value.payloadAt?, hty, hx]
            refine ih hrest ?_ (fun hsome => hmissing fun hall => ?_) fun hall =>
              hpresent (.cons hhead hall)
            · exact hothers.imp fun _ _ htemp => htemp.later hfirstRetains
            · cases hall with
              | cons _ htail => exact hsome htail
      | false =>
          simp only [List.filter_cons, hty, Bool.false_eq_true, if_false] at h
          have hhead : (v.payloadAt? o.ty).isSome = true := by simp [Value.payloadAt?, hty]
          refine ih h hothers (fun hsome => hmissing fun hall => ?_) fun hall =>
            hpresent (.cons hhead hall)
          cases hall with
          | cons _ htail => exact hsome htail

/-- A lifted operator: its body where all operands are present, the code for absent ones
otherwise. -/
theorem lifted {os : List Operand} {vs : List Value} {wrap : Bool} {absent body : Emit Unit}
    (h : J.Emits start (Emit.lifted os wrap absent body) s () t)
    (htemps : List.Forall₂ (fun o v => m.Temp s o.slot v) os vs)
    (hbody : List.Forall₂ (fun o v => (v.payloadAt? o.ty).isSome = true) os vs →
      ∀ u v x, J.Emits start body u () v → J.Emits start (Emit.wrapIf wrap) v () x → s.Grows u →
        J.Follows c u x.position m stack out post)
    (habsent : ¬ List.Forall₂ (fun o v => (v.payloadAt? o.ty).isSome = true) os vs →
      ∀ u v, J.Emits start absent u () v → s.Grows u →
        J.Follows c u v.position m stack out post) :
    J.Follows c s t.position m stack out post := by
  obtain ⟨missing, s₁, hmissing, h⟩ := h.bind
  obtain ⟨done, s₂, hdone, h⟩ := h.bind
  obtain ⟨_, s₃, htests, h⟩ := h.bind
  obtain ⟨_, s₄, hbodyCode, h⟩ := h.bind
  obtain ⟨_, s₅, hwrap, h⟩ := h.bind
  obtain ⟨_, s₆, hjump, h⟩ := h.bind
  obtain ⟨_, s₇, hmark, h⟩ := h.bind
  obtain ⟨_, s₈, habsentCode, hmarkDone⟩ := h.bind
  obtain ⟨hmissingPosition, -⟩ := hmissing.newLabel
  obtain ⟨hdonePosition, -⟩ := hdone.newLabel
  obtain ⟨htarget, hpadPosition, -⟩ := hmark.mark
  obtain ⟨htargetDone, hend, -⟩ := hmarkDone.mark
  have hstart : s.Grows s₂ := hmissing.grows.trans hdone.grows
  have htested : s.Grows s₃ := hstart.trans htests.grows
  have hjoin : s₃.Grows s₇ :=
    hbodyCode.grows.trans (hwrap.grows.trans (hjump.grows.trans hmark.grows))
  refine .move hstart.retains (hdonePosition.trans hmissingPosition) ?_
  refine presenceTests htests (htemps.imp fun _ _ htemp => htemp.later hstart.retains)
    (by rw [htarget, hpadPosition]) hjoin.retains ?_ ?_
  · intro hall
    rw [hend]
    exact habsent hall s₇ s₈ habsentCode (htested.trans hjoin)
  · intro hall
    have hafter : s₃ ≤ s₅ := hbodyCode.retains.trans hwrap.retains
    have hover : s₅.Grows t :=
      hjump.grows.trans (hmark.grows.trans (habsentCode.grows.trans hmarkDone.grows))
    refine .andThen (hbody hall s₃ s₄ s₅ hbodyCode hwrap htested) hafter ?_
    intro v w n rest hpost hholds _ hlength
    refine .jump hjump (.jump _ _ _ (by rw [htargetDone, hend])) hover.retains ?_
    refine .ok (Nat.le_trans hlength hover.position_le) ?_ hpost
    rw [hover.scope]
    exact hholds

end Follows

end Arbor.Job
