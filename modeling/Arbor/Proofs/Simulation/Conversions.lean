/-
  Reads of optionals and numeric conversions follow their evaluation.
-/
import Arbor.Emit.Access
import Arbor.Emit.Convert
import Arbor.Proofs.Simulation.Operators

set_option autoImplicit false

namespace Arbor.Job

variable {J : Job} {start : Nat} {s t u : Emission} {c : Site} {q : Nat} {m : Memory}
  {stack : List Value} {w : World} {n : Node} {d : Meaning}

/-! ## Optionals -/

namespace Follows

theorem exit {α : Type} {post : α → Memory → List Value → Prop} {rest : List Value} {l : Nat}
    (hleads : J.Leads s.position (m.state c.around stack) l (m.state c.around rest))
    (hlanding : c.landing l) (hfloor : c.floor <:+ rest) (hholds : J.Holds s.scope w m) :
    J.Follows c s q m stack ((Eval.exit : Eval α).run w) post := by
  obtain ⟨top, rfl⟩ := hfloor
  exact ⟨l, m, top, hlanding, hleads, hholds, .refl _ _⟩

/-- A null check follows a check that fails on absent values. -/
theorem nullCheck {α : Type} {x : Eval α} {post : α → Memory → List Value → Prop} {v : Value}
    {exit : Option Label} {checked : Bool} (h : J.Emits start (Emit.nullCheck exit) s checked t)
    (hexit : J.Resolves exit) (hholds : J.Holds s.scope w m) (hfloor : c.floor <:+ v :: stack)
    (hlanding : ∀ l, J.Lands exit l → checked = true → c.landing l)
    (hrest : J.Follows c t q m (v :: stack) (x.run w) post) :
    J.Follows c s q m (v :: stack)
      ((if v.isAbsent && exit.isSome && J.setting.options.nullChecks then Eval.exit else x).run w)
      post := by
  cases exit with
  | none =>
      obtain ⟨-, rfl⟩ := h.pure
      simpa using hrest
  | some pad =>
      obtain ⟨o, _, ho, h⟩ := h.bind
      obtain ⟨rfl, rfl⟩ := ho.options
      cases hchecks : J.setting.options.nullChecks with
      | false =>
          simp only [hchecks, Bool.false_eq_true, if_false] at h
          obtain ⟨-, rfl⟩ := h.pure
          simpa using hrest
      | true =>
          simp only [hchecks, if_true, ↓Emits.seq_iff, Emits.instrs_cons_iff,
            Emits.instrs_one_iff] at h
          obtain ⟨s₂, ⟨s₁, hdup, hjump⟩, h⟩ := h
          obtain ⟨rfl, rfl⟩ := h.pure
          obtain ⟨l, hl⟩ := hexit pad rfl
          simp only [Option.isSome_some, Bool.and_true]
          refine .instr hdup (.dup _ _ _ v) (.refl _ _) ?_
          cases habsent : v.isAbsent with
          | true =>
              simp only [if_true]
              refine .exit (.jump hjump.instr.1 ?_) (hlanding l ⟨pad, rfl, hl⟩ rfl) hfloor
                (hholds.later hdup.retains)
              have hstep := Run.Steps.jumpIfAbsent (r := J.setting.registry) m c.around (v :: stack)
                v hl
              rw [habsent] at hstep
              exact hstep
          | false =>
              simp only [Bool.false_eq_true, if_false]
              refine .instr hjump ?_ (.refl _ _) hrest
              have hstep := Run.Steps.jumpIfAbsent (r := J.setting.registry) m c.around (v :: stack)
                v hl
              rw [habsent] at hstep
              exact hstep

end Follows

/-- Presence and content of an optional follow their evaluation. -/
theorem Realizes.member {field : Member} {ty : Ty} {shape : Shape} (hn : J.Implements n d) :
    J.Realizes (fun exit => Emit.member (some n) field ty exit shape)
      (fun exits => Eval.member J.setting (some d) field ty exits) (Emitted.ofTy ty false).form := by
  intro start exit s t e h hexit a w m stack hholds hlength
  cases field with
  | hasValue =>
      simp only [Emit.member, Emits.bind_iff] at h
      obtain ⟨_, _, hreceiver, h⟩ := h
      obtain ⟨rfl, rfl⟩ := hreceiver.pure
      split at h
      · simp only [↓Emits.seq_iff, Emits.bind_iff] at h
        obtain ⟨used, s₁, hvalue, s₂, hhas, h⟩ := h
        obtain ⟨rfl, rfl⟩ := h.pure
        refine .bind (hn.operand hvalue hexit hholds hlength List.suffix_rfl ?_) hvalue.retains ?_
        · intro pad hpad hused
          exact ⟨hpad, hused, rfl⟩
        rintro v w k rest rfl hholds _ hlength
        refine .instr hhas (.optHasValue _ _ _ v) (.refl _ _) (.yield used (by grind) ?_)
        exact hholds.later hhas.retains
      · exact h.mismatch.elim
  | value =>
      simp only [Emit.member, Emits.bind_iff] at h
      obtain ⟨_, _, hreceiver, h⟩ := h
      obtain ⟨rfl, rfl⟩ := hreceiver.pure
      split at h
      · simp only [↓Emits.seq_iff, Emits.bind_iff] at h
        obtain ⟨used, s₁, hvalue, checked, s₂, hcheck, s₃, hcontent, h⟩ := h
        obtain ⟨rfl, rfl⟩ := h.pure
        refine .bind (hn.operand hvalue hexit hholds hlength List.suffix_rfl ?_) hvalue.retains ?_
        · intro pad hpad hused
          exact ⟨hpad, by simp [Emitted.ofTy, hused], rfl⟩
        rintro v w k rest rfl hholds _ hlength
        refine .nullCheck hcheck hexit hholds (List.suffix_cons _ _) ?_ ?_
        · intro pad hpad hchecked
          exact ⟨hpad, by simp [Emitted.ofTy, hchecked], rfl⟩
        refine .bind (.computes hcontent (.optValue v) (hholds.later hcheck.retains) (by grind))
          hcontent.retains ?_
        rintro x w k rest ⟨rfl, -⟩ hholds _ hlength
        exact .yield _ hlength hholds
      · exact h.mismatch.elim
  | _ => exact .stuck _

/-! ## Numeric conversions -/

/-- The conversion of a number. -/
theorem Follows.convertNum {source target : NumKind} {checked : Bool} {v : Value}
    (h : J.Emits start (Emit.instrs (if source = target then [] else [.conv target checked])) s () t)
    (hholds : J.Holds s.scope w m) (hlength : (v :: stack).length ≤ s.position) :
    J.Follows c s t.position m (v :: stack)
      ((Eval.convertNum J.setting source target checked v).run w)
      (fun v _ rest => rest = v :: stack) := by
  unfold Eval.convertNum
  split at h
  · next hsame =>
      obtain rfl := h.instrs_nil
      simp only [hsame, if_true]
      exact .ok hlength hholds rfl
  · next hother =>
      rw [Emits.instrs_one_iff] at h
      simp only [hother, if_false]
      refine (Follows.computes h (.conv target checked v) hholds ?_).imp fun v n rest hpost => hpost.1
      simp only [List.length_cons] at hlength
      omega

/-- A numeric conversion follows its evaluation. -/
theorem Realizes.numericConversion {source target : NumKind} {checked : Bool} {ty : Ty}
    (hn : J.Implements n d) :
    J.Realizes (fun exit => Emit.numericConversion n source target checked ty exit)
      (fun exits => Eval.numericConversion J.setting d source target checked ty exits)
      (Emitted.ofTy ty false).form := by
  intro start exit s t e h hexit a w m stack hholds hlength
  simp only [Emit.numericConversion] at h
  simp only [Eval.numericConversion, hn.ty]
  split at h
  · -- An optional stays one.
    next hboth =>
    obtain ⟨hnty, hty⟩ := Bool.and_eq_true_iff.mp hboth
    obtain ⟨v, h, hend⟩ := h.withTemps
    rw [hend]
    simp only [Emit.spillOperand, ↓Emits.seq_iff, Emits.bind_iff] at h
    obtain ⟨used, s₁, hvalue, o, s₂, ⟨slot, _, hspill, ho⟩, s₃, hlifted, h⟩ := h
    obtain ⟨rfl, rfl⟩ := h.pure
    obtain ⟨rfl, rfl⟩ := ho.pure
    refine .bind (hn.operand hvalue hexit hholds hlength List.suffix_rfl ?_) hvalue.retains ?_
    · intro pad hpad hused
      exact ⟨hpad, hused, rfl⟩
    rintro x w k rest rfl hholds _ hlength
    refine .spill hspill hholds fun k htemp hholds _ => ?_
    have hpayload : x.payloadAt? n.ty = x.payload? := by simp [Value.payloadAt?, hnty]
    simp only [hboth, if_true, ← hpayload]
    refine .lifted hlifted (.cons htemp .nil) ?_ ?_
    · intro hall u₁ u₂ u₃ hbody hwrap hgrows
      obtain ⟨y, hy⟩ := Option.isSome_iff_exists.mp (List.forall₂_cons.mp hall).1
      obtain ⟨_, u₄, hinner, hcode⟩ := hbody.bind
      have hbefore := hgrows.retains
      have hposition := hgrows.position_le
      have hinnerPosition := hinner.loadInner_position
      simp only [hy]
      refine .loadInner hinner (htemp.later hbefore) hy ?_
      refine .bind (.convertNum hcode (hholds.later (by grind)) (by grind)) hcode.retains ?_
      rintro y w k rest rfl hholds _ hlength
      exact .wrapYield used hwrap hlength hholds
    · intro hall u₁ u₂ habsent hgrows
      have hnone : x.payloadAt? n.ty = none := by
        cases hx : x.payloadAt? n.ty with
        | none => rfl
        | some y => exact (hall (.cons (by simp [hx]) .nil)).elim
      have hbefore := hgrows.retains
      have hposition := hgrows.position_le
      simp only [hnone]
      exact .instr habsent (.loadDefault _ _ _ (Registry.zero_nullable _ hty)) (.refl _ _)
        (.yield used (by grind) (hholds.later (by grind)))
  · next hplain =>
    simp only [hplain]
    simp only [↓Emits.seq_iff, Emits.bind_iff] at h
    obtain ⟨used, s₁, hvalue, s₂, hunwrap, s₃, hcode, s₄, hwrap, h⟩ := h
    obtain ⟨rfl, rfl⟩ := h.pure
    refine .bind (hn.operand hvalue hexit hholds hlength List.suffix_rfl ?_) hvalue.retains ?_
    · intro pad hpad hused
      exact ⟨hpad, hused, rfl⟩
    rintro x w k rest rfl hholds _ hlength
    refine .bind (.unwrapIf hunwrap hholds hlength) hunwrap.retains ?_
    rintro x w k rest rfl hholds _ hlength
    refine .bind (.convertNum hcode hholds hlength) hcode.retains ?_
    rintro x w k rest rfl hholds _ hlength
    exact .wrapYield used hwrap hlength hholds

/-- A conversion follows its evaluation. -/
theorem Realizes.convert {checked : Bool} {ty : Ty} (hn : J.Implements n d) :
    J.Realizes (fun exit => Emit.convert n checked none ty exit)
      (fun exits => Eval.convert J.setting d checked ty exits) (Emitted.ofTy ty false).form := by
  intro start exit s t e h hexit a w m stack hholds hlength
  simp only [Emit.convert] at h
  simp only [Eval.convert, hn.ty]
  cases hsource : n.ty.underlying.numKind? with
  | none => exact .stuck _
  | some source =>
      cases htarget : ty.underlying.numKind? with
      | none => exact .stuck _
      | some target =>
          simp only [hsource, htarget] at h ⊢
          exact numericConversion hn _ _ _ _ _ h hexit _ _ _ _ hholds hlength

end Arbor.Job
