/-
  Assignments follow their evaluation.

  The operands of an assignment wait in temporaries while the others are
  evaluated; storing into a variable changes no temporary.
-/
import Arbor.Emit.Assign
import Arbor.Proofs.Simulation.Control

set_option autoImplicit false

namespace Arbor.Job

variable {J : Job} {start : Nat} {s t u : Emission} {c : Site} {q : Nat} {m : Memory}
  {stack : List Value} {w : World} {n value : Node} {d dvalue : Meaning} {exit : Option Label}

/-! ## Places -/

theorem Prepared.later {p : Place} {ty : Ty} {spot : Spot} (h : Prepared s p ty spot)
    (hretains : s ≤ t) : Prepared t p ty spot := by
  cases spot with
  | var id =>
      obtain ⟨slot, declared, hp, hslot⟩ := h
      exact ⟨slot, declared, hp, by rw [hretains.scope]; exact hslot⟩

namespace Follows

/-- Loading a place. -/
theorem loadPlace {p : Place} {ty : Ty} {spot : Spot} (h : J.Emits start (Emit.loadPlace p) s () t)
    (hp : Prepared s p ty spot) (hholds : J.Holds s.scope w m) (hlength : stack.length ≤ s.position) :
    J.Follows c s t.position m stack ((Eval.load spot).run w) (fun v _ rest => rest = v :: stack) := by
  cases spot with
  | var id =>
      obtain ⟨slot, declared, rfl, hslot⟩ := hp
      obtain ⟨v, hv, hvalue⟩ := hholds.lookup hslot
      have hread : (Eval.load (.var id)).run w = .ok v w := by
        have hlookup : Eval.lookup id w = .ok (declared, v) w := by simp [Eval.lookup, hv]
        change EStateM.bind (Eval.lookup id) _ w = _
        simp only [EStateM.bind, hlookup]
        rfl
      have hposition : s.position + 1 ≤ t.position := by
        cases slot with
        | arg i => exact Nat.le_of_eq (Emits.instr_position h).symm
        | «local» i => exact Nat.le_of_eq (Emits.instr_position h).symm
      rw [hread]
      refine .loadVar h hvalue (.ok ?_ (hholds.later h.retains) rfl)
      simp only [List.length_cons]
      omega

/-- Storing a temporary into a place. -/
theorem storePlace {p : Place} {ty : Ty} {spot : Spot} {slot : Nat} {v : Value}
    (h : J.Emits start (Emit.storePlace p slot) s () t) (hp : Prepared s p ty spot)
    (htemp : m.Temp s slot v) (hholds : J.Holds s.scope w m) (hlength : stack.length ≤ s.position) :
    J.Follows c s t.position m stack ((Eval.store spot v).run w) (fun _ _ rest => rest = stack) := by
  cases spot with
  | var id =>
      obtain ⟨target, declared, rfl, hslot⟩ := hp
      obtain ⟨old, -, hold⟩ := hholds.lookup hslot
      obtain ⟨_, s₁, hload, hstore⟩ := h.bind
      have hslot₁ : s₁.scope.lookup id = some (target, declared) := by
        rw [hload.retains.scope]
        exact hslot
      have hassigned : J.Holds s₁.scope _ (m.setSlot target v) :=
        (hholds.later hload.retains).assign hload.sound_after.distinct hslot₁ v
      refine .loadTemp hload htemp ?_
      refine .storeVar hstore hold (mem_slots_of_lookup hslot₁) ?_
      exact .ok (by grind) (hassigned.later hstore.retains) rfl

/-- A value stored in a slot of another type. -/
theorem coerce {α : Type} {out : EStateM.Result Stop World α}
    {post : α → Memory → List Value → Prop} {source target : Ty} {context : String} {v : Value}
    (h : J.Emits start (Emit.coerce source target context) s () t)
    (hrest : J.Follows c t q m (Eval.coerced source target v :: stack) out post) :
    J.Follows c s q m (v :: stack) out post := by
  unfold Emit.coerce at h
  unfold Eval.coerced at hrest
  split at h
  · next hsame =>
      simp only [hsame, if_true] at hrest
      obtain ⟨-, rfl⟩ := h.pure
      exact hrest
  next hsame =>
  simp only [hsame, if_false] at hrest
  split at h
  · next hwrap =>
      simp only [hwrap, if_true] at hrest
      exact .instr h (.optWrap _ _ _ v) (.refl _ _) hrest
  next hwrap =>
  simp only [hwrap] at hrest
  rw [Emits.bind_iff] at h
  obtain ⟨_, _, hregistry, h⟩ := h
  obtain ⟨rfl, rfl⟩ := hregistry.registry
  split at h
  · split at h
    · next hbox =>
        simp only [hbox] at hrest
        exact .instr h (.box _ _ _ _ v) (.refl _ _) hrest
    · next hbox =>
        simp only [hbox] at hrest
        obtain ⟨-, rfl⟩ := h.pure
        exact hrest
  · obtain ⟨_, _, _, h⟩ := h.bind
    exact h.mismatch.elim

/-- What an assignment leaves. -/
theorem assigned {ty : Ty} {slot : Nat} {shape : Shape} {used : Bool} {e : Emitted} {v : Value}
    (h : J.Emits start (Emit.assigned ty slot (decide (shape ≠ .nothing)) used) s e t)
    (htemp : m.Temp s slot v) (hholds : J.Holds s.scope w m) (hlength : stack.length ≤ s.position) :
    J.Follows c s t.position m stack ((Eval.assigned ty shape v).run w)
      (fun result _ rest => result.Left e.form stack rest) := by
  unfold Emit.assigned at h
  unfold Eval.assigned
  cases hshape : decide (shape = .nothing) with
  | true =>
      have hshape : shape = .nothing := of_decide_eq_true hshape
      simp only [hshape, ne_eq, not_true_eq_false, decide_false, Bool.false_eq_true, if_false,
        if_true] at h ⊢
      obtain ⟨rfl, rfl⟩ := h.pure
      exact .ok hlength hholds ⟨rfl, rfl⟩
  | false =>
      have hshape : shape ≠ .nothing := of_decide_eq_false hshape
      simp only [ne_eq, hshape, not_false_eq_true, decide_true, if_true, if_false, ↓Emits.seq_iff]
        at h ⊢
      obtain ⟨u, hload, h⟩ := h
      obtain ⟨rfl, rfl⟩ := h.pure
      exact .loadTemp hload htemp (.yield used (by grind) (hholds.later hload.retains))

end Follows

/-- The form that an assignment reports. -/
theorem Emits.assigned_form {ty : Ty} {slot : Nat} {shape : Shape} {used : Bool} {e : Emitted}
    (h : J.Emits start (Emit.assigned ty slot (decide (shape ≠ .nothing)) used) s e t) :
    e = ⟨used, discardedForm ty shape⟩ := by
  unfold Emit.assigned at h
  unfold discardedForm
  split at h
  · next hshape =>
      rw [seq_iff] at h
      obtain ⟨_, _, h⟩ := h
      obtain ⟨rfl, -⟩ := h.pure
      have hshape : shape ≠ .nothing := by simpa using hshape
      simp [Emitted.ofTy, hshape]
  · next hshape =>
      obtain ⟨rfl, -⟩ := h.pure
      have hshape : shape = .nothing := by simpa using hshape
      simp [Emitted.nothing, hshape]

theorem Implements.placeOperand {p : Place × Bool} {extend : Bool} (hn : J.Implements n d)
    (h : J.Emits start (n.place exit extend) s p t) (hexit : J.Resolves exit)
    (hholds : J.Holds s.scope w m) (hlength : stack.length ≤ s.position)
    (hfloor : c.floor <:+ stack) (hlanding : ∀ l, J.Lands exit l → p.2 = true → c.landing l) :
    J.Follows c s t.position m stack ((d.place exit.isSome extend).run w)
      (fun spot _ rest => Prepared t p.1 n.ty spot ∧ rest = stack) :=
  (hn.place start exit extend s t p h hexit c.around w m stack hholds hlength).widen rfl hfloor
    fun l hl => hlanding l hl.1 hl.2

/-- A plain assignment follows its evaluation. -/
theorem Realizes.store {extend : Bool} {shape : Shape} (hn : J.Implements n d)
    (hvalue : J.Implements value dvalue) :
    J.Realizes (fun exit => Emit.store n value extend exit (decide (shape ≠ .nothing)))
      (fun exits => Eval.replace d dvalue extend exits >>= Eval.assigned n.ty shape)
      (discardedForm n.ty shape) := by
  intro start exit s t e h hexit a w m stack hholds hlength
  obtain ⟨v, h, hend⟩ := h.withTemps
  rw [hend]
  rw [Emits.bind_iff] at h
  obtain ⟨⟨p, usedTarget⟩, s₁, hplace, h⟩ := h
  simp only [↓Emits.seq_iff, Emits.bind_iff] at h
  obtain ⟨usedValue, s₂, hcode, s₃, hcoerce, slot, s₄, hspill, s₅, hstore, hassigned⟩ := h
  obtain rfl := hassigned.assigned_form
  simp only [Eval.replace, bind_assoc]
  refine .bind (hn.placeOperand hplace hexit hholds hlength List.suffix_rfl ?_) hplace.retains ?_
  · rintro pad hpad rfl
    exact ⟨hpad, rfl, trivial⟩
  rintro spot w k rest ⟨hp, rfl⟩ hholds _ hlength
  refine .bind (hvalue.operand hcode hexit hholds hlength List.suffix_rfl ?_) hcode.retains ?_
  · rintro pad hpad rfl
    exact ⟨hpad, by simp, trivial⟩
  rintro x w k rest rfl hholds _ _
  refine .coerce hcoerce (.spill hspill (hholds.later hcoerce.retains) fun k htemp hholds _ => ?_)
  rw [hvalue.ty, hn.ty]
  refine .bind (.storePlace hstore (hp.later (by grind)) htemp hholds (by grind)) hstore.retains ?_
  rintro _ w k rest rfl hholds hkeeps _
  rw [pure_bind]
  exact .assigned hassigned (htemp.kept hkeeps hstore.retains) hholds (by grind)

/-- An assignment that applies an operator follows its evaluation. -/
theorem Realizes.update {op : BinaryOp} {checked extend : Bool} {shape : Shape}
    (hn : J.Implements n d) (hvalue : J.Implements value dvalue) :
    J.Realizes (fun exit => Emit.update op n value checked extend exit (decide (shape ≠ .nothing)))
      (fun exits => Eval.update J.setting op d dvalue checked extend exits >>=
        Eval.assigned n.ty shape)
      (discardedForm n.ty shape) := by
  intro start exit s t e h hexit a w m stack hholds hlength
  simp only [Emit.update, ↓Emits.seq_iff] at h
  obtain ⟨s₀, hcheck, h⟩ := h
  obtain rfl := hcheck.checkBinary
  obtain ⟨v, h, hend⟩ := h.withTemps
  rw [hend]
  rw [Emits.bind_iff] at h
  obtain ⟨⟨p, usedTarget⟩, s₁, hplace, h⟩ := h
  simp only [Emit.spillOperand, ↓Emits.seq_iff, Emits.bind_iff] at h
  obtain ⟨s₂, hload, o, s₃, ⟨slot, _, hspill, ho⟩, usedValue, s₄, hcode, o', s₅,
    ⟨slot', _, hspill', ho'⟩, s₆, hslots, result, s₇, hspillResult, s₈, hstore, hassigned⟩ := h
  obtain rfl := hassigned.assigned_form
  obtain ⟨rfl, rfl⟩ := ho.pure
  obtain ⟨rfl, rfl⟩ := ho'.pure
  simp only [Eval.update, bind_assoc]
  refine .bind (hn.placeOperand hplace hexit hholds hlength List.suffix_rfl ?_) hplace.retains ?_
  · rintro pad hpad rfl
    exact ⟨hpad, rfl, trivial⟩
  rintro spot w k rest ⟨hp, rfl⟩ hholds _ hlength
  refine .bind (.loadPlace hload hp hholds hlength) hload.retains ?_
  rintro old w k rest rfl hholds _ _
  refine .spill hspill hholds fun k htemp hholds _ => ?_
  refine .bind (hvalue.operand hcode hexit hholds (by grind) List.suffix_rfl ?_) hcode.retains ?_
  · rintro pad hpad rfl
    exact ⟨hpad, by simp, trivial⟩
  rintro x w k rest rfl hholds hkeeps _
  have htemp := htemp.kept hkeeps hcode.retains
  refine .spill hspill' hholds fun k htemp' hholds hkeeps => ?_
  have htemp := htemp.kept hkeeps hspill'.retains
  rw [hvalue.ty, hn.ty]
  refine .bind (.binarySlots hslots ?_ htemp htemp' hholds (by grind)) hslots.retains ?_
  · intro hplain
    exact (Bool.or_eq_false_iff.mp hplain).1
  rintro new w k rest rfl hholds _ _
  refine .spill hspillResult hholds fun k htemp hholds _ => ?_
  refine .bind (.storePlace hstore (hp.later (by grind)) htemp hholds (by grind)) hstore.retains ?_
  rintro _ w k rest rfl hholds hkeeps _
  rw [pure_bind]
  exact .assigned hassigned (htemp.kept hkeeps hstore.retains) hholds (by grind)

/-- The value one step away from an operand. -/
theorem Follows.stepped {op : ArithOp} {k : NumKind} {checked : Bool} {o : Operand} {v : Value}
    (h : J.Emits start (Emit.stepped op k checked o) s () t) (htemp : m.Temp s o.slot v)
    (hholds : J.Holds s.scope w m) (hlength : stack.length ≤ s.position) :
    J.Follows c s t.position m stack ((Eval.stepped J.setting op k checked o.ty v).run w)
      (fun v _ rest => rest = v :: stack) := by
  simp only [Emit.stepped] at h
  unfold Eval.stepped
  split at h
  · next hty =>
    refine .lifted h (.cons htemp .nil) ?_ ?_
    · intro hall u₁ u₂ u₃ hbody hwrap hgrows
      obtain ⟨x, hx⟩ := Option.isSome_iff_exists.mp (List.forall₂_cons.mp hall).1
      rw [Emits.seq_iff] at hbody
      obtain ⟨u₄, hinner, hcode⟩ := hbody
      have hbefore := hgrows.retains
      have hposition := hgrows.position_le
      have hinnerPosition := hinner.loadInner_position
      simp only [hx]
      refine .loadInner hinner (htemp.later hbefore) hx ?_
      refine .bind (.stepCode hcode (hholds.later (by grind)) (by grind)) hcode.retains ?_
      rintro y w k rest ⟨rfl, -⟩ hholds _ hlength
      rw [hty]
      exact .wrapIf hwrap (.ok (by grind) (hholds.later hwrap.retains) rfl)
    · intro hall u₁ u₂ habsent hgrows
      have hnone : v.payloadAt? o.ty = none := by
        cases hv : v.payloadAt? o.ty with
        | none => rfl
        | some y => exact (hall (.cons (by simp [hv]) .nil)).elim
      have hbefore := hgrows.retains
      have hposition := hgrows.position_le
      simp only [hnone]
      exact .instr habsent (.loadDefault _ _ _ (Registry.zero_nullable _ hty)) (.refl _ _)
        (.ok (by grind) (hholds.later (by grind)) rfl)
  · next hty =>
    rw [Emits.seq_iff] at h
    obtain ⟨s₁, hload, hcode⟩ := h
    have hload : J.Emits start (Emit.instr (.loadLocal o.slot)) s () s₁ := hload
    have hpayload : v.payloadAt? o.ty = some v := by simp [Value.payloadAt?, hty]
    have hplain : o.ty.isNullable = false := by simpa using hty
    simp only [hpayload]
    refine .loadTemp hload htemp ?_
    refine .bind (.stepCode hcode (hholds.later hload.retains) (by grind)) hcode.retains ?_
    rintro y w k rest ⟨rfl, -⟩ hholds _ hlength
    rw [hplain]
    exact .ok hlength hholds rfl

/-- An increment or decrement follows its evaluation. -/
theorem Realizes.step {op : AssignOp} {checked extend : Bool} {shape : Shape}
    (hn : J.Implements n d) :
    J.Realizes (fun exit => Emit.step op n checked extend exit (decide (shape ≠ .nothing)))
      (fun exits => Eval.step J.setting op d checked extend exits >>= Eval.assigned n.ty shape)
      (discardedForm n.ty shape) := by
  intro start exit s t e h hexit a w m stack hholds hlength
  simp only [Emit.step] at h
  simp only [Eval.step, hn.ty]
  cases hkind : n.ty.underlying.numKind? with
  | none =>
      simp only [hkind] at h
      exact h.mismatch.elim
  | some kind =>
  simp only [hkind] at h
  obtain ⟨v, h, hend⟩ := h.withTemps
  rw [hend]
  rw [Emits.bind_iff] at h
  obtain ⟨⟨p, used⟩, s₁, hplace, h⟩ := h
  simp only [Emit.spillOperand, ↓Emits.seq_iff, Emits.bind_iff] at h
  obtain ⟨s₂, hload, o, s₃, ⟨slot, _, hspill, ho⟩, s₄, hstep, result, s₅, hspillResult, s₆, hstore,
    hassigned⟩ := h
  obtain rfl := hassigned.assigned_form
  obtain ⟨rfl, rfl⟩ := ho.pure
  simp only [bind_assoc]
  refine .bind (hn.placeOperand hplace hexit hholds hlength List.suffix_rfl ?_) hplace.retains ?_
  · rintro pad hpad rfl
    exact ⟨hpad, rfl, trivial⟩
  rintro spot w k rest ⟨hp, rfl⟩ hholds _ hlength
  refine .bind (.loadPlace hload hp hholds hlength) hload.retains ?_
  rintro old w k rest rfl hholds _ _
  refine .spill hspill hholds fun k htemp hholds _ => ?_
  refine .bind (.stepped hstep htemp hholds (by grind)) hstep.retains ?_
  rintro new w k rest rfl hholds hkeeps _
  have htemp := htemp.kept hkeeps hstep.retains
  refine .spill hspillResult hholds fun k htemp' hholds hkeeps => ?_
  have htemp := htemp.kept hkeeps hspillResult.retains
  refine .bind (.storePlace hstore (hp.later (by grind)) htemp' hholds (by grind)) hstore.retains ?_
  rintro _ w k rest rfl hholds hkeeps _
  rw [pure_bind]
  refine .assigned hassigned ?_ hholds (by grind)
  cases op.yieldsOldValue with
  | true => exact htemp.kept hkeeps hstore.retains
  | false => exact htemp'.kept hkeeps hstore.retains

/-- An assignment follows its evaluation. -/
theorem Realizes.assign {op : AssignOp} {values : Option Node} {dvalues : Option Meaning}
    {checked autoExtend : Bool} {ty : Ty} {shape : Shape} (hn : J.Implements n d)
    (hvalues : ∀ value, values = some value → ∃ dvalue, dvalues = some dvalue ∧
      J.Implements value dvalue)
    (hnone : values = none → dvalues = none) :
    J.Realizes (fun exit => Emit.assign op n values checked autoExtend exit shape)
      (fun exits => Eval.assign J.setting op d dvalues checked autoExtend ty exits shape)
      (discardedForm ty shape) := by
  intro start exit s t e h hexit a w m stack hholds hlength
  unfold Emit.assign at h
  rw [Emits.bind_iff] at h
  obtain ⟨_, _, ho, h⟩ := h
  obtain ⟨rfl, rfl⟩ := ho.options
  dsimp only at h
  simp only [Eval.assign]
  split
  · exact .stuck _
  next hty =>
  have hty : ty = n.ty := by rw [← hn.ty]; simpa using hty
  subst hty
  cases values with
  | none =>
      rw [hnone rfl]
      cases hstep : op.isStep with
      | true =>
          rw [hstep] at h
          exact Realizes.step hn _ _ _ _ _ h hexit _ _ _ _ hholds hlength
      | false =>
          rw [hstep] at h
          exact h.fail.elim
  | some value =>
      obtain ⟨dvalue, hd, hvalue⟩ := hvalues value rfl
      rw [hd]
      cases hstep : op.isStep with
      | true =>
          rw [hstep] at h
          exact h.fail.elim
      | false =>
          rw [hstep] at h
          cases hop : op.binary? with
          | none =>
              simp only [hop] at h ⊢
              exact Realizes.store hn hvalue _ _ _ _ _ h hexit _ _ _ _ hholds hlength
          | some bin =>
              simp only [hop] at h ⊢
              exact Realizes.update hn hvalue _ _ _ _ _ h hexit _ _ _ _ hholds hlength

end Arbor.Job
