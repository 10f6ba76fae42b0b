/-
  Branches and marks.

  A jump of a tree ends with its branch, in front of which the value that it
  carries is put into the local of its label; a node that defines a label marks it,
  and loads the value there.  All of that stays in the routine, so that a jump and a
  label that are met in one emission are a branch and the place that it goes to.
-/
import Arbor.Proofs.Emission.SealedUnits

set_option autoImplicit false

namespace Arbor

/-- The label of a node whose value it leaves: that of a label, or the one behind a loop. -/
def ExprKind.landing? {α : Type} : ExprKind α → Option LabelTarget
  | .label target _ => some target
  | .loop _ breakLabel _ => breakLabel
  | _ => none

namespace Emit

variable {setting : Setting} {s t : Emission} {target : LabelTarget} {info : LabelInfo} {a : Emitted}

theorem run_labelInfo (h : (labelInfo target.id).run setting s = .ok info t) :
    s.labels.lookup target.id = some info ∧ s = t := by
  simp only [labelInfo, read] at h
  split at h
  · next found =>
      cases h
      split at found
      · next hinfo =>
          cases found
          exact ⟨hinfo, rfl⟩
      · cases found
  · cases h

theorem run_instr {i : Instr} (h : (instr i).run setting s = .ok () t) :
    t.builder.code[s.position]? = some i ∧ t.position = s.position + 1 ∧
      t.builder.labels = s.builder.labels := by
  cases h
  simp [Builder.emit, Emission.position]

/-- A jump ends with its branch, in front of which its value is put into the local of the label. -/
theorem run_goto {value : Option Node} (h : (goto target value).run setting s = .ok a t) :
    ∃ info p, t.labels.lookup target.id = some info ∧ s.position ≤ p ∧
      (t.builder.code[p]? = some (.leave info.label) ∨ t.builder.code[p]? = some (.jump info.label)) ∧
      ∀ n, value.isSome → info.valueSlot = some n →
        s.position < p ∧ t.builder.code[p - 1]? = some (.storeLocal n) := by
  obtain ⟨info, _, hinfo, hrun⟩ := run_bind h
  obtain ⟨hlookup, rfl⟩ := run_labelInfo hinfo
  replace hlookup := (Emit.grows _ h).targets _ _ hlookup
  have hjump : ∀ {w : Emission}, (jumpTo info >>= fun _ => pure (Emitted.nothing false)).run setting w =
      .ok a t → t.builder.code[w.position]? = some (.leave info.label) ∨
        t.builder.code[w.position]? = some (.jump info.label) := by
    intro w hw
    obtain ⟨_, _, hjump, hpure⟩ := run_bind hw
    cases hpure
    obtain ⟨_, _, hdepth, hjump⟩ := run_bind hjump
    cases hdepth
    split at hjump
    · exact .inl (run_instr hjump).1
    · exact .inr (run_instr hjump).1
  cases value with
  | none =>
      refine ⟨info, s.position, hlookup, Nat.le_refl _, ?_, fun _ hvalue => Bool.noConfusion hvalue⟩
      dsimp only at hrun
      split at hrun
      · exact hjump hrun
      · obtain ⟨_, _, -, hfail⟩ := run_bind hrun
        obtain ⟨_, _, hfail, -⟩ := run_bind hfail
        cases hfail
  | some v =>
      obtain ⟨_, u, hvalue, hrest⟩ := run_bind hrun
      have hu := (Emit.grows _ hvalue).position_le
      cases hslot : info.valueSlot with
      | none =>
          rw [hslot] at hrest
          dsimp only at hrest
          split at hrest
          · exact ⟨info, u.position, hlookup, hu, hjump hrest, fun n _ hn => by cases hslot.symm.trans hn⟩
          · obtain ⟨_, w, hpop, hrest⟩ := run_bind hrest
            exact ⟨info, w.position, hlookup, Nat.le_trans hu (Emit.grows _ hpop).position_le,
              hjump hrest, fun n _ hn => by cases hslot.symm.trans hn⟩
      | some slot =>
          rw [hslot] at hrest
          obtain ⟨_, w, hwrap, hrest⟩ := run_bind hrest
          obtain ⟨_, z, hstore, hrest⟩ := run_bind hrest
          obtain ⟨hcode, hposition, -⟩ := run_instr hstore
          have hw := (Emit.grows _ hwrap).position_le
          refine ⟨info, z.position, hlookup, by omega, hjump hrest, fun n _ hn => ⟨by omega, ?_⟩⟩
          obtain rfl : slot = n := Option.some.inj (hslot.symm.trans hn)
          rw [hposition, Nat.add_sub_cancel, ← hcode]
          exact (Builder.Extends.of_grows (Emit.grows _ hrest)).getElem?_code
            (Nat.lt_of_lt_of_eq (Nat.lt_succ_self _) hposition.symm)

theorem run_labelValue (h : (labelValue info).run setting s = .ok a t) :
    t.builder.labels = s.builder.labels ∧ ∀ n, info.valueSlot = some n →
      t.builder.code[s.position]? = some (.loadLocal n) := by
  unfold labelValue at h
  split at h
  · next slot hslot =>
      obtain ⟨_, u, hload, hpure⟩ := run_bind h
      cases hpure
      obtain ⟨hcode, -, hlabels⟩ := run_instr hload
      exact ⟨hlabels, fun n hn => by rwa [← Option.some.inj (hslot.symm.trans hn)]⟩
  · next hslot =>
      cases h
      exact ⟨rfl, fun n hn => by cases hslot.symm.trans hn⟩

theorem run_markLabel {l : Label} (h : (mark l).run setting s = .ok () t) :
    t.builder.labels[l.index]? = some (some s.position) ∧ t.position = s.position := by
  simp only [mark] at h
  split at h
  · next hmark =>
      cases h
      have := Builder.getElem?_markLabel hmark
      exact ⟨this.1, this.2⟩
  · cases h

/-- A label is marked behind the code for control that arrives without a jump, and its value is loaded
there. -/
theorem run_label {default : Option Node} (h : (label target default).run setting s = .ok a t) :
    ∃ info q, t.labels.lookup target.id = some info ∧ (s.position ≤ q ∧ q ≤ t.position) ∧
      t.builder.labels[info.label.index]? = some (some q) ∧
      ∀ n, info.valueSlot = some n → t.builder.code[q]? = some (.loadLocal n) := by
  obtain ⟨info, _, hinfo, hrun⟩ := run_bind h
  obtain ⟨hlookup, rfl⟩ := run_labelInfo hinfo
  replace hlookup := (Emit.grows _ h).targets _ _ hlookup
  have hmarked : ∀ {w : Emission}, s.position ≤ w.position →
      (mark info.label >>= fun _ => labelValue info).run setting w = .ok a t →
      (s.position ≤ w.position ∧ w.position ≤ t.position) ∧
        t.builder.labels[info.label.index]? = some (some w.position) ∧
        ∀ n, info.valueSlot = some n → t.builder.code[w.position]? = some (.loadLocal n) := by
    intro w hw hrun
    obtain ⟨_, z, hmark, hvalue⟩ := run_bind hrun
    obtain ⟨hlabel, hposition⟩ := run_markLabel hmark
    obtain ⟨hlabels, hload⟩ := run_labelValue hvalue
    exact ⟨⟨hw, (Emit.grows _ hrun).position_le⟩, hlabels ▸ hlabel, hposition ▸ hload⟩
  have hgrown : ∀ {β : Type} {x : Emit β} {b : β} {w z : Emission}, x.run setting w = .ok b z →
      s.position ≤ w.position → s.position ≤ z.position :=
    fun hx hw => Nat.le_trans hw (Emit.grows _ hx).position_le
  -- Whatever stands in front of the mark.
  cases hslot : info.valueSlot with
  | none =>
      cases default with
      | none =>
          rw [hslot] at hrun
          exact ⟨info, _, hlookup, hmarked (Nat.le_refl _) hrun⟩
      | some d =>
          rw [hslot] at hrun
          obtain ⟨_, u, hvalue, hrest⟩ := run_bind hrun
          exact ⟨info, _, hlookup, hmarked (hgrown hvalue (Nat.le_refl _)) hrest⟩
  | some slot =>
      cases default with
      | none =>
          rw [hslot] at hrun
          obtain ⟨_, u, hdefault, hrun⟩ := run_bind hrun
          obtain ⟨_, w, hstore, hrest⟩ := run_bind hrun
          exact ⟨info, _, hlookup, hmarked (hgrown hstore (hgrown hdefault (Nat.le_refl _))) hrest⟩
      | some d =>
          rw [hslot] at hrun
          obtain ⟨_, u, hvalue, hrun⟩ := run_bind hrun
          obtain ⟨_, w, hwrap, hrun⟩ := run_bind hrun
          obtain ⟨_, z, hstore, hrest⟩ := run_bind hrun
          exact ⟨info, _, hlookup,
            hmarked (hgrown hstore (hgrown hwrap (hgrown hvalue (Nat.le_refl _)))) hrest⟩

/-- The start of a loop is marked, and behind it the label that jumps out of it go to, whose value is
loaded there. -/
theorem run_loopBody {body : Node} {breakLabel : Option LabelTarget} {ty : Ty} {start : Label}
    (h : (do
      mark start
      statement body
      instr (.jump start)
      match breakLabel with
      | some target =>
          let info ← labelInfo target.id
          mark info.label
          labelValue info
      | none =>
          pushDefault ty
          pure (.ofTy ty false) : Emit Emitted).run setting s = .ok a t) :
    t.builder.labels[start.index]? = some (some s.position) ∧ (breakLabel = some target →
      ∃ info q, t.labels.lookup target.id = some info ∧ (s.position ≤ q ∧ q ≤ t.position) ∧
        t.builder.labels[info.label.index]? = some (some q) ∧
        ∀ n, info.valueSlot = some n → t.builder.code[q]? = some (.loadLocal n)) := by
  obtain ⟨_, s₁, hmark, hrun⟩ := run_bind h
  obtain ⟨_, s₂, hbody, hrun⟩ := run_bind hrun
  obtain ⟨_, s₃, hjump, hlast⟩ := run_bind hrun
  have hfront := ((Emit.grows _ hmark).trans (Emit.grows _ hbody)).trans (Emit.grows _ hjump)
  have hbehind := ((Emit.grows _ hbody).trans (Emit.grows _ hjump)).trans (Emit.grows _ hlast)
  refine ⟨hbehind.marks _ _ (run_markLabel hmark).1, fun hbreak => ?_⟩
  subst hbreak
  obtain ⟨info, _, hinfo, hvalue⟩ := run_bind hlast
  obtain ⟨hlookup, rfl⟩ := run_labelInfo hinfo
  obtain ⟨_, w, hmarked, hvalue⟩ := run_bind hvalue
  obtain ⟨hlabel, hposition⟩ := run_markLabel hmarked
  obtain ⟨hlabels, hload⟩ := run_labelValue hvalue
  have hend := (Emit.grows _ hmarked).trans (Emit.grows _ hvalue)
  exact ⟨info, s₃.position, hend.targets _ _ hlookup, ⟨hfront.position_le, hend.position_le⟩,
    hlabels ▸ hlabel, hposition ▸ hload⟩

/-- The labels of a loop are marked at its start and behind it, where the value of the latter is loaded. -/
theorem run_loop {body : Node} {breakLabel continueLabel : Option LabelTarget} {ty : Ty}
    (h : (loop body breakLabel continueLabel ty).run setting s = .ok a t)
    (htarget : target ∈ breakLabel.toList ++ continueLabel.toList) :
    ∃ info q, t.labels.lookup target.id = some info ∧ (s.position ≤ q ∧ q ≤ t.position) ∧
      t.builder.labels[info.label.index]? = some (some q) ∧
      (breakLabel = some target → ∀ n, info.valueSlot = some n →
        t.builder.code[q]? = some (.loadLocal n)) := by
  have hbounds : ∀ {w : Emission} {q : Nat}, s.Grows w → w.position ≤ q ∧ q ≤ t.position →
      s.position ≤ q ∧ q ≤ t.position := fun hw hq => ⟨Nat.le_trans hw.position_le hq.1, hq.2⟩
  cases continueLabel with
  | none =>
      have hbreak : breakLabel = some target := by simpa using htarget
      obtain ⟨start, s₁, hstart, hrest⟩ := run_bind h
      obtain ⟨info, q, hlookup, hq, hlabel, hload⟩ := (run_loopBody hrest).2 hbreak
      exact ⟨info, q, hlookup, hbounds (Emit.grows _ hstart) hq, hlabel, fun _ => hload⟩
  | some first =>
      obtain ⟨start, s₁, hstart, hrest⟩ := run_bind h
      obtain ⟨hmarked, hbehind⟩ := run_loopBody hrest
      by_cases hbreak : breakLabel = some target
      · obtain ⟨info, q, hlookup, hq, hlabel, hload⟩ := hbehind hbreak
        exact ⟨info, q, hlookup, hbounds (Emit.grows _ hstart) hq, hlabel, fun _ => hload⟩
      · obtain rfl : first = target := by simpa [hbreak, eq_comm] using htarget
        obtain ⟨info, _, hinfo, hpure⟩ := run_bind hstart
        cases hpure
        obtain ⟨hlookup, rfl⟩ := run_labelInfo hinfo
        exact ⟨info, s.position, (Emit.grows _ h).targets _ _ hlookup,
          ⟨Nat.le_refl _, (Emit.grows _ h).position_le⟩, hmarked, fun h => absurd h hbreak⟩

end Emit

namespace Expr.Runs

open Emit

variable {setting : Setting} {s t : Emission} {target : LabelTarget} {ty : Ty}

/-- Where the branch of a jump stands, with the value in the local of the label. -/
theorem exists_branch {kind : GotoKind} {value : Option Expr}
    (h : (Expr.node (.goto kind target value) ty).Runs setting s t) :
    ∃ info p, t.labels.lookup target.id = some info ∧ (s.position ≤ p ∧ p < t.position) ∧
      (t.builder.code[p]? = some (.leave info.label) ∨ t.builder.code[p]? = some (.jump info.label)) ∧
      ∀ n, value.isSome → info.valueSlot = some n →
        s.position < p ∧ t.builder.code[p - 1]? = some (.storeLocal n) := by
  obtain ⟨_, _, _, _, w, hgoto, hgrows⟩ := h.exists_layer fun _ _ _ _ hplace => by cases hplace
  obtain ⟨info, p, hlookup, hp, hbranch, hstored⟩ := run_goto hgoto
  have hthere : ∀ {q : Nat} {i : Instr}, w.builder.code[q]? = some i → t.builder.code[q]? = some i :=
    fun hi => (Builder.Extends.of_grows hgrows).retains.some (Nat.zero_le _) hi
  replace hbranch := hbranch.imp hthere hthere
  have hlt : p < t.position := by
    rcases hbranch with h | h <;> exact (Array.getElem?_eq_some_iff.mp h).1
  refine ⟨info, p, hgrows.targets _ _ hlookup, ⟨hp, hlt⟩, hbranch, fun n hvalue hn => ?_⟩
  obtain ⟨hbehind, hstore⟩ := hstored n (by simpa using hvalue) hn
  exact ⟨hbehind, hthere hstore⟩

/-- Where a label of the node is marked, and where its value is loaded. -/
theorem exists_mark {e : Expr} (h : e.Runs setting s t) (htarget : target ∈ e.kind.ownTargets) :
    ∃ info q, t.labels.lookup target.id = some info ∧ (s.position ≤ q ∧ q ≤ t.position) ∧
      t.builder.labels[info.label.index]? = some (some q) ∧
      (e.kind.landing? = some target → ∀ n, info.valueSlot = some n →
        t.builder.code[q]? = some (.loadLocal n)) := by
  obtain ⟨k, ty⟩ := e
  obtain ⟨w, hgrows, info, q, hlookup, hq, hlabel, hload⟩ : ∃ w : Emission, w.Grows t ∧
      ∃ info q, w.labels.lookup target.id = some info ∧ (s.position ≤ q ∧ q ≤ w.position) ∧
        w.builder.labels[info.label.index]? = some (some q) ∧
        (k.landing? = some target → ∀ n, info.valueSlot = some n →
          w.builder.code[q]? = some (.loadLocal n)) := by
    cases k with
    | label own value =>
        obtain rfl := List.mem_singleton.mp htarget
        obtain ⟨_, _, _, _, w, hlabel, hgrows⟩ := h.exists_layer fun _ _ _ _ hplace => by cases hplace
        obtain ⟨info, q, hlookup, hq, hmarked, hload⟩ := run_label hlabel
        exact ⟨w, hgrows, info, q, hlookup, hq, hmarked, fun _ => hload⟩
    | loop body breakLabel continueLabel =>
        obtain ⟨_, _, _, _, w, hloop, hgrows⟩ := h.exists_layer fun _ _ _ _ hplace => by cases hplace
        exact ⟨w, hgrows, run_loop hloop htarget⟩
    | _ => exact absurd htarget List.not_mem_nil
  have hend := Nat.le_trans hq.2 hgrows.position_le
  exact ⟨info, q, hgrows.targets _ _ hlookup, ⟨hq.1, hend⟩, hgrows.marks _ _ hlabel, fun hlanding n hn =>
    (Builder.Extends.of_grows hgrows).retains.some (Nat.zero_le _) (hload hlanding n hn)⟩

end Expr.Runs

/-! ## Jumps and their labels -/

/-- A branch at `p`, behind `first`, goes to the label at `q`, which has the number `i`.  A value that is
carried is stored in the local of the label right in front of the branch, and loaded at the label. -/
structure Routine.Links (R : Routine) (first : Nat) (carries lands : Prop) (i p q : Nat)
    (slot : Option Nat) : Prop where
  label : R.labels[i]? = some q
  branch : R.code[p]? = some (.leave ⟨i⟩) ∨ R.code[p]? = some (.jump ⟨i⟩)
  stored : carries → ∀ n, slot = some n → first < p ∧ R.code[p - 1]? = some (.storeLocal n)
  loaded : lands → ∀ n, slot = some n → R.code[q]? = some (.loadLocal n)

/-- A jump of a function and a label of its number that are met in one emission are a branch and the place
that it goes to. -/
theorem Lambda.exists_link {l : Lambda Expr} {setting : Setting} {session : Session} {R : Routine}
    {last : Emission} (hnodup : (l.targets.map (·.1.id)).Nodup)
    (hrun : (Emit.unitBody (l.map Expr.toNode)).run setting (Emit.unitStart (l.map Expr.toNode) session) =
      .ok R last) {kind : GotoKind} {target own : LabelTarget} {value : Option Expr} {ty : Ty} {e : Expr}
    {s s' : Emission} (hgoto : l.Meets setting session (.node (.goto kind target value) ty) s)
    (he : l.Meets setting session e s') (hown : own ∈ e.kind.ownTargets) (hid : own.id = target.id) :
    ∃ t t', (Expr.node (.goto kind target value) ty).Runs setting s t ∧ e.Runs setting s' t' ∧
      ∃ i p q slot, i < l.targets.length ∧ (s.position ≤ p ∧ p < t.position) ∧
        (s'.position ≤ q ∧ q ≤ t'.position) ∧ (slot.isSome ↔ own.ty.isVoid = false) ∧
        R.Links s.position value.isSome (e.kind.landing? = some own) i p q slot := by
  obtain ⟨scope, first, u, key, -, hlabels, hcode, hfinish, hkept⟩ := Emit.exists_kept hrun
  obtain ⟨-, t, hruns, -, ht⟩ := hkept _ _ hgoto
  obtain ⟨hpart, t', hruns', -, ht'⟩ := hkept _ _ he
  obtain ⟨info, p, hinfo, hp, hbranch, hstored⟩ := hruns.exists_branch
  obtain ⟨info', q, hinfo', hq, hmark, hload⟩ := hruns'.exists_mark hown
  -- What is known of the label is what was recorded in front of the body.
  obtain ⟨depth, hmem⟩ := Lambda.mem_targets_iff.mpr ⟨e, hpart, hown⟩
  obtain ⟨known, hknown, hdescribes⟩ :=
    Emit.describes_of_defineTargets hnodup (fun _ _ => rfl) hlabels _ hmem
  have hlater := (Emit.grows _ hcode).targets _ _ hknown
  obtain rfl : info' = known := Option.some.inj ((ht'.targets _ _ hinfo').symm.trans hlater)
  obtain rfl : info = info' := Option.some.inj ((ht.targets _ _ hinfo).symm.trans (hid ▸ hlater))
  have hnumbered := (Emit.numbered_unitStart _ session _).defineTargets hnodup hlabels
  obtain ⟨i, _, hi, -, hlabel⟩ := hnumbered.known _ _ hknown
  rw [hlabel] at hbranch hmark
  obtain ⟨hsame, -, -, -, hmarks, -⟩ := Builder.finish_eq hfinish
  have hthere : ∀ {n : Nat} {i : Instr}, s.position ≤ n → t.builder.code[n]? = some i →
      R.code[n]? = some i := fun hn hcode => hsame ▸ ht.builder.some hn hcode
  refine ⟨t, t', hruns, hruns', i, p, q, info.valueSlot, (List.getElem?_eq_some_iff.mp hi).1, hp, hq,
    hdescribes.valueSlot, hmarks i q (ht'.builder.marks i q hmark),
    hbranch.imp (hthere hp.1) (hthere hp.1), fun hvalue n hn => ?_, fun hlanding n hn => ?_⟩
  · obtain ⟨hlt, hstore⟩ := hstored n hvalue hn
    exact ⟨hlt, hthere (Nat.le_sub_one_of_lt hlt) hstore⟩
  · exact hsame ▸ ht'.builder.some hq.1 (hload hlanding n hn)

end Arbor
