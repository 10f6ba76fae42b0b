/-
  Labels that are owed.

  A unit can be finished only if every label that it defines is marked, and a label
  can be marked only once.  A ledger keeps count: an emitter settles labels if it
  marks each of them, and every label that it makes itself, whatever other labels
  are owed.  What emitters owe adds up when they are composed, in any order.

  This module has the rules, and the small steps of emission.
-/
import Arbor.Proofs.Emission.Units
import Mathlib.Algebra.Order.Group.Multiset
import Mathlib.Tactic.Abel

set_option autoImplicit false

namespace Arbor

/-- Whether the error is one of the builder. -/
def CompileError.isBuild : CompileError → Bool
  | build _ => true
  | _ => false

namespace Builder

/-- The labels that are defined and not marked are these, each of them once. -/
structure Owes (b : Builder) (labels : Multiset Label) : Prop where
  nodup : labels.Nodup
  mem_iff : ∀ l : Label, l ∈ labels ↔ b.labels[l.index]? = some none

namespace Owes

variable {b c : Builder} {labels : Multiset Label}

theorem congr (h : b.Owes labels) (hlabels : c.labels = b.labels) : c.Owes labels :=
  ⟨h.nodup, fun l => by rw [hlabels]; exact h.mem_iff l⟩

/-- A new label is owed. -/
theorem defineLabel (h : b.Owes labels) : b.defineLabel.2.Owes ({b.defineLabel.1} + labels) := by
  have hnew : b.defineLabel.1 ∉ labels := fun hmem => by
    have hnone := (h.mem_iff _).mp hmem
    simp [Builder.defineLabel] at hnone
  refine ⟨Multiset.nodup_cons.mpr ⟨hnew, h.nodup⟩, fun l => ?_⟩
  rw [Multiset.singleton_add, Multiset.mem_cons, h.mem_iff, Builder.defineLabel, Array.getElem?_push]
  obtain ⟨i⟩ := l
  by_cases hi : i = b.labels.size
  · simp [hi]
  · simp [hi]

/-- A label that is owed can be marked, and is not owed any more. -/
theorem markLabel {l : Label} (h : b.Owes ({l} + labels)) :
    ∃ c, b.markLabel l = .ok c ∧ c.Owes labels := by
  obtain ⟨hl, hlabels⟩ := Multiset.nodup_cons.mp h.nodup
  have hunmarked : b.labels[l.index]? = some none := (h.mem_iff l).mp (Multiset.mem_cons_self _ _)
  have hlt : l.index < b.labels.size := (Array.getElem?_eq_some_iff.mp hunmarked).1
  refine ⟨{ b with labels := b.labels.setIfInBounds l.index (some b.code.size) },
    by simp [Builder.markLabel, hunmarked], hlabels, fun m => ?_⟩
  have hm := h.mem_iff m
  rw [Multiset.singleton_add, Multiset.mem_cons] at hm
  by_cases heq : m.index = l.index
  · have : m = l := by cases m; cases l; simpa using heq
    subst this
    simp [hl, hlt]
  · have hne : m ≠ l := fun h => heq (congrArg _ h)
    rw [Array.getElem?_setIfInBounds_ne (Ne.symm heq), ← hm]
    simp [hne]

/-- All labels of a builder that owes none are marked. -/
theorem markedLabels (h : b.Owes 0) : ∃ marked, Builder.markedLabels 0 b.labels.toList = .ok marked ∧
    b.labels = marked.toArray.map some := by
  have hall : ∀ o ∈ b.labels.toList, o ≠ none := by
    rintro _ ho rfl
    obtain ⟨i, hi⟩ := List.mem_iff_getElem?.mp ho
    exact absurd ((h.mem_iff ⟨i⟩).mpr (by simpa using hi)) (Multiset.notMem_zero _)
  have hlist : ∀ (ls : List (Option Nat)) (first : Nat), (∀ o ∈ ls, o ≠ none) →
      ∃ marked, Builder.markedLabels first ls = .ok marked := by
    intro ls
    induction ls with
    | nil => exact fun _ _ => ⟨[], rfl⟩
    | cons o ls ih =>
        intro first hls
        obtain ⟨ho, hrest⟩ := List.forall_mem_cons.mp hls
        obtain ⟨pc, rfl⟩ := Option.ne_none_iff_exists'.mp ho
        obtain ⟨rest, hrest⟩ := ih (first + 1) hrest
        exact ⟨pc :: rest, by rw [Builder.markedLabels, hrest]; rfl⟩
  obtain ⟨marked, hmarked⟩ := hlist b.labels.toList 0 hall
  refine ⟨marked, hmarked, Array.ext' ?_⟩
  rw [markedLabels_eq hmarked]
  simp

end Owes

/-- Regions whose labels are marked are resolved. -/
theorem mapM_resolveRegion {labels : Array Nat} {gs : List (Region Label)} {hs : List (Region Nat)}
    (h : List.Forall₂ (Region.Resolves (labels.map some)) gs hs) :
    gs.mapM (resolveRegion labels) = .ok hs := by
  have hresolve : ∀ {l : Label} {pc : Nat}, (labels.map some)[l.index]? = some (some pc) →
      resolve labels l = .ok pc := by
    intro l pc hl
    have : labels[l.index]? = some pc := by simpa using hl
    rw [resolve, this]
  induction h with
  | nil => rfl
  | @cons g g' gs gs' hg _ ih =>
      have hfirst : resolveRegion labels g = .ok g' := by
        obtain ⟨first, last, start, finish, kind, mark⟩ := g'
        obtain ⟨htryStart, htryEnd, hstart, hfinish, hkind, hmark⟩ := hg
        dsimp only at *
        unfold resolveRegion
        rw [hresolve htryStart, hresolve htryEnd, hresolve hstart, hresolve hfinish, hmark]
        cases hkind' : g.kind with
        | filter l =>
            rw [hkind'] at hkind
            cases hkind with
            | filter hl =>
                dsimp only [bind, Except.bind]
                rw [hresolve hl]
                rfl
        | «catch» ty | «finally» | fault =>
            rw [hkind'] at hkind
            cases hkind
            rfl
      rw [List.mapM_cons, hfirst, ih]
      rfl

/-- A builder that owes no labels and whose regions are marked can be finished. -/
theorem exists_finish {b : Builder} (h : b.Owes 0) {added : List (Region Nat)}
    (hregions : List.Forall₂ (Region.Resolves b.labels) b.regions.toList added) (key : RoutineKey) :
    ∃ R, b.finish key = .ok R := by
  obtain ⟨marked, hmarked, hlabels⟩ := h.markedLabels
  rw [hlabels] at hregions
  exact ⟨_, by rw [finish, hmarked]; simp only [bind, Except.bind]; rw [mapM_resolveRegion hregions]; rfl⟩

end Builder

namespace Emit

/-- What labels are known under in the tree, in one setting. -/
structure Ledger where
  setting : Setting
  table : List (LabelId × LabelInfo)

/-- Where an emitter succeeded, these labels are owed; it did not fail for want of a label. -/
def Ledger.Balances {α : Type} (L : Ledger) (left : α → Multiset Label) : EmitResult α → Prop
  | .ok a t => t.labels = L.table ∧ t.builder.Owes (left a)
  | .error e _ => e.isBuild = false

/-- The emitter marks what is due, and owes what is left; other labels that are owed stay so. -/
def Pays {α : Type} (L : Ledger) (due : Multiset Label) (x : Emit α) (left : α → Multiset Label) : Prop :=
  ∀ s rest, s.labels = L.table → s.builder.Owes (due + rest) →
    L.Balances (fun a => left a + rest) (x.run L.setting s)

namespace Ledger

variable {α β : Type} {L : Ledger}

/-- The emitter marks these labels and those that it makes. -/
abbrev Settles (L : Ledger) (due : Multiset Label) (x : Emit α) : Prop := Pays L due x fun _ => 0

/-- The emitter marks the labels that it makes. -/
abbrev Clear (L : Ledger) (x : Emit α) : Prop := L.Settles 0 x

theorem run_of_bind {setting : Setting} {x : Emit α} {f : α → Emit β} {s t : Emission} {a : α}
    (h : x.run setting s = .ok a t) : (x >>= f).run setting s = (f a).run setting t := by
  change (Emit.andThen x f).run setting s = _
  simp only [Emit.andThen, h]

/-! ## Composition -/

variable {due more : Multiset Label} {x : Emit α} {f : α → Emit β} {left : α → Multiset Label}
  {left' : β → Multiset Label}

theorem give {a : α} (h : due = left a) : Pays L due (Pure.pure a) left := by
  intro s rest htable howes
  rw [h] at howes
  exact ⟨htable, howes⟩

theorem done {a : α} : L.Clear (Pure.pure a) := give rfl

theorem of_eq (hx : Pays L due x left) (h : more = due) : Pays L more x left := h ▸ hx

/-- One emitter after the other. -/
theorem bind (hx : Pays L due x left) (hf : ∀ a, Pays L (left a) (f a) left') :
    Pays L due (x >>= f) left' := by
  intro s rest htable howes
  have hxs := hx s rest htable howes
  change L.Balances _ ((Emit.andThen x f).run L.setting s)
  simp only [Emit.andThen]
  cases hrun : x.run L.setting s with
  | ok a t =>
      rw [hrun] at hxs
      exact hf a t rest hxs.1 hxs.2
  | error e t =>
      rw [hrun] at hxs
      exact hxs

theorem frame (hx : Pays L due x left) (more : Multiset Label) :
    Pays L (due + more) x fun a => left a + more := by
  intro s rest htable howes
  have hxs := hx s (more + rest) htable (by rwa [← add_assoc])
  simp only [← add_assoc] at hxs
  exact hxs

theorem after (hx : Pays L due x left) (hf : ∀ a, Pays L (left a + more) (f a) left') :
    Pays L (due + more) (x >>= f) left' :=
  bind (frame hx more) hf

theorem part (hx : L.Settles due x) (hf : ∀ a, Pays L more (f a) left') :
    Pays L (due + more) (x >>= f) left' :=
  after hx fun a => of_eq (hf a) (zero_add more)

theorem seq (hx : L.Clear x) (hf : ∀ a, Pays L due (f a) left') : Pays L due (x >>= f) left' :=
  of_eq (part hx hf) (zero_add due).symm

theorem first (hx : L.Settles due x) (hf : ∀ a, Pays L 0 (f a) left') : Pays L due (x >>= f) left' :=
  bind hx hf

theorem fail {e : CompileError} (he : e.isBuild = false) : Pays L due (Emit.fail e : Emit α) left :=
  fun _ _ _ _ => he

/-- A value that depends on the setting and the state. -/
theorem read {g : Setting → Emission → Except CompileError α}
    (h : ∀ s e, g L.setting s = .error e → e.isBuild = false) : L.Clear (Emit.read g) := by
  intro s rest htable howes
  simp only [Emit.read]
  cases hg : g L.setting s with
  | ok a => exact ⟨htable, howes⟩
  | error e => exact h s e hg

theorem peek {g : Setting → Emission → α} : L.Clear (Emit.read fun setting s => .ok (g setting s)) :=
  read fun _ _ h => nomatch h

theorem ite {c : Prop} [Decidable c] {x y : Emit α} (hx : Pays L due x left) (hy : Pays L due y left) :
    Pays L due (if c then x else y) left := by
  split
  · exact hx
  · exact hy

theorem map {g : α → β} (hx : L.Settles due x) : L.Settles due (g <$> x) := first hx fun _ => done

theorem forM {items : List α} {g : α → Emit PUnit} {dues : α → Multiset Label}
    (h : ∀ a ∈ items, L.Settles (dues a) (g a)) : L.Settles (items.map dues).sum (items.forM g) := by
  induction items with
  | nil => exact done
  | cons a items ih =>
      rw [List.map_cons, List.sum_cons]
      exact part (h a List.mem_cons_self) fun _ => ih fun b hb => h b (List.mem_cons_of_mem _ hb)

/-- Emitters for the items of a list, to which nothing is due. -/
theorem forM_clear {items : List α} {g : α → Emit PUnit} (h : ∀ a ∈ items, L.Clear (g a)) :
    L.Clear (items.forM g) := by
  induction items with
  | nil => exact done
  | cons a items ih =>
      exact seq (h a List.mem_cons_self) fun _ => ih fun b hb => h b (List.mem_cons_of_mem _ hb)

/-! ## Labels -/

theorem label {g : Label → Emit β} (h : ∀ l, Pays L ({l} + due) (g l) left') :
    Pays L due (newLabel >>= g) left' := by
  have hnew : Pays L 0 newLabel fun l => {l} := fun s rest htable howes =>
    ⟨htable, by rw [zero_add] at howes; exact howes.defineLabel⟩
  exact of_eq (after hnew h) (zero_add due).symm

theorem mark {l : Label} : L.Settles {l} (Emit.mark l) := by
  intro s rest htable howes
  obtain ⟨c, hmark, hc⟩ := howes.markLabel
  simp only [Emit.mark, hmark]
  exact ⟨htable, by rwa [zero_add]⟩

theorem markThen {l : Label} {g : Unit → Emit β} (h : Pays L due (g ()) left') :
    Pays L ({l} + due) (Emit.mark l >>= g) left' :=
  part mark fun _ => h

/-! ## Sections -/

theorem withTemps (hx : Pays L due x left) : Pays L due (Emit.withTemps x) left := by
  intro s rest htable howes
  have hxs := hx s rest htable howes
  simp only [Emit.withTemps]
  cases hrun : x.run L.setting s <;> rw [hrun] at hxs <;> exact hxs

theorem inScope {vars : Scope} (hx : Pays L due x left) : Pays L due (Emit.inScope vars x) left := by
  intro s rest htable howes
  have hxs := hx { s with scope := vars.reverse ++ s.scope } rest htable howes
  simp only [Emit.inScope]
  cases hrun : x.run L.setting { s with scope := vars.reverse ++ s.scope } <;>
    rw [hrun] at hxs <;> exact hxs

/-- A section behind a placeholder. -/
theorem reserved {fill : α → Option Instr} (hx : Pays L due x left) :
    Pays L due (Emit.reserved x fill) left := by
  intro s rest htable howes
  have hxs := hx { s with builder := s.builder.emit .nop } rest htable (howes.congr rfl)
  simp only [Emit.reserved]
  cases hrun : x.run L.setting { s with builder := s.builder.emit .nop } with
  | ok a t =>
      rw [hrun] at hxs
      dsimp only
      split
      · exact ⟨hxs.1, hxs.2.congr rfl⟩
      · exact hxs
  | error e t =>
      rw [hrun] at hxs
      exact hxs

theorem inRegion {x : Emit Unit} (hx : L.Settles due x) : L.Settles due (Emit.inRegion x) := by
  intro s rest htable howes
  have hxs := hx { s with tryDepth := s.tryDepth + 1 } rest htable howes
  simp only [Emit.inRegion]
  cases hrun : x.run L.setting { s with tryDepth := s.tryDepth + 1 } <;>
    rw [hrun] at hxs <;> exact hxs

/-! ## Code and temporaries -/

theorem instr {i : Instr} : L.Clear (Emit.instr i) :=
  fun _ _ htable howes => ⟨htable, howes.congr rfl⟩

theorem instrs {is : List Instr} : L.Clear (Emit.instrs is) := forM_clear fun _ _ => instr

theorem temp {ty : Ty} : L.Clear (Emit.temp ty) :=
  fun s _ htable howes => ⟨htable, howes.congr (s.pool.acquire_labels s.builder ty)⟩

theorem addRegion {g : Region Label} : L.Clear (Emit.addRegion g) :=
  fun _ _ htable howes => ⟨htable, howes.congr rfl⟩

theorem owes_addChild {b : Builder} {labels : Multiset Label} (h : b.Owes labels) (c : Routine) :
    (b.addChild c).2.Owes labels := h.congr (b.addChild_labels c)

theorem helper {kind : HelperKind} {elem : Ty} : L.Clear (Emit.helper kind elem) :=
  fun _ _ htable howes => ⟨htable, owes_addChild howes _⟩

/-! ## Small steps -/

theorem registry : L.Clear Emit.registry := peek

theorem options : L.Clear Emit.options := peek

theorem tyText {ty : Ty} : L.Clear (Emit.tyText ty) := seq registry fun _ => done

theorem mismatch {context expected : String} {found : Ty} :
    Pays L due (Emit.mismatch context expected found : Emit α) left :=
  seq tyText fun _ => fail rfl

theorem mismatchOf {context : String} {expected : String → String} {ty found : Ty} :
    Pays L due (do Emit.mismatch context (expected (← Emit.tyText ty)) found : Emit α) left :=
  seq tyText fun _ => mismatch

theorem lookup {query : Registry → Except MetadataError α} : L.Clear (Emit.lookup query) := by
  refine seq registry fun _ => ?_
  split
  · exact done
  · exact fail rfl

theorem int {n : Int} : L.Clear (Emit.int n) := instr

theorem pushDefault {ty : Ty} : L.Clear (Emit.pushDefault ty) := ite done (ite instr instr)

theorem wrapIf {condition : Bool} : L.Clear (Emit.wrapIf condition) := ite instr done

theorem unwrapIf {condition : Bool} : L.Clear (Emit.unwrapIf condition) := ite instr done

theorem spill {ty : Ty} : L.Clear (Emit.spill ty) := seq temp fun _ => seq instr fun _ => done

theorem loadVar {slot : VarSlot} : L.Clear (Emit.loadVar slot) := by cases slot <;> exact instr

theorem loadVarAddr {slot : VarSlot} : L.Clear (Emit.loadVarAddr slot) := by cases slot <;> exact instr

theorem storeVar {slot : VarSlot} : L.Clear (Emit.storeVar slot) := by cases slot <;> exact instr

theorem varSlot {id : VarId} : L.Clear (Emit.varSlot id) := by
  refine read fun s e h => ?_
  split at h <;> cases h
  rfl

theorem hiddenParams : L.Clear Emit.hiddenParams := peek

theorem bindLocal {v : Variable} : L.Clear (Emit.bindLocal v) :=
  seq temp fun _ => seq pushDefault fun _ => seq instr fun _ => done

theorem bindLocals : ∀ {vars : List Variable}, L.Clear (Emit.bindLocals vars)
  | [] => done
  | _ :: _ => seq bindLocal fun _ => seq bindLocals fun _ => done

theorem withLocals {vars : List Variable} (hx : Pays L due x left) :
    Pays L due (Emit.withLocals vars x) left :=
  seq bindLocals fun _ => inScope hx

/-- A label of the tree is the one that it is known under. -/
theorem labelInfo {id : LabelId} {g : LabelInfo → Emit β}
    (h : ∀ info, L.table.lookup id = some info → Pays L due (g info) left') :
    Pays L due (Emit.labelInfo id >>= g) left' := by
  intro s rest htable howes
  change L.Balances _ ((Emit.andThen (Emit.labelInfo id) g).run L.setting s)
  simp only [Emit.andThen, Emit.labelInfo, Emit.read]
  rw [htable]
  cases hlookup : L.table.lookup id with
  | some info => exact h info hlookup s rest htable howes
  | none => rfl

theorem jumpTo {info : LabelInfo} : L.Clear (Emit.jumpTo info) := seq peek fun _ => ite instr instr

/-! ## Landings -/

theorem nullCheck {exit : Option Label} : L.Clear (Emit.nullCheck exit) := by
  cases exit with
  | some pad => exact seq options fun _ => ite (seq instrs fun _ => done) done
  | none => exact done

theorem pushLanding {ty : Ty} {form : Form} : L.Clear (Emit.pushLanding ty form) := by
  cases form with
  | nothing => exact done
  | value => exact pushDefault
  | address => exact seq temp fun _ => seq pushDefault fun _ => instrs

/-- A body with a landing of its own. -/
theorem withLanding {ty : Ty} {body : Option Label → Emit Emitted}
    (hbody : ∀ exit, L.Settles due (body exit)) : L.Settles due (Emit.withLanding ty body) := by
  refine seq options fun _ => ite (seq temp fun depth => ?_) (hbody none)
  -- The pad is owed behind the body.
  have hguarded : Pays L due (do
      let pad ← newLabel
      let emitted ← body (some pad)
      Pure.pure (pad, emitted)) fun result => {result.1} :=
    label fun pad => of_eq (part (hbody _) fun _ => give rfl) (add_comm _ _)
  refine bind (reserved hguarded) fun result => ?_
  obtain ⟨pad, emitted⟩ := result
  dsimp only
  split
  · refine label fun ready => seq instr fun _ => of_eq (markThen ?_) (add_comm _ _)
    exact seq instr fun _ => seq pushLanding fun _ => first mark fun _ => done
  · exact first mark fun _ => done

theorem adapt {ty : Ty} {emitted : Emitted} {shape : Shape} : L.Clear (Emit.adapt ty emitted shape) := by
  unfold Emit.adapt
  split
  · exact done
  · exact ite (seq instr fun _ => done) (ite (seq spill fun _ => seq instr fun _ => done) done)
  · exact ite (seq instr fun _ => done) (ite done (seq instr fun _ => done))

theorem coerce {source target : Ty} {context : String} : L.Clear (Emit.coerce source target context) :=
  ite done <| ite instr <| seq registry fun _ => ite (ite instr done) mismatchOf

end Ledger

end Emit

end Arbor
