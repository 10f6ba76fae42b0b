/-
  Emission of closed code.

  What a unit may name is bounded by the builder that it will have become: its
  locals, labels, parameters and children.  Whatever is emitted stays within these
  bounds, so that the finished routine is closed, and so are the routines below it.
-/
import Arbor.Proofs.Code.Closed
import Arbor.Proofs.Emission.Permissive
import Arbor.Proofs.Emission.Units

set_option autoImplicit false

namespace Arbor

/-- Every helper of the cache is the routine that its key names. -/
def HelperCache.Sound (c : HelperCache) : Prop := ∀ e ∈ c.entries, e.2 = e.1.1.routine e.1.2

theorem HelperCache.Sound.get {c : HelperCache} (h : c.Sound) (kind : HelperKind) (elem : Ty) :
    (c.get kind elem).1 = kind.routine elem ∧ (c.get kind elem).2.Sound :=
  Emission.Grows.get_helper h kind elem

namespace Builder

/-- The builder can become the other one by growing. -/
structure FitsIn (b F : Builder) : Prop where
  locals : b.locals.size ≤ F.locals.size
  labels : b.labels.size ≤ F.labels.size
  children : b.children.size ≤ F.children.size
  params : b.params = F.params

/-- A builder fits where it fits when it has grown. -/
theorem FitsIn.of_grows {F : Builder} {s t : Emission} (ht : t.builder.FitsIn F) (h : s.Grows t) :
    s.builder.FitsIn F := by
  have hheader := h.header
  simp only [Prod.mk.injEq] at hheader
  refine ⟨Nat.le_trans h.locals_le ht.locals, Nat.le_trans h.labels ht.labels,
    Nat.le_trans ?_ ht.children, hheader.2.1.symm.trans ht.params⟩
  simpa using h.children.length_le

/-- What the instruction names is in the builder. -/
def Admits (F : Builder) : Instr → Prop :=
  Instr.Names (·.index < F.labels.size) (· < F.locals.size) (· < F.params.length)
    (· < F.children.size)

/-- What has been built so far is closed once it has become the other builder. -/
structure Closing (F b : Builder) : Prop where
  code : ∀ i ∈ b.code, F.Admits i
  marks : ∀ i pc : Nat, b.labels[i]? = some (some pc) → pc ≤ b.code.size
  regions : ∀ g ∈ b.regions, g.stackMark < F.locals.size
  children : ∀ c ∈ b.children, c.ClosedThroughout

namespace Closing

variable {F b : Builder}

theorem emit (h : F.Closing b) {i : Instr} (hi : F.Admits i) : F.Closing (b.emit i) where
  code j hj := by
    rcases Array.mem_push.mp hj with hj | rfl
    · exact h.code j hj
    · exact hi
  marks j pc hj := Nat.le_trans (h.marks j pc hj) (by simp [Builder.emit])
  regions := h.regions
  children := h.children

theorem patch (h : F.Closing b) {position : Nat} {i : Instr} (hi : F.Admits i) :
    F.Closing (b.patch position i) where
  code j hj := by
    rcases Array.mem_or_eq_of_mem_setIfInBounds hj with hj | rfl
    · exact h.code j hj
    · exact hi
  marks j pc hj := by simpa [Builder.patch] using h.marks j pc hj
  regions := h.regions
  children := h.children

theorem defineLabel (h : F.Closing b) : F.Closing b.defineLabel.2 where
  code := h.code
  marks i pc hi := by
    rw [Builder.defineLabel, Array.getElem?_push] at hi
    split at hi
    · cases hi
    · exact h.marks i pc hi
  regions := h.regions
  children := h.children

/-- A label is marked. -/
theorem markLabel (h : F.Closing b) {l : Label} {c : Builder} (hmark : b.markLabel l = .ok c) :
    F.Closing c := by
  unfold Builder.markLabel at hmark
  split at hmark
  · cases hmark
    refine ⟨h.code, fun i pc hi => ?_, h.regions, h.children⟩
    rw [Array.getElem?_setIfInBounds] at hi
    split at hi
    · split at hi
      · cases hi
        exact Nat.le_refl _
      · cases hi
    · exact h.marks i pc hi
  · cases hmark
  · cases hmark

theorem addRegion (h : F.Closing b) {g : Region Label} (hg : g.stackMark < F.locals.size) :
    F.Closing (b.addRegion g) where
  code := h.code
  marks := h.marks
  regions j hj := by
    rcases Array.mem_push.mp hj with hj | rfl
    · exact h.regions j hj
    · exact hg
  children := h.children

theorem addChild (h : F.Closing b) {c : Routine} (hc : c.ClosedThroughout) :
    F.Closing (b.addChild c).2 := by
  unfold Builder.addChild
  split
  · exact h
  · refine ⟨h.code, h.marks, h.regions, fun d hd => ?_⟩
    rcases Array.mem_push.mp hd with hd | rfl
    · exact h.children d hd
    · exact hc

theorem withLocals (h : F.Closing b) (locals : Array Ty) : F.Closing { b with locals } :=
  ⟨h.code, h.marks, h.regions, h.children⟩

end Closing

theorem addChild_lt (b : Builder) (c : Routine) : (b.addChild c).1 < (b.addChild c).2.children.size := by
  unfold addChild
  split
  · next i hi =>
      obtain ⟨hlt, -⟩ := Array.findIdx?_eq_some_iff_getElem.mp hi
      exact hlt
  · simp

/-- What a list is related to is related to one of its items. -/
theorem exists_of_mem_forall₂ {α β : Type} {r : α → β → Prop} {as : List α} {bs : List β}
    (h : List.Forall₂ r as bs) {b : β} (hb : b ∈ bs) : ∃ a ∈ as, r a b := by
  induction h with
  | nil => cases hb
  | cons hr _ ih =>
      rcases List.mem_cons.mp hb with rfl | hb
      · exact ⟨_, List.mem_cons_self, hr⟩
      · obtain ⟨a, ha, hr⟩ := ih hb
        exact ⟨a, List.mem_cons_of_mem _ ha, hr⟩

/-- A finished routine is closed throughout, if its last instruction does not fall through and stands
behind all labels. -/
theorem Closing.finish {F : Builder} (h : F.Closing F) {key : RoutineKey} {R : Routine}
    (hfinish : F.finish key = .ok R)
    (hmarks : ∀ i pc : Nat, F.labels[i]? = some (some pc) → pc < F.code.size)
    (hends : ∃ i, F.code.back? = some i ∧ i.fallsThrough = false) : R.ClosedThroughout := by
  obtain ⟨hcode, hlocals, hparams, -, -, -⟩ := finish_eq hfinish
  have hchildren : R.children = F.children.toList := children_of_finish hfinish
  have hsize : R.labels.size = F.labels.size := by rw [labels_of_finish hfinish, Array.size_map]
  have htargets : ∀ l pc, R.target? l = some pc → pc < R.code.size := fun l pc hl => by
    rw [hcode]
    exact hmarks _ _ (marked_of_finish hfinish hl)
  have hregions : ∀ g ∈ R.regions, g.stackMark < R.locals.size ∧ g.handlerStart < R.code.size ∧
      ∀ pc, g.kind = .filter pc → pc < R.code.size := by
    intro g hg
    obtain ⟨g₀, hg₀, hresolves⟩ := exists_of_mem_forall₂ (resolves_of_finish hfinish) hg
    rw [hlocals, hcode, hresolves.stackMark]
    refine ⟨h.regions g₀ (by simpa using hg₀), hmarks _ _ hresolves.handlerStart, fun pc hpc => ?_⟩
    have hkind := hresolves.kind
    rw [hpc] at hkind
    generalize g₀.kind = kind at hkind
    cases hkind with
    | filter hl => exact hmarks _ _ hl
  refine .of_children ⟨fun i hi => ?_, htargets, fun g hg => (hregions g hg).1,
    fun g hg => (hregions g hg).2.1, fun g hg => (hregions g hg).2.2, by rwa [hcode]⟩ ?_
  · rw [hcode] at hi
    refine (h.code i hi).imp (fun l hl => ?_) ?_ ?_ ?_
    · have hlt : l.index < R.labels.size := hsize ▸ hl
      exact ⟨_, Array.getElem?_eq_getElem hlt, htargets l _ (Array.getElem?_eq_getElem hlt)⟩
    · exact fun n hn => hlocals ▸ hn
    · exact fun n hn => hparams ▸ hn
    · exact fun n hn => by simpa [hchildren] using hn
  · rw [hchildren]
    exact fun c hc => h.children c (by simpa using hc)

end Builder

/-! ## States of emission -/

/-- The argument with the table of constants is a hidden one. -/
theorem HiddenParams.constantsArg?_lt (h : HiddenParams) {n : Nat} (hn : h.constantsArg? = some n) :
    n < h.count := by
  obtain ⟨constants, closure⟩ := h
  cases constants with
  | false => cases hn
  | true =>
      cases hn
      exact Nat.lt_of_lt_of_le Nat.zero_lt_one (Nat.le_add_right 1 _)

/-- The argument with the closure environment is a hidden one. -/
theorem HiddenParams.closureArg?_lt (h : HiddenParams) {n : Nat} (hn : h.closureArg? = some n) :
    n < h.count := by
  obtain ⟨constants, closure⟩ := h
  cases closure with
  | false => cases hn
  | true =>
      cases hn
      exact Nat.lt_succ_self _

/-- Releasing slots adds none. -/
theorem SlotPool.slots_releaseTo_subset {p : SlotPool} {locals : Array Ty} {mark slot : Nat}
    (h : slot ∈ (p.releaseTo locals mark).slots) : slot ∈ p.slots := by
  have hrelease : ∀ (released : List Nat) (free : List (Ty × Nat)),
      ∀ e ∈ release locals free released, e ∈ free ∨ e.2 ∈ released := by
    intro released
    induction released with
    | nil => exact fun _ _ he => .inl he
    | cons first rest ih =>
        intro free e he
        unfold release at he
        split at he
        · rcases ih _ e he with he | he
          · rcases List.mem_cons.mp he with rfl | he
            · exact .inr List.mem_cons_self
            · exact .inl he
          · exact .inr (List.mem_cons_of_mem _ he)
        · exact (ih free e he).imp_right (List.mem_cons_of_mem _)
  rcases List.mem_append.mp h with h | h
  · exact List.mem_append_left _ (List.mem_of_mem_drop h)
  · obtain ⟨e, he, rfl⟩ := List.mem_map.mp h
    rcases hrelease _ _ e he with he | he
    · exact List.mem_append_right _ (List.mem_map_of_mem he)
    · exact List.mem_append_left _ (List.mem_of_mem_take he)

/-- An acquired slot was among the slots or is new, and so are the slots behind it. -/
theorem SlotPool.slots_acquire {p : SlotPool} {b : Builder} {ty : Ty} {bound : Nat}
    (hp : ∀ slot ∈ p.slots, slot < bound) (hlocals : (p.acquire b ty).2.2.locals.size ≤ bound) :
    (p.acquire b ty).1 < bound ∧ ∀ slot ∈ (p.acquire b ty).2.1.slots, slot < bound := by
  have hall : ∀ {slot : Nat} {free : List (Ty × Nat)}, slot < bound →
      (∀ e ∈ free, e ∈ p.free) → ∀ x ∈ (SlotPool.mk free (slot :: p.live)).slots, x < bound := by
    intro slot free hslot hfree x hx
    rcases List.mem_append.mp hx with hx | hx
    · rcases List.mem_cons.mp hx with rfl | hx
      · exact hslot
      · exact hp x (List.mem_append_left _ hx)
    · obtain ⟨e, he, rfl⟩ := List.mem_map.mp hx
      exact hp e.2 (List.mem_append_right _ (List.mem_map_of_mem (hfree e he)))
  unfold acquire at hlocals ⊢
  cases hfree : takeFree ty p.free with
  | some found =>
      obtain ⟨slot, rest⟩ := found
      obtain ⟨before, after, hsplit, hrest⟩ := takeFree_eq_some hfree
      have hmem : (ty, slot) ∈ p.free := by
        rw [hsplit]
        exact List.mem_append_right _ List.mem_cons_self
      have hslot : slot < bound := hp slot (List.mem_append_right _ (List.mem_map.mpr ⟨_, hmem, rfl⟩))
      refine ⟨hslot, hall hslot fun e he => ?_⟩
      rw [hrest] at he
      rw [hsplit]
      rcases List.mem_append.mp he with he | he
      · exact List.mem_append_left _ he
      · exact List.mem_append_right _ (List.mem_cons_of_mem _ he)
  | none =>
      rw [hfree] at hlocals
      simp only [Builder.declareLocal, Array.size_push] at hlocals ⊢
      have hslot : b.locals.size % Builder.slotLimit < bound :=
        Nat.lt_of_le_of_lt (Nat.mod_le _ _) hlocals
      exact ⟨hslot, hall hslot fun _ he => he⟩

/-- What the state of emission holds is within the bounds of the builder that the unit will have
become. -/
structure Emission.Closing (F : Builder) (s : Emission) : Prop where
  builder : F.Closing s.builder
  pool : ∀ slot ∈ s.pool.slots, slot < F.locals.size
  scope : ∀ v ∈ s.scope, v.2.1.Among (· < F.locals.size) (· < F.params.length)
  table : ∀ id info, s.labels.lookup id = some info →
    info.label.index < F.labels.size ∧ ∀ n, info.valueSlot = some n → n < F.locals.size
  tables : (∀ n, s.hidden.constantsArg? = some n → n < F.params.length) ∧
    ∀ n, s.hidden.closureArg? = some n → n < F.params.length
  helpers : s.session.helpers.Sound
  units : ∀ R ∈ s.units, R.ClosedThroughout

theorem Emission.Closing.withBuilder {F : Builder} {s : Emission} (h : s.Closing F) {b : Builder}
    (hb : F.Closing b) : Emission.Closing F { s with builder := b } :=
  ⟨hb, h.pool, h.scope, h.table, h.tables, h.helpers, h.units⟩

namespace Emit

variable {α β : Type} {F : Builder} {own : List Label} {exit : Option Label}

/-- The emitter keeps within the bounds of a builder that its unit can become, when it is lent labels
of it. -/
def Closes (F : Builder) (own : List Label) (exit : Option Label) (x : Emit α)
    (handed : α → List Label) (Q : α → Prop) : Prop :=
  ∀ setting s t a, x.run setting s = .ok a t → t.builder.FitsIn F → s.Closing F →
    (∀ l ∈ own, l.index < F.labels.size) → (∀ l, exit = some l → l.index < F.labels.size) →
    t.Closing F ∧ Q a ∧ ∀ l ∈ handed a, l.index < F.labels.size

theorem Closes.of_run {x : Emit α} {Q : α → Prop}
    (h : ∀ setting s t a, x.run setting s = .ok a t → t.builder.FitsIn F → s.Closing F →
      (∀ l ∈ own, l.index < F.labels.size) → (∀ l, exit = some l → l.index < F.labels.size) →
      t.Closing F ∧ Q a) : Closes F own exit x (fun _ => []) Q :=
  fun setting s t a hrun hfits hs hown hexit =>
    let ⟨ht, hQ⟩ := h setting s t a hrun hfits hs hown hexit
    ⟨ht, hQ, fun _ hl => absurd hl List.not_mem_nil⟩

theorem Closes.bind {x : Emit α} {f : α → Emit β} {handed : α → List Label}
    {handed' : β → List Label} {P : α → Prop} {Q : β → Prop} (hx : Closes F own exit x handed P)
    (hf : ∀ a, P a → Closes F (handed a ++ own) exit (f a) handed' Q) :
    Closes F own exit (x >>= f) handed' Q := by
  intro setting s t b hrun hfits hs hown hexit
  obtain ⟨a, u, hxu, hfu⟩ := run_bind hrun
  obtain ⟨hu, hP, hhanded⟩ := hx _ _ _ _ hxu (hfits.of_grows ((f a).grows hfu)) hs hown hexit
  exact hf a hP _ _ _ _ hfu hfits hu (List.forall_mem_append.mpr ⟨hhanded, hown⟩) hexit

theorem Closes.read {f : Setting → Emission → Except CompileError α} {handed : α → List Label}
    {Q : α → Prop} (h : ∀ setting s a, f setting s = .ok a → s.Closing F →
      Q a ∧ ∀ l ∈ handed a, l.index < F.labels.size) : Closes F own exit (Emit.read f) handed Q := by
  intro setting s t a hrun _ hs _ _
  simp only [Emit.read] at hrun
  split at hrun
  · next hf =>
      cases hrun
      exact ⟨hs, h setting s a hf hs⟩
  · cases hrun

theorem Closes.instr {i : Instr}
    (hi : i.Names (fun l => l ∈ own ∨ (exit = some l ∧ i.isJump = false)) (· < F.locals.size)
      (· < F.params.length) (· < F.children.size)) :
    Closes F own exit (Emit.instr i) (fun _ => []) fun _ => True := by
  refine .of_run fun setting s t a hrun _ hs hown hexit => ?_
  cases hrun
  refine ⟨hs.withBuilder (hs.builder.emit (hi.imp (fun l hl => ?_) (fun _ h => h) (fun _ h => h)
    fun _ h => h)), trivial⟩
  exact hl.elim (hown l) fun hexit' => hexit l hexit'.1

/-- A placeholder, and what may become of it. -/
theorem Closes.reserved {x : Emit α} {fill : α → Option Instr} {handed : α → List Label} {Q : α → Prop}
    (hfill : ∀ a i, fill a = some i →
      i.Names (fun _ => False) (· < F.locals.size) (fun _ => False) fun _ => False)
    (hx : Closes F own exit x handed Q) : Closes F own exit (Emit.reserved x fill) handed Q := by
  intro setting s t a hrun hfits hs hown hexit
  have hstart : Emission.Closing F { s with builder := s.builder.emit .nop } :=
    hs.withBuilder (hs.builder.emit (.of_isBare rfl))
  simp only [Emit.reserved] at hrun
  split at hrun
  · next b u hxu =>
      split at hrun
      · next i hi =>
          cases hrun
          obtain ⟨hu, hQ⟩ := hx _ _ _ _ hxu ⟨hfits.locals, hfits.labels, hfits.children, hfits.params⟩
            hstart hown hexit
          refine ⟨hu.withBuilder (hu.builder.patch ((hfill _ _ hi).imp ?_ ?_ ?_ ?_)), hQ⟩
          · exact fun _ h => h.elim
          · exact fun _ h => h
          · exact fun _ h => h.elim
          · exact fun _ h => h.elim
      · cases hrun
        exact hx _ _ _ _ hxu hfits hstart hown hexit
  · cases hrun

theorem Closes.newLabel : Closes F own exit Emit.newLabel (fun l => [l]) fun _ => True := by
  intro setting s t l hrun hfits hs _ _
  cases hrun
  refine ⟨hs.withBuilder hs.builder.defineLabel, trivial, List.forall_mem_singleton.mpr ?_⟩
  exact Nat.lt_of_lt_of_le (by simp [Builder.defineLabel]) hfits.labels

theorem Closes.mark {l : Label} : Closes F own exit (Emit.mark l) (fun _ => []) fun _ => True := by
  refine .of_run fun setting s t a hrun _ hs _ _ => ?_
  simp only [Emit.mark] at hrun
  split at hrun
  · next hmark =>
      cases hrun
      exact ⟨hs.withBuilder (hs.builder.markLabel hmark), trivial⟩
  · cases hrun

/-- A temporary. -/
theorem Closes.temp {ty : Ty} : Closes F own exit (Emit.temp ty) (fun _ => []) (· < F.locals.size) := by
  refine .of_run fun setting s t slot hrun hfits hs _ _ => ?_
  simp only [Emit.temp] at hrun
  cases hrun
  obtain ⟨hslot, hpool⟩ := SlotPool.slots_acquire hs.pool hfits.locals
  refine ⟨⟨?_, hpool, hs.scope, hs.table, hs.tables, hs.helpers, hs.units⟩, hslot⟩
  rcases SlotPool.acquire_builder s.pool s.builder ty with hb | hb
  · rw [hb]
    exact hs.builder
  · rw [hb]
    exact hs.builder.withLocals _

/-- A section with temporaries of its own. -/
theorem Closes.withTemps {x : Emit α} {handed : α → List Label} {Q : α → Prop}
    (hx : Closes F own exit x handed Q) : Closes F own exit (Emit.withTemps x) handed Q := by
  intro setting s t a hrun hfits hs hown hexit
  simp only [Emit.withTemps] at hrun
  split at hrun
  · next u hxu =>
      cases hrun
      obtain ⟨hu, hQ⟩ := hx _ _ _ _ hxu hfits hs hown hexit
      exact ⟨⟨hu.builder, fun slot hslot => hu.pool slot (SlotPool.slots_releaseTo_subset hslot),
        hu.scope, hu.table, hu.tables, hu.helpers, hu.units⟩, hQ⟩
  · cases hrun

/-- A section with variables in scope. -/
theorem Closes.inScope {vars : Scope} {x : Emit α} {handed : α → List Label} {Q : α → Prop}
    (hvars : ∀ v ∈ vars, v.2.1.Among (· < F.locals.size) (· < F.params.length))
    (hx : Closes F own exit x handed Q) : Closes F own exit (Emit.inScope vars x) handed Q := by
  intro setting s t a hrun hfits hs hown hexit
  simp only [Emit.inScope] at hrun
  split at hrun
  · next u hxu =>
      cases hrun
      have hscope : ∀ v ∈ vars.reverse ++ s.scope,
          v.2.1.Among (· < F.locals.size) (· < F.params.length) :=
        List.forall_mem_append.mpr ⟨fun v hv => hvars v (List.mem_reverse.mp hv), hs.scope⟩
      obtain ⟨hu, hQ⟩ := hx _ _ _ _ hxu hfits
        ⟨hs.builder, hs.pool, hscope, hs.table, hs.tables, hs.helpers, hs.units⟩ hown hexit
      exact ⟨⟨hu.builder, hu.pool, hs.scope, hu.table, hu.tables, hu.helpers, hu.units⟩, hQ⟩
  · cases hrun

/-- A helper as a child. -/
theorem Closes.helper {kind : HelperKind} {elem : Ty} :
    Closes F own exit (Emit.helper kind elem) (fun _ => []) (· < F.children.size) := by
  refine .of_run fun setting s t i hrun hfits hs _ _ => ?_
  simp only [Emit.helper] at hrun
  cases hrun
  obtain ⟨hroutine, hhelpers⟩ := hs.helpers.get kind elem
  refine ⟨⟨hs.builder.addChild ?_, hs.pool, hs.scope, hs.table, hs.tables, hhelpers, hs.units⟩, ?_⟩
  · rw [hroutine]
    exact kind.closedThroughout_routine elem
  · exact Nat.lt_of_lt_of_le (Builder.addChild_lt _ _) hfits.children

/-- The rules of emitters that keep within the bounds of a builder. -/
def closingRules (F : Builder) : Rules where
  Holds := Closes F
  Slot := (· < F.locals.size)
  Arg := (· < F.params.length)
  Child := (· < F.children.size)
  pure hQ hhanded setting s t a hrun _ hs hown _ := by
    cases hrun
    exact ⟨hs, hQ, fun l hl => hown l (hhanded l hl)⟩
  bind := Closes.bind
  weaken hx hown hexit hQ setting s t a hrun hfits hs hown' hexit' := by
    obtain ⟨ht, ha, hhanded⟩ := hx setting s t a hrun hfits hs (fun l hl => hown' l (hown l hl))
      fun l hl => hexit' l (hexit l hl)
    exact ⟨ht, hQ a ha, hhanded⟩
  fail _ _ _ _ _ hrun := nomatch hrun
  read _ := .read fun _ _ _ _ _ => ⟨trivial, fun _ hl => absurd hl List.not_mem_nil⟩
  instr _ := Closes.instr
  newLabel := Closes.newLabel
  mark _ := Closes.mark
  temp := Closes.temp
  withTemps := Closes.withTemps
  varSlot := .read fun setting s v hv hs => by
    refine ⟨?_, fun _ hl => absurd hl List.not_mem_nil⟩
    split at hv
    · next hlookup =>
        cases hv
        obtain ⟨before, after, hsplit, -⟩ := List.lookup_eq_some_iff.mp hlookup
        exact hs.scope (_, v) (by
          rw [hsplit]
          exact List.mem_append_right _ List.mem_cons_self)
    · cases hv
  helper := Closes.helper

theorem scopes_closing (F : Builder) : (closingRules F).AllowsScopes := Closes.inScope

theorem placeholders_closing (F : Builder) : (closingRules F).AllowsPlaceholders where
  lend hpad hx setting s t a hrun hfits hs hown _ :=
    hx setting s t a hrun hfits hs hown fun _ hl => hown _ (Option.some.inj hl ▸ hpad)
  reserved hfill := Closes.reserved fun a i hi => (hfill a i hi).2
  resetStack hn := Closes.instr (.of_slot hn ⟨rfl, rfl, rfl, rfl⟩)

theorem lax_closing (F : Builder) : (closingRules F).Lax := fun _ => Closes.instr

/-- The policy of emitters that keep within the bounds of a builder. -/
def closing (F : Builder) : Policy :=
  (closingRules F).policy (lax_closing F) (scopes_closing F) (placeholders_closing F)
    (Closes.read fun setting s h hh hs => by
    cases hh
    refine ⟨fun t n hn => ?_, fun _ hl => absurd hl List.not_mem_nil⟩
    cases t with
    | constants => exact hs.tables.1 n hn
    | closure => exact hs.tables.2 n hn)

/-- Labels of the tree may be used, which are in the builder. -/
theorem labelled_closing (F : Builder) : (closing F).Labelled (·.index < F.labels.size) True :=
  .of_lent
    (.read fun setting s info hinfo hs => by
      split at hinfo
      · next hlookup =>
          cases hinfo
          exact ⟨hs.table _ _ hlookup, fun _ hl => absurd hl List.not_mem_nil⟩
      · cases hinfo)
    fun hl hx setting s t a hrun hfits hs hown hexit =>
      hx setting s t a hrun hfits hs (List.forall_mem_cons.mpr ⟨hl, hown⟩) hexit

/-- Protected blocks may be opened. -/
theorem permissive_closing (F : Builder) : (closing F).Permissive where
  inRegion hx := .of_run fun setting s t a hrun hfits hs hown hexit => by
    simp only [inRegion] at hrun
    split at hrun
    · next u hxu =>
        cases hrun
        obtain ⟨hu, -⟩ := hx _ _ _ _ hxu hfits
          ⟨hs.builder, hs.pool, hs.scope, hs.table, hs.tables, hs.helpers, hs.units⟩ hown hexit
        exact ⟨⟨hu.builder, hu.pool, hu.scope, hu.table, hu.tables, hu.helpers, hu.units⟩, trivial⟩
    · cases hrun
  addRegion _ hmark := .of_run fun setting s t a hrun _ hs _ _ => by
    cases hrun
    exact ⟨hs.withBuilder (hs.builder.addRegion hmark), trivial⟩

/-! ## Functions -/

/-- A label of the tree becomes known. -/
theorem closes_defineTarget {target : LabelTarget} {depth : Nat} :
    (closing F).Ok own exit (defineTarget target depth) := by
  have hrecord : ∀ {l : Label} {slot : Option Nat}, (∀ n, slot = some n → n < F.locals.size) →
      (closing F).Ok (l :: own) exit (recordTarget target.id ⟨l, target.ty, slot, depth⟩) := by
    intro l slot hslot
    refine .of_run fun setting s t a hrun _ hs hown _ => ?_
    simp only [recordTarget] at hrun
    split at hrun
    · cases hrun
      exact ⟨hs, trivial⟩
    · cases hrun
      refine ⟨⟨hs.builder, hs.pool, hs.scope, fun id info hlookup => ?_, hs.tables, hs.helpers,
        hs.units⟩, trivial⟩
      rw [List.lookup_cons] at hlookup
      split at hlookup
      · cases hlookup
        exact ⟨hown l List.mem_cons_self, hslot⟩
      · exact hs.table id info hlookup
  refine Policy.seq ((closing F).read fun _ _ _ => rfl) fun known => Policy.ite Policy.done ?_
  refine Policy.label fun l => ?_
  dsimp only
  split
  · have hnone : (closing F).Yields (l :: own) exit (pure none)
        fun slot => ∀ n, slot = some n → n < F.locals.size := Policy.give fun n hn =>
          absurd hn (Option.some_ne_none n).symm
    exact Policy.after hnone fun slot hslot => hrecord hslot
  · have hsome : (closing F).Yields (l :: own) exit (some <$> temp target.ty)
        fun slot => ∀ n, slot = some n → n < F.locals.size :=
      Policy.after (closing F).temp fun slot hslot => Policy.give fun n hn => by
        cases hn
        exact hslot
    exact Policy.after hsome fun slot hslot => hrecord hslot

/-- Every run of the emitter ends with the routine of a builder that it has kept within bounds, behind
whose labels stands an instruction that does not fall through. -/
def Ends (x : Emit Routine) : Prop :=
  ∀ setting s t R, x.run setting s = .ok R t → ∃ (u : Emission) (key : RoutineKey),
    u.builder.finish key = .ok R ∧
    t.units = u.units ∧ t.session.helpers = u.session.helpers ∧ s.builder.FitsIn u.builder ∧
    (s.Closing u.builder → u.Closing u.builder ∧
      (∀ i pc : Nat, u.builder.labels[i]? = some (some pc) → pc < u.builder.code.size) ∧
      ∃ i, u.builder.code.back? = some i ∧ i.fallsThrough = false)

theorem Ends.seq {x : Emit α} {f : α → Emit Routine} (hx : ∀ F, (closing F).Ok [] none x)
    (hf : ∀ a, Ends (f a)) : Ends (x >>= f) := by
  intro setting s t R hrun
  obtain ⟨a, v, hxv, hfv⟩ := run_bind hrun
  obtain ⟨u, key, hfinish, hunits, hhelpers, hfits, hends⟩ := hf a _ _ _ _ hfv
  refine ⟨u, key, hfinish, hunits, hhelpers, hfits.of_grows (x.grows hxv), fun hs => hends ?_⟩
  exact (hx u.builder _ _ _ _ hxv hfits hs (fun _ hl => absurd hl List.not_mem_nil)
    fun _ hl => nomatch hl).1

/-- The end of a function. -/
theorem ends_ret : Ends (instr .ret >>= fun _ => finishUnit) := by
  intro setting s t R hrun
  obtain ⟨_, u, hret, hrun⟩ := run_bind hrun
  cases hret
  simp only [finishUnit] at hrun
  split at hrun
  · next hfinish =>
      cases hrun
      refine ⟨{ s with builder := s.builder.emit .ret }, _, hfinish, rfl, rfl,
        ⟨Nat.le_refl _, Nat.le_refl _, Nat.le_refl _, rfl⟩, fun hs => ⟨hs.withBuilder (hs.builder.emit (.of_isBare rfl)), fun i pc hi => ?_, .ret, ?_, rfl⟩⟩
      · simpa [Builder.emit] using Nat.lt_succ_of_le (hs.builder.marks i pc hi)
      · simp [Builder.emit]
  · cases hrun

/-- The emission of a function ends so, if that of its body keeps within bounds. -/
theorem ends_functionBody {l : Lambda Node} (hbody : ∀ F, l.body.Keeps (closing F)) :
    Ends (functionBody l) := by
  refine .seq (fun F => Policy.forM fun _ _ => closes_defineTarget) fun _ => ?_
  split
  · exact .seq (fun F => (hbody F).guarded) fun _ => ends_ret
  · exact .seq (fun F => Policy.checkBranch) fun _ => .seq (fun F => (hbody F).guarded) fun _ =>
      .seq (fun F => Policy.wrapIf) fun _ => ends_ret

/-- The routine of a function and those below it are closed, if the body keeps within bounds. -/
theorem closedThroughout_unitBody {l : Lambda Node} (hbody : ∀ F, l.body.Keeps (closing F))
    {setting : Setting} {session : Session} {R : Routine} {t : Emission}
    (hrun : (unitBody l).run setting (unitStart l session) = .ok R t)
    (hsession : session.helpers.Sound) :
    R.ClosedThroughout ∧ t.session.helpers.Sound ∧ ∀ S ∈ t.units, S.ClosedThroughout := by
  simp only [unitBody, withParams] at hrun
  split at hrun
  case h_2 => simp [Emit.fail] at hrun
  next scope hscope =>
  simp only [inScope] at hrun
  split at hrun
  case h_2 => cases hrun
  next v hfunction =>
  cases hrun
  obtain ⟨u, key, hfinish, hunits, hhelpers, hfits, hends⟩ := ends_functionBody hbody _ _ _ _ hfunction
  have hparams : u.builder.params.length = l.hidden.count + l.params.length := by
    rw [← hfits.params]
    simp [unitStart, Emission.start, Builder.empty]
  have hstart : Emission.Closing u.builder
      { unitStart l session with scope := scope.reverse ++ (unitStart l session).scope } := by
    refine ⟨⟨?_, ?_, ?_, ?_⟩, ?_, fun e he => ?_, (fun _ _ h => by cases h), ⟨fun n hn => ?_, fun n hn => ?_⟩,
      hsession, ?_⟩
    · simp [unitStart, Emission.start, Builder.empty]
    · simp [unitStart, Emission.start, Builder.empty]
    · simp [unitStart, Emission.start, Builder.empty]
    · simp [unitStart, Emission.start, Builder.empty]
    · simp [unitStart, Emission.start, SlotPool.empty, SlotPool.slots]
    · have hmem : e ∈ scope := by simpa [unitStart, Emission.start] using he
      rw [paramScope_eq hscope] at hmem
      obtain ⟨i, hi, rfl⟩ := List.mem_mapIdx.mp hmem
      change l.hidden.count + i < u.builder.params.length
      omega
    · change l.hidden.constantsArg? = some n at hn
      have hcount := l.hidden.constantsArg?_lt hn
      omega
    · change l.hidden.closureArg? = some n at hn
      have hcount := l.hidden.closureArg?_lt hn
      omega
    · simp [unitStart, Emission.start]
  obtain ⟨hu, hmarks, hlast⟩ := hends hstart
  exact ⟨hu.builder.finish hfinish hmarks hlast, by rw [hhelpers]; exact hu.helpers,
    by rw [hunits]; exact hu.units⟩

/-- A nested unit becomes a child, if its body keeps within bounds. -/
theorem closes_nestedUnit {l : Lambda Node} (hbody : ∀ F, l.body.Keeps (closing F)) :
    (closing F).Yields own exit (nestedUnit l) (· < F.children.size) := by
  refine .of_run fun setting s t i hrun hfits hs _ _ => ?_
  simp only [nestedUnit] at hrun
  split at hrun
  · next R inner hunit =>
      cases hrun
      obtain ⟨hroutine, hhelpers, hunits⟩ := closedThroughout_unitBody hbody hunit hs.helpers
      refine ⟨⟨hs.builder.addChild hroutine, hs.pool, hs.scope, hs.table, hs.tables, hhelpers, ?_⟩, ?_⟩
      · exact List.forall_mem_append.mpr ⟨hs.units, List.forall_mem_cons.mpr ⟨hroutine, hunits⟩⟩
      · exact Nat.lt_of_lt_of_le (Builder.addChild_lt _ _) hfits.children
  · cases hrun

/-! ## Trees -/

theorem closes_tree (e : Expr) (F : Builder) : e.toNode.Keeps (closing F) := by
  induction e using Expr.induct generalizing F with
  | node k ty ih =>
      refine (labelled_closing F).node trivial (fun e he => ih e (ExprKind.mem_operands he) F)
        (fun _ _ _ _ => trivial) (fun _ _ _ _ _ => (permissive_closing F).protects _ _ _ _) fun l hl =>
        Policy.function (Rules.Lax.loose (lax_closing F)) (fun _ _ h => h) (closes_nestedUnit ?_)
      · subst hl
        exact ih l.body List.mem_cons_self

end Emit

/-- The routine of a compiled function, those of the functions nested in it and all routines below them
are closed. -/
theorem closedThroughout_of_compiled {helpers : HelperCache} (hhelpers : helpers.Sound)
    {setting : Setting} {l : Lambda Expr} {c : CompiledUnit}
    (hcompile : (compileWith helpers setting l).result = .ok c) :
    ∀ R ∈ c.routine :: c.units, R.ClosedThroughout := by
  unfold compileWith at hcompile
  dsimp only at hcompile
  split at hcompile
  · next R s hrun =>
      cases hcompile
      obtain ⟨hroutine, -, hunits⟩ := Emit.closedThroughout_unitBody (Emit.closes_tree l.body) hrun hhelpers
      exact List.forall_mem_cons.mpr ⟨hroutine, hunits⟩
  · cases hcompile

end Arbor
