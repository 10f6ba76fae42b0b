/-
  The state in which the code of one function is built, and how it grows.

  One session spans the compilation of a function with all functions nested in
  it; each of them is a unit with a builder, temporaries, scope and labels of its
  own.  Emission only ever adds to a unit: `Grows` says what stays when more is
  emitted, and every emitter comes with the proof that its state grows.
-/
import Arbor.Code.Helper
import Arbor.Compile.Error
import Arbor.Compile.Options
import Arbor.Emit.Pool

set_option autoImplicit false

namespace Arbor

/-- What a compilation depends on besides the tree. -/
structure Setting where
  registry : Registry
  options : Options

/-- What the units of one compilation share. -/
structure Session where
  helpers : HelperCache
  /-- Finished units, in the order in which they were finished. -/
  finished : Array Routine
  deriving Inhabited

/-- Where a variable lives. -/
inductive VarSlot where
  | arg (index : Nat)
  | local (slot : Nat)
  deriving DecidableEq, Inhabited

/-- Variables with their places and types, inner ones first. -/
abbrev Scope := List (VarId × VarSlot × Ty)

/-- What is known of a label of the tree. -/
structure LabelInfo where
  label : Label
  ty : Ty
  /-- Local that takes the value of jumps, unless the label is void. -/
  valueSlot : Option Nat
  /-- Number of protected regions around the label. -/
  depth : Nat

/-- The state of emission within one unit. -/
structure Emission where
  session : Session
  builder : Builder
  pool : SlotPool
  /-- Variables in scope. -/
  scope : Scope
  labels : List (LabelId × LabelInfo)
  hidden : HiddenParams
  /-- Number of protected regions around the point of emission. -/
  tryDepth : Nat
  /-- Units nested in this one, in the order of their discovery. -/
  units : List Routine

namespace Emission

/-- The state at the start of a unit. -/
def start (session : Session) (builder : Builder) (hidden : HiddenParams) : Emission :=
  ⟨session, builder, .empty, [], [], hidden, 0, []⟩

/-- Frees the temporaries acquired since `mark` of them were live. -/
def releaseTo (s : Emission) (mark : Nat) : Emission :=
  { s with pool := s.pool.releaseTo s.builder.locals mark }

/-- Index of the next instruction. -/
def position (s : Emission) : Nat := s.builder.code.size

/-! ## Invariants -/

/-- The temporaries are allocated without conflict. -/
def Tidy (s : Emission) : Prop := s.pool.Tidy s.builder.locals

/-- A routine that stands for its key: a unit finished in the session, or the helper that the key
names. -/
def Known (session : Session) (c : Routine) : Prop :=
  match c.key with
  | .unit k => k < session.finished.size
  | .helper kind elem => c = kind.routine elem

/-- Helpers and children stand for their keys. -/
structure Linked (s : Emission) : Prop where
  helpers : ∀ e ∈ s.session.helpers.entries, e.2 = e.1.1.routine e.1.2
  children : ∀ c ∈ s.builder.children, Known s.session c

/-! ## Growth -/

/-- What stays when more is emitted.  Code, locals, regions, children and finished units are only
added to; labels stay where they are marked; slots stay live, and scope and depth are as before. -/
structure Grows (s t : Emission) : Prop where
  code : s.builder.code.toList <+: t.builder.code.toList
  marks : ∀ i pc : Nat, s.builder.labels[i]? = some (some pc) → t.builder.labels[i]? = some (some pc)
  labels : s.builder.labels.size ≤ t.builder.labels.size
  locals : s.builder.locals.toList <+: t.builder.locals.toList
  regions : s.builder.regions.toList <+: t.builder.regions.toList
  children : s.builder.children.toList <+: t.builder.children.toList
  header : (t.builder.name, t.builder.params, t.builder.ret) =
    (s.builder.name, s.builder.params, s.builder.ret)
  finished : s.session.finished.toList <+: t.session.finished.toList
  live : s.pool.live <:+ t.pool.live
  targets : ∀ id info, s.labels.lookup id = some info → t.labels.lookup id = some info
  scope : t.scope = s.scope
  hidden : t.hidden = s.hidden
  tryDepth : t.tryDepth = s.tryDepth
  tidy : t.builder.locals.size ≤ Builder.slotLimit → s.Tidy → t.Tidy
  linked : s.Linked → t.Linked

namespace Grows

/-- A state grows to itself. -/
theorem refl (s : Emission) : s.Grows s :=
  ⟨List.prefix_rfl, fun _ _ h => h, Nat.le_refl _, List.prefix_rfl, List.prefix_rfl,
    List.prefix_rfl, rfl, List.prefix_rfl, List.suffix_rfl, fun _ _ h => h, rfl, rfl, rfl,
    fun _ h => h, fun h => h⟩

/-- More emission after more emission. -/
theorem trans {s t u : Emission} (h : s.Grows t) (k : t.Grows u) : s.Grows u where
  code := h.code.trans k.code
  marks i pc hi := k.marks i pc (h.marks i pc hi)
  labels := Nat.le_trans h.labels k.labels
  locals := h.locals.trans k.locals
  regions := h.regions.trans k.regions
  children := h.children.trans k.children
  header := k.header.trans h.header
  finished := h.finished.trans k.finished
  live := h.live.trans k.live
  targets id info hid := k.targets id info (h.targets id info hid)
  scope := k.scope.trans h.scope
  hidden := k.hidden.trans h.hidden
  tryDepth := k.tryDepth.trans h.tryDepth
  tidy hlimit hs := by
    have hlocals : t.builder.locals.size ≤ u.builder.locals.size := by
      simpa using k.locals.length_le
    exact k.tidy hlimit (h.tidy (Nat.le_trans hlocals hlimit) hs)
  linked hs := k.linked (h.linked hs)

/-- Positions only advance. -/
theorem position_le {s t : Emission} (h : s.Grows t) : s.position ≤ t.position := by
  simpa [position] using h.code.length_le

/-- Locals are only added. -/
theorem locals_le {s t : Emission} (h : s.Grows t) :
    s.builder.locals.size ≤ t.builder.locals.size := by
  simpa using h.locals.length_le

/-- A change of the builder that keeps locals, children and marked labels lets the state grow. -/
theorem ofBuilder (s : Emission) (b : Builder)
    (code : s.builder.code.toList <+: b.code.toList)
    (marks : ∀ i pc : Nat, s.builder.labels[i]? = some (some pc) → b.labels[i]? = some (some pc))
    (labels : s.builder.labels.size ≤ b.labels.size)
    (locals : b.locals = s.builder.locals)
    (regions : s.builder.regions.toList <+: b.regions.toList)
    (children : b.children = s.builder.children)
    (header : (b.name, b.params, b.ret) =
      (s.builder.name, s.builder.params, s.builder.ret)) :
    s.Grows { s with builder := b } where
  code := code
  marks := marks
  labels := labels
  locals := locals ▸ List.prefix_rfl
  regions := regions
  children := children ▸ List.prefix_rfl
  header := header
  finished := List.prefix_rfl
  live := List.suffix_rfl
  targets _ _ h := h
  scope := rfl
  hidden := rfl
  tryDepth := rfl
  tidy _ h := by
    unfold Tidy at h ⊢
    rw [locals]
    exact h
  linked h := ⟨h.helpers, by rw [children]; exact h.children⟩

/-- Appending an instruction. -/
theorem emit (s : Emission) (i : Instr) : s.Grows { s with builder := s.builder.emit i } :=
  ofBuilder s _ ⟨[i], by simp [Builder.emit]⟩ (fun _ _ h => h) (Nat.le_refl _) rfl
    List.prefix_rfl rfl rfl

/-- Adding a label. -/
theorem defineLabel (s : Emission) :
    s.Grows { s with builder := s.builder.defineLabel.2 } := by
  refine ofBuilder s _ List.prefix_rfl ?_ ?_ rfl List.prefix_rfl rfl rfl
  · intro i pc h
    have hi : i < s.builder.labels.size := (Array.getElem?_eq_some_iff.mp h).1
    rw [← h, Builder.defineLabel, Array.getElem?_push_lt hi, Array.getElem?_eq_getElem hi]
  · simp [Builder.defineLabel]

/-- Marking a label. -/
theorem markLabel {s : Emission} {l : Label} {b : Builder} (h : s.builder.markLabel l = .ok b) :
    s.Grows { s with builder := b } := by
  unfold Builder.markLabel at h
  split at h
  · next hl =>
      cases h
      refine ofBuilder s _ List.prefix_rfl ?_ (by simp) rfl List.prefix_rfl rfl rfl
      intro i pc hi
      have hne : l.index ≠ i := by
        intro heq
        rw [heq, hi] at hl
        simp at hl
      simpa [Array.getElem?_setIfInBounds_ne hne] using hi
  · cases h
  · cases h

/-- Adding a protected region. -/
theorem addRegion (s : Emission) (g : Region Label) :
    s.Grows { s with builder := s.builder.addRegion g } :=
  ofBuilder s _ List.prefix_rfl (fun _ _ h => h) (Nat.le_refl _) rfl
    ⟨[g], by simp [Builder.addRegion]⟩ rfl rfl

/-- Replacing an instruction that was appended since lets the earlier state grow as before. -/
theorem patch {s t : Emission} (h : s.Grows t) {position : Nat} (hposition : s.position ≤ position)
    (i : Instr) : s.Grows { t with builder := t.builder.patch position i } where
  code := by
    obtain ⟨added, hadded⟩ := h.code
    have hlength : s.builder.code.toList.length ≤ position := by simpa [Emission.position] using hposition
    refine ⟨added.set (position - s.builder.code.toList.length) i, ?_⟩
    simp only [Builder.patch, Array.toList_setIfInBounds, ← hadded]
    rw [List.set_append_right _ _ hlength]
  marks := h.marks
  labels := h.labels
  locals := h.locals
  regions := h.regions
  children := h.children
  header := h.header
  finished := h.finished
  live := h.live
  targets := h.targets
  scope := h.scope
  hidden := h.hidden
  tryDepth := h.tryDepth
  tidy := h.tidy
  linked hs := ⟨(h.linked hs).helpers, (h.linked hs).children⟩

/-- Acquiring a temporary. -/
theorem acquire (s : Emission) (ty : Ty) :
    s.Grows { s with
      pool := (s.pool.acquire s.builder ty).2.1, builder := (s.pool.acquire s.builder ty).2.2 } := by
  have hbuilder := SlotPool.acquire_builder s.pool s.builder ty
  have hlive : s.pool.live <:+ (s.pool.acquire s.builder ty).2.1.live := by
    rw [SlotPool.acquire_live]
    exact List.suffix_cons _ _
  have htidy : (s.pool.acquire s.builder ty).2.2.locals.size ≤ Builder.slotLimit → s.Tidy →
      (s.pool.acquire s.builder ty).2.1.Tidy (s.pool.acquire s.builder ty).2.2.locals :=
    fun hlimit h => SlotPool.acquire_tidy h hlimit
  generalize (s.pool.acquire s.builder ty).2.2 = b at hbuilder htidy ⊢
  generalize (s.pool.acquire s.builder ty).2.1 = pool at hlive htidy ⊢
  rcases hbuilder with rfl | rfl
  · exact ⟨List.prefix_rfl, fun _ _ h => h, Nat.le_refl _, List.prefix_rfl, List.prefix_rfl,
      List.prefix_rfl, rfl, List.prefix_rfl, hlive, fun _ _ h => h, rfl, rfl, rfl, htidy,
      fun h => ⟨h.helpers, h.children⟩⟩
  · exact ⟨List.prefix_rfl, fun _ _ h => h, Nat.le_refl _, ⟨[ty], by simp⟩, List.prefix_rfl,
      List.prefix_rfl, rfl, List.prefix_rfl, hlive, fun _ _ h => h, rfl, rfl, rfl, htidy,
      fun h => ⟨h.helpers, h.children⟩⟩

/-- The end of a section frees what was acquired in it. -/
theorem releaseTo {s t : Emission} (h : s.Grows t) :
    s.Grows (t.releaseTo s.pool.live.length) where
  code := h.code
  marks := h.marks
  labels := h.labels
  locals := h.locals
  regions := h.regions
  children := h.children
  header := h.header
  finished := h.finished
  live := (SlotPool.releaseTo_live h.live).symm ▸ List.suffix_rfl
  targets := h.targets
  scope := h.scope
  hidden := h.hidden
  tryDepth := h.tryDepth
  tidy hlimit hs := SlotPool.releaseTo_tidy (h.tidy hlimit hs) _
  linked hs := ⟨(h.linked hs).helpers, (h.linked hs).children⟩

/-- A section with a scope of its own that ends with the scope from before. -/
theorem withScope {s t : Emission} {scope : Scope} (h : Grows { s with scope } t) :
    s.Grows { t with scope := s.scope } :=
  ⟨h.code, h.marks, h.labels, h.locals, h.regions, h.children, h.header, h.finished, h.live,
    h.targets, rfl, h.hidden, h.tryDepth, h.tidy,
    fun hs =>
      let ht := h.linked ⟨hs.helpers, hs.children⟩
      ⟨ht.helpers, ht.children⟩⟩

/-- A section at a greater depth that ends with the depth from before. -/
theorem atDepth {s t : Emission} {depth : Nat} (h : Grows { s with tryDepth := depth } t) :
    s.Grows { t with tryDepth := s.tryDepth } :=
  ⟨h.code, h.marks, h.labels, h.locals, h.regions, h.children, h.header, h.finished, h.live,
    h.targets, h.scope, h.hidden, rfl, h.tidy,
    fun hs =>
      let ht := h.linked ⟨hs.helpers, hs.children⟩
      ⟨ht.helpers, ht.children⟩⟩

/-- Making a label known whose number is not. -/
theorem target {s : Emission} {id : LabelId} (info : LabelInfo)
    (h : (s.labels.lookup id).isSome = false) :
    s.Grows { s with labels := (id, info) :: s.labels } where
  code := List.prefix_rfl
  marks _ _ h := h
  labels := Nat.le_refl _
  locals := List.prefix_rfl
  regions := List.prefix_rfl
  children := List.prefix_rfl
  header := rfl
  finished := List.prefix_rfl
  live := List.suffix_rfl
  targets i found hfound := by
    have hne : (i == id) = false := by
      rw [beq_eq_false_iff_ne]
      intro heq
      rw [heq] at hfound
      simp [hfound] at h
    simp [List.lookup_cons, hne, hfound]
  scope := rfl
  hidden := rfl
  tryDepth := rfl
  tidy _ h := h
  linked h := ⟨h.helpers, h.children⟩

/-- Every routine is added to the children once, and the earlier children stay. -/
theorem addChild_children (b : Builder) (c : Routine) :
    b.children.toList <+: (b.addChild c).2.children.toList ∧
      ∀ child ∈ (b.addChild c).2.children, child ∈ b.children ∨ child = c := by
  unfold Builder.addChild
  split
  · exact ⟨List.prefix_rfl, fun child h => .inl h⟩
  · refine ⟨⟨[c], by simp⟩, ?_⟩
    intro child h
    simpa [Array.mem_push] using h

/-- Adding a child, in a session that has grown. -/
theorem addChild {s : Emission} (session : Session) (c : Routine)
    (finished : s.session.finished.toList <+: session.finished.toList)
    (helpers : s.Linked → ∀ e ∈ session.helpers.entries, e.2 = e.1.1.routine e.1.2)
    (known : s.Linked → Known session c) :
    s.Grows { s with session, builder := (s.builder.addChild c).2 } := by
  have hchildren := addChild_children s.builder c
  have hfinished : s.session.finished.size ≤ session.finished.size := by
    simpa using finished.length_le
  rw [Builder.addChild_eq]
  refine ⟨List.prefix_rfl, fun _ _ h => h, Nat.le_refl _, List.prefix_rfl, List.prefix_rfl,
    hchildren.1, rfl, finished, List.suffix_rfl, fun _ _ h => h, rfl, rfl, rfl, fun _ h => h, ?_⟩
  intro hlinked
  refine ⟨helpers hlinked, ?_⟩
  intro child hchild
  rcases hchildren.2 child hchild with hold | rfl
  · have hknown := hlinked.children child hold
    unfold Known at hknown ⊢
    split at hknown
    · exact Nat.lt_of_lt_of_le hknown hfinished
    · exact hknown
  · exact known hlinked

/-- A helper of the cache is the routine of its kind and element type. -/
theorem get_helper {cache : HelperCache}
    (h : ∀ e ∈ cache.entries, e.2 = e.1.1.routine e.1.2) (kind : HelperKind) (elem : Ty) :
    (cache.get kind elem).1 = kind.routine elem ∧
      ∀ e ∈ (cache.get kind elem).2.entries, e.2 = e.1.1.routine e.1.2 := by
  unfold HelperCache.get HelperCache.find?
  cases hfind : cache.entries.find? fun e => e.1 == (kind, elem) with
  | some e =>
      have hmem : e ∈ cache.entries := List.mem_of_find?_eq_some hfind
      have hkey : e.1 = (kind, elem) := by simpa using List.find?_some hfind
      have hroutine := h e hmem
      rw [hkey] at hroutine
      exact ⟨hroutine, h⟩
  | none =>
      refine ⟨rfl, ?_⟩
      intro e he
      rcases List.mem_append.mp he with he | he
      · exact h e he
      · rw [List.mem_singleton.mp he]

/-- The helper for an element type as a child. -/
theorem helper (s : Emission) (kind : HelperKind) (elem : Ty) :
    s.Grows { s with
      session := { s.session with helpers := (s.session.helpers.get kind elem).2 },
      builder := (s.builder.addChild (s.session.helpers.get kind elem).1).2 } := by
  refine addChild _ _ List.prefix_rfl (fun h => (get_helper h.helpers kind elem).2) ?_
  intro h
  have hroutine := (get_helper h.helpers kind elem).1
  rw [hroutine]
  cases kind <;> rfl

/-- Recording a finished unit. -/
theorem finish (s : Emission) (c : Routine) :
    s.Grows { s with session := { s.session with finished := s.session.finished.push c } } := by
  refine ⟨List.prefix_rfl, fun _ _ h => h, Nat.le_refl _, List.prefix_rfl, List.prefix_rfl,
    List.prefix_rfl, rfl, ⟨[c], by simp⟩, List.suffix_rfl, fun _ _ h => h, rfl, rfl, rfl,
    fun _ h => h, ?_⟩
  intro h
  refine ⟨h.helpers, ?_⟩
  intro child hchild
  have hknown := h.children child hchild
  unfold Known at hknown ⊢
  split at hknown
  · simpa using Nat.lt_succ_of_lt hknown
  · exact hknown

/-- Recording further units. -/
theorem addUnits {s t : Emission} (h : s.Grows t) (units : List Routine) :
    s.Grows { t with units } :=
  ⟨h.code, h.marks, h.labels, h.locals, h.regions, h.children, h.header, h.finished, h.live,
    h.targets, h.scope, h.hidden, h.tryDepth, h.tidy,
    fun hs => ⟨(h.linked hs).helpers, (h.linked hs).children⟩⟩

end Grows

end Emission

end Arbor
