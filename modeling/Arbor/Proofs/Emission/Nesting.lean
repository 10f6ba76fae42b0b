/-
  Labels and jumps of the tree, and the protected blocks around them.

  All labels of a function are numbered before its body is emitted, each with the
  number of protected blocks around it.  Emission keeps to that number: a label is
  marked where it says, and a plain jump to it stands within no more blocks.  The
  regions of the finished routine are those of its blocks, inner ones first.
-/
import Arbor.Proofs.Emission.Discipline
import Arbor.Proofs.Emission.Regions
import Mathlib.Data.List.Forall2

set_option autoImplicit false

namespace Arbor

/-! ## Builders that have grown -/

/-- Code and marks of a builder are kept. -/
structure Builder.Extends (b c : Builder) : Prop where
  code : b.code.toList <+: c.code.toList
  marks : ∀ i pc : Nat, b.labels[i]? = some (some pc) → c.labels[i]? = some (some pc)

namespace Builder.Extends

variable {b c d : Builder}

theorem refl (b : Builder) : b.Extends b := ⟨List.prefix_rfl, fun _ _ h => h⟩

theorem trans (h : b.Extends c) (k : c.Extends d) : b.Extends d :=
  ⟨h.code.trans k.code, fun i pc hi => k.marks i pc (h.marks i pc hi)⟩

theorem of_grows {s t : Emission} (h : s.Grows t) : s.builder.Extends t.builder := ⟨h.code, h.marks⟩

theorem position_le (h : b.Extends c) : b.position ≤ c.position := by
  simpa [position] using h.code.length_le

theorem getElem?_code (h : b.Extends c) {p : Nat} (hp : p < b.position) : c.code[p]? = b.code[p]? := by
  obtain ⟨added, hadded⟩ := h.code
  have hlist : c.code.toList[p]? = b.code.toList[p]? := by
    rw [← hadded, List.getElem?_append_left (by simpa [position] using hp)]
  simpa using hlist

end Builder.Extends

/-- The code from a position on and the marks stay as they are. -/
structure Builder.Retains (first : Nat) (b c : Builder) : Prop where
  code : ∀ p, first ≤ p → p < b.position → c.code[p]? = b.code[p]?
  marks : ∀ i pc : Nat, b.labels[i]? = some (some pc) → c.labels[i]? = some (some pc)

namespace Builder

variable {first : Nat} {b c d : Builder}

theorem Extends.retains (h : b.Extends c) : b.Retains first c :=
  ⟨fun _ _ hp => h.getElem?_code hp, h.marks⟩

theorem Retains.some (h : b.Retains first c) {p : Nat} {i : Instr} (hp : first ≤ p)
    (hi : b.code[p]? = Option.some i) : c.code[p]? = Option.some i :=
  (h.code p hp (Array.getElem?_eq_some_iff.mp hi).1).trans hi

theorem Retains.trans (h : b.Retains first c) (k : c.Retains first d) : b.Retains first d := by
  refine ⟨fun p hp hlt => ?_, fun i pc hi => k.marks i pc (h.marks i pc hi)⟩
  have hthere : b.code[p]? = Option.some b.code[p] := Array.getElem?_eq_getElem hlt
  rw [k.some hp (h.some hp hthere), hthere]

theorem retains_patch (b : Builder) {position : Nat} (hposition : position < first) (i : Instr) :
    b.Retains first (b.patch position i) := by
  refine ⟨fun p hp _ => ?_, fun _ _ h => h⟩
  exact Array.getElem?_setIfInBounds_ne (Nat.ne_of_lt (Nat.lt_of_lt_of_le hposition hp))

end Builder

/-- The kind of a region with the position of its label. -/
inductive RegionKind.Resolves (labels : Array (Option Nat)) :
    RegionKind Label → RegionKind Nat → Prop
  | catch (ty : Ty) : Resolves labels (.catch ty) (.catch ty)
  | filter {l : Label} {p : Nat} (h : labels[l.index]? = some (some p)) :
      Resolves labels (.filter l) (.filter p)
  | finally : Resolves labels .finally .finally
  | fault : Resolves labels .fault .fault

theorem RegionKind.Resolves.mono {labels more : Array (Option Nat)} {k : RegionKind Label}
    {k' : RegionKind Nat} (h : k.Resolves labels k')
    (hmarks : ∀ i pc : Nat, labels[i]? = some (some pc) → more[i]? = some (some pc)) :
    k.Resolves more k' := by
  cases h with
  | filter h => exact .filter (hmarks _ _ h)
  | _ => constructor

/-- A region with the positions of its labels. -/
structure Region.Resolves (labels : Array (Option Nat)) (g : Region Label) (h : Region Nat) :
    Prop where
  tryStart : labels[g.tryStart.index]? = some (some h.tryStart)
  tryEnd : labels[g.tryEnd.index]? = some (some h.tryEnd)
  handlerStart : labels[g.handlerStart.index]? = some (some h.handlerStart)
  handlerEnd : labels[g.handlerEnd.index]? = some (some h.handlerEnd)
  kind : g.kind.Resolves labels h.kind
  stackMark : h.stackMark = g.stackMark

theorem Region.Resolves.mono {labels more : Array (Option Nat)} {g : Region Label} {h : Region Nat}
    (hg : g.Resolves labels h)
    (hmarks : ∀ i pc : Nat, labels[i]? = some (some pc) → more[i]? = some (some pc)) :
    g.Resolves more h where
  tryStart := hmarks _ _ hg.tryStart
  tryEnd := hmarks _ _ hg.tryEnd
  handlerStart := hmarks _ _ hg.handlerStart
  handlerEnd := hmarks _ _ hg.handlerEnd
  kind := hg.kind.mono hmarks
  stackMark := hg.stackMark

/-! ## Code and labels without blocks -/

/-- What was added neither jumps to labels of the tree nor marks them, and adds no regions.  The
label numbered `i` lies within `depths[i]` blocks. -/
structure Builder.Quiet (depths : List Nat) (b c : Builder) : Prop extends Builder.Extends b c where
  regions : c.regions = b.regions
  jumps : ∀ p i n : Nat, depths[i]? = some n → b.position ≤ p → c.code[p]? ≠ some (.jump ⟨i⟩)
  unmarked : ∀ i n q : Nat, depths[i]? = some n → c.labels[i]? = some (some q) →
    b.labels[i]? = some (some q)

/-- What was added: the blocks with their regions, in the order of the table.  Labels of the tree lie
within as many blocks as they should, where `depth` blocks are around all of it, and a plain jump to
one of them lies within no more. -/
structure Builder.Layered (depths : List Nat) (depth : Nat) (b c : Builder) (blocks : List Block)
    (added : List (Region Nat)) : Prop extends Builder.Extends b c where
  within : ∀ k ∈ blocks, ∀ p, k.touches p = true → b.position < p ∧ p < c.position
  settled : ∀ k ∈ blocks, k.Settled
  jumps : ∀ p i n : Nat, depths[i]? = some n → b.position ≤ p → c.code[p]? = some (.jump ⟨i⟩) →
    Clear blocks p ∧ depth + depthIn blocks p ≤ n
  marked : ∀ i n q : Nat, depths[i]? = some n → c.labels[i]? = some (some q) →
    b.labels[i]? = some (some q) ∨
      (b.position ≤ q ∧ q ≤ c.position ∧ Clear blocks q ∧ n = depth + depthIn blocks q)
  regions : ∃ new, c.regions.toList = b.regions.toList ++ new ∧
    List.Forall₂ (Region.Resolves c.labels) new added
  members : ∀ g, g ∈ added ↔ ∃ k ∈ blocks, g ∈ k
  proper : ∀ g ∈ added, g.Proper
  ordered : added.Pairwise Region.Precedes

namespace Builder

variable {depths : List Nat} {depth : Nat} {b c e : Builder} {blocks more : List Block}
  {added further : List (Region Nat)}

namespace Quiet

theorem refl (b : Builder) : Quiet depths b b where
  toExtends := .refl b
  regions := rfl
  jumps p i n _ hp hcode := by
    rw [position] at hp
    rw [Array.getElem?_eq_none hp] at hcode
    cases hcode
  unmarked _ _ _ _ h := h

theorem trans (h : Quiet depths b c) (k : Quiet depths c e) : Quiet depths b e where
  toExtends := h.toExtends.trans k.toExtends
  regions := k.regions.trans h.regions
  jumps p i n hi hp := by
    rcases Nat.lt_or_ge p c.position with hlt | hge
    · rw [k.getElem?_code hlt]
      exact h.jumps p i n hi hp
    · exact k.jumps p i n hi hge
  unmarked i n q hi hq := h.unmarked i n q hi (k.unmarked i n q hi hq)

theorem of_eq (hcode : c.code = b.code) (hlabels : c.labels = b.labels)
    (hregions : c.regions = b.regions) : Quiet depths b c where
  toExtends := ⟨hcode ▸ List.prefix_rfl, fun _ _ h => hlabels ▸ h⟩
  regions := hregions
  jumps := by
    rw [hcode]
    exact (refl b).jumps
  unmarked := by
    rw [hlabels]
    exact fun _ _ _ _ h => h

/-- Quiet additions have no blocks. -/
theorem layered (h : Quiet depths b c) : Layered depths depth b c [] [] where
  toExtends := h.toExtends
  within k hk := absurd hk List.not_mem_nil
  settled k hk := absurd hk List.not_mem_nil
  jumps p i n hi hp hcode := absurd hcode (h.jumps p i n hi hp)
  marked i n q hi hq := .inl (h.unmarked i n q hi hq)
  regions := ⟨[], by rw [h.regions, List.append_nil], .nil⟩
  members g := by simp
  proper g hg := absurd hg List.not_mem_nil
  ordered := .nil

end Quiet

namespace Layered

/-- A block outside of the additions has no part among them. -/
theorem not_touches (h : Layered depths depth b c blocks added) {p : Nat}
    (hp : p ≤ b.position ∨ c.position ≤ p) : ∀ k ∈ blocks, k.touches p = false := by
  intro k hk
  refine Bool.eq_false_iff.mpr fun htouches => ?_
  have := h.within k hk p htouches
  omega

theorem bounds_of_mem (h : Layered depths depth b c blocks added) {g : Region Nat} (hg : g ∈ added)
    {p : Nat} (hp : g.touches p = true) : b.position < p ∧ p < c.position := by
  obtain ⟨k, hk, hmem⟩ := (h.members g).mp hg
  exact h.within k hk p (Block.touches_of_mem hmem hp)

/-- The blocks of both parts, where a position lies outside of the second one. -/
theorem left (k : Layered depths depth c e more further) (blocks : List Block) {p : Nat}
    (hp : p ≤ c.position ∨ e.position ≤ p) :
    (Clear (blocks ++ more) p ↔ Clear blocks p) ∧ depthIn (blocks ++ more) p = depthIn blocks p := by
  have hnone := k.not_touches hp
  rw [clear_append, depthIn_append, depthIn_of_not_touches k.settled hnone]
  exact ⟨and_iff_left (clear_of_not_touches hnone), Nat.add_zero _⟩

/-- The blocks of both parts, where a position lies outside of the first one. -/
theorem right (h : Layered depths depth b c blocks added) (more : List Block) {p : Nat}
    (hp : p ≤ b.position ∨ c.position ≤ p) :
    (Clear (blocks ++ more) p ↔ Clear more p) ∧ depthIn (blocks ++ more) p = depthIn more p := by
  have hnone := h.not_touches hp
  rw [clear_append, depthIn_append, depthIn_of_not_touches h.settled hnone]
  exact ⟨and_iff_right (clear_of_not_touches hnone), Nat.zero_add _⟩

/-- Additions one after the other. -/
theorem trans (h : Layered depths depth b c blocks added) (k : Layered depths depth c e more further) :
    Layered depths depth b e (blocks ++ more) (added ++ further) where
  toExtends := h.toExtends.trans k.toExtends
  within := by
    have hbc := h.position_le
    have hce := k.position_le
    refine List.forall_mem_append.mpr ⟨fun x hx p hp => ?_, fun x hx p hp => ?_⟩
    · have := h.within x hx p hp
      omega
    · have := k.within x hx p hp
      omega
  settled := List.forall_mem_append.mpr ⟨h.settled, k.settled⟩
  jumps p i n hi hp hcode := by
    rcases Nat.lt_or_ge p c.position with hlt | hge
    · rw [k.getElem?_code hlt] at hcode
      obtain ⟨hclear, hdepth⟩ := k.left blocks (.inl (Nat.le_of_lt hlt))
      rw [hclear, hdepth]
      exact h.jumps p i n hi hp hcode
    · obtain ⟨hclear, hdepth⟩ := h.right more (.inr hge)
      rw [hclear, hdepth]
      exact k.jumps p i n hi hge hcode
  marked i n q hi hq := by
    have hbc := h.position_le
    have hce := k.position_le
    rcases k.marked i n q hi hq with hold | ⟨hge, hle, hnew⟩
    · rcases h.marked i n q hi hold with hold | ⟨hge, hle, hnew⟩
      · exact .inl hold
      · obtain ⟨hclear, hdepth⟩ := k.left blocks (.inl hle)
        refine .inr ⟨hge, by omega, ?_⟩
        rw [hclear, hdepth]
        exact hnew
    · obtain ⟨hclear, hdepth⟩ := h.right more (.inr hge)
      refine .inr ⟨by omega, hle, ?_⟩
      rw [hclear, hdepth]
      exact hnew
  regions := by
    obtain ⟨first, hfirst, hresolved⟩ := h.regions
    obtain ⟨second, hsecond, hthen⟩ := k.regions
    refine ⟨first ++ second, by rw [hsecond, hfirst, List.append_assoc], ?_⟩
    exact List.rel_append (hresolved.imp fun _ _ hg => hg.mono k.marks) hthen
  members g := by
    simp only [List.mem_append, h.members, k.members]
    constructor
    · rintro (⟨x, hx, hg⟩ | ⟨x, hx, hg⟩)
      · exact ⟨x, .inl hx, hg⟩
      · exact ⟨x, .inr hx, hg⟩
    · rintro ⟨x, hx | hx, hg⟩
      · exact .inl ⟨x, hx, hg⟩
      · exact .inr ⟨x, hx, hg⟩
  proper := List.forall_mem_append.mpr ⟨h.proper, k.proper⟩
  ordered := by
    refine List.pairwise_append.mpr ⟨h.ordered, k.ordered, fun g hg g' hg' => ?_⟩
    exact Region.precedes_of_apart (h.proper g hg) (k.proper g' hg')
      (fun p hp => (h.bounds_of_mem hg hp).2) fun p hp => Nat.le_of_lt (k.bounds_of_mem hg' hp).1

end Layered

/-! ## Single steps -/

/-- What is pushed behind an array is found behind it. -/
theorem getElem?_emit_of_le {i j : Instr} {p : Nat} (hp : b.position ≤ p)
    (h : (b.emit i).code[p]? = some j) : j = i := by
  rw [position] at hp
  simp only [emit, Array.getElem?_push] at h
  split at h
  · cases h
    rfl
  · rw [Array.getElem?_eq_none hp] at h
    cases h

theorem extends_emit (b : Builder) (i : Instr) : b.Extends (b.emit i) :=
  ⟨⟨[i], by simp [emit]⟩, fun _ _ h => h⟩

theorem quiet_emit {i : Instr} (hi : i.isJump = false) : Quiet depths b (b.emit i) where
  toExtends := extends_emit b i
  regions := rfl
  jumps p j n _ hp hcode := by
    rw [← getElem?_emit_of_le hp hcode] at hi
    cases hi
  unmarked _ _ _ _ h := h

/-- A plain jump, whose label lies within no fewer blocks. -/
theorem layered_jump {l : Label} (hl : ∀ n, depths[l.index]? = some n → depth ≤ n) :
    Layered depths depth b (b.emit (.jump l)) [] [] where
  toExtends := extends_emit b _
  within k hk := absurd hk List.not_mem_nil
  settled k hk := absurd hk List.not_mem_nil
  jumps p i n hi hp hcode := by
    cases getElem?_emit_of_le hp hcode
    exact ⟨fun k hk => absurd hk List.not_mem_nil, hl n hi⟩
  marked _ _ _ _ h := .inl h
  regions := ⟨[], (List.append_nil _).symm, .nil⟩
  members g := by simp
  proper g hg := absurd hg List.not_mem_nil
  ordered := .nil

theorem extends_defineLabel : b.Extends b.defineLabel.2 := by
  refine ⟨List.prefix_rfl, fun i pc h => ?_⟩
  have hi : i < b.labels.size := (Array.getElem?_eq_some_iff.mp h).1
  rw [← h, defineLabel, Array.getElem?_push_lt hi, Array.getElem?_eq_getElem hi]

theorem quiet_defineLabel : Quiet depths b b.defineLabel.2 where
  toExtends := extends_defineLabel
  regions := rfl
  jumps := (Quiet.refl b).jumps
  unmarked i n q _ h := by
    simp only [defineLabel, Array.getElem?_push] at h
    split at h
    · cases h
    · exact h

theorem quiet_acquire (pool : SlotPool) (b : Builder) (ty : Ty) :
    Quiet depths b (pool.acquire b ty).2.2 := by
  rcases pool.acquire_builder b ty with hb | hb <;> rw [hb]
  · exact .refl b
  · exact .of_eq rfl rfl rfl

theorem markLabel_eq {l : Label} (h : b.markLabel l = .ok c) :
    b.labels[l.index]? = some none ∧
      c = { b with labels := b.labels.setIfInBounds l.index (some b.position) } := by
  unfold markLabel at h
  split at h
  · next hl =>
      cases h
      exact ⟨hl, rfl⟩
  · cases h
  · cases h

/-- A marked label. -/
theorem extends_markLabel {l : Label} (h : b.markLabel l = .ok c) : b.Extends c := by
  obtain ⟨hl, rfl⟩ := markLabel_eq h
  refine ⟨List.prefix_rfl, fun i pc hi => ?_⟩
  have hne : l.index ≠ i := by
    rintro rfl
    rw [hi] at hl
    cases hl
  rw [Array.getElem?_setIfInBounds_ne hne]
  exact hi

theorem getElem?_markLabel {l : Label} (h : b.markLabel l = .ok c) :
    c.labels[l.index]? = some (some b.position) ∧ c.position = b.position := by
  obtain ⟨hl, rfl⟩ := markLabel_eq h
  have hlt : l.index < b.labels.size := (Array.getElem?_eq_some_iff.mp hl).1
  exact ⟨by simp [hlt], rfl⟩

theorem getElem?_markLabel_ne {l : Label} (h : b.markLabel l = .ok c) {i : Nat} (hi : l.index ≠ i) :
    c.labels[i]? = b.labels[i]? := by
  obtain ⟨-, rfl⟩ := markLabel_eq h
  exact Array.getElem?_setIfInBounds_ne hi

/-- A label of the tree that lies within as many blocks as it should. -/
theorem layered_markLabel {l : Label} (hl : ∀ n, depths[l.index]? = some n → n = depth)
    (h : b.markLabel l = .ok c) : Layered depths depth b c [] [] where
  toExtends := extends_markLabel h
  within k hk := absurd hk List.not_mem_nil
  settled k hk := absurd hk List.not_mem_nil
  jumps p i n hi hp hcode := by
    obtain ⟨-, rfl⟩ := markLabel_eq h
    exact absurd hcode ((Quiet.refl b).jumps p i n hi hp)
  marked i n q hi hq := by
    by_cases hne : l.index = i
    · subst hne
      obtain ⟨hmark, hposition⟩ := getElem?_markLabel h
      rw [hmark] at hq
      cases hq
      exact .inr ⟨Nat.le_refl _, Nat.le_of_eq hposition.symm, fun k hk => absurd hk List.not_mem_nil,
        hl n hi⟩
    · rw [getElem?_markLabel_ne h hne] at hq
      exact .inl hq
  regions := by
    obtain ⟨-, rfl⟩ := markLabel_eq h
    exact ⟨[], (List.append_nil _).symm, .nil⟩
  members g := by simp
  proper g hg := absurd hg List.not_mem_nil
  ordered := .nil

/-- A label that is none of the tree. -/
theorem quiet_markLabel {l : Label} (hl : depths[l.index]? = none) (h : b.markLabel l = .ok c) :
    Quiet depths b c where
  toExtends := extends_markLabel h
  regions := by
    obtain ⟨-, rfl⟩ := markLabel_eq h
    rfl
  jumps := by
    obtain ⟨-, rfl⟩ := markLabel_eq h
    exact (Quiet.refl b).jumps
  unmarked i n q hi hq := by
    rwa [getElem?_markLabel_ne h] at hq
    rintro rfl
    rw [hl] at hi
    cases hi

/-- A plain jump is found only where no other instruction was put. -/
theorem getElem?_patch {position p : Nat} {i : Instr} (hi : i.isJump = false) {l : Label}
    (h : (c.patch position i).code[p]? = some (.jump l)) : c.code[p]? = some (.jump l) := by
  simp only [patch, Array.getElem?_setIfInBounds] at h
  split at h
  · split at h <;> cases h
    cases hi
  · exact h

theorem Extends.patch (h : b.Extends c) {position : Nat} (hposition : b.position ≤ position)
    (i : Instr) : b.Extends (c.patch position i) where
  code := by
    obtain ⟨added, hadded⟩ := h.code
    have hlength : b.code.toList.length ≤ position := by simpa [Builder.position] using hposition
    refine ⟨added.set (position - b.code.toList.length) i, ?_⟩
    simp only [Builder.patch, Array.toList_setIfInBounds, ← hadded]
    rw [List.set_append_right _ _ hlength]
  marks := h.marks

/-- An instruction that was added since is replaced by one that is no plain jump. -/
theorem Quiet.patch (h : Quiet depths b c) {position : Nat} (hposition : b.position ≤ position)
    {i : Instr} (hi : i.isJump = false) : Quiet depths b (c.patch position i) where
  toExtends := h.toExtends.patch hposition i
  regions := h.regions
  jumps p j n hj hp hcode := h.jumps p j n hj hp (getElem?_patch hi hcode)
  unmarked := h.unmarked

/-- An instruction that was added since is replaced by one that is no plain jump. -/
theorem Layered.patch (h : Layered depths depth b c blocks added) {position : Nat}
    (hposition : b.position ≤ position) {i : Instr} (hi : i.isJump = false) :
    Layered depths depth b (c.patch position i) blocks added := by
  have hsize : (c.patch position i).position = c.position := by simp [Builder.patch, Builder.position]
  refine ⟨h.toExtends.patch hposition i, ?_, h.settled,
    fun p j n hj hp hcode => h.jumps p j n hj hp (getElem?_patch hi hcode), ?_, h.regions, h.members,
    h.proper, h.ordered⟩
  · rw [hsize]
    exact h.within
  · rw [hsize]
    exact h.marked

end Builder

namespace Emit

/-- What is emitted of a handler behind its filter block. -/
def handlerRest (c : CatchBlock Node) (p : ProtectedBlock) (kind : RegionKind Label) : Emit Unit := do
  let start ← newLabel
  let finish ← newLabel
  mark start
  storeException c.binder
  protectedPart c.body p
  instr (.leave p.done)
  mark finish
  addRegion ⟨p.bodyStart, p.bodyEnd, start, finish, kind, p.depth⟩

/-! ## Quiet emitters -/

/-- Code, labels and regions are added quietly, and nothing else that matters changes. -/
structure Hushed (depths : List Nat) (s t : Emission) : Prop where
  builder : Builder.Quiet depths s.builder t.builder
  labels : t.labels = s.labels
  units : t.units = s.units

theorem Hushed.trans {depths : List Nat} {s t u : Emission} (h : Hushed depths s t)
    (k : Hushed depths t u) : Hushed depths s u :=
  ⟨h.builder.trans k.builder, k.labels.trans h.labels, k.units.trans h.units⟩

/-- Every run of the emitter is quiet, and its results have a property. -/
def Hushes (depths : List Nat) {α : Type} (x : Emit α) (Q : α → Prop) : Prop :=
  ∀ setting s t a, depths.length ≤ s.builder.labels.size → x.run setting s = .ok a t →
    Hushed depths s t ∧ Q a

/-- The discipline of emitters that have nothing to do with the labels of the tree. -/
def quiet (depths : List Nat) : Discipline where
  Holds := Hushes depths
  Own l := depths[l.index]? = none
  pure hQ _ _ _ _ _ h := by
    cases h
    exact ⟨⟨.refl _, rfl, rfl⟩, hQ⟩
  bind hx hf _ _ _ _ hsize h := by
    obtain ⟨a, u, hxu, hfu⟩ := run_bind h
    obtain ⟨hsu, hP⟩ := hx _ _ _ _ hsize hxu
    obtain ⟨hut, hQ⟩ := hf a hP _ _ _ _ (Nat.le_trans hsize (Emit.grows _ hxu).labels) hfu
    exact ⟨hsu.trans hut, hQ⟩
  fail _ _ _ _ _ h := nomatch h
  read _ _ _ _ _ _ h := by
    simp only [Emit.read] at h
    split at h <;> cases h
    exact ⟨⟨.refl _, rfl, rfl⟩, trivial⟩
  instr hi _ _ _ _ _ h := by
    cases h
    exact ⟨⟨Builder.quiet_emit hi, rfl, rfl⟩, trivial⟩
  jump hl _ s _ _ _ h := by
    cases h
    refine ⟨⟨⟨Builder.extends_emit _ _, rfl, fun p i n hi hp hcode => ?_, fun _ _ _ _ h => h⟩, rfl,
      rfl⟩, trivial⟩
    cases Builder.getElem?_emit_of_le hp hcode
    rw [hl] at hi
    cases hi
  reserved hfill hx _ s t a hsize h := by
    simp only [Emit.reserved] at h
    split at h
    · next u hact =>
        obtain ⟨hushed, hQ⟩ := hx _ _ _ _ (by exact hsize) hact
        have hall := (Builder.quiet_emit rfl).trans hushed.builder
        split at h <;> cases h
        · next hi =>
            exact ⟨⟨hall.patch (Nat.le_refl _) (hfill _ _ hi), hushed.labels, hushed.units⟩, hQ⟩
        · exact ⟨⟨hall, hushed.labels, hushed.units⟩, hQ⟩
    · cases h
  newLabel _ s _ _ hsize h := by
    cases h
    exact ⟨⟨Builder.quiet_defineLabel, rfl, rfl⟩, List.getElem?_eq_none hsize⟩
  mark hl _ _ _ _ _ h := by
    simp only [Emit.mark] at h
    split at h
    · next hmark =>
        cases h
        exact ⟨⟨Builder.quiet_markLabel hl hmark, rfl, rfl⟩, trivial⟩
    · cases h
  temp _ s _ _ _ h := by
    simp only [Emit.temp] at h
    cases h
    exact ⟨⟨Builder.quiet_acquire _ _ _, rfl, rfl⟩, trivial⟩
  withTemps hx _ _ _ _ hsize h := by
    simp only [Emit.withTemps] at h
    split at h
    · next hact =>
        cases h
        obtain ⟨hushed, hQ⟩ := hx _ _ _ _ hsize hact
        exact ⟨⟨hushed.builder, hushed.labels, hushed.units⟩, hQ⟩
    · cases h
  inScope hx _ _ _ _ hsize h := by
    simp only [Emit.inScope] at h
    split at h
    · next hact =>
        cases h
        obtain ⟨hushed, hQ⟩ := hx _ _ _ _ (by exact hsize) hact
        exact ⟨⟨hushed.builder, hushed.labels, hushed.units⟩, hQ⟩
    · cases h
  helper _ s _ _ _ h := by
    simp only [Emit.helper] at h
    cases h
    refine ⟨⟨?_, rfl, rfl⟩, trivial⟩
    exact .of_eq (Builder.addChild_code _ _) (Builder.addChild_labels _ _) (Builder.addChild_regions _ _)

/-! ## Emitters that keep to the numbering of labels -/

/-- The labels of a function, numbered and with the number of blocks around each, and what is known
of nested units. -/
structure Numbering where
  depths : List Nat
  table : List (LabelId × LabelInfo)
  /-- What the table says of a label is what its number says. -/
  agrees : ∀ id info, table.lookup id = some info → depths[info.label.index]? = some info.depth
  unit : Routine → Prop

/-- The labels have been made known. -/
structure Numbering.Ready (N : Numbering) (s : Emission) : Prop where
  labels : s.labels = N.table
  size : N.depths.length ≤ s.builder.labels.size

/-- Blocks are added, and labels and jumps of the tree keep to the numbering. -/
structure Numbering.Keeps (N : Numbering) (depth : Nat) (s t : Emission) : Prop where
  builder : ∃ blocks added, Builder.Layered N.depths depth s.builder t.builder blocks added
  labels : t.labels = s.labels
  units : ∀ R ∈ t.units, R ∈ s.units ∨ N.unit R

namespace Numbering

variable {N : Numbering} {depth : Nat} {s t u : Emission}

theorem Keeps.of_hushed (h : Hushed N.depths s t) : N.Keeps depth s t :=
  ⟨⟨[], [], h.builder.layered⟩, h.labels, fun R hR => .inl (by rwa [h.units] at hR)⟩

theorem Keeps.trans (h : N.Keeps depth s t) (k : N.Keeps depth t u) : N.Keeps depth s u where
  builder := by
    obtain ⟨blocks, added, hst⟩ := h.builder
    obtain ⟨more, further, htu⟩ := k.builder
    exact ⟨_, _, hst.trans htu⟩
  labels := k.labels.trans h.labels
  units R hR := (k.units R hR).elim (h.units R) .inr

theorem Ready.of_grows (h : N.Ready s) (hlabels : t.labels = s.labels) (hgrows : s.Grows t) :
    N.Ready t :=
  ⟨hlabels.trans h.labels, Nat.le_trans h.size hgrows.labels⟩

end Numbering

/-- Every run of the emitter within `depth` blocks keeps to the numbering, and its results have a
property. -/
def Numbering.Governs (N : Numbering) (depth : Nat) {α : Type} (x : Emit α) (Q : α → Prop) : Prop :=
  ∀ setting s t a, N.Ready s → s.tryDepth = depth → x.run setting s = .ok a t →
    N.Keeps depth s t ∧ Q a

theorem Numbering.Governs.of_quiet {N : Numbering} {depth : Nat} {α : Type} {x : Emit α} {Q : α → Prop}
    (h : (quiet N.depths).Holds x Q) : N.Governs depth x Q := by
  intro setting s t a hready _ hrun
  obtain ⟨hushed, hQ⟩ := h setting s t a hready.size hrun
  exact ⟨.of_hushed hushed, hQ⟩

/-- The discipline of emitters within `depth` blocks that keep to a numbering of the labels. -/
def layered (N : Numbering) (depth : Nat) : Discipline where
  Holds := N.Governs depth
  Own l := N.depths[l.index]? = none
  pure hQ := .of_quiet ((quiet N.depths).pure hQ)
  bind hx hf _ _ _ _ hready hdepth h := by
    obtain ⟨a, u, hxu, hfu⟩ := run_bind h
    have hgrows := Emit.grows _ hxu
    obtain ⟨hsu, hP⟩ := hx _ _ _ _ hready hdepth hxu
    obtain ⟨hut, hQ⟩ := hf a hP _ _ _ _ (hready.of_grows hsu.labels hgrows)
      (hgrows.tryDepth.trans hdepth) hfu
    exact ⟨hsu.trans hut, hQ⟩
  fail := .of_quiet (quiet N.depths).fail
  read hf := .of_quiet ((quiet N.depths).read hf)
  instr hi := .of_quiet ((quiet N.depths).instr hi)
  jump hl := .of_quiet ((quiet N.depths).jump hl)
  reserved hfill hx _ s t a hready hdepth h := by
    simp only [Emit.reserved] at h
    split at h
    · next u hact =>
        obtain ⟨⟨⟨blocks, added, hbuilder⟩, hlabels, hunits⟩, hQ⟩ :=
          hx _ _ _ _ (by exact hready.of_grows rfl (.emit _ _)) (by exact hdepth) hact
        have hall := (Builder.quiet_emit rfl).layered.trans hbuilder
        split at h <;> cases h
        · next hi =>
            exact ⟨⟨⟨_, _, hall.patch (Nat.le_refl _) (hfill _ _ hi)⟩, hlabels, hunits⟩, hQ⟩
        · exact ⟨⟨⟨_, _, hall⟩, hlabels, hunits⟩, hQ⟩
    · cases h
  newLabel := .of_quiet (quiet N.depths).newLabel
  mark hl := .of_quiet ((quiet N.depths).mark hl)
  temp := .of_quiet (quiet N.depths).temp
  withTemps hx _ _ _ _ hready hdepth h := by
    simp only [Emit.withTemps] at h
    split at h
    · next hact =>
        cases h
        obtain ⟨hkeeps, hQ⟩ := hx _ _ _ _ hready hdepth hact
        exact ⟨⟨hkeeps.builder, hkeeps.labels, hkeeps.units⟩, hQ⟩
    · cases h
  inScope hx _ _ _ _ hready hdepth h := by
    simp only [Emit.inScope] at h
    split at h
    · next hact =>
        cases h
        obtain ⟨hkeeps, hQ⟩ :=
          hx _ _ _ _ (by exact ⟨hready.labels, hready.size⟩) (by exact hdepth) hact
        exact ⟨⟨hkeeps.builder, hkeeps.labels, hkeeps.units⟩, hQ⟩
    · cases h
  helper := .of_quiet (quiet N.depths).helper

end Emit

end Arbor
