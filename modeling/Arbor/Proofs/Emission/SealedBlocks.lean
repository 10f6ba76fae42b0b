/-
  Emission of protected blocks that are sealed off.

  A protected block grows from the start of its body on.  Its own regions are those
  that start there; each one is added when its part is complete, behind the code of
  that part.  So the regions of a block come in the order of its parts, and each
  ends where its part ends.
-/
import Arbor.Proofs.Emission.Stretches

set_option autoImplicit false

namespace Arbor

/-- The region can be added to a block whose body starts at `first` when its code has come to `last`:
its ranges start and end at cuts or there, and the regions of the block so far lie in front of its
handler. -/
structure Region.Suits (g : Region Nat) (first last : Nat) (cuts : List Nat) (own : List (Region Nat)) :
    Prop where
  tryStart : g.tryStart = first
  tryEnd : g.tryEnd ∈ last :: cuts
  handlerFirst : g.handlerFirst ∈ last :: cuts
  body : first < g.tryEnd
  behind : g.tryEnd ≤ g.handlerFirst
  filter : g.handlerFirst ≤ g.handlerStart
  own : ∀ k ∈ own, k.handlerEnd ≤ g.handlerFirst ∧ (k.tryEnd = g.tryEnd ∨ k.handlerEnd ≤ g.tryEnd)

namespace Builder

open Emit (ProtectedBlock)

/-- A protected block from the start of its body `n` on, with its parts so far and their regions. -/
structure Opened (S : Sealing) (p : ProtectedBlock) (n : Node) (bodyEnd : Nat) (b c : Builder) (cuts : List Nat)
    (parts : List (Clause Node)) (own : List (Region Nat)) : Prop where
  stretch : ∃ added, Stretch S [p.bodyEnd] b c cuts added ∧
    added.filter (·.tryStart == b.position) = own
  fits : List.Forall₂ (Clause.Fits c.code) parts own
  first : c.labels[p.bodyStart.index]? = some (some b.position)
  last : c.labels[p.bodyEnd.index]? = some (some bodyEnd)
  body : b.position < bodyEnd
  cut : bodyEnd ∈ cuts
  stands : n.StandsIn c.code b.position bodyEnd
  covers : ∀ g ∈ own, bodyEnd ≤ g.tryEnd

namespace Opened

variable {S : Sealing} {p : ProtectedBlock} {n : Node} {bodyEnd : Nat} {b c e : Builder} {cuts cuts' : List Nat}
  {parts : List (Clause Node)} {own more : List (Region Nat)}

/-- The body of a block, in front of the instruction that leaves it. -/
theorem start (hb : S.labels ≤ b.labels.size) (h : Sealed S [] none [] b c more) {i : Instr}
    (hi : i.branches = []) (hstart : b.labels[p.bodyStart.index]? = some (some b.position))
    (hend : p.bodyEnd.index < b.labels.size) (hmark : (c.emit i).markLabel p.bodyEnd = .ok e)
    (hstands : n.StandsIn e.code b.position e.position) :
    Opened S p n e.position b e [e.position] [] [] := by
  have hposition : (c.emit i).position = c.position + 1 := by simp [Builder.emit, Builder.position]
  obtain ⟨hmarked, heq⟩ := getElem?_markLabel hmark
  have hstretch := (Stretch.of_sealed hb h hi).markLabel hend hmark
  have hwithin : ∀ g ∈ more, g.handlerEnd ≤ e.position := fun g hg => (hstretch.within g hg).2
  have hnone : more.filter (·.tryStart == b.position) = [] :=
    Sealed.filter_tryStart_eq_nil fun g hg => Nat.ne_of_gt (h.within g hg).1
  refine ⟨⟨more, hstretch.cutEnd hwithin, hnone⟩, .nil, hstretch.marks _ _ hstart, ?_, ?_,
    List.mem_cons_self, hstands, fun _ hg => absurd hg List.not_mem_nil⟩
  · rw [hmarked, heq]
  · have := h.position_le
    omega

theorem ended (h : Opened S p n bodyEnd b c cuts parts own) : ∀ g ∈ own, g.handlerEnd ≤ c.position := by
  obtain ⟨added, hstretch, rfl⟩ := h.stretch
  exact fun g hg => (hstretch.within g (List.mem_of_mem_filter hg)).2

theorem body_le (h : Opened S p n bodyEnd b c cuts parts own) : bodyEnd ≤ c.position := by
  obtain ⟨added, hstretch, -⟩ := h.stretch
  exact (hstretch.bounds _ h.cut).2

/-- Only some of the cuts are kept. -/
theorem subset (h : Opened S p n bodyEnd b c cuts parts own) (hcuts : ∀ m ∈ cuts', m ∈ cuts)
    (hbody : bodyEnd ∈ cuts') : Opened S p n bodyEnd b c cuts' parts own where
  stretch := by
    obtain ⟨added, hstretch, hown⟩ := h.stretch
    exact ⟨added, hstretch.subset hcuts, hown⟩
  fits := h.fits
  first := h.first
  last := h.last
  body := h.body
  cut := hbody
  stands := h.stands
  covers := h.covers

/-- More code, whose regions start behind its start. -/
theorem append (h : Opened S p n bodyEnd b c cuts parts own) (k : Stretch S [] c e cuts' more)
    (hmore : ∀ g ∈ more, c.position < g.tryStart) :
    Opened S p n bodyEnd b e (cuts ++ c.position :: cuts') parts own := by
  obtain ⟨added, hstretch, rfl⟩ := h.stretch
  have hnone : more.filter (·.tryStart == b.position) = [] := Sealed.filter_tryStart_eq_nil fun g hg => by
    have := hmore g hg
    have := hstretch.position_le
    omega
  refine ⟨⟨added ++ more, hstretch.append k hmore fun _ hl => absurd hl List.not_mem_nil, ?_⟩, ?_,
    k.marks _ _ h.first, k.marks _ _ h.last, h.body, List.mem_append_left _ h.cut,
    h.stands.congr fun q _ hq => k.getElem?_code (Nat.lt_of_lt_of_le hq h.body_le), h.covers⟩
  · rw [List.filter_append, hnone, List.append_nil]
  · refine Clause.Fits.congr_all h.fits (fun g hg => hstretch.ranged g (List.mem_of_mem_filter hg))
      fun g hg q _ hq => k.getElem?_code (Nat.lt_of_lt_of_le hq (h.ended g hg))

/-- A further part of the block: straight code, sealed code behind it and an instruction that does not
branch. -/
theorem part {w y z : Builder} {r : Region Label} {g : Region Nat} {part : Clause Node} {i : Instr}
    {finish : Label} (hw : S.labels ≤ w.labels.size) (h : Opened S p n bodyEnd b w cuts parts own)
    (hy : Straight w y) (hz : Sealed S [] none [] y z more) (hi : i.branches = [])
    (hnew : w.labels.size ≤ finish.index) (hthere : finish.index < y.labels.size)
    (hmark : (z.emit i).markLabel finish = .ok e) (hr : r.Resolves e.labels g)
    (hsuits : g.Suits b.position w.position cuts own) (hhandler : g.handlerStart = y.position)
    (hlast : g.handlerEnd = e.position) (hcovers : bodyEnd ≤ g.tryEnd) (hpart : part.Fits e.code g) :
    Opened S p n bodyEnd b (e.addRegion r) cuts (parts ++ [part]) (own ++ [g]) := by
  have hmore : ∀ k ∈ more, w.position < k.tryStart := fun k hk =>
    Nat.lt_of_le_of_lt hy.position_le (hz.within k hk).1
  have hopened := h.append (Stretch.marked hw hy hz hi hnew hthere hmark) hmore
  have hlt : y.position < e.position := by
    have hposition : (z.emit i).position = z.position + 1 := by simp [Builder.emit, Builder.position]
    have := hz.position_le
    have := (getElem?_markLabel hmark).2
    omega
  have hcut : ∀ m ∈ w.position :: cuts, m ∈ cuts ++ w.position :: [y.position] := by
    intro m hm
    rcases List.mem_cons.mp hm with rfl | hm <;> simp [*]
  have hranged : g.Ranged :=
    ⟨hsuits.tryStart ▸ hsuits.body, hsuits.behind, hsuits.filter, by omega⟩
  obtain ⟨added, hstretch, hown⟩ := hopened.stretch
  have hadded := hstretch.addRegion hr hranged hsuits.tryStart (hcut _ hsuits.tryEnd)
    (hcut _ hsuits.handlerFirst) (by simp [hhandler]) hlast fun k hk hk' =>
      hsuits.own k (hown ▸ List.mem_filter.mpr ⟨hk, beq_iff_eq.mpr hk'⟩)
  refine ⟨⟨added ++ [g], hadded.subset fun m hm => List.mem_append_left _ hm, ?_⟩,
    List.rel_append hopened.fits (.cons hpart .nil), hopened.first, hopened.last, h.body, h.cut,
    hopened.stands, List.forall_mem_append.mpr ⟨h.covers, List.forall_mem_singleton.mpr hcovers⟩⟩
  rw [List.filter_append, hown, List.filter_singleton, hsuits.tryStart, beq_self_eq_true]
  rfl

end Opened

end Builder

/-! ## Straight emission -/

/-- Straight code was added, and no label of the tree became known. -/
structure Emission.Straight (s t : Emission) : Prop where
  builder : Builder.Straight s.builder t.builder
  labels : t.labels = s.labels

namespace Emission.Straight

variable {s t u : Emission}

theorem refl (s : Emission) : s.Straight s := ⟨.of_eq rfl rfl rfl, rfl⟩

theorem trans (h : s.Straight t) (k : t.Straight u) : s.Straight u :=
  ⟨h.builder.trans k.builder, k.labels.trans h.labels⟩

end Emission.Straight

namespace Sealing

variable {S : Sealing} {s t u : Emission}

theorem Ready.straight (hs : S.Ready s [] none) (h : s.Straight t) : S.Ready t [] none where
  knows := ⟨Nat.le_trans hs.knows.size h.builder.size, fun l hl => by simp at hl⟩
  table := by
    rw [h.labels]
    exact hs.table

theorem Ready.congr (hs : S.Ready s [] none) (hbuilder : t.builder = s.builder)
    (hlabels : t.labels = s.labels) : S.Ready t [] none :=
  ⟨⟨by rw [hbuilder]; exact hs.knows.size, fun l hl => by simp at hl⟩, by rw [hlabels]; exact hs.table⟩

/-- Emission can go on, and no label of the tree became known. -/
structure Lasts (S : Sealing) (s t : Emission) : Prop where
  ready : S.Ready t [] none
  labels : t.labels = s.labels

namespace Lasts

theorem trans (h : S.Lasts s t) (k : S.Lasts t u) : S.Lasts s u := ⟨k.ready, k.labels.trans h.labels⟩

theorem straight (hs : S.Ready s [] none) (h : s.Straight t) : S.Lasts s t := ⟨hs.straight h, h.labels⟩

theorem sealed (hs : S.Ready s [] none) (h : S.Seals [] none [] s t) : S.Lasts s t :=
  ⟨hs.after h, h.labels⟩

end Lasts

end Sealing

namespace Emit

open Builder

variable {S : Sealing} {p : ProtectedBlock} {n : Node} {setting : Setting} {s t u : Emission}

theorem straight_instr {i : Instr} (hi : i.branches = []) (h : (instr i).run setting s = .ok () t) :
    s.Straight t := by
  cases h
  exact ⟨.emit hi, rfl⟩

theorem straight_newLabel {l : Label} (h : newLabel.run setting s = .ok l t) :
    s.Straight t ∧ l.index = s.builder.labels.size ∧ l.index < t.builder.labels.size ∧
      t.builder.position = s.builder.position := by
  cases h
  exact ⟨⟨.defineLabel, rfl⟩, rfl, by simp [Builder.defineLabel], rfl⟩

theorem straight_mark (h : s.Straight t) {l : Label} (hl : s.builder.labels.size ≤ l.index)
    (hmark : (mark l).run setting t = .ok () u) :
    s.Straight u ∧ u.builder.labels[l.index]? = some (some u.builder.position) ∧
      u.builder.position = t.builder.position := by
  simp only [Emit.mark] at hmark
  split at hmark
  · next hc =>
      cases hmark
      obtain ⟨hmarked, hposition⟩ := getElem?_markLabel hc
      exact ⟨⟨h.builder.markLabel hl hc, h.labels⟩, by rw [hmarked, hposition], hposition⟩
  · cases hmark

/-- A zeroed local. -/
theorem straight_bindLocal {v : Variable} {bound : VarId × VarSlot × Ty}
    (h : (bindLocal v).run setting s = .ok bound t) : s.Straight t := by
  obtain ⟨slot, s₁, htemp, h⟩ := run_bind h
  obtain ⟨_, s₂, hdefault, h⟩ := run_bind h
  obtain ⟨_, s₃, hstore, hpure⟩ := run_bind h
  cases hpure
  have hfirst : s.Straight s₁ := by
    simp only [Emit.temp] at htemp
    cases htemp
    exact ⟨.acquire _ _, rfl⟩
  have hsecond : s₁.Straight s₂ := by
    unfold pushDefault at hdefault
    split at hdefault
    · cases hdefault
      exact .refl _
    · split at hdefault <;> exact straight_instr rfl hdefault
  exact (hfirst.trans hsecond).trans (straight_instr rfl hstore)

/-- Zeroed locals. -/
theorem straight_bindLocals {vars : List Variable} {bound : Scope}
    (h : (bindLocals vars).run setting s = .ok bound t) : s.Straight t := by
  induction vars generalizing s bound with
  | nil =>
      cases h
      exact .refl _
  | cons v vars ih =>
      obtain ⟨first, s₁, hfirst, h⟩ := run_bind h
      obtain ⟨rest, s₂, hrest, hpure⟩ := run_bind h
      cases hpure
      exact (straight_bindLocal hfirst).trans (ih hrest)

/-! ## Code of the parts -/

/-- What was emitted for a node stands where it was emitted. -/
theorem standsIn_guarded {n : Node} {shape : Shape} {a : Emitted}
    (h : (n.guarded shape).run setting s = .ok a t) {c : Builder} (hc : t.builder.Extends c)
    {first last : Nat} (hfirst : first ≤ s.builder.position) (hlast : t.builder.position ≤ last) :
    n.StandsIn c.code first last :=
  ⟨setting, shape, s, t, a, h, hfirst, hlast, fun _ _ hq => hc.getElem?_code hq⟩

/-- The code of a part stands where it was emitted. -/
theorem standsIn_protectedPart {n : Node} (h : (protectedPart n p).run setting s = .ok () t)
    {c : Builder} (hc : t.builder.Extends c) {first last : Nat} (hfirst : first ≤ s.builder.position)
    (hlast : t.builder.position ≤ last) : n.StandsIn c.code first last := by
  unfold protectedPart at h
  split at h
  · obtain ⟨_, s₁, hguarded, h⟩ := run_bind h
    have hrest := Builder.Extends.of_grows (Emit.grows _ h)
    exact standsIn_guarded hguarded (hrest.trans hc) hfirst (Nat.le_trans hrest.position_le hlast)
  · obtain ⟨_, s₁, hguarded, hpure⟩ := run_bind h
    cases hpure
    exact standsIn_guarded hguarded hc hfirst hlast

/-! ## Emission of the parts -/

/-- The labels of a part were made, and the first one has been marked. -/
structure Begins (w y : Emission) (start finish : Label) : Prop where
  straight : w.Straight y
  position : y.builder.position = w.builder.position
  marked : y.builder.labels[start.index]? = some (some y.builder.position)
  fresh : w.builder.labels.size ≤ finish.index
  known : finish.index < y.builder.labels.size

/-- Two labels are made, and the first one is marked. -/
theorem begins_of_run {w w₁ w₂ y : Emission} {start finish : Label}
    (hstart : newLabel.run setting w = .ok start w₁) (hfinish : newLabel.run setting w₁ = .ok finish w₂)
    (hmark : (mark start).run setting w₂ = .ok () y) : Begins w y start finish := by
  obtain ⟨hfirst, hindex, -, hposition⟩ := straight_newLabel hstart
  obtain ⟨hsecond, hindex', hlt, hposition'⟩ := straight_newLabel hfinish
  have hnew : w.builder.labels.size ≤ start.index := Nat.le_of_eq hindex.symm
  obtain ⟨hstraight, hmarked, hsame⟩ := straight_mark (hfirst.trans hsecond) hnew hmark
  exact ⟨hstraight, by omega, hmarked, hindex' ▸ hfirst.builder.size,
    Nat.lt_of_lt_of_le hlt (Emit.grows _ hmark).labels⟩

/-- The end of a part. -/
theorem run_close {z z₁ z₂ : Emission} {i : Instr} {finish : Label} {r : Region Label}
    (hinstr : (instr i).run setting z = .ok () z₁) (hend : (mark finish).run setting z₁ = .ok () z₂)
    (hregion : (addRegion r).run setting z₂ = .ok () t) :
    ∃ e, (z.builder.emit i).markLabel finish = .ok e ∧ t = { z with builder := e.addRegion r } := by
  cases hinstr
  simp only [Emit.mark] at hend
  split at hend
  · next e hmark =>
      cases hend
      cases hregion
      exact ⟨e, hmark, rfl⟩
  · cases hend

variable {b : Builder} {bodyEnd : Nat} {cuts : List Nat} {parts : List (Clause Node)}
  {own : List (Region Nat)}

/-- A part of the block from `w` on, with its code from `y` to `z`. -/
theorem opened_part {w y z : Emission} {start finish coveredEnd : Label} {i : Instr} {e : Builder}
    {kind : RegionKind Label} {kind' : RegionKind Nat} {tryEnd : Nat} {part : Clause Node}
    (hw : S.Ready w [] none) (h : Opened S p n bodyEnd b w.builder cuts parts own)
    (hbegins : Begins w y start finish) (hseals : S.Seals [] none [] y z) (hi : i.branches = [])
    (hmark : (z.builder.emit i).markLabel finish = .ok e)
    (hcovered : w.builder.labels[coveredEnd.index]? = some (some tryEnd))
    (hkind : kind.Resolves w.builder.labels kind')
    (hsuits : Region.Suits ⟨b.position, tryEnd, w.builder.position, e.position, kind', p.depth⟩
      b.position w.builder.position cuts own) (hcovers : bodyEnd ≤ tryEnd)
    (hpart : part.Fits e.code ⟨b.position, tryEnd, w.builder.position, e.position, kind', p.depth⟩) :
    S.Lasts w { z with builder := e.addRegion ⟨p.bodyStart, coveredEnd, start, finish, kind, p.depth⟩ } ∧
      e.labels[finish.index]? = some (some e.position) ∧
      Opened S p n bodyEnd b (e.addRegion ⟨p.bodyStart, coveredEnd, start, finish, kind, p.depth⟩) cuts
        (parts ++ [part])
        (own ++ [⟨b.position, tryEnd, w.builder.position, e.position, kind', p.depth⟩]) := by
  obtain ⟨⟨more, hsealed⟩, hlabels⟩ := hseals
  have hz := (hw.straight hbegins.straight).after ⟨⟨more, hsealed⟩, hlabels⟩
  have hze := (extends_emit z.builder i).trans (extends_markLabel hmark)
  have hmarks := (hsealed.toExtends.trans hze).marks
  have hold := (hbegins.straight.builder.toExtends.trans (hsealed.toExtends.trans hze)).marks
  obtain ⟨hfinished, hposition⟩ := getElem?_markLabel hmark
  rw [← hposition] at hfinished
  have hmarked := hmarks _ _ hbegins.marked
  rw [hbegins.position] at hmarked
  have hresolves : Region.Resolves e.labels ⟨p.bodyStart, coveredEnd, start, finish, kind, p.depth⟩
      ⟨b.position, tryEnd, w.builder.position, e.position, kind', p.depth⟩ :=
    ⟨hold _ _ h.first, hold _ _ hcovered, hmarked, hfinished, hkind.mono hold, rfl⟩
  refine ⟨⟨⟨⟨?_, fun l hl => by simp at hl⟩, hz.table⟩, hlabels.trans hbegins.straight.labels⟩, hfinished,
    h.part hw.knows.size hbegins.straight.builder hsealed hi hbegins.fresh hbegins.known hmark
      hresolves hsuits hbegins.position.symm rfl hcovers hpart⟩
  obtain ⟨-, rfl⟩ := markLabel_eq hmark
  simpa [Builder.addRegion, Builder.emit] using hz.knows.size

/-- A handler behind its filter block, if it has one. -/
theorem opened_handlerRest {w : Emission} (hw : S.Ready w [] none)
    (h : Opened S p n bodyEnd b w.builder cuts parts own) {c : CatchBlock Node}
    (hbody : c.body.Keeps (sealing S)) {kind : RegionKind Label} {kind' : RegionKind Nat}
    (hkind : kind.Resolves w.builder.labels kind')
    (hsuits : ∀ last, Region.Suits ⟨b.position, bodyEnd, w.builder.position, last, kind', p.depth⟩
      b.position w.builder.position cuts own)
    (hpart : ∀ e last, w.builder.Extends e → c.body.StandsIn e.code w.builder.position last →
      (Clause.handler c).Fits e.code ⟨b.position, bodyEnd, w.builder.position, last, kind', p.depth⟩)
    (hrun : (handlerRest c p kind).run setting w = .ok () t) :
    S.Lasts w t ∧ ∃ g, g.tryEnd = bodyEnd ∧
      Opened S p n bodyEnd b t.builder cuts (parts ++ [.handler c]) (own ++ [g]) := by
  obtain ⟨start, w₁, hstart, hrun⟩ := run_bind hrun
  obtain ⟨finish, w₂, hfinish, hrun⟩ := run_bind hrun
  obtain ⟨_, y, hmark, hrun⟩ := run_bind hrun
  obtain ⟨_, x, hstore, hrun⟩ := run_bind hrun
  obtain ⟨_, z, hguarded, hrun⟩ := run_bind hrun
  obtain ⟨_, z₁, hleave, hrun⟩ := run_bind hrun
  obtain ⟨_, z₂, hend, hregion⟩ := run_bind hrun
  have hbegins := begins_of_run hstart hfinish hmark
  obtain ⟨e, hclosed, rfl⟩ := run_close hleave hend hregion
  have hy := hw.straight hbegins.straight
  obtain ⟨hyx, -⟩ := (Policy.storeException : (sealing S).Ok [] none _) _ _ _ _ hstore hy
  have hx := hy.after hyx
  obtain ⟨hxz, -⟩ := Policy.protectedPart hbody (fun _ _ => trivial) _ _ _ _ hguarded hx
  have hze := (extends_emit z.builder _).trans (extends_markLabel hclosed)
  have hstored := Builder.Extends.of_grows (Emit.grows _ hstore)
  have hwe := (hbegins.straight.builder.toExtends.trans hstored).trans
    ((Builder.Extends.of_grows (Emit.grows _ hguarded)).trans hze)
  have hfirst : w.builder.position ≤ x.builder.position := hbegins.position ▸ hstored.position_le
  have hstands := standsIn_protectedPart hguarded hze hfirst hze.position_le
  obtain ⟨hlasts, -, hopened⟩ := opened_part hw h hbegins (hyx.trans hy hxz) rfl hclosed h.last hkind
    (hsuits _) (Nat.le_refl _) (hpart _ _ hwe hstands)
  exact ⟨hlasts, _, rfl, hopened⟩

/-- A filter block and its handler. -/
theorem opened_filtered (hs : S.Ready s [] none) (h : Opened S p n bodyEnd b s.builder cuts parts own)
    {c : CatchBlock Node} {filter : Node} (hsome : c.filter = some filter)
    (hbody : c.body.Keeps (sealing S)) (hfilter : filter.Keeps (sealing S))
    (hown : ∀ g ∈ own, g.tryEnd = bodyEnd)
    (hrun : (do
      let start ← newLabel
      mark start
      storeException c.binder
      let _ ← filter.guarded .value
      if filter.ty.isNullable then instr (.optValueOrDefault .bool)
      instr .endFilter
      handlerRest c p (.filter start) : Emit Unit).run setting s = .ok () t) :
    S.Lasts s t ∧ ∃ g, g.tryEnd = bodyEnd ∧
      Opened S p n bodyEnd b t.builder cuts (parts ++ [.handler c]) (own ++ [g]) := by
  obtain ⟨start, s₁, hnew, hrun⟩ := run_bind hrun
  obtain ⟨_, x, hmark, hrun⟩ := run_bind hrun
  obtain ⟨_, x₁, hstore, hrun⟩ := run_bind hrun
  obtain ⟨_, x₂, hguarded, hrun⟩ := run_bind hrun
  obtain ⟨hlabel, hindex, -, -⟩ := straight_newLabel hnew
  obtain ⟨hstraight, hmarked, -⟩ := straight_mark hlabel (Nat.le_of_eq hindex.symm) hmark
  have hx := hs.straight hstraight
  have hsx := h.append (.of_straight hs.knows.size hstraight.builder) fun g hg => absurd hg List.not_mem_nil
  have hsx' := hstraight.builder.position_le
  obtain ⟨hstored, -⟩ := (Policy.storeException : (sealing S).Ok [] none _) _ _ _ _ hstore hx
  obtain ⟨htested, -⟩ := hfilter.guarded _ _ _ _ hguarded (hx.after hstored)
  have hfirst := (Builder.Extends.of_grows (Emit.grows _ hstore)).position_le
  -- The verdict of an optional filter is taken out of it; what follows is the same.
  have hrest : ∀ y, S.Seals [] none [] x y → x₂.builder.Extends y.builder →
      (instr .endFilter >>= fun _ => handlerRest c p (.filter start)).run setting y = .ok () t →
      S.Lasts s t ∧ ∃ g, g.tryEnd = bodyEnd ∧
        Opened S p n bodyEnd b t.builder cuts (parts ++ [.handler c]) (own ++ [g]) := by
    intro y hseals hxy hrun
    obtain ⟨_, w, hinstr, hrun⟩ := run_bind hrun
    have hsw := ((Sealing.Lasts.straight hs hstraight).trans (.sealed hx hseals)).trans
      (.straight (hx.after hseals) (straight_instr rfl hinstr))
    obtain ⟨⟨more, hsealed⟩, -⟩ := hseals
    have hstretch := Stretch.of_sealed hx.knows.size hsealed (rfl : Instr.endFilter.branches = [])
    have hxw := hsx.append hstretch fun g hg => (hsealed.within g hg).1
    have hyw := Builder.Extends.of_grows (Emit.grows _ hinstr)
    cases hinstr
    have hcuts : ∀ m ∈ x.builder.position :: cuts,
        m ∈ (cuts ++ [s.builder.position]) ++ [x.builder.position] := by simp +contextual
    have hxw := hxw.subset hcuts (List.mem_cons_of_mem _ h.cut)
    have hxw' := hstretch.position_le
    have hkind := RegionKind.Resolves.filter (hstretch.marks _ _ hmarked)
    obtain ⟨hlasts, g, htry, hopened⟩ := opened_handlerRest hsw.ready hxw hbody hkind
      (fun last => ⟨rfl, by simp [h.cut], List.mem_cons_of_mem _ List.mem_cons_self, h.body,
        Nat.le_trans h.body_le hsx', hxw', fun g hg =>
          ⟨Nat.le_trans (h.ended g hg) hsx', .inl (hown g hg)⟩⟩)
      (fun e last he hstands => .filter hsome rfl (standsIn_guarded hguarded
        (hxy.trans (hyw.trans he)) hfirst (hxy.trans hyw).position_le) hstands) hrun
    exact ⟨hsw.trans hlasts, g, htry, hopened.subset (fun m hm => List.mem_cons_of_mem _ hm) h.cut⟩
  dsimp only at hrun
  split at hrun
  · obtain ⟨_, x₃, hinstr, hrun⟩ := run_bind hrun
    have hseals := hstored.trans hx htested
    obtain ⟨hunwrapped, -⟩ := (Policy.bare rfl : (sealing S).Ok [] none _) _ _ _ _ hinstr (hx.after hseals)
    exact hrest x₃ (hseals.trans hx hunwrapped) (.of_grows (Emit.grows _ hinstr)) hrun
  · exact hrest x₂ (hstored.trans hx htested) (.refl _) hrun

/-- A handler. -/
theorem opened_handler (hs : S.Ready s [] none) (h : Opened S p n bodyEnd b s.builder cuts parts own)
    {c : CatchBlock Node} (hbody : c.body.Keeps (sealing S))
    (hfilter : ∀ n ∈ c.filter.toList, n.Keeps (sealing S)) (hown : ∀ g ∈ own, g.tryEnd = bodyEnd)
    (hrun : (handler c p).run setting s = .ok () t) :
    S.Lasts s t ∧ ∃ g, g.tryEnd = bodyEnd ∧
      Opened S p n bodyEnd b t.builder cuts (parts ++ [.handler c]) (own ++ [g]) := by
  obtain ⟨bound, s₁, hbind, hrun⟩ := run_bind hrun
  have hstraight := straight_bindLocals hbind
  simp only [inScope] at hrun
  split at hrun
  case h_2 => cases hrun
  next s₃ hact =>
  cases hrun
  have hss₁ := Sealing.Lasts.straight hs hstraight
  have h₁ := (h.append (.of_straight hs.knows.size hstraight.builder)
    fun g hg => absurd hg List.not_mem_nil).subset (fun m hm => List.mem_append_left _ hm) h.cut
  -- The scope of the handler does not matter to what was built in it.
  suffices hinner : S.Lasts { s₁ with scope := bound.reverse ++ s₁.scope } s₃ ∧ ∃ g, g.tryEnd = bodyEnd ∧
      Opened S p n bodyEnd b s₃.builder cuts (parts ++ [.handler c]) (own ++ [g]) from
    ⟨⟨hinner.1.ready.congr rfl rfl, hinner.1.labels.trans hss₁.labels⟩, hinner.2⟩
  have hs₂ : S.Ready { s₁ with scope := bound.reverse ++ s₁.scope } [] none := hss₁.ready.congr rfl rfl
  split at hact
  · next filter hsome =>
      rw [hsome] at hfilter
      exact opened_filtered hs₂ h₁ hsome hbody (hfilter filter List.mem_cons_self) hown hact
  · next hnone =>
      obtain ⟨kind, y, hpure, hact⟩ := run_bind hact
      cases hpure
      exact opened_handlerRest hs₂ h₁ hbody (.catch c.ty)
        (fun last => ⟨rfl, List.mem_cons_of_mem _ h.cut, List.mem_cons_self, h.body, h₁.body_le,
          Nat.le_refl _, fun g hg => ⟨h₁.ended g hg, .inl (hown g hg)⟩⟩)
        (fun e last _ hstands => .catch hnone rfl hstands) hact

/-- Handlers. -/
theorem opened_handlers {cs : List (CatchBlock Node)}
    (hcs : ∀ c ∈ cs, c.body.Keeps (sealing S) ∧ ∀ n ∈ c.filter.toList, n.Keeps (sealing S))
    (hs : S.Ready s [] none) (h : Opened S p n bodyEnd b s.builder cuts parts own)
    (hown : ∀ g ∈ own, g.tryEnd = bodyEnd)
    (hrun : (cs.forM fun c => handler c p).run setting s = .ok () t) :
    S.Lasts s t ∧ ∃ more,
      Opened S p n bodyEnd b t.builder cuts (parts ++ cs.map .handler) (own ++ more) := by
  induction cs generalizing s parts own with
  | nil =>
      cases hrun
      exact ⟨⟨hs, rfl⟩, [], by simpa using h⟩
  | cons c cs ih =>
      obtain ⟨_, s₁, hhandler, hrun⟩ := run_bind hrun
      obtain ⟨hc, hcs⟩ := List.forall_mem_cons.mp hcs
      obtain ⟨hlasts, g, htry, h₁⟩ := opened_handler hs h hc.1 hc.2 hown hhandler
      have hown₁ : ∀ k ∈ own ++ [g], k.tryEnd = bodyEnd :=
        List.forall_mem_append.mpr ⟨hown, List.forall_mem_singleton.mpr htry⟩
      obtain ⟨hthen, more, h₂⟩ := ih hcs hlasts.ready h₁ hown₁ hrun
      exact ⟨hlasts.trans hthen, g :: more, by simpa using h₂⟩

/-- A fault or finally block, which covers everything before it. -/
theorem opened_unwindBlock (hs : S.Ready s [] none)
    (h : Opened S p n bodyEnd b s.builder cuts parts own) {block : Node}
    (hblock : block.Keeps (sealing S)) {kind : RegionKind Label} {kind' : RegionKind Nat}
    (hkind : ∀ labels, kind.Resolves labels kind') (hfirst : ∀ q, kind'.first q = q)
    {part : Clause Node} (hpart : ∀ (code : Array Instr) (g : Region Nat), g.kind = kind' →
      block.StandsIn code g.handlerStart g.handlerEnd → part.Fits code g) {coveredEnd finish : Label}
    (hcovered : s.builder.labels[coveredEnd.index]? = some (some s.builder.position))
    (hrun : (unwindBlock block kind coveredEnd p).run setting s = .ok finish t) :
    S.Lasts s t ∧ t.builder.labels[finish.index]? = some (some t.builder.position) ∧
      ∃ g, Opened S p n bodyEnd b t.builder cuts (parts ++ [part]) (own ++ [g]) := by
  obtain ⟨start, s₁, hstart, hrun⟩ := run_bind hrun
  obtain ⟨finish, s₂, hfinish, hrun⟩ := run_bind hrun
  obtain ⟨_, y, hmark, hrun⟩ := run_bind hrun
  obtain ⟨_, z, hguarded, hrun⟩ := run_bind hrun
  obtain ⟨_, z₁, hinstr, hrun⟩ := run_bind hrun
  obtain ⟨_, z₂, hend, hrun⟩ := run_bind hrun
  obtain ⟨_, z₃, hregion, hpure⟩ := run_bind hrun
  cases hpure
  have hbegins := begins_of_run hstart hfinish hmark
  obtain ⟨e, hclosed, rfl⟩ := run_close hinstr hend hregion
  obtain ⟨hseals, -⟩ := hblock.guarded _ _ _ _ hguarded (hs.straight hbegins.straight)
  have hze := (extends_emit z.builder .endFinally).trans (extends_markLabel hclosed)
  have hstands := standsIn_guarded hguarded hze (Nat.le_of_eq hbegins.position.symm) hze.position_le
  have hbody := h.body_le
  have hlt := h.body
  obtain ⟨hlasts, hfinished, hopened⟩ := opened_part hs h hbegins hseals rfl hclosed hcovered
    (hkind _) ⟨rfl, List.mem_cons_self, by simp [Region.handlerFirst, hfirst], Nat.lt_of_lt_of_le hlt hbody,
      Nat.le_of_eq (hfirst _).symm, Nat.le_of_eq (hfirst _), fun g hg =>
        ⟨Nat.le_trans (h.ended g hg) (Nat.le_of_eq (hfirst _).symm), .inr (h.ended g hg)⟩⟩
    hbody (hpart _ _ rfl hstands)
  exact ⟨hlasts, hfinished, _, hopened⟩

/-- The body of a block. -/
theorem opened_body {y y₁ : Emission} (hs : S.Ready s [] none) (hbody : n.Keeps (sealing S))
    (hrun : (protectedPart n p).run setting s = .ok () y)
    (hstart : s.builder.labels[p.bodyStart.index]? = some (some s.builder.position))
    (hend : p.bodyEnd.index < s.builder.labels.size) {i : Instr} (hi : i.branches = [])
    (hinstr : (instr i).run setting y = .ok () y₁) (hmark : (mark p.bodyEnd).run setting y₁ = .ok () t) :
    S.Lasts s t ∧
      Opened S p n t.builder.position s.builder t.builder [t.builder.position] [] [] := by
  obtain ⟨hseals, -⟩ := Policy.protectedPart hbody (fun _ _ => trivial) _ _ _ _ hrun hs
  have hlasts := (Sealing.Lasts.sealed hs hseals).trans
    (.straight (hs.after hseals) (straight_instr hi hinstr))
  obtain ⟨⟨more, hsealed⟩, -⟩ := hseals
  cases hinstr
  simp only [Emit.mark] at hmark
  split at hmark
  · next e hclosed =>
      cases hmark
      have hye := (extends_emit y.builder i).trans (extends_markLabel hclosed)
      refine ⟨⟨⟨⟨?_, fun l hl => by simp at hl⟩, hlasts.ready.table⟩, hlasts.labels⟩,
        .start hs.knows.size hsealed hi hstart hend hclosed
          (standsIn_protectedPart hrun hye (Nat.le_refl _) hye.position_le)⟩
      obtain ⟨-, rfl⟩ := markLabel_eq hclosed
      simpa using hlasts.ready.knows.size
  · cases hmark

/-- All parts of a block. -/
theorem opened_regions {part : Node} {cs : List (CatchBlock Node)} {finallyBlock faultBlock : Option Node}
    (hpart : part.Keeps (sealing S))
    (hcs : ∀ c ∈ cs, c.body.Keeps (sealing S) ∧ ∀ n ∈ c.filter.toList, n.Keeps (sealing S))
    (hfinally : ∀ n ∈ finallyBlock.toList, n.Keeps (sealing S))
    (hfault : ∀ n ∈ faultBlock.toList, n.Keeps (sealing S))
    (hs : S.Ready s [] none)
    (hstart : s.builder.labels[p.bodyStart.index]? = some (some s.builder.position))
    (hend : p.bodyEnd.index < s.builder.labels.size)
    (hrun : (regions part cs finallyBlock faultBlock p).run setting s = .ok () t) :
    t.labels = s.labels ∧ ∃ bodyEnd own, Opened S p part bodyEnd s.builder t.builder [bodyEnd]
      (ExprKind.tryCatch part cs finallyBlock faultBlock).clauses own := by
  simp only [Emit.regions, inRegion] at hrun
  split at hrun
  case h_2 => cases hrun
  next v hact =>
  cases hrun
  have hu : S.Ready { s with tryDepth := s.tryDepth + 1 } [] none := hs.congr rfl rfl
  obtain ⟨_, y, hbody, hact⟩ := run_bind hact
  obtain ⟨_, y₁, hleave, hact⟩ := run_bind hact
  obtain ⟨_, s₁, hmark, hact⟩ := run_bind hact
  obtain ⟨_, s₂, hhandlers, hact⟩ := run_bind hact
  obtain ⟨handlersEnd, s₃, hnew, hact⟩ := run_bind hact
  obtain ⟨_, s₄, hmark₄, hact⟩ := run_bind hact
  obtain ⟨hlasts₁, h₁⟩ := opened_body hu hpart hbody hstart hend rfl hleave hmark
  obtain ⟨hlasts₂, own, h₂⟩ := opened_handlers hcs hlasts₁.ready h₁
    (fun g hg => absurd hg List.not_mem_nil) hhandlers
  obtain ⟨hstraight₃, hindex, -, -⟩ := straight_newLabel hnew
  obtain ⟨hstraight₄, hmarked, -⟩ := straight_mark hstraight₃ (Nat.le_of_eq hindex.symm) hmark₄
  have hlasts₄ := (hlasts₁.trans hlasts₂).trans (.straight hlasts₂.ready hstraight₄)
  have h₄ := (h₂.append (.of_straight hlasts₂.ready.knows.size hstraight₄.builder)
    fun g hg => absurd hg List.not_mem_nil).subset (fun m hm => List.mem_append_left _ hm) h₂.cut
  -- Behind the handlers, or behind the fault block, only the finally block is left.
  have hlast : ∀ {w coveredEnd parts own}, S.Lasts s w →
      Opened S p part s₁.builder.position s.builder w.builder [s₁.builder.position] parts own →
      w.builder.labels[coveredEnd.index]? = some (some w.builder.position) →
      (finallyBlock.elim (pure ()) fun block => do
        let _ ← unwindBlock block .finally coveredEnd p
        pure ()).run setting w = .ok () v →
      S.Lasts s v ∧ ∃ more, Opened S p part s₁.builder.position s.builder v.builder
        [s₁.builder.position] (parts ++ finallyBlock.toList.map .finally) (own ++ more) := by
    intro w coveredEnd parts own hlasts hw hcovered hrun
    clear hact
    cases finallyBlock with
    | some block =>
        obtain ⟨finish, w₁, hunwind, hpure⟩ := run_bind hrun
        cases hpure
        obtain ⟨hthen, -, g, hv⟩ := opened_unwindBlock hlasts.ready hw (hfinally block List.mem_cons_self)
          (fun _ => .finally) (fun _ => rfl) (fun _ _ hkind hstands => .finally hkind hstands) hcovered
          hunwind
        exact ⟨hlasts.trans hthen, [g], hv⟩
    | none =>
        cases hrun
        exact ⟨hlasts, [], by simpa using hw⟩
  cases faultBlock with
  | some block =>
      obtain ⟨finish, s₅, hunwind, hact⟩ := run_bind hact
      obtain ⟨hthen, hcovered, g, h₅⟩ := opened_unwindBlock hlasts₄.ready h₄ (hfault block List.mem_cons_self)
        (fun _ => .fault) (fun _ => rfl) (fun _ _ hkind hstands => .fault hkind hstands) hmarked hunwind
      obtain ⟨hlasts, more, hv⟩ := hlast ⟨hthen.ready, hthen.labels.trans hlasts₄.labels⟩ h₅ hcovered
        (by cases finallyBlock <;> exact hact)
      exact ⟨hlasts.labels, _, _, by simpa [ExprKind.clauses] using hv⟩
  | none =>
      obtain ⟨_, s₅, hpure, hact⟩ := run_bind hact
      cases hpure
      obtain ⟨hlasts, more, hv⟩ := hlast ⟨hlasts₄.ready, hlasts₄.labels⟩ h₄ hmarked
        (by cases finallyBlock <;> exact hact)
      exact ⟨hlasts.labels, _, _, by simpa [ExprKind.clauses] using hv⟩

/-! ## Protected blocks -/

/-- The code of a protected block, and what is emitted behind its end. -/
theorem sealsOff_regions {α : Type} {own : List Label} {exit : Option Label} {part : Node}
    {cs : List (CatchBlock Node)} {finallyBlock faultBlock : Option Node}
    (hparts : S.parts part (ExprKind.tryCatch part cs finallyBlock faultBlock).clauses)
    (hpart : part.Keeps (sealing S))
    (hcs : ∀ c ∈ cs, c.body.Keeps (sealing S) ∧ ∀ n ∈ c.filter.toList, n.Keeps (sealing S))
    (hfinally : ∀ n ∈ finallyBlock.toList, n.Keeps (sealing S))
    (hfault : ∀ n ∈ faultBlock.toList, n.Keeps (sealing S)) {ty : Ty} {result : Option Nat} {slot : Nat}
    {rest : Emit α} (hrest : ∀ own : List Label, (sealing S).Ok own exit rest) :
    (sealing S).Ok own exit (do
      let bodyStart ← newLabel
      let bodyEnd ← newLabel
      let done ← newLabel
      instr (.markStack slot)
      mark bodyStart
      regions part cs finallyBlock faultBlock ⟨ty, result, slot, bodyStart, bodyEnd, done⟩
      mark done
      rest) := by
  intro setting s t a hrun hs
  obtain ⟨bodyStart, s₁, hnew₁, hrun⟩ := run_bind hrun
  obtain ⟨bodyEnd, s₂, hnew₂, hrun⟩ := run_bind hrun
  obtain ⟨done, s₃, hnew₃, hrun⟩ := run_bind hrun
  obtain ⟨_, s₄, hinstr, hrun⟩ := run_bind hrun
  obtain ⟨_, u, hmark, hrun⟩ := run_bind hrun
  obtain ⟨_, v, hregions, hrun⟩ := run_bind hrun
  obtain ⟨hstraight₁, hindex₁, hlt₁, -⟩ := straight_newLabel hnew₁
  obtain ⟨hstraight₂, hindex₂, hlt₂, -⟩ := straight_newLabel hnew₂
  obtain ⟨hstraight₃, hindex₃, hlt₃, -⟩ := straight_newLabel hnew₃
  have hsize₁ := hstraight₁.builder.size
  have hsize₂ := hstraight₂.builder.size
  have hsize₃ := hstraight₃.builder.size
  have hsize₄ := (Emit.grows _ hinstr).labels
  have hsize₅ := (Emit.grows _ hmark).labels
  have hbefore := ((hstraight₁.trans hstraight₂).trans hstraight₃).trans (straight_instr rfl hinstr)
  obtain ⟨hstraight, hstart, hposition⟩ := straight_mark hbefore (Nat.le_of_eq hindex₁.symm) hmark
  have hlt : s.builder.position < u.builder.position := by
    have := ((hstraight₁.trans hstraight₂).trans hstraight₃).builder.position_le
    rw [hposition]
    cases hinstr
    simpa [Builder.emit, Builder.position, Nat.lt_succ_iff] using this
  have hsize : S.labels ≤ s.builder.labels.size := hs.knows.size
  have hfresh : s.builder.labels.size ≤ bodyEnd.index ∧ bodyEnd.index < u.builder.labels.size := by omega
  have hu : S.Ready u [] none := by
    refine ⟨⟨by omega, fun l hl => by simp at hl⟩, ?_⟩
    rw [hstraight.labels]
    exact hs.table
  obtain ⟨hlabels, last, regions, hopened⟩ :=
    opened_regions hpart hcs hfinally hfault hu hstart hfresh.2 hregions
  obtain ⟨added, hstretch, hown⟩ := hopened.stretch
  have hgroup : S.Grouped v.builder.code (added.filter (·.tryStart == u.builder.position)) := by
    refine ⟨part, _, hparts, fun g hg => ?_, hown ▸ hopened.fits⟩
    obtain ⟨-, hfirst⟩ := List.mem_filter.mp hg
    rw [eq_of_beq hfirst]
    exact hopened.stands.mono (hopened.covers g (hown ▸ hg))
  have hunmarked : v.builder.labels[done.index]? = some none := by
    obtain ⟨_, w, hdone, -⟩ := run_bind hrun
    simp only [Emit.mark] at hdone
    split at hdone
    · next hmarked => exact (markLabel_eq hmarked).1
    · cases hdone
  have hsealed : Sealed S own exit [done] s.builder v.builder added :=
    hstretch.toSealed hstraight.builder hlt hs.knows (List.forall_mem_singleton.mpr hfresh.1) (by omega)
      (by omega) hunmarked hgroup
  have hseals : S.Seals own exit [done] s v := ⟨⟨added, hsealed⟩, hlabels.trans hstraight.labels⟩
  obtain ⟨hthen, -⟩ := Policy.seq ((sealing S).mark List.mem_cons_self) (fun _ => hrest _) _ _ _ _ hrun
    (hs.after hseals)
  exact ⟨hseals.trans hs hthen, trivial⟩

/-- A protected block whose parts are fine is sealed off if its parts are. -/
theorem protects_sealing {part : Node} {cs : List (CatchBlock Node)}
    {finallyBlock faultBlock : Option Node} {ty : Ty}
    (hparts : S.parts part (ExprKind.tryCatch part cs finallyBlock faultBlock).clauses) :
    (sealing S).Protects part cs finallyBlock faultBlock ty :=
  fun hpart hcs hfinally hfault _ _ =>
    Policy.tryCatch fun _ _ hrest => sealsOff_regions hparts hpart hcs hfinally hfault hrest

end Emit

end Arbor
