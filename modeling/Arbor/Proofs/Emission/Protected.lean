/-
  Protected blocks keep to the numbering of labels.

  The body of a protected block, its handlers and its fault and finally blocks
  are emitted one after the other, one block deeper than what is around them, and
  each handler adds its region when it is complete.  Only the code that zeroes the
  variable of a handler stands between the parts; it neither jumps nor marks
  labels of the tree.
-/
import Arbor.Proofs.Emission.Nesting

set_option autoImplicit false

namespace Arbor

/-- The position lies in the body of a block or in a handler of it. -/
def Parted (first bodyEnd : Nat) (own : Block) (p : Nat) : Prop :=
  first ≤ p ∧ p < bodyEnd ∨ own.any (·.handlerContains p) = true

namespace Parted

variable {first bodyEnd p : Nat} {own more : Block}

theorem append (h : Parted first bodyEnd own p) : Parted first bodyEnd (own ++ more) p :=
  h.imp_right fun h => by rw [List.any_append, h, Bool.true_or]

theorem last {g : Region Nat} (h : g.handlerContains p = true) : Parted first bodyEnd (own ++ [g]) p :=
  .inr (by simp [h])

theorem covers {last : Nat} (h : Parted first bodyEnd own p)
    (hchain : Chained first bodyEnd last own) : own.covers p = true := by
  rcases h with ⟨hfirst, hend⟩ | h
  · exact hchain.covers_body hfirst hend
  · rw [Block.covers, h, Bool.true_or]

end Parted

namespace Builder

/-- A block from the start of its body on, up to the end of a part: the blocks in it, all regions that
were added, and its own regions among them. -/
structure Building (depths : List Nat) (depth : Nat) (b c : Builder) (bodyEnd : Nat)
    (blocks : List Block) (added : List (Region Nat)) (own : Block) : Prop
    extends Builder.Extends b c where
  body : b.position < bodyEnd
  chain : Chained b.position bodyEnd c.position own
  within : ∀ k ∈ blocks, ∀ p, k.touches p = true → b.position ≤ p ∧ p < c.position
  settled : ∀ k ∈ blocks, k.Settled
  jumps : ∀ p i n : Nat, depths[i]? = some n → b.position ≤ p → c.code[p]? = some (.jump ⟨i⟩) →
    Parted b.position bodyEnd own p ∧ Clear blocks p ∧ depth + depthIn blocks p ≤ n
  marked : ∀ i n q : Nat, depths[i]? = some n → c.labels[i]? = some (some q) →
    b.labels[i]? = some (some q) ∨
      (Parted b.position bodyEnd own q ∧ Clear blocks q ∧ n = depth + depthIn blocks q)
  regions : ∃ new, c.regions.toList = b.regions.toList ++ new ∧
    List.Forall₂ (Region.Resolves c.labels) new added
  members : ∀ g, g ∈ added ↔ (∃ k ∈ blocks, g ∈ k) ∨ g ∈ own
  proper : ∀ g ∈ added, g.Proper
  ordered : added.Pairwise Region.Precedes
  /-- The body of a region in the block lies in the body of the block or behind it. -/
  sided : ∀ k ∈ blocks, ∀ g ∈ k, (∀ p, g.tryContains p = true → p < bodyEnd) ∨
    ∀ p, g.tryContains p = true → bodyEnd ≤ p

namespace Building

variable {depths : List Nat} {depth bodyEnd : Nat} {b c x e : Builder} {blocks more : List Block}
  {added further : List (Region Nat)} {own : Block}

/-- The body of a block. -/
theorem start (h : Layered depths depth b x blocks added) (k : Quiet depths x c)
    (hlt : x.position < c.position) : Building depths depth b c c.position blocks added [] where
  toExtends := h.toExtends.trans k.toExtends
  body := Nat.lt_of_le_of_lt h.position_le hlt
  chain := .body (Nat.le_refl _)
  within y hy p hp := by
    have := h.within y hy p hp
    omega
  settled := h.settled
  jumps p i n hi hp hcode := by
    rcases Nat.lt_or_ge p x.position with hp' | hp'
    · rw [k.getElem?_code hp'] at hcode
      exact ⟨.inl ⟨hp, by omega⟩, h.jumps p i n hi hp hcode⟩
    · exact absurd hcode (k.jumps p i n hi hp')
  marked i n q hi hq := by
    rcases h.marked i n q hi (k.unmarked i n q hi hq) with hold | ⟨hge, hle, hnew⟩
    · exact .inl hold
    · exact .inr ⟨.inl ⟨hge, by omega⟩, hnew⟩
  regions := by
    obtain ⟨new, hnew, hresolved⟩ := h.regions
    exact ⟨new, by rw [k.regions, hnew], hresolved.imp fun _ _ hg => hg.mono k.marks⟩
  members g := by simp [h.members]
  proper := h.proper
  ordered := h.ordered
  sided y hy g hg := by
    refine .inl fun p hp => ?_
    have := h.within y hy p (Block.touches_of_mem hg (by simp [Region.touches, hp]))
    omega

/-- Code between two parts. -/
theorem quiet (h : Building depths depth b c bodyEnd blocks added own) (k : Quiet depths c e) :
    Building depths depth b e bodyEnd blocks added own where
  toExtends := h.toExtends.trans k.toExtends
  body := h.body
  chain := h.chain.mono k.position_le
  within y hy p hp := by
    have := h.within y hy p hp
    have := k.position_le
    omega
  settled := h.settled
  jumps p i n hi hp hcode := by
    rcases Nat.lt_or_ge p c.position with hp' | hp'
    · rw [k.getElem?_code hp'] at hcode
      exact h.jumps p i n hi hp hcode
    · exact absurd hcode (k.jumps p i n hi hp')
  marked i n q hi hq := h.marked i n q hi (k.unmarked i n q hi hq)
  regions := by
    obtain ⟨new, hnew, hresolved⟩ := h.regions
    exact ⟨new, by rw [k.regions, hnew], hresolved.imp fun _ _ hg => hg.mono k.marks⟩
  members := h.members
  proper := h.proper
  ordered := h.ordered
  sided := h.sided

/-- The blocks so far have no part behind the last one. -/
theorem right (h : Building depths depth b c bodyEnd blocks added own) (more : List Block) {p : Nat}
    (hp : c.position ≤ p) :
    (Clear (blocks ++ more) p ↔ Clear more p) ∧ depthIn (blocks ++ more) p = depthIn more p := by
  have hnone : ∀ k ∈ blocks, k.touches p = false := by
    intro k hk
    refine Bool.eq_false_iff.mpr fun htouches => ?_
    have := h.within k hk p htouches
    omega
  rw [clear_append, depthIn_append, depthIn_of_not_touches h.settled hnone]
  exact ⟨and_iff_right (clear_of_not_touches hnone), Nat.zero_add _⟩

theorem bounds_of_mem (h : Building depths depth b c bodyEnd blocks added own) {g : Region Nat}
    (hg : g ∈ added) {p : Nat} (hp : g.touches p = true) : b.position ≤ p ∧ p < c.position := by
  rcases (h.members g).mp hg with ⟨k, hk, hmem⟩ | hmem
  · exact h.within k hk p (Block.touches_of_mem hmem hp)
  · exact h.chain.bounds_of_touches (Nat.le_of_lt h.body) (Block.touches_of_mem hmem hp)

/-- A further region of the block is around those so far, where they meet. -/
theorem precedes_of_mem (h : Building depths depth b c bodyEnd blocks added own) {g : Region Nat}
    (hstart : g.tryStart = b.position) (hend : g.tryEnd = bodyEnd ∨ g.tryEnd = c.position)
    (hfirst : g.handlerFirst = c.position) (hown : ∀ k ∈ own, k.tryEnd ≤ g.tryEnd) :
    ∀ k ∈ added, k.Precedes g := by
  intro k hk
  have hbodyEnd := h.chain.bounds.1
  obtain ⟨hbody, hbehind, -⟩ := h.proper k hk
  have hbounds : ∀ q, k.tryContains q = true → b.position ≤ q ∧ q < c.position :=
    fun q hq => h.bounds_of_mem hk (by simp [Region.touches, hq])
  refine ⟨fun p hp hp' q hq => ?_, Bool.eq_false_iff.mpr fun hp => ?_, fun hp => ?_⟩
  · have hq' := hbounds q hq
    rcases (h.members k).mp hk with ⟨y, hy, hmem⟩ | hmem
    · rw [Region.tryContains_iff] at hp' ⊢
      rcases h.sided y hy k hmem with hside | hside
      · have := hside q hq
        omega
      · have := hside p hp
        omega
    · have := hown k hmem
      rw [Region.tryContains_iff] at hq ⊢
      omega
  · have := hbounds _ hp
    omega
  · have := hbounds k.tryStart (Region.tryContains_iff.mpr (by omega))
    rw [Region.tryContains_iff] at hp
    omega

/-- A further part with its region. -/
theorem part (h : Building depths depth b c bodyEnd blocks added own)
    (k : Layered depths depth c x more further) (m : Quiet depths x e)
    (hlt : x.position < e.position) {r : Region Label} {g : Region Nat}
    (hresolves : r.Resolves e.labels g) (hfirst : g.handlerFirst = c.position)
    (hlast : g.handlerEnd = e.position) (hstart : g.tryStart = b.position)
    (hend : g.tryEnd = bodyEnd ∨ g.tryEnd = c.position) (hown : ∀ k ∈ own, k.tryEnd ≤ g.tryEnd) :
    Building depths depth b (e.addRegion r) bodyEnd (blocks ++ more) (added ++ (further ++ [g]))
      (own ++ [g]) := by
  have hbody := h.body
  have hce := h.chain.bounds.1
  have hcx := k.position_le
  have hprecedes := h.precedes_of_mem hstart hend hfirst hown
  have hproper : g.Proper := ⟨by omega, by omega, by omega⟩
  have hpart : ∀ {p}, c.position ≤ p → p ≤ x.position → g.handlerContains p = true := by
    intro p hp hp'
    rw [Region.handlerContains_iff]
    omega
  refine ⟨?_, h.body, ?_, ?_, ?_, ?_, ?_, ?_, ?_, ?_, ?_, ?_⟩
  · have hextends := (h.toExtends.trans k.toExtends).trans m.toExtends
    exact ⟨hextends.code, hextends.marks⟩
  · exact .part h.chain hstart (by omega) (by omega) (by omega) (by omega) (Nat.le_of_eq hlast)
  · refine List.forall_mem_append.mpr ⟨fun y hy p hp => ?_, fun y hy p hp => ?_⟩
    · have := h.within y hy p hp
      exact ⟨this.1, by change p < e.position; omega⟩
    · have := k.within y hy p hp
      have := h.position_le
      exact ⟨by omega, by change p < e.position; omega⟩
  · exact List.forall_mem_append.mpr ⟨h.settled, k.settled⟩
  · intro p i n hi hp hcode
    have hcode : e.code[p]? = some (.jump ⟨i⟩) := hcode
    rcases Nat.lt_or_ge p x.position with hpx | hpx
    · rw [m.getElem?_code hpx] at hcode
      rcases Nat.lt_or_ge p c.position with hpc | hpc
      · rw [k.getElem?_code hpc] at hcode
        obtain ⟨hparted, hrest⟩ := h.jumps p i n hi hp hcode
        obtain ⟨hclear, hdepth⟩ := k.left blocks (.inl (Nat.le_of_lt hpc))
        rw [hclear, hdepth]
        exact ⟨hparted.append, hrest⟩
      · obtain ⟨hclear, hdepth⟩ := h.right more hpc
        rw [hclear, hdepth]
        exact ⟨.last (hpart hpc (Nat.le_of_lt hpx)), k.jumps p i n hi hpc hcode⟩
    · exact absurd hcode (m.jumps p i n hi hpx)
  · intro i n q hi hq
    rcases k.marked i n q hi (m.unmarked i n q hi hq) with hold | ⟨hge, hle, hnew⟩
    · rcases h.marked i n q hi hold with hold | ⟨hparted, hrest⟩
      · exact .inl hold
      · have hq : q ≤ c.position := by
          have hcovers := h.chain
          rcases hparted with hparted | hparted
          · omega
          · obtain ⟨y, hy, hyq⟩ := List.any_eq_true.mp hparted
            have := hcovers.bounds.2 y hy
            rw [Region.handlerContains_iff] at hyq
            omega
        obtain ⟨hclear, hdepth⟩ := k.left blocks (.inl hq)
        rw [hclear, hdepth]
        exact .inr ⟨hparted.append, hrest⟩
    · obtain ⟨hclear, hdepth⟩ := h.right more hge
      rw [hclear, hdepth]
      exact .inr ⟨.last (hpart hge hle), hnew⟩
  · obtain ⟨first, hfirst, hresolved⟩ := h.regions
    obtain ⟨second, hsecond, hthen⟩ := k.regions
    refine ⟨first ++ (second ++ [r]), ?_, ?_⟩
    · simp only [addRegion, Array.toList_push, m.regions, hsecond, hfirst, List.append_assoc]
    · refine List.rel_append ?_ (List.rel_append ?_ (.cons hresolves .nil))
      · exact hresolved.imp fun _ _ hg => (hg.mono k.marks).mono m.marks
      · exact hthen.imp fun _ _ hg => hg.mono m.marks
  · intro y
    simp only [List.mem_append, List.mem_singleton, h.members, k.members]
    constructor
    · rintro ((⟨z, hz, hy⟩ | hy) | ⟨z, hz, hy⟩ | hy)
      · exact .inl ⟨z, .inl hz, hy⟩
      · exact .inr (.inl hy)
      · exact .inl ⟨z, .inr hz, hy⟩
      · exact .inr (.inr hy)
    · rintro (⟨z, hz | hz, hy⟩ | hy | hy)
      · exact .inl (.inl ⟨z, hz, hy⟩)
      · exact .inr (.inl ⟨z, hz, hy⟩)
      · exact .inl (.inr hy)
      · exact .inr (.inr hy)
  · refine List.forall_mem_append.mpr ⟨h.proper, List.forall_mem_append.mpr ⟨k.proper, ?_⟩⟩
    exact List.forall_mem_singleton.mpr hproper
  · have hlast : ∀ y ∈ further, y.Precedes g := by
      intro y hy
      have hbounds : ∀ p, y.touches p = true → c.position < p :=
        fun p hp => (k.bounds_of_mem hy hp).1
      refine ⟨fun p hp hp' => ?_, Bool.eq_false_iff.mpr fun hp => ?_, fun hp => ?_⟩
      · have := hbounds p (by simp [Region.touches, hp])
        rw [Region.tryContains_iff] at hp'
        omega
      · have := hbounds g.handlerFirst (by simp [Region.touches, hp])
        omega
      · have := (k.proper y hy).handler
        have := hbounds y.handlerFirst (Region.touches_iff.mpr (by omega))
        rw [Region.tryContains_iff] at hp
        omega
    refine List.pairwise_append.mpr ⟨h.ordered, List.pairwise_append.mpr
      ⟨k.ordered, List.pairwise_singleton _ _, fun y hy z hz => ?_⟩, fun y hy z hz => ?_⟩
    · rw [List.mem_singleton.mp hz]
      exact hlast y hy
    · rcases List.mem_append.mp hz with hz | hz
      · exact Region.precedes_of_apart (h.proper y hy) (k.proper z hz)
          (fun p hp => (h.bounds_of_mem hy hp).2) fun p hp => Nat.le_of_lt (k.bounds_of_mem hz hp).1
      · rw [List.mem_singleton.mp hz]
        exact hprecedes y hy
  · refine List.forall_mem_append.mpr ⟨h.sided, fun y hy z hz => .inr fun p hp => ?_⟩
    have := k.within y hy p (Block.touches_of_mem hz (by simp [Region.touches, hp]))
    omega

/-- A complete block behind the code in front of it. -/
theorem close (h : Building depths (depth + 1) b c bodyEnd blocks added own) (hown : own ≠ [])
    (k : Quiet depths e b) (hlt : e.position < b.position) :
    Layered depths depth e c (own :: blocks) added where
  toExtends := k.toExtends.trans h.toExtends
  within := by
    refine List.forall_mem_cons.mpr ⟨fun p hp => ?_, fun y hy p hp => ?_⟩
    · have := h.chain.bounds_of_touches (Nat.le_of_lt h.body) hp
      omega
    · have := h.within y hy p hp
      omega
  settled := List.forall_mem_cons.mpr ⟨h.chain.settled (Nat.le_of_lt h.body) hown, h.settled⟩
  jumps p i n hi hp hcode := by
    rcases Nat.lt_or_ge p b.position with hp' | hp'
    · rw [h.getElem?_code hp'] at hcode
      exact absurd hcode (k.jumps p i n hi hp)
    · obtain ⟨hparted, hclear, hdepth⟩ := h.jumps p i n hi hp' hcode
      have hcovers := hparted.covers h.chain
      refine ⟨List.forall_mem_cons.mpr ⟨fun _ => hcovers, hclear⟩, ?_⟩
      rw [depthIn_cons hcovers]
      omega
  marked i n q hi hq := by
    rcases h.marked i n q hi hq with hold | ⟨hparted, hclear, hdepth⟩
    · exact .inl (k.unmarked i n q hi hold)
    · have hcovers := hparted.covers h.chain
      have hsettled := h.chain.settled (Nat.le_of_lt h.body) hown
      have hbounds := h.chain.bounds_of_touches (Nat.le_of_lt h.body) (hsettled.touches_of_covers hcovers)
      refine .inr ⟨by omega, by omega, List.forall_mem_cons.mpr ⟨fun _ => hcovers, hclear⟩, ?_⟩
      rw [depthIn_cons hcovers]
      omega
  regions := by
    obtain ⟨new, hnew, hresolved⟩ := h.regions
    exact ⟨new, by rw [hnew, k.regions], hresolved⟩
  members g := by
    simp only [h.members, List.mem_cons, exists_eq_or_imp]
    exact or_comm
  proper := h.proper
  ordered := h.ordered

end Building

end Builder

/-! ## Emission of the parts -/

namespace Emit

variable {N : Numbering} {depth bodyEnd : Nat} {setting : Setting} {u s t x y : Emission}
  {p : ProtectedBlock} {own : Block}

/-- A protected block from the state at the start of its body on, with its own regions so far. -/
structure Builds (N : Numbering) (depth : Nat) (u : Emission) (p : ProtectedBlock) (bodyEnd : Nat)
    (s : Emission) (own : Block) : Prop where
  building : ∃ blocks added,
    Builder.Building N.depths depth u.builder s.builder bodyEnd blocks added own
  bodyStart : s.builder.labels[p.bodyStart.index]? = some (some u.builder.position)
  bodyEnd : s.builder.labels[p.bodyEnd.index]? = some (some bodyEnd)
  ready : N.Ready s
  depth : s.tryDepth = depth
  units : ∀ R ∈ s.units, R ∈ u.units ∨ N.unit R

theorem run_newLabel {l : Label} (hready : N.Ready s) (h : newLabel.run setting s = .ok l t) :
    Hushed N.depths s t ∧ N.depths[l.index]? = none ∧ t.builder.position = s.builder.position := by
  obtain ⟨hushed, hl⟩ := (quiet N.depths).newLabel _ _ _ _ hready.size h
  cases h
  exact ⟨hushed, hl, rfl⟩

theorem run_mark {l : Label} (hready : N.Ready s) (hl : N.depths[l.index]? = none)
    (h : (mark l).run setting s = .ok () t) :
    Hushed N.depths s t ∧ t.builder.labels[l.index]? = some (some s.builder.position) ∧
      t.builder.position = s.builder.position := by
  obtain ⟨hushed, -⟩ := (quiet N.depths).mark hl _ _ _ _ hready.size h
  simp only [Emit.mark] at h
  split at h
  · next hmark =>
      cases h
      exact ⟨hushed, Builder.getElem?_markLabel hmark⟩
  · cases h

namespace Builds

/-- Code between the parts. -/
theorem hushed (h : Builds N depth u p bodyEnd s own) (k : Hushed N.depths s t) (hgrows : s.Grows t) :
    Builds N depth u p bodyEnd t own where
  building := by
    obtain ⟨blocks, added, hbuilding⟩ := h.building
    exact ⟨blocks, added, hbuilding.quiet k.builder⟩
  bodyStart := hgrows.marks _ _ h.bodyStart
  bodyEnd := hgrows.marks _ _ h.bodyEnd
  ready := h.ready.of_grows k.labels hgrows
  depth := hgrows.tryDepth.trans h.depth
  units := by
    rw [k.units]
    exact h.units

/-- The end of a part, behind the code from `x` to `y`, which adds its region. -/
theorem closePart (h : Builds N depth u p bodyEnd x own) (hkeeps : N.Keeps depth x y)
    (hgrows : x.Grows y) {i : Instr} (hi : i.isJump = false) {coveredEnd start finish : Label}
    {kind : RegionKind Label} {kind' : RegionKind Nat} {tryEnd handlerStart : Nat}
    (hfinish : N.depths[finish.index]? = none)
    (hstart : y.builder.labels[start.index]? = some (some handlerStart))
    (hkind : kind.Resolves y.builder.labels kind') (hfirst : kind'.first handlerStart = x.builder.position)
    (hcovered : y.builder.labels[coveredEnd.index]? = some (some tryEnd))
    (htry : tryEnd = bodyEnd ∨ tryEnd = x.builder.position) (hown : ∀ g ∈ own, g.tryEnd ≤ tryEnd)
    {y₁ y₂ : Emission} (hinstr : (instr i).run setting y = .ok () y₁)
    (hmark : (mark finish).run setting y₁ = .ok () y₂)
    (hregion : (addRegion ⟨p.bodyStart, coveredEnd, start, finish, kind, p.depth⟩).run setting y₂ =
      .ok () t) :
    ∃ g, Builds N depth u p bodyEnd t (own ++ [g]) ∧ g.tryEnd = tryEnd ∧
      t.builder.labels[finish.index]? = some (some t.builder.position) := by
  obtain ⟨blocks, added, hbuilding⟩ := h.building
  obtain ⟨more, further, hlayered⟩ := hkeeps.builder
  have hready := h.ready.of_grows hkeeps.labels hgrows
  obtain ⟨hushed₁, -⟩ := (quiet N.depths).instr hi _ _ _ _ hready.size hinstr
  have hgrows₁ := Emit.grows _ hinstr
  obtain ⟨hushed₂, hmarked, hposition⟩ :=
    run_mark (hready.of_grows hushed₁.labels hgrows₁) hfinish hmark
  have hgrows₂ := hgrows₁.trans (Emit.grows _ hmark)
  have hlt : y.builder.position < y₂.builder.position := by
    rw [hposition]
    cases hinstr
    simp [Builder.emit, Builder.position]
  rw [← hposition] at hmarked
  have hresolves : Region.Resolves y₂.builder.labels
      ⟨p.bodyStart, coveredEnd, start, finish, kind, p.depth⟩
      ⟨u.builder.position, tryEnd, handlerStart, y₂.builder.position, kind', p.depth⟩ :=
    ⟨hgrows₂.marks _ _ (hgrows.marks _ _ h.bodyStart), hgrows₂.marks _ _ hcovered,
      hgrows₂.marks _ _ hstart, hmarked, hkind.mono hgrows₂.marks, rfl⟩
  have hpart := hbuilding.part hlayered (hushed₁.trans hushed₂).builder hlt hresolves hfirst rfl rfl
    htry hown
  have hready₂ := hready.of_grows (hushed₁.trans hushed₂).labels hgrows₂
  have hunits : ∀ R ∈ y₂.units, R ∈ u.units ∨ N.unit R := by
    rw [(hushed₁.trans hushed₂).units]
    exact fun R hR => (hkeeps.units R hR).elim (h.units R) .inr
  cases hregion
  refine ⟨_, ⟨⟨_, _, hpart⟩, ?_, ?_, ⟨hready₂.labels, hready₂.size⟩, ?_, hunits⟩, rfl, hmarked⟩
  · exact hgrows₂.marks _ _ (hgrows.marks _ _ h.bodyStart)
  · exact hgrows₂.marks _ _ (hgrows.marks _ _ h.bodyEnd)
  · exact hgrows₂.tryDepth.trans (hgrows.tryDepth.trans h.depth)

/-- The start of a handler behind its filter block, if it has one, and the handler itself. -/
theorem handlerTail (h : Builds N depth u p bodyEnd x own) (hkeeps : N.Keeps depth x y)
    (hgrows : x.Grows y) {c : CatchBlock Node} (hbody : c.body.Obeys (layered N depth))
    {kind : RegionKind Label} {kind' : RegionKind Nat} (hkind : kind.Resolves y.builder.labels kind')
    (hfirst : kind'.first y.builder.position = x.builder.position)
    (hown : ∀ g ∈ own, g.tryEnd = bodyEnd)
    (hrun : (handlerRest c p kind).run setting y = .ok () t) :
    ∃ g, Builds N depth u p bodyEnd t (own ++ [g]) ∧ g.tryEnd = bodyEnd := by
  have hready := h.ready.of_grows hkeeps.labels hgrows
  have hdepth := hgrows.tryDepth.trans h.depth
  obtain ⟨start, y₁, hnew₁, hrun⟩ := run_bind hrun
  obtain ⟨hushed₁, hstart, hposition₁⟩ := run_newLabel hready hnew₁
  have hgrows₁ := Emit.grows _ hnew₁
  have hready₁ := hready.of_grows hushed₁.labels hgrows₁
  obtain ⟨finish, y₂, hnew₂, hrun⟩ := run_bind hrun
  obtain ⟨hushed₂, hfinish, hposition₂⟩ := run_newLabel hready₁ hnew₂
  have hgrows₂ := Emit.grows _ hnew₂
  have hready₂ := hready₁.of_grows hushed₂.labels hgrows₂
  obtain ⟨_, y₃, hmark, hrun⟩ := run_bind hrun
  obtain ⟨hushed₃, hmarked, -⟩ := run_mark hready₂ hstart hmark
  have hgrows₃ := (hgrows₁.trans hgrows₂).trans (Emit.grows _ hmark)
  have hushed := (hushed₁.trans hushed₂).trans hushed₃
  have hready₃ := hready.of_grows hushed.labels hgrows₃
  obtain ⟨_, y₄, hstore, hrun⟩ := run_bind hrun
  have hgrows₄ := Emit.grows _ hstore
  obtain ⟨hkeeps₄, -⟩ := (Discipline.storeException : (layered N depth).Ok _) _ _ _ _ hready₃
    (hgrows₃.tryDepth.trans hdepth) hstore
  obtain ⟨_, y₅, hpart, hrun⟩ := run_bind hrun
  have hgrows₅ := Emit.grows _ hpart
  obtain ⟨hkeeps₅, -⟩ := Discipline.protectedPart hbody _ _ _ _
    (hready₃.of_grows hkeeps₄.labels hgrows₄)
    ((hgrows₃.trans hgrows₄).tryDepth.trans hdepth) hpart
  have hall := hgrows₃.trans (hgrows₄.trans hgrows₅)
  obtain ⟨_, y₆, hleave, hrun⟩ := run_bind hrun
  obtain ⟨_, y₇, hend, hregion⟩ := run_bind hrun
  have hkeepsAll := hkeeps.trans ((Numbering.Keeps.of_hushed hushed).trans (hkeeps₄.trans hkeeps₅))
  obtain ⟨g, hbuilds, htry, -⟩ := h.closePart hkeepsAll (hgrows.trans hall) rfl hfinish
    ((hgrows₄.trans hgrows₅).marks _ _ hmarked) (hkind.mono hall.marks)
    (by rw [hposition₂, hposition₁, hfirst]) ((hgrows.trans hall).marks _ _ h.bodyEnd) (.inl rfl)
    (fun g hg => Nat.le_of_eq (hown g hg)) hleave hend hregion
  exact ⟨g, hbuilds, htry⟩

/-- A filter block and its handler. -/
theorem filtered (h : Builds N depth u p bodyEnd s own) {c : CatchBlock Node} {filter : Node}
    (hbody : c.body.Obeys (layered N depth)) (hfilter : filter.Obeys (layered N depth))
    (hown : ∀ g ∈ own, g.tryEnd = bodyEnd)
    (hrun : (do
      let start ← newLabel
      mark start
      storeException c.binder
      let _ ← filter.guarded .value
      if filter.ty.isNullable then instr (.optValueOrDefault .bool)
      instr .endFilter
      handlerRest c p (.filter start) : Emit Unit).run setting s = .ok () t) :
    ∃ g, Builds N depth u p bodyEnd t (own ++ [g]) ∧ g.tryEnd = bodyEnd := by
  obtain ⟨start, s₁, hnew, hrun⟩ := run_bind hrun
  obtain ⟨hushed₁, hstart, -⟩ := run_newLabel h.ready hnew
  have h₁ := h.hushed hushed₁ (Emit.grows _ hnew)
  obtain ⟨_, x, hmark, hrun⟩ := run_bind hrun
  obtain ⟨hushed₂, hmarked, hposition⟩ := run_mark h₁.ready hstart hmark
  have hx := h₁.hushed hushed₂ (Emit.grows _ hmark)
  rw [← hposition] at hmarked
  obtain ⟨_, x₁, hstore, hrun⟩ := run_bind hrun
  have hgrows₁ := Emit.grows _ hstore
  obtain ⟨hkeeps₁, -⟩ := (Discipline.storeException : (layered N depth).Ok _) _ _ _ _ hx.ready hx.depth
    hstore
  obtain ⟨_, x₂, hguarded, hrun⟩ := run_bind hrun
  have hgrows₂ := Emit.grows _ hguarded
  obtain ⟨hkeeps₂, -⟩ := hfilter.guarded _ _ _ _ (hx.ready.of_grows hkeeps₁.labels hgrows₁)
    (hgrows₁.tryDepth.trans hx.depth) hguarded
  have hkeeps := hkeeps₁.trans hkeeps₂
  have hgrows := hgrows₁.trans hgrows₂
  -- The verdict of an optional filter is taken out of it; what follows is the same.
  have hrest : ∀ y, N.Keeps depth x y → x.Grows y →
      (instr .endFilter >>= fun _ => handlerRest c p (.filter start)).run setting y = .ok () t →
      ∃ g, Builds N depth u p bodyEnd t (own ++ [g]) ∧ g.tryEnd = bodyEnd := by
    intro y hkeeps hgrows hrun
    obtain ⟨_, y₁, hinstr, hrun⟩ := run_bind hrun
    have hgrows₁ := hgrows.trans (Emit.grows _ hinstr)
    obtain ⟨hushed, -⟩ := (quiet N.depths).instr rfl _ _ _ _
      (hx.ready.of_grows hkeeps.labels hgrows).size hinstr
    exact hx.handlerTail (hkeeps.trans (.of_hushed hushed)) hgrows₁ hbody
      (.filter (hgrows₁.marks _ _ hmarked)) rfl hown hrun
  dsimp only at hrun
  split at hrun
  · obtain ⟨_, x₃, hinstr, hrun⟩ := run_bind hrun
    obtain ⟨hushed, -⟩ := (quiet N.depths).instr rfl _ _ _ _
      (hx.ready.of_grows hkeeps.labels hgrows).size hinstr
    exact hrest x₃ (hkeeps.trans (.of_hushed hushed)) (hgrows.trans (Emit.grows _ hinstr)) hrun
  · exact hrest x₂ hkeeps hgrows hrun

/-- A handler. -/
theorem handler (h : Builds N depth u p bodyEnd s own) {c : CatchBlock Node}
    (hbody : c.body.Obeys (layered N depth)) (hfilter : ∀ n ∈ c.filter.toList, n.Obeys (layered N depth))
    (hown : ∀ g ∈ own, g.tryEnd = bodyEnd) (hrun : (handler c p).run setting s = .ok () t) :
    ∃ g, Builds N depth u p bodyEnd t (own ++ [g]) ∧ g.tryEnd = bodyEnd := by
  obtain ⟨bound, s₁, hbind, hrun⟩ := run_bind hrun
  obtain ⟨hushed, -⟩ := (Discipline.bindLocals : (quiet N.depths).Ok _) _ _ _ _ h.ready.size hbind
  have h₁ := h.hushed hushed (Emit.grows _ hbind)
  simp only [inScope] at hrun
  split at hrun
  case h_2 => cases hrun
  next s₃ hact =>
  cases hrun
  generalize hs₂ : { s₁ with scope := bound.reverse ++ s₁.scope } = s₂ at hact
  have h₂ : Builds N depth u p bodyEnd s₂ own := by
    subst hs₂
    exact ⟨h₁.building, h₁.bodyStart, h₁.bodyEnd, ⟨h₁.ready.labels, h₁.ready.size⟩, h₁.depth, h₁.units⟩
  -- The scope of the handler does not matter to what was built in it.
  suffices hinner : ∃ g, Builds N depth u p bodyEnd s₃ (own ++ [g]) ∧ g.tryEnd = bodyEnd by
    obtain ⟨g, h₃, htry⟩ := hinner
    exact ⟨g, ⟨h₃.building, h₃.bodyStart, h₃.bodyEnd, ⟨h₃.ready.labels, h₃.ready.size⟩, h₃.depth,
      h₃.units⟩, htry⟩
  clear hs₂
  split at hact
  · next filter hsome =>
      rw [hsome] at hfilter
      exact h₂.filtered hbody (hfilter filter List.mem_cons_self) hown hact
  · obtain ⟨kind, y, hpure, hact⟩ := run_bind hact
    cases hpure
    exact h₂.handlerTail (.of_hushed ⟨.refl _, rfl, rfl⟩) (.refl _) hbody (.catch c.ty) rfl hown hact

/-- Handlers. -/
theorem handlers {cs : List (CatchBlock Node)}
    (hcs : ∀ c ∈ cs, c.body.Obeys (layered N depth) ∧ ∀ n ∈ c.filter.toList, n.Obeys (layered N depth))
    (h : Builds N depth u p bodyEnd s own) (hown : ∀ g ∈ own, g.tryEnd = bodyEnd)
    (hrun : (cs.forM fun c => Emit.handler c p).run setting s = .ok () t) :
    ∃ more, Builds N depth u p bodyEnd t (own ++ more) ∧ more.length = cs.length := by
  induction cs generalizing s own with
  | nil =>
      cases hrun
      exact ⟨[], by rwa [List.append_nil], rfl⟩
  | cons c cs ih =>
      obtain ⟨_, s₁, hhandler, hrun⟩ := run_bind hrun
      obtain ⟨hc, hcs⟩ := List.forall_mem_cons.mp hcs
      obtain ⟨g, h₁, htry⟩ := h.handler hc.1 hc.2 hown hhandler
      have hown₁ : ∀ k ∈ own ++ [g], k.tryEnd = bodyEnd :=
        List.forall_mem_append.mpr ⟨hown, List.forall_mem_singleton.mpr htry⟩
      obtain ⟨more, h₂, hlength⟩ := ih hcs h₁ hown₁ hrun
      exact ⟨g :: more, by simpa using h₂, by simp [hlength]⟩

/-- A fault or finally block, which covers everything before it. -/
theorem unwindBlock (h : Builds N depth u p bodyEnd s own) {block : Node}
    (hblock : block.Obeys (layered N depth)) {kind : RegionKind Label} {kind' : RegionKind Nat}
    (hkind : ∀ labels, kind.Resolves labels kind') (hfirst : ∀ q, kind'.first q = q)
    {coveredEnd finish : Label}
    (hcovered : s.builder.labels[coveredEnd.index]? = some (some s.builder.position))
    (hrun : (unwindBlock block kind coveredEnd p).run setting s = .ok finish t) :
    ∃ g, Builds N depth u p bodyEnd t (own ++ [g]) ∧
      t.builder.labels[finish.index]? = some (some t.builder.position) := by
  obtain ⟨start, s₁, hnew₁, hrun⟩ := run_bind hrun
  obtain ⟨hushed₁, hstart, hposition₁⟩ := run_newLabel h.ready hnew₁
  have h₁ := h.hushed hushed₁ (Emit.grows _ hnew₁)
  obtain ⟨finish, s₂, hnew₂, hrun⟩ := run_bind hrun
  obtain ⟨hushed₂, hfinish, hposition₂⟩ := run_newLabel h₁.ready hnew₂
  have h₂ := h₁.hushed hushed₂ (Emit.grows _ hnew₂)
  obtain ⟨_, x, hmark, hrun⟩ := run_bind hrun
  obtain ⟨hushed₃, hmarked, hposition₃⟩ := run_mark h₂.ready hstart hmark
  have hx := h₂.hushed hushed₃ (Emit.grows _ hmark)
  obtain ⟨_, y, hguarded, hrun⟩ := run_bind hrun
  have hgrows := Emit.grows _ hguarded
  obtain ⟨hkeeps, -⟩ := hblock.guarded _ _ _ _ hx.ready hx.depth hguarded
  obtain ⟨_, y₁, hinstr, hrun⟩ := run_bind hrun
  obtain ⟨_, y₂, hend, hrun⟩ := run_bind hrun
  obtain ⟨_, y₃, hregion, hpure⟩ := run_bind hrun
  cases hpure
  rw [← hposition₃] at hmarked
  have hposition : s.builder.position = x.builder.position := by
    rw [hposition₃, hposition₂, hposition₁]
  have hbefore := (((Emit.grows _ hnew₁).trans (Emit.grows _ hnew₂)).trans (Emit.grows _ hmark)).trans
    hgrows
  have hown : ∀ g ∈ own, g.tryEnd ≤ s.builder.position := by
    obtain ⟨blocks, added, hbuilding⟩ := h.building
    intro g hg
    have := hbuilding.chain.bounds.2 g hg
    omega
  obtain ⟨g, hbuilds, -, hlast⟩ := hx.closePart hkeeps hgrows rfl hfinish (hgrows.marks _ _ hmarked)
    (hkind _) (hfirst _) (hbefore.marks _ _ hcovered) (.inr hposition) hown hinstr hend hregion
  exact ⟨g, hbuilds, hlast⟩

/-- The body of a block. -/
theorem body {part : Node} (hpart : part.Obeys (layered N depth)) (hready : N.Ready u)
    (hdepth : u.tryDepth = depth)
    (hstart : u.builder.labels[p.bodyStart.index]? = some (some u.builder.position))
    (hend : N.depths[p.bodyEnd.index]? = none) {y y₁ : Emission}
    (hrun : (protectedPart part p).run setting u = .ok () y)
    (hinstr : (instr (.leave p.done)).run setting y = .ok () y₁)
    (hmark : (mark p.bodyEnd).run setting y₁ = .ok () t) :
    Builds N depth u p t.builder.position t [] := by
  have hgrows := Emit.grows _ hrun
  obtain ⟨hkeeps, -⟩ := Discipline.protectedPart hpart _ _ _ _ hready hdepth hrun
  obtain ⟨blocks, added, hlayered⟩ := hkeeps.builder
  have hready₁ := hready.of_grows hkeeps.labels hgrows
  obtain ⟨hushed₁, -⟩ := (quiet N.depths).instr rfl _ _ _ _ hready₁.size hinstr
  have hgrows₁ := Emit.grows _ hinstr
  obtain ⟨hushed₂, hmarked, hposition⟩ := run_mark (hready₁.of_grows hushed₁.labels hgrows₁) hend hmark
  have hushed := hushed₁.trans hushed₂
  have hall := hgrows.trans (hgrows₁.trans (Emit.grows _ hmark))
  have hlt : y.builder.position < t.builder.position := by
    rw [hposition]
    cases hinstr
    simp [Builder.emit, Builder.position]
  rw [← hposition] at hmarked
  refine ⟨⟨_, _, .start hlayered hushed.builder hlt⟩, hall.marks _ _ hstart, hmarked,
    hready.of_grows (hushed.labels.trans hkeeps.labels) hall, hall.tryDepth.trans hdepth, ?_⟩
  rw [hushed.units]
  exact hkeeps.units

/-- All parts of a block. -/
theorem regions {part : Node} {cs : List (CatchBlock Node)} {finallyBlock faultBlock : Option Node}
    (hpart : part.Obeys (layered N (depth + 1)))
    (hcs : ∀ c ∈ cs, c.body.Obeys (layered N (depth + 1)) ∧
      ∀ n ∈ c.filter.toList, n.Obeys (layered N (depth + 1)))
    (hfinally : ∀ n ∈ finallyBlock.toList, n.Obeys (layered N (depth + 1)))
    (hfault : ∀ n ∈ faultBlock.toList, n.Obeys (layered N (depth + 1)))
    (hready : N.Ready s) (hdepth : s.tryDepth = depth)
    (hstart : s.builder.labels[p.bodyStart.index]? = some (some s.builder.position))
    (hend : N.depths[p.bodyEnd.index]? = none)
    (hrun : (regions part cs finallyBlock faultBlock p).run setting s = .ok () t) :
    ∃ bodyEnd v own, Builds N (depth + 1) { s with tryDepth := s.tryDepth + 1 } p bodyEnd v own ∧
      t = { v with tryDepth := s.tryDepth } ∧
      (own = [] → cs = [] ∧ finallyBlock = none ∧ faultBlock = none) := by
  simp only [Emit.regions, inRegion] at hrun
  split at hrun
  case h_2 => cases hrun
  next v hact =>
  cases hrun
  obtain ⟨u, hu⟩ : ∃ u, u = { s with tryDepth := s.tryDepth + 1 } := ⟨_, rfl⟩
  have hdepth' : u.tryDepth = depth + 1 := by rw [hu, hdepth]
  have hready' : N.Ready u := by
    subst hu
    exact ⟨hready.labels, hready.size⟩
  have hstart' : u.builder.labels[p.bodyStart.index]? = some (some u.builder.position) := by
    subst hu
    exact hstart
  rw [← hu] at hact ⊢
  obtain ⟨_, y, hbody, hact⟩ := run_bind hact
  obtain ⟨_, y₁, hleave, hact⟩ := run_bind hact
  obtain ⟨_, s₁, hmark, hact⟩ := run_bind hact
  have h₁ := body hpart hready' hdepth' hstart' hend hbody hleave hmark
  obtain ⟨_, s₂, hhandlers, hact⟩ := run_bind hact
  obtain ⟨own, h₂, hlength⟩ := handlers hcs h₁ (fun g hg => absurd hg List.not_mem_nil) hhandlers
  obtain ⟨handlersEnd, s₃, hnew, hact⟩ := run_bind hact
  obtain ⟨hushed₃, hlabel, -⟩ := run_newLabel h₂.ready hnew
  have h₃ := h₂.hushed hushed₃ (Emit.grows _ hnew)
  obtain ⟨_, s₄, hmark₄, hact⟩ := run_bind hact
  obtain ⟨hushed₄, hmarked, hposition⟩ := run_mark h₃.ready hlabel hmark₄
  have h₄ := h₃.hushed hushed₄ (Emit.grows _ hmark₄)
  rw [← hposition] at hmarked
  -- Behind the handlers, or behind the fault block, only the finally block is left.
  have hlast : ∀ {w coveredEnd own}, Builds N (depth + 1) u p s₁.builder.position w own →
      w.builder.labels[coveredEnd.index]? = some (some w.builder.position) →
      (finallyBlock.elim (pure ()) fun block => do
        let _ ← Emit.unwindBlock block .finally coveredEnd p
        pure ()).run setting w = .ok () v →
      ∃ more, Builds N (depth + 1) u p s₁.builder.position v (own ++ more) ∧
        (more = [] → finallyBlock = none) := by
    intro w coveredEnd own hw hcovered hrun
    clear hact
    cases finallyBlock with
    | some block =>
        obtain ⟨finish, w₁, hunwind, hpure⟩ := run_bind hrun
        cases hpure
        obtain ⟨g, hv, -⟩ := hw.unwindBlock (hfinally block List.mem_cons_self) (fun _ => .finally)
          (fun _ => rfl) hcovered hunwind
        exact ⟨[g], hv, fun h => absurd h (List.cons_ne_nil _ _)⟩
    | none =>
        cases hrun
        exact ⟨[], by rwa [List.append_nil], fun _ => rfl⟩
  have hnone : own = [] → cs = [] := by
    rintro rfl
    exact List.eq_nil_of_length_eq_zero hlength.symm
  cases faultBlock with
  | some block =>
      obtain ⟨finish, s₅, hunwind, hact⟩ := run_bind hact
      obtain ⟨g, h₅, hcovered⟩ := h₄.unwindBlock (hfault block List.mem_cons_self) (fun _ => .fault)
        (fun _ => rfl) hmarked hunwind
      obtain ⟨more, hv, -⟩ := hlast h₅ hcovered (by cases finallyBlock <;> exact hact)
      refine ⟨_, v, _, hv, rfl, fun hempty => ?_⟩
      simp at hempty
  | none =>
      obtain ⟨_, s₅, hpure, hact⟩ := run_bind hact
      cases hpure
      obtain ⟨more, hv, hmore⟩ := hlast h₄ hmarked (by cases finallyBlock <;> exact hact)
      refine ⟨_, v, _, hv, rfl, fun hempty => ?_⟩
      obtain ⟨hown, hempty⟩ := List.append_eq_nil_iff.mp hempty
      exact ⟨hnone hown, hmore hempty, rfl⟩

end Builds

/-! ## Protected blocks -/

/-- The code of a protected block, and what is emitted behind it. -/
theorem governs_regions {α : Type} (p : ProtectedBlock) {part : Node} {cs : List (CatchBlock Node)}
    {finallyBlock faultBlock : Option Node} {slot : Nat}
    (hpart : part.Obeys (layered N (depth + 1)))
    (hcs : ∀ c ∈ cs, c.body.Obeys (layered N (depth + 1)) ∧
      ∀ n ∈ c.filter.toList, n.Obeys (layered N (depth + 1)))
    (hfinally : ∀ n ∈ finallyBlock.toList, n.Obeys (layered N (depth + 1)))
    (hfault : ∀ n ∈ faultBlock.toList, n.Obeys (layered N (depth + 1)))
    (hregion : ¬ (cs = [] ∧ finallyBlock = none ∧ faultBlock = none))
    (hstart : N.depths[p.bodyStart.index]? = none) (hend : N.depths[p.bodyEnd.index]? = none)
    {rest : Emit α} (hrest : (layered N depth).Ok rest) :
    (layered N depth).Ok (do
      instr (.markStack slot)
      mark p.bodyStart
      Emit.regions part cs finallyBlock faultBlock p
      rest) := by
  intro setting s t a hready hdepth hrun
  obtain ⟨_, s₁, hinstr, hrun⟩ := run_bind hrun
  have hgrows₁ := Emit.grows _ hinstr
  obtain ⟨hushed₁, -⟩ := (quiet N.depths).instr rfl _ _ _ _ hready.size hinstr
  have hready₁ := hready.of_grows hushed₁.labels hgrows₁
  obtain ⟨_, s₂, hmark, hrun⟩ := run_bind hrun
  have hgrows₂ := hgrows₁.trans (Emit.grows _ hmark)
  obtain ⟨hushed₂, hmarked, hposition⟩ := run_mark hready₁ hstart hmark
  have hushed := hushed₁.trans hushed₂
  have hready₂ := hready.of_grows hushed.labels hgrows₂
  have hdepth₂ := hgrows₂.tryDepth.trans hdepth
  have hlt : s.builder.position < s₂.builder.position := by
    rw [hposition]
    cases hinstr
    simp [Builder.emit, Builder.position]
  rw [← hposition] at hmarked
  obtain ⟨_, s₃, hregions, hrun⟩ := run_bind hrun
  have hgrows₃ := Emit.grows _ hregions
  obtain ⟨bodyEnd, v, own, hbuilds, hs₃, hown⟩ :=
    Builds.regions hpart hcs hfinally hfault hready₂ hdepth₂ hmarked hend hregions
  obtain ⟨blocks, added, hbuilding⟩ := hbuilds.building
  have hlayered := hbuilding.close (fun h => hregion (hown h)) hushed.builder hlt
  have hkeeps : N.Keeps depth s s₃ := by
    subst hs₃
    refine ⟨⟨_, _, hlayered⟩, hbuilds.ready.labels.trans hready.labels.symm, fun R hR => ?_⟩
    rw [← hushed.units]
    exact hbuilds.units R hR
  obtain ⟨hkeeps₄, -⟩ := hrest setting s₃ t a (hready₂.of_grows
    (hkeeps.labels.trans hushed.labels.symm) hgrows₃) (hgrows₃.tryDepth.trans hdepth₂) hrun
  exact ⟨hkeeps.trans hkeeps₄, trivial⟩

/-- A protected block. -/
theorem governs_tryCatch {part : Node} {cs : List (CatchBlock Node)}
    {finallyBlock faultBlock : Option Node} {ty : Ty}
    (hpart : part.Obeys (layered N (depth + 1)))
    (hcs : ∀ c ∈ cs, c.body.Obeys (layered N (depth + 1)) ∧
      ∀ n ∈ c.filter.toList, n.Obeys (layered N (depth + 1)))
    (hfinally : ∀ n ∈ finallyBlock.toList, n.Obeys (layered N (depth + 1)))
    (hfault : ∀ n ∈ faultBlock.toList, n.Obeys (layered N (depth + 1)))
    (hregion : ¬ (cs = [] ∧ finallyBlock = none ∧ faultBlock = none)) :
    (layered N depth).Ok (Emit.tryCatch part cs finallyBlock faultBlock ty) := by
  have hblock : ∀ {x : Emit (Option Nat)} {rest : Option Nat → Emit Emitted}, (layered N depth).Ok x →
      (∀ result, (layered N depth).Ok (rest result)) → (layered N depth).Ok (do
        let result ← x
        let depth ← temp .int
        let bodyStart ← newLabel
        let bodyEnd ← newLabel
        let done ← newLabel
        instr (.markStack depth)
        mark bodyStart
        Emit.regions part cs finallyBlock faultBlock ⟨ty, result, depth, bodyStart, bodyEnd, done⟩
        mark done
        rest result) := by
    intro x rest hx hrest
    refine Discipline.seq hx fun result => Discipline.seq (layered N depth).temp fun slot =>
      (layered N depth).bind (layered N depth).newLabel
      fun bodyStart hstart => (layered N depth).bind (layered N depth).newLabel
      fun bodyEnd hend => (layered N depth).bind (layered N depth).newLabel fun done hdone => ?_
    exact governs_regions ⟨ty, result, slot, bodyStart, bodyEnd, done⟩ hpart hcs hfinally hfault
      hregion hstart hend (Discipline.seq ((layered N depth).mark hdone) fun _ => hrest result)
  have hsection : ∀ {rest : Option Nat → Emit Emitted}, (∀ result, (layered N depth).Ok (rest result)) →
      (layered N depth).Ok (withTemps (do
        let result ← if ty.isVoid then pure none else some <$> temp ty
        let depth ← temp .int
        let bodyStart ← newLabel
        let bodyEnd ← newLabel
        let done ← newLabel
        instr (.markStack depth)
        mark bodyStart
        Emit.regions part cs finallyBlock faultBlock ⟨ty, result, depth, bodyStart, bodyEnd, done⟩
        mark done
        rest result)) := by
    intro rest hrest
    refine (layered N depth).withTemps ?_
    dsimp only
    split
    · exact hblock Discipline.done hrest
    · exact hblock (Discipline.map (layered N depth).temp) hrest
  refine Discipline.seq (Discipline.forM fun _ _ => Discipline.checkHandler) fun _ => ?_
  dsimp only
  split
  on_goal 1 => refine Discipline.seq Discipline.checkBranch fun _ =>
    Discipline.seq (Discipline.forM fun _ _ => Discipline.checkBranch) fun _ => ?_
  all_goals
    refine hsection fun result => ?_
    cases result with
    | some slot => exact Discipline.seq ((layered N depth).instr rfl) fun _ => Discipline.done
    | none => exact Discipline.done

end Emit

end Arbor
