/-
  Protected blocks as sets of positions.

  A protected block of the tree becomes several regions: one for every handler,
  one for a fault and one for a finally block.  A position lies within the block
  if it lies in its body or in one of the handlers.  The number of blocks that two
  positions lie within decides whether they lie in the same parts, once the parts
  around the one are known to be around the other.

  A region has a body, a filter block, which may be empty, and a handler.  A branch
  is level with a region if it starts and ends in the same of these ranges.  Of two
  regions in a table, the first one stands beside the second or within one of its
  ranges.
-/
import Arbor.Code.Routine

set_option autoImplicit false

namespace Arbor

/-- Where a handler of the kind starts, with its filter block. -/
def RegionKind.first (k : RegionKind Nat) (handlerStart : Nat) : Nat :=
  match k with
  | .filter start => start
  | _ => handlerStart

namespace Region

/-- Where the handler starts, with its filter block. -/
def handlerFirst (g : Region Nat) : Nat := g.kind.first g.handlerStart

theorem tryContains_iff {g : Region Nat} {p : Nat} :
    g.tryContains p = true ↔ g.tryStart ≤ p ∧ p < g.tryEnd := by
  simp [tryContains]

theorem handlerContains_iff {g : Region Nat} {p : Nat} :
    g.handlerContains p = true ↔ g.handlerFirst ≤ p ∧ p < g.handlerEnd := by
  unfold handlerContains handlerFirst RegionKind.first
  cases g.kind <;> simp

/-- Whether the position lies in the body or in the handler. -/
def touches (g : Region Nat) (p : Nat) : Bool := g.tryContains p || g.handlerContains p

/-- The two positions lie in the same parts of the region. -/
def Alike (g : Region Nat) (p q : Nat) : Prop :=
  g.tryContains p = g.tryContains q ∧ g.handlerContains p = g.handlerContains q

theorem alike_of_not_touches {g : Region Nat} {p q : Nat} (hp : g.touches p = false)
    (hq : g.touches q = false) : g.Alike p q := by
  simp only [touches, Bool.or_eq_false_iff] at hp hq
  exact ⟨hp.1.trans hq.1.symm, hp.2.trans hq.2.symm⟩

/-- Where the bodies of two regions meet, that of the first lies in that of the second. -/
def Inner (g h : Region Nat) : Prop :=
  ∀ p, g.tryContains p = true → h.tryContains p = true →
    ∀ q, g.tryContains q = true → h.tryContains q = true

/-- Body and handler are not empty, and the handler stands behind the body. -/
structure Proper (g : Region Nat) : Prop where
  body : g.tryStart < g.tryEnd
  behind : g.tryEnd ≤ g.handlerFirst
  handler : g.handlerFirst < g.handlerEnd

/-- The first region is the inner one: its body lies in that of the second where they meet or the
second is around its handler, and it is not around the start of the second handler. -/
structure Precedes (g h : Region Nat) : Prop where
  inner : g.Inner h
  outside : g.tryContains h.handlerFirst = false
  around : h.tryContains g.handlerFirst = true → h.tryStart ≤ g.tryStart ∧ g.tryEnd ≤ h.tryEnd

theorem touches_iff {g : Region Nat} {p : Nat} : g.touches p = true ↔
    (g.tryStart ≤ p ∧ p < g.tryEnd) ∨ (g.handlerFirst ≤ p ∧ p < g.handlerEnd) := by
  rw [touches, Bool.or_eq_true, tryContains_iff, handlerContains_iff]

/-- Of two regions with a position between them, the one in front precedes the other. -/
theorem precedes_of_apart {g h : Region Nat} (hg : g.Proper) (hh : h.Proper) {n : Nat}
    (hbefore : ∀ p, g.touches p = true → p < n) (hafter : ∀ p, h.touches p = true → n ≤ p) :
    g.Precedes h := by
  have hclash : ∀ p, g.touches p = true → h.touches p = true → False := by
    intro p hp hp'
    exact Nat.lt_irrefl p (Nat.lt_of_lt_of_le (hbefore p hp) (hafter p hp'))
  obtain ⟨-, -, hfirst⟩ := hg
  obtain ⟨-, -, hlast⟩ := hh
  refine ⟨fun p hp hp' => ?_, Bool.eq_false_iff.mpr fun hp => ?_, fun hp => ?_⟩
  · exact (hclash p (by simp [touches, hp]) (by simp [touches, hp'])).elim
  · exact hclash h.handlerFirst (by simp [touches, hp]) (touches_iff.mpr (by omega))
  · exact (hclash g.handlerFirst (touches_iff.mpr (by omega)) (by simp [touches, hp])).elim

end Region

/-- Every part of a region that is around the second position is around the first one. -/
def Encloses (gs : List (Region Nat)) (p q : Nat) : Prop :=
  ∀ g ∈ gs, (g.tryContains q = true → g.tryContains p = true) ∧
    (g.handlerContains q = true → g.handlerContains p = true)

instance (gs : List (Region Nat)) (p q : Nat) : Decidable (Encloses gs p q) :=
  inferInstanceAs (Decidable (∀ g ∈ gs, _))

/-- The regions of one protected block. -/
abbrev Block := List (Region Nat)

namespace Block

/-- Whether the position lies in a part of one of the regions. -/
def touches (b : Block) (p : Nat) : Bool := b.any (·.touches p)

/-- Whether the position lies in the body of the block, which all regions have in common, or in a
handler. -/
def covers (b : Block) (p : Nat) : Bool := b.any (·.handlerContains p) || b.all (·.tryContains p)

/-- Positions within a block that lie in the same part of it lie in the same parts of its regions. -/
structure Settled (b : Block) : Prop where
  nonempty : b ≠ []
  alike : ∀ p q, b.covers q = true → Encloses b p q → ∀ g ∈ b, g.Alike p q

theorem touches_of_mem {b : Block} {g : Region Nat} (hg : g ∈ b) {p : Nat}
    (h : g.touches p = true) : b.touches p = true :=
  List.any_eq_true.mpr ⟨g, hg, h⟩

/-- What lies in a block lies in a part of it. -/
theorem Settled.touches_of_covers {b : Block} (hb : b.Settled) {p : Nat} (h : b.covers p = true) :
    b.touches p = true := by
  simp only [covers, Bool.or_eq_true, List.any_eq_true, List.all_eq_true] at h
  rcases h with ⟨g, hg, h⟩ | h
  · exact touches_of_mem hg (by simp [Region.touches, h])
  · obtain ⟨g, hg⟩ := List.exists_mem_of_ne_nil b hb.nonempty
    exact touches_of_mem hg (by simp [Region.touches, h g hg])

/-- A block around the second position is around the first one, if its parts are. -/
theorem covers_of_encloses {b : Block} {p q : Nat} (h : Encloses b p q) (hq : b.covers q = true) :
    b.covers p = true := by
  simp only [covers, Bool.or_eq_true, List.any_eq_true, List.all_eq_true] at hq ⊢
  rcases hq with ⟨g, hg, hq⟩ | hq
  · exact .inl ⟨g, hg, (h g hg).2 hq⟩
  · exact .inr fun g hg => (h g hg).1 (hq g hg)

end Block

/-! ## Several blocks -/

/-- Number of blocks that a position lies within. -/
def depthIn (bs : List Block) (p : Nat) : Nat := bs.countP (·.covers p)

/-- The position lies within every block of which it lies in a part. -/
def Clear (bs : List Block) (p : Nat) : Prop := ∀ b ∈ bs, b.touches p = true → b.covers p = true

theorem clear_append {bs cs : List Block} {p : Nat} :
    Clear (bs ++ cs) p ↔ Clear bs p ∧ Clear cs p :=
  List.forall_mem_append

theorem clear_of_not_touches {bs : List Block} {p : Nat} (h : ∀ b ∈ bs, b.touches p = false) :
    Clear bs p := by
  intro b hb hp
  rw [h b hb] at hp
  cases hp

theorem depthIn_append (bs cs : List Block) (p : Nat) :
    depthIn (bs ++ cs) p = depthIn bs p + depthIn cs p :=
  List.countP_append

theorem depthIn_cons {b : Block} {p : Nat} (h : b.covers p = true) (bs : List Block) :
    depthIn (b :: bs) p = depthIn bs p + 1 := by
  simp [depthIn, h]

/-- A position in no part of the blocks lies within none. -/
theorem depthIn_of_not_touches {bs : List Block} (hbs : ∀ b ∈ bs, b.Settled) {p : Nat}
    (h : ∀ b ∈ bs, b.touches p = false) : depthIn bs p = 0 := by
  refine List.countP_eq_zero.mpr fun b hb hp => ?_
  have htouches := (hbs b hb).touches_of_covers hp
  rw [h b hb] at htouches
  cases htouches

/-- Where the second position lies within no more blocks than the first and every block around it is
around the first, the blocks are the same. -/
theorem covers_eq_of_depthIn_le {bs : List Block} {p q : Nat}
    (hle : ∀ b ∈ bs, b.covers q = true → b.covers p = true) (hdepth : depthIn bs p ≤ depthIn bs q) :
    ∀ b ∈ bs, b.covers p = b.covers q := by
  induction bs with
  | nil => intro b hb; cases hb
  | cons c bs ih =>
      obtain ⟨hc, hbs⟩ := List.forall_mem_cons.mp hle
      have hrest : depthIn bs q ≤ depthIn bs p := List.countP_mono_left fun b hb hq => hbs b hb hq
      simp only [depthIn, List.countP_cons] at hdepth hrest
      have hcov : c.covers p = c.covers q := by
        cases hp : c.covers p <;> cases hq : c.covers q <;> simp_all
        omega
      refine List.forall_mem_cons.mpr ⟨hcov, ih hbs ?_⟩
      rw [hcov] at hdepth
      exact Nat.le_of_add_le_add_right hdepth

/-- Where the second position lies within no fewer blocks than the first and every part around it is
around the first, they lie in the same parts. -/
theorem alike_of_encloses {bs : List Block} (hbs : ∀ b ∈ bs, b.Settled) {p q : Nat}
    (hp : Clear bs p) (hq : Clear bs q) (hdepth : depthIn bs p ≤ depthIn bs q)
    (hencloses : ∀ b ∈ bs, Encloses b p q) : ∀ b ∈ bs, ∀ g ∈ b, g.Alike p q := by
  intro b hb g hg
  have hcovers := covers_eq_of_depthIn_le
    (fun b hb => Block.covers_of_encloses (hencloses b hb)) hdepth b hb
  cases hcov : b.covers q with
  | true => exact (hbs b hb).alike p q hcov (hencloses b hb) g hg
  | false =>
      rw [hcov] at hcovers
      have hnone : ∀ x, Clear bs x → b.covers x = false → g.touches x = false := by
        intro x hx hfalse
        refine Bool.eq_false_iff.mpr fun htouches => ?_
        have hcovered := hx b hb (Block.touches_of_mem hg htouches)
        rw [hfalse] at hcovered
        cases hcovered
      exact Region.alike_of_not_touches (hnone p hp hcovers) (hnone q hq hcov)

/-! ## The regions of one block -/

/-- The regions of a block whose body ends at `bodyEnd`, in the order of their handlers, up to a
position.  A region covers the body alone, or everything up to its handler. -/
inductive Chained (first bodyEnd : Nat) : Nat → Block → Prop
  | body {last : Nat} (h : bodyEnd ≤ last) : Chained first bodyEnd last []
  | part {last next : Nat} {b : Block} {g : Region Nat} (before : Chained first bodyEnd last b)
      (tryStart : g.tryStart = first) (tryEnd : g.tryEnd = bodyEnd ∨ last ≤ g.tryEnd)
      (covered : g.tryEnd ≤ g.handlerFirst) (behind : last ≤ g.handlerFirst)
      (handler : g.handlerFirst ≤ g.handlerEnd) (ended : g.handlerEnd ≤ next) :
      Chained first bodyEnd next (b ++ [g])

namespace Chained

variable {first bodyEnd last : Nat} {b : Block}

/-- The positions of the regions. -/
theorem bounds (h : Chained first bodyEnd last b) : bodyEnd ≤ last ∧ ∀ g ∈ b,
    g.tryStart = first ∧ bodyEnd ≤ g.tryEnd ∧ g.tryEnd ≤ g.handlerFirst ∧
      g.handlerFirst ≤ g.handlerEnd ∧ g.handlerEnd ≤ last := by
  induction h with
  | body h => exact ⟨h, fun g hg => absurd hg List.not_mem_nil⟩
  | part before tryStart tryEnd covered behind handler ended ih =>
      obtain ⟨hbody, hregions⟩ := ih
      refine ⟨by omega, List.forall_mem_append.mpr ⟨fun g hg => ?_, ?_⟩⟩
      · obtain ⟨h1, h2, h3, h4, h5⟩ := hregions g hg
        exact ⟨h1, h2, h3, h4, by omega⟩
      · exact List.forall_mem_singleton.mpr ⟨tryStart, by omega, covered, handler, ended⟩

theorem mono (h : Chained first bodyEnd last b) {next : Nat} (hnext : last ≤ next) :
    Chained first bodyEnd next b := by
  cases h with
  | body h => exact .body (Nat.le_trans h hnext)
  | part before tryStart tryEnd covered behind handler ended =>
      exact .part before tryStart tryEnd covered behind handler (Nat.le_trans ended hnext)

/-- The parts of the regions lie between the start of the body and the end. -/
theorem bounds_of_touches (h : Chained first bodyEnd last b) (hfirst : first ≤ bodyEnd) {p : Nat}
    (hp : b.touches p = true) : first ≤ p ∧ p < last := by
  obtain ⟨g, hg, hp⟩ := List.any_eq_true.mp hp
  obtain ⟨hstart, hend, hcovered, hhandler, hlast⟩ := h.bounds.2 g hg
  simp only [Region.touches, Bool.or_eq_true, Region.tryContains_iff, Region.handlerContains_iff]
    at hp
  omega

/-- Two positions in the body lie in the same parts. -/
theorem alike_body (h : Chained first bodyEnd last b) {p q : Nat} (hp : b.all (·.tryContains p) = true)
    (hq : b.all (·.tryContains q) = true) : ∀ g ∈ b, g.Alike p q := by
  intro g hg
  obtain ⟨-, -, hcovered, -, -⟩ := h.bounds.2 g hg
  have hp := List.all_eq_true.mp hp g hg
  have hq := List.all_eq_true.mp hq g hg
  refine ⟨hp.trans hq.symm, ?_⟩
  rw [Region.tryContains_iff] at hp hq
  rw [Bool.eq_iff_iff, Region.handlerContains_iff, Region.handlerContains_iff]
  omega

/-- Two positions in one handler lie in the same parts. -/
theorem alike_handler (h : Chained first bodyEnd last b) (hfirst : first ≤ bodyEnd) {g : Region Nat}
    (hg : g ∈ b) {p q : Nat} (hp : g.handlerContains p = true) (hq : g.handlerContains q = true) :
    ∀ h ∈ b, h.Alike p q := by
  have halike : ∀ h : Region Nat, (h.tryStart ≤ p ∧ p < h.tryEnd ↔ h.tryStart ≤ q ∧ q < h.tryEnd) →
      (h.handlerFirst ≤ p ∧ p < h.handlerEnd ↔ h.handlerFirst ≤ q ∧ q < h.handlerEnd) →
      h.Alike p q := by
    intro h htry hhandler
    constructor
    · rw [Bool.eq_iff_iff, Region.tryContains_iff, Region.tryContains_iff, htry]
    · rw [Bool.eq_iff_iff, Region.handlerContains_iff, Region.handlerContains_iff, hhandler]
  rw [Region.handlerContains_iff] at hp hq
  induction h with
  | body h => exact absurd hg List.not_mem_nil
  | part before tryStart tryEnd covered behind handler ended ih =>
      -- The positions lie in an earlier handler, or in the last one.
      rcases List.mem_append.mp hg with hold | hnew
      · obtain ⟨-, -, -, -, hlast⟩ := before.bounds.2 g hold
        have hbounds := before.bounds.2 g hold
        refine List.forall_mem_append.mpr ⟨ih hold, List.forall_mem_singleton.mpr (halike _ ?_ ?_)⟩
        · omega
        · omega
      · obtain rfl := List.mem_singleton.mp hnew
        refine List.forall_mem_append.mpr ⟨fun h hh => ?_, List.forall_mem_singleton.mpr
          (halike _ (by omega) (by omega))⟩
        have hbounds := before.bounds.2 h hh
        exact halike _ (by omega) (by omega)

theorem settled (h : Chained first bodyEnd last b) (hfirst : first ≤ bodyEnd) (hb : b ≠ []) :
    b.Settled where
  nonempty := hb
  alike p q hcovers hencloses := by
    simp only [Block.covers, Bool.or_eq_true, List.any_eq_true] at hcovers
    rcases hcovers with ⟨g, hg, hq⟩ | hq
    · exact h.alike_handler hfirst hg ((hencloses g hg).2 hq) hq
    · have hp : b.all (·.tryContains p) = true :=
        List.all_eq_true.mpr fun g hg => (hencloses g hg).1 (List.all_eq_true.mp hq g hg)
      exact h.alike_body hp hq

theorem covers_body (h : Chained first bodyEnd last b) {p : Nat} (hp : first ≤ p)
    (hend : p < bodyEnd) : b.covers p = true := by
  simp only [Block.covers, Bool.or_eq_true, List.all_eq_true]
  refine .inr fun g hg => ?_
  obtain ⟨hstart, htry, -, -, -⟩ := h.bounds.2 g hg
  rw [Region.tryContains_iff]
  omega

end Chained

/-! ## Ranges of a region -/

namespace Region

/-- The ranges of a region come one after the other, and body and handler are not empty. -/
structure Ranged (g : Region Nat) : Prop where
  body : g.tryStart < g.tryEnd
  behind : g.tryEnd ≤ g.handlerFirst
  filter : g.handlerFirst ≤ g.handlerStart
  handler : g.handlerStart < g.handlerEnd

theorem Ranged.start_lt_end {g : Region Nat} (hg : g.Ranged) : g.tryStart < g.handlerEnd := by
  obtain ⟨hbody, hbehind, hfilter, hhandler⟩ := hg
  omega

/-- The position lies in front of the region or behind it. -/
def Off (g : Region Nat) (p : Nat) : Prop := p < g.tryStart ∨ g.handlerEnd ≤ p

/-- The two positions lie in the same ranges of the region. -/
structure Level (g : Region Nat) (p q : Nat) : Prop where
  body : g.tryStart ≤ p ∧ p < g.tryEnd ↔ g.tryStart ≤ q ∧ q < g.tryEnd
  filter : g.handlerFirst ≤ p ∧ p < g.handlerStart ↔ g.handlerFirst ≤ q ∧ q < g.handlerStart
  handler : g.handlerStart ≤ p ∧ p < g.handlerEnd ↔ g.handlerStart ≤ q ∧ q < g.handlerEnd

theorem Level.of_off {g : Region Nat} (hg : g.Ranged) {p q : Nat} (hp : g.Off p) (hq : g.Off q) :
    g.Level p q := by
  obtain ⟨hbody, hbehind, hfilter, hhandler⟩ := hg
  unfold Off at hp hq
  constructor <;> omega

/-- How the first of two regions in a table stands to the second. -/
inductive Placed (g h : Region Nat) : Prop
  | before (h : g.handlerEnd ≤ h.tryStart)
  | inBody (first : h.tryStart ≤ g.tryStart) (last : g.handlerEnd ≤ h.tryEnd)
  | between (first : h.tryEnd ≤ g.tryStart) (last : g.handlerEnd ≤ h.handlerFirst)
  | inFilter (first : h.handlerFirst ≤ g.tryStart) (last : g.handlerEnd ≤ h.handlerStart)
  | inHandler (first : h.handlerStart < g.tryStart) (last : g.handlerEnd ≤ h.handlerEnd)
  /-- Both regions have the same body. -/
  | beside (first : g.tryStart = h.tryStart) (last : g.tryEnd = h.tryEnd)
      (behind : g.handlerEnd ≤ h.handlerFirst)

end Region

end Arbor
