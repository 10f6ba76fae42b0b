/-
  Emission keeps branches within their regions.

  Labels are lent, so what an emitter adds is sealed off: branches to labels that it
  did not hand on end in the ranges that they start in, and branches to the others
  stand outside of all regions that it added.  The regions that were added come in
  the order of a table, and those with one body are the parts of one protected
  block, as they are written.

  Labels of the tree are lent to nobody.  They may be marked anywhere, and a branch
  to one of them is fine only where it has been marked; jumps of the tree are not
  looked at.
-/
import Arbor.Proofs.Emission.Regions
import Arbor.Proofs.Emission.Nesting
import Arbor.Proofs.Emission.Permissive

set_option autoImplicit false

namespace Arbor

/-! ## Parts of protected blocks -/

/-- A part of a protected block that has a region of its own. -/
inductive Clause (α : Type) where
  | handler (h : CatchBlock α)
  | fault (block : α)
  | finally (block : α)

/-- The parts of a protected block with regions: the handlers as they are written, the fault block and
the finally block. -/
def ExprKind.clauses {α : Type} : ExprKind α → List (Clause α)
  | tryCatch _ handlers finallyBlock faultBlock =>
      handlers.map .handler ++ (faultBlock.toList.map .fault ++ finallyBlock.toList.map .finally)
  | _ => []

/-- The code of the node stands between two positions. -/
def Node.StandsIn (n : Node) (code : Array Instr) (first last : Nat) : Prop :=
  ∃ setting shape s t a, (n.guarded shape).run setting s = .ok a t ∧ first ≤ s.builder.position ∧
    t.builder.position ≤ last ∧
    ∀ p, s.builder.position ≤ p → p < t.builder.position → code[p]? = t.builder.code[p]?

/-- The region is that of the part: it is of its kind, and the code of the part stands in it. -/
inductive Clause.Fits (code : Array Instr) : Clause Node → Region Nat → Prop
  | catch {h : CatchBlock Node} {g : Region Nat} (filter : h.filter = none) (kind : g.kind = .catch h.ty)
      (body : h.body.StandsIn code g.handlerStart g.handlerEnd) : Fits code (.handler h) g
  | filter {h : CatchBlock Node} {test : Node} {start : Nat} {g : Region Nat}
      (filter : h.filter = some test) (kind : g.kind = .filter start)
      (test : test.StandsIn code start g.handlerStart)
      (body : h.body.StandsIn code g.handlerStart g.handlerEnd) : Fits code (.handler h) g
  | fault {block : Node} {g : Region Nat} (kind : g.kind = .fault)
      (body : block.StandsIn code g.handlerStart g.handlerEnd) : Fits code (.fault block) g
  | finally {block : Node} {g : Region Nat} (kind : g.kind = .finally)
      (body : block.StandsIn code g.handlerStart g.handlerEnd) : Fits code (.finally block) g

theorem Node.StandsIn.congr {n : Node} {code code' : Array Instr} {first last : Nat}
    (h : n.StandsIn code first last) (hcode : ∀ p, first ≤ p → p < last → code'[p]? = code[p]?) :
    n.StandsIn code' first last := by
  obtain ⟨setting, shape, s, t, a, hrun, hfirst, hlast, hsame⟩ := h
  exact ⟨setting, shape, s, t, a, hrun, hfirst, hlast, fun p hp hp' =>
    (hcode p (Nat.le_trans hfirst hp) (Nat.lt_of_lt_of_le hp' hlast)).trans (hsame p hp hp')⟩

theorem Node.StandsIn.mono {n : Node} {code : Array Instr} {first last last' : Nat}
    (h : n.StandsIn code first last) (hlast : last ≤ last') : n.StandsIn code first last' := by
  obtain ⟨setting, shape, s, t, a, hrun, hfirst, hend, hsame⟩ := h
  exact ⟨setting, shape, s, t, a, hrun, hfirst, Nat.le_trans hend hlast, hsame⟩

/-- Code that is the same in the region. -/
theorem Clause.Fits.congr {c : Clause Node} {code code' : Array Instr} {g : Region Nat}
    (h : c.Fits code g) (hg : g.Ranged)
    (hcode : ∀ p, g.tryStart ≤ p → p < g.handlerEnd → code'[p]? = code[p]?) : c.Fits code' g := by
  obtain ⟨hbody, hbehind, hfilter, hhandler⟩ := hg
  have hhere : ∀ p, g.handlerStart ≤ p → p < g.handlerEnd → code'[p]? = code[p]? :=
    fun p hp hp' => hcode p (by omega) hp'
  cases h with
  | «catch» filter kind body => exact .catch filter kind (body.congr hhere)
  | filter filter kind test body =>
      have hstart : g.handlerFirst = _ := congrArg (RegionKind.first · g.handlerStart) kind
      refine .filter filter kind (test.congr fun p hp hp' => hcode p ?_ (by omega)) (body.congr hhere)
      change g.handlerFirst = _ at hstart
      simp only [RegionKind.first] at hstart
      omega
  | fault kind body => exact .fault kind (body.congr hhere)
  | «finally» kind body => exact .finally kind (body.congr hhere)

/-- Code that is the same in all of the regions. -/
theorem Clause.Fits.congr_all {parts : List (Clause Node)} {code code' : Array Instr}
    {gs : List (Region Nat)} (h : List.Forall₂ (Clause.Fits code) parts gs)
    (hgs : ∀ g ∈ gs, g.Ranged)
    (hcode : ∀ g ∈ gs, ∀ p, g.tryStart ≤ p → p < g.handlerEnd → code'[p]? = code[p]?) :
    List.Forall₂ (Clause.Fits code') parts gs := by
  induction h with
  | nil => exact .nil
  | cons hfits _ ih =>
      obtain ⟨hg, hgs⟩ := List.forall_mem_cons.mp hgs
      obtain ⟨hhere, hcode⟩ := List.forall_mem_cons.mp hcode
      exact .cons (hfits.congr hg hhere) (ih hgs hcode)

/-! ## What was added -/

/-- What is looked at: branches, if there are no jumps of the tree, and protected blocks, each with its
body and its parts.  The labels of the tree are those with lower numbers than `labels`. -/
structure Sealing where
  labels : Nat
  calm : Prop
  parts : Node → List (Clause Node) → Prop

/-- The regions are those of a protected block that is looked at: they are around the code of its body,
and are those of its parts, one by one. -/
def Sealing.Grouped (S : Sealing) (code : Array Instr) (gs : List (Region Nat)) : Prop :=
  ∃ body parts, S.parts body parts ∧ (∀ g ∈ gs, body.StandsIn code g.tryStart g.tryEnd) ∧
    List.Forall₂ (Clause.Fits code) parts gs

/-- Code that is the same in all of the regions. -/
theorem Sealing.Grouped.congr {S : Sealing} {code code' : Array Instr} {gs : List (Region Nat)}
    (h : S.Grouped code gs) (hgs : ∀ g ∈ gs, g.Ranged)
    (hcode : ∀ g ∈ gs, ∀ p, g.tryStart ≤ p → p < g.handlerEnd → code'[p]? = code[p]?) :
    S.Grouped code' gs := by
  obtain ⟨body, parts, hparts, hbody, hfits⟩ := h
  refine ⟨body, parts, hparts, fun g hg => (hbody g hg).congr fun p hp hp' => ?_,
    Clause.Fits.congr_all hfits hgs hcode⟩
  have hranged := hgs g hg
  exact hcode g hg p hp (by have := hranged.behind; have := hranged.filter; have := hranged.handler; omega)

/-- The lent labels are known: they are none of the tree, or have been marked. -/
structure Sealing.Knows (S : Sealing) (b : Builder) (own : List Label) (exit : Option Label) :
    Prop where
  size : S.labels ≤ b.labels.size
  lent : ∀ l, l ∈ own ∨ exit = some l → l.index < b.labels.size ∧
    (S.labels ≤ l.index ∨ ∃ q, b.labels[l.index]? = some (some q))

namespace Builder

/-- The branch from the position to the label is level with the regions that were added, wherever the
label is, and the label stays as it is. -/
structure Settles (b c : Builder) (handed : List Label) (added : List (Region Nat)) (p : Nat)
    (l : Label) : Prop where
  known : (b.labels.size ≤ l.index ∧ l.index < c.labels.size ∧ l ∉ handed) ∨
    ∃ q, c.labels[l.index]? = some (some q)
  level : ∀ q, c.labels[l.index]? = some (some q) →
    b.position ≤ q ∧ q ≤ c.position ∧ ∀ g ∈ added, g.Level p q

/-- What was added is sealed off, where the labels in `own` and the exit were lent and those in `handed`
are handed on. -/
structure Sealed (S : Sealing) (own : List Label) (exit : Option Label) (handed : List Label)
    (b c : Builder) (added : List (Region Nat)) : Prop extends Builder.Extends b c where
  size : b.labels.size ≤ c.labels.size
  regions : ∃ new, c.regions.toList = b.regions.toList ++ new ∧
    List.Forall₂ (Region.Resolves c.labels) new added
  within : ∀ g ∈ added, b.position < g.tryStart ∧ g.handlerEnd ≤ c.position
  ranged : ∀ g ∈ added, g.Ranged
  placed : added.Pairwise Region.Placed
  grouped : ∀ g ∈ added, S.Grouped c.code (added.filter (·.tryStart == g.tryStart))
  fresh : ∀ l ∈ handed, l ∈ own ∨ (b.labels.size ≤ l.index ∧ l.index < c.labels.size)
  frame : ∀ l : Label, S.labels ≤ l.index → l.index < b.labels.size → l ∉ own →
    c.labels[l.index]? = b.labels[l.index]?
  landings : ∀ l ∈ handed ++ own, ∀ q, c.labels[l.index]? = some (some q) →
    b.labels[l.index]? = some (some q) ∨
      (b.position ≤ q ∧ q ≤ c.position ∧ ∀ g ∈ added, g.Off q)
  branches : S.calm → ∀ p i, b.position ≤ p → c.code[p]? = some i → ∀ l ∈ i.branches,
    ((l ∈ handed ++ own ∨ exit = some l) ∧ ∀ g ∈ added, g.Off p) ∨ b.Settles c handed added p l

namespace Sealed

variable {S : Sealing} {own handed handed' : List Label} {exit : Option Label} {b u c : Builder}
  {added more : List (Region Nat)}

theorem filter_tryStart_eq_nil {gs : List (Region Nat)} {n : Nat} (h : ∀ g ∈ gs, g.tryStart ≠ n) :
    gs.filter (·.tryStart == n) = [] :=
  List.filter_eq_nil_iff.mpr fun g hg => by simpa using h g hg

/-- Additions one after the other. -/
theorem trans (hb : S.Knows b own exit) (h : Sealed S own exit handed b u added)
    (k : Sealed S (handed ++ own) exit handed' u c more) :
    Sealed S own exit handed' b c (added ++ more) := by
  have hbu := h.position_le
  have huc := k.position_le
  have hleft : ∀ p, p ≤ u.position → ∀ g ∈ more, g.Off p :=
    fun p hp g hg => .inl (Nat.lt_of_le_of_lt hp (k.within g hg).1)
  have hright : ∀ p, u.position ≤ p → ∀ g ∈ added, g.Off p :=
    fun p hp g hg => .inr (Nat.le_trans (h.within g hg).2 hp)
  have hranged : ∀ g ∈ added ++ more, g.Ranged := List.forall_mem_append.mpr ⟨h.ranged, k.ranged⟩
  have hlent : ∀ l ∈ own, l.index < b.labels.size := fun l hl => (hb.lent l (.inl hl)).1
  -- Where a label that was handed on is marked, and where it is branched to, no region is around it.
  have hmark : ∀ l ∈ handed, l ∉ own → ∀ q, c.labels[l.index]? = some (some q) →
      b.position ≤ q ∧ q ≤ c.position ∧ ∀ g ∈ added ++ more, g.Off q := by
    intro l hl hown q hq
    rcases k.landings l (List.mem_append_right _ (List.mem_append_left _ hl)) q hq with hq | ⟨hge, hle, hoff⟩
    · rcases h.landings l (List.mem_append_left _ hl) q hq with hq | ⟨hge, hle, hoff⟩
      · have hfresh := ((h.fresh l hl).resolve_left hown).1
        rw [Array.getElem?_eq_none hfresh] at hq
        cases hq
      · exact ⟨hge, by omega, List.forall_mem_append.mpr ⟨hoff, hleft q hle⟩⟩
    · exact ⟨by omega, hle, List.forall_mem_append.mpr ⟨hright q hge, hoff⟩⟩
  have hclose : ∀ p l, l ∈ handed → l ∉ own → l ∉ handed' → (∀ g ∈ added ++ more, g.Off p) →
      b.Settles c handed' (added ++ more) p l := by
    intro p l hl hown hhanded hp
    obtain ⟨hge, hlt⟩ := (h.fresh l hl).resolve_left hown
    refine ⟨.inl ⟨hge, Nat.lt_of_lt_of_le hlt k.size, hhanded⟩, fun q hq => ?_⟩
    obtain ⟨hfirst, hlast, hoff⟩ := hmark l hl hown q hq
    exact ⟨hfirst, hlast, fun g hg => .of_off (hranged g hg) (hp g hg) (hoff g hg)⟩
  have hopen : ∀ p l, (l ∈ handed ∨ l ∈ handed' ++ own ∨ exit = some l) →
      (∀ g ∈ added ++ more, g.Off p) →
      ((l ∈ handed' ++ own ∨ exit = some l) ∧ ∀ g ∈ added ++ more, g.Off p) ∨
        b.Settles c handed' (added ++ more) p l := by
    intro p l hl hp
    by_cases hlent : l ∈ handed' ++ own ∨ exit = some l
    · exact .inl ⟨hlent, hp⟩
    · have hnot := not_or.mp hlent
      obtain ⟨hhanded, hown⟩ := not_or.mp (mt List.mem_append.mpr hnot.1)
      exact .inr (hclose p l (hl.resolve_right hlent) hown hhanded hp)
  refine ⟨h.toExtends.trans k.toExtends, Nat.le_trans h.size k.size, ?_, ?_, hranged, ?_, ?_, ?_, ?_, ?_,
    fun hcalm p i hp hi l hl => ?_⟩
  · obtain ⟨first, hfirst, hresolved⟩ := h.regions
    obtain ⟨second, hsecond, hthen⟩ := k.regions
    refine ⟨first ++ second, by rw [hsecond, hfirst, List.append_assoc], ?_⟩
    exact List.rel_append (hresolved.imp fun _ _ hg => hg.mono k.marks) hthen
  · refine List.forall_mem_append.mpr ⟨fun g hg => ?_, fun g hg => ?_⟩
    · exact ⟨(h.within g hg).1, Nat.le_trans (h.within g hg).2 huc⟩
    · exact ⟨Nat.lt_of_le_of_lt hbu (k.within g hg).1, (k.within g hg).2⟩
  · refine List.pairwise_append.mpr ⟨h.placed, k.placed, fun g hg g' hg' => .before ?_⟩
    exact Nat.le_of_lt (Nat.lt_of_le_of_lt (h.within g hg).2 (k.within g' hg').1)
  · refine List.forall_mem_append.mpr ⟨fun g hg => ?_, fun g hg => ?_⟩
    · have hnone : more.filter (·.tryStart == g.tryStart) = [] := filter_tryStart_eq_nil fun g' hg' => by
        have := (h.within g hg).2
        have := (h.ranged g hg).start_lt_end
        have := (k.within g' hg').1
        omega
      rw [List.filter_append, hnone, List.append_nil]
      refine (h.grouped g hg).congr
        (fun g' hg' => h.ranged g' (List.mem_of_mem_filter hg')) fun g' hg' p _ hp => ?_
      exact k.getElem?_code (Nat.lt_of_lt_of_le hp (h.within g' (List.mem_of_mem_filter hg')).2)
    · have hnone : added.filter (·.tryStart == g.tryStart) = [] := filter_tryStart_eq_nil fun g' hg' => by
        have := (h.within g' hg').2
        have := (h.ranged g' hg').start_lt_end
        have := (k.within g hg).1
        omega
      rw [List.filter_append, hnone, List.nil_append]
      exact k.grouped g hg
  · intro l hl
    rcases k.fresh l hl with hl | ⟨hge, hlt⟩
    · rcases List.mem_append.mp hl with hl | hl
      · exact (h.fresh l hl).imp_right fun ⟨hge, hlt⟩ => ⟨hge, Nat.lt_of_lt_of_le hlt k.size⟩
      · exact .inl hl
    · exact .inr ⟨Nat.le_trans h.size hge, hlt⟩
  · intro l hl hlt hown
    have hhanded : l ∉ handed := fun hmem =>
      absurd ((h.fresh l hmem).resolve_left hown).1 (Nat.not_le_of_lt hlt)
    rw [k.frame l hl (Nat.lt_of_lt_of_le hlt h.size) (by simp [hhanded, hown]), h.frame l hl hlt hown]
  · intro l hl q hq
    by_cases hown : l ∈ own
    · rcases k.landings l (by simp [hown]) q hq with hq | ⟨hge, hle, hoff⟩
      · exact (h.landings l (by simp [hown]) q hq).imp_right fun ⟨hge, hle, hoff⟩ =>
          ⟨hge, by omega, List.forall_mem_append.mpr ⟨hoff, hleft q hle⟩⟩
      · exact .inr ⟨by omega, hle, List.forall_mem_append.mpr ⟨hright q hge, hoff⟩⟩
    · have hl := (List.mem_append.mp hl).resolve_right hown
      by_cases hhanded : l ∈ handed
      · exact .inr (hmark l hhanded hown q hq)
      · rcases k.landings l (by simp [hl]) q hq with hq | ⟨hge, hle, hoff⟩
        · have hfresh := ((k.fresh l hl).resolve_left (by simp [hhanded, hown])).1
          rw [Array.getElem?_eq_none hfresh] at hq
          cases hq
        · exact .inr ⟨by omega, hle, List.forall_mem_append.mpr ⟨hright q hge, hoff⟩⟩
  · rcases Nat.lt_or_ge p u.position with hpu | hpu
    · rw [k.getElem?_code hpu] at hi
      rcases h.branches hcalm p i hp hi l hl with ⟨hlent, hoff⟩ | ⟨hknown, hlevel⟩
      · refine hopen p l ?_ (List.forall_mem_append.mpr ⟨hoff, hleft p (Nat.le_of_lt hpu)⟩)
        rcases hlent with hlent | hexit
        · exact (List.mem_append.mp hlent).imp_right fun h => .inl (List.mem_append_right _ h)
        · exact .inr (.inr hexit)
      · -- The label stays as it is behind the first additions.
        have hsame : ∀ q, c.labels[l.index]? = some (some q) → u.labels[l.index]? = some (some q) := by
          intro q hq
          rcases hknown with ⟨hge, hlt, hhanded⟩ | ⟨q', hq'⟩
          · rwa [k.frame l (Nat.le_trans hb.size hge) hlt] at hq
            have hown : l ∉ own := fun hmem => absurd (hlent l hmem) (Nat.not_lt_of_le hge)
            simp [hhanded, hown]
          · rw [k.marks _ _ hq'] at hq
            cases hq
            exact hq'
        refine .inr ⟨?_, fun q hq => ?_⟩
        · rcases hknown with ⟨hge, hlt, hhanded⟩ | ⟨q', hq'⟩
          · refine .inl ⟨hge, Nat.lt_of_lt_of_le hlt k.size, fun hmem => ?_⟩
            rcases k.fresh l hmem with hmem | ⟨hge', -⟩
            · rcases List.mem_append.mp hmem with hmem | hmem
              · exact hhanded hmem
              · exact absurd (hlent l hmem) (Nat.not_lt_of_le hge)
            · exact absurd hlt (Nat.not_lt_of_le hge')
          · exact .inr ⟨q', k.marks _ _ hq'⟩
        · obtain ⟨hfirst, hlast, hadded⟩ := hlevel q (hsame q hq)
          refine ⟨hfirst, by omega, List.forall_mem_append.mpr ⟨hadded, fun g hg => ?_⟩⟩
          exact .of_off (k.ranged g hg) (hleft p (Nat.le_of_lt hpu) g hg) (hleft q hlast g hg)
    · rcases k.branches hcalm p i hpu hi l hl with ⟨hlent, hoff⟩ | ⟨hknown, hlevel⟩
      · refine hopen p l ?_ (List.forall_mem_append.mpr ⟨hright p hpu, hoff⟩)
        simp only [List.mem_append] at hlent ⊢
        grind
      · refine .inr ⟨?_, fun q hq => ?_⟩
        · exact hknown.imp_left fun ⟨hge, hlt, hhanded⟩ => ⟨Nat.le_trans h.size hge, hlt, hhanded⟩
        · obtain ⟨hfirst, hlast, hmore⟩ := hlevel q hq
          refine ⟨by omega, hlast, List.forall_mem_append.mpr ⟨fun g hg => ?_, hmore⟩⟩
          exact .of_off (h.ranged g hg) (hright p hpu g hg) (hright q hfirst g hg)

/-- More labels are lent. -/
theorem weaken {own' : List Label} {exit' : Option Label} (h : Sealed S own exit handed b c added)
    (hown : ∀ l ∈ own, l ∈ own') (hexit : ∀ l, exit = some l → l ∈ own' ∨ exit' = some l)
    (hb : S.Knows b own' exit') : Sealed S own' exit' handed b c added where
  toExtends := h.toExtends
  size := h.size
  regions := h.regions
  within := h.within
  ranged := h.ranged
  placed := h.placed
  grouped := h.grouped
  fresh l hl := (h.fresh l hl).imp_left (hown l)
  frame l hl hlt hnot := h.frame l hl hlt fun hmem => hnot (hown l hmem)
  landings l hl q hq := by
    by_cases hold : l ∈ handed ++ own
    · exact h.landings l hold q hq
    · obtain ⟨hhanded, hnot⟩ := not_or.mp (mt List.mem_append.mpr hold)
      obtain ⟨hlt, hknown⟩ := hb.lent l (.inl ((List.mem_append.mp hl).resolve_left hhanded))
      rcases hknown with hknown | ⟨q', hq'⟩
      · rw [h.frame l hknown hlt hnot] at hq
        exact .inl hq
      · rw [h.marks _ _ hq'] at hq
        cases hq
        exact .inl hq'
  branches hcalm p i hp hi l hl := by
    refine (h.branches hcalm p i hp hi l hl).imp_left fun ⟨hlent, hoff⟩ => ⟨?_, hoff⟩
    rcases hlent with hlent | hlent
    · exact .inl (List.mem_append.mpr ((List.mem_append.mp hlent).imp_right (hown l)))
    · exact (hexit l hlent).imp_left (List.mem_append_right _)

/-! ## Single steps -/

/-- Instructions that branch to lent labels only. -/
theorem of_code (hext : b.Extends c) (hlabels : c.labels = b.labels) (hregions : c.regions = b.regions)
    (hhanded : ∀ l ∈ handed, l ∈ own) (hbranches : S.calm → ∀ p i, b.position ≤ p →
      c.code[p]? = some i → ∀ l ∈ i.branches, l ∈ own ∨ exit = some l) :
    Sealed S own exit handed b c [] where
  toExtends := hext
  size := Nat.le_of_eq (by rw [hlabels])
  regions := ⟨[], by rw [hregions, List.append_nil], .nil⟩
  within g hg := absurd hg List.not_mem_nil
  ranged g hg := absurd hg List.not_mem_nil
  placed := .nil
  grouped g hg := absurd hg List.not_mem_nil
  fresh l hl := .inl (hhanded l hl)
  frame l _ _ _ := by rw [hlabels]
  landings l _ q hq := .inl (by rwa [hlabels] at hq)
  branches hcalm p i hp hi l hl :=
    .inl ⟨(hbranches hcalm p i hp hi l hl).imp_left (List.mem_append_right _),
      fun _ hg => absurd hg List.not_mem_nil⟩

theorem of_eq (hcode : c.code = b.code) (hlabels : c.labels = b.labels) (hregions : c.regions = b.regions)
    (hhanded : ∀ l ∈ handed, l ∈ own) : Sealed S own exit handed b c [] := by
  refine of_code ⟨hcode ▸ List.prefix_rfl, fun _ _ h => hlabels ▸ h⟩ hlabels hregions hhanded
    fun _ p i hp hi => ?_
  rw [hcode, Array.getElem?_eq_none hp] at hi
  cases hi

theorem emit {i : Instr} (hi : S.calm → ∀ l ∈ i.branches, l ∈ own ∨ exit = some l) :
    Sealed S own exit [] b (b.emit i) [] := by
  refine of_code (extends_emit b i) rfl rfl (fun _ h => absurd h List.not_mem_nil)
    fun hcalm p j hp hj => ?_
  rw [getElem?_emit_of_le hp hj]
  exact hi hcalm

/-- A new label. -/
theorem defineLabel (hb : S.Knows b own exit) :
    Sealed S own exit [b.defineLabel.1] b b.defineLabel.2 [] := by
  have hsame : ∀ l : Label, l.index < b.labels.size →
      b.defineLabel.2.labels[l.index]? = b.labels[l.index]? := by
    intro l hl
    rw [Builder.defineLabel, Array.getElem?_push_lt hl, Array.getElem?_eq_getElem hl]
  refine ⟨extends_defineLabel, by simp [Builder.defineLabel],
    ⟨[], by simp [Builder.defineLabel], .nil⟩, ?_, ?_, .nil, ?_, ?_, fun l _ hlt _ => hsame l hlt, ?_,
    fun _ p i hp hi => ?_⟩
  · exact fun g hg => absurd hg List.not_mem_nil
  · exact fun g hg => absurd hg List.not_mem_nil
  · exact fun g hg => absurd hg List.not_mem_nil
  · intro l hl
    rw [List.mem_singleton.mp hl]
    exact .inr ⟨Nat.le_refl _, by simp [Builder.defineLabel]⟩
  · intro l hl q hq
    rcases List.mem_cons.mp hl with rfl | hl
    · simp [Builder.defineLabel] at hq
    · rw [hsame l (hb.lent l (.inl hl)).1] at hq
      exact .inl hq
  · change b.code[p]? = some i at hi
    rw [Array.getElem?_eq_none hp] at hi
    cases hi

/-- A mark of a label that is lent or one of the tree. -/
theorem markLabel {l : Label} (hl : l ∈ own ∨ l.index < S.labels)
    (h : b.markLabel l = .ok c) : Sealed S own exit [] b c [] := by
  obtain ⟨hmarked, hposition⟩ := getElem?_markLabel h
  have hother : ∀ {m : Label}, m ≠ l → c.labels[m.index]? = b.labels[m.index]? := fun hne =>
    getElem?_markLabel_ne h fun heq => hne (by cases l; cases ‹Label›; simp_all)
  obtain ⟨hunmarked, rfl⟩ := markLabel_eq h
  refine ⟨extends_markLabel h, by simp, ⟨[], (List.append_nil _).symm, .nil⟩, ?_, ?_, .nil, ?_,
    fun _ hm => absurd hm List.not_mem_nil, fun m hm hlt hown => ?_, fun m hm q hq => ?_,
    fun _ p i hp hi => ?_⟩
  · exact fun g hg => absurd hg List.not_mem_nil
  · exact fun g hg => absurd hg List.not_mem_nil
  · exact fun g hg => absurd hg List.not_mem_nil
  · refine hother fun heq => ?_
    subst heq
    exact hl.elim hown (Nat.not_lt_of_le hm)
  · by_cases hne : m = l
    · subst hne
      rw [hmarked] at hq
      cases hq
      exact .inr ⟨Nat.le_refl _, Nat.le_refl _, fun _ hg => absurd hg List.not_mem_nil⟩
    · rw [hother hne] at hq
      exact .inl hq
  · change b.code[p]? = some i at hi
    rw [Array.getElem?_eq_none hp] at hi
    cases hi

/-- The first instruction is replaced by one that does not branch. -/
theorem patch (h : Sealed S own exit handed b c added) {i : Instr} (hi : i.labels = []) :
    Sealed S own exit handed b (c.patch b.position i) added := by
  have hposition : (c.patch b.position i).position = c.position := by
    simp [Builder.patch, Builder.position]
  have hcode : ∀ p, p ≠ b.position → (c.patch b.position i).code[p]? = c.code[p]? := by
    intro p hp
    simp only [Builder.patch]
    exact Array.getElem?_setIfInBounds_ne (Ne.symm hp)
  refine ⟨h.toExtends.patch (Nat.le_refl _) i, h.size, h.regions, ?_, h.ranged, h.placed,
    fun g hg => ?_, h.fresh, h.frame, ?_, fun hcalm p j hp hj l hl => ?_⟩
  · rw [hposition]
    exact h.within
  · refine (h.grouped g hg).congr
      (fun g' hg' => h.ranged g' (List.mem_of_mem_filter hg')) fun g' hg' p hp _ => hcode p ?_
    have := (h.within g' (List.mem_of_mem_filter hg')).1
    omega
  · rw [hposition]
    exact h.landings
  · by_cases hne : p = b.position
    · subst hne
      simp only [Builder.patch, Array.getElem?_setIfInBounds, if_true] at hj
      split at hj
      · cases hj
        have hnone : i.branches = [] := by
          cases i <;> first | rfl | exact hi
        rw [hnone] at hl
        cases hl
      · cases hj
    · rw [hcode p hne] at hj
      refine (h.branches hcalm p j hp hj l hl).imp_right ?_
      rintro ⟨hknown, hlevel⟩
      refine ⟨hknown, ?_⟩
      rw [hposition]
      exact hlevel

/-- A label that has just been marked is no longer lent. -/
theorem unlend {l : Label} (hmark : b.labels[l.index]? = some (some b.position))
    (h : Sealed S (l :: own) exit [] b c added) : Sealed S own exit [] b c added where
  toExtends := h.toExtends
  size := h.size
  regions := h.regions
  within := h.within
  ranged := h.ranged
  placed := h.placed
  grouped := h.grouped
  fresh l hl := absurd hl List.not_mem_nil
  frame m hm hlt hnot := by
    by_cases heq : m = l
    · subst heq
      rw [h.marks _ _ hmark, hmark]
    · exact h.frame m hm hlt (by simp [heq, hnot])
  landings m hm := h.landings m (List.mem_cons_of_mem _ hm)
  branches hcalm p i hp hi m hm := by
    rcases h.branches hcalm p i hp hi m hm with ⟨hlent, hoff⟩ | hsettled
    · by_cases hlent' : m ∈ own ∨ exit = some m
      · exact .inl ⟨hlent', hoff⟩
      · obtain rfl : m = l := by
          simp only [List.nil_append, List.mem_cons] at hlent
          grind
        refine .inr ⟨.inr ⟨_, h.marks _ _ hmark⟩, fun q hq => ?_⟩
        rw [h.marks _ _ hmark] at hq
        cases hq
        refine ⟨Nat.le_refl _, h.position_le, fun g hg => .of_off (h.ranged g hg) (hoff g hg) ?_⟩
        exact .inl (h.within g hg).1
    · exact .inr hsettled

end Sealed

end Builder

/-! ## Emitters that seal off what they add -/

/-- The labels of the tree are known, and so are the lent ones. -/
structure Sealing.Ready (S : Sealing) (s : Emission) (own : List Label) (exit : Option Label) :
    Prop where
  knows : S.Knows s.builder own exit
  table : ∀ id info, s.labels.lookup id = some info → info.label.index < S.labels

/-- What was added is sealed off, and no label of the tree became known. -/
structure Sealing.Seals (S : Sealing) (own : List Label) (exit : Option Label) (handed : List Label)
    (s t : Emission) : Prop where
  builder : ∃ added, Builder.Sealed S own exit handed s.builder t.builder added
  labels : t.labels = s.labels

namespace Sealing

variable {S : Sealing} {own handed handed' : List Label} {exit : Option Label} {s t u : Emission}

/-- Labels that are handed on are known. -/
theorem Ready.after (hs : S.Ready s own exit) (h : S.Seals own exit handed s t) :
    S.Ready t (handed ++ own) exit := by
  obtain ⟨⟨added, hsealed⟩, hlabels⟩ := h
  refine ⟨⟨Nat.le_trans hs.knows.size hsealed.size, fun l hl => ?_⟩, by rw [hlabels]; exact hs.table⟩
  have hold : l ∈ own ∨ exit = some l → l.index < t.builder.labels.size ∧
      (S.labels ≤ l.index ∨ ∃ q, t.builder.labels[l.index]? = some (some q)) := by
    intro hl
    obtain ⟨hlt, hknown⟩ := hs.knows.lent l hl
    exact ⟨Nat.lt_of_lt_of_le hlt hsealed.size,
      hknown.imp_right fun ⟨q, hq⟩ => ⟨q, hsealed.marks _ _ hq⟩⟩
  rcases hl with hl | hl
  · rcases List.mem_append.mp hl with hl | hl
    · rcases hsealed.fresh l hl with hl | ⟨hge, hlt⟩
      · exact hold (.inl hl)
      · exact ⟨hlt, .inl (Nat.le_trans hs.knows.size hge)⟩
    · exact hold (.inl hl)
  · exact hold (.inr hl)

theorem Seals.trans (hs : S.Ready s own exit) (h : S.Seals own exit handed s u)
    (k : S.Seals (handed ++ own) exit handed' u t) : S.Seals own exit handed' s t := by
  obtain ⟨⟨added, hsu⟩, hlabels⟩ := h
  obtain ⟨⟨more, hut⟩, hlabels'⟩ := k
  exact ⟨⟨_, hsu.trans hs.knows hut⟩, hlabels'.trans hlabels⟩

theorem Seals.of_eq (hcode : t.builder.code = s.builder.code)
    (hlabels : t.builder.labels = s.builder.labels) (hregions : t.builder.regions = s.builder.regions)
    (htable : t.labels = s.labels) (hhanded : ∀ l ∈ handed, l ∈ own) : S.Seals own exit handed s t :=
  ⟨⟨[], .of_eq hcode hlabels hregions hhanded⟩, htable⟩

end Sealing

namespace Emit

open Builder

variable {α β : Type} {S : Sealing} {own : List Label} {exit : Option Label}

/-- The emitter seals off what it adds, when labels are lent that are known. -/
def SealsOff (S : Sealing) (own : List Label) (exit : Option Label) (x : Emit α)
    (handed : α → List Label) (Q : α → Prop) : Prop :=
  ∀ setting s t a, x.run setting s = .ok a t → S.Ready s own exit →
    S.Seals own exit (handed a) s t ∧ Q a

theorem SealsOff.read {f : Setting → Emission → Except CompileError α} {Q : α → Prop}
    (hQ : ∀ setting s a, f setting s = .ok a → S.Ready s own exit → Q a) :
    SealsOff S own exit (Emit.read f) (fun _ => []) Q := by
  intro setting s t a hrun hs
  simp only [Emit.read] at hrun
  split at hrun
  · next hf =>
      cases hrun
      exact ⟨.of_eq rfl rfl rfl rfl fun _ h => absurd h List.not_mem_nil, hQ setting s a hf hs⟩
  · cases hrun

/-- A mark of a label that is lent or one of the tree. -/
theorem SealsOff.mark {l : Label} (hl : l ∈ own ∨ l.index < S.labels) :
    SealsOff S own exit (Emit.mark l) (fun _ => []) fun _ => True := by
  intro setting s t a hrun hs
  simp only [Emit.mark] at hrun
  split at hrun
  · next hmark =>
      cases hrun
      exact ⟨⟨⟨[], .markLabel hl hmark⟩, rfl⟩, trivial⟩
  · cases hrun

theorem SealsOff.instr {S : Sealing} {own : List Label} {exit : Option Label} {i : Instr}
    {slot arg child : Nat → Prop}
    (hi : i.Names (fun l => l ∈ own ∨ (exit = some l ∧ i.isJump = false)) slot arg child) :
    SealsOff S own exit (Emit.instr i) (fun _ => []) fun _ => True := by
  intro setting s t a hrun _
  cases hrun
  refine ⟨⟨⟨[], .emit fun _ l hl => ?_⟩, rfl⟩, trivial⟩
  have hlabel : l ∈ i.labels := by cases i <;> first | exact hl | cases hl
  exact (hi.labels l hlabel).imp_right And.left

/-- The rules of emitters that seal off what they add. -/
def sealingRules (S : Sealing) : Rules where
  Holds := SealsOff S
  Slot _ := True
  Arg _ := True
  Child _ := True
  pure hQ hhanded setting s t a hrun _ := by
    cases hrun
    exact ⟨.of_eq rfl rfl rfl rfl hhanded, hQ⟩
  bind hx hf setting s t b hrun hs := by
    obtain ⟨a, u, hxu, hfu⟩ := run_bind hrun
    obtain ⟨hsu, hP⟩ := hx _ _ _ _ hxu hs
    obtain ⟨hut, hQ⟩ := hf a hP _ _ _ _ hfu (hs.after hsu)
    exact ⟨hsu.trans hs hut, hQ⟩
  weaken hx hown hexit hQ setting s t a hrun hs := by
    obtain ⟨⟨⟨added, hsealed⟩, hlabels⟩, ha⟩ := hx setting s t a hrun
      ⟨⟨hs.knows.size, fun l hl => hs.knows.lent l (hl.imp (hown l) (hexit l))⟩, hs.table⟩
    exact ⟨⟨⟨added, hsealed.weaken hown (fun l hl => .inr (hexit l hl)) hs.knows⟩, hlabels⟩, hQ a ha⟩
  fail _ _ _ _ _ hrun := nomatch hrun
  read _ := .read fun _ _ _ _ _ => trivial
  instr _ := SealsOff.instr
  newLabel setting s t a hrun hs := by
    cases hrun
    exact ⟨⟨⟨[], .defineLabel hs.knows⟩, rfl⟩, trivial⟩
  mark hl := .mark (.inl hl)
  temp setting s t a hrun _ := by
    simp only [Emit.temp] at hrun
    cases hrun
    refine ⟨?_, trivial⟩
    rcases SlotPool.acquire_builder s.pool s.builder _ with hb | hb
    · exact .of_eq (by rw [hb]) (by rw [hb]) (by rw [hb]) rfl fun _ h => absurd h List.not_mem_nil
    · exact .of_eq (by rw [hb]) (by rw [hb]) (by rw [hb]) rfl fun _ h => absurd h List.not_mem_nil
  withTemps hx setting s t a hrun hs := by
    simp only [Emit.withTemps] at hrun
    split at hrun
    · next hxu =>
        cases hrun
        obtain ⟨⟨hbuilder, hlabels⟩, hQ⟩ := hx _ _ _ _ hxu hs
        exact ⟨⟨hbuilder, hlabels⟩, hQ⟩
    · cases hrun
  varSlot := .read fun _ _ v _ _ => by
    obtain ⟨slot, ty⟩ := v
    cases slot <;> exact trivial
  helper setting s t a hrun _ := by
    simp only [Emit.helper] at hrun
    cases hrun
    exact ⟨.of_eq (Builder.addChild_code _ _) (Builder.addChild_labels _ _) (Builder.addChild_regions _ _)
      rfl fun _ h => absurd h List.not_mem_nil, trivial⟩

/-- Variables may be in scope. -/
theorem scopes_sealing (S : Sealing) : (sealingRules S).AllowsScopes := by
  intro _ _ _ _ _ _ _ _ hx setting s t a hrun hs
  simp only [Emit.inScope] at hrun
  split at hrun
  · next hxu =>
      cases hrun
      obtain ⟨⟨hbuilder, hlabels⟩, hQ⟩ := hx _ _ _ _ hxu ⟨⟨hs.knows.size, hs.knows.lent⟩, hs.table⟩
      exact ⟨⟨hbuilder, hlabels⟩, hQ⟩
  · cases hrun

/-- Placeholders are allowed, which get no labels. -/
theorem placeholders_sealing (S : Sealing) : (sealingRules S).AllowsPlaceholders where
  lend {_ own _ pad _ _ _} hpad hx setting s t a hrun hs := by
    have hexit : ∀ l, some pad = some l → l ∈ own := fun _ hl => Option.some.inj hl ▸ hpad
    obtain ⟨⟨⟨added, hsealed⟩, hlabels⟩, ha⟩ := hx setting s t a hrun
      ⟨⟨hs.knows.size, fun l hl => hs.knows.lent l (.inl (hl.elim id (hexit l)))⟩, hs.table⟩
    exact ⟨⟨⟨added, hsealed.weaken (fun _ h => h) (fun l hl => .inl (hexit l hl)) hs.knows⟩, hlabels⟩, ha⟩
  reserved hfill hx setting s t a hrun hs := by
    simp only [Emit.reserved] at hrun
    split at hrun
    · next b u hxu =>
        obtain ⟨⟨⟨added, hsealed⟩, hlabels⟩, hQ⟩ := hx _ _ _ _ hxu
          (⟨⟨hs.knows.size, hs.knows.lent⟩, hs.table⟩)
        have hall := Sealed.trans hs.knows (.emit fun _ l hl => absurd hl List.not_mem_nil) hsealed
        split at hrun
        · next i hi =>
            cases hrun
            have hnone : i.labels = [] :=
              List.eq_nil_iff_forall_not_mem.mpr fun l hl => (hfill _ _ hi).2.labels l hl
            exact ⟨⟨⟨_, hall.patch hnone⟩, hlabels⟩, hQ⟩
        · cases hrun
          exact ⟨⟨⟨_, hall⟩, hlabels⟩, hQ⟩
    · cases hrun
  resetStack {_ _ n} hn :=
    have hnames : (Instr.resetStack n).Names _ _ (fun _ => True) fun _ => True :=
      .of_slot hn ⟨rfl, rfl, rfl, rfl⟩
    SealsOff.instr hnames

theorem lax_sealing (S : Sealing) : (sealingRules S).Lax := fun _ => SealsOff.instr

/-- The policy of emitters that seal off what they add. -/
def sealing (S : Sealing) : Policy :=
  (sealingRules S).policy (lax_sealing S) (scopes_sealing S) (placeholders_sealing S)
    (SealsOff.read fun _ _ _ _ _ _ _ _ => trivial)

/-- Labels of the tree may be marked, and jumped to where jumps are not looked at. -/
theorem labelled_sealing (S : Sealing) :
    (sealing S).Labelled (·.index < S.labels) ¬ S.calm where
  labelInfo _ := SealsOff.read fun setting s info hinfo hs => by
    split at hinfo
    · next hlookup =>
        cases hinfo
        exact ⟨hs.table _ _ hlookup, fun _ _ => trivial⟩
    · cases hinfo
  mark hl := SealsOff.mark (.inr hl)
  jumpTo hjumps _ := by
    have hinstr : ∀ {i : Instr} {own : List Label} {exit : Option Label},
        (sealing S).Ok own exit (instr i) := by
      intro i own exit setting s t a hrun _
      cases hrun
      exact ⟨⟨⟨[], .emit fun hcalm => absurd hcalm hjumps⟩, rfl⟩, trivial⟩
    exact Policy.seq ((sealing S).read fun _ _ _ => rfl) fun _ => Policy.ite hinstr hinstr
  marked {own exit l x} hl hx setting s t a hrun hs := by
    obtain ⟨_, u, hmark, hrun⟩ := run_bind hrun
    obtain ⟨hsu, -⟩ := SealsOff.mark (S := S) (.inr hl) _ _ _ _ hmark hs
    have hu := hs.after hsu
    simp only [Emit.mark] at hmark
    split at hmark
    · next c hc =>
        cases hmark
        obtain ⟨hmarked, hposition⟩ := getElem?_markLabel hc
        rw [← hposition] at hmarked
        have hready : S.Ready { s with builder := c } (l :: own) exit := by
          refine ⟨⟨hu.knows.size, fun m hm => ?_⟩, hu.table⟩
          rcases hm with hm | hm
          · rcases List.mem_cons.mp hm with rfl | hm
            · exact ⟨(Array.getElem?_eq_some_iff.mp hmarked).1, .inr ⟨_, hmarked⟩⟩
            · exact hu.knows.lent m (.inl hm)
          · exact hu.knows.lent m (.inr hm)
        obtain ⟨⟨⟨added, hsealed⟩, hlabels⟩, -⟩ := hx _ _ _ _ hrun hready
        exact ⟨hsu.trans hs ⟨⟨added, hsealed.unlend hmarked⟩, hlabels⟩, trivial⟩
    · cases hmark

end Emit

end Arbor
