/-
  Protected blocks are sealed off.

  A protected block is a stretch of code, put together from stretches: its body, its
  filter blocks and its handlers.  Branches end in the stretch that they start in,
  so that the positions where one stretch follows on another are cuts, which no
  branch crosses and no nested region straddles.  The regions of the block start
  and end at such cuts.
-/
import Arbor.Proofs.Emission.Sealing

set_option autoImplicit false

namespace Arbor

namespace Builder

/-! ## Straight code -/

/-- Code without branches was added, and labels that no other code names. -/
structure Straight (b c : Builder) : Prop extends Builder.Extends b c where
  size : b.labels.size ≤ c.labels.size
  regions : c.regions = b.regions
  frame : ∀ i, i < b.labels.size → c.labels[i]? = b.labels[i]?
  branches : ∀ p i, b.position ≤ p → c.code[p]? = some i → i.branches = []

namespace Straight

variable {b c d : Builder}

theorem of_eq (hcode : c.code = b.code) (hlabels : c.labels = b.labels)
    (hregions : c.regions = b.regions) : Straight b c where
  toExtends := ⟨hcode ▸ List.prefix_rfl, fun _ _ h => hlabels ▸ h⟩
  size := Nat.le_of_eq (by rw [hlabels])
  regions := hregions
  frame i _ := by rw [hlabels]
  branches p i hp hi := by
    rw [hcode, Array.getElem?_eq_none hp] at hi
    cases hi

/-- Straight code after straight code. -/
theorem trans (h : Straight b c) (k : Straight c d) : Straight b d where
  toExtends := h.toExtends.trans k.toExtends
  size := Nat.le_trans h.size k.size
  regions := k.regions.trans h.regions
  frame i hi := (k.frame i (Nat.lt_of_lt_of_le hi h.size)).trans (h.frame i hi)
  branches p i hp hi := by
    rcases Nat.lt_or_ge p c.position with hlt | hge
    · rw [k.getElem?_code hlt] at hi
      exact h.branches p i hp hi
    · exact k.branches p i hge hi

theorem emit {i : Instr} (hi : i.branches = []) : Straight b (b.emit i) where
  toExtends := extends_emit b i
  size := Nat.le_refl _
  regions := rfl
  frame _ _ := rfl
  branches p j hp hj := by rw [getElem?_emit_of_le hp hj, hi]

/-- A new label. -/
theorem defineLabel : Straight b b.defineLabel.2 where
  toExtends := extends_defineLabel
  size := by simp [Builder.defineLabel]
  regions := rfl
  frame i hi := by
    rw [Builder.defineLabel, Array.getElem?_push_lt hi, Array.getElem?_eq_getElem hi]
  branches p i hp hi := by
    change b.code[p]? = some i at hi
    rw [Array.getElem?_eq_none hp] at hi
    cases hi

theorem acquire (pool : SlotPool) (ty : Ty) : Straight b (pool.acquire b ty).2.2 := by
  rcases pool.acquire_builder b ty with hb | hb <;> rw [hb] <;> exact .of_eq rfl rfl rfl

theorem markLabel (h : Straight b c) {l : Label} (hl : b.labels.size ≤ l.index)
    (hmark : c.markLabel l = .ok d) : Straight b d := by
  have hother := fun i hi => getElem?_markLabel_ne hmark (i := i) hi
  obtain ⟨-, rfl⟩ := markLabel_eq hmark
  refine ⟨h.toExtends.trans (extends_markLabel hmark), by simpa using h.size, h.regions,
    fun i hi => ?_, h.branches⟩
  rw [hother i (Nat.ne_of_gt (Nat.lt_of_lt_of_le hi hl)), h.frame i hi]

end Straight

/-! ## Stretches -/

/-- A stretch of code whose branches end in it.  No branch crosses a cut, and a region that starts
behind its start ends in front of a cut or starts behind it.  Labels in `free` are marked in it, but not branched to. -/
structure Stretch (S : Sealing) (free : List Label) (b c : Builder) (cuts : List Nat)
    (added : List (Region Nat)) : Prop extends Builder.Extends b c where
  known : S.labels ≤ b.labels.size
  size : b.labels.size ≤ c.labels.size
  regions : ∃ new, c.regions.toList = b.regions.toList ++ new ∧
    List.Forall₂ (Region.Resolves c.labels) new added
  within : ∀ g ∈ added, b.position ≤ g.tryStart ∧ g.handlerEnd ≤ c.position
  ranged : ∀ g ∈ added, g.Ranged
  placed : added.Pairwise Region.Placed
  grouped : ∀ g ∈ added, b.position < g.tryStart →
    S.Grouped c.code (added.filter (·.tryStart == g.tryStart))
  bounds : ∀ m ∈ cuts, b.position ≤ m ∧ m ≤ c.position
  cut : ∀ g ∈ added, b.position < g.tryStart → ∀ m ∈ cuts, g.handlerEnd ≤ m ∨ m < g.tryStart
  frame : ∀ l : Label, S.labels ≤ l.index → l.index < b.labels.size → l ∉ free →
    c.labels[l.index]? = b.labels[l.index]?
  branches : S.calm → ∀ p i, b.position ≤ p → c.code[p]? = some i → ∀ l ∈ i.branches,
    ((b.labels.size ≤ l.index ∧ l.index < c.labels.size) ∨ ∃ q, c.labels[l.index]? = some (some q)) ∧
      ∀ q, c.labels[l.index]? = some (some q) → b.position ≤ q ∧ q < c.position ∧
        (∀ g ∈ added, g.Level p q) ∧ ∀ m ∈ cuts, p < m ↔ q < m

namespace Stretch

variable {S : Sealing} {free free' : List Label} {b u c : Builder} {cuts cuts' : List Nat}
  {added more : List (Region Nat)}

/-- Straight code. -/
theorem of_straight (hb : S.labels ≤ b.labels.size) (h : Straight b c) : Stretch S [] b c [] [] where
  toExtends := h.toExtends
  known := hb
  size := h.size
  regions := ⟨[], by rw [h.regions, List.append_nil], .nil⟩
  within g hg := absurd hg List.not_mem_nil
  ranged g hg := absurd hg List.not_mem_nil
  placed := .nil
  grouped g hg := absurd hg List.not_mem_nil
  bounds m hm := absurd hm List.not_mem_nil
  cut g hg := absurd hg List.not_mem_nil
  frame l _ hl _ := h.frame l.index hl
  branches _ p i hp hi l hl := by
    rw [h.branches p i hp hi] at hl
    cases hl

/-- Sealed code in front of an instruction that does not branch. -/
theorem of_sealed (hb : S.labels ≤ b.labels.size) (h : Sealed S [] none [] b c added) {i : Instr}
    (hi : i.branches = []) : Stretch S [] b (c.emit i) [] added := by
  have hposition : (c.emit i).position = c.position + 1 := by simp [Builder.emit, Builder.position]
  have hcode : ∀ p, p < c.position → (c.emit i).code[p]? = c.code[p]? :=
    fun p hp => (extends_emit c i).getElem?_code hp
  refine ⟨h.toExtends.trans (extends_emit c i), hb, h.size, h.regions, fun g hg => ?_, h.ranged,
    h.placed, fun g hg _ => ?_, fun _ hm => absurd hm List.not_mem_nil,
    fun _ _ _ _ hm => absurd hm List.not_mem_nil, h.frame, fun hcalm p j hp hj l hl => ?_⟩
  · have := h.within g hg
    omega
  · refine (h.grouped g hg).congr
      (fun g' hg' => h.ranged g' (List.mem_of_mem_filter hg')) fun g' hg' p _ hp => hcode p ?_
    have := (h.within g' (List.mem_of_mem_filter hg')).2
    omega
  · rcases Nat.lt_or_ge p c.position with hlt | hge
    · rw [hcode p hlt] at hj
      rcases h.branches hcalm p j hp hj l hl with ⟨hlent, -⟩ | ⟨hknown, hlevel⟩
      · simp at hlent
      · refine ⟨hknown.imp_left fun h => ⟨h.1, h.2.1⟩, fun q hq => ?_⟩
        obtain ⟨hfirst, hlast, hadded⟩ := hlevel q hq
        exact ⟨hfirst, by omega, hadded, fun _ hm => absurd hm List.not_mem_nil⟩
    · rw [getElem?_emit_of_le hge hj, hi] at hl
      cases hl

/-- A label that was there in front of the stretch is marked behind it. -/
theorem markLabel (h : Stretch S [] b u cuts added) {l : Label} (hl : l.index < b.labels.size)
    (hmark : u.markLabel l = .ok c) : Stretch S [l] b c cuts added := by
  have hother : ∀ {m : Label}, m ≠ l → c.labels[m.index]? = u.labels[m.index]? := fun hne =>
    getElem?_markLabel_ne hmark fun heq => hne (by cases l; cases ‹Label›; simp_all)
  have hmarks := (extends_markLabel hmark).marks
  obtain ⟨hunmarked, rfl⟩ := markLabel_eq hmark
  refine ⟨h.toExtends.trans (extends_markLabel hmark), h.known, by simpa using h.size, ?_, h.within,
    h.ranged, h.placed, h.grouped, h.bounds, h.cut, fun m hm hlt hne => ?_,
    fun hcalm p i hp hi m hm => ?_⟩
  · obtain ⟨new, hnew, hresolved⟩ := h.regions
    exact ⟨new, hnew, hresolved.imp fun _ _ hg => hg.mono hmarks⟩
  · rw [hother (by simpa using hne), h.frame m hm hlt List.not_mem_nil]
  · obtain ⟨hknown, hlevel⟩ := h.branches hcalm p i hp hi m hm
    have hne : m ≠ l := by
      rintro rfl
      rcases hknown with hknown | ⟨q, hq⟩
      · exact absurd hl (Nat.not_lt_of_le hknown.1)
      · rw [hunmarked] at hq
        cases hq
    refine ⟨?_, fun q hq => hlevel q (by rwa [hother hne] at hq)⟩
    rcases hknown with hknown | ⟨q, hq⟩
    · exact .inl ⟨hknown.1, by simpa using hknown.2⟩
    · exact .inr ⟨q, hmarks _ _ hq⟩

/-- Only some of the cuts are kept. -/
theorem subset (h : Stretch S free b c cuts added) (hcuts : ∀ m ∈ cuts', m ∈ cuts) :
    Stretch S free b c cuts' added where
  toExtends := h.toExtends
  known := h.known
  size := h.size
  regions := h.regions
  within := h.within
  ranged := h.ranged
  placed := h.placed
  grouped := h.grouped
  bounds m hm := h.bounds m (hcuts m hm)
  cut g hg hstart m hm := h.cut g hg hstart m (hcuts m hm)
  frame := h.frame
  branches hcalm p i hp hi l hl := by
    obtain ⟨hknown, hlevel⟩ := h.branches hcalm p i hp hi l hl
    refine ⟨hknown, fun q hq => ?_⟩
    obtain ⟨hfirst, hlast, hadded, hcut⟩ := hlevel q hq
    exact ⟨hfirst, hlast, hadded, fun m hm => hcut m (hcuts m hm)⟩

/-- The end of a stretch is a cut. -/
theorem cutEnd (h : Stretch S free b c cuts added) (hadded : ∀ g ∈ added, g.handlerEnd ≤ c.position) :
    Stretch S free b c (c.position :: cuts) added where
  toExtends := h.toExtends
  known := h.known
  size := h.size
  regions := h.regions
  within := h.within
  ranged := h.ranged
  placed := h.placed
  grouped := h.grouped
  bounds := List.forall_mem_cons.mpr ⟨⟨h.position_le, Nat.le_refl _⟩, h.bounds⟩
  cut g hg hstart := List.forall_mem_cons.mpr ⟨.inl (hadded g hg), h.cut g hg hstart⟩
  frame := h.frame
  branches hcalm p i hp hi l hl := by
    obtain ⟨hknown, hlevel⟩ := h.branches hcalm p i hp hi l hl
    refine ⟨hknown, fun q hq => ?_⟩
    obtain ⟨hfirst, hlast, hadded, hcuts⟩ := hlevel q hq
    have hlt : p < c.position := (Array.getElem?_eq_some_iff.mp hi).1
    exact ⟨hfirst, hlast, hadded, List.forall_mem_cons.mpr ⟨iff_of_true hlt hlast, hcuts⟩⟩

/-- Stretches one after the other, where the first one does not branch to labels that are marked in the
second. -/
theorem append (h : Stretch S free b u cuts added) (k : Stretch S free' u c cuts' more)
    (hmore : ∀ g ∈ more, u.position < g.tryStart)
    (hfree : ∀ l ∈ free', b.labels.size ≤ l.index ∧
      ∀ p i, b.position ≤ p → u.code[p]? = some i → l ∉ i.branches) :
    Stretch S free b c (cuts ++ u.position :: cuts') (added ++ more) := by
  have hbu := h.position_le
  have huc := k.position_le
  have hleft : ∀ g ∈ added, g.handlerEnd ≤ u.position := fun g hg => (h.within g hg).2
  refine ⟨h.toExtends.trans k.toExtends, h.known, Nat.le_trans h.size k.size, ?_, ?_, ?_, ?_, ?_, ?_, ?_,
    fun l hl hlt hnot => ?_, fun hcalm p i hp hi l hl => ?_⟩
  · obtain ⟨first, hfirst, hresolved⟩ := h.regions
    obtain ⟨second, hsecond, hthen⟩ := k.regions
    refine ⟨first ++ second, by rw [hsecond, hfirst, List.append_assoc], ?_⟩
    exact List.rel_append (hresolved.imp fun _ _ hg => hg.mono k.marks) hthen
  · refine List.forall_mem_append.mpr ⟨fun g hg => ?_, fun g hg => ?_⟩
    · exact ⟨(h.within g hg).1, Nat.le_trans (hleft g hg) huc⟩
    · exact ⟨Nat.le_trans hbu (k.within g hg).1, (k.within g hg).2⟩
  · exact List.forall_mem_append.mpr ⟨h.ranged, k.ranged⟩
  · refine List.pairwise_append.mpr ⟨h.placed, k.placed, fun g hg g' hg' => .before ?_⟩
    exact Nat.le_trans (hleft g hg) (k.within g' hg').1
  · refine List.forall_mem_append.mpr ⟨fun g hg hstart => ?_, fun g hg _ => ?_⟩
    · have hnone : more.filter (·.tryStart == g.tryStart) = [] :=
        Sealed.filter_tryStart_eq_nil fun g' hg' => by
          have := hleft g hg
          have := (h.ranged g hg).start_lt_end
          have := hmore g' hg'
          omega
      rw [List.filter_append, hnone, List.append_nil]
      refine (h.grouped g hg hstart).congr
        (fun g' hg' => h.ranged g' (List.mem_of_mem_filter hg')) fun g' hg' p _ hp => ?_
      exact k.getElem?_code (Nat.lt_of_lt_of_le hp (hleft g' (List.mem_of_mem_filter hg')))
    · have hnone : added.filter (·.tryStart == g.tryStart) = [] :=
        Sealed.filter_tryStart_eq_nil fun g' hg' => by
          have := hleft g' hg'
          have := (h.ranged g' hg').start_lt_end
          have := hmore g hg
          omega
      rw [List.filter_append, hnone, List.nil_append]
      exact k.grouped g hg (hmore g hg)
  · refine List.forall_mem_append.mpr ⟨fun m hm => ?_, List.forall_mem_cons.mpr ⟨⟨hbu, huc⟩, fun m hm => ?_⟩⟩
    · have := h.bounds m hm
      omega
    · have := k.bounds m hm
      omega
  · refine List.forall_mem_append.mpr ⟨fun g hg hstart => List.forall_mem_append.mpr
      ⟨h.cut g hg hstart, List.forall_mem_cons.mpr ⟨.inl (hleft g hg), fun m hm => ?_⟩⟩,
      fun g hg _ => List.forall_mem_append.mpr ⟨fun m hm => ?_, List.forall_mem_cons.mpr
        ⟨.inr (hmore g hg), k.cut g hg (hmore g hg)⟩⟩⟩
    · exact .inl (Nat.le_trans (hleft g hg) (k.bounds m hm).1)
    · exact .inr (Nat.lt_of_le_of_lt (h.bounds m hm).2 (hmore g hg))
  · have hother : l ∉ free' := fun hmem => absurd (hfree l hmem).1 (Nat.not_le_of_lt hlt)
    rw [k.frame l hl (Nat.lt_of_lt_of_le hlt h.size) hother, h.frame l hl hlt hnot]
  · rcases Nat.lt_or_ge p u.position with hpu | hpu
    · rw [k.getElem?_code hpu] at hi
      obtain ⟨hknown, hlevel⟩ := h.branches hcalm p i hp hi l hl
      have hother : l ∉ free' := fun hmem => (hfree l hmem).2 p i hp hi hl
      have hsame : ∀ q, c.labels[l.index]? = some (some q) → u.labels[l.index]? = some (some q) := by
        intro q hq
        rcases hknown with ⟨hge, hlt⟩ | ⟨q', hq'⟩
        · rwa [k.frame l (Nat.le_trans h.known hge) hlt hother] at hq
        · rw [k.marks _ _ hq'] at hq
          cases hq
          exact hq'
      refine ⟨?_, fun q hq => ?_⟩
      · rcases hknown with ⟨hge, hlt⟩ | ⟨q', hq'⟩
        · exact .inl ⟨hge, Nat.lt_of_lt_of_le hlt k.size⟩
        · exact .inr ⟨q', k.marks _ _ hq'⟩
      · obtain ⟨hfirst, hlast, hadded, hcuts⟩ := hlevel q (hsame q hq)
        refine ⟨hfirst, by omega, List.forall_mem_append.mpr ⟨hadded, fun g hg => ?_⟩,
          List.forall_mem_append.mpr ⟨hcuts, List.forall_mem_cons.mpr ⟨by omega, fun m hm => ?_⟩⟩⟩
        · have := hmore g hg
          exact .of_off (k.ranged g hg) (.inl (by omega)) (.inl (by omega))
        · have := (k.bounds m hm).1
          omega
    · obtain ⟨hknown, hlevel⟩ := k.branches hcalm p i hpu hi l hl
      refine ⟨hknown.imp_left fun ⟨hge, hlt⟩ => ⟨Nat.le_trans h.size hge, hlt⟩, fun q hq => ?_⟩
      obtain ⟨hfirst, hlast, hadded, hcuts⟩ := hlevel q hq
      refine ⟨by omega, hlast, List.forall_mem_append.mpr ⟨fun g hg => ?_, hadded⟩,
        List.forall_mem_append.mpr ⟨fun m hm => ?_, List.forall_mem_cons.mpr ⟨by omega, hcuts⟩⟩⟩
      · have := hleft g hg
        exact .of_off (h.ranged g hg) (.inr (by omega)) (.inr (by omega))
      · have := (h.bounds m hm).2
        omega

/-- Straight code, and sealed code behind it with an instruction that does not branch, behind which a
new label is marked. -/
theorem marked {y z : Builder} {finish : Label} {i : Instr} (hb : S.labels ≤ b.labels.size)
    (hy : Straight b y) (hz : Sealed S [] none [] y z more) (hi : i.branches = [])
    (hnew : b.labels.size ≤ finish.index) (hthere : finish.index < y.labels.size)
    (hmark : (z.emit i).markLabel finish = .ok c) : Stretch S [] b c [y.position] more := by
  have hsealed := (of_sealed (Nat.le_trans hb hy.size) hz hi).markLabel hthere hmark
  refine (of_straight hb hy).append hsealed (fun g hg => (hz.within g hg).1) fun l hl => ?_
  obtain rfl := List.mem_singleton.mp hl
  refine ⟨hnew, fun p j hp hj hmem => ?_⟩
  rw [hy.branches p j hp hj] at hmem
  cases hmem

/-- A region from the start of the stretch to its end, with its ranges between cuts.  The regions that
start there as well have their handlers in front of its handler, and have its body or lie within it. -/
theorem addRegion (h : Stretch S free b c cuts added) {r : Region Label} {g : Region Nat}
    (hr : r.Resolves c.labels g) (hg : g.Ranged) (hstart : g.tryStart = b.position)
    (hend : g.tryEnd ∈ cuts) (hfirst : g.handlerFirst ∈ cuts) (hhandler : g.handlerStart ∈ cuts)
    (hlast : g.handlerEnd = c.position)
    (hown : ∀ k ∈ added, k.tryStart = b.position →
      k.handlerEnd ≤ g.handlerFirst ∧ (k.tryEnd = g.tryEnd ∨ k.handlerEnd ≤ g.tryEnd)) :
    Stretch S free b (c.addRegion r) cuts (added ++ [g]) := by
  refine ⟨⟨h.code, h.marks⟩, h.known, h.size, ?_, ?_, ?_, ?_, ?_, h.bounds, ?_, h.frame,
    fun hcalm p i hp hi l hl => ?_⟩
  · obtain ⟨new, hnew, hresolved⟩ := h.regions
    refine ⟨new ++ [r], by simp [Builder.addRegion, hnew], ?_⟩
    exact List.rel_append hresolved (.cons hr .nil)
  · exact List.forall_mem_append.mpr ⟨h.within, List.forall_mem_singleton.mpr
      ⟨Nat.le_of_eq hstart.symm, Nat.le_of_eq hlast⟩⟩
  · exact List.forall_mem_append.mpr ⟨h.ranged, List.forall_mem_singleton.mpr hg⟩
  · refine List.pairwise_append.mpr ⟨h.placed, List.pairwise_singleton _ _, fun k hk g' hg' => ?_⟩
    obtain rfl := List.mem_singleton.mp hg'
    rcases Nat.lt_or_eq_of_le (h.within k hk).1 with hlt | heq
    · rcases h.cut k hk hlt _ hend with hle | hge
      · exact .inBody (by omega) hle
      · rcases h.cut k hk hlt _ hfirst with hle | hge'
        · exact .between (Nat.le_of_lt hge) hle
        · rcases h.cut k hk hlt _ hhandler with hle | hge''
          · exact .inFilter (Nat.le_of_lt hge') hle
          · exact .inHandler hge'' (by rw [hlast]; exact (h.within k hk).2)
    · obtain ⟨hbehind, hsame | hin⟩ := hown k hk heq.symm
      · exact .beside (heq.symm.trans hstart.symm) hsame hbehind
      · exact .inBody (by omega) hin
  · refine List.forall_mem_append.mpr ⟨fun k hk hlt => ?_, List.forall_mem_singleton.mpr fun hlt => ?_⟩
    · have hnone : [g].filter (·.tryStart == k.tryStart) = [] :=
        Sealed.filter_tryStart_eq_nil (List.forall_mem_singleton.mpr (by
          have hlt : b.position < k.tryStart := hlt
          omega))
      rw [List.filter_append, hnone, List.append_nil]
      exact h.grouped k hk hlt
    · have hlt : b.position < g.tryStart := hlt
      omega
  · refine List.forall_mem_append.mpr ⟨h.cut, List.forall_mem_singleton.mpr fun hlt => ?_⟩
    have hlt : b.position < g.tryStart := hlt
    omega
  · obtain ⟨hknown, hlevel⟩ := h.branches hcalm p i hp hi l hl
    refine ⟨hknown, fun q hq => ?_⟩
    obtain ⟨hge, hlt, hadded, hcuts⟩ := hlevel q hq
    have hp : b.position ≤ p := hp
    have hplt : p < c.position := (Array.getElem?_eq_some_iff.mp hi).1
    refine ⟨hge, hlt, List.forall_mem_append.mpr ⟨hadded, List.forall_mem_singleton.mpr ?_⟩, hcuts⟩
    have hbody := hcuts _ hend
    have hfilter := hcuts _ hfirst
    have hstart' := hcuts _ hhandler
    constructor <;> omega

/-- A protected block behind code without branches, with its parts. -/
theorem toSealed (P : Straight b u) (hlt : b.position < u.position) {own : List Label}
    {exit : Option Label} (hb : S.Knows b own exit) {finish : Label} (hfree : ∀ l ∈ free, b.labels.size ≤ l.index)
    (h : Stretch S free u c cuts added) (hfinish : b.labels.size ≤ finish.index)
    (hthere : finish.index < u.labels.size) (hunmarked : c.labels[finish.index]? = some none)
    (hgroup : S.Grouped c.code (added.filter (·.tryStart == u.position))) :
    Sealed S own exit [finish] b c added where
  toExtends := P.toExtends.trans h.toExtends
  size := Nat.le_trans P.size h.size
  regions := by
    obtain ⟨new, hnew, hresolved⟩ := h.regions
    exact ⟨new, by rw [hnew, P.regions], hresolved⟩
  within g hg := ⟨Nat.lt_of_lt_of_le hlt (h.within g hg).1, (h.within g hg).2⟩
  ranged := h.ranged
  placed := h.placed
  grouped g hg := by
    rcases Nat.lt_or_eq_of_le (h.within g hg).1 with hlt | heq
    · exact h.grouped g hg hlt
    · rw [← heq]
      exact hgroup
  fresh l hl := by
    rw [List.mem_singleton.mp hl]
    exact .inr ⟨hfinish, Nat.lt_of_lt_of_le hthere h.size⟩
  frame l hl hlt _ := by
    rw [h.frame l hl (Nat.lt_of_lt_of_le hlt P.size) fun hmem =>
      absurd (hfree l hmem) (Nat.not_le_of_lt hlt), P.frame l.index hlt]
  landings l hl q hq := by
    rcases List.mem_cons.mp hl with rfl | hl
    · rw [hunmarked] at hq
      cases hq
    · obtain ⟨hlt, hknown⟩ := hb.lent l (.inl hl)
      rcases hknown with hknown | ⟨q', hq'⟩
      · rw [h.frame l hknown (Nat.lt_of_lt_of_le hlt P.size) fun hmem =>
          absurd (hfree l hmem) (Nat.not_le_of_lt hlt), P.frame l.index hlt] at hq
        exact .inl hq
      · rw [h.marks _ _ (P.marks _ _ hq')] at hq
        cases hq
        exact .inl hq'
  branches hcalm p i hp hi l hl := by
    rcases Nat.lt_or_ge p u.position with hpu | hpu
    · rw [h.getElem?_code hpu] at hi
      rw [P.branches p i hp hi] at hl
      cases hl
    · obtain ⟨hknown, hlevel⟩ := h.branches hcalm p i hpu hi l hl
      refine .inr ⟨?_, fun q hq => ?_⟩
      · refine hknown.imp_left fun ⟨hge, hlt⟩ => ⟨Nat.le_trans P.size hge, hlt, fun hmem => ?_⟩
        rw [List.mem_singleton.mp hmem] at hge
        exact absurd hthere (Nat.not_lt_of_le hge)
      · obtain ⟨hfirst, hlast, hadded, -⟩ := hlevel q hq
        exact ⟨by omega, Nat.le_of_lt hlast, hadded⟩

end Stretch

end Builder

end Arbor
