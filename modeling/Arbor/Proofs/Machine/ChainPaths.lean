/-
  What a chain leads through once it has been extended.

  Where the objects, arrays and lists on a chain are pairwise distinct, no change on
  the way disturbs what was passed before.  So in the end the chain can be followed
  again, the containers that it indexes have grown as far as needed, and new objects
  are zero but for the fields on the chain.
-/
import Arbor.Proofs.Machine.Chains

set_option autoImplicit false

namespace Arbor

namespace Memory

/-- An element of an array or list. -/
def item? (r : Registry) (m : Memory) (v : Option Value) (i : Nat) : Option Value :=
  (v.bind (·.cellAt? i)).bind (m.cell? r)

/-- The container `v` is what has become of `old`, or is new, and it reaches the index: it has the
elements of the old one and is filled up with zeros, apart from the element at the index. -/
structure Lengthened (r : Registry) (elem : Ty) (m n : Memory) (old : Option Value) (v : Value) (i : Nat) :
    Prop where
  length : n.heap.length? v = some (max ((old.bind m.heap.length?).getD 0) (i + 1))
  kept : ∀ (j : Nat) (x : Value), j ≠ i → m.item? r old j = some x → n.item? r (some v) j = some x
  filled : ∀ j : Nat, (old.bind m.heap.length?).getD 0 ≤ j → j < i →
    ∃ zero, r.zero elem = .ok zero ∧ n.item? r (some v) j = some zero

/-- Objects that are new in the second memory are zero apart from the cells. -/
def Zeroed (r : Registry) (m n : Memory) (cells : List Cell) : Prop :=
  ∀ (ref : Ref) (c : ObjectCell), m.heap.objects[ref]? = none → n.heap.objects[ref]? = some c →
    ∃ layout zeros, r.layout c.ty = .ok layout ∧ layout.mapM r.zero = .ok zeros ∧
      c.fields.size = zeros.length ∧ ∀ (slot : Nat) (z : Value), zeros[slot]? = some z →
        .field ref slot ∉ cells → n.cell? r (.field ref slot) = some z

variable {r : Registry} {m n n' : Memory} {ty elem : Ty} {v : Value} {k cell : Cell} {w : IndexWord}
  {count i : Nat} {changed : Cell → Prop} {grown : Ref → Prop} {old : Option Value}

theorem objects_setCell {ref : Ref} (h : m.heap.objects[ref]? = none) (k : Cell) (v : Value) :
    (m.setCell k v).heap.objects[ref]? = none := by
  cases k with
  | field object slot =>
      simp only [setCell, shared, Heap.setField, Array.getElem?_modify, h]
      split <;> rfl
  | var slot => cases slot <;> exact h
  | _ => exact h

namespace Lengthened

/-- A container that has its elements keeps them where nothing but its element at the index changes. -/
theorem later (h : Lengthened r elem m n old v i) (hextends : n.Extends r (· = k) grown n')
    (hk : ∀ j, j ≠ i → v.cellAt? j ≠ some k) (hgrown : ∀ ref, v = .list ref → ¬ grown ref) :
    Lengthened r elem m n' old v i := by
  have hitem : ∀ (j : Nat) (x : Value), j ≠ i → n.item? r (some v) j = some x →
      n'.item? r (some v) j = some x := by
    intro j x hj hx
    obtain ⟨cell, hcell, hvalue⟩ := Option.bind_eq_some_iff.mp hx
    refine Option.bind_eq_some_iff.mpr ⟨cell, hcell, hextends.cells cell x ?_ hvalue⟩
    rintro rfl
    exact hk j hj hcell
  refine ⟨?_, fun j x hj hx => hitem j x hj (h.kept j x hj hx), fun j hle hlt => ?_⟩
  · rw [← h.length]
    cases v with
    | array ref =>
        obtain ⟨c, hc, hsize⟩ := Option.map_eq_some_iff.mp h.length
        obtain ⟨c', hc', -, -, hsize'⟩ := hextends.arrays ref c hc
        simp [Heap.length?, hc, hc', hsize']
    | list ref =>
        obtain ⟨c, hc, hsize⟩ := Option.map_eq_some_iff.mp h.length
        obtain ⟨c', hc', -, -, hsize'⟩ := hextends.lists ref c hc
        simp [Heap.length?, hc, hc', hsize' (hgrown ref rfl)]
    | _ => cases h.length
  · obtain ⟨zero, hzero, hx⟩ := h.filled j hle hlt
    exact ⟨zero, hzero, hitem j zero (Nat.ne_of_lt hlt) hx⟩

end Lengthened

theorem lengthened_of_pads {items result : Array Value} {zero : Value} (hzero : r.zero elem = .ok zero)
    (hpads : Pads items (i + 1) zero result) (hlength : m.heap.length? v = some items.size)
    (hold : ∀ j, m.item? r (some v) j = items[j]?) {v' : Value}
    (hlength' : n.heap.length? v' = some result.size)
    (hnew : ∀ j, n.item? r (some v') j = result[j]?) : Lengthened r elem m n (some v) v' i := by
  refine ⟨?_, fun j x hj hx => ?_, fun j hle hlt => ⟨zero, hzero, ?_⟩⟩
  · rw [hlength', hpads.size, Option.bind_some, hlength, Option.getD_some]
  · rw [hold] at hx
    rw [hnew, hpads.kept j (Array.getElem?_eq_some_iff.mp hx).1, hx]
  · rw [Option.bind_some, hlength, Option.getD_some] at hle
    rw [hnew, hpads.filled j hle (by omega)]

/-- A container that reaches the index. -/
theorem Reached.lengthened (hreached : Reached r w m k v n cell) (hk : m.cell? r k = some v)
    (hlow : 0 ≤ w.val) (hv : m.heap.Container elem v count) :
    ∃ v', n.cell? r k = some v' ∧ v'.cellAt? w.val.toNat = some cell ∧ cell.holder = some v' ∧
      (v' = v ∨ ∀ x : Cell, x.holder = some v' → m.cell? r x = none) ∧
      Lengthened r elem m n (some v) v' w.val.toNat := by
  obtain ⟨v', hvalue, hcell, hholder⟩ := hreached.element hk
  have hthere : (m.cell? r k).isSome := by rw [hk]; rfl
  refine ⟨v', hvalue, hcell, hholder, ?_⟩
  cases hreached with
  | within hlength hlt hcell' =>
      obtain rfl := Option.some.inj (hk.symm.trans hvalue)
      obtain rfl := Option.some.inj (hlength.symm.trans hv.length)
      refine ⟨.inl rfl, ?_, fun j x _ hx => hx, fun j hle hj => ?_⟩
      · rw [Option.bind_some, hlength, Option.getD_some, Nat.max_eq_left (by omega)]
      · rw [Option.bind_some, hlength, Option.getD_some] at hle
        omega
  | @array ref c zero hc hshort hzero =>
      cases hv with
      | @array _ c' hc' helem =>
        obtain rfl := Option.some.inj (hc.symm.trans hc')
        obtain rfl : Value.array m.heap.arrays.size = v' := by
          cases v' <;> cases hholder
          rfl
        have hpads := pads_padded c.data (w.val.toNat + 1) zero
        have hnone : ∀ x : Cell, x.holder = some (.array m.heap.arrays.size) → m.cell? r x = none := by
          intro x hx
          cases x <;> cases hx
          simp [cell?, Heap.elem?]
        refine ⟨.inr hnone, lengthened_of_pads (helem ▸ hzero) hpads
          (by simp [Heap.length?, hc, ArrayCell.size])
          (fun j => by simp [item?, Value.cellAt?, cell?, Heap.elem?, hc]) ?_ fun j => ?_⟩
        · have hgrows := (Extends.grow (r := r)
            (Heap.grows_newArray m.heap ⟨c.elem, [w.val.toNat + 1],
              padded c.data (w.val.toNat + 1) zero⟩)).there k hthere
          obtain ⟨c', hc', -, -, hsize⟩ := (Extends.setCell hgrows
            (.array m.heap.arrays.size)).arrays m.heap.arrays.size _ Array.getElem?_push_size
          simp only [Heap.length?, hc', Option.map_some, hsize]
          rfl
        · have hne : Cell.elem m.heap.arrays.size j ≠ k := by
            rintro rfl
            rw [hnone _ rfl] at hthere
            cases hthere
          rw [item?, Option.bind_some, Value.cellAt?, Option.bind_some, cell?_setCell_ne hne]
          simp [cell?, shared, Heap.elem?, Heap.newArray]
  | @list ref c zero hc hshort hzero =>
      cases hv with
      | @list _ c' hc' helem =>
        obtain rfl := Option.some.inj (hc.symm.trans hc')
        obtain rfl : Value.list ref = v' := by
          cases v' <;> cases hholder
          rfl
        refine ⟨.inl rfl, lengthened_of_pads (helem ▸ hzero) (pads_padded c.items (w.val.toNat + 1) zero)
          (by simp [Heap.length?, hc]) (fun j => by simp [item?, Value.cellAt?, cell?, Heap.item?, hc])
          (by simp [Heap.length?, shared, Heap.lists_setItems hc])
          fun j => by simp [item?, Value.cellAt?, cell?, shared, Heap.item?, Heap.lists_setItems hc]⟩

namespace Zeroed

variable {cells : List Cell}

/-- New objects stay zero where nothing but the cells changes and no object is added. -/
theorem later (h : Zeroed r m n cells) (hextends : n.Extends r changed grown n')
    (hchanged : ∀ k, changed k → k ∈ cells)
    (hobjects : ∀ ref : Ref, n.heap.objects[ref]? = none → n'.heap.objects[ref]? = none) :
    Zeroed r m n' cells := by
  intro ref c' hnone hc'
  cases hc : n.heap.objects[ref]? with
  | none =>
      rw [hobjects ref hc] at hc'
      cases hc'
  | some c =>
      obtain ⟨layout, zeros, hlayout, hzeros, hsize, hfields⟩ := h ref c hnone hc
      obtain ⟨c'', hc'', hty, hsize'⟩ := hextends.objects ref c hc
      obtain rfl := Option.some.inj (hc'.symm.trans hc'')
      refine ⟨layout, zeros, by rw [hty, hlayout], hzeros, hsize'.trans hsize, fun slot z hz hcell => ?_⟩
      exact hextends.cells _ _ (fun hk => hcell (hchanged _ hk)) (hfields slot z hz hcell)

/-- A new instance is zero. -/
theorem fresh {h' : Heap} (h : Zeroed r m n cells) (hnew : r.Fresh n.heap ty h' v) :
    Zeroed r m (n.shared h' n.statics) cells := by
  have hextends := Extends.grow (r := r) hnew.grows
  cases hnew with
  | array | list => exact h.later hextends nofun fun ref href => href
  | @object id layout zeros hlayout hzeros =>
      intro ref c hnone hc
      by_cases hlast : ref = n.heap.objects.size
      · subst hlast
        obtain rfl : ⟨id, zeros.toArray⟩ = c := by simpa [shared, Heap.newObject] using hc
        refine ⟨layout, zeros, hlayout, hzeros, by simp, fun slot z hz _ => ?_⟩
        simpa [cell?, shared, Heap.field?, Heap.newObject] using hz
      · have hold : n.heap.objects[ref]? = some c := by
          simpa [shared, Heap.newObject, Array.getElem?_push, hlast] using hc
        obtain ⟨layout', zeros', hlayout', hzeros', hsize, hfields⟩ := h ref c hnone hold
        exact ⟨layout', zeros', hlayout', hzeros', hsize, fun slot z hz hcell =>
          hextends.cells _ _ not_false (hfields slot z hz hcell)⟩

theorem made (h : Zeroed r m n cells) (hmade : Made r ty n k n' v) (hk : k ∈ cells) :
    Zeroed r m n' cells := by
  cases hmade with
  | present => exact h
  | fresh hnull hnew =>
      have hthere := (Extends.grow (r := r)
        hnew.grows).there k (by rw [hnull]; rfl)
      exact (h.fresh hnew).later (.setCell hthere v) (by rintro _ rfl; exact hk)
        fun ref href => objects_setCell href k v

/-- A container in one of the cells is made to reach an index. -/
theorem reached (h : Zeroed r m n cells) (hreached : Reached r w n k v n' cell)
    (hvalue : n.cell? r k = some v) (hk : k ∈ cells) : Zeroed r m n' cells := by
  refine h.later (hreached.extends hvalue) (by rintro _ rfl; exact hk) fun ref href => ?_
  cases hreached with
  | within | list => exact href
  | array => exact objects_setCell (m := n.shared (n.heap.newArray _).2 n.statics) href k _

end Zeroed

end Memory

namespace Chain

variable {r : Registry} {e : Site} {m n n' : Memory} {c : Chain} {k : Cell} {l : Link} {ty : Ty} {v : Value}

/-- The chain leads to the cell through distinct objects, arrays and lists; the containers reach the
indices, and new objects are zero off the chain. -/
structure Path (r : Registry) (e : Site) (m : Memory) (c : Chain) (n : Memory) (k : Cell) : Prop where
  located : c.cell? r e n = some k
  there : ∀ x ∈ c.cells r e n, (n.cell? r x).isSome
  distinct : c.Distinct r e n
  lengthened : ∀ (d : Chain) (w : IndexWord) (ty : Ty), Within (link d (.element w) ty) c →
    ∃ v cell, d.value? r e n = some v ∧ v.cellAt? w.val.toNat = some cell ∧ cell ∈ c.cells r e n ∧
      Memory.Lengthened r ty m n (d.value? r e m) v w.val.toNat
  zeroed : Memory.Zeroed r m n (c.cells r e n)

theorem Distinct.eq_of_holder {x y : Cell} (h : c.Distinct r e m) (hx : x ∈ c.cells r e m)
    (hy : y ∈ c.cells r e m) (hholder : x.holder = y.holder) : x = y :=
  List.inj_on_of_nodup_map h hx hy hholder

theorem Distinct.not_mem_support (h : c.Distinct r e m) (hcell : c.cell? r e m = some k) :
    k ∉ c.support r e m := by
  have hnodup := List.Nodup.of_map _ h
  rw [cells, hcell, Option.toList_some, List.nodup_append] at hnodup
  exact fun hk => hnodup.2.2 k hk k List.mem_cons_self rfl

theorem Distinct.receiver (h : (link c l ty).Distinct r e m) : c.Distinct r e m := by
  unfold Distinct cells support at h
  rw [List.map_append] at h
  exact (List.nodup_append.mp h).1

namespace Path

/-- A change of the last cell, and of lists off the chain, leaves the path. -/
theorem later {grown : Ref → Prop} (h : Path r e m c n k) (hextends : n.Extends r (· = k) grown n')
    (hgrown : ∀ ref, grown ref → some (.list ref) ∉ (c.cells r e n).map Cell.holder)
    (hzeroed : Memory.Zeroed r m n' (c.cells r e n)) :
    c.cells r e n' = c.cells r e n ∧ Path r e m c n' k := by
  have hlast := h.distinct.not_mem_support h.located
  have hsame : ∀ x ∈ c.support r e n, n'.cell? r x = n.cell? r x := by
    intro x hx
    obtain ⟨y, hy⟩ := Option.isSome_iff_exists.mp (h.there x (List.mem_append_left _ hx))
    rw [hy]
    exact hextends.cells x y (fun heq => hlast (heq ▸ hx)) hy
  obtain ⟨hcell, hsupport⟩ := cell?_congr hsame
  have hcells : c.cells r e n' = c.cells r e n := by rw [cells, cells, hcell, hsupport]
  refine ⟨hcells, hcell.trans h.located, ?_, ?_, ?_, by rwa [hcells]⟩
  · rw [hcells]
    exact fun x hx => hextends.there x (h.there x hx)
  · unfold Distinct
    rw [hcells]
    exact h.distinct
  · intro d w ty hwithin
    obtain ⟨v, cell, hv, hat, hmem, hlengthened⟩ := h.lengthened d w ty hwithin
    have hinner : ∀ x ∈ d.cells r e n, x ∈ c.support r e n := fun x hx =>
      hwithin.support_subset hx
    obtain ⟨hcell', -⟩ := cell?_congr (c := d) fun x hx => hsame x (hinner x (List.mem_append_left _ hx))
    obtain ⟨x, hx, hxv⟩ := Option.bind_eq_some_iff.mp hv
    have hholder : cell.holder = some v := by
      cases v <;> cases hat <;> rfl
    refine ⟨v, cell, ?_, hat, by rwa [hcells], hlengthened.later hextends ?_ ?_⟩
    · rw [value?, hcell', hx, Option.bind_some, hsame x (hinner x (mem_cells hx)), hxv]
    · intro j hj hjk
      have hk : k.holder = some v := by
        cases v <;> cases hjk <;> rfl
      have heq := h.distinct.eq_of_holder hmem (mem_cells h.located) (hholder.trans hk.symm)
      rw [heq] at hat
      exact hj (by cases v <;> cases hat <;> cases hjk <;> rfl)
    · rintro ref rfl href
      exact hgrown ref href (List.mem_map.mpr ⟨cell, hmem, hholder⟩)

/-- A path goes on with a step to a part of something that it has not led through. -/
theorem link {cell : Cell} (h : Path r e m c n k) (hv : n.cell? r k = some v) (hcell : l.cell? r v = some cell)
    (hthere : (n.cell? r cell).isSome) (hnew : some v ∉ (c.cells r e n).map Cell.holder)
    (hlengthened : ∀ w, l = .element w →
      Memory.Lengthened r ty m n (c.value? r e m) v w.val.toNat) :
    Path r e m (link c l ty) n cell := by
  have hlocated : (Chain.link c l ty).cell? r e n = some cell := by
    rw [cell?, h.located, Option.bind_some, hv, Option.bind_some, hcell]
  have hcells : (Chain.link c l ty).cells r e n = c.cells r e n ++ [cell] := by
    rw [cells, hlocated]
    rfl
  have hmem : cell ∈ (Chain.link c l ty).cells r e n := mem_cells hlocated
  refine ⟨hlocated, ?_, ?_, ?_, ?_⟩
  · rw [hcells, List.forall_mem_append]
    exact ⟨h.there, fun x hx => by rw [List.mem_singleton.mp hx]; exact hthere⟩
  · rw [Distinct, hcells, List.map_append, List.map_singleton, List.nodup_append]
    refine ⟨h.distinct, List.nodup_singleton _, fun x hx y hy => ?_⟩
    rw [List.mem_singleton.mp hy, Link.holder_of_cell? hcell]
    rintro rfl
    exact hnew hx
  · intro d w ty' hwithin
    cases hwithin with
    | refl =>
        have hat : v.cellAt? w.val.toNat = some cell := hcell
        refine ⟨v, cell, ?_, hat, hmem, hlengthened w rfl⟩
        rw [value?, h.located, Option.bind_some, hv]
    | link hwithin =>
        obtain ⟨v', cell', hv', hat', hmem', hlengthened'⟩ := h.lengthened d w ty' hwithin
        exact ⟨v', cell', hv', hat', List.mem_append_left _ hmem', hlengthened'⟩
  · intro ref o hnone ho
    obtain ⟨layout, zeros, hlayout, hzeros, hsize, hfields⟩ := h.zeroed ref o hnone ho
    exact ⟨layout, zeros, hlayout, hzeros, hsize, fun slot z hz hoff =>
      hfields slot z hz fun hin => hoff (List.mem_append_left _ hin)⟩

theorem written (h : Path r e m c n k) (v : Value) :
    Path r e m c (n.setCell k v) k ∧ c.value? r e (n.setCell k v) = some v := by
  have hlast := mem_cells h.located
  have hthere := h.there k hlast
  have hextends := Memory.Extends.setCell (r := r) hthere v
  obtain ⟨-, hpath⟩ := h.later hextends nofun (h.zeroed.later hextends (by rintro _ rfl; exact hlast)
    fun ref href => Memory.objects_setCell href k v)
  refine ⟨hpath, ?_⟩
  rw [value?, hpath.located, Option.bind_some, Memory.cell?_setCell_self hthere]

/-- What is made at the end of a path has not been led through. -/
theorem made (h : Path r e m c n k) (hcourse : Course r e m c n k) (hcreates : r.Creates c.ty)
    (hmade : Memory.Made r c.ty n k n' v) (hdistinct : (Chain.link c l ty).Distinct r e m)
    (hstep : ∃ x, l.cell? r v = some x) :
    Path r e m c n' k ∧ some v ∉ (c.cells r e n').map Cell.holder := by
  obtain ⟨hcells, hpath⟩ := h.later hmade.extends nofun (h.zeroed.made hmade (mem_cells h.located))
  refine ⟨hpath, ?_⟩
  rw [hcells]
  rcases hcourse.stage.made hcreates hmade with ⟨rfl, rfl, hcell, hv⟩ | ⟨-, heap, hnew, rfl, -⟩
  · obtain ⟨x, hx⟩ := hstep
    have hlast : (Chain.link c l ty).cell? r e n' = some x := by
      rw [cell?, hcell, Option.bind_some, hv, Option.bind_some, hx]
    rw [Distinct, cells, hlast, List.map_append, List.nodup_append] at hdistinct
    exact fun hin => hdistinct.2.2 _ hin _ List.mem_cons_self (Link.holder_of_cell? hx).symm
  · intro hin
    obtain ⟨x, hx, hholder⟩ := List.mem_map.mp hin
    have hthere := h.there x hx
    rw [hnew.cell?_eq_none hholder] at hthere
    cases hthere

end Path

/-- A chain with distinct holders is extended along a path. -/
theorem Located.path (hord : r.Ordered) (h : Located r e m c n k) (htyped : c.Typed r)
    (hfits : c.Fits r e m) (hdistinct : c.Distinct r e m) : Path r e m c n k := by
  induction h with
  | @root x ty k hcell =>
      obtain ⟨k', hk', hthere, htable, -⟩ := hfits
      obtain rfl := Option.some.inj (hcell.symm.trans hk')
      refine ⟨hcell, ?_, hdistinct, fun d w ty' hwithin => ?_, fun ref o hnone ho => ?_⟩
      · intro y hy
        rcases List.mem_append.mp hy with hy | hy
        · exact htable y hy
        · rw [show (Chain.root x ty).cell? r e m = some k from hcell] at hy
          rw [List.mem_singleton.mp hy]
          exact hthere
      · cases hwithin
      · rw [hnone] at ho
        cases ho
  | @field c l f ty n n' k ref slot hf hc hmade hslot ih =>
      obtain ⟨htyped, hcreates, hl⟩ := htyped
      have hcourse := hc.course hord htyped hfits.1
      have hstep := Link.cell?_field hf hslot ref
      obtain ⟨hpath, hnew⟩ := (ih htyped hfits.1 hdistinct.receiver).made hcourse hcreates hmade hdistinct
        ⟨_, hstep⟩
      refine hpath.link hmade.value hstep ?_ hnew ?_
      · exact (hcourse.field hord hcreates hl hfits.2 hf hmade hslot).stage.there
      · rintro w rfl
        cases hf
  | @element c w ty n n' n'' k cell v hc hmade hreached ih =>
      obtain ⟨htyped, hcreates, hl⟩ := htyped
      have hcourse := hc.course hord htyped hfits.1
      obtain ⟨hty, hlow, -⟩ := hl.of_element
      have hpresent := hmade.isPresent
      obtain ⟨count, hcontainer, -⟩ := hmade.container hty fun hv =>
        (hcourse.refers hcreates hfits.2 hv).resolve_left (by rintro rfl; cases hpresent)
      obtain ⟨x, hx, -⟩ := hcontainer.cellAt w.val.toNat
      obtain ⟨hpath, hnew⟩ := (ih htyped hfits.1 hdistinct.receiver).made hcourse hcreates hmade hdistinct
        ⟨x, hx⟩
      obtain ⟨v', hvalue, hat, -, hsame, hlengthened⟩ :=
        hreached.lengthened hmade.value hlow hcontainer
      obtain ⟨hcells, hpath'⟩ := hpath.later (hreached.extends hmade.value) (by rintro ref rfl; exact hnew)
        (hpath.zeroed.reached hreached hmade.value (mem_cells hpath.located))
      refine hpath'.link hvalue hat (hcourse.element hcreates hl hfits.2 hmade hreached).stage.there ?_ ?_
      · rw [hcells]
        rcases hsame with rfl | hfresh
        · exact hnew
        · intro hin
          obtain ⟨y, hy, hholder⟩ := List.mem_map.mp hin
          have hthere := hpath.there y hy
          rw [hfresh y hholder] at hthere
          cases hthere
      · rintro _ ⟨⟩
        rcases hcourse.stage.made hcreates hmade with ⟨rfl, rfl, hlast, hv⟩ | ⟨hnone, heap, hfresh, rfl, hthere⟩
        · rwa [value?, hlast, Option.bind_some, hv]
        · -- What was there before has no elements, and neither has what was made.
          have hgrown := (Memory.Extends.grow (r := r)
            hfresh.grows).there k hthere
          have hempty := (hfresh.container hty :
            (n.shared heap n.statics).heap.Container ty v 0).keep
              (.setCell hgrown v) fun _ _ h => h
          have hcount := hempty.length
          have hnothing : ∀ j, (c.value? r e m).bind (·.cellAt? j) = none := by
            intro j
            cases hold : c.value? r e m with
            | none => rfl
            | some old =>
                have hw := hnone (.element w)
                rw [hold] at hw
                cases old <;> first | rfl | exact absurd rfl (hw _)
          have hlength : (c.value? r e m).bind m.heap.length? = none := by
            cases hold : c.value? r e m with
            | none => rfl
            | some old =>
                have hw := hnothing 0
                rw [hold] at hw
                cases old <;> first | rfl | cases hw
          refine ⟨?_, fun j y _ hy => ?_, fun j _ hlt => hlengthened.filled j ?_ hlt⟩
          · rw [hlength, hlengthened.length, Option.bind_some, hcount]
            rfl
          · rw [Memory.item?, hnothing] at hy
            cases hy
          · rw [Option.bind_some, hcount]
            exact Nat.zero_le _

end Chain

end Arbor
