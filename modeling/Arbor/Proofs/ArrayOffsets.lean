/-
  Offsets of array elements.

  Indices within bounds are the digits of an offset in the mixed radix of the
  dimensions.  So the offsets are the numbers below the product of the dimensions,
  each that of one index vector, in the lexicographic order of the vectors; and what
  is written through one index vector is not seen through another.
-/
import Arbor.Proofs.Machine.Elements
import Arbor.Proofs.Machine.Locations
import Mathlib.Data.List.Lex

set_option autoImplicit false

namespace Arbor

/-! ## Digits -/

/-- Within bounds, in terms of the single indices. -/
theorem inBounds_iff {dims : List Nat} {is : List Int} :
    InBounds dims is ↔ is.length = dims.length ∧ ∀ (k : Nat) (d : Nat) (i : Int),
      dims[k]? = some d → is[k]? = some i → 0 ≤ i ∧ i < d := by
  rw [InBounds, List.forall₂_iff_get]
  constructor
  · rintro ⟨hlength, h⟩
    refine ⟨hlength.symm, fun k d i hd hi => ?_⟩
    obtain ⟨hk, rfl⟩ := List.getElem?_eq_some_iff.mp hd
    obtain ⟨hk', rfl⟩ := List.getElem?_eq_some_iff.mp hi
    exact h k hk hk'
  · rintro ⟨hlength, h⟩
    exact ⟨hlength.symm, fun k hk hk' =>
      h k _ _ (List.getElem?_eq_getElem hk) (List.getElem?_eq_getElem hk')⟩

/-- The indices of the element at a position. -/
def indicesAt : List Nat → Nat → List Int
  | [], _ => []
  | _ :: ds, n => (n / ds.prod : Nat) :: indicesAt ds (n % ds.prod)

/-- Rows in front of an element count with their full size. -/
theorem positionFrom_eq {dims : List Nat} {is : List Int} (h : InBounds dims is) (acc : Nat) :
    positionFrom acc dims is = acc * dims.prod + elementPosition dims is := by
  induction h generalizing acc with
  | nil => simp [positionFrom, elementPosition]
  | @cons d i ds is _ _ ih =>
      rw [positionFrom, elementPosition, positionFrom, ih, ih (0 * d + i.toNat), List.prod_cons,
        Nat.zero_mul, Nat.zero_add, Nat.add_mul, Nat.mul_assoc, Nat.add_assoc]

theorem elementPosition_cons {d : Nat} {ds : List Nat} {i : Int} {is : List Int} (h : InBounds ds is) :
    elementPosition (d :: ds) (i :: is) = i.toNat * ds.prod + elementPosition ds is := by
  rw [elementPosition, positionFrom, Nat.zero_mul, Nat.zero_add, positionFrom_eq h]

/-- The indices of a position are within bounds. -/
theorem inBounds_indicesAt {dims : List Nat} {n : Nat} (h : n < dims.prod) :
    InBounds dims (indicesAt dims n) := by
  induction dims generalizing n with
  | nil => exact .nil
  | cons d ds ih =>
      rw [List.prod_cons] at h
      have hrow : 0 < ds.prod := Nat.pos_of_lt_mul_left h
      refine .cons ⟨Int.natCast_nonneg _, Int.ofNat_lt.mpr ?_⟩ (ih (Nat.mod_lt n hrow))
      exact Nat.div_lt_of_lt_mul (Nat.mul_comm d ds.prod ▸ h)

/-- A position is the one of its indices. -/
theorem elementPosition_indicesAt {dims : List Nat} {n : Nat} (h : n < dims.prod) :
    elementPosition dims (indicesAt dims n) = n := by
  induction dims generalizing n with
  | nil =>
      rw [List.prod_nil] at h
      rw [Nat.lt_one_iff.mp h]
      rfl
  | cons d ds ih =>
      rw [List.prod_cons] at h
      have hrow : 0 < ds.prod := Nat.pos_of_lt_mul_left h
      have hrest := Nat.mod_lt n hrow
      rw [indicesAt, elementPosition_cons (inBounds_indicesAt hrest), ih hrest, Int.toNat_natCast,
        Nat.div_add_mod']

/-- Numbers with two digits are ordered by the first digit, then by the second. -/
theorem digits_lt_iff {i j p q size : Nat} (hp : p < size) (hq : q < size) :
    i * size + p < j * size + q ↔ i < j ∨ i = j ∧ p < q := by
  rcases Nat.lt_trichotomy i j with hij | rfl | hij
  · have hnext : (i + 1) * size ≤ j * size := Nat.mul_le_mul_right size hij
    rw [Nat.add_mul] at hnext
    omega
  · omega
  · have hnext : (j + 1) * size ≤ i * size := Nat.mul_le_mul_right size hij
    rw [Nat.add_mul] at hnext
    omega

/-- Positions are ordered as the indices are lexicographically. -/
theorem elementPosition_lt_iff {dims : List Nat} {is js : List Int} (his : InBounds dims is)
    (hjs : InBounds dims js) :
    elementPosition dims is < elementPosition dims js ↔ List.Lex (· < ·) is js := by
  induction his generalizing js with
  | nil =>
      cases hjs
      simp [elementPosition]
  | @cons d i ds is hi his ih =>
      cases hjs with
      | @cons _ j _ js hj hjs =>
          rw [elementPosition_cons his, elementPosition_cons hjs,
            digits_lt_iff (elementPosition_lt his) (elementPosition_lt hjs), ih hjs, List.cons_lex_cons_iff]
          have hlt : i.toNat < j.toNat ↔ i < j := by omega
          have heq : i.toNat = j.toNat ↔ i = j := by omega
          rw [hlt, heq]

/-- Different index vectors have different positions. -/
theorem eq_of_elementPosition_eq {dims : List Nat} {is js : List Int} (his : InBounds dims is)
    (hjs : InBounds dims js) (h : elementPosition dims is = elementPosition dims js) : is = js := by
  induction his generalizing js with
  | nil =>
      cases hjs
      rfl
  | @cons d i ds is hi his ih =>
      cases hjs with
      | @cons _ j _ js hj hjs =>
          rw [elementPosition_cons his, elementPosition_cons hjs] at h
          have hp := elementPosition_lt his
          have hq := elementPosition_lt hjs
          have hnot := mt (digits_lt_iff hp hq).mpr (Nat.not_lt_of_ge (Nat.le_of_eq h.symm))
          have hnot' := mt (digits_lt_iff hq hp).mpr (Nat.not_lt_of_ge (Nat.le_of_eq h))
          have hrest := ih hjs (by omega)
          rw [hrest, show i = j by omega]

/-! ## Offsets -/

/-- Only indices within bounds have an offset. -/
theorem inBounds_of_rowMajor? {acc n : Nat} {dims : List Nat} {is : List Int}
    (h : rowMajor? acc dims is = some n) : InBounds dims is := by
  induction dims generalizing acc is with
  | nil =>
      cases is with
      | nil => exact .nil
      | cons i is => cases h
  | cons d ds ih =>
      cases is with
      | nil => cases h
      | cons i is =>
          rw [rowMajor?] at h
          split at h
          · next hi => exact .cons hi (ih h)
          · cases h

namespace ArrayCell

variable {c : ArrayCell} {is js : List Int} {n : Nat}

/-- The offset is the position of the element, for the indices within bounds. -/
theorem offset?_eq_some_iff (hfew : c.dims.prod < 0x10000000000000000) :
    c.offset? is = some n ↔ InBounds c.dims is ∧ elementPosition c.dims is = n := by
  constructor
  · intro h
    have hin := inBounds_of_rowMajor? h
    rw [offset?_eq hfew hin] at h
    exact ⟨hin, Option.some.inj h⟩
  · rintro ⟨hin, rfl⟩
    exact offset?_eq hfew hin

theorem eq_of_offset?_eq (hfew : c.dims.prod < 0x10000000000000000) (his : c.offset? is = some n)
    (hjs : c.offset? js = some n) : is = js := by
  obtain ⟨hin, hn⟩ := (offset?_eq_some_iff hfew).mp his
  obtain ⟨hjn, hm⟩ := (offset?_eq_some_iff hfew).mp hjs
  exact eq_of_elementPosition_eq hin hjn (hn.trans hm.symm)

end ArrayCell

/-! ## Elements that are seen from outside -/

namespace Machine

variable {r : Registry} {α : Type}

/-- An exception that was added with its message. -/
theorem objects_thrown (h : Heap) (c : ObjectCell) (v : Value) :
    ((h.newObject c).2.setField h.objects.size 0 v).objects[h.objects.size]? =
      some { c with fields := c.fields.setIfInBounds 0 v } := by
  change ((h.objects.push c).modify h.objects.size _)[h.objects.size]? = _
  rw [Array.getElem?_modify, if_pos rfl, Array.getElem?_push_size]
  rfl

/-- A raised fault is seen alike from every state. -/
theorem observe_raise (r : Registry) (f : Fault) (s t : State) :
    (observe r (Run.raise r f : Run α) s).1 = (observe r (Run.raise r f : Run α) t).1 := by
  rcases Run.raise_cases r f with ⟨e, hraise⟩ | ⟨fields, hraise⟩
  · have hseen : ∀ u, observe r (Run.raise r f : Run α) u = (.error (.invalidProgram e.message), u) := by
      intro u
      unfold observe
      rw [hraise]
      rfl
    rw [hseen, hseen]
  · simp only [observe, hraise, runtimeError, Heap.objectType?, Heap.field?, objects_thrown]

/-- An array is described by its shape alone. -/
theorem describeArray_congr {h k : Heap} {ref : Ref} {c d : ArrayCell} (hc : h.arrays[ref]? = some c)
    (hd : k.arrays[ref]? = some d) (helem : d.elem = c.elem) (hdims : d.dims = c.dims) :
    Value.describeArray k ref = Value.describeArray h ref := by
  unfold Value.describeArray
  rw [hc, hd, Option.elim_some, Option.elim_some, helem, hdims]

/-- The text about a missing element depends on the shape of its array alone. -/
theorem dangling_message {h k : Heap} {ref : Ref} {c d : ArrayCell} (hc : h.arrays[ref]? = some c)
    (hd : k.arrays[ref]? = some d) (helem : d.elem = c.elem) (hdims : d.dims = c.dims) (n : Nat) :
    (Defect.dangling (.elem ref n)).message r k = (Defect.dangling (.elem ref n)).message r h := by
  have haddr : Value.describeAddr k (.elem ref n) = Value.describeAddr h (.elem ref n) := by
    rw [Value.describeAddr, Value.describeAddr, describeArray_congr hc hd helem hdims]
  exact congrArg ("dangling address " ++ ·) haddr

/-- What is read through an index vector is seen alike wherever the item at its offset is the same. -/
theorem observe_mdGet {s t : State} {ref : Ref} {c d : ArrayCell} (hc : s.heap.arrays[ref]? = some c)
    (hd : t.heap.arrays[ref]? = some d) (helem : d.elem = c.elem) (hdims : d.dims = c.dims) (elem : Ty)
    {is : List Value}
    (hitem : ∀ n, c.offset? (is.map Run.indexOf) = some n → d.data[n]? = c.data[n]?) :
    (observe r (Run.intrinsic r (.mdGet elem is.length) (.array ref :: is)) t).1 =
      (observe r (Run.intrinsic r (.mdGet elem is.length) (.array ref :: is)) s).1 := by
  have hoffset : d.offset? (is.map Run.indexOf) = c.offset? (is.map Run.indexOf) := by
    simp only [ArrayCell.offset?, hdims]
  cases hcoffset : c.offset? (is.map Run.indexOf) with
  | none =>
      have hraise (u : State) (b : ArrayCell) (hb : u.heap.arrays[ref]? = some b)
          (hnone : b.offset? (is.map Run.indexOf) = none) :
          Run.intrinsic r (.mdGet elem is.length) (.array ref :: is) u =
            Run.raise r .indexOutOfRange u := by
        rw [Run.intrinsic_mdGet_apply hb, hnone]
      have hseen := observe_raise (α := Value) r .indexOutOfRange t s
      unfold observe at hseen ⊢
      rwa [hraise t d hd (hoffset.trans hcoffset), hraise s c hc hcoffset]
  | some n =>
      unfold observe
      rw [Run.intrinsic_mdGet_apply hd, Run.intrinsic_mdGet_apply hc, hoffset, hcoffset]
      simp only [hitem n hcoffset]
      cases c.data[n]? with
      | some v => simp only [Run.orDangling, pure, EStateM.pure]
      | none =>
          have herror (u : State) : Run.orDangling (α := Value) (.elem ref n) none u =
              .error (.invalid (.dangling (.elem ref n))) u := rfl
          simp only [herror, runtimeError, dangling_message hc hd helem hdims]

/-- A write through an index vector keeps the shape of the array and all items but the one at its offset. -/
theorem cell_observe_mdSet {s : State} {ref : Ref} {c : ArrayCell} (hc : s.heap.arrays[ref]? = some c)
    (elem : Ty) (is : List Value) (x : Value) :
    ∃ d, (observe r (Run.intrinsic r (.mdSet elem is.length) (.array ref :: (is ++ [x])))
        s).2.heap.arrays[ref]? = some d ∧ d.elem = c.elem ∧ d.dims = c.dims ∧
      ∀ n, c.offset? (is.map Run.indexOf) ≠ some n → d.data[n]? = c.data[n]? := by
  unfold observe
  rw [Run.intrinsic_mdSet_apply hc]
  cases hoffset : c.offset? (is.map Run.indexOf) with
  | some position =>
      by_cases hlt : position < c.data.size
      · refine ⟨{ c with data := c.data.setIfInBounds position x }, ?_, rfl, rfl, fun n hn => ?_⟩
        · simpa only [if_pos hlt] using Heap.arrays_setElem hc position x
        · have hne : position ≠ n := fun heq => hn (heq ▸ rfl)
          exact Array.getElem?_setIfInBounds_ne hne
      · exact ⟨c, by simpa only [if_neg hlt] using hc, rfl, rfl, fun n _ => rfl⟩
  | none =>
      refine ⟨c, ?_, rfl, rfl, fun n _ => rfl⟩
      rcases Run.raise_cases r .indexOutOfRange with ⟨e, hraise⟩ | ⟨fields, hraise⟩
      · simpa only [hraise] using hc
      · simp only [hraise]
        exact hc

end Machine

namespace ArrayCell

/-! ## The bijection -/

/-- In an array of fewer than 2^64 elements, offsets are a bijection between the index vectors within
the dimensions and the numbers below their product, increasing in the lexicographic order; so a write
through one index vector is not seen through another. -/
theorem offsets_bijective (c : ArrayCell) (hfew : c.dims.prod < 0x10000000000000000) :
    (∀ is, (c.offset? is).isSome ↔
      is.length = c.dims.length ∧ ∀ (k : Nat) (d : Nat) (i : Int),
        c.dims[k]? = some d → is[k]? = some i → 0 ≤ i ∧ i < d) ∧
    (∀ is js n, c.offset? is = some n → c.offset? js = some n → is = js) ∧
    (∀ n, n < c.dims.prod ↔ ∃ is, c.offset? is = some n) ∧
    (∀ is js m n, c.offset? is = some m → c.offset? js = some n → (m < n ↔ List.Lex (· < ·) is js)) ∧
    ∀ (r : Registry) (s : State) (ref : Ref), s.heap.arrays[ref]? = some c →
      ∀ (elem elem' : Ty) (is js : List Value) (x : Value), is.map Run.indexOf ≠ js.map Run.indexOf →
        (Machine.observe r (Run.intrinsic r (.mdGet elem js.length) (.array ref :: js))
          (Machine.observe r (Run.intrinsic r (.mdSet elem' is.length)
            (.array ref :: (is ++ [x]))) s).2).1 =
        (Machine.observe r (Run.intrinsic r (.mdGet elem js.length) (.array ref :: js)) s).1 := by
  refine ⟨fun is => ?_, fun is js n his hjs => ?_, fun n => ⟨fun hn => ?_, ?_⟩,
    fun is js m n his hjs => ?_, fun r s ref hc elem elem' is js x hne => ?_⟩
  · rw [Option.isSome_iff_exists, ← inBounds_iff]
    constructor
    · rintro ⟨n, hn⟩
      exact ((offset?_eq_some_iff hfew).mp hn).1
    · exact fun hin => ⟨_, (offset?_eq_some_iff hfew).mpr ⟨hin, rfl⟩⟩
  · exact eq_of_offset?_eq hfew his hjs
  · exact ⟨indicesAt c.dims n,
      (offset?_eq_some_iff hfew).mpr ⟨inBounds_indicesAt hn, elementPosition_indicesAt hn⟩⟩
  · rintro ⟨is, his⟩
    obtain ⟨hin, rfl⟩ := (offset?_eq_some_iff hfew).mp his
    exact elementPosition_lt hin
  · obtain ⟨hin, rfl⟩ := (offset?_eq_some_iff hfew).mp his
    obtain ⟨hjn, rfl⟩ := (offset?_eq_some_iff hfew).mp hjs
    exact elementPosition_lt_iff hin hjn
  · obtain ⟨d, hd, helem, hdims, hkept⟩ := Machine.cell_observe_mdSet (r := r) hc elem' is x
    refine Machine.observe_mdGet hc hd helem hdims elem fun n hn => hkept n fun hsame => hne ?_
    exact eq_of_offset?_eq hfew hsame hn

/-- Two rows of three numbers. -/
def grid : ArrayCell := ⟨.int, [2, 3], #[.int 1, .int 2, .int 3, .int 4, .int 5, .int 6]⟩

/-- A state with the grid as its only array. -/
def gridState : State := { State.initial with heap := { Heap.empty with arrays := #[grid] } }

/-- The grid has the offsets below six, and a write to the second number of its first row leaves the
first number of its second row. -/
theorem offsets_bijective_grid :
    (∀ n, n < 6 ↔ ∃ is, grid.offset? is = some n) ∧
    ∃ seen, (Machine.observe .builtin (Run.intrinsic .builtin (.mdGet .int 2) [.array 0, .int 1, .int 0])
      (Machine.observe .builtin
        (Run.intrinsic .builtin (.mdSet .int 2) [.array 0, .int 0, .int 1, .int 7]) gridState).2).1 = seen ∧
      seen = .ok (.int 4) := by
  obtain ⟨-, -, hrange, -, hapart⟩ := offsets_bijective grid (by decide)
  exact ⟨hrange, _, hapart .builtin gridState 0 rfl .int .int [.int 0, .int 1] [.int 1, .int 0] (.int 7)
    (by decide), rfl⟩

end ArrayCell

end Arbor
