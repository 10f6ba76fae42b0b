/-
  Runs that share hidden tables.

  The arrays that hold hidden tables are referred to from hidden arguments, and from
  function values for the hidden arguments of their routines; no other value leads
  to them.  This is the invariant of runs of sheltered code: `Sound`.  Instructions
  that have no part in what is known of the stack keep it as they keep any
  invariant; the others are looked at one by one.

  A table changes only where an instruction writes an element to it.  So what a
  table holds at any moment of a run follows from the moments before: `History`.
-/
import Arbor.Proofs.Code.Sheltered
import Arbor.Proofs.Machine.Frames
import Mathlib.Data.List.Forall2

set_option autoImplicit false

namespace Arbor

/-! ## Tables -/

/-- References to the arrays that hold the hidden tables, which are different ones. -/
structure Tables where
  ref? : HiddenTable → Option Ref
  inj : ∀ {t t' : HiddenTable} {ref : Ref}, ref? t = some ref → ref? t' = some ref → t = t'

namespace Tables

variable (T : Tables)

/-- The value is the table. -/
def Holds (t : HiddenTable) (v : Value) : Prop := ∃ ref, T.ref? t = some ref ∧ v = .array ref

/-- The array holds a table. -/
def Reserved (ref : Ref) : Prop := ∃ t, T.ref? t = some ref

/-- References other than to hidden tables and to code. -/
def reach : Reach := ⟨fun ref => ¬ T.Reserved ref, fun _ => False, fun _ _ => True, fun _ _ => True⟩

/-- The value leads to no hidden table. -/
abbrev Free (v : Value) : Prop := v.Within T.reach

/-- The first values are the tables of the hidden parameters, and the others lead to none. -/
structure Fills (h : HiddenParams) (vs : List Value) : Prop where
  tables : ∀ (n : Nat) (t : HiddenTable), h.tables[n]? = some t → ∃ v, vs[n]? = some v ∧ T.Holds t v
  rest : ∀ (n : Nat) (v : Value), h.count ≤ n → vs[n]? = some v → T.Free v

/-- A call with the hidden parameters has the tables as arguments, and nothing else that leads to
one. -/
structure Suits (h : HiddenParams) (f : Frame) : Prop where
  args : T.Fills h f.args.toList
  locals : ∀ v ∈ f.locals, T.Free v
  stack : ∀ v ∈ f.stack, T.Free v

variable {T}

theorem Holds.not_free {t : HiddenTable} {v : Value} (h : T.Holds t v) : ¬ T.Free v := by
  obtain ⟨ref, href, rfl⟩ := h
  exact fun hfree => hfree ⟨t, href⟩

theorem fills_none {vs : List Value} (h : ∀ v ∈ vs, T.Free v) : T.Fills .none vs :=
  ⟨nofun, fun _ _ _ hv => h _ (List.mem_of_getElem? hv)⟩

theorem fills_of_forall₂ {h : HiddenParams} {vs : List Value} (hvs : List.Forall₂ T.Holds h.tables vs) :
    T.Fills h vs where
  tables n t ht := by
    obtain ⟨hlt, rfl⟩ := List.getElem?_eq_some_iff.mp ht
    have hlt' : n < vs.length := hvs.length_eq ▸ hlt
    exact ⟨vs[n], List.getElem?_eq_getElem hlt', hvs.get hlt hlt'⟩
  rest n v hn hv := by
    have hlt := (List.getElem?_eq_some_iff.mp hv).1
    rw [← hvs.length_eq, h.length_tables] at hlt
    exact absurd hlt (Nat.not_lt.mpr hn)

namespace Fills

variable {h : HiddenParams} {vs ws : List Value}

/-- More values that lead to no table. -/
theorem append (hvs : T.Fills h vs) (hws : ∀ v ∈ ws, T.Free v) : T.Fills h (vs ++ ws) where
  tables n t ht := by
    obtain ⟨v, hv, hholds⟩ := hvs.tables n t ht
    have hlt := (List.getElem?_eq_some_iff.mp hv).1
    exact ⟨v, by rwa [List.getElem?_append_left hlt], hholds⟩
  rest n v hn hv := by
    rw [List.getElem?_append] at hv
    split at hv
    · exact hvs.rest n v hn hv
    · exact hws v (List.mem_of_getElem? hv)

/-- A value that leads to no table is replaced. -/
theorem set (hvs : T.Fills h vs) {n : Nat} {old v : Value} (hn : vs[n]? = some old)
    (hold : T.Free old) (hv : T.Free v) : T.Fills h (vs.set n v) where
  tables m t ht := by
    obtain ⟨w, hw, hholds⟩ := hvs.tables m t ht
    refine ⟨w, ?_, hholds⟩
    rw [List.getElem?_set]
    split
    · next heq =>
        cases heq
        cases hn.symm.trans hw
        exact absurd hold hholds.not_free
    · exact hw
  rest m w hm hw := by
    rw [List.getElem?_set] at hw
    split at hw
    · split at hw
      · cases hw
        exact hv
      · cases hw
    · exact hvs.rest m w hm hw

theorem cases (hvs : T.Fills h vs) {n : Nat} {v : Value} (hv : vs[n]? = some v) :
    T.Free v ∨ ∃ t, h.tables[n]? = some t ∧ T.Holds t v := by
  by_cases hn : h.count ≤ n
  · exact .inl (hvs.rest n v hn hv)
  · have hlt : n < h.tables.length := h.length_tables ▸ Nat.lt_of_not_le hn
    obtain ⟨w, hw, hholds⟩ := hvs.tables n _ (List.getElem?_eq_getElem hlt)
    cases hv.symm.trans hw
    exact .inr ⟨_, List.getElem?_eq_getElem hlt, hholds⟩

end Fills

end Tables

/-- What the tables hold. -/
abbrev Contents := HiddenTable → Array Value

/-- The tables on the heap hold the contents. -/
def Tables.Contain (T : Tables) (D : Contents) (h : Heap) : Prop :=
  ∀ t ref, T.ref? t = some ref → ∃ c : ArrayCell, h.arrays[ref]? = some c ∧ c.data = D t

/-! ## Lists side by side -/

/-- What is at a position of the second list is related to what is there in the first one. -/
theorem forall₂_getElem? {α β : Type} {r : α → β → Prop} {as : List α} {bs : List β}
    (h : List.Forall₂ r as bs) {n : Nat} {b : β} (hb : bs[n]? = some b) :
    ∃ a, as[n]? = some a ∧ r a b := by
  induction h generalizing n with
  | nil => cases hb
  | cons hr _ ih =>
      cases n with
      | zero =>
          cases hb
          exact ⟨_, rfl, hr⟩
      | succ n => exact ih hb

/-- An item of the second list is replaced by a related one. -/
theorem forall₂_set {α β : Type} {r : α → β → Prop} {as : List α} {bs : List β}
    (h : List.Forall₂ r as bs) {n : Nat} {b : β} (hb : ∀ a, as[n]? = some a → r a b) :
    List.Forall₂ r as (bs.set n b) := by
  induction h generalizing n with
  | nil => exact .nil
  | cons hr hrest ih =>
      cases n with
      | zero => exact .cons (hb _ rfl) hrest
      | succ n => exact .cons hr (ih hb)

namespace Run

/-! ## The invariant -/

variable {P : Bool → HiddenParams → Routine → Prop} {T : Tables}

/-- Nothing but the hidden arguments of calls and of function values leads to a hidden table.  The
calls have the hidden parameters `hs`, and the tables hold `D`. -/
structure Sound (P : Bool → HiddenParams → Routine → Prop) (T : Tables) (hs : List HiddenParams)
    (D : Contents) (s : State) : Prop where
  frames : List.Forall₂ T.Suits hs s.frames
  statics : ∀ f v, s.statics.get? f = some v → T.Free v
  fields : ∀ (ref : Ref) (c : ObjectCell), s.heap.objects[ref]? = some c → ∀ v ∈ c.fields, T.Free v
  elems : ∀ (ref : Ref) (c : ArrayCell), ¬ T.Reserved ref → s.heap.arrays[ref]? = some c →
    ∀ v ∈ c.data, T.Free v
  items : ∀ (ref : Ref) (c : ListCell), s.heap.lists[ref]? = some c → ∀ v ∈ c.items, T.Free v
  functions : ∀ (ref : Ref) (c : Callable), s.heap.functions[ref]? = some c →
    ∃ own g, P own g c.routine ∧ T.Fills g c.captured
  contents : T.Contain D s.heap
  held : ∀ t, ∀ v ∈ D t, T.Free v

/-- The call of a number is replaced by one that suits the same hidden parameters. -/
theorem forall₂_setFrame {hs : List HiddenParams} {fs₀ fs : List Frame}
    (h₀ : List.Forall₂ T.Suits hs fs₀) (h : List.Forall₂ T.Suits hs fs) {k : Nat} {f g : Frame}
    (hf : frame? fs₀ k = some f) (hg : ∀ h, T.Suits h f → T.Suits h g) :
    List.Forall₂ T.Suits hs (setFrame fs k g) := by
  obtain ⟨place, hplace, hf⟩ := Option.bind_eq_some_iff.mp hf
  obtain ⟨own, hown, hsuits⟩ := forall₂_getElem? h₀ hf
  unfold framePlace? at hplace
  unfold setFrame framePlace?
  rw [← h.length_eq, h₀.length_eq, hplace]
  refine forall₂_set h fun other hother => ?_
  cases hown.symm.trans hother
  exact hg own hsuits

/-- A static field that has been written. -/
theorem get?_set {st : Statics} {f g : FieldRef} {v w : Value} (h : (st.set f v).get? g = some w) :
    w = v ∨ st.get? g = some w := by
  induction st with
  | nil =>
      simp only [Statics.set, Statics.get?] at h
      split at h <;> cases h
      exact .inl rfl
  | cons entry rest ih =>
      obtain ⟨f', v'⟩ := entry
      simp only [Statics.set] at h
      by_cases hf : f' = f
      · rw [if_pos hf] at h
        simp only [Statics.get?] at h ⊢
        rw [hf]
        split at h
        · cases h
          exact .inl rfl
        · exact .inr (by rwa [if_neg ‹_›])
      · rw [if_neg hf] at h
        simp only [Statics.get?] at h ⊢
        split at h
        · cases h
          exact .inr (if_pos ‹_›)
        · rw [if_neg ‹_›]
          exact ih h

/-- What holds of the cells of a store holds when one of them is changed. -/
theorem forall_modify {α : Type} {xs : Array α} {Q : Nat → α → Prop}
    (h : ∀ i a, xs[i]? = some a → Q i a) {n : Nat} {change : α → α}
    (hchange : ∀ a, Q n a → Q n (change a)) : ∀ i a, (xs.modify n change)[i]? = some a → Q i a := by
  intro i a ha
  rw [Array.getElem?_modify] at ha
  split at ha
  · next heq =>
      subst heq
      obtain ⟨b, hb, rfl⟩ := Option.map_eq_some_iff.mp ha
      exact hchange b (h _ b hb)
  · exact h i a ha

/-- What holds of the cells of a store holds when one of them is added. -/
theorem forall_push {α : Type} {xs : Array α} {Q : Nat → α → Prop}
    (h : ∀ i a, xs[i]? = some a → Q i a) {b : α} (hb : Q xs.size b) :
    ∀ i a, (xs.push b)[i]? = some a → Q i a := by
  intro i a ha
  rw [Array.getElem?_push] at ha
  split at ha
  · next heq =>
      cases ha
      exact heq ▸ hb
  · exact h i a ha

/-- The routines that methods have as bodies have the property. -/
def Bodies (r : Registry) (Q : Routine → Prop) : Prop :=
  ∀ id index d c, r.method id index = .ok d → d.body = .routine c → Q c

variable (P T) in
/-- What may be called with the arguments: routines of the family that have the tables for their hidden
parameters, and methods of the host, which have none. -/
def Admits (r : Registry) : Callee → List Value → Prop
  | .routine R, args => ∃ own g, P own g R ∧ T.Fills g args
  | .host f, args => f ∈ r.hosts ∧ ∀ v ∈ args, T.Free v

variable (P T) in
/-- The invariant of a call with the hidden parameters `h`, where the contents of tables are as `C`
says. -/
def Keeping.sheltered (r : Registry) (hmethod : Bodies r (P false .none)) (h : HiddenParams)
    (hs : List HiddenParams) (C : Contents → Prop) : Keeping r where
  Inv s := ∃ D, C D ∧ Sound P T (h :: hs) D s
  reach := T.reach
  Slot _ := True
  Arg n := h.count ≤ n
  Calls := Admits P T r
  stack := by
    rintro s f rest ⟨D, -, hs⟩ hframes
    have hsuits := hs.frames
    rw [hframes] at hsuits
    cases hsuits with
    | cons hf _ => exact hf.stack
  setStack := by
    rintro s f rest stack ⟨D, hD, hs⟩ hframes hstack
    have hsuits := hs.frames
    rw [hframes] at hsuits
    cases hsuits with
    | cons hf hrest => exact ⟨D, hD, { hs with frames := .cons { hf with stack := hstack } hrest }⟩
  ownSlot _ _ := trivial
  ownArg _ _ := trivial
  named := by
    rintro s f rest n v ⟨D, -, hs⟩ hframes hn hv
    have hsuits := hs.frames
    rw [hframes] at hsuits
    cases hsuits with
    | cons hf _ => exact hf.args.rest n v hn (by simpa using hv)
  slot := by
    rintro s k n f v ⟨D, -, hs⟩ - hf hv
    obtain ⟨place, -, hf⟩ := Option.bind_eq_some_iff.mp hf
    obtain ⟨own, -, hsuits⟩ := forall₂_getElem? hs.frames hf
    exact hsuits.locals v (Array.mem_of_getElem? hv)
  setSlot := by
    rintro s₀ s k n f v ⟨D₀, -, hs₀⟩ ⟨D, hD, hs⟩ - hf hv
    refine ⟨D, hD, { hs with frames := forall₂_setFrame hs₀.frames hs.frames hf fun own hsuits => ?_ }⟩
    exact { hsuits with locals := Keeping.forall_mem_setIfInBounds hsuits.locals hv }
  arg := by
    rintro s k n f v ⟨D, -, hs⟩ - hf hv
    obtain ⟨place, -, hf⟩ := Option.bind_eq_some_iff.mp hf
    obtain ⟨own, -, hsuits⟩ := forall₂_getElem? hs.frames hf
    rcases hsuits.args.cases (by simpa using hv) with hfree | ⟨t, -, ref, -, rfl⟩
    · exact .inl hfree
    · exact .inr ⟨ref, rfl⟩
  setArg := by
    rintro s₀ s k n f old v ⟨D₀, -, hs₀⟩ ⟨D, hD, hs⟩ - hf hold hfree hv
    refine ⟨D, hD, { hs with frames := forall₂_setFrame hs₀.frames hs.frames hf fun own hsuits => ?_ }⟩
    refine { hsuits with args := ?_ }
    rw [Array.toList_setIfInBounds]
    exact hsuits.args.set (by simpa using hold) hfree hv
  static := by
    rintro s f v ⟨D, -, hs⟩ hv
    exact hs.statics f v hv
  setStatic := by
    rintro s v f ⟨D, hD, hs⟩ hv
    refine ⟨D, hD, { hs with statics := fun g w hw => ?_ }⟩
    rcases get?_set hw with rfl | hw
    · exact hv
    · exact hs.statics g w hw
  field := by
    rintro s ref n v ⟨D, -, hs⟩ hv
    obtain ⟨c, hc, hv⟩ := Option.bind_eq_some_iff.mp hv
    exact hs.fields ref c hc v (Array.mem_of_getElem? hv)
  setField := by
    rintro s v ref n ⟨D, hD, hs⟩ hv
    refine ⟨D, hD, { hs with fields := forall_modify hs.fields fun c hc => ?_ }⟩
    exact Keeping.forall_mem_setIfInBounds hc hv
  newObject := by
    rintro s fields ty ⟨D, hD, hs⟩ hfields
    exact ⟨D, hD, { hs with fields := forall_push hs.fields fun v hv => hfields v (by simpa using hv) }⟩
  elems := by
    rintro s ref c ⟨D, -, hs⟩ href hc
    exact hs.elems ref c href hc
  setElems := by
    rintro s ref change ⟨D, hD, hs⟩ href - hchange
    have helems := fun i c hc hfree => hs.elems i c hfree hc
    refine ⟨D, hD, { hs with
      elems := fun i c hfree hi =>
        forall_modify helems (fun c hc hfree => hchange c.data (hc hfree)) i c hi hfree
      contents := fun t i hi => ?_ }⟩
    obtain ⟨c, hc, hdata⟩ := hs.contents t i hi
    have hne : ref ≠ i := by
      rintro rfl
      exact href ⟨t, hi⟩
    refine ⟨c, ?_, hdata⟩
    change (s.heap.arrays.modify ref _)[i]? = some c
    rw [Array.getElem?_modify, if_neg hne]
    exact hc
  newArray := by
    rintro s c ⟨D, hD, hs⟩ - hc
    have helems := fun i c hc hfree => hs.elems i c hfree hc
    have hthere : ∀ t i, T.ref? t = some i → i < s.heap.arrays.size := by
      intro t i hi
      obtain ⟨c, hc, -⟩ := hs.contents t i hi
      exact (Array.getElem?_eq_some_iff.mp hc).1
    refine ⟨fun ⟨t, ht⟩ => Nat.lt_irrefl _ (hthere t _ ht), D, hD, { hs with
      elems := fun i c hfree hi => forall_push helems (fun _ => hc) i c hi hfree
      contents := fun t i hi => ?_ }⟩
    obtain ⟨c', hc', hdata⟩ := hs.contents t i hi
    refine ⟨c', ?_, hdata⟩
    change (s.heap.arrays.push c)[i]? = some c'
    rw [Array.getElem?_push, if_neg (Nat.ne_of_lt (hthere t i hi))]
    exact hc'
  items := by
    rintro s ref c ⟨D, -, hs⟩ hc
    exact hs.items ref c hc
  setItems := by
    rintro s change ref ⟨D, hD, hs⟩ hchange
    exact ⟨D, hD, { hs with items := forall_modify hs.items fun c hc => hchange c.items hc }⟩
  newList := by
    rintro s ty ⟨D, hD, hs⟩
    exact ⟨D, hD, { hs with items := forall_push hs.items fun v hv => by simp at hv }⟩
  function := by
    rintro s ref c args ⟨D, -, hs⟩ hc hargs
    obtain ⟨own, g, hP, hfills⟩ := hs.functions ref c hc
    exact ⟨own, g, hP, hfills.append hargs⟩
  newFunction _ href _ := href.elim
  method := by
    intro id index d c args hd hc hargs
    cases c with
    | routine R =>
        exact ⟨false, .none, hmethod _ _ _ _ hd (MethodBody.eq_routine hc), Tables.fills_none hargs⟩
    | host f => exact ⟨Registry.mem_hosts hd (MethodBody.eq_host hc), hargs⟩

/-! ## The history of the tables -/

end Run

/-- The table that the array holds. -/
def Tables.table? (T : Tables) (ref : Ref) : Option HiddenTable :=
  if T.ref? .constants = some ref then some .constants
  else if T.ref? .closure = some ref then some .closure
  else none

/-- The array that is found to hold a table holds it. -/
theorem Tables.ref?_of_table? {T : Tables} {ref : Ref} {t : HiddenTable} (h : T.table? ref = some t) :
    T.ref? t = some ref := by
  unfold table? at h
  split at h
  · cases h
    assumption
  · split at h
    · cases h
      assumption
    · cases h

theorem Tables.table?_of_ref? {T : Tables} {ref : Ref} {t : HiddenTable} (h : T.ref? t = some ref) :
    T.table? ref = some t := by
  unfold table?
  split
  · next hconstants => rw [T.inj hconstants h]
  · next hconstants =>
      cases t with
      | constants => exact absurd h hconstants
      | closure => exact if_pos h

/-- The element of a table that the instruction of a moment writes: the table, the index and the
value. -/
def Moment.write? (T : Tables) (m : Moment) : Option (HiddenTable × Nat × Value) :=
  match m.routine.code[m.pc]?, m.state.frames.head?.map Frame.stack with
  | some .storeElem, some (v :: index :: .array ref :: _) =>
      match T.table? ref, index.toIndex? with
      | some t, some n => if 0 ≤ n then some (t, n.toNat, v) else none
      | _, _ => none
  | _, _ => none

/-- What the tables hold behind a moment. -/
def Contents.after (T : Tables) (D : Contents) (m : Moment) : Contents :=
  match m.write? T with
  | some (t, n, v) => Function.update D t ((D t).setIfInBounds n v)
  | none => D

namespace Contents

variable {T : Tables} {D : Contents} {t : HiddenTable} {m : Moment}

theorem after_of_none (hwrite : m.write? T = none) : D.after T m = D := by
  rw [after, hwrite]

end Contents

/-- At each of the moments, the tables hold what was written to them at the moments before. -/
def History (T : Tables) : Contents → List Moment → Contents → Prop
  | D, [], D' => D' = D
  | D, m :: ms, D' => T.Contain D m.state.heap ∧ History T (D.after T m) ms D'

namespace History

variable {T : Tables} {D D' D'' : Contents} {ms ns : List Moment}

theorem append (h : History T D ms D') (k : History T D' ns D'') : History T D (ms ++ ns) D'' := by
  induction ms generalizing D with
  | nil =>
      cases h
      exact k
  | cons m ms ih => exact ⟨h.1, ih h.2⟩

theorem contain {m : Moment} (h : History T D (ms ++ m :: ns) D') :
    T.Contain (ms.foldl (Contents.after T) D) m.state.heap := by
  induction ms generalizing D with
  | nil => exact h.1
  | cons _ ms ih => exact ih h.2

end History

end Arbor
