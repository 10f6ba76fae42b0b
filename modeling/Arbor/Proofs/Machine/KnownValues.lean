/-
  What is known of values on the stack.

  Sheltered code is followed position by position: the items that are known there
  are true of the values on top of the stack, and below them the invariant holds.
  Instructions that change what is known call nothing and cannot stop halfway, so
  that no table is ever left on a stack.  From there on runs as a whole are a
  matter of their logic.
-/
import Arbor.Proofs.Machine.HiddenTables
import Arbor.Proofs.Machine.Memory

set_option autoImplicit false

namespace Arbor

namespace Run

variable {P : Bool → HiddenParams → Routine → Prop} {T : Tables}

/-! ## Known values on the stack -/

/-- The values are put on the stack of the current call. -/
def onStack (vs : List Value) (s : State) : State :=
  match s.frames with
  | [] => s
  | f :: rest => { s with frames := { f with stack := vs ++ f.stack } :: rest }

/-- The local of the current call. -/
def local? (s : State) (slot : Nat) : Option Value := s.frames.head?.bind fun f => f.locals[slot]?

/-- What is known of a value is true of it, in a call with the hidden parameters `h`. -/
def Means (P : Bool → HiddenParams → Routine → Prop) (T : Tables) (own : Bool) (h : HiddenParams)
    (s : State) : Item → Value → Prop
  | .table t, v => T.Holds t v
  | .index n, v => v = .int n
  | .value slot, v => local? s slot = some v
  | .boxed slot, v => ∃ w, local? s slot = some w ∧ v = w.boxed
  | .function g, v => ∃ c, v = .fnPtr c ∧ P own g c
  | .place, v => ∃ n, v = .addr (.local (s.frames.length - 1) n) ∨
      (h.count ≤ n ∧ v = .addr (.arg (s.frames.length - 1) n))

/-- The invariant holds of the state without the values on top of the stack that the items tell of. -/
def Stands (P : Bool → HiddenParams → Routine → Prop) (T : Tables) (own : Bool) (h : HiddenParams)
    (st : List Item) (hs : List HiddenParams) (D : Contents) (s : State) : Prop :=
  ∃ vs s₀, s = onStack vs s₀ ∧ List.Forall₂ (Means P T own h s) st vs ∧ Sound P T (h :: hs) D s₀

/-- How an instruction ends that calls nothing and changes what is known of the stack. -/
def Settled (P : Bool → HiddenParams → Routine → Prop) (T : Tables) (own : Bool) (h : HiddenParams)
    (st : List Item) (hs : List HiddenParams) (D : Contents) : EStateM.Result Trap State Flow → Prop
  | .ok .next t => Stands P T own h st hs D t
  | .ok _ _ => False
  | .error _ t => Sound P T (h :: hs) D t

section

variable {own : Bool} {h : HiddenParams} {st : List Item} {hs : List HiddenParams} {D : Contents}
  {s t : State}

/-- What is known of a value depends on the number of calls and on the locals of the current one. -/
theorem Means.congr {item : Item} {v : Value} (hv : Means P T own h s item v)
    (hlocal : local? t = local? s) (hlength : t.frames.length = s.frames.length) :
    Means P T own h t item v := by
  cases item with
  | value slot =>
      change local? t slot = some v
      rwa [hlocal]
  | boxed slot =>
      change ∃ w, local? t slot = some w ∧ v = w.boxed
      rwa [hlocal]
  | place =>
      change ∃ n, v = .addr (.local (t.frames.length - 1) n) ∨
        (h.count ≤ n ∧ v = .addr (.arg (t.frames.length - 1) n))
      rwa [hlength]
  | table | index | function => exact hv

/-- Where nothing is known, the invariant holds. -/
theorem stands_nil : Stands P T own h [] hs D s ↔ Sound P T (h :: hs) D s := by
  have hsame : onStack [] s = s := by
    obtain ⟨heap, frames, statics⟩ := s
    cases frames <;> rfl
  constructor
  · rintro ⟨vs, s₀, hs₀, hvs, hsound⟩
    cases hvs
    obtain ⟨heap, frames, statics⟩ := s₀
    cases frames <;> cases hs₀ <;> exact hsound
  · exact fun hsound => ⟨[], s, hsame.symm, .nil, hsound⟩

/-- The current call of a state, below the values that are known. -/
theorem Stands.exists_frame (hst : Stands P T own h st hs D s) : ∃ heap args locals stack handling rest
    statics vs, s = ⟨heap, ⟨args, locals, vs ++ stack, handling⟩ :: rest, statics⟩ ∧
      List.Forall₂ (Means P T own h s) st vs ∧
      Sound P T (h :: hs) D ⟨heap, ⟨args, locals, stack, handling⟩ :: rest, statics⟩ := by
  obtain ⟨vs, ⟨heap, frames, statics⟩, rfl, hvs, hsound⟩ := hst
  have hframes := hsound.frames
  cases frames with
  | nil => cases hframes
  | cons f rest =>
      obtain ⟨args, locals, stack, handling⟩ := f
      exact ⟨heap, args, locals, stack, handling, rest, statics, vs, rfl, hvs, hsound⟩

theorem Stands.push (hst : Stands P T own h st hs D s) {item : Item} {v : Value}
    (hv : Means P T own h s item v) : Settled P T own h (item :: st) hs D (pushNext v s) := by
  obtain ⟨heap, args, locals, stack, handling, rest, statics, vs, rfl, hvs, hsound⟩ := hst.exists_frame
  refine ⟨v :: vs, ⟨heap, ⟨args, locals, stack, handling⟩ :: rest, statics⟩, rfl, ?_, hsound⟩
  exact .cons (hv.congr rfl rfl) (hvs.imp fun _ _ hw => hw.congr rfl rfl)

theorem Stands.pop {item : Item} (hst : Stands P T own h (item :: st) hs D s) :
    ∃ v t, Run.pop s = .ok v t ∧ Stands P T own h st hs D t ∧ Means P T own h t item v ∧
      local? t = local? s := by
  obtain ⟨heap, args, locals, stack, handling, rest, statics, vs, rfl, hvs, hsound⟩ := hst.exists_frame
  cases hvs with
  | @cons _ v _ vs hv hvs =>
      refine ⟨v, ⟨heap, ⟨args, locals, vs ++ stack, handling⟩ :: rest, statics⟩, rfl, ⟨vs, _, rfl, ?_, hsound⟩,
        hv.congr rfl rfl, rfl⟩
      exact hvs.imp fun _ _ hw => hw.congr rfl rfl

variable {r : Registry} (hmethod : Bodies r (P false .none))

theorem Keeping.inv_sheltered :
    (Keeping.sheltered P T r hmethod h hs (· = D)).Inv s ↔ Sound P T (h :: hs) D s :=
  ⟨fun ⟨_, hD, hsound⟩ => hD ▸ hsound, fun hsound => ⟨D, rfl, hsound⟩⟩

theorem settled_of_after {out : EStateM.Result Trap State Flow}
    (hout : (Keeping.sheltered P T r hmethod h hs (· = D)).After (· = .next) out) :
    Settled P T own h [] hs D out := by
  revert hout
  cases out with
  | ok flow t =>
      rintro ⟨ht, rfl⟩
      exact stands_nil.mpr ((Keeping.inv_sheltered hmethod).mp ht)
  | error e t => exact (Keeping.inv_sheltered hmethod).mp

/-! ## Instructions that change what is known -/

variable {R : Routine} {call : Caller}

/-- A table is loaded. -/
theorem settled_table (hst : Stands P T own h st hs D s) {n : Nat} {table : HiddenTable}
    (hn : h.tables[n]? = some table) :
    Settled P T own h (.table table :: st) hs D (step r call R (.loadArg n) s) := by
  have hload : ∃ v, Run.loadArg n s = .ok v s ∧ T.Holds table v := by
    obtain ⟨heap, args, locals, stack, handling, rest, statics, vs, rfl, -, hsound⟩ := hst.exists_frame
    cases hsound.frames with
    | cons hsuits _ =>
        obtain ⟨v, hv, hholds⟩ := hsuits.args.tables n table hn
        have hv : args[n]? = some v := by simpa using hv
        exact ⟨v, by simp only [Run.loadArg, hv], hholds⟩
  obtain ⟨v, hv, hholds⟩ := hload
  change Settled _ _ _ _ _ _ _ ((Run.loadArg n >>= pushNext) s)
  rw [bind_of_ok hv]
  exact hst.push hholds

theorem settled_operand (hst : Stands P T own h st hs D s) {slot : Nat} {w : Value}
    (hw : local? s slot = some w) :
    Settled P T own h (.value slot :: st) hs D (step r call R (.loadLocal slot) s) := by
  have hload : Run.loadLocal slot s = .ok w s := by
    obtain ⟨heap, args, locals, stack, handling, rest, statics, vs, rfl, -, -⟩ := hst.exists_frame
    have hw : locals[slot]? = some w := hw
    simp only [Run.loadLocal, hw]
  change Settled _ _ _ _ _ _ _ ((Run.loadLocal slot >>= pushNext) s)
  rw [bind_of_ok hload]
  exact hst.push hw

/-- A value is put into the form that tables hold. -/
theorem settled_boxed {slot : Nat} (hst : Stands P T own h (.value slot :: st) hs D s) {ty : Ty} :
    Settled P T own h (.boxed slot :: st) hs D (step r call R (.box ty) s) := by
  obtain ⟨v, t, hpop, ht, hv, -⟩ := hst.pop
  change Settled _ _ _ _ _ _ _ ((Run.pop >>= fun v => pushNext v.boxed) s)
  rw [bind_of_ok hpop]
  exact ht.push ⟨v, hv, rfl⟩

theorem settled_function (hst : Stands P T own h st hs D s) {n : Nat} {g : HiddenParams}
    (hn : R.Role (P own) n g) :
    Settled P T own h (.function g :: st) hs D (step r call R (.loadFunction n) s) := by
  obtain ⟨c, hc, hP⟩ := hn
  have hchild : Run.child R n s = .ok c s := by
    simp only [Run.child, hc]
    rfl
  change Settled _ _ _ _ _ _ _ ((Run.child R n >>= fun c => pushNext (.fnPtr c)) s)
  rw [bind_of_ok hchild]
  exact hst.push ⟨c, rfl, hP⟩

/-- The tables for hidden parameters are popped, or values that lead to none. -/
theorem after_popN {g : HiddenParams} {k : Nat} (hk : k = g.count ∨ g = .none)
    (hst : Stands P T own h g.items hs D s) :
    (Keeping.sheltered P T r hmethod h hs (· = D)).After (T.Fills g) (popN k s) := by
  rcases hk with rfl | rfl
  · obtain ⟨heap, args, locals, stack, handling, rest, statics, vs, rfl, hvs, hsound⟩ := hst.exists_frame
    have hlength : vs.length = g.count := by
      rw [← hvs.length_eq, HiddenParams.items, List.length_reverse, List.length_map, g.length_tables]
    have hholds : List.Forall₂ T.Holds g.tables vs.reverse := by
      have hreversed := List.forall₂_reverse_iff.mpr hvs
      rw [HiddenParams.items, List.reverse_reverse, List.forall₂_map_left_iff] at hreversed
      exact hreversed
    simp only [popN]
    rw [if_neg (by simp [hlength]), List.take_left' hlength, List.drop_left' hlength]
    exact ⟨(Keeping.inv_sheltered hmethod).mpr hsound, Tables.fills_of_forall₂ hholds⟩
  · have hsound : Sound P T (h :: hs) D s := stands_nil.mp hst
    have hpop := Keeping.popN (K := Keeping.sheltered P T r hmethod h hs (· = D)) (n := k) s
      ((Keeping.inv_sheltered hmethod).mpr hsound)
    revert hpop
    cases popN k s with
    | ok vs t => exact fun hpop => ⟨hpop.1, Tables.fills_none hpop.2⟩
    | error e t => exact id

include hmethod in
/-- A function value is made of a nested function and the tables for its hidden parameters. -/
theorem settled_invoker {g : HiddenParams} {k : Nat}
    (hk : k = g.count ∨ g = .none)
    (hst : Stands P T own h (.function g :: g.items) hs D s) :
    Settled P T own h [] hs D (step r call R (.newInvoker k) s) := by
  obtain ⟨v, t, hpop, ht, ⟨c, rfl, hP⟩, -⟩ := hst.pop
  have hcaptured := after_popN hmethod hk ht
  change Settled _ _ _ _ _ _ _ ((Run.pop >>= _) s)
  rw [bind_of_ok hpop]
  change Settled _ _ _ _ _ _ _ (EStateM.bind (popN k) _ t)
  unfold EStateM.bind
  revert hcaptured
  cases popN k t with
  | error e u => exact (Keeping.inv_sheltered hmethod).mp
  | ok captured u =>
      rintro ⟨hu, hfills⟩
      have hsound := (Keeping.inv_sheltered hmethod).mp hu
      have hmade : Sound P T (h :: hs) D { u with heap := (u.heap.newFunction ⟨c, captured⟩).2 } :=
        { hsound with functions := forall_push hsound.functions ⟨own, g, hP, hfills⟩ }
      exact settled_of_after hmethod
        (Keeping.pushNext (v := .func u.heap.functions.size) trivial _ ((Keeping.inv_sheltered hmethod).mpr hmade))

/-- What is at the address of an own local or argument is free. -/
theorem free_of_place {a : Addr} {n : Nat} {w : Value} (hsound : Sound P T (h :: hs) D s)
    (ha : a = .local (s.frames.length - 1) n ∨ (h.count ≤ n ∧ a = .arg (s.frames.length - 1) n))
    (hw : loadAddr r a s = .ok w t) : T.Free w := by
  obtain ⟨heap, frames, statics⟩ := s
  cases hsound.frames with
  | @cons _ f _ rest hsuits _ =>
      have hlook : ∀ {place : Addr} {found : Option Value},
          orDangling place found ⟨heap, f :: rest, statics⟩ = .ok w t → found = some w := by
        intro place found hfound
        cases found <;> cases hfound
        rfl
      rcases ha with rfl | ⟨hn, rfl⟩
      · have hfound := hlook hw
        rw [List.length_cons, Nat.add_one_sub_one, Keeping.frame?_current] at hfound
        exact hsuits.locals w (Array.mem_of_getElem? hfound)
      · have hfound := hlook hw
        rw [List.length_cons, Nat.add_one_sub_one, Keeping.frame?_current] at hfound
        exact hsuits.args.rest n w hn (by simpa using hfound)

/-- What is known of an address: that of an own local, or of an own argument that is not hidden. -/
theorem Stands.popAddr (hst : Stands P T own h [.place] hs D s) :
    ∃ a n t, Run.popAddr r s = .ok a t ∧ Sound P T (h :: hs) D t ∧ a.Within T.reach ∧
      (a = .local (t.frames.length - 1) n ∨ (h.count ≤ n ∧ a = .arg (t.frames.length - 1) n)) := by
  obtain ⟨v, t, hpop, ht, ⟨n, hplace⟩, -⟩ := hst.pop
  have hsound := stands_nil.mp ht
  rcases hplace with rfl | ⟨hn, rfl⟩
  · exact ⟨_, n, t, bind_of_ok hpop, hsound, trivial, .inl rfl⟩
  · exact ⟨_, n, t, bind_of_ok hpop, hsound, trivial, .inr ⟨hn, rfl⟩⟩

/-- An action ends well if the one behind it does. -/
theorem Keeping.After.bind {K : Keeping r} {α β : Type} {x : Run α} {f : α → Run β} {Q : α → Prop}
    {Q' : β → Prop} (hx : K.After Q (x s)) (hf : ∀ a, Q a → K.Ensures (f a) Q') :
    K.After Q' ((x >>= f) s) := by
  change K.After Q' (EStateM.bind x f s)
  unfold EStateM.bind
  revert hx
  cases x s with
  | ok a t => exact fun hx => hf a hx.2 t hx.1
  | error e t => exact id

include hmethod in
/-- A local or an argument is zeroed by its address. -/
theorem settled_zeroed (hst : Stands P T own h [.place] hs D s) {ty : Ty} :
    Settled P T own h [] hs D (step r call R (.initObject ty) s) := by
  obtain ⟨a, n, t, hpop, hsound, hwithin, hplace⟩ := hst.popAddr (r := r)
  have hinv := (Keeping.inv_sheltered hmethod).mpr hsound
  refine settled_of_after hmethod ?_
  change Storing.After _ _ ((Run.popAddr r >>= _) s)
  rw [bind_of_ok hpop]
  cases hzero : r.zero ty with
  | error e => exact hinv
  | ok zero =>
      change Storing.After _ _ ((storeAddr r a zero >>= fun _ => (pure .next : Run Flow)) t)
      refine Keeping.After.bind (Keeping.storeAddr hwithin (Registry.within_zero hzero) hinv fun _ w u hw =>
        free_of_place hsound hplace hw) fun _ _ => Keeping.pure rfl

include hmethod in
/-- A local or an argument is read by its address. -/
theorem settled_indirect (hst : Stands P T own h [.place] hs D s) :
    Settled P T own h [] hs D (step r call R .loadIndirect s) := by
  obtain ⟨a, n, t, hpop, hsound, hwithin, hplace⟩ := hst.popAddr (r := r)
  have hinv := (Keeping.inv_sheltered hmethod).mpr hsound
  refine settled_of_after hmethod ?_
  change Storing.After _ _ ((Run.popAddr r >>= fun a => loadAddr r a >>= pushNext) s)
  rw [bind_of_ok hpop]
  have hload := Keeping.loadAddr (K := (Keeping.sheltered P T r hmethod h hs (· = D)).toStoring) hwithin t hinv
  refine Keeping.After.bind (Q := T.Free) ?_ fun w hw => Keeping.pushNext hw
  revert hload
  cases hvalue : loadAddr r a t with
  | ok w u => exact fun hload => ⟨hload.1, free_of_place hsound hplace hvalue⟩
  | error e u => exact id

/-- The address of an element of an array that is there. -/
theorem elementAddr_array {ref : Ref} {c : ArrayCell} (hc : s.heap.arrays[ref]? = some c) (j : Int) :
    elementAddr r (.array ref) j s =
      (if 0 ≤ j ∧ j < c.size then pure (.elem ref j.toNat) else raise r .indexOutOfRange : Run Addr) s := by
  have hcell : arrayCell r (.array ref) .elementOf s = .ok (ref, c) s := by
    have hget : (get : Run State) s = .ok s s := rfl
    rw [arrayCell, bind_of_ok hget]
    simp only [hc]
    rfl
  change (arrayCell r (.array ref) .elementOf >>= _) s = _
  rw [bind_of_ok hcell]

/-- The index and the table of an element are popped. -/
theorem Stands.popElement {n : Int} {table : HiddenTable}
    (hst : Stands P T own h [.index n, .table table] hs D s) : ∃ ref c t u,
      popIndex s = .ok (Num.i32 n).toIndex t ∧ Run.pop t = .ok (.array ref) u ∧
      T.ref? table = some ref ∧ u.heap.arrays[ref]? = some c ∧ c.data = D table ∧
      Sound P T (h :: hs) D u := by
  obtain ⟨v, t, hpop, ht, rfl, -⟩ := hst.pop
  obtain ⟨w, u, hpop', hu, ⟨ref, href, rfl⟩, -⟩ := ht.pop
  have hsound := stands_nil.mp hu
  obtain ⟨c, hc, hdata⟩ := hsound.contents table ref href
  exact ⟨ref, c, t, u, bind_of_ok hpop, hpop', href, hc, hdata, hsound⟩

include hmethod in
/-- An element of a table is read. -/
theorem settled_fetch {n : Int} {table : HiddenTable}
    (hst : Stands P T own h [.index n, .table table] hs D s) :
    Settled P T own h [] hs D (step r call R .loadElem s) := by
  obtain ⟨ref, c, t, u, hindex, hpop, -, hc, hdata, hsound⟩ := hst.popElement
  have hinv := (Keeping.inv_sheltered hmethod).mpr hsound
  refine settled_of_after hmethod ?_
  change Storing.After _ _ ((popIndex >>= fun j => Run.pop >>= fun v => elementAddr r v j >>= fun a =>
    loadAddr r a >>= pushNext) s)
  rw [bind_of_ok hindex, bind_of_ok hpop, bind_congr_run (elementAddr_array hc _)]
  split
  · next hrange =>
      have hlt : (Num.i32 n).toIndex.toNat < c.data.size := by
        have hsize : c.size = c.data.size := rfl
        omega
      have helem : loadAddr r (.elem ref (Num.i32 n).toIndex.toNat) u =
          .ok c.data[(Num.i32 n).toIndex.toNat] u := by
        change orDangling _ ((u.heap.arrays[ref]?).bind fun c => c.data[(Num.i32 n).toIndex.toNat]?) u = _
        rw [hc, Option.bind_some, Array.getElem?_eq_getElem hlt]
        rfl
      change Storing.After _ _ ((loadAddr r (.elem ref (Num.i32 n).toIndex.toNat) >>= pushNext) u)
      rw [bind_of_ok helem]
      refine Keeping.pushNext (hsound.held table _ ?_) u hinv
      rw [← hdata]
      exact Array.getElem_mem hlt
  · exact Keeping.bind Keeping.raise (fun _ h => h) u hinv

/-- A table is written to. -/
theorem Sound.write {hs : List HiddenParams} (hsound : Sound P T hs D s) {table : HiddenTable} {ref : Ref}
    (href : T.ref? table = some ref) {v : Value} (hv : T.Free v) (n : Nat) :
    Sound P T hs (Function.update D table ((D table).setIfInBounds n v))
      { s with heap := s.heap.setElem ref n v } :=
  { hsound with
    elems := fun i c hfree hc => by
      change (s.heap.arrays.modify ref _)[i]? = some c at hc
      have hne : ref ≠ i := by
        rintro rfl
        exact hfree ⟨table, href⟩
      rw [Array.getElem?_modify, if_neg hne] at hc
      exact hsound.elems i c hfree hc
    contents := fun t i hi => by
      obtain ⟨c, hc, hdata⟩ := hsound.contents t i hi
      change ∃ c : ArrayCell, (s.heap.arrays.modify ref _)[i]? = some c ∧ _
      rw [Array.getElem?_modify]
      by_cases ht : t = table
      · subst ht
        cases href.symm.trans hi
        rw [if_pos rfl, hc, Function.update_self]
        exact ⟨_, rfl, congrArg (·.setIfInBounds n v) hdata⟩
      · have hne : ref ≠ i := by
          rintro rfl
          exact ht (T.inj hi href)
        rw [if_neg hne, Function.update_of_ne ht]
        exact ⟨c, hc, hdata⟩
    held := fun t w hw => by
      by_cases ht : t = table
      · subst ht
        rw [Function.update_self] at hw
        exact Keeping.forall_mem_setIfInBounds (hsound.held t) hv w hw
      · rw [Function.update_of_ne ht] at hw
        exact hsound.held t w hw }

/-- An instruction that stores an element of a table writes it. -/
theorem write?_storeElem {pc : Nat} (hcode : R.code[pc]? = some .storeElem) {f : Frame} {rest : List Frame}
    {v index : Value} {ref : Ref} {stack : List Value} (hframes : s.frames = f :: rest)
    (hstack : f.stack = v :: index :: .array ref :: stack) {table : HiddenTable}
    (href : T.ref? table = some ref) {j : Int} (hj : index.toIndex? = some j) :
    Moment.write? T ⟨R, pc, s⟩ = if 0 ≤ j then some (table, j.toNat, v) else none := by
  simp only [Moment.write?, hcode, hframes, List.head?_cons, Option.map_some, hstack,
    Tables.table?_of_ref? href, hj]

/-- What the tables hold behind an instruction that stores an element of one. -/
theorem after_storeElem {pc : Nat} (hcode : R.code[pc]? = some .storeElem) {f : Frame} {rest : List Frame}
    {v index : Value} {ref : Ref} {stack : List Value} (hframes : s.frames = f :: rest)
    (hstack : f.stack = v :: index :: .array ref :: stack) {table : HiddenTable}
    (href : T.ref? table = some ref) {j : Int} (hj : index.toIndex? = some j) :
    D.after T ⟨R, pc, s⟩ =
      if 0 ≤ j then Function.update D table ((D table).setIfInBounds j.toNat v) else D := by
  rw [Contents.after, write?_storeElem hcode hframes hstack href hj]
  by_cases hrange : 0 ≤ j
  · rw [if_pos hrange, if_pos hrange]
  · rw [if_neg hrange, if_neg hrange]

include hmethod in
/-- An element of a table is written. -/
theorem settled_store {n : Int} {slot pc : Nat} (hcode : R.code[pc]? = some .storeElem)
    (hst : Stands P T own h [.boxed slot, .index n, .table .closure] hs D s) :
    Settled P T own h [] hs (D.after T ⟨R, pc, s⟩) (step r call R .storeElem s) := by
  obtain ⟨heap, args, locals, stack, handling, rest, statics, vs, rfl, hvs, hsound⟩ := hst.exists_frame
  obtain ⟨v, vs, hv, hvs, rfl⟩ := List.forall₂_cons_left_iff.mp hvs
  obtain ⟨index, vs, rfl, hvs, rfl⟩ := List.forall₂_cons_left_iff.mp hvs
  obtain ⟨array, vs, ⟨ref, href, rfl⟩, hvs, rfl⟩ := List.forall₂_cons_left_iff.mp hvs
  cases hvs
  let u : State := ⟨heap, ⟨args, locals, stack, handling⟩ :: rest, statics⟩
  have hfree : T.Free v := by
    obtain ⟨w, hw, rfl⟩ := hv
    cases hsound.frames with
    | cons hsuits _ => exact Value.within_boxed (hsuits.locals w (Array.mem_of_getElem? hw))
  obtain ⟨c, hc, hdata⟩ := hsound.contents .closure ref href
  have hstep : step r call R .storeElem
      ⟨heap, ⟨args, locals, [v, .int n, .array ref] ++ stack, handling⟩ :: rest, statics⟩ =
      (elementAddr r (.array ref) (Num.i32 n).toIndex >>= fun a => storeAddr r a v >>= fun _ =>
        (pure .next : Run Flow)) u := rfl
  rw [after_storeElem hcode rfl rfl href rfl]
  refine hstep ▸ ?_
  rw [bind_congr_run (elementAddr_array hc _)]
  generalize (Num.i32 n).toIndex = j
  have hsize : c.size = (D .closure).size := congrArg Array.size hdata
  by_cases hrange : 0 ≤ j ∧ j < c.size
  · rw [if_pos hrange, if_pos hrange.1]
    have hlt : j.toNat < c.data.size := by
      have hsame : c.size = c.data.size := rfl
      omega
    have helem : u.heap.elem? ref j.toNat = some c.data[j.toNat] := by
      change ((heap.arrays[ref]?).bind fun c => c.data[j.toNat]?) = _
      rw [hc, Option.bind_some, Array.getElem?_eq_getElem hlt]
    have hstore : storeAddr r (.elem ref j.toNat) v u =
        .ok ⟨⟩ { u with heap := u.heap.setElem ref j.toNat v } := by
      change (orDangling _ (u.heap.elem? ref j.toNat) >>= _) u = _
      rw [helem]
      rfl
    change Settled _ _ _ _ _ _ _ ((storeAddr r (.elem ref j.toNat) v >>= fun _ => (pure .next : Run Flow)) u)
    rw [bind_of_ok hstore]
    exact stands_nil.mpr (hsound.write href hfree j.toNat)
  · -- Nothing is written behind the end of the table.
    have hsame : (if 0 ≤ j then Function.update D .closure ((D .closure).setIfInBounds j.toNat v) else D) = D := by
      split
      · rw [Array.setIfInBounds_eq_of_size_le (by omega), Function.update_eq_self]
      · rfl
    rw [if_neg hrange, hsame]
    exact settled_of_after hmethod
      (Keeping.bind Keeping.raise (fun _ h => h) u ((Keeping.inv_sheltered hmethod).mpr hsound))

theorem write?_of_ne {pc : Nat} {i : Instr} (hcode : R.code[pc]? = some i) (hi : i ≠ .storeElem) :
    Moment.write? T ⟨R, pc, s⟩ = none := by
  unfold Moment.write?
  split
  · next hstore _ => exact absurd (Option.some.inj (hcode.symm.trans hstore)) hi
  · rfl

/-- Where the stack leads to no table, none is written to. -/
theorem write?_of_sound {pc : Nat} (hsound : Sound P T (h :: hs) D s) :
    Moment.write? T ⟨R, pc, s⟩ = none := by
  obtain ⟨heap, frames, statics⟩ := s
  cases hsound.frames with
  | @cons _ f _ rest hsuits _ =>
      unfold Moment.write?
      split
      · next v index ref stack _ hstack =>
          have hfree : T.Free (.array ref) := hsuits.stack _ (by
            rw [Option.some.inj hstack]
            exact List.mem_cons_of_mem _ (List.mem_cons_of_mem _ List.mem_cons_self))
          split
          · next t _ ht _ => exact absurd ⟨t, Tables.ref?_of_table? ht⟩ hfree
          · rfl
      · rfl

include hmethod in
/-- An instruction calls nothing and changes what is known of the stack as the code says, or it has no
part in it. -/
theorem settled_shift {i : Instr} {st' : List Item} {pc : Nat} (hcode : R.code[pc]? = some i)
    (hhas : R.Has i) (hrunning : Running R s) (hshifts : i.Shifts h (R.Role (P own)) st st')
    (hst : Stands P T own h st hs D s) :
    (i.fallsThrough = true ∧ callee r R i s = .ok none s ∧
      ∀ call, Settled P T own h st' hs (D.after T ⟨R, pc, s⟩) (step r call R i s)) ∨
    (st = [] ∧ st' = [] ∧ i.isDelicate = false ∧ (∀ n ∈ i.args, h.count ≤ n) ∧
      ∀ n ∈ i.children, R.Role (P own) n .none) := by
  cases hshifts with
  | other hdelicate hargs hchildren => exact .inr ⟨rfl, rfl, hdelicate, hargs, hchildren⟩
  | table ht =>
      rw [Contents.after_of_none (write?_of_ne hcode nofun)]
      exact .inl ⟨rfl, rfl, fun _ => settled_table hst ht⟩
  | index =>
      rw [Contents.after_of_none (write?_of_ne hcode nofun)]
      exact .inl ⟨rfl, rfl, fun _ => hst.push rfl⟩
  | fetch =>
      rw [Contents.after_of_none (write?_of_ne hcode nofun)]
      exact .inl ⟨rfl, rfl, fun _ => settled_fetch hmethod hst⟩
  | @operand _ slot =>
      rw [Contents.after_of_none (write?_of_ne hcode nofun)]
      have hslot : ∃ w, local? s slot = some w := by
        have hlt : slot < R.locals.size := hhas.slots slot List.mem_cons_self
        obtain ⟨heap, args, locals, stack, handling, rest, statics, vs, rfl, -, -⟩ := hst.exists_frame
        have hextent := Option.some.inj hrunning.current
        have hsize : locals.size = R.locals.size := congrArg Prod.snd hextent
        exact ⟨locals[slot], Array.getElem?_eq_getElem (hsize ▸ hlt)⟩
      obtain ⟨w, hw⟩ := hslot
      exact .inl ⟨rfl, rfl, fun _ => settled_operand hst hw⟩
  | boxed =>
      rw [Contents.after_of_none (write?_of_ne hcode nofun)]
      exact .inl ⟨rfl, rfl, fun _ => settled_boxed hst⟩
  | store => exact .inl ⟨rfl, rfl, fun _ => settled_store hmethod hcode hst⟩
  | function hn =>
      rw [Contents.after_of_none (write?_of_ne hcode nofun)]
      exact .inl ⟨rfl, rfl, fun _ => settled_function hst hn⟩
  | invoker hk =>
      rw [Contents.after_of_none (write?_of_ne hcode nofun)]
      exact .inl ⟨rfl, rfl, fun _ => settled_invoker hmethod hk hst⟩
  | localPlace =>
      rw [Contents.after_of_none (write?_of_ne hcode nofun)]
      exact .inl ⟨rfl, rfl, fun _ => hst.push ⟨_, .inl rfl⟩⟩
  | argPlace hn =>
      rw [Contents.after_of_none (write?_of_ne hcode nofun)]
      exact .inl ⟨rfl, rfl, fun _ => hst.push ⟨_, .inr ⟨hn, rfl⟩⟩⟩
  | zeroed =>
      rw [Contents.after_of_none (write?_of_ne hcode nofun)]
      exact .inl ⟨rfl, rfl, fun _ => settled_zeroed hmethod hst⟩
  | indirect =>
      rw [Contents.after_of_none (write?_of_ne hcode nofun)]
      exact .inl ⟨rfl, rfl, fun _ => settled_indirect hmethod hst⟩

end

/-! ## Runs -/

/-- From one state to another, the invariant is kept, and the tables hold at each moment what has been
written to them before. -/
def Shares (P : Bool → HiddenParams → Routine → Prop) (T : Tables) (s : State) (ms : List Moment)
    (t : State) : Prop :=
  ∀ hs D, Sound P T hs D s → ∃ D', Sound P T hs D' t ∧ History T D ms D'

/-- The code of the moment is in the family, and what is known of the stack is true. -/
def Moment.Stands (P : Bool → HiddenParams → Routine → Prop) (T : Tables) (m : Moment) : Prop :=
  ∃ own h known, P own h m.routine ∧ m.routine.Follows (P own) h known ∧ m.routine.Reaches m.pc ∧
    ∃ hs D, Run.Stands P T own h (known m.pc) hs D m.state

/-- A call of a routine of the family is as the invariant says. -/
def Sheltered (P : Bool → HiddenParams → Routine → Prop) (T : Tables) (R : Routine) (s : State) : Prop :=
  ∃ own h, P own h R ∧ ∃ hs D, Sound P T (h :: hs) D s

section

variable {own : Bool} {h : HiddenParams} {hs : List HiddenParams} {D : Contents} {s t : State}

/-- The invariant of the current call and of the calls around it. -/
theorem sound_cons {f : Frame} {rest : List Frame} (hframes : s.frames = f :: rest) :
    Sound P T (h :: hs) D s ↔ T.Suits h f ∧ Sound P T hs D (popFrame s) := by
  constructor
  · intro hsound
    have hsuits := hsound.frames
    rw [hframes] at hsuits
    cases hsuits with
    | cons hf hrest =>
        refine ⟨hf, { hsound with frames := ?_ }⟩
        simpa [popFrame, hframes] using hrest
  · rintro ⟨hf, hsound⟩
    have hrest := hsound.frames
    rw [popFrame, hframes] at hrest
    exact { hsound with frames := hframes ▸ .cons hf hrest }

/-- The calls around the current one may be seen with other hidden parameters. -/
theorem Sound.around (hsound : Sound P T (h :: hs) D s) {hs' : List HiddenParams} {D' : Contents}
    (hpop : Sound P T hs' D' (popFrame s)) : Sound P T (h :: hs') D' s := by
  cases hframes : s.frames with
  | nil =>
      have hsuits := hsound.frames
      rw [hframes] at hsuits
      cases hsuits
  | cons f rest => exact (sound_cons hframes).mpr ⟨((sound_cons hframes).mp hsound).1, hpop⟩

theorem Sound.pop (hsound : Sound P T (h :: hs) D s) : Sound P T hs D (popFrame s) := by
  cases hframes : s.frames with
  | nil =>
      have hsuits := hsound.frames
      rw [hframes] at hsuits
      cases hsuits
  | cons f rest => exact ((sound_cons hframes).mp hsound).2

theorem Stands.around {st : List Item} (hst : Stands P T own h st hs D s) {hs' : List HiddenParams}
    {D' : Contents} (hpop : Sound P T hs' D' (popFrame s)) : Stands P T own h st hs' D' s := by
  obtain ⟨vs, ⟨heap, frames, statics⟩, rfl, hvs, hsound⟩ := hst
  refine ⟨vs, _, rfl, hvs, hsound.around ?_⟩
  cases frames <;> exact hpop

theorem Stands.popFrame {st : List Item} (hst : Stands P T own h st hs D s) :
    Sound P T hs D (Run.popFrame s) := by
  obtain ⟨vs, ⟨heap, frames, statics⟩, rfl, hvs, hsound⟩ := hst
  have hpop := hsound.pop
  cases frames <;> exact hpop

theorem Stands.contain {st : List Item} (hst : Stands P T own h st hs D s) : T.Contain D s.heap := by
  obtain ⟨vs, ⟨heap, frames, statics⟩, rfl, hvs, hsound⟩ := hst
  cases frames <;> exact hsound.contents

variable {r : Registry} {R : Routine}

/-- A called routine starts as the invariant says. -/
theorem sound_of_entry {args : List Value} (hargs : T.Fills h args) (hsound : Sound P T hs D s)
    (hentry : entry? r R args s = some t) : Sound P T (h :: hs) D t ∧ popFrame t = s := by
  unfold entry? at hentry
  split at hentry
  · cases hentry
  · split at hentry
    · cases hentry
    · split at hentry <;> cases hentry
      next locals hlocals =>
      refine ⟨{ hsound with frames := .cons ⟨?_, fun v hv => ?_, fun _ hv => ?_⟩ hsound.frames }, rfl⟩
      · simpa using hargs
      · exact Registry.within_zeros hlocals v hv
      · cases hv

/-- A change of the current call in dispatch keeps the invariant. -/
theorem sound_of_adjusts {change : Frame → Frame} (hchange : Adjusts change)
    (hsound : Sound P T (h :: hs) D s) : EndsIn (fun t => Sound P T (h :: hs) D t ∧ popFrame t = popFrame s)
      (modifyFrame change s) := by
  unfold modifyFrame
  cases hframes : s.frames with
  | nil => exact ⟨hsound, rfl⟩
  | cons f rest =>
      obtain ⟨hsuits, -⟩ := (sound_cons hframes).mp hsound
      have hpop : popFrame { s with frames := change f :: rest } = popFrame s := by
        simp [popFrame, hframes]
      have hchanged : T.Suits h (change f) := by
        refine ⟨by rw [hchange.args]; exact hsuits.args, by rw [hchange.locals]; exact hsuits.locals,
          fun v hv => ?_⟩
        rcases hchange.stack f v hv with hv | ⟨e, rfl⟩
        · exact hsuits.stack v hv
        · trivial
      exact ⟨(sound_cons rfl).mpr ⟨hchanged, hpop ▸ hsound.pop⟩, hpop⟩

/-- How an instruction ends: what is known behind it is true, and what the tables hold is known. -/
def Went (P : Bool → HiddenParams → Routine → Prop) (T : Tables) (own : Bool) (h : HiddenParams)
    (known : Nat → List Item) (hs : List HiddenParams) (D : Contents) (R : Routine) (pc : Nat)
    (i : Instr) (ms : List Moment) : EStateM.Result Trap State Flow → Prop
  | .ok .next t => i.fallsThrough = true ∧
      ∃ D', Stands P T own h (known (pc + 1)) hs D' t ∧ History T D ms D'
  | .ok (.jump landing) t | .ok (.leave landing) t => R.Entry landing ∧
      ∃ D', Sound P T (h :: hs) D' t ∧ History T D ms D'
  | .ok (.ret v) t => T.Free v ∧ ∃ D', Sound P T (h :: hs) D' t ∧ History T D ms D'
  | .ok .endFinally t | .ok (.endFilter _) t | .error _ t =>
      ∃ D', Sound P T (h :: hs) D' t ∧ History T D ms D'

/-- An instruction is admitted that has no part in what is known of the stack. -/
theorem Keeping.plain_sheltered (hmethod : Bodies r (P false .none)) {C : Contents → Prop} {i : Instr}
    (hdelicate : i.isDelicate = false) (hargs : ∀ n ∈ i.args, h.count ≤ n)
    (hchildren : ∀ n ∈ i.children, R.Role (P own) n .none) :
    (Keeping.sheltered P T r hmethod h hs C).Plain R i where
  slots _ _ := trivial
  args := hargs
  indirect hi := by
    have hcontra : i.isDelicate = true := by
      cases i <;> first | rfl | cases hi
    exact absurd (hdelicate.symm.trans hcontra) Bool.false_ne_true
  pointer n c hi := by
    subst hi
    cases hdelicate
  child n c args hi hc hheld := by
    subst hi
    obtain ⟨c', hc', hP⟩ := hchildren n List.mem_cons_self
    cases hc.symm.trans hc'
    exact ⟨own, .none, hP, Tables.fills_none hheld⟩

/-- An instruction keeps the invariant if the call does that it makes. -/
theorem went_step (hmethod : Bodies r (P false .none)) {known : Nat → List Item} {pc : Nat} {i : Instr}
    {call : Caller} {ms : List Moment} (hcode : R.code[pc]? = some i) (hhas : R.Has i)
    (hrunning : Running R s) (hfollows : R.Follows (P own) h known)
    (hst : Stands P T own h (known pc) hs D s)
    (hcall : ∀ c args t, callee r R i s = .ok (some (c, args)) t →
      EndsIn (Shares P T t ms) (call c args t) ∧ ∀ v u, call c args t = .ok v u → T.Free v)
    (hms : (∀ c args t, callee r R i s ≠ .ok (some (c, args)) t) → ms = []) :
    Went P T own h known hs D R pc i (⟨R, pc, s⟩ :: ms) (Run.step r call R i s) := by
  have hcontain := hst.contain
  rcases settled_shift hmethod hcode hhas hrunning (hfollows.shifts pc i hcode) hst with
    ⟨hfalls, hnone, hsettled⟩ | ⟨hst₀, hst₁, hdelicate, hargs, hchildren⟩
  · -- The instruction calls nothing.
    have hquiet : ms = [] := hms fun c args t heq => nomatch hnone.symm.trans heq
    subst hquiet
    have hhistory : History T D [⟨R, pc, s⟩] (D.after T ⟨R, pc, s⟩) := ⟨hcontain, rfl⟩
    have hsettled := hsettled call
    revert hsettled
    cases Run.step r call R i s with
    | ok flow t =>
        cases flow with
        | next => exact fun ht => ⟨hfalls, _, ht, hhistory⟩
        | _ => exact False.elim
    | error e t => exact fun ht => ⟨_, ht, hhistory⟩
  · rw [hst₀] at hst
    have hsound := stands_nil.mp hst
    let K := Keeping.sheltered P T r hmethod h hs (· = D)
    let K' := Keeping.sheltered P T r hmethod h hs (History T D ms)
    have hplain : K.Plain R i := Keeping.plain_sheltered hmethod hdelicate hargs hchildren
    have hstep : K'.After (K'.Leads R i) (Run.step r call R i s) := by
      refine Keeping.step_across (K := K) rfl hplain ((Keeping.inv_sheltered hmethod).mpr hsound)
        (fun hnone u hu => ?_) fun c args t hcallee ht _ => ?_
      · obtain ⟨_, rfl, hu⟩ := hu
        exact ⟨_, by rw [hms hnone]; rfl, hu⟩
      · obtain ⟨hends, hresult⟩ := hcall c args t hcallee
        have ht := (Keeping.inv_sheltered hmethod).mp ht
        revert hends hresult
        cases call c args t with
        | ok v u =>
            intro hends hresult
            obtain ⟨D', hu, hhistory⟩ := hends _ _ ht
            exact ⟨⟨D', hhistory, hu⟩, hresult v u rfl⟩
        | error e u =>
            intro hends _
            obtain ⟨D', hu, hhistory⟩ := hends _ _ ht
            exact ⟨D', hhistory, hu⟩
    have hmore : ∀ {D' : Contents}, History T D ms D' → History T D (⟨R, pc, s⟩ :: ms) D' :=
      fun hhistory => ⟨hcontain, (Contents.after_of_none (write?_of_sound hsound)).symm ▸ hhistory⟩
    revert hstep
    cases Run.step r call R i s with
    | ok flow t =>
        rintro ⟨⟨D', hhistory, ht⟩, hleads⟩
        cases flow with
        | next => exact ⟨hleads, D', hst₁ ▸ stands_nil.mpr ht, hmore hhistory⟩
        | jump landing | leave landing =>
            obtain ⟨l, _, hl⟩ := hleads
            exact ⟨.label hl, D', ht, hmore hhistory⟩
        | ret v => exact ⟨hleads, D', ht, hmore hhistory⟩
        | endFinally | endFilter verdict => exact ⟨D', ht, hmore hhistory⟩
    | error e t =>
        rintro ⟨D', hhistory, ht⟩
        exact ⟨D', ht, hmore hhistory⟩

end

/-! ## Methods of the host -/

/-- Nothing comes to lead to a hidden table, and the tables hold what they have held. -/
def Untouched (P : Bool → HiddenParams → Routine → Prop) (T : Tables) (s t : State) : Prop :=
  ∀ hs D, Sound P T hs D s → Sound P T hs D t

/-- The hidden tables remain hidden, whatever is written to them. -/
def Hidden (P : Bool → HiddenParams → Routine → Prop) (T : Tables) (s t : State) : Prop :=
  ∀ hs D, Sound P T hs D s → ∃ D', Sound P T hs D' t

end Run

/-- A method of the host has no part in hidden tables: given arguments that lead to none, it leaves the
tables untouched between its calls.  While the tables are hidden, it calls routines of the family with what
their hidden parameters are, and yields values that lead to no table. -/
def Host.Shelters (P : Bool → HiddenParams → Routine → Prop) (T : Tables) (f : Host) : Prop :=
  ∀ args s, (∀ v ∈ args, T.Free v) →
    (f args s).Proceeds (Run.Untouched P T) (Run.Hidden P T)
      (fun R args s => (∃ hs D, Run.Sound P T hs D s) → ∃ own g, P own g R ∧ T.Fills g args)
      (fun v s => (∃ hs D, Run.Sound P T hs D s) → T.Free v) s

/-- No method of the host has a part in hidden tables. -/
def Registry.HostsShelter (r : Registry) (P : Bool → HiddenParams → Routine → Prop) (T : Tables) : Prop :=
  ∀ f ∈ r.hosts, f.Shelters P T

namespace Run

variable {P : Bool → HiddenParams → Routine → Prop} {T : Tables}

/-- In a state where the tables are hidden, a method of the host that has no part in them shares them. -/
theorem shares_of_shelters {method : HostRun} {s : State}
    (h : method.Proceeds (Untouched P T) (Hidden P T)
      (fun R args s => (∃ hs D, Sound P T hs D s) → ∃ own g, P own g R ∧ T.Fills g args)
      (fun v s => (∃ hs D, Sound P T hs D s) → T.Free v) s)
    (hsound : ∃ hs D, Sound P T hs D s) :
    method.Proceeds (fun s t => Shares P T s [] t) (fun s t => ∃ ms, Shares P T s ms t)
      (fun R args s => (∃ own g, P own g R ∧ T.Fills g args) ∧ ∃ hs D, Sound P T hs D s)
      (fun v _ => T.Free v) s := by
  induction method generalizing s with
  | done outcome =>
      obtain ⟨hs, D, hsound⟩ := hsound
      exact ⟨fun hs D hsound => ⟨D, h.1 hs D hsound, rfl⟩, fun v t hout =>
        h.2 v t hout ⟨hs, D, by have hend := h.1 hs D hsound; rwa [hout] at hend⟩⟩
  | call R args t resume ih =>
      obtain ⟨hown, hadmits, hrest⟩ := h
      obtain ⟨hs, D, hsound⟩ := hsound
      have ht := hown hs D hsound
      refine ⟨fun hs D hsound => ⟨D, hown hs D hsound, rfl⟩, ⟨hadmits ⟨hs, D, ht⟩, hs, D, ht⟩, ?_⟩
      rintro outcome ⟨ms, hshares⟩ hresult
      have hhidden : Hidden P T t outcome.state := fun hs D hsound =>
        let ⟨D', hu, _⟩ := hshares hs D hsound
        ⟨D', hu⟩
      obtain ⟨D', hu⟩ := hhidden hs D ht
      exact ih outcome (hrest outcome hhidden fun v u hout _ => hresult v u hout) ⟨hs, D', hu⟩

/-- What an instruction calls may be called, and in a state where the tables are hidden. -/
theorem admits_of_callee {r : Registry} (hP : ∀ own, Routine.Sheltering (P own))
    (hmethod : Bodies r (P false .none)) {R : Routine} {pc : Nat} {s t : State} {i : Instr} {c : Callee}
    {args : List Value} (hat : Moment.Stands P T ⟨R, pc, s⟩) (hrunning : Running R s)
    (hcode : R.code[pc]? = some i) (hcallee : callee r R i s = .ok (some (c, args)) t) :
    Admits P T r c args ∧ ∃ hs D, Sound P T hs D t := by
  obtain ⟨own, h, known, hR, hfollows, -, hs, D, hst⟩ := hat
  have hhas := (hP own h R hR).1.operands i (Array.mem_of_getElem? hcode)
  rcases settled_shift hmethod hcode hhas hrunning (hfollows.shifts pc i hcode) hst with
    ⟨-, hnone, -⟩ | ⟨hst₀, -, hdelicate, hargs, hchildren⟩
  · cases hnone.symm.trans hcallee
  · rw [hst₀] at hst
    have hasked := Keeping.callee (Keeping.plain_sheltered hmethod hdelicate hargs hchildren) s
      ((Keeping.inv_sheltered hmethod).mpr (stands_nil.mp hst))
    rw [hcallee] at hasked
    exact ⟨hasked.2 c args rfl, _, _, (Keeping.inv_sheltered hmethod).mp hasked.1⟩

/-- Runs of a sheltered family share the hidden tables, if the host has no part in them. -/
def Logic.sheltered (P : Bool → HiddenParams → Routine → Prop) (T : Tables)
    (hP : ∀ own, Routine.Sheltering (P own)) (r : Registry) (hmethod : Bodies r (P false .none))
    (hhosts : r.HostsShelter P T) : Logic r where
  Given m := Running m.routine m.state
  At := Moment.Stands P T
  Idle := Sheltered P T
  Link s ms t := Shares P T (popFrame s) ms (popFrame t)
  Across := Shares P T
  Admits R args s := (∃ own g, P own g R ∧ T.Fills g args) ∧ ∃ hs D, Sound P T hs D s
  Result v _ := T.Free v
  refl s hs D hsound := ⟨D, hsound, rfl⟩
  trans h k hs D hsound := by
    obtain ⟨D', ht, hfirst⟩ := h hs D hsound
    obtain ⟨D'', hu, hsecond⟩ := k hs D' ht
    exact ⟨D'', hu, hfirst.append hsecond⟩
  still s hs D hsound := ⟨D, hsound, rfl⟩
  follow h k hs D hsound := by
    obtain ⟨D', ht, hfirst⟩ := h hs D hsound
    obtain ⟨D'', hu, hsecond⟩ := k hs D' ht
    exact ⟨D'', hu, hfirst.append hsecond⟩
  enter := by
    rintro R args s t ⟨⟨own, g, hR, hargs⟩, hs, D, hsound⟩ hentry
    exact ⟨own, g, hR, hs, D, (sound_of_entry hargs hsound hentry).1⟩
  exit := by
    rintro R args s t u ms ⟨⟨own, g, hR, hargs⟩, hs, D, hsound⟩ hentry hlink
    rwa [(sound_of_entry hargs hsound hentry).2] at hlink
  value _ hv := hv
  arrive := by
    rintro R pc s ⟨own, h, hR, hs, D, hsound⟩ hentry
    obtain ⟨-, known, hfollows⟩ := hP own h R hR
    refine ⟨own, h, known, hR, hfollows, .entry hentry, hs, D, ?_⟩
    rw [hfollows.entry pc hentry]
    exact stands_nil.mpr hsound
  past := by
    rintro R pc s ⟨own, h, known, hR, -, hreaches, -⟩ hcode
    have hlt := (hP own h R hR).1.lt_of_reaches hreaches
    rw [Array.getElem?_eq_none_iff] at hcode
    exact absurd hlt (Nat.not_lt.mpr hcode)
  adjust := by
    rintro R change s hchange ⟨own, h, hR, hs, D, hsound⟩
    have hend := sound_of_adjusts hchange hsound
    revert hend
    cases modifyFrame change s with
    | ok _ t | error e t =>
        rintro ⟨ht, hpop⟩
        exact ⟨fun hs D hsound => ⟨D, hpop ▸ hsound, rfl⟩, own, h, hR, hs, D, ht⟩
  asks hat hrunning hcode hcallee := admits_of_callee hP hmethod hat hrunning hcode hcallee
  hosts hat hrunning hcode hcallee := by
    obtain ⟨⟨hmem, hargs⟩, hsound⟩ := admits_of_callee hP hmethod hat hrunning hcode hcallee
    exact shares_of_shelters (hhosts _ hmem _ _ hargs) hsound
  step := by
    rintro R pc s i call ms ⟨own, h, known, hR, hfollows, hreaches, hs, D, hst⟩ hrunning hcode hcall hms
    have hhas := (hP own h R hR).1.operands i (Array.mem_of_getElem? hcode)
    have hwent : ∀ hs D, Stands P T own h (known pc) hs D s →
        Went P T own h known hs D R pc i (⟨R, pc, s⟩ :: ms) (Run.step r call R i s) :=
      fun hs D hst => went_step hmethod hcode hhas hrunning hfollows hst hcall hms
    have hfirst := hwent hs D hst
    have hevery := fun hs D hpop => hwent hs D (hst.around hpop)
    revert hfirst hevery
    cases Run.step r call R i s with
    | ok flow t =>
        cases flow with
        | next =>
            rintro ⟨hfalls, D', ht, -⟩ hevery
            refine ⟨fun hs D hpop => ?_, own, h, known, hR, hfollows, .next hreaches hcode hfalls, hs, D', ht⟩
            obtain ⟨-, D', ht, hhistory⟩ := hevery hs D hpop
            exact ⟨D', ht.popFrame, hhistory⟩
        | jump landing | leave landing =>
            rintro ⟨hentry, D', ht, -⟩ hevery
            refine ⟨fun hs D hpop => ?_, ⟨own, h, hR, hs, D', ht⟩, hentry⟩
            obtain ⟨-, D', ht, hhistory⟩ := hevery hs D hpop
            exact ⟨D', ht.pop, hhistory⟩
        | ret v =>
            rintro ⟨hv, D', ht, -⟩ hevery
            refine ⟨fun hs D hpop => ?_, ⟨own, h, hR, hs, D', ht⟩, hv⟩
            obtain ⟨-, D', ht, hhistory⟩ := hevery hs D hpop
            exact ⟨D', ht.pop, hhistory⟩
        | endFinally | endFilter verdict =>
            rintro ⟨D', ht, -⟩ hevery
            refine ⟨fun hs D hpop => ?_, own, h, hR, hs, D', ht⟩
            obtain ⟨D', ht, hhistory⟩ := hevery hs D hpop
            exact ⟨D', ht.pop, hhistory⟩
    | error e t =>
        rintro ⟨D', ht, -⟩ hevery
        have hlink : Shares P T (popFrame s) (⟨R, pc, s⟩ :: ms) (popFrame t) := by
          intro hs D hpop
          obtain ⟨D', ht, hhistory⟩ := hevery hs D hpop
          exact ⟨D', ht.pop, hhistory⟩
        cases e with
        | halted limit => exact hlink
        | thrown e | invalid d => exact ⟨hlink, own, h, hR, hs, D', ht⟩

end Run

end Arbor
