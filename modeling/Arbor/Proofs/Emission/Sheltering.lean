/-
  Emission of code that keeps hidden tables to itself.

  Emitters are looked at together with what is known of the stack: an emitter leads
  from items in front of its code to items behind it.  Labels are marked where
  nothing is known.  Whole trees lead from no items to none; in between, tables are
  loaded for one element, or for a nested function that gets the same tables.

  The code of a unit may also be looked at without regard to its hidden parameters,
  as if they were parameters like others.
-/
import Arbor.Proofs.Emission.Tracking

set_option autoImplicit false

namespace Arbor

/-- The hidden parameters, or none where they are not regarded. -/
def HiddenParams.seen (h : HiddenParams) (own : Bool) : HiddenParams := if own then h else .none

theorem HiddenParams.tables_of_tableArg? (h : HiddenParams) {t : HiddenTable} {n : Nat}
    (hn : h.tableArg? t = some n) : h.tables[n]? = some t := by
  obtain ⟨constants, closure⟩ := h
  cases constants <;> cases closure <;> cases t <;> cases hn <;> rfl

/-- The function becomes the routine, in a session with the helpers that their keys name. -/
def Lambda.Becomes (l : Lambda Expr) (R : Routine) : Prop :=
  ∃ setting session t, session.helpers.Sound ∧
    (Emit.unitBody (l.map Expr.toNode)).run setting (Emit.unitStart (l.map Expr.toNode) session) =
      .ok R t

/-- What the code of a unit is looked at for. -/
structure Watch where
  /-- The routines that children may be, each with its hidden parameters. -/
  family : HiddenParams → Routine → Prop
  /-- Whether hidden parameters are regarded. -/
  own : Bool
  /-- The hidden parameters of the unit. -/
  hidden : HiddenParams
  /-- The children that the unit will have. -/
  children : List Routine
  helpers : ∀ (kind : HelperKind) (elem : Ty), family .none (kind.routine elem)

theorem getElem?_of_prefix {α : Type} {items more : List α} (h : items <+: more) {n : Nat} {a : α}
    (hn : items[n]? = some a) : more[n]? = some a := by
  obtain ⟨rest, rfl⟩ := h
  rw [List.getElem?_append_left (List.getElem?_eq_some_iff.mp hn).1]
  exact hn

namespace Watch

variable (W : Watch)

/-- The child is in the family, with the hidden parameters. -/
def Role (n : Nat) (g : HiddenParams) : Prop := ∃ c, W.children[n]? = some c ∧ W.family g c

/-- The argument holds the table, where hidden parameters are regarded. -/
def Table (t : HiddenTable) (n : Nat) : Prop := W.hidden.tables[n]? = some t ∨ W.hidden = .none

end Watch

namespace Builder

/-- The code follows what is known of the stack, of which nothing is known where labels are. -/
structure Guarded (W : Watch) (b : Builder) (known : Nat → List Item) : Prop where
  start : known 0 = []
  shifts : ∀ (pc : Nat) (i : Instr), b.code[pc]? = some i →
    i.Shifts W.hidden W.Role (known pc) (known (pc + 1))
  marks : ∀ i pc : Nat, b.labels[i]? = some (some pc) → pc ≤ b.code.size ∧ known pc = []

/-- An instruction is replaced by one that changes as little. -/
theorem Guarded.patch {W : Watch} {b : Builder} {known : Nat → List Item} (h : b.Guarded W known)
    {position : Nat} {i : Instr}
    (hi : i.Shifts W.hidden W.Role (known position) (known (position + 1))) :
    (b.patch position i).Guarded W known where
  start := h.start
  shifts pc j hj := by
    rw [Builder.patch, Array.getElem?_setIfInBounds] at hj
    split at hj
    · next heq =>
        split at hj
        · cases hj
          exact heq ▸ hi
        · cases hj
    · exact h.shifts pc j hj
  marks j pc hj := by simpa [Builder.patch] using h.marks j pc hj

/-- A child is the routine that was asked for, or an earlier one with its key. -/
theorem getElem?_addChild (b : Builder) (c : Routine) :
    ∃ d, (b.addChild c).2.children[(b.addChild c).1]? = some d ∧
      (d = c ∨ (d ∈ b.children ∧ d.key = c.key)) := by
  unfold addChild
  split
  · next i hi =>
      obtain ⟨hlt, hkey, -⟩ := Array.findIdx?_eq_some_iff_getElem.mp hi
      exact ⟨b.children[i], Array.getElem?_eq_getElem hlt, .inr ⟨Array.getElem_mem hlt, by simpa using hkey⟩⟩
  · exact ⟨c, by simp, .inl rfl⟩

end Builder

/-- What the state of emission holds suits the watch. -/
structure Emission.Watched (W : Watch) (s : Emission) (known : Nat → List Item) : Prop where
  builder : s.builder.Guarded W known
  hidden : s.hidden.seen W.own = W.hidden
  scope : ∀ v ∈ s.scope, v.2.1.Among (fun _ => True) (W.hidden.count ≤ ·)
  linked : s.Linked

namespace Emit

variable {α β : Type} {W : Watch} {st st' st'' : List Item}

/-- The emitter leads from known items to known items, and its results have the property. -/
def Carries (W : Watch) (st : List Item) (x : Emit α) (st' : List Item) (Q : α → Prop) : Prop :=
  ∀ setting s t a known, x.run setting s = .ok a t → t.builder.children.toList <+: W.children →
    s.Watched W known → known s.position = st →
    (∃ known', (∀ pc ≤ s.position, known' pc = known pc) ∧ t.Watched W known' ∧
      known' t.position = st') ∧ Q a

/-! ## Composition -/

theorem Carries.bind {x : Emit α} {f : α → Emit β} {P : α → Prop} {Q : β → Prop}
    (hx : Carries W st x st' P) (hf : ∀ a, P a → Carries W st' (f a) st'' Q) :
    Carries W st (x >>= f) st'' Q := by
  intro setting s t b known hrun hfits hs hst
  obtain ⟨a, u, hxu, hfu⟩ := run_bind hrun
  obtain ⟨⟨known', hbefore, hu, hst'⟩, ha⟩ :=
    hx _ _ _ _ _ hxu (((f a).grows hfu).children.trans hfits) hs hst
  obtain ⟨⟨known'', hbefore', ht, hst''⟩, hb⟩ := hf a ha _ _ _ _ _ hfu hfits hu hst'
  exact ⟨⟨known'', fun pc hpc => (hbefore' pc (Nat.le_trans hpc (x.grows hxu).position_le)).trans
    (hbefore pc hpc), ht, hst''⟩, hb⟩

theorem Carries.seq {x : Emit α} {f : α → Emit β} {Q : β → Prop}
    (hx : Carries W st x st' fun _ => True) (hf : ∀ a, Carries W st' (f a) st'' Q) :
    Carries W st (x >>= f) st'' Q :=
  hx.bind fun a _ => hf a

theorem Carries.pure {a : α} {Q : α → Prop} (h : Q a) : Carries W st (Pure.pure a) st Q := by
  intro setting s t b known hrun _ hs hst
  cases hrun
  exact ⟨⟨known, fun _ _ => rfl, hs, hst⟩, h⟩

theorem Carries.done {a : α} : Carries W st (Pure.pure a) st fun _ => True := .pure trivial

theorem Carries.fail {e : CompileError} {Q : α → Prop} : Carries W st (Emit.fail e) st' Q := by
  intro setting s t a known hrun
  cases hrun

theorem Carries.imp {x : Emit α} {Q Q' : α → Prop} (hx : Carries W st x st' Q)
    (h : ∀ a, Q a → Q' a) : Carries W st x st' Q' :=
  fun setting s t a known hrun hfits hs hst => (hx setting s t a known hrun hfits hs hst).imp_right (h a)

theorem Carries.ite {c : Prop} [Decidable c] {x y : Emit α} {Q : α → Prop}
    (hx : Carries W st x st' Q) (hy : Carries W st y st' Q) :
    Carries W st (if c then x else y) st' Q := by
  split
  · exact hx
  · exact hy

/-- An emitter that adds neither code nor marks. -/
theorem Carries.of_code {x : Emit α} {Q : α → Prop}
    (h : ∀ setting s t a known, x.run setting s = .ok a t → t.builder.children.toList <+: W.children →
      s.Watched W known → t.builder.code = s.builder.code ∧
        (∀ i pc : Nat, t.builder.labels[i]? = some (some pc) → s.builder.labels[i]? = some (some pc)) ∧
        Q a) : Carries W st x st Q := by
  intro setting s t a known hrun hfits hs hst
  obtain ⟨hcode, hlabels, ha⟩ := h setting s t a known hrun hfits hs
  have hgrows := x.grows hrun
  refine ⟨⟨known, fun _ _ => rfl, ⟨⟨hs.builder.start, fun pc i hi => ?_, fun i pc hi => ?_⟩, ?_, ?_,
    hgrows.linked hs.linked⟩, ?_⟩, ha⟩
  · exact hs.builder.shifts pc i (hcode ▸ hi)
  · rw [hcode]
    exact hs.builder.marks i pc (hlabels i pc hi)
  · rw [hgrows.hidden]
    exact hs.hidden
  · rw [hgrows.scope]
    exact hs.scope
  · rw [← hst, Emission.position, hcode, ← Emission.position]

theorem Carries.read {f : Setting → Emission → Except CompileError α} {Q : α → Prop}
    (h : ∀ setting s a known, f setting s = .ok a → s.Watched W known → Q a) :
    Carries W st (Emit.read f) st Q := by
  refine .of_code fun setting s t a known hrun _ hs => ?_
  simp only [Emit.read] at hrun
  split at hrun
  · next hf =>
      cases hrun
      exact ⟨rfl, fun _ _ hi => hi, h setting s a known hf hs⟩
  · cases hrun

/-- An emitter that runs another one on the same code, and leaves the code of that one. -/
theorem Carries.around {x y : Emit α} {Q : α → Prop}
    (h : ∀ setting s t a, y.run setting s = .ok a t → ∃ u v, x.run setting u = .ok a v ∧
      u.builder = s.builder ∧ t.builder = v.builder ∧ ∀ known, s.Watched W known → u.Watched W known)
    (hx : Carries W st x st' Q) : Carries W st y st' Q := by
  intro setting s t a known hrun hfits hs hst
  obtain ⟨u, v, hxv, hu, hv, hwatched⟩ := h setting s t a hrun
  have hposition : u.position = s.position := congrArg Builder.position hu
  have hgrows := y.grows hrun
  obtain ⟨⟨known', hbefore, hw, hst'⟩, ha⟩ :=
    hx setting u v a known hxv (hv ▸ hfits) (hwatched known hs) (hposition ▸ hst)
  refine ⟨⟨known', hposition ▸ hbefore, ⟨hv ▸ hw.builder, ?_, ?_, hgrows.linked hs.linked⟩, ?_⟩, ha⟩
  · rw [hgrows.hidden]
    exact hs.hidden
  · rw [hgrows.scope]
    exact hs.scope
  · rw [← hst', Emission.position, hv, ← Emission.position]

/-! ## Steps -/

/-- What is known up to a position, and behind it. -/
def extended (known : Nat → List Item) (n : Nat) (st : List Item) (pc : Nat) : List Item :=
  if pc ≤ n then known pc else st

theorem extended_of_le {known : Nat → List Item} {n pc : Nat} (h : pc ≤ n) :
    extended known n st pc = known pc := if_pos h

theorem extended_succ {known : Nat → List Item} {n : Nat} : extended known n st (n + 1) = st :=
  if_neg (Nat.not_succ_le_self n)

/-- An instruction. -/
theorem Carries.instr {i : Instr} (hi : i.Shifts W.hidden W.Role st st') :
    Carries W st (Emit.instr i) st' fun _ => True := by
  intro setting s t a known hrun _ hs hst
  cases hrun
  have hsize : s.position = s.builder.code.size := rfl
  refine ⟨⟨extended known s.position st', fun pc hpc => extended_of_le hpc,
    ⟨⟨?_, fun pc j hj => ?_, fun l pc hl => ?_⟩, hs.hidden, hs.scope,
      (Emission.Grows.emit s i).linked hs.linked⟩, ?_⟩, trivial⟩
  · rw [extended_of_le (Nat.zero_le _)]
    exact hs.builder.start
  · rw [Builder.emit, Array.getElem?_push] at hj
    split at hj
    · next heq =>
        cases hj
        rw [← hsize] at heq
        rw [heq, extended_of_le (Nat.le_refl _), extended_succ, hst]
        exact hi
    · have hlt : pc < s.position := (Array.getElem?_eq_some_iff.mp hj).1
      rw [extended_of_le (Nat.le_of_lt hlt), extended_of_le (Nat.succ_le_of_lt hlt)]
      exact hs.builder.shifts pc j hj
  · obtain ⟨hle, hnone⟩ := hs.builder.marks l pc hl
    rw [extended_of_le (hsize ▸ hle)]
    exact ⟨Nat.le_trans hle (by simp [Builder.emit]), hnone⟩
  · have hposition : Emission.position { s with builder := s.builder.emit i } = s.position + 1 := by
      simp [Emission.position, Builder.emit]
    rw [hposition, extended_succ]

/-- A mark, where nothing is known. -/
theorem Carries.mark {l : Label} : Carries W [] (Emit.mark l) [] fun _ => True := by
  intro setting s t a known hrun _ hs hst
  have hgrows := (Emit.mark l).grows hrun
  simp only [Emit.mark] at hrun
  split at hrun
  · next b hmark =>
      cases hrun
      unfold Builder.markLabel at hmark
      split at hmark
      · cases hmark
        refine ⟨⟨known, fun _ _ => rfl, ⟨⟨hs.builder.start, hs.builder.shifts, fun i pc hi => ?_⟩,
          hs.hidden, hs.scope, hgrows.linked hs.linked⟩, hst⟩, trivial⟩
        rw [Array.getElem?_setIfInBounds] at hi
        split at hi
        · split at hi
          · cases hi
            exact ⟨Nat.le_refl _, hst⟩
          · cases hi
        · exact hs.builder.marks i pc hi
      · cases hmark
      · cases hmark
  · cases hrun

/-- A placeholder, and what may become of it. -/
theorem Carries.reserved {x : Emit α} {fill : α → Option Instr} {Q : α → Prop}
    (hfill : ∀ a i, fill a = some i → i.Shifts W.hidden W.Role [] [])
    (hx : Carries W [] x st' Q) : Carries W [] (Emit.reserved x fill) st' Q := by
  intro setting s t a known hrun hfits hs hst
  have hgrows := (Emit.reserved x fill).grows hrun
  have hnop : Carries W [] (Emit.instr .nop) [] fun _ => True :=
    .instr (.other rfl (fun _ hn => absurd hn List.not_mem_nil) fun _ hn => absurd hn List.not_mem_nil)
  simp only [Emit.reserved] at hrun
  split at hrun
  · next b u hxu =>
      -- The emitter runs behind the placeholder, whatever becomes of it.
      have hplaced : u.builder.children.toList <+: W.children →
          (∃ known', (∀ pc ≤ s.position, known' pc = known pc) ∧ u.Watched W known' ∧
            known' (s.position + 1) = [] ∧ known' u.position = st') ∧ Q b := by
        intro hfits
        obtain ⟨⟨known₁, hbefore₁, hs₁, hst₁⟩, -⟩ := hnop setting s _ () known rfl
          ((x.grows hxu).children.trans hfits) hs hst
        obtain ⟨⟨known₂, hbefore₂, hu, hst₂⟩, hb⟩ := hx setting _ u b known₁ hxu hfits hs₁ hst₁
        have hposition : Emission.position { s with builder := s.builder.emit .nop } = s.position + 1 := by
          simp [Emission.position, Builder.emit]
        rw [hposition] at hbefore₂ hst₁
        exact ⟨⟨known₂, fun pc hpc => (hbefore₂ pc (Nat.le_succ_of_le hpc)).trans (hbefore₁ pc hpc), hu,
          (hbefore₂ _ (Nat.le_refl _)).trans hst₁, hst₂⟩, hb⟩
      split at hrun
      · next i hi =>
          cases hrun
          obtain ⟨⟨known', hbefore, hu, hnext, hst'⟩, hb⟩ := hplaced hfits
          have hshifts : i.Shifts W.hidden W.Role (known' s.position) (known' (s.position + 1)) := by
            rw [hbefore _ (Nat.le_refl _), hst, hnext]
            exact hfill _ i hi
          refine ⟨⟨known', hbefore, ⟨hu.builder.patch hshifts, hu.hidden, hu.scope,
            hgrows.linked hs.linked⟩, ?_⟩, hb⟩
          rw [← hst']
          simp [Emission.position, Builder.patch]
      · cases hrun
        obtain ⟨⟨known', hbefore, hu, -, hst'⟩, hb⟩ := hplaced hfits
        exact ⟨⟨known', hbefore, hu, hst'⟩, hb⟩
  · cases hrun

/-- A helper is a child without hidden parameters. -/
theorem Carries.helper {kind : HelperKind} {elem : Ty} :
    Carries W st (Emit.helper kind elem) st (W.Role · .none) := by
  refine .of_code fun setting s t n known hrun hfits hs => ?_
  simp only [Emit.helper] at hrun
  cases hrun
  obtain ⟨hroutine, -⟩ := HelperCache.Sound.get hs.linked.helpers kind elem
  refine ⟨s.builder.addChild_code _, fun i pc hi => (s.builder.addChild_labels _).symm ▸ hi, ?_⟩
  obtain ⟨d, hd, hsame⟩ := s.builder.getElem?_addChild (s.session.helpers.get kind elem).1
  have hfound : d = kind.routine elem := by
    rcases hsame with rfl | ⟨hmem, hkey⟩
    · exact hroutine
    · -- An earlier child with the key of the helper is the helper.
      have hknown := hs.linked.children d hmem
      rw [hroutine] at hkey
      have hkind : d.key = .helper kind elem := hkey.trans (by cases kind <;> rfl)
      simpa only [Emission.Known, hkind] using hknown
  refine ⟨d, ?_, hfound ▸ W.helpers kind elem⟩
  exact getElem?_of_prefix hfits (by rwa [Array.getElem?_toList])

/-! ## Nested functions -/

/-- Every run of the emitter ends with a routine of a number that has not been given before, which has
the children of its builder. -/
def EndsUnit (x : Emit Routine) : Prop :=
  ∀ setting s t R, x.run setting s = .ok R t →
    (∃ k, R.key = .unit k ∧ s.session.finished.size ≤ k) ∧ R.children = t.builder.children.toList

theorem EndsUnit.seq {x : Emit α} {f : α → Emit Routine} (hf : ∀ a, EndsUnit (f a)) :
    EndsUnit (x >>= f) := by
  intro setting s t R hrun
  obtain ⟨a, u, hxu, hfu⟩ := run_bind hrun
  obtain ⟨⟨k, hkey, hk⟩, hchildren⟩ := hf a setting u t R hfu
  refine ⟨⟨k, hkey, Nat.le_trans ?_ hk⟩, hchildren⟩
  simpa using (x.grows hxu).finished.length_le

theorem endsUnit_finishUnit : EndsUnit finishUnit := by
  intro setting s t R hrun
  simp only [finishUnit] at hrun
  split at hrun
  · next hfinish =>
      cases hrun
      exact ⟨⟨_, Builder.key_of_finish hfinish, Nat.le_refl _⟩, Builder.children_of_finish hfinish⟩
  · cases hrun

/-- The emission of a function ends with its routine. -/
theorem endsUnit_unitBody {l : Lambda Node} : EndsUnit (unitBody l) := by
  have hbody : EndsUnit (functionBody l) := by
    refine .seq fun _ => ?_
    split
    · exact .seq fun _ => .seq fun _ => endsUnit_finishUnit
    · exact .seq fun _ => .seq fun _ => .seq fun _ => .seq fun _ => endsUnit_finishUnit
  intro setting s t R hrun
  simp only [unitBody, withParams] at hrun
  split at hrun
  · simp only [inScope] at hrun
    split at hrun
    · next hact =>
        cases hrun
        obtain ⟨hkey, hchildren⟩ := hbody _ _ _ _ hact
        exact ⟨hkey, hchildren⟩
    · cases hrun
  · cases hrun

/-- A nested function is a child with its hidden parameters. -/
theorem Carries.nestedUnit {l : Lambda Expr}
    (hfamily : ∀ R, l.Becomes R → W.family (l.hidden.seen W.own) R) :
    Carries W st (Emit.nestedUnit (l.map Expr.toNode)) st (W.Role · (l.hidden.seen W.own)) := by
  refine .of_code fun setting s t n known hrun hfits hs => ?_
  simp only [Emit.nestedUnit] at hrun
  split at hrun
  · next R inner hunit =>
      cases hrun
      refine ⟨s.builder.addChild_code R, fun i pc hi => (s.builder.addChild_labels R).symm ▸ hi, ?_⟩
      obtain ⟨d, hd, hsame⟩ := s.builder.getElem?_addChild R
      have hfound : d = R := by
        rcases hsame with rfl | ⟨hmem, hkey⟩
        · rfl
        · -- The number of the routine is new, so no earlier child has it.
          obtain ⟨⟨k, hnumber, hk⟩, -⟩ := endsUnit_unitBody setting _ _ _ hunit
          have hknown := hs.linked.children d hmem
          simp only [Emission.Known, hkey.trans hnumber] at hknown
          exact absurd hknown (Nat.not_lt.mpr hk)
      refine ⟨d, getElem?_of_prefix hfits (by rwa [Array.getElem?_toList]), hfound ▸ hfamily R ?_⟩
      exact ⟨setting, s.session, inner, hs.linked.helpers, hunit⟩
  · cases hrun

/-! ## The policy -/

theorem Carries.other {i : Instr} (hplain : i.isDelicate = false)
    (hi : i.Names (fun _ => True) (fun _ => True) (W.hidden.count ≤ ·) (W.Role · .none)) :
    Carries W [] (Emit.instr i) [] fun _ => True :=
  .instr (.other hplain hi.args hi.children)

theorem Carries.bare {i : Instr} (hi : i.isSimple = true) :
    Carries W [] (Emit.instr i) [] fun _ => True := by
  simp only [Instr.isSimple, Bool.and_eq_true, Bool.not_eq_true'] at hi
  exact .other (Instr.isDelicate_of_isSpecial hi.2) (.of_isBare hi.1)

theorem Carries.hiddenParams : Carries W st Emit.hiddenParams st (·.seen W.own = W.hidden) :=
  .read fun _ _ _ _ h hs => by
    cases h
    exact hs.hidden

/-- The rules of emitters that begin and end where nothing is known of the stack. -/
def shelteringRules (W : Watch) : Rules where
  Holds _ _ x _ Q := Carries W [] x [] Q
  Slot _ := True
  Arg := (W.hidden.count ≤ ·)
  Child := (W.Role · .none)
  pure hQ _ := .pure hQ
  bind := Carries.bind
  weaken hx _ _ hQ := hx.imp hQ
  fail _ := .fail
  read _ := .read fun _ _ _ _ _ _ => trivial
  instr hplain hi := .other (Instr.isDelicate_of_isSpecial hplain)
    ⟨fun _ _ => trivial, fun _ _ => trivial, hi.args, hi.children⟩
  newLabel := .of_code fun setting s t l known hrun _ hs => by
    cases hrun
    refine ⟨rfl, fun i pc hi => ?_, trivial⟩
    rw [Builder.defineLabel, Array.getElem?_push] at hi
    split at hi
    · cases hi
    · exact hi
  mark _ := .mark
  temp := .of_code fun setting s t slot known hrun _ hs => by
    simp only [Emit.temp] at hrun
    cases hrun
    rcases SlotPool.acquire_builder s.pool s.builder _ with hb | hb
    · rw [hb]
      exact ⟨rfl, fun _ _ hi => hi, trivial⟩
    · rw [hb]
      exact ⟨rfl, fun _ _ hi => hi, trivial⟩
  withTemps hx := hx.around fun setting s t a hrun => by
    simp only [Emit.withTemps] at hrun
    split at hrun
    · next hxu =>
        cases hrun
        exact ⟨s, _, hxu, rfl, rfl, fun _ hs => hs⟩
    · cases hrun
  varSlot := .read fun setting s v known hv hs => by
    split at hv
    · next hlookup =>
        cases hv
        obtain ⟨before, after, hsplit, -⟩ := List.lookup_eq_some_iff.mp hlookup
        exact hs.scope (_, v) (by
          rw [hsplit]
          exact List.mem_append_right _ List.mem_cons_self)
    · cases hv
  helper := .helper

/-- An element of a table is read. -/
theorem Carries.loadTableElement {t : HiddenTable} {table : Nat} (index : Nat) (ty : Ty)
    (htable : W.Table t table) :
    Carries W [] (Emit.loadTableElement table index ty) [] fun _ => True := by
  have hlast : Carries W [] (if ty = .object then Pure.pure () else Emit.instr (.unbox ty)) []
      fun _ => True := .ite .done (.bare rfl)
  rcases htable with htable | hnone
  · exact .seq (.instr (.table htable)) fun _ => .seq (.instr .index) fun _ =>
      .seq (.instr .fetch) fun _ => hlast
  · -- The argument is one like others.
    have harg : Carries W [] (Emit.instr (.loadArg table)) [] fun _ => True :=
      .instr (.other rfl (fun _ _ => by rw [hnone]; exact Nat.zero_le _) fun _ hn => nomatch hn)
    exact .seq harg fun _ => .seq (.bare rfl) fun _ => .seq (.bare rfl) fun _ => hlast

theorem Carries.loadVarAddr {slot : VarSlot} (h : slot.Among (fun _ => True) (W.hidden.count ≤ ·)) :
    Carries W [] (Emit.loadVarAddr slot) [.place] fun _ => True := by
  cases slot with
  | arg n => exact .instr (.argPlace h)
  | «local» n => exact .instr .localPlace

/-- A variable, brought into a shape. -/
theorem Carries.shapedVariable (id : VarId) (ty : Ty) (shape : Shape) :
    Carries W [] (Emit.shapedVariable id ty shape) [] fun _ => True := by
  have hplain : ∀ {β : Type} {i : Instr} {e : β}, i.isDelicate = false →
      i.Names (fun _ => True) (fun _ => True) (W.hidden.count ≤ ·) (W.Role · .none) →
      Carries W [] (do
        Emit.instr i
        Pure.pure e) [] fun _ => True := fun hdelicate hi => .seq (.other hdelicate hi) fun _ => .done
  have hpop : ∀ {e : Emitted}, Carries W [] (do
      Emit.instr .pop
      Pure.pure e) [] fun _ => True := hplain rfl (.of_isBare rfl)
  have hslot : Carries W [] (varSlot id) [] fun v =>
      v.1.Among (fun _ => True) (W.hidden.count ≤ ·) :=
    @(shelteringRules W).varSlot [] none id
  unfold Emit.shapedVariable parameter
  rw [bind_assoc_emit]
  refine .bind hslot fun v hv => ?_
  obtain ⟨slot, found⟩ := v
  dsimp only at hv ⊢
  split
  · -- An address that is not wanted is read from at once.
    rw [bind_assoc_emit]
    change Carries W [] (Emit.loadVarAddr slot >>= fun _ => Emit.adapt ty (.address false) shape) [] _
    have haddr : Carries W [] (Emit.loadVarAddr slot) [] fun _ => True := by
      cases slot with
      | arg n => exact .other rfl ⟨nofun, nofun, List.forall_mem_singleton.mpr hv, nofun⟩
      | «local» n => exact .other rfl ⟨nofun, fun _ _ => trivial, nofun, nofun⟩
    simp only [Emit.adapt, Emitted.address]
    split
    · exact .seq haddr fun _ => hpop
    split
    · exact .seq haddr fun _ => .done
    · exact .seq (.loadVarAddr hv) fun _ => .seq (.instr .indirect) fun _ => .done
  · rw [bind_assoc_emit]
    change Carries W [] (Emit.loadVar slot >>= fun _ => Emit.adapt ty (.ofTy found false) shape) [] _
    have hload : Carries W [] (Emit.loadVar slot) [] fun _ => True := by
      cases slot with
      | arg n => exact .other rfl ⟨nofun, nofun, List.forall_mem_singleton.mpr hv, nofun⟩
      | «local» n => exact .other rfl ⟨nofun, fun _ _ => trivial, nofun, nofun⟩
    refine .seq hload fun _ => ?_
    have hspill : Carries W [] (Emit.spill ty) [] fun _ => True :=
      .seq ((@(shelteringRules W).temp [] none ty).imp fun _ _ => trivial) fun slot =>
        hplain rfl ⟨nofun, fun _ _ => trivial, nofun, nofun⟩
    unfold Emit.adapt
    split
    · exact .done
    · refine .ite hpop (.ite (.seq hspill fun _ => ?_) .done)
      exact hplain rfl ⟨nofun, fun _ _ => trivial, nofun, nofun⟩
    · next haddress =>
        unfold Emitted.ofTy at haddress
        split at haddress <;> cases haddress

theorem InvokerShape.captured_of_ok {captured : Nat} {params : List Ty} {ret : Ty} {p : InvokerShape}
    (h : InvokerShape.of captured params ret = .ok p) : p.captured = captured := by
  unfold InvokerShape.of at h
  split at h
  · cases h
  · split at h <;> cases h
    rfl

/-- A table for a nested function. -/
theorem Carries.tableFor {own : HiddenParams} (hown : own.seen W.own = W.hidden) {t : HiddenTable}
    {n : Nat} (hn : own.tableArg? t = some n) (hst : W.own = false → st = []) :
    Carries W st (Emit.instrs [.loadArg n]) (if W.own then .table t :: st else []) fun _ => True := by
  refine .seq (.instr ?_) fun _ => .done
  unfold HiddenParams.seen at hown
  split at hown
  · next hregarded =>
      rw [if_pos hregarded]
      exact .table (hown ▸ own.tables_of_tableArg? hn)
  · next hregarded =>
      rw [if_neg hregarded, hst (Bool.not_eq_true _ ▸ hregarded)]
      exact .other rfl (fun _ _ => hown ▸ Nat.zero_le _) nofun

/-- A nested function as a value. -/
theorem Carries.function {l : Lambda Expr}
    (hfamily : ∀ R, l.Becomes R → W.family (l.hidden.seen W.own) R) :
    Carries W [] (Emit.function (l.map Expr.toNode)) [] fun _ => True := by
  unfold Emit.function
  refine .bind .hiddenParams fun own hown => ?_
  split
  · exact .fail
  next hhas =>
  split
  · exact .fail
  next package hpackage =>
  refine .bind (.nestedUnit hfamily) fun child hchild => ?_
  have hend : Carries W (l.hidden.seen W.own).items (do
      Emit.instrs [.loadFunction child, .newInvoker package.captured]
      Pure.pure (Emitted.ofTy package.ty false)) [] fun _ => True := by
    refine .seq (.seq (.instr (.function hchild)) fun _ => .seq (.instr (.invoker ?_)) fun _ => .done)
      fun _ => .done
    rw [InvokerShape.captured_of_ok hpackage]
    unfold HiddenParams.seen
    split
    · exact .inl rfl
    · exact .inr rfl
  have hload : ∀ {st : List Item} {t : HiddenTable}, (∃ n, own.tableArg? t = some n) →
      (W.own = false → st = []) →
      Carries W st (Emit.instrs ((own.tableArg? t).toList.map Instr.loadArg))
        (if W.own then .table t :: st else []) fun _ => True := by
    rintro st t ⟨n, hn⟩ hst
    rw [hn]
    exact .tableFor hown hn hst
  have hmissing : (l.hidden.constants = true → own.constants = true) ∧
      (l.hidden.closure = true → own.closure = true) := by
    simpa [Lambda.map] using hhas
  have hconstants : l.hidden.constants = true → ∃ n, own.tableArg? .constants = some n :=
    fun h => ⟨0, if_pos (hmissing.1 h)⟩
  have hclosure : l.hidden.closure = true → ∃ n, own.tableArg? .closure = some n :=
    fun h => ⟨_, if_pos (hmissing.2 h)⟩
  -- The tables that are on the stack behind the loads.
  have hitems : (l.hidden.seen W.own).items =
      if W.own then (if l.hidden.closure then [.table .closure] else []) ++
        if l.hidden.constants then [.table .constants] else [] else [] := by
    unfold HiddenParams.seen HiddenParams.items HiddenParams.tables
    split
    · cases l.hidden.constants <;> cases l.hidden.closure <;> rfl
    · rfl
  rw [hitems] at hend
  have hlast : ∀ {st : List Item}, (W.own = false → st = []) → l.hidden.closure = true →
      Carries W st (Emit.instrs (own.closureArg?.toList.map Instr.loadArg))
        (if W.own then .table .closure :: st else []) fun _ => True :=
    fun hst h => @hload _ .closure (hclosure h) hst
  have hfirst : l.hidden.constants = true →
      Carries W [] (Emit.instrs (own.constantsArg?.toList.map Instr.loadArg))
        (if W.own then [.table .constants] else []) fun _ => True :=
    fun h => @hload _ .constants (hconstants h) fun _ => rfl
  have hnone : W.own = false → (if W.own then [Item.table .constants] else []) = [] :=
    fun h => if_neg (by simp [h])
  change Carries W [] (if l.hidden.constants then _ else _) [] _
  cases hcase : l.hidden.constants with
  | true =>
    refine .seq (hfirst hcase) fun _ => ?_
    change Carries W _ (if l.hidden.closure then _ else _) [] _
    cases hcase' : l.hidden.closure with
    | true =>
      refine .seq (hlast hnone hcase') fun _ => ?_
      cases hregarded : W.own <;> simpa [hcase, hcase', hregarded] using hend
    | false => simpa [hcase, hcase'] using hend
  | false =>
    change Carries W _ (if l.hidden.closure then _ else _) [] _
    cases hcase' : l.hidden.closure with
    | true =>
      refine .seq (hlast (fun _ => rfl) hcase') fun _ => ?_
      simpa [hcase, hcase'] using hend
    | false => simpa [hcase, hcase'] using hend
/-! ## Trees -/

/-- The routine of a unit follows what was known during its emission. -/
theorem Carries.finishUnit :
    Carries W [] Emit.finishUnit [] fun R => R.children = W.children →
      ∃ known, R.Follows W.family W.hidden known := by
  refine .of_code fun setting s t R known hrun _ hs => ?_
  simp only [Emit.finishUnit] at hrun
  split at hrun
  · next hfinish =>
      cases hrun
      refine ⟨rfl, fun _ _ hi => hi, fun hchildren => ⟨known, fun pc hpc => ?_, fun pc i hi => ?_⟩⟩
      · cases hpc with
        | start => exact hs.builder.start
        | label hl => exact (hs.builder.marks _ _ (Builder.marked_of_finish hfinish hl)).2
        | handler hg =>
            obtain ⟨g₀, -, hresolves⟩ :=
              Builder.exists_of_mem_forall₂ (Builder.resolves_of_finish hfinish) hg
            exact (hs.builder.marks _ _ hresolves.handlerStart).2
        | filter hg hkind =>
            obtain ⟨g₀, -, hresolves⟩ :=
              Builder.exists_of_mem_forall₂ (Builder.resolves_of_finish hfinish) hg
            have hfilter := hresolves.kind
            rw [hkind] at hfilter
            generalize g₀.kind = kind at hfilter
            cases hfilter with
            | filter hl => exact (hs.builder.marks _ _ hl).2
      · rw [(Builder.finish_eq hfinish).1] at hi
        refine (hs.builder.shifts pc i hi).mono fun n g hn => ?_
        obtain ⟨c, hc, hg⟩ := hn
        exact ⟨c, hchildren ▸ hc, hg⟩
  · cases hrun

end Emit

end Arbor
