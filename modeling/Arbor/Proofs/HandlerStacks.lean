/-
  Handlers start from the stack of their block.

  Before a handler is entered, filters are consulted and the blocks on the way out
  are run, each from the stack depth that its own region has recorded.  As long as
  none of them starts below the depth of the handler's region and they leave alone
  what lies below them, the handler finds what was on the stack when its block was
  entered, whatever exceptions were replaced on the way.
-/
import Arbor.Compile.Basic
import Arbor.Proofs.Emission.Regions
import Arbor.Proofs.Machine.Record

set_option autoImplicit false

namespace Arbor

/-- Whether the handler has a filter block. -/
def Region.isFilter {α : Type} (g : Region α) : Bool :=
  match g.kind with
  | .filter _ => true
  | _ => false

namespace Routine

/-- The regions with their numbers. -/
def numbered (R : Routine) : List (Nat × Region Nat) := R.regions.mapIdx fun i g => (i, g)

/-- A region around the start of a block that runs on the way out comes later than that of the block,
and is around its body as well. -/
def Laminar (R : Routine) : Prop :=
  ∀ x ∈ R.numbered, ∀ y ∈ R.numbered, x.2.isUnwinding = true →
    y.2.tryContains x.2.handlerStart = true →
    x.1 < y.1 ∧ y.2.tryStart ≤ x.2.tryStart ∧ x.2.tryEnd ≤ y.2.tryEnd

instance (R : Routine) : Decidable R.Laminar :=
  inferInstanceAs (Decidable (∀ x ∈ R.numbered, ∀ y ∈ R.numbered, _ → _ → _))

/-- The regions around a throw point that have a filter block, and those before the region numbered
`i` that have a block that runs on the way out. -/
def consulted (R : Routine) (i pc : Nat) (span : Span) : List (Region Nat) :=
  ((Run.candidates R pc span).filter fun x =>
    x.2.isFilter || (x.2.isUnwinding && decide (x.1 < i))).map (·.2)

theorem mem_numbered {R : Routine} {i : Nat} {g : Region Nat} :
    (i, g) ∈ R.numbered ↔ R.regions[i]? = some g := by
  simp [numbered, List.mem_mapIdx, List.getElem?_eq_some_iff]

end Routine

namespace Run

theorem mem_candidates {R : Routine} {pc : Nat} {span : Span} {x : Nat × Region Nat} :
    x ∈ candidates R pc span ↔
      x ∈ R.numbered ∧ x.2.tryContains pc = true ∧ span.covers x.2 = true := by
  simp [candidates, Routine.numbered]

theorem candidates_sorted (R : Routine) (pc : Nat) (span : Span) :
    (candidates R pc span).Pairwise fun x y => x.1 < y.1 := by
  refine List.Pairwise.sublist List.filter_sublist (List.pairwise_iff_getElem.mpr ?_)
  intro i j hi hj hij
  simpa using hij

/-! ## Selection and unwinding -/

/-- What is selected is one of the regions. -/
theorem mem_of_select {r : Registry} {run : Executor} {R : Routine} {e : Ref}
    {regions : List (Nat × Region Nat)} {s t : State} {x : Nat × Region Nat}
    (h : select r run R e regions s = .ok (some x) t) : x ∈ regions := by
  induction regions generalizing s with
  | nil => cases h
  | cons y regions ih =>
      obtain ⟨selected, u, -, h⟩ := ok_of_bind h
      cases selected with
      | true =>
          cases h
          exact List.mem_cons_self
      | false => exact List.mem_cons_of_mem _ (ih h)

/-- How the blocks on the way out are run: the selected region ends it, the block of another region is
run from its own stack depth, and an exception that escapes it ends it as well. -/
theorem unwind_cons {run : Executor} {R : Routine} {chosen : Option Nat} {k : Nat} {h : Region Nat}
    {regions : List (Nat × Region Nat)} {s t : State} {out : Option (Nat × Ref)}
    (hrun : unwind run R chosen ((k, h) :: regions) s = .ok out t) :
    (chosen = some k ∧ out = none ∧ t = s) ∨
    (chosen ≠ some k ∧ h.isUnwinding = true ∧
      ∃ u v escaped, resetToMark h.stackMark s = .ok ⟨⟩ u ∧ runUnwinding run R h u = .ok escaped v ∧
        ((∃ e, out = some (h.handlerStart, e) ∧ t = v) ∨
          unwind run R chosen regions v = .ok out t)) ∨
    (chosen ≠ some k ∧ h.isUnwinding = false ∧ unwind run R chosen regions s = .ok out t) := by
  rw [unwind] at hrun
  split at hrun
  · next hchosen =>
      cases hrun
      exact .inl ⟨hchosen, rfl, rfl⟩
  · next hchosen =>
      split at hrun
      · next hunwinding =>
          obtain ⟨_, u, hreset, hrun⟩ := ok_of_bind hrun
          obtain ⟨escaped, v, hblock, hrun⟩ := ok_of_bind hrun
          refine .inr (.inl ⟨hchosen, hunwinding, u, v, escaped, hreset, hblock, ?_⟩)
          cases escaped with
          | some e =>
              cases hrun
              exact .inl ⟨e, rfl, rfl⟩
          | none => exact .inr hrun
      · next hunwinding =>
          exact .inr (.inr ⟨hchosen, Bool.eq_false_iff.mpr hunwinding, hrun⟩)

/-! ## Stacks that stay below -/

/-- The stack ends with `base`, whose depth the region has recorded, and the other regions have
recorded no smaller ones. -/
structure Resting (base : List Value) (g : Region Nat) (others : List (Region Nat)) (f : Frame) :
    Prop where
  stack : base <:+ f.stack
  depth : markedDepth f g.stackMark = base.length
  others : ∀ h ∈ others, base.length ≤ markedDepth f h.stackMark

/-- The stack of the current call ends with `base`. -/
def Rests (base : List Value) (g : Region Nat) (others : List (Region Nat)) (s : State) : Prop :=
  ∃ frame rest, s.frames = frame :: rest ∧ Resting base g others frame

/-- What is observed of a run leaves the state of the run. -/
theorem observe_endsIn {α : Type} {r : Registry} {P : State → Prop} {x : Run α} {s : State}
    (h : EndsIn P (x s)) : P (Machine.observe r x s).2 := by
  unfold Machine.observe
  revert h
  cases x s with
  | ok a t => exact id
  | error e t => exact id

/-- Whatever its outcome, the action keeps the property. -/
def Preserves {α : Type} (P : State → Prop) (x : Run α) : Prop := ∀ s, P s → EndsIn P (x s)

/-- The block that runs on the way out, or the filter block, keeps the property. -/
structure BlockKeeps (r : Registry) (R : Routine) (P : State → Prop) (h : Region Nat) : Prop where
  unwinding : h.isUnwinding = true → ∀ fuel,
    Preserves P (exec r fuel R h.handlerStart ⟨h.handlerStart, h.handlerEnd⟩)
  filter : ∀ start, h.kind = .filter start → ∀ fuel,
    Preserves P (exec r fuel R start ⟨start, h.handlerStart⟩)

theorem suffix_cut {base stack : List Value} {depth : Nat} (h : base <:+ stack)
    (hdepth : base.length ≤ depth) : base <:+ cut depth stack := by
  rw [List.suffix_iff_eq_drop.mp h, cut]
  exact List.drop_suffix_drop_left _ (by omega)

theorem cut_eq {base stack : List Value} (h : base <:+ stack) : cut base.length stack = base :=
  (List.suffix_iff_eq_drop.mp h).symm

namespace Preserves

variable {α β : Type} {P : State → Prop}

theorem of_ok {x : Run α} (h : Preserves P x) {s t : State} {a : α} (hs : P s)
    (hrun : x s = .ok a t) : P t := by
  have := h s hs
  rwa [hrun] at this

theorem pure (a : α) : Preserves P (pure a : Run α) := fun _ h => h

/-- One action after the other. -/
theorem bind {x : Run α} {f : α → Run β} (hx : Preserves P x) (hf : ∀ a, Preserves P (f a)) :
    Preserves P (x >>= f) := by
  intro s hs
  have hfirst := hx s hs
  change EndsIn P (EStateM.bind x f s)
  unfold EStateM.bind
  cases hrun : x s with
  | ok a t =>
      rw [hrun] at hfirst
      exact hf a t hfirst
  | error e t =>
      rw [hrun] at hfirst
      exact hfirst

/-- A filter, whose block is entered with a cut stack and the exception on it. -/
theorem runFilter {r : Registry} {R : Routine} {h : Region Nat} {start : Nat} {fuel : Nat} {e : Ref}
    (hreset : Preserves P (resetToMark h.stackMark)) (hpush : Preserves P (push (.object e)))
    (hblock : Preserves P (exec r fuel R start ⟨start, h.handlerStart⟩)) :
    Preserves P (runFilter (exec r fuel) R h start e) := by
  refine .bind hreset fun _ => .bind hpush fun _ => .bind ?_ fun _ => .bind hreset fun _ => .pure _
  intro s hs
  have hblock := hblock s hs
  dsimp only
  revert hblock
  cases exec r fuel R start ⟨start, h.handlerStart⟩ s with
  | ok exit t => cases exit <;> exact id
  | error e t => cases e <;> exact id

end Preserves

section

variable {base : List Value} {g : Region Nat} {others : List (Region Nat)}

/-- A change of the frame. -/
theorem preserves_modifyFrame {f : Frame → Frame}
    (hf : ∀ frame, Resting base g others frame → Resting base g others (f frame)) :
    Preserves (Rests base g others) (modifyFrame f) := by
  rintro s ⟨frame, rest, hs, hframe⟩
  simp only [modifyFrame, hs]
  exact ⟨_, _, rfl, hf frame hframe⟩

theorem preserves_resetToMark {h : Region Nat} (hh : h ∈ others) :
    Preserves (Rests base g others) (resetToMark h.stackMark) :=
  preserves_modifyFrame fun _ hframe =>
    ⟨suffix_cut hframe.stack (hframe.others h hh), hframe.depth, hframe.others⟩

theorem preserves_push (v : Value) : Preserves (Rests base g others) (push v) :=
  preserves_modifyFrame fun _ hframe =>
    ⟨hframe.stack.trans (List.suffix_cons _ _), hframe.depth, hframe.others⟩

/-- A catch type is compared with the type of an exception. -/
theorem preserves_catches {P : State → Prop} (r : Registry) (ty : Ty) (e : Ref) :
    Preserves P (catches r ty e) := by
  cases ty with
  | classTy id =>
      refine .bind (fun _ hs => hs) fun s => ?_
      split
      · exact .pure _
      · exact .pure false
  | object => exact .pure true
  | _ => exact .pure false

/-! ## Blocks and filters -/

variable {r : Registry} {R : Routine}
  (hblocks : ∀ h ∈ others, BlockKeeps r R (Rests base g others) h)

include hblocks

/-- A block that runs on the way out. -/
theorem preserves_runUnwinding {h : Region Nat} (hh : h ∈ others) (hunwinding : h.isUnwinding = true)
    (fuel : Nat) : Preserves (Rests base g others) (runUnwinding (exec r fuel) R h) := by
  intro s hs
  have hblock := (hblocks h hh).unwinding hunwinding fuel s hs
  unfold runUnwinding
  revert hblock
  cases exec r fuel R h.handlerStart ⟨h.handlerStart, h.handlerEnd⟩ s with
  | ok exit t => cases exit <;> exact id
  | error e t => cases e <;> exact id

theorem preserves_runFilter {h : Region Nat} (hh : h ∈ others) {start : Nat}
    (hkind : h.kind = .filter start) (fuel : Nat) (e : Ref) :
    Preserves (Rests base g others) (runFilter (exec r fuel) R h start e) :=
  .runFilter (preserves_resetToMark hh) (preserves_push _) ((hblocks h hh).filter start hkind fuel)

/-- The search for a handler. -/
theorem preserves_select {regions : List (Nat × Region Nat)}
    (hregions : ∀ x ∈ regions, x.2.isFilter = true → x.2 ∈ others) (fuel : Nat) (e : Ref) :
    Preserves (Rests base g others) (select r (exec r fuel) R e regions) := by
  induction regions with
  | nil => exact .pure none
  | cons x regions ih =>
      obtain ⟨i, h⟩ := x
      obtain ⟨hfirst, hrest⟩ := List.forall_mem_cons.mp hregions
      refine .bind ?_ fun selected => ?_
      · unfold selects
        split
        · exact preserves_catches r _ e
        · next start hkind =>
            exact preserves_runFilter hblocks (hfirst (by simp [Region.isFilter, hkind])) hkind fuel e
        · exact .pure false
        · exact .pure false
      · cases selected with
        | true => exact .pure _
        | false => exact ih hrest

/-- The blocks on the way out.  Those before the region numbered `i` keep the stack, and it is kept
where one of them lets an exception escape, or the region itself was selected. -/
theorem rests_unwind {i : Nat} {chosen : Option Nat} {fuel : Nat} {regions : List (Nat × Region Nat)}
    (hsorted : regions.Pairwise fun x y => x.1 < y.1)
    (hregions : ∀ x ∈ regions, x.2.isUnwinding = true → x.1 < i → x.2 ∈ others) {s t : State}
    {out : Option (Nat × Ref)} (hs : (∃ x ∈ regions, x.1 ≤ i) → Rests base g others s)
    (hrun : unwind (exec r fuel) R chosen regions s = .ok out t) :
    (out = none → chosen = some i → (∃ x ∈ regions, x.1 = i) → Rests base g others t) ∧
      ∀ start e, out = some (start, e) → ∃ x ∈ regions, x.2.isUnwinding = true ∧
        start = x.2.handlerStart ∧ (x.1 < i → Rests base g others t) := by
  induction regions generalizing s with
  | nil =>
      cases hrun
      exact ⟨fun _ _ ⟨x, hx, _⟩ => absurd hx List.not_mem_nil, fun _ _ h => nomatch h⟩
  | cons x regions ih =>
      obtain ⟨k, h⟩ := x
      obtain ⟨hbefore, hsorted⟩ := List.pairwise_cons.mp hsorted
      obtain ⟨hfirst, hrest⟩ := List.forall_mem_cons.mp hregions
      -- What holds of the regions behind the first one holds of all of them.
      have hlater : ∀ {u}, chosen ≠ some k →
          ((∃ x ∈ regions, x.1 ≤ i) → Rests base g others u) →
          unwind (exec r fuel) R chosen regions u = .ok out t →
          (out = none → chosen = some i → (∃ x ∈ (k, h) :: regions, x.1 = i) → Rests base g others t) ∧
            ∀ start e, out = some (start, e) → ∃ x ∈ (k, h) :: regions, x.2.isUnwinding = true ∧
              start = x.2.handlerStart ∧ (x.1 < i → Rests base g others t) := by
        intro u hchosen hu hrun
        obtain ⟨hnone, hsome⟩ := ih hsorted hrest hu hrun
        refine ⟨fun hout hi ⟨x, hx, hxi⟩ => ?_, fun start e hout => ?_⟩
        · rcases List.mem_cons.mp hx with rfl | hx
          · exact absurd (hi.trans (congrArg some hxi.symm)) hchosen
          · exact hnone hout hi ⟨x, hx, hxi⟩
        · obtain ⟨x, hx, hescape⟩ := hsome start e hout
          exact ⟨x, List.mem_cons_of_mem _ hx, hescape⟩
      rcases unwind_cons hrun with ⟨hchosen, rfl, rfl⟩ |
        ⟨hchosen, hunwinding, u, v, escaped, hreset, hblock, hout⟩ | ⟨hchosen, -, hrun⟩
      · refine ⟨fun _ hi _ => hs ⟨_, List.mem_cons_self, ?_⟩, fun _ _ h => absurd h (by simp)⟩
        exact Nat.le_of_eq (Option.some.inj (hchosen.symm.trans hi))
      · have hv : k < i → Rests base g others v := by
          intro hk
          have hh := hfirst hunwinding hk
          have hu := (preserves_resetToMark hh).of_ok (hs ⟨_, List.mem_cons_self, Nat.le_of_lt hk⟩) hreset
          exact (preserves_runUnwinding hblocks hh hunwinding fuel).of_ok hu hblock
        rcases hout with ⟨e, rfl, rfl⟩ | hrun
        · refine ⟨fun h => absurd h (by simp), fun start e' hout => ?_⟩
          cases hout
          exact ⟨_, List.mem_cons_self, hunwinding, rfl, hv⟩
        · refine hlater hchosen (fun ⟨x, hx, hxi⟩ => hv ?_) hrun
          exact Nat.lt_of_lt_of_le (hbefore x hx) hxi
      · exact hlater hchosen (fun ⟨x, hx, hxi⟩ => hs ⟨x, List.mem_cons_of_mem _ hx, hxi⟩) hrun

end

/-! ## Dispatch -/

/-- The region and the exception of the handler that was entered last. -/
def entered? (s : State) : Option (Nat × Ref) := s.frames.head?.bind (·.handling.head?)

section

variable {r : Registry} {R : Routine} {span : Span}

/-- A handler is entered with the stack cut down to the depth of its region. -/
theorem enterHandler_eq {pc i : Nat} {g : Region Nat} {e : Ref} {s t : State} {handler : Nat}
    (h : enterHandler R pc i g e s = .ok handler t) :
    ∃ frame rest frame', s.frames = frame :: rest ∧ t.frames = frame' :: rest ∧
      handler = g.handlerStart ∧ entered? t = some (i, e) ∧
      frame'.stack = .object e :: cut (markedDepth frame g.stackMark) frame.stack := by
  cases hframes : s.frames with
  | nil =>
      obtain ⟨_, u, hreset, -⟩ := ok_of_bind h
      simp [resetToMark, modifyFrame, hframes] at hreset
  | cons frame rest =>
      simp only [enterHandler, resetToMark, leaveHandlers, modifyFrame, hframes, bind, EStateM.bind,
        pure, EStateM.pure] at h
      cases h
      exact ⟨_, _, _, rfl, rfl, rfl, rfl, rfl⟩

/-- How an exception is dispatched: the selected handler is entered, or a block on the way out lets
another exception escape, which is dispatched from its start. -/
theorem dispatch_succ {fuel pc : Nat} {e : Ref} {s t : State} {handler : Nat}
    (h : dispatch r (fuel + 1) R pc e span s = .ok handler t) :
    ∃ chosen u out v, select r (exec r fuel) R e (candidates R pc span) s = .ok chosen u ∧
      unwind (exec r fuel) R (chosen.map (·.1)) (candidates R pc span) u = .ok out v ∧
      ((out = none ∧ ∃ x, chosen = some x ∧ enterHandler R pc x.1 x.2 e v = .ok handler t) ∨
        ∃ start e', out = some (start, e') ∧
          dispatch r fuel R start e' span v = .ok handler t) := by
  rw [dispatch] at h
  split at h
  · cases h
  · next chosen u hselect =>
      split at h
      · cases h
      · next start e' v hunwind =>
          exact ⟨chosen, u, _, v, hselect, hunwind, .inr ⟨start, e', rfl, h⟩⟩
      · next v hunwind =>
          refine ⟨chosen, u, _, v, hselect, hunwind, .inl ⟨rfl, ?_⟩⟩
          cases chosen with
          | none => cases h
          | some x => exact ⟨x, rfl, h⟩

/-- An exception that escapes on the way out escapes from one of the blocks. -/
theorem escape_of_unwind {run : Executor} {chosen : Option Nat} {regions : List (Nat × Region Nat)}
    {s t : State} {start : Nat} {e : Ref}
    (h : unwind run R chosen regions s = .ok (some (start, e)) t) :
    ∃ x ∈ regions, x.2.isUnwinding = true ∧ start = x.2.handlerStart := by
  induction regions generalizing s with
  | nil => cases h
  | cons x regions ih =>
      obtain ⟨k, g⟩ := x
      have hlater : ∀ {u}, unwind run R chosen regions u = .ok (some (start, e)) t →
          ∃ x ∈ (k, g) :: regions, x.2.isUnwinding = true ∧ start = x.2.handlerStart := by
        intro u hu
        obtain ⟨x, hx, hescape⟩ := ih hu
        exact ⟨x, List.mem_cons_of_mem _ hx, hescape⟩
      rcases unwind_cons h with ⟨-, hnone, -⟩ | ⟨-, hunwinding, u, v, escaped, -, -, hout⟩ | ⟨-, -, h⟩
      · cases hnone
      · rcases hout with ⟨e', hout, -⟩ | hrun
        · cases hout
          exact ⟨_, List.mem_cons_self, hunwinding, rfl⟩
        · exact hlater hrun
      · exact hlater h

/-- A region around the start of a block on the way out is around the throw point. -/
theorem candidates_of_escape (hlaminar : R.Laminar) {pc : Nat} {x y : Nat × Region Nat}
    (hx : x ∈ candidates R pc span) (hunwinding : x.2.isUnwinding = true)
    (hy : y ∈ candidates R x.2.handlerStart span) : x.1 < y.1 ∧ y ∈ candidates R pc span := by
  rw [mem_candidates] at hx hy
  obtain ⟨hmem, hpc, -⟩ := hx
  obtain ⟨hmem', hstart, hcovers⟩ := hy
  obtain ⟨hlt, hfirst, hlast⟩ := hlaminar x hmem y hmem' hunwinding hstart
  rw [Region.tryContains_iff] at hpc
  exact ⟨hlt, mem_candidates.mpr ⟨hmem', Region.tryContains_iff.mpr (by omega), hcovers⟩⟩

/-- The handler that is entered belongs to a region around the throw point. -/
theorem dispatch_enters (hlaminar : R.Laminar) {fuel pc : Nat} {e : Ref} {s t : State} {handler : Nat}
    (h : dispatch r fuel R pc e span s = .ok handler t) :
    ∃ x ∈ candidates R pc span, handler = x.2.handlerStart ∧ ∃ e', entered? t = some (x.1, e') := by
  induction fuel generalizing pc e s with
  | zero => cases h
  | succ fuel ih =>
      obtain ⟨chosen, u, out, v, hselect, hunwind, hout⟩ := dispatch_succ h
      rcases hout with ⟨-, x, rfl, henter⟩ | ⟨start, e', rfl, hrest⟩
      · obtain ⟨-, -, -, -, -, hhandler, hentered, -⟩ := enterHandler_eq henter
        exact ⟨x, mem_of_select hselect, hhandler, e, hentered⟩
      · obtain ⟨x, hx, hunwinding, rfl⟩ := escape_of_unwind hunwind
        obtain ⟨y, hy, hhandler, hentered⟩ := ih hrest
        exact ⟨y, (candidates_of_escape hlaminar hx hunwinding hy).2, hhandler, hentered⟩

/-- The stack on entry to a handler, given regions whose blocks keep it. -/
theorem stack_of_dispatch (hlaminar : R.Laminar) {i : Nat} {g : Region Nat}
    (hg : R.regions[i]? = some g) {base : List Value} {others : List (Region Nat)}
    (hblocks : ∀ h ∈ others, BlockKeeps r R (Rests base g others) h) {fuel pc : Nat} {e e' : Ref}
    {s t : State} {handler : Nat}
    (hothers : ∀ x ∈ candidates R pc span,
      x.2.isFilter = true ∨ (x.2.isUnwinding = true ∧ x.1 < i) → x.2 ∈ others)
    (hs : Rests base g others s) (h : dispatch r fuel R pc e span s = .ok handler t)
    (hentered : entered? t = some (i, e')) :
    handler = g.handlerStart ∧ ∃ frame rest, t.frames = frame :: rest ∧
      frame.stack = .object e' :: base := by
  induction fuel generalizing pc e s with
  | zero => cases h
  | succ fuel ih =>
      obtain ⟨chosen, u, out, v, hselect, hunwind, hout⟩ := dispatch_succ h
      have hu := (preserves_select hblocks (fun x hx hfilter => hothers x hx (.inl hfilter)) fuel
        e).of_ok hs hselect
      obtain ⟨hnone, hescape⟩ := rests_unwind hblocks (candidates_sorted R pc span)
        (fun x hx hunwinding hlt => hothers x hx (.inr ⟨hunwinding, hlt⟩)) (fun _ => hu) hunwind
      rcases hout with ⟨rfl, x, rfl, henter⟩ | ⟨start, replacement, rfl, hrest⟩
      · obtain ⟨frame, rest, frame', hv, ht, hhandler, hown, hstack⟩ := enterHandler_eq henter
        rw [hown] at hentered
        cases hentered
        have hx := mem_of_select hselect
        have hsame : x.2 = g := by
          have := Routine.mem_numbered.mp (mem_candidates.mp hx).1
          rw [hg] at this
          exact (Option.some.inj this).symm
        obtain ⟨frame₁, rest₁, hv₁, hresting⟩ := hnone rfl rfl ⟨x, hx, rfl⟩
        rw [hv] at hv₁
        cases hv₁
        rw [hsame, hresting.depth, cut_eq hresting.stack] at hstack
        exact ⟨by rw [hhandler, hsame], frame', rest, ht, hstack⟩
      · obtain ⟨x, hx, hunwinding, rfl, hv⟩ := hescape start replacement rfl
        obtain ⟨y, hy, -, _, hlast⟩ := dispatch_enters hlaminar hrest
        rw [hlast] at hentered
        cases hentered
        -- The region of the handler is around the block, so the block was run before it.
        have hlt := (candidates_of_escape hlaminar hx hunwinding hy).1
        refine ih (fun z hz hkind => ?_) (hv hlt) hrest
        exact hothers z (candidates_of_escape hlaminar hx hunwinding hz).2 hkind

/-- However an exception is dispatched, through filters, blocks on the way out and exceptions that
escape them, a handler is entered with what was on the stack when its block was entered and with the
exception.  The blocks leave alone what lies below them, and no filter that can be consulted
starts from a lower depth than the handler's region. -/
theorem dispatch_stack (hlaminar : R.Laminar) {i : Nat} {g : Region Nat}
    (hg : R.regions[i]? = some g) {base : List Value} {fuel pc : Nat} {e e' : Ref} {s t : State}
    {handler : Nat}
    (hblocks : ∀ h ∈ R.consulted i pc span, BlockKeeps r R (Rests base g (R.consulted i pc span)) h)
    (hs : Rests base g (R.consulted i pc span) s) (h : dispatch r fuel R pc e span s = .ok handler t)
    (hentered : entered? t = some (i, e')) :
    handler = g.handlerStart ∧ ∃ frame rest, t.frames = frame :: rest ∧
      frame.stack = .object e' :: base := by
  refine stack_of_dispatch hlaminar hg hblocks (fun x hx hkind => ?_) hs h hentered
  refine List.mem_map.mpr ⟨x, List.mem_filter.mpr ⟨hx, ?_⟩, rfl⟩
  rcases hkind with hfilter | ⟨hunwinding, hlt⟩
  · simp [hfilter]
  · simp [hunwinding, hlt]

end

/-- Whether the code of an empty block starts at a position. -/
def emptyAt (R : Routine) (p : Nat) : Bool :=
  match R.code[p]?, R.code[p + 1]? with
  | some .nop, some .endFinally => true
  | _, _ => false

/-- A block that runs nothing and ends keeps every property. -/
theorem preserves_empty {r : Registry} {R : Routine} {p : Nat} {span : Span} {P : State → Prop}
    (h : emptyAt R p = true) (fuel : Nat) : Preserves P (exec r fuel R p span) := by
  obtain ⟨hnop, hend⟩ : R.code[p]? = some .nop ∧ R.code[p + 1]? = some .endFinally := by
    unfold emptyAt at h
    split at h
    · exact ⟨‹_›, ‹_›⟩
    · cases h
  intro s hs
  rcases fuel with _ | _ | fuel
  · exact hs
  · rw [exec, hnop]
    exact hs
  · have hlast : exec r (fuel + 1) R (p + 1) span s = .ok .finallyDone s := by
      rw [exec, hend]
      rfl
    have hfirst : exec r (fuel + 2) R p span s = exec r (fuel + 1) R (p + 1) span s := by
      rw [exec, hnop]
      rfl
    rw [hfirst, hlast]
    exact hs

/-- A block with a handler as the right operand of a sum, around one with an empty `finally` block. -/
def pendingSum : Lambda Expr :=
  let num (n : Int) : Expr := .node (.constant (.num (.i32 n))) .int
  let nothing : Expr := .node (.block [] []) .void
  let fault : Expr := .node (.throw (some (.node (.new none []) (.classTy 1)))) .void
  let inner : Expr := .node (.tryCatch fault [] (some nothing) none) .void
  let outer : Expr :=
    .node (.tryCatch (.node (.block [] [inner, num 1]) .int) [⟨.object, none, none, num 5⟩] none none) .int
  ⟨"pendingSum", [], .int, .node (.binary .add (num 10) outer false none) .int, ⟨false, false⟩⟩

/-- The state at the throw: the left operand is on the stack, and both blocks were entered with it. -/
def pendingState : State :=
  let locals : Array Value := (Array.replicate 9 (Value.int 0)).setIfInBounds 2 (.int 1)
  { State.initial with frames := [⟨#[], locals.setIfInBounds 5 (.int 1), [.int 10], []⟩] }

/-- The region and the exception of the handler that an exception was dispatched to. -/
def landed? : EStateM.Result Trap State Nat → Option (Nat × Ref)
  | .ok _ t => entered? t
  | .error _ _ => none

set_option maxRecDepth 4000 in
/-- The handler finds the left operand under the exception. -/
theorem dispatch_pendingSum :
    ∃ c, (compile ⟨.builtin, .default⟩ pendingSum).result = .ok c ∧
      ∃ handler t frame rest,
        dispatch .builtin 6 c.routine 9 0 ⟨0, 24⟩ pendingState = .ok handler t ∧
        t.frames = frame :: rest ∧ frame.stack = [.object 0, .int 10] := by
  have hfacts : (compile ⟨.builtin, .default⟩ pendingSum).result.toOption.any (fun c =>
      decide (c.routine.Laminar ∧ c.routine.regions.map (·.stackMark) = [5, 2] ∧
        (∀ h ∈ c.routine.consulted 1 9 ⟨0, 24⟩,
          h.stackMark = 5 ∧ h.handlerStart = 11 ∧ h.isFilter = false) ∧
        emptyAt c.routine 11 = true ∧
        landed? (dispatch .builtin 6 c.routine 9 0 ⟨0, 24⟩ pendingState) = some (1, 0))) = true := by
    decide +kernel
  obtain ⟨c, hc⟩ : ∃ c, (compile ⟨.builtin, .default⟩ pendingSum).result = .ok c := by
    cases hresult : (compile ⟨.builtin, .default⟩ pendingSum).result with
    | ok c => exact ⟨c, rfl⟩
    | error e =>
        rw [hresult] at hfacts
        cases hfacts
  rw [hc] at hfacts
  obtain ⟨hlaminar, hmarks, hconsulted, hempty, hlanded⟩ := of_decide_eq_true hfacts
  obtain ⟨g, hg, hmark⟩ : ∃ g, c.routine.regions[1]? = some g ∧ g.stackMark = 2 := by
    have hsecond : (c.routine.regions.map (·.stackMark))[1]? = some 2 := by rw [hmarks]; rfl
    rw [List.getElem?_map] at hsecond
    obtain ⟨g, hg, hmark⟩ := Option.map_eq_some_iff.mp hsecond
    exact ⟨g, hg, hmark⟩
  have hrests : Rests [.int 10] g (c.routine.consulted 1 9 ⟨0, 24⟩) pendingState := by
    refine ⟨_, _, rfl, List.suffix_rfl, by rw [hmark]; rfl, fun h hh => ?_⟩
    rw [(hconsulted h hh).1]
    exact Nat.le_refl 1
  have hblocks : ∀ h ∈ c.routine.consulted 1 9 ⟨0, 24⟩, BlockKeeps .builtin c.routine
      (Rests [.int 10] g (c.routine.consulted 1 9 ⟨0, 24⟩)) h := by
    intro h hh
    obtain ⟨-, hstart, hfilter⟩ := hconsulted h hh
    refine ⟨fun _ fuel => ?_, fun start hkind => ?_⟩
    · rw [hstart]
      exact preserves_empty hempty fuel
    · simp [Region.isFilter, hkind] at hfilter
  cases hrun : dispatch .builtin 6 c.routine 9 0 ⟨0, 24⟩ pendingState with
  | error trap t =>
      rw [hrun] at hlanded
      cases hlanded
  | ok handler t =>
      rw [hrun] at hlanded
      obtain ⟨-, frame, rest, hframes, hstack⟩ :=
        dispatch_stack hlaminar hg hblocks hrests hrun hlanded
      exact ⟨c, hc, handler, t, frame, rest, hrun, hframes, hstack⟩

end Run

end Arbor
