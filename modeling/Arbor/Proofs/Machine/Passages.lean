/-
  Passages of an execution.

  A passage leads from one point of an execution to another point of the same
  execution and lists the moments between them, those of calls and of handlers
  included.  Where it leads through code that calls nothing, the moments are the
  positions of that code, and `Via` says which ones they may be.

  An execution that leads through code of its own and, in between, through the
  code of operands visits these: it enters the code of each at its start and goes on
  behind its end.  The passages through the operands are listed in their order, so
  the list says which operands are evaluated, how often and when.
-/
import Arbor.Proofs.Machine.Runs
import Arbor.Proofs.Machine.Trace

set_option autoImplicit false

namespace Arbor.Run

/-- With enough budget, execution from the first point has the moments and is then execution from the
second point. -/
def Passes (r : Registry) (R : Routine) (span : Span) (p : Nat) (s : State) (ms : List Moment)
    (q : Nat) (t : State) : Prop :=
  ∃ steps enough, ∀ fuel, enough ≤ fuel →
    exec r (fuel + steps) R p span s = exec r fuel R q span t ∧
      execTrace r (fuel + steps) R p span s = ms ++ execTrace r fuel R q span t

/-- Execution passes from the first point to the second one through positions that have the
property, and calls nothing. -/
def Via (r : Registry) (R : Routine) (span : Span) (within : Nat → Prop) (p : Nat) (s : State)
    (q : Nat) (t : State) : Prop :=
  ∃ ms, Passes r R span p s ms q t ∧ ∀ m ∈ ms, m.routine = R ∧ within m.pc

/-- The instruction calls no routine. -/
def Quiet (r : Registry) (R : Routine) (i : Instr) : Prop := ∀ s, callee r R i s = .ok none s

/-- The instruction calls no routine, whatever it does to look for one. -/
def Silent (r : Registry) (R : Routine) (i : Instr) : Prop :=
  ∀ s c t, callee r R i s ≠ .ok (some c) t

variable {r : Registry} {R : Routine} {span : Span}

theorem Quiet.silent {i : Instr} (h : Quiet r R i) : Silent r R i := by
  intro s c t hc
  rw [h s] at hc
  cases hc

theorem Silent.intrinsic (op : Intrinsic) : Silent r R (.call (.intrinsic op)) := by
  intro s c t hc
  change EStateM.bind (ofLookup (r.signature (.intrinsic op)))
    (fun sig => EStateM.bind (popN sig.arity) fun _ => EStateM.pure none) s = _ at hc
  simp only [EStateM.bind, EStateM.pure] at hc
  split at hc
  · split at hc <;> cases hc
  · cases hc

/-- An instruction that calls no routine has no moments of one. -/
theorem Silent.calleeTrace {i : Instr} (h : Silent r R i) (run : Executor) (trace : Tracer) (s : State) :
    Run.calleeTrace r run trace R i s = [] := by
  unfold Run.calleeTrace
  split
  · next hc => exact (h _ _ _ hc).elim
  · rfl

namespace Passes

variable {p q u : Nat} {s t v : State} {ms ns : List Moment}

theorem refl (p : Nat) (s : State) : Passes r R span p s [] p s := ⟨0, 0, fun _ _ => ⟨rfl, rfl⟩⟩

theorem trans (h : Passes r R span p s ms q t) (k : Passes r R span q t ns u v) :
    Passes r R span p s (ms ++ ns) u v := by
  obtain ⟨first, n, hn⟩ := h
  obtain ⟨second, n', hn'⟩ := k
  refine ⟨second + first, max n n', fun fuel hfuel => ?_⟩
  obtain ⟨hexec, htrace⟩ := hn (fuel + second) (by omega)
  obtain ⟨hexec', htrace'⟩ := hn' fuel (by omega)
  rw [← Nat.add_assoc, hexec, htrace, hexec', htrace', List.append_assoc]
  exact ⟨rfl, rfl⟩

/-- An instruction that calls nothing and behind which execution goes on. -/
theorem next {i : Instr} (hcode : R.code[p]? = some i) (hi : Silent r R i)
    (hstep : Steps r R i s (.ok .next t)) : Passes r R span p s [⟨R, p, s⟩] (p + 1) t := by
  obtain ⟨enough, hk⟩ := hstep
  refine ⟨1, enough, fun fuel hfuel => ?_⟩
  simp only [exec, execTrace, hcode, hk fuel hfuel, hi.calleeTrace, List.nil_append,
    List.cons_append, and_self]

theorem jump {i : Instr} (hcode : R.code[p]? = some i) (hi : Silent r R i)
    (hstep : Steps r R i s (.ok (.jump q) t)) : Passes r R span p s [⟨R, p, s⟩] q t := by
  obtain ⟨enough, hk⟩ := hstep
  refine ⟨1, enough, fun fuel hfuel => ?_⟩
  simp only [exec, execTrace, hcode, hk fuel hfuel, hi.calleeTrace, List.nil_append,
    List.cons_append, and_self]

end Passes

namespace Via

variable {within : Nat → Prop} {p q u : Nat} {s t v : State}

theorem refl (p : Nat) (s : State) : Via r R span within p s p s :=
  ⟨[], .refl p s, fun _ hm => by cases hm⟩

theorem trans (h : Via r R span within p s q t) (k : Via r R span within q t u v) :
    Via r R span within p s u v := by
  obtain ⟨ms, hpasses, hms⟩ := h
  obtain ⟨ns, hpasses', hns⟩ := k
  exact ⟨ms ++ ns, hpasses.trans hpasses', List.forall_mem_append.mpr ⟨hms, hns⟩⟩

theorem imp {within' : Nat → Prop} (h : Via r R span within p s q t)
    (himp : ∀ p, within p → within' p) : Via r R span within' p s q t := by
  obtain ⟨ms, hpasses, hms⟩ := h
  exact ⟨ms, hpasses, fun m hm => ⟨(hms m hm).1, himp _ (hms m hm).2⟩⟩

theorem next {i : Instr} (hcode : R.code[p]? = some i) (hi : Silent r R i) (hp : within p)
    (hstep : Steps r R i s (.ok .next t)) (hrest : Via r R span within (p + 1) t u v) :
    Via r R span within p s u v := by
  obtain ⟨ms, hpasses, hms⟩ := hrest
  exact ⟨_, (Passes.next hcode hi hstep).trans hpasses, List.forall_mem_cons.mpr ⟨⟨rfl, hp⟩, hms⟩⟩

theorem jump {i : Instr} (hcode : R.code[p]? = some i) (hi : Silent r R i) (hp : within p)
    (hstep : Steps r R i s (.ok (.jump q) t)) (hrest : Via r R span within q t u v) :
    Via r R span within p s u v := by
  obtain ⟨ms, hpasses, hms⟩ := hrest
  exact ⟨_, (Passes.jump hcode hi hstep).trans hpasses, List.forall_mem_cons.mpr ⟨⟨rfl, hp⟩, hms⟩⟩

end Via

/-! ## Visits -/

/-- Execution leads from the first point to the second one through positions of its own that call
nothing, but for the passages in the list, which it goes through one after the other. -/
inductive Visits (r : Registry) (R : Routine) (span : Span) (own : Nat → Prop) :
    List (List Moment) → Nat → State → Nat → State → Prop
  | straight {p q : Nat} {s t : State} (h : Via r R span own p s q t) : Visits r R span own [] p s q t
  | visit {ms : List Moment} {mss : List (List Moment)} {p p' q' q : Nat} {s s' t' t : State}
      (h : Via r R span own p s p' s') (hpass : Passes r R span p' s' ms q' t')
      (hrest : Visits r R span own mss q' t' q t) : Visits r R span own (ms :: mss) p s q t

namespace Visits

variable {r : Registry} {R : Routine} {span : Span} {own : Nat → Prop} {mss mss' : List (List Moment)}
  {p q u : Nat} {s t v : State}

theorem after (h : Via r R span own p s q t) (hrest : Visits r R span own mss q t u v) :
    Visits r R span own mss p s u v := by
  cases hrest with
  | straight hrest => exact .straight (h.trans hrest)
  | visit hfirst hpass hrest => exact .visit (h.trans hfirst) hpass hrest

theorem passing {ms : List Moment} (h : Passes r R span p s ms q t)
    (hrest : Visits r R span own mss q t u v) : Visits r R span own (ms :: mss) p s u v :=
  .visit (.refl _ _) h hrest

theorem trans (h : Visits r R span own mss p s q t) (hrest : Visits r R span own mss' q t u v) :
    Visits r R span own (mss ++ mss') p s u v := by
  induction h with
  | straight h => exact hrest.after h
  | visit h hpass _ ih => exact .visit h hpass (ih hrest)

theorem imp {own' : Nat → Prop} (h : Visits r R span own mss p s q t) (himp : ∀ p, own p → own' p) :
    Visits r R span own' mss p s q t := by
  induction h with
  | straight h => exact .straight (h.imp himp)
  | visit h hpass _ ih => exact .visit (h.imp himp) hpass ih

end Visits

end Arbor.Run
