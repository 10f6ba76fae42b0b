/-
  Runs of a routine without a step budget.

  `Ends` says how execution from a position ends once the budget is large enough,
  and `Leads` that execution passes from one point to another.  Execution from the
  earlier point is execution from the later one, some steps of budget ahead, so
  the steps of a run compose without counting budget.
-/
import Arbor.Machine.Exec

set_option autoImplicit false

namespace Arbor.Run

/-- Stack depths that can be recorded are below this limit: they are held as 32-bit integers. -/
def depthLimit : Nat := 0x80000000

/-- How an execution ends: with an exit or a trap, and the state it leaves. -/
abbrev Ending := EStateM.Result Trap State Exit

/-- With enough budget, execution from the position ends this way. -/
def Ends (r : Registry) (R : Routine) (pc : Nat) (s : State) (out : Ending) : Prop :=
  ∃ enough, ∀ fuel, enough ≤ fuel → ∀ span, exec r fuel R pc span s = out

/-- With enough budget, execution from the first point passes the second one: what is left is the
execution from there. -/
def Leads (r : Registry) (R : Routine) (p : Nat) (s : State) (q : Nat) (t : State) : Prop :=
  ∃ steps enough, ∀ fuel, enough ≤ fuel → ∀ span,
    exec r (fuel + steps) R p span s = exec r fuel R q span t

/-- With enough budget for the calls in it, the instruction does this. -/
def Steps (r : Registry) (R : Routine) (i : Instr) (s : State)
    (out : EStateM.Result Trap State Flow) : Prop :=
  ∃ enough, ∀ fuel, enough ≤ fuel → step r (caller r (exec r fuel)) R i s = out

/-- Zeroed locals are as many as there are types of them. -/
theorem size_of_zeros {r : Registry} {locals : Array Ty} {zeros : Array Value}
    (h : locals.mapM r.zero = .ok zeros) : zeros.size = locals.size := by
  rw [Array.mapM_eq_mapM_toList] at h
  have hlist : ∀ {tys : List Ty} {values : List Value}, tys.mapM r.zero = .ok values →
      values.length = tys.length := by
    intro tys
    induction tys with
    | nil =>
        rintro _ ⟨⟩
        rfl
    | cons ty tys ih =>
        intro values hvalues
        rw [List.mapM_cons] at hvalues
        cases hfirst : r.zero ty with
        | error e =>
            rw [hfirst] at hvalues
            cases hvalues
        | ok v =>
            cases hrest : tys.mapM r.zero with
            | error e =>
                rw [hfirst] at hvalues
                simp only [hrest, bind, Except.bind] at hvalues
                cases hvalues
            | ok vs =>
                rw [hfirst] at hvalues
                simp only [hrest, bind, Except.bind, pure, Except.pure] at hvalues
                cases hvalues
                rw [List.length_cons, ih hrest, List.length_cons]
  cases hvalues : locals.toList.mapM r.zero with
  | error e =>
      rw [hvalues] at h
      cases h
  | ok values =>
      rw [hvalues] at h
      cases h
      simpa using hlist hvalues

variable {r : Registry} {R : Routine}

theorem Steps.of_forall {i : Instr} {s : State} {out : EStateM.Result Trap State Flow}
    (h : ∀ call, step r call R i s = out) : Steps r R i s out :=
  ⟨0, fun _ _ => h _⟩

namespace Leads

theorem refl (p : Nat) (s : State) : Leads r R p s p s := ⟨0, 0, fun _ _ _ => rfl⟩

theorem trans {p q u : Nat} {s t v : State} (h : Leads r R p s q t) (k : Leads r R q t u v) :
    Leads r R p s u v := by
  obtain ⟨first, n, hn⟩ := h
  obtain ⟨second, m, hm⟩ := k
  refine ⟨second + first, max n m, fun fuel hfuel span => ?_⟩
  rw [← Nat.add_assoc, hn _ (by omega) span, hm _ (by omega) span]

theorem next {p : Nat} {i : Instr} {s t : State} (hcode : R.code[p]? = some i)
    (hstep : Steps r R i s (.ok .next t)) : Leads r R p s (p + 1) t := by
  obtain ⟨enough, hk⟩ := hstep
  refine ⟨1, enough, fun fuel hfuel span => ?_⟩
  simp only [exec, hcode, hk fuel hfuel]

theorem jump {p q : Nat} {i : Instr} {s t : State} (hcode : R.code[p]? = some i)
    (hstep : Steps r R i s (.ok (.jump q) t)) : Leads r R p s q t := by
  obtain ⟨enough, hk⟩ := hstep
  refine ⟨1, enough, fun fuel hfuel span => ?_⟩
  simp only [exec, hcode, hk fuel hfuel]

/-- Execution ends as it does from a point that it passes. -/
theorem ends {p q : Nat} {s t : State} {out : Ending} (h : Leads r R p s q t)
    (hout : Ends r R q t out) : Ends r R p s out := by
  obtain ⟨steps, n, hn⟩ := h
  obtain ⟨m, hm⟩ := hout
  refine ⟨max n m + steps, fun fuel hfuel span => ?_⟩
  obtain ⟨fuel, rfl⟩ : ∃ f, fuel = f + steps := ⟨fuel - steps, by omega⟩
  rw [hn fuel (by omega) span, hm fuel (by omega) span]

end Leads

namespace Ends

theorem ret {p : Nat} {i : Instr} {s t : State} {v : Value} (hcode : R.code[p]? = some i)
    (hstep : Steps r R i s (.ok (.ret v) t)) : Ends r R p s (.ok (.returned v) t) := by
  obtain ⟨k, hk⟩ := hstep
  refine ⟨k + 1, ?_⟩
  intro fuel hfuel span
  obtain ⟨fuel, rfl⟩ : ∃ f, fuel = f + 1 := ⟨fuel - 1, by omega⟩
  have hret := hk fuel (by omega)
  simp only [exec, hcode, hret]

theorem dispatch_none (hregions : R.regions = []) (fuel pc : Nat) (e : Ref) (span : Span)
    (s : State) : dispatch r (fuel + 1) R pc e span s = .error (.thrown e) s := by
  simp [dispatch, candidates, hregions, select, unwind, pure, EStateM.pure]

/-- Without protected regions a trap of an instruction ends the execution. -/
theorem trap {p : Nat} {i : Instr} {s t : State} {e : Trap} (hregions : R.regions = [])
    (hcode : R.code[p]? = some i) (hstep : Steps r R i s (.error e t)) :
    Ends r R p s (.error e t) := by
  obtain ⟨k, hk⟩ := hstep
  refine ⟨k + 2, ?_⟩
  intro fuel hfuel span
  obtain ⟨fuel, rfl⟩ : ∃ f, fuel = f + 2 := ⟨fuel - 2, by omega⟩
  have hstep := hk (fuel + 1) (by omega)
  rw [exec]
  simp only [hcode, hstep]
  cases e with
  | thrown ref => simp only [dispatch_none hregions]
  | invalid d => rfl
  | halted limit => rfl

end Ends

end Arbor.Run
