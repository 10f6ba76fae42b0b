/-
  Calls are balanced.

  However a call ends, as many calls are active behind it as in front of it, and
  never more than the machine allows while it runs.  So a machine that reports a
  failure is ready for the next invocation: nothing of the failed one is left but
  its heap and its static fields.  Methods of the host are relied on to leave the
  active calls alone.
-/
import Arbor.Proofs.Machine.Frames

set_option autoImplicit false

namespace Arbor

namespace Run

variable {r : Registry} {fuel : Nat} {E : List (Nat × Nat)}

theorem serves_call (hhosts : r.HostsKeep State.SameExtents) : (Keeping.extents r E).Serves (call r fuel) :=
  .of_endsIn rfl fun _ _ _ hc hs => (endsIn_call hhosts hc).imp fun _ ht => ht.trans hs

theorem length_frames_eq {s t : State} (h : t.extents = s.extents) :
    t.frames.length = s.frames.length := by
  simpa only [State.extents, List.length_map] using congrArg List.length h

theorem Storing.Ensures.length_frames {α : Type} {x : Run α} {post : α → Prop} {s : State}
    (hx : (Keeping.extents r s.extents).Ensures x post) :
    EndsIn (fun t => t.frames.length = s.frames.length) (x s) :=
  (hx.endsIn rfl).imp fun _ => length_frames_eq

end Run

namespace Machine

/-- A call of a routine or of the host, of a method, of a function value or of a callable from outside
ends with as many active calls as it found, whatever its outcome.  At no moment of it are more calls
active than the machine allows.  And where a machine without active calls fails at an invocation, the
next one finds a machine without active calls. -/
theorem frames_balanced (r : Registry) (hhosts : r.HostsKeep State.SameExtents) (fuel : Nat) (s : State) :
    (∀ c args, r.Provides c →
        Run.EndsIn (fun t => t.frames.length = s.frames.length) (Run.call r fuel c args s)) ∧
      (∀ m args, Run.EndsIn (fun t => t.frames.length = s.frames.length)
        (Run.callMethod r (Run.call r fuel) m args s)) ∧
      (∀ f args, Run.EndsIn (fun t => t.frames.length = s.frames.length)
        (Run.callValue r (Run.call r fuel) f args s)) ∧
      (∀ c args, (invokeWithin fuel r c args s).2.frames.length = s.frames.length) ∧
      (∀ R args, ∀ m ∈ Run.callTrace r (Run.execTrace r fuel) R args s,
        m.state.frames.length ≤ Run.maxCallDepth) ∧
      (∀ c args e t, s.frames = [] → invokeWithin fuel r c args s = (.error e, t) →
        ∀ budget c' args', invokeWithin budget r c' args' t =
          invokeWithin budget r c' args' ⟨t.heap, [], t.statics⟩) := by
  have hserves : (Run.Keeping.extents r s.extents).Serves (Run.call r fuel) := Run.serves_call hhosts
  have hheld : ∀ args : List Value, ∀ v ∈ args, (Run.Keeping.extents r s.extents).Held v :=
    fun _ v _ => v.within_all
  have hcall : ∀ c args, r.Provides c →
      Run.EndsIn (fun t => t.frames.length = s.frames.length) (Run.call r fuel c args s) :=
    fun c args hc => Run.Storing.Ensures.length_frames (hserves c args hc)
  have hinvoke : ∀ c args, (invokeWithin fuel r c args s).2.frames.length = s.frames.length :=
    fun c args => Run.observe_endsIn (hcall (.routine c.routine) (c.captured ++ args) trivial)
  refine ⟨hcall, fun m args => ?_, fun f args => ?_, hinvoke, fun R args m hm => ?_, ?_⟩
  · exact (Run.Keeping.callMethod hserves (hheld args)).length_frames
  · exact (Run.Keeping.callValue hserves (hheld args)).length_frames
  · simpa only [State.extents, List.length_map] using (Run.running_of_mem_callTrace hhosts hm).1.depth
  · intro c args e t hs hfails budget c' args'
    have hlength := hinvoke c args
    rw [hfails, hs] at hlength
    rw [← List.eq_nil_of_length_eq_zero hlength]

/-- A host with a method that calls its argument. -/
def caller : Registry := .hosting [.func [] .str] .str (.applying .builtin)

/-- Hands the host a function that returns a value that it does not have. -/
def valueless : Callable :=
  let child : Routine := ⟨.unit 0, "valueless", [], .str, #[], #[.ret], #[], [], []⟩
  ⟨⟨.unit 0, "handsOver", [], .str, #[], #[.loadFunction 0, .newInvoker 0, .call Registry.hosted, .ret], #[],
    [], [child]⟩, []⟩

/-- Behind an invocation that fails because there is no value to return, the next one starts
afresh. -/
theorem frames_balanced_valueless :
    ∃ t, invokeWithin 5 caller valueless [] .initial =
        (.error (.invalidProgram "evaluation stack underflow"), t) ∧
      ∀ budget, invokeWithin budget caller valueless [] t =
        invokeWithin budget caller valueless [] ⟨t.heap, [], t.statics⟩ := by
  have hhosts : caller.HostsKeep State.SameExtents := by
    intro f hf
    obtain rfl := List.mem_singleton.mp hf
    exact Host.keeps_applying (fun _ => rfl) fun s =>
      (Run.Keeping.raise (K := (Run.Keeping.extents .builtin s.extents).toStoring) (P := fun _ => True)).endsIn rfl
  obtain ⟨t, ht⟩ : ∃ t, invokeWithin 5 caller valueless [] .initial =
      (.error (.invalidProgram "evaluation stack underflow"), t) := ⟨_, by with_unfolding_all rfl⟩
  have hbalanced := frames_balanced caller hhosts 5 .initial
  exact ⟨t, ht, fun budget => hbalanced.2.2.2.2.2 valueless [] _ t rfl ht budget valueless []⟩

end Machine

end Arbor
