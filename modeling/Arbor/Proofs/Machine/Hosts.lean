/-
  What is relied on about methods of the host.

  A method of the host is given as the tree of the calls that it can make, and is
  its own author's affair.  What a statement about runs relies on is said of the
  stretches of a method between its calls: how they change the state, what they
  call, and that they hand a defect on.
-/
import Arbor.Machine.Exec

set_option autoImplicit false

namespace Arbor

namespace Run

/-! ## Ends of runs -/

theorem ok_of_bind {α β : Type} {x : Run α} {f : α → Run β} {s t : State} {b : β}
    (h : (x >>= f) s = .ok b t) : ∃ a u, x s = .ok a u ∧ f a u = .ok b t := by
  change EStateM.bind x f s = .ok b t at h
  unfold EStateM.bind at h
  split at h
  · next a u hx => exact ⟨a, u, hx, h⟩
  · cases h

theorem ofLookup_eq_ok {α : Type} {e : Except MetadataError α} {a : α}
    {s t : State} (h : ofLookup e s = .ok a t) :
    e = .ok a ∧ t = s := by
  cases e with
  | ok a =>
      cases h
      exact ⟨rfl, rfl⟩
  | error e => cases h

/-- The state in which a run has ended has the property. -/
def EndsIn {α : Type} (P : State → Prop) : EStateM.Result Trap State α → Prop
  | .ok _ t => P t
  | .error _ t => P t

theorem EndsIn.imp {α : Type} {P Q : State → Prop} {out : EStateM.Result Trap State α} (h : EndsIn P out)
    (hPQ : ∀ t, P t → Q t) : EndsIn Q out := by
  cases out <;> exact hPQ _ h

end Run

/-- The state in which a call ends. -/
def Outcome.state : Outcome → State
  | .ok _ s | .error _ s => s

theorem Run.endsIn_iff {P : State → Prop} {outcome : Outcome} : EndsIn P outcome ↔ P outcome.state := by
  cases outcome <;> rfl

/-! ## Methods at work -/

namespace HostRun

/-- How a method of the host goes on from a state.  Between its calls it changes the state as `Own` says,
it calls what is `Admits`, and yields a `Result`, provided that its calls change the state as `Across` says
and yield results. -/
def Proceeds (Own Across : State → State → Prop) (Admits : Routine → List Value → State → Prop)
    (Result : Value → State → Prop) : HostRun → State → Prop
  | done outcome, s => Own s outcome.state ∧ ∀ v t, outcome = .ok v t → Result v t
  | call routine args t resume, s =>
      Own s t ∧ Admits routine args t ∧
        ∀ outcome : Outcome, Across t outcome.state → (∀ v u, outcome = .ok v u → Result v u) →
          (resume outcome).Proceeds Own Across Admits Result outcome.state

/-- The method changes states as the relation says, if its calls do. -/
def Keeps (rel : State → State → Prop) : HostRun → State → Prop :=
  Proceeds rel rel (fun _ _ _ => True) (fun _ _ => True)

/-- Where a call ends with a defect, the method ends with it as well. -/
def HandsOn : HostRun → Prop
  | done _ => True
  | call _ _ _ resume =>
      (∀ d s, resume (.error (.invalid d) s) = .done (.error (.invalid d) s)) ∧
        ∀ outcome, (resume outcome).HandsOn

variable {Own Own' Across Across' : State → State → Prop}
  {Admits Admits' : Routine → List Value → State → Prop} {Result : Value → State → Prop}

theorem Proceeds.imp {h : HostRun} {s : State} (hh : h.Proceeds Own Across Admits Result s)
    (hown : ∀ s t, Own s t → Own' s t) (hacross : ∀ s t, Across' s t → Across s t)
    (hadmits : ∀ R args s, Admits R args s → Admits' R args s) :
    h.Proceeds Own' Across' Admits' Result s := by
  induction h generalizing s with
  | done outcome => exact ⟨hown _ _ hh.1, hh.2⟩
  | call R args t resume ih =>
      obtain ⟨hfirst, hcall, hrest⟩ := hh
      exact ⟨hown _ _ hfirst, hadmits _ _ _ hcall, fun outcome hout hresult =>
        ih outcome (hrest outcome (hacross _ _ hout) hresult)⟩

end HostRun

/-! ## Methods of a registry -/

/-- The method changes states as the relation says, if its calls do. -/
def Host.Keeps (f : Host) (rel : State → State → Prop) : Prop := ∀ args s, (f args s).Keeps rel s

/-- Where a call of the method ends with a defect, the method ends with it as well. -/
def Host.HandsOn (f : Host) : Prop := ∀ args s, (f args s).HandsOn

/-- The method of the host that a method is. -/
def MethodBody.host? : MethodBody → Option Host
  | host method => some method
  | _ => none

namespace Registry

variable (r : Registry)

/-- The methods that the host implements. -/
def hosts : List Host :=
  r.types.toList.flatMap fun d => d.methods.toList.filterMap fun m => m.body.host?

/-- All methods of the host change states as the relation says, if their calls do. -/
def HostsKeep (rel : State → State → Prop) : Prop := ∀ f ∈ r.hosts, Host.Keeps f rel

/-- All methods of the host hand defects on. -/
def HostsHandOn : Prop := ∀ f ∈ r.hosts, Host.HandsOn f

variable {r}

theorem mem_hosts {id : TypeId} {index : Nat} {d : MethodDef} {f : Host} (hd : r.method id index = .ok d)
    (hbody : d.body = .host f) : f ∈ r.hosts := by
  simp only [method, typeDef] at hd
  cases hty : r.types[id]? with
  | none =>
      rw [hty] at hd
      cases hd
  | some ty =>
      rw [hty] at hd
      simp only [bind, Except.bind] at hd
      split at hd
      · next m hm =>
          cases hd
          refine List.mem_flatMap.mpr ⟨ty, Array.mem_toList_iff.mpr (Array.mem_of_getElem? hty),
            List.mem_filterMap.mpr ⟨d, Array.mem_toList_iff.mpr (Array.mem_of_getElem? hm), ?_⟩⟩
          rw [hbody]
          rfl
      · cases hd

variable (r) in
/-- Routines can be called, and the methods that the host implements. -/
def Provides : Callee → Prop
  | .routine _ => True
  | .host f => f ∈ r.hosts

theorem hosts_builtin : Registry.builtin.hosts = [] := rfl

theorem hostsKeep_builtin (rel : State → State → Prop) : Registry.builtin.HostsKeep rel := by
  rw [HostsKeep, hosts_builtin]
  exact List.forall_mem_nil _

/-- The declared exceptions, and a class with one static method, which the host implements. -/
def hosting (params : List Ty) (ret : Ty) (f : Host) : Registry :=
  (Registry.builtin.defineClass "Host" none).addMethod Registry.builtin.size
    ⟨"run", params.map fun ty => ⟨"arg", ty, false⟩, ret, .static, .host f⟩

/-- The method of the host. -/
def hosted : MethodRef := .method Registry.builtin.size 1

end Registry

/-! ## Some methods of the host -/

namespace Host

theorem keeps_acting {action : List Value → Run Value} {rel : State → State → Prop}
    (h : ∀ args s, Run.EndsIn (rel s) (action args s)) : (acting action).Keeps rel :=
  fun args s => ⟨Run.endsIn_iff.mp (h args s), fun _ _ _ => trivial⟩

/-- A method that only calls its first argument changes states as its faults do, if its calls do. -/
theorem keeps_applying {r : Registry} {rel : State → State → Prop} (hrefl : ∀ s, rel s s)
    (hraise : ∀ s, Run.EndsIn (rel s) (Run.raise r .nullReference s : Outcome)) :
    (applying r).Keeps rel := by
  intro args s
  unfold applying
  split
  · split
    · exact ⟨hrefl s, trivial, fun outcome _ _ => ⟨hrefl _, fun _ _ _ => trivial⟩⟩
    · exact ⟨hrefl s, fun _ _ _ => trivial⟩
  · exact ⟨Run.endsIn_iff.mp (hraise s), fun _ _ _ => trivial⟩
  · exact ⟨hrefl s, fun _ _ _ => trivial⟩

/-- A method that only calls its first argument ends as the call does. -/
theorem handsOn_applying (r : Registry) : (applying r).HandsOn := by
  intro args s
  unfold applying
  split
  · split
    · exact ⟨fun _ _ => rfl, fun _ => trivial⟩
    · trivial
  · trivial
  · trivial

end Host

end Arbor
