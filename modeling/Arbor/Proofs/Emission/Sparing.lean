/-
  Emission that spares a local.

  A local that is in use but holds no variable belongs to whoever acquired it: a
  waiting operand, a computed argument whose address is pending, the value of a
  label.  What is emitted in the meantime names other locals, as long as slots can
  be numbered.
-/
import Arbor.Proofs.Emission.Permissive
import Arbor.Proofs.Emission.Units

set_option autoImplicit false

namespace Arbor

/-- The local is in use for something else than a variable or a label, and no instruction from the
position on names it. -/
structure Emission.Reserves (k first : Nat) (s : Emission) : Prop where
  tidy : s.Tidy
  live : k ∈ s.pool.live
  scope : ∀ v ∈ s.scope, v.2.1 ≠ .local k
  labels : ∀ id info, s.labels.lookup id = some info → info.valueSlot ≠ some k
  code : ∀ (p : Nat) (i : Instr), first ≤ p → s.builder.code[p]? = some i → k ∉ i.slots

namespace Emission.Reserves

variable {k first : Nat} {s : Emission}

theorem withBuilder (h : s.Reserves k first) {b : Builder} (hlocals : b.locals = s.builder.locals)
    (hcode : ∀ (p : Nat) (i : Instr), first ≤ p → b.code[p]? = some i → k ∉ i.slots) :
    Emission.Reserves k first { s with builder := b } := by
  refine ⟨?_, h.live, h.scope, h.labels, hcode⟩
  have htidy : s.pool.Tidy s.builder.locals := h.tidy
  rw [← hlocals] at htidy
  exact htidy

/-- An instruction that does not name the local is appended. -/
theorem emit (h : s.Reserves k first) {i : Instr} (hi : k ∉ i.slots) :
    Emission.Reserves k first { s with builder := s.builder.emit i } := by
  refine h.withBuilder rfl fun p j hp hj => ?_
  rw [Builder.emit, Array.getElem?_push] at hj
  split at hj
  · cases hj
    exact hi
  · exact h.code p j hp hj

/-- An instruction is replaced by one that does not name the local. -/
theorem patch (h : s.Reserves k first) {position : Nat} {i : Instr} (hi : k ∉ i.slots) :
    Emission.Reserves k first { s with builder := s.builder.patch position i } := by
  refine h.withBuilder rfl fun p j hp hj => ?_
  rw [Builder.patch, Array.getElem?_setIfInBounds] at hj
  split at hj
  · split at hj
    · cases hj
      exact hi
    · cases hj
  · exact h.code p j hp hj

theorem addChild {session : Session} {units : List Routine} {c : Routine}
    (h : s.Reserves k first) :
    Emission.Reserves k first
      { s with session := session, builder := (s.builder.addChild c).2, units := units } := by
  have hchild := h.withBuilder (s.builder.addChild_locals c) ((s.builder.addChild_code c).symm ▸ h.code)
  exact ⟨hchild.tidy, hchild.live, hchild.scope, hchild.labels, hchild.code⟩

end Emission.Reserves

namespace Emit

variable {α β : Type} {k first : Nat} {own : List Label} {exit : Option Label}

/-- The emitter names the local nowhere if it is reserved, as long as slots can be numbered. -/
def Spares (k first : Nat) (x : Emit α) (Q : α → Prop) : Prop :=
  ∀ setting s t a, x.run setting s = .ok a t → t.builder.locals.size ≤ Builder.slotLimit →
    s.Reserves k first → t.Reserves k first ∧ Q a

namespace Spares

variable {x : Emit α} {Q : α → Prop}

theorem bind {f : α → Emit β} {P : α → Prop} {Q : β → Prop} (hx : Spares k first x P)
    (hf : ∀ a, P a → Spares k first (f a) Q) : Spares k first (x >>= f) Q := by
  intro setting s t b hrun hlimit hs
  obtain ⟨a, u, hxu, hfu⟩ := run_bind hrun
  obtain ⟨hu, hP⟩ := hx _ _ _ _ hxu (Nat.le_trans ((f a).grows hfu).locals_le hlimit) hs
  exact hf a hP _ _ _ _ hfu hlimit hu

theorem read {f : Setting → Emission → Except CompileError α}
    (h : ∀ setting s a, f setting s = .ok a → s.Reserves k first → Q a) :
    Spares k first (Emit.read f) Q := by
  intro setting s t a hrun _ hs
  simp only [Emit.read] at hrun
  split at hrun
  · next hf =>
      cases hrun
      exact ⟨hs, h setting s a hf hs⟩
  · cases hrun

theorem instr {i : Instr} (hi : k ∉ i.slots) : Spares k first (Emit.instr i) fun _ => True := by
  intro setting s t a hrun _ hs
  cases hrun
  exact ⟨hs.emit hi, trivial⟩

/-- A placeholder, and what may become of it. -/
theorem reserved {fill : α → Option Instr} (hfill : ∀ a i, fill a = some i → k ∉ i.slots)
    (hx : Spares k first x Q) : Spares k first (Emit.reserved x fill) Q := by
  intro setting s t a hrun hlimit hs
  have hstart : k ∉ Instr.nop.slots := by simp [Instr.slots]
  simp only [Emit.reserved] at hrun
  split at hrun
  · next b u hxu =>
      split at hrun
      · next i hi =>
          cases hrun
          obtain ⟨hu, hQ⟩ := hx _ _ _ _ hxu hlimit (hs.emit hstart)
          exact ⟨hu.patch (hfill _ _ hi), hQ⟩
      · cases hrun
        exact hx _ _ _ _ hxu hlimit (hs.emit hstart)
  · cases hrun

theorem newLabel : Spares k first Emit.newLabel fun _ => True := by
  intro setting s t l hrun _ hs
  cases hrun
  exact ⟨hs.withBuilder rfl hs.code, trivial⟩

/-- A marked label. -/
theorem mark {l : Label} : Spares k first (Emit.mark l) fun _ => True := by
  intro setting s t a hrun _ hs
  simp only [Emit.mark] at hrun
  split at hrun
  · next b hmark =>
      cases hrun
      unfold Builder.markLabel at hmark
      split at hmark
      · cases hmark
        exact ⟨hs.withBuilder rfl hs.code, trivial⟩
      · cases hmark
      · cases hmark
  · cases hrun

/-- A temporary is another one. -/
theorem temp {ty : Ty} : Spares k first (Emit.temp ty) (· ≠ k) := by
  intro setting s t slot hrun hlimit hs
  simp only [Emit.temp] at hrun
  cases hrun
  have hlive := SlotPool.acquire_live s.pool s.builder ty
  refine ⟨⟨SlotPool.acquire_tidy hs.tidy hlimit, ?_, hs.scope, hs.labels, ?_⟩, ?_⟩
  · exact hlive ▸ List.mem_cons_of_mem _ hs.live
  · rw [SlotPool.acquire_code]
    exact hs.code
  · rintro rfl
    exact SlotPool.acquire_fresh hs.tidy hlimit hs.live

/-- A section with temporaries of its own. -/
theorem withTemps (hx : Spares k first x Q) : Spares k first (Emit.withTemps x) Q := by
  intro setting s t a hrun hlimit hs
  simp only [Emit.withTemps] at hrun
  split at hrun
  · next u hxu =>
      cases hrun
      obtain ⟨hu, hQ⟩ := hx _ _ _ _ hxu hlimit hs
      refine ⟨⟨SlotPool.releaseTo_tidy hu.tidy _, ?_, hu.scope, hu.labels, hu.code⟩, hQ⟩
      change k ∈ (u.pool.releaseTo u.builder.locals s.pool.live.length).live
      rw [SlotPool.releaseTo_live (x.grows hxu).live]
      exact hs.live
  · cases hrun

/-- A section with variables in scope. -/
theorem inScope {vars : Scope} (hvars : ∀ v ∈ vars, v.2.1 ≠ .local k) (hx : Spares k first x Q) :
    Spares k first (Emit.inScope vars x) Q := by
  intro setting s t a hrun hlimit hs
  simp only [Emit.inScope] at hrun
  split at hrun
  · next u hxu =>
      cases hrun
      have hscope : ∀ v ∈ vars.reverse ++ s.scope, v.2.1 ≠ .local k :=
        List.forall_mem_append.mpr ⟨fun v hv => hvars v (List.mem_reverse.mp hv), hs.scope⟩
      obtain ⟨hu, hQ⟩ := hx _ _ _ _ hxu hlimit ⟨hs.tidy, hs.live, hscope, hs.labels, hs.code⟩
      exact ⟨⟨hu.tidy, hu.live, hs.scope, hu.labels, hu.code⟩, hQ⟩
  · cases hrun

end Spares

theorem among_ne_iff {slot : VarSlot} : slot.Among (· ≠ k) (fun _ => True) ↔ slot ≠ .local k := by
  cases slot <;> simp [VarSlot.Among]

/-- The rules of emitters that name other locals than the reserved one. -/
def sparingRules (k first : Nat) : Rules where
  Holds _ _ x _ Q := Spares k first x Q
  Slot := (· ≠ k)
  Arg _ := True
  Child _ := True
  pure hQ _ setting s t a hrun _ hs := by
    cases hrun
    exact ⟨hs, hQ⟩
  bind := Spares.bind
  weaken hx _ _ hQ setting s t a hrun hlimit hs :=
    let ⟨ht, ha⟩ := hx setting s t a hrun hlimit hs
    ⟨ht, hQ a ha⟩
  fail _ _ _ _ _ hrun := by cases hrun
  read _ := .read fun _ _ _ _ _ => trivial
  instr _ hi := .instr fun hk => hi.slots k hk rfl
  newLabel := Spares.newLabel
  mark _ := Spares.mark
  temp := Spares.temp
  withTemps := Spares.withTemps
  varSlot := .read fun setting s v hv hs => by
    split at hv
    · next hlookup =>
        cases hv
        obtain ⟨before, after, hsplit, -⟩ := List.lookup_eq_some_iff.mp hlookup
        exact among_ne_iff.mpr (hs.scope (_, v) (by
          rw [hsplit]
          exact List.mem_append_right _ List.mem_cons_self))
    · cases hv
  helper setting s t i hrun _ hs := by
    simp only [Emit.helper] at hrun
    cases hrun
    exact ⟨hs.addChild, trivial⟩

theorem scopes_sparing (k first : Nat) : (sparingRules k first).AllowsScopes :=
  fun hvars => Spares.inScope fun v hv => among_ne_iff.mp (hvars v hv)

theorem placeholders_sparing (k first : Nat) : (sparingRules k first).AllowsPlaceholders where
  lend _ hx := hx
  reserved hfill := Spares.reserved fun a i hi hk => (hfill a i hi).2.slots k hk rfl
  resetStack hn := Spares.instr (by simpa [Instr.slots] using Ne.symm hn)

theorem lax_sparing (k first : Nat) : (sparingRules k first).Lax :=
  fun _ hi => .instr fun hk => hi.slots k hk rfl

/-- The policy of emitters that name other locals than the reserved one. -/
def sparing (k first : Nat) : Policy :=
  (sparingRules k first).policy (lax_sparing k first) (scopes_sparing k first)
    (placeholders_sparing k first) (Spares.read fun _ _ _ _ _ _ _ _ => trivial)

theorem labelled_sparing (k first : Nat) : (sparing k first).Labelled (fun _ => True) True :=
  .of_lent
    (.read fun setting s info hinfo hs => by
      split at hinfo
      · next hlookup =>
          cases hinfo
          exact ⟨trivial, fun n hn hk => hs.labels _ _ hlookup (hk ▸ hn)⟩
      · cases hinfo)
    fun _ hx => hx

/-- Protected blocks may be opened. -/
theorem permissive_sparing (k first : Nat) : (sparing k first).Permissive where
  inRegion hx setting s t a hrun hlimit hs := by
    simp only [inRegion] at hrun
    split at hrun
    · next u hxu =>
        cases hrun
        obtain ⟨hu, -⟩ := hx _ _ _ _ hxu hlimit ⟨hs.tidy, hs.live, hs.scope, hs.labels, hs.code⟩
        exact ⟨⟨hu.tidy, hu.live, hu.scope, hu.labels, hu.code⟩, trivial⟩
    · cases hrun
  addRegion _ _ setting s t a hrun _ hs := by
    cases hrun
    exact ⟨hs.withBuilder rfl hs.code, trivial⟩

theorem spares_nestedUnit {l : Lambda Node} :
    (sparing k first).Yields own exit (nestedUnit l) fun _ => True := by
  intro setting s t i hrun _ hs
  simp only [nestedUnit] at hrun
  split at hrun
  · cases hrun
    exact ⟨hs.addChild, trivial⟩
  · cases hrun

theorem spares_tree (e : Expr) (k first : Nat) : e.toNode.Keeps (sparing k first) := by
  induction e using Expr.induct with
  | node kind ty ih =>
      exact (labelled_sparing k first).node trivial (fun e he => ih e (ExprKind.mem_operands he))
        (fun _ _ _ _ => trivial) (fun _ _ _ _ _ => (permissive_sparing k first).protects _ _ _ _)
        fun l _ => Policy.function (Rules.Lax.loose (lax_sparing k first)) (fun _ _ h => h) spares_nestedUnit

end Emit

end Arbor
