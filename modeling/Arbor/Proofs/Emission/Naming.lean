/-
  Labels that emission names.

  What an emitter adds names labels that were lent to it, labels of the tree and
  labels that it made itself, and it hands on no others.  So a label of somebody
  else does not occur in it.
-/
import Arbor.Proofs.Emission.Permissive
import Arbor.Proofs.Emission.Units

set_option autoImplicit false

namespace Arbor

/-! ## What may be named -/

/-- The labels of the tree that are known have the property. -/
def Emission.Tabled (tree : Label → Prop) (s : Emission) : Prop :=
  ∀ id info, s.labels.lookup id = some info → tree info.label

/-- The label was made in between. -/
def Builder.Makes (b c : Builder) (l : Label) : Prop :=
  b.labels.size ≤ l.index ∧ l.index < c.labels.size

/-- The label is lent, one of the tree, or was made between the states. -/
def Emission.MayName (tree : Label → Prop) (own : List Label) (exit : Option Label) (s t : Emission)
    (l : Label) : Prop :=
  l ∈ own ∨ exit = some l ∨ tree l ∨ s.builder.Makes t.builder l

/-- What was added names labels only that may be named, and hands on labels that are lent or were
made. -/
structure Emission.Names (tree : Label → Prop) (own : List Label) (exit : Option Label)
    (handed : List Label) (s t : Emission) : Prop where
  table : t.labels = s.labels
  code : ∀ p i, s.position ≤ p → t.builder.code[p]? = some i →
    ∀ l ∈ i.labels, Emission.MayName tree own exit s t l
  handed : ∀ l ∈ handed, l ∈ own ∨ s.builder.Makes t.builder l

namespace Emission

variable {tree : Label → Prop} {own own' handed handed' : List Label} {exit exit' : Option Label}
  {s t u : Emission}

theorem MayName.weaken {l : Label} (h : MayName tree own exit s t l) (hown : ∀ l ∈ own, l ∈ own')
    (hexit : ∀ l, exit = some l → l ∈ own' ∨ exit' = some l) : MayName tree own' exit' s t l := by
  rcases h with h | h | h
  · exact .inl (hown l h)
  · exact (hexit l h).imp_right .inl
  · exact .inr (.inr h)

namespace Names

theorem of_eq (htable : t.labels = s.labels) (hcode : t.builder.code = s.builder.code)
    (hhanded : ∀ l ∈ handed, l ∈ own ∨ s.builder.Makes t.builder l) :
    Names tree own exit handed s t := by
  refine ⟨htable, fun p i hp hi => ?_, hhanded⟩
  rw [hcode] at hi
  exact absurd (Array.getElem?_eq_some_iff.mp hi).1 (Nat.not_lt.mpr hp)

theorem weaken (h : Names tree own exit handed s t) (hown : ∀ l ∈ own, l ∈ own')
    (hexit : ∀ l, exit = some l → l ∈ own' ∨ exit' = some l) : Names tree own' exit' handed s t :=
  ⟨h.table, fun p i hp hi l hl => (h.code p i hp hi l hl).weaken hown hexit,
    fun l hl => (h.handed l hl).imp_left (hown l)⟩

theorem lent (h : Names tree own exit handed s u) {l : Label} (hl : l ∈ handed ++ own) :
    l ∈ own ∨ s.builder.Makes u.builder l :=
  (List.mem_append.mp hl).elim (h.handed l) .inl

/-- Additions one after the other. -/
theorem trans (hsu : s.Grows u) (hut : u.Grows t) (h : Names tree own exit handed s u)
    (k : Names tree (handed ++ own) exit handed' u t) : Names tree own exit handed' s t := by
  have hbefore : ∀ {l}, s.builder.Makes u.builder l → s.builder.Makes t.builder l := fun ⟨hge, hlt⟩ =>
    ⟨hge, Nat.lt_of_lt_of_le hlt hut.labels⟩
  have hbehind : ∀ {l}, u.builder.Makes t.builder l → s.builder.Makes t.builder l := fun ⟨hge, hlt⟩ =>
    ⟨Nat.le_trans hsu.labels hge, hlt⟩
  refine ⟨k.table.trans h.table, fun p i hp hi l hl => ?_, fun l hl => ?_⟩
  · by_cases hlt : p < u.position
    · rw [(Builder.Extends.of_grows hut).getElem?_code hlt] at hi
      rcases h.code p i hp hi l hl with hown | hexit | htree | hmade
      · exact .inl hown
      · exact .inr (.inl hexit)
      · exact .inr (.inr (.inl htree))
      · exact .inr (.inr (.inr (hbefore hmade)))
    · rcases k.code p i (Nat.le_of_not_lt hlt) hi l hl with hown | hexit | htree | hmade
      · exact (h.lent hown).imp_right fun hmade => .inr (.inr (hbefore hmade))
      · exact .inr (.inl hexit)
      · exact .inr (.inr (.inl htree))
      · exact .inr (.inr (.inr (hbehind hmade)))
  · rcases k.handed l hl with hown | hmade
    · exact (h.lent hown).imp_right hbefore
    · exact .inr (hbehind hmade)

theorem emit {i : Instr} (hi : ∀ l ∈ i.labels, l ∈ own ∨ exit = some l) :
    Names tree own exit [] s { s with builder := s.builder.emit i } := by
  refine ⟨rfl, fun p j hp hj => ?_, fun _ h => absurd h List.not_mem_nil⟩
  rw [Builder.emit, Array.getElem?_push] at hj
  split at hj
  · cases hj
    exact fun l hl => (hi l hl).imp_right .inl
  · exact absurd (Array.getElem?_eq_some_iff.mp hj).1 (Nat.not_lt.mpr hp)

/-- An instruction becomes another one that names no label. -/
theorem patch (h : Names tree own exit handed s t) {position : Nat} {i : Instr} (hi : i.labels = []) :
    Names tree own exit handed s { t with builder := t.builder.patch position i } := by
  refine ⟨h.table, fun p j hp hj => ?_, h.handed⟩
  rw [Builder.patch, Array.getElem?_setIfInBounds] at hj
  split at hj
  · split at hj
    · cases hj
      simp [hi]
    · cases hj
  · exact h.code p j hp hj

end Names

end Emission

namespace Emit

variable {α β : Type} {tree : Label → Prop} {own : List Label} {exit : Option Label}

/-! ## Emitters without code -/

/-- The emitter adds no code, and makes no label of the tree known. -/
def Codeless (x : Emit α) : Prop :=
  ∀ setting s t a, x.run setting s = .ok a t →
    t.labels = s.labels ∧ t.builder.code = s.builder.code

theorem codeless_read {f : Setting → Emission → Except CompileError α} : Codeless (read f) := by
  intro setting s t a hrun
  simp only [read] at hrun
  split at hrun
  · cases hrun
    exact ⟨rfl, rfl⟩
  · cases hrun

theorem codeless_newLabel : Codeless newLabel := by
  intro setting s t l hrun
  cases hrun
  exact ⟨rfl, rfl⟩

/-- A mark adds no code. -/
theorem codeless_mark {l : Label} : Codeless (mark l) := by
  intro setting s t a hrun
  simp only [mark] at hrun
  split at hrun
  · next b hmark =>
      cases hrun
      obtain ⟨-, rfl⟩ := Builder.markLabel_eq hmark
      exact ⟨rfl, rfl⟩
  · cases hrun

theorem codeless_temp {ty : Ty} : Codeless (temp ty) := by
  intro setting s t slot hrun
  simp only [temp] at hrun
  cases hrun
  exact ⟨rfl, SlotPool.acquire_code _ _ _⟩

theorem codeless_addRegion {g : Region Label} : Codeless (addRegion g) := by
  intro setting s t a hrun
  cases hrun
  exact ⟨rfl, rfl⟩

theorem codeless_helper {kind : HelperKind} {elem : Ty} : Codeless (helper kind elem) := by
  intro setting s t i hrun
  simp only [helper] at hrun
  cases hrun
  exact ⟨rfl, Builder.addChild_code _ _⟩

theorem codeless_nestedUnit {l : Lambda Node} : Codeless (nestedUnit l) := by
  intro setting s t i hrun
  simp only [nestedUnit] at hrun
  split at hrun
  · cases hrun
    exact ⟨rfl, Builder.addChild_code _ _⟩
  · cases hrun

/-! ## Emitters that name what is lent -/

/-- Every successful run names labels only that may be named, and its result has the property. -/
def NamesLent (tree : Label → Prop) (own : List Label) (exit : Option Label) (x : Emit α)
    (handed : α → List Label) (Q : α → Prop) : Prop :=
  ∀ setting s t a, x.run setting s = .ok a t → s.Tabled tree →
    Emission.Names tree own exit (handed a) s t ∧ Q a

namespace NamesLent

variable {x : Emit α} {handed : α → List Label} {Q : α → Prop}

theorem of_codeless (hx : Codeless x)
    (hQ : ∀ setting s t a, x.run setting s = .ok a t → s.Tabled tree → Q a) :
    NamesLent tree own exit x (fun _ => []) Q := fun setting s t a hrun hs =>
  have h := hx setting s t a hrun
  ⟨.of_eq h.1 h.2 fun _ h => absurd h List.not_mem_nil, hQ setting s t a hrun hs⟩

/-- One emitter after the other. -/
theorem bind {f : α → Emit β} {handed' : β → List Label} {P : α → Prop} {Q : β → Prop}
    (hx : NamesLent tree own exit x handed P)
    (hf : ∀ a, P a → NamesLent tree (handed a ++ own) exit (f a) handed' Q) :
    NamesLent tree own exit (x >>= f) handed' Q := by
  intro setting s t b hrun hs
  obtain ⟨a, u, hxu, hfu⟩ := run_bind hrun
  obtain ⟨hsu, hP⟩ := hx _ _ _ _ hxu hs
  have hu : u.Tabled tree := by
    unfold Emission.Tabled
    rw [hsu.table]
    exact hs
  obtain ⟨hut, hQ⟩ := hf a hP _ _ _ _ hfu hu
  exact ⟨.trans (x.grows hxu) ((f a).grows hfu) hsu hut, hQ⟩

theorem read {f : Setting → Emission → Except CompileError α}
    (h : ∀ setting s a, f setting s = .ok a → s.Tabled tree → Q a) :
    NamesLent tree own exit (Emit.read f) (fun _ => []) Q :=
  of_codeless codeless_read fun setting s t a hrun hs => by
    simp only [Emit.read] at hrun
    split at hrun
    · next hf =>
        cases hrun
        exact h setting s a hf hs
    · cases hrun

theorem instr {i : Instr}
    (hi : ∀ l ∈ i.labels, l ∈ own ∨ (exit = some l ∧ i.isJump = false)) :
    NamesLent tree own exit (Emit.instr i) (fun _ => []) fun _ => True := by
  intro setting s t a hrun _
  cases hrun
  exact ⟨.emit fun l hl => (hi l hl).imp_right And.left, trivial⟩

/-- A placeholder, and what may become of it. -/
theorem reserved {fill : α → Option Instr} (hfill : ∀ a i, fill a = some i → i.labels = [])
    (hx : NamesLent tree own exit x handed Q) :
    NamesLent tree own exit (Emit.reserved x fill) handed Q := by
  intro setting s t a hrun hs
  simp only [Emit.reserved] at hrun
  split at hrun
  · next b u hxu =>
      obtain ⟨hbody, hQ⟩ := hx _ _ _ _ hxu hs
      have hnop : Emission.Names tree own exit [] s { s with builder := s.builder.emit .nop } :=
        .emit fun _ hl => absurd hl List.not_mem_nil
      have hu := hnop.trans (.emit s .nop) (x.grows hxu) hbody
      split at hrun
      · next i hi =>
          cases hrun
          exact ⟨hu.patch (hfill _ _ hi), hQ⟩
      · cases hrun
        exact ⟨hu, hQ⟩
  · cases hrun

theorem newLabel : NamesLent tree own exit Emit.newLabel (fun l => [l]) fun _ => True := by
  intro setting s t l hrun _
  cases hrun
  refine ⟨.of_eq rfl rfl fun l hl => .inr ?_, trivial⟩
  rw [List.mem_singleton.mp hl]
  simp [Builder.Makes, Builder.defineLabel]

/-- A section with temporaries of its own. -/
theorem withTemps (hx : NamesLent tree own exit x handed Q) :
    NamesLent tree own exit (Emit.withTemps x) handed Q := by
  intro setting s t a hrun hs
  simp only [Emit.withTemps] at hrun
  split at hrun
  · next u hxu =>
      cases hrun
      obtain ⟨hu, hQ⟩ := hx _ _ _ _ hxu hs
      exact ⟨⟨hu.table, hu.code, hu.handed⟩, hQ⟩
  · cases hrun

/-- A section with variables in scope. -/
theorem inScope {vars : Scope} (hx : NamesLent tree own exit x handed Q) :
    NamesLent tree own exit (Emit.inScope vars x) handed Q := by
  intro setting s t a hrun hs
  simp only [Emit.inScope] at hrun
  split at hrun
  · next u hxu =>
      cases hrun
      obtain ⟨hu, hQ⟩ := hx _ _ _ _ hxu hs
      exact ⟨⟨hu.table, hu.code, hu.handed⟩, hQ⟩
  · cases hrun

end NamesLent

/-- The rules of emitters that name labels only that may be named. -/
def namingRules (tree : Label → Prop) : Rules where
  Holds := NamesLent tree
  Slot _ := True
  Arg _ := True
  Child _ := True
  pure hQ hhanded setting s t a hrun _ := by
    cases hrun
    exact ⟨.of_eq rfl rfl fun l hl => .inl (hhanded l hl), hQ⟩
  bind := NamesLent.bind
  weaken hx hown hexit hQ setting s t a hrun hs :=
    let ⟨ht, ha⟩ := hx setting s t a hrun hs
    ⟨ht.weaken hown fun l hl => .inr (hexit l hl), hQ a ha⟩
  fail _ _ _ _ _ hrun := nomatch hrun
  read _ := .read fun _ _ _ _ _ => trivial
  instr _ hi := .instr hi.labels
  newLabel := NamesLent.newLabel
  mark _ := .of_codeless codeless_mark fun _ _ _ _ _ _ => trivial
  temp := .of_codeless codeless_temp fun _ _ _ _ _ _ => trivial
  withTemps := NamesLent.withTemps
  varSlot := .read fun _ _ v _ _ => by
    obtain ⟨slot, ty⟩ := v
    cases slot <;> exact trivial
  helper := .of_codeless codeless_helper fun _ _ _ _ _ _ => trivial

theorem scopes_naming (tree : Label → Prop) : (namingRules tree).AllowsScopes :=
  fun _ => NamesLent.inScope

theorem placeholders_naming (tree : Label → Prop) : (namingRules tree).AllowsPlaceholders where
  lend hpad hx setting s t a hrun hs :=
    let ⟨ht, ha⟩ := hx setting s t a hrun hs
    ⟨ht.weaken (fun _ h => h) fun _ hl => .inl (Option.some.inj hl ▸ hpad), ha⟩
  reserved hfill := NamesLent.reserved fun a i hi =>
    List.eq_nil_iff_forall_not_mem.mpr fun l hl => (hfill a i hi).2.labels l hl
  resetStack _ := NamesLent.instr fun _ hl => absurd hl List.not_mem_nil

theorem lax_naming (tree : Label → Prop) : (namingRules tree).Lax := fun _ hi => .instr hi.labels

/-- The policy of emitters that name labels only that may be named. -/
def naming (tree : Label → Prop) : Policy :=
  (namingRules tree).policy (lax_naming tree) (scopes_naming tree) (placeholders_naming tree)
    (NamesLent.read fun _ _ _ _ _ _ _ _ => trivial)

/-- A label of the tree may be lent to anyone. -/
theorem NamesLent.lend {x : Emit α} {l : Label} (hl : tree l)
    (hx : (naming tree).Ok (l :: own) exit x) : (naming tree).Ok own exit x := by
  intro setting s t a hrun hs
  obtain ⟨ht, -⟩ := hx setting s t a hrun hs
  refine ⟨⟨ht.table, fun p i hp hi m hm => ?_, fun _ h => absurd h List.not_mem_nil⟩, trivial⟩
  rcases ht.code p i hp hi m hm with hown | hrest
  · rcases List.mem_cons.mp hown with rfl | hown
    · exact .inr (.inr (.inl hl))
    · exact .inl hown
  · exact .inr hrest

theorem labelled_naming (tree : Label → Prop) : (naming tree).Labelled tree True :=
  .of_lent
    (.read fun setting s info hinfo hs => by
      split at hinfo
      · next hlookup =>
          cases hinfo
          exact ⟨hs _ _ hlookup, fun _ _ => trivial⟩
      · cases hinfo)
    NamesLent.lend

/-- Protected blocks may be opened. -/
theorem permissive_naming (tree : Label → Prop) : (naming tree).Permissive where
  inRegion hx setting s t a hrun hs := by
    simp only [inRegion] at hrun
    split at hrun
    · next u hxu =>
        cases hrun
        obtain ⟨hu, -⟩ := hx _ _ _ _ hxu hs
        exact ⟨⟨hu.table, hu.code, hu.handed⟩, trivial⟩
    · cases hrun
  addRegion _ _ := .of_codeless codeless_addRegion fun _ _ _ _ _ _ => trivial

theorem names_nestedUnit {l : Lambda Node} :
    (naming tree).Yields own exit (nestedUnit l) fun _ => True :=
  .of_codeless codeless_nestedUnit fun _ _ _ _ _ _ => trivial

theorem names_tree (e : Expr) (tree : Label → Prop) : e.toNode.Keeps (naming tree) := by
  induction e using Expr.induct with
  | node kind ty ih =>
      exact (labelled_naming tree).node trivial (fun e he => ih e (ExprKind.mem_operands he))
        (fun _ _ _ _ => trivial) (fun _ _ _ _ _ => (permissive_naming tree).protects _ _ _ _)
        fun l _ => Policy.function (Rules.Lax.loose (lax_naming tree)) (fun _ _ h => h) names_nestedUnit

end Emit

end Arbor
