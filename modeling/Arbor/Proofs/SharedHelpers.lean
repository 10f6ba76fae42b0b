/-
  Compilations that share their helpers.

  A compilation starts with the helpers that earlier ones have made and leaves its
  own to later ones.  As every helper is the routine that its key names, it makes no
  difference which of them are there: two emissions that differ in their caches only
  come to the same outcome, whether they succeed or fail.
-/
import Arbor.Proofs.Emission.Tracking

set_option autoImplicit false

namespace Arbor

/-- The state with other helpers at hand. -/
def Emission.withHelpers (s : Emission) (c : HelperCache) : Emission :=
  { s with session := { s.session with helpers := c } }

namespace Emit

variable {α β : Type}

/-- The outcomes differ in their helpers only, and these are sound on both sides. -/
inductive Alike (Q : α → Prop) : EmitResult α → EmitResult α → Prop
  | ok {a : α} {t : Emission} {c : HelperCache} : Q a → t.session.helpers.Sound → c.Sound →
      Alike Q (.ok a t) (.ok a (t.withHelpers c))
  | error {e : CompileError} {t : Emission} {c : HelperCache} : t.session.helpers.Sound → c.Sound →
      Alike Q (.error e t) (.error e (t.withHelpers c))

/-- The emitter comes to the same outcome whatever helpers are at hand. -/
def Ignores (x : Emit α) (Q : α → Prop) : Prop :=
  ∀ setting s c, s.session.helpers.Sound → c.Sound →
    Alike Q (x.run setting s) (x.run setting (s.withHelpers c))

section

variable {x : Emit α} {Q : α → Prop} {setting : Setting} {s t : Emission} {c : HelperCache}

/-- An emitter that succeeds does so with other helpers as well. -/
theorem Ignores.ok (hx : Ignores x Q) {a : α} (hrun : x.run setting s = .ok a t)
    (hs : s.session.helpers.Sound) (hc : c.Sound) :
    ∃ d, x.run setting (s.withHelpers c) = .ok a (t.withHelpers d) ∧ Q a ∧
      t.session.helpers.Sound ∧ d.Sound := by
  have hboth := hx setting s c hs hc
  rw [hrun] at hboth
  generalize x.run setting (s.withHelpers c) = r at hboth ⊢
  cases hboth with
  | ok hQ ht hd => exact ⟨_, rfl, hQ, ht, hd⟩

/-- An emitter that fails does so with other helpers as well. -/
theorem Ignores.error (hx : Ignores x Q) {e : CompileError} (hrun : x.run setting s = .error e t)
    (hs : s.session.helpers.Sound) (hc : c.Sound) :
    ∃ d, x.run setting (s.withHelpers c) = .error e (t.withHelpers d) ∧
      t.session.helpers.Sound ∧ d.Sound := by
  have hboth := hx setting s c hs hc
  rw [hrun] at hboth
  generalize x.run setting (s.withHelpers c) = r at hboth ⊢
  cases hboth with
  | error ht hd => exact ⟨_, rfl, ht, hd⟩

/-- An emitter that reads what units do not share. -/
theorem Ignores.read {f : Setting → Emission → Except CompileError α}
    (hf : ∀ setting s session, f setting { s with session := session } = f setting s)
    (hQ : ∀ setting s a, f setting s = .ok a → Q a) : Ignores (Emit.read f) Q := by
  intro setting s c hs hc
  have hsame : f setting (s.withHelpers c) = f setting s := hf _ _ _
  simp only [Emit.read, hsame]
  split
  · next h => exact .ok (hQ _ _ _ h) hs hc
  · exact .error hs hc

/-- An emitter around another one, which it runs from a changed state on, and whose final state it
changes. -/
theorem Ignores.around {P : α → Prop} {y : Emit α} (hx : Ignores x P)
    (before : Emission → Emission) (after : Emission → α → Emission → Emission)
    (failed : Emission → Emission → Emission)
    (hrun : ∀ setting s, y.run setting s =
      match x.run setting (before s) with
      | .ok a t => .ok a (after s a t)
      | .error e t => .error e (failed s t))
    (hbefore : ∀ s c, before (s.withHelpers c) = (before s).withHelpers c)
    (hafter : ∀ s a t c d, after (s.withHelpers c) a (t.withHelpers d) = (after s a t).withHelpers d)
    (hfailed : ∀ s t c d, failed (s.withHelpers c) (t.withHelpers d) = (failed s t).withHelpers d)
    (hkept : ∀ s, (before s).session = s.session ∧ (∀ a t, (after s a t).session = t.session) ∧
      ∀ t, (failed s t).session = t.session) (hQ : ∀ a, P a → Q a) : Ignores y Q := by
  intro setting s c hs hc
  obtain ⟨hstart, hend, hfail⟩ := hkept s
  rw [hrun, hrun, hbefore]
  cases hxs : x.run setting (before s) with
  | ok a t =>
      obtain ⟨d, hxd, hP, ht, hd⟩ := hx.ok hxs (by rwa [hstart]) hc
      simp only [hxd, hafter]
      exact .ok (hQ a hP) (by rwa [hend]) hd
  | error e t =>
      obtain ⟨d, hxd, ht, hd⟩ := hx.error hxs (by rwa [hstart]) hc
      simp only [hxd, hfailed]
      exact .error (by rwa [hfail]) hd

end

/-- The rules of emitters that ignore which helpers are at hand. -/
def ignoringRules : Rules where
  Holds _ _ x _ Q := Ignores x Q
  Slot _ := True
  Arg _ := True
  Child _ := True
  pure hQ _ _ _ _ hs hc := .ok hQ hs hc
  bind {_ _ _ _ x f _ _ _ _} hx hf setting s c hs hc := by
    change Alike _ (match x.run setting s with
      | .ok a t => (f a).run setting t
      | .error e t => .error e t) (match x.run setting (s.withHelpers c) with
      | .ok a t => (f a).run setting t
      | .error e t => .error e t)
    cases hxs : x.run setting s with
    | ok a t =>
        obtain ⟨d, hxd, hP, ht, hd⟩ := hx.ok hxs hs hc
        rw [hxd]
        exact hf a hP setting t d ht hd
    | error e t =>
        obtain ⟨d, hxd, ht, hd⟩ := hx.error hxs hs hc
        rw [hxd]
        exact .error ht hd
  weaken hx _ _ hQ setting s c hs hc := by
    have hboth := hx setting s c hs hc
    revert hboth
    generalize Emit.run _ setting s = r
    generalize Emit.run _ setting (s.withHelpers c) = r'
    intro hboth
    cases hboth with
    | ok hP ht hd => exact .ok (hQ _ hP) ht hd
    | error ht hd => exact .error ht hd
  fail _ _ _ _ hs hc := .error hs hc
  read hf := .read (fun setting s session => congrArg Except.ok (hf setting s session))
    fun _ _ _ _ => trivial
  instr _ _ _ _ _ hs hc := .ok trivial hs hc
  newLabel _ _ _ hs hc := .ok trivial hs hc
  mark {_ _ l} _ setting s c hs hc := by
    change Alike _ (match s.builder.markLabel l with
      | .ok builder => .ok () { s with builder }
      | .error e => .error (.build e) s) (match s.builder.markLabel l with
      | .ok builder => .ok () ({ s with builder }.withHelpers c)
      | .error e => .error (.build e) (s.withHelpers c))
    split
    · exact .ok trivial hs hc
    · exact .error hs hc
  temp _ _ _ hs hc := .ok trivial hs hc
  withTemps hx :=
    hx.around id (fun s _ t => t.releaseTo s.pool.live.length) (fun s t => t.releaseTo s.pool.live.length)
      (fun _ _ => rfl) (fun _ _ => rfl) (fun _ _ _ _ _ => rfl) (fun _ _ _ _ => rfl)
      (fun _ => ⟨rfl, fun _ _ => rfl, fun _ => rfl⟩) fun _ h => h
  varSlot := .read (fun _ _ _ => rfl) fun _ _ v _ => by
    obtain ⟨slot, ty⟩ := v
    cases slot <;> exact trivial
  helper {_ _ kind elem} _ s c hs hc := by
    obtain ⟨hroutine, hsound⟩ := hs.get kind elem
    obtain ⟨hroutine', hsound'⟩ := hc.get kind elem
    simp only [helper, Emission.withHelpers, hroutine, hroutine']
    exact .ok trivial hsound hsound'

/-- Variables may be in scope. -/
theorem scopes_ignoring : ignoringRules.AllowsScopes := fun {_ _ _ vars _ _ _} _ hx =>
  hx.around (fun s => { s with scope := vars.reverse ++ s.scope })
    (fun s _ t => { t with scope := s.scope }) (fun s t => { t with scope := s.scope })
    (fun _ _ => rfl) (fun _ _ => rfl) (fun _ _ _ _ _ => rfl) (fun _ _ _ _ => rfl)
    (fun _ => ⟨rfl, fun _ _ => rfl, fun _ => rfl⟩) fun _ h => h

/-- Placeholders are allowed. -/
theorem placeholders_ignoring : ignoringRules.AllowsPlaceholders where
  lend _ hx := hx
  reserved {_ _ _ x fill _ _} _ hx :=
    hx.around (fun s => { s with builder := s.builder.emit .nop })
      (fun s a t =>
        (fill a).elim t fun i => { t with builder := t.builder.patch s.builder.position i })
      (fun _ t => t)
      (fun setting s => by
        simp only [reserved]
        generalize x.run setting { s with builder := s.builder.emit .nop } = outcome
        cases outcome with
        | ok a t =>
            dsimp only
            cases fill a <;> rfl
        | error e t => rfl)
      (fun _ _ => rfl) (fun _ a _ _ _ => by cases fill a <;> rfl) (fun _ _ _ _ => rfl)
      (fun _ => ⟨rfl, fun a _ => by cases fill a <;> rfl, fun _ => rfl⟩) fun _ h => h
  resetStack _ _ _ _ hs hc := .ok trivial hs hc

theorem lax_ignoring : ignoringRules.Lax := fun _ _ _ _ _ hs hc => .ok trivial hs hc

/-- The policy of emitters that ignore which helpers are at hand. -/
def ignoring : Policy :=
  ignoringRules.policy lax_ignoring scopes_ignoring placeholders_ignoring
    (Ignores.read (fun _ _ _ => rfl) fun _ _ _ _ _ _ _ => trivial)

theorem labelled_ignoring : ignoring.Labelled (fun _ => True) True :=
  .of_lent (.read (fun _ _ _ => rfl) fun _ _ _ _ => ⟨trivial, fun _ _ => trivial⟩) fun _ hx => hx

/-- Protected blocks may be opened. -/
theorem permissive_ignoring : ignoring.Permissive where
  inRegion hx :=
    hx.around (fun s => { s with tryDepth := s.tryDepth + 1 })
      (fun s _ t => { t with tryDepth := s.tryDepth }) (fun _ t => t)
      (fun setting s => by
        simp only [inRegion]
        generalize Emit.run _ setting { s with tryDepth := s.tryDepth + 1 } = outcome
        cases outcome <;> rfl)
      (fun _ _ => rfl) (fun _ _ _ _ _ => rfl) (fun _ _ _ _ => rfl)
      (fun _ => ⟨rfl, fun _ _ => rfl, fun _ => rfl⟩) fun _ h => h
  addRegion _ _ _ _ _ hs hc := .ok trivial hs hc

/-- A function, if its body ignores the helpers. -/
theorem ignores_unitBody {l : Lambda Node} (hbody : l.body.Keeps ignoring) :
    Ignores (unitBody l) fun _ => True := by
  refine Policy.unitBody (P := ignoring) scopes_ignoring ?_ ?_ (fun _ _ => trivial) hbody
  · intro own id info setting s c hs hc
    change Alike _ (if (s.labels.lookup id).isSome then .ok () s
      else .ok () { s with labels := (id, info) :: s.labels })
      (if (s.labels.lookup id).isSome then .ok () (s.withHelpers c)
      else .ok () ({ s with labels := (id, info) :: s.labels }.withHelpers c))
    split
    · exact .ok trivial hs hc
    · exact .ok trivial hs hc
  · intro setting s c hs hc
    simp only [finishUnit, Emission.withHelpers]
    split
    · exact .ok trivial hs hc
    · exact .error hs hc

/-- Trees ignore the helpers. -/
theorem ignores_tree (e : Expr) : e.toNode.Keeps ignoring := by
  induction e using Expr.induct with
  | node k ty ih =>
      refine labelled_ignoring.node trivial (fun e he => ih e ?_) (fun _ _ _ _ => trivial)
        (fun _ _ _ _ _ => permissive_ignoring.protects _ _ _ _) fun l hl =>
        Policy.function (Rules.Lax.loose lax_ignoring) (fun _ _ h => h) fun setting s c hs hc => ?_
      · cases k <;> first | exact he | cases he
      · subst hl
        have hunit := ignores_unitBody (l := l.map Expr.toNode) (ih l.body List.mem_cons_self)
        have hstart : unitStart (l.map Expr.toNode) (s.withHelpers c).session =
            (unitStart (l.map Expr.toNode) s.session).withHelpers c := rfl
        simp only [nestedUnit, hstart]
        cases hrun : (unitBody (l.map Expr.toNode)).run setting
            (unitStart (l.map Expr.toNode) s.session) with
        | ok R inner =>
            obtain ⟨d, hother, -, ht, hd⟩ := hunit.ok hrun hs hc
            simp only [hother]
            exact .ok trivial ht hd
        | error e inner =>
            obtain ⟨d, hother, ht, hd⟩ := hunit.error hrun hs hc
            simp only [hother]
            exact .error ht hd

end Emit

/-- Two sound caches make no difference to a compilation. -/
theorem compileWith_congr {c c' : HelperCache} (hc : c.Sound) (hc' : c'.Sound) (setting : Setting)
    (l : Lambda Expr) :
    (compileWith c' setting l).result = (compileWith c setting l).result ∧
      (compileWith c' setting l).finished = (compileWith c setting l).finished := by
  have hunit := Emit.ignores_unitBody (l := l.map Expr.toNode) (Emit.ignores_tree l.body)
  have hstart : Emit.unitStart (l.map Expr.toNode) ⟨c', #[]⟩ =
      (Emit.unitStart (l.map Expr.toNode) ⟨c, #[]⟩).withHelpers c' := rfl
  simp only [compileWith, hstart]
  cases hrun : (Emit.unitBody (l.map Expr.toNode)).run setting
      (Emit.unitStart (l.map Expr.toNode) ⟨c, #[]⟩) with
  | ok R t =>
      obtain ⟨d, hother, -⟩ := hunit.ok hrun hc hc'
      rw [hother]
      exact ⟨rfl, rfl⟩
  | error e t =>
      obtain ⟨d, hother, -⟩ := hunit.error hrun hc hc'
      rw [hother]
      exact ⟨rfl, rfl⟩

/-- Earlier compilations, of whatever functions under whatever settings, whether they succeeded or
failed, make no difference to a compilation: it ends with the same error, or with the same routine and
the same units in the same order, as without the helpers they left.  Of these, no two have one key, and
each is the routine that its key names. -/
theorem compileWith_eq_compile {helpers : HelperCache} (h : helpers.Filled) (setting : Setting)
    (l : Lambda Expr) :
    (compileWith helpers setting l).result = (compile setting l).result ∧
      (compileWith helpers setting l).finished = (compile setting l).finished ∧
      (helpers.entries.map Prod.fst).Nodup ∧ ∀ e ∈ helpers.entries, e.2 = e.1.1.routine e.1.2 := by
  obtain ⟨hresult, hfinished⟩ := compileWith_congr HelperCache.Filled.empty.sound h.sound setting l
  exact ⟨hresult, hfinished, h.nodup, h.sound⟩

/-- Stores a value behind the first item of an array, which grows if it has to. -/
def growingStore (elem : Ty) (value : Expr) : Lambda Expr :=
  let item : Expr := .node (.index (.node (.parameter 0) (.array elem))
    [.node (.constant (.num (.i32 1))) .int] none) elem
  ⟨"grow", [⟨0, "a", .array elem⟩], elem, .node (.assign .assign item (some value) false true) elem,
    ⟨false, false⟩⟩

/-- A compilation that succeeds and one that fails, for a value that is out of scope, leave a helper
each, and another one comes to what it does without them. -/
theorem compileWith_growingStore :
    let setting : Setting := ⟨.builtin, .default⟩
    let store := growingStore .int (.node (.constant (.num (.i32 1))) .int)
    let unbound := growingStore .bool (.node (.parameter 7) .bool)
    let helpers := (compileWith (compile setting store).helpers setting unbound).helpers
    (compile setting unbound).result.toOption.isNone = true ∧ helpers.size = 2 ∧
      (compile setting store).result.toOption.isSome = true ∧
      (compileWith helpers setting store).result = (compile setting store).result := by
  intro setting store unbound helpers
  refine ⟨by decide +kernel, by decide +kernel, by decide +kernel, ?_⟩
  exact (compileWith_eq_compile (.compiled _ _ (.compiled _ _ .empty)) setting store).1

end Arbor
