/-
  Landing pads of compiled functions.

  What is emitted with an exit reports whether it names that exit.  So the landings
  of a function are set up where some branch leads to their pads: the depth of the
  stack is recorded in front of what may leave early, and the pad cuts the stack
  down to that depth.
-/
import Arbor.Proofs.Emission.Landings

set_option autoImplicit false

namespace Arbor

/-! ## Functions -/

/-- The code of a function is emitted from a prepared state: its parameters are arguments, and its
labels are in the builder. -/
theorem Emit.prepared_of_run {l : Lambda Node} {setting : Setting} {session : Session} {scope : Scope}
    {count index : Nat} {params : List Variable} {ts : List (LabelTarget × Nat)} {s : Emission}
    (hscope : paramScope count index params = .ok scope)
    (hlabels : (ts.forM fun (target, depth) => defineTarget target depth).run setting
      { unitStart l session with scope := scope.reverse } = .ok () s)
    (hlimit : s.builder.locals.size ≤ Builder.slotLimit) :
    s.Prepared (·.index < s.builder.labels.size) [] none := by
  have hblank := (blank_unitStart l session _).defineTargets hlabels
  have hgrows := Emit.grows _ hlabels
  refine ⟨hgrows.tidy hlimit SlotPool.tidy_empty, fun id info h => hblank.table id info h,
    fun l hl => ?_, fun v hv n hn => ?_, hblank.values⟩
  · simpa using hl
  · rw [hgrows.scope, paramScope_eq hscope, List.mem_reverse] at hv
    obtain ⟨i, hi, rfl⟩ := List.mem_mapIdx.mp hv
    cases hn

/-- The landings of the routine of a function: each belongs to a part of the function, and is set up if
that part reported its exit; they account for all placeholders that are left, all cuts of the stack, and
all labels that checks for null and of indices take. -/
structure Routine.Landings (R : Routine) (setting : Setting) (l : Lambda Expr) (ds : List Landing) :
    Prop where
  settled : ∀ d ∈ ds, (d.Stems ⟨setting, (·.Part l.body)⟩ R.code true ∧
      ∃ pad, R.target? d.pad = some pad ∧ d.Guards R.code pad) ∨
    (d.Stems ⟨setting, (·.Part l.body)⟩ R.code false ∧ d.Idles R.code 0)
  placeholders : ∀ p, R.code[p]? = some .nop → ∃ d ∈ ds, d.placeholder = p
  cuts : ∀ p n, R.code[p]? = some (.resetStack n) → ∃ d ∈ ds, R.target? d.pad = some p ∧ d.mark = n
  checks : ∀ p l, Landing.CheckAt R.code p l → ∃ d ∈ ds, d.pad = l
  testsOn : ∀ p l, Landing.CheckAt R.code p l → R.code[p]? = some (.compare .lt) →
    Landing.TestsOn R.code (p + 1) l

/-- A landing is set up where some branch leads to its pad. -/
theorem Routine.Landings.guards {R : Routine} {setting : Setting} {l : Lambda Expr} {ds : List Landing}
    (h : R.Landings setting l ds) {d : Landing} (hd : d ∈ ds) {p : Nat} {i : Instr}
    (hi : R.code[p]? = some i) (hpad : d.pad ∈ i.labels) :
    ∃ pad, R.target? d.pad = some pad ∧ d.Guards R.code pad := by
  rcases h.settled d hd with ⟨-, hguards⟩ | ⟨-, hidles⟩
  · exact hguards
  · exact absurd hpad (hidles.unnamed p i (Nat.zero_le _) hi)

/-- The routine of a function has its landings, as long as its slots can be numbered. -/
theorem Emit.exists_landings {l : Lambda Expr} {setting : Setting} {session : Session} {R : Routine}
    {t : Emission} (hrun : (unitBody (l.map Expr.toNode)).run setting
      (unitStart (l.map Expr.toNode) session) = .ok R t)
    (hlimit : R.locals.size ≤ Builder.slotLimit) : ∃ ds, R.Landings setting l ds := by
  obtain ⟨scope, s, u, key, hscope, hlabels, hcode, hfinish, -⟩ := run_unitBody hrun
  obtain ⟨hsame, hlocals, -, -, hmarks, -⟩ := Builder.finish_eq hfinish
  rw [hlocals] at hlimit
  have hs := prepared_of_run hscope hlabels
    (Nat.le_trans ((functionCode _).grows hcode).locals_le hlimit)
  have hstart : s.builder.position = 0 := by
    simp [Builder.position, ((blank_unitStart _ session _).defineTargets hlabels).code]
  let P : Policy := landing ⟨setting, (·.Part l.body)⟩ (·.index < s.builder.labels.size)
  have hbody : (l.map Expr.toNode).body.Keeps P := lands_tree l.body _ fun _ hpart => hpart
  have hkeeps : P.Ok [] none (functionCode (l.map Expr.toNode)) := Policy.functionCode hbody
  obtain ⟨-, hsets⟩ := hkeeps
  obtain ⟨ds, hds⟩ := hsets _ _ _ hcode hlimit hs
  have htarget : ∀ {d : Landing} {pad : Nat}, u.builder.labels[d.pad.index]? = some (some pad) →
      R.target? d.pad = some pad := fun h => hmarks _ _ h
  have htakes : ∀ p l, Landing.CheckAt R.code p l → Landing.Takes none ds R.code p l := by
    intro p l hcheck
    rw [hsame] at hcheck ⊢
    exact hds.checks p l (hstart ▸ Nat.zero_le _) hcheck
  refine ⟨ds, fun d hd => ?_, fun p hp => ?_, fun p n hp => ?_, fun p l hcheck => ?_,
    fun p l hcheck => (htakes p l hcheck).testsOn⟩
  · have hsettled := hds.settled d hd
    rw [hstart] at hsettled
    rw [hsame]
    rcases hsettled with ⟨hstems, pad, hpad, hguards⟩ | hidles
    · exact .inl ⟨hstems, pad, htarget hpad, hguards⟩
    · exact .inr hidles
  · obtain ⟨d, hd, howns⟩ := hds.covers p _ (hstart ▸ Nat.zero_le _) (hsame ▸ hp) rfl
    exact ⟨d, hd, howns.symm⟩
  · obtain ⟨d, hd, hpad, hmark⟩ := hds.covers p _ (hstart ▸ Nat.zero_le _) (hsame ▸ hp) rfl
    exact ⟨d, hd, htarget hpad, hmark.symm⟩
  · exact (htakes p l hcheck).lands.resolve_left (Option.some_ne_none l).symm

/-! ## Reported exits -/

/-- **Exits are reported.**  A tree that does not report the exit that was lent to it names that exit
nowhere in its code; the exit has been made before, and is no label of the tree.  So in every routine
of a compiled function whose slots can be numbered, each landing whose pad some branch leads to has its
depth recorded at the placeholder, in a local that nothing names up to the pad, and the pad cuts the
stack down to it.  Every check for null or of an index leads to the pad of such a landing. -/
theorem exits_reported :
    (∀ (e : Expr) (x : Label) (shape : Shape) (extend : Bool) (setting : Setting) (s t : Emission)
        (a : Emitted), (e.toNode.emit (some x) shape extend).run setting s = .ok a t →
      x.index < s.builder.labels.size → (∀ id info, s.labels.lookup id = some info → info.label ≠ x) →
      a.usedExit = false → ∀ p i, s.position ≤ p → t.builder.code[p]? = some i → x ∉ i.labels) ∧
    ∀ (helpers : HelperCache) (setting : Setting) (f : Lambda Expr) (c : CompiledUnit),
      (compileWith helpers setting f).result = .ok c →
      ∀ R ∈ c.routine :: c.units, R.locals.size ≤ Builder.slotLimit →
        ∃ l ∈ f :: f.body.functions, ∃ setting' session finish,
          (Emit.unitBody (l.map Expr.toNode)).run setting'
            (Emit.unitStart (l.map Expr.toNode) session) = .ok R finish ∧
          ∃ ds, R.Landings setting' l ds ∧
            (∀ d ∈ ds, (∃ (p : Nat) (i : Instr), R.code[p]? = some i ∧ d.pad ∈ i.labels) →
              ∃ pad, R.target? d.pad = some pad ∧ d.Guards R.code pad) ∧
            ∀ p l, Landing.CheckAt R.code p l →
              ∃ d ∈ ds, ∃ pad, d.pad = l ∧ R.target? l = some pad ∧ d.Guards R.code pad := by
  refine ⟨fun e x shape extend setting s t a hrun hmade htable hused => ?_,
    fun helpers setting f c hcompile R hR hlimit => ?_⟩
  · obtain ⟨-, hreport⟩ := (Emit.reports_tree e x).emit [] shape extend List.not_mem_nil _ _ _ _ hrun
      ⟨hmade, htable⟩
    exact (hreport hused).2
  · obtain ⟨l, hl, setting', session, finish, hrun⟩ := compilesTo_of_compiled hcompile R hR
    obtain ⟨ds, hds⟩ := Emit.exists_landings hrun hlimit
    refine ⟨l, hl, setting', session, finish, hrun, ds, hds,
      fun d hd ⟨p, i, hi, hpad⟩ => hds.guards hd hi hpad, fun p l hcheck => ?_⟩
    obtain ⟨d, hd, rfl⟩ := hds.checks p l hcheck
    obtain ⟨i, hi, hpad⟩ := hcheck.names
    obtain ⟨pad, htarget, hguards⟩ := hds.guards hd hi hpad
    exact ⟨d, hd, pad, rfl, htarget, hguards⟩

/-- The first item of an array, which may be absent. -/
def firstItem : Lambda Expr :=
  ⟨"first", [⟨0, "items", .array .int⟩], .int,
    .node (.index (.node (.parameter 0) (.array .int)) [.node (.constant (.num (.i32 0))) .int] none) .int,
    .none⟩

/-- A constant names no exit, and the landing of that function is set up at its pad. -/
theorem firstItem_lands :
    (∃ (s t : Emission) (a : Emitted), s.builder.labels.size = 1 ∧
      ((Expr.node (.constant (.bool true)) .bool).toNode.emit (some ⟨0⟩) .value false).run
        ⟨.builtin, .default⟩ s = .ok a t ∧
      ∀ p i, s.position ≤ p → t.builder.code[p]? = some i → ⟨0⟩ ∉ i.labels) ∧
    ∃ c, (compileWith .empty ⟨.builtin, .default⟩ firstItem).result = .ok c ∧
      ∃ (d : Landing) (pad : Nat), c.routine.target? d.pad = some pad ∧ d.Guards c.routine.code pad := by
  refine ⟨?_, ?_⟩
  · let s : Emission := .start default (Builder.empty "constant" [] .bool).defineLabel.2 .none
    have hrun : ((Expr.node (.constant (.bool true)) .bool).toNode.emit (some ⟨0⟩) .value false).run
        ⟨.builtin, .default⟩ s = .ok _ _ := rfl
    exact ⟨s, _, _, rfl, hrun,
      exits_reported.1 _ _ _ _ _ _ _ _ hrun (by decide) (fun _ _ h => nomatch h) rfl⟩
  · have hfacts : ((compileWith .empty ⟨.builtin, .default⟩ firstItem).result.toOption.map fun c =>
        decide (c.routine.locals.size ≤ Builder.slotLimit ∧ c.routine.labels = #[7, 9] ∧
          c.routine.code[3]?.map Instr.labels = some [⟨0⟩] ∧
          c.routine.code[7]?.map (fun i => (i.isLanding, i.slots)) = some (true, [0]))) = some true := by
      decide +kernel
    cases hc : (compileWith .empty ⟨.builtin, .default⟩ firstItem).result with
    | error e =>
        rw [hc] at hfacts
        cases hfacts
    | ok c =>
        rw [hc] at hfacts
        obtain ⟨hlimit, hlabels, hbranch, hcut⟩ := of_decide_eq_true (Option.some.inj hfacts)
        obtain ⟨l, -, setting, session, finish, -, ds, hds, hguards, -⟩ :=
          exits_reported.2 _ _ _ _ hc c.routine List.mem_cons_self hlimit
        obtain ⟨branch, hbranch, hnames⟩ := Option.map_eq_some_iff.mp hbranch
        obtain ⟨cut, hcut, hkind⟩ := Option.map_eq_some_iff.mp hcut
        have hreset : cut = .resetStack 0 := by
          cases cut <;> simp [Instr.isLanding, Instr.slots] at hkind
          rw [hkind]
        obtain ⟨d, hd, htarget, -⟩ := hds.cuts 7 0 (hreset ▸ hcut)
        have hpad : d.pad = ⟨0⟩ := by
          rw [Routine.target?, hlabels] at htarget
          rcases hindex : d.pad with ⟨_ | _ | index⟩
          · rfl
          all_goals
            rw [hindex] at htarget
            cases htarget
        have hnamed : d.pad ∈ branch.labels := by
          rw [hpad, hnames]
          exact List.mem_cons_self
        exact ⟨c, rfl, d, hguards d hd ⟨3, branch, hbranch, hnamed⟩⟩

end Arbor
