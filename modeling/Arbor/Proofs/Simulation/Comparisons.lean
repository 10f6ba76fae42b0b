/-
  Comparisons of operands that may be absent.

  Equality of operands in temporaries looks at presence first, with a method or
  without one: one instruction sees the values, and it is reached exactly if both
  operands are present.  A chain of a switch has such an equality behind each of its
  tests.  A table looks for null before it looks into the bucket of the value.
-/
import Arbor.Proofs.Simulation.Functions
import Arbor.Proofs.Simulation.Switches
import Arbor.Proofs.Simulation.Treatments

set_option autoImplicit false

namespace Arbor

variable {setting : Setting} {R : Routine} {hR : R.WithinLimits} {start : Nat} {s t : Emission}
  {op : BinaryOp} {method : Option MethodRef} {left right : Operand} {ty : Ty}
  {exit : Option Label}

/-! ## Operands in temporaries -/

namespace BinaryOp

/-- The instruction that sees the values of two present operands of an equality. -/
def consulted (op : BinaryOp) (method : Option MethodRef) : Instr :=
  match method with
  | none => .compare (if op = .eq then .eq else .ne)
  | some m => .call m

/-- The result of an equality of which one operand is absent, or both are. -/
def onMissing (op : BinaryOp) (setting : Setting) (method : Option MethodRef) (ty : Ty)
    (both : Bool) : Except MetadataError Value :=
  match method with
  | none => .ok ((Value.bool (both == decide (op = .eq))).wrapIf ty.isNullable)
  | some _ => setting.registry.zero ty

end BinaryOp

/-- Whether what a method yields on present operands is wrapped. -/
def MethodRef.isWrapped (m : MethodRef) (setting : Setting) (ty : Ty) : Bool :=
  match setting.registry.signature m with
  | .ok sig => ty.isNullable && !sig.ret.isNullable
  | .error _ => false

/-- Whether the result of the instruction that sees the values is wrapped. -/
def Setting.wrapsResult (setting : Setting) (method : Option MethodRef) (ty : Ty) : Bool :=
  match method with
  | none => ty.isNullable
  | some m => m.isWrapped setting ty

/-- The method takes no optionals. -/
def MethodRef.IsPlain (m : MethodRef) (setting : Setting) : Prop :=
  ∀ sig, setting.registry.signature m = .ok sig → (sig.params.any fun p => p.1.isNullable) = false

/-- The code of an equality from `s` to `t` consults the values at one position, and exactly if both
operands are present. -/
structure Consults (setting : Setting) (R : Routine) (op : BinaryOp) (method : Option MethodRef)
    (left right : Operand) (ty : Ty) (s t : Emission) (p : Nat) : Prop where
  inside : s.position ≤ p ∧ p < t.position
  code : R.code[p]? = some (op.consulted method)
  missing : ∀ (span : Span) (a : Around) (m : Memory) (stack : List Value) (x y d : Value),
    m.Temp s left.slot x → m.Temp s right.slot y →
    (x.payloadAt? left.ty).isSome = false ∨ (y.payloadAt? right.ty).isSome = false →
    op.onMissing setting method ty
      ((x.payloadAt? left.ty).isNone && (y.payloadAt? right.ty).isNone) = .ok d →
    Run.Via setting.registry R span (s.Beside t p) s.position
      (m.state a stack) t.position (m.state a (d :: stack))
  present : ∀ (span : Span) (a : Around) (m : Memory) (stack : List Value) (x y x' y' : Value),
    m.Temp s left.slot x → m.Temp s right.slot y → x.payloadAt? left.ty = some x' →
    y.payloadAt? right.ty = some y' →
    Run.Via setting.registry R span (s.Beside t p) s.position
      (m.state a stack) p (m.state a (y' :: x' :: stack))
  behind : ∀ (span : Span) (a : Around) (m : Memory) (stack : List Value) (v : Value),
    Run.Via setting.registry R span (s.Beside t p) (p + 1)
      (m.state a (v :: stack)) t.position
      (m.state a (v.wrapIf (setting.wrapsResult method ty) :: stack))

/-- How an equality of which an operand may be absent treats its operands. -/
def equalityTreatment (setting : Setting) (op : BinaryOp) (method : Option MethodRef) (ty : Ty) :
    Treatment :=
  ⟨op.consulted method, fun both d => op.onMissing setting method ty both = .ok d,
    setting.wrapsResult method ty⟩

/-- An equality without a method compares the values of present operands. -/
theorem consults_liftedEquality (hop : op = .eq ∨ op = .ne)
    (h : (Job.ofRoutine setting hR).Emits start (Emit.liftedEquality op left right ty) s () t) :
    ∃ p, Consults setting R op none left right ty s t p := by
  simp only [Emit.liftedEquality, ↓Job.Emits.seq_iff, Job.Emits.bind_iff, Job.Emits.instrs_cons_iff,
    Job.Emits.instrs_one_iff] at h
  obtain ⟨differ, s₁, hdiffer, bothAbsent, s₂, hbothAbsent, done, s₃, hdone, s₄, hleftThere, s₅,
    hrightThere, s₇, ⟨s₆, hne, hjumpDiffer⟩, s₈, hagain, s₉, hjumpAbsent, s₁₀, hleftInner, s₁₁,
    hrightInner, s₁₃, ⟨s₁₂, hoperator, hjumpDone⟩, s₁₄, hmarkAbsent, s₁₆, ⟨s₁₅, hconst, hskip⟩,
    s₁₇, hmarkDiffer, s₁₈, hconstDiffer, s₁₉, hmarkDone, hwrap⟩ := h
  have hdifferTarget : R.target? differ = some s₁₇.position := by grind
  have habsentTarget : R.target? bothAbsent = some s₁₄.position := by grind
  have hdoneTarget : R.target? done = some s₁₉.position := by grind
  -- All paths end with a truth value at the last label, where it is wrapped.
  have hend : ∀ (span : Span) (a : Around) (m : Memory) (stack : List Value) (v : Value),
      Run.Via setting.registry R span
        (s.Beside t s₁₁.position) s₁₉.position
        (m.state a (v :: stack)) t.position (m.state a (v.wrapIf ty.isNullable :: stack)) := by
    intro span a m stack v
    exact .wrapIf hwrap (fun p hp hp' => by grind) (.refl _ _)
  -- The tests of presence, which every path takes.
  have htests : ∀ (span : Span) (a : Around) (m : Memory) (stack : List Value) (x y : Value)
      (q : Nat) (c : State), m.Temp s left.slot x → m.Temp s right.slot y →
      ((x.payloadAt? left.ty).isSome ≠ (y.payloadAt? right.ty).isSome →
        Run.Via setting.registry R span
          (s.Beside t s₁₁.position) s₁₇.position
          (m.state a stack) q c) →
      ((x.payloadAt? left.ty).isSome = (y.payloadAt? right.ty).isSome →
        (x.payloadAt? left.ty).isSome = false → Run.Via setting.registry R span
          (s.Beside t s₁₁.position) s₁₄.position
          (m.state a stack) q c) →
      ((x.payloadAt? left.ty).isSome = (y.payloadAt? right.ty).isSome →
        (x.payloadAt? left.ty).isSome = true → Run.Via setting.registry R span
          (s.Beside t s₁₁.position) s₉.position
          (m.state a stack) q c) →
      Run.Via setting.registry R span
        (s.Beside t s₁₁.position) s.position
        (m.state a stack) q c := by
    intro span a m stack x y q c hx hy hdifferent hneither hboth
    refine .move (by grind : s₃.position = s.position) ?_
    refine .loadPresence hleftThere (hx.later (by grind)) (fun p hp hp' => by grind) ?_
    refine .loadPresence hrightThere (hy.later (by grind)) (fun p hp hp' => by grind) ?_
    refine .instr hne (fun _ => rfl) (by grind) (.compareBool _ _ _ _ _) ?_
    refine .branch hjumpDiffer (fun _ => rfl) (by grind) (.jumpIfTrue _ _ _ _ hdifferTarget) ?_ ?_
    · intro hcondition
      exact hdifferent (by simpa [Value.isTruthy] using hcondition)
    · intro hcondition
      have hsame : (x.payloadAt? left.ty).isSome = (y.payloadAt? right.ty).isSome := by
        simpa [Value.isTruthy] using hcondition
      refine .loadPresence hagain (hx.later (by grind)) (fun p hp hp' => by grind) ?_
      refine .branch hjumpAbsent (fun _ => rfl) (by grind) (.jumpIfFalse _ _ _ _ habsentTarget) ?_ ?_
      · intro hmissing
        exact hneither hsame (by simpa [Value.isTruthy] using hmissing)
      · intro hthere
        exact hboth hsame (by simpa [Value.isTruthy] using hthere)
  refine ⟨s₁₁.position, ⟨by grind, by grind⟩, hoperator.instr.1, ?_, ?_, ?_⟩
  · intro span a m stack x y d hx hy hmissing hd
    obtain rfl := Except.ok.inj hd
    refine htests span a m stack x y _ _ hx hy ?_ ?_ ?_
    · intro hdifferent
      have hboth : ((x.payloadAt? left.ty).isNone && (y.payloadAt? right.ty).isNone) = false := by
        cases hl : x.payloadAt? left.ty <;> cases hr : y.payloadAt? right.ty <;>
          simp [hl, hr] at hdifferent ⊢
      have hvalue : decide (op = .ne) = (false == decide (op = .eq)) := by
        rcases hop with rfl | rfl <;> rfl
      refine .instr hconstDiffer (fun _ => rfl) (by grind) (.const _ _ _ _) ?_
      rw [hboth, ← hvalue]
      exact .move (by grind) (hend _ _ _ _ _)
    · intro hsame hleft
      have hboth : ((x.payloadAt? left.ty).isNone && (y.payloadAt? right.ty).isNone) = true := by
        have hright := hsame.symm.trans hleft
        simp_all
      refine .instr hconst (fun _ => rfl) (by grind) (.const _ _ _ _) ?_
      refine .goto hskip (fun _ => rfl) (by grind) (.jump _ _ _ hdoneTarget) ?_
      rw [hboth, Bool.true_beq]
      exact hend _ _ _ _ _
    · intro hsame hleft
      rcases hmissing with hmissing | hmissing
      · rw [hmissing] at hleft
        cases hleft
      · rw [hsame, hmissing] at hleft
        cases hleft
  · intro span a m stack x y x' y' hx hy hx' hy'
    refine htests span a m stack x y _ _ hx hy ?_ ?_ ?_
    · intro hdifferent
      simp [hx', hy'] at hdifferent
    · intro _ hleft
      simp [hx'] at hleft
    · intro _ _
      refine .loadInner hleftInner (hx.later (by grind)) hx' (fun p hp hp' => by grind) ?_
      exact .loadInner hrightInner (hy.later (by grind)) hy' (fun p hp hp' => by grind) (.refl _ _)
  · intro span a m stack v
    rw [← hoperator.instr_position]
    refine .goto hjumpDone (fun _ => rfl) (by grind) (.jump _ _ _ hdoneTarget) ?_
    exact hend _ _ _ _ _

/-- An equality with a method that takes no optionals calls it on present operands. -/
theorem consults_operatorCall {m : MethodRef} (hplain : m.IsPlain setting)
    (hnullable : (left.ty.isNullable || right.ty.isNullable) = true) (hvoid : ty.isVoid = false)
    (h : (Job.ofRoutine setting hR).Emits start (Emit.operatorCall m left right ty) s () t) :
    ∃ p, Consults setting R op (some m) left right ty s t p := by
  obtain ⟨sig, u, hlookup, h⟩ := h.bind
  obtain ⟨hsig, rfl⟩ := hlookup.lookup
  split at h
  · have htakes : (sig.params.any fun p => p.1.isNullable) = false := hplain sig hsig
    simp only [hnullable, htakes, Bool.not_false, Bool.and_self, if_true] at h
    have hwrapped : setting.wrapsResult (some m) ty = (ty.isNullable && !sig.ret.isNullable) := by
      have hsig : setting.registry.signature m = .ok sig := hsig
      simp only [Setting.wrapsResult, MethodRef.isWrapped, hsig]
    rw [← hwrapped] at h
    obtain ⟨p, hp⟩ := Treatment.ofSlots_lifted (T := equalityTreatment setting op (some m) ty) h
      fun hzero span a k stack both d hd =>
        .pushDefault hzero hvoid hd (fun p hp hp' => ⟨hp, hp'⟩) (.refl _ _)
    exact ⟨p, hp.inside, hp.code, hp.missing, hp.present, hp.behind⟩
  · obtain ⟨_, _, _, h⟩ := h.bind
    exact h.fail.elim

/-- Equality on operands of which one may be absent consults the values of present ones. -/
theorem consults_binarySlots {checked : Bool} (hop : op = .eq ∨ op = .ne)
    (hnullable : (left.ty.isNullable || right.ty.isNullable) = true)
    (hmethod : ∀ m, method = some m → m.IsPlain setting ∧ ty.isVoid = false)
    (h : (Job.ofRoutine setting hR).Emits start (Emit.binarySlots op checked method left right ty) s ()
      t) :
    ∃ p, Consults setting R op method left right ty s t p := by
  cases method with
  | some m =>
      obtain ⟨hplain, hvoid⟩ := hmethod m rfl
      exact consults_operatorCall hplain hnullable hvoid h
  | none =>
      have hequality : op.isEquality = true := by
        rcases hop with rfl | rfl <;> rfl
      simp only [Emit.binarySlots, hnullable, Bool.not_true, Bool.false_eq_true, if_false, hequality,
        if_true] at h
      exact consults_liftedEquality hop h

/-! ## Tests of a chain -/

/-- A test in a chain: the code that evaluates it, and the code behind that, which treats the value to
switch on and the value of the test as an equality of a switch does.  Execution goes on at the target if
they are equal, and behind the test otherwise. -/
structure TestSite (hR : R.WithinLimits) (setting : Setting) (start : Nat) (subject : Operand)
    (comparison : Option MethodRef) where
  test : Expr
  target : Nat
  first : Emission
  evaluated : Emission
  last : Emission
  exits : Emitted
  /-- The temporary for the value of the test. -/
  slot : Nat
  /-- The position where both values are seen. -/
  site : Nat
  code : (Job.ofRoutine setting hR).Emits start (test.toNode.guarded .value) first exits evaluated
  retains : first ≤ last
  free : slot ∉ evaluated.pool.live
  inside : evaluated.position ≤ site ∧ site < last.position
  instr : R.code[site]? = some (BinaryOp.eq.consulted comparison)
  missing : ∀ (span : Span) (a : Around) (m : Memory) (stack : List Value) (x y d : Value),
    m.locals.size = R.locals.size → m.Temp evaluated subject.slot x →
    (x.payloadAt? subject.ty).isSome = false ∨ (y.payloadAt? test.ty).isSome = false →
    BinaryOp.eq.onMissing setting comparison .bool
      ((x.payloadAt? subject.ty).isNone && (y.payloadAt? test.ty).isNone) = .ok d →
    Run.Via setting.registry R span (evaluated.Beside last site) evaluated.position
      (m.state a (y :: stack)) (if d.isTruthy then target else last.position)
      ((m.setLocal slot y).state a stack)
  present : ∀ (span : Span) (a : Around) (m : Memory) (stack : List Value) (x y x' y' : Value),
    m.locals.size = R.locals.size → m.Temp evaluated subject.slot x →
    x.payloadAt? subject.ty = some x' → y.payloadAt? test.ty = some y' →
    Run.Via setting.registry R span (evaluated.Beside last site) evaluated.position
      (m.state a (y :: stack)) site ((m.setLocal slot y).state a (y' :: x' :: stack))
  behind : ∀ (span : Span) (a : Around) (m : Memory) (stack : List Value) (v : Value),
    Run.Via setting.registry R span (evaluated.Beside last site) (site + 1) (m.state a (v :: stack))
      (if v.isTruthy then target else last.position) (m.state a stack)

/-- What a method yields for a test is not wrapped. -/
theorem Setting.wrapsResult_bool (setting : Setting) (comparison : Option MethodRef) :
    setting.wrapsResult comparison .bool = false := by
  unfold Setting.wrapsResult MethodRef.isWrapped
  split
  · rfl
  · split <;> rfl

namespace TestSite

variable {subject : Operand} {comparison : Option MethodRef}

/-- What is emitted for a test of a chain. -/
theorem of_emits {test : Expr} {l : Label} {u : Emission} (hnullable : subject.ty.isNullable = true)
    (hmethod : ∀ m, comparison = some m → m.IsPlain setting) (htarget : R.target? l = some u.position)
    (h : (Job.ofRoutine setting hR).Emits start (Emit.withTemps do
      let _ ← test.toNode.guarded .value
      let t ← Emit.spillOperand test.toNode.ty
      Emit.binarySlots .eq false comparison subject t .bool
      Emit.instr (.jumpIfTrue l)) s () t) :
    ∃ c : TestSite hR setting start subject comparison,
      (c.test, c.target) = (test, u.position) ∧ c.first = s ∧ c.last = t := by
  have hretains : s ≤ t := h.retains
  obtain ⟨s₄, h, hend⟩ := h.withTemps
  simp only [Emit.spillOperand, ↓Job.Emits.seq_iff, Job.Emits.bind_iff] at h
  obtain ⟨exits, s₁, hguarded, o, s₂, ⟨slot, _, hspill, ho⟩, s₃, hequal, hjump⟩ := h
  obtain ⟨rfl, rfl⟩ := ho.pure
  have hequal : (Job.ofRoutine setting hR).Emits start
      (Emit.binarySlots .eq false comparison subject ⟨slot, test.ty⟩ .bool) s₂ () s₃ := by
    rw [Expr.toNode_ty] at hequal
    exact hequal
  obtain ⟨p, hconsults⟩ := consults_binarySlots (.inl rfl) (by simp [hnullable])
    (fun m hm => ⟨hmethod m hm, rfl⟩) hequal
  have hinside := hconsults.inside
  have hjumps : ∀ (span : Span) (a : Around) (m : Memory) (stack : List Value) (v : Value),
      Run.Via setting.registry R span (s₁.Beside t p) s₃.position (m.state a (v :: stack))
        (if v.isTruthy then u.position else t.position) (m.state a stack) := by
    intro span a m stack v
    refine .branch hjump (fun _ => rfl) (by grind) (.jumpIfTrue _ _ _ _ htarget) ?_ ?_
    · intro hv
      rw [hv, if_pos rfl]
      exact .refl _ _
    · intro hv
      rw [hv, if_neg (by simp), hend]
      exact .refl _ _
  refine ⟨⟨test, u.position, s, s₁, t, exits, slot, p, hguarded, hretains, hspill.spill.2,
    by grind, hconsults.code, ?_, ?_, ?_⟩, rfl, rfl, rfl⟩
  · intro span a m stack x y d hsize hx hmissing hd
    have hspares := Memory.Spares.setLocal (m := m) hspill.spill.2 y
    refine .spill hspill hsize (by grind) ?_
    refine .trans ((hconsults.missing span a _ stack x y d ((hspares.temp hx).later (by grind))
      (hspill.spilled hsize y) hmissing hd).imp fun q hq => by grind) ?_
    exact hjumps span a _ stack d
  · intro span a m stack x y x' y' hsize hx hx' hy'
    have hspares := Memory.Spares.setLocal (m := m) hspill.spill.2 y
    refine .spill hspill hsize (by grind) ?_
    exact (hconsults.present span a _ stack x y x' y' ((hspares.temp hx).later (by grind))
      (hspill.spilled hsize y) hx' hy').imp fun q hq => by grind
  · intro span a m stack v
    refine .trans ((hconsults.behind span a m stack v).imp fun q hq => by grind) ?_
    rw [setting.wrapsResult_bool]
    exact hjumps span a m stack v

/-- The sites follow one another. -/
def Chained : List (TestSite hR setting start subject comparison) → Emission → Emission → Prop
  | [], s, t => s = t
  | c :: cs, s, t => c.first = s ∧ Chained cs c.last t

theorem Chained.position_le {cs : List (TestSite hR setting start subject comparison)}
    (h : Chained cs s t) : s.position ≤ t.position := by
  induction cs generalizing s with
  | nil => exact Nat.le_of_eq (congrArg Emission.position h)
  | cons c cs ih =>
      obtain ⟨rfl, hcs⟩ := h
      exact Nat.le_trans (Nat.le_trans c.code.position_le (Nat.le_trans c.inside.1
        (Nat.le_of_lt c.inside.2))) (ih hcs)

theorem Chained.retains {cs : List (TestSite hR setting start subject comparison)}
    (h : Chained cs s t) : s ≤ t := by
  induction cs generalizing s with
  | nil => exact h ▸ le_refl s
  | cons c cs ih =>
      obtain ⟨rfl, hcs⟩ := h
      exact c.retains.trans (ih hcs)

end TestSite

/-! ## Tables -/

namespace Run

variable {span : Span} {within : Nat → Prop} {a : Around} {m : Memory} {stack : List Value} {q : Nat}
  {c : State} {subject : Operand} {keys : List (List CaseKey)} {labels : List Label}
  {fallback : Label} {v : Value} {own : CaseKey} {u : Emission}

/-- The comparisons with keys lead to the case of the first one that is the same. -/
theorem Via.bucket {plain : Nat} {ty : Ty} {entries : List BucketEntry}
    (h : (Job.ofRoutine setting hR).Emits start
      (entries.forM fun e => Emit.instrs (Job.keyCode plain e)) s () t)
    (htemp : m.Temp s plain (.ofLiteral own.literal)) (hown : own.isOf ty = true)
    (hentries : ∀ e ∈ entries, e.key.isOf ty = true ∧
      ∃ u : Emission, R.target? e.target = some u.position)
    (hp : ∀ p, s.position ≤ p → p < t.position → within p)
    (hhit : ∀ (e : BucketEntry) (u : Emission),
      entries.find? (fun e => own.same e.key) = some e → R.target? e.target = some u.position →
      Via setting.registry R span within u.position (m.state a stack) q c)
    (hmiss : entries.find? (fun e => own.same e.key) = none →
      Via setting.registry R span within t.position (m.state a stack) q c) :
    Via setting.registry R span within s.position (m.state a stack) q c := by
  induction entries generalizing s with
  | nil =>
      obtain ⟨-, rfl⟩ := h.pure
      exact hmiss rfl
  | cons e entries ih =>
      obtain ⟨s₄, hcode, hrest⟩ := Job.Emits.seq_iff.mp h
      simp only [Job.keyCode, Job.Emits.instrs_cons_iff, Job.Emits.instrs_one_iff] at hcode
      obtain ⟨s₁, hload, s₂, hconst, s₃, hcompare, hjump⟩ := hcode
      obtain ⟨hkey, u, htarget⟩ := hentries e List.mem_cons_self
      have hend := hrest.position_le
      refine .loadTemp hload htemp (hp _ (by grind) (by grind)) ?_
      refine .instr hconst (fun _ => rfl) (hp _ (by grind) (by grind)) (.const _ _ _ _) ?_
      refine .instr hcompare (fun _ => rfl) (hp _ (by grind) (by grind))
        (.compare _ _ _ (Value.compare_keys hown hkey)) ?_
      refine .branch hjump (fun _ => rfl) (hp _ (by grind) (by grind))
        (.jumpIfTrue _ _ _ _ htarget) ?_ ?_
      · intro hsame
        have hsame : own.same e.key = true := hsame
        exact hhit e u (by simp [hsame]) htarget
      · intro hother
        have hother : own.same e.key = false := hother
        have hfind : (e :: entries).find? (fun e => own.same e.key) =
            entries.find? fun e => own.same e.key := by
          simp [hother]
        rw [hfind] at hhit hmiss
        exact ih hrest (htemp.later (by grind)) (fun e he => hentries e (List.mem_cons_of_mem _ he))
          (fun p hp' hp'' => hp p (by grind) hp'') hhit hmiss

/-- Before a table, an optional that is absent is sent to the case for null. -/
theorem Via.jumpIfNull {target : Label}
    (h : (Job.ofRoutine setting hR).Emits start (Emit.jumpIfNull subject target) s () t)
    (hnullable : subject.ty.isNullable = true) (htemp : m.Temp s subject.slot v)
    (htarget : R.target? target = some u.position)
    (hp : ∀ p, s.position ≤ p → p < t.position → within p)
    (hnull : v.payload? = none →
      Via setting.registry R span within u.position (m.state a stack) q c)
    (hpresent : v.payload? ≠ none →
      Via setting.registry R span within t.position (m.state a stack) q c) :
    Via setting.registry R span within s.position (m.state a stack) q c := by
  have hcan : subject.ty.canBeAbsent = true := by simp [Ty.canBeAbsent, hnullable]
  simp only [Emit.jumpIfNull, hcan, if_true, Job.Emits.instrs_cons_iff,
    Job.Emits.instrs_one_iff] at h
  obtain ⟨s₁, hload, hjump⟩ := h
  refine .loadTemp hload htemp (hp _ (by grind) (by grind)) ?_
  refine .branch hjump (fun _ => rfl) (hp _ (by grind) (by grind)) (.jumpIfAbsent _ _ _ _ htarget) ?_ ?_
  · intro habsent
    rw [← Value.payload?_isNone, Option.isNone_iff_eq_none] at habsent
    exact hnull habsent
  · intro hthere
    rw [← Value.payload?_isNone, Option.isNone_eq_false_iff, Option.isSome_iff_ne_none] at hthere
    exact hpresent hthere

end Run

end Arbor
