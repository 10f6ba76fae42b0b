/-
  Switches follow their evaluation, whichever way they dispatch.

  The code of a switch reaches the body of the selected case, by a chain of tests
  or through the bucket of the value.  Where the bodies start is known from their
  labels (`Arrives`), so that both ways are shown to lead to the same points.
-/
import Arbor.Emit.Switch
import Arbor.Proofs.Semantics.Selection
import Arbor.Proofs.Simulation.Control

set_option autoImplicit false

namespace Arbor

/-! ## Buckets -/

namespace Bucket

/-- A bucket of a table with buckets is one of the table. -/
theorem of_lt (key : SwitchKey) {size : Nat} (hsize : 0 < size) : of key size < size := by
  cases key with
  | int v =>
      have hnonneg := Int.emod_nonneg v (Int.natCast_ne_zero.mpr (Nat.ne_of_gt hsize))
      have hlt := Int.emod_lt_of_pos v (Int.natCast_pos.mpr hsize)
      simp only [of]
      omega
  | bool b => exact Nat.mod_lt _ hsize
  | text s => exact Nat.mod_lt _ hsize

/-- The search for a prime goes up, by no more than its number of steps. -/
theorem nextPrime_bounds (fuel n : Nat) : n ≤ nextPrime fuel n ∧ nextPrime fuel n ≤ n + fuel := by
  induction fuel generalizing n with
  | zero => exact ⟨Nat.le_refl n, Nat.le_refl n⟩
  | succ fuel ih =>
      have hnext := ih (n + 1)
      unfold nextPrime
      split <;> omega

theorem count_pos (keys : Nat) : 0 < count keys := by
  unfold count
  generalize max keys 2 % 0x100000000 = n
  cases n with
  | zero => decide
  | succ n => exact Nat.lt_of_lt_of_le (Nat.succ_pos n) (nextPrime_bounds _ _).1

/-- A table has not many more buckets than twice its keys. -/
theorem count_le (keys : Nat) : count keys ≤ 2 * keys + 6 := by
  have hbound := (nextPrime_bounds (max keys 2 % 0x100000000 + 2) (max keys 2 % 0x100000000)).2
  have hmod : max keys 2 % 0x100000000 ≤ max keys 2 := Nat.mod_le _ _
  unfold count
  simp only
  omega

theorem length_filter_succ {α : Type} (bucket : α → Nat) (size : Nat) (items : List α) :
    (items.filter fun x => bucket x < size + 1).length =
      (items.filter fun x => bucket x < size).length +
        (items.filter fun x => bucket x == size).length := by
  induction items with
  | nil => rfl
  | cons x items ih =>
      simp only [List.filter_cons, decide_eq_true_eq, beq_iff_eq]
      rw [apply_ite List.length, apply_ite List.length, apply_ite List.length, List.length_cons,
        List.length_cons, List.length_cons]
      split <;> split <;> split <;> omega

theorem length_buckets {α : Type} (bucket : α → Nat) (size : Nat) (items : List α) :
    ((List.range size).map fun b => items.filter fun x => bucket x == b).flatten.length =
      (items.filter fun x => bucket x < size).length := by
  induction size with
  | zero => simp
  | succ size ih =>
      rw [length_filter_succ, ← ih, List.range_succ, List.map_append, List.flatten_append,
        List.length_append]
      simp

end Bucket

theorem firstSelected_map {α β : Type} (v : Value) (keys : List (List CaseKey)) (items : List α)
    (f : α → β) : firstSelected v keys (items.map f) = (firstSelected v keys items).map f := by
  unfold firstSelected
  rw [← List.map_id keys, List.zip_map, List.find?_map, Option.map_map, Option.map_map]
  simp [Function.comp_def]

namespace Job

variable {J : Job} {start : Nat} {s t u : Emission} {c : Site} {q : Nat} {m : Memory}
  {stack : List Value} {w : World} {α : Type} {out : EStateM.Result Stop World α}
  {post : α → Memory → List Value → Prop}

/-! ## Labels -/

/-- From the label on, where at least what is in use is in use, the code follows an evaluation. -/
def Arrives (J : Job) (c : Site) (s : Emission) (q : Nat) (m : Memory) (stack : List Value)
    (l : Label) (out : EStateM.Result Stop World α) (post : α → Memory → List Value → Prop) : Prop :=
  ∃ u : Emission, J.routine.target? l = some u.position ∧ s ≤ u ∧ J.Follows c u q m stack out post

theorem Arrives.before {l : Label} (h : J.Arrives c t q m stack l out post) (hretains : s ≤ t) :
    J.Arrives c s q m stack l out post := by
  obtain ⟨u, htarget, hu, hfollows⟩ := h
  exact ⟨u, htarget, hretains.trans hu, hfollows⟩

namespace Follows

theorem jumpTo {l : Label} (h : J.Emits start (Emit.instr (.jump l)) s () t)
    (harrives : J.Arrives c s q m stack l out post) : J.Follows c s q m stack out post := by
  obtain ⟨u, htarget, hretains, hfollows⟩ := harrives
  exact jump h (.jump _ _ _ htarget) hretains hfollows

/-- Execution goes on at a label on a condition, or behind the jump. -/
theorem branchTo {i : Instr} {l : Label} {condition : Bool} {rest : List Value}
    (h : J.Emits start (Emit.instr i) s () t)
    (hstep : ∀ q, J.routine.target? l = some q → J.Steps i (m.state c.around stack)
      (.ok (Run.Steps.branch condition q) (m.state c.around rest)))
    (hmarked : ∃ q, J.routine.target? l = some q)
    (hjump : condition = true → J.Arrives c s q m rest l out post)
    (hnext : condition = false → J.Follows c t q m rest out post) :
    J.Follows c s q m stack out post := by
  cases condition with
  | true =>
      obtain ⟨u, htarget, hretains, hfollows⟩ := hjump rfl
      exact jump h (hstep _ htarget) hretains hfollows
  | false =>
      obtain ⟨p, htarget⟩ := hmarked
      exact instr h (hstep p htarget) (.refl _ _) (hnext rfl)

end Follows

/-- New labels are as many as the items, and emit nothing. -/
theorem Emits.newLabels {β : Type} {items : List β} {labels : List Label}
    (h : J.Emits start (Emit.newLabels items) s labels t) :
    labels.length = items.length ∧ t.position = s.position := by
  induction items generalizing s labels with
  | nil =>
      obtain ⟨rfl, rfl⟩ := h.pure
      exact ⟨rfl, rfl⟩
  | cons x items ih =>
      simp only [Emit.newLabels, bind_iff] at h
      obtain ⟨l, s₁, hlabel, ls, s₂, hrest, h⟩ := h
      obtain ⟨rfl, rfl⟩ := h.pure
      obtain ⟨hlength, hposition⟩ := ih hrest
      exact ⟨by simp [hlength], by grind⟩

/-- Labels of buckets: one for every bucket, the default for those without keys. -/
theorem Emits.bucketLabels {fallback : Label} {buckets : List (List BucketEntry)}
    {labels : List Label} (h : J.Emits start (Emit.bucketLabels fallback buckets) s labels t) :
    t.position = s.position ∧ labels.length = buckets.length ∧
      ∀ b ∈ buckets.zip labels, b.1 = [] → b.2 = fallback := by
  induction buckets generalizing s labels with
  | nil =>
      obtain ⟨rfl, rfl⟩ := h.pure
      exact ⟨rfl, rfl, fun _ h => nomatch h⟩
  | cons b buckets ih =>
      obtain ⟨l, s₁, hfirst, h⟩ : ∃ l s₁, (s₁.position = s.position ∧ (b = [] → l = fallback)) ∧
          J.Emits start (do
            let ls ← Emit.bucketLabels fallback buckets
            Pure.pure (l :: ls)) s₁ labels t := by
        cases b with
        | nil => exact ⟨fallback, s, ⟨rfl, fun _ => rfl⟩, h⟩
        | cons e b =>
            obtain ⟨l, s₁, hlabel, h⟩ := Emits.bind (x := Emit.newLabel) h
            exact ⟨l, s₁, ⟨hlabel.newLabel.1, fun h => nomatch h⟩, h⟩
      obtain ⟨ls, s₂, hrest, h⟩ := h.bind
      obtain ⟨rfl, rfl⟩ := h.pure
      obtain ⟨hposition, hlength, hempty⟩ := ih hrest
      refine ⟨hposition.trans hfirst.1, by simp [hlength], ?_⟩
      intro pair hpair
      rcases List.mem_cons.mp (List.zip_cons_cons ▸ hpair) with rfl | hpair
      · exact hfirst.2
      · exact hempty pair hpair

/-- A run over a list is a run for each of its items. -/
theorem Emits.forM_mem {β : Type} {f : β → Emit PUnit} {items : List β} {x : β}
    (h : J.Emits start (items.forM f) s ⟨⟩ t) (hx : x ∈ items) :
    ∃ u v, J.Emits start (f x) u ⟨⟩ v ∧ (s ≤ u ∧ s.position ≤ u.position) ∧
      (v ≤ t ∧ v.position ≤ t.position) := by
  induction items generalizing s with
  | nil => cases hx
  | cons y items ih =>
      obtain ⟨_, s₁, hfirst, hrest⟩ := h.bind
      rcases List.mem_cons.mp hx with rfl | hx
      · exact ⟨s, s₁, hfirst, ⟨⟨rfl, fun _ hi => hi⟩, Nat.le_refl _⟩, hrest.retains, hrest.position_le⟩
      · obtain ⟨u, v, hrun, hu, hv⟩ := ih hrest hx
        exact ⟨u, v, hrun, ⟨hfirst.retains.trans hu.1, Nat.le_trans hfirst.position_le hu.2⟩, hv⟩

/-! ## Tables -/

/-- The code of a key. -/
abbrev keyCode (plain : Nat) (e : BucketEntry) : List Instr :=
  [.loadLocal plain, .const e.key.literal, .compare .eq, .jumpIfTrue e.target]

/-- The comparisons with keys lead to the case of the first one that is the same. -/
theorem Follows.keys {plain : Nat} {own : CaseKey} {ty : Ty} {entries : List BucketEntry}
    (h : J.Emits start (entries.forM fun e => Emit.instrs (keyCode plain e)) s () t)
    (htemp : m.Temp s plain (.ofLiteral own.literal)) (hown : own.isOf ty = true)
    (hentries : ∀ e ∈ entries, e.key.isOf ty = true ∧ ∃ p, J.routine.target? e.target = some p)
    (hhit : ∀ e, entries.find? (fun e => own.same e.key) = some e →
      J.Arrives c s q m stack e.target out post)
    (hmiss : entries.find? (fun e => own.same e.key) = none → J.Follows c t q m stack out post) :
    J.Follows c s q m stack out post := by
  induction entries generalizing s with
  | nil =>
      obtain ⟨-, rfl⟩ := h.pure
      exact hmiss rfl
  | cons e entries ih =>
      obtain ⟨s₄, hcode, hrest⟩ := Emits.seq_iff.mp h
      simp only [keyCode, Emits.instrs_cons_iff, Emits.instrs_one_iff] at hcode
      obtain ⟨s₁, hload, s₂, hconst, s₃, hcompare, hjump⟩ := hcode
      obtain ⟨hkey, hmarked⟩ := hentries e List.mem_cons_self
      have hback : s₃ ≤ s :=
        hcompare.retains_before.trans (hconst.retains_before.trans hload.retains_before)
      refine .loadTemp hload htemp (.instr hconst (.const _ _ _ _) (.refl _ _) ?_)
      refine .instr hcompare (.compare _ _ _ (Value.compare_keys hown hkey)) (.refl _ _) ?_
      refine .branchTo hjump (fun _ => .jumpIfTrue _ _ _ _) hmarked ?_ ?_
      · intro hsame
        have hsame : own.same e.key = true := hsame
        exact (hhit e (by simp [hsame])).before hback
      · intro hother
        have hother : own.same e.key = false := hother
        have hfind : (e :: entries).find? (fun e => own.same e.key) =
            entries.find? fun e => own.same e.key := by
          simp [hother]
        rw [hfind] at hhit hmiss
        refine ih hrest (htemp.later (by grind)) (fun e he => hentries e (List.mem_cons_of_mem _ he))
          (fun e he => (hhit e he).before ?_) hmiss
        exact (hjump.retains_before.trans hback)

/-- The code of a bucket with keys is where its label leads. -/
theorem Emits.bucketCode {plain : Nat} {fallback l : Label} {bucket : List BucketEntry}
    (h : J.Emits start (Emit.bucketCode plain fallback bucket l) s () t) (hbucket : bucket ≠ []) :
    ∃ u v, J.routine.target? l = some u.position ∧ s ≤ u ∧ u.position = s.position ∧
      J.Emits start (bucket.forM fun e => Emit.instrs (keyCode plain e)) u () v ∧
      J.Emits start (Emit.instr (.jump fallback)) v () t := by
  have hempty : bucket.isEmpty = false := by simpa using hbucket
  simp only [Emit.bucketCode, hempty, Bool.false_eq_true, if_false, ↓Emits.seq_iff] at h
  obtain ⟨s₁, hmark, s₂, hkeys, hjump⟩ := h
  obtain ⟨htarget, hposition, -⟩ := hmark.mark
  exact ⟨s₁, s₂, by rw [htarget, hposition], hmark.retains, hposition, hkeys, hjump⟩

/-- Every key takes four instructions. -/
theorem Emits.keys_position {plain : Nat} {entries : List BucketEntry}
    (h : J.Emits start (entries.forM fun e => Emit.instrs (keyCode plain e)) s () t) :
    t.position = s.position + 4 * entries.length := by
  induction entries generalizing s with
  | nil =>
      obtain ⟨-, rfl⟩ := h.pure
      rfl
  | cons e entries ih =>
      obtain ⟨s₄, hcode, hrest⟩ := Emits.seq_iff.mp h
      simp only [keyCode, Emits.instrs_cons_iff, Emits.instrs_one_iff] at hcode
      obtain ⟨s₁, hload, s₂, hconst, s₃, hcompare, hjump⟩ := hcode
      have hlength : (e :: entries).length = entries.length + 1 := rfl
      grind

/-- The code of buckets takes at least four instructions for every key. -/
theorem Emits.buckets_position {plain : Nat} {fallback : Label} {buckets : List (List BucketEntry)}
    {starts : List Label} (hlength : starts.length = buckets.length)
    (h : J.Emits start ((buckets.zip starts).forM fun b =>
      Emit.bucketCode plain fallback b.1 b.2) s () t) :
    s.position + 4 * buckets.flatten.length ≤ t.position := by
  induction buckets generalizing s starts with
  | nil =>
      obtain ⟨-, rfl⟩ := h.pure
      exact Nat.le_refl _
  | cons b buckets ih =>
      obtain ⟨l, starts, rfl⟩ := List.exists_cons_of_length_eq_add_one hlength
      obtain ⟨s₁, hfirst, hrest⟩ := Emits.seq_iff.mp h
      have hlater := ih (by simpa using hlength) hrest
      have hbucket : s.position + 4 * b.length ≤ s₁.position := by
        by_cases hb : b = []
        · subst hb
          exact hfirst.position_le
        · obtain ⟨u, v, -, -, hposition, hkeys, hjump⟩ := hfirst.bucketCode hb
          have hcode : v.position = u.position + 4 * b.length := hkeys.keys_position
          have hend := hjump.instr_position
          omega
      rw [List.flatten_cons, List.length_append]
      omega

/-- A table whose code is in the routine has a number of buckets that an index can name. -/
theorem Emits.table_size {plain : Nat} {fallback : Label} {targets : List (CaseKey × Label)}
    {starts : List Label} {size : Nat}
    (hsize : size = Bucket.count (targets.filter fun e => !e.1.isNull).length)
    (hlength : starts.length = size)
    (h : J.Emits start ((((List.range size).map fun b =>
      (Emit.bucketEntries size targets).filter fun e => e.bucket == b).zip starts).forM fun b =>
        Emit.bucketCode plain fallback b.1 b.2) s () t) :
    size < Run.depthLimit := by
  have hcode := Emits.buckets_position (by simpa using hlength) h
  have hend : t.position < Run.depthLimit := Nat.lt_of_le_of_lt h.completes.size J.limits.code
  have hkeys : (Emit.bucketEntries size targets).length =
      (targets.filter fun e => !e.1.isNull).length := by
    unfold Emit.bucketEntries
    rw [List.length_filterMap_eq_countP, List.countP_eq_length_filter]
    congr 1
    refine List.filter_congr fun e _ => ?_
    cases he : e.1 <;> simp [he, CaseKey.switchKey?, CaseKey.isNull]
  have hsum : ((List.range size).map fun b =>
      (Emit.bucketEntries size targets).filter fun e => e.bucket == b).flatten.length =
        (Emit.bucketEntries size targets).length := by
    refine (Bucket.length_buckets BucketEntry.bucket size _).trans ?_
    rw [List.filter_eq_self.mpr]
    intro e he
    obtain ⟨⟨k, l⟩, -, he⟩ := List.mem_filterMap.mp he
    obtain ⟨key, -, rfl⟩ := Option.map_eq_some_iff.mp he
    have hpos : 0 < size := hsize ▸ Bucket.count_pos _
    simpa using Bucket.of_lt key hpos
  have hcount := Bucket.count_le (targets.filter fun e => !e.1.isNull).length
  rw [← hsize] at hcount
  rw [hsum, hkeys] at hcode
  unfold Run.depthLimit at hend ⊢
  omega

/-- The label for null is that of the first case with the key of an absent value. -/
theorem nullTarget_eq {v : Value} (hv : v.caseKey? = some .null) (keys : List (List CaseKey))
    (labels : List Label) (fallback : Label) :
    Emit.nullTarget (Emit.keyTargets keys labels) fallback =
      (firstSelected v keys labels).getD fallback := by
  rw [← find?_keyTargets, Emit.nullTarget]
  congr 3
  funext e
  cases he : e.1 <;> simp [Value.hasKey, hv, CaseKey.isNull, CaseKey.same, he]

theorem mem_keyTargets {keys : List (List CaseKey)} {labels : List Label} {e : CaseKey × Label}
    (h : e ∈ Emit.keyTargets keys labels) : (∃ ks ∈ keys, e.1 ∈ ks) ∧ e.2 ∈ labels := by
  obtain ⟨⟨ks, l⟩, hzip, he⟩ := List.mem_flatMap.mp h
  obtain ⟨k, hk, rfl⟩ := List.mem_map.mp he
  exact ⟨⟨ks, (List.of_mem_zip hzip).1, hk⟩, (List.of_mem_zip hzip).2⟩

theorem mem_bucketEntries {size : Nat} {targets : List (CaseKey × Label)} {e : BucketEntry}
    (h : e ∈ Emit.bucketEntries size targets) : (e.key, e.target) ∈ targets := by
  obtain ⟨⟨k, l⟩, hmem, he⟩ := List.mem_filterMap.mp h
  obtain ⟨key, -, rfl⟩ := Option.map_eq_some_iff.mp he
  exact hmem

/-- A value without anything inside jumps to the label for null, every other goes on. -/
theorem Follows.jumpIfNull {subject : Operand} {target : Label} {v : Value}
    (h : J.Emits start (Emit.jumpIfNull subject target) s () t) (htemp : m.Temp s subject.slot v)
    (hmarked : ∃ p, J.routine.target? target = some p)
    (hnull : v.payload? = none → J.Arrives c s q m stack target out post)
    (hpresent : v.payload? ≠ none ∨ subject.ty.canBeAbsent = false → J.Follows c t q m stack out post) :
    J.Follows c s q m stack out post := by
  unfold Emit.jumpIfNull at h
  cases hty : subject.ty.canBeAbsent with
  | true =>
      simp only [hty, if_true, Emits.instrs_cons_iff, Emits.instrs_one_iff] at h
      obtain ⟨s₁, hload, hjump⟩ := h
      refine .loadTemp hload htemp ?_
      refine .branchTo hjump (fun _ => .jumpIfAbsent _ _ _ _) hmarked ?_ ?_
      · intro habsent
        rw [← Value.payload?_isNone, Option.isNone_iff_eq_none] at habsent
        exact (hnull habsent).before hload.retains_before
      · intro hthere
        rw [← Value.payload?_isNone, Option.isNone_eq_false_iff, Option.isSome_iff_ne_none] at hthere
        exact hpresent (.inl hthere)
  | false =>
      simp only [hty, Bool.false_eq_true, if_false] at h
      obtain ⟨-, rfl⟩ := h.pure
      exact hpresent (.inr hty)

/-- Dispatch through a table leads to the first case with the key of the value. -/
theorem Follows.tableDispatch {subject : Operand} {keys : List (List CaseKey)} {labels : List Label}
    {fallback : Label} {v : Value}
    (h : J.Emits start (Emit.tableDispatch subject keys labels fallback) s () t)
    (htemp : m.Temp s subject.slot v) (hholds : J.Holds s.scope w m)
    (htabular : subject.ty.isTabular = true) (hplain : subject.ty.isPlainOptional = true)
    (hv : v.isOf subject.ty = true)
    (hkeys : ∀ ks ∈ keys, ∀ k ∈ ks, k.isOf subject.ty.underlying = true)
    (hmarked : ∀ l ∈ fallback :: labels, ∃ p, J.routine.target? l = some p)
    (harrives : ∀ n, J.Holds s.scope w n → m.Keeps s n →
      J.Arrives c t q n stack ((firstSelected v keys labels).getD fallback) out post) :
    J.Follows c s q m stack out post := by
  obtain ⟨own, hown, hisOf, hpayload, hpresent⟩ := Value.caseKey?_of_isOf hv htabular hplain
  have hend : s ≤ t := h.retains
  simp only [Emit.tableDispatch, ↓Emits.seq_iff, Emits.bind_iff] at h
  obtain ⟨_, s₁, hnull, s₂, hinner, plain, s₃, hspill, starts, s₄, hstarts, s₅, hcode, hbuckets⟩ := h
  simp only [Emits.instrs_cons_iff, Emits.instrs_one_iff] at hcode
  obtain ⟨s₆, hload, s₇, hhash, s₈, hswitch, hskip⟩ := hcode
  generalize htargets : Emit.keyTargets keys labels = targets at hnull hstarts hhash hbuckets
  generalize hsize : Bucket.count (targets.filter fun e => !e.1.isNull).length = size
    at hstarts hhash hbuckets
  obtain ⟨hstartsPosition, hstartsLength, hstartsEmpty⟩ := hstarts.bucketLabels
  have hsmall : size < Run.depthLimit := hbuckets.table_size hsize.symm (by simpa using hstartsLength)
  have hpositive : 0 < size := hsize ▸ Bucket.count_pos _
  refine .jumpIfNull hnull htemp ?_ ?_ ?_
  · refine hmarked _ ?_
    unfold Emit.nullTarget
    cases hfind : targets.find? (·.1.isNull) with
    | none => exact List.mem_cons_self
    | some e =>
        have hmem : e ∈ Emit.keyTargets keys labels := by
          rw [htargets]
          exact List.mem_of_find?_eq_some hfind
        exact List.mem_cons_of_mem _ (mem_keyTargets hmem).2
  · intro hnone
    have hownNull : v.caseKey? = some .null := by simp [Value.caseKey?, hnone]
    rw [← htargets, nullTarget_eq hownNull]
    exact (harrives m hholds (.refl _ _)).before hend
  · intro hpresent'
    obtain ⟨hsome, hnotNull⟩ : v.payload? = some (.ofLiteral own.literal) ∧ own.isNull = false := by
      rcases hpayload with ⟨hnone, rfl⟩ | hsome
      · exact absurd (hpresent (hpresent'.resolve_left fun h => h hnone)) (by simp [CaseKey.isNull])
      · exact hsome
    obtain ⟨key, hkey, hhashable⟩ : ∃ key, own.switchKey? = some key ∧
        Run.switchKey (.ofLiteral own.literal) = pure key := by
      cases own <;> first | exact ⟨_, rfl, rfl⟩ | simp [CaseKey.isNull] at hnotNull
    refine .loadInner hinner (htemp.later (by grind)) (Value.payloadAt?_eq hv hsome) ?_
    refine .spill hspill (hholds.later (by grind)) fun n htempPlain hholdsPlain hkeepsPlain => ?_
    refine .move hstarts.retains hstartsPosition ?_
    refine .loadTemp hload (htempPlain.later hstarts.retains) ?_
    refine .instr hhash (.hashBucket _ _ _ hhashable hpositive) (.refl _ _) ?_
    -- The bucket of the value has a label, where the keys of the bucket are compared.
    have hindex : Bucket.of key size < starts.length := by
      rw [hstartsLength]
      simpa using Bucket.of_lt key hpositive
    have hvalue := Run.Steps.toIndex?_int (Nat.lt_trans (Bucket.of_lt key hpositive) hsmall)
    have hbucket : ((Emit.bucketEntries size targets).filter (·.bucket == Bucket.of key size),
        starts[Bucket.of key size]) ∈ ((List.range size).map fun b =>
          (Emit.bucketEntries size targets).filter fun e => e.bucket == b).zip starts := by
      refine List.mem_iff_getElem?.mpr ⟨Bucket.of key size, ?_⟩
      have hrange : (List.range size)[Bucket.of key size]? = some (Bucket.of key size) :=
        List.getElem?_range (Bucket.of_lt key hpositive)
      simp [List.getElem?_zip_eq_some, hrange, hindex]
    have hlabel : starts[Bucket.of key size]? = some starts[Bucket.of key size] :=
      List.getElem?_eq_getElem hindex
    generalize starts[Bucket.of key size] = l at hbucket hlabel
    have hfound := find?_bucket size hown hisOf hkey targets
    have hfirst := find?_keyTargets (v := v) keys labels
    rw [htargets] at hfirst
    rw [hfirst] at hfound
    have hsame : (fun e : BucketEntry => v.hasKey e.key) = fun e => own.same e.key := by
      funext e
      simp [Value.hasKey, hown]
    rw [hsame] at hfound
    generalize hentries : (Emit.bucketEntries size targets).filter (·.bucket == Bucket.of key size) =
      entries at hbucket hfound
    have harrives : ∀ p, ((entries.find? fun e => own.same e.key).map (·.target)).getD fallback = p →
        J.Arrives c t q n stack p out post := by
      rintro p rfl
      rw [hfound]
      refine harrives n ?_ (hkeepsPlain.before (by grind))
      rw [← (by grind : s₃.scope = s.scope)]
      exact hholdsPlain
    by_cases hempty : entries = []
    · obtain rfl : l = fallback := hstartsEmpty _ hbucket hempty
      obtain ⟨u, htarget, hretains, hfollows⟩ := harrives l (by simp [hempty])
      exact .jump hswitch (.switch _ _ _ hvalue hlabel htarget)
        ((by grind : s₇ ≤ t).trans hretains) hfollows
    · obtain ⟨u, u', hrun, hbefore, hafter⟩ := hbuckets.forM_mem hbucket
      obtain ⟨x, y, htarget, hretains, -, hkeyCode, hjump⟩ := hrun.bucketCode hempty
      have hx : s₇ ≤ x := by grind
      refine .jump hswitch (.switch _ _ _ hvalue hlabel htarget) hx ?_
      refine .keys hkeyCode (htempPlain.later (by grind)) hisOf ?_ ?_ ?_
      · intro e he
        have hmem := mem_bucketEntries (List.mem_of_mem_filter (hentries ▸ he))
        obtain ⟨⟨ks, hks, hk⟩, hl⟩ := mem_keyTargets (htargets ▸ hmem)
        exact ⟨hkeys ks hks _ hk, hmarked _ (List.mem_cons_of_mem _ hl)⟩
      · intro e he
        exact (harrives e.target (by simp [he])).before (by grind)
      · intro hnone
        exact .jumpTo hjump ((harrives fallback (by simp [hnone])).before (by grind))

/-! ## Chains -/

/-- Comparing a test with the value to switch on. -/
theorem Follows.test {subject : Operand} {n : Node} {d : Meaning} {v : Value} {e : Emitted}
    {x : Operand} {s₁ s₂ : Emission} (hn : J.Implements n d)
    (hguarded : J.Emits start (n.guarded .value) s e s₁)
    (hspill : J.Emits start (Emit.spillOperand n.ty) s₁ x s₂)
    (h : J.Emits start (Emit.binarySlots .eq false none subject x .bool) s₂ () t)
    (htemp : m.Temp s subject.slot v) (hholds : J.Holds s.scope w m)
    (hlength : c.floor.length ≤ s.position) :
    J.Follows c s t.position m c.floor
      ((Eval.guardedValue J.setting d >>= fun x =>
        Eval.binaryOn J.setting .eq false subject.ty d.ty .bool v x).run w)
      (fun same _ rest => rest = same :: c.floor) := by
  refine .bind (hn.guardedValue hguarded hholds hlength) hguarded.retains ?_
  rintro found w n rest rfl hholds hkeeps hlength
  simp only [Emit.spillOperand, Emits.bind_iff] at hspill
  obtain ⟨slot, s₂, hspill, hdone⟩ := hspill
  obtain ⟨rfl, rfl⟩ := hdone.pure
  refine .spill hspill hholds fun k htempTest hholds hkeepsTest => ?_
  rw [hn.ty]
  refine .binarySlots h (fun _ => rfl) ?_ htempTest hholds ?_
  · exact (htemp.kept hkeeps hguarded.retains).kept hkeepsTest hspill.retains
  · have := hspill.position_le
    simp only [List.length_cons] at hlength
    omega

/-- The tests of a case lead to it if one of them equals the value. -/
theorem Follows.tests {subject : Operand} {tests : List Node} {meanings : List Meaning} {v : Value}
    {l : Label} {β : Type} {k : Bool → Eval β} {last : Emission}
    {post : β → Memory → List Value → Prop}
    (h : J.Emits start (tests.forM fun test => Emit.withTemps do
      let _ ← test.guarded .value
      let t ← Emit.spillOperand test.ty
      Emit.binarySlots .eq false none subject t .bool
      Emit.instr (.jumpIfTrue l)) s () t)
    (htests : List.Forall₂ J.Implements tests meanings) (htemp : m.Temp s subject.slot v)
    (hholds : J.Holds s.scope w m) (hlength : c.floor.length ≤ s.position)
    (hmarked : ∃ p, J.routine.target? l = some p) (hlast : t ≤ last)
    (hhit : ∀ w n, J.Holds s.scope w n → m.Keeps s n →
      J.Arrives c last q n c.floor l ((k true).run w) post)
    (hmiss : ∀ w n, J.Holds t.scope w n → m.Keeps s n →
      J.Follows c t q n c.floor ((k false).run w) post) :
    J.Follows c s q m c.floor ((Eval.matchesAny J.setting subject.ty v meanings >>= k).run w) post := by
  induction htests generalizing s m w with
  | nil =>
      obtain ⟨-, rfl⟩ := h.pure
      simpa [Eval.matchesAny] using hmiss w m hholds (.refl _ _)
  | @cons n d tests meanings hn _ ih =>
      obtain ⟨s₅, hfirst, hrest⟩ := Emits.seq_iff.mp h
      have hretains : s ≤ s₅ := hfirst.retains
      obtain ⟨s₄, hfirst, hposition⟩ := hfirst.withTemps
      simp only [↓Emits.seq_iff, Emits.bind_iff] at hfirst
      obtain ⟨_, s₁, hguarded, x, s₂, hspill, s₃, hequal, hjump⟩ := hfirst
      have hcompare := Follows.test (c := c) hn hguarded hspill hequal htemp hholds hlength
      simp only [Eval.matchesAny, bind_assoc]
      rw [← bind_assoc]
      -- The temporaries of the test are free again behind it, wherever it leads.
      refine .bind (u := { s₃ with pool := s.pool }) hcompare
        ⟨(by grind : s ≤ s₃).scope, fun _ hi => hi⟩ ?_
      rintro same w n rest rfl hholds hkeeps -
      have hscope : s₃.scope = s.scope := (by grind : s ≤ s₃).scope
      have hholds : J.Holds s.scope w n := hscope ▸ hholds
      have hstep : ∀ p, J.routine.target? l = some p → J.Steps (.jumpIfTrue l)
          (n.state c.around (same :: c.floor))
          (.ok (Run.Steps.branch same.isTruthy p) (n.state c.around c.floor)) :=
        fun _ => .jumpIfTrue _ _ _ _
      cases hsame : same.isTruthy with
      | true =>
          obtain ⟨u, htarget, hu, hfollows⟩ := hhit w n hholds hkeeps
          have hreach : s ≤ u := by grind
          simp only [if_true, pure_bind]
          refine .after (u := u) ⟨hreach.scope.trans hscope.symm, hreach.live⟩ ?_ (.refl _ _) hfollows
          refine .jump hjump.instr.1 ?_
          simpa [hsame, Run.Steps.branch] using hstep _ htarget
      | false =>
          obtain ⟨p, htarget⟩ := hmarked
          simp only [Bool.false_eq_true, if_false]
          have hleads : J.Leads s₃.position (n.state c.around (same :: c.floor)) s₅.position
              (n.state c.around c.floor) := by
            rw [hposition, hjump.instr_position]
            refine .next hjump.instr.1 ?_
            simpa [hsame, Run.Steps.branch] using hstep _ htarget
          refine .after (u := s₅) ⟨hretains.scope.trans hscope.symm, hretains.live⟩ hleads (.refl _ _) ?_
          refine ih hrest (htemp.kept hkeeps hretains) (hholds.later hretains) (by grind) ?_ ?_
          · intro w k hholds hkept
            refine hhit w k ?_ (hkeeps.trans (hkept.before hretains))
            rw [← hretains.scope]
            exact hholds
          · intro w k hholds hkept
            exact hmiss w k hholds (hkeeps.trans (hkept.before hretains))

/-- A chain of tests leads to the first case with a test that equals the value. -/
theorem Follows.linearDispatch {subject : Operand} {cases : List (SwitchCase Node)}
    {meanings : List (SwitchCase Meaning)} {labels : List Label} {fallback : Label} {v : Value}
    {β : Type} {k : Option Meaning → Eval β} {last : Emission}
    {post : β → Memory → List Value → Prop}
    (h : J.Emits start (Emit.linearDispatch subject cases none labels fallback) s () t)
    (hcases : List.Forall₂ (fun c d => List.Forall₂ J.Implements c.tests d.tests) cases meanings)
    (hlength : labels.length = cases.length) (htemp : m.Temp s subject.slot v)
    (hholds : J.Holds s.scope w m) (hfloor : c.floor.length ≤ s.position)
    (hmarked : ∀ l ∈ labels, ∃ p, J.routine.target? l = some p) (hlast : t ≤ last)
    (hcase : ∀ e ∈ meanings.zip labels, ∀ w n, J.Holds s.scope w n → m.Keeps s n →
      J.Arrives c last q n c.floor e.2 ((k (some e.1.body)).run w) post)
    (hnone : ∀ w n, J.Holds s.scope w n → m.Keeps s n →
      J.Arrives c last q n c.floor fallback ((k none).run w) post) :
    J.Follows c s q m c.floor ((Eval.select J.setting subject.ty v meanings >>= k).run w) post := by
  simp only [Emit.linearDispatch, ↓Emits.seq_iff] at h
  obtain ⟨u, htests, hjump⟩ := h
  induction hcases generalizing s m w labels with
  | nil =>
      obtain ⟨-, rfl⟩ := htests.pure
      simp only [Eval.select, pure_bind]
      exact .jumpTo hjump ((hnone w m hholds (.refl _ _)).before (by grind))
  | @cons x d cases meanings hx _ ih =>
      obtain ⟨l, labels, rfl⟩ := List.exists_cons_of_length_eq_add_one hlength
      obtain ⟨s₁, hfirst, hrest⟩ := Emits.seq_iff.mp htests
      have hretains : s ≤ s₁ := hfirst.retains
      simp only [Eval.select, bind_assoc]
      refine .tests hfirst hx htemp hholds hfloor (hmarked l List.mem_cons_self)
        (by grind : s₁ ≤ last) ?_ ?_
      · intro w n hholds hkeeps
        simpa using hcase (d, l) List.mem_cons_self w n hholds hkeeps
      · intro w n hholds hkeeps
        have hback : ∀ {w : World} {n : Memory}, J.Holds s₁.scope w n → J.Holds s.scope w n := by
          intro w n h
          rw [← hretains.scope]
          exact h
        simp only [Bool.false_eq_true, if_false]
        refine ih (by simpa using hlength) (htemp.kept hkeeps hretains) hholds (by grind)
          (fun l hl => hmarked l (List.mem_cons_of_mem _ hl)) ?_ ?_ hrest
        · intro e he w k hholds hkept
          exact hcase e (List.mem_cons_of_mem _ he) w k (hback hholds)
            (hkeeps.trans (hkept.before hretains))
        · intro w k hholds hkept
          exact hnone w k (hback hholds) (hkeeps.trans (hkept.before hretains))

/-! ## Bodies -/

/-- The bodies of cases are where the labels of the cases lead. -/
theorem Emits.caseBodies {ty : Ty} {exit : Option Label} {done : Label}
    {cases : List (SwitchCase Node × Label)} {used : Bool}
    (h : J.Emits start (Emit.caseBodies ty exit done cases) s used t) :
    ∀ e ∈ cases, ∃ u v x usedBody, J.routine.target? e.2 = some u.position ∧
      (s ≤ u ∧ s.position ≤ u.position) ∧ (x ≤ t ∧ x.position ≤ t.position) ∧
      J.Emits start (e.1.body.branch ty exit ty.isVoid) u usedBody v ∧
      J.Emits start (Emit.instr (.jump done)) v () x ∧ (usedBody = true → used = true) := by
  induction cases generalizing s used with
  | nil => exact fun _ h => nomatch h
  | cons e cases ih =>
      obtain ⟨c, l⟩ := e
      simp only [Emit.caseBodies, ↓seq_iff, bind_iff] at h
      obtain ⟨_, s₁, hmark, usedBody, s₂, hbody, s₃, hjump, usedRest, s₄, hrest, h⟩ := h
      obtain ⟨rfl, rfl⟩ := h.pure
      obtain ⟨htarget, hposition, -⟩ := hmark.mark
      intro e he
      rcases List.mem_cons.mp he with rfl | he
      · exact ⟨s₁, s₂, s₃, usedBody, by rw [htarget, hposition], ⟨hmark.retains, hmark.position_le⟩,
          ⟨hrest.retains, hrest.position_le⟩, hbody, hjump, fun h => by simp [h]⟩
      · obtain ⟨u, v, x, usedHere, htarget, hu, hx, hcode, hleave, hused⟩ := ih hrest e he
        exact ⟨u, v, x, usedHere, htarget, by grind, hx, hcode, hleave, fun h => by simp [hused h]⟩

/-- What a switch does where no case is selected. -/
theorem Follows.defaultBody {default : Option Node} {meaning : Option Meaning} {ty : Ty}
    {exit : Option Label} {used : Bool}
    (h : J.Emits start (Emit.defaultBody default ty exit) s used t)
    (hdefault : Option.Rel J.Implements default meaning) (hexit : J.Resolves exit)
    (hholds : J.Holds s.scope w m) (hlength : stack.length ≤ s.position)
    (hfloor : c.floor <:+ stack) (hlanding : ∀ l, J.Lands exit l → used = true → c.landing l) :
    J.Follows c s t.position m stack
      ((match meaning with
        | some body => Eval.branch body ty exit.isSome ty.isVoid
        | none => Eval.default J.setting ty).run w)
      (fun result _ rest => result.Left (if ty.isVoid then .nothing else .value) stack rest) := by
  cases hdefault with
  | some hbody => exact hbody.branch h hexit hholds hlength hfloor hlanding
  | none =>
      simp only [Emit.defaultBody, ↓Emits.seq_iff] at h
      obtain ⟨u, hpush, h⟩ := h
      obtain ⟨-, rfl⟩ := h.pure
      simp only [Eval.default]
      cases hvoid : ty.isVoid with
      | true =>
          simp only [Emit.pushDefault, hvoid, if_true] at hpush
          obtain ⟨-, rfl⟩ := hpush.pure
          exact .ok hlength hholds ⟨rfl, rfl⟩
      | false =>
          refine .bind (.pushDefault hpush hvoid hholds hlength) hpush.retains ?_
          rintro v w k rest ⟨rfl, -⟩ hholds _ hlength
          exact .ok hlength hholds ⟨rfl, rfl⟩

/-- Checks of all items emit nothing if the check of an item does not. -/
theorem Emits.forM_check {β : Type} {f : β → Emit PUnit} {P : β → Prop} {items : List β}
    (h : J.Emits start (items.forM f) s ⟨⟩ t)
    (hf : ∀ x s t, J.Emits start (f x) s ⟨⟩ t → s = t ∧ P x) : s = t ∧ ∀ x ∈ items, P x := by
  induction items generalizing s with
  | nil => exact ⟨h.pure.2.symm, fun _ h => nomatch h⟩
  | cons x items ih =>
      obtain ⟨u, hfirst, hrest⟩ := Emits.seq_iff.mp h
      obtain ⟨rfl, hall⟩ := ih hrest
      obtain ⟨rfl, hx⟩ := hf x _ _ hfirst
      exact ⟨rfl, List.forall_mem_cons.mpr ⟨hx, hall⟩⟩

/-- The types of tests are checked, and nothing is emitted for it. -/
theorem Emits.checkTests {value : Ty} {cases : List (SwitchCase Node)}
    (h : J.Emits start (Emit.checkTests value cases) s () t) :
    s = t ∧ ∀ c ∈ cases, ∀ n ∈ c.tests, n.ty.isTestOf value = true := by
  refine Emits.forM_check h fun c s t h => Emits.forM_check h fun n s t h => ?_
  split at h
  · next hn => exact ⟨h.pure.2.symm, hn⟩
  · obtain ⟨_, _, _, h⟩ := h.bind
    exact h.mismatch.elim

/-- The keys of a table are those of its tests. -/
theorem tableKeys_eq {o : Options} {ty : Ty} {cases : List (SwitchCase Node)}
    {keys : List (List CaseKey)} (h : Emit.tableKeys? o ty cases none = some keys) :
    ty.isTabular = true ∧
      cases.mapM (fun c => c.tests.mapM fun t => CaseKey.ofExpr? t.expr) = some keys := by
  unfold Emit.tableKeys? at h
  split at h
  · cases h
  split at h
  · cases h
  next htabular =>
  split at h
  · cases h
  · next found hfound =>
      split at h
      · cases h
        exact ⟨by simpa using htabular, hfound⟩
      · cases h

/-- What a function yields on all items of a list, item by item. -/
theorem forall₂_of_mapM {β γ : Type} {f : β → Option γ} {items : List β} {found : List γ}
    (h : items.mapM f = some found) : List.Forall₂ (fun x y => f x = some y) items found := by
  induction items generalizing found with
  | nil =>
      cases h
      exact .nil
  | cons x items ih =>
      simp only [List.mapM_cons, Option.bind_eq_bind, Option.bind_eq_some_iff, Option.pure_def,
        Option.some.injEq] at h
      obtain ⟨y, hy, ys, hys, rfl⟩ := h
      exact .cons hy (ih hys)

/-- Functions that agree on items that correspond yield the same on lists of them. -/
theorem mapM_eq_of_forall₂ {β γ δ : Type} {R : β → γ → Prop} {f : β → Option δ} {g : γ → Option δ}
    {xs : List β} {ys : List γ} (h : List.Forall₂ R xs ys) (hR : ∀ x y, R x y → f x = g y) :
    xs.mapM f = ys.mapM g := by
  induction h with
  | nil => rfl
  | cons hxy _ ih => simp only [List.mapM_cons, hR _ _ hxy, ih]

/-- What corresponds to an item beside another is beside the same. -/
theorem mem_zip_of_forall₂ {β γ δ : Type} {R : β → γ → Prop} {xs : List β} {ys : List γ}
    {zs : List δ} (h : List.Forall₂ R xs ys) {y : γ} {z : δ} (hmem : (y, z) ∈ ys.zip zs) :
    ∃ x, (x, z) ∈ xs.zip zs ∧ R x y := by
  induction h generalizing zs with
  | nil => cases hmem
  | @cons x y' xs ys hxy _ ih =>
      cases zs with
      | nil => cases hmem
      | cons z' zs =>
          rcases List.mem_cons.mp hmem with heq | hmem
          · cases heq
            exact ⟨x, List.mem_cons_self, hxy⟩
          · obtain ⟨x, hx, hR⟩ := ih hmem
            exact ⟨x, List.mem_cons_of_mem _ hx, hR⟩

theorem exists_of_forall₂ {β γ : Type} {R : β → γ → Prop} {xs : List β} {ys : List γ}
    (h : List.Forall₂ R xs ys) {y : γ} (hy : y ∈ ys) : ∃ x ∈ xs, R x y := by
  induction h with
  | nil => cases hy
  | cons hxy _ ih =>
      rcases List.mem_cons.mp hy with rfl | hy
      · exact ⟨_, List.mem_cons_self, hxy⟩
      · obtain ⟨x, hx, hR⟩ := ih hy
        exact ⟨x, List.mem_cons_of_mem _ hx, hR⟩

/-- A case of a switch follows its meaning. -/
structure ImplementsCase (J : Job) (x : SwitchCase Node) (d : SwitchCase Meaning) : Prop where
  tests : List.Forall₂ J.Implements x.tests d.tests
  body : J.Implements x.body d.body

/-- Dispatch leads to the body of the selected case, or to the default. -/
theorem Follows.dispatch {subject : Operand} {cases : List (SwitchCase Node)}
    {meanings : List (SwitchCase Meaning)} {labels : List Label} {fallback : Label} {v : Value}
    {β : Type} {k : Option Meaning → Eval β} {post : β → Memory → List Value → Prop}
    (h : J.Emits start (Emit.dispatch subject cases none labels fallback) s () t)
    (hcases : List.Forall₂ J.ImplementsCase cases meanings)
    (htests : ∀ x ∈ cases, ∀ n ∈ x.tests, n.ty.isTestOf subject.ty = true)
    (hsuits : subject.ty.suits v (meanings.flatMap fun x => x.tests.map (·.expr)) = true)
    (hlength : labels.length = cases.length) (htemp : m.Temp s subject.slot v)
    (hholds : J.Holds s.scope w m) (hfloor : c.floor.length ≤ s.position)
    (hmarked : ∀ l ∈ fallback :: labels, ∃ p, J.routine.target? l = some p)
    (hcase : ∀ e ∈ meanings.zip labels, ∀ w n, J.Holds s.scope w n → m.Keeps s n →
      J.Arrives c t q n c.floor e.2 ((k (some e.1.body)).run w) post)
    (hnone : ∀ w n, J.Holds s.scope w n → m.Keeps s n →
      J.Arrives c t q n c.floor fallback ((k none).run w) post) :
    J.Follows c s q m c.floor ((Eval.select J.setting subject.ty v meanings >>= k).run w) post := by
  simp only [Emit.dispatch, Emits.bind_iff] at h
  obtain ⟨_, _, hoptions, h⟩ := h
  obtain ⟨rfl, rfl⟩ := hoptions.options
  split at h
  · next keys hkeys =>
      obtain ⟨htabular, hkeys⟩ := tableKeys_eq hkeys
      obtain ⟨⟨hv, hplain⟩, hfits⟩ : (v.isOf subject.ty = true ∧ subject.ty.isPlainOptional = true) ∧
          ∀ x ∈ meanings, ∀ d ∈ x.tests, d.expr.isFittingTest = true := by
        simpa [Ty.suits, htabular] using hsuits
      have hisTest : ∀ x ∈ meanings, ∀ d ∈ x.tests, d.IsTest J.setting subject.ty := by
        intro x hx d hd
        obtain ⟨y, hy, hyx⟩ := exists_of_forall₂ hcases hx
        obtain ⟨n, hn, hnd⟩ := exists_of_forall₂ hyx.tests hd
        exact ⟨hfits x hx d hd, by rw [hnd.ty]; exact htests y hy n hn, hnd.constant⟩
      have hkeys : meanings.mapM (fun x => x.tests.mapM fun d => CaseKey.ofExpr? d.expr) =
          some keys := by
        rw [← hkeys]
        exact (mapM_eq_of_forall₂ hcases fun _ _ h =>
          mapM_eq_of_forall₂ h.tests fun _ _ h => by rw [h.expr]).symm
      have hof : ∀ ks ∈ keys, ∀ k ∈ ks, k.isOf subject.ty.underlying = true := by
        intro ks hks k hk
        obtain ⟨x, hx, hxs⟩ := exists_of_forall₂ (forall₂_of_mapM hkeys) hks
        obtain ⟨d, hd, hdk⟩ := exists_of_forall₂ (forall₂_of_mapM hxs) hk
        have htest := hisTest x hx d hd
        exact (Expr.key_of_test hdk htest.fits htest.test htabular hplain).1
      rw [Eval.select_constant hisTest hkeys htabular hplain hv, pure_bind]
      -- Labels and bodies are selected together.
      have hcount : meanings.length = labels.length := by rw [hlength, hcases.length_eq]
      have hpairs : (meanings.zip labels).map (·.2) = labels :=
        List.map_snd_zip (Nat.le_of_eq hcount.symm)
      have hbodies : (meanings.zip labels).map (·.1.body) = meanings.map (·.body) := by
        conv_rhs => rw [← List.map_fst_zip (Nat.le_of_eq hcount), List.map_map]
        rfl
      refine .tableDispatch h htemp hholds htabular hplain hv hof hmarked fun n hholds hkeeps => ?_
      rw [← hpairs, ← hbodies, firstSelected_map, firstSelected_map]
      cases hselected : firstSelected v keys (meanings.zip labels) with
      | none => exact hnone w n hholds hkeeps
      | some e =>
          obtain ⟨pair, hpair, rfl⟩ := Option.map_eq_some_iff.mp hselected
          exact hcase _ (List.of_mem_zip (List.mem_of_find?_eq_some hpair)).2 w n hholds hkeeps
  · exact .linearDispatch h (hcases.imp fun _ _ h => h.tests) hlength htemp hholds hfloor
      (fun l hl => hmarked l (List.mem_cons_of_mem _ hl)) ⟨rfl, fun _ hi => hi⟩ hcase hnone

/-- A switch follows its evaluation. -/
theorem Realizes.switch {value : Node} {dvalue : Meaning} {cases : List (SwitchCase Node)}
    {meanings : List (SwitchCase Meaning)} {default : Option Node} {fallback : Option Meaning} {ty : Ty}
    (hvalue : J.Implements value dvalue) (hcases : List.Forall₂ J.ImplementsCase cases meanings)
    (hdefault : Option.Rel J.Implements default fallback) :
    J.Realizes (fun exit => Emit.switch value cases default none ty exit)
      (fun exits => Eval.switch J.setting dvalue meanings fallback ty exits)
      (Emitted.ofTy ty false).form := by
  intro start exit s t e h hexit a w m stack hholds hlength
  simp only [Emit.switch, Emit.checkSwitch, ↓Emits.seq_iff, Option.isNone_none, if_true] at h
  obtain ⟨s₀, ⟨s₀', htests, hchecks⟩, h⟩ := h
  obtain ⟨rfl, htested⟩ := htests.checkTests
  obtain rfl := hchecks.checkBranches
  obtain ⟨last, h, hend⟩ := h.withTemps
  rw [hend]
  simp only [↓Emits.seq_iff, Emits.bind_iff] at h
  obtain ⟨usedValue, s₁, hcode, subject, s₂, hspill, labels, s₃, hlabels, other, s₄, hother, done, s₅,
    hdone, s₆, hdispatch, usedCases, s₇, hbodies, s₈, hmarkOther, usedDefault, s₉, hdefaultCode, _,
    hmarkDone, h⟩ := h
  obtain ⟨rfl, rfl⟩ := h.pure
  obtain ⟨hlabelsLength, hlabelsPosition⟩ := hlabels.newLabels
  obtain ⟨hotherTarget, hotherPosition, -⟩ := hmarkOther.mark
  obtain ⟨hdoneTarget, hdonePosition, -⟩ := hmarkDone.mark
  simp only [Emit.spillOperand, Emits.bind_iff] at hspill
  obtain ⟨slot, _, hspill, hoperand⟩ := hspill
  obtain ⟨rfl, rfl⟩ := hoperand.pure
  have hbody := hbodies.caseBodies
  refine .bind (hvalue.operand hcode hexit hholds hlength List.suffix_rfl ?_) hcode.retains ?_
  · intro l hl hused
    exact ⟨hl, by simp [Emitted.ofTy, hused], rfl⟩
  rintro v w n rest rfl hholds _ -
  simp only [hvalue.ty]
  split
  · exact .stuck _
  next hsuits =>
  have hsuits : value.ty.suits v (meanings.flatMap fun x => x.tests.map (·.expr)) = true := by
    simpa using hsuits
  refine .spill hspill hholds fun n htemp hholds _ => ?_
  refine .move (by grind : s₂ ≤ s₅) (by grind) ?_
  refine .dispatch hdispatch hcases htested hsuits hlabelsLength (htemp.later (by grind))
    (hholds.later (by grind)) (by grind) ?_ ?_ ?_
  · intro l hl
    rcases List.mem_cons.mp hl with rfl | hl
    · exact ⟨_, hotherTarget⟩
    · rw [← List.map_snd_zip (Nat.le_of_eq hlabelsLength)] at hl
      obtain ⟨e, he, rfl⟩ := List.mem_map.mp hl
      obtain ⟨u, _, _, _, htarget, -⟩ := hbody e he
      exact ⟨_, htarget⟩
  · rintro ⟨d, l⟩ he w k hholds _
    obtain ⟨y, hy, hyd⟩ := mem_zip_of_forall₂ hcases he
    obtain ⟨u, u', x, usedBody, htarget, hu, hx, hbodyCode, hjump, hused⟩ := hbody _ hy
    refine ⟨u, htarget, by grind, ?_⟩
    refine .andThen (hyd.body.branch hbodyCode hexit (hholds.later (by grind)) (by grind)
      List.suffix_rfl ?_) hbodyCode.retains ?_
    · intro pad hpad husedBody
      exact ⟨hpad, by simp [Emitted.ofTy, hused husedBody], rfl⟩
    · intro result w k rest hleft hholds _ hlength
      refine .jump hjump (.jump _ _ _ (by grind : _ = some last.position)) (by grind) ?_
      exact .ok (by grind) (hholds.later (by grind)) hleft
  · intro w k hholds _
    refine ⟨s₈, by grind, by grind, ?_⟩
    refine .andThen (.defaultBody hdefaultCode hdefault hexit (hholds.later (by grind)) (by grind)
      List.suffix_rfl ?_) hdefaultCode.retains ?_
    · intro pad hpad husedDefault
      exact ⟨hpad, by simp [Emitted.ofTy, husedDefault], rfl⟩
    · intro result w k rest hleft hholds _ hlength
      exact .move hmarkDone.retains (by grind) (.ok (by grind) (hholds.later (by grind)) hleft)

end Job

end Arbor
