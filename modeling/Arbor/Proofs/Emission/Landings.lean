/-
  Landings of emission.

  An expression that lands on its own leaves a placeholder in front of its code and
  a pad behind it.  If it reports its exit, the placeholder records the depth of the
  stack in a local of its own, and the pad cuts the stack down to that depth;
  otherwise no branch leads to the pad, which is forgotten once it is marked.

  Checks for null and of indices are told apart from other tests by what stands in
  front of them.  They take the exit that was lent, or land inside.

  Emission is followed from states in which whatever is in use is live, as long as
  slots can be numbered: then nothing in between names the local.
-/
import Arbor.Proofs.Emission.Allocating
import Arbor.Proofs.Emission.Exits
import Arbor.Proofs.Emission.Sparing

set_option autoImplicit false

namespace Arbor

/-! ## Landings -/

/-- A landing: the position of its placeholder, its pad, and the local for the depth of the stack. -/
structure Landing where
  placeholder : Nat
  pad : Label
  mark : Nat

/-- The setting of an emission, and the trees that may have landings of their own. -/
structure Origin where
  setting : Setting
  parts : Expr → Prop

/-- The state in which a body is emitted that lands on its own: a local for the depth is in use, the
placeholder stands in front, and the pad has been made. -/
def Emission.approach (s : Emission) : Emission :=
  { s with
    pool := (s.pool.acquire s.builder .int).2.1,
    builder := ((s.pool.acquire s.builder .int).2.2.emit .nop).defineLabel.2 }

/-- The landing of what is emitted next. -/
def Emission.landing (s : Emission) : Landing :=
  ⟨s.position, s.builder.defineLabel.1, (s.pool.acquire s.builder .int).1⟩

namespace Landing

variable {first : Nat} {b c : Builder} {d : Landing} {org : Origin}

/-! ### Checks -/

/-- A check for null, or the first test of a check of an index, that takes the label: the test is behind
the position. -/
def CheckAt (code : Array Instr) (p : Nat) (l : Label) : Prop :=
  (code[p]? = some .dup ∧ code[p + 1]? = some (.jumpIfAbsent l)) ∨
    (code[p]? = some (.compare .lt) ∧ code[p + 1]? = some (.jumpIfTrue l))

/-- The second test of a check of an index takes the label. -/
def TestsOn (code : Array Instr) (p : Nat) (l : Label) : Prop :=
  ∃ q, p < q ∧ code[q]? = some (.compare .lt) ∧ code[q + 1]? = some (.jumpIfFalse l) ∧
    ∀ r i, p < r → r ≤ q → code[r]? = some i → i.labels = []

/-- The check takes the exit or the pad of a landing, and if it is one of an index, both its tests do. -/
structure Takes (exit : Option Label) (ds : List Landing) (code : Array Instr) (p : Nat) (l : Label) :
    Prop where
  lands : exit = some l ∨ ∃ d ∈ ds, d.pad = l
  testsOn : code[p]? = some (.compare .lt) → TestsOn code (p + 1) l

section

variable {code : Array Instr} {p : Nat} {l : Label} {exit exit' : Option Label} {ds ds' : List Landing}

theorem CheckAt.test (h : CheckAt code p l) : ∃ i, code[p + 1]? = some i ∧ i.isTest = true := by
  rcases h with ⟨-, h⟩ | ⟨-, h⟩
  · exact ⟨_, h, rfl⟩
  · exact ⟨_, h, rfl⟩

theorem CheckAt.names (h : CheckAt code p l) : ∃ i, code[p + 1]? = some i ∧ l ∈ i.labels := by
  rcases h with ⟨-, h⟩ | ⟨-, h⟩
  · exact ⟨_, h, List.mem_cons_self⟩
  · exact ⟨_, h, List.mem_cons_self⟩

theorem CheckAt.of_retains (h : CheckAt c.code p l) (hk : b.Retains first c) (hp : first ≤ p)
    (hlt : p + 1 < b.position) : CheckAt b.code p l := by
  have hfirst := hk.code p hp (Nat.lt_of_succ_lt hlt)
  have hsecond := hk.code (p + 1) (Nat.le_succ_of_le hp) hlt
  simpa only [CheckAt, hfirst, hsecond] using h

theorem TestsOn.retain (h : TestsOn b.code p l) (hk : b.Retains first c) (hp : first ≤ p) :
    TestsOn c.code p l := by
  obtain ⟨q, hq, hcompare, htest, hbetween⟩ := h
  have hlt : q < b.position := (Array.getElem?_eq_some_iff.mp hcompare).1
  refine ⟨q, hq, hk.some (by omega) hcompare, hk.some (by omega) htest, fun r i hr hrq hi => ?_⟩
  rw [hk.code r (by omega) (by omega)] at hi
  exact hbetween r i hr hrq hi

theorem Takes.retain (h : Takes exit ds b.code p l) (hk : b.Retains first c) (hp : first ≤ p)
    (hlt : p < b.position)
    (hlands : exit = some l ∨ (∃ d ∈ ds, d.pad = l) → exit' = some l ∨ ∃ d ∈ ds', d.pad = l) :
    Takes exit' ds' c.code p l := by
  refine ⟨hlands h.lands, fun hcompare => ?_⟩
  rw [hk.code p hp hlt] at hcompare
  exact (h.testsOn hcompare).retain hk (Nat.le_succ_of_le hp)

end

/-! ### Guards -/

/-- The depth is recorded at the placeholder, nothing up to the pad names its local, and the pad cuts
the stack down to that depth. -/
structure Guards (d : Landing) (code : Array Instr) (pad : Nat) : Prop where
  before : d.placeholder < pad
  mark : code[d.placeholder]? = some (.markStack d.mark)
  spared : ∀ p i, d.placeholder < p → p < pad → code[p]? = some i → d.mark ∉ i.slots
  reset : code[pad]? = some (.resetStack d.mark)

/-- The placeholder is left as it is, and nothing from the position on names the pad. -/
structure Idles (d : Landing) (code : Array Instr) (first : Nat) : Prop where
  placeholder : code[d.placeholder]? = some .nop
  unnamed : ∀ p i, first ≤ p → code[p]? = some i → d.pad ∉ i.labels

/-- One of the trees was emitted right behind the placeholder with the pad as its exit, which it
reported or not, and its code has stayed. -/
def Stems (org : Origin) (d : Landing) (code : Array Instr) (used : Bool) : Prop :=
  ∃ (e : Expr) (shape : Shape) (s u : Emission) (a : Emitted), org.parts e ∧
    (e.toNode.emit (some d.pad) shape false).run org.setting s.approach = .ok a u ∧
    d = s.landing ∧ a.usedExit = used ∧
    ∀ p, s.position < p → p < u.position → code[p]? = u.builder.code[p]?

/-- The landing of some tree: it is set up if the tree reported its exit, and idles if not. -/
def Settled (org : Origin) (first : Nat) (d : Landing) (b : Builder) : Prop :=
  (d.Stems org b.code true ∧
      ∃ pad, b.labels[d.pad.index]? = some (some pad) ∧ d.Guards b.code pad) ∨
    (d.Stems org b.code false ∧ d.Idles b.code first)

/-- The instruction belongs to the landing: it is a placeholder, or cuts the stack at the pad. -/
def Owns (d : Landing) (b : Builder) (p : Nat) : Instr → Prop
  | .resetStack n => b.labels[d.pad.index]? = some (some p) ∧ n = d.mark
  | _ => p = d.placeholder

theorem Guards.retain {pad : Nat} (h : d.Guards b.code pad) (hfirst : first ≤ d.placeholder)
    (hk : b.Retains first c) : d.Guards c.code pad := by
  have hlt : pad < b.position := (Array.getElem?_eq_some_iff.mp h.reset).1
  refine ⟨h.before, hk.some hfirst h.mark, fun p i hp hp' hi => ?_,
    hk.some (Nat.le_trans hfirst (Nat.le_of_lt h.before)) h.reset⟩
  rw [hk.code p (Nat.le_trans hfirst (Nat.le_of_lt hp)) (Nat.lt_trans hp' hlt)] at hi
  exact h.spared p i hp hp' hi

theorem Stems.retain {used : Bool} (h : d.Stems org b.code used) (hfirst : first ≤ d.placeholder)
    (hk : b.Retains first c) : d.Stems org c.code used := by
  obtain ⟨e, shape, s, u, a, he, hrun, rfl, hused, hcode⟩ := h
  refine ⟨e, shape, s, u, a, he, hrun, rfl, hused, fun p hp hlt => ?_⟩
  have hthere : u.builder.code[p]? = some u.builder.code[p] := Array.getElem?_eq_getElem hlt
  rw [hthere]
  exact hk.some (Nat.le_trans hfirst (Nat.le_of_lt hp)) ((hcode p hp hlt).trans hthere)

/-- A landing stays as it is where its code does, and where no other code names the pad of one that
idles. -/
theorem Settled.retain {first' : Nat} (h : d.Settled org first b) (hfirst : first ≤ d.placeholder)
    (hk : b.Retains first c)
    (hidles : (∀ p i, first ≤ p → b.code[p]? = some i → d.pad ∉ i.labels) →
      ∀ p i, first' ≤ p → c.code[p]? = some i → d.pad ∉ i.labels) : d.Settled org first' c := by
  rcases h with ⟨hstems, pad, hpad, hguards⟩ | ⟨hstems, hnop, hunnamed⟩
  · exact .inl ⟨hstems.retain hfirst hk, pad, hk.marks _ _ hpad, hguards.retain hfirst hk⟩
  · exact .inr ⟨hstems.retain hfirst hk, hk.some hfirst hnop, hidles hunnamed⟩

theorem Owns.retain {p : Nat} {i : Instr} (h : d.Owns b p i) (hk : b.Retains first c) :
    d.Owns c p i := by
  cases i <;> first | exact ⟨hk.marks _ _ h.1, h.2⟩ | exact h

end Landing

/-- The landings between the builders, where labels are handed on: their pads were made in between and
are not handed on, all instructions of landings belong to them, and checks take the exit or land. -/
structure Builder.Lands (org : Origin) (exit : Option Label) (handed : List Label) (b c : Builder)
    (ds : List Landing) : Prop where
  made : ∀ d ∈ ds, b.Makes c d.pad ∧ d.pad ∉ handed
  placed : ∀ d ∈ ds, b.position ≤ d.placeholder
  settled : ∀ d ∈ ds, d.Settled org b.position c
  covers : ∀ p i, b.position ≤ p → c.code[p]? = some i → i.isLanding = true → ∃ d ∈ ds, d.Owns c p i
  checks : ∀ p l, b.position ≤ p + 1 → Landing.CheckAt c.code p l → Landing.Takes exit ds c.code p l

/-- Whatever is in use is live, and labels that may be named have been made. -/
structure Emission.Prepared (tree : Label → Prop) (own : List Label) (exit : Option Label)
    (s : Emission) : Prop where
  tidy : s.Tidy
  table : s.Tabled tree
  made : ∀ l, l ∈ own ∨ exit = some l ∨ tree l → l.index < s.builder.labels.size
  scope : ∀ v ∈ s.scope, ∀ n, v.2.1 = .local n → n ∈ s.pool.live
  values : ∀ id info n, s.labels.lookup id = some info → info.valueSlot = some n → n ∈ s.pool.live

namespace Emission

variable {tree : Label → Prop} {own own' handed handed' : List Label} {exit exit' : Option Label}
  {s t u : Emission} {org : Origin} {ds ds' : List Landing}

theorem Prepared.weaken (h : s.Prepared tree own' exit') (hown : ∀ l ∈ own, l ∈ own')
    (hexit : ∀ l, exit = some l → l ∈ own' ∨ exit' = some l) : s.Prepared tree own exit := by
  refine ⟨h.tidy, h.table, fun l hl => h.made l ?_, h.scope, h.values⟩
  rcases hl with hl | hl | hl
  · exact .inl (hown l hl)
  · exact (hexit l hl).imp_right .inl
  · exact .inr (.inr hl)

/-- A label of the tree has been made, so it may be lent. -/
theorem Prepared.lend (hs : s.Prepared tree own exit) {l : Label} (hl : tree l) :
    s.Prepared tree (l :: own) exit := by
  refine ⟨hs.tidy, hs.table, fun m hm => hs.made m ?_, hs.scope, hs.values⟩
  rcases hm with hm | hm
  · exact (List.mem_cons.mp hm).elim (fun heq => .inr (.inr (heq ▸ hl))) .inl
  · exact .inr hm

/-- What was in use still is, and labels that are handed on have been made. -/
theorem Prepared.after (hs : s.Prepared tree own exit) (hgrows : s.Grows u)
    (hlimit : u.builder.locals.size ≤ Builder.slotLimit) (h : Names tree own exit handed s u) :
    u.Prepared tree (handed ++ own) exit := by
  refine ⟨hgrows.tidy hlimit hs.tidy, ?_, fun l hl => ?_, fun v hv n hn => ?_,
    fun id info n hinfo hn => ?_⟩
  · unfold Tabled
    rw [h.table]
    exact hs.table
  · have hold : l ∈ own ∨ exit = some l ∨ tree l → l.index < u.builder.labels.size := fun hl =>
      Nat.lt_of_lt_of_le (hs.made l hl) hgrows.labels
    rcases hl with hl | hl
    · rcases h.lent hl with hl | hl
      · exact hold (.inl hl)
      · exact hl.2
    · exact hold (.inr hl)
  · rw [hgrows.scope] at hv
    exact hgrows.live.subset (hs.scope v hv n hn)
  · rw [h.table] at hinfo
    exact hgrows.live.subset (hs.values id info n hinfo hn)

theorem Prepared.unlent (hs : s.Prepared tree own exit) {l : Label}
    (hl : s.builder.labels.size ≤ l.index) : ¬ (l ∈ own ∨ exit = some l ∨ tree l) :=
  fun hlent => absurd (hs.made l hlent) (Nat.not_lt.mpr hl)

end Emission

namespace Builder.Lands

variable {org : Origin} {exit exit' : Option Label} {handed : List Label} {b c : Builder}
  {ds : List Landing} {is : List Instr}

theorem weaken (h : Lands org exit handed b c ds) (hexit : ∀ l, exit = some l → exit' = some l) :
    Lands org exit' handed b c ds :=
  ⟨h.made, h.placed, h.settled, h.covers, fun p l hp hcheck =>
    ⟨(h.checks p l hp hcheck).lands.imp_left (hexit l), (h.checks p l hp hcheck).testsOn⟩⟩

/-- Code without landings that does not start with a test. -/
theorem of_code (hcode : ∀ n, c.code[b.position + n]? = is[n]?) (hplain : ∀ i ∈ is, i.isLanding = false)
    (hfirst : ∀ i, is[0]? = some i → i.isTest = false)
    (hchecks : ∀ n l, Landing.CheckAt is.toArray n l → Landing.Takes exit [] is.toArray n l) :
    Lands org exit handed b c [] := by
  refine ⟨nofun, nofun, nofun, fun p i hp hi hlanding => ?_, fun p l hp hcheck => ?_⟩
  · obtain ⟨n, rfl⟩ := Nat.exists_eq_add_of_le hp
    rw [hcode] at hi
    exact absurd hlanding (Bool.eq_false_iff.mp (hplain i (List.mem_of_getElem? hi)))
  · obtain ⟨n, hn⟩ := Nat.exists_eq_add_of_le hp
    cases n with
    | zero =>
        obtain ⟨i, hi, htest⟩ := hcheck.test
        rw [hn, hcode] at hi
        exact absurd htest (Bool.eq_false_iff.mp (hfirst i hi))
    | succ n =>
        obtain rfl : p = b.position + n := Nat.succ.inj hn
        have hshift : ∀ q, c.code[b.position + q]? = is.toArray[q]? := fun q => by
          rw [hcode, List.getElem?_toArray]
        have hthere : Landing.CheckAt is.toArray n l := by
          simpa only [Landing.CheckAt, Nat.add_assoc, hshift] using hcheck
        obtain ⟨hlands, htests⟩ := hchecks n l hthere
        refine ⟨hlands, fun hcompare => ?_⟩
        rw [hshift] at hcompare
        obtain ⟨q, hq, hagain, htest, hbetween⟩ := htests hcompare
        refine ⟨b.position + q, by omega, (hshift q).trans hagain, (hshift (q + 1)).trans htest,
          fun r i hr hrq hi => ?_⟩
        obtain ⟨r, rfl⟩ : ∃ k, r = b.position + k := Nat.exists_eq_add_of_le (by omega)
        rw [hshift] at hi
        exact hbetween r i (by omega) (by omega) hi

theorem of_plain (hcode : ∀ n, c.code[b.position + n]? = is[n]?)
    (hplain : ∀ i ∈ is, i.isLanding = false ∧ i.isTest = false) : Lands org exit handed b c [] := by
  refine .of_code hcode (fun i hi => (hplain i hi).1)
    (fun i hi => (hplain i (List.mem_of_getElem? hi)).2) fun n l hcheck => ?_
  obtain ⟨i, hi, htest⟩ := hcheck.test
  rw [List.getElem?_toArray] at hi
  exact absurd htest (Bool.eq_false_iff.mp (hplain i (List.mem_of_getElem? hi)).2)

theorem nil (hcode : c.code = b.code) : Lands org exit handed b c [] := by
  have hnone : ∀ n, c.code[b.position + n]? = ([] : List Instr)[n]? := fun n => by
    rw [hcode]
    exact Array.getElem?_eq_none (Nat.le_add_right _ _)
  exact .of_plain hnone fun _ h => absurd h List.not_mem_nil

theorem nullCheck {pad : Label} (hcode : ∀ n, c.code[b.position + n]? = [.dup, .jumpIfAbsent pad][n]?) :
    Lands org (some pad) handed b c [] := by
  refine .of_code hcode (by simp [Instr.isLanding]) (by simp [Instr.isTest]) fun n l hcheck => ?_
  rcases n with _ | _ | n
  · rcases hcheck with ⟨-, htest⟩ | ⟨-, htest⟩ <;> cases htest
    exact ⟨.inl rfl, nofun⟩
  all_goals rcases hcheck with ⟨-, htest⟩ | ⟨-, htest⟩ <;> cases htest

theorem nullTest {n : Nat} {l : Label}
    (hcode : ∀ m, c.code[b.position + m]? = [.loadLocal n, .jumpIfAbsent l][m]?) :
    Lands org exit handed b c [] := by
  refine .of_code hcode (by simp [Instr.isLanding]) (by simp [Instr.isTest]) fun m l hcheck => ?_
  rcases m with _ | _ | m <;> rcases hcheck with ⟨hfirst, -⟩ | ⟨hfirst, -⟩ <;> cases hfirst

/-- A condition that does not end with a comparison of order is tested, which is no check. -/
theorem condition {l : Label} (hends : b.code.back? ≠ some (.compare .lt)) :
    Lands org exit handed b (b.emit (.jumpIfTrue l)) [] := by
  have hcode : ∀ p i, b.position ≤ p → (b.emit (.jumpIfTrue l)).code[p]? = some i →
      p = b.position ∧ i = .jumpIfTrue l := by
    intro p i hp hi
    rw [Builder.emit, Array.getElem?_push] at hi
    split at hi
    · next heq => exact ⟨heq, (Option.some.inj hi).symm⟩
    · exact absurd (Array.getElem?_eq_some_iff.mp hi).1 (Nat.not_lt.mpr hp)
  have hnone : ∀ {d : Landing}, d ∉ [] := List.not_mem_nil
  refine ⟨fun _ h => absurd h hnone, fun _ h => absurd h hnone, fun _ h => absurd h hnone,
    fun p i hp hi hlanding => ?_, fun p m hp hcheck => ?_⟩
  · obtain ⟨-, rfl⟩ := hcode p i hp hi
    cases hlanding
  · rcases hcheck with ⟨-, htest⟩ | ⟨hcompare, htest⟩
    · cases (hcode _ _ hp htest).2
    · have hlast : p + 1 = b.code.size := (hcode _ _ hp htest).1
      have hfront : b.code[p]? = some (.compare .lt) := by
        rwa [Builder.emit, Array.getElem?_push_lt (by omega), ← Array.getElem?_eq_getElem] at hcompare
      refine absurd ?_ hends
      rw [Array.back?_eq_getElem?, ← hfront]
      congr 1
      omega

/-- A check of an index takes the exit with both its tests. -/
theorem checkIndex {pad : Label} {front middle : List Instr}
    (hcode : ∀ n, c.code[b.position + n]? =
      (front ++ .compare .lt :: .jumpIfTrue pad :: (middle ++ [.compare .lt, .jumpIfFalse pad]))[n]?)
    (hfront : ∀ i ∈ front, i.labels = [] ∧ i.isLanding = false)
    (hmiddle : ∀ i ∈ middle, i.labels = [] ∧ i.isLanding = false) :
    Lands org (some pad) handed b c [] := by
  let tail : List Instr := .compare .lt :: .jumpIfTrue pad :: (middle ++ [.compare .lt, .jumpIfFalse pad])
  have hat : ∀ k, (front ++ tail)[front.length + k]? = tail[k]? := fun k => by
    rw [List.getElem?_append_right (Nat.le_add_right _ _), Nat.add_sub_cancel_left]
  have hnext : ∀ k, tail[k + 2]? = (middle ++ [.compare .lt, .jumpIfFalse pad])[k]? := fun _ => rfl
  refine .of_code hcode ?_ ?_ fun n l hcheck => ?_
  · intro i hi
    simp only [List.mem_append, List.mem_cons, List.not_mem_nil, or_false] at hi
    rcases hi with hi | rfl | rfl | hi | rfl | rfl
    · exact (hfront i hi).2
    · rfl
    · rfl
    · exact (hmiddle i hi).2
    · rfl
    · rfl
  · intro i hi
    cases front with
    | nil =>
        cases hi
        rfl
    | cons first front =>
        cases hi
        exact Instr.isTest_of_labels (hfront _ List.mem_cons_self).1
  · obtain ⟨i, hi, htest⟩ := hcheck.test
    rw [List.getElem?_toArray] at hi
    -- There is but one test in the code.
    have hplace : n = front.length := by
      by_cases hlt : n + 1 < front.length
      · rw [List.getElem?_append_left hlt] at hi
        have hnone := (hfront i (List.mem_of_getElem? hi)).1
        exact absurd htest (Bool.eq_false_iff.mp (Instr.isTest_of_labels hnone))
      · obtain ⟨k, hk⟩ := Nat.exists_eq_add_of_le (Nat.le_of_not_lt hlt)
        rw [hk] at hi
        replace hi := (hat k).symm.trans hi
        rcases k with _ | _ | k
        · cases hi
          cases htest
        · omega
        · rw [hnext] at hi
          rcases List.mem_append.mp (List.mem_of_getElem? hi) with hmem | hmem
          · exact absurd htest (Bool.eq_false_iff.mp (Instr.isTest_of_labels (hmiddle i hmem).1))
          · simp only [List.mem_cons, List.not_mem_nil, or_false] at hmem
            rcases hmem with rfl | rfl <;> cases htest
    subst hplace
    have hsecond : (front ++ tail).toArray[front.length + 1]? = some (.jumpIfTrue pad) := by
      rw [List.getElem?_toArray, hat]
      rfl
    obtain rfl : l = pad := by
      rcases hcheck with ⟨-, hthere⟩ | ⟨-, hthere⟩ <;> cases hthere.symm.trans hsecond
      rfl
    have hend : ∀ k, tail[middle.length + 2 + k]? = [Instr.compare .lt, .jumpIfFalse l][k]? := fun k => by
      rw [Nat.add_right_comm, hnext, List.getElem?_append_right (Nat.le_add_right _ _),
        Nat.add_sub_cancel_left]
    refine ⟨.inl rfl, fun _ => ⟨front.length + (middle.length + 2), by omega, ?_, ?_, fun r i hr hrq hi => ?_⟩⟩
    · rw [List.getElem?_toArray]
      exact (hat _).trans (hend 0)
    · rw [List.getElem?_toArray]
      exact (hat _).trans (hend 1)
    · obtain ⟨k, rfl⟩ : ∃ k, r = front.length + (k + 2) := ⟨r - front.length - 2, by omega⟩
      rw [List.getElem?_toArray] at hi
      replace hi := (hat _).symm.trans hi
      rw [hnext] at hi
      by_cases hlt : k < middle.length
      · rw [List.getElem?_append_left hlt] at hi
        exact (hmiddle i (List.mem_of_getElem? hi)).1
      · obtain rfl : k = middle.length := by omega
        rw [List.getElem?_append_right (Nat.le_refl _), Nat.sub_self] at hi
        cases hi
        rfl

end Builder.Lands

namespace Emission

variable {tree : Label → Prop} {own handed handed' : List Label} {exit : Option Label}
  {s t u : Emission} {org : Origin} {ds ds' : List Landing}

/-- Landings one after the other: later code does not name the pads of earlier ones, and earlier code
none that are made later. -/
theorem lands_trans (hs : s.Prepared tree own exit) (hsu : s.Grows u) (hut : u.Grows t)
    (hnames : Names tree own exit handed s u)
    (hnames' : Names tree (handed ++ own) exit handed' u t)
    (h : Builder.Lands org exit handed s.builder u.builder ds)
    (k : Builder.Lands org exit handed' u.builder t.builder ds') :
    Builder.Lands org exit handed' s.builder t.builder (ds ++ ds') := by
  have hextends := Builder.Extends.of_grows hut
  have hretains : u.builder.Retains 0 t.builder := hextends.retains
  have hposition : s.builder.position ≤ u.builder.position := hsu.position_le
  -- Labels that were made before and are not handed on are out of reach behind.
  have hgone : ∀ l, s.builder.Makes u.builder l → l ∉ handed →
      (l ∈ handed ++ own ∨ exit = some l ∨ tree l ∨ u.builder.Makes t.builder l) → False := by
    rintro l hl hnot (hlent | hexit | htree | hmade)
    · exact (List.mem_append.mp hlent).elim hnot fun hmem => hs.unlent hl.1 (.inl hmem)
    · exact hs.unlent hl.1 (.inr (.inl hexit))
    · exact hs.unlent hl.1 (.inr (.inr htree))
    · exact absurd hl.2 (Nat.not_lt.mpr hmade.1)
  refine ⟨fun d hd => ?_, fun d hd => ?_, fun d hd => ?_, fun p i hp hi hlanding => ?_,
    fun p l hp hcheck => ?_⟩
  · rcases List.mem_append.mp hd with hd | hd
    · obtain ⟨hmade, hnot⟩ := h.made d hd
      refine ⟨⟨hmade.1, Nat.lt_of_lt_of_le hmade.2 hut.labels⟩, fun hmem => ?_⟩
      rcases hnames'.handed _ hmem with hlent | hlater
      · exact hgone _ hmade hnot (.inl hlent)
      · exact hgone _ hmade hnot (.inr (.inr (.inr hlater)))
    · obtain ⟨hmade, hnot⟩ := k.made d hd
      exact ⟨⟨Nat.le_trans hsu.labels hmade.1, hmade.2⟩, hnot⟩
  · rcases List.mem_append.mp hd with hd | hd
    · exact h.placed d hd
    · exact Nat.le_trans hposition (k.placed d hd)
  · rcases List.mem_append.mp hd with hd | hd
    · refine (h.settled d hd).retain (h.placed d hd) hextends.retains fun hunnamed p i hp hi hmem => ?_
      by_cases hlt : p < u.builder.position
      · rw [hextends.getElem?_code hlt] at hi
        exact hunnamed p i hp hi hmem
      · exact hgone _ (h.made d hd).1 (h.made d hd).2
          (hnames'.code p i (Nat.le_of_not_lt hlt) hi _ hmem)
    · refine (k.settled d hd).retain (k.placed d hd) (Builder.Extends.refl _).retains
        fun hunnamed p i hp hi hmem => ?_
      by_cases hlt : p < u.builder.position
      · rw [hextends.getElem?_code hlt] at hi
        have hlater := (k.made d hd).1.1
        have hunlent := hs.unlent (Nat.le_trans hsu.labels hlater)
        rcases hnames.code p i hp hi _ hmem with hlent | hlent | hlent | hmade
        · exact hunlent (.inl hlent)
        · exact hunlent (.inr (.inl hlent))
        · exact hunlent (.inr (.inr hlent))
        · exact absurd hmade.2 (Nat.not_lt.mpr hlater)
      · exact hunnamed p i (Nat.le_of_not_lt hlt) hi hmem
  · by_cases hlt : p < u.builder.position
    · have hi' := hi
      rw [hextends.getElem?_code hlt] at hi'
      obtain ⟨d, hd, howns⟩ := h.covers p i hp hi' hlanding
      exact ⟨d, List.mem_append_left _ hd, howns.retain hretains⟩
    · obtain ⟨d, hd, howns⟩ := k.covers p i (Nat.le_of_not_lt hlt) hi hlanding
      exact ⟨d, List.mem_append_right _ hd, howns⟩
  · by_cases hlt : p + 1 < u.builder.position
    · refine (h.checks p l hp (hcheck.of_retains hretains (Nat.zero_le _) hlt)).retain hretains
        (Nat.zero_le _) (Nat.lt_of_succ_lt hlt) (Or.imp_right ?_)
      exact fun ⟨d, hd, hpad⟩ => ⟨d, List.mem_append_left _ hd, hpad⟩
    · obtain ⟨hlands, htests⟩ := k.checks p l (Nat.le_of_not_lt hlt) hcheck
      exact ⟨hlands.imp_right fun ⟨d, hd, hpad⟩ => ⟨d, List.mem_append_right _ hd, hpad⟩, htests⟩

end Emission

/-! ## Emitters with landings -/

namespace Emit

variable {α β : Type} {org : Origin} {tree : Label → Prop} {own : List Label}
  {exit : Option Label}

/-- The emitter adds these instructions. -/
def Appends (x : Emit α) (is : List Instr) : Prop :=
  ∀ setting s t a, x.run setting s = .ok a t → t.builder.code = s.builder.code ++ is.toArray

namespace Appends

variable {x : Emit α} {is js : List Instr}

theorem instr {i : Instr} : (Emit.instr i).Appends [i] := by
  intro setting s t a hrun
  cases hrun
  exact (Array.append_singleton ..).symm

theorem done {a : α} : (Pure.pure a : Emit α).Appends [] := by
  intro setting s t b hrun
  cases hrun
  exact Array.append_empty.symm

theorem bind {f : α → Emit β} (hx : x.Appends is) (hf : ∀ a, (f a).Appends js) :
    (x >>= f).Appends (is ++ js) := by
  intro setting s t b hrun
  obtain ⟨a, u, hxu, hfu⟩ := run_bind hrun
  rw [hf a _ _ _ _ hfu, hx _ _ _ _ hxu, Array.append_assoc]
  exact congrArg _ (List.append_toArray is js)

theorem instrs : (Emit.instrs is).Appends is := by
  induction is with
  | nil => exact done
  | cons i is ih => exact instr.bind fun _ => ih

theorem getElem? (h : x.Appends is) {setting : Setting} {s t : Emission} {a : α}
    (hrun : x.run setting s = .ok a t) (n : Nat) : t.builder.code[s.builder.position + n]? = is[n]? := by
  have hbehind : s.builder.code.size ≤ s.builder.position + n := Nat.le_add_right _ _
  rw [h _ _ _ _ hrun, Array.getElem?_append_right hbehind, List.getElem?_toArray]
  exact congrArg _ (Nat.add_sub_cancel_left _ _)

end Appends

/-- A check of an index compares twice. -/
theorem appends_checkIndex {pad : Label} {kind : PlaceKind} {container dim index : Nat} :
    ∃ front middle : List Instr, (checkIndex pad kind container dim index).Appends
        (front ++ .compare .lt :: .jumpIfTrue pad :: (middle ++ [.compare .lt, .jumpIfFalse pad])) ∧
      (∀ i ∈ front, i.labels = [] ∧ i.isLanding = false) ∧
      ∀ i ∈ middle, i.labels = [] ∧ i.isLanding = false := by
  have hlength : ∃ length : List Instr, (loadDimension kind dim).Appends length ∧
      ∀ i ∈ length, i.labels = [] ∧ i.isLanding = false := by
    unfold Emit.loadDimension
    split
    · exact ⟨_, .instr, by simp [Instr.labels, Instr.isLanding]⟩
    · exact ⟨_, .bind .instr fun _ => .instr, by simp [Instr.labels, Instr.isLanding]⟩
    · exact ⟨_, .instr, by simp [Instr.labels, Instr.isLanding]⟩
  obtain ⟨length, happends, hplain⟩ := hlength
  refine ⟨[.loadLocal index, .const (.num (.i32 0))], .loadLocal index :: .loadLocal container :: length,
    ?_, by simp [Instr.labels, Instr.isLanding], ?_⟩
  · exact Appends.instr.bind fun _ => Appends.instr.bind fun _ => Appends.instrs.bind fun _ =>
      happends.bind fun _ => .instrs
  · simpa [Instr.labels, Instr.isLanding] using hplain

/-- Every successful run from a prepared state leaves landings, as long as slots can be numbered. -/
def SetsUp (org : Origin) (tree : Label → Prop) (own : List Label) (exit : Option Label)
    (x : Emit α) (handed : α → List Label) : Prop :=
  ∀ s t a, x.run org.setting s = .ok a t → t.builder.locals.size ≤ Builder.slotLimit →
    s.Prepared tree own exit → ∃ ds, Builder.Lands org exit (handed a) s.builder t.builder ds

/-- Emitters that name what is lent and leave landings. -/
def Settles (org : Origin) (tree : Label → Prop) (own : List Label) (exit : Option Label)
    (x : Emit α) (handed : α → List Label) (Q : α → Prop) : Prop :=
  (namingRules tree).Holds own exit x handed Q ∧ SetsUp org tree own exit x handed

namespace SetsUp

variable {x : Emit α} {handed : α → List Label}

theorem of_codeless (hx : Codeless x) : SetsUp org tree own exit x handed :=
  fun s t a hrun _ _ => ⟨[], .nil (hx org.setting s t a hrun).2⟩

theorem instr {i : Instr} (hi : i.isLanding = false) (htest : i.isTest = false) :
    SetsUp org tree own exit (Emit.instr i) fun _ => [] := fun _ _ _ hrun _ _ =>
  ⟨[], .of_plain (Appends.instr.getElem? hrun) (List.forall_mem_singleton.mpr ⟨hi, htest⟩)⟩

/-- One emitter after the other. -/
theorem bind {f : α → Emit β} {handed' : β → List Label} {P : α → Prop} {Q : β → Prop}
    (hx : Settles org tree own exit x handed P)
    (hf : ∀ a, P a → Settles org tree (handed a ++ own) exit (f a) handed' Q) :
    SetsUp org tree own exit (x >>= f) handed' := by
  intro s t b hrun hlimit hs
  obtain ⟨a, u, hxu, hfu⟩ := run_bind hrun
  have hsu := x.grows hxu
  have hut := (f a).grows hfu
  have hlimit' := Nat.le_trans hut.locals_le hlimit
  obtain ⟨hnames, hP⟩ := hx.1 _ _ _ _ hxu hs.table
  have hu := hs.after hsu hlimit' hnames
  obtain ⟨hnames', -⟩ := (hf a hP).1 _ _ _ _ hfu hu.table
  obtain ⟨ds, hds⟩ := hx.2 _ _ _ hxu hlimit' hs
  obtain ⟨ds', hds'⟩ := (hf a hP).2 _ _ _ hfu hlimit hu
  exact ⟨ds ++ ds', Emission.lands_trans hs hsu hut hnames hnames' hds hds'⟩

theorem withTemps (hx : SetsUp org tree own exit x handed) :
    SetsUp org tree own exit (Emit.withTemps x) handed := by
  intro s t a hrun hlimit hs
  simp only [Emit.withTemps] at hrun
  split at hrun
  · next u hxu =>
      cases hrun
      exact hx s u a hxu hlimit hs
  · cases hrun

end SetsUp

/-- The rules of emitters with landings. -/
def landingRules (org : Origin) (tree : Label → Prop) : Rules where
  Holds := Settles org tree
  Slot _ := True
  Arg _ := True
  Child _ := True
  pure hQ hhanded := ⟨(namingRules tree).pure hQ hhanded, fun s t a hrun _ _ => by
    cases hrun
    exact ⟨[], .nil rfl⟩⟩
  bind hx hf := ⟨(namingRules tree).bind hx.1 fun a hP => (hf a hP).1, .bind hx hf⟩
  weaken hx hown hexit hQ := ⟨(namingRules tree).weaken hx.1 hown hexit hQ,
    fun s t a hrun hlimit hs =>
      let ⟨ds, hds⟩ := hx.2 s t a hrun hlimit (hs.weaken hown fun l hl => .inr (hexit l hl))
      ⟨ds, hds.weaken hexit⟩⟩
  fail he := ⟨(namingRules tree).fail he, fun _ _ _ hrun => nomatch hrun⟩
  read h := ⟨(namingRules tree).read h, .of_codeless codeless_read⟩
  instr hi hnames := ⟨(namingRules tree).instr hi hnames, 
    .instr (Instr.isLanding_of_isSpecial hi) (Instr.isTest_of_isSpecial hi)⟩
  newLabel := ⟨(namingRules tree).newLabel, .of_codeless codeless_newLabel⟩
  mark hl := ⟨(namingRules tree).mark hl, .of_codeless codeless_mark⟩
  temp := ⟨(namingRules tree).temp, .of_codeless codeless_temp⟩
  withTemps hx := ⟨(namingRules tree).withTemps hx.1, .withTemps hx.2⟩
  varSlot := ⟨(namingRules tree).varSlot, .of_codeless codeless_read⟩
  helper := ⟨(namingRules tree).helper, .of_codeless codeless_helper⟩

theorem loose_landing (org : Origin) (tree : Label → Prop) : (landingRules org tree).Loose :=
  fun hi htest hnames => ⟨lax_naming tree hi hnames, .instr hi htest⟩

/-- Tests are allowed where they belong: those that land name the exit. -/
theorem tests_landing (org : Origin) (tree : Label → Prop) : (landingRules org tree).AllowsTests where
  nullCheck := ⟨(Rules.Lax.tests (lax_naming tree)).nullCheck, fun s t a hrun _ _ =>
    ⟨[], .nullCheck (Appends.instrs.getElem? hrun)⟩⟩
  nullTest hn hl := ⟨(Rules.Lax.tests (lax_naming tree)).nullTest hn hl, fun s t a hrun _ _ =>
    ⟨[], .nullTest (Appends.instrs.getElem? hrun)⟩⟩
  checkIndex hcontainer hindex := by
    refine ⟨(Rules.Lax.tests (lax_naming tree)).checkIndex hcontainer hindex, fun s t a hrun _ _ => ?_⟩
    obtain ⟨front, middle, happends, hfront, hmiddle⟩ := appends_checkIndex
    exact ⟨[], .checkIndex (happends.getElem? hrun) hfront hmiddle⟩
  condition {_ own exit x l} hx hends hl := by
    have hnames := (Rules.Lax.tests (lax_naming tree)).condition hx.1 hends hl
    refine ⟨hnames, fun s t a hrun hlimit hs => ?_⟩
    obtain ⟨_, u, hxu, htest⟩ := run_bind hrun
    have hsu := x.grows hxu
    have hut := (Emit.instr _).grows htest
    have hlimit' := Nat.le_trans hut.locals_le hlimit
    obtain ⟨hfirst, -⟩ := hx.1 _ _ _ _ hxu hs.table
    have hu := hs.after hsu hlimit' hfirst
    have hjump : NamesLent tree ([] ++ own) exit (Emit.instr (.jumpIfTrue l)) (fun _ => []) fun _ => True :=
      NamesLent.instr fun m hm => .inl (List.mem_singleton.mp hm ▸ hl)
    obtain ⟨hsecond, -⟩ := hjump _ _ _ _ htest hu.table
    obtain ⟨ds, hds⟩ := hx.2 _ _ _ hxu hlimit' hs
    cases htest
    exact ⟨_, Emission.lands_trans hs hsu hut hfirst hsecond hds (.condition (hends _ _ _ _ hxu))⟩

/-- Zeroed locals may be in scope, which are live. -/
theorem binds_landing (org : Origin) (tree : Label → Prop) :
    (landingRules org tree).BindsLocals := by
  intro α own exit vars x handed Q hx
  refine ⟨Rules.AllowsScopes.bindsLocals (scopes_naming tree) hx.1, fun s t a hrun hlimit hs => ?_⟩
  obtain ⟨bound, u, hbind, hrun⟩ := run_bind hrun
  have hsu := (bindLocals vars).grows hbind
  have hut := (inScope bound x).grows hrun
  have hlimit' := Nat.le_trans hut.locals_le hlimit
  have hbound : (landingRules org tree).Ok own exit (bindLocals vars) :=
    Policy.drop Policy.bindLocals
  obtain ⟨hnames, -⟩ := hbound.1 _ _ _ _ hbind hs.table
  obtain ⟨ds, hds⟩ := hbound.2 _ _ _ hbind hlimit' hs
  have hu := hs.after hsu hlimit' hnames
  have hscoped : (namingRules tree).Holds own exit (inScope bound x) handed Q := NamesLent.inScope hx.1
  obtain ⟨hnames', -⟩ := hscoped _ _ _ _ hrun hu.table
  obtain ⟨-, -, hlive⟩ := Allocates.bindLocals_steps hbind []
  simp only [inScope] at hrun
  split at hrun
  · next w hxw =>
      cases hrun
      have hscope : ∀ v ∈ bound.reverse ++ u.scope, ∀ n, v.2.1 = .local n → n ∈ u.pool.live := by
        refine List.forall_mem_append.mpr ⟨fun v hv n hn => ?_, hu.scope⟩
        rw [hlive]
        exact List.mem_append_left _ (List.mem_filterMap.mpr ⟨v, hv, by rw [hn]; rfl⟩)
      obtain ⟨ds', hds'⟩ := hx.2 _ _ _ hxw hlimit ⟨hu.tidy, hu.table, hu.made, hscope, hu.values⟩
      exact ⟨ds ++ ds', Emission.lands_trans hs hsu hut hnames hnames' hds hds'⟩
  · cases hrun

/-! ## Landings -/

/-- The jump over a landing, and the cut of the stack at its pad. -/
def cutStack (d : Landing) : Emit Label := do
  let done ← newLabel
  instr (.jump done)
  mark d.pad
  instr (.resetStack d.mark)
  pure done

/-- What stands at the pad of a landing, up to where it is jumped over to. -/
def pushDefaultLanding (ty : Ty) (form : Form) (done : Label) : Emit Emitted := do
  pushLanding ty form
  mark done
  pure ⟨false, form⟩

/-- A run of a body that lands on its own, where exits are used. -/
theorem run_withLanding {setting : Setting} {ty : Ty} {body : Option Label → Emit Emitted}
    {s t : Emission} {a : Emitted} (hexits : setting.options.usesExits = true)
    (h : (withLanding ty body).run setting s = .ok a t) :
    ∃ e u, (body (some s.landing.pad)).run setting s.approach = .ok e u ∧
      ((e.usedExit = false ∧ (mark s.landing.pad).run setting u = .ok () t) ∨
        (e.usedExit = true ∧ ∃ done v, (cutStack s.landing).run setting
          { u with builder := u.builder.patch s.position (.markStack s.landing.mark) } = .ok done v ∧
          (pushDefaultLanding ty e.form done).run setting v = .ok a t)) := by
  unfold withLanding at h
  obtain ⟨o, _, hread, h⟩ := run_bind h
  cases hread
  rw [if_pos hexits] at h
  obtain ⟨depth, s₁, htemp, h⟩ := run_bind h
  obtain ⟨⟨pad, e⟩, v, hreserved, h⟩ := run_bind h
  simp only [temp] at htemp
  cases htemp
  simp only [reserved] at hreserved
  split at hreserved
  case h_2 => cases hreserved
  next result u hguarded =>
  obtain ⟨made, s₂, hmade, hbody⟩ := run_bind hguarded
  have hpad : made = s.landing.pad := by
    cases hmade
    simp [Emission.landing, Builder.defineLabel, Builder.emit, SlotPool.acquire_labels]
  cases hmade
  obtain ⟨e', u', hbody, hpure⟩ := run_bind hbody
  rw [hpad] at hbody hpure
  cases hpure
  refine ⟨e', u, hbody, ?_⟩
  cases hused : e'.usedExit with
  | false =>
      simp only [hused] at hreserved
      cases hreserved
      simp only [hused] at h
      obtain ⟨_, w, hmark, hpure⟩ := run_bind h
      cases hpure
      exact .inl ⟨rfl, hmark⟩
  | true =>
      have hposition : (s.pool.acquire s.builder .int).2.2.position = s.position := by
        simp [Builder.position, Emission.position, SlotPool.acquire_code]
      simp only [hused, if_true, hposition] at hreserved
      cases hreserved
      have hland : (cutStack s.landing >>= pushDefaultLanding ty e.form) =
          newLabel >>= fun done => instr (.jump done) >>= fun _ => mark s.landing.pad >>= fun _ =>
            instr (.resetStack s.landing.mark) >>= fun _ => pushDefaultLanding ty e.form done := by
        simp only [cutStack, bind_assoc_emit]
        rfl
      simp only [hused, if_true] at h
      have hrun : (cutStack s.landing >>= pushDefaultLanding ty e.form).run setting _ = .ok a t :=
        hland ▸ h
      obtain ⟨done, v, hcut, hrest⟩ := run_bind hrun
      exact .inr ⟨rfl, done, v, hcut, hrest⟩

end Emit

namespace Emission

variable {org : Origin} {tree : Label → Prop} {own handed : List Label} {exit : Option Label}
  {s u : Emission} {ds : List Landing}

/-! ## In front of a body -/

theorem grows_approach (s : Emission) : s.Grows s.approach :=
  ((Grows.acquire s .int).trans (.emit _ .nop)).trans (.defineLabel _)

theorem code_approach (s : Emission) : s.approach.builder.code = s.builder.code.push .nop := by
  simp [approach, Builder.defineLabel, Builder.emit, SlotPool.acquire_code]

theorem size_labels_approach (s : Emission) :
    s.approach.builder.labels.size = s.landing.pad.index + 1 := by
  simp [approach, landing, Builder.defineLabel, Builder.emit, SlotPool.acquire_labels]

theorem position_approach (s : Emission) : s.approach.position = s.position + 1 := by
  simp [position, code_approach]

theorem live_approach (s : Emission) : s.approach.pool.live = s.landing.mark :: s.pool.live :=
  SlotPool.acquire_live _ _ _

/-- The placeholder names nothing, and the pad is lent to the body. -/
theorem names_approach (s : Emission) : Names tree own exit [s.landing.pad] s s.approach := by
  refine ⟨rfl, fun p i hp hi l hl => ?_, List.forall_mem_singleton.mpr (.inr ⟨Nat.le_refl _, ?_⟩)⟩
  · rw [code_approach, Array.getElem?_push] at hi
    split at hi
    · cases hi
      cases hl
    · exact absurd (Array.getElem?_eq_some_iff.mp hi).1 (Nat.not_lt.mpr hp)
  · rw [size_labels_approach]
    exact Nat.lt_succ_self _

variable (hs : s.Prepared tree own exit)

include hs

theorem Prepared.approach (hlimit : s.approach.builder.locals.size ≤ Builder.slotLimit) :
    s.approach.Prepared tree (s.landing.pad :: own) exit :=
  hs.after s.grows_approach hlimit s.names_approach

/-- The pad is none of the labels of the tree. -/
theorem Prepared.lends_approach : s.approach.Lends s.landing.pad := by
  have hpad : ¬ tree s.landing.pad := fun htree => hs.unlent (Nat.le_refl _) (.inr (.inr htree))
  refine ⟨?_, fun id info hinfo heq => hpad (heq ▸ hs.table id info hinfo)⟩
  rw [size_labels_approach]
  exact Nat.lt_succ_self _

/-- The local for the depth is in use for nothing else. -/
theorem Prepared.reserves_approach (hlimit : s.approach.builder.locals.size ≤ Builder.slotLimit) :
    s.approach.Reserves s.landing.mark (s.position + 1) := by
  have hfresh : s.landing.mark ∉ s.pool.live := SlotPool.acquire_fresh hs.tidy hlimit
  refine ⟨(hs.approach hlimit).tidy, ?_, fun v hv hslot => hfresh (hs.scope v hv _ hslot),
    fun id info hinfo hslot => hfresh (hs.values id info _ hinfo hslot), fun p i hp hi => ?_⟩
  · rw [live_approach]
    exact List.mem_cons_self
  · rw [← position_approach] at hp
    exact absurd (Array.getElem?_eq_some_iff.mp hi).1 (Nat.not_lt.mpr hp)

omit hs

/-- The landing of a body encloses those in it: whatever stands behind the body names none of their
pads, and belongs to the landing of the body itself. -/
theorem lands_enclose {c : Builder} {front : Instr}
    (hds : Builder.Lands org (some s.landing.pad) [] s.approach.builder u.builder ds) (hgrows : s.approach.Grows u)
    (hk : u.builder.Retains (s.position + 1) c) (hlabels : u.builder.labels.size ≤ c.labels.size)
    (hhanded : ∀ l ∈ handed, u.builder.labels.size ≤ l.index)
    (hfront : c.code[s.position]? = some front) (hnone : front.labels = [])
    (hquiet : front ≠ .dup ∧ front ≠ .compare .lt)
    (hplace : s.landing.Owns c s.position front)
    (hbehind : ∀ p i, u.position ≤ p → c.code[p]? = some i →
      (∀ l ∈ i.labels, u.builder.labels.size ≤ l.index) ∧
        (i.isLanding = true → s.landing.Owns c p i) ∧ i.isTest = false)
    (hsettled : s.landing.Settled org s.builder.position c) :
    Builder.Lands org exit handed s.builder c (s.landing :: ds) := by
  have hsize := s.size_labels_approach
  have hgrown := hgrows.labels
  have hposition : s.approach.builder.position = s.position + 1 := s.position_approach
  have hbefore : s.builder.labels.size = s.landing.pad.index := rfl
  -- Every position is that of the placeholder, in the body or behind it.
  have hcases : ∀ p i, s.builder.position ≤ p → c.code[p]? = some i →
      (p = s.position ∧ i = front) ∨ (s.approach.builder.position ≤ p ∧ u.builder.code[p]? = some i) ∨
        u.position ≤ p := by
    intro p i hp hi
    rcases Nat.eq_or_lt_of_le hp with rfl | hlt
    · exact .inl ⟨rfl, Option.some.inj (hi.symm.trans hfront)⟩
    · by_cases hbody : p < u.builder.position
      · rw [hk.code p hlt hbody] at hi
        exact .inr (.inl ⟨hposition ▸ hlt, hi⟩)
      · exact .inr (.inr (Nat.le_of_not_lt hbody))
  have hmade : ∀ d ∈ s.landing :: ds, s.builder.labels.size ≤ d.pad.index ∧
      d.pad.index < u.builder.labels.size := by
    refine List.forall_mem_cons.mpr ⟨⟨Nat.le_refl _, by omega⟩, fun d hd => ?_⟩
    obtain ⟨⟨hge, hlt⟩, -⟩ := hds.made d hd
    exact ⟨by omega, hlt⟩
  refine ⟨fun d hd => ?_, List.forall_mem_cons.mpr ⟨Nat.le_refl _, fun d hd => ?_⟩,
    List.forall_mem_cons.mpr ⟨hsettled, fun d hd => ?_⟩, fun p i hp hi hlanding => ?_,
    fun p l hp hcheck => ?_⟩
  · obtain ⟨hge, hlt⟩ := hmade d hd
    exact ⟨⟨hge, Nat.lt_of_lt_of_le hlt hlabels⟩,
      fun hmem => absurd hlt (Nat.not_lt.mpr (hhanded _ hmem))⟩
  · exact Nat.le_trans s.grows_approach.position_le (hds.placed d hd)
  · refine (hds.settled d hd).retain (hds.placed d hd) (hposition ▸ hk)
      fun hunnamed p i hp hi hmem => ?_
    rcases hcases p i hp hi with ⟨-, rfl⟩ | ⟨hge, hi⟩ | hge
    · rw [hnone] at hmem
      cases hmem
    · exact hunnamed p i hge hi hmem
    · have hlt := (hmade d (List.mem_cons_of_mem _ hd)).2
      exact absurd hlt (Nat.not_lt.mpr ((hbehind p i hge hi).1 _ hmem))
  · rcases hcases p i hp hi with ⟨rfl, rfl⟩ | ⟨hge, hi⟩ | hge
    · exact ⟨s.landing, List.mem_cons_self, hplace⟩
    · obtain ⟨d, hd, howns⟩ := hds.covers p i hge hi hlanding
      exact ⟨d, List.mem_cons_of_mem _ hd, howns.retain hk⟩
    · exact ⟨s.landing, List.mem_cons_self, (hbehind p i hge hi).2.1 hlanding⟩
  · obtain ⟨i, hi, htest⟩ := hcheck.test
    rcases hcases (p + 1) i hp hi with ⟨-, rfl⟩ | ⟨hge, hbody⟩ | hge
    · exact absurd htest (Bool.eq_false_iff.mp (Instr.isTest_of_labels hnone))
    · have hlt : p + 1 < u.builder.position := (Array.getElem?_eq_some_iff.mp hbody).1
      -- The placeholder does not start a check.
      have hinside : s.position + 1 ≤ p := by
        refine Nat.lt_of_le_of_ne (by omega) fun heq => ?_
        subst heq
        rcases hcheck with ⟨hfirst, -⟩ | ⟨hfirst, -⟩
        · exact hquiet.1 (Option.some.inj (hfront.symm.trans hfirst))
        · exact hquiet.2 (Option.some.inj (hfront.symm.trans hfirst))
      refine (hds.checks p l hge (hcheck.of_retains hk hinside hlt)).retain hk hinside
        (Nat.lt_of_succ_lt hlt) fun hlands => .inr ?_
      rcases hlands with hexit | ⟨d, hd, hpad⟩
      · exact ⟨s.landing, List.mem_cons_self, Option.some.inj hexit⟩
      · exact ⟨d, List.mem_cons_of_mem _ hd, hpad⟩
    · exact absurd htest (Bool.eq_false_iff.mp (hbehind _ i hge hi).2.2)

end Emission

namespace Emit

variable {org : Origin} {tree : Label → Prop} {own : List Label} {exit : Option Label}
  {s t u : Emission} {ds : List Landing} {e : Expr} {shape : Shape} {a : Emitted}

/-! ## Behind a body -/

/-- What a cut of the stack adds. -/
theorem cutStack_run {setting : Setting} {d : Landing} {done : Label}
    (h : (cutStack d).run setting s = .ok done t) :
    done.index = s.builder.labels.size ∧
      t.builder.code = (s.builder.code.push (.jump done)).push (.resetStack d.mark) ∧
      t.builder.labels[d.pad.index]? = some (some (s.position + 1)) := by
  obtain ⟨made, s₁, hmade, h⟩ := run_bind h
  cases hmade
  obtain ⟨_, s₂, hjump, h⟩ := run_bind h
  cases hjump
  obtain ⟨_, s₃, hmark, h⟩ := run_bind h
  obtain ⟨_, s₄, hreset, hpure⟩ := run_bind h
  cases hreset
  cases hpure
  simp only [mark] at hmark
  split at hmark
  case h_2 => cases hmark
  next b hb =>
  cases hmark
  have hpad := (Builder.getElem?_markLabel hb).1
  obtain ⟨-, rfl⟩ := Builder.markLabel_eq hb
  refine ⟨rfl, rfl, hpad.trans ?_⟩
  simp [Builder.position, Builder.emit, Builder.defineLabel, Emission.position]

/-- A cut of the stack names a label of its own, which it hands on. -/
theorem names_cutStack {d : Landing} :
    NamesLent tree own exit (cutStack d) (fun done => [done]) fun _ => True := by
  refine NamesLent.newLabel.bind fun done _ => ?_
  refine (NamesLent.instr fun l hl => .inl ?_).bind fun _ _ => ?_
  · exact List.mem_append_left _ hl
  refine (NamesLent.of_codeless codeless_mark fun _ _ _ _ _ _ => trivial).bind fun _ _ => ?_
  refine (NamesLent.instr fun l hl => absurd hl List.not_mem_nil).bind fun _ _ => ?_
  exact (namingRules tree).pure trivial (List.forall_mem_singleton.mpr List.mem_cons_self)

section

variable (hs : s.Prepared tree own exit) (he : org.parts e)
  (hlimit : u.builder.locals.size ≤ Builder.slotLimit)
  (hbody : (e.toNode.emit (some s.landing.pad) shape false).run org.setting s.approach = .ok a u)
  (hds : Builder.Lands org (some s.landing.pad) [] s.approach.builder u.builder ds)

include hs he hbody hds

/-- An exit that is not reported leaves the placeholder, and the pad is forgotten. -/
theorem lands_idle (hused : a.usedExit = false)
    (hmark : (mark s.landing.pad).run org.setting u = .ok () t) :
    Builder.Lands org exit [] s.builder t.builder (s.landing :: ds) := by
  have hgrows := (e.toNode.emit _ _ _).grows hbody
  have hmarked := (mark _).grows hmark
  have hcode := (codeless_mark _ _ _ _ hmark).2
  have hretains : u.builder.Retains (s.position + 1) t.builder :=
    (Builder.Extends.of_grows hmarked).retains
  have hnop : t.builder.code[s.position]? = some .nop := by
    rw [hcode, (Builder.Extends.of_grows hgrows).getElem?_code
      (Nat.lt_of_lt_of_eq (Nat.lt_succ_self _) s.position_approach.symm), s.code_approach]
    exact Array.getElem?_push_size
  have hbehind : ∀ p i, u.position ≤ p → t.builder.code[p]? ≠ some i := by
    intro p i hp hi
    rw [hcode] at hi
    exact absurd (Array.getElem?_eq_some_iff.mp hi).1 (Nat.not_lt.mpr hp)
  -- The body does not name the pad, since it would have reported that.
  obtain ⟨-, hreport⟩ := (reports_tree e s.landing.pad).emit [] shape false List.not_mem_nil
    _ _ _ _ hbody hs.lends_approach
  refine Emission.lands_enclose hds hgrows hretains hmarked.labels (fun _ h => absurd h List.not_mem_nil)
    hnop rfl ⟨Instr.noConfusion, Instr.noConfusion⟩ rfl (fun p i hp hi => absurd hi (hbehind p i hp))
    (.inr ⟨?_, hnop, fun p i hp hi hmem => ?_⟩)
  · exact ⟨e, shape, s, u, a, he, hbody, rfl, hused, fun p hp => hretains.code p hp⟩
  · rcases Nat.eq_or_lt_of_le hp with rfl | hlt
    · cases hi.symm.trans hnop
      cases hmem
    · rw [hcode] at hi
      exact (hreport hused).2 p i (s.position_approach.symm ▸ hlt) hi hmem

include hlimit

/-- An exit that is reported lands: the depth is recorded in front, and the stack is cut to it. -/
theorem lands_guard {done : Label} (hused : a.usedExit = true)
    (hcut : (cutStack s.landing).run org.setting
      { u with builder := u.builder.patch s.position (.markStack s.landing.mark) } = .ok done t) :
    Builder.Lands org exit [done] s.builder t.builder (s.landing :: ds) := by
  have hgrows := (e.toNode.emit _ _ _).grows hbody
  have happroach := Nat.le_trans hgrows.locals_le hlimit
  have hreached : s.position < u.position :=
    Nat.lt_of_lt_of_le (Nat.lt_of_lt_of_eq (Nat.lt_succ_self _) s.position_approach.symm)
      hgrows.position_le
  obtain ⟨hdone, hcode, hpad⟩ := cutStack_run hcut
  have hcutGrows := (cutStack _).grows hcut
  have hsize : (u.builder.patch s.position (.markStack s.landing.mark)).code.size = u.position :=
    Array.size_setIfInBounds
  replace hpad : t.builder.labels[s.landing.pad.index]? = some (some (u.position + 1)) :=
    hpad.trans (congrArg (fun n => some (some (n + 1))) hsize)
  have hget : ∀ p, t.builder.code[p]? = if p = u.position + 1 then some (.resetStack s.landing.mark)
      else if p = u.position then some (.jump done)
      else if p = s.position then some (.markStack s.landing.mark) else u.builder.code[p]? := by
    intro p
    rw [hcode, Array.getElem?_push, Array.getElem?_push, Array.size_push, hsize, Builder.patch,
      Array.getElem?_setIfInBounds]
    have hin : s.position < u.builder.code.size := hreached
    simp only [hin, if_true, eq_comm (a := s.position)]
  have hretains : u.builder.Retains (s.position + 1) t.builder :=
    (Builder.retains_patch u.builder (Nat.lt_succ_self _) _).trans
      (Builder.Extends.of_grows hcutGrows).retains
  have hfront : t.builder.code[s.position]? = some (.markStack s.landing.mark) := by
    rw [hget, if_neg (by omega), if_neg (by omega), if_pos rfl]
  have hreset : t.builder.code[u.position + 1]? = some (.resetStack s.landing.mark) := by
    rw [hget, if_pos rfl]
  have hbehind : ∀ p i, u.position ≤ p → t.builder.code[p]? = some i →
      i = .jump done ∨ (p = u.position + 1 ∧ i = .resetStack s.landing.mark) := by
    intro p i hp hi
    rw [hget] at hi
    split at hi
    · next hend => exact .inr ⟨hend, (Option.some.inj hi).symm⟩
    split at hi
    · exact .inl (Option.some.inj hi).symm
    · rw [if_neg (by omega)] at hi
      exact absurd (Array.getElem?_eq_some_iff.mp hi).1 (Nat.not_lt.mpr hp)
  -- The body spares the local, which is in use meanwhile.
  have hspared := ((spares_tree e s.landing.mark (s.position + 1)).emit [] (some s.landing.pad) shape
    false org.setting _ _ _ hbody hlimit (hs.reserves_approach happroach)).1.code
  refine Emission.lands_enclose hds hgrows hretains hcutGrows.labels
    (List.forall_mem_singleton.mpr (Nat.le_of_eq hdone.symm)) hfront rfl ⟨Instr.noConfusion, Instr.noConfusion⟩ rfl
    (fun p i hp hi => ?_)
    (.inl ⟨⟨e, shape, s, u, a, he, hbody, rfl, hused, fun p hp => hretains.code p hp⟩,
      u.position + 1, hpad, Nat.lt_succ_of_lt hreached, hfront, fun p i hp hlt hi => ?_, hreset⟩)
  · rcases hbehind p i hp hi with rfl | ⟨rfl, rfl⟩
    · exact ⟨List.forall_mem_singleton.mpr (Nat.le_of_eq hdone.symm), fun h => Bool.noConfusion h, rfl⟩
    · exact ⟨fun _ h => absurd h List.not_mem_nil, fun _ => ⟨hpad, rfl⟩, rfl⟩
  · by_cases hin : p < u.position
    · rw [hretains.code p hp hin] at hi
      exact hspared p i hp hi
    · rcases hbehind p i (Nat.le_of_not_lt hin) hi with rfl | ⟨rfl, rfl⟩
      · exact List.not_mem_nil
      · exact absurd hlt (Nat.lt_irrefl _)

end

/-- A body that lands on its own names what was lent to it and the pad, and leaves landings. -/
theorem lands_body
    (hn : ∀ own exit, (landingRules org tree).Ok own exit (e.toNode.emit exit shape false))
    (hs : s.Prepared tree own exit) (hlimit : u.builder.locals.size ≤ Builder.slotLimit)
    (hbody : (e.toNode.emit (some s.landing.pad) shape false).run org.setting s.approach = .ok a u) :
    Emission.Names tree own exit [] s u ∧
      ∃ ds, Builder.Lands org (some s.landing.pad) [] s.approach.builder u.builder ds := by
  have hgrows := (e.toNode.emit _ _ _).grows hbody
  have happroach := Nat.le_trans hgrows.locals_le hlimit
  have hinside : s.approach.Prepared tree (s.landing.pad :: own) (some s.landing.pad) := by
    refine (hs.approach happroach).weaken (fun _ h => h) fun l hl => ?_
    cases hl
    exact .inl List.mem_cons_self
  obtain ⟨hnames, hlands⟩ := hn (s.landing.pad :: own) (some s.landing.pad)
  refine ⟨.trans s.grows_approach hgrows s.names_approach ?_, hlands _ _ _ hbody hlimit hinside⟩
  refine (hnames _ _ _ _ hbody hinside.table).1.weaken (fun _ h => h) fun l hl => ?_
  cases hl
  exact .inl List.mem_cons_self

/-- Where a body is emitted with a landing of its own, that landing is set up or idles. -/
theorem lands_landing (org : Origin) (tree : Label → Prop) :
    (landingRules org tree).Lands fun n => ∃ e, org.parts e ∧ n = e.toNode := by
  rintro own exit ty n shape ⟨e, he, rfl⟩ hn
  refine ⟨(placeholders_naming tree).withLanding fun own exit => (hn own exit).1,
    fun s t a hrun hlimit hs => ?_⟩
  cases hexits : org.setting.options.usesExits with
  | false =>
      unfold withLanding at hrun
      obtain ⟨o, _, hread, hrun⟩ := run_bind hrun
      cases hread
      rw [if_neg (Bool.eq_false_iff.mp hexits)] at hrun
      obtain ⟨ds, hds⟩ :=
        (hn own none).2 s t a hrun hlimit (hs.weaken (fun _ h => h) fun _ h => nomatch h)
      exact ⟨ds, hds.weaken fun _ h => nomatch h⟩
  | true =>
      obtain ⟨result, u, hbody, ⟨hused, hmark⟩ | ⟨hused, done, v, hcut, hrest⟩⟩ :=
        run_withLanding hexits hrun
      · have hlimit' := Nat.le_trans ((mark _).grows hmark).locals_le hlimit
        obtain ⟨-, ds, hds⟩ := lands_body hn hs hlimit' hbody
        exact ⟨_, lands_idle hs he hbody hds hused hmark⟩
      · have hgrows := (e.toNode.emit _ _ _).grows hbody
        have hcutGrows := (cutStack _).grows hcut
        have hrestGrows := (pushDefaultLanding _ _ _).grows hrest
        have hlimit' := Nat.le_trans hrestGrows.locals_le hlimit
        have hlimit'' : u.builder.locals.size ≤ Builder.slotLimit :=
          Nat.le_trans hcutGrows.locals_le hlimit'
        obtain ⟨hnames, ds, hds⟩ := lands_body hn hs hlimit'' hbody
        have hpatched := (s.grows_approach.trans hgrows).patch (Nat.le_refl _)
          (.markStack s.landing.mark)
        have hcutNames : Emission.Names tree own exit [done] _ v :=
          (names_cutStack _ _ _ _ hcut (hs.after hpatched hlimit'' (hnames.patch rfl)).table).1
        have hsv := (hnames.patch rfl).trans hpatched hcutGrows hcutNames
        have hv := hs.after (hpatched.trans hcutGrows) hlimit' hsv
        -- The label of the end is lent to what stands behind the cut.
        have hdefault : (landingRules org tree).Ok (done :: own) exit
            (pushDefaultLanding ty result.form done) :=
          Policy.seq Policy.pushLanding fun _ =>
            Policy.seq ((landingRules org tree).mark List.mem_cons_self) fun _ => Policy.done
        obtain ⟨hrestNames, hrestLands⟩ := hdefault
        obtain ⟨hrestNames, -⟩ := hrestNames _ _ _ _ hrest hv.table
        obtain ⟨ds', hds'⟩ := hrestLands _ _ _ hrest hlimit hv
        have hguard := lands_guard hs he hlimit'' hbody hds hused hcut
        exact ⟨_, Emission.lands_trans hs (hpatched.trans hcutGrows) hrestGrows hsv hrestNames
          hguard hds'⟩

/-! ## Trees -/

/-- The policy of emitters with landings. -/
def landing (org : Origin) (tree : Label → Prop) : Policy :=
  Rules.Loose.policy (loose_landing org tree) (tests_landing org tree)
    (fun n => ∃ e, org.parts e ∧ n = e.toNode) (binds_landing org tree) (lands_landing org tree)
    ⟨NamesLent.read fun _ _ _ _ _ _ _ _ => trivial, SetsUp.of_codeless codeless_read⟩

theorem labelled_landing (org : Origin) (tree : Label → Prop) :
    (landing org tree).Labelled tree True :=
  .of_lent ⟨(labelled_naming tree).labelInfo trivial, .of_codeless codeless_read⟩ fun hl hx =>
    ⟨NamesLent.lend hl hx.1, fun s t a hrun hlimit hs => hx.2 s t a hrun hlimit (hs.lend hl)⟩

/-- Protected blocks may be opened. -/
theorem permissive_landing (org : Origin) (tree : Label → Prop) :
    (landing org tree).Permissive where
  inRegion hx := ⟨(permissive_naming tree).inRegion hx.1, fun s t a hrun hlimit hs => by
    simp only [inRegion] at hrun
    split at hrun
    · next u hxu =>
        cases hrun
        exact hx.2 { s with tryDepth := s.tryDepth + 1 } u _ hxu hlimit
          ⟨hs.tidy, hs.table, hs.made, hs.scope, hs.values⟩
    · cases hrun⟩
  addRegion hg hmark := ⟨(permissive_naming tree).addRegion hg hmark, .of_codeless codeless_addRegion⟩

/-- A tree leaves landings only that are set up or idle, if its landings are looked at. -/
theorem lands_tree (e : Expr) (tree : Label → Prop)
    (hparts : ∀ part : Expr, part.Part e → org.parts part) : e.toNode.Keeps (landing org tree) := by
  induction e using Expr.induct with
  | node kind ty ih =>
      exact (labelled_landing org tree).node ⟨_, hparts _ (.refl _), rfl⟩
        (fun e he => ih e (ExprKind.mem_operands he) fun part hpart => hparts part (.child he hpart))
        (fun _ _ _ _ => trivial) (fun _ _ _ _ _ => (permissive_landing org tree).protects _ _ _ _)
        fun l _ => Policy.function (loose_landing org tree) (fun _ _ h => h)
          ⟨names_nestedUnit, .of_codeless codeless_nestedUnit⟩

end Emit

end Arbor
