/-
  Which case a switch selects.

  A value that a table can hold has a key, and a case is selected if one of its
  keys is the same.  On constant tests the evaluation selects the first such
  case.  Looking only at the keys in the bucket of the value finds the same case,
  because equal keys are in one bucket.
-/
import Arbor.Proofs.Semantics.Meaning

set_option autoImplicit false

namespace Arbor

/-! ## Keys -/

namespace CaseKey

/-- Equality of keys. -/
def same : CaseKey → CaseKey → Bool
  | null, null => true
  | int a, int b => a.same b
  | bool a, bool b => a == b
  | text a, text b => a == b
  | _, _ => false

/-- Whether a key is null or one of values of the type. -/
def isOf : CaseKey → Ty → Bool
  | null, _ => true
  | int n, .num k => n.kind = k && n.kind.isIntegral
  | bool _, .bool => true
  | text _, .str => true
  | _, _ => false

theorem isNull_of_same {a b : CaseKey} (h : a.same b = true) : a.isNull = b.isNull := by
  cases a <;> cases b <;> first | rfl | simp [same] at h

theorem same_of_isNull {a b : CaseKey} (ha : a.isNull = true) (hb : b.isNull = true) :
    a.same b = true := by
  cases a <;> cases b <;> simp [isNull, same] at ha hb ⊢

/-- The same keys are hashed alike. -/
theorem switchKey?_of_same {a b : CaseKey} {ty : Ty} (ha : a.isOf ty = true)
    (h : a.same b = true) : a.switchKey? = b.switchKey? := by
  cases a with
  | null => cases b <;> first | rfl | simp [same] at h
  | bool x =>
      cases b with
      | bool y =>
          have heq : x = y := by simpa [same] using h
          rw [heq]
      | _ => simp [same] at h
  | text x =>
      cases b with
      | text y =>
          have heq : x = y := by simpa [same] using h
          rw [heq]
      | _ => simp [same] at h
  | int x =>
      cases b with
      | int y =>
          cases x with
          | int j v =>
              cases y with
              | int k w =>
                  obtain ⟨-, hvalue⟩ : j = k ∧ v.val = w.val := by simpa [same, Num.same] using h
                  simp [switchKey?, Num.toIndex, hvalue]
              | _ => simp [same, Num.same] at h
          | single v =>
              cases ty <;> simp [isOf, Num.kind, NumKind.isIntegral, NumKind.isFloat] at ha
          | double v =>
              cases ty <;> simp [isOf, Num.kind, NumKind.isIntegral, NumKind.isFloat] at ha
      | _ => simp [same] at h

end CaseKey

namespace Value

/-- The key of a value that a table can hold. -/
def caseKey? (v : Value) : Option CaseKey :=
  match v.payload? with
  | none => some .null
  | some (.num n) => some (.int n)
  | some (.bool b) => some (.bool b)
  | some (.str s) => some (.text s)
  | some _ => none

/-- Whether a key is that of the value. -/
def hasKey (v : Value) (k : CaseKey) : Bool := v.caseKey?.any (·.same k)

end Value

/-! ## Subjects -/

/-- A type that a table can hold the values of, without optionals of texts. -/
theorem Ty.tabular_cases {ty : Ty} (h : ty.isTabular = true) (hplain : ty.isPlainOptional = true) :
    ty = .str ∨ ty.underlying.isScalar = true := by
  cases ty with
  | str => exact .inl rfl
  | bool => exact .inr rfl
  | num k => exact .inr (by simpa [isTabular, isIntegral, numKind?, underlying, isScalar] using h)
  | nullable t =>
      cases t with
      | bool => exact .inr rfl
      | num k => exact .inr (by simpa [isTabular, isIntegral, numKind?, underlying, isScalar] using h)
      | str => simp [isPlainOptional, isNullable, underlying, isValueType] at hplain
      | _ => simp [isTabular, isIntegral, numKind?, underlying] at h
  | _ => simp [isTabular, isIntegral, numKind?, underlying] at h

/-- What a value of such a type has inside: nothing, or a truth value, an integer or a text of the
type. -/
theorem Value.caseKey?_of_isOf {ty : Ty} {v : Value} (hv : v.isOf ty = true)
    (h : ty.isTabular = true) (hplain : ty.isPlainOptional = true) :
    ∃ k, v.caseKey? = some k ∧ k.isOf ty.underlying = true ∧
      (v.payload? = none ∧ k = .null ∨ v.payload? = some (.ofLiteral k.literal) ∧ k.isNull = false) ∧
      (ty.canBeAbsent = false → k.isNull = false) := by
  have hscalar : ∀ {t : Ty} {x : Value}, t.isScalar = true → x.isOf t = true →
      ∃ k : CaseKey, x = .ofLiteral k.literal ∧ x.caseKey? = some k ∧ k.isOf t = true ∧
        x.payload? = some x ∧ k.isNull = false := by
    intro t x ht hx
    cases x <;> cases t <;> first | (simp [isOf] at hx; done) | (simp [Ty.isScalar] at ht; done) | skip
    · next b => exact ⟨.bool b, rfl, rfl, rfl, rfl, rfl⟩
    · next n k =>
        have hkind : n.kind = k := by simpa [isOf] using hx
        refine ⟨.int n, rfl, rfl, ?_, rfl, rfl⟩
        simpa [CaseKey.isOf, hkind, Ty.isScalar] using ht
  rcases Ty.tabular_cases h hplain with rfl | hscalarTy
  · cases v <;> first | (simp [isOf] at hv; done) | skip
    · exact ⟨.null, rfl, rfl, .inl ⟨rfl, rfl⟩, fun h => by simp [Ty.canBeAbsent, Ty.isReference] at h⟩
    · next s => exact ⟨.text s, rfl, rfl, .inr ⟨rfl, rfl⟩, fun _ => rfl⟩
  · cases hty : ty with
    | nullable t =>
        rw [hty] at hv hscalarTy
        cases v <;> first | (simp [isOf] at hv; done) | skip
        · exact ⟨.null, rfl, rfl, .inl ⟨rfl, rfl⟩, fun h => by
            simp [Ty.canBeAbsent, Ty.isNullable] at h⟩
        · next x =>
            have hx : x.isOf t = true := by simpa [isOf] using hv
            obtain ⟨k, rfl, hkey, hk, hpayload, hnull⟩ := hscalar hscalarTy hx
            refine ⟨k, ?_, hk, .inr ⟨rfl, hnull⟩, fun _ => hnull⟩
            unfold caseKey? at hkey ⊢
            rw [hpayload] at hkey
            exact hkey
    | _ =>
        rw [hty] at hv hscalarTy
        obtain ⟨k, hx, hkey, hk, hpayload, hnull⟩ := hscalar hscalarTy hv
        exact ⟨k, hkey, hk, .inr ⟨by rw [hpayload, hx], hnull⟩, fun _ => hnull⟩

/-- What is inside a value of a type is what is inside it as a value of the type. -/
theorem Value.payloadAt?_eq {ty : Ty} {v x : Value} (hv : v.isOf ty = true)
    (h : v.payload? = some x) : v.payloadAt? ty = some x := by
  cases hty : ty.isNullable with
  | true => simpa [payloadAt?, hty] using h
  | false =>
      cases v <;> cases ty <;> simp [isOf, Ty.isNullable, payload?] at hv hty h <;>
        simp [payloadAt?, Ty.isNullable, h]

/-- Comparing values of one type compares their keys. -/
theorem Value.compare_keys {ty : Ty} {a b : CaseKey} (ha : a.isOf ty = true) (hb : b.isOf ty = true) :
    Value.compare .eq (.ofLiteral a.literal) (.ofLiteral b.literal) = .ok (a.same b) := by
  cases a with
  | null => cases b <;> rfl
  | bool x =>
      cases b with
      | bool y => cases x <;> cases y <;> rfl
      | null => rfl
      | _ => cases ty <;> simp [CaseKey.isOf] at ha hb
  | text x =>
      cases b with
      | text y =>
          simp only [CaseKey.literal, ofLiteral, compare, CaseKey.same, orderText, CmpOp.holds]
          split
          · next hlt =>
              have hne : x ≠ y := fun heq => by
                rw [heq] at hlt
                exact String.lt_irrefl _ hlt
              simp [hne]
          · split
            · next heq => simp [heq]
            · next hne => simp [hne]
      | null => rfl
      | _ => cases ty <;> simp [CaseKey.isOf] at ha hb
  | int x =>
      cases b with
      | int y =>
          cases ty with
          | num k =>
              obtain ⟨hx, hintegral⟩ : x.kind = k ∧ x.kind.isIntegral = true := by
                simpa [CaseKey.isOf] using ha
              obtain ⟨hy, -⟩ : y.kind = k ∧ y.kind.isIntegral = true := by
                simpa [CaseKey.isOf] using hb
              cases x with
              | int j v =>
                  cases y with
                  | int i w =>
                      cases hx
                      cases hy
                      simp only [CaseKey.literal, ofLiteral, compare, Num.order, if_true,
                        CmpOp.holds, CaseKey.same, Num.same, beq_self_eq_true, Bool.true_and]
                      congr 1
                      rw [Bool.eq_iff_iff]
                      simp
                  | single | double => cases hx; cases hy
              | single | double => simp [Num.kind, NumKind.isIntegral, NumKind.isFloat] at hintegral
          | _ => simp [CaseKey.isOf] at ha
      | null => rfl
      | _ => cases ty <;> simp [CaseKey.isOf] at ha hb

/-! ## Tests -/

/-- The value of a constant test. -/
def Literal.testValue (value : Literal) (ty : Ty) : Value :=
  match value.ty? with
  | none => if ty.isNullable then .absent else .null
  | some _ => (Value.ofLiteral value).wrapIf ty.isNullable

/-- The key of a constant test is that of its literal. -/
theorem CaseKey.literal_of_ofExpr? {test : Expr} {k : CaseKey} (h : CaseKey.ofExpr? test = some k) :
    test.kind = .constant k.literal ∧ ∀ n, k = .int n → n.kind.isIntegral = true := by
  unfold CaseKey.ofExpr? at h
  split at h
  · next hkind => cases h; exact ⟨hkind, fun _ h => by cases h⟩
  · next n hkind =>
      split at h
      · next hintegral =>
          cases h
          refine ⟨hkind, ?_⟩
          rintro _ ⟨rfl⟩
          exact hintegral
      · cases h
  · next hkind => cases h; exact ⟨hkind, fun _ h => by cases h⟩
  · next hkind => cases h; exact ⟨hkind, fun _ h => by cases h⟩
  · cases h

/-- A constant test that fits the value to switch on: its key is one of the type, and null is an
optional unless texts are switched on. -/
theorem Expr.key_of_test {test : Expr} {k : CaseKey} {ty : Ty} (hkey : CaseKey.ofExpr? test = some k)
    (hfits : test.isFittingTest = true) (htest : test.ty.isTestOf ty = true)
    (htabular : ty.isTabular = true) (hplain : ty.isPlainOptional = true) :
    k.isOf ty.underlying = true ∧ (k.isNull = true → (test.ty.isNullable = false ↔ ty = .str)) := by
  obtain ⟨hkind, hintegral⟩ := CaseKey.literal_of_ofExpr? hkey
  simp only [isFittingTest, hkind, Bool.and_eq_true] at hfits
  obtain ⟨hplainTest, hfits⟩ := hfits
  have hscalar := Ty.tabular_cases htabular hplain
  have hcases : test.ty.underlying = ty.underlying ∨ test.ty.isReference = true ∧ ty = .str := by
    simp only [Ty.isTestOf, Bool.or_eq_true, decide_eq_true_eq, Bool.and_eq_true] at htest
    refine htest.imp id fun h => ⟨h.1, hscalar.resolve_right fun hs => ?_⟩
    have href := h.2
    cases ty <;> simp [Ty.isReference, Ty.isScalar, Ty.underlying] at href hs
  constructor
  · have hfound : ∀ found, k.literal.ty? = some found → found = ty.underlying := by
      intro found hfound
      rw [hfound] at hfits
      have heq : test.ty.underlying = found := by simpa using hfits
      rcases hcases with hcases | ⟨href, rfl⟩
      · rw [← heq, hcases]
      · have hliteral : found = .bool ∨ (∃ n, found = .num n) ∨ found = .str := by
          cases k <;> simp [CaseKey.literal, Literal.ty?] at hfound <;> simp [← hfound]
        rw [← heq] at hliteral ⊢
        cases hty : test.ty <;> simp [hty, Ty.isReference, Ty.underlying] at href hliteral ⊢
    cases k with
    | null => rfl
    | bool b => rw [← hfound .bool rfl]; rfl
    | text s => rw [← hfound .str rfl]; rfl
    | int n =>
        rw [← hfound (.num n.kind) rfl]
        simp [CaseKey.isOf, hintegral n rfl]
  · intro hnull
    have hliteral : k.literal = .null := by cases k <;> simp [CaseKey.isNull] at hnull; rfl
    rw [hliteral] at hfits
    have habsent : test.ty.canBeAbsent = true := hfits
    constructor
    · intro hty
      rcases hcases with hcases | ⟨-, rfl⟩
      · refine hscalar.resolve_right fun hs => ?_
        rw [← hcases, Ty.underlying_eq_self hty] at hs
        cases hty : test.ty <;> simp [hty, Ty.canBeAbsent, Ty.isReference, Ty.isNullable,
          Ty.isScalar] at habsent hs hty
      · rfl
    · rintro rfl
      rcases hcases with hcases | ⟨href, -⟩
      · cases hty : test.ty <;> simp [hty, Ty.underlying, Ty.isPlainOptional, Ty.isNullable]
          at hcases hplainTest ⊢
        rw [hcases] at hplainTest
        cases hplainTest
      · cases hty : test.ty <;> simp [hty, Ty.isReference, Ty.isNullable] at href ⊢

theorem Literal.payloadAt?_testValue (k : CaseKey) (ty : Ty) :
    (k.literal.testValue ty).payloadAt? ty =
      if k.isNull && ty.isNullable then none else some (.ofLiteral k.literal) := by
  cases hty : ty.isNullable <;> cases k <;>
    simp [testValue, CaseKey.literal, Literal.ty?, CaseKey.isNull, Value.payloadAt?, Value.payload?,
      Value.wrapIf, Value.wrapped, Value.ofLiteral, hty]

/-- A test equals the value to switch on exactly if its key is that of the value. -/
theorem Eval.binaryOn_test {setting : Setting} {test : Expr} {k : CaseKey} {ty : Ty} {v : Value}
    (hkey : CaseKey.ofExpr? test = some k) (hfits : test.isFittingTest = true)
    (htest : test.ty.isTestOf ty = true) (htabular : ty.isTabular = true)
    (hplain : ty.isPlainOptional = true) (hv : v.isOf ty = true) :
    Eval.binaryOn setting .eq false ty test.ty .bool v (k.literal.testValue test.ty) =
      pure (.bool (v.hasKey k)) := by
  obtain ⟨own, hown, hisOf, hpayload, hpresent⟩ := Value.caseKey?_of_isOf hv htabular hplain
  obtain ⟨hk, hnull⟩ := Expr.key_of_test hkey hfits htest htabular hplain
  have hinner : v.payloadAt? ty =
      if own.isNull && ty.isNullable then none else some (.ofLiteral own.literal) := by
    cases hty : ty.isNullable with
    | true =>
        simp only [Value.payloadAt?, hty, if_true, Bool.and_true]
        rcases hpayload with ⟨hnone, rfl⟩ | ⟨hsome, hown⟩
        · rw [hnone]; rfl
        · rw [hsome, hown]; rfl
    | false =>
        simp only [Value.payloadAt?, hty, Bool.false_eq_true, if_false, Bool.and_false]
        rcases hpayload with ⟨hnone, rfl⟩ | ⟨hsome, -⟩
        · cases v <;> cases ty <;> simp [Value.isOf, Ty.isNullable, Value.payload?] at hv hty hnone
          rfl
        · cases v <;> cases ty <;> simp [Value.isOf, Ty.isNullable, Value.payload?] at hv hty hsome <;>
            rw [hsome]
  -- Null is selected by null alone: both are optionals here, or both are texts.
  have hboth : own.isNull = true → k.isNull = true → ty.isNullable = test.ty.isNullable := by
    intro hownNull hkNull
    have hiff := hnull hkNull
    rcases Ty.tabular_cases htabular hplain with rfl | hscalar
    · rw [hiff.mpr rfl]; rfl
    · have hne : ty ≠ .str := by
        rintro rfl
        cases hscalar
      have htestTy : test.ty.isNullable = true := by
        cases h : test.ty.isNullable with
        | true => rfl
        | false => exact (hne (hiff.mp h)).elim
      have hty : ty.isNullable = true := by
        cases ty <;> simp [Ty.isScalar, Ty.underlying, Ty.canBeAbsent, Ty.isReference,
          Ty.isNullable, hownNull] at hscalar hpresent ⊢
      rw [hty, htestTy]
  have hcompare := Value.compare_keys hisOf hk
  have hsame : own.isNull ≠ k.isNull → own.same k = false := by
    intro hne
    cases h : own.same k with
    | false => rfl
    | true => exact (hne (CaseKey.isNull_of_same h)).elim
  have hplainValues : (Eval.lift (Run.binaryValue setting.registry .eq false ty.underlying
      (.ofLiteral own.literal) (.ofLiteral k.literal)) >>= fun v =>
        pure (v.wrapIf Ty.bool.isNullable)) = pure (.bool (own.same k)) := by
    simp only [Run.binaryValue, Run.compareValues, hcompare]
    rfl
  simp only [Eval.binaryOn, hinner, Literal.payloadAt?_testValue, Value.hasKey, hown,
    Option.any_some]
  cases hownNull : own.isNull <;> cases hkNull : k.isNull
  · exact hplainValues
  · rw [hsame (by simp [hownNull, hkNull])] at hplainValues ⊢
    cases test.ty.isNullable <;> first | exact hplainValues | rfl
  · rw [hsame (by simp [hownNull, hkNull])] at hplainValues ⊢
    cases ty.isNullable <;> first | exact hplainValues | rfl
  · rw [hboth hownNull hkNull]
    rw [CaseKey.same_of_isNull hownNull hkNull] at hplainValues ⊢
    cases test.ty.isNullable <;> first | exact hplainValues | rfl

/-- A constant test evaluates to the value of its literal. -/
theorem Eval.guardedValue_test {setting : Setting} {d : Meaning} {k : CaseKey}
    (hkey : CaseKey.ofExpr? d.expr = some k) (hfits : d.expr.isFittingTest = true)
    (hconst : ∀ exits, d.eval exits .value false = Eval.constant setting k.literal d.ty) :
    Eval.guardedValue setting d = pure (k.literal.testValue d.ty) := by
  obtain ⟨hkind, -⟩ := CaseKey.literal_of_ofExpr? hkey
  simp only [Expr.isFittingTest, hkind, Bool.and_eq_true] at hfits
  replace hfits : (match k.literal.ty? with
      | none => d.ty.canBeAbsent
      | some found => decide (d.ty.underlying = found)) = true := hfits.2
  have hvalue : Eval.constant setting k.literal d.ty = pure (.value (k.literal.testValue d.ty)) := by
    unfold Eval.constant Literal.testValue
    cases hliteral : k.literal.ty? with
    | none =>
        simp only [hliteral] at hfits ⊢
        cases hty : d.ty <;>
          simp [hty, Ty.canBeAbsent, Ty.isReference, Ty.isNullable] at hfits <;> rfl
    | some found =>
        simp only [hliteral, decide_eq_true_eq] at hfits ⊢
        have hvoid : d.ty.isVoid = false := by
          cases hty : d.ty <;> first | rfl | skip
          rw [hty] at hfits
          cases k <;> simp [CaseKey.literal, Literal.ty?] at hliteral <;>
            cases hliteral.trans hfits.symm
        simp [Eval.yield, hvoid]
  funext w
  simp only [Eval.guardedValue, Eval.guarded, Eval.landing, hconst, hvalue]
  rfl

/-! ## Selection -/

/-- The item beside the first keys with one that is the value's. -/
def firstSelected {α : Type} (v : Value) (keys : List (List CaseKey)) (items : List α) : Option α :=
  ((keys.zip items).find? fun e => e.1.any v.hasKey).map (·.2)

/-- A constant test that fits and means its literal. -/
structure Meaning.IsTest (setting : Setting) (ty : Ty) (d : Meaning) : Prop where
  fits : d.expr.isFittingTest = true
  test : d.ty.isTestOf ty = true
  constant : ∀ value, d.expr.kind = .constant value →
    ∀ exits, d.eval exits .value false = Eval.constant setting value d.ty

namespace Eval

variable {setting : Setting} {ty : Ty} {v : Value}

/-- On constant tests, matching compares keys. -/
theorem matchesAny_constant {tests : List Meaning} {keys : List CaseKey}
    (htests : ∀ d ∈ tests, d.IsTest setting ty)
    (hkeys : tests.mapM (fun d => CaseKey.ofExpr? d.expr) = some keys)
    (htabular : ty.isTabular = true) (hplain : ty.isPlainOptional = true) (hv : v.isOf ty = true) :
    matchesAny setting ty v tests = pure (keys.any v.hasKey) := by
  induction tests generalizing keys with
  | nil =>
      cases hkeys
      rfl
  | cons d tests ih =>
      simp only [List.mapM_cons, Option.bind_eq_bind, Option.bind_eq_some_iff, Option.pure_def,
        Option.some.injEq] at hkeys
      obtain ⟨k, hk, ks, hks, rfl⟩ := hkeys
      have hd := htests d List.mem_cons_self
      have hvalue := guardedValue_test hk hd.fits
        (hd.constant _ (CaseKey.literal_of_ofExpr? hk).1)
      have hrest := ih (fun d hd => htests d (List.mem_cons_of_mem _ hd)) hks
      have hcompare : binaryOn setting .eq false ty d.ty .bool v (k.literal.testValue d.ty) =
          pure (.bool (v.hasKey k)) := binaryOn_test hk hd.fits hd.test htabular hplain hv
      simp only [matchesAny, hvalue, pure_bind, hcompare, Value.isTruthy, hrest, List.any_cons]
      cases v.hasKey k <;> rfl

/-- On constant tests, the first case with the key of the value is selected. -/
theorem select_constant {cases : List (SwitchCase Meaning)} {keys : List (List CaseKey)}
    (htests : ∀ c ∈ cases, ∀ d ∈ c.tests, d.IsTest setting ty)
    (hkeys : cases.mapM (fun c => c.tests.mapM fun d => CaseKey.ofExpr? d.expr) = some keys)
    (htabular : ty.isTabular = true) (hplain : ty.isPlainOptional = true) (hv : v.isOf ty = true) :
    select setting ty v cases = pure (firstSelected v keys (cases.map (·.body))) := by
  induction cases generalizing keys with
  | nil =>
      cases hkeys
      rfl
  | cons c cases ih =>
      simp only [List.mapM_cons, Option.bind_eq_bind, Option.bind_eq_some_iff, Option.pure_def,
        Option.some.injEq] at hkeys
      obtain ⟨k, hk, ks, hks, rfl⟩ := hkeys
      have hrest := ih (fun c hc => htests c (List.mem_cons_of_mem _ hc)) hks
      simp only [select, matchesAny_constant (htests c List.mem_cons_self) hk htabular hplain hv,
        pure_bind, hrest, firstSelected, List.map_cons, List.zip_cons_cons, List.find?_cons]
      cases k.any v.hasKey <;> rfl

end Eval

/-! ## Tables -/

/-- The first key of the value among all keys is that of the first case with one. -/
theorem find?_keyTargets {v : Value} (keys : List (List CaseKey)) (labels : List Label) :
    ((Emit.keyTargets keys labels).find? fun e => v.hasKey e.1).map (·.2) =
      firstSelected v keys labels := by
  unfold Emit.keyTargets firstSelected
  induction keys.zip labels with
  | nil => rfl
  | cons e rest ih =>
      obtain ⟨ks, l⟩ := e
      simp only [List.flatMap_cons, List.find?_append, List.find?_cons, List.find?_map,
        Function.comp_def]
      cases hks : ks.find? v.hasKey with
      | some k =>
          have hany : ks.any v.hasKey = true :=
            List.any_eq_true.mpr ⟨k, List.mem_of_find?_eq_some hks, List.find?_some hks⟩
          simp [hany]
      | none =>
          have hany : ks.any v.hasKey = false := by
            simpa [List.any_eq_false] using List.find?_eq_none.mp hks
          simpa [hany] using ih

/-- The first key of the value in its bucket is the first among all keys. -/
theorem find?_bucket {v : Value} {own : CaseKey} {key : SwitchKey} {ty : Ty} (size : Nat)
    (hown : v.caseKey? = some own) (hisOf : own.isOf ty = true) (hkey : own.switchKey? = some key)
    (targets : List (CaseKey × Label)) :
    (((Emit.bucketEntries size targets).filter fun e => e.bucket == Bucket.of key size).find?
      fun e => v.hasKey e.key).map (·.target) =
      (targets.find? fun e => v.hasKey e.1).map (·.2) := by
  induction targets with
  | nil => rfl
  | cons e rest ih =>
      obtain ⟨k, l⟩ := e
      unfold Emit.bucketEntries at ih ⊢
      cases hsame : v.hasKey k with
      | true =>
          -- The key is hashed as the value is, so that its bucket is looked at.
          have hk : k.switchKey? = some key := by
            rw [← hkey]
            refine (CaseKey.switchKey?_of_same hisOf ?_).symm
            simpa [Value.hasKey, hown] using hsame
          simp [hk, hsame]
      | false =>
          cases hk : k.switchKey? with
          | none => simpa [hk, hsame] using ih
          | some other =>
              by_cases hbucket : Bucket.of other size = Bucket.of key size
              · simpa [hk, hsame, hbucket] using ih
              · simpa [hk, hsame, hbucket] using ih

end Arbor
