/-
  Integer arithmetic against exact integers.

  Every operation has an exact result, which it computes under one policy: with
  checks the result is that number or an overflow, without them it is the number
  of the kind that is congruent to it.  Division truncates, and has its two faults
  whether or not it is checked; shifts are by the residue of the count.
-/
import Arbor.Number.Arith
import Mathlib.Data.Int.ModEq

set_option autoImplicit false

namespace Arbor

/-! ## Ranges -/

namespace IntKind

/-- The number is one that the kind stands for: in two's complement, or without a sign. -/
def Represents (k : IntKind) (n : Int) : Prop :=
  if k.signed then -2 ^ (k.bits - 1) ≤ n ∧ n < 2 ^ (k.bits - 1) else 0 ≤ n ∧ n < 2 ^ k.bits

instance (k : IntKind) (n : Int) : Decidable (k.Represents n) := by
  unfold Represents
  infer_instance

theorem represents_iff {k : IntKind} {n : Int} : k.Represents n ↔ k.min ≤ n ∧ n ≤ k.max := by
  cases k <;> simp [Represents, min, max, signed, modulus, bits] <;> omega

theorem min_of_signed {k : IntKind} (h : k.signed = true) : k.min = -2 ^ (k.bits - 1) := by
  revert h
  cases k <;> decide

theorem max_of_signed {k : IntKind} (h : k.signed = true) : k.max = -k.min - 1 := by
  revert h
  cases k <;> decide

theorem min_of_unsigned {k : IntKind} (h : k.signed = false) : k.min = 0 := by
  revert h
  cases k <;> decide

theorem max_sub_min (k : IntKind) : k.max - k.min + 1 = 2 ^ k.bits := by
  cases k <;> rfl

/-- The operation computes the number `n`: with checks, `n` itself where the kind stands for it and an
overflow where it does not; without checks, the one number of the kind that is congruent to `n`. -/
structure Computes (k : IntKind) (n : Int) (operation : Bool → Except NumFault Num) : Prop where
  exact : k.Represents n → ∃ w : Word k, w.val = n ∧ operation true = .ok (.int k w)
  overflow : ¬ k.Represents n → operation true = .error .overflow
  wrapped : ∃ w : Word k, operation false = .ok (.int k w) ∧ w.val ≡ n [ZMOD 2 ^ k.bits] ∧
    ∀ v : Word k, v.val ≡ n [ZMOD 2 ^ k.bits] → v = w

end IntKind

namespace Word

variable {k : IntKind}

theorem represents (w : Word k) : k.Represents w.val := IntKind.represents_iff.mpr ⟨w.lower, w.upper⟩

/-- A residue is congruent to the number. -/
theorem residue_modEq (k : IntKind) (n : Int) : residue k n ≡ n [ZMOD 2 ^ k.bits] := by
  have hmodulus : (k.modulus : Int) = 2 ^ k.bits := by
    simp [IntKind.modulus]
  unfold residue
  rw [← hmodulus]
  split
  · exact Int.bmod_emod
  · exact Int.mod_modEq n _

/-- No two words of a kind are congruent. -/
theorem eq_of_modEq {v w : Word k} (h : v.val ≡ w.val [ZMOD 2 ^ k.bits]) : v = w := by
  have hsize := k.max_sub_min
  have hv := v.lower
  have hv' := v.upper
  have hw := w.lower
  have hw' := w.upper
  have hclose : |v.val - w.val| < 2 ^ k.bits := by
    rw [abs_lt]
    omega
  have hzero := Int.eq_zero_of_abs_lt_dvd h.symm.dvd hclose
  exact ext_val (by omega)

theorem eq_wrap {w : Word k} {n : Int} (h : w.val ≡ n [ZMOD 2 ^ k.bits]) : w = wrap k n :=
  eq_of_modEq (h.trans (residue_modEq k n).symm)

theorem val_wrap {n : Int} (h : k.Represents n) : (wrap k n).val = n :=
  residue_eq_self (IntKind.represents_iff.mp h)

theorem exact_of_represents {n : Int} (h : k.Represents n) : exact k n = .ok (wrap k n) := by
  have hmem := IntKind.represents_iff.mp h
  have hword : (⟨n, hmem.1, hmem.2⟩ : Word k) = wrap k n := ext_val (val_wrap h).symm
  rw [exact, ofInt?, dif_pos hmem, hword]

theorem exact_of_not_represents {n : Int} (h : ¬ k.Represents n) : exact k n = .error .overflow := by
  rw [exact, ofInt?, dif_neg (mt IntKind.represents_iff.mpr h)]

/-- The policy computes the exact result. -/
theorem computes_finish (k : IntKind) (n : Int) :
    k.Computes n fun checked => (finish k checked n).map (Num.int k) where
  exact h := by
    refine ⟨wrap k n, val_wrap h, ?_⟩
    change (exact k n).map (Num.int k) = _
    rw [exact_of_represents h]
    rfl
  overflow h := by
    change (exact k n).map (Num.int k) = _
    rw [exact_of_not_represents h]
    rfl
  wrapped := ⟨wrap k n, rfl, residue_modEq k n, fun _ hv => eq_wrap hv⟩

/-! ## Division -/

/-- The quotient of the smallest number and minus one is the only one that the kind does not stand
for. -/
def Overflows (a b : Word k) : Prop := k.signed = true ∧ a.val = -2 ^ (k.bits - 1) ∧ b.val = -1

instance (a b : Word k) : Decidable (a.Overflows b) := by
  unfold Overflows
  infer_instance

/-- The quotient of a number is no further from zero than the number, and half as far at most where
the divisor is neither one nor minus one. -/
theorem natAbs_tdiv_le_half {a b : Int} (hb : b ≠ 0) (hone : b ≠ 1) (hminus : b ≠ -1) :
    (a.tdiv b).natAbs ≤ a.natAbs / 2 := by
  rw [Int.natAbs_tdiv]
  exact Nat.div_le_div_left (by omega) (by decide)

/-- A quotient is in range unless the division overflows. -/
theorem represents_tdiv {a b : Word k} (hb : b.val ≠ 0) :
    k.Represents (a.val.tdiv b.val) ↔ ¬ a.Overflows b := by
  have hone := k.one_le_max
  obtain ⟨ha, ha'⟩ := And.intro a.lower a.upper
  rw [IntKind.represents_iff]
  cases hsigned : k.signed with
  | false =>
      have hmin := IntKind.min_of_unsigned hsigned
      have hblower := b.lower
      have hnonneg := Int.tdiv_nonneg (a := a.val) (b := b.val) (by omega) (by omega)
      have hle := Int.natAbs_tdiv_le_natAbs a.val b.val
      simp only [Overflows, hsigned, Bool.false_eq_true, false_and, not_false_eq_true, iff_true]
      omega
  | true =>
      have hmin := IntKind.min_of_signed hsigned
      have hmax := IntKind.max_of_signed hsigned
      simp only [Overflows, hsigned, true_and, ← hmin]
      by_cases hminus : b.val = -1
      · rw [hminus, Int.tdiv_neg, Int.tdiv_one]
        omega
      · by_cases hunit : b.val = 1
        · rw [hunit, Int.tdiv_one]
          omega
        · have hhalf := natAbs_tdiv_le_half (a := a.val) hb hunit hminus
          omega

/-- A remainder has the sign of the dividend. -/
theorem sign_tmod (a b : Int) : (0 ≤ a → 0 ≤ a.tmod b) ∧ (a ≤ 0 → a.tmod b ≤ 0) := by
  refine ⟨Int.tmod_nonneg b, fun h => ?_⟩
  have hneg := Int.tmod_nonneg b (Int.neg_nonneg_of_nonpos h)
  rw [Int.neg_tmod] at hneg
  omega

/-- A remainder is in range. -/
theorem represents_tmod (a b : Word k) : k.Represents (a.val.tmod b.val) := by
  have hone := k.one_le_max
  have hzero := k.min_le_zero
  obtain ⟨ha, ha'⟩ := And.intro a.lower a.upper
  have hsign := sign_tmod a.val b.val
  have hle : (a.val.tmod b.val).natAbs ≤ a.val.natAbs := by
    rw [Int.natAbs_tmod]
    exact Nat.mod_le _ _
  rw [IntKind.represents_iff]
  omega

/-- The two outcomes are those of dividing `a` by `b`.  Both have the same faults; without one, the
quotient is truncated and the remainder, which has the sign of `a`, makes up for what it lacks. -/
structure Divides (a b : Word k) (quotient remainder : Except NumFault Num) : Prop where
  quotient_zero : quotient = .error .divideByZero ↔ b.val = 0
  remainder_zero : remainder = .error .divideByZero ↔ b.val = 0
  quotient_overflow : quotient = .error .overflow ↔ a.Overflows b
  remainder_overflow : remainder = .error .overflow ↔ a.Overflows b
  otherwise : b.val ≠ 0 → ¬ a.Overflows b → ∃ q r : Word k,
    quotient = .ok (.int k q) ∧ remainder = .ok (.int k r) ∧ q.val = a.val.tdiv b.val ∧
      a.val = q.val * b.val + r.val ∧ |r.val| < |b.val| ∧
      (0 ≤ a.val → 0 ≤ r.val) ∧ (a.val ≤ 0 → r.val ≤ 0)

theorem not_overflows_of_eq_zero {a b : Word k} (hb : b.val = 0) : ¬ a.Overflows b := by
  rintro ⟨-, -, hminus⟩
  omega

/-- Division of words. -/
theorem divides_arith (a b : Word k) (checked : Bool) :
    a.Divides b ((arith k .div a.val b.val checked).map (Num.int k))
      ((arith k .rem a.val b.val checked).map (Num.int k)) := by
  by_cases hb : b.val = 0
  · have hnot := not_overflows_of_eq_zero (a := a) hb
    simp only [arith, if_pos hb, Except.map]
    exact ⟨by simp [hb], by simp [hb], by simp [hnot], by simp [hnot], fun h => absurd hb h⟩
  · by_cases hover : a.Overflows b
    · have hout := mt (represents_tdiv hb).mp (not_not.mpr hover)
      simp only [arith, if_neg hb, exact_of_not_represents hout, Except.map]
      exact ⟨by simp [hb], by simp [hb], by simp [hover], by simp [hover], fun _ h => absurd hover h⟩
    · have hin := (represents_tdiv hb).mpr hover
      have hrem := represents_tmod a b
      simp only [arith, if_neg hb, exact_of_represents hin, Except.map]
      refine ⟨by simp [hb], by simp [hb], by simp [hover], by simp [hover], fun _ _ => ?_⟩
      refine ⟨_, _, rfl, rfl, val_wrap hin, ?_, ?_, ?_⟩
      · rw [val_wrap hin, val_wrap hrem, Int.tdiv_mul_add_tmod]
      · rw [val_wrap hrem, Int.abs_eq_natAbs, Int.abs_eq_natAbs, Int.natAbs_tmod]
        exact Int.ofNat_lt.mpr (Nat.mod_lt _ (Int.natAbs_pos.mpr hb))
      · rw [val_wrap hrem]
        exact sign_tmod a.val b.val

/-! ## Shifts -/

/-- The bit pattern of a word. -/
def pattern (w : Word k) : BitVec k.bits := .ofInt k.bits w.val

/-- The pattern of a signed word is read back in two's complement. -/
theorem toInt_pattern (w : Word k) (h : k.signed = true) : w.pattern.toInt = w.val := by
  have hself := residue_eq_self ⟨w.lower, w.upper⟩
  rw [residue, if_pos h] at hself
  rw [pattern, BitVec.toInt_ofInt]
  exact hself

/-- The pattern of an unsigned word is read back as a natural number. -/
theorem toNat_pattern (w : Word k) (h : k.signed = false) : (w.pattern.toNat : Int) = w.val := by
  have hself := residue_eq_self ⟨w.lower, w.upper⟩
  have hlower := w.lower
  rw [residue, if_neg (Bool.eq_false_iff.mp h)] at hself
  rw [IntKind.min_of_unsigned h] at hlower
  rw [pattern, BitVec.toNat_ofInt]
  change ((w.val % (k.modulus : Int)).toNat : Int) = w.val
  rw [hself, Int.toNat_of_nonneg hlower]

/-- Wrapping does not change the pattern. -/
theorem pattern_wrap (k : IntKind) (n : Int) : (wrap k n).pattern = .ofInt k.bits n := by
  refine BitVec.eq_of_toNat_eq ?_
  rw [pattern, BitVec.toNat_ofInt, BitVec.toNat_ofInt]
  congr 1
  have hcongruent := residue_modEq k n
  rwa [Int.ModEq] at hcongruent

/-- The two outcomes are those of shifting `a` by `n` places.  To the left the number is multiplied; to
the right it is divided and rounded down, which on bit patterns copies the sign of a signed number and
fills up with zeros in an unsigned one. -/
structure Shifts (a : Word k) (n : Nat) (left right : Except NumFault Num) : Prop where
  left : ∃ w : Word k, left = .ok (.int k w) ∧ w.val ≡ a.val * 2 ^ n [ZMOD 2 ^ k.bits] ∧
    w.pattern = a.pattern <<< n
  right : ∃ w : Word k, right = .ok (.int k w) ∧ w.val = a.val / 2 ^ n ∧
    w.pattern = if k.signed then a.pattern.sshiftRight n else a.pattern >>> n

/-- A number that is divided by a power of two and rounded down stays in range. -/
theorem represents_ediv (a : Word k) (n : Nat) : k.Represents (a.val / 2 ^ n) := by
  have hpos : (0 : Int) < 2 ^ n := Int.pow_pos (by decide)
  have hzero := k.min_le_zero
  have hone := k.one_le_max
  obtain ⟨ha, ha'⟩ := And.intro a.lower a.upper
  rw [IntKind.represents_iff]
  rcases Int.le_total 0 a.val with hsign | hsign
  · have hnonneg := Int.ediv_nonneg hsign (Int.le_of_lt hpos)
    have hle := Int.ediv_le_self (2 ^ n) hsign
    omega
  · have hle : a.val ≤ a.val / 2 ^ n := by
      refine Int.le_ediv_of_mul_le hpos ?_
      calc a.val * 2 ^ n ≤ a.val * 1 := Int.mul_le_mul_of_nonpos_left hsign hpos
        _ = a.val := Int.mul_one _
    have hnonpos : a.val / 2 ^ n ≤ 0 / 2 ^ n := Int.ediv_le_ediv hpos hsign
    rw [Int.zero_ediv] at hnonpos
    omega

/-- A count that is cut down and masked is reduced modulo the width, which divides the range of 32 bits. -/
theorem places_eq (k : IntKind) (count : Int) : places k count = (count % k.bits).toNat := by
  obtain ⟨w, hw, hbits⟩ : ∃ w ≤ 32, k.bits = 2 ^ w := by
    cases k
    case i8 | u8 => exact ⟨3, by decide, rfl⟩
    case i16 | u16 => exact ⟨4, by decide, rfl⟩
    case i32 | u32 => exact ⟨5, by decide, rfl⟩
    case i64 | u64 => exact ⟨6, by decide, rfl⟩
  have hdvd : ((2 ^ w : Nat) : Int) ∣ ((2 ^ 32 : Nat) : Int) :=
    Int.natCast_dvd_natCast.mpr (Nat.pow_dvd_pow 2 hw)
  have hsmall : 2 ^ w - 1 < 2 ^ 32 :=
    Nat.lt_of_lt_of_le (Nat.sub_lt (Nat.two_pow_pos w) Nat.one_pos) (Nat.pow_le_pow_right (by decide) hw)
  calc places k count = (count % ((2 ^ 32 : Nat) : Int)).toNat &&& (2 ^ w - 1) % 2 ^ 32 := by
        rw [places, hbits, BitVec.toNat_and, BitVec.toNat_ofInt, BitVec.toNat_ofNat]
    _ = (count % ((2 ^ 32 : Nat) : Int)).toNat % 2 ^ w := by
        rw [Nat.mod_eq_of_lt hsmall, Nat.and_two_pow_sub_one_eq_mod]
    _ = (count % ((2 ^ 32 : Nat) : Int) % ((2 ^ w : Nat) : Int)).toNat :=
        (Int.toNat_emod (Int.emod_nonneg _ (by decide)) (Int.natCast_nonneg _)).symm
    _ = (count % k.bits).toNat := by rw [Int.emod_emod_of_dvd count hdvd, hbits]

/-- A count is reduced below the width. -/
theorem places_lt {k : IntKind} (count : Int) : (count % k.bits).toNat < k.bits := by
  have hbits : 0 < k.bits := by
    cases k <;> decide
  have hlt := Int.emod_lt_of_pos count (Int.ofNat_lt.mpr hbits)
  omega

/-- A reduced count is congruent to the count. -/
theorem places_modEq {k : IntKind} (count : Int) : count ≡ (count % k.bits).toNat [ZMOD k.bits] := by
  have hbits : (k.bits : Int) ≠ 0 := by
    cases k <;> decide
  rw [Int.toNat_of_nonneg (Int.emod_nonneg count hbits)]
  exact (Int.mod_modEq count _).symm

/-- Shifts of words. -/
theorem shifts_bitwise (a : Word k) (count : Int) :
    a.Shifts (count % k.bits).toNat (.ok (.int k (bitwise k .shl a.val count)))
      (.ok (.int k (bitwise k .shr a.val count))) := by
  generalize hn : (count % k.bits).toNat = n
  have hpower : ((Nat.pow 2 n : Nat) : Int) = 2 ^ n := by
    simp
  have hleft : bitwise k .shl a.val count = wrap k (a.val * 2 ^ n) := by
    rw [← hpower, ← hn, ← places_eq]
    rfl
  have hright : bitwise k .shr a.val count = wrap k (a.val / 2 ^ n) := by
    rw [← hpower, ← hn, ← places_eq]
    rfl
  refine ⟨⟨_, rfl, ?_, ?_⟩, _, rfl, ?_, ?_⟩
  · rw [hleft]
    exact residue_modEq k _
  · rw [hleft, pattern_wrap, BitVec.ofInt_mul, BitVec.shiftLeft_eq_mul_twoPow, pattern, ← hpower,
      BitVec.ofInt_natCast]
    congr 1
    refine BitVec.eq_of_toNat_eq ?_
    rw [BitVec.toNat_ofNat, BitVec.toNat_twoPow]
    rfl
  · rw [hright, val_wrap (represents_ediv a n)]
  · rw [hright]
    have hval := val_wrap (represents_ediv a n)
    cases hsigned : k.signed with
    | true =>
        refine BitVec.eq_of_toInt_eq ?_
        rw [if_pos rfl, toInt_pattern _ hsigned, hval, BitVec.toInt_sshiftRight, toInt_pattern _ hsigned,
          Int.shiftRight_eq_div_pow, ← hpower]
        rfl
    | false =>
        refine BitVec.eq_of_toNat_eq (Int.ofNat.inj ?_)
        rw [if_neg Bool.false_ne_true, BitVec.toNat_ushiftRight]
        change (((wrap k (a.val / 2 ^ n)).pattern.toNat : Nat) : Int) = ((_ : Nat) : Int)
        rw [toNat_pattern _ hsigned, hval, Nat.shiftRight_eq_div_pow, Int.natCast_ediv,
          toNat_pattern _ hsigned]
        norm_cast

end Word

namespace Num

theorem arith_int {k : IntKind} (op : ArithOp) (a b : Word k) :
    arith op (.int k a) (.int k b) = fun checked => (Word.arith k op a.val b.val checked).map (int k) :=
  funext fun _ => if_pos rfl

/-- Negation of an integer is a difference from zero. -/
theorem neg_int {k : IntKind} (a : Word k) : neg (.int k a) = arith .sub (zero (.int k)) (.int k a) := by
  funext checked
  rw [zero, arith_int]
  change (Word.finish k checked (-a.val)).map (int k) = (Word.finish k checked (0 - a.val)).map (int k)
  rw [Int.zero_sub]

theorem bitwise_shift {j k : IntKind} (op : BitOp) (hop : op.isShift = true) (a : Word k) (c : Word j) :
    bitwise op (.int k a) (.int j c) = .ok (.int k (Word.bitwise k op a.val c.val)) := by
  rw [bitwise, hop, Bool.true_or, if_pos rfl]

/-- Arithmetic refuses operands of different kinds. -/
theorem arith_of_kind_ne {x y : Num} (h : x.kind ≠ y.kind) (op : ArithOp) (checked : Bool) :
    arith op x y checked = .error (.kindMismatch x.kind y.kind) := by
  cases x with
  | int j v =>
      cases y with
      | int k w => exact if_neg fun heq => h (congrArg NumKind.int heq)
      | single _ | double _ => rfl
  | single v => cases y <;> first | exact absurd rfl h | rfl
  | double v => cases y <;> first | exact absurd rfl h | rfl

/-- Bitwise operations other than shifts refuse operands of different kinds. -/
theorem bitwise_of_kind_ne {x y : Num} (h : x.kind ≠ y.kind) {op : BitOp} (hop : op.isShift = false) :
    bitwise op x y = .error (.kindMismatch x.kind y.kind) := by
  cases x with
  | int j v =>
      cases y with
      | int k w =>
          have hne : ¬ j = k := fun heq => h (congrArg NumKind.int heq)
          simp [bitwise, hop, hne, kind]
      | single _ | double _ => simp [bitwise, hop, kind]
  | single v => cases y <;> simp_all [bitwise, kind]
  | double v => cases y <;> simp_all [bitwise, kind]

/-- A comparison refuses operands of different kinds. -/
theorem order_of_kind_ne {x y : Num} (h : x.kind ≠ y.kind) :
    order x y = .error (.kindMismatch x.kind y.kind) := by
  cases x with
  | int j v =>
      cases y with
      | int k w => exact if_neg fun heq => h (congrArg NumKind.int heq)
      | single _ | double _ => rfl
  | single v => cases y <;> first | exact absurd rfl h | rfl
  | double v => cases y <;> first | exact absurd rfl h | rfl

/-- Integer arithmetic is exact.  Sums, differences, products and negations are computed under the
policy for overflow, a negation as a difference from zero; divisions truncate, and both of their faults
are independent of the mode; a shift is by the residue of its count, which may be of any integer kind.
No operation but a shift takes operands of different kinds. -/
theorem kernels_exact (k : IntKind) (a b : Word k) :
    k.Computes (a.val + b.val) (arith .add (.int k a) (.int k b)) ∧
    k.Computes (a.val - b.val) (arith .sub (.int k a) (.int k b)) ∧
    k.Computes (a.val * b.val) (arith .mul (.int k a) (.int k b)) ∧
    (∀ checked, a.Divides b (arith .div (.int k a) (.int k b) checked)
      (arith .rem (.int k a) (.int k b) checked)) ∧
    k.Computes (0 - a.val) (neg (.int k a)) ∧
    neg (.int k a) = arith .sub (zero (.int k)) (.int k a) ∧
    (∀ (j : IntKind) (c : Word j), ∃ n : Nat, n < k.bits ∧ c.val ≡ n [ZMOD k.bits] ∧
      a.Shifts n (bitwise .shl (.int k a) (.int j c)) (bitwise .shr (.int k a) (.int j c))) ∧
    ∀ x y : Num, x.kind ≠ y.kind →
      (∀ op checked, arith op x y checked = .error (.kindMismatch x.kind y.kind)) ∧
      (∀ op, op.isShift = false → bitwise op x y = .error (.kindMismatch x.kind y.kind)) ∧
      order x y = .error (.kindMismatch x.kind y.kind) := by
  refine ⟨?_, ?_, ?_, fun checked => ?_, ?_, neg_int a, fun j c => ?_, fun x y hxy => ?_⟩
  · rw [arith_int]
    exact Word.computes_finish k _
  · rw [arith_int]
    exact Word.computes_finish k _
  · rw [arith_int]
    exact Word.computes_finish k _
  · rw [arith_int, arith_int]
    exact Word.divides_arith a b checked
  · rw [neg_int, zero, arith_int]
    exact Word.computes_finish k _
  · rw [bitwise_shift .shl rfl, bitwise_shift .shr rfl]
    exact ⟨_, Word.places_lt c.val, Word.places_modEq c.val, Word.shifts_bitwise a c.val⟩
  · exact ⟨arith_of_kind_ne hxy, fun _ => bitwise_of_kind_ne hxy, order_of_kind_ne hxy⟩

/-- The smallest signed byte is its own negative when that is not checked, and its remainder by minus one
is an overflow in both modes; a byte and a long have no sum. -/
theorem kernels_exact_smallest :
    (∃ w : Word .i8, neg (.int .i8 (.wrap .i8 (-128))) false = .ok (.int .i8 w) ∧ w.val = -128) ∧
    (∀ checked, arith .rem (.int .i8 (.wrap .i8 (-128))) (.int .i8 (.wrap .i8 (-1))) checked =
      .error .overflow) ∧
    arith .add (.int .i8 (.wrap .i8 1)) (.int .i64 (.wrap .i64 1)) true =
      .error (.kindMismatch (.int .i8) (.int .i64)) := by
  obtain ⟨-, -, -, hdivides, hneg, -, -, hkinds⟩ := kernels_exact .i8 (.wrap .i8 (-128)) (.wrap .i8 (-1))
  obtain ⟨w, hw, -, hunique⟩ := hneg.wrapped
  refine ⟨⟨w, hw, ?_⟩, fun checked => (hdivides checked).remainder_overflow.mpr (by decide), ?_⟩
  · have hself := hunique (.wrap .i8 (-128)) (by decide)
    rw [← hself]
    rfl
  · exact (hkinds _ _ (by decide)).1 .add true

end Num

end Arbor
