/-
  Conversions between integer kinds.

  A conversion computes the number itself under the policy for overflow.  From
  that the laws of composition follow: there and back through a kind with all the
  numbers, and through a kind that is no narrower than the last one.
-/
import Arbor.Proofs.IntegerKernels

set_option autoImplicit false

namespace Arbor

namespace Word

variable {j k : IntKind}

theorem wrap_wrap (hbits : k.bits ≤ j.bits) (n : Int) : wrap k (wrap j n).val = wrap k n := by
  have hdvd : (2 ^ k.bits : Int) ∣ 2 ^ j.bits := pow_dvd_pow 2 hbits
  have hinner : (wrap j n).val ≡ n [ZMOD 2 ^ k.bits] := (residue_modEq j n).of_dvd hdvd
  exact (eq_wrap ((residue_modEq k _).trans hinner))

theorem wrap_val (w : Word k) : wrap k w.val = w := ext_val (val_wrap w.represents)

end Word

namespace Num

variable {j k : IntKind}

theorem computes_convert (a : Word j) (k : IntKind) : k.Computes a.val (convert (.int j a) (.int k)) :=
  Word.computes_finish k a.val

/-- A conversion of a number that the kind stands for. -/
theorem convert_of_represents {a : Word j} (h : k.Represents a.val) (checked : Bool) :
    convert (.int j a) (.int k) checked = .ok (.int k (.wrap k a.val)) := by
  cases checked with
  | false => rfl
  | true =>
      change (Word.exact k a.val).map (int k) = _
      rw [Word.exact_of_represents h]
      rfl

theorem represents_of_convert {a : Word j} {b : Num} (h : convert (.int j a) (.int k) true = .ok b) :
    k.Represents a.val := by
  by_contra hnot
  rw [(computes_convert a k).overflow hnot] at h
  cases h

/-- Conversions between integer kinds keep the number or its residue.  With checks a conversion succeeds
for the numbers of the new kind and keeps them, without checks it always succeeds; a conversion to a kind
with all numbers of the old one can be undone, an intermediate kind that is no narrower does not show, and
where both modes succeed they agree. -/
theorem conversions_exact (j k : IntKind) (a : Word j) :
    k.Computes a.val (convert (.int j a) (.int k)) ∧
    ((∃ b, convert (.int j a) (.int k) true = .ok b) ↔ k.Represents a.val) ∧
    ((∀ n, j.Represents n → k.Represents n) → ∀ there back, ∃ b,
      convert (.int j a) (.int k) there = .ok b ∧ convert b (.int j) back = .ok (.int j a)) ∧
    (∀ m : IntKind, k.bits ≤ m.bits → ∃ b, convert (.int j a) (.int m) false = .ok b ∧
      convert b (.int k) false = convert (.int j a) (.int k) false) ∧
    ∀ b, convert (.int j a) (.int k) true = .ok b → convert (.int j a) (.int k) false = .ok b := by
  refine ⟨computes_convert a k, ⟨fun ⟨b, hb⟩ => represents_of_convert hb, fun h => ?_⟩, ?_, ?_, ?_⟩
  · exact ⟨_, convert_of_represents h true⟩
  · intro hwider there back
    have hk := hwider a.val a.represents
    have hback : j.Represents (Word.wrap k a.val).val := by
      rw [Word.val_wrap hk]
      exact a.represents
    refine ⟨_, convert_of_represents hk there, ?_⟩
    rw [convert_of_represents hback back, Word.val_wrap hk, Word.wrap_val]
  · intro m hbits
    refine ⟨.int m (.wrap m a.val), rfl, ?_⟩
    change Except.ok (int k (.wrap k (Word.wrap m a.val).val)) = Except.ok (int k (.wrap k a.val))
    rw [Word.wrap_wrap hbits]
  · intro b hb
    have hk := represents_of_convert hb
    rw [convert_of_represents hk true] at hb
    rw [← hb]
    exact convert_of_represents hk false

/-- Minus one is no unsigned byte, unless unchecked, and then it is 255; by way of a long it stays minus
one. -/
theorem conversions_exact_minusOne :
    convert (.int .i8 (.wrap .i8 (-1))) (.int .u8) true = .error .overflow ∧
    (∃ w : Word .u8, convert (.int .i8 (.wrap .i8 (-1))) (.int .u8) false = .ok (.int .u8 w) ∧ w.val = 255) ∧
    ∃ b, convert (.int .i8 (.wrap .i8 (-1))) (.int .i64) true = .ok b ∧
      convert b (.int .i8) true = .ok (.int .i8 (.wrap .i8 (-1))) := by
  obtain ⟨hcomputes, -, -, -, -⟩ := conversions_exact .i8 .u8 (.wrap .i8 (-1))
  obtain ⟨-, -, hundone, -, -⟩ := conversions_exact .i8 .i64 (.wrap .i8 (-1))
  obtain ⟨w, hw, -, hunique⟩ := hcomputes.wrapped
  refine ⟨hcomputes.overflow (by decide), ⟨w, hw, ?_⟩, hundone (fun n hn => ?_) true true⟩
  · rw [← hunique (.wrap .u8 255) (by decide)]
    rfl
  · simp only [IntKind.represents_iff, IntKind.min, IntKind.max, IntKind.signed, IntKind.modulus,
      IntKind.bits, if_true, Nat.pow_eq, Nat.reducePow] at hn ⊢
    omega

end Num

end Arbor
